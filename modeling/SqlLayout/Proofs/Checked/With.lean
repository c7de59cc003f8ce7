import SqlLayout.Proofs.Definitions
import SqlLayout.Proofs.Checked.Query

/-!
# The head of a WITH by index

The head is read by a position that goes on from token to token. A query in
parentheses and the main statement are cut out of the text at the offsets of
tokens, so what is cut is what the tokens spell (`Reads`).
-/

namespace SqlLayout.Checked

def andThen {α β : Type} (x : Run (Except Fault α)) (f : α → Run (Except Fault β)) : Run (Except Fault β) := do
  match ← x with
  | .error e => return .error e
  | .ok a => f a

/-! ## Reading the head -/

def skipSpaceAt (ts : List (Token × Nat × Nat)) (i : Nat) : Run (Except Fault Nat) := do
  match ← nextNonSpace ts i with
  | none => return .ok ts.length
  | some j => return if (← elem ts j).1.isComment then .error (.header .comment) else .ok j

def takeKeywordAt (k : Keyword) (missing : HeaderFault) (ts : List (Token × Nat × Nat)) (i : Nat) :
    Run (Except Fault (Text × Nat)) :=
  andThen (skipSpaceAt ts i) fun i =>
    match ts[i]? with
    | some t => .ok (if t.1.isKeyword k then .ok (t.1.text, i + 1) else .error (.header missing))
    | none => .ok (.error (.header missing))

def takeGroupAt (sql : Text) (ts : List (Token × Nat × Nat)) (i : Nat) : Run (Except Fault (Text × Nat)) :=
  andThen (skipSpaceAt ts i) fun i =>
    if ts[i]?.map (·.1) = some .openParen then do
      match ← walk ts closeParenRound (fun _ => .ok none) {} i with
      | none => return .error .unbalanced
      | some j => return .ok (← slice sql (← elem ts i).2.2 (← elem ts j).2.1, j + 1)
    else .ok (.error (.header .noParen))

def takeNameAt (ts : List (Token × Nat × Nat)) (i : Nat) : Run (Except Fault (Text × Nat)) :=
  andThen (skipSpaceAt ts i) fun i =>
    match ts[i]? with
    | some t => .ok (if isName t.1 then .ok (t.1.text, i + 1) else .error (.header .noName))
    | none => .ok (.error (.header .noName))

def takeColumnsAt (sql : Text) (ts : List (Token × Nat × Nat)) (i : Nat) : Run (Except Fault (Option Text × Nat)) :=
  andThen (skipSpaceAt ts i) fun i =>
    if ts[i]?.map (·.1) = some .openParen then
      andThen (takeGroupAt sql ts i) fun p => do return .ok (some ('(' :: (← normalizeText 0 p.1) ++ [')']), p.2)
    else .ok (.ok (none, i))

def takeDefinitionAt (sql : Text) (ts : List (Token × Nat × Nat)) (i : Nat) : Run (Except Fault (Definition × Nat)) :=
  andThen (takeNameAt ts i) fun name =>
    andThen (takeColumnsAt sql ts name.2) fun columns =>
      andThen (takeKeywordAt .AS .noAs ts columns.2) fun as =>
        andThen (takeGroupAt sql ts as.2) fun body => .ok (.ok (⟨name.1, columns.1, as.1, trim body.1⟩, body.2))

def definitionRound (sql : Text) (ts : List (Token × Nat × Nat)) (ds : List Definition) (i : Nat)
    (_ : Token × Nat × Nat) : Run (Round (List Definition) (Except Fault (List Definition × Nat))) := do
  match ← findFrom (fun t => !t.1.isTrivia) ts i with
  | none => return .stop (.ok (ds, i))
  | some comma =>
    if (← elem ts comma).1 ≠ .comma then return .stop (.ok (ds, i))
    else do
      match ← andThen (skipSpaceAt ts i) fun i => takeDefinitionAt sql ts (i + 1) with
      | .error f => return .stop (.error f)
      | .ok (d, j) => return .next (ds ++ [d]) j

def takeDefinitionsAt (sql : Text) (ts : List (Token × Nat × Nat)) (i : Nat) :
    Run (Except Fault (List Definition × Nat)) :=
  andThen (takeDefinitionAt sql ts i) fun d =>
    walk ts (definitionRound sql ts) (fun ds => .ok (.ok (ds, ts.length))) [d.1] d.2

def readWith (sql : Text) : Run (Except Fault With) := do
  let ts ← lexSpans sql
  andThen (skipSpaceAt ts 0) fun i =>
    let semicolon := ts[i]?.map (·.1) = some .semicolon
    andThen (takeKeywordAt .WITH .noWith ts (if semicolon then i + 1 else i)) fun keyword =>
      andThen (takeDefinitionsAt sql ts keyword.2) fun definitions => do
        let start := (ts[definitions.2]?).elim (byteSize sql) (·.2.1)
        let main := trim (← slice sql start (byteSize sql))
        return if main = [] then .error (.header .noMain)
          else .ok { semicolon, keyword := keyword.1, definitions := definitions.1, main }

/-! ## The head is read alike -/

/-- A position that is reached stands in front of the tokens that are left.
What is read may be the tokens here and their text there. -/
inductive Reads {α β : Type} (ts : List Token) (g : α → β) :
    Except Fault (α × List Token) → Run (Except Fault (β × Nat)) → Prop
  | error (f : Fault) : Reads ts g (.error f) (.ok (.error f))
  | ok (x : α) {a rest : List Token} (e : ts = a ++ rest) : Reads ts g (.ok (x, rest)) (.ok (.ok (g x, a.length)))

section
variable {ts a b : List Token}

theorem Reads.andThen {α β γ : Type} {g : α → β} {x : Except Fault (α × List Token)} {x' : Run (Except Fault (β × Nat))}
    {f : α × List Token → Except Fault (γ × List Token)} {f' : β × Nat → Run (Except Fault (γ × Nat))}
    (hx : Reads ts g x x') (hf : ∀ v a rest, ts = a ++ rest → Reads ts id (f (v, rest)) (f' (g v, a.length))) :
    Reads ts id (x >>= f) (Checked.andThen x' f') := by
  cases hx with
  | error f => exact .error f
  | ok x e => exact hf _ _ _ e

theorem Reads.eq_ok {α β γ : Type} {g : α → β} {x : Except Fault (α × List Token)} {x' : Run (Except Fault (β × Nat))}
    {f : α × List Token → Except Fault γ} {f' : β × Nat → Run (Except Fault γ)} (hx : Reads ts g x x')
    (hf : ∀ v a rest, ts = a ++ rest → f' (g v, a.length) = .ok (f (v, rest))) :
    Checked.andThen x' f' = .ok (x >>= f) := by
  cases hx with
  | error f => rfl
  | ok x e => exact hf _ _ _ e

theorem skipSpaceAt_cases (e : ts = a ++ b) :
    (∃ f, skipSpace b = .error f ∧ skipSpaceAt (spans 0 ts) a.length = .ok (.error f)) ∨
      ∃ ws rest, b = ws ++ rest ∧ skipSpace b = .ok rest ∧ skipSpaceAt (spans 0 ts) a.length = .ok (.ok (a ++ ws).length) := by
  rw [skipSpace, skipSpaceAt]
  rcases nextNonSpace_cases e with ⟨hdrop, hnext⟩ | ⟨ws, t, rest, rfl, -, hdrop, -, hnext, helem⟩
  · exact .inr ⟨b, [], by simp, by rw [hdrop], by rw [hnext]; simp [e]⟩
  · simp only [hdrop, hnext, helem, ok_bind, pure_eq_ok]
    cases t.isComment with
    | true => exact .inl ⟨_, rfl, rfl⟩
    | false => exact .inr ⟨ws, t :: rest, rfl, rfl, rfl⟩

/-- What is read behind space is read from the token that stands there. -/
theorem Reads.skip {α β : Type} {g : α → β} {f : List Token → Except Fault (α × List Token)}
    {f' : Nat → Run (Except Fault (β × Nat))} (e : ts = a ++ b)
    (h : ∀ a rest, ts = a ++ rest → Reads ts g (f rest) (f' a.length)) :
    Reads ts g (skipSpace b >>= f) (Checked.andThen (skipSpaceAt (spans 0 ts) a.length) f') := by
  rcases skipSpaceAt_cases e with ⟨fault, hs, hs'⟩ | ⟨ws, rest, rfl, hs, hs'⟩
  · rw [hs, hs']; exact .error fault
  · rw [hs, hs']; exact h _ _ (by rw [e, List.append_assoc])

theorem getElem?_spans_end (e : ts = a) : (spans 0 ts)[a.length]? = none := by simp [e]

theorem Reads.token {f : Fault} {p : Token → Bool} {t : Token} {us : List Token} (e : ts = a ++ t :: us) :
    Reads ts id (if p t then .ok (t.text, us) else .error f) (.ok (if p t then .ok (t.text, a.length + 1) else .error f)) := by
  cases p t with
  | true =>
    have h := Reads.ok (g := id) t.text (show ts = (a ++ [t]) ++ us by rw [e, List.append_assoc]; rfl)
    rwa [List.length_append] at h
  | false => exact .error f

theorem takeKeywordAt_reads (k : Keyword) (missing : HeaderFault) (e : ts = a ++ b) :
    Reads ts id (takeKeyword k missing b) (takeKeywordAt k missing (spans 0 ts) a.length) := by
  refine Reads.skip e fun a rest e => ?_
  cases rest with
  | nil => rw [getElem?_spans_end (by simpa using e)]; exact .error _
  | cons t us => rw [getElem?_spans e]; exact .token e

theorem takeNameAt_reads (e : ts = a ++ b) : Reads ts id (takeName b) (takeNameAt (spans 0 ts) a.length) := by
  refine Reads.skip e fun a rest e => ?_
  cases rest with
  | nil => rw [getElem?_spans_end (by simpa using e)]; exact .error _
  | cons t us => rw [getElem?_spans e]; exact .token e

theorem map_fst_spans_get (e : ts = a ++ b) : ((spans 0 ts)[a.length]?).map (·.1) = b.head? := by
  cases b with
  | nil => rw [getElem?_spans_end (by simpa using e)]; rfl
  | cons t us => rw [getElem?_spans e]; rfl

theorem takeGroupAt_reads (e : ts = a ++ b) :
    Reads ts spell (takeGroup b) (takeGroupAt (spell ts) (spans 0 ts) a.length) := by
  refine Reads.skip e fun a rest e => ?_
  rw [map_fst_spans_get e]
  by_cases hopen : rest.head? = some .openParen
  · obtain ⟨us, rfl⟩ := List.head?_eq_some_iff.mp hopen
    have e' : ts = (a ++ [.openParen]) ++ us := by rw [e]; simp
    have hstart : closeParenRound {} a.length (.openParen, byteSize (spell a), byteSize (spell a) + byteSize ['(']) =
        .ok (.next (Nesting.step {} .openParen) (a.length + 1)) := by rw [closeParenRound, stepDepth_eq]; rfl
    have hwalk := walk_closeParen e' (show (Nesting.step {} .openParen).depth = 0 + 1 from rfl)
    rw [List.length_append, List.length_singleton] at hwalk
    rw [if_pos hopen, walk_next (getElem?_spans e) hstart (Nat.lt_succ_self _), hwalk]
    cases hclose : splitClosing 0 us with
    | none => simp only [hclose]; exact .error .unbalanced
    | some p =>
      simp only [hclose]
      obtain ⟨inner, rest⟩ := p
      obtain rfl := splitClosing_eq hclose
      have e'' : ts = (a ++ [.openParen] ++ inner) ++ .closeParen :: rest := by rw [e']; simp
      have htext : spell ts = spell (a ++ [.openParen]) ++ spell inner ++ spell (.closeParen :: rest) := by
        rw [e'', spell_append, spell_append]
      have hslice : slice (spell ts) (byteSize (spell a) + byteSize ['(']) (byteSize (spell (a ++ [.openParen] ++ inner))) =
          .ok (spell inner) := by
        rw [htext]
        exact slice_append _ _ _ (by rw [spell_append, byteSize_append]; rfl) (by rw [spell_append, byteSize_append])
      have h := Reads.ok (g := spell) inner (show ts = (a ++ [.openParen] ++ inner ++ [.closeParen]) ++ rest by rw [e'']; simp)
      rw [List.length_append, List.length_singleton] at h
      simpa only [Option.map_some, ok_bind, elem_of_getElem? (getElem?_spans e), elem_of_getElem? (getElem?_spans e''),
        hslice, pure_eq_ok, Token.text] using h
  · rw [if_neg hopen]
    cases rest with
    | nil => exact .error _
    | cons t us =>
      cases t with
      | openParen => exact absurd rfl hopen
      | _ => exact .error _

theorem takeColumnsAt_reads (e : ts = a ++ b) :
    Reads ts id (takeColumns b) (takeColumnsAt (spell ts) (spans 0 ts) a.length) := by
  refine Reads.skip e fun a rest e => ?_
  rw [map_fst_spans_get e]
  by_cases hopen : rest.head? = some .openParen
  · obtain ⟨us, rfl⟩ := List.head?_eq_some_iff.mp hopen
    rw [if_pos hopen]
    refine Reads.andThen (takeGroupAt_reads e) fun inner a rest e => ?_
    rw [normalizeText_eq]
    exact .ok _ e
  · rw [if_neg hopen]
    cases rest with
    | nil => exact .ok none e
    | cons t us =>
      cases t with
      | openParen => exact absurd rfl hopen
      | _ => exact .ok none e

theorem takeDefinitionAt_reads (e : ts = a ++ b) :
    Reads ts id (takeDefinition b) (takeDefinitionAt (spell ts) (spans 0 ts) a.length) := by
  refine Reads.andThen (takeNameAt_reads e) fun name a rest e => ?_
  refine Reads.andThen (takeColumnsAt_reads e) fun columns a rest e => ?_
  refine Reads.andThen (takeKeywordAt_reads .AS .noAs e) fun as a rest e => ?_
  refine Reads.andThen (takeGroupAt_reads e) fun body a rest e => ?_
  exact .ok _ e

def takeMore (ts : List Token) : Except Fault (List Definition × List Token) :=
  match ts.dropWhile Token.isTrivia with
  | .comma :: _ => skipSpace ts >>= fun us => takeDefinitions us.tail
  | _ => .ok ([], ts)

theorem takeMore_comma {tail : List Token} (h : ts.dropWhile Token.isTrivia = .comma :: tail) :
    takeMore ts = skipSpace ts >>= fun us => takeDefinitions us.tail := by rw [takeMore, h]

theorem takeDefinitions_eq (ts : List Token) :
    takeDefinitions ts = takeDefinition ts >>= fun p => (takeMore p.2).map (Prod.map (p.1 :: ·) id) := by
  rw [takeDefinitions]
  split
  · next f h => rw [h]; rfl
  · next d rest h =>
    have hbind : (takeDefinition ts >>= fun p => (takeMore p.2).map (Prod.map (p.1 :: ·) id)) =
        (takeMore rest).map (Prod.map (d :: ·) id) := by rw [h]; rfl
    rw [hbind]
    split
    · next tail hc =>
      have hmore := takeMore_comma hc
      split
      · next f h' => rw [hmore, h']; rfl
      · next us h' => rw [h'] at hmore; rw [hmore]; rfl
    · next hc =>
      rw [takeMore]
      split
      · next tail hc' => exact absurd hc' (hc tail)
      · rfl

theorem Reads.cases {α β : Type} {g : α → β} {x : Except Fault (α × List Token)} {x' : Run (Except Fault (β × Nat))}
    (h : Reads ts g x x') : (∃ f, x = .error f ∧ x' = .ok (.error f)) ∨
      ∃ v a rest, ts = a ++ rest ∧ x = .ok (v, rest) ∧ x' = .ok (.ok (g v, a.length)) := by
  cases h with
  | error f => exact .inl ⟨f, rfl, rfl⟩
  | ok x e => exact .inr ⟨x, _, _, e, rfl, rfl⟩

theorem definitionRound_cases (e : ts = a ++ b) (ds : List Definition) (p : Token × Nat × Nat) :
    let round := definitionRound (spell ts) (spans 0 ts) ds a.length p
    (takeMore b = .ok ([], b) ∧ round = .ok (.stop (.ok (ds, a.length)))) ∨
    (∃ f, takeMore b = .error f ∧ round = .ok (.stop (.error f))) ∨
    ∃ d a' rest, ts = a' ++ rest ∧ takeMore b = (takeMore rest).map (Prod.map (d :: ·) id) ∧ rest.length < b.length ∧
      round = .ok (.next (ds ++ [d]) a'.length) := by
  intro round
  have hfind := findFrom_spans (fun t => !t.isTrivia) e
  rcases findIdx?_split (fun t : Token => !t.isTrivia) b with ⟨hall, hnone⟩ | ⟨ws, u, vs, hb, hws, hu, hsome⟩
  · have hdrop : b.dropWhile Token.isTrivia = [] := List.dropWhile_eq_nil_iff.mpr fun w hw => by simpa using hall w hw
    exact .inl ⟨by rw [takeMore, hdrop], by simp only [round, definitionRound, hfind, hnone, ok_bind, Option.map_none]; rfl⟩
  have hdrop : b.dropWhile Token.isTrivia = u :: vs := by
    rw [hb, List.dropWhile_append_of_pos fun w hw => by simpa using hws w hw, List.dropWhile_cons_of_neg (by simpa using hu)]
  have helem := elem_of_getElem? (getElem?_spans (show ts = (a ++ ws) ++ u :: vs by rw [e, hb]; simp))
  rw [List.length_append] at helem
  by_cases hcomma : u = .comma
  · subst hcomma
    have hround : round = do
        match ← andThen (skipSpaceAt (spans 0 ts) a.length) fun i => takeDefinitionAt (spell ts) (spans 0 ts) (i + 1) with
        | .error f => return .stop (.error f)
        | .ok (d, j) => return .next (ds ++ [d]) j := by
      simp only [round, definitionRound, hfind, hsome, ok_bind, Option.map_some, helem]; rfl
    rw [takeMore_comma hdrop]
    rcases skipSpaceAt_cases e with ⟨f, hs, hs'⟩ | ⟨ws', rest, hrest, hs, hs'⟩
    · exact .inr (.inl ⟨f, by rw [hs]; rfl, by rw [hround, hs']; rfl⟩)
    obtain rfl := skipSpace_comma hdrop hs
    have e' : ts = (a ++ ws' ++ [.comma]) ++ vs := by rw [e, hrest]; simp
    have hbind : (skipSpace b >>= fun us => takeDefinitions us.tail) = takeDefinitions vs := by rw [hs]; rfl
    have hlength : (a ++ ws' ++ [Token.comma]).length = (a ++ ws').length + 1 := List.length_append
    have hthen : andThen (skipSpaceAt (spans 0 ts) a.length) (fun i => takeDefinitionAt (spell ts) (spans 0 ts) (i + 1)) =
        takeDefinitionAt (spell ts) (spans 0 ts) (a ++ ws' ++ [Token.comma]).length := by rw [hs', hlength]; rfl
    rw [hbind, takeDefinitions_eq, hround, hthen]
    rcases (takeDefinitionAt_reads e').cases with ⟨f, hd, hd'⟩ | ⟨d, a', rest, e'', hd, hd'⟩
    · exact .inr (.inl ⟨f, by rw [hd]; rfl, by rw [hd']; rfl⟩)
    · have hlt := takeDefinition_length hd
      exact .inr (.inr ⟨d, a', rest, e'', by rw [hd]; rfl, by rw [hrest]; simp; omega, by rw [hd']; rfl⟩)
  · have hround : round = .ok (.stop (.ok (ds, a.length))) := by
      simp only [round, definitionRound, hfind, hsome, ok_bind, Option.map_some, helem, ne_eq, hcomma, not_false_eq_true, if_true,
        pure_eq_ok]
    refine .inl ⟨?_, hround⟩
    rw [takeMore, hdrop]
    cases u with
    | comma => exact absurd rfl hcomma
    | _ => rfl

theorem walk_definitions (e : ts = a ++ b) (ds : List Definition) :
    Reads ts id ((takeMore b).map (Prod.map (ds ++ ·) id))
      (walk (spans 0 ts) (definitionRound (spell ts) (spans 0 ts)) (fun ds => .ok (.ok (ds, (spans 0 ts).length))) ds
        a.length) := by
  induction hn : b.length using Nat.strong_induction_on generalizing a b ds with
  | _ n ih =>
  subst hn
  have hnone : Reads ts id ((Except.ok ([], b) : Except Fault _).map (Prod.map (ds ++ ·) id)) (.ok (.ok (ds, a.length))) := by
    simpa [Except.map] using Reads.ok (g := id) ds e
  cases b with
  | nil =>
    have hlen : (spans 0 ts).length = a.length := by simp [e]
    rw [walk_end (by rw [hlen]), hlen]
    exact hnone
  | cons t us =>
    rcases definitionRound_cases e ds (t, byteSize (spell a), byteSize (spell a) + byteSize t.text) with
      ⟨hmore, hround⟩ | ⟨f, hmore, hround⟩ | ⟨d, a', rest, e', hmore, hlt, hround⟩
    · rw [hmore, walk_stop (getElem?_spans e) hround]; exact hnone
    · rw [hmore, walk_stop (getElem?_spans e) hround]; exact .error f
    · have hlen := congrArg List.length (e.symm.trans e')
      have ih := ih rest.length hlt e' (ds ++ [d]) rfl
      rw [hmore, walk_next (getElem?_spans e) hround (by simp at hlen hlt; omega)]
      cases hrest : takeMore rest with
      | error f => rw [hrest] at ih; exact ih
      | ok p =>
        rw [hrest] at ih
        simpa [Except.map, Prod.map] using ih

theorem takeDefinitionsAt_reads (e : ts = a ++ b) :
    Reads ts id (takeDefinitions b) (takeDefinitionsAt (spell ts) (spans 0 ts) a.length) := by
  rw [takeDefinitions_eq]
  exact Reads.andThen (takeDefinitionAt_reads e) fun d a rest e => walk_definitions e [d]

end

theorem readWith_eq (sql : Text) : readWith sql = .ok (With.ofText sql) := by
  rw [readWith, lexSpans_eq, ok_bind, With.ofText]
  rcases skipSpaceAt_cases (show tokenize sql = [] ++ tokenize sql from rfl) with ⟨f, hs, hs'⟩ | ⟨ws, rest, e, hs, hs'⟩
  · rw [List.length_nil] at hs'
    rw [hs, hs']; rfl
  rw [List.length_nil, List.nil_append] at hs'
  have hsemi := map_fst_spans_get e
  -- the position behind a semicolon
  obtain ⟨a, e', ha⟩ : ∃ a, tokenize sql = a ++ (if rest.head? = some .semicolon then rest.tail else rest) ∧
      a.length = (if rest.head? = some .semicolon then ws.length + 1 else ws.length) := by
    split
    · next h =>
      obtain ⟨us, rfl⟩ := List.head?_eq_some_iff.mp h
      exact ⟨ws ++ [.semicolon], by rw [e]; simp, by simp⟩
    · exact ⟨ws, e, rfl⟩
  rw [hs, hs']
  simp only [andThen, ok_bind, hsemi]
  rw [← ha]
  refine Reads.eq_ok (f := fun p => _) (takeKeywordAt_reads .WITH .noWith e') fun keyword a rest e => ?_
  have hdefs := takeDefinitionsAt_reads e
  rw [spell_tokenize] at hdefs
  refine Reads.eq_ok (f := fun p => _) hdefs fun definitions a rest e => ?_
  have hmain : slice sql (((spans 0 (tokenize sql))[a.length]?).elim (byteSize sql) (·.2.1)) (byteSize sql) =
      .ok (spell rest) := by
    have htext : sql = spell a ++ spell rest := by rw [← spell_append, ← e, spell_tokenize]
    have hstart : ((spans 0 (tokenize sql))[a.length]?).elim (byteSize sql) (·.2.1) = byteSize (spell a) := by
      cases rest with
      | nil => rw [getElem?_spans_end (by simpa using e)]; simp [htext]
      | cons t us => rw [getElem?_spans e]; rfl
    rw [hstart, htext]
    exact slice_tail ..
  simp only [hmain, ok_bind]
  rfl

/-! ## Lines -/

def startsWithSelectAt (sql : Text) : Run Bool := do
  return ((← lex sql).find? Token.isCode).any (Token.isKeyword .SELECT)

def statementLines (o : Options) (sql : Text) : Run (List Text) := do
  if ← startsWithSelectAt sql then
    match ← formatSelect o sql with
    | .ok ls => return ls
    | .error _ => return trimmedLines sql
  else return trimmedLines sql

def definitionText (o : Options) (front close : Text) (d : Definition) : Run (List Text) := do
  let columns := d.columns.elim [] (' ' :: ·)
  let body ← statementLines o d.body
  return (front ++ d.name ++ columns ++ ' ' :: d.as ++ " (".toList) :: body.map (indentLine o.indentSize) ++ [close]

def laterDefinitionTexts (o : Options) : List Definition → Run (List Text)
  | [] => .ok []
  | d :: ds => do
    let front := if o.commaPlace = .before then [',', ' '] else []
    let close := if o.commaPlace = .after && ds ≠ [] then [')', ','] else [')']
    return (← definitionText o front close d) ++ (← laterDefinitionTexts o ds)

def definitionTexts (o : Options) (front : Text) : List Definition → Run (List Text)
  | [] => .ok []
  | d :: ds => do
    let close := if o.commaPlace = .after && ds ≠ [] then [')', ','] else [')']
    return (← definitionText o front close d) ++ (← laterDefinitionTexts o ds)

def formatWith (o : Options) (sql : Text) : Run (Except Fault (List Text)) := do
  let cased ← recaseText o sql
  andThen (checkText cased) fun _ =>
    andThen (readWith cased) fun w => do
      let front := (if w.semicolon then [';'] else []) ++ w.keyword ++ [' ']
      let definitions ← definitionTexts o front w.definitions
      let main ← if ← startsWithSelectAt w.main then statementLines o w.main else .ok ((splitLines w.main).map trimEnd)
      return .ok (definitions ++ main)

theorem startsWithSelectAt_eq (sql : Text) : startsWithSelectAt sql = .ok (startsWithSelect sql) := by
  rw [startsWithSelectAt, lex_eq]; rfl

theorem statementLines_eq (o : Options) (sql : Text) : statementLines o sql = .ok (queryLines o sql) := by
  rw [statementLines, startsWithSelectAt_eq, ok_bind, queryLines]
  split
  · rw [formatSelect_eq, ok_bind]
    cases selectLines o sql <;> rfl
  · rfl

theorem definitionText_eq (o : Options) (front close : Text) (d : Definition) :
    definitionText o front close d = .ok (d.lines o front close) := by
  rw [definitionText, statementLines_eq]; rfl

theorem laterDefinitionTexts_eq (o : Options) (ds : List Definition) :
    laterDefinitionTexts o ds = .ok (laterDefinitions o ds) := by
  induction ds with
  | nil => rfl
  | cons d ds ih => rw [laterDefinitionTexts, definitionText_eq, ok_bind, ih]; rfl

theorem definitionTexts_eq (o : Options) (front : Text) (ds : List Definition) :
    definitionTexts o front ds = .ok (definitionLines o front ds) := by
  cases ds with
  | nil => rfl
  | cons d ds => rw [definitionTexts, definitionText_eq, ok_bind, laterDefinitionTexts_eq]; rfl

theorem formatWith_eq (o : Options) (sql : Text) : formatWith o sql = .ok (withLines o sql) := by
  rw [formatWith, recaseText_eq, ok_bind, checkText_eq, readWith_eq, withLines]
  cases checkTokens (tokenize (recase o sql)) with
  | error f => rfl
  | ok _ =>
    simp only [andThen, ok_bind]
    cases With.ofText (recase o sql) with
    | error f => rfl
    | ok w =>
      simp only [definitionTexts_eq, startsWithSelectAt_eq, statementLines_eq, ok_bind]
      change _ = Except.ok (Except.ok (w.lines o))
      rw [With.lines]
      split <;> rfl

end SqlLayout.Checked
