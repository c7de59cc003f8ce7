import SqlLayout.Proofs.Sections
import SqlLayout.Proofs.Checked.Tokens

/-!
# Clauses by offset

A SELECT is cut at offsets that a loop over its tokens notes: where a clause
keyword starts and where the body behind it does. The parts of a FROM clause
are cut in the same way.
-/

namespace SqlLayout.Checked

/-! ## Words -/

def words (s : Text) : List Text := (s.splitOnP isBlank).filter (· ≠ [])

def joinWords (s : Text) : Text := [' '].intercalate (words s)

theorem words_append_blank {c : Char} (hc : isBlank c) (s t : Text) : words (s ++ c :: t) = words s ++ words t := by
  rw [words, List.splitOnP_append_cons _ _ hc, List.filter_append, words, words]

theorem words_blank {w : Text} (hw : w.all isBlank) (s : Text) : words (w ++ s) = words s := by
  induction w with
  | nil => rfl
  | cons c w ih =>
    obtain ⟨hc, hw⟩ : isBlank c ∧ w.all isBlank := by simpa using hw
    exact (words_append_blank hc [] (w ++ s)).trans (ih (by simpa using hw))

theorem words_word {w : Text} (hw : ∀ c ∈ w, isBlank c = false) (hne : w ≠ []) : words w = [w] := by
  rw [words, List.splitOnP_eq_singleton hw]; simp [hne]

theorem keyword_nonblank {t : Token} {k : Keyword} (h : t.keyword = some k) : words t.text = [t.text] :=
  words_word (keyword_text h).1 (keyword_text h).2

theorem words_keywords {t : Token} {k : Keyword} (ht : t.keyword = some k) {c : Char} (hc : isBlank c) {w : Text}
    (hw : w.all isBlank) (s : Text) : words (t.text ++ (c :: w ++ s)) = t.text :: words s := by
  rw [List.cons_append, words_append_blank hc, keyword_nonblank ht, words_blank hw]; rfl

/-! ## Cuts -/

structure Mark (κ : Type) where
  kind : κ
  start : Nat
  bodyStart : Nat

structure Cut (κ : Type) where
  kind : κ
  head : List Token
  body : List Token

section
variable {κ : Type}

def Cut.tokens (c : Cut κ) : List Token := c.head ++ c.body

def Cut.keyword (c : Cut κ) : Text := joinWords (spell c.head)

def nextStart (s : Text) : List (Mark κ) → Nat
  | m :: _ => m.start
  | [] => byteSize s

/-- The parts of a text: each ends where the next one starts. -/
def cutAt (s : Text) : List (Mark κ) → Run (List (κ × Text × Text))
  | [] => .ok []
  | m :: ms => do
    let keyword ← slice s m.start m.bodyStart
    let body ← slice s m.bodyStart (nextStart s ms)
    return (m.kind, joinWords keyword, body) :: (← cutAt s ms)

def marks (k : Nat) : List (Cut κ) → List (Mark κ)
  | [] => []
  | c :: cs =>
    ⟨c.kind, k, k + byteSize (spell c.head)⟩ :: marks (k + byteSize (spell c.tokens)) cs

theorem cutAt_marks {s a : Text} {cs : List (Cut κ)} (e : s = a ++ spell (cs.flatMap Cut.tokens)) :
    cutAt s (marks (byteSize a) cs) = .ok (cs.map fun c => (c.kind, c.keyword, spell c.body)) := by
  induction cs generalizing a with
  | nil => rfl
  | cons c cs ih =>
    have hcut : spell c.tokens = spell c.head ++ spell c.body := spell_append ..
    rw [List.flatMap_cons, spell_append] at e
    have hstop : nextStart s (marks (byteSize a + byteSize (spell c.tokens)) cs) =
        byteSize a + byteSize (spell c.tokens) := by
      cases cs with
      | nil => rw [marks, nextStart, e]; simp [byteSize_append]
      | cons d cs => rfl
    have ih := ih (a := a ++ spell c.tokens) (by rw [e, List.append_assoc])
    rw [byteSize_append] at ih
    rw [hcut] at e
    have hhead : slice s (byteSize a) (byteSize a + byteSize (spell c.head)) = .ok (spell c.head) := by
      rw [e, List.append_assoc, ← List.append_assoc]
      exact slice_append a _ _ rfl rfl
    have hbody : slice s (byteSize a + byteSize (spell c.head)) (byteSize a + byteSize (spell c.tokens)) =
        .ok (spell c.body) := by
      rw [e, ← List.append_assoc, ← List.append_assoc]
      exact slice_append _ _ _ (byteSize_append ..).symm (by rw [hcut]; simp [byteSize_append]; omega)
    simp only [marks, cutAt, hstop, hhead, hbody, ih, ok_bind]; rfl

end

/-! ## Clauses -/

structure Marking where
  nesting : Nesting := {}
  marks : List (Mark ClauseKind) := []

def byBehind (ts : List (Token × Nat × Nat)) (i : Nat) : Run (Option Nat) := do
  match ← position (fun t => !t.1.isSpace) ts (i + 1) with
  | some next => return if (← elem ts next).1.isKeyword .BY then some next else none
  | none => return none

def opensAt (ts : List (Token × Nat × Nat)) (i : Nat) : Keyword → Run (Option (ClauseKind × Nat))
  | .SELECT => .ok (some (.SELECT, i))
  | .FROM => .ok (some (.FROM, i))
  | .WHERE => .ok (some (.WHERE, i))
  | .HAVING => .ok (some (.HAVING, i))
  | .GROUP => do return (← byBehind ts i).map (.GROUP_BY, ·)
  | .ORDER => do return (← byBehind ts i).map (.ORDER_BY, ·)
  | _ => .ok none

def markRound (ts : List (Token × Nat × Nat)) (s : Marking) (i : Nat) (t : Token × Nat × Nat) :
    Run (Round Marking (Except Fault Marking)) := do
  let (level, nesting) ← stepDepth s.nesting t.1
  let s := { s with nesting }
  match keywordAt level t.1 with
  | none => return .next s (i + 1)
  | some k =>
    match ← opensAt ts i k with
    | some (kind, last) => do
      let (_, _, stop) ← elem ts last
      return .next { s with marks := s.marks ++ [⟨kind, t.2.1, stop⟩] } (last + 1)
    | none => return if k.isSetOperator then .stop (.error (.shape (.setOperator k))) else .next s (i + 1)

def ofMarks (sql : Text) (ts : List (Token × Nat × Nat)) (n : Nesting) (ms : List (Mark ClauseKind)) :
    Run (Except Fault Select) :=
  if !n.isBalanced then .ok (.error .unbalanced)
  else match ms with
    | [] => .ok (.error (.shape .missingSelect))
    | first :: _ =>
      if first.kind ≠ .SELECT then .ok (.error (.shape (.beforeSelect first.kind)))
      else match disorder? (ms.map Mark.kind) with
        | some (l, k) => .ok (.error (.shape (.outOfOrder l k)))
        | none =>
          if (ts.takeWhile (·.2.1 < first.start)).any (·.1.isCode) then .ok (.error (.shape .textBeforeSelect))
          else do
            let lead := trim (← slice sql 0 first.start)
            let parts ← cutAt sql ms
            return .ok {
              lead := if lead = [] then none else some lead
              clauses := parts.map fun p => ⟨p.1, p.2.1, trim p.2.2⟩ }

def extract (sql : Text) : Run (Except Fault Select) := do
  let ts ← lexSpans sql
  match ← walk ts (markRound ts) (fun s => .ok (.ok s)) {} 0 with
  | .error f => return .error f
  | .ok s => ofMarks sql ts s.nesting s.marks

def Cut.section (c : Cut ClauseKind) : Section := ⟨c.kind, c.keyword, c.body⟩

section
variable {ts a b : List Token} {t : Token} {k : Keyword}

theorem step_of_space (n : Nesting) (h : t.isSpace ∨ t.isKeyword .BY) : n.step t = n ∧
    ∀ k ∈ n.topKeyword t, k = .BY := by
  cases t with
  | word w =>
    have hw : Keyword.ofWord? w = some .BY := of_decide_eq_true (h.resolve_left nofun)
    refine ⟨rfl, fun k hk => ?_⟩
    rw [Nesting.topKeyword] at hk
    split at hk
    · simpa [Token.keyword, hw] using hk.symm
    · cases hk
  | whitespace w => exact ⟨rfl, fun k hk => by simp [Nesting.topKeyword, Token.keyword] at hk⟩
  | _ => simp [Token.isKeyword, Token.keyword, Token.isSpace] at h

theorem sections_space {skip : List Token} (h : ∀ t ∈ skip, t.isSpace ∨ t.isKeyword .BY) (n : Nesting) (rest : List Token) :
    sections n (skip ++ rest) = (skip ++ (sections n rest).1, (sections n rest).2) ∧
      setOperator? n (skip ++ rest) = setOperator? n rest ∧ (skip ++ rest).foldl Nesting.step n = rest.foldl Nesting.step n := by
  induction skip with
  | nil => exact ⟨rfl, rfl, rfl⟩
  | cons t skip ih =>
    obtain ⟨ih₁, ih₂, ih₃⟩ := ih fun u hu => h u (List.mem_cons_of_mem _ hu)
    obtain ⟨hstep, hk⟩ := step_of_space n (h t List.mem_cons_self)
    rw [List.cons_append, sections, setOperator?, List.foldl_cons, hstep, ih₁, ih₂, ih₃]
    cases htop : n.topKeyword t with
    | none => exact ⟨rfl, rfl, rfl⟩
    | some k => obtain rfl := hk k htop; exact ⟨rfl, rfl, rfl⟩

theorem byBehind_cases (e : ts = a ++ t :: b) :
    (∃ ws u us, b = ws ++ u :: us ∧ (∀ w ∈ ws, w.isSpace) ∧ u.isKeyword .BY ∧
      byBehind (spans 0 ts) a.length = .ok (some (a.length + (ws ++ [u]).length))) ∨
    (∀ u ∈ (b.dropWhile Token.isSpace).head?, u.isKeyword .BY = false) ∧ byBehind (spans 0 ts) a.length = .ok none := by
  have e' : ts = a ++ [t] ++ b := by rw [e, List.append_assoc, List.singleton_append]
  have hpos := position_spans (fun t => !t.isSpace) e'
  rw [List.length_append, List.length_singleton] at hpos
  rw [byBehind, hpos, ok_bind]
  rcases findIdx?_split (fun t : Token => !t.isSpace) b with ⟨hall, hnone⟩ | ⟨ws, u, us, rfl, hws, hu, hsome⟩
  · have hws : b.dropWhile Token.isSpace = [] := List.dropWhile_eq_nil_iff.mpr fun w hw => by simpa using hall w hw
    exact .inr ⟨by rw [hws]; nofun, by rw [hnone]; rfl⟩
  · have hws : ∀ w ∈ ws, w.isSpace := fun w hw => by simpa using hws w hw
    have hdrop : (ws ++ u :: us).dropWhile Token.isSpace = u :: us := by
      rw [List.dropWhile_append_of_pos hws, List.dropWhile_cons_of_neg (by simpa using hu)]
    have helem : elem (spans 0 ts) (a.length + 1 + ws.length) =
        .ok (u, byteSize (spell (a ++ [t] ++ ws)), byteSize (spell (a ++ [t] ++ ws)) + byteSize u.text) := by
      rw [elem_of_getElem?]
      have h := getElem?_spans (show ts = a ++ [t] ++ ws ++ u :: us by rw [e']; simp)
      rwa [List.length_append, List.length_append] at h
    simp only [hsome, Option.map_some, helem, ok_bind]
    cases hby : u.isKeyword .BY with
    | true => exact .inl ⟨ws, u, us, rfl, hws, hby, by simp; omega⟩
    | false => exact .inr ⟨by simp [hdrop, hby], rfl⟩

theorem keyword_by {ws : List Token} {u : Token} (hk : t.keyword = some k) (h : Lexed (t :: (ws ++ [u])))
    (hws : ∀ w ∈ ws, w.isSpace) (hu : u.isKeyword .BY) : joinWords (spell (t :: (ws ++ [u]))) = t.text ++ ' ' :: u.text := by
  have hku : u.keyword = some .BY := by simpa [Token.isKeyword] using hu
  have hblank := isBlank_spell_space (fun w hw => h.2.2.of_append.1.formed hw) hws
  have hne : spell ws ≠ [] := by
    intro hnil
    obtain ⟨v, rfl⟩ := isWord_of_isKeyword hu
    obtain ⟨w, rfl⟩ : ∃ w, t = .word w := by
      cases t with
      | word w => exact ⟨w, rfl⟩
      | _ => cases hk
    obtain ⟨c, r, rfl, hc, -⟩ : (Token.word v).Formed := h.2.2.of_append.2.1
    have hs := h.2.1
    rw [spell_append, hnil] at hs
    simp [Token.Stops, spell, Token.text, isWordChar, hc] at hs
  obtain ⟨c, w, hcw⟩ := List.exists_cons_of_ne_nil hne
  rw [hcw, List.all_cons, Bool.and_eq_true] at hblank
  rw [joinWords, spell_cons, spell_append, hcw, words_keywords hk hblank.1 hblank.2, spell_cons, spell_nil,
    List.append_nil, keyword_nonblank hku]
  simp

theorem opens_by {kind : ClauseKind} (h : k = .GROUP ∧ kind = .GROUP_BY ∨ k = .ORDER ∧ kind = .ORDER_BY) (us : List Token) :
    ((∀ u ∈ (us.dropWhile Token.isSpace).head?, u.isKeyword .BY = false) → opens k us = none) ∧
      ∀ u vs, us.dropWhile Token.isSpace = u :: vs → u.isKeyword .BY → opens k us = some (kind, ' ' :: u.text, vs) := by
  constructor
  · intro hby
    cases e : us.dropWhile Token.isSpace with
    | nil => rcases h with ⟨rfl, rfl⟩ | ⟨rfl, rfl⟩ <;> simp [opens, e]
    | cons u vs =>
      have hu : u.isKeyword .BY = false := hby u (by simp [e])
      rcases h with ⟨rfl, rfl⟩ | ⟨rfl, rfl⟩ <;> simp [opens, e, hu]
  · intro u vs e hu
    rcases h with ⟨rfl, rfl⟩ | ⟨rfl, rfl⟩ <;> simp [opens, e, hu]

/-- The keyword with the index `i` opens a clause for the loop as it does for
`sections`: a BY stands in front of the next clause. -/
theorem opensAt_cases (e : ts = a ++ t :: b) (hk : t.keyword = some k) (h : Lexed (t :: b)) (n : Nesting) :
    (opensAt (spans 0 ts) a.length k = .ok none ∧ opens k (sections n b).1 = none) ∨
    ∃ kind skip rest, k.isSetOperator = false ∧ b = skip ++ rest ∧ (∀ t ∈ skip, t.isSpace ∨ t.isKeyword .BY) ∧
      opensAt (spans 0 ts) a.length k = .ok (some (kind, a.length + skip.length)) ∧
      ∀ front, ∃ more, opens k (skip ++ front) = some (kind, more, front) ∧ t.text ++ more = joinWords (spell (t :: skip)) := by
  have hword : t.text ++ [] = joinWords (spell [t]) := by simp [joinWords, keyword_nonblank hk]
  have withBy (kind : ClauseKind) (hg : k = .GROUP ∧ kind = .GROUP_BY ∨ k = .ORDER ∧ kind = .ORDER_BY) :
      (opensAt (spans 0 ts) a.length k = .ok none ∧ opens k (sections n b).1 = none) ∨
      ∃ kind skip rest, k.isSetOperator = false ∧ b = skip ++ rest ∧ (∀ t ∈ skip, t.isSpace ∨ t.isKeyword .BY) ∧
        opensAt (spans 0 ts) a.length k = .ok (some (kind, a.length + skip.length)) ∧
        ∀ front, ∃ more, opens k (skip ++ front) = some (kind, more, front) ∧
          t.text ++ more = joinWords (spell (t :: skip)) := by
    have hat : opensAt (spans 0 ts) a.length k = do return (← byBehind (spans 0 ts) a.length).map (kind, ·) := by
      rcases hg with ⟨rfl, rfl⟩ | ⟨rfl, rfl⟩ <;> rfl
    rcases byBehind_cases e with ⟨ws, u, us, rfl, hws, hu, hby⟩ | ⟨hno, hby⟩
    · refine .inr ⟨kind, ws ++ [u], us, by rcases hg with ⟨rfl, rfl⟩ | ⟨rfl, rfl⟩ <;> rfl, by simp, ?_, ?_, fun front => ?_⟩
      · intro v hv
        rcases List.mem_append.mp hv with hv | hv
        · exact .inl (hws v hv)
        · exact .inr (by rwa [List.mem_singleton.mp hv])
      · rw [hat, hby]; rfl
      · have hdrop : (ws ++ [u] ++ front).dropWhile Token.isSpace = u :: front := by
          obtain ⟨v, rfl⟩ := isWord_of_isKeyword hu
          rw [List.append_assoc, List.dropWhile_append_of_pos hws]; rfl
        refine ⟨' ' :: u.text, (opens_by hg _).2 u front hdrop hu, ?_⟩
        have hl : Lexed (t :: (ws ++ [u])) := by
          have h' : Lexed (t :: (ws ++ [u]) ++ us) := by simpa using h
          exact h'.of_append.1
        rw [keyword_by hk hl hws hu]
    · refine .inl ⟨by rw [hat, hby]; rfl, (opens_by hg _).1 fun u hu => hno u ?_⟩
      obtain ⟨rest, hrest⟩ := (sections_parts n b fun v hv => h.2.2.formed hv).2.1
      rw [← hrest]
      rw [List.dropWhile_append]
      cases hd : (sections n b).1.dropWhile Token.isSpace with
      | nil => rw [hd] at hu; cases hu
      | cons v vs => rw [hd] at hu; exact hu
  cases k with
  | SELECT => exact .inr ⟨.SELECT, [], b, rfl, rfl, by simp, rfl, fun front => ⟨[], rfl, hword⟩⟩
  | FROM => exact .inr ⟨.FROM, [], b, rfl, rfl, by simp, rfl, fun front => ⟨[], rfl, hword⟩⟩
  | WHERE => exact .inr ⟨.WHERE, [], b, rfl, rfl, by simp, rfl, fun front => ⟨[], rfl, hword⟩⟩
  | HAVING => exact .inr ⟨.HAVING, [], b, rfl, rfl, by simp, rfl, fun front => ⟨[], rfl, hword⟩⟩
  | GROUP => exact withBy .GROUP_BY (.inl ⟨rfl, rfl⟩)
  | ORDER => exact withBy .ORDER_BY (.inr ⟨rfl, rfl⟩)
  | _ => exact .inl ⟨rfl, rfl⟩

/-- A round passes the token, meets a set operator, or notes a clause. -/
theorem markRound_cases (e : ts = a ++ t :: b) (h : Lexed (t :: b)) (s : Marking) (n : Nesting) :
    let round := markRound (spans 0 ts) s a.length (t, byteSize (spell a), byteSize (spell a) + byteSize t.text)
    let opened := fun front => (s.nesting.topKeyword t).bind (opens · front)
    let operator := (s.nesting.topKeyword t).filter Keyword.isSetOperator
    (round = .ok (.next { s with nesting := s.nesting.step t } (a.length + 1)) ∧ opened (sections n b).1 = none ∧
      operator = none) ∨
    (∃ k, round = .ok (.stop (.error (.shape (.setOperator k)))) ∧ opened (sections n b).1 = none ∧ operator = some k) ∨
    ∃ kind skip rest, b = skip ++ rest ∧ (∀ t ∈ skip, t.isSpace ∨ t.isKeyword .BY) ∧ operator = none ∧
      round = .ok (.next ⟨s.nesting.step t, s.marks ++ [⟨kind, byteSize (spell a), byteSize (spell (a ++ t :: skip))⟩]⟩
        (a ++ t :: skip).length) ∧
      ∀ front, ∃ more, opened (skip ++ front) = some (kind, more, front) ∧
        t.text ++ more = joinWords (spell (t :: skip)) := by
  intro round opened operator
  cases htop : s.nesting.topKeyword t with
  | none => exact .inl ⟨by simp [round, markRound, keywordAt_levelOf, htop], by simp [opened, htop], by simp [operator, htop]⟩
  | some k =>
    have hk := keyword_of_topKeyword htop
    rcases opensAt_cases e hk h n with ⟨hat, ho⟩ | ⟨kind, skip, rest, hset, rfl, hskip, hat, ho⟩
    · cases hset : k.isSetOperator with
      | true => exact .inr (.inl ⟨k, by simp [round, markRound, keywordAt_levelOf, htop, hat, hset],
          by simp [opened, htop, ho], by simp [operator, htop, hset]⟩)
      | false => exact .inl ⟨by simp [round, markRound, keywordAt_levelOf, htop, hat, hset],
          by simp [opened, htop, ho], by simp [operator, htop, hset]⟩
    · refine .inr (.inr ⟨kind, skip, rest, rfl, hskip, by simp [operator, htop, hset], ?_, fun front => ?_⟩)
      · obtain ⟨u, start, hstop⟩ := elem_last_spans (show ts = a ++ t :: skip ++ rest by simp [e])
        have hlen : (a ++ t :: skip).length = a.length + skip.length + 1 := by simp; omega
        simp [round, markRound, keywordAt_levelOf, htop, hat, hstop, hlen]
      · obtain ⟨more, ho, hword⟩ := ho front
        exact ⟨more, by simp [opened, htop, ho], hword⟩

end

theorem walk_marks {ts a b : List Token} (e : ts = a ++ b) (h : Lexed b) (s : Marking) :
    ∃ front cs, sections s.nesting b = (front, cs.map Cut.section) ∧ b = front ++ cs.flatMap Cut.tokens ∧
      walk (spans 0 ts) (markRound (spans 0 ts)) (fun s => .ok (.ok s)) s a.length =
        .ok ((setOperator? s.nesting b).elim
          (.ok ⟨b.foldl Nesting.step s.nesting, s.marks ++ marks (byteSize (spell (a ++ front))) cs⟩)
          fun k => .error (.shape (.setOperator k))) := by
  induction hn : b.length using Nat.strong_induction_on generalizing a b s with
  | _ n ih =>
  subst hn
  cases b with
  | nil => exact ⟨[], [], rfl, rfl, by rw [walk_end (by simp [e])]; simp [setOperator?, marks]⟩
  | cons t b =>
    have e' : ts = a ++ [t] ++ b := by rw [e, List.append_assoc, List.singleton_append]
    obtain ⟨front, cs, hsec, hcut, hwalk⟩ := ih b.length (by simp) e' h.2.2 { s with nesting := s.nesting.step t } rfl
    rw [List.append_assoc, List.singleton_append, List.length_append, List.length_singleton] at hwalk
    rcases markRound_cases e h s (s.nesting.step t) with ⟨hround, hopen, hop⟩ | ⟨k, hround, hopen, hop⟩ |
      ⟨kind, skip, rest, rfl, hskip, hop, hround, hopen⟩
    · rw [hsec] at hopen
      refine ⟨t :: front, cs, ?_, by rw [hcut]; rfl, ?_⟩
      · rw [sections, hsec]; simp only [hopen]
      · rw [walk_next (getElem?_spans e) hround (Nat.lt_succ_self _), setOperator?, hop, hwalk]; rfl
    · rw [hsec] at hopen
      refine ⟨t :: front, cs, ?_, by rw [hcut]; rfl, ?_⟩
      · rw [sections, hsec]; simp only [hopen]
      · rw [walk_stop (getElem?_spans e) hround, setOperator?, hop]; rfl
    · obtain ⟨hsections, hoperator, hfold⟩ := sections_space hskip (s.nesting.step t) rest
      have e'' : ts = a ++ t :: skip ++ rest := by rw [e]; simp
      have hl : Lexed rest := h.2.2.of_append.2
      clear hsec hcut hwalk front cs
      obtain ⟨front, cs, hsec, hcut, hwalk⟩ := ih rest.length (by simp) e'' hl
        ⟨s.nesting.step t, s.marks ++ [⟨kind, byteSize (spell a), byteSize (spell (a ++ t :: skip))⟩]⟩ rfl
      obtain ⟨more, ho, hword⟩ := hopen front
      refine ⟨[], ⟨kind, t :: skip, front⟩ :: cs, ?_, by rw [hcut]; simp [Cut.tokens], ?_⟩
      · rw [sections, hsections, hsec]
        simp only [ho, hword]; rfl
      · have hlt : a.length < (a ++ t :: skip).length := by simp
        rw [walk_next (getElem?_spans e) hround hlt, hwalk, setOperator?, hop]
        have hstart : byteSize (spell (a ++ t :: skip)) = byteSize (spell a) + byteSize (spell (t :: skip)) := by
          rw [spell_append, byteSize_append]
        have hnext : byteSize (spell (a ++ (t :: skip ++ front))) =
            byteSize (spell a) + byteSize (spell (Cut.tokens ⟨kind, t :: skip, front⟩)) := by
          rw [spell_append, byteSize_append]; rfl
        simp only [hoperator, List.foldl_cons, hfold, marks, List.append_nil, hstart, hnext, List.append_assoc,
          List.singleton_append]

@[simp] theorem map_kind_marks {κ : Type} (k : Nat) (cs : List (Cut κ)) : (marks k cs).map Mark.kind = cs.map Cut.kind := by
  induction cs generalizing k with
  | nil => rfl
  | cons c cs ih => rw [marks, List.map_cons, List.map_cons, ih]

theorem extract_eq (sql : Text) : extract sql = .ok (Select.ofText sql) := by
  obtain ⟨front, cs, hsec, hcut, hwalk⟩ := walk_marks (show tokenize sql = [] ++ tokenize sql from rfl) (lexed_tokenize sql) {}
  have hsql : sql = spell front ++ spell (cs.flatMap Cut.tokens) := by
    rw [← spell_append, ← hcut, spell_tokenize]
  have hlead : slice sql 0 (byteSize (spell front)) = .ok (spell front) := by rw [hsql]; exact slice_head ..
  have hparts := cutAt_marks hsql
  have hfront : ((spans 0 (tokenize sql)).takeWhile (·.2.1 < byteSize (spell front))).any (·.1.isCode) =
      front.any Token.isCode := by
    have h := takeWhile_spans (a := front) (fun t ht => formed_of_mem (by rw [hcut]; simp [ht]))
      (cs.flatMap Cut.tokens) 0
    rw [← hcut, Nat.zero_add] at h
    rw [h, any_spans]
  have hkinds : (cs.map Cut.section).map Section.kind = cs.map Cut.kind := by rw [List.map_map]; rfl
  rw [List.length_nil] at hwalk
  have hafter : (tokenize sql).foldl Nesting.step {} = Nesting.after (tokenize sql) := rfl
  rw [extract, lexSpans_eq, ok_bind, hwalk, ok_bind, Select.ofText, hsec]
  cases setOperator? {} (tokenize sql) with
  | some k => rfl
  | none =>
    simp only [Option.elim_none, List.nil_append, ofMarks, map_kind_marks, hparts, hkinds, hafter]
    cases (Nesting.after (tokenize sql)).isBalanced with
    | false => rfl
    | true =>
      cases cs with
      | nil => rfl
      | cons c cs =>
        simp only [marks, hlead, hfront, Select.checkShape, List.map_cons, ok_bind]
        by_cases hfirst : c.kind = .SELECT
        · simp only [hfirst, ne_eq, not_true_eq_false, if_false]
          cases disorder? (.SELECT :: cs.map Cut.kind) with
          | some p => rfl
          | none =>
            cases front.any Token.isCode with
            | true => rfl
            | false => simp [Cut.section, hfirst]
        · simp [hfirst]

end SqlLayout.Checked
