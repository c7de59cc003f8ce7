import SqlLayout.Item.Modifier
import SqlLayout.Proofs.Recase
import SqlLayout.Proofs.Checked.Tokens

/-!
# Modifiers by index

The modifiers of a SELECT are found by the index of their last token, from
which the next search goes on.
-/

namespace SqlLayout.Checked

def normalizeText (indent : Nat) (code : Text) : Run Text := do
  let ts ← lex code
  return if ts.any Token.isLineComment then joinLines (hang indent code) else collapse ts

theorem normalizeText_eq (indent : Nat) (code : Text) : normalizeText indent code = .ok (normalize indent code) := by
  rw [normalizeText, lex_eq]; rfl

/-! ## Places of tokens -/

def nextNonSpace (ts : List (Token × Nat × Nat)) (i : Nat) : Run (Option Nat) :=
  findFrom (fun t => !t.1.isSpace) ts i

def nextIfAt (p : Token → Bool) (ts : List (Token × Nat × Nat)) (i : Nat) : Run (Option Nat) := do
  match ← nextNonSpace ts i with
  | some k => return if p (← elem ts k).1 then some k else none
  | none => return none

def closeParenRound (n : Nesting) (i : Nat) (t : Token × Nat × Nat) : Run (Round Nesting (Option Nat)) := do
  let (_, n) ← stepDepth n t.1
  return if n.depth = 0 then .stop (some i) else .next n (i + 1)

def countEnd (ts : List (Token × Nat × Nat)) (i : Nat) : Run (Option Nat) := do
  match ← nextNonSpace ts i with
  | none => return none
  | some count => do
    let (t, _, _) ← elem ts count
    if isCount t then return some count
    else if t = .openParen then walk ts closeParenRound (fun _ => .ok none) {} count
    else return none

def tiesEnd (ts : List (Token × Nat × Nat)) (i : Nat) : Run (Option Nat) := do
  match ← nextIfAt (Token.isKeyword .WITH) ts i with
  | some k => nextIfAt (Token.isKeyword .TIES) ts (k + 1)
  | none => return none

def topEnd (ts : List (Token × Nat × Nat)) (top : Nat) : Run (Option Nat) := do
  match ← countEnd ts (top + 1) with
  | none => return none
  | some last => do
    let last := (← nextIfAt (Token.isKeyword .PERCENT) ts (last + 1)).getD last
    let last := (← tiesEnd ts (last + 1)).getD last
    return some last

/-- What was taken from `b` ends at the index that was found, with `a` in
front of `b`. -/
def Ends (taken : Option (List Token × List Token)) (found : Option Nat) (a b : List Token) : Prop :=
  taken = none ∧ found = none ∨
    ∃ x rest last, b = x ++ rest ∧ taken = some (x, rest) ∧ found = some last ∧ last + 1 = (a ++ x).length

section
variable {ts a b : List Token}

theorem findFrom_spans (p : Token → Bool) (e : ts = a ++ b) :
    findFrom (fun t => p t.1) (spans 0 ts) a.length = .ok ((b.findIdx? p).map (a.length + ·)) := by
  have h := findFrom_append (p := fun t => p t.1) (l := spans 0 ts) (a := spans 0 a) (by rw [e, spans_append])
  rwa [length_spans, findIdx?_spans] at h

theorem nextNonSpace_cases (e : ts = a ++ b) :
    b.dropWhile Token.isSpace = [] ∧ nextNonSpace (spans 0 ts) a.length = .ok none ∨
    ∃ ws t rest, b = ws ++ t :: rest ∧ (∀ w ∈ ws, w.isSpace) ∧ b.dropWhile Token.isSpace = t :: rest ∧
      b.takeWhile Token.isSpace = ws ∧ nextNonSpace (spans 0 ts) a.length = .ok (some (a ++ ws).length) ∧
      elem (spans 0 ts) (a ++ ws).length =
        .ok (t, byteSize (spell (a ++ ws)), byteSize (spell (a ++ ws)) + byteSize t.text) := by
  have hfind : nextNonSpace (spans 0 ts) a.length = _ := findFrom_spans (fun t => !t.isSpace) e
  rw [hfind]
  rcases findIdx?_split (fun t : Token => !t.isSpace) b with ⟨hall, hnone⟩ | ⟨ws, t, rest, rfl, hws, ht, hsome⟩
  · exact .inl ⟨List.dropWhile_eq_nil_iff.mpr fun w hw => by simpa using hall w hw, by rw [hnone]; rfl⟩
  · have hws : ∀ w ∈ ws, w.isSpace := fun w hw => by simpa using hws w hw
    have ht : ¬t.isSpace := by simpa using ht
    refine .inr ⟨ws, t, rest, rfl, hws, ?_, ?_, ?_, ?_⟩
    · rw [List.dropWhile_append_of_pos hws, List.dropWhile_cons_of_neg ht]
    · rw [List.takeWhile_append_of_pos hws, List.takeWhile_cons_of_neg ht, List.append_nil]
    · rw [hsome, Option.map_some, List.length_append]
    · exact elem_of_getElem? (getElem?_spans (by rw [e, List.append_assoc]))

theorem nextIfAt_ends (p : Token → Bool) (e : ts = a ++ b) :
    ∃ f, nextIfAt p (spans 0 ts) a.length = .ok f ∧ Ends (nextIf p b) f a b := by
  rw [nextIfAt, nextIf]
  rcases nextNonSpace_cases e with ⟨hdrop, hnext⟩ | ⟨ws, t, rest, rfl, -, hdrop, htake, hnext, helem⟩
  · rw [hnext, hdrop]; exact ⟨none, rfl, .inl ⟨rfl, rfl⟩⟩
  · rw [hnext, hdrop, htake, ok_bind]
    simp only [helem, ok_bind]
    cases p t with
    | false => exact ⟨none, rfl, .inl ⟨rfl, rfl⟩⟩
    | true => exact ⟨some (a ++ ws).length, rfl, .inr ⟨ws ++ [t], rest, _, by simp, rfl, rfl, by simp [Nat.add_assoc]⟩⟩

theorem walk_closeParen (e : ts = a ++ b) {n : Nesting} {d : Nat} (hn : n.depth = d + 1) :
    walk (spans 0 ts) closeParenRound (fun _ => .ok none) n a.length =
      .ok ((splitClosing d b).map fun p => (a ++ p.1).length) := by
  have hround (n : Nesting) (i : Nat) (t : Token) (p : Nat × Nat) : closeParenRound n i (t, p) =
      .ok (if (n.step t).depth = 0 then .stop (some i) else .next (n.step t) (i + 1)) := by
    rw [closeParenRound, stepDepth_eq]; rfl
  have hpass {a b : List Token} {n : Nesting} {t : Token} {d : Nat} (e : ts = a ++ t :: b)
      (ih : ∀ {a : List Token}, ts = a ++ b → ∀ {n : Nesting}, n.depth = d + 1 →
        walk (spans 0 ts) closeParenRound (fun _ => .ok none) n a.length =
          .ok ((splitClosing d b).map fun p => (a ++ p.1).length))
      (hstep : (n.step t).depth = d + 1) : walk (spans 0 ts) closeParenRound (fun _ => .ok none) n a.length =
          .ok (((splitClosing d b).map (Prod.map (t :: ·) id)).map fun p => (a ++ p.1).length) := by
    have ih := ih (a := a ++ [t]) (by simp [e]) hstep
    rw [List.length_append, List.length_singleton] at ih
    rw [walk_next (getElem?_spans e) (by rw [hround, if_neg (by omega)]) (Nat.lt_succ_self _), ih, Option.map_map]
    simp only [List.append_assoc, List.singleton_append]; rfl
  fun_induction splitClosing d b generalizing a n with
  | case1 => exact walk_end (by simp [e])
  | case2 b =>
    have hstep : (n.step .closeParen).depth = 0 := by simp [Nesting.step, hn]
    rw [walk_stop (getElem?_spans e) (by rw [hround, if_pos hstep])]; simp
  | case3 b d ih => exact hpass e ih (by simp [Nesting.step, hn])
  | case4 d b ih => exact hpass e ih (by simp [Nesting.step, hn])
  | case5 d t b hclose hopen ih =>
    refine hpass e ih ?_
    cases t with
    | openParen => exact absurd rfl hopen
    | closeParen => exact absurd rfl hclose
    | _ => exact hn

theorem countEnd_ends (e : ts = a ++ b) : ∃ f, countEnd (spans 0 ts) a.length = .ok f ∧ Ends (takeCount b) f a b := by
  rw [countEnd, takeCount, nextIf, nextIf]
  rcases nextNonSpace_cases e with ⟨hdrop, hnext⟩ | ⟨ws, t, rest, rfl, -, hdrop, htake, hnext, helem⟩
  · rw [hnext, hdrop]; exact ⟨none, rfl, .inl ⟨rfl, rfl⟩⟩
  · rw [hnext, hdrop, htake, ok_bind]
    simp only [helem, ok_bind]
    by_cases hcount : isCount t
    · simp only [hcount, if_true]
      exact ⟨_, rfl, .inr ⟨ws ++ [t], rest, _, by simp, rfl, rfl, by simp [Nat.add_assoc]⟩⟩
    · by_cases hopen : t = .openParen
      · subst hopen
        have e' : ts = a ++ ws ++ [.openParen] ++ rest := by rw [e]; simp
        have hwalk := walk_closeParen e' (n := { depth := 1 }) (d := 0) rfl
        have hfirst : closeParenRound {} (a ++ ws).length (.openParen, byteSize (spell (a ++ ws)),
            byteSize (spell (a ++ ws)) + byteSize (Token.text .openParen)) =
              .ok (.next { depth := 1 } ((a ++ ws).length + 1)) := rfl
        rw [List.length_append, List.length_singleton] at hwalk
        have hloop := (walk_next (getElem?_spans (by rw [e, List.append_assoc])) hfirst (Nat.lt_succ_self _)).trans hwalk
        simp only [hcount, Bool.false_eq_true, if_false, if_true, hloop]
        cases hinner : splitClosing 0 rest with
        | none => exact ⟨none, rfl, .inl ⟨by simp [hinner], rfl⟩⟩
        | some p =>
          obtain ⟨inner, back⟩ := p
          have hrest := splitClosing_eq hinner
          refine ⟨_, rfl, .inr ⟨ws ++ [.openParen] ++ inner ++ [.closeParen], back, _, by simp [hrest], ?_, rfl, ?_⟩⟩
          · simp [hinner]
          · simp; omega
      · simp only [hcount, hopen, if_false]
        exact ⟨none, rfl, .inl ⟨rfl, rfl⟩⟩

theorem Ends.optional {take : List Token → Option (List Token × List Token)} {f : Option Nat} {last : Nat}
    (h : Ends (take b) f a b) (hlast : last + 1 = a.length) :
    b = (optional take b).1 ++ (optional take b).2 ∧ f.getD last + 1 = (a ++ (optional take b).1).length := by
  rw [SqlLayout.optional]
  rcases h with ⟨hnone, rfl⟩ | ⟨x, rest, k, hb, hsome, rfl, hk⟩
  · rw [hnone]; exact ⟨rfl, by simpa using hlast⟩
  · rw [hsome]; exact ⟨hb, hk⟩

theorem tiesEnd_ends (e : ts = a ++ b) : ∃ f, tiesEnd (spans 0 ts) a.length = .ok f ∧ Ends (takeTies b) f a b := by
  obtain ⟨f, hf, ⟨hnone, rfl⟩ | ⟨x, rest, k, rfl, hsome, rfl, hk⟩⟩ := nextIfAt_ends (Token.isKeyword .WITH) e
  · exact ⟨none, by rw [tiesEnd, hf]; rfl, .inl ⟨by simp [takeTies, hnone], rfl⟩⟩
  · have e' : ts = a ++ x ++ rest := by rw [e, List.append_assoc]
    obtain ⟨g, hg, h⟩ := nextIfAt_ends (Token.isKeyword .TIES) e'
    refine ⟨g, by rw [tiesEnd, hf, ok_bind]; simp only [hk, hg], ?_⟩
    rcases h with ⟨hnone, rfl⟩ | ⟨y, rest, l, rfl, hsome', rfl, hl⟩
    · exact .inl ⟨by simp [takeTies, hsome, hnone], rfl⟩
    · exact .inr ⟨x ++ y, rest, l, by simp, by simp [takeTies, hsome, hsome'], rfl, by rw [hl, List.append_assoc]⟩

theorem topEnd_ends {t : Token} (e : ts = a ++ t :: b) :
    ∃ f, topEnd (spans 0 ts) a.length = .ok f ∧ Ends (takeTop b) f (a ++ [t]) b := by
  have e : ts = a ++ [t] ++ b := by rw [e, List.append_assoc, List.singleton_append]
  obtain ⟨f, hf, h⟩ := countEnd_ends e
  rw [List.length_append, List.length_singleton] at hf
  rw [topEnd, hf, ok_bind, takeTop]
  rcases h with ⟨hnone, rfl⟩ | ⟨x, rest, last, rfl, hsome, rfl, hlast⟩
  · exact ⟨none, rfl, .inl ⟨by rw [hnone]; rfl, rfl⟩⟩
  · have e₁ : ts = a ++ [t] ++ x ++ rest := by rw [e, List.append_assoc _ x]
    obtain ⟨g, hg, h⟩ := nextIfAt_ends (Token.isKeyword .PERCENT) e₁
    obtain ⟨hrest, hpercent⟩ := h.optional hlast
    obtain ⟨percent, rest₁, hp⟩ : ∃ p q, optional (nextIf (Token.isKeyword .PERCENT)) rest = (p, q) := ⟨_, _, rfl⟩
    rw [hp] at hrest hpercent
    have e₂ : ts = a ++ [t] ++ x ++ percent ++ rest₁ := by rw [e₁, hrest]; simp
    obtain ⟨l, hl, h⟩ := tiesEnd_ends e₂
    obtain ⟨hrest₁, hties⟩ := h.optional hpercent
    obtain ⟨ties, rest₂, ht⟩ : ∃ p q, optional takeTies rest₁ = (p, q) := ⟨_, _, rfl⟩
    rw [ht] at hrest₁ hties
    refine ⟨some (l.getD (g.getD last)), ?_, .inr ⟨x ++ percent ++ ties, rest₂, _, ?_, ?_, rfl, ?_⟩⟩
    · simp only [hlast, hg, ok_bind, hpercent, hl, pure_eq_ok]
    · rw [hrest, hrest₁]; simp
    · rw [hsome]; simp only [Option.map_some, hp, ht]
    · rw [hties]; simp

end

/-! ## All modifiers -/

structure Taken where
  parts : List Text := []
  stop : Nat := 0

def modifierEnd (ts : List (Token × Nat × Nat)) (start : Nat) : Option Keyword → Run (Option Nat)
  | some .DISTINCT | some .ALL => .ok (some start)
  | some .TOP => topEnd ts start
  | _ => .ok none

/-- Takes the tokens from `start` to `last` if no comment is among them. -/
def takePart (body : Text) (ts : List (Token × Nat × Nat)) (s : Taken) (start last : Nat) : Run (Round Taken Taken) := do
  if (← range ts start (last + 1)).any (·.1.isComment) then return .stop s
  else do
    let (_, begins, _) ← elem ts start
    let (_, _, stop) ← elem ts last
    let part ← normalizeText 0 (← slice body begins stop)
    return .next ⟨s.parts ++ [part], stop⟩ (last + 1)

def modifierRound (body : Text) (ts : List (Token × Nat × Nat)) (s : Taken) (i : Nat) (_ : Token × Nat × Nat) :
    Run (Round Taken Taken) := do
  match ← nextNonSpace ts i with
  | none => return .stop s
  | some start => do
    match ← modifierEnd ts start (← elem ts start).1.keyword with
    | none => return .stop s
    | some last => takePart body ts s start last

def splitModifier (body : Text) : Run (Option Text × Text) := do
  let ts ← lexSpans body
  let s ← walk ts (modifierRound body ts) .ok {} 0
  if s.parts = [] then return (none, body)
  else return (some ([' '].intercalate s.parts), ← slice body s.stop (byteSize body))

section
variable {ts a b : List Token}

theorem normalize_spell {x : List Token} (hl : Lexed x) (hc : x.any Token.isComment = false) (n : Nat) :
    normalize n (spell x) = collapse x := by
  have hline : x.any Token.isLineComment = false := by
    rw [List.any_eq_false] at hc ⊢
    intro t ht hline
    obtain ⟨c, rfl⟩ := Token.eq_lineComment hline
    exact hc _ ht rfl
  rw [normalize, hl.tokenize_spell, hline]; rfl

theorem takePart_eq {t : Token} {skip rest : List Token} (e : ts = a ++ t :: skip ++ rest) (hl : Lexed ts) (s : Taken) :
    takePart (spell ts) (spans 0 ts) s a.length (a.length + skip.length) = .ok (
      if (t :: skip).any Token.isComment then .stop s
      else .next ⟨s.parts ++ [collapse (t :: skip)], byteSize (spell (a ++ t :: skip))⟩ (a ++ t :: skip).length) := by
  have hrange := range_spans e (i := a.length) rfl (j := a.length + skip.length + 1) rfl
  obtain ⟨u, k, hlast⟩ := elem_last_spans e
  have hfirst := elem_of_getElem? (getElem?_spans (show ts = a ++ t :: (skip ++ rest) by rw [e]; simp))
  have hslice : slice (spell ts) (byteSize (spell a)) (byteSize (spell (a ++ t :: skip))) = .ok (spell (t :: skip)) := by
    rw [e, spell_append, spell_append]
    exact slice_append _ _ _ rfl (byteSize_append ..)
  rw [takePart, hrange, ok_bind, any_spans]
  cases hc : (t :: skip).any Token.isComment with
  | true => rfl
  | false =>
    have hx : Lexed (t :: skip) := by rw [e] at hl; exact hl.of_append.1.of_append.2
    have hlen : (a ++ t :: skip).length = a.length + skip.length + 1 := by simp; omega
    simp only [Bool.false_eq_true, if_false, hfirst, hlast, hslice, normalizeText_eq, normalize_spell hx hc, hlen,
      ok_bind, pure_eq_ok]

theorem modifierRound_cases (e : ts = a ++ b) (hl : Lexed ts) (s : Taken) (p : Token × Nat × Nat) :
    takeModifier b = none ∧ modifierRound (spell ts) (spans 0 ts) s a.length p = .ok (.stop s) ∨
    ∃ x front rest, b = front ++ rest ∧ front ≠ [] ∧ takeModifier b = some (x, rest) ∧
      modifierRound (spell ts) (spans 0 ts) s a.length p =
        .ok (.next ⟨s.parts ++ [collapse x], byteSize (spell (a ++ front))⟩ (a ++ front).length) := by
  rw [modifierRound, takeModifier]
  rcases nextNonSpace_cases e with ⟨hdrop, hnext⟩ | ⟨ws, t, rest, rfl, -, hdrop, htake, hnext, helem⟩
  · rw [hnext, hdrop]; exact .inl ⟨rfl, rfl⟩
  · rw [hnext, hdrop, ok_bind]
    simp only [helem, ok_bind]
    have e' : ts = a ++ ws ++ t :: rest := by rw [e, List.append_assoc]
    have take {skip back : List Token} (hrest : rest = skip ++ back) :
        (some (t :: skip, back)).filter (fun p => !p.1.any Token.isComment) = none ∧
          takePart (spell ts) (spans 0 ts) s (a ++ ws).length ((a ++ ws).length + skip.length) = .ok (.stop s) ∨
        ∃ x front rest', ws ++ t :: rest = front ++ rest' ∧ front ≠ [] ∧
          (some (t :: skip, back)).filter (fun p => !p.1.any Token.isComment) = some (x, rest') ∧
          takePart (spell ts) (spans 0 ts) s (a ++ ws).length ((a ++ ws).length + skip.length) =
            .ok (.next ⟨s.parts ++ [collapse x], byteSize (spell (a ++ front))⟩ (a ++ front).length) := by
      have e'' : ts = a ++ ws ++ t :: skip ++ back := by rw [e', hrest]; simp
      rw [takePart_eq e'' hl]
      cases hc : (t :: skip).any Token.isComment with
      | true => exact .inl ⟨by simp only [Option.filter_some, hc, Bool.not_true, Bool.false_eq_true, if_false], rfl⟩
      | false =>
        refine .inr ⟨t :: skip, ws ++ t :: skip, back, by simp [hrest], by simp, ?_, ?_⟩
        · simp only [Option.filter_some, hc, Bool.not_false, if_true]
        · simp only [Bool.false_eq_true, if_false, List.append_assoc]
    cases hk : t.keyword with
    | none => exact .inl ⟨rfl, rfl⟩
    | some k =>
      cases k with
      | DISTINCT | ALL => exact take (show rest = [] ++ rest from rfl)
      | TOP =>
        obtain ⟨f, hf, h⟩ := topEnd_ends e'
        rcases h with ⟨hnone, rfl⟩ | ⟨skip, back, last, hrest, hsome, rfl, hlast⟩
        · exact .inl ⟨by simp [hnone], by simp only [modifierEnd, hf, ok_bind, pure_eq_ok]⟩
        · obtain rfl : last = (a ++ ws).length + skip.length := by simp at hlast ⊢; omega
          simp only [modifierEnd, hf, hsome, ok_bind, Option.map_some]
          exact take hrest
      | _ => exact .inl ⟨rfl, rfl⟩

theorem takeModifiers_nil (h : (takeModifiers b).1 = []) : (takeModifiers b).2 = b := by
  revert h
  fun_cases takeModifiers b with
  | case1 =>
    intro h
    cases h
  | case2 => exact fun _ => rfl

theorem walk_modifiers (e : ts = a ++ b) (hl : Lexed ts) (s : Taken) :
    ∃ front, b = front ++ (takeModifiers b).2 ∧
      walk (spans 0 ts) (modifierRound (spell ts) (spans 0 ts)) .ok s a.length =
        .ok ⟨s.parts ++ (takeModifiers b).1, if (takeModifiers b).1 = [] then s.stop else byteSize (spell (a ++ front))⟩ := by
  fun_induction takeModifiers b generalizing a s with
  | case1 b x rest h hlt ih =>
    obtain ⟨t, b, rfl⟩ := List.exists_cons_of_ne_nil (show b ≠ [] by rintro rfl; cases h)
    rcases modifierRound_cases e hl s (t, byteSize (spell a), byteSize (spell a) + byteSize t.text) with
      ⟨hnone, -⟩ | ⟨x', front, rest', hb, hne, hsome, hround⟩
    · rw [h] at hnone; cases hnone
    · obtain ⟨rfl, rfl⟩ : x = x' ∧ rest = rest' := by simpa using h.symm.trans hsome
      have e' : ts = a ++ front ++ rest := by rw [e, hb, List.append_assoc]
      have hlt : a.length < (a ++ front).length := by simpa using List.length_pos_iff.mpr hne
      obtain ⟨more, hrest, hwalk⟩ := ih e' ⟨s.parts ++ [collapse x], byteSize (spell (a ++ front))⟩
      refine ⟨front ++ more, by rw [hb, List.append_assoc]; exact congrArg (front ++ ·) hrest, ?_⟩
      rw [walk_next (getElem?_spans e) hround hlt, hwalk]
      simp only [Prod.map_fst, List.append_assoc, List.singleton_append, reduceCtorEq, if_false]
      cases hms : (takeModifiers rest).1 with
      | nil =>
        have hmore : more = [] := by rwa [takeModifiers_nil hms, List.self_eq_append_left] at hrest
        simp [hmore]
      | cons m ms => simp
  | case2 b h =>
    refine ⟨[], rfl, ?_⟩
    simp only [List.append_nil, if_true]
    cases b with
    | nil => exact walk_end (by simp [e])
    | cons t b =>
      rcases modifierRound_cases e hl s (t, byteSize (spell a), byteSize (spell a) + byteSize t.text) with
        ⟨-, hround⟩ | ⟨x', front, rest', hb, hne, hsome, hround⟩
      · exact walk_stop (getElem?_spans e) hround
      · rw [h] at hsome; cases hsome

theorem splitModifier_eq (body : Text) :
    splitModifier body = .ok ((splitModifiers (tokenize body)).map id spell) := by
  obtain ⟨front, hfront, hwalk⟩ := walk_modifiers (show tokenize body = [] ++ tokenize body from rfl) (lexed_tokenize body) {}
  rw [spell_tokenize, List.length_nil] at hwalk
  have hbody := congrArg spell hfront
  rw [spell_tokenize, spell_append] at hbody
  rw [splitModifier, lexSpans_eq, ok_bind, hwalk, ok_bind, splitModifiers]
  simp only [List.nil_append]
  cases hms : (takeModifiers (tokenize body)).1 with
  | nil => simp [takeModifiers_nil hms, spell_tokenize]
  | cons m ms =>
    have hslice : slice body (byteSize (spell front)) (byteSize body) = .ok (spell (takeModifiers (tokenize body)).2) := by
      nth_rewrite 1 2 [hbody]
      exact slice_tail ..
    simp [hslice]

end

end SqlLayout.Checked
