import SqlLayout.Proofs.Checked.Clauses
import SqlLayout.Proofs.Checked.Items

/-!
# Sources by offset

The body of a FROM clause is cut at the offsets of its join operators. What
stands behind an operator is read again on its own, and cut at the offsets of
its ON there.
-/

namespace SqlLayout.Checked

def joinEnd (ts : List (Token × Nat × Nat)) (modifiers j : Nat) : Option Nat :=
  match ts[j]?.bind (·.1.keyword) with
  | none => none
  | some .JOIN => some j
  | some .APPLY => if 0 < modifiers then some j else none
  | some k =>
    if k.isJoinModifier ∧ modifiers < 2 then
      if ts[j + 1]?.any (·.1.isSpace) then joinEnd ts (modifiers + 1) (j + 2) else none
    else none
termination_by 2 - modifiers

structure Joining where
  nesting : Nesting := {}
  marks : List (Mark Unit) := []

def joinRound (ts : List (Token × Nat × Nat)) (s : Joining) (i : Nat) (t : Token × Nat × Nat) :
    Run (Round Joining (List (Mark Unit))) := do
  let (level, nesting) ← stepDepth s.nesting t.1
  let s := { s with nesting }
  match if level = 0 then joinEnd ts 0 i else none with
  | some last => do
    let (_, _, stop) ← elem ts last
    return .next { s with marks := s.marks ++ [⟨(), t.2.1, stop⟩] } (last + 1)
  | none => return .next s (i + 1)

def onRound (n : Nesting) (i : Nat) (t : Token × Nat × Nat) : Run (Round Nesting (Option (Nat × Nat))) := do
  let (level, nesting) ← stepDepth n t.1
  return if keywordAt level t.1 = some .ON then .stop (some t.2) else .next nesting (i + 1)

def findOn (s : Text) : Run (Option (Nat × Nat)) := do
  walk (← lexSpans s) onRound (fun _ => .ok none) {} 0

def readJoin (operator rest : Text) : Run Join := do
  match ← findOn rest with
  | some (start, stop) => do
    let table ← readItem (← slice rest 0 start)
    let on ← slice rest start stop
    let conditions ← splitItems .boolean (← slice rest stop (byteSize rest))
    return ⟨operator, table, some on, conditions⟩
  | none => return ⟨operator, ← readItem rest, none, []⟩

def splitFrom (body : Text) : Run Sources := do
  let ts ← lexSpans body
  let ms ← walk ts (joinRound ts) (fun s => .ok s.marks) {} 0
  let table ← readItem (← slice body 0 (nextStart body ms))
  let joins ← (← cutAt body ms).mapM fun p => readJoin p.2.1 p.2.2
  return ⟨table, joins⟩

/-! ## One join -/

theorem walk_onRound {ts a b : List Token} (e : ts = a ++ b) (n : Nesting) :
    walk (spans 0 ts) onRound (fun _ => .ok none) n a.length = .ok ((splitOn? n b).map fun p =>
      (byteSize (spell (a ++ p.1)), byteSize (spell (a ++ p.1)) + byteSize p.2.1)) := by
  induction b generalizing a n with
  | nil => exact walk_end (by simp [e])
  | cons t b ih =>
    have hround : onRound n a.length (t, byteSize (spell a), byteSize (spell a) + byteSize t.text) =
        .ok (if n.topKeyword t = some .ON then .stop (some (byteSize (spell a), byteSize (spell a) + byteSize t.text))
          else .next (n.step t) (a.length + 1)) := by
      rw [onRound, stepDepth_eq, ok_bind]
      simp only [keywordAt_levelOf, pure_eq_ok]
    rw [splitOn?]
    by_cases hon : n.topKeyword t = some .ON
    · rw [if_pos hon] at hround ⊢
      rw [walk_stop (getElem?_spans e) hround]; simp
    · rw [if_neg hon] at hround ⊢
      have ih := ih (a := a ++ [t]) (by simp [e]) (n.step t)
      rw [List.length_append, List.length_singleton] at ih
      rw [walk_next (getElem?_spans e) hround (Nat.lt_succ_self _), ih, Option.map_map]
      simp only [List.append_assoc, List.singleton_append]
      rfl

theorem readJoin_eq (operator : Text) {ts : List Token} (h : Lexed ts) :
    readJoin operator (spell ts) = .ok (Join.ofTokens operator ts) := by
  have hfind : findOn (spell ts) = .ok ((splitOn? {} ts).map fun p =>
      (byteSize (spell p.1), byteSize (spell p.1) + byteSize p.2.1)) := by
    rw [findOn, lexSpans_eq, h.tokenize_spell, ok_bind]
    exact walk_onRound (a := []) rfl {}
  rw [readJoin, hfind, ok_bind, Join.ofTokens]
  cases hon : splitOn? {} ts with
  | none => simp only [Option.map_none, readItem_spell h, ok_bind, pure_eq_ok]
  | some p =>
    obtain ⟨table, on, rest⟩ := p
    obtain ⟨t, -, rfl, rfl⟩ := splitOn?_parts hon
    obtain ⟨htable, hrest⟩ := h.of_append
    have htext : spell (table ++ t :: rest) = spell table ++ t.text ++ spell rest := by simp
    have htableText : slice (spell (table ++ t :: rest)) 0 (byteSize (spell table)) = .ok (spell table) := by
      rw [spell_append]; exact slice_head ..
    have honText : slice (spell (table ++ t :: rest)) (byteSize (spell table))
        (byteSize (spell table) + byteSize t.text) = .ok t.text := by
      rw [htext]; exact slice_append _ _ _ rfl rfl
    have hrestText : slice (spell (table ++ t :: rest)) (byteSize (spell table) + byteSize t.text)
        (byteSize (spell (table ++ t :: rest))) = .ok (spell rest) := by
      rw [htext, ← byteSize_append]; exact slice_tail ..
    simp only [Option.map_some, htableText, honText, hrestText, readItem_spell htable, splitItems_boolean,
      hrest.2.2.tokenize_spell, ok_bind, pure_eq_ok]

/-! ## All joins -/

section
variable {ts a b : List Token} {t : Token} {k : Keyword}

theorem keyword_spans (e : ts = a ++ t :: b) : (spans 0 ts)[a.length]?.bind (·.1.keyword) = t.keyword := by
  rw [getElem?_spans e]; rfl

theorem isSpace_spans (e : ts = a ++ t :: b) :
    (spans 0 ts)[a.length + 1]?.any (·.1.isSpace) = b.head?.any Token.isSpace := by
  cases b with
  | nil => rw [List.getElem?_eq_none (by simp [e])]; rfl
  | cons u us =>
    have h := getElem?_spans (show ts = a ++ [t] ++ u :: us by simp [e])
    rw [List.length_append, List.length_singleton] at h
    rw [h]; rfl

theorem joinEnd_modifier (e : ts = a ++ t :: b) (hk : t.keyword = some k) (hj : k = .JOIN → False)
    (ha : k = .APPLY → False) (m : Nat) : joinEnd (spans 0 ts) m a.length =
      if k.isJoinModifier && decide (m < 2) then
        if b.head?.any Token.isSpace then joinEnd (spans 0 ts) (m + 1) (a.length + 2) else none
      else none := by
  rw [joinEnd, keyword_spans e, hk, isSpace_spans e]
  cases k <;> first | contradiction | simp

end

theorem joinEnd_eq {ts a b : List Token} (e : ts = a ++ b) (hf : ∀ t ∈ b, t.Formed) (m : Nat) :
    joinOperator m b = none ∧ joinEnd (spans 0 ts) m a.length = none ∨
    ∃ t skip rest, b = t :: skip ++ rest ∧ joinOperator m b = some (words (spell (t :: skip)), rest) ∧
      joinEnd (spans 0 ts) m a.length = some (a.length + skip.length) := by
  fun_induction joinOperator m b generalizing a with
  | case1 =>
    refine .inl ⟨rfl, ?_⟩
    rw [joinEnd, List.getElem?_eq_none (by simp [e])]; rfl
  | case2 m t b hk =>
    refine .inr ⟨t, [], b, rfl, by simp [keyword_nonblank hk], ?_⟩
    rw [joinEnd, keyword_spans e, hk]; rfl
  | case3 m t b hk hm =>
    refine .inr ⟨t, [], b, rfl, by simp [keyword_nonblank hk], ?_⟩
    rw [joinEnd, keyword_spans e, hk]; simp [hm]
  | case4 m t b hk hm =>
    refine .inl ⟨rfl, ?_⟩
    rw [joinEnd, keyword_spans e, hk]; simp [hm]
  | case5 m t k hj ha hk hm w us ih =>
    have hend := joinEnd_modifier e hk hj ha m
    have hspace : (Token.whitespace w :: us).head?.any Token.isSpace := rfl
    rw [if_pos hm, if_pos hspace] at hend
    have ih := ih (a := a ++ [t, .whitespace w]) (by simp [e]) fun u hu => hf u (by simp [hu])
    rw [List.length_append, List.length_cons, List.length_singleton] at ih
    rcases ih with ⟨hop, hnone⟩ | ⟨u, skip, rest, rfl, hop, hsome⟩
    · exact .inl ⟨by rw [hop]; rfl, by rw [hend, hnone]⟩
    · refine .inr ⟨t, .whitespace w :: u :: skip, rest, by simp, ?_, ?_⟩
      · obtain ⟨hw, hblank⟩ : (Token.whitespace w).Formed := hf _ (by simp)
        obtain ⟨c, v, rfl⟩ := List.exists_cons_of_ne_nil hw
        rw [List.all_cons, Bool.and_eq_true] at hblank
        have hv : v.all isBlank :=
          List.all_eq_true.mpr fun d hd => isBlank_of_isSpaceChar (List.all_eq_true.mp hblank.2 d hd)
        have hwords := words_keywords hk (isBlank_of_isSpaceChar hblank.1) hv (spell (u :: skip))
        rw [hop, spell_cons, spell_cons]
        exact congrArg (fun ws => some (ws, rest)) hwords.symm
      · rw [hend, hsome]; simp; omega
  | case6 m t b k hj ha hk hm hspace =>
    refine .inl ⟨rfl, ?_⟩
    rw [joinEnd_modifier e hk hj ha, if_pos hm, if_neg]
    cases b with
    | nil => exact Bool.false_ne_true
    | cons u us =>
      intro hu
      obtain ⟨w, rfl⟩ := Token.eq_whitespace hu
      exact hspace w us rfl
  | case7 m t b k hj ha hk hm => exact .inl ⟨rfl, by rw [joinEnd_modifier e hk hj ha, if_neg hm]⟩
  | case8 m t b hk =>
    refine .inl ⟨rfl, ?_⟩
    rw [joinEnd, keyword_spans e, hk]

/-- A closing parenthesis that stands outside is no operator. -/
theorem joinEnd_level {ts a b : List Token} {t : Token} (e : ts = a ++ t :: b) (n : Nesting) :
    (if n.levelOf t = 0 then joinEnd (spans 0 ts) 0 a.length else none) =
      if n.depth = 0 then joinEnd (spans 0 ts) 0 a.length else none := by
  cases t with
  | closeParen =>
    have hnone : joinEnd (spans 0 ts) 0 a.length = none := by rw [joinEnd, keyword_spans e]; rfl
    rw [hnone, ite_self, ite_self]
  | _ => rfl

theorem joinRound_eq {ts a b : List Token} {t : Token} (e : ts = a ++ t :: b) (hf : ∀ u ∈ t :: b, u.Formed) (s : Joining) :
    let round := joinRound (spans 0 ts) s a.length (t, byteSize (spell a), byteSize (spell a) + byteSize t.text)
    let operator := if s.nesting.depth = 0 then joinOperator 0 (t :: b) else none
    operator = none ∧ round = .ok (.next { s with nesting := s.nesting.step t } (a.length + 1)) ∨
    ∃ skip rest, b = skip ++ rest ∧ operator = some (words (spell (t :: skip)), rest) ∧ s.nesting.step t = s.nesting ∧
      round = .ok (.next { s with marks := s.marks ++ [⟨(), byteSize (spell a), byteSize (spell (a ++ t :: skip))⟩] }
        (a ++ t :: skip).length) := by
  intro round operator
  have hlevel := joinEnd_level e s.nesting
  by_cases hd : s.nesting.depth = 0
  · rw [if_pos hd] at hlevel
    rcases joinEnd_eq e hf 0 with ⟨hop, hend⟩ | ⟨u, skip, rest, hb, hop, hend⟩
    · have hfound := hlevel.trans hend
      exact .inl ⟨by simp only [operator, hop, ite_self], by simp [round, joinRound, hfound]⟩
    · obtain ⟨rfl, rfl⟩ := List.cons_eq_cons.mp hb
      obtain ⟨v, start, hstop⟩ := elem_last_spans (show ts = a ++ t :: skip ++ rest by simp [e])
      have hlen : (a ++ t :: skip).length = a.length + skip.length + 1 := by simp; omega
      have hkeyword : t.keyword ≠ none := fun hk => by unfold joinOperator at hop; simp [hk] at hop
      have hstep : s.nesting.step t = s.nesting := by
        cases t with
        | word => rfl
        | _ => exact absurd rfl hkeyword
      have hfound := hlevel.trans hend
      refine .inr ⟨skip, rest, rfl, (if_pos hd).trans hop, hstep, ?_⟩
      simp only [round, joinRound, stepDepth_eq, ok_bind, hfound, hstop, hlen, hstep, pure_eq_ok]
  · rw [if_neg hd] at hlevel
    exact .inl ⟨by simp only [operator, if_neg hd], by simp [round, joinRound, hlevel]⟩

def Cut.join (c : Cut Unit) : Text × List Token := (c.keyword, c.body)

theorem walk_joins {ts : List Token} (n : Nesting) (b : List Token) {a : List Token} (e : ts = a ++ b) (h : Lexed b)
    {s : Joining} (hn : s.nesting = n) : ∃ front cs, joinSections n b = (front, cs.map Cut.join) ∧
      b = front ++ cs.flatMap Cut.tokens ∧
      walk (spans 0 ts) (joinRound (spans 0 ts)) (fun s => .ok s.marks) s a.length =
        .ok (s.marks ++ marks (byteSize (spell (a ++ front))) cs) := by
  fun_induction joinSections n b generalizing a s with
  | case1 => exact ⟨[], [], rfl, rfl, by rw [walk_end (by simp [e])]; simp [marks]⟩
  | case2 n t b ws rest hop hlt front later hsec ih =>
    subst hn
    rcases joinRound_eq e (fun u hu => h.formed hu) s with ⟨hnone, -⟩ | ⟨skip, rest', rfl, hsome, hstep, hround⟩
    · exact absurd (hop.symm.trans hnone) (Option.some_ne_none _)
    · obtain ⟨rfl, rfl⟩ : ws = words (spell (t :: skip)) ∧ rest = rest' := by
        simpa using hop.symm.trans hsome
      obtain ⟨front', cs, hcs, hcut, hwalk⟩ := ih (a := a ++ t :: skip) (by simp [e]) h.2.2.of_append.2
        (s := { s with marks := s.marks ++ [⟨(), byteSize (spell a), byteSize (spell (a ++ t :: skip))⟩] }) rfl
      obtain ⟨rfl, rfl⟩ : front = front' ∧ later = cs.map Cut.join := by simpa [hsec] using hcs
      refine ⟨[], ⟨(), t :: skip, front⟩ :: cs, rfl, by rw [hcut]; simp [Cut.tokens], ?_⟩
      have hlt : a.length < (a ++ t :: skip).length := by simp
      have hstart : byteSize (spell (a ++ t :: skip)) = byteSize (spell a) + byteSize (spell (t :: skip)) := by
        rw [spell_append, byteSize_append]
      have hnext : byteSize (spell (a ++ (t :: skip ++ front))) =
          byteSize (spell a) + byteSize (spell (Cut.tokens ⟨(), t :: skip, front⟩)) := by
        rw [spell_append, byteSize_append]; rfl
      rw [walk_next (getElem?_spans e) hround hlt, hwalk]
      simp only [marks, List.append_nil, hstart, hnext, List.append_assoc, List.singleton_append]
  | case3 n t b hop front later hsec ih =>
    subst hn
    rcases joinRound_eq e (fun u hu => h.formed hu) s with ⟨-, hround⟩ | ⟨skip, rest', rfl, hsome, hstep, hround⟩
    · obtain ⟨front', cs, hcs, hcut, hwalk⟩ := ih (a := a ++ [t]) (by simp [e]) h.2.2
        (s := { s with nesting := s.nesting.step t }) rfl
      obtain ⟨rfl, rfl⟩ : front = front' ∧ later = cs.map Cut.join := by simpa [hsec] using hcs
      refine ⟨t :: front, cs, rfl, by rw [hcut]; rfl, ?_⟩
      rw [List.append_assoc, List.singleton_append, List.length_append, List.length_singleton] at hwalk
      rw [walk_next (getElem?_spans e) hround (Nat.lt_succ_self _), hwalk]
    · exact absurd (hsome.symm.trans hop) (Option.some_ne_none _)

theorem splitFrom_eq (body : Text) : splitFrom body = .ok (Sources.ofTokens (tokenize body)) := by
  obtain ⟨front, cs, hsec, hcut, hwalk⟩ := walk_joins {} (tokenize body) (show tokenize body = [] ++ tokenize body from rfl)
    (lexed_tokenize body) (s := {}) rfl
  have hl := lexed_tokenize body
  rw [hcut] at hl
  have hbody : body = spell front ++ spell (cs.flatMap Cut.tokens) := by
    rw [← spell_append, ← hcut, spell_tokenize]
  have hparts := cutAt_marks hbody
  have hstop : nextStart body (marks (byteSize (spell front)) cs) = byteSize (spell front) := by
    cases cs with
    | nil => rw [marks, nextStart, hbody]; simp
    | cons c cs => rfl
  have hfront : slice body 0 (byteSize (spell front)) = .ok (spell front) := by rw [hbody]; exact slice_head ..
  have hjoins : (cs.map fun c => (c.kind, c.keyword, spell c.body)).mapM (fun p => readJoin p.2.1 p.2.2) =
      .ok ((cs.map Cut.join).map fun j => Join.ofTokens j.1 j.2) := by
    rw [List.map_map]
    refine mapM_map_eq_ok fun c hc => readJoin_eq c.keyword ?_
    obtain ⟨x, y, rfl⟩ := List.append_of_mem hc
    have h := hl.of_append.2
    rw [List.flatMap_append, List.flatMap_cons, Cut.tokens] at h
    exact h.of_append.2.of_append.1.of_append.2
  rw [List.length_nil] at hwalk
  rw [splitFrom, lexSpans_eq, ok_bind, hwalk, ok_bind, Sources.ofTokens, hsec]
  simp only [List.nil_append, hstop, hfront, hparts, hjoins, readItem_spell hl.of_append.1, ok_bind, pure_eq_ok]

end SqlLayout.Checked
