import SqlLayout.Proofs.Items
import SqlLayout.Proofs.Recase
import SqlLayout.Proofs.Unclosed

/-!
# Seams

Where texts can be put together so that their tokens stay what they are.
Token lists can be joined wherever the first one stops before the second
(`Lexed.append`), and the space between tokens can be any other space. A
newline is such a place for every `b` exactly if no token in front of it
misses its end (`reads_apart_iff`).
-/

namespace SqlLayout

/-! ## Token lists -/

theorem Lexed.legible {ts : List Token} (h : Lexed ts) : Legible ts := by
  induction ts with
  | nil => trivial
  | cons t ts ih => exact ⟨h.1, Or.inr h.2.1, ih h.2.2⟩

theorem Lexed.append {ts us : List Token} (h₁ : Lexed ts) (h₂ : Lexed us)
    (h : ∀ t ∈ ts.getLast?, t.Stops (spell us)) : Lexed (ts ++ us) := by
  induction ts with
  | nil => exact h₂
  | cons t ts ih =>
    obtain ⟨hf, hs, ht⟩ := h₁
    cases ts with
    | nil => exact ⟨hf, h t rfl, h₂⟩
    | cons u ts =>
      have h' : ∀ t ∈ (u :: ts).getLast?, t.Stops (spell us) := by
        simpa [List.getLast?_cons_cons] using h
      refine ⟨hf, ?_, ih ht h'⟩
      rw [List.append_eq, spell_append]
      refine hs.append (spell_ne_nil ht.legible (List.cons_ne_nil _ _)) fun e => ?_
      -- a point that is all there is between stops before what follows it
      obtain ⟨rfl, hu⟩ : ts = [] ∧ u.text = ['.'] := by
        rw [spell_cons] at e
        rcases List.append_eq_singleton_iff.mp e with ⟨hu, -⟩ | ⟨hu, hts⟩
        · exact absurd hu ht.1.text_ne_nil
        · exact ⟨by_contra fun hne => spell_ne_nil ht.2.2.legible hne hts, hu⟩
      obtain rfl := ht.1.eq_dot hu
      exact h' .dot rfl

theorem Lexed.stops {ts us : List Token} (h : Lexed (ts ++ us)) : ∀ t ∈ ts.getLast?, t.Stops (spell us) := by
  intro t ht
  obtain ⟨as, rfl⟩ := List.getLast?_eq_some_iff.mp ht
  rw [List.append_assoc] at h
  exact h.of_append.2.2.1

/-- Only the last token can be without its end. -/
theorem Lexed.isUnterminated {ts us : List Token} (h : Lexed (ts ++ us)) (hne : us ≠ []) {t : Token} (ht : t ∈ ts) :
    t.isUnterminated = false := by
  obtain ⟨a, b, rfl⟩ := List.append_of_mem ht
  rw [List.append_assoc] at h
  by_contra hu
  have := h.of_append.2.legible.rest_of_isUnterminated (by simpa using hu)
  exact hne (List.append_eq_nil_iff.mp this).2

/-! ## Other space -/

theorem stops_whitespace {w : Text} {ts : List Token} (hf : ∀ t ∈ ts, t.Formed)
    (h : ∀ t ∈ ts.head?, t.isSpace = false) : (Token.whitespace w).Stops (spell ts) := by
  cases ts with
  | nil => exact Token.stops_nil _
  | cons t ts =>
    have ht : t.isSpace = false := h t rfl
    have hf := hf t (by simp)
    have hstart : ∀ {c : Char} {r : Text}, t.text = c :: r → isSpaceChar c = false := by
      intro c r e
      by_contra hc
      -- a token that starts with space is space
      have hread : tokenize (c :: r) = [t] := by
        have := tokenize_text_append hf t.stops_nil
        rwa [List.append_nil, tokenize, e] at this
      rw [tokenize, scan, if_pos (by simpa using hc)] at hread
      rw [← (List.cons.inj hread).1] at ht
      cases ht
    obtain ⟨c, r, e⟩ := List.exists_cons_of_ne_nil hf.text_ne_nil
    simp [Token.Stops, spell_cons, e, hstart e]

theorem Lexed.isSpace_next {t u : Token} {ts : List Token} (h : Lexed (t :: u :: ts)) (ht : t.isSpace) : u.isSpace = false := by
  obtain ⟨-, hs, hu, -⟩ := h
  obtain ⟨w, rfl⟩ := Token.eq_whitespace ht
  by_contra hsp
  obtain ⟨v, rfl⟩ := Token.eq_whitespace (by simpa using hsp)
  obtain ⟨c, r, rfl⟩ := List.exists_cons_of_ne_nil hu.1
  have hc : isSpaceChar c := List.all_eq_true.mp hu.2 c (by simp)
  simp [Token.Stops, Token.text, hc] at hs

theorem Lexed.respace {ts : List Token} (h : Lexed ts) (hc : ∀ t ∈ ts, t.isLineComment = false) {f : Token → Token}
    (hf : ∀ t ∈ ts, if t.isSpace then (f t).isSpace ∧ (f t).Formed else f t = t) : Lexed (ts.map f) := by
  induction ts with
  | nil => trivial
  | cons t ts ih =>
    have ih := ih h.2.2 (fun t ht => hc t (by simp [ht])) fun t ht => hf t (by simp [ht])
    have hft := hf t (by simp)
    cases ts with
    | nil =>
      refine ⟨?_, Token.stops_nil _, trivial⟩
      split at hft
      · exact hft.2
      · rw [hft]; exact h.1
    | cons u us =>
      have hfu := hf u (by simp)
      cases ht : t.isSpace with
      | true =>
        rw [if_pos ht] at hft
        obtain ⟨w, hw⟩ := Token.eq_whitespace hft.1
        have hu := h.isSpace_next ht
        rw [if_neg (by simp [hu])] at hfu
        refine ⟨hft.2, ?_, ih⟩
        rw [hw]
        refine stops_whitespace (fun v hv => ih.formed hv) fun v hv => ?_
        rw [List.map_cons, hfu] at hv
        obtain rfl := Option.some.inj hv
        exact hu
      | false =>
        rw [if_neg (by simp [ht])] at hft
        rw [List.map_cons, hft]
        refine ⟨h.1, ?_, ih⟩
        cases hu : u.isSpace with
        | true =>
          rw [if_pos hu] at hfu
          obtain ⟨w, hw⟩ := Token.eq_whitespace hfu.1
          have hw' := hfu.2
          rw [hw] at hw'
          obtain ⟨c, r, rfl⟩ := List.exists_cons_of_ne_nil hw'.1
          have hopen : t.isUnterminated = false :=
            (show Lexed ([t] ++ u :: us) from h).isUnterminated (List.cons_ne_nil _ _) List.mem_cons_self
          rw [List.map_cons, hw]
          exact Token.stops_cons (isBreak_space (List.all_eq_true.mp hw'.2 c (by simp))) hopen (by simp [ht])
            (by simp [hc t]) _
        | false =>
          rw [if_neg (by simp [hu])] at hfu
          rw [List.map_cons, hfu] at ih ⊢
          refine (h.2.1.of_isPrefix (List.prefix_append _ _)).append h.2.2.1.text_ne_nil fun hd => ?_
          obtain rfl := h.2.2.1.eq_dot hd
          exact ih.2.1

/-! ## Newlines -/

theorem closed_of_newline {a : Text} (h : solidsOf (a ++ ['\n']) = solidsOf a) : Closed a := by
  by_contra hc
  obtain ⟨ts, t, e, hu⟩ := exists_last_of_not_closed hc
  obtain ⟨t', hf, ht, hs, -⟩ := (formed_of_mem (t := t) (s := a) (by simp [e])).extend hu
  -- the newline is part of the last token
  have hlast := congrArg List.getLast? h
  rw [solidsOf_newline_of_last e hf ht hu, solidsOf, e, getLast_solids_open hu] at hlast
  obtain rfl : t' = t := by simpa [solids_cons, hs] using hlast
  exact List.cons_ne_nil _ _ (List.self_eq_append_right.mp ht)

/-- What a second look at its text says of a token is what the tokens that are
read behind it say: all of them have their ends exactly if a newline parts the
text from everything. -/
theorem reads_apart_iff (a : Text) :
    ((∀ t ∈ tokenize a, t.isUnterminated = false) ↔
        ∀ b, solidsOf (a ++ '\n' :: b) = solidsOf a ++ solidsOf b) ∧
      ∀ t ∈ (tokenize a).dropLast, t.isUnterminated = false := by
  refine ⟨?_, ?_⟩
  · rw [← closed_iff]
    constructor
    · exact fun h b => solidsOf_append_newline h b
    · exact fun h => closed_of_newline (by simpa using h [])
  · intro t ht
    have hne : tokenize a ≠ [] := by
      rintro e
      simp [e] at ht
    have hl : Lexed ((tokenize a).dropLast ++ [(tokenize a).getLast hne]) := by
      rw [List.dropLast_append_getLast]
      exact lexed_tokenize a
    exact hl.isUnterminated (List.cons_ne_nil _ _) ht

end SqlLayout
