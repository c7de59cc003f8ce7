import SqlLayout.Proofs.Recase
import SqlLayout.Proofs.Checked.Tokens

/-!
# Spans

The tokens of a text tile its bytes: the first starts where the text does,
each of the others where the one in front of it ends, and the last one ends
with the text, always between two characters (`lex_lossless`). A token ends
where it does also when nothing follows it, so what stands between the start
of one token and the end of another can be cut out and is read as the tokens
from the one to the other (`lex_slice`).
-/

namespace SqlLayout.Checked

/-! ## Offsets -/

/-- A byte offset between two characters, or at an end of the text. -/
def IsBoundary (s : Text) (k : Nat) : Prop := String.Pos.Raw.IsValid (String.ofList s) ⟨k⟩

/-- Where the tokens start, and where one behind them would. -/
def starts (s : Text) : List Nat := (spans 0 (tokenize s)).map (·.2.1) ++ [byteSize s]

/-- Where a token in front of them would end, and where the tokens do. -/
def stops (s : Text) : List Nat := 0 :: (spans 0 (tokenize s)).map (·.2.2)

theorem utf8ByteSize_ofList (s : Text) : (String.ofList s).utf8ByteSize = byteSize s := by
  induction s with
  | nil => rfl
  | cons c s ih => rw [String.ofList_cons, String.utf8ByteSize_append, String.utf8ByteSize_singleton, ih, byteSize]

theorem isBoundary_append (a b : Text) : IsBoundary (a ++ b) (byteSize a) := by
  apply String.Pos.Raw.isValid_ofList.mpr
  exact ⟨a.length, by rw [List.take_left, utf8ByteSize_ofList]⟩

theorem map_start_spans (k : Nat) (ts : List Token) :
    (spans k ts).map (·.2.1) ++ [k + byteSize (spell ts)] = k :: (spans k ts).map (·.2.2) := by
  induction ts generalizing k with
  | nil => rfl
  | cons t ts ih =>
    have ih := ih (k + byteSize t.text)
    rw [Nat.add_assoc, ← byteSize_append] at ih
    rw [spans, List.map_cons, List.map_cons, List.cons_append, spell_cons, ih]

theorem starts_eq_stops (s : Text) : starts s = stops s := by
  have h := map_start_spans 0 (tokenize s)
  rw [spell_tokenize, Nat.zero_add] at h
  exact h

theorem getElem?_starts {s : Text} {a b : List Token} (e : tokenize s = a ++ b) :
    (starts s)[a.length]? = some (byteSize (spell a)) := by
  unfold starts
  cases b with
  | nil =>
    -- no token starts there, but the text ends
    rw [List.append_nil] at e
    rw [List.getElem?_append_right (by simp [e]), ← e, spell_tokenize]
    simp
  | cons t b =>
    rw [List.getElem?_append_left (by simp [e]), List.getElem?_map, getElem?_spans e]
    rfl

theorem mem_spans {k p q : Nat} {t : Token} {ts : List Token} (h : (t, p, q) ∈ spans k ts) :
    ∃ a b, ts = a ++ [t] ++ b ∧ p = k + byteSize (spell a) ∧ q = k + byteSize (spell (a ++ [t])) := by
  induction ts generalizing k with
  | nil => cases h
  | cons u ts ih =>
    rw [spans] at h
    rcases List.mem_cons.mp h with h | h
    · cases h
      exact ⟨[], ts, rfl, rfl, by simp⟩
    · obtain ⟨a, b, rfl, rfl, rfl⟩ := ih h
      refine ⟨u :: a, b, rfl, ?_, ?_⟩
      · rw [spell_cons, byteSize_append, Nat.add_assoc]
      · rw [List.cons_append, spell_cons, byteSize_append, Nat.add_assoc]

/-! ## All tokens -/

section
variable {s : Text} {a b c : List Token}

theorem text_eq (e : tokenize s = a ++ b) : s = spell a ++ spell b := by
  rw [← spell_append, ← e, spell_tokenize]

theorem isBoundary_spell (e : tokenize s = a ++ b) : IsBoundary s (byteSize (spell a)) := by
  rw [text_eq e]
  exact isBoundary_append _ _

theorem slice_spell (e : tokenize s = a ++ b ++ c) :
    slice s (byteSize (spell a)) (byteSize (spell (a ++ b))) = .ok (spell b) := by
  rw [text_eq e, spell_append]
  apply slice_append _ _ _ rfl
  exact byteSize_append _ _

end

/-- The lexer over bytes comes to the end of every text without a cut inside
a character, and its tokens tile the text. -/
theorem lex_lossless (s : Text) :
    lex s = .ok (tokenize s) ∧ lexSpans s = .ok (spans 0 (tokenize s)) ∧
      (∀ t ∈ tokenize s, t.text ≠ []) ∧ spell (tokenize s) = s ∧ starts s = stops s ∧
      ∀ t p q, (t, p, q) ∈ spans 0 (tokenize s) →
        p < q ∧ slice s p q = .ok t.text ∧ IsBoundary s p ∧ IsBoundary s q := by
  have hne : ∀ t ∈ tokenize s, t.text ≠ [] := by
    intro t ht
    exact (formed_of_mem ht).text_ne_nil
  refine ⟨lex_eq s, lexSpans_eq s, hne, spell_tokenize s, starts_eq_stops s, ?_⟩
  intro t p q h
  obtain ⟨a, b, e, rfl, rfl⟩ := mem_spans h
  have hpos : 0 < byteSize t.text := byteSize_pos (hne t (by simp [e]))
  have htext : spell [t] = t.text := by simp
  rw [Nat.zero_add, Nat.zero_add]
  refine ⟨?_, ?_, ?_, isBoundary_spell e⟩
  · rw [spell_append, byteSize_append, htext]
    omega
  · rw [slice_spell e, htext]
  · rw [List.append_assoc] at e
    exact isBoundary_spell e

/-! ## Some tokens -/

theorem exists_between {α : Type} {l : List α} {i j : Nat} (hij : i ≤ j) (hj : j ≤ l.length) :
    ∃ a b c, l = a ++ b ++ c ∧ i = a.length ∧ j = a.length + b.length := by
  refine ⟨l.take i, (l.drop i).take (j - i), (l.drop i).drop (j - i), ?_, ?_, ?_⟩
  · rw [List.append_assoc, List.take_append_drop, List.take_append_drop]
  · rw [List.length_take]
    omega
  · rw [List.length_take, List.length_take, List.length_drop]
    omega

/-- The text from the start of the token with the index `i` to the end of the
one in front of `j` is read as the tokens from the one to the other, and each
of them has the place that it has in the whole text. -/
theorem lex_slice (s : Text) {i j : Nat} (hij : i ≤ j) (hj : j ≤ (tokenize s).length) :
    ∃ p q part, (starts s)[i]? = some p ∧ (stops s)[j]? = some q ∧ slice s p q = .ok part ∧
      lex part = range (tokenize s) i j ∧
      range (spans 0 (tokenize s)) i j = .ok (spans p (tokenize part)) := by
  obtain ⟨a, b, c, e, hi, hj⟩ := exists_between hij hj
  have hb : tokenize (spell b) = b := by
    apply tokenize_eq_iff.mpr
    exact ⟨Lexed.of_infix (lexed_tokenize s) ⟨a, c, e.symm⟩, rfl⟩
  refine ⟨byteSize (spell a), byteSize (spell (a ++ b)), spell b, ?_, ?_, ?_, ?_, ?_⟩
  · rw [hi]
    apply getElem?_starts
    rw [e, List.append_assoc]
  · rw [hj, ← List.length_append, ← starts_eq_stops]
    exact getElem?_starts e
  · exact slice_spell e
  · rw [lex_eq, hb, e]
    exact (range_append a b c hi hj).symm
  · rw [hb]
    exact range_spans e hi hj

/-- The name that follows the point was looked at for a fraction. -/
theorem lex_slice_point :
    4 ≤ (tokenize "é(1.x)".toList).length ∧ slice "é(1.x)".toList 3 5 = .ok "1.".toList ∧
      lex "1.".toList = .ok [.number "1".toList, .dot] := by
  have hlen : 4 ≤ (tokenize "é(1.x)".toList).length := by decide +kernel
  obtain ⟨p, q, part, hp, hq, hpart, hlex, -⟩ := lex_slice "é(1.x)".toList (show 2 ≤ 4 by decide) hlen
  have hstart : (starts "é(1.x)".toList)[2]? = some 3 := by decide +kernel
  have hstop : (stops "é(1.x)".toList)[4]? = some 5 := by decide +kernel
  have htext : slice "é(1.x)".toList 3 5 = .ok "1.".toList := by decide +kernel
  have htokens : range (tokenize "é(1.x)".toList) 2 4 = .ok [.number "1".toList, .dot] := by decide +kernel
  obtain rfl : 3 = p := Option.some.inj (hstart.symm.trans hp)
  obtain rfl : 5 = q := Option.some.inj (hstop.symm.trans hq)
  obtain rfl : "1.".toList = part := Except.ok.inj (htext.symm.trans hpart)
  exact ⟨hlen, htext, hlex.trans htokens⟩

end SqlLayout.Checked
