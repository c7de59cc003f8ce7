import SqlLayout.Proofs.Seams
import SqlLayout.Proofs.Splits

/-!
# Firm tokens

A token without hard blanks has no blank at its ends, unless it is space, a
line comment or without its end. The text of such tokens is trimmed by leaving
out the space at both ends of their list (`trim_firm`).
-/

namespace SqlLayout

/-- Trimming leaves the token alone, unless it is space. -/
def Token.Firm (t : Token) : Prop := t.isSpace ∨ trimStart t.text = t.text ∧ trimEnd t.text = t.text

theorem Token.Formed.firm {t : Token} (hf : t.Formed) (hu : t.isUnterminated = false) (hl : t.isLineComment = false)
    (hh : hards t.text = 0) : t.Firm := by
  cases hs : t.isSpace with
  | true => exact Or.inl hs
  | false =>
    refine Or.inr ⟨(Token.trimStart_text hf hs).resolve_right ?_, (Token.trimEnd_text hf hu hs hl).resolve_right ?_⟩
    all_goals rw [hh]; exact fun h => absurd h.1 (Nat.not_lt_zero _)

theorem hards_of_mem {t : Token} {ts : List Token} (h : t ∈ ts) (hh : hards (spell ts) = 0) : hards t.text = 0 := by
  obtain ⟨a, b, rfl⟩ := List.append_of_mem h
  simp only [spell_append, spell_cons, hards_append] at hh
  omega

/-! ## Trimming -/

def strip (ts : List Token) : List Token := dropEndWhile Token.isSpace (ts.dropWhile Token.isSpace)

theorem infix_strip (ts : List Token) : strip ts <:+: ts :=
  (List.rdropWhile_prefix _ _).isInfix.trans (List.dropWhile_suffix _).isInfix

theorem head_strip (ts : List Token) : ∀ t ∈ (strip ts).head?, t.isSpace = false := by
  intro t ht
  obtain ⟨r, hr⟩ : strip ts <+: ts.dropWhile Token.isSpace := List.rdropWhile_prefix _ _
  have hd := List.head?_dropWhile_not Token.isSpace ts
  rw [← hr, List.head?_append, Option.mem_def.mp ht] at hd
  simpa using hd

theorem getLast_dropEndWhile (ts : List Token) : ∀ t ∈ (dropEndWhile Token.isSpace ts).getLast?, t.isSpace = false := by
  intro t ht
  obtain ⟨hne, rfl⟩ := List.mem_getLast?_eq_getLast ht
  have : ¬Token.isSpace _ := List.rdropWhile_last_not Token.isSpace ts hne
  exact Bool.eq_false_iff.mpr this

theorem getLast_strip (ts : List Token) : ∀ t ∈ (strip ts).getLast?, t.isSpace = false := getLast_dropEndWhile _

theorem strip_eq_self {ts : List Token} (hh : ∀ t ∈ ts.head?, t.isSpace = false)
    (hl : ∀ t ∈ ts.getLast?, t.isSpace = false) : strip ts = ts := by
  cases ts with
  | nil => rfl
  | cons t ts =>
    rw [strip, List.dropWhile_cons_of_neg (by simpa using hh t rfl)]
    refine (List.rdropWhile_eq_self_iff (p := Token.isSpace)).mpr fun hne => ?_
    simp [hl _ (List.getLast?_eq_some_getLast hne)]

@[simp] theorem strip_strip (ts : List Token) : strip (strip ts) = strip ts :=
  strip_eq_self (head_strip ts) (getLast_strip ts)

theorem exists_strip (ts : List Token) : ∃ x y, ts = x ++ (strip ts ++ y) ∧ x.all Token.isSpace ∧ y.all Token.isSpace := by
  refine ⟨ts.takeWhile Token.isSpace, takeEndWhile Token.isSpace (ts.dropWhile Token.isSpace), ?_, List.all_takeWhile,
    List.all_eq_true.mpr fun t ht => List.mem_rtakeWhile_imp ht⟩
  rw [strip, dropEndWhile_append_takeEndWhile, List.takeWhile_append_dropWhile]

theorem solids_space_append {x y : List Token} (hx : x.all Token.isSpace) (hy : y.all Token.isSpace) (ts : List Token) :
    solids (x ++ (ts ++ y)) = solids ts := by
  rw [solids_append, solids_append, solids_eq_nil.mpr hx, solids_eq_nil.mpr hy, List.nil_append, List.append_nil]

@[simp] theorem solids_strip (ts : List Token) : solids (strip ts) = solids ts := by
  obtain ⟨x, y, e, hx, hy⟩ := exists_strip ts
  conv_rhs => rw [e]
  rw [solids_space_append hx hy]

theorem strip_eq_nil {ts : List Token} : strip ts = [] ↔ solids ts = [] := by
  constructor
  · intro h
    rw [← solids_strip, h, solids_nil]
  · intro h
    rw [← solids_strip, solids_eq_nil] at h
    cases e : strip ts with
    | nil => rfl
    | cons t us =>
      have hs := head_strip ts t (by rw [e]; rfl)
      rw [e, List.all_cons, hs] at h
      cases h

theorem strip_space_append {x y : List Token} (hx : x.all Token.isSpace) (hy : y.all Token.isSpace) (ts : List Token) :
    strip (x ++ (ts ++ y)) = strip ts := by
  rw [strip, List.dropWhile_append_of_pos (List.all_eq_true.mp hx), List.dropWhile_append]
  split
  · next h =>
    have ht : ts.dropWhile Token.isSpace = [] := by simpa using h
    rw [List.dropWhile_eq_nil_iff.mpr (List.all_eq_true.mp hy), strip, ht]
  · rw [(dropEndWhile_append_all (List.all_eq_true.mp hy) _).1, strip]

section
variable {ts : List Token} (hf : ∀ t ∈ ts, t.Formed) (h : ∀ t ∈ ts, t.Firm)
include hf h

theorem trimEnd_firm : trimEnd (spell ts) = spell (dropEndWhile Token.isSpace ts) := by
  induction ts using List.reverseRecOn with
  | nil => rfl
  | append_singleton ts t ih =>
    have hft : t.Formed := hf t (by simp)
    rw [spell_append, spell_cons, spell_nil, List.append_nil]
    cases hs : t.isSpace with
    | true =>
      rw [trimEnd_append_blank (isBlank_text hft hs), ih (fun u hu => hf u (by simp [hu])) fun u hu => h u (by simp [hu]),
        (dropEndWhile_append_all (by simpa using hs) ts).1]
    | false =>
      have he : trimEnd t.text = t.text := ((h t (by simp)).resolve_left (by simp [hs])).2
      rw [trimEnd_append (by rw [he]; exact hft.text_ne_nil), he, dropEndWhile_append (by simp [dropEndWhile, hs])]
      simp [dropEndWhile, hs]

theorem trimStart_firm : trimStart (spell ts) = spell (ts.dropWhile Token.isSpace) := by
  induction ts with
  | nil => rfl
  | cons t ts ih =>
    have hft : t.Formed := hf t (by simp)
    rw [spell_cons]
    cases hs : t.isSpace with
    | true =>
      rw [trimStart, List.dropWhile_append_of_pos (List.all_eq_true.mp (isBlank_text hft hs)), ← trimStart,
        ih (fun u hu => hf u (by simp [hu])) fun u hu => h u (by simp [hu]), List.dropWhile_cons_of_pos hs]
    | false =>
      have he : trimStart t.text = t.text := ((h t (by simp)).resolve_left (by simp [hs])).1
      obtain ⟨c, r, e⟩ := List.exists_cons_of_ne_nil hft.text_ne_nil
      rw [List.dropWhile_cons_of_neg (by simp [hs]), spell_cons, e]
      rw [e, trimStart] at he
      have hc : ¬isBlank c := fun hc => by
        rw [List.dropWhile_cons_of_pos hc] at he
        have := (List.dropWhile_suffix (l := r) isBlank).length_le
        rw [he] at this
        simp at this
      exact List.dropWhile_cons_of_neg hc

theorem trim_firm : trim (spell ts) = spell (strip ts) := by
  have hsub := (List.dropWhile_suffix (l := ts) Token.isSpace).subset
  rw [trim, trimStart_firm hf h, trimEnd_firm (fun t ht => hf t (hsub ht)) fun t ht => h t (hsub ht), strip]

end

/-! ## One line -/

theorem Lexed.isLineComment {ts us : List Token} (h : Lexed (ts ++ us)) (hne : us ≠ []) (hn : '\n' ∉ spell (ts ++ us))
    {t : Token} (ht : t ∈ ts) : t.isLineComment = false := by
  obtain ⟨a, b, rfl⟩ := List.append_of_mem ht
  rw [List.append_assoc] at h hn
  by_contra hc
  have hn' : '\n' ∉ spell (b ++ us) := fun hm => hn (by
    rw [spell_append, List.cons_append, spell_cons]
    exact List.mem_append_right _ (List.mem_append_right _ hm))
  have := rest_of_lineComment h.of_append.2.legible (by simpa using hc) hn'
  exact hne (List.append_eq_nil_iff.mp this).2

theorem Lexed.firm {ts us : List Token} (h : Lexed (ts ++ us)) (hne : us ≠ []) (hn : '\n' ∉ spell (ts ++ us))
    (hh : hards (spell (ts ++ us)) = 0) {t : Token} (ht : t ∈ ts) : t.Firm :=
  (h.formed (List.mem_append_left us ht)).firm (h.isUnterminated hne ht) (h.isLineComment hne hn ht)
    (hards_of_mem (List.mem_append_left us ht) hh)

end SqlLayout
