import SqlLayout.Proofs.Unclosed

/-!
# Tokens of nothing but blanks

The lexer knows fewer blanks than trimming does, so a line that counts as
blank can hold words and operators. Where blank lines are left out, such
tokens are left out with them, and no others (`Sheds`).
-/

namespace SqlLayout

def Token.isInk (t : Token) : Bool := !isBlankText t.text

def inks (ts : List Token) : List Token := ts.filter Token.isInk

@[simp] theorem inks_nil : inks [] = [] := rfl

@[simp] theorem inks_append (ts us : List Token) : inks (ts ++ us) = inks ts ++ inks us := List.filter_append ..

theorem inks_eq_nil {ts : List Token} : inks ts = [] ↔ ∀ t ∈ ts, t.isInk = false := by
  simp [inks, List.filter_eq_nil_iff]

theorem inks_eq_self {ts : List Token} (h : ∀ t ∈ ts, t.isInk) : inks ts = ts := List.filter_eq_self.mpr h

theorem isInk_of_isUnterminated {t : Token} (hf : t.Formed) (hu : t.isUnterminated) : t.isInk := by
  by_contra h
  have hb : t.text.all isBlank := by simpa [Token.isInk, isBlankText] using h
  rcases hf.cases_of_blank hb with hs | ⟨w, rfl⟩ | ⟨w, rfl⟩
  · rw [isUnterminated_of_isSpace hs] at hu
    cases hu
  · cases hu
  · cases hu

@[simp] theorem Token.isInk_plain (t : Token) : t.plain.isInk = t.isInk := by
  cases t with
  | word w =>
    rw [isInk, isInk, isBlankText, isBlankText, plain, text, text, upper, List.all_map]
    congr 2
    funext c
    rcases toUpper_cases c with h | ⟨h, h'⟩
    · rw [Function.comp_apply, h]
    · rw [Function.comp_apply, isBlank_of_isAlpha h, isBlank_of_isAlpha h']
  | lineComment c =>
    have : (trimEnd c).all isBlank = c.all isBlank := by
      rw [Bool.eq_iff_iff, ← trimEnd_eq_nil, ← trimEnd_eq_nil, trimEnd_trimEnd]
    rw [isInk, isInk, isBlankText, isBlankText, plain, text, text, this]
  | _ => rfl

theorem inks_map_plain (ts : List Token) : inks (ts.map Token.plain) = (inks ts).map Token.plain := by
  rw [inks, inks, List.filter_map]
  congr 2
  funext t
  exact t.isInk_plain

/-! ## Blank texts -/

theorem isInk_of_mem_blank {w : Text} (hw : w.all isBlank) {t : Token} (ht : t ∈ tokenize w) : t.isInk = false := by
  have : t.text.all isBlank := List.all_eq_true.mpr fun c hc => List.all_eq_true.mp hw c (mem_of_mem_tokenize ht hc)
  simpa [Token.isInk, isBlankText] using this

theorem closed_of_blank {w : Text} (hw : w.all isBlank) : Closed w := by
  rw [closed_iff]
  intro t ht
  by_contra hu
  have := isInk_of_isUnterminated (formed_of_mem ht) (by simpa using hu)
  rw [isInk_of_mem_blank hw ht] at this
  cases this

/-- A text that trimming leaves alone but for space has no such tokens. -/
theorem isInk_of_hards {s : Text} (hh : hards s = 0) {t : Token} (ht : t ∈ solidsOf s) : t.isInk := by
  obtain ⟨ht, hs⟩ := mem_solids.mp ht
  have hle : hards t.text ≤ hards s := by
    obtain ⟨a, b, e⟩ := List.append_of_mem ht
    rw [← spell_tokenize s, e, spell_append, spell_cons, hards_append, hards_append]
    omega
  by_contra hb
  have hspace : t.text.all isSpaceChar := space_of_hards (by simpa [Token.isInk, isBlankText] using hb) (by omega)
  have hread := solidsOf_text_append (formed_of_mem ht) (Or.inr t.stops_nil)
  rw [List.append_nil, solidsOf_space hspace, hs] at hread
  cases hread

/-! ## Leaving them out -/

structure Sheds (us vs : List Token) : Prop where
  sublist : vs.Sublist us
  inks : inks vs = inks us

namespace Sheds

variable {us vs us' vs' : List Token}

theorem refl (us : List Token) : Sheds us us := ⟨List.Sublist.refl us, rfl⟩

theorem append (h : Sheds us vs) (h' : Sheds us' vs') : Sheds (us ++ us') (vs ++ vs') :=
  ⟨h.sublist.append h'.sublist, by rw [inks_append, inks_append, h.inks, h'.inks]⟩

theorem trans {ws : List Token} (h : Sheds us vs) (h' : Sheds vs ws) : Sheds us ws :=
  ⟨h'.sublist.trans h.sublist, h'.inks.trans h.inks⟩

theorem of_blank (h : ∀ u ∈ us, u.isInk = false) : Sheds us [] := ⟨List.nil_sublist us, (inks_eq_nil.mpr h).symm⟩

theorem eq (h : Sheds us vs) (hu : ∀ u ∈ us, u.isInk) : vs = us := by
  have hv : ∀ v ∈ vs, v.isInk := fun v hv => hu v (h.sublist.subset hv)
  rw [← inks_eq_self hv, h.inks, inks_eq_self hu]

theorem map_plain (h : Sheds us vs) : Sheds (us.map Token.plain) (vs.map Token.plain) :=
  ⟨h.sublist.map _, by rw [inks_map_plain, inks_map_plain, h.inks]⟩

theorem mem (h : Sheds us vs) {u : Token} (hu : u ∈ us) (hi : u.isInk) : u ∈ vs := by
  have : u ∈ SqlLayout.inks us := List.mem_filter.mpr ⟨hu, hi⟩
  rw [← h.inks] at this
  exact (List.mem_filter.mp this).1

end Sheds

theorem sheds_blank {w : Text} (hw : w.all isBlank) : Sheds (solidsOf w) [] :=
  .of_blank fun _ ht => isInk_of_mem_blank hw (mem_solids.mp ht).1

/-- Lines of characters that satisfy `p`, each with its newline. -/
def IsGap (p : Char → Bool) (w : Text) : Prop := w = [] ∨ ∃ v, v.all p ∧ w = v ++ ['\n']

namespace IsGap

variable {p : Char → Bool} {w : Text}

theorem all (h : IsGap p w) (hp : p '\n') : w.all p := by
  rcases h with rfl | ⟨v, hv, rfl⟩
  · rfl
  · rw [List.all_append, hv, List.all_cons, hp]
    rfl

theorem solidsOf_append (h : IsGap isBlank w) (s : Text) : solidsOf (w ++ s) = solidsOf w ++ solidsOf s := by
  rcases h with rfl | ⟨v, hv, rfl⟩
  · simp
  · rw [List.append_assoc, List.singleton_append, solidsOf_append_newline (closed_of_blank hv),
      solidsOf_append_newline (closed_of_blank hv), solidsOf_nil, List.append_nil]

theorem sheds (h : IsGap isBlank w) (s : Text) : Sheds (solidsOf (w ++ s)) (solidsOf s) := by
  rw [h.solidsOf_append]
  exact (sheds_blank (h.all rfl)).append (.refl _)

theorem closed_iff (h : IsGap isBlank w) {s : Text} : Closed (w ++ s) ↔ Closed s := by
  unfold Closed
  rw [h.solidsOf_append, List.forall_mem_append]
  exact and_iff_right (closed_of_blank (h.all rfl))

end IsGap

end SqlLayout
