import SqlLayout.Proofs.Letter

/-!
# Blank ends

Trimming knows more blanks than the lexer knows space. The blanks that are no
space, here called hard, are parts of words and operators, so a text that
loses one when it is trimmed loses part of a token. `hards` counts them.
-/

namespace SqlLayout

/-! ## Trimming -/

theorem dropEndWhile_append_all {α : Type} {p : α → Bool} {b : List α} (h : ∀ t ∈ b, p t) (a : List α) :
    dropEndWhile p (a ++ b) = dropEndWhile p a ∧ takeEndWhile p (a ++ b) = takeEndWhile p a ++ b := by
  have hb : ∀ t ∈ b.reverse, p t := by simpa using h
  constructor
  · simp [dropEndWhile, List.dropWhile_append_of_pos hb]
  · simp [takeEndWhile, List.takeWhile_append_of_pos hb]

theorem trimEnd_append_blank {w : Text} (hw : w.all isBlank) (s : Text) : trimEnd (s ++ w) = trimEnd s :=
  (dropEndWhile_append_all (by simpa using hw) s).1

theorem dropEndWhile_append {α : Type} {p : α → Bool} {b : List α} (h : dropEndWhile p b ≠ []) (a : List α) :
    dropEndWhile p (a ++ b) = a ++ dropEndWhile p b := by
  have hne : b.reverse.dropWhile p ≠ [] := by simpa [dropEndWhile] using h
  simp [dropEndWhile, List.dropWhile_append, hne]

theorem trimEnd_append {w : Text} (hw : trimEnd w ≠ []) (s : Text) : trimEnd (s ++ w) = s ++ trimEnd w :=
  dropEndWhile_append hw s

theorem trimEnd_eq_nil {s : Text} : trimEnd s = [] ↔ s.all isBlank := by
  rw [List.all_eq_true]
  exact List.rdropWhile_eq_nil_iff

theorem trimEnd_isPrefix (s : Text) : trimEnd s <+: s := List.rdropWhile_prefix isBlank s

theorem trimEnd_of_getLast {s : Text} (h : s.getLast?.all fun c => !isBlank c) : trimEnd s = s := by
  refine (List.rdropWhile_eq_self_iff (p := isBlank)).mpr fun hs => ?_
  rw [List.getLast?_eq_some_getLast hs] at h
  simpa using h

theorem getLast_trimEnd (s : Text) : (trimEnd s).getLast?.all fun c => !isBlank c := by
  by_cases h : trimEnd s = []
  · simp [h]
  · have : ¬isBlank ((trimEnd s).getLast h) := List.rdropWhile_last_not isBlank s h
    rw [List.getLast?_eq_some_getLast h]
    simpa using this

@[simp] theorem trimEnd_trimEnd (s : Text) : trimEnd (trimEnd s) = trimEnd s :=
  trimEnd_of_getLast (getLast_trimEnd s)

theorem trimEnd_cons {c : Char} (hc : isBlank c = false) (s : Text) : trimEnd (c :: s) = c :: trimEnd s := by
  by_cases h : trimEnd s = []
  · rw [h, ← List.singleton_append, trimEnd_append_blank (trimEnd_eq_nil.mp h)]
    exact trimEnd_of_getLast (by simpa using hc)
  · rw [← List.singleton_append, trimEnd_append h]; rfl

theorem exists_trimEnd (s : Text) : ∃ w, s = trimEnd s ++ w ∧ w.all isBlank :=
  ⟨takeEndWhile isBlank s, (dropEndWhile_append_takeEndWhile _ _).symm, by
    simp only [List.all_eq_true]
    exact fun c hc => List.mem_rtakeWhile_imp (p := isBlank) hc⟩

theorem trim_eq_trimStart_trimEnd (s : Text) : trim s = trimStart (trimEnd s) := by
  unfold trim trimStart
  induction s with
  | nil => rfl
  | cons c s ih =>
    cases hc : isBlank c with
    | false =>
      rw [trimEnd_cons hc, List.dropWhile_cons_of_neg (by simp [hc]),
        List.dropWhile_cons_of_neg (by simp [hc]), trimEnd_cons hc]
    | true =>
      rw [List.dropWhile_cons_of_pos hc, ih]
      by_cases h : trimEnd s = []
      · have : trimEnd (c :: s) = [] := trimEnd_eq_nil.mpr (by simpa [hc] using trimEnd_eq_nil.mp h)
        rw [h, this]
      · rw [← List.singleton_append, trimEnd_append h, List.singleton_append,
          List.dropWhile_cons_of_pos hc]

theorem trim_blank_append {u v : Text} (hu : u.all isBlank) (hv : v.all isBlank) (s : Text) :
    trim (u ++ s ++ v) = trim s := by
  rw [trim_eq_trimStart_trimEnd, trimEnd_append_blank hv, ← trim_eq_trimStart_trimEnd, trim, trim, trimStart,
    List.dropWhile_append_of_pos (List.all_eq_true.mp hu), trimStart]

theorem trim_of_ends {s : Text} (hh : s.head?.all fun c => !isBlank c)
    (hl : s.getLast?.all fun c => !isBlank c) : trim s = s := by
  cases s with
  | nil => rfl
  | cons c s =>
    have hc : isBlank c = false := by simpa using hh
    rw [trim, trimStart, List.dropWhile_cons_of_neg (by simp [hc])]
    exact trimEnd_of_getLast hl

theorem getLast_trim (s : Text) : (trim s).getLast?.all fun c => !isBlank c := getLast_trimEnd _

theorem mem_trim {s : Text} {c : Char} (h : c ∈ trim s) : c ∈ s :=
  (List.dropWhile_suffix isBlank).subset ((trimEnd_isPrefix _).subset h)

theorem forall_blank {p : Char → Prop} [DecidablePred p] {s : Text} (h : s.all fun c => !isBlank c || p c) :
    ∀ c ∈ s, isBlank c → p c := fun c hc hb => by simpa [hb] using List.all_eq_true.mp h c hc

/-! ## Hard blanks -/

def isHard (c : Char) : Bool := isBlank c && !isSpaceChar c

def hards (s : Text) : Nat := s.countP isHard

@[simp] theorem hards_nil : hards [] = 0 := rfl

@[simp] theorem hards_append (s t : Text) : hards (s ++ t) = hards s + hards t := List.countP_append ..

@[simp] theorem hards_cons (c : Char) (s : Text) :
    hards (c :: s) = hards s + if isHard c then 1 else 0 := List.countP_cons

theorem isBlank_of_isSpaceChar {c : Char} (h : isSpaceChar c) : isBlank c := by
  simp only [isSpaceChar, Bool.or_eq_true, decide_eq_true_eq] at h
  rcases h with (((rfl | rfl) | rfl) | rfl) | rfl <;> decide

theorem hards_eq_zero {s : Text} (h : s.all fun c => !isHard c) : hards s = 0 := by
  simpa [hards, List.countP_eq_zero] using h

theorem hards_of_space {s : Text} (h : ∀ c ∈ s, isBlank c → isSpaceChar c) : hards s = 0 := by
  refine hards_eq_zero ?_
  simp only [List.all_eq_true]
  intro c hc
  cases hb : isBlank c with
  | false => simp [isHard, hb]
  | true => simp [isHard, h c hc hb]

theorem hards_script {s : Text} (hv : '\x0b' ∉ s) (ha : ∀ c ∈ s, isBlank c → c.toNat < 0x80) :
    hards s = 0 := by
  refine hards_of_space fun c hc hb => ?_
  have hlt := ha c hc hb
  have hne : c.toNat ≠ 11 := fun h => hv (by rwa [← show c = '\x0b' from Char.toNat_inj.mp h])
  simp only [isBlank, Bool.or_eq_true, Bool.and_eq_true, decide_eq_true_eq] at hb
  simp only [isSpaceChar, Bool.or_eq_true, decide_eq_true_eq, ← Char.toNat_inj]
  simp only [show ' '.toNat = 32 from rfl, show '\t'.toNat = 9 from rfl, show '\n'.toNat = 10 from rfl,
    show '\x0c'.toNat = 12 from rfl, show '\r'.toNat = 13 from rfl]
  omega

theorem hards_space {s : Text} (h : s.all isSpaceChar) : hards s = 0 :=
  hards_eq_zero (by
    simp only [List.all_eq_true] at h ⊢
    exact fun c hc => by simp [isHard, h c hc])

theorem hards_le_of_sublist {s t : Text} (h : s.Sublist t) : hards s ≤ hards t := h.countP_le

theorem hards_trimEnd_le (s : Text) : hards (trimEnd s) ≤ hards s :=
  hards_le_of_sublist (trimEnd_isPrefix s).sublist

theorem hards_trimStart_le (s : Text) : hards (trimStart s) ≤ hards s :=
  hards_le_of_sublist (List.dropWhile_suffix isBlank).sublist

theorem space_of_hards {w : Text} (hw : w.all isBlank) (h : hards w = 0) : w.all isSpaceChar := by
  simp only [List.all_eq_true] at hw ⊢
  intro c hc
  have := List.countP_eq_zero.mp h c hc
  simpa [isHard, hw c hc] using this

theorem hards_pos {w : Text} (hne : w ≠ []) (hw : w.all isBlank) (hs : w.all fun c => !isSpaceChar c) :
    0 < hards w := by
  obtain ⟨c, r, rfl⟩ := List.exists_cons_of_ne_nil hne
  simp only [List.all_cons, Bool.and_eq_true] at hw hs
  simp [isHard, hw.1, hs.1]

theorem hards_trimEnd_lt {w : Text} (hs : w.all fun c => !isSpaceChar c) (h : trimEnd w ≠ w) :
    hards (trimEnd w) < hards w := by
  obtain ⟨b, e, hb⟩ := exists_trimEnd w
  have hne : b ≠ [] := by
    rintro rfl
    exact h (by rw [List.append_nil] at e; exact e.symm)
  have hsb : b.all fun c => !isSpaceChar c := by
    rw [e, List.all_append, Bool.and_eq_true] at hs
    exact hs.2
  have := hards_pos hne hb hsb
  have := congrArg hards e
  rw [hards_append] at this
  omega

theorem hards_trimStart_lt {w : Text} (hs : w.all fun c => !isSpaceChar c) (h : trimStart w ≠ w) :
    hards (trimStart w) < hards w := by
  have e : w.takeWhile isBlank ++ trimStart w = w := List.takeWhile_append_dropWhile
  have hne : w.takeWhile isBlank ≠ [] := by
    intro h'
    rw [h'] at e
    exact h e
  have hsb : (w.takeWhile isBlank).all fun c => !isSpaceChar c := by
    rw [← e, List.all_append, Bool.and_eq_true] at hs
    exact hs.1
  have := hards_pos hne List.all_takeWhile hsb
  have := congrArg hards e
  rw [hards_append] at this
  omega

theorem isHard_toUpper (c : Char) : isHard c.toUpper = isHard c := by
  rcases toUpper_cases c with h | ⟨h, hu⟩
  · rw [h]
  · simp [isHard, isBlank_of_isAlpha h, isBlank_of_isAlpha hu]

@[simp] theorem hards_upper (s : Text) : hards (upper s) = hards s := by
  simp only [hards, upper, List.countP_map]
  congr 1
  funext c
  exact isHard_toUpper c

end SqlLayout
