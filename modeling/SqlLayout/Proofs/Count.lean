import SqlLayout.Preserve
import SqlLayout.Proofs.Rows

/-!
# Counting tokens

The check for lost tokens compares sorted lists, so it passes exactly when
the two texts hold the same tokens, each equally often. A text that has lost
commas only is reported to have lost a comma.
-/

namespace SqlLayout

/-! ## The order of texts -/

theorem textLe_refl (s : Text) : textLe s s := by
  induction s with
  | nil => rfl
  | cons c s ih => simp [textLe, ih]

theorem textLe_total (s t : Text) : textLe s t ∨ textLe t s := by
  fun_induction textLe s t with
  | case1 => exact Or.inl rfl
  | case2 => exact Or.inr rfl
  | case3 c s d t ih =>
    rw [textLe]
    simp only [Bool.or_eq_true, Bool.and_eq_true, decide_eq_true_eq]
    rcases Nat.lt_trichotomy c.toNat d.toNat with h | h | h
    · exact Or.inl (Or.inl h)
    · obtain rfl := Char.toNat_inj.mp h
      exact ih.imp (fun h => Or.inr ⟨rfl, h⟩) fun h => Or.inr ⟨rfl, h⟩
    · exact Or.inr (Or.inl h)

theorem textLe_antisymm {s t : Text} (h : textLe s t) (h' : textLe t s) : s = t := by
  fun_induction textLe s t with
  | case1 t =>
    cases t with
    | nil => rfl
    | cons d t => cases h'
  | case2 => cases h
  | case3 c s d t ih =>
    rw [textLe] at h'
    simp only [Bool.or_eq_true, Bool.and_eq_true, decide_eq_true_eq] at h h'
    rcases h with h | ⟨rfl, h⟩
    · rcases h' with h' | ⟨rfl, -⟩ <;> omega
    · rcases h' with h' | ⟨-, h'⟩
      · omega
      · rw [ih h h']

theorem textLe_trans {s t u : Text} (h : textLe s t) (h' : textLe t u) : textLe s u := by
  fun_induction textLe s t generalizing u with
  | case1 t => rfl
  | case2 => cases h
  | case3 c s d t ih =>
    cases u with
    | nil => cases h'
    | cons e u =>
      rw [textLe] at h' ⊢
      simp only [Bool.or_eq_true, Bool.and_eq_true, decide_eq_true_eq] at h h' ⊢
      rcases h with h | ⟨rfl, h⟩
      · rcases h' with h' | ⟨rfl, -⟩
        · exact Or.inl (h.trans h')
        · exact Or.inl h
      · exact h'.imp_right fun ⟨e, h'⟩ => ⟨e, ih h h'⟩

/-! ## Sorting -/

def InOrder (ts : List Text) : Prop := ts.Pairwise fun a b => textLe a b

theorem insertSorted_perm (t : Text) (ts : List Text) : (insertSorted t ts).Perm (t :: ts) := by
  induction ts with
  | nil => exact List.Perm.refl _
  | cons u ts ih =>
    rw [insertSorted]
    split
    · exact List.Perm.refl _
    · exact (ih.cons u).trans (List.Perm.swap t u ts)

theorem sorted_perm (ts : List Text) : (sorted ts).Perm ts := by
  induction ts with
  | nil => exact List.Perm.refl _
  | cons t ts ih => exact (insertSorted_perm t _).trans (ih.cons t)

theorem InOrder.insertSorted {ts : List Text} (h : InOrder ts) (t : Text) : InOrder (insertSorted t ts) := by
  induction ts with
  | nil => exact List.pairwise_singleton _ _
  | cons u ts ih =>
    obtain ⟨hu, hts⟩ := List.pairwise_cons.mp h
    rw [SqlLayout.insertSorted]
    split
    · next htu =>
      refine List.pairwise_cons.mpr ⟨fun v hv => ?_, h⟩
      rcases List.mem_cons.mp hv with rfl | hv
      · exact htu
      · exact textLe_trans htu (hu v hv)
    · next htu =>
      refine List.pairwise_cons.mpr ⟨fun v hv => ?_, ih hts⟩
      rcases List.mem_cons.mp ((insertSorted_perm t ts).mem_iff.mp hv) with rfl | hv
      · exact (textLe_total u v).resolve_right htu
      · exact hu v hv

theorem inOrder_sorted (ts : List Text) : InOrder (sorted ts) := by
  induction ts with
  | nil => exact List.Pairwise.nil
  | cons t ts ih => exact ih.insertSorted t

theorem InOrder.eq_of_perm {ts us : List Text} (ht : InOrder ts) (hu : InOrder us) (h : ts.Perm us) : ts = us :=
  h.eq_of_pairwise (fun _ _ _ _ => textLe_antisymm) ht hu

theorem sorted_eq_iff {ts us : List Text} : sorted ts = sorted us ↔ ts.Perm us := by
  constructor
  · intro h
    exact (sorted_perm ts).symm.trans (h ▸ sorted_perm us)
  · intro h
    exact (inOrder_sorted ts).eq_of_perm (inOrder_sorted us)
      ((sorted_perm ts).trans (h.trans (sorted_perm us).symm))

/-! ## The check -/

theorem firstDifference_eq_none {ts us : List Text} : firstDifference ts us = none ↔ ts = us := by
  fun_induction firstDifference ts us <;> simp_all

theorem checkPreserved_eq_ok {before after : Text} :
    checkPreserved before after = .ok () ↔ (canonical before).Perm (canonical after) := by
  rw [← sorted_eq_iff, ← firstDifference_eq_none]
  unfold checkPreserved
  split
  · next h => simp [h]
  · next h => simp [h]

theorem canonical?_eq (t : Token) : t.canonical? = if t.isSpace then none else some t.plain.text := by
  cases t <;> rfl

theorem canonical_eq (s : Text) : canonical s = (plainsOf s).map Token.text := by
  rw [canonical, plainsOf]
  induction tokenize s with
  | nil => rfl
  | cons t ts ih =>
    rw [List.filterMap_cons, canonical?_eq, plains_cons]
    cases h : t.isSpace <;> simp [ih]

/-! ## Lost commas -/

theorem Keeps.perm {k : Nat} {us vs : List Token} (h : Keeps k us vs) :
    vs.Perm (us ++ List.replicate k .comma) := by
  refine List.perm_iff_count.mpr fun t => ?_
  rw [List.count_append, List.count_replicate]
  by_cases ht : t = .comma
  · subst ht
    simpa using h.commas.symm
  · have others : ∀ ts : List Token, (ts.filter (· ≠ .comma)).count t = ts.count t :=
      fun ts => List.count_filter (by simpa using ht)
    rw [← others us, ← others vs, h.others]
    simp [Ne.symm ht]

theorem Keeps.canonical_perm {k : Nat} {s t : Text} (h : Keeps k (plainsOf s) (plainsOf t)) :
    (canonical t).Perm (canonical s ++ List.replicate k [',']) := by
  have := h.perm.map Token.text
  rwa [List.map_append, List.map_replicate, ← canonical_eq, ← canonical_eq] at this

theorem firstDifference_append (xs ts us : List Text) :
    firstDifference (xs ++ ts) (xs ++ us) = firstDifference ts us := by
  induction xs with
  | nil => rfl
  | cons x xs ih => simp [firstDifference, ih]

/-- The extra elements stand together, where the others are cut in two. -/
theorem firstDifference_sorted {ts : List Text} {k : Nat} {x t : Text}
    (h : firstDifference (sorted (ts ++ List.replicate k x)) (sorted ts) = some t) : t = x := by
  let low := (sorted ts).filter (textLe · x)
  let high := (sorted ts).filter fun u => !textLe u x
  have hlow : ∀ u ∈ low, textLe u x := fun u hu => (List.mem_filter.mp hu).2
  have hhigh : ∀ u ∈ high, textLe u x = false := fun u hu => by simpa using (List.mem_filter.mp hu).2
  have hx : ∀ u ∈ high, textLe x u := fun u hu => (textLe_total x u).resolve_right (by simp [hhigh u hu])
  have horder : ∀ xs : List Text, (∀ u ∈ xs, u = x) → InOrder (low ++ (xs ++ high)) := by
    intro xs hxs
    have ho : InOrder (sorted ts) := inOrder_sorted ts
    refine List.pairwise_append.mpr ⟨ho.sublist List.filter_sublist, List.pairwise_append.mpr ⟨?_, ?_, ?_⟩, ?_⟩
    · exact List.pairwise_of_forall_mem_list fun a ha b hb => by rw [hxs a ha, hxs b hb]; exact textLe_refl x
    · exact ho.sublist List.filter_sublist
    · intro a ha b hb
      rw [hxs a ha]
      exact hx b hb
    · intro a ha b hb
      refine textLe_trans (hlow a ha) ?_
      rcases List.mem_append.mp hb with hb | hb
      · rw [hxs b hb]; exact textLe_refl x
      · exact hx b hb
  have hperm : (low ++ high).Perm ts := (List.filter_append_perm _ _).trans (sorted_perm ts)
  have e₁ : sorted ts = low ++ ([] ++ high) :=
    (inOrder_sorted ts).eq_of_perm (horder [] (by simp)) ((sorted_perm ts).trans hperm.symm)
  have e₂ : sorted (ts ++ List.replicate k x) = low ++ (List.replicate k x ++ high) := by
    refine (inOrder_sorted _).eq_of_perm (horder _ fun u hu => List.eq_of_mem_replicate hu) ?_
    refine (sorted_perm _).trans ((hperm.symm.append_right _).trans ?_)
    rw [List.append_assoc]
    exact List.perm_append_comm.append_left low
  rw [e₂, e₁, firstDifference_append] at h
  cases k with
  | zero =>
    have e : firstDifference high high = none := firstDifference_eq_none.mpr rfl
    cases e.symm.trans h
  | succ k =>
    cases hh : high with
    | nil => rw [hh] at h; simpa [firstDifference, List.replicate_succ] using h.symm
    | cons y ys =>
      have hne : x ≠ y := by
        rintro rfl
        have := hhigh x (by simp [hh])
        rw [textLe_refl] at this
        cases this
      rw [hh] at h
      simpa [firstDifference, List.replicate_succ, hne] using h.symm

theorem lostToken_of_perm {before after t x : Text} {k : Nat}
    (hp : (canonical before).Perm (canonical after ++ List.replicate k x))
    (h : checkPreserved before after = .error (.lostToken t)) : t = x := by
  unfold checkPreserved at h
  rw [sorted_eq_iff.mpr hp] at h
  split at h
  · cases h
  · next e => cases h; exact firstDifference_sorted e

end SqlLayout
