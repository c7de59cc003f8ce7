import SqlLayout.Proofs.Count

/-!
# The token that is named

Two sorted lists part at the least token that they do not hold equally often.
The check for lost tokens names what the first list has at that place
(`checkPreserved_names`): the right token if it was lost, but the next one in
order if it was added, and that one need not have changed
(`checkPreserved_names_kept`).
-/

namespace SqlLayout

/-- `d` is the least token that the lists do not hold equally often. -/
structure PartsAt (ts us : List Text) (d : Text) : Prop where
  below : ∀ v, textLe d v = false → ts.count v = us.count v
  differs : ts.count d ≠ us.count d

/-- The token `t` that is named where the lists part at `d`: `d` itself if the
first list holds more of it. Otherwise the least token of the first list
behind `d`, and `d` only if there is none. -/
def Named (ts us : List Text) (d t : Text) : Prop :=
  if us.count d < ts.count d then t = d
  else (t ∈ ts ∧ textLe t d = false ∧ ∀ v ∈ ts, textLe v d = false → textLe t v) ∨
    (t = d ∧ ∀ v ∈ ts, textLe v d)

/-! ## Where two lists part -/

theorem firstDifference_parts {ts us : List Text} {t : Text} (h : firstDifference ts us = some t) :
    ∃ xs ts' us', ts = xs ++ ts' ∧ us = xs ++ us' ∧ ts'.head? ≠ us'.head? ∧ ts'.head?.or us'.head? = some t := by
  fun_induction firstDifference ts us with
  | case1 => cases h
  | case2 a as => exact ⟨[], a :: as, [], rfl, rfl, by simp, h⟩
  | case3 b bs => exact ⟨[], [], b :: bs, rfl, rfl, by simp, h⟩
  | case4 as b bs ih =>
    obtain ⟨xs, ts', us', rfl, rfl, hne, ht⟩ := ih h
    exact ⟨b :: xs, ts', us', rfl, rfl, hne, ht⟩
  | case5 a as b bs hne => exact ⟨[], a :: as, b :: bs, rfl, rfl, by simpa using hne, h⟩

theorem textLe_of_not {s t : Text} (h : textLe s t = false) : textLe t s :=
  (textLe_total s t).resolve_left (by simp [h])

theorem textLe_of_ne {s t : Text} (h : textLe s t) (hne : s ≠ t) : textLe t s = false :=
  Bool.eq_false_iff.mpr fun h' => hne (textLe_antisymm h h')

theorem textLe_not_trans {s t u : Text} (h : textLe t s = false) (h' : textLe u t = false) : textLe u s = false := by
  refine Bool.eq_false_iff.mpr fun hus => ?_
  rw [textLe_trans (textLe_of_not h') hus] at h
  cases h

/-- Nothing in front of its head is in a list. -/
theorem InOrder.count_eq_zero {ts : List Text} {v : Text} (ho : InOrder ts) (h : ∀ x ∈ ts.head?, textLe x v = false) :
    ts.count v = 0 := by
  cases ts with
  | nil => rfl
  | cons x ts =>
    have hx : textLe x v = false := h x rfl
    refine List.count_eq_zero.mpr fun hv => ?_
    have hle : textLe x v := by
      rcases List.mem_cons.mp hv with rfl | hv
      · exact textLe_refl v
      · exact (List.pairwise_cons.mp ho).1 v hv
    rw [hx] at hle
    cases hle

/-- Two lists part at the lesser one of their heads. -/
theorem InOrder.parts_at_head {x : Text} {ts us : List Text} (ht : InOrder (x :: ts)) (hu : InOrder us)
    (hlt : ∀ y ∈ us.head?, textLe y x = false) :
    us.count x < (x :: ts).count x ∧ ∀ v, textLe x v = false → (x :: ts).count v = us.count v := by
  constructor
  · rw [hu.count_eq_zero hlt]
    simp
  · intro v hv
    rw [ht.count_eq_zero fun y hy => by cases hy; exact hv, hu.count_eq_zero fun y hy => textLe_not_trans hv (hlt y hy)]

theorem InOrder.of_append {xs ts : List Text} (h : InOrder (xs ++ ts)) :
    InOrder ts ∧ ∀ x ∈ xs, ∀ t ∈ ts, textLe x t := by
  obtain ⟨-, ht, hx⟩ := List.pairwise_append.mp h
  exact ⟨ht, hx⟩

theorem named_of_firstDifference {ts us : List Text} {t : Text} (ht : InOrder ts) (hu : InOrder us)
    (h : firstDifference ts us = some t) : ∃ d, PartsAt ts us d ∧ Named ts us d t := by
  obtain ⟨xs, ts', us', rfl, rfl, hne, hor⟩ := firstDifference_parts h
  obtain ⟨ht', hxt⟩ := ht.of_append
  obtain ⟨hu', hxu⟩ := hu.of_append
  -- the first list has the lesser head
  have lost : ∀ {x vs}, ts' = x :: vs → (∀ y ∈ us'.head?, textLe y x = false) → 
      ∃ d, PartsAt (xs ++ ts') (xs ++ us') d ∧ Named (xs ++ ts') (xs ++ us') d t := by
    rintro x vs rfl hlt
    obtain rfl : x = t := by simpa using hor
    obtain ⟨hmore, hbelow⟩ := ht'.parts_at_head hu' hlt
    refine ⟨x, ⟨fun v hv => ?_, ?_⟩, ?_⟩
    · rw [List.count_append, List.count_append, hbelow v hv]
    · rw [List.count_append, List.count_append]
      omega
    · rw [Named, if_pos (by rw [List.count_append, List.count_append]; omega)]
  -- the second list has the lesser head
  have added : ∀ {y vs}, us' = y :: vs → (∀ x ∈ ts'.head?, textLe x y = false) → 
      ∃ d, PartsAt (xs ++ ts') (xs ++ us') d ∧ Named (xs ++ ts') (xs ++ us') d t := by
    rintro y vs rfl hlt
    obtain ⟨hmore, hbelow⟩ := hu'.parts_at_head ht' hlt
    refine ⟨y, ⟨fun v hv => ?_, ?_⟩, ?_⟩
    · rw [List.count_append, List.count_append, hbelow v hv]
    · rw [List.count_append, List.count_append]
      omega
    · rw [Named, if_neg (by rw [List.count_append, List.count_append]; omega)]
      cases ts' with
      | nil =>
        obtain rfl : y = t := by simpa using hor
        exact .inr ⟨rfl, fun v hv => hxu v (by simpa using hv) y (by simp)⟩
      | cons x vs =>
        obtain rfl : x = t := by simpa using hor
        refine .inl ⟨by simp, hlt x rfl, fun v hv hvd => ?_⟩
        rcases List.mem_append.mp hv with hv | hv
        · rw [hxu v hv y (by simp)] at hvd
          cases hvd
        · rcases List.mem_cons.mp hv with rfl | hv
          · exact textLe_refl v
          · exact (List.pairwise_cons.mp ht').1 v hv
  cases ts' with
  | nil =>
    cases us' with
    | nil => exact absurd rfl hne
    | cons y vs => exact added rfl (by simp)
  | cons x ts' =>
    cases us' with
    | nil => exact lost rfl (by simp)
    | cons y vs =>
      have hne : x ≠ y := by simpa using hne
      rcases textLe_total x y with hle | hle
      · exact lost rfl fun z hz => by cases hz; exact textLe_of_ne hle hne
      · exact added rfl fun z hz => by cases hz; exact textLe_of_ne hle hne.symm

/-! ## The check -/

theorem PartsAt.of_perm {ts ts' us us' : List Text} {d : Text} (ht : ts.Perm ts') (hu : us.Perm us')
    (h : PartsAt ts us d) : PartsAt ts' us' d where
  below v hv := by rw [← ht.count_eq, ← hu.count_eq, h.below v hv]
  differs := by rw [← ht.count_eq, ← hu.count_eq]; exact h.differs

theorem Named.of_perm {ts ts' us us' : List Text} {d t : Text} (ht : ts.Perm ts') (hu : us.Perm us')
    (h : Named ts us d t) : Named ts' us' d t := by
  unfold Named at h ⊢
  simpa only [ht.count_eq, hu.count_eq, ht.mem_iff] using h

theorem named_of_checkPreserved {before after : Text} {f : Fault} (h : checkPreserved before after = .error f) :
    ∃ t d, f = .lostToken t ∧ PartsAt (canonical before) (canonical after) d ∧
      Named (canonical before) (canonical after) d t := by
  unfold checkPreserved at h
  split at h
  · cases h
  · next t e =>
    cases h
    obtain ⟨d, hd, ht⟩ := named_of_firstDifference (inOrder_sorted _) (inOrder_sorted _) e
    exact ⟨t, d, rfl, hd.of_perm (sorted_perm _) (sorted_perm _), ht.of_perm (sorted_perm _) (sorted_perm _)⟩

/-- If no token was added, the one that is named was lost. -/
theorem lostToken_of_le {before after t : Text} (h : checkPreserved before after = .error (.lostToken t))
    (hle : ∀ u, (canonical after).count u ≤ (canonical before).count u) :
    (canonical after).count t < (canonical before).count t := by
  obtain ⟨t', d, e, hd, ht⟩ := named_of_checkPreserved h
  cases e
  have hlost : (canonical after).count d < (canonical before).count d := Nat.lt_of_le_of_ne (hle d) hd.differs.symm
  rw [Named, if_pos hlost] at ht
  exact ht ▸ hlost

/-- The check passes if all tokens occur equally often in both texts, and
else names a token by where the sorted tokens part. -/
theorem checkPreserved_names (before after : Text) :
    match checkPreserved before after with
    | .ok () => ∀ t, (canonical before).count t = (canonical after).count t
    | .error f => ∃ t d, f = .lostToken t ∧ PartsAt (canonical before) (canonical after) d ∧
        Named (canonical before) (canonical after) d t := by
  split
  · next h => exact fun t => (checkPreserved_eq_ok.mp h).count_eq t
  · next f h => exact named_of_checkPreserved h

set_option maxRecDepth 100000 in
/-- The token `b` was added, and `c` is named. -/
theorem checkPreserved_names_kept :
    checkPreserved "a c".toList "a b c".toList = .error (.lostToken ['C']) ∧
      (canonical "a c".toList).count ['C'] = (canonical "a b c".toList).count ['C'] := by
  decide +kernel

end SqlLayout
