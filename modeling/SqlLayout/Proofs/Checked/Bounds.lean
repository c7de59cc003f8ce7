import SqlLayout.Proofs.Scan

/-!
# Operations with bounds

An engine that works on byte offsets and list indices can go wrong where the
functions of this library cannot: a slice can leave the text or cut a
character in two, an index can leave the list, a difference can fall below
zero, and a loop can stand still. Here these operations say so. The modules
beside this one write the whole of `format` with them and show that none of
them ever does.
-/

namespace SqlLayout.Checked

inductive Panic where
  /-- A slice leaves the text or cuts a character in two. -/
  | slice
  /-- An index or a range leaves the list. -/
  | index
  /-- A difference falls below zero. -/
  | underflow
  /-- A round of a loop comes no nearer to the end. -/
  | endless
  /-- Something does not hold that was taken for granted. -/
  | assertion
deriving DecidableEq

abbrev Run := Except Panic

@[simp] theorem ok_bind {α β : Type} (a : α) (f : α → Run β) : ((.ok a : Run α) >>= f) = f a := rfl

@[simp] theorem pure_eq_ok {α : Type} (a : α) : (pure a : Run α) = .ok a := rfl

@[simp] theorem map_ok {α β : Type} (f : α → β) (a : α) : Except.map f (.ok a : Run α) = .ok (f a) := rfl

theorem mapM_map_eq_ok {α β γ : Type} {e : α → β} {f : β → Run γ} {g : α → γ} {l : List α}
    (h : ∀ x ∈ l, f (e x) = .ok (g x)) : (l.map e).mapM f = .ok (l.map g) := by
  induction l with
  | nil => rfl
  | cons x l ih =>
    rw [List.map_cons, List.mapM_cons, h x List.mem_cons_self, ih fun y hy => h y (List.mem_cons_of_mem _ hy)]; rfl

theorem mapM_eq_ok {α β : Type} {f : α → Run β} {g : α → β} {l : List α} (h : ∀ x ∈ l, f x = .ok (g x)) :
    l.mapM f = .ok (l.map g) := by
  rw [← mapM_map_eq_ok (e := id) h, List.map_id]

/-! ## Lists and numbers -/

section
variable {α : Type}

def elem (l : List α) (i : Nat) : Run α :=
  match l[i]? with
  | some x => .ok x
  | none => .error .index

def range (l : List α) (i j : Nat) : Run (List α) :=
  if i ≤ j ∧ j ≤ l.length then .ok ((l.take j).drop i) else .error .index

theorem elem_of_getElem? {l : List α} {i : Nat} {x : α} (h : l[i]? = some x) : elem l i = .ok x := by
  rw [elem, h]

theorem getElem?_split {l a b : List α} {x : α} (e : l = a ++ x :: b) : l[a.length]? = some x := by simp [e]

@[simp] theorem elem_append (a b : List α) (x : α) : elem (a ++ x :: b) a.length = .ok x :=
  elem_of_getElem? (by simp)

theorem range_append (a b c : List α) {i j : Nat} (hi : i = a.length) (hj : j = a.length + b.length) :
    range (a ++ b ++ c) i j = .ok b := by
  subst hi hj
  rw [range, if_pos (by simp), ← List.length_append, List.take_left, List.drop_left]

theorem range_tail (a b : List α) : range (a ++ b) a.length (a ++ b).length = .ok b := by
  simpa using range_append a b [] rfl (List.length_append)

theorem range_behind (a : List α) (x : α) (b : List α) :
    range (a ++ x :: b) (a.length + 1) (a ++ x :: b).length = .ok b := by
  have h := range_tail (a ++ [x]) b
  rwa [List.append_assoc, List.singleton_append, List.length_append, List.length_singleton] at h

theorem getElem?_behind (a : List α) (x : α) (b : List α) : (a ++ x :: b)[a.length + 1]? = b.head? := by
  rw [List.getElem?_append_right (Nat.le_succ _), List.head?_eq_getElem?]
  simp

theorem findIdx?_first {p : α → Bool} {a : List α} (ha : ∀ x ∈ a, p x = false) {x : α} (hx : p x) (b : List α) :
    (a ++ x :: b).findIdx? p = some a.length := by
  rw [List.findIdx?_append, List.findIdx?_eq_none_iff.mpr ha, List.findIdx?_cons, if_pos hx]; simp

theorem findIdx?_split (p : α → Bool) (l : List α) : (∀ x ∈ l, p x = false) ∧ l.findIdx? p = none ∨
    ∃ a x b, l = a ++ x :: b ∧ (∀ x ∈ a, p x = false) ∧ p x ∧ l.findIdx? p = some a.length := by
  cases h : l.find? p with
  | none =>
    have h : ∀ x ∈ l, p x = false := by simpa using h
    exact .inl ⟨h, List.findIdx?_eq_none_iff.mpr h⟩
  | some x =>
    obtain ⟨hx, a, b, rfl, ha⟩ := List.find?_eq_some_iff_append.mp h
    have ha : ∀ x ∈ a, p x = false := by simpa using ha
    exact .inr ⟨a, x, b, rfl, ha, hx, findIdx?_first ha hx b⟩

theorem modifyHead_append (a b : List α) (gs : List (List α)) :
    (gs.modifyHead (b ++ ·)).modifyHead (a ++ ·) = gs.modifyHead (a ++ b ++ ·) := by
  cases gs <;> simp

end

def minus (a b : Nat) : Run Nat := if b ≤ a then .ok (a - b) else .error .underflow

theorem minus_of_le {a b : Nat} (h : b ≤ a) : minus a b = .ok (a - b) := if_pos h

/-! ## Loops -/

inductive Round (σ β : Type) where
  | next (s : σ) (j : Nat)
  | stop (y : β)

/-- A loop over the indices of a list that may skip some. Every round has to
go on behind its own index. -/
def walk {α σ β : Type} (l : List α) (round : σ → Nat → α → Run (Round σ β)) (done : σ → Run β) (s : σ) (i : Nat) :
    Run β :=
  if i < l.length then
    match elem l i with
    | .error p => .error p
    | .ok x =>
      match round s i x with
      | .error p => .error p
      | .ok (.stop y) => .ok y
      | .ok (.next s j) => if i < j then walk l round done s j else .error .endless
  else done s
termination_by l.length - i

section
variable {α σ β : Type} {l : List α} {round : σ → Nat → α → Run (Round σ β)} {done : σ → Run β} {s s' : σ} {i j : Nat}
  {x : α} {y : β}

theorem walk_end (h : l.length ≤ i) : walk l round done s i = done s := by rw [walk, if_neg (Nat.not_lt.mpr h)]

theorem walk_stop (hx : l[i]? = some x) (h : round s i x = .ok (.stop y)) : walk l round done s i = .ok y := by
  rw [walk, if_pos (List.getElem?_eq_some_iff.mp hx).1, elem_of_getElem? hx]; simp only [h]

theorem walk_next (hx : l[i]? = some x) (h : round s i x = .ok (.next s' j)) (hj : i < j) :
    walk l round done s i = walk l round done s' j := by
  rw [walk, if_pos (List.getElem?_eq_some_iff.mp hx).1, elem_of_getElem? hx]; simp only [h, if_pos hj]

end

/-! ## Texts -/

/-- Splits a text in front of a byte, where a character has to start or the
text to end. -/
def splitByte : Nat → Text → Run (Text × Text)
  | 0, s => .ok ([], s)
  | _ + 1, [] => .error .slice
  | n + 1, c :: s =>
    if c.utf8Size ≤ n + 1 then (splitByte (n + 1 - c.utf8Size) s).map (Prod.map (c :: ·) id)
    else .error .slice

def slice (s : Text) (i j : Nat) : Run Text := do
  let (front, _) ← splitByte j s
  let (_, part) ← splitByte i front
  return part

theorem splitByte_append (a b : Text) : splitByte (byteSize a) (a ++ b) = .ok (a, b) := by
  induction a with
  | nil => rw [byteSize, List.nil_append, splitByte]
  | cons c a ih =>
    have hc := c.utf8Size_pos
    obtain ⟨n, hn⟩ : ∃ n, byteSize (c :: a) = n + 1 := ⟨byteSize (c :: a) - 1, by simp only [byteSize]; omega⟩
    have hm : n + 1 - c.utf8Size = byteSize a := by rw [← hn, byteSize]; omega
    rw [hn, List.cons_append, splitByte, if_pos (by rw [← hn, byteSize]; omega), hm, ih]
    rfl

theorem slice_append (a b c : Text) {i j : Nat} (hi : i = byteSize a) (hj : j = byteSize a + byteSize b) :
    slice (a ++ b ++ c) i j = .ok b := by
  subst hi hj
  rw [slice, ← byteSize_append, splitByte_append, ok_bind]
  simp only [splitByte_append, ok_bind, pure_eq_ok]

theorem slice_tail (a b : Text) : slice (a ++ b) (byteSize a) (byteSize (a ++ b)) = .ok b := by
  simpa using slice_append a b [] rfl (byteSize_append a b)

theorem slice_head (a b : Text) : slice (a ++ b) 0 (byteSize a) = .ok a := by
  simpa [byteSize] using slice_append [] a b rfl (by simp [byteSize])

end SqlLayout.Checked
