import SqlLayout.Layout.Indent
import SqlLayout.Layout.Legacy
import SqlLayout.Layout.River
import SqlLayout.Proofs.Places

/-!
# The styles hold the tokens of a clause

Each style puts the keyword of a clause in front of its body, on a line of its
own or as the head of the first item. The lines hold the tokens of both.
-/

namespace SqlLayout

structure Worded (a : Text) : Prop where
  flat : Flat (tokenize a)
  hards_eq : hards a = seen (plainsOf a)
  takesMore : TakesMore (plainsOf a)
  newline_notMem : '\n' ∉ a

theorem Worded.spells {a : Text} (h : Worded a) : Spells (plainsOf a) [a] :=
  Or.inr ⟨by simpa using h.hards_eq, by simp, flatLines_cons.mpr ⟨h.flat, flatLines_nil⟩⟩

theorem worded_text {t : Token} (h : t.Formed) (hf : t.isFlat) (hs : t.isSpace = false)
    (hc : t.isLineComment = false) : Worded t.text where
  flat := by
    have hl : Legible [t] := ⟨h, Or.inr t.stops_nil, trivial⟩
    have hf : Flat [t] := fun u hu => by
      obtain rfl := List.mem_singleton.mp hu
      exact hf
    simpa using flat_tokenize_spell hl hf
  hards_eq := by
    rw [plainsOf_text h hs]
    simp [hards_plain hc]
  takesMore := takesMore_text h hs hc
  newline_notMem := newline_notMem_text hf (by cases t <;> first | rfl | cases hs)

theorem Worded.blank {a b : Text} (ha : Worded a) (hb : Worded b) :
    plainsOf (a ++ ' ' :: b) = plainsOf a ++ plainsOf b ∧ Worded (a ++ ' ' :: b) := by
  have hf : Fades [a, b] [a ++ ' ' :: b] :=
    ((Fades.refl [a]).cons (Fades.space_append (w := [' ']) (by decide) b)).trans (Fades.glue ha.takesMore rfl)
  have hh : hards (a ++ ' ' :: b) = hards a + hards b := by simp [show isHard ' ' = false by decide]
  obtain ⟨e, f⟩ := hf.2 (by simp [ha.flat, hb.flat]) (by simp [hh])
  have e : plainsOf (a ++ ' ' :: b) = plainsOf a ++ plainsOf b := by simpa using e
  refine ⟨e, (flatLines_cons.mp f).1, ?_, e ▸ ha.takesMore.append hb.takesMore, ?_⟩
  · rw [e, seen_append, hh, ha.hards_eq, hb.hards_eq]
  · simp [ha.newline_notMem, hb.newline_notMem]

theorem Worded.solidsOf_blank {a : Text} (ha : Worded a) (b : Text) :
    solidsOf (a ++ ' ' :: b) = solidsOf a ++ solidsOf b := by
  have hl : (solidsOf a).getLast?.all fun t => !t.isLineComment := by
    have := ha.takesMore
    rw [TakesMore, plainsOf_eq, List.getLast?_map] at this
    cases h : (solidsOf a).getLast? with
    | none => rfl
    | some t => simpa [h] using this
  rw [solidsOf_append_break (closed_iff.mpr fun t ht => ha.flat.isUnterminated ht) hl rfl,
    solidsOf_cons_space (by decide)]

theorem Worded.lays_line {a : Text} (h : Worded a) : Lays 0 (plainsOf a) [trimEnd a] :=
  (h.spells.fades (Fades.trimEnd a)).lays

theorem Worded.spot {a : Text} (h : Worded a) {s : Spot} (hk : s.isKeyword) {n m : Nat}
    (hs : s.head = pad n ++ a ++ pad (m + 1)) : s.Reads a (plainsOf a) where
  heads := hs ▸ heads_word h.takesMore n m
  spells := h.spells
  takesMore := h.takesMore
  keyword := by simp [hk]

theorem Worded.shape {a : Text} (h : Worded a) {s : ListShape} (hk : s.isKeyword) {n m : Nat}
    (hs : s.head = pad n ++ a ++ pad (m + 1)) : s.Reads a (plainsOf a) := fun _ =>
  Worded.spot h (s := s.spot _) hk hs

theorem reads_pad_shape {s : ListShape} {n : Nat} (h : s.head = pad n) : s.Reads [] [] := fun _ => reads_pad h

/-! ## Bodies -/

structure Join.Holds (j : Join) (us : List Token) : Prop where
  operator : Worded j.operator
  on : ∀ on ∈ j.on, Worded on
  noOn : j.on = none → j.conditions = []
  parts : ∃ table conditions, us = plainsOf j.operator ++ (table ++ (j.on.elim [] plainsOf ++ conditions.flatten)) ∧
    j.table.Holds table ∧ List.Forall₂ Item.Holds j.conditions conditions

def Sources.Holds (s : Sources) (us : List Token) : Prop :=
  ∃ table joins, us = table ++ joins.flatten ∧ s.table.Holds table ∧ List.Forall₂ Join.Holds s.joins joins

def HoldsModifiers (ms : List Token) : Option Text → Prop
  | some m => Spells ms [m]
  | none => ms = []

def Body.Holds : Body → List Token → Prop
  | .selection modifiers items, us =>
    ∃ ms is, us = ms ++ commaed is ∧ HoldsModifiers ms modifiers ∧ List.Forall₂ Item.Holds items is
  | .list items, us => ∃ is, us = commaed is ∧ List.Forall₂ Item.Holds items is
  | .conditions items, us => ∃ is, us = is.flatten ∧ List.Forall₂ Item.Holds items is
  | .sources s, us => s.Holds us

theorem lays_modifiers {keyword m : Text} (h : Worded keyword) {ms : List Token} (hm : Spells ms [m]) :
    Lays 0 (plainsOf keyword ++ ms) [trimEnd (keyword ++ ' ' :: m)] := by
  have hf : Fades [keyword, m] [keyword ++ ' ' :: m] :=
    ((Fades.refl [keyword]).cons (Fades.space_append (w := [' ']) (by decide) m)).trans
      (Fades.glue h.takesMore rfl)
  exact ((h.spells.append hm).fades (hf.trans (Fades.trimEnd _))).lays

section
variable {keyword : Text} (hk : Worded keyword) {items : List Item} {us : List (List Token)}
  (h : List.Forall₂ Item.Holds items us)
include hk

theorem lays_below {below : List Text} {bs : List Token} (hb : Lays 0 bs below) :
    Lays 0 (plainsOf keyword ++ bs) (trimEnd keyword :: below) :=
  hk.lays_line.append hb

include h

theorem lays_keywordList {n m : Nat} {s : ListShape} (hs : s.isKeyword)
    (hh : s.head = pad n ++ keyword ++ pad (m + 1)) (comma : CommaPlace) (hne : items ≠ []) :
    Lays 0 (plainsOf keyword ++ commaed us) (commaList comma s items) :=
  lays_commaList (hk.shape hs hh) comma h (Or.inl hne)

theorem lays_keywordConditions {n m : Nat} {s : ListShape} (hs : s.isKeyword)
    (hh : s.head = pad n ++ keyword ++ pad (m + 1)) (align : Bool) (hne : items ≠ []) :
    Lays 0 (plainsOf keyword ++ us.flatten) (conditionList align s items) :=
  lays_conditionList (hk.shape hs hh) align h (Or.inl hne)

end

theorem lays_keywordItem {keyword : Text} (hk : Worded keyword) {n m : Nat} {s : Spot} (hs : s.isKeyword)
    (hh : s.head = pad n ++ keyword ++ pad (m + 1)) {i : Item} {us : List Token} (hi : i.Holds us) :
    Lays 0 (plainsOf keyword ++ us) (s.lines [] i) := by
  simpa using Spot.lays_lines (hk.spot hs hh) Suffix.none hi

theorem lays_joins {f : Join → List Text} (hf : ∀ {j us}, Join.Holds j us → Lays 0 us (f j))
    {joins : List Join} {us : List (List Token)} (h : List.Forall₂ Join.Holds joins us) :
    Lays 0 us.flatten (joins.flatMap f) := by
  induction h with
  | nil => exact Spells.nil.lays
  | cons hj _ ih => exact (hf hj).append ih

/-! ## Legacy -/

namespace Legacy

variable (o : Options) {keyword : Text} (hk : Worded keyword)

theorem lays_itemsBelow {items : List Item} {us : List (List Token)} (h : List.Forall₂ Item.Holds items us) :
    Lays 0 (commaed us) (itemsBelow o items) :=
  lays_commaList (reads_pad_shape rfl) o.commaPlace h (Or.inr rfl)

include hk

theorem lays_selection {modifiers : Option Text} {items : List Item} {ms : List Token} {us : List (List Token)}
    (hm : HoldsModifiers ms modifiers) (h : List.Forall₂ Item.Holds items us) :
    Lays 0 (plainsOf keyword ++ (ms ++ commaed us)) (selection o keyword modifiers items) := by
  unfold selection
  cases modifiers with
  | some m => simpa using (lays_modifiers hk hm).append (lays_itemsBelow o h)
  | none =>
    obtain rfl : ms = [] := hm
    simp only
    split
    · next hi =>
      simp only [Bool.and_eq_true, decide_eq_true_eq] at hi
      exact lays_keywordList hk h (n := 0) (m := 0) rfl rfl o.commaPlace hi.2
    · exact lays_below hk (lays_itemsBelow o h)

theorem lays_predicate (column rest : Nat) {items : List Item} {us : List (List Token)}
    (h : List.Forall₂ Item.Holds items us) :
    Lays 0 (plainsOf keyword ++ us.flatten) (predicate column keyword rest items) := by
  simp only [predicate]
  split
  · next hi =>
    subst hi
    cases h
    have := (hk.spells.fades (heads_word hk.takesMore column 0).trimEnd).lays
    simpa [pad] using this
  · next hi => exact lays_keywordConditions hk h (n := column) (m := 0) rfl rfl false hi

theorem lays_table (column : Nat) {i : Item} {us : List Token} (hi : i.Holds us) :
    Lays 0 (plainsOf keyword ++ us) (table column keyword i) :=
  lays_keywordItem hk (n := column) (m := 0) rfl rfl hi

omit hk

theorem lays_join {j : Join} {us : List Token} (h : j.Holds us) : Lays 0 us (join o j) := by
  obtain ⟨table, conditions, rfl, ht, hc⟩ := h.parts
  have htable := lays_table h.operator o.indentSize ht
  unfold join
  cases hon : j.on with
  | none =>
    rw [h.noOn hon] at hc
    cases hc
    simpa using htable
  | some on =>
    have := htable.append (lays_predicate (h.on on hon) (o.indentSize * 2) (o.indentSize * 2) hc)
    simpa using this

include hk in
theorem lays_lines {b : Body} {us : List Token} (h : b.Holds us) :
    Lays 0 (plainsOf keyword ++ us) (lines o keyword b) := by
  cases b with
  | selection modifiers items => obtain ⟨ms, is, rfl, hm, h⟩ := h; exact lays_selection o hk hm h
  | list items => obtain ⟨is, rfl, h⟩ := h; exact lays_below hk (lays_itemsBelow o h)
  | conditions items => obtain ⟨is, rfl, h⟩ := h; exact lays_predicate hk 0 o.indentSize h
  | sources s =>
    obtain ⟨table, joins, rfl, ht, hj⟩ := h
    simpa [lines] using (lays_table hk 0 ht).append (lays_joins (lays_join o) hj)

end Legacy

/-! ## River -/

namespace River

variable (o : Options) {keyword : Text} (hk : Worded keyword)

include hk

theorem lays_alone {n m : Nat} {s : ListShape} (hh : s.head = pad n ++ keyword ++ pad (m + 1)) :
    Lays 0 (plainsOf keyword) [trimEnd s.head] :=
  hh ▸ (hk.spells.fades (heads_word hk.takesMore n m).trimEnd).lays

theorem lays_orAlone {n m : Nat} {s : ListShape} (hs : s.isKeyword)
    (hh : s.head = pad n ++ keyword ++ pad (m + 1)) {items : List Item} {us : List (List Token)}
    (h : List.Forall₂ Item.Holds items us) :
    Lays 0 (plainsOf keyword ++ commaed us) (orAlone s (commaList o.commaPlace s items)) := by
  cases h with
  | nil => simpa [commaList, orAlone] using lays_alone hk hh
  | @cons i _ is _ hi his =>
    have hne : commaList o.commaPlace s (i :: is) ≠ [] :=
      List.append_ne_nil_of_left_ne_nil (Spot.lines_ne_nil _ _ _) _
    rw [orAlone, if_neg hne]
    exact lays_keywordList hk (.cons hi his) hs hh o.commaPlace (List.cons_ne_nil _ _)

theorem lays_selection {modifiers : Option Text} {items : List Item} {ms : List Token} {us : List (List Token)}
    (hm : HoldsModifiers ms modifiers) (h : List.Forall₂ Item.Holds items us) :
    Lays 0 (plainsOf keyword ++ (ms ++ commaed us)) (selection o keyword modifiers items) := by
  unfold selection
  have hw : keyword.length + 1 ≤ max (o.river + 1) (keyword.length + 1) := Nat.le_max_right _ _
  generalize max (o.river + 1) (keyword.length + 1) = column at hw
  cases modifiers with
  | some m =>
    have hitems := lays_commaList (s := ⟨pad column, false, column, column⟩) (reads_pad_shape rfl) o.commaPlace h
      (Or.inr rfl)
    simpa using (lays_modifiers hk hm).append hitems
  | none =>
    obtain rfl : ms = [] := hm
    obtain ⟨m, rfl⟩ : ∃ m, column = keyword.length + (m + 1) := ⟨column - (keyword.length + 1), by omega⟩
    exact lays_orAlone o hk (n := 0) (m := m) rfl (by simp [pad]) h

theorem lays_list {items : List Item} {us : List (List Token)} (h : List.Forall₂ Item.Holds items us) :
    Lays 0 (plainsOf keyword ++ commaed us) (list o keyword items) :=
  lays_orAlone o hk (n := o.river) (m := 0) rfl rfl h

theorem lays_conditions (start : Nat) {items : List Item} {us : List (List Token)}
    (h : List.Forall₂ Item.Holds items us) :
    Lays 0 (plainsOf keyword ++ us.flatten) (conditions start keyword items) := by
  unfold conditions
  cases h with
  | nil => simpa [conditionList, orAlone] using lays_alone hk (s := shape start keyword) (n := start) (m := 0) rfl
  | @cons i _ is _ hi his =>
    have hne : conditionList true (shape start keyword) (i :: is) ≠ [] :=
      List.append_ne_nil_of_left_ne_nil (Spot.lines_ne_nil _ _ _) _
    simp only [orAlone]
    rw [if_neg hne]
    exact lays_keywordConditions hk (.cons hi his) (n := start) (m := 0) rfl rfl true (List.cons_ne_nil _ _)

theorem lays_table {i : Item} {us : List Token} (hi : i.Holds us) :
    Lays 0 (plainsOf keyword ++ us) (table o keyword i) :=
  lays_keywordItem hk (n := o.river) (m := 0) rfl rfl hi

omit hk

theorem lays_join {j : Join} {us : List Token} (h : j.Holds us) : Lays 0 us (join o j) := by
  obtain ⟨table, conditions, rfl, ht, hc⟩ := h.parts
  have htable := lays_table o h.operator ht
  unfold join
  cases hon : j.on with
  | none =>
    rw [h.noOn hon] at hc
    cases hc
    simpa using htable
  | some on =>
    have := htable.append (lays_conditions (h.on on hon) (o.river + o.indentSize) hc)
    simpa using this

include hk in
theorem lays_lines {b : Body} {us : List Token} (h : b.Holds us) :
    Lays 0 (plainsOf keyword ++ us) (lines o keyword b) := by
  cases b with
  | selection modifiers items => obtain ⟨ms, is, rfl, hm, h⟩ := h; exact lays_selection o hk hm h
  | list items => obtain ⟨is, rfl, h⟩ := h; exact lays_list o hk h
  | conditions items => obtain ⟨is, rfl, h⟩ := h; exact lays_conditions hk o.river h
  | sources s =>
    obtain ⟨table, joins, rfl, ht, hj⟩ := h
    simpa [lines] using (lays_table o hk ht).append (lays_joins (lays_join o) hj)

end River

/-! ## Indent -/

namespace Indent

variable (o : Options) {keyword : Text} (hk : Worded keyword)

theorem lays_itemsBelow {items : List Item} {us : List (List Token)} (h : List.Forall₂ Item.Holds items us) :
    Lays 0 (commaed us) (itemsBelow o items) :=
  lays_commaList (reads_pad_shape rfl) o.commaPlace h (Or.inr rfl)

theorem lays_conditionsBelow (column : Nat) {items : List Item} {us : List (List Token)}
    (h : List.Forall₂ Item.Holds items us) : Lays 0 us.flatten (conditionsBelow column items) :=
  lays_conditionList (reads_pad_shape rfl) false h (Or.inr rfl)

include hk in
theorem lays_selection {modifiers : Option Text} {items : List Item} {ms : List Token} {us : List (List Token)}
    (hm : HoldsModifiers ms modifiers) (h : List.Forall₂ Item.Holds items us) :
    Lays 0 (plainsOf keyword ++ (ms ++ commaed us)) (selection o keyword modifiers items) := by
  unfold selection
  cases modifiers with
  | some m => simpa using (lays_modifiers hk hm).append (lays_itemsBelow o h)
  | none =>
    obtain rfl : ms = [] := hm
    simp only
    split
    · next hi =>
      simp only [Bool.and_eq_true, decide_eq_true_eq] at hi
      exact lays_keywordList hk h (n := 0) (m := 0) rfl rfl o.commaPlace hi.2
    · exact lays_below hk (lays_itemsBelow o h)

theorem lays_join {j : Join} {us : List Token} (h : j.Holds us) : Lays 0 us (join o j) := by
  obtain ⟨table, conditions, rfl, ht, hc⟩ := h.parts
  have htable := lays_keywordItem h.operator (n := o.indentSize) (m := 0)
    (s := ⟨pad o.indentSize ++ j.operator ++ [' '], true, o.indentSize + j.operator.length + 1,
      o.indentSize + j.operator.length + 1⟩) rfl rfl ht
  unfold join
  cases hon : j.on with
  | none =>
    rw [h.noOn hon] at hc
    cases hc
    simpa using htable
  | some on =>
    have hw := h.on on hon
    have hline := (hw.spells.fades ((Fades.pad_append (o.indentSize * 2) on).trans (Fades.trimEnd _))).lays
    have := htable.append (hline.append (lays_conditionsBelow (o.indentSize * 2 + o.indentSize) hc))
    simpa using this

include hk in
theorem lays_lines {b : Body} {us : List Token} (h : b.Holds us) :
    Lays 0 (plainsOf keyword ++ us) (lines o keyword b) := by
  cases b with
  | selection modifiers items => obtain ⟨ms, is, rfl, hm, h⟩ := h; exact lays_selection o hk hm h
  | list items => obtain ⟨is, rfl, h⟩ := h; exact lays_below hk (lays_itemsBelow o h)
  | conditions items => obtain ⟨is, rfl, h⟩ := h; exact lays_below hk (lays_conditionsBelow o.indentSize h)
  | sources s =>
    obtain ⟨table, joins, rfl, ht, hj⟩ := h
    have htable := Spot.lays_lines (s := { head := pad o.indentSize, column := o.indentSize }) (reads_pad rfl)
      Suffix.none ht
    have := htable.append (lays_joins (lays_join o) hj)
    exact lays_below hk (by simpa using this)

end Indent

end SqlLayout
