import SqlLayout.Query
import SqlLayout.Proofs.Places
import SqlLayout.Proofs.Checked.Items

/-!
# Layouts by width

A predicate cuts the AND or OR off each of its later conditions, and the river
style fills up the width that a SELECT leaves in front of its list. Nothing
else in a layout can leave its bounds.
-/

namespace SqlLayout.Checked

/-! ## Predicates -/

def laterConditionLines (align : Bool) (rest : Nat) (i : Item) : Run (List Text) := do
  match (← splitOperator i), align with
  | some (operator, code), true =>
    return Spot.lines { head := pad (rest - (operator.length + 1)) ++ operator ++ [' '], column := rest } []
      { i with code }
  | _, _ => return Spot.lines { head := pad rest, column := rest } [] i

def conditionLines (align : Bool) (s : ListShape) : List Item → Run (List Text)
  | [] => .ok []
  | i :: is => do return (s.spot s.first).lines [] i ++ (← is.mapM (laterConditionLines align s.rest)).flatten

theorem laterConditionLines_eq (align : Bool) (rest : Nat) (i : Item) :
    laterConditionLines align rest i = .ok (laterCondition align rest i) := by
  rw [laterConditionLines, splitOperator_eq, ok_bind, laterCondition]
  cases align <;> cases i.splitOperator <;> rfl

@[simp] theorem conditionLines_eq (align : Bool) (s : ListShape) (items : List Item) :
    conditionLines align s items = .ok (conditionList align s items) := by
  cases items with
  | nil => rfl
  | cons i is =>
    rw [conditionLines, mapM_eq_ok fun i _ => laterConditionLines_eq align s.rest i, ok_bind, conditionList,
      List.flatMap_def]
    rfl

/-! ## The styles -/

def riverSelection (o : Options) (keyword : Text) (modifiers : Option Text) (items : List Item) : Run (List Text) :=
  let column := max (o.river + 1) (byteSize keyword + 1)
  match modifiers with
  | some m => .ok <| trimEnd (keyword ++ ' ' :: m) ::
      commaList o.commaPlace { head := pad column, isKeyword := false, first := column, rest := column } items
  | none =>
    if items = [] then .ok [trimEnd keyword]
    else do
      let gap ← minus column (byteSize keyword)
      return commaList o.commaPlace
        { head := keyword ++ pad gap, isKeyword := true, first := column, rest := column } items

def riverConditions (start : Nat) (keyword : Text) (items : List Item) : Run (List Text) := do
  let s := River.shape start keyword
  return River.orAlone s (← conditionLines true s items)

def riverJoin (o : Options) (j : Join) : Run (List Text) := do
  let below ← match j.on with
    | none => .ok []
    | some on => riverConditions (o.river + o.indentSize) on j.conditions
  return River.table o j.operator j.table ++ below

def riverLines (o : Options) (keyword : Text) : Body → Run (List Text)
  | .selection modifiers items => riverSelection o keyword modifiers items
  | .list items => .ok (River.list o keyword items)
  | .conditions items => riverConditions o.river keyword items
  | .sources s => do return River.table o keyword s.table ++ (← s.joins.mapM (riverJoin o)).flatten

def legacyPredicate (column : Nat) (keyword : Text) (rest : Nat) (items : List Item) : Run (List Text) :=
  let head := pad column ++ keyword ++ [' ']
  if items = [] then .ok [trimEnd head]
  else conditionLines false { head, isKeyword := true, first := column + keyword.length + 1, rest } items

def legacyJoin (o : Options) (j : Join) : Run (List Text) := do
  let below ← match j.on with
    | none => .ok []
    | some on => legacyPredicate (o.indentSize * 2) on (o.indentSize * 2) j.conditions
  return Legacy.table o.indentSize j.operator j.table ++ below

def legacyLines (o : Options) (keyword : Text) : Body → Run (List Text)
  | .conditions items => legacyPredicate 0 keyword o.indentSize items
  | .sources s => do return Legacy.table 0 keyword s.table ++ (← s.joins.mapM (legacyJoin o)).flatten
  | b => .ok (Legacy.lines o keyword b)

def indentConditions (column : Nat) (items : List Item) : Run (List Text) :=
  conditionLines false { head := pad column, isKeyword := false, first := column, rest := column } items

def indentJoin (o : Options) (j : Join) : Run (List Text) := do
  let head := pad o.indentSize ++ j.operator ++ [' ']
  let table := Spot.lines { head, isKeyword := true, column := o.indentSize + j.operator.length + 1 } [] j.table
  match j.on with
  | none => return table ++ []
  | some on => do
    let below ← indentConditions (o.indentSize * 2 + o.indentSize) j.conditions
    return table ++ trimEnd (pad (o.indentSize * 2) ++ on) :: below

def indentLines (o : Options) (keyword : Text) : Body → Run (List Text)
  | .conditions items => do return trimEnd keyword :: (← indentConditions o.indentSize items)
  | .sources s => do
    let joins ← s.joins.mapM (indentJoin o)
    return trimEnd keyword :: (Spot.lines { head := pad o.indentSize, column := o.indentSize } [] s.table ++ joins.flatten)
  | b => .ok (Indent.lines o keyword b)

def styleLines (o : Options) (keyword : Text) (b : Body) : Run (List Text) :=
  match o.style with
  | .legacy => legacyLines o keyword b
  | .river => riverLines o keyword b
  | .indent => indentLines o keyword b

/-! ## The lines are those of the styles -/

theorem commaList_eq_nil {comma : CommaPlace} {s : ListShape} {items : List Item} (h : commaList comma s items = []) :
    items = [] := by
  cases items with
  | nil => rfl
  | cons i is => exact absurd (List.append_eq_nil_iff.mp h).1 (Spot.lines_ne_nil _ _ _)

theorem riverSelection_eq (o : Options) {keyword : Text} (h : byteSize keyword = keyword.length)
    (modifiers : Option Text) (items : List Item) :
    riverSelection o keyword modifiers items = .ok (River.selection o keyword modifiers items) := by
  cases modifiers with
  | some m => simp only [riverSelection, River.selection, h]
  | none =>
    rw [riverSelection, River.selection, h]
    by_cases hi : items = []
    · subst hi
      simp only [if_true, commaList, River.orAlone]
      rw [trimEnd_append_blank (by simp [pad, isBlank])]
    · simp only [hi, if_false]
      rw [minus_of_le (by omega), ok_bind, River.orAlone, if_neg fun h => hi (commaList_eq_nil h)]
      rfl

theorem riverJoin_eq (o : Options) (j : Join) : riverJoin o j = .ok (River.join o j) := by
  rw [riverJoin, River.join]
  cases j.on with
  | none => rfl
  | some on => simp [riverConditions, River.conditions]

theorem riverLines_eq (o : Options) {keyword : Text} {b : Body}
    (h : ∀ modifiers items, b = .selection modifiers items → byteSize keyword = keyword.length) :
    riverLines o keyword b = .ok (River.lines o keyword b) := by
  cases b with
  | selection modifiers items => exact riverSelection_eq o (h _ _ rfl) modifiers items
  | list items => rfl
  | conditions items => simp [riverLines, River.lines, riverConditions, River.conditions]
  | sources s =>
    rw [riverLines, mapM_eq_ok fun j _ => riverJoin_eq o j, ok_bind, River.lines, List.flatMap_def]
    rfl

theorem legacyPredicate_eq (column : Nat) (keyword : Text) (rest : Nat) (items : List Item) :
    legacyPredicate column keyword rest items = .ok (Legacy.predicate column keyword rest items) := by
  rw [legacyPredicate, Legacy.predicate]
  split <;> simp

theorem legacyJoin_eq (o : Options) (j : Join) : legacyJoin o j = .ok (Legacy.join o j) := by
  rw [legacyJoin, Legacy.join]
  cases j.on with
  | none => rfl
  | some on => simp [legacyPredicate_eq]

theorem legacyLines_eq (o : Options) (keyword : Text) (b : Body) :
    legacyLines o keyword b = .ok (Legacy.lines o keyword b) := by
  cases b with
  | conditions items => exact legacyPredicate_eq ..
  | sources s =>
    rw [legacyLines, mapM_eq_ok fun j _ => legacyJoin_eq o j, ok_bind, Legacy.lines, List.flatMap_def]
    rfl
  | _ => rfl

theorem indentJoin_eq (o : Options) (j : Join) : indentJoin o j = .ok (Indent.join o j) := by
  rw [indentJoin, Indent.join]
  cases j.on with
  | none => rfl
  | some on => simp [indentConditions, Indent.conditionsBelow]

theorem indentLines_eq (o : Options) (keyword : Text) (b : Body) :
    indentLines o keyword b = .ok (Indent.lines o keyword b) := by
  cases b with
  | conditions items => simp [indentLines, Indent.lines, indentConditions, Indent.conditionsBelow]
  | sources s =>
    rw [indentLines, mapM_eq_ok fun j _ => indentJoin_eq o j, ok_bind, Indent.lines, List.flatMap_def]
    rfl
  | _ => rfl

/-- Only the width of a SELECT is told by its bytes. -/
theorem styleLines_eq (o : Options) {keyword : Text} {b : Body}
    (h : ∀ modifiers items, b = .selection modifiers items → byteSize keyword = keyword.length) :
    styleLines o keyword b = .ok (clauseLines o keyword b) := by
  rw [styleLines, clauseLines]
  cases o.style with
  | legacy => exact legacyLines_eq o keyword b
  | river => exact riverLines_eq o h
  | indent => exact indentLines_eq o keyword b

end SqlLayout.Checked
