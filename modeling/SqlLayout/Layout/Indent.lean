import SqlLayout.Layout

/-!
# The indent style

Every clause keyword has a line of its own and its body stands one indent
deeper. Nothing is aligned.

```text
SELECT
    a
    , b
FROM
    t
    INNER JOIN u
        ON
            u.id = t.id
```
-/

namespace SqlLayout.Indent

def restColumn (o : Options) : Nat :=
  match o.commaPlace with
  | .before => o.indentSize + 2
  | .after => o.indentSize

def itemsBelow (o : Options) (items : List Item) : List Text :=
  commaList o.commaPlace
    { head := pad o.indentSize, isKeyword := false, first := o.indentSize, rest := restColumn o }
    items

def conditionsBelow (column : Nat) (items : List Item) : List Text :=
  conditionList false
    { head := pad column, isKeyword := false, first := column, rest := column } items

def selection (o : Options) (keyword : Text) (modifiers : Option Text) (items : List Item) :
    List Text :=
  match modifiers with
  | some m => trimEnd (keyword ++ ' ' :: m) :: itemsBelow o items
  | none =>
    if !o.breakAfterSelect && items ≠ [] then
      commaList o.commaPlace
        { head := keyword ++ [' '], isKeyword := true, first := keyword.length + 1,
          rest := restColumn o } items
    else trimEnd keyword :: itemsBelow o items

def join (o : Options) (j : Join) : List Text :=
  Spot.lines
    { head := pad o.indentSize ++ j.operator ++ [' '], isKeyword := true,
      column := o.indentSize + j.operator.length + 1 } [] j.table ++
    match j.on with
    | none => []
    | some on =>
      trimEnd (pad (o.indentSize * 2) ++ on) ::
        conditionsBelow (o.indentSize * 2 + o.indentSize) j.conditions

def lines (o : Options) (keyword : Text) : Body → List Text
  | .selection modifiers items => selection o keyword modifiers items
  | .list items => trimEnd keyword :: itemsBelow o items
  | .conditions items => trimEnd keyword :: conditionsBelow o.indentSize items
  | .sources s =>
    trimEnd keyword ::
      (Spot.lines { head := pad o.indentSize, column := o.indentSize } [] s.table ++
        s.joins.flatMap (join o))

end SqlLayout.Indent
