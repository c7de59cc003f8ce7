import SqlLayout.Layout

/-!
# The legacy style

Keywords are flush left and list items one indent in. With leading commas the
first item can be moved to the column of the others.

```text
SELECT
      a
    , b
FROM t
    INNER JOIN u
        ON u.id = t.id
WHERE a = 1
    AND b = 2
```
-/

namespace SqlLayout.Legacy

def restColumn (o : Options) : Nat :=
  match o.commaPlace with
  | .before => o.indentSize + 2
  | .after => o.indentSize

def itemsBelow (o : Options) (items : List Item) : List Text :=
  let first := if o.commaPlace = .before && o.alignCommas then o.indentSize + 2 else o.indentSize
  commaList o.commaPlace
    { head := pad first, isKeyword := false, first, rest := restColumn o } items

def selection (o : Options) (keyword : Text) (modifiers : Option Text) (items : List Item) :
    List Text :=
  match modifiers with
  | some m => trimEnd (keyword ++ ' ' :: m) :: itemsBelow o items
  | none =>
    if !o.breakAfterSelect && items ≠ [] then
      commaList o.commaPlace
        { head := keyword ++ [' '], isKeyword := true, first := keyword.length + 1,
          rest := restColumn o } items
    else trimEnd keyword :: itemsBelow o items

def predicate (column : Nat) (keyword : Text) (rest : Nat) (items : List Item) : List Text :=
  let head := pad column ++ keyword ++ [' ']
  if items = [] then [trimEnd head]
  else
    conditionList false
      { head, isKeyword := true, first := column + keyword.length + 1, rest } items

def table (column : Nat) (keyword : Text) (i : Item) : List Text :=
  Spot.lines
    { head := pad column ++ keyword ++ [' '], isKeyword := true,
      column := column + keyword.length + 1 } [] i

def join (o : Options) (j : Join) : List Text :=
  table o.indentSize j.operator j.table ++
    match j.on with
    | none => []
    | some on => predicate (o.indentSize * 2) on (o.indentSize * 2) j.conditions

def lines (o : Options) (keyword : Text) : Body → List Text
  | .selection modifiers items => selection o keyword modifiers items
  | .list items => trimEnd keyword :: itemsBelow o items
  | .conditions items => predicate 0 keyword o.indentSize items
  | .sources s => table 0 keyword s.table ++ s.joins.flatMap (join o)

end SqlLayout.Legacy
