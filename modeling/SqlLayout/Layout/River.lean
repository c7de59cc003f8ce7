import SqlLayout.Layout

/-!
# The river style

Clause keywords start at a fixed column and each body right behind its
keyword. Commas, ANDs and ORs are pulled to the left, so that all items of a
clause start in one column.

```text
SELECT a
     , b
      FROM t
      INNER JOIN u
          ON u.id = t.id
      WHERE a = 1
        AND b = 2
```
-/

namespace SqlLayout.River

/-- A keyword at a column, with every item of its body right behind it. -/
def shape (start : Nat) (keyword : Text) : ListShape :=
  let column := start + keyword.length + 1
  { head := pad start ++ keyword ++ [' '], isKeyword := true, first := column, rest := column }

/-- The keyword alone when there is nothing to put behind it. -/
def orAlone (s : ListShape) (lines : List Text) : List Text :=
  if lines = [] then [trimEnd s.head] else lines

def selection (o : Options) (keyword : Text) (modifiers : Option Text) (items : List Item) :
    List Text :=
  let column := max (o.river + 1) (keyword.length + 1)
  match modifiers with
  | some m =>
    trimEnd (keyword ++ ' ' :: m) ::
      commaList o.commaPlace
        { head := pad column, isKeyword := false, first := column, rest := column } items
  | none =>
    let s : ListShape :=
      { head := keyword ++ pad (column - keyword.length), isKeyword := true,
        first := column, rest := column }
    orAlone s (commaList o.commaPlace s items)

def list (o : Options) (keyword : Text) (items : List Item) : List Text :=
  let s := shape o.river keyword
  orAlone s (commaList o.commaPlace s items)

def conditions (start : Nat) (keyword : Text) (items : List Item) : List Text :=
  let s := shape start keyword
  orAlone s (conditionList true s items)

def table (o : Options) (keyword : Text) (i : Item) : List Text :=
  let s := shape o.river keyword
  (s.spot s.first).lines [] i

/-- The ON of a join is one indent behind the river. -/
def join (o : Options) (j : Join) : List Text :=
  table o j.operator j.table ++
    match j.on with
    | none => []
    | some on => conditions (o.river + o.indentSize) on j.conditions

def lines (o : Options) (keyword : Text) : Body → List Text
  | .selection modifiers items => selection o keyword modifiers items
  | .list items => list o keyword items
  | .conditions items => conditions o.river keyword items
  | .sources s => table o keyword s.table ++ s.joins.flatMap (join o)

end SqlLayout.River
