import SqlLayout.Item

/-!
# Aliases in one column

The last AS outside of all parentheses of each item on one line is moved to
one column, a blank behind the widest text in front of it.
-/

namespace SqlLayout

/-- Splits in front of the last AS outside of all parentheses. -/
def splitLastAs (n : Nesting) : List Token → Option (List Token × List Token)
  | [] => none
  | t :: ts =>
    match splitLastAs (n.step t) ts with
    | some (front, back) => some (t :: front, back)
    | none => if n.topKeyword t = some .AS then some ([], t :: ts) else none

/-- Code in front of the alias, without blank end, and the alias with its AS.
An AS that starts the code is none. -/
def splitAlias (code : Text) : Option (Text × Text) :=
  if code.contains '\n' then none
  else
    match tokenize code with
    | [] => none
    | t :: ts =>
      (splitLastAs (Nesting.step {} t) ts).map fun p => (trimEnd (t.text ++ spell p.1), spell p.2)

def aliasWidth (items : List Item) : Nat :=
  (items.filterMap fun i => (splitAlias i.code).map (·.1.length)).foldl max 0

def Item.alignAlias (width : Nat) (i : Item) : Item :=
  match splitAlias i.code with
  | some (front, back) => { i with code := front ++ pad (width - front.length + 1) ++ back }
  | none => i

def alignAliases (items : List Item) : List Item :=
  let width := aliasWidth items
  items.map (·.alignAlias width)

end SqlLayout
