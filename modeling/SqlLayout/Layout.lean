import SqlLayout.Options
import SqlLayout.Source

/-!
# Lines of a clause

What the three styles share: an item becomes a few lines, and lists and
predicates become the lines of their items. A style says where the first
item and the later ones stand. No line has a blank end.
-/

namespace SqlLayout

inductive Body where
  /-- The SELECT list behind its modifiers. -/
  | selection (modifiers : Option Text) (items : List Item)
  /-- GROUP BY and ORDER BY. -/
  | list (items : List Item)
  /-- WHERE and HAVING. -/
  | conditions (items : List Item)
  | sources (s : Sources)
deriving DecidableEq

def commentsAt (column : Nat) (comments : List Text) : List Text :=
  comments.map fun c => trimEnd (pad column ++ c)

/-! ## One item -/

structure Spot where
  head : Text
  /-- The head holds a keyword, which leading comments must not push down. -/
  isKeyword : Bool := false
  column : Nat
  /-- Where the comments behind the item start. -/
  following : Nat := column

def closeLast (suffix : Text) (trailing : Option Text) : List Text → List Text
  | [] => []
  | [l] => [l ++ suffix ++ (match trailing with | some c => ' ' :: c | none => [])]
  | l :: ls => l :: closeLast suffix trailing ls

def codeLines (head : Text) (column : Nat) (code : Text) : List Text :=
  match splitLines code with
  | [] => []
  | l :: ls => (head ++ l) :: ls.map (pad column ++ ·)

def Spot.lines (s : Spot) (suffix : Text) (i : Item) : List Text :=
  let displaced := s.isKeyword && i.leading ≠ []
  let head := if displaced then pad s.column else s.head
  (if displaced then [trimEnd s.head] else []) ++
    commentsAt s.column i.leading ++
    (closeLast suffix i.trailing (codeLines head s.column i.code)).map trimEnd ++
    commentsAt s.following i.following

/-! ## Lists -/

/-- Where the items of a list or of a predicate stand. -/
structure ListShape where
  head : Text
  isKeyword : Bool
  /-- Where the code of the first item starts. -/
  first : Nat
  /-- Where the code of the later items starts. -/
  rest : Nat

def laterItems (comma : CommaPlace) (rest : Nat) : List Item → List Text
  | [] => []
  | i :: is =>
    let head := match comma with
      | .before => pad (rest - 2) ++ [',', ' ']
      | .after => pad rest
    let suffix := if comma = .after && is ≠ [] then [','] else []
    Spot.lines { head, column := rest } suffix i ++ laterItems comma rest is

def ListShape.spot (s : ListShape) (following : Nat) : Spot :=
  ⟨s.head, s.isKeyword, s.first, following⟩

/-- A comment line between two items is read as following the first one or as
leading the second, by the place of the comma; both stand in one column, so
the lines read back as they were written. -/
def commaList (comma : CommaPlace) (s : ListShape) : List Item → List Text
  | [] => []
  | i :: is =>
    let suffix := if comma = .after && is ≠ [] then [','] else []
    let following := if is = [] then s.first else s.rest
    (s.spot following).lines suffix i ++ laterItems comma s.rest is

/-! ## Predicates -/

/-- A condition behind the first. With `align` the AND or OR ends right in
front of the column, else it starts there. -/
def laterCondition (align : Bool) (rest : Nat) (i : Item) : List Text :=
  match (if align then i.splitOperator else none) with
  | some (operator, code) =>
    Spot.lines { head := pad (rest - (operator.length + 1)) ++ operator ++ [' '], column := rest } []
      { i with code }
  | none => Spot.lines { head := pad rest, column := rest } [] i

def conditionList (align : Bool) (s : ListShape) : List Item → List Text
  | [] => []
  | i :: is => (s.spot s.first).lines [] i ++ is.flatMap (laterCondition align s.rest)

end SqlLayout
