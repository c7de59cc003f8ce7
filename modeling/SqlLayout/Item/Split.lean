import SqlLayout.Item

/-!
# Lists of items

A list is cut at the commas outside of all parentheses, which are dropped. A
predicate is cut in front of such an AND or OR, which stays; the AND that
belongs to a BETWEEN is no place to cut.
-/

namespace SqlLayout

/-! ## Lists with commas -/

/-- The comments behind a comma when nothing but space and comments follows
on its line: they belong to the item in front of the comma. -/
def lineComments (ts : List Token) : List Token :=
  let onLine := fun t : Token => t.isTrivia && !t.isNewline
  match ts.dropWhile onLine with
  | [] => dropEndWhile Token.isSpace ts
  | t :: _ => if t.isNewline then dropEndWhile Token.isSpace (ts.takeWhile onLine) else []

def commaGroups (n : Nesting) : List Token → List (List Token)
  | [] => [[]]
  | t :: ts =>
    if t = .comma ∧ n.depth = 0 then
      lineComments ts :: commaGroups n (ts.drop (lineComments ts).length)
    else (commaGroups (n.step t) ts).modifyHead (t :: ·)
termination_by ts => ts.length
decreasing_by all_goals simp only [List.length_drop, List.length_cons]; omega

def listItems (ts : List Token) : List Item := (commaGroups {} ts).filterMap Item.ofTokens?

/-! ## Predicates -/

/-- How many BETWEENs wait for their AND behind a keyword, and whether the
keyword is a place to cut. -/
def conditionStep (between : Nat) : Option Keyword → Nat × Bool
  | some .BETWEEN => (between + 1, false)
  | some .AND => if 0 < between then (between - 1, false) else (0, true)
  | some .OR => (between, true)
  | _ => (between, false)

/-- The tokens from one AND or OR to the next, at least one group. An AND or
OR without code in front of it starts no group, and `started` says that there
is some. -/
def conditionGroups (n : Nesting) (between : Nat) (started : Bool) : List Token → List (List Token)
  | [] => [[]]
  | t :: ts =>
    let (between, cuts) := conditionStep between (n.topKeyword t)
    let groups := (conditionGroups (n.step t) between (started || t.isCode) ts).modifyHead (t :: ·)
    if cuts && started then [] :: groups else groups

def conditionItems (ts : List Token) : List Item :=
  (conditionGroups {} 0 false ts).filterMap Item.ofTokens?

end SqlLayout
