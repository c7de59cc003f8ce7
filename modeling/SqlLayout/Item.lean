import SqlLayout.Token.Lexer
import SqlLayout.Token.Nesting

/-!
# Items

An item is a column, a predicate or an ordering term together with the
comments that travel with it. `Item.ofTokens?` tells by the line breaks which
comments those are: a comment on a line of its own in front of the code, one
that shares the line on which the code ends, or one on a later line. A
comment inside the lines of the code is part of the code.
-/

namespace SqlLayout

structure Item where
  leading : List Text := []
  /-- After `Item.prepare` its lines are the lines that will be written. -/
  code : Text := []
  /-- Comments on the line on which the code ends. -/
  trailing : Option Text := none
  following : List Text := []
deriving DecidableEq

/-! ## Items of tokens -/

def commentLines (ts : List Token) : List Text :=
  ((ts.splitOnP Token.isNewline).map fun l => trim (spell l)).filter (· ≠ [])

def nonempty? (s : Text) : Option Text := if s = [] then none else some s

namespace Item

/-- The item that a token list is, if it holds more than space. Comments
without code follow an empty code. -/
def ofTokens? (ts : List Token) : Option Item :=
  let front := ts.takeWhile Token.isTrivia
  let rest := ts.dropWhile Token.isTrivia
  if rest = [] then
    let comments := commentLines ts
    if comments = [] then none else some { following := comments }
  else
    -- comments on the line of the first code token belong to the code
    let sameLine := takeEndWhile (fun t => !t.isNewline) front
    let back := takeEndWhile Token.isTrivia rest
    some {
      leading := commentLines (dropEndWhile (fun t => !t.isNewline) front)
      code := spell (sameLine.dropWhile Token.isSpace ++ dropEndWhile Token.isTrivia rest)
      trailing := nonempty? (trim (spell (back.takeWhile fun t => !t.isNewline)))
      following := commentLines (back.dropWhile fun t => !t.isNewline) }

def ofTokens (ts : List Token) : Item := (ofTokens? ts).getD {}

def read (s : Text) : Item := ofTokens (tokenize s)

def splitOperator (i : Item) : Option (Text × Text) :=
  match tokenize i.code with
  | t :: ts =>
    if t.isKeyword .AND || t.isKeyword .OR then some (t.text, trimStart (spell ts)) else none
  | [] => none

end Item

/-! ## Space inside the code -/

/-- Space becomes one blank wherever it stands. -/
def collapse (ts : List Token) : Text :=
  trim (ts.flatMap fun t => if t.isSpace then [' '] else t.text)

/-- The lines of a text without their blank ends, those behind the first
indented. -/
def hang (indent : Nat) (s : Text) : List Text :=
  match trimmedLines s with
  | [] => []
  | l :: ls => l :: ls.map (pad indent ++ ·)

/-- Puts code on one line. Code with a line comment keeps its lines. -/
def normalize (indent : Nat) (code : Text) : Text :=
  if (tokenize code).any Token.isLineComment then joinLines (hang indent code)
  else collapse (tokenize code)

def Item.prepare (indent : Nat) (i : Item) : Item := { i with code := normalize indent i.code }

end SqlLayout
