import SqlLayout.Item

/-!
# Expressions over several lines

A CASE outside of all parentheses gets a line for each branch, and a window
gets one for each part of what stands behind its OVER. Both take code on one
line; code of any other shape stays on its line.

```text
CASE                        ROW_NUMBER()
    WHEN a = 1                  OVER (
        THEN 'x'                    PARTITION BY a
    ELSE 'y'                        ORDER BY b
END AS label                    ) AS rn
```
-/

namespace SqlLayout

/-! ## CASE -/

/-- What a keyword does inside `d` open CASEs: how many are open behind it,
and the level of the line it starts. Only the outermost CASE is broken. -/
def caseStep (d : Nat) : Option Keyword → Nat × Option Nat
  | some .CASE => (d + 1, none)
  | some .WHEN | some .ELSE => (d, if d = 1 then some 1 else none)
  | some .THEN => (d, if d = 1 then some 2 else none)
  | some .END => (d - 1, if d = 1 then some 0 else none)
  | _ => (d, none)

structure CaseShape where
  /-- CASEs that are open at the end. -/
  pending : Nat
  first : List Token
  /-- Each later line with its level. -/
  later : List (Nat × List Token)

def caseShape (n : Nesting) (d : Nat) : List Token → CaseShape
  | [] => ⟨d, [], []⟩
  | t :: ts =>
    let (d', level) := caseStep d (n.topKeyword t)
    let shape := caseShape (n.step t) d' ts
    match level with
    | none => { shape with first := t :: shape.first }
    | some l => ⟨shape.pending, [], (l, t :: shape.first) :: shape.later⟩

/-- A line of level 0 is the END that closes the outermost CASE. -/
def reflowCase (indent : Nat) (code : Text) : Option Text :=
  let shape := caseShape {} 0 (tokenize code)
  if shape.pending = 0 && shape.later.any (·.1 = 0) then
    some (joinLines (trimEnd (spell shape.first) ::
      shape.later.map fun l => trimEnd (pad (l.1 * indent) ++ spell l.2)))
  else none

/-! ## Windows -/

/-- A query inside the code, which is not to be broken. -/
def startsQuery (t : Token) : Bool :=
  match t.keyword with
  | some .SELECT | some .FROM | some .WHERE | some .GROUP | some .HAVING | some .UNION
  | some .INSERT | some .UPDATE | some .DELETE => true
  | _ => false

structure Window where
  front : List Token
  keyword : Token
  inner : List Token
  back : List Token

def window? (n : Nesting) : List Token → Option Window
  | [] => none
  | t :: ts =>
    match (if n.topKeyword t = some .OVER then ts.dropWhile Token.isSpace else []) with
    | .openParen :: us => (splitClosing 0 us).map fun p => ⟨[], t, p.1, p.2⟩
    | _ => (window? (n.step t) ts).map fun w => { w with front := t :: w.front }

def startsPart (k : Option Keyword) : Bool :=
  k = some .PARTITION || k = some .ORDER || k = some .ROWS || k = some .RANGE

/-- Cuts in front of each part, at least one group. `started` says that the
current part is not blank. -/
def windowParts (n : Nesting) (started : Bool) : List Token → List (List Token)
  | [] => [[]]
  | t :: ts =>
    let parts := (windowParts (n.step t) (started || !isBlankText t.text) ts).modifyHead (t :: ·)
    if startsPart (n.topKeyword t) && started then [] :: parts else parts

def Window.lines (indent : Nat) (w : Window) : List Text :=
  let parts := (windowParts {} false w.inner).map fun p => trim (spell p)
  let back := trim (spell w.back)
  [trim (spell w.front), pad indent ++ w.keyword.text ++ " (".toList] ++
    (parts.filter (· ≠ [])).map (pad (indent + indent) ++ ·) ++
    [pad indent ++ (if back = [] then [')'] else ')' :: ' ' :: back)]

def reflowWindow (indent : Nat) (code : Text) : Option Text :=
  let ts := tokenize code
  if !(Nesting.after ts).isBalanced || ts.any startsQuery then none
  else
    match window? {} ts with
    | none => none
    | some w =>
      if isBlankText (spell w.front) || w.inner.all Token.isSpace then none
      else some (joinLines (w.lines indent))

def reflow (indent : Nat) (code : Text) : Option Text :=
  if code.contains '\n' then none
  else (reflowCase indent code).or (reflowWindow indent code)

def Item.reflow (indent : Nat) (i : Item) : Item :=
  { i with code := (SqlLayout.reflow indent i.code).getD i.code }

end SqlLayout
