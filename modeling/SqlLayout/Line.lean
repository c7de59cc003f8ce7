import SqlLayout.Token.Lexer

/-!
# Lines of a token list

Each line of a script with the tokens that start on it. The newline that ends
a line belongs to it. A line is `continued` when it starts inside a string, a
quoted identifier or a comment; such lines are read together with the line on
which that token starts, as a `Stretch`.
-/

namespace SqlLayout

structure Line where
  text : Text := []
  /-- The tokens that start on the line. -/
  tokens : List Token := []
  continued : Bool := false
deriving DecidableEq

/-- Puts the parts of a token on the lines in front of `l`, into which its
last part runs. -/
def Line.spread (inside : Bool) (l : Line) : List Text → List Line
  | [] => [l]
  | [p] => [{ l with text := p ++ l.text, continued := inside && p ≠ [] }]
  | p :: ps => { text := p, continued := inside } :: spread inside l ps

/-- The lines of a token list, at least one. -/
def lines : List Token → List Line
  | [] => [{}]
  | t :: ts =>
    match lines ts with
    | [] => []
    | l :: ls =>
      match splitLines t.text with
      | p :: q :: ps =>
        { text := p, tokens := [t] } :: Line.spread (!t.isSpace) l (q :: ps) ++ ls
      | _ => { l with text := t.text ++ l.text, tokens := t :: l.tokens } :: ls

namespace Line

def code (l : Line) : List Token := l.tokens.filter Token.isCode

def firstKeyword (l : Line) : Option Keyword :=
  if l.continued then none else l.code.head?.bind Token.keyword

def hasKeyword (k : Keyword) (l : Line) : Bool := l.code.any (Token.isKeyword k)

def endsInSemicolon (l : Line) : Bool := l.code.getLast? = some .semicolon

/-- The line opens a statement; a semicolon may stand in front of WITH. -/
def startsStatement (l : Line) : Bool :=
  !l.continued &&
    match l.code with
    | .semicolon :: t :: _ => t.isKeyword .WITH
    | t :: _ => t.keyword.any Keyword.startsStatement
    | [] => false

def leadsContinuation : Keyword → Bool
  | .CASE | .WHEN | .FROM | .WHERE | .JOIN | .INNER | .LEFT | .RIGHT | .GROUP | .ORDER
  | .HAVING | .UNION | .END => true
  | _ => false

/-- The line reads like the middle of a statement. -/
def continuesStatement (l : Line) : Bool :=
  l.firstKeyword.any leadsContinuation ||
    (!l.startsStatement && (l.hasKeyword .THEN || l.hasKeyword .ELSE || l.code.contains .comma))

def definesCursor (l : Line) : Bool :=
  match l.code.dropWhile (fun t => !t.isKeyword .CURSOR) with
  | [] => false
  | ts => l.firstKeyword = some .DECLARE || ts.any (Token.isKeyword .FOR)

end Line

/-! ## Stretches -/

structure Stretch where
  first : Line
  more : List Line

namespace Stretch

def lines (s : Stretch) : List Line := s.first :: s.more

def last (s : Stretch) : Line := s.more.getLastD s.first

end Stretch

def stretches : List Line → List Stretch
  | [] => []
  | l :: ls => ⟨l, ls.takeWhile Line.continued⟩ :: stretches (ls.dropWhile Line.continued)
termination_by ls => ls.length
decreasing_by exact Nat.lt_succ_of_le (List.dropWhile_suffix (l := ls) Line.continued).length_le

inductive Opening where
  | blank
  | lineComment
  /-- A block comment and nothing else. -/
  | comment
  /-- A block comment without an end. -/
  | openComment
  /-- Code. `classified` is the line that tells the kind of a statement that
  starts here, and `face` the line that a look ahead sees. -/
  | code (classified face : Line)

/-- A block comment with code behind it is classified by the line on which
the code ends. A look ahead sees the first line, or the first line behind the
comment when that starts in a later comment. -/
def Stretch.opening (s : Stretch) : Opening :=
  match s.first.tokens.dropWhile Token.isSpace with
  | [] => .blank
  | .lineComment _ :: _ => .lineComment
  | .blockComment c :: ts =>
    if (Token.blockComment c).isUnterminated then .openComment
    else
      let behind := s.more.drop (c.count '\n')
      let after := if c.contains '\n' then (s.more.take (c.count '\n')).flatMap Line.tokens else ts
      if after.any Token.isCode then .code s.last s.first
      else
        match behind with
        | l :: _ => .code s.last l
        | [] => .comment
  | _ => .code s.first s.first

end SqlLayout
