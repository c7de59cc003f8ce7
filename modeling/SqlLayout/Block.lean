import SqlLayout.Text

/-!
# Blocks

A script is a list of blocks: comments, and statements of a few kinds.
-/

namespace SqlLayout

inductive BlockKind where
  /-- A block comment between statements. -/
  | comment
  /-- Line comments between statements. -/
  | commentGroup
  | withStatement
  | select
  | cursor
  | declare
  /-- Statements that define or change something. -/
  | complex
  | generic
deriving DecidableEq

namespace BlockKind

def isComment (k : BlockKind) : Bool := k = .comment || k = .commentGroup

def name : BlockKind → String
  | comment => "comment"
  | commentGroup => "line_comment_group"
  | withStatement => "cte_statement"
  | select => "simple_select"
  | cursor => "cursor_statement"
  | declare => "declare_group"
  | complex => "complex_statement"
  | generic => "generic_statement"

def ofName? (s : String) : Option BlockKind :=
  [comment, commentGroup, withStatement, select, cursor, declare, complex, generic].find?
    (·.name = s)

end BlockKind

structure Block where
  kind : BlockKind
  content : Text
deriving DecidableEq

/-- A comment about the script rather than about the next statement. A block
comment is one when every line opens or closes a comment. -/
def Block.isStandalone (b : Block) : Bool :=
  match b.kind with
  | .commentGroup => true
  | .comment =>
    (trimmedLines b.content).all fun l =>
      ['-', '-'].isPrefixOf l || ['/', '*'].isPrefixOf l || ['*', '/'].isSuffixOf l
  | _ => false

end SqlLayout
