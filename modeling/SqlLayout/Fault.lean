import SqlLayout.Token

/-!
# Faults

Why a block keeps its lines. None of them is fatal: such a block is written
with the letter case of its keywords changed and nothing else.
-/

namespace SqlLayout

/-- The clauses of a SELECT, in the order in which they must stand. -/
inductive ClauseKind where
  | SELECT
  | FROM
  | WHERE
  | GROUP_BY
  | HAVING
  | ORDER_BY
deriving DecidableEq

namespace ClauseKind

def name : ClauseKind → String
  | SELECT => "SELECT"
  | FROM => "FROM"
  | WHERE => "WHERE"
  | GROUP_BY => "GROUP BY"
  | HAVING => "HAVING"
  | ORDER_BY => "ORDER BY"

def rank : ClauseKind → Nat
  | SELECT => 0
  | FROM => 1
  | WHERE => 2
  | GROUP_BY => 3
  | HAVING => 4
  | ORDER_BY => 5

end ClauseKind

inductive ShapeFault where
  | setOperator (k : Keyword)
  | missingSelect
  | beforeSelect (k : ClauseKind)
  | outOfOrder (k previous : ClauseKind)
  | textBeforeSelect
  | emptyItem
deriving DecidableEq

inductive HeaderFault where
  | comment
  | noWith
  | noName
  | noAs
  | noParen
  | noMain
deriving DecidableEq

inductive Fault where
  | unterminated (what : String)
  | multiline (what : String)
  | shape (f : ShapeFault)
  | unbalanced
  | header (f : HeaderFault)
  | lostToken (t : Text)
deriving DecidableEq

def ShapeFault.message : ShapeFault → String
  | setOperator k => k.name
  | missingSelect => "missing SELECT"
  | beforeSelect k => k.name ++ " before SELECT"
  | outOfOrder k previous => k.name ++ " after " ++ previous.name
  | textBeforeSelect => "text before SELECT"
  | emptyItem => "empty list item"

def HeaderFault.message : HeaderFault → String
  | comment => "comment in header"
  | noWith => "expected WITH"
  | noName => "expected a name"
  | noAs => "expected AS"
  | noParen => "expected `(`"
  | noMain => "missing main statement"

def Fault.message : Fault → String
  | unterminated what => "unterminated " ++ what
  | multiline what => what ++ " spans multiple lines"
  | shape f => "unsupported clause shape: " ++ f.message
  | unbalanced => "unbalanced parentheses"
  | header f => "malformed common table expression: " ++ f.message
  | lostToken t => "formatted output does not preserve token `" ++ String.ofList t ++ "`"

end SqlLayout
