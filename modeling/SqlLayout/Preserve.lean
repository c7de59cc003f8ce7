import SqlLayout.Fault
import SqlLayout.Token.Lexer

/-!
# Tokens that must not get lost

Two texts hold the same tokens when each token occurs equally often in both,
in any order. Space does not count, a word counts in upper case and a line
comment without its blank end. The tokens are compared as sorted lists, which
also names one that got lost.
-/

namespace SqlLayout

def Token.canonical? : Token → Option Text
  | .whitespace _ => none
  | .word w => some (upper w)
  | .lineComment c => some (trimEnd c)
  | t => some t.text

def canonical (sql : Text) : List Text := (tokenize sql).filterMap Token.canonical?

def insertSorted (t : Text) : List Text → List Text
  | [] => [t]
  | u :: us => if textLe t u then t :: u :: us else u :: insertSorted t us

def sorted (ts : List Text) : List Text := ts.foldr insertSorted []

/-- Where two lists part, the element of the first one, or of the second where
the first one ends. -/
def firstDifference : List Text → List Text → Option Text
  | [], [] => none
  | a :: _, [] => some a
  | [], b :: _ => some b
  | a :: as, b :: bs => if a = b then firstDifference as bs else some a

def checkPreserved (before after : Text) : Except Fault Unit :=
  match firstDifference (sorted (canonical before)) (sorted (canonical after)) with
  | none => .ok ()
  | some t => .error (.lostToken t)

end SqlLayout
