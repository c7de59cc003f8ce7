import SqlLayout.Token

/-!
# Nesting

How deep a token stands in parentheses. A closing parenthesis with no partner
leaves the depth at zero and is remembered as a stray.
-/

namespace SqlLayout

structure Nesting where
  depth : Nat := 0
  stray : Bool := false
deriving DecidableEq

namespace Nesting

def step (n : Nesting) : Token → Nesting
  | .openParen => { n with depth := n.depth + 1 }
  | .closeParen => if n.depth = 0 then { n with stray := true } else { n with depth := n.depth - 1 }
  | _ => n

/-- The depth at which a token itself stands: a parenthesis stands outside of
what it encloses. -/
def levelOf (n : Nesting) : Token → Nat
  | .closeParen => n.depth - 1
  | _ => n.depth

def isBalanced (n : Nesting) : Bool := n.depth = 0 && !n.stray

def after (ts : List Token) : Nesting := ts.foldl step {}

/-- The keyword that a token is outside of all parentheses. -/
def topKeyword (n : Nesting) (t : Token) : Option Keyword :=
  if n.depth = 0 then t.keyword else none

end Nesting

/-- Splits what follows an opening parenthesis at the closing one that
belongs to it, with `d` more to close before. -/
def splitClosing (d : Nat) : List Token → Option (List Token × List Token)
  | [] => none
  | .closeParen :: ts =>
    match d with
    | 0 => some ([], ts)
    | d + 1 => (splitClosing d ts).map (Prod.map (.closeParen :: ·) id)
  | .openParen :: ts => (splitClosing (d + 1) ts).map (Prod.map (.openParen :: ·) id)
  | t :: ts => (splitClosing d ts).map (Prod.map (t :: ·) id)

theorem splitClosing_eq {d : Nat} {ts inner rest : List Token}
    (h : splitClosing d ts = some (inner, rest)) : ts = inner ++ .closeParen :: rest := by
  fun_induction splitClosing d ts generalizing inner with
  | case1 => cases h
  | case2 => cases h; rfl
  | case3 d ts ih =>
    obtain ⟨⟨a, b⟩, e, hab⟩ := Option.map_eq_some_iff.mp h
    cases hab; simp [ih e]
  | case4 d ts ih =>
    obtain ⟨⟨a, b⟩, e, hab⟩ := Option.map_eq_some_iff.mp h
    cases hab; simp [ih e]
  | case5 d t ts _ _ ih =>
    obtain ⟨⟨a, b⟩, e, hab⟩ := Option.map_eq_some_iff.mp h
    cases hab; simp [ih e]

/-- Index of the first code token at or behind `start`. -/
def nextCode? (ts : List Token) (start : Nat) : Option Nat :=
  ((ts.drop start).findIdx? Token.isCode).map (start + ·)

end SqlLayout
