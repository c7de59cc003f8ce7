import SqlLayout.Fault
import SqlLayout.Token.Lexer
import SqlLayout.Token.Nesting

/-!
# The clauses of a SELECT

A clause starts at its keyword outside of all parentheses and ends where the
next one starts, so a subquery stays inside the clause that holds it.
`Select.ofText` accepts a SELECT without set operators whose clauses stand in
their order, each at most once.
-/

namespace SqlLayout

structure Clause where
  kind : ClauseKind
  /-- The keyword as written, with one blank between its words. -/
  keyword : Text
  /-- Without blank ends. -/
  body : Text
deriving DecidableEq

structure Select where
  /-- Comments in front of the SELECT. -/
  lead : Option Text
  clauses : List Clause
deriving DecidableEq

structure Section where
  kind : ClauseKind
  keyword : Text
  tokens : List Token

/-- The clause that a keyword opens in front of `ts`: its kind, the rest of
its keyword and its first tokens. GROUP and ORDER need a BY, with nothing but
space in between. -/
def opens (k : Keyword) (ts : List Token) : Option (ClauseKind × Text × List Token) :=
  let withBy := fun kind =>
    match ts.dropWhile Token.isSpace with
    | t :: us => if t.isKeyword .BY then some (kind, ' ' :: t.text, us) else none
    | [] => none
  match k with
  | .SELECT => some (.SELECT, [], ts)
  | .FROM => some (.FROM, [], ts)
  | .WHERE => some (.WHERE, [], ts)
  | .HAVING => some (.HAVING, [], ts)
  | .GROUP => withBy .GROUP_BY
  | .ORDER => withBy .ORDER_BY
  | _ => none

def sections (n : Nesting) : List Token → List Token × List Section
  | [] => ([], [])
  | t :: ts =>
    -- a BY is no clause keyword, so it still leads the tokens in front
    let (front, later) := sections (n.step t) ts
    match (n.topKeyword t).bind (opens · front) with
    | some (kind, more, tokens) => ([], ⟨kind, t.text ++ more, tokens⟩ :: later)
    | none => (t :: front, later)

def setOperator? (n : Nesting) : List Token → Option Keyword
  | [] => none
  | t :: ts =>
    match (n.topKeyword t).filter Keyword.isSetOperator with
    | some k => some k
    | none => setOperator? (n.step t) ts

/-- The first clause that does not stand behind its predecessor. -/
def disorder? : List ClauseKind → Option (ClauseKind × ClauseKind)
  | k :: l :: ks => if l.rank ≤ k.rank then some (l, k) else disorder? (l :: ks)
  | _ => none

namespace Select

def checkShape (front : List Token) (kinds : List ClauseKind) : Except ShapeFault Unit :=
  match kinds with
  | [] => .error .missingSelect
  | k :: _ =>
    if k ≠ .SELECT then .error (.beforeSelect k)
    else match disorder? kinds with
      | some (l, k) => .error (.outOfOrder l k)
      | none => if front.any Token.isCode then .error .textBeforeSelect else .ok ()

def ofText (sql : Text) : Except Fault Select :=
  let ts := tokenize sql
  match setOperator? {} ts with
  | some k => .error (.shape (.setOperator k))
  | none =>
    if !(Nesting.after ts).isBalanced then .error .unbalanced
    else
      let (front, found) := sections {} ts
      match checkShape front (found.map Section.kind) with
      | .error f => .error (.shape f)
      | .ok () =>
        let lead := trim (spell front)
        .ok {
          lead := if lead = [] then none else some lead
          clauses := found.map fun s => ⟨s.kind, s.keyword, trim (spell s.tokens)⟩ }

def clause? (s : Select) (k : ClauseKind) : Option Clause := s.clauses.find? (·.kind = k)

end Select

end SqlLayout
