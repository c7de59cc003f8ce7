import SqlLayout.Casing
import SqlLayout.Clause
import SqlLayout.Item.Alias
import SqlLayout.Item.Modifier
import SqlLayout.Item.Reflow
import SqlLayout.Layout.Indent
import SqlLayout.Layout.Legacy
import SqlLayout.Layout.River

/-!
# Layout of a SELECT

A SELECT is split into clauses, each clause is laid out in the style of the
options, and the clauses are put under one another.
-/

namespace SqlLayout

/-- Finds text that cannot be moved: literals without an end, and tokens that
span lines. -/
def checkTokens : List Token → Except Fault Unit
  | [] => .ok ()
  | t :: ts =>
    if t.isUnterminated then .error (.unterminated t.describe)
    else if t.spansLines then .error (.multiline t.describe)
    else checkTokens ts

/-! ## Bodies -/

/-- Items without code cannot be laid out. -/
def prepareAll (indent : Nat) (items : List Item) : Except Fault (List Item) :=
  if items.any (·.code = []) then .error (.shape .emptyItem)
  else .ok (items.map (Item.prepare indent))

def selectionBody (o : Options) (ts : List Token) : Except Fault Body :=
  let (modifiers, rest) := splitModifiers ts
  (prepareAll o.indentSize (listItems rest)).map fun items =>
    let items := items.map (Item.reflow o.indentSize)
    .selection modifiers
      (if o.alignAliases && o.style ≠ .indent then alignAliases items else items)

def Clause.split (o : Options) (c : Clause) : Except Fault Body :=
  let ts := tokenize c.body
  match c.kind with
  | .SELECT => selectionBody o ts
  | .GROUP_BY | .ORDER_BY => (prepareAll o.indentSize (listItems ts)).map .list
  | .WHERE | .HAVING => (prepareAll o.indentSize (conditionItems ts)).map .conditions
  | .FROM => .ok (.sources ((Sources.ofTokens ts).mapItems (Item.prepare o.indentSize)))

/-! ## Lines -/

def clauseLines (o : Options) (keyword : Text) (b : Body) : List Text :=
  match o.style with
  | .legacy => Legacy.lines o keyword b
  | .river => River.lines o keyword b
  | .indent => Indent.lines o keyword b

def Options.inlines (o : Options) : ClauseKind → Bool
  | .FROM => !o.breakBeforeFrom
  | .WHERE => !o.breakBeforeWhere
  | .GROUP_BY => !o.breakBeforeGroupBy
  | .ORDER_BY => !o.breakBeforeOrderBy
  | .SELECT | .HAVING => false

def endsInLineComment (l : Text) : Bool :=
  (neighbour (tokenize l).reverse).any Token.isLineComment

/-- Puts a clause under the lines in front of it, or behind the last of them
if that does not end in a line comment. -/
def attach (inline : Bool) (above below : List Text) : List Text :=
  match above.getLast?, below with
  | some last, l :: ls =>
    if inline && !endsInLineComment last then
      above.dropLast ++ (last ++ ' ' :: trimStart l) :: ls
    else above ++ below
  | _, _ => above ++ below

def Select.lines (o : Options) (s : Select) : Except Fault (List Text) := do
  let lead := s.lead.elim [] trimmedLines
  let bodies ← s.clauses.mapM fun c => (c.split o).map fun b => (c, b)
  return bodies.foldl
    (fun above p => attach (o.inlines p.1.kind) above (clauseLines o p.1.keyword p.2)) lead

def selectLines (o : Options) (sql : Text) : Except Fault (List Text) := do
  let cased := recase o sql
  checkTokens (tokenize cased)
  let s ← Select.ofText cased
  s.lines o

def startsWithSelect (sql : Text) : Bool :=
  ((tokenize sql).find? Token.isCode).any (Token.isKeyword .SELECT)

end SqlLayout
