import SqlLayout.Query

/-!
# WITH statements

The head of a WITH statement names queries in parentheses; the main statement
is what follows. In the head only space may stand between the elements.
-/

namespace SqlLayout

structure Definition where
  name : Text
  /-- The column list on one line, in its parentheses. -/
  columns : Option Text
  as : Text
  /-- Without blank ends. -/
  body : Text
deriving DecidableEq

structure With where
  /-- A semicolon stands in front of the WITH. -/
  semicolon : Bool
  keyword : Text
  definitions : List Definition
  /-- Without blank ends. -/
  main : Text
deriving DecidableEq

/-! ## Reading the head -/

/-- The tokens behind the next space, unless a comment stands there. -/
def skipSpace (ts : List Token) : Except Fault (List Token) :=
  match ts.dropWhile Token.isSpace with
  | t :: us => if t.isComment then .error (.header .comment) else .ok (t :: us)
  | [] => .ok []

def takeKeyword (k : Keyword) (missing : HeaderFault) (ts : List Token) :
    Except Fault (Text × List Token) := do
  match ← skipSpace ts with
  | t :: us => if t.isKeyword k then .ok (t.text, us) else .error (.header missing)
  | [] => .error (.header missing)

def takeGroup (ts : List Token) : Except Fault (List Token × List Token) := do
  match ← skipSpace ts with
  | .openParen :: us =>
    match splitClosing 0 us with
    | some p => .ok p
    | none => .error .unbalanced
  | _ => .error (.header .noParen)

def isName : Token → Bool
  | .quotedIdentifier _ => true
  | .word w => Keyword.ofWord? w = none
  | _ => false

def takeName (ts : List Token) : Except Fault (Text × List Token) := do
  match ← skipSpace ts with
  | t :: us => if isName t then .ok (t.text, us) else .error (.header .noName)
  | [] => .error (.header .noName)

def takeColumns (ts : List Token) : Except Fault (Option Text × List Token) := do
  match ← skipSpace ts with
  | .openParen :: us => do
    let (inner, rest) ← takeGroup (.openParen :: us)
    .ok (some ('(' :: normalize 0 (spell inner) ++ [')']), rest)
  | us => .ok (none, us)

def takeDefinition (ts : List Token) : Except Fault (Definition × List Token) := do
  let (name, ts) ← takeName ts
  let (columns, ts) ← takeColumns ts
  let (as, ts) ← takeKeyword .AS .noAs ts
  let (body, ts) ← takeGroup ts
  .ok (⟨name, columns, as, trim (spell body)⟩, ts)

/-! ## A definition takes tokens -/

theorem ok_of_bind {ε α β : Type} {x : Except ε α} {f : α → Except ε β} {b : β}
    (h : (x >>= f) = .ok b) : ∃ a, x = .ok a ∧ f a = .ok b := by
  cases x with
  | error e => cases h
  | ok a => exact ⟨a, rfl, h⟩

theorem skipSpace_length {ts us : List Token} (h : skipSpace ts = .ok us) : us.length ≤ ts.length := by
  have hl := (List.dropWhile_suffix (l := ts) Token.isSpace).length_le
  unfold skipSpace at h
  split at h
  · next t us e =>
    split at h
    · cases h
    · cases h; rwa [e] at hl
  · cases h; simp

theorem takeKeyword_length {k : Keyword} {f : HeaderFault} {ts : List Token} {w : Text}
    {rest : List Token} (h : takeKeyword k f ts = .ok (w, rest)) : rest.length < ts.length := by
  obtain ⟨us, e, h⟩ := ok_of_bind h
  have hl := skipSpace_length e
  split at h
  · split at h
    · cases h; simp only [List.length_cons] at hl; omega
    · cases h
  · cases h

theorem takeName_length {ts : List Token} {w : Text} {rest : List Token}
    (h : takeName ts = .ok (w, rest)) : rest.length < ts.length := by
  obtain ⟨us, e, h⟩ := ok_of_bind h
  have hl := skipSpace_length e
  split at h
  · split at h
    · cases h; simp only [List.length_cons] at hl; omega
    · cases h
  · cases h

theorem takeGroup_length {ts inner rest : List Token} (h : takeGroup ts = .ok (inner, rest)) :
    rest.length < ts.length := by
  obtain ⟨us, e, h⟩ := ok_of_bind h
  have hl := skipSpace_length e
  split at h
  · next us =>
    split at h
    · next p hp =>
      cases h
      have := congrArg List.length (splitClosing_eq hp)
      simp only [List.length_append, List.length_cons] at this hl
      omega
    · cases h
  · cases h

theorem takeColumns_length {ts : List Token} {c : Option Text} {rest : List Token}
    (h : takeColumns ts = .ok (c, rest)) : rest.length ≤ ts.length := by
  obtain ⟨us, e, h⟩ := ok_of_bind h
  have hl := skipSpace_length e
  split at h
  · obtain ⟨⟨inner, r⟩, e', h⟩ := ok_of_bind h
    have := takeGroup_length e'
    cases h; omega
  · cases h; exact hl

theorem takeDefinition_length {ts : List Token} {d : Definition} {rest : List Token}
    (h : takeDefinition ts = .ok (d, rest)) : rest.length < ts.length := by
  obtain ⟨⟨_, a⟩, e₁, h⟩ := ok_of_bind h
  obtain ⟨⟨_, b⟩, e₂, h⟩ := ok_of_bind h
  obtain ⟨⟨_, c⟩, e₃, h⟩ := ok_of_bind h
  obtain ⟨⟨_, d⟩, e₄, h⟩ := ok_of_bind h
  cases h
  have := takeName_length e₁
  have := takeColumns_length e₂
  have := takeKeyword_length e₃
  have := takeGroup_length e₄
  omega

/-- One definition and, behind each comma, one more. A comma is looked for
behind comments too, but a comment in front of it is a fault. -/
def takeDefinitions (ts : List Token) : Except Fault (List Definition × List Token) :=
  match h : takeDefinition ts with
  | .error f => .error f
  | .ok (d, rest) =>
    match rest.dropWhile Token.isTrivia with
    | .comma :: _ =>
      match h' : skipSpace rest with
      | .error f => .error f
      | .ok us =>
        have : us.tail.length < ts.length := by
          have := takeDefinition_length h
          have := skipSpace_length h'
          rw [List.length_tail]; omega
        (takeDefinitions us.tail).map (Prod.map (d :: ·) id)
    | _ => .ok ([d], rest)
termination_by ts.length
decreasing_by assumption

def With.ofText (sql : Text) : Except Fault With := do
  let ts ← skipSpace (tokenize sql)
  let semicolon := ts.head? = some .semicolon
  let (keyword, ts) ← takeKeyword .WITH .noWith (if semicolon then ts.tail else ts)
  let (definitions, ts) ← takeDefinitions ts
  let main := trim (spell ts)
  if main = [] then .error (.header .noMain) else .ok { semicolon, keyword, definitions, main }

/-! ## Lines -/

/-- A SELECT is laid out if it can be. Any other text keeps its lines. -/
def queryLines (o : Options) (sql : Text) : List Text :=
  if startsWithSelect sql then
    match selectLines o sql with
    | .ok ls => ls
    | .error _ => trimmedLines sql
  else trimmedLines sql

def indentLine (n : Nat) (l : Text) : Text := if l = [] then l else pad n ++ l

def Definition.lines (o : Options) (front close : Text) (d : Definition) : List Text :=
  let columns := d.columns.elim [] (' ' :: ·)
  (front ++ d.name ++ columns ++ ' ' :: d.as ++ " (".toList) ::
    (queryLines o d.body).map (indentLine o.indentSize) ++ [close]

def laterDefinitions (o : Options) : List Definition → List Text
  | [] => []
  | d :: ds =>
    let front := if o.commaPlace = .before then [',', ' '] else []
    let close := if o.commaPlace = .after && ds ≠ [] then [')', ','] else [')']
    d.lines o front close ++ laterDefinitions o ds

def definitionLines (o : Options) (front : Text) : List Definition → List Text
  | [] => []
  | d :: ds =>
    let close := if o.commaPlace = .after && ds ≠ [] then [')', ','] else [')']
    d.lines o front close ++ laterDefinitions o ds

def With.lines (o : Options) (w : With) : List Text :=
  let front := (if w.semicolon then [';'] else []) ++ w.keyword ++ [' ']
  definitionLines o front w.definitions ++
    if startsWithSelect w.main then queryLines o w.main
    else (splitLines w.main).map trimEnd

def withLines (o : Options) (sql : Text) : Except Fault (List Text) := do
  let cased := recase o sql
  checkTokens (tokenize cased)
  let w ← With.ofText cased
  return w.lines o

end SqlLayout
