import SqlLayout.Text

/-!
# Options

What the layout of a script can be asked to be. Numbers have a range that
`Options.check` tests; the layout itself is defined for every value.
-/

namespace SqlLayout

/-! ## The choices -/

inductive LetterCase where
  | upper
  | lower
  | preserve
deriving DecidableEq

inductive CommaPlace where
  /-- A comma leads the line of the item behind it. -/
  | before
  /-- A comma ends the line of the item in front of it. -/
  | after
deriving DecidableEq

inductive Style where
  /-- Keywords flush left, items at a fixed indent. -/
  | legacy
  /-- Keywords at a fixed column, items lined up behind them. -/
  | river
  /-- Keywords on a line of their own, items one indent deeper. -/
  | indent
deriving DecidableEq

namespace LetterCase

def apply : LetterCase → Text → Text
  | .upper, s => SqlLayout.upper s
  | .lower, s => SqlLayout.lower s
  | .preserve, s => s

def name : LetterCase → String
  | .upper => "upper"
  | .lower => "lower"
  | .preserve => "preserve"

def ofName? (s : String) : Option LetterCase := [.upper, .lower, .preserve].find? (·.name = s)

/-- Reads a name in any letter case; an unknown one is `upper`. -/
def guess (s : Text) : LetterCase :=
  if SqlLayout.lower s = "lower".toList ∨ SqlLayout.lower s = "lowercase".toList then .lower
  else if SqlLayout.lower s = "preserve".toList then .preserve
  else .upper

end LetterCase

namespace CommaPlace

def name : CommaPlace → String
  | .before => "before"
  | .after => "after"

def ofName? (s : String) : Option CommaPlace := [.before, .after].find? (·.name = s)

end CommaPlace

namespace Style

def name : Style → String
  | .legacy => "legacy"
  | .river => "river"
  | .indent => "indent"

def ofName? (s : String) : Option Style := [.legacy, .river, .indent].find? (·.name = s)

/-- Reads a name in any letter case; an unknown one is `river`. -/
def guess (s : Text) : Style :=
  if lower s = "legacy".toList then .legacy
  else if lower s = "indent".toList then .indent
  else .river

end Style

/-! ## The record -/

structure Options where
  keywordCase : LetterCase := .upper
  functionCase : LetterCase := .upper
  typeCase : LetterCase := .upper
  indentSize : Nat := 4
  commaPlace : CommaPlace := .before
  alignCommas : Bool := true
  alignAliases : Bool := true
  breakAfterSelect : Bool := true
  breakBeforeFrom : Bool := true
  breakBeforeWhere : Bool := true
  breakBeforeGroupBy : Bool := true
  breakBeforeOrderBy : Bool := true
  linesBetween : Nat := 2
  style : Style := .river
  /-- Column of the clause keywords in the river style, counted from 1. -/
  riverColumn : Nat := 7
deriving DecidableEq

inductive OptionError where
  | malformed
  | indentSize (n : Nat)
  | riverColumn (n : Nat)
  | linesBetween (n : Nat)
deriving DecidableEq

def OptionError.message : OptionError → String
  | malformed => "failed to parse formatter configuration"
  | indentSize n => s!"indent-size must be between 1 and 16, got {n}"
  | riverColumn n => s!"river-column must be between 1 and 40, got {n}"
  | linesBetween n => s!"lines-between must be between 0 and 10, got {n}"

namespace Options

/-- More blank lines than this are never written. -/
def maxLinesBetween : Nat := 10

def check (o : Options) : Except OptionError Unit :=
  if o.indentSize < 1 ∨ 16 < o.indentSize then .error (.indentSize o.indentSize)
  else if o.riverColumn < 1 ∨ 40 < o.riverColumn then .error (.riverColumn o.riverColumn)
  else if maxLinesBetween < o.linesBetween then .error (.linesBetween o.linesBetween)
  else .ok ()

/-- Spaces in front of a clause keyword in the river style. -/
def river (o : Options) : Nat := o.riverColumn - 1

/-! ## Options by name -/

inductive Value where
  | text (s : String)
  | number (n : Nat)
  | flag (b : Bool)
deriving DecidableEq

/-- Sets the option called `key`, unless there is none or it takes no such
value. -/
def set? (o : Options) (key : String) (v : Value) : Option Options :=
  match key, v with
  | "keyword-case", .text s => (LetterCase.ofName? s).map fun c => { o with keywordCase := c }
  | "function-case", .text s => (LetterCase.ofName? s).map fun c => { o with functionCase := c }
  | "data-type-case", .text s => (LetterCase.ofName? s).map fun c => { o with typeCase := c }
  | "indent-size", .number n => some { o with indentSize := n }
  | "comma-position", .text s => (CommaPlace.ofName? s).map fun p => { o with commaPlace := p }
  | "align-commas", .flag b => some { o with alignCommas := b }
  | "align-aliases", .flag b => some { o with alignAliases := b }
  | "newline-after-select", .flag b => some { o with breakAfterSelect := b }
  | "newline-before-from", .flag b => some { o with breakBeforeFrom := b }
  | "newline-before-where", .flag b => some { o with breakBeforeWhere := b }
  | "newline-before-group-by", .flag b => some { o with breakBeforeGroupBy := b }
  | "newline-before-order-by", .flag b => some { o with breakBeforeOrderBy := b }
  | "lines-between-queries", .number n => some { o with linesBetween := n }
  | "style", .text s => (Style.ofName? s).map fun c => { o with style := c }
  | "river-column", .number n => some { o with riverColumn := n }
  | _, _ => none

def entries (o : Options) : List (String × Value) :=
  [ ("keyword-case", .text o.keywordCase.name),
    ("function-case", .text o.functionCase.name),
    ("data-type-case", .text o.typeCase.name),
    ("indent-size", .number o.indentSize),
    ("comma-position", .text o.commaPlace.name),
    ("align-commas", .flag o.alignCommas),
    ("align-aliases", .flag o.alignAliases),
    ("newline-after-select", .flag o.breakAfterSelect),
    ("newline-before-from", .flag o.breakBeforeFrom),
    ("newline-before-where", .flag o.breakBeforeWhere),
    ("newline-before-group-by", .flag o.breakBeforeGroupBy),
    ("newline-before-order-by", .flag o.breakBeforeOrderBy),
    ("lines-between-queries", .number o.linesBetween),
    ("style", .text o.style.name),
    ("river-column", .number o.riverColumn) ]

def ofEntries? (es : List (String × Value)) : Option Options :=
  es.foldlM (fun o e => o.set? e.1 e.2) {}

end Options

end SqlLayout
