import SqlLayout.Options.File
import SqlLayout.Script

/-!
# The command

What the arguments of the command ask for, and what it answers. Reading files
and the standard input is left to the caller, in any monad.
-/

namespace SqlLayout.Command

/-! ## Arguments -/

structure Arguments where
  file : Option String := none
  style : Option Style := none
  keywordCase : Option LetterCase := none
  lowercase : Bool := false
  uppercase : Bool := false
  indentSize : Option Nat := none
  commaPlace : Option CommaPlace := none
  riverColumn : Option Nat := none
  linesBetween : Option Nat := none
  config : Option String := none
  check : Bool := false
  verbose : Bool := false
deriving DecidableEq

inductive Request where
  | format (a : Arguments)
  | version
  | help
deriving DecidableEq

/-- A number of 64 bits; a plus may stand in front. -/
def count? (s : String) : Option Nat :=
  let digits := match s.toList with
    | '+' :: ds => ds
    | ds => ds
  if digits = [] || !digits.all Char.isDigit then none
  else (some (digits.foldl (fun n d => 10 * n + (d.toNat - 48)) 0)).filter (· < 0x10000000000000000)

def path? (s : String) : Option String := if s = "" then none else some s

def once {α β : Type} (old : Option α) (new : Option α) (set : Option α → β) : Option β :=
  if old.isSome then none else new.map fun x => set (some x)

def takesValue (name : String) : Bool :=
  ["style", "keyword-case", "indent-size", "comma-position", "river-column", "lines-between",
    "config"].contains name

namespace Arguments

def setValue? (a : Arguments) (name value : String) : Option Arguments :=
  match name with
  | "style" => once a.style (Style.ofName? value) fun x => { a with style := x }
  | "keyword-case" =>
    once a.keywordCase (LetterCase.ofName? value) fun x => { a with keywordCase := x }
  | "indent-size" => once a.indentSize (count? value) fun x => { a with indentSize := x }
  | "comma-position" =>
    once a.commaPlace (CommaPlace.ofName? value) fun x => { a with commaPlace := x }
  | "river-column" => once a.riverColumn (count? value) fun x => { a with riverColumn := x }
  | "lines-between" => once a.linesBetween (count? value) fun x => { a with linesBetween := x }
  | "config" => once a.config (path? value) fun x => { a with config := x }
  | _ => none

def setFlag? (a : Arguments) (name : String) : Option Arguments :=
  match name with
  | "lowercase" => if a.lowercase then none else some { a with lowercase := true }
  | "uppercase" => if a.uppercase then none else some { a with uppercase := true }
  | "check" => if a.check then none else some { a with check := true }
  | "verbose" => if a.verbose then none else some { a with verbose := true }
  | _ => none

def setFile? (a : Arguments) (name : String) : Option Arguments :=
  once a.file (path? name) fun x => { a with file := x }

def setLetters (a : Arguments) : List Char → Option (Arguments ⊕ Request)
  | [] => some (.inl a)
  | 'v' :: cs => (a.setFlag? "verbose").bind fun a => a.setLetters cs
  | 'V' :: _ => some (.inr .version)
  | 'h' :: _ => some (.inr .help)
  | _ => none

def finish (a : Arguments) : Option Request :=
  if a.lowercase && a.uppercase then none else some (.format a)

end Arguments

/-- An argument that cannot be the value of the option in front of it. -/
def isOption (s : String) : Bool := s.toList.head? = some '-' && s ≠ "-"

def splitValue (s : List Char) : String × Option String :=
  (String.ofList (s.takeWhile (· ≠ '=')), (s.dropWhile (· ≠ '=')).tail? |>.map String.ofList)

/-- Reads the arguments in their order, up to one that asks for the version
or for help; none if one is wrong. -/
def parse (a : Arguments) : List String → Option Request
  | [] => a.finish
  | arg :: args =>
    match arg.toList with
    | ['-', '-'] => (args.foldlM Arguments.setFile? a).bind Arguments.finish
    | '-' :: '-' :: long =>
      match splitValue long with
      | ("version", none) => some .version
      | ("help", none) => some .help
      | (name, some value) => (a.setValue? name value).bind fun a => parse a args
      | (name, none) =>
        if takesValue name then
          match args with
          | [] => none
          | value :: args =>
            if isOption value then none
            else (a.setValue? name value).bind fun a => parse a args
        else (a.setFlag? name).bind fun a => parse a args
    | '-' :: c :: cs =>
      match a.setLetters (c :: cs) with
      | some (.inl a) => parse a args
      | some (.inr r) => some r
      | none => none
    | _ => (a.setFile? arg).bind fun a => parse a args

/-! ## Options -/

def Arguments.options (a : Arguments) (o : Options) : Options :=
  let o := match a.lowercase, a.uppercase with
    | true, _ => { o with keywordCase := .lower, functionCase := .lower, typeCase := .lower }
    | false, true => { o with keywordCase := .upper, functionCase := .upper, typeCase := .upper }
    | false, false => o
  { o with
    keywordCase := a.keywordCase.getD o.keywordCase
    style := a.style.getD o.style
    indentSize := a.indentSize.getD o.indentSize
    commaPlace := a.commaPlace.getD o.commaPlace
    riverColumn := a.riverColumn.getD o.riverColumn
    linesBetween := a.linesBetween.getD o.linesBetween }

/-! ## Answers -/

structure Outcome where
  code : Nat
  out : String := ""
  err : String := ""
deriving DecidableEq

def versionText : String := "sqlriver 0.1.0\n"

def helpText : String :=
  "Reformat SQL scripts without touching what it does not understand

Usage: sqlriver [OPTIONS] [FILE]

Arguments:
  [FILE]  SQL file to format (reads stdin when omitted)

Options:
      --style <STYLE>                    Layout style [possible values: legacy, river, indent]
      --keyword-case <KEYWORD_CASE>      Case for keywords [possible values: upper, lower, preserve]
      --lowercase                        Output keywords, functions and data types in lowercase
      --uppercase                        Output keywords, functions and data types in uppercase
      --indent-size <INDENT_SIZE>        Spaces per indentation level
      --comma-position <COMMA_POSITION>  Place list commas before or after items [possible values: before, after]
      --river-column <RIVER_COLUMN>      1-based column the river layout aligns clause keywords against
      --lines-between <LINES_BETWEEN>    Blank lines between statements
      --config <FILE>                    TOML file with formatting options
      --check                            Exit with status 1 if the input is not already formatted
  -v, --verbose                          Log per-block decisions to stderr
  -h, --help                             Print help
  -V, --version                          Print version
"

def usageError : Outcome :=
  { code := 2, err := "error: invalid arguments\n\nFor more information, try '--help'.\n" }

def failure (why : String) : Outcome := { code := 1, err := "Error: " ++ why ++ "\n" }

def Arguments.answer (a : Arguments) (o : Options) (script : String) : Outcome :=
  if isBlankText script.toList then failure "no SQL input provided"
  else
    let output := String.ofList (format o script.toList)
    if a.check then
      if output = script then { code := 0 }
      else { code := 1, err := a.file.getD "<stdin>" ++ ": would be reformatted\n" }
    else { code := 0, out := if output.toList.getLast? = some '\n' then output else output ++ "\n" }

def fileOptions (path : String) : Except String String → Except String Options
  | .error why => .error ("failed to read config file " ++ path ++ ": " ++ why)
  | .ok text =>
    (OptionFile.read text.toList).mapError fun e => "invalid config " ++ path ++ ": " ++ e.message

def Arguments.checkedOptions (a : Arguments) (o : Options) : Except String Options :=
  match (a.options o).check with
  | .error e => .error e.message
  | .ok () => .ok (a.options o)

/-- Runs the command. Reading gives the text or says why there is none. -/
def run {m : Type → Type} [Monad m] (readFile : String → m (Except String String))
    (readInput : m (Except String String)) (args : List String) : m Outcome := do
  match parse {} args with
  | none => pure usageError
  | some .version => pure { code := 0, out := versionText }
  | some .help => pure { code := 0, out := helpText }
  | some (.format a) =>
    let base : Except String Options ← match a.config with
      | none => pure (.ok {})
      | some path => fileOptions path <$> readFile path
    match base.bind a.checkedOptions with
    | .error why => pure (failure why)
    | .ok o =>
      let script : Except String String ← match a.file with
        | some path => Except.mapError (("failed to read " ++ path ++ ": ") ++ ·) <$> readFile path
        | none => Except.mapError ("failed to read stdin: " ++ ·) <$> readInput
      match script with
      | .error why => pure (failure why)
      | .ok script => pure (a.answer o script)

end SqlLayout.Command
