/-!
# Documents

A document is a tree of named values: a table holds values under keys, and a
value may be a table again. Statements build it up. A key gets a value once,
and a table is opened once; how a table was written decides what may still be
put into it.
-/

namespace SqlLayout.Document

inductive Origin where
  /-- In braces, as a value. Nothing is added to it. -/
  | inline
  /-- As the keys in front of the last dot of a key. More such keys add to it,
  and so do headers of tables inside it. -/
  | dotted
  /-- As the front of a longer header. It can still get a header. -/
  | implied
  /-- By a header. -/
  | header
deriving DecidableEq

inductive Node where
  | text (s : String)
  | number (n : Nat)
  | flag (b : Bool)
  /-- The list without members. -/
  | list
  | table (origin : Origin) (entries : List (String × Node))

abbrev Entries := List (String × Node)

def Node.isEmpty : Node → Bool
  | .list => true
  | .table _ es => es.isEmpty
  | _ => false

def Entries.replace (es : Entries) (k : String) (n : Node) : Entries :=
  es.map fun e => if e.1 = k then (k, n) else e

def Entries.assign? : Entries → List String → Node → Option Entries
  | _, [], _ => none
  | es, [k], n => if (es.lookup k).isSome then none else some (es ++ [(k, n)])
  | es, k :: ks, n =>
    match es.lookup k with
    | none => (assign? [] ks n).map fun sub => es ++ [(k, .table .dotted sub)]
    | some (.table .dotted sub) =>
      (assign? sub ks n).map fun sub => es.replace k (.table .dotted sub)
    | some _ => none

def Entries.assignIn? : Entries → List String → List String → Node → Option Entries
  | es, [], ks, n => es.assign? ks n
  | es, k :: table, ks, n =>
    match es.lookup k with
    | some (.table o sub) =>
      (assignIn? sub table ks n).map fun sub => es.replace k (.table o sub)
    | _ => none

def Entries.open? : Entries → List String → Option Entries
  | _, [] => none
  | es, [k] =>
    match es.lookup k with
    | none => some (es ++ [(k, .table .header [])])
    | some (.table .implied sub) => some (es.replace k (.table .header sub))
    | some _ => none
  | es, k :: ks =>
    match es.lookup k with
    | none => (open? [] ks).map fun sub => es ++ [(k, .table .implied sub)]
    | some (.table .inline _) => none
    | some (.table o sub) => (open? sub ks).map fun sub => es.replace k (.table o sub)
    | some _ => none

/-! ## Statements -/

inductive Statement where
  /-- Opens a table for the entries that follow. -/
  | header (path : List String)
  | entry (path : List String) (value : Node)

structure Build where
  /-- The path of the table that entries go to. -/
  table : List String := []
  entries : Entries := []

def Build.add? (d : Build) : Statement → Option Build
  | .header path => (d.entries.open? path).map fun es => ⟨path, es⟩
  | .entry path value => (d.entries.assignIn? d.table path value).map fun es => ⟨d.table, es⟩

def ofStatements? (ss : List Statement) : Option Entries :=
  (ss.foldlM Build.add? {}).map Build.entries

end SqlLayout.Document
