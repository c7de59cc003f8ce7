import SqlLayout.Document.Reader
import SqlLayout.Options

/-!
# Option files

A file is a document whose keys are names of options. An option that is a
choice of a name is set to the name as a string, or to a table that holds
nothing but this name, over something empty. Options that do not exist and
values they do not take are faults, and so are, at the end, numbers out of
range.
-/

namespace SqlLayout.OptionFile

open Document

def value? : Node → Option Options.Value
  | .text s => some (.text s)
  | .number n => some (.number n)
  | .flag b => some (.flag b)
  | .table _ [(name, n)] => if n.isEmpty then some (.text name) else none
  | _ => none

def readEntries (s : Text) : Option (List (String × Options.Value)) := do
  let es ← Document.ofText? s
  es.mapM fun e => (value? e.2).map fun v => (e.1, v)

def read (s : Text) : Except OptionError Options :=
  match (readEntries s).bind Options.ofEntries? with
  | none => .error .malformed
  | some o => o.check.map fun _ => o

end SqlLayout.OptionFile
