import SqlLayout.Command

/-!
# The program

Reads what the command needs and writes its answer.
-/

namespace SqlLayout

/-- Why there is no text: the system says so, or the bytes are not UTF-8. -/
def readText (bytes : IO ByteArray) : IO (Except String String) := do
  match ← bytes.toBaseIO with
  | .error e => return .error (toString e)
  | .ok b =>
    match String.fromUTF8? b with
    | some s => return .ok s
    | none => return .error "stream did not contain valid UTF-8"

partial def readRest (input : IO.FS.Stream) (soFar : ByteArray) : IO ByteArray := do
  let bytes ← input.read 65536
  if bytes.isEmpty then return soFar else readRest input (soFar ++ bytes)

end SqlLayout

open SqlLayout in
def main (args : List String) : IO UInt32 := do
  let readFile := fun path : String => readText (IO.FS.readBinFile path)
  let readInput := readText do readRest (← IO.getStdin) .empty
  let outcome ← Command.run readFile readInput args
  (← IO.getStdout).putStr outcome.out
  (← IO.getStderr).putStr outcome.err
  return outcome.code.toUInt32
