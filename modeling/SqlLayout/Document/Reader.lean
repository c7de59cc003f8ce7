import SqlLayout.Document
import SqlLayout.Document.Lexeme

/-!
# Reading documents

A line of a document is empty, a header `[key]` or an entry `key = value`. Keys
are words or strings, and dots join them to paths. Values are strings, natural
numbers, truth values, tables in braces and the list without members; other
values are not read.
-/

namespace SqlLayout.Document

abbrev Rest (ts : List Lexeme) := { us : List Lexeme // us.length < ts.length }

/-! ## Keys -/

def key? : Lexeme → Option String
  | .word s => if s.contains '+' then none else some (String.ofList s)
  | .quoted false s => some (String.ofList s)
  | _ => none

def takePath : (ts : List Lexeme) → Option (List String × Rest ts)
  | [] => none
  | k :: .dot :: ts => do
    let k ← key? k
    let (ks, us) ← takePath ts
    some ⟨k :: ks, us.1, Nat.lt_succ_of_lt (Nat.lt_succ_of_lt us.2)⟩
  | k :: ts => (key? k).map fun k => ⟨[k], ts, Nat.lt_succ_self _⟩

def takeTarget (ts : List Lexeme) : Option (List String × Rest ts) :=
  match takePath ts with
  | some (path, ⟨.equals :: us, h⟩) => some ⟨path, us, Nat.lt_of_succ_lt h⟩
  | _ => none

/-! ## Values -/

/-- Digits in groups that an underscore divides. -/
def digitsOf? (base : Nat) (s : Text) : Option Nat := do
  let groups := s.splitOn '_'
  if groups.any (· = []) then none
  else
    let digits ← groups.flatten.mapM hexDigit?
    if digits.any (base ≤ ·) then none
    else some (digits.foldl (fun n d => base * n + d) 0)

/-- A decimal number has no zeros in front. -/
def decimal? (s : Text) : Option Nat :=
  match s with
  | '0' :: _ :: _ => none
  | s => digitsOf? 10 s

/-- An integer that is not negative and fits 64 bits with a sign. -/
def number? (s : Text) : Option Nat :=
  let n := match s with
    | '0' :: 'x' :: s => digitsOf? 16 s
    | '0' :: 'o' :: s => digitsOf? 8 s
    | '0' :: 'b' :: s => digitsOf? 2 s
    | '+' :: s => decimal? s
    | '-' :: s => (decimal? s).filter (· = 0)
    | s => decimal? s
  n.filter (· < 0x8000000000000000)

def wordValue? (s : Text) : Option Node :=
  if s = "true".toList then some (.flag true)
  else if s = "false".toList then some (.flag false)
  else (number? s).map .number

def takeListEnd : (ts : List Lexeme) → Option (Rest ts)
  | .closeBracket :: ts => some ⟨ts, Nat.lt_succ_self _⟩
  | .newline :: ts => (takeListEnd ts).map fun us => ⟨us.1, Nat.lt_succ_of_lt us.2⟩
  | _ => none

mutual

def takeValue : (ts : List Lexeme) → Option (Node × Rest ts)
  | .word s :: ts => (wordValue? s).map fun n => ⟨n, ts, Nat.lt_succ_self _⟩
  | .quoted _ s :: ts => some ⟨.text (String.ofList s), ts, Nat.lt_succ_self _⟩
  | .openBracket :: ts =>
    (takeListEnd ts).map fun us => ⟨.list, us.1, Nat.lt_succ_of_lt us.2⟩
  | .openBrace :: .closeBrace :: ts =>
    some ⟨.table .inline [], ts, Nat.lt_succ_of_lt (Nat.lt_succ_self _)⟩
  | .openBrace :: ts =>
    (takeEntries [] ts).map fun p => ⟨.table .inline p.1, p.2.1, Nat.lt_succ_of_lt p.2.2⟩
  | _ => none
termination_by ts => ts.length

/-- Entries with commas in between, up to the brace behind the last. -/
def takeEntries (es : Entries) (ts : List Lexeme) : Option (Entries × Rest ts) :=
  match takeTarget ts with
  | none => none
  | some (path, us) =>
    have := us.2
    match takeValue us.1 with
    | none => none
    | some (n, vs) =>
      have hv := Nat.lt_trans vs.2 us.2
      match es.assign? path n, vs.1, hv with
      | some es, .closeBrace :: ws, hv => some ⟨es, ws, Nat.lt_of_succ_lt hv⟩
      | some es, .comma :: ws, hv =>
        have hw := Nat.lt_of_succ_lt hv
        (takeEntries es ws).map fun p => ⟨p.1, p.2.1, Nat.lt_trans p.2.2 hw⟩
      | _, _, _ => none
termination_by ts.length

end

/-! ## Lines -/

def takeStatement : (ts : List Lexeme) → Option (Statement × Rest ts)
  | .openBracket :: ts =>
    match takePath ts with
    | some (path, ⟨.closeBracket :: us, h⟩) =>
      some ⟨.header path, us, Nat.lt_succ_of_lt (Nat.lt_of_succ_lt h)⟩
    | _ => none
  | ts => do
    let (path, us) ← takeTarget ts
    let (n, vs) ← takeValue us.1
    some ⟨.entry path n, vs.1, Nat.lt_trans vs.2 us.2⟩

def statements? (ts : List Lexeme) : Option (List Statement) :=
  match ts with
  | [] => some []
  | .newline :: ts => statements? ts
  | t :: ts =>
    match takeStatement (t :: ts) with
    | some (s, ⟨[], _⟩) => some [s]
    | some (s, ⟨.newline :: us, h⟩) =>
      have : us.length < (t :: ts).length := Nat.lt_of_succ_lt h
      (statements? us).map (s :: ·)
    | _ => none
termination_by ts.length
decreasing_by
  · exact Nat.lt_succ_self _
  · exact this

def ofText? (s : Text) : Option Entries := do
  let ts ← lexemes? s
  let ss ← statements? ts
  ofStatements? ss

end SqlLayout.Document
