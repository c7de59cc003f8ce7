import SqlLayout.Block
import SqlLayout.Line
import SqlLayout.Token.Nesting

/-!
# Drafts of blocks

The lines that are collected for a block, with what their tokens say about
whether the block can end.
-/

namespace SqlLayout

/-! ## What tokens say -/

structure Tally where
  nesting : Nesting := {}
  /-- CASEs without their END. -/
  openCases : Nat := 0
  lastCode : Option Token := none
  /-- Some word of a statement was seen. -/
  isStatement : Bool := false
  /-- An INSERT was seen whose rows are still to come. -/
  awaitsRows : Bool := false
  /-- A word outside of all parentheses starts the main statement of a WITH. -/
  hasMain : Bool := false
  unterminated : Bool := false
deriving DecidableEq

def startsMain : Keyword → Bool
  | .SELECT | .INSERT | .UPDATE | .DELETE | .MERGE => true
  | _ => false

namespace Tally

def keyword (s : Tally) : Option Keyword → Tally
  | some .CASE => { s with openCases := s.openCases + 1 }
  | some .END => { s with openCases := s.openCases - 1 }
  | some .INSERT => { s with isStatement := true, awaitsRows := true }
  | some .SELECT | some .VALUES | some .EXEC | some .EXECUTE =>
    { s with isStatement := true, awaitsRows := false }
  | some .UPDATE | some .DELETE | some .CREATE | some .ALTER | some .WITH | some .DECLARE =>
    { s with isStatement := true }
  | _ => s

def code (s : Tally) (t : Token) : Tally :=
  let s := s.keyword t.keyword
  { s with
    hasMain := s.hasMain || (s.nesting.topKeyword t).any startsMain
    lastCode := some t }

def step (s : Tally) (t : Token) : Tally :=
  let s := if t.isCode then s.code t else s
  { s with nesting := s.nesting.step t, unterminated := s.unterminated || t.isUnterminated }

def needsMore (s : Tally) : Bool :=
  0 < s.nesting.depth || 0 < s.openCases ||
    match s.lastCode with
    | some .comma | some .dot => true
    | some (.operator op) => op ≠ ['*']
    | some t => t.keyword.any Keyword.expectsMore
    | none => false

end Tally

/-! ## Drafts -/

structure Draft where
  lines : List Line := []
  /-- Comments that belong to the next statement come before its kind is
  known. -/
  kind : Option BlockKind := none
  tally : Tally := {}

namespace Draft

def push (d : Draft) (ls : List Line) : Draft :=
  { d with
    lines := d.lines ++ ls
    tally := (ls.flatMap Line.tokens).foldl Tally.step d.tally }

/-- The block without blank lines around it. Lines at the end of an
unterminated token are part of it and stay. -/
def block? (d : Draft) : Option Block :=
  let texts := (d.lines.map Line.text).dropWhile isBlankText
  if texts = [] then none
  else if d.tally.unterminated then some ⟨.generic, joinLines texts⟩
  else some ⟨d.kind.getD .commentGroup, joinLines (dropEndWhile isBlankText texts)⟩

end Draft

end SqlLayout
