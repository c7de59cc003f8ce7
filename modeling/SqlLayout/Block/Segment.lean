import SqlLayout.Block.Draft

/-!
# Cutting a script into blocks

There is no grammar: blocks are made of whole lines, and the next line with
code tells whether the statement in front of it can end. No block starts or
ends inside a token.
-/

namespace SqlLayout

/-! ## Kinds of statements -/

def modifies : Keyword → Bool
  | .CREATE | .ALTER | .INSERT | .UPDATE | .DELETE => true
  | _ => false

/-- An INTO in front of a variable or a temporary table. -/
def intoTemporary : List Token → Bool
  | t :: u :: ts => (t.isKeyword .INTO && u.isWordFrom ['#', '@']) || intoTemporary (u :: ts)
  | _ => false

def Line.classify (l : Line) : BlockKind :=
  let first := l.code.head?.bind Token.keyword
  let second := l.code[1]?.bind Token.keyword
  if first = some .WITH || (l.code.head? = some .semicolon && second = some .WITH) then .withStatement
  else if l.definesCursor || first.any Keyword.isCursorCommand then .cursor
  else if first = some .DECLARE then .declare
  else if first = some .SELECT && !l.hasKeyword .INTO && !l.hasKeyword .WITH then .select
  else if (first = some .DROP && second = some .TABLE) || intoTemporary l.code ||
      l.code.any (fun t => t.keyword.any modifies) then .complex
  else .generic

/-! ## Looking ahead -/

/-- The next line with code; none behind a comment without an end. -/
def nextCodeLine : List Stretch → Option Line
  | [] => none
  | s :: ss =>
    match s.opening with
    | .blank | .lineComment | .comment => nextCodeLine ss
    | .openComment => none
    | .code _ face => some face

/-- A comment in front of `rest` is part of the statement around it. -/
def Draft.keepsComment (d : Draft) (rest : List Stretch) : Bool :=
  d.tally.isStatement ||
    (nextCodeLine rest).any fun l => l.continuesStatement || !l.startsStatement

/-- The draft is complete with the line `last`, in front of `rest`. -/
def Draft.isComplete (d : Draft) (last : Line) (rest : List Stretch) : Bool :=
  last.endsInSemicolon ||
    (!d.tally.needsMore &&
      match nextCodeLine rest with
      | none => false
      | some next =>
        next.startsStatement &&
          match d.kind with
          | some .declare => !(next.firstKeyword = some .DECLARE && !next.definesCursor)
          | some .cursor =>
            !(last.definesCursor && !last.hasKeyword .SELECT && next.firstKeyword = some .SELECT)
          | some .complex =>
            !(d.tally.awaitsRows &&
              (next.firstKeyword = some .SELECT || next.firstKeyword = some .EXEC ||
                next.firstKeyword = some .EXECUTE))
          | some .withStatement => d.tally.hasMain
          | _ => true)

/-! ## Blocks -/

def blocksFrom (d : Draft) : List Stretch → List Block
  | [] => d.block?.toList
  | s :: ss =>
    match s.opening with
    | .blank => if d.lines = [] then blocksFrom d ss else blocksFrom (d.push s.lines) ss
    | .lineComment =>
      if d.kind = some .commentGroup || d.keepsComment ss then blocksFrom (d.push s.lines) ss
      else d.block?.toList ++ blocksFrom (Draft.push { kind := some .commentGroup } s.lines) ss
    | .comment =>
      if d.kind.any (fun k => !k.isComment) && d.keepsComment ss then blocksFrom (d.push s.lines) ss
      else
        d.block?.toList ++ ⟨.comment, joinLines (s.lines.map Line.text)⟩ :: blocksFrom {} ss
    | .openComment =>
      d.block?.toList ++
        (Draft.push { kind := some .generic } ((s :: ss).flatMap Stretch.lines)).block?.toList
    | .code classified _ =>
      let isNote := d.kind = some .commentGroup
      let before := if isNote then d.block?.toList else []
      let d := if isNote then {} else d
      let d := { d with kind := some (d.kind.getD classified.classify) }
      let d := d.push s.lines
      before ++
        if d.isComplete s.last ss then d.block?.toList ++ blocksFrom {} ss else blocksFrom d ss

def segment (script : Text) : List Block :=
  blocksFrom {} (stretches (lines (tokenize (unifyNewlines script))))

end SqlLayout
