import SqlLayout.Block.Segment
import SqlLayout.Preserve
import SqlLayout.With

/-!
# Scripts

A SELECT and a WITH statement are laid out anew; any other statement keeps
its lines and gets the letter case of its keywords changed. A block that
cannot be laid out, or would lose a token, is treated like those, and the
blocks around it do not notice.
-/

namespace SqlLayout

structure Printed where
  kind : BlockKind
  output : Text
  /-- Why the block kept its lines. -/
  fallback : Option Fault := none
  standalone : Bool := false
deriving DecidableEq

/-! ## One block -/

def Block.format (o : Options) (b : Block) : Except Fault Text :=
  let laidOut := fun lines : Except Fault (List Text) => do
    let output := joinLines (← lines)
    checkPreserved b.content output
    return output
  match b.kind with
  | .comment | .commentGroup => .ok b.content
  | .select => laidOut (selectLines o b.content)
  | .withStatement => laidOut (withLines o b.content)
  | .cursor | .declare | .complex | .generic => .ok (recase o b.content)

def Block.print (o : Options) (b : Block) : Printed :=
  match b.format o with
  | .ok output => { kind := b.kind, output, standalone := b.isStandalone }
  | .error f =>
    { kind := b.kind, output := recase o b.content, fallback := some f, standalone := b.isStandalone }

def printScript (o : Options) (script : Text) : List Printed := (segment script).map (·.print o)

/-! ## All blocks -/

/-- Blank lines between two blocks: the number the options ask for between
statements and around a comment about the script, one around any other
comment. -/
def blanksBetween (o : Options) (above below : Printed) : Nat :=
  let between := min o.linesBetween Options.maxLinesBetween
  match above.kind.isComment, below.kind.isComment with
  | false, false => between
  | true, false => if above.standalone then between else 1
  | false, true => if below.standalone then between else 1
  | true, true => 1

def render (o : Options) : List Printed → Text
  | [] => []
  | [b] => b.output
  | b :: c :: bs => b.output ++ List.replicate (blanksBetween o b c + 1) '\n' ++ render o (c :: bs)

/-- Formats a script. A blank one comes back as it is, and a newline at the
end stays. -/
def format (o : Options) (script : Text) : Text :=
  if isBlankText script then script
  else
    let output := render o (printScript o script)
    if isBlankText output then script
    else if script.getLast? = some '\n' && output.getLast? ≠ some '\n' then output ++ ['\n']
    else output

end SqlLayout
