import SqlLayout.Script
import SqlLayout.Proofs.Checked.Segment
import SqlLayout.Proofs.Checked.With

/-!
# Scripts

The whole of `format` with operations that have bounds. None of them leaves
its bounds, whatever the script, so a script is always formatted
(`format_eq_ok`). The numbers in the options, and what is counted from them,
have no bound here: indents and pads beyond a machine word are left out.
-/

namespace SqlLayout.Checked

def canonical (sql : Text) : Run (List Text) := do return (← lex sql).filterMap Token.canonical?

def checkPreserved (before after : Text) : Run (Except Fault Unit) := do
  match firstDifference (sorted (← canonical before)) (sorted (← canonical after)) with
  | none => return .ok ()
  | some t => return .error (.lostToken t)

def layOut (b : Block) (lines : Run (Except Fault (List Text))) : Run (Except Fault Text) :=
  andThen lines fun lines =>
    andThen (checkPreserved b.content (joinLines lines)) fun _ => .ok (.ok (joinLines lines))

def formatBlock (o : Options) (b : Block) : Run (Except Fault Text) :=
  match b.kind with
  | .comment | .commentGroup => .ok (.ok b.content)
  | .select => layOut b (formatSelect o b.content)
  | .withStatement => layOut b (formatWith o b.content)
  | .cursor | .declare | .complex | .generic => do return .ok (← recaseText o b.content)

def printBlock (o : Options) (b : Block) : Run Printed := do
  match ← formatBlock o b with
  | .ok output => return { kind := b.kind, output, standalone := b.isStandalone }
  | .error f =>
    return { kind := b.kind, output := ← recaseText o b.content, fallback := some f, standalone := b.isStandalone }

def printScript (o : Options) (script : Text) : Run (List Printed) := do (← segment script).mapM (printBlock o)

def renderRound (o : Options) (bs : List Printed) (out : Text) (n : Nat) (b : Printed) : Run (Round Text Text) := do
  if 0 < n then
    let above ← elem bs (← minus n 1)
    return .next (out ++ List.replicate (blanksBetween o above b + 1) '\n' ++ b.output) (n + 1)
  else return .next (out ++ b.output) (n + 1)

def render (o : Options) (bs : List Printed) : Run Text := walk bs (renderRound o bs) .ok [] 0

def format (o : Options) (script : Text) : Run Text :=
  if isBlankText script then .ok script
  else do
    let output ← render o (← printScript o script)
    if isBlankText output then return script
    else if script.getLast? = some '\n' && output.getLast? ≠ some '\n' then return output ++ ['\n']
    else return output

/-! ## One block -/

theorem checkPreserved_eq (before after : Text) :
    checkPreserved before after = .ok (SqlLayout.checkPreserved before after) := by
  simp only [checkPreserved, SqlLayout.checkPreserved, canonical, SqlLayout.canonical, lex_eq, ok_bind, pure_eq_ok]
  cases firstDifference (sorted ((tokenize before).filterMap _)) (sorted ((tokenize after).filterMap _)) <;> rfl

theorem layOut_eq (b : Block) (lines : Except Fault (List Text)) :
    layOut b (.ok lines) = .ok (do
      let output := joinLines (← lines)
      SqlLayout.checkPreserved b.content output
      return output) := by
  cases lines with
  | error f => rfl
  | ok lines =>
    simp only [layOut, andThen, ok_bind, checkPreserved_eq]
    change _ = Except.ok ((SqlLayout.checkPreserved b.content (joinLines lines)).bind fun _ => .ok (joinLines lines))
    cases SqlLayout.checkPreserved b.content (joinLines lines) <;> rfl

theorem formatBlock_eq (o : Options) (b : Block) : formatBlock o b = .ok (b.format o) := by
  obtain ⟨kind, content⟩ := b
  cases kind with
  | select => rw [formatBlock, formatSelect_eq, layOut_eq]; rfl
  | withStatement => rw [formatBlock, formatWith_eq, layOut_eq]; rfl
  | comment | commentGroup => rfl
  | _ => rw [formatBlock, recaseText_eq]; rfl

theorem printBlock_eq (o : Options) (b : Block) : printBlock o b = .ok (b.print o) := by
  rw [printBlock, formatBlock_eq, ok_bind, Block.print]
  cases b.format o with
  | ok output => rfl
  | error f => simp only [recaseText_eq, ok_bind, pure_eq_ok]

theorem printScript_eq (o : Options) (script : Text) : printScript o script = .ok (SqlLayout.printScript o script) := by
  rw [printScript, segment_eq_ok, ok_bind]
  exact mapM_eq_ok fun b _ => printBlock_eq o b

/-! ## The whole script -/

theorem walk_render (o : Options) {bs front back : List Printed} {b : Printed} (e : bs = front ++ b :: back) (out : Text) :
    walk bs (renderRound o bs) .ok (out ++ b.output) (front.length + 1) = .ok (out ++ SqlLayout.render o (b :: back)) := by
  induction back generalizing front b out with
  | nil => exact walk_end (by simp [e])
  | cons c back ih =>
    have habove : elem bs front.length = .ok b := by rw [e, elem_append]
    have hround : renderRound o bs (out ++ b.output) (front.length + 1) c =
        .ok (.next (out ++ b.output ++ List.replicate (blanksBetween o b c + 1) '\n' ++ c.output) (front.length + 1 + 1)) := by
      rw [renderRound, if_pos (Nat.succ_pos _), minus_of_le (Nat.le_add_left 1 _), ok_bind, Nat.add_sub_cancel, habove]
      rfl
    have ih := ih (show bs = (front ++ [b]) ++ c :: back by rw [e]; simp)
      (out ++ b.output ++ List.replicate (blanksBetween o b c + 1) '\n')
    rw [List.length_append, List.length_singleton] at ih
    rw [walk_next (x := c) (by simp [e]) hround (Nat.lt_succ_self _), ih, SqlLayout.render]
    simp

theorem render_eq (o : Options) (bs : List Printed) : render o bs = .ok (SqlLayout.render o bs) := by
  cases bs with
  | nil => exact walk_end (Nat.le_refl _)
  | cons b bs =>
    rw [render, walk_next (x := b) rfl rfl Nat.zero_lt_one]
    exact walk_render o (List.nil_append _).symm []

/-- No slice, index or difference leaves its bounds and every loop ends,
whatever the script, for options whose numbers are taken as unbounded. -/
theorem format_eq_ok (o : Options) (script : Text) : format o script = .ok (SqlLayout.format o script) := by
  rw [format, SqlLayout.format, printScript_eq, ok_bind, render_eq, ok_bind]
  simp only [pure_eq_ok]
  repeat' split
  all_goals rfl

end SqlLayout.Checked
