import SqlLayout.Proofs.Endings
import SqlLayout.Proofs.Checked.Drafts

/-!
# Segmentation by line index

The script is cut line by line. A code line whose token runs on into the next
line is taken alone, and nothing is decided before the last line of its
stretch (`walk_code`); a block comment is followed to the line on which the
stretch ends. So the walk over the lines cuts where the stretches do
(`segment_eq_ok`).
-/

namespace SqlLayout.Checked

/-! ## Looking ahead -/

def Page.runsOn (p : Page) (i : Nat) : Bool := (p.rows[i + 1]?).any Row.continued

def codeRound (p : Page) (_ : Unit) (j : Nat) (_ : Row) : Run (Round Unit (Option Line)) := do
  match ← p.startAt j with
  | .blank | .lineComment => return .next () (j + 1)
  | .comment last false => return .next () (last + 1)
  | .openComment => return .stop none
  | _ => return .stop (some (← p.line j))

def Page.codeLineFrom (p : Page) (i : Nat) : Run (Option Line) := walk p.rows (codeRound p) (fun _ => .ok none) () i

def Page.keepsComment (p : Page) (d : Draft) (i : Nat) : Run Bool := do
  if d.tally.isStatement then return true
  else
    match ← p.codeLineFrom (i + 1) with
    | none => return false
    | some next => return next.continuesStatement || !next.startsStatement

def Page.isComplete (p : Page) (d : Draft) (i : Nat) : Run Bool := do
  let l ← p.line i
  if p.runsOn i then return false
  else if l.endsInSemicolon then return true
  else if d.tally.needsMore then return false
  else
    match ← p.codeLineFrom (i + 1) with
    | none => return false
    | some next =>
      if !next.startsStatement then return false
      else
        match d.kind with
        | some .declare => return !(next.firstKeyword = some .DECLARE && !(← definesCursor next))
        | some .cursor =>
          return !((← definesCursor l) && !l.hasKeyword .SELECT && next.firstKeyword = some .SELECT)
        | some .complex =>
          return !(d.tally.awaitsRows &&
            (next.firstKeyword = some .SELECT || next.firstKeyword = some .EXEC || next.firstKeyword = some .EXECUTE))
        | some .withStatement => return d.tally.hasMain
        | _ => return true

/-! ## The walk over the lines -/

structure Segmenter where
  draft : Draft := {}
  blocks : List Block := []

def flush (x : Segmenter) : Run Segmenter := do return { blocks := x.blocks ++ (← blockOf x.draft).toList }

namespace Page

def begin (p : Page) (x : Segmenter) (i : Nat) : Run Segmenter := do
  let x ← if x.draft.kind = some .commentGroup then flush x else pure x
  if x.draft.kind.isNone then return { x with draft.kind := some (← classify (← p.line i)) }
  else return x

def take (p : Page) (x : Segmenter) (i j : Nat) : Run Segmenter := do
  return { x with draft := ← p.append x.draft i j }

def finish (p : Page) (x : Segmenter) (i : Nat) : Run Segmenter := do
  if ← p.isComplete x.draft i then flush x else return x

def codeLine (p : Page) (x : Segmenter) (i : Nat) : Run Segmenter := do
  let x ← p.begin x i
  let x ← p.take x i (i + 1)
  p.finish x i

def lineComment (p : Page) (x : Segmenter) (i : Nat) : Run Segmenter := do
  if x.draft.kind = some .commentGroup then p.take x i (i + 1)
  else if ← p.keepsComment x.draft i then p.take x i (i + 1)
  else
    let x ← flush x
    p.take { x with draft.kind := some .commentGroup } i (i + 1)

def endRound (p : Page) (after : Bool) (i : Nat) (_ : Row) : Run (Round Bool (Nat × Bool)) :=
  .ok (if p.runsOn i then .next true (i + 1) else .stop (i, after))

/-- The line on which the tokens of line `i` end, and whether there is code
behind a comment that ends on line `i`. -/
def endFrom (p : Page) (i : Nat) (after : Bool) : Run (Nat × Bool) :=
  walk p.rows p.endRound (fun _ => .error .index) after i

def blockComment (p : Page) (x : Segmenter) (i last : Nat) (after : Bool) : Run (Segmenter × Nat) := do
  let (last, after) ← p.endFrom last after
  if after then
    let x ← p.begin x last
    let x ← p.take x i (last + 1)
    return (← p.finish x last, last + 1)
  else if ← (if x.draft.kind.any (fun k => !k.isComment) then p.keepsComment x.draft last else pure false) then
    return (← p.take x i (last + 1), last + 1)
  else
    let x ← flush x
    return ({ x with blocks := x.blocks ++ [⟨.comment, joinLines (← p.texts i (last + 1))⟩] }, last + 1)

def remainder (p : Page) (x : Segmenter) (i : Nat) : Run (List Block) := do
  let x ← flush x
  let x ← p.take x i p.rows.length
  return (← flush { x with draft.kind := some .generic }).blocks

def round (p : Page) (x : Segmenter) (i : Nat) (_ : Row) : Run (Round Segmenter (List Block)) := do
  match ← p.startAt i with
  | .blank =>
    if x.draft.lines = [] then return .next x (i + 1)
    else return .next (← p.take x i (i + 1)) (i + 1)
  | .lineComment => return .next (← p.lineComment x i) (i + 1)
  | .comment last after => do
    let (x, j) ← p.blockComment x i last after
    return .next x j
  | .openComment => return .stop (← p.remainder x i)
  | .code | .continued => return .next (← p.codeLine x i) (i + 1)

def walkLines (p : Page) (x : Segmenter) (i : Nat) : Run (List Block) :=
  walk p.rows p.round (fun x => do return (← flush x).blocks) x i

end Page

def segment (script : Text) : Run (List Block) := do (← Page.ofText (unifyNewlines script)).walkLines {} 0

/-! ## What lies ahead -/

section
variable {s : Text} {above below : List Line} {l : Line}

theorem getElem?_rows (e : lines (tokenize s) = above ++ l :: below) :
    ∃ r, (pageOf s).rows[above.length]? = some r ∧ r.continued = l.continued := ⟨_, row_append e, rfl⟩

theorem length_rows (s : Text) : (pageOf s).rows.length = (lines (tokenize s)).length := length_place 0 0 _

theorem runsOn_eq (e : lines (tokenize s) = above ++ l :: below) :
    (pageOf s).runsOn above.length = below.head?.any Line.continued := by
  cases below with
  | nil =>
    have hnone : (pageOf s).rows[above.length + 1]? = none :=
      List.getElem?_eq_none (by rw [length_rows, e]; simp)
    rw [Page.runsOn, hnone]; rfl
  | cons m below =>
    obtain ⟨r, hr, hcontinued⟩ := getElem?_rows (show lines (tokenize s) = (above ++ [l]) ++ m :: below by rw [e]; simp)
    rw [List.length_append, List.length_singleton] at hr
    rw [Page.runsOn, hr]
    exact hcontinued

theorem startAt_continued (e : lines (tokenize s) = above ++ l :: below) (hl : l.continued) :
    (pageOf s).startAt above.length = .ok .continued := by
  rw [Page.startAt, elem_of_getElem? (row_append e), ok_bind, if_pos hl]; rfl

theorem split_of_getElem? {α : Type} {l : List α} {n : Nat} {x : α} (h : l[n]? = some x) :
    ∃ a b, l = a ++ x :: b ∧ a.length = n := by
  obtain ⟨hn, hx⟩ := List.getElem?_eq_some_iff.mp h
  exact ⟨l.take n, l.drop (n + 1), by rw [← hx, ← List.drop_eq_getElem_cons hn, List.take_append_drop],
    List.length_take_of_le hn.le⟩

def Fresh (ls : List Line) : Prop := ∀ l ∈ ls.head?, l.continued = false

theorem fresh_dropWhile (ls : List Line) : Fresh (ls.dropWhile Line.continued) := fun l hl => by
  have := List.head?_dropWhile_not Line.continued ls
  rw [Option.mem_def.mp hl] at this
  simpa using this

theorem Fresh.any {ls : List Line} (h : Fresh ls) : ls.head?.any Line.continued = false := by
  cases hl : ls.head? with
  | none => rfl
  | some l => simpa using h l hl

theorem mem_stretches (e : lines (tokenize s) = above ++ l :: below) (hl : l.continued = false) :
    ⟨l, below.takeWhile Line.continued⟩ ∈ stretches (lines (tokenize s)) := by
  rw [e, stretches_append above hl, stretches_cons]; simp

theorem more_blank (e : lines (tokenize s) = above ++ l :: below) (hl : l.continued = false)
    (h : Stretch.opening ⟨l, below.takeWhile Line.continued⟩ = .blank) : below.takeWhile Line.continued = [] := by
  have hordered := ordered_tokenize s _ (mem_stretches e hl)
  exact not_not.mp (mt hordered.goesOn (Line.IsIdle.not_goesOn ⟨hl, Stretch.opening_blank h⟩))

theorem more_lineComment (e : lines (tokenize s) = above ++ l :: below) (hl : l.continued = false)
    (h : Stretch.opening ⟨l, below.takeWhile Line.continued⟩ = .lineComment) : below.takeWhile Line.continued = [] := by
  have hmem : l ∈ lines (tokenize s) := by simp [e]
  have hformed (t : Token) (ht : t ∈ l.tokens) : t.Formed := formed_of_mem (s := s) <| by
    rw [← tokensOf_lines (tokenize s)]
    exact List.mem_flatMap.mpr ⟨l, hmem, ht⟩
  exact (Stretch.tokens_of_lineComment (ordered_tokenize s _ (mem_stretches e hl)) (neat_lines (legible_tokenize s) l hmem)
    hformed h).1

end

theorem codeLineFrom_eq {s : Text} {above ls : List Line} (e : lines (tokenize s) = above ++ ls) (h : Fresh ls) :
    (pageOf s).codeLineFrom above.length = .ok (nextCodeLine (stretches ls)) := by
  rw [Page.codeLineFrom]
  fun_induction stretches ls generalizing above with
  | case1 => exact walk_end (by rw [length_rows, e, List.append_nil])
  | case2 l ls ih =>
    have hl : l.continued = false := h l rfl
    obtain ⟨row, hrow, -⟩ := getElem?_rows e
    obtain ⟨r, hr, hstarts⟩ := startAt_starts e hl
    have hbehind : lines (tokenize s) = (above ++ l :: ls.takeWhile Line.continued) ++ ls.dropWhile Line.continued := by
      rw [e, List.append_assoc, List.cons_append, List.takeWhile_append_dropWhile]
    have ih := ih hbehind (fresh_dropWhile ls)
    rw [List.length_append, List.length_cons] at ih
    rw [nextCodeLine]
    generalize ho : Stretch.opening ⟨l, ls.takeWhile Line.continued⟩ = opening at hstarts
    cases hstarts with
    | blank =>
      rw [more_blank e hl ho] at ih
      rw [walk_next hrow (by rw [codeRound, hr]; rfl) (Nat.lt_succ_self _)]
      exact ih
    | lineComment =>
      rw [more_lineComment e hl ho] at ih
      rw [walk_next hrow (by rw [codeRound, hr]; rfl) (Nat.lt_succ_self _)]
      exact ih
    | openComment => exact walk_stop hrow (by rw [codeRound, hr]; rfl)
    | comment =>
      rw [walk_next hrow (by rw [codeRound, hr]; rfl) (by simp)]
      exact ih
    | code => exact walk_stop hrow (by rw [codeRound, hr, ok_bind, line_append e]; rfl)
    | mixed => exact walk_stop hrow (by rw [codeRound, hr, ok_bind, line_append e]; rfl)
    | @behind n k hk =>
      obtain ⟨a, b, hsplit, ha⟩ := split_of_getElem? hk
      simp only at hsplit
      have hk : k.continued := List.mem_takeWhile_imp (hsplit ▸ List.mem_append_right a List.mem_cons_self)
      have e' : lines (tokenize s) = (above ++ l :: a) ++ k :: (b ++ ls.dropWhile Line.continued) := by
        rw [hbehind, hsplit]; simp
      have hindex : (above ++ l :: a).length = above.length + n + 1 := by simp [ha]; omega
      obtain ⟨row', hrow', -⟩ := getElem?_rows e'
      have hcontinued := startAt_continued e' hk
      have hline := line_append e'
      rw [hindex] at hrow' hcontinued hline
      rw [walk_next hrow (by rw [codeRound, hr]; rfl) (by omega)]
      exact walk_stop hrow' (by rw [codeRound, hcontinued, ok_bind, hline]; rfl)

section
variable {s : Text} {above below : List Line} {l : Line}

theorem keepsComment_eq (e : lines (tokenize s) = above ++ l :: below) (h : Fresh below) (d : Draft) :
    (pageOf s).keepsComment d above.length = .ok (d.keepsComment (stretches below)) := by
  have hnext := codeLineFrom_eq (show lines (tokenize s) = (above ++ [l]) ++ below by rw [e]; simp) h
  rw [List.length_append, List.length_singleton] at hnext
  simp only [Page.keepsComment, Draft.keepsComment, hnext, ok_bind, pure_eq_ok]
  cases d.tally.isStatement with
  | true => rfl
  | false => cases nextCodeLine (stretches below) <;> rfl

theorem isComplete_eq (e : lines (tokenize s) = above ++ l :: below) (h : Fresh below) (d : Draft) :
    (pageOf s).isComplete d above.length = .ok (d.isComplete l (stretches below)) := by
  have hnext := codeLineFrom_eq (show lines (tokenize s) = (above ++ [l]) ++ below by rw [e]; simp) h
  rw [List.length_append, List.length_singleton] at hnext
  simp only [Page.isComplete, Draft.isComplete, line_append e, runsOn_eq e, h.any, hnext, definesCursor_eq, ok_bind,
    pure_eq_ok]
  cases l.endsInSemicolon with
  | true => rfl
  | false =>
    cases d.tally.needsMore with
    | true => rfl
    | false =>
      cases nextCodeLine (stretches below) with
      | none => rfl
      | some next =>
        cases hstarts : next.startsStatement with
        | false => simp [hstarts]
        | true =>
          simp only [hstarts]
          cases d.kind with
          | none => rfl
          | some k => cases k <;> rfl

/-- Nothing is complete inside a token. -/
theorem isComplete_inside {m : Line} (e : lines (tokenize s) = above ++ l :: m :: below) (hm : m.continued) (d : Draft) :
    (pageOf s).isComplete d above.length = .ok false := by
  have hruns : (pageOf s).runsOn above.length = true := by rw [runsOn_eq e]; exact hm
  simp only [Page.isComplete, line_append e, ok_bind, hruns]
  rfl

end

/-! ## What a line does -/

namespace Segmenter

def flushed (y : Segmenter) : Segmenter := { blocks := y.blocks ++ y.draft.block?.toList }

def begun (y : Segmenter) (l : Line) : Segmenter :=
  let y := if y.draft.kind = some .commentGroup then y.flushed else y
  { y with draft.kind := some (y.draft.kind.getD l.classify) }

def pushed (y : Segmenter) (ls : List Line) : Segmenter := { y with draft := y.draft.push ls }

def finished (y : Segmenter) (last : Line) (rest : List Stretch) : Segmenter :=
  if y.draft.isComplete last rest then y.flushed else y

/-- A block comment, `after` which code stands on the last line of the stretch. -/
def commented (y : Segmenter) (x : Stretch) (after : Bool) (rest : List Stretch) : Segmenter :=
  if after then ((y.begun x.last).pushed x.lines).finished x.last rest
  else if y.draft.kind.any (fun k => !k.isComment) && y.draft.keepsComment rest then y.pushed x.lines
  else { y.flushed with blocks := y.flushed.blocks ++ [⟨.comment, joinLines (x.lines.map Line.text)⟩] }

def all (y : Segmenter) (ss : List Stretch) : List Block := y.blocks ++ blocksFrom y.draft ss

theorem flush_eq (y : Segmenter) : flush y = .ok y.flushed := by rw [flush, blockOf_eq]; rfl

@[simp] theorem all_nil (y : Segmenter) : y.all [] = y.flushed.blocks := by rw [all, blocksFrom]; rfl

theorem begun_note {y : Segmenter} (h : y.draft.kind = some .commentGroup) (l : Line) :
    y.begun l = { draft.kind := some l.classify, blocks := y.blocks ++ y.draft.block?.toList } := by
  rw [begun, if_pos h]; rfl

theorem begun_other {y : Segmenter} (h : y.draft.kind ≠ some .commentGroup) (l : Line) :
    y.begun l = { y with draft.kind := some (y.draft.kind.getD l.classify) } := by
  rw [begun, if_neg h]

theorem begun_pushed (y : Segmenter) (l : Line) (ls : List Line) (m : Line) :
    ((y.begun l).pushed ls).begun m = (y.begun l).pushed ls := by
  have hkind : ∃ k, ((y.begun l).pushed ls).draft.kind = some k ∧ k ≠ .commentGroup := by
    by_cases hk : y.draft.kind = some .commentGroup
    · refine ⟨l.classify, by rw [begun_note hk]; rfl, fun h => ?_⟩
      have := l.isComment_classify
      rw [h] at this; cases this
    · exact ⟨_, by rw [begun_other hk]; rfl, fun h => kind_ne_comment rfl hk l (congrArg some h)⟩
  generalize (y.begun l).pushed ls = z at hkind
  obtain ⟨k, hz, hk⟩ := hkind
  rw [begun_other (by rw [hz]; exact fun h => hk (Option.some.inj h)), hz, Option.getD_some, ← hz]

theorem pushed_pushed (y : Segmenter) (ls ms : List Line) : (y.pushed ls).pushed ms = y.pushed (ls ++ ms) := by
  simp only [pushed, Draft.push_push]

theorem all_finished (y : Segmenter) (last : Line) (ss : List Stretch) :
    (y.finished last ss).all ss = y.blocks ++
      if y.draft.isComplete last ss then y.draft.block?.toList ++ blocksFrom {} ss else blocksFrom y.draft ss := by
  rw [finished]
  split
  · simp only [all, flushed, List.append_assoc]
  · rfl

theorem all_code {x : Stretch} {c f : Line} (h : x.opening = .code c f) (y : Segmenter) (ss : List Stretch) :
    y.all (x :: ss) = (((y.begun c).pushed x.lines).finished x.last ss).all ss := by
  rw [all_finished]
  by_cases hk : y.draft.kind = some .commentGroup
  · simp only [begun_note hk, all, blocksFrom, h, hk, pushed, if_true, List.append_assoc]; rfl
  · simp only [begun_other hk, all, blocksFrom, h, hk, pushed, if_false]; rfl

theorem all_blank {x : Stretch} (h : x.opening = .blank) (y : Segmenter) (ss : List Stretch) :
    y.all (x :: ss) = (if y.draft.lines = [] then y else y.pushed x.lines).all ss := by
  simp only [all, blocksFrom, h]
  split <;> rfl

theorem all_lineComment {x : Stretch} (h : x.opening = .lineComment) (y : Segmenter) (ss : List Stretch) :
    y.all (x :: ss) = (if y.draft.kind = some .commentGroup || y.draft.keepsComment ss then y.pushed x.lines
      else { y.flushed with draft.kind := some .commentGroup }.pushed x.lines).all ss := by
  simp only [all, blocksFrom, h]
  split
  · rfl
  · exact (List.append_assoc ..).symm

theorem all_comment {x : Stretch} (h : x.opening = .comment) (y : Segmenter) (ss : List Stretch) :
    y.all (x :: ss) = (y.commented x false ss).all ss := by
  rw [commented, if_neg Bool.false_ne_true]
  simp only [all, blocksFrom, h]
  split
  · rfl
  · simp only [flushed, List.append_assoc]; rfl

end Segmenter

section
variable {s : Text} {above below : List Line} {l : Line} (y : Segmenter)

theorem take_eq {ls : List Line} (e : lines (tokenize s) = above ++ ls ++ below) :
    (pageOf s).take y above.length (above ++ ls).length = .ok (y.pushed ls) := by
  rw [Page.take, append_eq e]; rfl

theorem take_line (e : lines (tokenize s) = above ++ l :: below) :
    (pageOf s).take y above.length (above.length + 1) = .ok (y.pushed [l]) := by
  have h := take_eq y (show lines (tokenize s) = above ++ [l] ++ below by rw [e]; simp)
  rwa [List.length_append, List.length_singleton] at h

theorem begin_eq (e : lines (tokenize s) = above ++ l :: below) :
    (pageOf s).begin y above.length = .ok (y.begun l) := by
  by_cases hk : y.draft.kind = some .commentGroup
  · simp only [Page.begin, hk, if_true, y.flush_eq, line_append e, classify_eq, ok_bind, pure_eq_ok, Segmenter.begun_note hk]
    rfl
  · simp only [Page.begin, hk, if_false, line_append e, classify_eq, ok_bind, pure_eq_ok, Segmenter.begun_other hk]
    obtain ⟨⟨_, kind, _⟩, _⟩ := y
    cases kind <;> rfl

theorem finish_eq (e : lines (tokenize s) = above ++ l :: below) (h : Fresh below) :
    (pageOf s).finish y above.length = .ok (y.finished l (stretches below)) := by
  rw [Page.finish, isComplete_eq e h, ok_bind, y.flush_eq, Segmenter.finished]
  split <;> rfl

theorem codeLine_eq (e : lines (tokenize s) = above ++ l :: below) (h : Fresh below) :
    (pageOf s).codeLine y above.length = .ok (((y.begun l).pushed [l]).finished l (stretches below)) := by
  rw [Page.codeLine, begin_eq y e, ok_bind, take_line _ e, ok_bind, finish_eq _ e h]

theorem codeLine_inside {m : Line} (e : lines (tokenize s) = above ++ l :: m :: below) (hm : m.continued) :
    (pageOf s).codeLine y above.length = .ok ((y.begun l).pushed [l]) := by
  rw [Page.codeLine, begin_eq y e, ok_bind, take_line _ e, ok_bind, Page.finish, isComplete_inside e hm]; rfl

theorem lineComment_eq (e : lines (tokenize s) = above ++ l :: below) (h : Fresh below) :
    (pageOf s).lineComment y above.length = .ok
      (if y.draft.kind = some .commentGroup || y.draft.keepsComment (stretches below) then y.pushed [l]
      else { y.flushed with draft.kind := some .commentGroup }.pushed [l]) := by
  simp only [Page.lineComment, take_line _ e, keepsComment_eq e h, y.flush_eq, ok_bind]
  by_cases hk : y.draft.kind = some .commentGroup
  · simp [hk]
  · cases y.draft.keepsComment (stretches below) <;> simp [hk]

theorem remainder_eq {ls : List Line} (e : lines (tokenize s) = above ++ ls) :
    (pageOf s).remainder y above.length =
      .ok (y.blocks ++ (y.draft.block?.toList ++ (Draft.push { kind := some .generic } ls).block?.toList)) := by
  have htake := take_eq y.flushed (show lines (tokenize s) = above ++ ls ++ [] by rw [e, List.append_nil])
  rw [← e, ← length_rows] at htake
  simp only [Page.remainder, y.flush_eq, ok_bind, htake, Segmenter.flush_eq, pure_eq_ok]
  rw [← List.append_assoc]; rfl

/-! ## Stretches of lines -/

theorem walkLines_next {r : LineStart} (e : lines (tokenize s) = above ++ l :: below)
    (hr : (pageOf s).startAt above.length = .ok r) (hcode : r = .code ∨ r = .continued) {y' : Segmenter}
    (hy : (pageOf s).codeLine y above.length = .ok y') :
    (pageOf s).walkLines y above.length = (pageOf s).walkLines y' (above.length + 1) := by
  obtain ⟨row, hrow, -⟩ := getElem?_rows e
  refine walk_next hrow ?_ (Nat.lt_succ_self _)
  rw [Page.round, hr, ok_bind]
  rcases hcode with rfl | rfl <;> (simp only [hy, ok_bind, pure_eq_ok])

theorem walk_code {more : List Line} {r : LineStart} (e : lines (tokenize s) = above ++ l :: more ++ below)
    (hmore : ∀ m ∈ more, m.continued) (h : Fresh below) (hr : (pageOf s).startAt above.length = .ok r)
    (hcode : r = .code ∨ r = .continued) :
    (pageOf s).walkLines y above.length = (pageOf s).walkLines
      (((y.begun l).pushed (l :: more)).finished (more.getLastD l) (stretches below)) (above ++ l :: more).length := by
  induction more generalizing above l y r with
  | nil =>
    have e : lines (tokenize s) = above ++ l :: below := by rw [e]; simp
    rw [walkLines_next y e hr hcode (codeLine_eq y e h), List.length_append]; rfl
  | cons m more ih =>
    obtain ⟨hm, hmore⟩ := List.forall_mem_cons.mp hmore
    have e₁ : lines (tokenize s) = above ++ l :: m :: (more ++ below) := by rw [e]; simp
    have e₂ : lines (tokenize s) = (above ++ [l]) ++ m :: more ++ below := by rw [e]; simp
    have hnext := startAt_continued (show lines (tokenize s) = (above ++ [l]) ++ m :: (more ++ below) by rw [e₂]; simp) hm
    have ih := ih ((y.begun l).pushed [l]) e₂ hmore hnext (.inr rfl)
    rw [Segmenter.begun_pushed, Segmenter.pushed_pushed, List.length_append, List.length_singleton] at ih
    rw [walkLines_next y e₁ hr hcode (codeLine_inside y e₁ hm), ih, List.getLastD_cons]
    simp

end

/-- The line `n` of a stretch runs on unless it is the last one. -/
theorem runsOn_stretch {s : Text} {above below more : List Line} {l : Line}
    (e : lines (tokenize s) = above ++ l :: more ++ below) (hmore : ∀ m ∈ more, m.continued) (h : Fresh below) {n : Nat}
    (hn : n ≤ more.length) : (pageOf s).runsOn (above.length + n) = decide (n < more.length) := by
  have hlt : n < (l :: more).length := Nat.lt_succ_of_le hn
  obtain ⟨k, hk⟩ : ∃ k, (l :: more)[n]? = some k := ⟨_, List.getElem?_eq_getElem hlt⟩
  obtain ⟨a, b, hsplit, ha⟩ := split_of_getElem? hk
  have hlength : (l :: more).length = n + b.length + 1 := by rw [hsplit, List.length_append, List.length_cons, ha]; omega
  rw [List.length_cons] at hlength
  have hruns := runsOn_eq (show lines (tokenize s) = (above ++ a) ++ k :: (b ++ below) by rw [e, hsplit]; simp)
  rw [List.length_append, ha] at hruns
  rw [hruns]
  cases b with
  | nil => rw [List.nil_append, h.any, decide_eq_false (by simp at hlength; omega)]
  | cons m b =>
    have hm : m ∈ more := by
      cases a with
      | nil => rw [(List.cons.inj hsplit).2]; exact List.mem_cons_self
      | cons j a => rw [(List.cons.inj hsplit).2]; simp
    rw [decide_eq_true (by simp at hlength; omega)]
    exact hmore m hm

theorem endFrom_eq {s : Text} {above below more : List Line} {l : Line}
    (e : lines (tokenize s) = above ++ l :: more ++ below) (hmore : ∀ m ∈ more, m.continued) (h : Fresh below) {n : Nat}
    (hn : n ≤ more.length) (after : Bool) :
    (pageOf s).endFrom (above.length + n) after = .ok (above.length + more.length, after || decide (n < more.length)) := by
  have hruns := runsOn_stretch e hmore h hn
  obtain ⟨row, hrow⟩ : ∃ row, (pageOf s).rows[above.length + n]? = some row :=
    ⟨_, List.getElem?_eq_getElem (by rw [length_rows, e]; simp; omega)⟩
  induction hk : more.length - n generalizing n after row with
  | zero =>
    obtain rfl : n = more.length := by omega
    rw [Page.endFrom, walk_stop hrow (by rw [Page.endRound, hruns, if_neg (by simp)])]; simp
  | succ k ih =>
    have hlt : n < more.length := by omega
    obtain ⟨row', hrow'⟩ : ∃ row, (pageOf s).rows[above.length + (n + 1)]? = some row :=
      ⟨_, List.getElem?_eq_getElem (by rw [length_rows, e]; simp; omega)⟩
    have ih := ih hlt true (runsOn_stretch e hmore h hlt) row' hrow' (by omega)
    rw [Page.endFrom, walk_next hrow (by rw [Page.endRound, hruns, if_pos (decide_eq_true hlt)]) (Nat.lt_succ_self _)]
    rw [Page.endFrom] at ih
    exact ih.trans (by simp [hlt])

section
variable {s : Text} {above below : List Line} {x : Stretch}

theorem blockComment_eq (e : lines (tokenize s) = above ++ x.lines ++ below) (hmore : ∀ m ∈ x.more, m.continued)
    (h : Fresh below) {n : Nat} (hn : n ≤ x.more.length) (after : Bool) (y : Segmenter) :
    (pageOf s).blockComment y above.length (above.length + n) after = .ok
      (y.commented x (after || n < x.more.length) (stretches below), (above ++ x.lines).length) := by
  obtain ⟨init, hinit⟩ := x.exists_last
  have hlength : init.length = x.more.length := by simpa [Stretch.lines] using (congrArg List.length hinit).symm
  have elast : lines (tokenize s) = (above ++ init) ++ x.last :: below := by rw [e, hinit]; simp
  have hindex : (above ++ init).length = above.length + x.more.length := by rw [List.length_append, hlength]
  have hend : (above ++ x.lines).length = above.length + x.more.length + 1 := by simp [Stretch.lines]; omega
  have htake (y : Segmenter) := take_eq y e
  have hbegin := begin_eq y elast
  have hfinish (y : Segmenter) := finish_eq y elast h
  have hkeeps := keepsComment_eq elast h y.draft
  have htexts := texts_eq e
  rw [hindex] at hbegin hfinish hkeeps
  rw [hend] at htake htexts ⊢
  rw [Page.blockComment, endFrom_eq e hmore h hn, ok_bind, Segmenter.commented]
  simp only
  split
  · simp only [hbegin, htake, hfinish, ok_bind, pure_eq_ok]
  · cases hk : y.draft.kind.any (fun k => !k.isComment) with
    | false => simp only [htexts, y.flush_eq, ok_bind, pure_eq_ok]; rfl
    | true =>
      cases hkeep : y.draft.keepsComment (stretches below) with
      | false => simp only [htexts, y.flush_eq, hkeeps, hkeep, ok_bind, pure_eq_ok]; rfl
      | true => simp only [htake, hkeeps, hkeep, ok_bind, pure_eq_ok]; rfl

theorem walk_comment (e : lines (tokenize s) = above ++ x.lines ++ below) (hmore : ∀ m ∈ x.more, m.continued)
    (h : Fresh below) {n : Nat} (hn : n ≤ x.more.length) {after : Bool}
    (hr : (pageOf s).startAt above.length = .ok (.comment (above.length + n) after)) (y : Segmenter) :
    (pageOf s).walkLines y above.length = (pageOf s).walkLines
      (y.commented x (after || n < x.more.length) (stretches below)) (above ++ x.lines).length := by
  obtain ⟨row, hrow, -⟩ := getElem?_rows (show lines (tokenize s) = above ++ x.first :: (x.more ++ below) by rw [e]; simp [Stretch.lines])
  refine walk_next hrow ?_ (by simp [Stretch.lines])
  rw [Page.round, hr, ok_bind]
  simp only [blockComment_eq e hmore h hn, ok_bind, pure_eq_ok]

end

theorem walkLines_eq {s : Text} {above ls : List Line} (e : lines (tokenize s) = above ++ ls) (h : Fresh ls) (y : Segmenter) :
    (pageOf s).walkLines y above.length = .ok (y.all (stretches ls)) := by
  fun_induction stretches ls generalizing above y with
  | case1 =>
    rw [Page.walkLines, walk_end (by rw [length_rows, e, List.append_nil]), y.flush_eq, Segmenter.all_nil]; rfl
  | case2 l ls ih =>
    have hl : l.continued = false := h l rfl
    have hbehind : lines (tokenize s) = (above ++ l :: ls.takeWhile Line.continued) ++ ls.dropWhile Line.continued := by
      rw [e, List.append_assoc, List.cons_append, List.takeWhile_append_dropWhile]
    have hfresh := fresh_dropWhile ls
    have ih := ih hbehind hfresh
    obtain ⟨row, hrow, -⟩ := getElem?_rows e
    obtain ⟨r, hr, hstarts⟩ := startAt_starts e hl
    have hmore : ∀ m ∈ ls.takeWhile Line.continued, m.continued := fun m => List.mem_takeWhile_imp
    generalize ho : Stretch.opening ⟨l, ls.takeWhile Line.continued⟩ = opening at hstarts
    cases hstarts with
    | blank =>
      have hnil := more_blank e hl ho
      rw [hnil, List.length_append, List.length_singleton] at ih
      have hround : (pageOf s).round y above.length row =
          .ok (.next (if y.draft.lines = [] then y else y.pushed [l]) (above.length + 1)) := by
        rw [Page.round, hr, ok_bind]
        simp only [take_line y e, ok_bind, pure_eq_ok]
        split <;> rfl
      rw [Page.walkLines, walk_next hrow hround (Nat.lt_succ_self _), Segmenter.all_blank ho, hnil]
      exact ih _
    | lineComment =>
      have hnil := more_lineComment e hl ho
      rw [hnil, List.length_append, List.length_singleton] at ih
      have hls : ls.dropWhile Line.continued = ls := by
        simpa [hnil] using List.takeWhile_append_dropWhile (p := Line.continued) (l := ls)
      have hround := lineComment_eq y e (hls ▸ hfresh)
      rw [Page.walkLines, walk_next hrow (by rw [Page.round, hr, ok_bind]; simp only [hround]; rfl) (Nat.lt_succ_self _),
        Segmenter.all_lineComment ho, hnil]
      exact (ih _).trans (by rw [hls]; rfl)
    | openComment =>
      rw [Page.walkLines, walk_stop hrow (by rw [Page.round, hr, ok_bind]; simp only [remainder_eq y e]; rfl),
        Segmenter.all, blocksFrom, ho]
      simp only [← stretches_cons, flatMap_stretches]
    | comment =>
      rw [walk_comment hbehind hmore hfresh (Nat.le_refl _) hr, Segmenter.all_comment ho,
        decide_eq_false (Nat.lt_irrefl _)]
      exact ih _
    | code => rw [walk_code y hbehind hmore hfresh hr (.inl rfl), ih, Segmenter.all_code ho]; rfl
    | mixed hn =>
      rw [walk_comment hbehind hmore hfresh hn hr, Segmenter.all_code ho]
      exact ih _
    | behind hk =>
      have hn := (List.getElem?_eq_some_iff.mp hk).1
      rw [walk_comment hbehind hmore hfresh hn.le hr, Segmenter.all_code ho, decide_eq_true hn]
      exact ih _

theorem segment_eq_ok (script : Text) : segment script = .ok (SqlLayout.segment script) := by
  obtain ⟨l, ls, e, hl⟩ := head_lines (tokenize (unifyNewlines script))
  rw [segment, ofText_eq, ok_bind]
  refine (walkLines_eq (List.nil_append _).symm ?_ {}).trans rfl
  rw [e]
  exact fun k hk => by simpa [← Option.some.inj hk] using hl

end SqlLayout.Checked
