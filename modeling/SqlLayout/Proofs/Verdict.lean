import SqlLayout.Proofs.Lossless
import SqlLayout.Proofs.Order

/-!
# The options do not decide whether a block is laid out

Without hard blanks the check for lost tokens finds what a layout loses by the
statement alone, so a block is laid out under all options or under none.
-/

namespace SqlLayout

/-- The check is passed when neither a token nor a hard blank is lost. -/
theorem Loses.checkPreserved_iff {k : Nat} {sql : Text} {lines : List Text} (h : Loses k (plainsOf sql) lines) :
    checkPreserved sql (joinLines lines) = .ok () ↔ k = 0 ∧ hardsIn lines = seen (plainsOf sql) := by
  constructor
  · intro hc
    have hkeeps := h.nears.keeps hc
    have hperm := checkPreserved_eq_ok.mp hc
    rw [canonical_eq, canonical_eq] at hperm
    have hseen := seen_plainsOf_le (joinLines lines)
    rw [hards_joinLines, hkeeps.seen_eq] at hseen
    rcases h with h | ⟨e, hf, hlen, -⟩
    · omega
    rw [plainsOf_joinLines hf] at hperm
    have := hperm.length_eq
    simp only [List.length_map] at this
    exact ⟨by omega, e⟩
  · rintro ⟨rfl, e⟩
    rcases h with h | ⟨-, hf, -, hk⟩
    · omega
    have hkeeps : Keeps 0 (plainsOf (joinLines lines)) (plainsOf sql) := plainsOf_joinLines hf ▸ hk rfl
    exact checkPreserved_eq_ok.mpr (by simpa using hkeeps.canonical_perm)

/-- What a block is laid out by, or not, if it has no hard blank. -/
def Block.fits (b : Block) : Bool :=
  match b.kind with
  | .select => isSelect b.content && droppedOf b.content = 0
  | .withStatement => isWith b.content && withLoss b.content = 0
  | _ => true

theorem isOk_laidOut {sql : Text} {k : Nat} {accepted : Bool} {r : Except Fault (List Text)} (hb : hards sql = 0)
    (hr : r.isOk = accepted) (hl : ∀ lines, r = .ok lines → Loses k (plainsOf sql) lines) :
    (do
      let output := joinLines (← r)
      checkPreserved sql output
      return output : Except Fault Text).isOk = (accepted && k = 0) := by
  subst hr
  cases r with
  | error f => rfl
  | ok lines =>
    have hc := (hl lines rfl).checkPreserved_iff
    have hseen := seen_plainsOf_le sql
    have hle := (hl lines rfl).hards_le
    rw [and_iff_left (show hardsIn lines = seen (plainsOf sql) by omega)] at hc
    change (checkPreserved sql (joinLines lines) >>= fun _ => Except.ok (joinLines lines)).isOk = decide (k = 0)
    cases e : checkPreserved sql (joinLines lines) with
    | error f => simpa [e, bind, Except.bind, Except.isOk, Except.toBool] using hc
    | ok u => simpa [e, bind, Except.bind, Except.isOk, Except.toBool] using hc

theorem Block.format_isOk (o : Options) (b : Block) (hb : hards b.content = 0) : (b.format o).isOk = b.fits := by
  unfold format fits
  cases b.kind with
  | select =>
    refine isOk_laidOut hb (selectLines_isOk o _) fun lines h => ?_
    exact sum_droppedCommas_listsOf o b.content ▸ (lays_selectLines h).loses
  | withStatement => exact isOk_laidOut hb (withLines_isOk o _) fun lines h => loses_withLines h
  | _ => rfl

theorem Block.orders_format {o : Options} {b : Block} {out : Text} (h : b.format o = .ok out) :
    codeOf out = codeOf b.content ∧ commentsOf out = commentsOf b.content := by
  have laidOut : b.kind = .select ∨ b.kind = .withStatement → codeOf out = codeOf b.content ∧ commentsOf out = commentsOf b.content := by
    intro hk
    have hkeeps := b.keeps_format hk h
    exact ⟨hkeeps.codeOf_eq, hkeeps.commentsOf_eq⟩
  cases hk : b.kind with
  | select => exact laidOut (Or.inl hk)
  | withStatement => exact laidOut (Or.inr hk)
  | comment | commentGroup =>
    simp only [format, hk, Except.ok.injEq] at h
    rw [h]
    exact ⟨rfl, rfl⟩
  | _ =>
    simp only [format, hk, Except.ok.injEq] at h
    rw [← h, codeOf_eq, commentsOf_eq, plainsOf_recase, ← codeOf_eq, ← commentsOf_eq]
    exact ⟨rfl, rfl⟩

theorem Block.fallback_print (o : Options) (b : Block) : (b.print o).fallback = none ↔ (b.format o).isOk := by
  unfold print
  cases b.format o with
  | error f => exact ⟨(nomatch ·), (nomatch ·)⟩
  | ok out => exact ⟨fun _ => rfl, fun _ => rfl⟩

/-- Two options records lay out the same blocks, and write the same code. -/
theorem format_independent_of_options (b : Block) (hb : ∀ c ∈ b.content, isBlank c → isSpaceChar c) (o o' : Options) :
    (b.format o).isOk = (b.format o').isOk ∧
      ((b.print o).fallback = none ↔ (b.print o').fallback = none) ∧
      ∀ out out', b.format o = .ok out → b.format o' = .ok out' → codeOf out = codeOf out' := by
  have h : (b.format o).isOk = (b.format o').isOk := by
    rw [b.format_isOk o (hards_of_space hb), b.format_isOk o' (hards_of_space hb)]
  refine ⟨h, ?_, fun out out' e e' => ?_⟩
  · rw [b.fallback_print, b.fallback_print, h]
  · rw [(Block.orders_format e).1, (Block.orders_format e').1]

set_option maxRecDepth 100000 in
/-- The comma goes from the front of a line to the end of one. -/
theorem format_independent_of_options_with :
    (∀ c ∈ "with t as (select a, b -- x\n from u) select a".toList, isBlank c → isSpaceChar c) ∧
      (Block.mk .withStatement "with t as (select a, b -- x\n from u) select a".toList).format {} =
        .ok "WITH t AS (\n    SELECT a\n         , b -- x\n          FROM u\n)\nSELECT a".toList ∧
      (Block.mk .withStatement "with t as (select a, b -- x\n from u) select a".toList).format
          { style := .indent, commaPlace := .after, keywordCase := .lower } =
        .ok "with t as (\n    select\n        a,\n        b -- x\n    from\n        u\n)\nselect\n    a".toList ∧
      codeOf "WITH t AS (\n    SELECT a\n         , b -- x\n          FROM u\n)\nSELECT a".toList =
        codeOf "with t as (\n    select\n        a,\n        b -- x\n    from\n        u\n)\nselect\n    a".toList :=
  have hb : ∀ c ∈ "with t as (select a, b -- x\n from u) select a".toList, isBlank c → isSpaceChar c :=
    forall_blank (by decide +kernel)
  have h : (Block.mk .withStatement "with t as (select a, b -- x\n from u) select a".toList).format {} =
      .ok "WITH t AS (\n    SELECT a\n         , b -- x\n          FROM u\n)\nSELECT a".toList := by decide +kernel
  have h' : (Block.mk .withStatement "with t as (select a, b -- x\n from u) select a".toList).format
      { style := .indent, commaPlace := .after, keywordCase := .lower } =
        .ok "with t as (\n    select\n        a,\n        b -- x\n    from\n        u\n)\nselect\n    a".toList := by
    decide +kernel
  ⟨hb, h, h', (format_independent_of_options _ hb _ _).2.2 _ _ h h'⟩

end SqlLayout
