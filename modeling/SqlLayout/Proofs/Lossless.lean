import SqlLayout.Script
import SqlLayout.Proofs.Count
import SqlLayout.Proofs.Select

/-!
# A SELECT loses commas only

Without hard blanks trimming cuts into no token, so the layout of a SELECT is
lossless by itself: all that the check for lost tokens can find is a comma
beside an empty element of a list.
-/

namespace SqlLayout

/-- Without hard blanks nothing but commas is lost. -/
theorem Lays.canonical_perm {k : Nat} {sql : Text} {lines : List Text} (h : Lays k (plainsOf sql) lines)
    (hb : hards sql = 0) :
    (canonical sql).Perm (canonical (joinLines lines) ++ List.replicate k [',']) := by
  have hseen := seen_plainsOf_le sql
  rcases h.joined with h | ⟨h, -⟩
  · omega
  · exact h.canonical_perm

/-! ## Faults of the layout -/

/-- The layout itself loses no token knowingly. -/
def Fault.IsShape : Fault → Prop
  | .lostToken _ => False
  | _ => True

theorem isShape_of_checkTokens {ts : List Token} {f : Fault} (h : checkTokens ts = .error f) : f.IsShape := by
  induction ts with
  | nil => cases h
  | cons t ts ih =>
    rw [checkTokens] at h
    split at h
    · cases h; trivial
    split at h
    · cases h; trivial
    · exact ih h

theorem isShape_of_ofText {sql : Text} {f : Fault} (h : Select.ofText sql = .error f) : f.IsShape := by
  simp only [Select.ofText] at h
  split at h
  · cases h; trivial
  split at h
  · cases h; trivial
  split at h
  · cases h; trivial
  · cases h

theorem isShape_of_split {o : Options} {c : Clause} {f : Fault} (h : c.split o = .error f) : f.IsShape := by
  have prepare : ∀ {items : List Item} {g : List Item → Body},
      (prepareAll o.indentSize items).map g = .error f → f.IsShape := by
    intro items g h
    unfold prepareAll at h
    split at h
    · cases h; trivial
    · cases h
  unfold Clause.split at h
  split at h
  · exact prepare h
  · exact prepare h
  · exact prepare h
  · exact prepare h
  · exact prepare h
  · cases h

theorem isShape_of_lines {o : Options} {s : Select} {f : Fault} (h : s.lines o = .error f) : f.IsShape := by
  unfold Select.lines at h
  cases hb : s.clauses.mapM fun c => (c.split o).map fun b => (c, b) with
  | ok bodies => rw [hb] at h; cases h
  | error f' =>
    rw [hb] at h
    obtain rfl : f' = f := by cases h; rfl
    clear h
    generalize s.clauses = cs at hb
    induction cs with
    | nil => cases hb
    | cons c cs ih =>
      rw [List.mapM_cons] at hb
      cases hc : c.split o with
      | error g =>
        rw [hc] at hb
        cases hb
        exact isShape_of_split hc
      | ok b =>
        cases hcs : cs.mapM fun c => (c.split o).map fun b => (c, b) with
        | error g => rw [hc, hcs] at hb; cases hb; exact ih hcs
        | ok bs => rw [hc, hcs] at hb; cases hb

theorem isShape_of_selectLines {o : Options} {sql : Text} {f : Fault} (h : selectLines o sql = .error f) :
    f.IsShape := by
  simp only [selectLines] at h
  cases hc : checkTokens (tokenize (recase o sql)) with
  | error g => rw [hc] at h; cases h; exact isShape_of_checkTokens hc
  | ok u =>
    cases hs : Select.ofText (recase o sql) with
    | error g => rw [hc, hs] at h; cases h; exact isShape_of_ofText hs
    | ok s => rw [hc, hs] at h; exact isShape_of_lines h

theorem checkPreserved_of_lostToken {o : Options} {content t : Text}
    (h : (Block.mk .select content).format o = .error (.lostToken t)) :
    ∃ lines, selectLines o content = .ok lines ∧
      checkPreserved content (joinLines lines) = .error (.lostToken t) := by
  simp only [Block.format] at h
  cases hl : selectLines o content with
  | error f => rw [hl] at h; cases h; exact (isShape_of_selectLines hl).elim
  | ok lines =>
    rw [hl] at h
    refine ⟨lines, rfl, ?_⟩
    cases hc : checkPreserved content (joinLines lines) with
    | error f => simp only [bind, Except.bind] at h; rw [hc] at h; cases h; rfl
    | ok u => simp only [bind, Except.bind] at h; rw [hc] at h; cases h

/-! ## The layout -/

theorem sum_droppedCommas_le (ls : List (List (List Token))) :
    (ls.map droppedCommas).sum ≤ (ls.map looseCommas).sum := by
  induction ls with
  | nil => exact Nat.le_refl _
  | cons gs ls ih =>
    rw [List.map_cons, List.map_cons, List.sum_cons, List.sum_cons]
    exact Nat.add_le_add (droppedCommas_le gs) ih

theorem select_loses_commas_only (o : Options) (content : Text)
    (hb : ∀ c ∈ content, isBlank c → isSpaceChar c) :
    (∀ lines, selectLines o content = .ok lines →
      (canonical content).Perm (canonical (joinLines lines) ++
        List.replicate ((listsOf o content).map droppedCommas).sum [','])) ∧
    ((listsOf o content).map droppedCommas).sum ≤ ((listsOf o content).map looseCommas).sum ∧
    ∀ t, (Block.mk .select content).format o = .error (.lostToken t) → t = [','] := by
  have lossless : ∀ lines, selectLines o content = .ok lines → (canonical content).Perm
      (canonical (joinLines lines) ++ List.replicate ((listsOf o content).map droppedCommas).sum [',']) :=
    fun lines h => (lays_selectLines h).canonical_perm (hards_of_space hb)
  refine ⟨lossless, sum_droppedCommas_le _, fun t h => ?_⟩
  obtain ⟨lines, hl, hc⟩ := checkPreserved_of_lostToken h
  exact lostToken_of_perm (lossless lines hl) hc

set_option maxRecDepth 100000 in
/-- The second comma stands beside an empty element, and is lost. -/
theorem select_loses_second_comma :
    (Block.mk .select "select a,,b".toList).format {} = .error (.lostToken [',']) ∧
      selectLines {} "select a,,b".toList = .ok ["SELECT a".toList, "     , b".toList] ∧
      (canonical "select a,,b".toList).Perm
        (canonical (joinLines ["SELECT a".toList, "     , b".toList]) ++ List.replicate 1 [',']) := by
  have hl : selectLines {} "select a,,b".toList = .ok ["SELECT a".toList, "     , b".toList] := by decide +kernel
  have hd : ((listsOf {} "select a,,b".toList).map droppedCommas).sum = 1 := by decide +kernel
  have h := (select_loses_commas_only {} "select a,,b".toList (forall_blank (by decide +kernel))).1 _ hl
  rw [hd] at h
  exact ⟨by decide +kernel, hl, h⟩

end SqlLayout
