import SqlLayout.Proofs.Order
import SqlLayout.Proofs.Segments

/-!
# A script keeps its tokens

Only SELECTs and WITH statements are checked for lost tokens. That a whole
script keeps its tokens needs more: blocks hold the tokens of the script, a
block that is not laid out changes in letter case only, and newlines between
the blocks neither join tokens nor cut them.
-/

namespace SqlLayout

/-! ## Printed blocks -/

theorem Block.plains_format {o : Options} {b : Block} {out : Text} (h : b.format o = .ok out) :
    (plainsOf out).Perm (plainsOf b.content) := by
  have kept : b.kind = .select ∨ b.kind = .withStatement → (plainsOf out).Perm (plainsOf b.content) := fun hk => by
    simpa using (b.keeps_format hk h).perm.symm
  cases hk : b.kind with
  | select => exact kept (Or.inl hk)
  | withStatement => exact kept (Or.inr hk)
  | _ =>
    simp only [Block.format, hk] at h
    cases h
    simp

theorem Block.plains_print (o : Options) (b : Block) :
    (plainsOf (b.print o).output).Perm (plainsOf b.content) := by
  unfold Block.print
  split
  · next h => exact Block.plains_format h
  · simp

theorem closed_of_perm {s s' : Text} (h : (plainsOf s').Perm (plainsOf s)) : Closed s' ↔ Closed s := by
  rw [closed_iff_plainsOf, closed_iff_plainsOf]
  simp [h.mem_iff]

/-- What ends inside a token is not laid out. -/
theorem Block.plains_print_of_not_closed (o : Options) {b : Block} (h : ¬Closed b.content) :
    plainsOf (b.print o).output = plainsOf b.content := by
  have checked : checkTokens (tokenize (recase o b.content)) ≠ .ok () := fun hc => by
    refine h (closed_iff_plainsOf.mpr ?_)
    rw [← plainsOf_recase o, ← closed_iff_plainsOf, closed_iff]
    exact fun t => (flat_of_checkTokens hc).isUnterminated
  unfold Block.print
  split
  · next out e =>
    cases hk : b.kind with
    | select =>
      simp only [Block.format, hk] at e
      obtain ⟨lines, e, -⟩ := ok_of_bind e
      obtain ⟨u, e, -⟩ := ok_of_bind e
      exact absurd e checked
    | withStatement =>
      simp only [Block.format, hk] at e
      obtain ⟨lines, e, -⟩ := ok_of_bind e
      obtain ⟨u, e, -⟩ := ok_of_bind e
      exact absurd e checked
    | _ =>
      simp only [Block.format, hk] at e
      cases e
      simp
  · simp

/-! ## Blocks under one another -/

theorem render_append (o : Options) {init : List Printed} (p : Printed) (h : ∀ q ∈ init, Closed q.output) :
    ∃ above, render o (init ++ [p]) = above ++ p.output ∧
      ∀ s, plainsOf (above ++ s) = init.flatMap (fun q => plainsOf q.output) ++ plainsOf s := by
  induction init with
  | nil => exact ⟨[], rfl, fun s => rfl⟩
  | cons q init ih =>
    obtain ⟨above, e, hp⟩ := ih fun q' hq => h q' (List.mem_cons_of_mem _ hq)
    obtain ⟨c, cs, ec⟩ := List.exists_cons_of_ne_nil (List.append_ne_nil_of_right_ne_nil init (List.cons_ne_nil p []))
    rw [List.cons_append, ec, render, ← ec, e]
    refine ⟨q.output ++ (List.replicate (blanksBetween o q c + 1) '\n' ++ above), by simp, fun s => ?_⟩
    have hblank : (List.replicate (blanksBetween o q c) '\n').all isSpaceChar := by simp [isSpaceChar]
    rw [List.replicate_succ, List.cons_append, List.append_assoc, List.cons_append, plainsOf_eq,
      solidsOf_append_newline (h q List.mem_cons_self), List.append_assoc, solidsOf_space_append hblank,
      List.map_append, ← plainsOf_eq, ← plainsOf_eq, hp]
    simp

theorem plains_flatMap_print (o : Options) (bs : List Block) :
    ((bs.map (·.print o)).flatMap fun q => plainsOf q.output).Perm (bs.flatMap fun b => plainsOf b.content) := by
  induction bs with
  | nil => exact List.Perm.refl _
  | cons b bs ih => exact (b.plains_print o).append ih

theorem map_plain_solidsIn (bs : List Block) :
    (solidsIn bs).map Token.plain = bs.flatMap fun b => plainsOf b.content := by
  rw [solidsIn, List.map_flatMap]
  rfl

theorem plainsOf_finished (s : Text) {a b : Text} (h : plainsOf a = plainsOf b) (hl : a.getLast? = b.getLast?) :
    plainsOf (finished s a) = plainsOf (finished s b) := by
  unfold finished
  rw [hl]
  split
  · exact plainsOf_newline_congr h
  · exact h

theorem format_eq {o : Options} {script : Text} (h : ¬isBlankText script)
    (h' : ¬isBlankText (render o (printScript o script))) :
    format o script = finished script (render o (printScript o script)) := by
  rw [format, if_neg h]
  simp only [if_neg h']
  rfl

theorem plainsOf_finished_of_closed (s : Text) {a : Text} (h : Closed a) : plainsOf (finished s a) = plainsOf a := by
  unfold finished
  split
  · rw [plainsOf_eq, solidsOf_newline h, ← plainsOf_eq]
  · rfl

theorem plains_render (o : Options) {init : List Block} {b : Block} (h : ∀ c ∈ init, Closed c.content) :
    ∃ above, render o ((init ++ [b]).map (·.print o)) = above ++ (b.print o).output ∧
      ∀ s s', (plainsOf s).Perm (plainsOf s') →
        (plainsOf (above ++ s)).Perm (init.flatMap (fun c => plainsOf c.content) ++ plainsOf s') := by
  have hclosed : ∀ q ∈ init.map (·.print o), Closed q.output := by
    intro q hq
    obtain ⟨c, hc, rfl⟩ := List.mem_map.mp hq
    exact (closed_of_perm (c.plains_print o)).mpr (h c hc)
  obtain ⟨above, e, hp⟩ := render_append o (b.print o) hclosed
  refine ⟨above, by simpa using e, fun s s' hs => ?_⟩
  rw [hp]
  exact (plains_flatMap_print o init).append hs

theorem getLast_unifyNewlines (s : Text) : (unifyNewlines s).getLast? = s.getLast? := by
  fun_induction unifyNewlines s with
  | case1 s ih =>
    rw [List.getLast?_cons, ih, List.getLast?_cons, List.getLast?_cons]
    rfl
  | case2 c s _ ih => rw [List.getLast?_cons, ih, List.getLast?_cons]
  | case3 => rfl

theorem finished_unifyNewlines (s out : Text) : finished (unifyNewlines s) out = finished s out := by
  rw [finished, finished, getLast_unifyNewlines]

/-- What is printed under one another, with the newline at its end, holds the
tokens of the script but for tokens of nothing but blanks. -/
theorem plains_finished (o : Options) (script : Text) :
    ∃ ts, Sheds (plainsOf (unifyNewlines script)) ts ∧
      (plainsOf (finished script (render o (printScript o script)))).Perm ts := by
  rw [printScript]
  rcases cut_segment script with hcut | ⟨init, b, e, hcut⟩
  · rcases List.eq_nil_or_concat (segment script) with hnil | ⟨init, b, e⟩
    · rw [hnil] at hcut ⊢
      refine ⟨[], hcut.reads.map_plain, List.Perm.of_eq ?_⟩
      exact (plainsOf_finished_of_closed script (by simp [render, Closed])).trans plainsOf_nil
    rw [List.concat_eq_append] at e
    rw [e] at hcut ⊢
    obtain ⟨above, er, hp⟩ := plains_render o (b := b) fun c hc => hcut.closed c (List.mem_append_left _ hc)
    have hperm : (plainsOf (above ++ (b.print o).output)).Perm ((solidsIn (init ++ [b])).map Token.plain) := by
      refine (hp _ _ (b.plains_print o)).trans (List.Perm.of_eq ?_)
      rw [map_plain_solidsIn]
      simp
    have hclosed : Closed (above ++ (b.print o).output) := by
      rw [closed_iff_plainsOf]
      intro t ht
      obtain ⟨u, hu, rfl⟩ := List.mem_map.mp (hperm.mem_iff.mp ht)
      obtain ⟨c, hc, hu⟩ := List.mem_flatMap.mp hu
      rw [Token.isUnterminated_plain]
      exact hcut.closed c hc u hu
    refine ⟨_, hcut.reads.map_plain, ?_⟩
    rw [er, plainsOf_finished_of_closed script hclosed]
    exact hperm
  · rw [e]
    obtain ⟨above, er, hp⟩ := plains_render o (b := b) hcut.closed
    have hsame := b.plains_print_of_not_closed o hcut.notClosed
    have hne : (b.print o).output ≠ [] :=
      ne_nil_of_not_closed_text (mt (closed_of_perm (b.plains_print o)).mp hcut.notClosed)
    refine ⟨_, hcut.reads.map_plain, ?_⟩
    rw [er, finished_append script above hne, finished_unifyNewlines, List.map_append, map_plain_solidsIn, ← plainsOf_eq]
    exact hp _ _ (List.Perm.of_eq (plainsOf_finished script hsame (getLast_of_plainsOf_eq hsame hcut.notClosed)))

theorem plains_format (o : Options) {script : Text} (hr : '\r' ∉ script) (hh : hards script = 0) :
    (plainsOf (format o script)).Perm (plainsOf script) := by
  by_cases hb : isBlankText script
  · rw [format, if_pos hb]
  by_cases hb' : isBlankText (render o (printScript o script))
  · rw [format, if_neg hb]
    simp [hb']
  rw [format_eq hb hb']
  obtain ⟨ts, hs, hp⟩ := plains_finished o script
  rw [unifyNewlines_eq hr] at hs
  rwa [hs.eq fun t ht => ?_] at hp
  obtain ⟨u, hu, rfl⟩ := List.mem_map.mp ht
  rw [Token.isInk_plain]
  exact isInk_of_hards hh hu

/-! ## Scripts -/

/-- A script whose only blanks are space, tab, newline and form feed keeps
every token. -/
theorem format_preserves_tokens (o : Options) (script : Text) (hr : '\r' ∉ script) (hv : '\x0b' ∉ script)
    (ha : ∀ c ∈ script, isBlank c → c.toNat < 0x80) :
    checkPreserved script (format o script) = .ok () ∧ (canonical script).Perm (canonical (format o script)) := by
  have hperm : (canonical script).Perm (canonical (format o script)) := by
    rw [canonical_eq, canonical_eq]
    exact ((plains_format o hr (hards_script hv ha)).map Token.text).symm
  exact ⟨checkPreserved_eq_ok.mpr hperm, hperm⟩

set_option maxRecDepth 100000 in
/-- The newline at the end belongs to the comment, which the block leaves out
and the script gets back. -/
theorem format_preserves_open_comment :
    (segment "select 1; /* a\n".toList).map Block.content = ["select 1; /* a".toList] ∧
      format {} "select 1; /* a\n".toList = "SELECT 1; /* a\n".toList ∧
      checkPreserved "select 1; /* a\n".toList (format {} "select 1; /* a\n".toList) = .ok () :=
  ⟨by decide +kernel, by decide +kernel,
    (format_preserves_tokens {} "select 1; /* a\n".toList (by decide +kernel) (by decide +kernel)
      (forall_blank (by decide +kernel))).1⟩

end SqlLayout
