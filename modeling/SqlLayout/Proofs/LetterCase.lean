import SqlLayout.Proofs.Extents
import SqlLayout.Proofs.Layouts
import SqlLayout.Proofs.Matching
import SqlLayout.Proofs.Verdict

/-!
# Letter case steers nothing

Matching scripts are cut at the same lines, the same blocks are laid out, and
what is written matches again (`format_matches`). A layout asks for lengths and
keywords only, so its lines are equal in upper case, and as the check lets no
other token be lost they have the same tokens.
-/

namespace SqlLayout

/-! ## What the check sees -/

theorem hardsIn_congr {ls ms : List Text} (h : ls.map upper = ms.map upper) : hardsIn ls = hardsIn ms := by
  have e : ∀ ls : List Text, hardsIn ls = hardsIn (ls.map upper) := by
    intro ls
    simp [hardsIn, Function.comp_def]
  rw [e, h, ← e]

theorem joinLines_congr {ls ms : List Text} (h : ls.map upper = ms.map upper) : upper (joinLines ls) = upper (joinLines ms) := by
  rw [← joinLines_upper, h, joinLines_upper]

def checked (sql : Text) (r : Except Fault (List Text)) : Except Fault Text := do
  let output := joinLines (← r)
  checkPreserved sql output
  return output

theorem checked_ok {sql : Text} {lines : List Text} :
    (checked sql (.ok lines)).toOption = if checkPreserved sql (joinLines lines) = .ok () then some (joinLines lines) else none := by
  change (checkPreserved sql (joinLines lines) >>= fun _ => Except.ok (joinLines lines)).toOption = _
  cases checkPreserved sql (joinLines lines) <;> rfl

theorem checked_congr {sql sql' : Text} {r r' : Except Fault (List Text)} {k : Nat} (hp : plainsOf sql = plainsOf sql')
    (hr : r.map (List.map upper) = r'.map (List.map upper)) (hl : ∀ lines, r = .ok lines → Loses k (plainsOf sql) lines)
    (hl' : ∀ lines, r' = .ok lines → Loses k (plainsOf sql') lines) :
    (checked sql r).toOption.map upper = (checked sql' r').toOption.map upper := by
  cases r with
  | error f =>
    cases r' with
    | error f' => rfl
    | ok lines' => cases hr
  | ok lines =>
    cases r' with
    | error f' => cases hr
    | ok lines' =>
      have hlines : lines.map upper = lines'.map upper := Except.ok.inj hr
      have hc := (hl lines rfl).checkPreserved_iff
      have hc' := (hl' lines' rfl).checkPreserved_iff
      rw [hardsIn_congr hlines, hp, ← hc'] at hc
      rw [checked_ok, checked_ok]
      by_cases h : checkPreserved sql (joinLines lines) = .ok ()
      · rw [if_pos h, if_pos (hc.mp h), Option.map_some, Option.map_some, joinLines_congr hlines]
      · rw [if_neg h, if_neg (mt hc.mpr h)]

/-! ## Blocks -/

theorem Block.format_select {b : Block} (o : Options) (h : b.kind = .select) :
    b.format o = checked b.content (selectLines o b.content) := by
  rw [format, h]
  rfl

theorem Block.format_with {b : Block} (o : Options) (h : b.kind = .withStatement) :
    b.format o = checked b.content (withLines o b.content) := by
  rw [format, h]
  rfl

theorem selectLines_congr (o : Options) {s s' : Text} (h : upper s = upper s') :
    (selectLines o s).map (List.map upper) = (selectLines o s').map (List.map upper) := by
  rw [← selectLines_upper, h, selectLines_upper]

theorem withLines_congr (o : Options) {s s' : Text} (h : upper s = upper s') :
    (withLines o s).map (List.map upper) = (withLines o s').map (List.map upper) := by
  rw [← withLines_upper, h, withLines_upper]

theorem loses_selectLines {o : Options} {sql : Text} {lines : List Text} (h : selectLines o sql = .ok lines) :
    Loses (droppedOf sql) (plainsOf sql) lines := by
  rw [← sum_droppedCommas_listsOf o]
  exact (lays_selectLines h).loses

namespace Block.Matches

variable {b b' : Block} (h : b.Matches b')
include h

theorem format_upper (o : Options) : (b.format o).toOption.map upper = (b'.format o).toOption.map upper := by
  obtain ⟨hkind, hm⟩ := h
  have hu := hm.upper_eq
  cases hk : b.kind with
  | select =>
    rw [format_select o hk, format_select o (hkind ▸ hk)]
    refine checked_congr hm.plains_eq (selectLines_congr o hu) (fun lines h => loses_selectLines h) fun lines h => ?_
    have := loses_selectLines h
    rwa [← droppedOf_upper, ← hu, droppedOf_upper] at this
  | withStatement =>
    rw [format_with o hk, format_with o (hkind ▸ hk)]
    refine checked_congr hm.plains_eq (withLines_congr o hu) (fun lines h => loses_withLines h) fun lines h => ?_
    have := loses_withLines h
    rwa [← withLoss_upper, ← hu, withLoss_upper] at this
  | comment | commentGroup =>
    rw [Block.format, Block.format, ← hkind, hk]
    exact congrArg some hu
  | _ =>
    rw [Block.format, Block.format, ← hkind, hk]
    exact congrArg some (by rw [upper_recase, hu, upper_recase])

theorem format_isSome (o : Options) : (b.format o).toOption.isSome = (b'.format o).toOption.isSome := by
  have := congrArg Option.isSome (h.format_upper o)
  simpa using this

theorem format {o : Options} {out out' : Text} (e : b.format o = .ok out) (e' : b'.format o = .ok out') :
    Matching out out' := by
  have hu := h.format_upper o
  rw [e, e'] at hu
  obtain ⟨hcode, hcomments⟩ := Block.orders_format e
  obtain ⟨hcode', hcomments'⟩ := Block.orders_format e'
  rw [codeOf_eq, codeOf_eq] at hcode hcode'
  rw [commentsOf_eq, commentsOf_eq] at hcomments hcomments'
  have hr := raise_plainsOf_congr (Option.some.inj hu)
  -- what is no code is a comment
  have others : ∀ s : Text, (plainsOf s).filter (fun t => !t.isCode) = (plainsOf s).filter Token.isComment := by
    intro s
    refine List.filter_congr fun t ht => ?_
    obtain ⟨u, hu, rfl⟩ := List.mem_map.mp ht
    simp [Token.isCode, Token.isTrivia, (mem_solids.mp hu).2]
  refine matching_iff.mpr ⟨Option.some.inj hu, eq_of_filter Token.isCode_upper hr ?_ ?_⟩
  · rw [hcode, hcode', h.2.plains_eq]
  · rw [others, others, hcomments, hcomments', h.2.plains_eq]

end Block.Matches

structure Printed.Matches (p q : Printed) : Prop where
  kind : p.kind = q.kind
  output : Matching p.output q.output
  fallback : p.fallback.isSome = q.fallback.isSome
  standalone : p.standalone = q.standalone

theorem isPrefixOf_upper {c d : Char} (hc : c.isAlpha = false) (hd : d.isAlpha = false) (s : Text) :
    [c, d].isPrefixOf (upper s) = [c, d].isPrefixOf s := by
  match s with
  | [] => rfl
  | [a] => simp [List.isPrefixOf]
  | a :: b :: s =>
    simp only [upper_cons, List.isPrefixOf, beq_eq_decide, Bool.and_true, eq_comm (a := c), eq_comm (a := d),
      toUpper_eq_iff hc, toUpper_eq_iff hd]

theorem matching_recase (o : Options) {s s' : Text} (h : Matching s s') : Matching (recase o s) (recase o s') := by
  refine matching_iff.mpr ⟨?_, ?_⟩
  · rw [upper_recase, h.upper_eq, upper_recase]
  · rw [plainsOf_recase, h.plains_eq, plainsOf_recase]

namespace Block.Matches

variable {b b' : Block} (h : b.Matches b')
include h

theorem isStandalone : b.isStandalone = b'.isStandalone := by
  obtain ⟨hkind, hm⟩ := h
  have e : ∀ s : Text, ((trimmedLines s).all fun l => ['-', '-'].isPrefixOf l || ['/', '*'].isPrefixOf l || ['*', '/'].isSuffixOf l) =
      (trimmedLines (upper s)).all fun l => ['-', '-'].isPrefixOf l || ['/', '*'].isPrefixOf l || ['*', '/'].isSuffixOf l := by
    intro s
    rw [trimmedLines_upper, List.all_map]
    simp only [Function.comp_def, isPrefixOf_upper (c := '-') (d := '-') (by decide) (by decide),
      isPrefixOf_upper (c := '/') (d := '*') (by decide) (by decide), isSuffixOf_upper]
  rw [Block.isStandalone, Block.isStandalone, hkind, e, hm.upper_eq, ← e]

theorem print (o : Options) : (b.print o).Matches (b'.print o) := by
  have hsome := h.format_isSome o
  unfold Block.print
  cases e : b.format o with
  | error f =>
    cases e' : b'.format o with
    | error f' => exact ⟨h.1, matching_recase o h.2, rfl, h.isStandalone⟩
    | ok out' => rw [e, e'] at hsome; cases hsome
  | ok out =>
    cases e' : b'.format o with
    | error f' => rw [e, e'] at hsome; cases hsome
    | ok out' => exact ⟨h.1, h.format e e', rfl, h.isStandalone⟩

end Block.Matches

/-! ## Scripts -/

theorem printScript_matches (o : Options) {s s' : Text} (h : Matching s s') :
    List.Forall₂ Printed.Matches (printScript o s) (printScript o s') := by
  have := segment_matches h
  unfold printScript
  rw [List.forall₂_map_left_iff, List.forall₂_map_right_iff]
  exact this.imp fun b b' hb => hb.print o

theorem upper_render (o : Options) {ps qs : List Printed} (h : List.Forall₂ Printed.Matches ps qs) :
    upper (render o ps) = upper (render o qs) := by
  induction h with
  | nil => rfl
  | @cons p q ps qs hp hps ih =>
    cases hps with
    | nil => exact hp.output.upper_eq
    | @cons p' q' ps qs hp' _ =>
      have hblanks : blanksBetween o p p' = blanksBetween o q q' := by
        rw [blanksBetween, blanksBetween, hp.kind, hp.standalone, hp'.kind, hp'.standalone]
      rw [render, render, upper_append, upper_append, ih, upper_append, upper_append, hp.output.upper_eq, hblanks]

/-- No block but the last ends inside a token. -/
theorem closed_init {script : Text} {init : List Block} {b : Block} (h : segment script = init ++ [b]) :
    ∀ c ∈ init, Closed c.content := by
  rcases cut_segment script with hcut | ⟨init', b', e, hcut⟩
  · intro c hc
    exact hcut.closed c (by simp [h, hc])
  · obtain ⟨rfl, -⟩ := List.append_inj' (h.symm.trans e) rfl
    exact hcut.closed

theorem plainsOf_render (o : Options) (script : Text) :
    plainsOf (render o (printScript o script)) = (printScript o script).flatMap fun p => plainsOf p.output := by
  rcases List.eq_nil_or_concat (segment script) with hnil | ⟨init, b, e⟩
  · rw [printScript, hnil]
    exact plainsOf_nil
  rw [List.concat_eq_append] at e
  have hclosed : ∀ q ∈ init.map (·.print o), Closed q.output := by
    intro q hq
    obtain ⟨c, hc, rfl⟩ := List.mem_map.mp hq
    exact (closed_of_perm (c.plains_print o)).mpr (closed_init e c hc)
  obtain ⟨above, er, hp⟩ := render_append o (b.print o) hclosed
  rw [printScript, e, List.map_append, List.map_singleton, er, hp, List.flatMap_append, List.flatMap_singleton]

theorem render_matches (o : Options) {s s' : Text} (h : Matching s s') :
    Matching (render o (printScript o s)) (render o (printScript o s')) := by
  have hp := printScript_matches o h
  refine matching_iff.mpr ⟨upper_render o hp, ?_⟩
  rw [plainsOf_render, plainsOf_render]
  generalize printScript o s = ps at hp ⊢
  generalize printScript o s' = qs at hp ⊢
  induction hp with
  | nil => rfl
  | cons hp _ ih => rw [List.flatMap_cons, List.flatMap_cons, hp.output.plains_eq, ih]

theorem isBlankText_congr {s s' : Text} (h : upper s = upper s') : isBlankText s = isBlankText s' := by
  rw [← isBlankText_upper, h, isBlankText_upper]

theorem Matching.finished {s s' a a' : Text} (h : Matching s s') (ha : Matching a a') :
    Matching (finished s a) (finished s' a') := by
  rcases finished_cases h.upper_eq ha.upper_eq with ⟨e, e'⟩ | ⟨e, e'⟩
  · rwa [e, e']
  · rw [e, e']
    refine matching_iff.mpr ⟨?_, plainsOf_newline_congr ha.plains_eq⟩
    rw [upper_append, upper_append, ha.upper_eq]

theorem matching_format (o : Options) {s s' : Text} (h : Matching s s') : Matching (format o s) (format o s') := by
  have hr := render_matches o h
  have hs := isBlankText_congr h.upper_eq
  have hout := isBlankText_congr hr.upper_eq
  by_cases hb : isBlankText s
  · rwa [format, if_pos hb, format, if_pos (hs ▸ hb)]
  by_cases hb' : isBlankText (render o (printScript o s))
  · have e : ∀ t, ¬isBlankText t → isBlankText (render o (printScript o t)) → format o t = t := by
      intro t ht ht'
      rw [format, if_neg ht]
      simp [ht']
    rwa [e s hb hb', e s' (hs ▸ hb) (hout ▸ hb')]
  · rw [format_eq hb hb', format_eq (hs ▸ hb) (hout ▸ hb')]
    exact h.finished hr

/-! ## Places of tokens -/

theorem spans_matches {ts us : List Token} (h : List.Forall₂ Token.Matches ts us) (n : Nat) :
    (spans n ts).map Prod.snd = (spans n us).map Prod.snd := by
  induction h generalizing n with
  | nil => rfl
  | @cons t u ts us h _ ih =>
    have hsize : byteSize t.text = byteSize u.text := by
      rw [← byteSize_upper, ← Token.text_upper, h.upper, Token.text_upper, byteSize_upper]
    simp only [spans, List.map_cons, hsize, ih]

/-- Texts of one length with the same tokens at the same places, but for the
letter case of words. -/
structure CaseVariants (s s' : Text) : Prop where
  length : s.length = s'.length
  places : (spans 0 (tokenize s)).map Prod.snd = (spans 0 (tokenize s')).map Prod.snd
  tokens : Matching s s'

theorem Matching.caseVariants {s s' : Text} (h : Matching s s') : CaseVariants s s' where
  length := by rw [← length_upper, h.upper_eq, length_upper]
  places := spans_matches h 0
  tokens := h

/-- Letter case tells neither where blocks are cut nor which of them are laid
out, and it shows in the letter case of what is written only. -/
theorem format_matches (o : Options) {s s' : Text} (h : Matching s s') :
    (segment s).map Block.kind = (segment s').map Block.kind ∧
      extents s = extents s' ∧
      List.Forall₂ (Block.Fits (splitLines (unifyNewlines s))) (segment s) (extents s) ∧
      List.Forall₂ (Block.Fits (splitLines (unifyNewlines s'))) (segment s') (extents s') ∧
      (printScript o s).map (·.fallback.isSome) = (printScript o s').map (·.fallback.isSome) ∧
      CaseVariants (render o (printScript o s)) (render o (printScript o s')) ∧
      CaseVariants (format o s) (format o s') := by
  have hunder := segment_under h
  have hkinds : (segment s).map Block.kind = (segment s').map Block.kind := by
    have := congrArg (List.map Block.kind) hunder
    simpa [Function.comp_def, Block.under] using this
  have hlines : (splitLines (unifyNewlines s)).map upper = (splitLines (unifyNewlines s')).map upper := by
    rw [← splitLines_upper, h.unifyNewlines.upper_eq, splitLines_upper]
  have hfallback : (printScript o s).map (·.fallback.isSome) = (printScript o s').map (·.fallback.isSome) := by
    have hp := printScript_matches o h
    generalize printScript o s = ps at hp ⊢
    generalize printScript o s' = qs at hp ⊢
    induction hp with
    | nil => rfl
    | cons hp _ ih => rw [List.map_cons, List.map_cons, hp.fallback, ih]
  exact ⟨hkinds, extentsFrom_congr 0 hlines hunder, segment_extents s, segment_extents s', hfallback,
    (render_matches o h).caseVariants, (matching_format o h).caseVariants⟩

/-- The second statement keeps its line in both scripts. -/
theorem format_matches_union :
    Matching "Select a, B -- X\nfrom T;\nselect 1 union select 'Y'".toList
        "SELECT A, b -- X\nFrom t;\nSELECT 1 Union select 'Y'".toList ∧
      extents "Select a, B -- X\nfrom T;\nselect 1 union select 'Y'".toList = [(0, 2), (2, 1)] ∧
      extents "SELECT A, b -- X\nFrom t;\nSELECT 1 Union select 'Y'".toList = [(0, 2), (2, 1)] ∧
      (printScript { keywordCase := .preserve } "SELECT A, b -- X\nFrom t;\nSELECT 1 Union select 'Y'".toList).map
          (·.fallback.isSome) = [false, true] ∧
      CaseVariants (format { keywordCase := .preserve } "Select a, B -- X\nfrom T;\nselect 1 union select 'Y'".toList)
        (format { keywordCase := .preserve } "SELECT A, b -- X\nFrom t;\nSELECT 1 Union select 'Y'".toList) :=
  have hm : Matching "Select a, B -- X\nfrom T;\nselect 1 union select 'Y'".toList
      "SELECT A, b -- X\nFrom t;\nSELECT 1 Union select 'Y'".toList :=
    matching_iff.mpr ⟨by decide +kernel, by decide +kernel⟩
  have he : extents "Select a, B -- X\nfrom T;\nselect 1 union select 'Y'".toList = [(0, 2), (2, 1)] := by decide +kernel
  have h := format_matches { keywordCase := .preserve } hm
  ⟨hm, he, h.2.1.symm.trans he, by decide +kernel, h.2.2.2.2.2.2⟩

end SqlLayout
