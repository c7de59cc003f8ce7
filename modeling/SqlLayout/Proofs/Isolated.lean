import SqlLayout.Proofs.Alone
import SqlLayout.Proofs.Masked
import SqlLayout.Proofs.Preserved

/-!
# Blocks are cut from their own text

A block of a script, taken for a script, is that one block
(`segment_isolated`). Its stretches are read from its text as they are read
from the script, but for one case: a newline at the very end of a comment that
has no end is not in the block.
-/

namespace SqlLayout

/-! ## Blank lines at the end -/

theorem Draft.block?_push_blank {d : Draft} (hu : d.tally.unterminated = false) {w : Text} (hw : isBlankText w) :
    (d.push (blankStretch w).lines).block? = d.block? := by
  have hlines : (d.push (blankStretch w).lines).lines.map Line.text = d.lines.map Line.text ++ [w] := by
    simp [push, blankStretch, Stretch.lines]
  have htally : (d.push (blankStretch w).lines).tally = d.tally := rfl
  rw [block?, block?, hlines, htally, hu, List.dropWhile_append]
  generalize (d.lines.map Line.text).dropWhile isBlankText = texts
  cases texts with
  | nil => simp [hw]
  | cons l ls =>
    have hend : dropEndWhile isBlankText ((l :: ls) ++ [w]) = dropEndWhile isBlankText (l :: ls) :=
      (dropEndWhile_append_all (by simpa using hw) _).1
    rw [List.isEmpty_cons, if_neg Bool.false_ne_true, hend]
    simp
    rfl

theorem Piece.isUnterminated {x : Stretch} (h : Piece x) {t : Token} (ht : t ∈ tokensOf x.lines) : t.isUnterminated = false :=
  closed_iff_plainsOf.mp h.closed t (h.plainsOf_eq ▸ ht)

theorem Piece.opening {x : Stretch} (h : Piece x) : x.opening ≠ .openComment := by
  intro ho
  obtain ⟨t, ht, hu⟩ := Stretch.opening_openComment ho
  have hmem : t ∈ tokensOf x.lines := List.mem_append_left _ ht
  rw [h.isUnterminated hmem] at hu
  cases hu

theorem blocksFrom_blank {ys : List Stretch} (hy : ∀ y ∈ ys, Piece y) {w : Text} (hw : isBlankText w) :
    blocksFrom {} (ys ++ [blankStretch w]) = blocksFrom {} ys := by
  have := @blocksFrom_ends ys [blankStretch w] [] [] (fun d => d.tally.unterminated = false)
    (fun y h => (hy y h).opening) rfl (fun _ => rfl) ?_ ?_ {} rfl
  · simpa using this
  · intro d hd y hmem k
    change ((tokensOf y.lines).foldl Tally.step d.tally).unterminated = false
    rw [Tally.foldl_unterminated, hd, List.any_eq_false.mpr fun t ht => by simp [(hy y hmem).isUnterminated ht]]
    rfl
  · intro d hd
    have e : blocksFrom d [blankStretch w] =
        if d.lines = [] then blocksFrom d [] else blocksFrom (d.push (blankStretch w).lines) [] := by
      rw [blocksFrom]
      rfl
    rw [e, blocksFrom, blocksFrom, Draft.block?_push_blank hd hw, ite_self, List.append_nil]

/-- The text without the blank lines at its end is cut in the same way. -/
theorem blocksFrom_trimmed {ys : List Stretch} (hy : ∀ y ∈ ys, Piece y) (hne : ys ≠ [])
    (hhead : ∀ y ∈ ys.head?, ¬isBlankText y.first.text) :
    blocksFrom {} (stretchesOf (joinLines (dropEndWhile isBlankText ((ys.flatMap Stretch.lines).map Line.text)))) =
      blocksFrom {} ys := by
  induction ys using List.reverseRecOn with
  | nil => exact absurd rfl hne
  | append_singleton ys y ih =>
    have hlast := hy y (by simp)
    by_cases hblank : isBlankText y.last.text
    · have hfirst : isBlankText y.first.text := hlast.first_of_last hblank ▸ hblank
      have hys : ys ≠ [] := by
        rintro rfl
        exact hhead y rfl hfirst
      have hy' : ∀ z ∈ ys, Piece z := fun z hz => hy z (List.mem_append_left _ hz)
      have e := hlast.eq_blank hfirst
      have htext : ((ys ++ [y]).flatMap Stretch.lines).map Line.text =
          (ys.flatMap Stretch.lines).map Line.text ++ [y.first.text] := by
        rw [e]
        simp [blankStretch, Stretch.lines]
      rw [htext, (dropEndWhile_append_all (by simpa using hfirst) _).1, ih hy' hys ?_, e, blocksFrom_blank hy' hfirst]
      intro z hz
      exact hhead z (by rw [List.head?_append_of_ne_nil _ hys]; exact hz)
    · have hkeep : dropEndWhile isBlankText (((ys ++ [y]).flatMap Stretch.lines).map Line.text) =
          ((ys ++ [y]).flatMap Stretch.lines).map Line.text := by
        obtain ⟨ls, e⟩ := y.exists_last
        simp [e, dropEndWhile, hblank]
      rw [hkeep]
      exact congrArg (blocksFrom {}) (stretchesOf_pieces hy hne).2

/-! ## The text of a block -/

theorem textOf_bares (ys : List Stretch) :
    textOf ((ys.map Stretch.bare).flatMap Stretch.lines) = textOf (ys.flatMap Stretch.lines) := by
  rw [← textOf_bare (ys.flatMap Stretch.lines), List.flatMap_map, List.map_flatMap]
  rfl

section
variable {xs ys zs : List Stretch} {s : Text} {b : Block}

/-- The stretches in front are cut off. -/
theorem Next.read_behind (h : Next {} (xs ++ ys)) (hs : stretchesOf s = (xs ++ ys).map Stretch.bare) (hys : ys ≠ [])
    (hempty : ys ≠ [⟨{}, []⟩]) :
    Next {} ys ∧ stretchesOf (textOf (ys.flatMap Stretch.lines)) = ys.map Stretch.bare := by
  rw [List.map_append] at hs
  obtain ⟨hc, hnext⟩ | hnil | ⟨h, -⟩ := h.push_append.cases
  · refine ⟨hnext none, ?_⟩
    by_cases hxs : xs = []
    · rw [hxs, List.map_nil, List.nil_append] at hs
      rw [← hs, ← textOf_bares, ← hs, textOf_stretchesOf]
    · have hsplit := stretchesOf_split hs (by simpa using hxs) (by simpa using hys) (by rw [textOf_bares]; exact hc)
      rw [← textOf_bares, hsplit.2]
  · exact absurd hnil hys
  · exact absurd h hempty

theorem Next.read_front (h : Next {} (ys ++ zs)) (hs : stretchesOf s = (ys ++ zs).map Stretch.bare) (hys : ys ≠ []) :
    stretchesOf (textOf (ys.flatMap Stretch.lines)) = ys.map Stretch.bare ∨
      zs = [⟨{}, []⟩] ∧ ¬Closed (textOf (ys.flatMap Stretch.lines) ++ ['\n']) := by
  rw [List.map_append] at hs
  have hall : zs = [] → stretchesOf (textOf (ys.flatMap Stretch.lines)) = ys.map Stretch.bare := by
    rintro rfl
    rw [List.map_nil, List.append_nil] at hs
    rw [← hs, ← textOf_bares, ← hs, textOf_stretchesOf]
  obtain ⟨hc, -⟩ | hnil | hopen := h.push_append.cases
  · by_cases hzs : zs = []
    · exact Or.inl (hall hzs)
    · have hsplit := stretchesOf_split hs (by simpa using hys) (by simpa using hzs) (by rw [textOf_bares]; exact hc)
      rw [← textOf_bares, hsplit.1]
      exact Or.inl rfl
  · exact Or.inl (hall hnil)
  · exact Or.inr hopen

theorem Made.content (h : Made {} ys zs [b]) (hhead : ∀ y ∈ ys.head?, ¬isBlankText y.first.text) :
    b.content = textOf (ys.flatMap Stretch.lines) ∨
      (tokensOf (ys.flatMap Stretch.lines)).any Token.isUnterminated = false ∧
        b.content = joinLines (dropEndWhile isBlankText ((ys.flatMap Stretch.lines).map Line.text)) := by
  generalize hb : [b] = bs at h
  cases h with
  | draft k =>
    have hkeep : ((ys.flatMap Stretch.lines).map Line.text).dropWhile isBlankText = (ys.flatMap Stretch.lines).map Line.text := by
      cases ys with
      | nil => rfl
      | cons y ys => simp [Stretch.lines, hhead y rfl]
    have htally : (Draft.push {} (ys.flatMap Stretch.lines)).tally.unterminated =
        (tokensOf (ys.flatMap Stretch.lines)).any Token.isUnterminated := by
      simp [Draft.push, Tally.foldl_unterminated, tokensOf]
    have hlines : (Draft.push {} (ys.flatMap Stretch.lines)).lines = ys.flatMap Stretch.lines := rfl
    rw [Draft.block?] at hb
    simp only [hlines, hkeep, htally] at hb
    split at hb
    · cases hb
    split at hb
    · exact Or.inl (congrArg Block.content (List.cons.inj hb).1)
    · next hu => exact Or.inr ⟨by simpa using hu, congrArg Block.content (List.cons.inj hb).1⟩
  | comment hd ho =>
    refine Or.inl ?_
    rw [(List.cons.inj hb).1]
    simp

/-- What the end of a block says where its text does not end. -/
theorem Made.last (h : Made {} ys [⟨{}, []⟩] [b]) (hnext : Next {} (ys ++ [⟨{}, []⟩]))
    (hc : ¬Closed (textOf (ys.flatMap Stretch.lines) ++ ['\n'])) :
    (textOf (ys.flatMap Stretch.lines)).getLast? ≠ some '\n' ∧
      ∀ u, (solidsOf (textOf (ys.flatMap Stretch.lines) ++ ['\n'])).getLast? = some u → u.isUnterminated → u.isComment := by
  have hreads : solidsOf (textOf (ys.flatMap Stretch.lines) ++ ['\n']) = solids (tokensOf (ys.flatMap Stretch.lines)) :=
    hnext.push_append.whole.reads_newline (by simp) hc
  generalize hb : [b] = bs at h
  generalize hzs : ([⟨{}, []⟩] : List Stretch) = zs at h
  cases h with
  | draft k semicolon =>
    obtain ⟨y, hy, hsemi⟩ := semicolon hzs.symm
    obtain ⟨init, rfl⟩ := List.getLast?_eq_some_iff.mp hy
    have hlines : (init ++ [y]).flatMap Stretch.lines = init.flatMap Stretch.lines ++ y.lines := by simp
    rw [hreads, hlines]
    exact ⟨getLast_of_semicolon (hnext.fits y (by simp)) hsemi _, fun u => comment_of_semicolon hsemi _⟩
  | @comment y _ hd ho =>
    have hlines : [y].flatMap Stretch.lines = y.lines := by simp
    rw [hlines] at hreads ⊢
    refine ⟨getLast_of_opening (hnext.fits y (by simp)) ho hreads, fun u hu hopen => ?_⟩
    rw [hreads] at hu
    have hcode := Stretch.code_of_comment ho (hnext.neat y (by simp)) (mem_solids.mp (List.mem_of_getLast? hu)).1
    simpa [Token.isCode, Token.isTrivia, isSpace_of_isUnterminated hopen] using hcode

theorem blocksFrom_content (hmade : Made {} ys zs [b]) (hnext : Next {} (ys ++ zs))
    (hs : stretchesOf s = (ys ++ zs).map Stretch.bare) (hh : hards (textOf (ys.flatMap Stretch.lines)) = 0) (hys : ys ≠ [])
    (hhead : ∀ y ∈ ys.head?, ¬isBlankText y.first.text) : blocksFrom {} (stretchesOf b.content) = blocksFrom {} ys := by
  have hbares : (ys.map Stretch.bare) ≠ [] := by simpa using hys
  rcases hnext.read_front hs hys with hread | ⟨rfl, hopen⟩
  · rcases hmade.content hhead with e | ⟨hu, e⟩
    · rw [e, hread, blocksFrom_bares]
    · -- pieces, of which blank ones at the end are left out
      have hclosed : Closed (textOf (ys.flatMap Stretch.lines)) := hnext.push_append.closed fun t ht => by
        have := List.any_eq_false.mp hu t (by simpa [Draft.push] using ht)
        simpa using this
      have hpieces : ∀ y ∈ ys.map Stretch.bare, Piece y := hread ▸ pieces_stretchesOf hclosed hh
      have htexts : ((ys.map Stretch.bare).flatMap Stretch.lines).map Line.text = (ys.flatMap Stretch.lines).map Line.text := by
        simp [List.flatMap_map, List.map_flatMap, Stretch.lines, Stretch.bare, Function.comp_def, Line.bare]
      rw [e, ← htexts, blocksFrom_trimmed hpieces hbares ?_, blocksFrom_bares]
      intro y hy
      rw [List.head?_map] at hy
      obtain ⟨z, hz, rfl⟩ := Option.map_eq_some_iff.mp hy
      exact hhead z hz
  · -- the comment at the end is longer in the script
    obtain ⟨hlast, hcomment⟩ := hmade.last hnext hopen
    have htext : textOf (ys.flatMap Stretch.lines) ++ ['\n'] = s := by
      rw [← textOf_newline (ne_nil_of_not_closed hopen), ← textOf_stretchesOf s, hs, textOf_bares]
      simp [Stretch.lines]
    have hmasked := stretchesOf_extended hopen hlast hcomment
    rw [htext, hs, List.map_append, List.map_append] at hmasked
    rcases hmade.content hhead with e | ⟨hu, -⟩
    · rw [e, ← blocksFrom_masked (List.append_inj' hmasked rfl).1, blocksFrom_bares]
    · refine absurd (Closed.newline (hnext.push_append.closed fun t ht => ?_)) hopen
      have := List.any_eq_false.mp hu t (by simpa [Draft.push] using ht)
      simpa using this

theorem Made.all_content (h : Made {} ys zs [b]) (hhead : ∀ y ∈ ys.head?, ¬isBlankText y.first.text) {p : Char → Bool}
    (hp : p '\n') (hl : ∀ l ∈ ys.flatMap Stretch.lines, l.text.all p) : b.content.all p := by
  have htexts : ∀ t ∈ (ys.flatMap Stretch.lines).map Line.text, t.all p := by
    intro t ht
    obtain ⟨l, hmem, rfl⟩ := List.mem_map.mp ht
    exact hl l hmem
  rcases h.content hhead with e | ⟨-, e⟩ <;> rw [e]
  · exact all_joinLines hp htexts
  · refine all_joinLines hp fun t ht => htexts t ?_
    rw [← dropEndWhile_append_takeEndWhile isBlankText ((ys.flatMap Stretch.lines).map Line.text)]
    exact List.mem_append_left _ ht

end

theorem shows_tokenize (s : Text) : ∀ x ∈ stretches (lines (tokenize s)), x.Shows := by
  intro x hx hopen hcode t ht
  have hnext := next_tokenize s
  have hread := read_tokenize s x hx
  cases ho : x.opening with
  | blank =>
    have hspace := Stretch.opening_blank ho
    rw [Stretch.lines, hnext.tied x hx hspace, tokensOf_cons, tokensOf_nil, List.append_nil] at ht
    exact isCode_of_isSpace (List.all_eq_true.mp hspace t ht)
  | lineComment =>
    obtain ⟨hmore, -, hall⟩ := Stretch.tokens_of_lineComment hread.ordered (hnext.neat x hx) hread.formed ho
    rw [Stretch.lines, hmore, tokensOf_cons, tokensOf_nil, List.append_nil] at ht
    exact IsNote.isCode hall ht
  | comment => exact Stretch.code_of_comment ho (hnext.neat x hx) ht
  | openComment => exact absurd ho hopen
  | code c f => exact absurd ho (hcode c f)

/-- A block of a script is a script of one block. -/
theorem segment_isolated (script : Text) (hr : '\r' ∉ script) (hv : '\x0b' ∉ script)
    (ha : ∀ c ∈ script, isBlank c → c.toNat < 0x80) : ∀ b ∈ segment script, segment b.content = [b] := by
  intro b hb
  rw [segment, unifyNewlines_eq hr] at hb
  obtain ⟨xs, ys, zs, hsplit, hmade, hrun, hopening⟩ := exists_alone (shows_tokenize script) b hb
  have hread : stretchesOf script = (xs ++ (ys ++ zs)).map Stretch.bare := by rw [stretchesOf, hsplit]
  have htext := textOf_stretchesOf script
  rw [hread, textOf_bares] at htext
  have hlines : ∀ l ∈ (ys ++ zs).flatMap Stretch.lines, l ∈ (xs ++ (ys ++ zs)).flatMap Stretch.lines := by
    intro l hl
    rw [List.flatMap_append]
    exact List.mem_append_right _ hl
  have hfront : ∀ l ∈ ys.flatMap Stretch.lines, l ∈ (ys ++ zs).flatMap Stretch.lines := by
    intro l hl
    rw [List.flatMap_append]
    exact List.mem_append_left _ hl
  have hys : ys ≠ [] := by
    rintro rfl
    cases hrun
  obtain ⟨y, ys', rfl⟩ := List.exists_cons_of_ne_nil hys
  have hy := hopening y rfl
  obtain ⟨hnext, hbehind⟩ := Next.read_behind (hsplit ▸ next_tokenize script) hread (by simp) fun e =>
    hy ((List.cons.inj e).1 ▸ rfl)
  have hhards : ∀ ls : List Line, (∀ l ∈ ls, l ∈ (y :: ys' ++ zs).flatMap Stretch.lines) → hards (textOf ls) = 0 :=
    fun ls h => hards_textOf.mpr fun l hl => hards_textOf.mp (htext ▸ hards_script hv ha) l (hlines l (h l hl))
  have hhead : ∀ z ∈ (y :: ys').head?, ¬isBlankText z.first.text := by
    rintro z hz hblank
    obtain rfl := Option.some.inj hz
    have e := eq_blankStretch hbehind (hhards _ fun l hl => hl) hblank
    have ho := y.opening_bare
    rw [e] at ho
    generalize hy' : y.opening = o at ho
    cases ho
    exact hy hy'
  have hreturn : '\r' ∉ b.content := by
    have hall : b.content.all fun c => c ≠ '\r' := by
      refine hmade.all_content hhead (by decide) fun l hl => List.all_eq_true.mpr fun c hc => ?_
      have hmem : c ∈ textOf ((xs ++ (y :: ys' ++ zs)).flatMap Stretch.lines) :=
        mem_joinLines (List.mem_map_of_mem (hlines l (hfront l hl))) hc
      rw [htext] at hmem
      exact decide_eq_true fun e => hr (e ▸ hmem)
    exact fun h => by simpa using List.all_eq_true.mp hall _ h
  rw [segment_eq, unifyNewlines_eq hreturn, blocksFrom_content hmade hnext hbehind (hhards _ hfront) hys hhead, hrun]

set_option maxRecDepth 100000 in
/-- The comment in front of the INSERT is a block without it, and the one at
the end has no newline there. -/
theorem segment_isolated_insert :
    segment "select a\n\n-- rows\ninsert into t (a)\nselect 1; /* b\n".toList =
        [⟨.select, "select a".toList⟩, ⟨.commentGroup, "-- rows".toList⟩,
          ⟨.generic, "insert into t (a)\nselect 1; /* b".toList⟩] ∧
      segment "-- rows".toList = [⟨.commentGroup, "-- rows".toList⟩] ∧
      segment "insert into t (a)\nselect 1; /* b".toList = [⟨.generic, "insert into t (a)\nselect 1; /* b".toList⟩] := by
  have h : segment "select a\n\n-- rows\ninsert into t (a)\nselect 1; /* b\n".toList =
      [⟨.select, "select a".toList⟩, ⟨.commentGroup, "-- rows".toList⟩,
        ⟨.generic, "insert into t (a)\nselect 1; /* b".toList⟩] := by decide +kernel
  have hall := segment_isolated "select a\n\n-- rows\ninsert into t (a)\nselect 1; /* b\n".toList (by decide +kernel)
    (by decide +kernel) (forall_blank (by decide +kernel))
  rw [h, List.forall_mem_cons, List.forall_mem_cons, List.forall_mem_singleton] at hall
  exact ⟨h, hall.2.1, hall.2.2⟩

end SqlLayout
