import SqlLayout.Line
import SqlLayout.Proofs.Rows
import SqlLayout.Proofs.Unclosed

/-!
# Stretches hold whole tokens

A stretch is read as the tokens that start on its lines, so a text can be cut
between two stretches. There is one exception: a newline at the very end of a
token without its end is not in the stretch of that token, but in front of an
empty line of its own (`Sound`).
-/

namespace SqlLayout

/-! ## Texts of lines -/

theorem joinLines_append {ls ms : List Text} (hl : ls ≠ []) (hm : ms ≠ []) :
    joinLines (ls ++ ms) = joinLines ls ++ '\n' :: joinLines ms := by
  obtain ⟨m, ms, rfl⟩ := List.exists_cons_of_ne_nil hm
  induction ls with
  | nil => exact absurd rfl hl
  | cons l ls ih =>
    cases ls with
    | nil => simp
    | cons k ls =>
      have := ih (List.cons_ne_nil _ _)
      rw [List.cons_append] at this
      simp [this]

theorem joinLines_glue (ls : List Text) (a b : Text) (ms : List Text) :
    joinLines (ls ++ (a ++ b) :: ms) = joinLines (ls ++ [a]) ++ joinLines (b :: ms) := by
  have one : joinLines ((a ++ b) :: ms) = a ++ joinLines (b :: ms) := by
    cases ms with
    | nil => simp
    | cons m ms => simp
  by_cases hl : ls = []
  · subst hl; simpa using one
  · rw [joinLines_append hl (List.cons_ne_nil _ _), joinLines_append hl (List.cons_ne_nil _ _), one]
    simp

theorem splitLines_joinLines {ls : List Text} (h : ls ≠ []) (hn : ∀ l ∈ ls, '\n' ∉ l) : splitLines (joinLines ls) = ls :=
  List.splitOn_intercalate '\n' hn h

theorem count_joinLines {ls : List Text} (h : ∀ l ∈ ls, '\n' ∉ l) :
    (joinLines ls).count '\n' = ls.length - 1 := by
  match ls with
  | [] => rfl
  | [l] => simpa using List.count_eq_zero.mpr (h l (by simp))
  | l :: m :: ls =>
    have ih := count_joinLines fun k hk => h k (List.mem_cons_of_mem l hk)
    have hl := List.count_eq_zero.mpr (h l (by simp))
    rw [joinLines_cons_cons, List.count_append, List.count_cons, ih, hl]
    simp

def textOf (ls : List Line) : Text := joinLines (ls.map Line.text)

def tokensOf (ls : List Line) : List Token := ls.flatMap Line.tokens

@[simp] theorem textOf_nil : textOf [] = [] := rfl

@[simp] theorem tokensOf_nil : tokensOf [] = [] := rfl

@[simp] theorem tokensOf_cons (l : Line) (ls : List Line) : tokensOf (l :: ls) = l.tokens ++ tokensOf ls :=
  List.flatMap_cons

@[simp] theorem tokensOf_append (ls ms : List Line) : tokensOf (ls ++ ms) = tokensOf ls ++ tokensOf ms :=
  List.flatMap_append

theorem textOf_append {ls ms : List Line} (hl : ls ≠ []) (hm : ms ≠ []) :
    textOf (ls ++ ms) = textOf ls ++ '\n' :: textOf ms := by
  rw [textOf, List.map_append, joinLines_append (by simpa using hl) (by simpa using hm)]
  rfl

theorem textOf_isPrefix (ls ms : List Line) : textOf ls <+: textOf (ls ++ ms) := by
  by_cases hl : ls = []
  · subst hl; exact List.nil_prefix
  by_cases hm : ms = []
  · subst hm; simp
  · rw [textOf_append hl hm]; exact List.prefix_append _ _

theorem textOf_newline {ls : List Line} (h : ls ≠ []) : textOf (ls ++ [({} : Line)]) = textOf ls ++ ['\n'] :=
  textOf_append h (List.cons_ne_nil _ _)

/-! ## Lines of tokens -/

theorem spread_append (inside : Bool) (l : Line) (ms : List Text) (z : Text) :
    Line.spread inside l (ms ++ [z]) = ms.map (fun m => { text := m, continued := inside }) ++
      [{ l with text := z ++ l.text, continued := inside && z ≠ [] }] := by
  induction ms with
  | nil => rfl
  | cons m ms ih =>
    obtain ⟨x, xs, e⟩ := List.exists_cons_of_ne_nil (List.append_ne_nil_of_right_ne_nil ms (List.cons_ne_nil z []))
    rw [List.cons_append, e, Line.spread, ← e, ih]
    · rfl
    · exact List.cons_ne_nil x xs

/-- A token stays on the first line, or spreads over new lines in front of
that and runs into it. -/
theorem lines_cons {t : Token} {ts : List Token} {l : Line} {ls : List Line} (h : lines ts = l :: ls) :
    ('\n' ∉ t.text ∧ lines (t :: ts) = { l with text := t.text ++ l.text, tokens := t :: l.tokens } :: ls) ∨
      ∃ p ms z, t.text = joinLines (p :: ms ++ [z]) ∧ (∀ x ∈ p :: ms ++ [z], '\n' ∉ x) ∧
        lines (t :: ts) = { text := p, tokens := [t] } :: ms.map (fun m => { text := m, continued := !t.isSpace }) ++
          { l with text := z ++ l.text, continued := !t.isSpace && z ≠ [] } :: ls := by
  have hjoin := joinLines_splitLines t.text
  have hnew : ∀ x ∈ splitLines t.text, '\n' ∉ x := fun x => newline_notMem_splitLines
  rw [lines, h]
  simp only
  cases e : splitLines t.text with
  | nil => exact absurd e (splitLines_ne_nil _)
  | cons p ps =>
    rw [e] at hjoin hnew
    cases ps with
    | nil =>
      rw [joinLines_singleton] at hjoin
      exact Or.inl ⟨hjoin ▸ hnew p (by simp), rfl⟩
    | cons q ps =>
      obtain ⟨ms, z, ez⟩ := List.eq_nil_or_concat (q :: ps) |>.resolve_left (List.cons_ne_nil _ _)
      rw [List.concat_eq_append] at ez
      rw [ez] at hjoin hnew
      exact Or.inr ⟨p, ms, z, hjoin.symm, hnew, by simp [ez, spread_append]⟩

theorem lines_ne_nil (ts : List Token) : lines ts ≠ [] := by
  induction ts with
  | nil => exact List.cons_ne_nil _ _
  | cons t ts ih =>
    obtain ⟨l, ls, h⟩ := List.exists_cons_of_ne_nil ih
    rcases lines_cons (t := t) h with ⟨-, e⟩ | ⟨p, ms, z, -, -, e⟩ <;> simp [e]

theorem textOf_lines (ts : List Token) : textOf (lines ts) = spell ts := by
  induction ts with
  | nil => rfl
  | cons t ts ih =>
    obtain ⟨l, ls, h⟩ := List.exists_cons_of_ne_nil (lines_ne_nil ts)
    rw [spell_cons, ← ih, h]
    rcases lines_cons (t := t) h with ⟨-, e⟩ | ⟨p, ms, z, et, -, e⟩
    · rw [e]
      simpa [textOf] using joinLines_glue [] t.text l.text (ls.map Line.text)
    · rw [e, et]
      have := joinLines_glue (p :: ms) z l.text (ls.map Line.text)
      simpa [textOf, Function.comp_def] using this

structure Line.Fits (l : Line) : Prop where
  newline_notMem : '\n' ∉ l.text
  semicolon : .semicolon ∈ l.tokens → l.text ≠ []

theorem fits_of_mem_lines {ts : List Token} : ∀ l ∈ lines ts, l.Fits := by
  induction ts with
  | nil =>
    intro l hl
    obtain rfl : l = {} := by simpa [lines] using hl
    exact ⟨by simp, by simp⟩
  | cons t ts ih =>
    obtain ⟨l, ls, h⟩ := List.exists_cons_of_ne_nil (lines_ne_nil ts)
    rw [h] at ih
    have hl := ih l (by simp)
    intro k hk
    rcases lines_cons (t := t) h with ⟨hn, e⟩ | ⟨p, ms, z, et, hn, e⟩
    · rw [e] at hk
      rcases List.mem_cons.mp hk with rfl | hk
      · refine ⟨by simp [hn, hl.newline_notMem], fun hs => ?_⟩
        rcases List.mem_cons.mp hs with rfl | hs
        · simp [Token.text]
        · simp [hl.semicolon hs]
      · exact ih k (by simp [hk])
    · rw [e] at hk
      simp only [List.cons_append, List.mem_cons, List.mem_append, List.mem_map] at hk hn
      rcases hk with rfl | ⟨m, hm, rfl⟩ | rfl | hk
      · refine ⟨hn p (Or.inl rfl), fun hs => ?_⟩
        obtain rfl : Token.semicolon = t := by simpa using hs
        -- a semicolon does not span lines
        have := congrArg (List.count '\n') et
        rw [count_joinLines (by simpa using hn)] at this
        simp [Token.text] at this
      · exact ⟨hn m (Or.inr (Or.inl hm)), by simp⟩
      · refine ⟨by simp [hl.newline_notMem, hn z], fun hs => ?_⟩
        simp [hl.semicolon hs]
      · exact ih k (by simp [hk])

theorem map_text_lines (s : Text) : (lines (tokenize s)).map Line.text = splitLines s := by
  have hnew : ∀ l ∈ (lines (tokenize s)).map Line.text, '\n' ∉ l := by
    intro l hl
    obtain ⟨k, hk, rfl⟩ := List.mem_map.mp hl
    exact (fits_of_mem_lines k hk).newline_notMem
  rw [← splitLines_joinLines (by simp [lines_ne_nil]) hnew, ← textOf, textOf_lines, spell_tokenize]

/-! ## Stretches of lines -/

theorem stretches_cons (l : Line) (ls : List Line) :
    stretches (l :: ls) = ⟨l, ls.takeWhile Line.continued⟩ :: stretches (ls.dropWhile Line.continued) := by
  rw [stretches]

theorem flatMap_stretches (ls : List Line) : (stretches ls).flatMap Stretch.lines = ls := by
  fun_induction stretches ls with
  | case1 => rfl
  | case2 l ls ih => rw [List.flatMap_cons, ih, Stretch.lines, List.cons_append, List.takeWhile_append_dropWhile]

/-- Each piece of the lines is read as the tokens that start on it, and ends
where its last token ends. -/
inductive Whole : List (List Line) → Prop
  | nil : Whole []
  | cons {ls : List Line} {rest : List (List Line)} (reads : solidsOf (textOf ls) = solids (tokensOf ls))
      (closed : Closed (textOf ls) ∨ rest = []) (whole : Whole rest) : Whole (ls :: rest)
  | cut {ls : List Line} (reads : solidsOf (textOf ls ++ ['\n']) = solids (tokensOf ls))
      (notClosed : ¬Closed (textOf ls ++ ['\n'])) : Whole [ls, [{}]]

theorem ne_nil_of_not_closed {ls : List Line} (h : ¬Closed (textOf ls ++ ['\n'])) : ls ≠ [] := by
  rintro rfl
  exact h fun t ht => by simp [solidsOf_space (w := ['\n']) rfl] at ht

theorem Whole.front {ls ls' : List Line} {rest : List (List Line)} (h : Whole (ls :: rest)) (w : Text)
    (us : List Token) (htext : textOf ls' = w ++ textOf ls) (htokens : tokensOf ls' = us ++ tokensOf ls)
    (hreads : ∀ x, x <+: textOf (ls :: rest).flatten → solidsOf (w ++ x) = solids us ++ solidsOf x)
    (hus : (∀ u ∈ us, u.isUnterminated = false) ∨ rest = []) : Whole (ls' :: rest) := by
  cases h with
  | cons reads closed whole =>
    have e : solidsOf (textOf ls') = solids us ++ solidsOf (textOf ls) := by
      rw [htext]
      exact hreads _ (textOf_isPrefix ls rest.flatten)
    refine .cons (by rw [e, reads, htokens, solids_append]) ?_ whole
    rcases hus with hus | hus
    · refine closed.imp_left fun hc t ht => ?_
      rcases List.mem_append.mp (e ▸ ht) with ht | ht
      · exact hus t (mem_solids.mp ht).1
      · exact hc t ht
    · exact Or.inr hus
  | cut reads notClosed =>
    have htotal : textOf ls ++ ['\n'] = textOf [ls, [{}]].flatten :=
      (textOf_newline (ne_nil_of_not_closed notClosed)).symm
    have e : solidsOf (textOf ls' ++ ['\n']) = solids us ++ solidsOf (textOf ls ++ ['\n']) := by
      rw [htext, List.append_assoc]
      exact hreads _ (htotal ▸ List.prefix_refl _)
    refine .cut (by rw [e, reads, htokens, solids_append]) fun hc => notClosed fun t ht => ?_
    exact hc t (e ▸ List.mem_append_right _ ht)

theorem solidsOf_textOf_append {ls ms : List Line} (h : Closed (textOf ls)) :
    solidsOf (textOf (ls ++ ms)) = solidsOf (textOf ls) ++ solidsOf (textOf ms) := by
  by_cases hl : ls = []
  · subst hl; simp
  by_cases hm : ms = []
  · subst hm; simp
  · rw [textOf_append hl hm, solidsOf_append_newline h]

theorem Whole.merge {ls ms : List Line} {rest : List (List Line)} (h : Whole (ls :: ms :: rest)) :
    Whole ((ls ++ ms) :: rest) := by
  cases h with
  | cons reads closed whole =>
    have hc := closed.resolve_right (List.cons_ne_nil _ _)
    cases whole with
    | cons reads' closed' whole =>
      have e := @solidsOf_textOf_append ls ms hc
      refine .cons (by rw [e, reads, reads', tokensOf_append, solids_append]) (closed'.imp_left fun hc' t ht => ?_) whole
      rcases List.mem_append.mp (e ▸ ht) with ht | ht
      · exact hc t ht
      · exact hc' t ht
    | cut reads' notClosed =>
      have hm := ne_nil_of_not_closed notClosed
      have e : solidsOf (textOf (ls ++ ms) ++ ['\n']) = solidsOf (textOf ls) ++ solidsOf (textOf ms ++ ['\n']) := by
        rw [← textOf_newline hm, ← textOf_newline (by simp [hm]), List.append_assoc, solidsOf_textOf_append hc]
      refine .cut (by rw [e, reads, reads', tokensOf_append, solids_append]) fun hc => notClosed fun t ht => ?_
      exact hc t (e ▸ List.mem_append_right _ ht)
  | cut reads notClosed =>
    exact .cons (by rw [textOf_newline (ne_nil_of_not_closed notClosed), reads]; simp) (Or.inr rfl) .nil

/-- More lines follow only where a token runs into them. -/
def Stretch.Tied (s : Stretch) : Prop := s.first.tokens.all Token.isSpace → s.more = []

structure Sound (ss : List Stretch) : Prop where
  whole : Whole (ss.map Stretch.lines)
  tied : ∀ s ∈ ss, s.Tied

theorem sound_blank {l : Line} {ss : List Stretch} (hl : l.text.all isSpaceChar) (ht : l.tokens.all Token.isSpace)
    (h : Sound ss) : Sound (⟨l, []⟩ :: ss) where
  whole := by
    have htext : solidsOf (textOf [l]) = [] := by simpa [textOf] using solidsOf_space hl
    refine .cons ?_ (Or.inl fun t ht => ?_) h.whole
    · change solidsOf (textOf [l]) = solids (tokensOf [l])
      rw [htext, tokensOf_cons, tokensOf_nil, List.append_nil, solids_eq_nil.mpr ht]
    · have ht : t ∈ solidsOf (textOf [l]) := ht
      rw [htext] at ht
      cases ht
  tied := by
    intro s hs
    rcases List.mem_cons.mp hs with rfl | hs
    · exact fun _ => rfl
    · exact h.tied s hs

/-- Blank lines in front of a line that is not continued. -/
theorem sound_blanks {ks : List Line} {l : Line} {ls : List Line} (hl : l.continued = false)
    (h : Sound (stretches (l :: ls)))
    (hk : ∀ k ∈ ks, k.continued = false ∧ k.text.all isSpaceChar ∧ k.tokens.all Token.isSpace) :
    Sound (stretches (ks ++ l :: ls)) := by
  induction ks with
  | nil => exact h
  | cons k ks ih =>
    have ih := ih fun k hk' => hk k (by simp [hk'])
    obtain ⟨x, xs, e, hx⟩ : ∃ x xs, ks ++ l :: ls = x :: xs ∧ x.continued = false := by
      cases ks with
      | nil => exact ⟨l, ls, rfl, hl⟩
      | cons k' ks => exact ⟨k', ks ++ l :: ls, rfl, (hk k' (by simp)).1⟩
    rw [List.cons_append, stretches_cons, e, List.takeWhile_cons_of_neg (by simp [hx]),
      List.dropWhile_cons_of_neg (by simp [hx]), ← e]
    exact sound_blank (hk k (by simp)).2.1 (hk k (by simp)).2.2 ih

theorem mem_joinLines {ls : List Text} {l : Text} (h : l ∈ ls) {c : Char} (hc : c ∈ l) : c ∈ joinLines ls := by
  match ls with
  | [m] =>
    obtain rfl : l = m := by simpa using h
    simpa using hc
  | m :: k :: ls =>
    rw [joinLines_cons_cons]
    rcases List.mem_cons.mp h with rfl | h
    · exact List.mem_append_left _ hc
    · exact List.mem_append_right _ (List.mem_cons_of_mem _ (mem_joinLines h hc))

def insides (ms : List Text) : List Line := ms.map fun m => { text := m, continued := true }

theorem insides_continued {ms : List Text} : ∀ k ∈ insides ms, k.continued := by
  intro k hk
  obtain ⟨m, -, rfl⟩ := List.mem_map.mp hk
  rfl

@[simp] theorem tokensOf_insides (ms : List Text) : tokensOf (insides ms) = [] :=
  List.flatMap_eq_nil_iff.mpr fun k hk => by
    obtain ⟨m, -, rfl⟩ := List.mem_map.mp hk
    rfl

@[simp] theorem map_text_insides (ms : List Text) : (insides ms).map Line.text = ms := by
  simp [insides, Function.comp_def]

section
variable {t : Token} {l : Line} {ls : List Line}

structure Leading (t : Token) (l : Line) (ls : List Line) : Prop where
  reads : ∀ x, x <+: textOf (l :: ls) → solidsOf (t.text ++ x) = solids [t] ++ solidsOf x
  last : t.isUnterminated → l = {} ∧ ls = []

theorem Legible.leading {ts : List Token} (hl : Legible (t :: ts)) (h : lines ts = l :: ls) : Leading t l ls where
  reads := by
    intro x hx
    rw [← h, textOf_lines] at hx
    rw [solidsOf_text_append hl.1 (hl.2.1.imp_right (·.of_isPrefix hx)), solids_cons]
    split <;> rfl
  last := by
    intro hu
    rw [hl.rest_of_isUnterminated hu, lines] at h
    cases h
    exact ⟨rfl, rfl⟩

theorem Leading.front (hlead : Leading t l ls) (hs : Sound (stretches (l :: ls))) {s : Stretch}
    (htext : textOf s.lines = t.text ++ textOf (l :: ls.takeWhile Line.continued))
    (htokens : tokensOf s.lines = t :: tokensOf (l :: ls.takeWhile Line.continued)) (htied : s.Tied) :
    Sound (s :: stretches (ls.dropWhile Line.continued)) := by
  have htotal := flatMap_stretches (l :: ls)
  rw [stretches_cons] at hs htotal
  refine ⟨?_, fun s' hs' => ?_⟩
  · refine hs.whole.front t.text [t] htext htokens ?_ ?_
    · rw [← List.map_cons, ← List.flatMap_def, htotal]
      exact hlead.reads
    · cases hu : t.isUnterminated with
      | false => exact Or.inl (by simpa using hu)
      | true => rw [(hlead.last hu).2, List.dropWhile_nil, stretches]; exact Or.inr rfl
  · rcases List.mem_cons.mp hs' with rfl | hs'
    · exact htied
    · exact hs.tied s' (List.mem_cons_of_mem _ hs')

theorem tied_first (hs : Sound (stretches (l :: ls))) : Stretch.Tied ⟨l, ls.takeWhile Line.continued⟩ :=
  hs.tied _ (by rw [stretches_cons]; exact List.mem_cons_self)

theorem Leading.sound_inline (hlead : Leading t l ls) (hs : Sound (stretches (l :: ls))) :
    Sound (stretches ({ l with text := t.text ++ l.text, tokens := t :: l.tokens } :: ls)) := by
  have htied := tied_first hs
  rw [stretches_cons]
  refine hlead.front hs ?_ rfl fun h => htied ?_
  · simpa [Stretch.lines, textOf] using
      joinLines_glue [] t.text l.text ((ls.takeWhile Line.continued).map Line.text)
  · simp only [List.all_cons, Bool.and_eq_true] at h
    exact h.2

theorem sound_space {p z : Text} {ms : List Text} (ht : t.isSpace)
    (hspace : ∀ m ∈ p :: ms ++ [z], m.all isSpaceChar) (hs : Sound (stretches (l :: ls))) :
    Sound (stretches ({ text := p, tokens := [t] } :: ms.map (fun m => { text := m, continued := false }) ++
      { l with text := z ++ l.text, continued := false } :: ls)) := by
  have htied := tied_first hs
  refine sound_blanks rfl ?_ fun k hk => ?_
  · rw [stretches_cons] at hs ⊢
    refine ⟨hs.whole.front z [] ?_ rfl (fun x _ => ?_) (Or.inl (by simp)), fun s' hs' => ?_⟩
    · simpa [Stretch.lines, textOf] using
        joinLines_glue [] z l.text ((ls.takeWhile Line.continued).map Line.text)
    · simpa using solidsOf_space_append (hspace z (by simp)) x
    · rcases List.mem_cons.mp hs' with rfl | hs'
      · exact htied
      · exact hs.tied s' (List.mem_cons_of_mem _ hs')
  · rcases List.mem_cons.mp hk with rfl | hk
    · exact ⟨rfl, hspace p (by simp), by simpa using ht⟩
    · obtain ⟨m, hm, rfl⟩ := List.mem_map.mp hk
      exact ⟨rfl, hspace m (by simp [hm]), rfl⟩

theorem Leading.sound_inside {p z : Text} {ms : List Text} (hlead : Leading t l ls) (ht : t.isSpace = false)
    (e : t.text = joinLines (p :: ms ++ [z])) (hs : Sound (stretches (l :: ls))) :
    Sound (stretches ({ text := p, tokens := [t] } :: (insides ms ++
      { l with text := z ++ l.text, continued := true } :: ls))) := by
  rw [stretches_cons, List.takeWhile_append_of_pos insides_continued, List.dropWhile_append_of_pos insides_continued,
    List.takeWhile_cons_of_pos rfl, List.dropWhile_cons_of_pos rfl]
  refine hlead.front hs ?_ (by simp [Stretch.lines]) fun h => by simp [ht] at h
  have := joinLines_glue (p :: ms) z l.text ((ls.takeWhile Line.continued).map Line.text)
  rw [e]
  simpa [Stretch.lines, textOf] using this

/-- A token without its end whose last character is a newline. -/
theorem Leading.sound_cut {p : Text} {ms : List Text} (hlead : Leading t {} []) (hu : t.isUnterminated)
    (e : t.text = joinLines (p :: ms ++ [[]])) :
    Sound (stretches ({ text := p, tokens := [t] } :: (insides ms ++ [({} : Line)]))) := by
  have ht := isSpace_of_isUnterminated hu
  have htext : textOf ({ text := p, tokens := [t] } :: insides ms) ++ ['\n'] = t.text := by
    rw [e, joinLines_append (List.cons_ne_nil _ _) (List.cons_ne_nil _ _)]
    simp [textOf]
  have hsolids : solidsOf t.text = [t] := by simpa [solids_cons, ht] using hlead.reads [] List.nil_prefix
  have hcut : Whole [{ text := p, tokens := [t] } :: insides ms, [{}]] := by
    refine .cut ?_ fun hc => ?_
    · rw [htext, hsolids]
      simp [solids_cons, ht]
    · rw [htext] at hc
      simpa [hu] using hc t (by simp [hsolids])
  have hstretches : stretches ({ text := p, tokens := [t] } :: (insides ms ++ [({} : Line)])) =
      [⟨{ text := p, tokens := [t] }, insides ms⟩, ⟨{}, []⟩] := by
    rw [stretches_cons, List.takeWhile_append_of_pos insides_continued,
      List.dropWhile_append_of_pos insides_continued]
    simp [stretches]
  rw [hstretches]
  refine ⟨hcut, fun s hs => ?_⟩
  simp only [List.mem_cons, List.not_mem_nil, or_false] at hs
  rcases hs with rfl | rfl
  · exact fun h => by simp [ht] at h
  · exact fun _ => rfl

end

theorem sound_stretches {ts : List Token} (hl : Legible ts) :
    Sound (stretches (lines ts)) := by
  induction ts with
  | nil =>
    rw [lines, stretches_cons]
    exact sound_blank rfl rfl (by rw [List.dropWhile_nil, stretches]; exact ⟨.nil, by simp⟩)
  | cons t ts ih =>
    have ih := ih hl.2.2
    obtain ⟨l, ls, h⟩ := List.exists_cons_of_ne_nil (lines_ne_nil ts)
    have hlead := hl.leading h
    rw [h] at ih
    rcases lines_cons (t := t) h with ⟨-, e⟩ | ⟨p, ms, z, et, -, e⟩
    · rw [e]
      exact hlead.sound_inline ih
    rw [e]
    cases hs : t.isSpace with
    | true =>
      match t, hs, hl.1, et with
      | .whitespace v, _, hf, et =>
        refine sound_space rfl (fun m hm => ?_) ih
        rw [List.all_eq_true]
        exact fun c hc => List.all_eq_true.mp hf.2 c ((show v = _ from et) ▸ mem_joinLines hm hc)
    | false =>
      by_cases hz : z = []
      · subst hz
        have hu : t.isUnterminated := by
          refine isUnterminated_of_getLast hl.1 hs ?_
          rw [et, joinLines_append (List.cons_ne_nil _ _) (List.cons_ne_nil _ _)]
          simp
        obtain ⟨rfl, rfl⟩ := hlead.last hu
        simpa [insides] using hlead.sound_cut hu et
      · simpa [insides, hz] using hlead.sound_inside hs et ih

/-! ## What stands behind a token on its line -/

theorem isSpace_of_head {t : Token} (hf : t.Formed) (h : t.text.head? = some '\n') : t.isSpace := by
  obtain ⟨r, e⟩ : ∃ r, t.text = '\n' :: r := by
    cases ht : t.text with
    | nil => simp [ht] at h
    | cons c r => exact ⟨r, by simpa [ht] using h⟩
  have hscan := scan_text_append hf t.stops_nil e
  rw [scan, if_pos (by decide)] at hscan
  rw [← (Prod.mk.inj hscan).1]
  rfl

theorem isCode_of_isSpace {t : Token} (h : t.isSpace) : t.isCode = false := by
  simp [Token.isCode, Token.isTrivia, h]

theorem filter_isCode_solids (ts : List Token) : (solids ts).filter Token.isCode = ts.filter Token.isCode := by
  rw [solids, List.filter_filter]
  refine List.filter_congr fun t _ => ?_
  cases t <;> rfl

theorem isCode_of_isComment {t : Token} (h : t.isComment) : t.isCode = false := by
  simp [Token.isCode, Token.isTrivia, h]

theorem tokens_eq_dropWhile {l : Line} {t : Token} {ts : List Token} (h : l.tokens.dropWhile Token.isSpace = t :: ts) :
    ∃ sp, (∀ u ∈ sp, u.isSpace) ∧ l.tokens = sp ++ t :: ts :=
  ⟨l.tokens.takeWhile Token.isSpace, fun _ => List.mem_takeWhile_imp, by rw [← h, List.takeWhile_append_dropWhile]⟩

/-- Behind a line comment stands nothing but space, and nothing at all behind a
token that goes on over the end of the line. -/
structure Line.Neat (l : Line) : Prop where
  lineComment : ∀ pre c post, l.tokens = pre ++ .lineComment c :: post → post.all Token.isSpace
  newline : ∀ pre t post, l.tokens = pre ++ t :: post → '\n' ∈ t.text → post = []

theorem neat_nil {l : Line} (h : l.tokens = []) : l.Neat := by
  constructor <;> intro pre _ post e <;> simp [h] at e

theorem neat_singleton {l : Line} {t : Token} (h : l.tokens = [t]) : l.Neat := by
  have hpost : ∀ {pre post : List Token} {u : Token}, l.tokens = pre ++ u :: post → post = [] := by
    intro pre post u e
    rw [h] at e
    cases pre with
    | nil => exact (List.cons.inj e).2.symm
    | cons v pre => simp at e
  exact ⟨fun _ _ _ e => by simp [hpost e], fun _ _ _ e _ => hpost e⟩

/-- The line behind a line comment is empty, or starts with the newline. -/
theorem space_behind_comment {c : Text} {ts : List Token} (h : Legible (.lineComment c :: ts)) {l : Line} {ls : List Line}
    (e : lines ts = l :: ls) : l.tokens.all Token.isSpace := by
  cases ts with
  | nil =>
    obtain ⟨rfl, -⟩ := List.cons.inj e
    rfl
  | cons u us =>
    have hu := h.2.2.1
    have hhead : u.text.head? = some '\n' := by
      have hstop : (u.text ++ spell us).head?.all (· = '\n') := h.2.1.resolve_left (by simp [Token.isSpace])
      obtain ⟨d, r, ht⟩ := List.exists_cons_of_ne_nil hu.text_ne_nil
      simpa [ht] using hstop
    obtain ⟨k, ks, ek⟩ := List.exists_cons_of_ne_nil (lines_ne_nil us)
    rcases lines_cons (t := u) ek with ⟨hn, -⟩ | ⟨p, ms, z, -, -, e'⟩
    · exact absurd (List.mem_of_head? hhead) hn
    · rw [e', List.cons_append] at e
      rw [← (List.cons.inj e).1]
      simpa using isSpace_of_head hu hhead

theorem neat_lines {ts : List Token} (h : Legible ts) : ∀ l ∈ lines ts, l.Neat := by
  induction ts with
  | nil =>
    intro l hl
    obtain rfl : l = {} := by simpa [lines] using hl
    exact neat_nil rfl
  | cons t ts ih =>
    obtain ⟨l, ls, e⟩ := List.exists_cons_of_ne_nil (lines_ne_nil ts)
    have ih := ih h.2.2
    rw [e] at ih
    have hl := ih l List.mem_cons_self
    intro k hk
    rcases lines_cons (t := t) e with ⟨hn, e'⟩ | ⟨p, ms, z, -, -, e'⟩
    · rw [e'] at hk
      rcases List.mem_cons.mp hk with rfl | hk
      · refine ⟨fun pre c post ep => ?_, fun pre u post ep hu => ?_⟩
        · cases pre with
          | nil =>
            obtain ⟨rfl, rfl⟩ := List.cons.inj ep
            exact space_behind_comment h e
          | cons v pre => exact hl.lineComment pre c post (List.cons.inj ep).2
        · cases pre with
          | nil => exact absurd ((List.cons.inj ep).1 ▸ hu) hn
          | cons v pre => exact hl.newline pre u post (List.cons.inj ep).2 hu
      · exact ih k (List.mem_cons_of_mem _ hk)
    · rw [e', List.cons_append] at hk
      rcases List.mem_cons.mp hk with rfl | hk
      · exact neat_singleton rfl
      rcases List.mem_append.mp hk with hk | hk
      · obtain ⟨m, -, rfl⟩ := List.mem_map.mp hk
        exact neat_nil rfl
      rcases List.mem_cons.mp hk with rfl | hk
      · exact ⟨hl.lineComment, hl.newline⟩
      · exact ih k (List.mem_cons_of_mem _ hk)

end SqlLayout
