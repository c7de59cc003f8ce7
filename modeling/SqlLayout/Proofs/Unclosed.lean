import SqlLayout.Proofs.Trim

/-!
# Texts that end inside a token

A string, a quoted identifier or a comment without its end takes everything
that follows. So it is the last token of its text, and a newline behind the
text becomes a part of it. Behind any other text a newline is space.
-/

namespace SqlLayout

/-! ## One more character -/

theorem takeComment_concat {b : Text} (hb : takeComment b = (b, [])) (hs : ¬['*', '/'] <:+ b) (c : Char) :
    takeComment (b ++ [c]) = (b ++ [c], []) := by
  have happ := takeComment_append (b ++ [c])
  have hend := takeComment_rest (s := b ++ [c])
  have hself := takeComment_self (b ++ [c])
  generalize takeComment (b ++ [c]) = p at happ hend hself ⊢
  obtain ⟨x, y⟩ := p
  by_cases h : y = []
  · subst h
    exact Prod.ext (by simpa using happ) rfl
  -- an end of the comment would stand in `b`
  rcases List.prefix_concat_iff.mp ⟨_, happ⟩ with rfl | ⟨r, rfl⟩
  · exact absurd (List.append_right_eq_self.mp happ) h
  · rw [takeComment_append_stop hself (Or.inl (hend h))] at hb
    exact absurd ((Prod.mk.inj hb).1 ▸ hend h) hs

theorem takeQuoted_concat {q : Char} {b : Text} (hb : takeQuoted q b = (b, []))
    (hs : Token.closesAtEnd q b = false) (c : Char) :
    takeQuoted q (b ++ [c]) = (b ++ [c], []) := by
  have happ := takeQuoted_append q (b ++ [c])
  have hend := @takeQuoted_rest q (b ++ [c])
  generalize takeQuoted q (b ++ [c]) = p at happ hend ⊢
  obtain ⟨x, y⟩ := p
  by_cases h : y = []
  · subst h
    exact Prod.ext (by simpa using happ) rfl
  obtain ⟨hend, hhead⟩ := hend h
  rcases List.prefix_concat_iff.mp ⟨_, happ⟩ with rfl | ⟨r, rfl⟩
  · exact absurd (List.append_right_eq_self.mp happ) h
  · obtain rfl : y = r ++ [c] := by simpa using happ
    rw [takeQuoted_append_stop hend fun he => hhead (by cases r <;> simp_all)] at hb
    rw [← (Prod.mk.inj hb).1] at hs
    exact absurd hend (by simp [hs])

/-- A newline becomes part of a token without its end. -/
theorem Token.Formed.extend {t : Token} (hf : t.Formed) (hu : t.isUnterminated) :
    ∃ t' : Token, t'.Formed ∧ t'.text = t.text ++ ['\n'] ∧ t'.isSpace = false ∧ t'.isComment = t.isComment ∧
      t'.plain = t' := by
  cases t with
  | blockComment w =>
    obtain ⟨b, rfl, hb⟩ := hf
    exact ⟨.blockComment ('/' :: '*' :: (b ++ ['\n'])),
      ⟨_, rfl, takeComment_concat hb ((isUnterminated_blockComment b).mp hu) _⟩, rfl, rfl, rfl, rfl⟩
  | stringLiteral w =>
    obtain ⟨b, rfl, hb⟩ := hf
    have hc : closesAtEnd '\'' b = false := by simpa [isUnterminated, isEnclosed] using hu
    exact ⟨.stringLiteral ('\'' :: (b ++ ['\n'])), ⟨_, rfl, takeQuoted_concat hb hc _⟩, rfl, rfl, rfl, rfl⟩
  | quotedIdentifier w =>
    obtain ⟨b, ⟨rfl, hb⟩ | ⟨rfl, hb⟩⟩ := hf
    · have hc : closesAtEnd '"' b = false := by simpa [isUnterminated, isEnclosed] using hu
      exact ⟨.quotedIdentifier ('"' :: (b ++ ['\n'])),
        ⟨_, Or.inl ⟨rfl, takeQuoted_concat hb hc _⟩⟩, rfl, rfl, rfl, rfl⟩
    · have hc : closesAtEnd ']' b = false := by simpa [isUnterminated, isEnclosed] using hu
      exact ⟨.quotedIdentifier ('[' :: (b ++ ['\n'])),
        ⟨_, Or.inr ⟨rfl, takeQuoted_concat hb hc _⟩⟩, rfl, rfl, rfl, rfl⟩
  | _ => cases hu

/-! ## The last token -/

theorem Token.Stops.eq_nil {t : Token} {s : Text} (hs : t.Stops s) (hu : t.isUnterminated) : s = [] := by
  cases t with
  | blockComment w => exact hs hu
  | stringLiteral w => exact hs.1 hu
  | quotedIdentifier w => exact hs.1 hu
  | _ => cases hu

theorem isSpace_of_isUnterminated {t : Token} (h : t.isUnterminated) : t.isSpace = false := by
  cases t with
  | whitespace w => cases h
  | _ => rfl

theorem plain_of_isUnterminated {t : Token} (h : t.isUnterminated) : t.plain = t := by
  cases t with
  | word w => cases h
  | lineComment c => cases h
  | _ => rfl

theorem Legible.rest_of_isUnterminated {t : Token} {ts : List Token} (h : Legible (t :: ts))
    (hu : t.isUnterminated) : ts = [] := by
  by_contra hne
  have hs := h.2.1.resolve_left (by simp [isSpace_of_isUnterminated hu])
  exact spell_ne_nil h.2.2 hne (hs.eq_nil hu)

/-- Nothing is read behind a token without its end. -/
theorem rest_of_solidsOf {s : Text} {t : Token} {ts : List Token} (h : solidsOf s = t :: ts) (hu : t.isUnterminated) :
    ts = [] := by
  obtain ⟨pre, post, e, -, -, rfl⟩ := List.filter_eq_cons_iff.mp h
  have hl : Legible (pre ++ t :: post) := e ▸ legible_tokenize s
  rw [hl.of_append_right.rest_of_isUnterminated hu]
  rfl

theorem exists_last_of_not_closed {s : Text} (h : ¬Closed s) :
    ∃ ts t, tokenize s = ts ++ [t] ∧ t.isUnterminated := by
  rw [closed_iff] at h
  push Not at h
  obtain ⟨t, ht, hu⟩ := h
  obtain ⟨a, b, e⟩ := List.append_of_mem ht
  have hl : Legible (a ++ t :: b) := e ▸ legible_tokenize s
  have hu : t.isUnterminated := by simpa using hu
  obtain rfl := hl.of_append_right.rest_of_isUnterminated hu
  exact ⟨a, t, e, hu⟩

theorem plainsOf_of_last {s : Text} {ts : List Token} {t : Token} (e : tokenize s = ts ++ [t])
    (hu : t.isUnterminated) : plainsOf s = plains ts ++ [t] := by
  rw [plainsOf, e, plains_append, plains_cons, isSpace_of_isUnterminated hu, plain_of_isUnterminated hu]
  rfl

theorem closed_iff_plainsOf {s : Text} : Closed s ↔ ∀ t ∈ plainsOf s, t.isUnterminated = false := by
  rw [plainsOf_eq, List.forall_mem_map]
  simp [Closed]

theorem last_of_plainsOf_eq {s s' : Text} (h : plainsOf s' = plainsOf s) (hc : ¬Closed s) :
    ∃ ts ts' t, tokenize s = ts ++ [t] ∧ tokenize s' = ts' ++ [t] ∧ t.isUnterminated ∧ plains ts' = plains ts := by
  have hc' : ¬Closed s' := by rwa [closed_iff_plainsOf, h, ← closed_iff_plainsOf]
  obtain ⟨ts, t, e, hu⟩ := exists_last_of_not_closed hc
  obtain ⟨ts', t', e', hu'⟩ := exists_last_of_not_closed hc'
  rw [plainsOf_of_last e hu, plainsOf_of_last e' hu'] at h
  obtain ⟨hp, ht⟩ := List.append_inj' h rfl
  obtain rfl : t' = t := by simpa using ht
  exact ⟨ts, ts', t', e, e', hu, hp⟩

theorem getLast_of_last {s : Text} {ts : List Token} {t : Token} (e : tokenize s = ts ++ [t]) :
    s.getLast? = t.text.getLast? := by
  have hf : t.Formed := formed_of_mem (s := s) (by simp [e])
  rw [← spell_tokenize s, e, spell_append, List.getLast?_append, spell_cons, spell_nil, List.append_nil,
    List.getLast?_eq_some_getLast hf.text_ne_nil]
  rfl

theorem getLast_of_plainsOf_eq {s s' : Text} (h : plainsOf s' = plainsOf s) (hc : ¬Closed s) :
    s'.getLast? = s.getLast? := by
  obtain ⟨ts, ts', t, e, e', -, -⟩ := last_of_plainsOf_eq h hc
  rw [getLast_of_last e, getLast_of_last e']

/-! ## A newline at the end -/

theorem solidsOf_newline {s : Text} (hc : Closed s) : solidsOf (s ++ ['\n']) = solidsOf s := by
  simpa using solidsOf_append_newline hc []

theorem Closed.newline {s : Text} (hc : Closed s) : Closed (s ++ ['\n']) := by
  unfold Closed
  rwa [solidsOf_newline hc]

/-- The newline becomes part of the token at the end. -/
theorem legible_newline_of_last {s : Text} {ts : List Token} {t t' : Token} (e : tokenize s = ts ++ [t])
    (hf : t'.Formed) (ht : t'.text = t.text ++ ['\n']) (hu : t.isUnterminated) :
    Legible (ts ++ [t']) ∧ spell (ts ++ [t']) = s ++ ['\n'] := by
  have hl : Legible (ts ++ [t]) := e ▸ legible_tokenize s
  have hdot : t.text ≠ ['.'] := fun hd => by
    obtain rfl := (hl.formed (t := t) (by simp)).eq_dot hd
    cases hu
  refine ⟨hl.extend_last hf ht hdot, ?_⟩
  rw [← spell_tokenize s, e]
  simp [ht]

theorem solidsOf_newline_of_last {s : Text} {ts : List Token} {t t' : Token} (e : tokenize s = ts ++ [t])
    (hf : t'.Formed) (ht : t'.text = t.text ++ ['\n']) (hu : t.isUnterminated) :
    solidsOf (s ++ ['\n']) = solids (ts ++ [t']) := by
  obtain ⟨hl, espell⟩ := legible_newline_of_last e hf ht hu
  rw [← espell, hl.solidsOf_spell]

theorem plainsOf_newline_of_last {s : Text} {ts : List Token} {t t' : Token} (e : tokenize s = ts ++ [t])
    (hf : t'.Formed) (ht : t'.text = t.text ++ ['\n']) (hu : t.isUnterminated) :
    plainsOf (s ++ ['\n']) = plains (ts ++ [t']) := by
  rw [plainsOf_eq, solidsOf_newline_of_last e hf ht hu, plains]

theorem plainsOf_newline_congr {s s' : Text} (h : plainsOf s' = plainsOf s) :
    plainsOf (s' ++ ['\n']) = plainsOf (s ++ ['\n']) := by
  by_cases hc : Closed s
  · have hc' : Closed s' := by rwa [closed_iff_plainsOf, h, ← closed_iff_plainsOf]
    rw [plainsOf_eq, plainsOf_eq, solidsOf_newline hc, solidsOf_newline hc', ← plainsOf_eq, ← plainsOf_eq, h]
  · obtain ⟨ts, ts', t, e, e', hu, hp⟩ := last_of_plainsOf_eq h hc
    obtain ⟨t', hf, ht, -⟩ := (formed_of_mem (t := t) (s := s) (by simp [e])).extend hu
    rw [plainsOf_newline_of_last e hf ht hu, plainsOf_newline_of_last e' hf ht hu, plains_append, plains_append, hp]

theorem getLast_solids_open {ts : List Token} {t : Token} (h : t.isUnterminated) : (solids (ts ++ [t])).getLast? = some t := by
  simp [solids_cons, isSpace_of_isUnterminated h]

theorem exists_extended {s : Text} (hc : ¬Closed (s ++ ['\n'])) :
    ∃ (ts : List Token) (t t' : Token), tokenize s = ts ++ [t] ∧ t.isUnterminated ∧ t'.isUnterminated ∧ t'.Formed ∧ t'.text = t.text ++ ['\n'] ∧
      t'.isComment = t.isComment := by
  obtain ⟨ts, t, e, hu⟩ := exists_last_of_not_closed fun h => hc (Closed.newline h)
  obtain ⟨us, u, e', hu'⟩ := exists_last_of_not_closed hc
  obtain ⟨t', hf, ht, hs, hcomment, -⟩ := (formed_of_mem (t := t) (s := s) (by simp [e])).extend hu
  have hlast : t' = u := by
    have hone : (solids (us ++ [u])).getLast? = some u := getLast_solids_open hu'
    rw [← e', ← solidsOf, solidsOf_newline_of_last e hf ht hu, solids_append, solids_cons, hs] at hone
    simpa using hone
  exact ⟨ts, t, t', e, hu, hlast ▸ hu', hf, ht, hcomment⟩

theorem eq_blockComment {t : Token} (hu : t.isUnterminated) (hc : t.isComment) : ∃ c, t = .blockComment c := by
  cases t with
  | blockComment c => exact ⟨c, rfl⟩
  | lineComment c => cases hu
  | _ => cases hc

/-- A newline that is part of a comment shows that the text in front of it
ends in that comment. -/
theorem comment_of_newline {s : Text} (hc : ¬Closed (s ++ ['\n']))
    (hlast : ∀ u, (solidsOf (s ++ ['\n'])).getLast? = some u → u.isUnterminated → u.isComment) :
    ∃ c, (solidsOf s).getLast? = some (.blockComment c) := by
  obtain ⟨ts, t, t', e, hu, hu', hf, ht, hcomment⟩ := exists_extended hc
  have hc : t'.isComment := hlast t' (by rw [solidsOf_newline_of_last e hf ht hu, getLast_solids_open hu']) hu'
  obtain ⟨c, rfl⟩ := eq_blockComment hu (hcomment ▸ hc)
  exact ⟨c, by rw [solidsOf, e, getLast_solids_open hu]⟩

/-! ## Blank lines at the end -/

theorem newline_notMem_lineComment {c : Text} (h : (Token.lineComment c).Formed) : '\n' ∉ c := by
  obtain ⟨b, rfl, hb⟩ := h
  have : '\n' ∉ b := fun hn => absurd (List.all_eq_true.mp hb _ hn) (by decide)
  simpa using this

theorem newline_notMem_operator {w : Text} (h : (Token.operator w).Formed) : '\n' ∉ w := by
  obtain ⟨c, hc, hw⟩ := h
  have hne : '\n' ≠ c := by
    rintro rfl
    exact absurd hc (by decide)
  rcases hw with rfl | ⟨d, rfl, hp⟩
  · simpa using hne
  · have hd : '\n' ≠ d := by
      rintro rfl
      exact absurd (isBlank_of_pair hp).2 (by decide)
    simpa using ⟨hne, hd⟩

theorem Token.Formed.cases_of_blank {t : Token} (hf : t.Formed) (hb : t.text.all isBlank) :
    t.isSpace ∨ (∃ w, t = .word w) ∨ ∃ w, t = .operator w := by
  cases t with
  | whitespace w => exact Or.inl rfl
  | word w => exact Or.inr (Or.inl ⟨w, rfl⟩)
  | operator w => exact Or.inr (Or.inr ⟨w, rfl⟩)
  | lineComment w => obtain ⟨b, rfl, -⟩ := hf; cases hb
  | blockComment w => obtain ⟨b, rfl, -⟩ := hf; cases hb
  | stringLiteral w => obtain ⟨b, rfl, -⟩ := hf; cases hb
  | quotedIdentifier w => obtain ⟨b, ⟨rfl, -⟩ | ⟨rfl, -⟩⟩ := hf <;> cases hb
  | number w =>
    obtain ⟨c, hc, hd⟩ := closed_number hf
    exact absurd (List.all_eq_true.mp hb c (List.mem_of_getLast? hc)) (by simp [isBlank_of_isDigit hd])
  | _ => cases hb

/-- A token with its end that goes on over the end of a line is a string, a
quoted identifier or a comment, and ends in no blank. -/
theorem Token.getLast_text {t : Token} (hf : t.Formed) (hu : t.isUnterminated = false) (hs : t.isSpace = false)
    (hn : '\n' ∈ t.text) : t.text.getLast?.all fun c => !isBlank c := by
  have hw : ∀ w, t ≠ .word w := by
    rintro w rfl
    have hflat := isFlat_word hf
    simp only [isFlat, spansLines, isSpace, Bool.and_eq_true, Bool.not_eq_true', Bool.not_false, Bool.true_and,
      List.contains_eq_mem, decide_eq_false_iff_not] at hflat
    exact hflat.2 hn
  have ho : ∀ w, t ≠ .operator w := by
    rintro w rfl
    exact newline_notMem_operator hf hn
  have hc : t.isLineComment = false := by
    by_contra hc
    obtain ⟨c, rfl⟩ := Token.eq_lineComment (by simpa using hc)
    exact newline_notMem_lineComment hf hn
  rcases Token.trimEnd_text hf hu hs hc with h | ⟨-, h | ⟨w, h⟩⟩
  · have := getLast_trimEnd t.text
    rwa [h] at this
  · rcases hf.cases_of_blank (trimEnd_eq_nil.mp h) with h | ⟨w, h⟩ | ⟨w, h⟩
    · rw [hs] at h
      cases h
    · exact absurd h (hw w)
    · exact absurd h (ho w)
  · exact absurd h (hw w)

/-- No token with an end has a newline and blanks behind it. -/
theorem Token.newline_blank_end {t : Token} (hf : t.Formed) (hu : t.isUnterminated = false)
    (hs : t.isSpace = false) {r w : Text} (hw : w.all isBlank) : t.text ≠ r ++ '\n' :: w := by
  intro e
  have hlast := Token.getLast_text hf hu hs (by simp [e])
  obtain ⟨c, hc⟩ : ∃ c, ('\n' :: w).getLast? = some c := ⟨_, List.getLast?_eq_some_getLast (List.cons_ne_nil _ _)⟩
  have hb : isBlank c := by
    rcases List.mem_cons.mp (List.mem_of_getLast? hc) with rfl | hm
    · rfl
    · exact List.all_eq_true.mp hw c hm
  rw [e, List.getLast?_append, hc] at hlast
  simp [hb] at hlast

theorem isUnterminated_of_getLast {t : Token} (hf : t.Formed) (hs : t.isSpace = false)
    (h : t.text.getLast? = some '\n') : t.isUnterminated := by
  obtain ⟨r, e⟩ := List.getLast?_eq_some_iff.mp h
  by_contra hu
  exact Token.newline_blank_end hf (by simpa using hu) hs (w := []) rfl e

theorem solids_blank_end {ts : List Token} (hl : Legible ts) (hc : ∀ t ∈ ts, t.isUnterminated = false)
    {r w : Text} (hw : w.all isBlank) (e : spell ts = r ++ '\n' :: w) :
    solids ts = solidsOf r ++ solidsOf w := by
  induction ts generalizing r with
  | nil => simp at e
  | cons t ts ih =>
    obtain ⟨hft, hst, hlt⟩ := hl
    rw [spell_cons] at e
    rw [solids_cons]
    rcases List.append_eq_append_iff.mp e with ⟨r', rfl, e'⟩ | ⟨v, ht, e'⟩
    · have hr := solidsOf_text_append hft (hst.imp_right (·.of_isPrefix (e' ▸ List.prefix_append r' _)))
      have ih := ih hlt (fun t ht => hc t (List.mem_cons_of_mem _ ht)) e'
      rw [hr, ih]
      split <;> rfl
    · -- what follows the token is blank
      have hrest : solidsOf (v ++ spell ts) = solidsOf w := by
        rw [← e', solidsOf_cons_space (by decide)]
      cases hs : t.isSpace with
      | true =>
        obtain ⟨u, rfl⟩ := Token.eq_whitespace hs
        have hu := hft.2
        rw [show u = r ++ v from ht, List.all_append, Bool.and_eq_true] at hu
        rw [solidsOf_space_append hu.2, hlt.solidsOf_spell] at hrest
        simp [solidsOf_space hu.1, hrest]
      | false =>
        cases v with
        | nil =>
          have := solidsOf_text_append hft (Or.inr t.stops_nil)
          rw [List.append_nil] at ht this
          rw [List.nil_append, hlt.solidsOf_spell] at hrest
          rw [ht, hs, solidsOf_nil] at this
          rw [this, hrest]
          rfl
        | cons d v =>
          obtain ⟨rfl, rfl⟩ := List.cons.inj e'
          rw [List.append_eq, List.all_append, Bool.and_eq_true] at hw
          exact absurd ht (Token.newline_blank_end hft (hc t List.mem_cons_self) hs hw.1)

/-- Blank lines are tokens of their own, if any, behind a text with an end. -/
theorem solidsOf_blank_end {r w : Text} (hc : Closed (r ++ '\n' :: w)) (hw : w.all isBlank) :
    solidsOf (r ++ '\n' :: w) = solidsOf r ++ solidsOf w :=
  solids_blank_end (legible_tokenize _) (closed_iff.mp hc) hw (spell_tokenize _)

theorem solidsOf_space_end {r w : Text} (hc : Closed (r ++ '\n' :: w)) (hw : w.all isSpaceChar) :
    solidsOf (r ++ '\n' :: w) = solidsOf r := by
  have hb : w.all isBlank := List.all_eq_true.mpr fun c h => isBlank_of_isSpaceChar (List.all_eq_true.mp hw c h)
  rw [solidsOf_blank_end hc hb, solidsOf_space hw, List.append_nil]

end SqlLayout
