import SqlLayout.Proofs.Newlines
import SqlLayout.Proofs.Preserved
import SqlLayout.Proofs.Readers
import SqlLayout.Proofs.Shades
import SqlLayout.Proofs.Tiles

/-!
# Texts with the same tokens

Two texts match when they have the same tokens but for the letter case of
words: in upper case they are equal, and so are their tokens in plain form
(`matching_iff`). Matching scripts are cut at the same lines into blocks of the
same kinds that match.
-/

namespace SqlLayout

/-- The same token, or two words that differ in letter case only. -/
def Token.Matches (t u : Token) : Prop :=
  t = u ∨ ∃ v w, t = .word v ∧ u = .word w ∧ SqlLayout.upper v = SqlLayout.upper w

def Matching (s s' : Text) : Prop := List.Forall₂ Token.Matches (tokenize s) (tokenize s')

/-! ## Tokens -/

@[simp] theorem plain_upper (t : Token) : t.upper.plain = t.plain.upper := by
  cases t with
  | word w => simp [Token.upper, Token.plain]
  | lineComment c => simp [Token.upper, Token.plain]
  | _ => rfl

theorem plains_raise (ts : List Token) : plains (raise ts) = raise (plains ts) := by
  induction ts with
  | nil => rfl
  | cons t ts ih =>
    rw [raise_cons, plains_cons, plains_cons, Token.isSpace_upper, ih, plain_upper]
    split <;> rfl

theorem plainsOf_upper (s : Text) : plainsOf (upper s) = raise (plainsOf s) := by
  rw [plainsOf, tokenize_upper_raise, plains_raise, plainsOf]

theorem raise_plainsOf_congr {s s' : Text} (h : upper s = upper s') : raise (plainsOf s) = raise (plainsOf s') := by
  rw [← plainsOf_upper, h, plainsOf_upper]

theorem Token.eq_of_text {t u : Token} (h : t.upper = u.upper) (ht : t.text = u.text) : t = u := by
  cases t <;> cases u <;> simp_all [upper, text]

theorem upper_of_blank {w : Text} (h : w.all isBlank) : upper w = w := by
  refine (List.map_congr_left fun c hc => ?_).trans (List.map_id w)
  rcases toUpper_cases c with e | ⟨ha, -⟩
  · exact e
  · have := List.all_eq_true.mp h c hc
    rw [isBlank_of_isAlpha ha] at this
    cases this

theorem eq_of_trimEnd {s s' : Text} (h : upper s = upper s') (ht : trimEnd s = trimEnd s') : s = s' := by
  have hblank : ∀ s : Text, (takeEndWhile isBlank s).all isBlank := by
    intro s
    rw [takeEndWhile, List.all_reverse]
    exact List.all_takeWhile
  have hend : takeEndWhile isBlank s = takeEndWhile isBlank s' := by
    rw [← upper_of_blank (hblank s), ← upper_of_blank (hblank s'), upper, upper,
      ← takeEndWhile_map_self isBlank_toUpper, ← takeEndWhile_map_self isBlank_toUpper]
    exact congrArg _ h
  rw [← dropEndWhile_append_takeEndWhile isBlank s, ← dropEndWhile_append_takeEndWhile isBlank s', hend]
  exact congrArg (· ++ _) ht

namespace Token.Matches

variable {t u : Token}

theorem upper (h : t.Matches u) : t.upper = u.upper := by
  rcases h with rfl | ⟨v, w, rfl, rfl, h⟩
  · rfl
  · simp [Token.upper, h]

theorem plain (h : t.Matches u) : t.plain = u.plain := by
  rcases h with rfl | ⟨v, w, rfl, rfl, h⟩
  · rfl
  · simp [Token.plain, h]

theorem isSpace (h : t.Matches u) : t.isSpace = u.isSpace := by
  rw [← t.isSpace_plain, h.plain, u.isSpace_plain]

theorem of_upper (h : t.upper = u.upper) (hf : t.Formed) (hf' : u.Formed) (hp : t.isSpace = false → t.plain = u.plain) :
    t.Matches u := by
  cases t with
  | word v =>
    have hp := hp rfl
    cases u with
    | word w => exact Or.inr ⟨v, w, rfl, rfl, by simpa [Token.plain] using hp⟩
    | _ => cases h
  | lineComment c =>
    have hp := hp rfl
    cases u with
    | lineComment c' =>
      refine Or.inl (congrArg _ (eq_of_trimEnd ?_ ?_))
      · exact Token.lineComment.inj h
      · exact Token.lineComment.inj hp
    | _ => cases h
  | whitespace w =>
    cases u with
    | whitespace w' =>
      have blank : ∀ {w : Text}, (Token.whitespace w).Formed → w.all isBlank := fun h =>
        List.all_eq_true.mpr fun c hc => isBlank_of_isSpaceChar (List.all_eq_true.mp h.2 c hc)
      have he := Token.whitespace.inj h
      rw [upper_of_blank (blank hf), upper_of_blank (blank hf')] at he
      exact Or.inl (congrArg _ he)
    | _ => cases h
  | _ =>
    have hp := hp rfl
    cases u <;> first | exact Or.inl hp | cases h

end Token.Matches

theorem matches_plains {ts us : List Token} (h : List.Forall₂ Token.Matches ts us) :
    raise ts = raise us ∧ plains ts = plains us := by
  induction h with
  | nil => exact ⟨rfl, rfl⟩
  | cons h _ ih =>
    refine ⟨?_, ?_⟩
    · rw [raise_cons, raise_cons, h.upper, ih.1]
    · rw [plains_cons, plains_cons, h.isSpace, h.plain, ih.2]

theorem matches_of_plains {ts us : List Token} (hts : ∀ t ∈ ts, t.Formed) (hus : ∀ u ∈ us, u.Formed)
    (hr : raise ts = raise us) (hp : plains ts = plains us) : List.Forall₂ Token.Matches ts us := by
  induction ts generalizing us with
  | nil =>
    obtain rfl : us = [] := raise_eq_nil.mp hr.symm
    exact .nil
  | cons t ts ih =>
    cases us with
    | nil => cases hr
    | cons u us =>
      obtain ⟨hu, hr⟩ := List.cons.inj hr
      have hs : t.isSpace = u.isSpace := by rw [← t.isSpace_upper, hu, u.isSpace_upper]
      have hf := hts t List.mem_cons_self
      have hf' := hus u List.mem_cons_self
      have ih := @ih us (fun v hv => hts v (List.mem_cons_of_mem t hv)) (fun v hv => hus v (List.mem_cons_of_mem u hv)) hr
      rw [plains_cons, plains_cons, hs] at hp
      by_cases h : u.isSpace
      · rw [if_pos h, if_pos h] at hp
        refine .cons (.of_upper hu hf hf' fun ht => ?_) (ih hp)
        rw [hs, h] at ht
        cases ht
      · rw [if_neg h, if_neg h] at hp
        obtain ⟨hplain, hp⟩ := List.cons.inj hp
        exact .cons (.of_upper hu hf hf' fun _ => hplain) (ih hp)

theorem matching_iff {s s' : Text} : Matching s s' ↔ upper s = upper s' ∧ plainsOf s = plainsOf s' := by
  constructor
  · intro h
    obtain ⟨hr, hp⟩ := matches_plains h
    refine ⟨?_, hp⟩
    rw [← spell_tokenize s, ← spell_tokenize s', ← spell_raise, hr, spell_raise]
  · rintro ⟨hu, hp⟩
    refine matches_of_plains (fun t => formed_of_mem) (fun u => formed_of_mem) ?_ hp
    rw [← tokenize_upper_raise, hu, tokenize_upper_raise]

namespace Matching

variable {s s' : Text} (h : Matching s s')
include h

theorem upper_eq : upper s = upper s' := (matching_iff.mp h).1

theorem plains_eq : plainsOf s = plainsOf s' := (matching_iff.mp h).2

end Matching

/-! ## Newlines -/

theorem unifyNewlines_upper (s : Text) : unifyNewlines (upper s) = upper (unifyNewlines s) := by
  fun_induction unifyNewlines s with
  | case1 s ih => exact congrArg ('\n' :: ·) ih
  | case2 c s hc ih =>
    rw [upper_cons, upper_cons, ← ih, unifyNewlines]
    intro r h e
    obtain ⟨d, r', rfl, hd, -⟩ := List.map_eq_cons_iff.mp e
    exact hc r' ((toUpper_eq_iff (by decide)).mp h) (by rw [(toUpper_eq_iff (by decide)).mp hd])
  | case3 => rfl

theorem Matching.unifyNewlines {s s' : Text} (h : Matching s s') : Matching (unifyNewlines s) (unifyNewlines s') := by
  refine matching_iff.mpr ⟨?_, ?_⟩
  · rw [← unifyNewlines_upper, h.upper_eq, unifyNewlines_upper]
  · rw [plainsOf_unifyNewlines, h.plains_eq, plainsOf_unifyNewlines]

/-! ## Lines -/

theorem lines_look_of_matches {ts us : List Token} (h : List.Forall₂ Token.Matches ts us) (hts : ∀ t ∈ ts, t.Formed)
    (hus : ∀ u ∈ us, u.Formed) : (lines ts).map Line.look = (lines us).map Line.look := by
  induction h with
  | nil => rfl
  | @cons t u ts us htu _ ih =>
    have ih := ih (fun v hv => hts v (List.mem_cons_of_mem t hv)) fun v hv => hus v (List.mem_cons_of_mem u hv)
    refine lines_look_congr ih fun l => ?_
    rcases htu with rfl | ⟨v, w, rfl, rfl, h⟩
    · rfl
    · rw [behind_word (hts _ List.mem_cons_self), behind_word (hus _ List.mem_cons_self), h]

theorem map_under_of_look {f : Text → Text} {ls ms : List Line} (h : ls.map Line.look = ms.map Line.look)
    (ht : (ls.map Line.text).map f = (ms.map Line.text).map f) : ls.map (Line.under f) = ms.map (Line.under f) := by
  induction ls generalizing ms with
  | nil =>
    obtain rfl : ms = [] := List.map_eq_nil_iff.mp h.symm
    rfl
  | cons l ls ih =>
    cases ms with
    | nil => cases h
    | cons m ms =>
      obtain ⟨hl, h⟩ := List.cons.inj h
      obtain ⟨hlt, ht⟩ := List.cons.inj ht
      have hunder : ∀ l : Line, l.under f = { l.look with text := f l.text } := fun _ => rfl
      rw [List.map_cons, List.map_cons, ih h ht, hunder, hunder, hl, hlt]

theorem stretches_under {f : Text → Text} (ls : List Line) :
    stretches (ls.map (Line.under f)) = (stretches ls).map (Stretch.under f) :=
  stretches_map (f := Line.under f) (fun _ => rfl) ls

/-- Matching scripts are cut into blocks of the same kinds, with the same
contents in upper case. -/
theorem segment_under {s s' : Text} (h : Matching s s') :
    (segment s).map (Block.under upper) = (segment s').map (Block.under upper) := by
  have h := h.unifyNewlines
  refine blocksFrom_congr shade_upper ⟨rfl, rfl, rfl⟩ ?_
  rw [← stretches_under, ← stretches_under]
  congr 1
  refine map_under_of_look (lines_look_of_matches h (fun t => formed_of_mem) fun t => formed_of_mem) ?_
  rw [map_text_lines, map_text_lines, ← splitLines_upper, h.upper_eq, splitLines_upper]

/-! ## Blocks -/

theorem isInk_upper (t : Token) : t.upper.isInk = t.isInk := by
  rw [Token.isInk, Token.isInk, Token.text_upper, isBlankText_upper]

/-- A list is told by itself in upper case and by its elements of two kinds. -/
theorem eq_of_filter {p : Token → Bool} (hp : ∀ t : Token, p t.upper = p t) {ts us : List Token} (hr : raise ts = raise us)
    (h : ts.filter p = us.filter p) (h' : ts.filter (fun t => !p t) = us.filter fun t => !p t) : ts = us := by
  induction ts generalizing us with
  | nil => exact (raise_eq_nil.mp hr.symm).symm
  | cons t ts ih =>
    cases us with
    | nil => cases hr
    | cons u us =>
      obtain ⟨hu, hrest⟩ := List.cons.inj hr
      have hpt : p t = p u := by rw [← hp, hu, hp]
      cases hpu : p u with
      | true =>
        rw [List.filter_cons_of_pos (hpt.trans hpu), List.filter_cons_of_pos hpu] at h
        rw [List.filter_cons_of_neg (by simp [hpt, hpu]), List.filter_cons_of_neg (by simp [hpu])] at h'
        obtain ⟨rfl, hpos⟩ := List.cons.inj h
        rw [ih hrest hpos h']
      | false =>
        rw [List.filter_cons_of_neg (by simp [hpt, hpu]), List.filter_cons_of_neg (by simp [hpu])] at h
        rw [List.filter_cons_of_pos (by simp [hpt, hpu]), List.filter_cons_of_pos (by simp [hpu])] at h'
        obtain ⟨rfl, hneg⟩ := List.cons.inj h'
        rw [ih hrest h hneg]

theorem upper_of_not_isInk {t : Token} (h : t.isInk = false) : t.upper = t := by
  refine Token.eq_of_text (by cases t <;> simp [Token.upper]) ?_
  rw [Token.text_upper]
  exact upper_of_blank (by simpa [Token.isInk, isBlankText] using h)

theorem eq_of_inks {ts us : List Token} (hr : raise ts = raise us) (hi : inks ts = inks us) : ts = us := by
  refine eq_of_filter isInk_upper hr hi ?_
  -- blanks have no letters
  have e : ∀ ts : List Token, ts.filter (fun t => !t.isInk) = (raise ts).filter fun t => !t.isInk := by
    intro ts
    rw [raise, List.filter_map]
    simp only [Function.comp_def, isInk_upper]
    refine ((List.map_congr_left fun t ht => ?_).trans (List.map_id _)).symm
    exact upper_of_not_isInk (by simpa using (List.mem_filter.mp ht).2)
  rw [e, hr, ← e]

/-- The last block gets the newline back that may be left out of it. -/
theorem Cut.sheds {s : Text} {init : List Block} {b : Block} (h : Cut s (init ++ [b])) :
    Sheds (plainsOf s) (init.flatMap (fun c => plainsOf c.content) ++ plainsOf (finished s b.content)) := by
  rcases h with h | ⟨init', b', e, h⟩
  · have hb : Closed b.content := h.closed b (by simp)
    have := h.reads.map_plain
    rw [map_plain_solidsIn, List.flatMap_append, List.flatMap_singleton] at this
    rwa [plainsOf_finished_of_closed s hb]
  · obtain ⟨rfl, he⟩ := List.append_inj' e rfl
    obtain rfl : b = b' := by simpa using he
    have := h.reads.map_plain
    rwa [List.map_append, map_plain_solidsIn] at this

theorem getLast_eq_newline_upper {s s' : Text} (h : upper s = upper s') : s.getLast? = some '\n' ↔ s'.getLast? = some '\n' := by
  have e : ∀ s : Text, s.getLast? = some '\n' ↔ (upper s).getLast? = some '\n' := by
    intro s
    rw [upper, List.getLast?_map]
    cases s.getLast? with
    | none => rfl
    | some c => simp [toUpper_eq_iff (x := '\n') (by decide)]
  rw [e, h, ← e]

theorem finished_cases {s s' a a' : Text} (hs : upper s = upper s') (ha : upper a = upper a') :
    finished s a = a ∧ finished s' a' = a' ∨ finished s a = a ++ ['\n'] ∧ finished s' a' = a' ++ ['\n'] := by
  unfold finished
  simp only [Bool.and_eq_true, decide_eq_true_eq, ne_eq, getLast_eq_newline_upper hs, getLast_eq_newline_upper ha]
  split
  · exact Or.inr ⟨rfl, rfl⟩
  · exact Or.inl ⟨rfl, rfl⟩

theorem closed_upper {s s' : Text} (h : upper s = upper s') : Closed s ↔ Closed s' := by
  have e : ∀ s : Text, Closed s ↔ ∀ t ∈ raise (tokenize s), t.isUnterminated = false := by
    intro s
    rw [closed_iff]
    simp [raise]
  rw [e, e, ← tokenize_upper_raise, h, tokenize_upper_raise]

/-- A newline behind two texts hides no difference. -/
theorem plainsOf_newline_cancel {s s' : Text} (hu : upper s = upper s')
    (h : plainsOf (s ++ ['\n']) = plainsOf (s' ++ ['\n'])) : plainsOf s = plainsOf s' := by
  by_cases hc : Closed s
  · have hc' := (closed_upper hu).mp hc
    rwa [plainsOf_eq, plainsOf_eq, solidsOf_newline hc, solidsOf_newline hc', ← plainsOf_eq, ← plainsOf_eq] at h
  · obtain ⟨ts, t, e, ht⟩ := exists_last_of_not_closed hc
    obtain ⟨ts', t', e', ht'⟩ := exists_last_of_not_closed (mt (closed_upper hu).mpr hc)
    obtain ⟨v, hf, htext, hs, -, hp⟩ := (formed_of_mem (t := t) (s := s) (by simp [e])).extend ht
    obtain ⟨v', hf', htext', hs', -, hp'⟩ := (formed_of_mem (t := t') (s := s') (by simp [e'])).extend ht'
    have single : ∀ {v : Token}, v.isSpace = false → v.plain = v → plains [v] = [v] := by
      intro v hs hp
      rw [plains_cons, hs, hp]
      rfl
    rw [plainsOf_newline_of_last e hf htext ht, plainsOf_newline_of_last e' hf' htext' ht', plains_append, plains_append,
      single hs hp, single hs' hp'] at h
    obtain ⟨hts, hv⟩ := List.append_inj' h rfl
    obtain rfl : v = v' := by simpa using hv
    have hr : raise (ts ++ [t]) = raise (ts' ++ [t']) := by
      rw [← e, ← e', ← tokenize_upper_raise, hu, tokenize_upper_raise]
    rw [raise_append, raise_append] at hr
    have htt : t.upper = t'.upper := by simpa using (List.append_inj' hr rfl).2
    rw [plainsOf_of_last e ht, plainsOf_of_last e' ht', hts,
      Token.eq_of_text htt (List.append_cancel_right (htext.symm.trans htext'))]

def Block.Matches (b b' : Block) : Prop := b.kind = b'.kind ∧ Matching b.content b'.content

theorem raise_flatMap_congr {bs bs' : List Block} (h : bs.map (Block.under upper) = bs'.map (Block.under upper)) :
    raise (bs.flatMap fun b => plainsOf b.content) = raise (bs'.flatMap fun b => plainsOf b.content) := by
  have e : ∀ bs : List Block, raise (bs.flatMap fun b => plainsOf b.content) =
      (bs.map (Block.under upper)).flatMap fun b => plainsOf b.content := by
    intro bs
    rw [raise, List.map_flatMap, List.flatMap_map]
    congr 1
    funext b
    exact (plainsOf_upper b.content).symm
  rw [e, e, h]

theorem matches_blocks {bs bs' : List Block} (h : bs.map (Block.under upper) = bs'.map (Block.under upper))
    (hp : bs.flatMap (fun b => plainsOf b.content) = bs'.flatMap fun b => plainsOf b.content) :
    List.Forall₂ Block.Matches bs bs' := by
  induction bs generalizing bs' with
  | nil =>
    obtain rfl : bs' = [] := List.map_eq_nil_iff.mp h.symm
    exact .nil
  | cons b bs ih =>
    cases bs' with
    | nil => cases h
    | cons b' bs' =>
      obtain ⟨hb, h⟩ := List.cons.inj h
      obtain ⟨hkind, hupper⟩ := Block.eq_of_under hb
      have hlen := congrArg List.length (raise_plainsOf_congr hupper)
      rw [length_raise, length_raise] at hlen
      obtain ⟨hplain, hp⟩ := List.append_inj hp hlen
      exact .cons ⟨hkind, matching_iff.mpr ⟨hupper, hplain⟩⟩ (ih h hp)

theorem segment_matches {s s' : Text} (h : Matching s s') : List.Forall₂ Block.Matches (segment s) (segment s') := by
  have hunder := segment_under h
  have hu := h.unifyNewlines
  have hcut := cut_segment s
  have hcut' := cut_segment s'
  rcases List.eq_nil_or_concat (segment s) with hnil | ⟨init, b, e⟩
  · rw [hnil] at hunder ⊢
    rw [List.map_eq_nil_iff.mp hunder.symm]
    exact .nil
  rw [List.concat_eq_append] at e
  rw [e, List.map_append] at hunder
  obtain ⟨init', last, e', hinit, hlast⟩ := List.map_eq_append_iff.mp hunder.symm
  obtain ⟨b', rfl, hb⟩ : ∃ b', last = [b'] ∧ b'.under upper = b.under upper := by
    obtain ⟨b', r, rfl, hb, hr⟩ := List.map_eq_cons_iff.mp hlast
    obtain rfl := List.map_eq_nil_iff.mp hr
    exact ⟨b', rfl, hb⟩
  obtain ⟨hkind, hupper⟩ := Block.eq_of_under hb.symm
  rw [e] at hcut ⊢
  rw [e'] at hcut' ⊢
  have hfinished := finished_cases hu.upper_eq hupper
  have hends : upper (finished (unifyNewlines s) b.content) = upper (finished (unifyNewlines s') b'.content) := by
    rcases hfinished with ⟨e, e'⟩ | ⟨e, e'⟩
    · rw [e, e', hupper]
    · rw [e, e', upper_append, upper_append, hupper]
  -- what is left out shows in neither of the two
  have hall : init.flatMap (fun c => plainsOf c.content) ++ plainsOf (finished (unifyNewlines s) b.content) =
      init'.flatMap (fun c => plainsOf c.content) ++ plainsOf (finished (unifyNewlines s') b'.content) := by
    refine eq_of_inks ?_ ?_
    · rw [raise_append, raise_append, raise_flatMap_congr hinit.symm, raise_plainsOf_congr hends]
    · rw [hcut.sheds.inks, hcut'.sheds.inks, hu.plains_eq]
  have hlen := congrArg List.length (raise_flatMap_congr hinit.symm)
  rw [length_raise, length_raise] at hlen
  obtain ⟨hplain, hrest⟩ := List.append_inj hall hlen
  refine List.rel_append (matches_blocks hinit.symm hplain) (.cons ⟨hkind, matching_iff.mpr ⟨hupper, ?_⟩⟩ .nil)
  rcases hfinished with ⟨e, e'⟩ | ⟨e, e'⟩
  · rwa [e, e'] at hrest
  · rw [e, e'] at hrest
    exact plainsOf_newline_cancel hupper hrest

end SqlLayout
