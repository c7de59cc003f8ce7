import SqlLayout.Proofs.Aliases
import SqlLayout.Proofs.Gaps
import SqlLayout.Proofs.Reflow
import SqlLayout.Proofs.Strands

/-!
# Items that are broken and aligned again

The items of a SELECT list are put on one line, broken at a CASE or a window
and moved to one column of aliases. Read again and put on one line, each item
is broken at the same places and has its alias at the same place, so the list
is the same (`remake_again`).
-/

namespace SqlLayout

/-! ## Beads of one line -/

/-- The beads of tokens without comments, the first one behind space. -/
def Threaded (bs : List Bead) : Prop := ∃ ts, Lexed ts ∧ Stable ts ∧ beads true ts = bs

theorem IsRow.unbead_beads {ts : List Token} (h : IsRow ts) : unbead (beads true ts) = ts := by
  rw [← strip_blanked h.tidy.lexed, h.tidy.blanked_eq, h.tight]

theorem Stable.newline {ts : List Token} (h : Stable ts) {t : Token} (ht : t ∈ ts) (hs : t.isSpace = false) :
    '\n' ∉ t.text := by
  intro hn
  have hflat := h.flat t ht
  rw [Token.isFlat, Bool.and_eq_true, Token.spansLines, hs] at hflat
  simp [hn] at hflat

theorem Stable.hards {ts : List Token} (hl : Lexed ts) (h : Stable ts) : SqlLayout.hards (spell ts) = 0 := by
  have token : ∀ t ∈ ts, SqlLayout.hards t.text = 0 := by
    intro t ht
    rcases h.soft t ht with hs | hh
    · obtain ⟨w, rfl⟩ := Token.eq_whitespace hs
      have hw : (Token.whitespace w).Formed := hl.formed ht
      exact hards_space hw.2
    · exact hh
  clear hl h
  induction ts with
  | nil => rfl
  | cons t ts ih =>
    rw [spell_cons, hards_append, token t List.mem_cons_self, ih fun u hu => token u (List.mem_cons_of_mem t hu)]

namespace Threaded

variable {bs : List Bead} (h : Threaded bs)
include h

theorem parted_eq : parted bs = bs := by
  obtain ⟨ts, -, -, rfl⟩ := h
  exact parted_beads true ts

theorem unbead_eq : ∃ ts, Lexed ts ∧ Stable ts ∧ strip ts = ts ∧ Spaced ts ∧ unbead bs = ts ∧ beads true ts = bs := by
  obtain ⟨ts, hl, hs, rfl⟩ := h
  have hlb : Lexed (blanked ts) := hl.blanked hs.isLineComment
  have hin := infix_strip (blanked ts)
  refine ⟨strip (blanked ts), hlb.of_infix hin, hs.blanked.of_subset hin.subset, strip_strip _, fun t ht hsp => ?_,
    (strip_blanked hl).symm, by rw [beads_strip, beads_blanked]⟩
  obtain ⟨u, -, rfl⟩ := List.mem_map.mp (hin.subset ht)
  split at hsp
  · next hu => rw [if_pos hu]
  · next hu => exact absurd hsp hu

theorem tokenize_code : tokenize (Item.ofBeads bs).code = unbead bs := by
  obtain ⟨ts, hl, -, -, -, e, -⟩ := h.unbead_eq
  rw [Item.ofBeads, e]
  exact hl.tokenize_spell

theorem isStable : (Item.ofBeads bs).IsStable := by
  refine ⟨rfl, ?_⟩
  obtain ⟨ts, -, hs, -, -, e, -⟩ := h.unbead_eq
  rw [h.tokenize_code, e]
  exact hs

theorem beads_ofBeads : (Item.ofBeads bs).beads = bs := by
  obtain ⟨ts, -, -, -, -, e, eb⟩ := h.unbead_eq
  rw [Item.beads, beadsOf, h.tokenize_code, e, eb]

theorem isRow (hne : bs ≠ []) : IsRow (unbead bs) := by
  obtain ⟨ts, hl, hs, htight, hsp, e, eb⟩ := h.unbead_eq
  rw [e]
  refine ⟨⟨hl, fun hm => ?_, hs.isLineComment, hsp, hs.firm⟩, ?_, htight⟩
  · obtain ⟨t, ht, hn⟩ := List.mem_flatMap.mp hm
    cases hts : t.isSpace with
    | true =>
      rw [hsp t ht hts] at hn
      revert hn
      decide
    | false => exact hs.newline ht hts hn
  · rintro rfl
    exact hne eb.symm

theorem hards_code : hards (Item.ofBeads bs).code = 0 := by
  obtain ⟨ts, hl, hs, -, -, e, -⟩ := h.unbead_eq
  rw [Item.ofBeads, e]
  exact hs.hards hl

end Threaded

/-! ## Tokens that may stand behind a gap -/

theorem Token.isMarker_of_keyword {t : Token} {k : Keyword} (h : t.keyword = some k) : t.isMarker := by
  cases t with
  | word w =>
    rw [keyword] at h
    rw [isMarker, h]
    rfl
  | _ => cases h

/-- Beads that may be put behind any others. -/
structure Opens (bs : List Bead) : Prop where
  parted : parted bs = bs
  marker : ∀ b ∈ bs.head?, b.2.isMarker

namespace Opens

variable {bs cs : List Bead}

protected theorem nil : Opens [] := ⟨rfl, by simp⟩

theorem append (h : Opens bs) (h' : Opens cs) : Opens (bs ++ cs) := by
  cases bs with
  | nil => exact h'
  | cons b bs => exact ⟨congrArg (· :: (bs ++ cs)) (List.cons.inj h.parted).1, h.marker⟩

theorem of_keyword {t : Token} {k : Keyword} (hk : t.keyword = some k) (ts : List Token) : Opens (beads true (t :: ts)) := by
  refine ⟨parted_beads true _, ?_⟩
  obtain ⟨w, rfl⟩ := isWord_of_isKeyword (t := t) (k := k) (by rw [Token.isKeyword, hk, decide_eq_true rfl])
  rw [beads_cons_solid rfl]
  rintro b ⟨⟩
  exact Token.isMarker_of_keyword hk

end Opens

namespace Loosens

variable {gap : Bool} {ts us : List Token} {cs es : List Bead}

theorem beads (h : Loosens (SqlLayout.beads true ts) cs) : Loosens (SqlLayout.beads gap ts) cs := by
  refine of_parted ?_
  rwa [parted_beads]

theorem behind_marker (h : Loosens (SqlLayout.beads gap ts) cs) (h' : Loosens (SqlLayout.beads true us) es)
    (hm : ∀ c ∈ cs.getLast?, c.2.isMarker) (he : parted es = es) : Loosens (SqlLayout.beads gap (ts ++ us)) (cs ++ es) := by
  rw [beads_append]
  exact h.append_marked h'.beads hm he

theorem before_opens (h : Loosens (SqlLayout.beads gap ts) cs) (h' : Loosens (SqlLayout.beads true us) es) (ho : Opens es) :
    Loosens (SqlLayout.beads gap (ts ++ us)) (cs ++ es) := by
  rw [beads_append]
  exact h.append_marker h'.beads ho.marker ho.parted

end Loosens

theorem loosens_flatten {gs : List (List Token)} {css : List (List Bead)}
    (h : List.Forall₂ (fun g cs => Loosens (beads true g) cs ∧ Opens cs) gs css) :
    Loosens (beads true gs.flatten) css.flatten ∧ Opens css.flatten := by
  induction h with
  | nil => exact ⟨.nil, .nil⟩
  | cons h _ ih => exact ⟨h.1.before_opens ih.1 ih.2, h.2.append ih.2⟩

/-! ## Broken code -/

theorem IsRows.beads_rowLines {g : List Token} {rows : List (Nat × List Token)} (h : IsRows g rows) :
    beadsOf (joinLines (rowLines g rows)) = beads true g ++ (rows.map fun r => beads true r.2).flatten := by
  have later : ∀ gap, beads gap (rows.flatMap fun r => .whitespace ('\n' :: pad r.1) :: r.2) =
      (rows.map fun r => beads true r.2).flatten := by
    clear h
    induction rows with
    | nil => exact fun _ => rfl
    | cons r rows ih =>
      intro gap
      rw [List.flatMap_cons, List.cons_append, beads_cons_space rfl, beads_append, ih, List.map_cons, List.flatten_cons]
  rw [beadsOf, h.tokenize_rowLines, beads_append, later]

theorem caseShape_keyword (n : Nesting) (d : Nat) (ts : List Token) :
    ∀ l ∈ (caseShape n d ts).later, ∃ t us k, l.2 = t :: us ∧ t.keyword = some k := by
  induction ts generalizing n d with
  | nil => simp [caseShape]
  | cons t ts ih =>
    have ih := ih (n.step t) (caseStep d (n.topKeyword t)).1
    rw [caseShape]
    cases hlevel : (caseStep d (n.topKeyword t)).2 with
    | none => simpa [hlevel] using ih
    | some l =>
      obtain ⟨k, hk⟩ : ∃ k, n.topKeyword t = some k := by
        cases hk : n.topKeyword t with
        | none =>
          rw [hk] at hlevel
          cases hlevel
        | some k => exact ⟨k, rfl⟩
      simp only [hlevel, List.mem_cons]
      rintro m (rfl | hm)
      · exact ⟨t, _, k, rfl, (Nesting.topKeyword_eq_some.mp hk).2⟩
      · exact ih m hm

theorem windowParts_keyword (n : Nesting) (started : Bool) (ts : List Token) :
    ∀ p ∈ (windowParts n started ts).tail, ∃ t us k, p = t :: us ∧ t.keyword = some k := by
  induction ts generalizing n started with
  | nil => simp [windowParts]
  | cons t ts ih =>
    have ih := ih (n.step t) (started || !isBlankText t.text)
    obtain ⟨g, gs, e⟩ := List.exists_cons_of_ne_nil (windowParts_flatten (n.step t) (started || !isBlankText t.text) ts).1
    rw [windowParts, e]
    rw [e] at ih
    split
    · next hcut =>
      obtain ⟨k, hk⟩ : ∃ k, n.topKeyword t = some k := by
        cases hk : n.topKeyword t with
        | none =>
          rw [hk] at hcut
          cases hcut
        | some k => exact ⟨k, rfl⟩
      intro p hp
      rcases List.mem_cons.mp hp with rfl | hp
      · exact ⟨t, g, k, rfl, (Nesting.topKeyword_eq_some.mp hk).2⟩
      · exact ih p hp
    · exact ih

theorem reflowCase_loosens {n : Nat} {code out : Text} (h : IsRow (tokenize code)) (ho : reflowCase n code = some out) :
    Loosens (beadsOf code) (beadsOf out) := by
  rw [h.reflowCase_eq rfl] at ho
  split at ho
  · have hlater : List.Forall₂ (fun g cs => Loosens (beads true g) cs ∧ Opens cs)
      ((caseShape {} 0 (tokenize code)).later.map Prod.snd)
        (((caseShape {} 0 (tokenize code)).rows n).map fun r => beads true r.2) := by
      rw [CaseShape.rows, List.map_map, List.forall₂_map_left_iff, List.forall₂_map_right_iff, List.forall₂_same]
      intro l hl
      obtain ⟨t, us, k, e, hk⟩ := caseShape_keyword {} 0 (tokenize code) l hl
      rw [Function.comp_apply, beads_strip, e]
      exact ⟨Loosens.refl _, Opens.of_keyword hk us⟩
    obtain ⟨hloose, hopens⟩ := loosens_flatten hlater
    have htokens : beadsOf code = beads true ((caseShape {} 0 (tokenize code)).first ++
        ((caseShape {} 0 (tokenize code)).later.map Prod.snd).flatten) := by
      conv_lhs => rw [beadsOf, ← flatten_groups {} 0 (tokenize code)]
      rfl
    rw [← Option.some.inj ho, (h.isRows_case n).beads_rowLines, beads_strip, htokens]
    exact (Loosens.refl _).before_opens hloose hopens
  · cases ho

namespace Window

theorem loosens_closing (w : Window) :
    Loosens (beads true (.closeParen :: w.back)) (beads true w.closing) ∧ Opens (beads true w.closing) := by
  have hback : beads true w.closing = [(true, .closeParen)] ++ beads true w.back := by
    rw [closing, beads_cons_solid rfl]
    split
    · next hn => rw [beads_eq_nil.mpr (strip_eq_nil.mp hn), beads_nil, List.append_nil]
    · rw [beads_cons_space rfl, beads_strip]
      rfl
  rw [hback, beads_cons_solid rfl]
  refine ⟨?_, rfl, ?_⟩
  · exact Loosens.cons_marked rfl _ _ (Loosens.refl _).beads (parted_beads true w.back)
  · rintro b ⟨⟩
    rfl

variable {w : Window} {ts : List Token} (h : w.Within ts)
include h

theorem Within.loosens_keyword {sp : List Token} (hsp : ∀ t ∈ sp, t.isSpace) :
    Loosens (beads true (w.keyword :: (sp ++ [.openParen]))) [(true, w.keyword), (true, .openParen)] := by
  obtain ⟨kw, hkw⟩ := isWord_of_isKeyword h.keyword
  have hk : w.keyword.isSpace = false := by rw [hkw]; rfl
  rw [beads_cons_solid hk, beads_append, beads_eq_nil.mpr (solids_eq_nil.mpr (List.all_eq_true.mpr hsp)), List.nil_append,
    beads_cons_solid rfl, beads_nil]
  exact .cons _ _ (Or.inr (Or.inr ⟨rfl, Or.inr rfl⟩)) (.one _ _ _)

theorem Within.loosens_parts : Loosens (beads true w.inner) (w.parts.map fun p => beads true (strip p)).flatten ∧
    parted (w.parts.map fun p => beads true (strip p)).flatten = (w.parts.map fun p => beads true (strip p)).flatten := by
  obtain ⟨hne, hflat⟩ := windowParts_flatten {} false w.inner
  have hkeys := windowParts_keyword {} false w.inner
  have hrows : ∀ p ∈ w.parts, IsRow (strip p) := fun p hp => h.isRow_parts hp
  rw [parts] at hrows ⊢
  generalize windowParts {} false w.inner = ps at hne hflat hkeys hrows
  obtain ⟨p, ps, rfl⟩ := List.exists_cons_of_ne_nil hne
  have hlater : List.Forall₂ (fun g cs => Loosens (beads true g) cs ∧ Opens cs) ps
      (ps.map fun p => beads true (strip p)) := by
    rw [List.forall₂_map_right_iff, List.forall₂_same]
    intro q hq
    obtain ⟨t, us, k, rfl, hk⟩ := hkeys q hq
    rw [beads_strip]
    exact ⟨Loosens.refl _, Opens.of_keyword hk us⟩
  obtain ⟨hloose, hopens⟩ := loosens_flatten hlater
  rw [← hflat, List.flatten_cons, List.map_cons, List.flatten_cons]
  refine ⟨?_, ?_⟩
  · rw [beads_strip]
    exact (Loosens.refl _).before_opens hloose hopens
  · have hp : beads true (strip p) ≠ [] := by
      rw [Ne, beads_eq_nil, ← strip_eq_nil, strip_strip]
      exact (hrows p List.mem_cons_self).ne_nil
    rw [parted_append hp, parted_beads]

/-- A window is parted at its parentheses and in front of its keywords. -/
theorem Within.loosens (n : Nat) : Loosens (beads true ts) (beadsOf (joinLines (rowLines (strip w.front) (w.rows n)))) := by
  obtain ⟨sp, hsp, e⟩ := h.tokens
  obtain ⟨hparts, hparted⟩ := h.loosens_parts
  obtain ⟨hclosing, hopens⟩ := w.loosens_closing
  obtain ⟨kw, hkw⟩ := isWord_of_isKeyword h.keyword
  have hinner := hparts.before_opens hclosing hopens
  have hparted : parted ((w.parts.map fun p => beads true (strip p)).flatten ++ beads true w.closing) =
      (w.parts.map fun p => beads true (strip p)).flatten ++ beads true w.closing := by
    cases hp : (w.parts.map fun p => beads true (strip p)).flatten with
    | nil => exact hopens.parted
    | cons b bs =>
      rw [hp] at hparted
      rw [parted_append (List.cons_ne_nil b bs), hparted]
  have hkey := (h.loosens_keyword hsp).behind_marker hinner (by rintro b ⟨⟩; rfl) hparted
  have hall := (Loosens.refl (beads true w.front)).before_opens hkey ⟨rfl, by
    rintro b ⟨⟩
    exact Token.isMarker_of_keyword (k := .OVER) (of_decide_eq_true h.keyword)⟩
  have hrow : beads true [w.keyword, .whitespace [' '], .openParen] = [(true, w.keyword), (true, .openParen)] := by
    rw [hkw]
    rfl
  rw [(h.isRows n).beads_rowLines, beads_strip, e, rows, List.map_cons, hrow]
  simpa [Function.comp_def] using hall

end Window

theorem newline_mem_joinLines (l m : Text) (ls : List Text) : '\n' ∈ joinLines (l :: m :: ls) := by
  rw [joinLines_cons_cons]
  exact List.mem_append_right l List.mem_cons_self

/-- Broken code has several lines, and its gaps are those of the code but for
new ones beside markers. -/
theorem reflow_loosens {n : Nat} {code out : Text} (h : IsRow (tokenize code)) (ho : reflow n code = some out) :
    Loosens (beadsOf code) (beadsOf out) ∧ '\n' ∈ out := by
  rw [reflow] at ho
  split at ho
  · cases ho
  rcases Option.or_eq_some_iff.mp ho with ho | ⟨-, ho⟩
  · refine ⟨reflowCase_loosens h ho, ?_⟩
    simp only [reflowCase] at ho
    split at ho
    · next hcond =>
      obtain ⟨l, ls, e⟩ : ∃ l ls, (caseShape {} 0 (tokenize code)).later = l :: ls := by
        refine List.exists_cons_of_ne_nil fun hn => ?_
        rw [hn] at hcond
        simp at hcond
      rw [← Option.some.inj ho, e]
      exact newline_mem_joinLines _ _ _
    · cases ho
  · obtain ⟨-, -, w, -, hw, rfl⟩ := (reflowWindow_eq_some h).mp ho
    exact ⟨hw.loosens n, newline_mem_joinLines _ _ _⟩

/-! ## Code that is not broken -/

theorem Window.Within.congr {w : Window} {ts us : List Token} (h : w.Within ts) (hw : window? {} ts = some w) (hu : IsRow us)
    (hs : SqlLayout.solids us = SqlLayout.solids ts) : ∃ v, window? {} us = some v ∧ v.Within us ∧ v.solids = w.solids := by
  have hv := window?_solids {} us
  rw [hs, window?_solids, hw] at hv
  obtain ⟨v, hv, hsolids⟩ := Option.map_eq_some_iff.mp hv.symm
  obtain ⟨hk, htokens⟩ := window?_tokens hv
  refine ⟨v, hv, ⟨hu, hk, htokens, ?_, ?_⟩, hsolids⟩
  · rw [show SqlLayout.solids v.front = SqlLayout.solids w.front from congrArg Window.front hsolids]
    exact h.front
  · rw [show SqlLayout.solids v.inner = SqlLayout.solids w.inner from congrArg Window.inner hsolids]
    exact h.inner

theorem reflow_eq_none {n : Nat} {code code' : Text} (h : IsRow (tokenize code)) (h' : IsRow (tokenize code'))
    (hs : solidsOf code' = solidsOf code) (hl : '\n' ∉ code) (hn : reflow n code = none) : reflow n code' = none := by
  rw [reflow, if_neg (by simpa using hl), Option.or_eq_none_iff] at hn
  rw [reflow]
  split
  · rfl
  rw [reflowCase_eq_none hs hn.1, Option.none_or, Option.eq_none_iff_forall_ne_some]
  intro out ho
  obtain ⟨hbal, hquery, w, hw, hwithin, rfl⟩ := (reflowWindow_eq_some h').mp ho
  obtain ⟨v, hv, hvithin, -⟩ := hwithin.congr hw h hs.symm
  have hbal' : Nesting.after (tokenize code) = Nesting.after (tokenize code') := Nesting.after_congr hs.symm
  have : reflowWindow n code = some (joinLines (rowLines (strip v.front) (v.rows n))) := (reflowWindow_eq_some h).mpr
    ⟨by rwa [hbal'], by rwa [any_startsQuery hs.symm], v, hv, hvithin, rfl⟩
  rw [hn.2] at this
  cases this

/-! ## One item -/

/-- An item is broken, and read again it is broken in the same way. -/
theorem Item.reflow_again (n : Nat) {bs : List Bead} (h : Threaded bs) (hne : bs ≠ []) :
    ((ofBeads bs).reflow n).IsStable ∧ Loosens bs ((ofBeads bs).reflow n).beads ∧
      (ofBeads ((ofBeads bs).reflow n).beads).reflow n = (ofBeads bs).reflow n ∧
      ('\n' ∈ ((ofBeads bs).reflow n).code ∨ (ofBeads bs).reflow n = ofBeads bs) := by
  have hrow : IsRow (tokenize (ofBeads bs).code) := h.tokenize_code ▸ h.isRow hne
  cases ho : SqlLayout.reflow n (ofBeads bs).code with
  | none =>
    have e : (ofBeads bs).reflow n = ofBeads bs := by rw [reflow, ho, Option.getD_none]
    rw [e, h.beads_ofBeads, e]
    exact ⟨h.isStable, Loosens.refl bs, rfl, Or.inr rfl⟩
  | some out =>
    have e : (ofBeads bs).reflow n = { code := out } := by rw [reflow, ho, Option.getD_some, ofBeads]
    obtain ⟨g, rows, hrows, hout, hs, hagain⟩ := reflow_lines hrow ho
    have hsolids : solidsOf out = solidsOf (ofBeads bs).code := by rw [hout, hrows.solidsOf_rowLines, hs]
    have hstable : Stable (tokenize out) := by
      refine Stable.of_solids ?_
      rw [← solidsOf, hsolids]
      exact h.isStable.stable.of_subset fun t ht => (mem_solids.mp ht).1
    obtain ⟨hloose, hline⟩ := reflow_loosens hrow ho
    rw [← Item.beads, h.beads_ofBeads] at hloose
    have hcode : (ofBeads (beadsOf out)).code = normalize n out := (normalize_stable hstable n).1.symm
    have hspread : tokenize (ofBeads (beadsOf out)).code = spread (g :: rows.map Prod.snd) := by
      rw [hcode, hout, hrows.tokenize_normalize]
    have hnew : '\n' ∉ (ofBeads (beadsOf out)).code := by
      rw [← spell_tokenize (ofBeads (beadsOf out)).code, hspread]
      exact hrows.isRow_spread.tidy.line
    rw [e]
    refine ⟨⟨rfl, hstable⟩, hloose, ?_, Or.inl hline⟩
    rw [Item.beads, reflow, hagain _ hnew hspread]
    rfl

theorem AliasAt.isRow_moved {code : Text} {k : Nat} (h : AliasAt code k) (hh : hards code = 0) (hr : IsRow (tokenize code)) :
    IsRow (dropEndWhile Token.isSpace ((tokenize code).take k) ++ .whitespace [' '] :: (tokenize code).drop k) := by
  obtain ⟨t, hback, -⟩ := exists_token_of_topAt h.as
  obtain ⟨k', hat, -⟩ := h.moved hh 0 rfl
  have htokens := h.tokenize_moved hh 0
  have hlexed := lexed_tokenize (trimEnd (textBefore code k) ++ pad (0 + 1) ++ spell ((tokenize code).drop k))
  have hline := hat.line
  rw [← spell_tokenize (trimEnd (textBefore code k) ++ pad (0 + 1) ++ spell ((tokenize code).drop k)), htokens] at hline
  rw [htokens] at hlexed
  have hkept := List.rdropWhile_prefix Token.isSpace ((tokenize code).take k)
  have hmem : ∀ u ∈ dropEndWhile Token.isSpace ((tokenize code).take k) ++ .whitespace [' '] :: (tokenize code).drop k,
      u = .whitespace [' '] ∨ u ∈ tokenize code := by
    intro u hu
    rcases List.mem_append.mp hu with hu | hu
    · exact Or.inr (List.mem_of_mem_take (hkept.subset hu))
    · rcases List.mem_cons.mp hu with rfl | hu
      · exact Or.inl rfl
      · exact Or.inr (List.mem_of_mem_drop hu)
  refine ⟨⟨hlexed, hline, fun u hu => ?_, fun u hu hs => ?_, fun u hu => ?_⟩, by simp, strip_eq_self ?_ ?_⟩
  · rcases hmem u hu with rfl | hu
    · rfl
    · exact hr.tidy.plain u hu
  · rcases hmem u hu with rfl | hu
    · rfl
    · exact hr.tidy.spaced u hu hs
  · rcases hmem u hu with rfl | hu
    · exact Or.inl rfl
    · exact hr.tidy.firm u hu
  · -- the text in front of the alias starts the code
    obtain ⟨m, rfl⟩ := Nat.exists_eq_succ_of_ne_zero h.pos.ne'
    obtain ⟨u, us, e⟩ := List.exists_cons_of_ne_nil hr.ne_nil
    have hu : u.isSpace = false := hr.head u (by rw [e]; rfl)
    rw [e, List.take_succ_cons, dropEndWhile_cons hu]
    rintro v ⟨⟩
    exact hu
  · have hne : (tokenize code).drop k ≠ [] := by
      rw [hback]
      exact List.cons_ne_nil _ _
    have hlast : (dropEndWhile Token.isSpace ((tokenize code).take k) ++
      .whitespace [' '] :: (tokenize code).drop k).getLast? =
        (tokenize code).getLast? := by
      conv_rhs => rw [← List.take_append_drop k (tokenize code)]
      rw [List.getLast?_append_of_ne_nil _ hne, List.append_cons, List.getLast?_append_of_ne_nil _ hne]
    rw [hlast]
    exact hr.getLast

section
variable {bs : List Bead} (hb : Threaded bs) {k : Nat} (h : AliasAt (Item.ofBeads bs).code k) (width : Nat)
include hb h

theorem AliasAt.stable_moved : ((Item.ofBeads bs).alignAlias width).IsStable := by
  obtain ⟨-, -, -, -, hs⟩ := h.moved hb.hards_code _ ((Item.ofBeads bs).alignAlias_of_alias h width)
  refine ⟨?_, Stable.of_solids ?_⟩
  · rw [Item.alignAlias, h.splitAlias]
    rfl
  · rw [← solidsOf, hs]
    exact hb.isStable.stable.of_subset fun t ht => (mem_solids.mp ht).1

theorem AliasAt.beads_moved : ((Item.ofBeads bs).alignAlias width).beads =
    beads true ((tokenize (Item.ofBeads bs).code).take k) ++ beads true ((tokenize (Item.ofBeads bs).code).drop k) := by
  have htokens := h.tokenize_moved hb.hards_code (width - (trimEnd (textBefore (Item.ofBeads bs).code k)).length)
  rw [← (Item.ofBeads bs).alignAlias_of_alias h width] at htokens
  rw [Item.beads, beadsOf, htokens, beads_append, beads_cons_space rfl, beads_dropEndWhile]

theorem AliasAt.loosens_moved : Loosens bs ((Item.ofBeads bs).alignAlias width).beads := by
  obtain ⟨t, hback, hk⟩ := exists_token_of_topAt h.as
  have hcut : bs = beads true ((tokenize (Item.ofBeads bs).code).take k ++ (tokenize (Item.ofBeads bs).code).drop k) := by
    rw [List.take_append_drop]
    exact hb.beads_ofBeads.symm
  rw [h.beads_moved hb width]
  conv_lhs => rw [hcut]
  apply (Loosens.refl _).before_opens (Loosens.refl _)
  rw [hback]
  exact Opens.of_keyword hk _

theorem AliasAt.ofBeads_moved (hne : bs ≠ []) :
    Item.ofBeads ((Item.ofBeads bs).alignAlias width).beads = (Item.ofBeads bs).alignAlias 0 := by
  have hrow := h.isRow_moved hb.hards_code (hb.tokenize_code ▸ hb.isRow hne)
  have hunbead : unbead ((Item.ofBeads bs).alignAlias width).beads =
      dropEndWhile Token.isSpace ((tokenize (Item.ofBeads bs).code).take k) ++
        .whitespace [' '] :: (tokenize (Item.ofBeads bs).code).drop k := by
    rw [← hrow.unbead_beads, beads_append, beads_cons_space rfl, beads_dropEndWhile, h.beads_moved hb width]
  have hcode := (Item.ofBeads bs).alignAlias_of_alias h 0
  rw [Nat.zero_sub, h.trimEnd_before hb.hards_code] at hcode
  rw [(h.stable_moved hb 0).bare, hcode, Item.ofBeads, hunbead, spell_append, spell_cons, List.append_assoc]
  rfl

end

namespace Item

/-- The alias of an item that is not broken is moved, and read again it is
moved to the same place. -/
theorem alias_again {n k : Nat} (width : Nat) {bs : List Bead} (hb : Threaded bs) (hne : bs ≠ [])
    (h : AliasAt (ofBeads bs).code k)
    (hn : SqlLayout.reflow n (ofBeads bs).code = none) :
    (ofBeads ((ofBeads bs).alignAlias width).beads).reflow n = ofBeads ((ofBeads bs).alignAlias width).beads ∧
      splitAlias (ofBeads ((ofBeads bs).alignAlias width).beads).code = splitAlias (ofBeads bs).code ∧
      (ofBeads ((ofBeads bs).alignAlias width).beads).alignAlias width = (ofBeads bs).alignAlias width := by
  have hh := hb.hards_code
  have hstable := h.stable_moved hb 0
  have hrow : IsRow (tokenize (ofBeads bs).code) := hb.tokenize_code ▸ hb.isRow hne
  have hrow' : IsRow (tokenize ((ofBeads bs).alignAlias 0).code) := by
    have := h.tokenize_moved hh 0
    rw [(ofBeads bs).alignAlias_of_alias h 0, Nat.zero_sub, this]
    exact h.isRow_moved hh hrow
  have hsolids : solidsOf ((ofBeads bs).alignAlias 0).code = solidsOf (ofBeads bs).code := by
    obtain ⟨-, -, -, -, hs⟩ := h.moved hh _ ((ofBeads bs).alignAlias_of_alias h 0)
    exact hs
  have hsplit := (ofBeads bs).splitAlias_alignAlias hh 0
  rw [h.ofBeads_moved hb width hne]
  refine ⟨?_, hsplit, ?_⟩
  · rw [reflow, reflow_eq_none hrow hrow' hsolids h.line hn, Option.getD_none]
  · rw [alignAlias, hsplit, h.splitAlias, alignAlias, h.splitAlias, alignAlias, h.splitAlias]

/-- An item is broken or has its alias moved, and read again it is treated in
the same way. -/
theorem alignAlias_again (n width : Nat) {bs : List Bead} (h : Threaded bs) (hne : bs ≠ []) {r a : Item}
    (hr : r = (ofBeads bs).reflow n) (ha : a = r.alignAlias width) : a.IsStable ∧ Loosens bs a.beads ∧
      splitAlias ((ofBeads a.beads).reflow n).code = splitAlias r.code ∧
      ((ofBeads a.beads).reflow n).alignAlias width = a := by
  obtain ⟨hstable, hloose, hagain, hline⟩ := reflow_again n h hne
  rw [← hr] at hstable hloose hagain hline
  by_cases hk : ∃ k, AliasAt r.code k
  · obtain ⟨k, hk⟩ := hk
    have hp : r = ofBeads bs := hline.resolve_left hk.line
    have hn : SqlLayout.reflow n (ofBeads bs).code = none := by
      refine Option.eq_none_iff_forall_ne_some.mpr fun out ho => hk.line ?_
      rw [hr, reflow, ho, Option.getD_some]
      exact (reflow_loosens (h.tokenize_code ▸ h.isRow hne) ho).2
    rw [hp] at hk ha ⊢
    obtain ⟨hsame, hsplit, hplace⟩ := alias_again width h hne hk hn
    rw [ha, hsame]
    exact ⟨hk.stable_moved h width, hk.loosens_moved h width, hsplit, hplace⟩
  · have hr' : r.alignAlias width = r := r.alignAlias_of_not_alias (not_exists.mp hk) width
    obtain rfl : a = r := ha.trans hr'
    rw [hagain]
    exact ⟨hstable, hloose, rfl, hr'⟩

end Item

/-! ## All items -/

def remake (n : Nat) (align : Bool) (items : List Item) : List Item :=
  if align then alignAliases (items.map (Item.reflow n)) else items.map (Item.reflow n)

/-- The items that are laid out, read again and put on one line, become what
they are. -/
theorem remake_again (n : Nat) (align : Bool) {bss : List (List Bead)} (h : ∀ bs ∈ bss, Threaded bs ∧ bs ≠ [])
    {items : List Item}
    (hi : items = remake n align (bss.map Item.ofBeads)) :
    (∀ i ∈ items, i.IsStable) ∧ List.Forall₂ Loosens bss (items.map Item.beads) ∧
      remake n align ((items.map Item.beads).map Item.ofBeads) = items := by
  cases align with
  | false =>
    have hitems : items = bss.map fun bs => (Item.ofBeads bs).reflow n := by
      rw [hi, remake, if_neg (by decide), List.map_map]
      rfl
    have hagain := fun bs hbs => Item.reflow_again n (h bs hbs).1 (h bs hbs).2
    rw [hitems]
    refine ⟨List.forall_mem_map.mpr fun bs hbs => (hagain bs hbs).1, ?_, ?_⟩
    · rw [List.map_map, List.forall₂_map_right_iff, List.forall₂_same]
      exact fun bs hbs => (hagain bs hbs).2.1
    · rw [remake, if_neg (by decide), List.map_map, List.map_map, List.map_map]
      exact List.map_congr_left fun bs hbs => (hagain bs hbs).2.2.1
  | true =>
    have haligned : alignAliases (bss.map fun bs => (Item.ofBeads bs).reflow n) = items := by
      rw [hi, remake, if_pos rfl, List.map_map]
      rfl
    generalize hw : aliasWidth (bss.map fun bs => (Item.ofBeads bs).reflow n) = width
    have hitems : items = bss.map fun bs => ((Item.ofBeads bs).reflow n).alignAlias width := by
      rw [← haligned, alignAliases, hw, List.map_map]
      rfl
    have hagain := fun bs hbs => Item.alignAlias_again n width (h bs hbs).1 (h bs hbs).2 rfl rfl
    rw [hitems]
    refine ⟨List.forall_mem_map.mpr fun bs hbs => (hagain bs hbs).1, ?_, ?_⟩
    · rw [List.map_map, List.forall₂_map_right_iff, List.forall₂_same]
      exact fun bs hbs => (hagain bs hbs).2.1
    · have hwidth : aliasWidth (bss.map fun bs =>
          (Item.ofBeads (((Item.ofBeads bs).reflow n).alignAlias width).beads).reflow n) = width := by
        refine Eq.trans ?_ hw
        rw [aliasWidth, aliasWidth, List.filterMap_map, List.filterMap_map]
        congr 1
        refine List.filterMap_congr fun bs hbs => ?_
        rw [Function.comp_apply, Function.comp_apply, (hagain bs hbs).2.2.1]
      rw [remake, if_pos rfl, List.map_map, List.map_map, List.map_map, alignAliases]
      simp only [Function.comp_def]
      rw [hwidth, List.map_map]
      exact List.map_congr_left fun bs hbs => (hagain bs hbs).2.2.2

end SqlLayout
