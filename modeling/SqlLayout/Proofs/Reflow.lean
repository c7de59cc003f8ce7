import SqlLayout.Proofs.Breaks
import SqlLayout.Proofs.Spread
import SqlLayout.Proofs.Toplevel

/-!
# Broken code stays as it is broken

Where a CASE or a window is cut depends on its tokens other than space only.
What is cut and put on one line again is cut at the same places, so it is
broken into the same lines (`reflow_twice`).
-/

namespace SqlLayout

/-! ## CASE -/

theorem caseShape_solids (n : Nesting) (d : Nat) (ts : List Token) : caseShape n d (solids ts) =
    ⟨(caseShape n d ts).pending, solids (caseShape n d ts).first, (caseShape n d ts).later.map (Prod.map id solids)⟩ := by
  induction ts generalizing n d with
  | nil => rfl
  | cons t ts ih =>
    rw [solids_cons]
    cases hs : t.isSpace with
    | true =>
      simp only [if_true, caseShape, Nesting.topKeyword_of_isSpace hs, Nesting.step_of_isSpace hs, caseStep, ih,
        solids_cons, hs]
    | false =>
      simp only [Bool.false_eq_true, if_false, caseShape, ih]
      split <;> simp [solids_cons, hs]

theorem caseShape_later (n : Nesting) (d : Nat) (ts : List Token) :
    ∀ l ∈ (caseShape n d ts).later, ∃ t us, l.2 = t :: us ∧ t.isSpace = false := by
  induction ts generalizing n d with
  | nil => simp [caseShape]
  | cons t ts ih =>
    rw [caseShape]
    cases hlevel : (caseStep d (n.topKeyword t)).2 with
    | none => simpa [hlevel] using ih (n.step t) (caseStep d (n.topKeyword t)).1
    | some l =>
      have hs : t.isSpace = false := by
        by_contra hs
        rw [Nesting.topKeyword_of_isSpace (by simpa using hs)] at hlevel
        cases hlevel
      simp only [hlevel, List.mem_cons]
      rintro m (rfl | hm)
      · exact ⟨t, _, rfl, hs⟩
      · exact ih _ _ m hm

/-- The first token starts no later line, since no CASE is open. -/
theorem caseShape_first (n : Nesting) (t : Token) (ts : List Token) :
    ∃ us, (caseShape n 0 (t :: ts)).first = t :: us := by
  have hlevel : (caseStep 0 (n.topKeyword t)).2 = none := by
    unfold caseStep
    split <;> rfl
  rw [caseShape]
  simp only [hlevel]
  exact ⟨_, rfl⟩

namespace CaseShape

def groups (s : CaseShape) : List (List Token) := s.first :: s.later.map Prod.snd

def rows (indent : Nat) (s : CaseShape) : List (Nat × List Token) := s.later.map fun l => (l.1 * indent, strip l.2)

theorem snd_rows (indent : Nat) (s : CaseShape) : strip s.first :: (s.rows indent).map Prod.snd = s.groups.map strip := by
  simp [rows, groups, Function.comp_def]

end CaseShape

theorem flatten_groups (n : Nesting) (d : Nat) (ts : List Token) : (caseShape n d ts).groups.flatten = ts := caseShape_tokens n d ts

theorem infix_groups {ts g : List Token} (hg : g ∈ (caseShape {} 0 ts).groups) : g <:+: ts := by
  conv_rhs => rw [← flatten_groups {} 0 ts]
  exact List.infix_of_mem_flatten hg

theorem closed_dropLast {gs : List (List Token)} (h : Lexed gs.flatten) (hne : ∀ g ∈ gs, g ≠ []) :
    ∀ g ∈ gs.dropLast, ∀ t ∈ g, t.isUnterminated = false := by
  intro g hg t ht
  rcases List.eq_nil_or_concat gs with rfl | ⟨gs, k, rfl⟩
  · simp at hg
  · rw [List.concat_eq_append] at h hne hg
    rw [List.dropLast_concat] at hg
    rw [List.flatten_append, List.flatten_singleton] at h
    exact h.isUnterminated (hne k (by simp)) (List.mem_flatten.mpr ⟨g, hg, ht⟩)

section
variable {ts : List Token} (h : IsRow ts)
include h

theorem IsRow.head_groups : ∀ g ∈ (caseShape {} 0 ts).groups, ∃ t us, g = t :: us ∧ t.isSpace = false := by
  intro g hg
  rcases List.mem_cons.mp hg with rfl | hg
  · obtain ⟨t, us, rfl⟩ := List.exists_cons_of_ne_nil h.ne_nil
    obtain ⟨vs, e⟩ := caseShape_first {} t us
    exact ⟨t, vs, e, h.head t rfl⟩
  · obtain ⟨l, hl, rfl⟩ := List.mem_map.mp hg
    exact caseShape_later _ _ _ l hl

theorem IsRow.isRow_groups : ∀ g ∈ (caseShape {} 0 ts).groups, IsRow (strip g) := by
  intro g hg
  obtain ⟨t, us, rfl, hs⟩ := h.head_groups g hg
  exact h.tidy.isRow (infix_groups hg) (by simp [solids_cons, hs])

theorem IsRow.isRows_case (indent : Nat) :
    IsRows (strip (caseShape {} 0 ts).first) ((caseShape {} 0 ts).rows indent) := by
  refine ⟨h.isRow_groups _ List.mem_cons_self, fun r hr => ?_, ?_⟩
  · obtain ⟨l, hl, rfl⟩ := List.mem_map.mp hr
    exact h.isRow_groups _ (List.mem_cons_of_mem _ (List.mem_map_of_mem hl))
  · rw [CaseShape.snd_rows, ← List.map_dropLast]
    intro k hk t ht
    obtain ⟨g, hg, rfl⟩ := List.mem_map.mp hk
    have hl : Lexed (caseShape {} 0 ts).groups.flatten := by
      rw [flatten_groups]
      exact h.tidy.lexed
    have hne : ∀ g ∈ (caseShape {} 0 ts).groups, g ≠ [] := fun g hg => by
      obtain ⟨t, us, rfl, -⟩ := h.head_groups g hg
      exact List.cons_ne_nil t us
    exact closed_dropLast hl hne g hg t ((infix_strip g).subset ht)

theorem IsRow.reflowCase_eq {code : Text} (e : tokenize code = ts) (indent : Nat) : reflowCase indent code =
    if (caseShape {} 0 ts).pending = 0 && (caseShape {} 0 ts).later.any (·.1 = 0) then
      some (joinLines (rowLines (strip (caseShape {} 0 ts).first) ((caseShape {} 0 ts).rows indent)))
    else none := by
  have htrim : ∀ g ∈ (caseShape {} 0 ts).groups, trimEnd (spell g) = spell (strip g) := by
    intro g hg
    obtain ⟨t, us, rfl, hs⟩ := h.head_groups g hg
    exact (h.tidy.of_infix (infix_groups hg)).trimEnd_spell (by simpa using hs)
  have hline : ∀ l ∈ (caseShape {} 0 ts).later, trimEnd (pad (l.1 * indent) ++ spell l.2) =
      pad (l.1 * indent) ++ spell (strip l.2) := by
    intro l hl
    have hg := List.mem_cons_of_mem (caseShape {} 0 ts).first (List.mem_map_of_mem (f := Prod.snd) hl)
    have hrow := h.isRow_groups _ hg
    rw [trimEnd_append (by rw [htrim _ hg]; exact spell_ne_nil hrow.tidy.lexed.legible hrow.ne_nil), htrim _ hg]
  rw [reflowCase, e, rowLines, CaseShape.rows, List.map_map, ← htrim _ List.mem_cons_self]
  simp only [List.map_congr_left hline]
  rfl

end

/-! ## The same CASE with other space -/

theorem caseShape_congr {ts us : List Token} (h : solids ts = solids us) :
    (caseShape {} 0 ts).pending = (caseShape {} 0 us).pending ∧
      (caseShape {} 0 ts).groups.map solids = (caseShape {} 0 us).groups.map solids ∧
      (caseShape {} 0 ts).later.map Prod.fst = (caseShape {} 0 us).later.map Prod.fst := by
  have hshape := caseShape_solids {} 0 ts
  rw [h, caseShape_solids] at hshape
  obtain ⟨hp, hf, hl⟩ := CaseShape.mk.inj hshape
  have hsnd := congrArg (List.map Prod.snd) hl
  have hfst := congrArg (List.map Prod.fst) hl
  simp only [List.map_map] at hsnd hfst
  refine ⟨hp.symm, ?_, hfst.symm⟩
  rw [CaseShape.groups, CaseShape.groups, List.map_cons, List.map_cons, hf, List.map_map, List.map_map]
  exact congrArg _ hsnd.symm

theorem any_later_congr {ts us : List Token} (h : solids ts = solids us) :
    (caseShape {} 0 ts).later.any (·.1 = 0) = (caseShape {} 0 us).later.any (·.1 = 0) := by
  have hfst (s : CaseShape) : s.later.any (·.1 = 0) = (s.later.map Prod.fst).any (· = 0) := by
    rw [List.any_map]
    rfl
  rw [hfst, hfst, (caseShape_congr h).2.2]

theorem reflowCase_eq_none {code code' : Text} (h : solidsOf code' = solidsOf code) {indent : Nat}
    (hn : reflowCase indent code = none) : reflowCase indent code' = none := by
  simp only [reflowCase, ite_eq_right_iff, reduceCtorEq, imp_false] at hn ⊢
  rwa [(caseShape_congr h).1, any_later_congr h]

/-- What a CASE is broken into is broken at the same places. -/
theorem IsRow.rows_spread {ts ts' : List Token} (h : IsRow ts) (hs : solids ts' = solids ts)
    (e : ts' = spread ((caseShape {} 0 ts).groups.map strip)) (indent : Nat) :
    strip (caseShape {} 0 ts').first = strip (caseShape {} 0 ts).first ∧
      (caseShape {} 0 ts').rows indent = (caseShape {} 0 ts).rows indent := by
  obtain ⟨-, hgroups, hlevels⟩ := caseShape_congr hs
  have hstrip : (caseShape {} 0 ts').groups.map strip = (caseShape {} 0 ts).groups.map strip := by
    refine strip_cuts (x := []) (y := []) ?_ rfl ?_ fun g hg => ?_
    · rw [flatten_groups, List.nil_append, List.append_nil, e]
    · rw [hgroups, List.map_map]
      exact List.map_congr_left fun g _ => (solids_strip g).symm
    · obtain ⟨k, hk, rfl⟩ := List.mem_map.mp hg
      exact ⟨(h.isRow_groups k hk).ne_nil, strip_strip k⟩
  obtain ⟨hfirst, hlater⟩ := List.cons.inj hstrip
  have hlines (s : CaseShape) : s.rows indent = ((s.later.map Prod.fst).map (· * indent)).zip ((s.later.map Prod.snd).map strip) := by
    rw [List.map_map, List.map_map, List.zip_map']
    rfl
  exact ⟨hfirst, by rw [hlines, hlines, hlevels, hlater]⟩

/-- The lines of a CASE, put on one line, are broken into the same lines. -/
theorem reflowCase_lines {indent : Nat} {code out : Text} (h : IsRow (tokenize code)) (ho : reflowCase indent code = some out) :
    ∃ g rows, IsRows g rows ∧ out = joinLines (rowLines g rows) ∧
      (g :: rows.map Prod.snd).flatMap solids = solidsOf code ∧
      ∀ code', tokenize code' = spread (g :: rows.map Prod.snd) → reflowCase indent code' = some out := by
  have hrows := h.isRows_case indent
  rw [h.reflowCase_eq rfl] at ho
  split at ho
  · next hcond =>
    have hs : (strip (caseShape {} 0 (tokenize code)).first :: ((caseShape {} 0 (tokenize code)).rows indent).map Prod.snd).flatMap
        solids = solidsOf code := by
      rw [CaseShape.snd_rows, List.flatMap_map, solidsOf]
      simp only [solids_strip]
      rw [← solids_flatten, flatten_groups]
    refine ⟨_, _, hrows, (Option.some.inj ho).symm, hs, fun code' e => ?_⟩
    have hrow' : IsRow (tokenize code') := e ▸ hrows.isRow_spread
    have hs' : solidsOf code' = solidsOf code := by rw [← hs, solidsOf, e, solids_spread]
    have hsame := h.rows_spread hs' (by rw [e, CaseShape.snd_rows]) indent
    rw [hrow'.reflowCase_eq rfl, (caseShape_congr hs').1, any_later_congr hs', if_pos hcond, hsame.1, hsame.2, ho]
  · cases ho

/-! ## Windows -/

theorem splitClosing_solids (d : Nat) (ts : List Token) :
    splitClosing d (solids ts) = (splitClosing d ts).map (Prod.map solids solids) := by
  induction ts generalizing d with
  | nil => rfl
  | cons t ts ih =>
    cases t with
    | closeParen =>
      rw [solids_cons, if_neg (by decide)]
      cases d with
      | zero => rfl
      | succ d =>
        simp only [splitClosing, ih, Option.map_map]
        rfl
    | whitespace w =>
      rw [solids_cons, if_pos (by rfl)]
      simp only [splitClosing, ih, Option.map_map]
      rfl
    | _ =>
      rw [solids_cons, if_neg (by simp [Token.isSpace])]
      simp only [splitClosing, ih, Option.map_map]
      rfl

def Window.solids (w : Window) : Window := ⟨SqlLayout.solids w.front, w.keyword, SqlLayout.solids w.inner, SqlLayout.solids w.back⟩

theorem window?_solids (n : Nesting) (ts : List Token) : window? n (solids ts) = (window? n ts).map Window.solids := by
  induction ts generalizing n with
  | nil => rfl
  | cons t ts ih =>
    cases hs : t.isSpace with
    | true =>
      rw [solids_cons, if_pos hs, ih]
      simp only [window?, Nesting.topKeyword_of_isSpace hs, Nesting.step_of_isSpace hs, reduceCtorEq, if_false,
        Option.map_map, Function.comp_def, Window.solids, solids_cons, hs, if_true]
      rfl
    | false =>
      rw [solids_cons, if_neg (by simp [hs])]
      have later : (window? (n.step t) (solids ts)).map (fun w => { w with front := t :: w.front }) =
          ((window? (n.step t) ts).map fun w => { w with front := t :: w.front }).map Window.solids := by
        rw [ih, Option.map_map, Option.map_map]
        simp [Function.comp_def, Window.solids, solids_cons, hs]
      have hrest : (if n.topKeyword t = some .OVER then (solids ts).dropWhile Token.isSpace else []) =
          solids (if n.topKeyword t = some .OVER then ts.dropWhile Token.isSpace else []) := by
        split
        · rw [solids_dropWhile_isSpace]
          cases e : solids ts with
          | nil => rfl
          | cons u us =>
            have hu : u.isSpace = false := (mem_solids.mp (e ▸ List.mem_cons_self)).2
            exact List.dropWhile_cons_of_neg (by simp [hu])
        · rfl
      have hhead : ∀ u ∈ (if n.topKeyword t = some .OVER then ts.dropWhile Token.isSpace else []).head?, u.isSpace = false := by
        split
        · intro u hu
          have := List.head?_dropWhile_not Token.isSpace ts
          rw [Option.mem_def.mp hu] at this
          simpa using this
        · intro u hu
          cases hu
      rw [window?, window?, hrest]
      generalize (if n.topKeyword t = some .OVER then ts.dropWhile Token.isSpace else []) = us at hhead
      cases us with
      | nil => exact later
      | cons u us =>
        rw [solids_cons, if_neg (by simp [hhead u rfl])]
        cases u with
        | openParen =>
          simp only [splitClosing_solids, Option.map_map]
          rfl
        | _ => exact later

theorem windowParts_solids (n : Nesting) (started : Bool) {ts : List Token} (h : ∀ t ∈ ts, isBlankText t.text = t.isSpace) :
    windowParts n started (solids ts) = (windowParts n started ts).map solids := by
  induction ts generalizing n started with
  | nil => rfl
  | cons t ts ih =>
    have ih := ih (h := fun t ht => h t (List.mem_cons_of_mem _ ht))
    obtain ⟨g, gs, e⟩ := List.exists_cons_of_ne_nil (windowParts_flatten (n.step t) (started || !isBlankText t.text) ts).1
    cases hs : t.isSpace with
    | true =>
      rw [h t List.mem_cons_self, hs, Bool.not_true, Bool.or_false, Nesting.step_of_isSpace hs] at e
      rw [solids_cons, if_pos hs, ih, windowParts, h t List.mem_cons_self, hs, Bool.not_true, Bool.or_false,
        Nesting.step_of_isSpace hs, Nesting.topKeyword_of_isSpace hs, e]
      simp [startsPart, solids_cons, hs]
    | false =>
      rw [solids_cons, if_neg (by simp [hs]), windowParts, windowParts, ih, e]
      split <;> simp [solids_cons, hs]

theorem windowParts_tail (n : Nesting) (started : Bool) (ts : List Token) : ∀ p ∈ (windowParts n started ts).tail, p ≠ [] := by
  induction ts generalizing n started with
  | nil => simp [windowParts]
  | cons t ts ih =>
    have ih := ih (n.step t) (started || !isBlankText t.text)
    obtain ⟨g, gs, e⟩ := List.exists_cons_of_ne_nil (windowParts_flatten (n.step t) (started || !isBlankText t.text) ts).1
    rw [windowParts, e]
    rw [e] at ih
    split
    · simpa using ih
    · simpa using ih

theorem windowParts_ne_nil (n : Nesting) {ts : List Token} (h : ts ≠ []) : ∀ p ∈ windowParts n false ts, p ≠ [] := by
  obtain ⟨t, ts, rfl⟩ := List.exists_cons_of_ne_nil h
  have htail := windowParts_tail n false (t :: ts)
  obtain ⟨g, gs, e⟩ := List.exists_cons_of_ne_nil (windowParts_flatten (n.step t) (false || !isBlankText t.text) ts).1
  rw [windowParts, e] at htail ⊢
  simp only [Bool.and_false, Bool.false_eq_true, if_false, List.modifyHead_cons, List.tail_cons, List.mem_cons] at htail ⊢
  rintro p (rfl | hp)
  · exact List.cons_ne_nil t g
  · exact htail p hp

namespace Window

def parts (w : Window) : List (List Token) := windowParts {} false w.inner

def closing (w : Window) : List Token :=
  .closeParen :: if strip w.back = [] then [] else .whitespace [' '] :: strip w.back

def rows (indent : Nat) (w : Window) : List (Nat × List Token) :=
  (indent, [w.keyword, .whitespace [' '], .openParen]) :: (w.parts.map (fun p => (indent + indent, strip p)) ++
    [(indent, w.closing)])

/-- A window to be broken, with the tokens it stands in. -/
structure Within (w : Window) (ts : List Token) : Prop where
  row : IsRow ts
  keyword : w.keyword.isKeyword .OVER
  tokens : ∃ sp : List Token, (∀ t ∈ sp, t.isSpace) ∧
    ts = w.front ++ w.keyword :: (sp ++ .openParen :: (w.inner ++ .closeParen :: w.back))
  front : SqlLayout.solids w.front ≠ []
  inner : SqlLayout.solids w.inner ≠ []

section
variable {w : Window} {ts : List Token} (h : w.Within ts)
include h

theorem Within.infix_front : w.front <:+: ts := by
  obtain ⟨sp, -, e⟩ := h.tokens
  exact ⟨[], w.keyword :: (sp ++ .openParen :: (w.inner ++ .closeParen :: w.back)), by rw [e]; simp⟩

theorem Within.infix_inner : w.inner <:+: ts := by
  obtain ⟨sp, -, e⟩ := h.tokens
  exact ⟨w.front ++ w.keyword :: (sp ++ [.openParen]), .closeParen :: w.back, by rw [e]; simp⟩

theorem Within.infix_back : w.back <:+: ts := by
  obtain ⟨sp, -, e⟩ := h.tokens
  exact ⟨w.front ++ w.keyword :: (sp ++ .openParen :: (w.inner ++ [.closeParen])), [], by rw [e]; simp⟩

theorem Within.infix_parts {p : List Token} (hp : p ∈ w.parts) : p <:+: ts := by
  refine List.IsInfix.trans ?_ h.infix_inner
  rw [← (windowParts_flatten {} false w.inner).2]
  exact List.infix_of_mem_flatten hp

theorem Within.solids_parts : w.parts.map SqlLayout.solids = windowParts {} false (SqlLayout.solids w.inner) :=
  (windowParts_solids {} false fun t ht => h.row.tidy.isBlankText_text t (h.infix_inner.subset ht)).symm

theorem Within.isRow_parts {p : List Token} (hp : p ∈ w.parts) : IsRow (strip p) := by
  refine h.row.tidy.isRow (h.infix_parts hp) ?_
  refine windowParts_ne_nil {} h.inner _ ?_
  rw [← h.solids_parts]
  exact List.mem_map_of_mem hp

theorem Within.isRow_keyword : IsRow [w.keyword, .whitespace [' '], .openParen] := by
  obtain ⟨kw, hkw⟩ := isWord_of_isKeyword h.keyword
  have hm : w.keyword ∈ ts := by
    obtain ⟨sp, -, e⟩ := h.tokens
    rw [e]
    simp
  have hf := h.row.tidy.formed _ hm
  have hn : '\n' ∉ w.keyword.text := fun hn => h.row.tidy.line (List.mem_flatMap.mpr ⟨_, hm, hn⟩)
  have hfirm := h.row.tidy.firm _ hm
  rw [hkw] at hf hn hfirm ⊢
  refine ⟨⟨⟨hf, rfl, ⟨List.cons_ne_nil _ _, rfl⟩, rfl, trivial, trivial, trivial⟩, ?_, ?_, ?_, ?_⟩,
    List.cons_ne_nil _ _, rfl⟩
  · simpa [Token.text] using hn
  · simp [Token.isLineComment]
  · simp [Spaced, Token.isSpace]
  · simp only [List.forall_mem_cons]
    exact ⟨hfirm, Or.inl rfl, Or.inr ⟨rfl, rfl⟩, by simp⟩

theorem Within.isRow_closing : IsRow w.closing := by
  have hfirm : Token.closeParen.Firm := Or.inr ⟨rfl, rfl⟩
  rw [closing]
  split
  · exact ⟨⟨⟨trivial, trivial, trivial⟩, by decide, by simp [Token.isLineComment], by simp [Spaced, Token.isSpace],
      by simpa using hfirm⟩, List.cons_ne_nil _ _, rfl⟩
  · next hne =>
    have hb : IsRow (strip w.back) := h.row.tidy.isRow h.infix_back (mt strip_eq_nil.mpr hne)
    have hstops : (Token.whitespace [' ']).Stops (spell (strip w.back)) := stops_whitespace hb.tidy.formed hb.head
    refine ⟨⟨⟨trivial, trivial, ⟨List.cons_ne_nil _ _, rfl⟩, hstops, hb.tidy.lexed⟩, ?_, ?_, ?_, ?_⟩,
      List.cons_ne_nil _ _, strip_eq_self ?_ ?_⟩
    · simpa [Token.text] using hb.tidy.line
    · simpa [Token.isLineComment] using hb.tidy.plain
    · simpa [Spaced, Token.isSpace] using hb.tidy.spaced
    · simp only [List.forall_mem_cons]
      exact ⟨hfirm, Or.inl rfl, hb.tidy.firm⟩
    · rintro t ⟨⟩
      rfl
    · rw [List.getLast?_cons_cons, ← List.singleton_append, List.getLast?_append_of_ne_nil _ hb.ne_nil]
      exact hb.getLast

theorem Within.isRows (indent : Nat) : IsRows (strip w.front) (w.rows indent) := by
  refine ⟨h.row.tidy.isRow h.infix_front h.front, fun r hr => ?_, ?_⟩
  · simp only [rows, List.mem_cons, List.mem_append, List.mem_map, List.not_mem_nil, or_false] at hr
    rcases hr with rfl | ⟨p, hp, rfl⟩ | rfl
    · exact h.isRow_keyword
    · exact h.isRow_parts hp
    · exact h.isRow_closing
  · -- all of these stand in front of the closing parenthesis
    obtain ⟨sp, -, e⟩ := h.tokens
    have hl : Lexed ((w.front ++ w.keyword :: (sp ++ .openParen :: w.inner)) ++ .closeParen :: w.back) := by
      have := h.row.tidy.lexed
      rw [e] at this
      simpa using this
    have hclosed : ∀ t ∈ w.front ++ w.keyword :: (sp ++ .openParen :: w.inner), t.isUnterminated = false :=
      fun t ht => hl.isUnterminated (List.cons_ne_nil _ _) ht
    have hparts : ∀ p ∈ w.parts, ∀ t ∈ strip p, t ∈ w.inner := fun p hp t ht => by
      rw [← (windowParts_flatten {} false w.inner).2]
      exact List.mem_flatten.mpr ⟨p, hp, (infix_strip p).subset ht⟩
    intro g hg t ht
    rw [rows, List.map_cons, List.map_append, List.map_singleton, ← List.cons_append, ← List.cons_append,
      List.dropLast_concat, List.map_map] at hg
    simp only [List.mem_cons, List.mem_map, Function.comp_apply] at hg
    rcases hg with rfl | rfl | ⟨p, hp, rfl⟩
    · exact hclosed t (List.mem_append_left _ ((infix_strip _).subset ht))
    · simp only [List.mem_cons, List.not_mem_nil, or_false] at ht
      rcases ht with rfl | rfl | rfl
      · exact hclosed _ (by simp)
      · rfl
      · rfl
    · exact hclosed t (by simp [hparts p hp t ht])

theorem Within.lines_eq (indent : Nat) : w.lines indent = rowLines (strip w.front) (w.rows indent) := by
  have htrim : ∀ g, g <:+: ts → trim (spell g) = spell (strip g) := fun g hg => (h.row.tidy.of_infix hg).trim_spell
  have hparts : (w.parts.map fun p => trim (spell p)).filter (· ≠ []) = w.parts.map fun p => spell (strip p) := by
    rw [List.map_congr_left fun p hp => htrim p (h.infix_parts hp), List.filter_eq_self]
    intro l hl
    obtain ⟨p, hp, rfl⟩ := List.mem_map.mp hl
    have hrow := h.isRow_parts hp
    simpa using spell_ne_nil hrow.tidy.lexed.legible hrow.ne_nil
  have hback : (if trim (spell w.back) = [] then [')'] else ')' :: ' ' :: trim (spell w.back)) = spell w.closing := by
    have hnil : spell (strip w.back) = [] ↔ strip w.back = [] := by
      refine ⟨fun hs => by_contra fun hne => ?_, fun hs => by rw [hs, spell_nil]⟩
      exact spell_ne_nil (h.row.tidy.of_infix ((infix_strip _).trans h.infix_back)).lexed.legible hne hs
    rw [htrim _ h.infix_back, closing]
    simp only [hnil]
    split <;> rfl
  rw [parts] at hparts
  simp only [Window.lines, rowLines, rows, htrim _ h.infix_front, hback, hparts, parts]
  simp [Function.comp_def, Token.text]

end

/-! ## The same window with other space -/

theorem snd_rows (indent : Nat) (w : Window) : (w.rows indent).map Prod.snd =
    [w.keyword, .whitespace [' '], .openParen] :: (w.parts.map strip ++ [w.closing]) := by
  simp [rows, Function.comp_def]

theorem solids_closing (w : Window) : SqlLayout.solids w.closing = .closeParen :: SqlLayout.solids w.back := by
  rw [closing, solids_cons, if_neg (by decide)]
  split
  · next h => rw [strip_eq_nil.mp h, solids_nil]
  · rw [solids_cons, if_pos (by rfl), solids_strip]

theorem Within.map_solids_rows {w : Window} {ts : List Token} (h : w.Within ts) (indent : Nat) :
    (strip w.front :: (w.rows indent).map Prod.snd).map SqlLayout.solids =
      SqlLayout.solids w.front :: [w.keyword, .openParen] ::
        (w.parts.map SqlLayout.solids ++ [.closeParen :: SqlLayout.solids w.back]) := by
  obtain ⟨kw, hkw⟩ := isWord_of_isKeyword h.keyword
  rw [snd_rows, hkw]
  simp [solids_closing, Function.comp_def, solids_cons, Token.isSpace]

theorem Within.exists_cut {w : Window} {ts : List Token} (h : w.Within ts) (indent : Nat) :
    ∃ mid, (w.front :: mid :: (w.parts ++ [.closeParen :: w.back])).flatten = ts ∧
      (w.front :: mid :: (w.parts ++ [.closeParen :: w.back])).map SqlLayout.solids =
        (strip w.front :: (w.rows indent).map Prod.snd).map SqlLayout.solids := by
  obtain ⟨sp, hsp, e⟩ := h.tokens
  refine ⟨w.keyword :: (sp ++ [.openParen]), ?_, ?_⟩
  · rw [e]
    simp [(windowParts_flatten {} false w.inner).2, parts]
  · obtain ⟨kw, hkw⟩ := isWord_of_isKeyword h.keyword
    rw [h.map_solids_rows, hkw]
    simp [solids_cons, Token.isSpace, solids_eq_nil.mpr (List.all_eq_true.mpr hsp)]

theorem strip_of_strip_cons {t : Token} {b c : List Token} (ht : t.isSpace = false) (h : strip (t :: b) = t :: c) :
    strip b = strip c := by
  obtain ⟨x, y, e, hx, hy⟩ := exists_strip (t :: b)
  rw [h] at e
  cases x with
  | cons u x =>
    obtain ⟨rfl, -⟩ := List.cons.inj e
    simp [ht] at hx
  | nil =>
    obtain ⟨-, rfl⟩ := List.cons.inj e
    exact strip_space_append (x := []) rfl hy c

/-- What a window is broken into is broken at the same places. -/
theorem Within.rows_spread {w w' : Window} {ts ts' : List Token} (h : w.Within ts) (h' : w'.Within ts')
    (hs : w'.solids = w.solids) (indent : Nat)
    (e : ts' = spread (strip w.front :: (w.rows indent).map Prod.snd)) :
    strip w'.front = strip w.front ∧ w'.rows indent = w.rows indent := by
  obtain ⟨hfront, hkeyword, hinner, hback⟩ := Window.mk.inj hs
  obtain ⟨mid, e', hcut⟩ := h'.exists_cut indent
  have hsolids : (strip w'.front :: (w'.rows indent).map Prod.snd).map SqlLayout.solids =
      (strip w.front :: (w.rows indent).map Prod.snd).map SqlLayout.solids := by
    rw [h.map_solids_rows, h'.map_solids_rows, h.solids_parts, h'.solids_parts, hfront, hkeyword, hinner, hback]
  have hstrip : (w'.front :: mid :: (w'.parts ++ [.closeParen :: w'.back])).map strip =
      strip w.front :: (w.rows indent).map Prod.snd := by
    refine strip_cuts (x := []) (y := []) ?_ rfl (hcut.trans hsolids) ?_
    · rw [List.nil_append, List.append_nil, ← e, e']
    · rintro g hg
      have hrows := h.isRows indent
      rcases List.mem_cons.mp hg with rfl | hg
      · exact ⟨hrows.head.ne_nil, hrows.head.tight⟩
      · obtain ⟨r, hr, rfl⟩ := List.mem_map.mp hg
        exact ⟨(hrows.tail r hr).ne_nil, (hrows.tail r hr).tight⟩
  rw [snd_rows, List.map_cons, List.map_cons, List.map_append, List.map_singleton] at hstrip
  obtain ⟨hsf, hrest⟩ := List.cons.inj hstrip
  obtain ⟨hsp, hsc⟩ := List.append_inj' (List.cons.inj hrest).2 rfl
  have hsb : strip w'.back = strip w.back := by
    rw [strip_of_strip_cons (t := .closeParen) rfl (List.cons.inj hsc).1]
    split
    · next hnil => rw [hnil]; rfl
    · have := strip_space_append (x := [.whitespace [' ']]) (y := []) rfl rfl (strip w.back)
      rwa [List.append_nil, strip_strip] at this
  refine ⟨hsf, ?_⟩
  have hlines : w'.parts.map (fun p => (indent + indent, strip p)) = w.parts.map fun p => (indent + indent, strip p) := by
    simpa [Function.comp_def] using congrArg (List.map (indent + indent, ·)) hsp
  rw [rows, rows, hkeyword, hlines, closing, closing, hsb]

end Window

theorem any_startsQuery {ts us : List Token} (h : solids ts = solids us) : ts.any startsQuery = us.any startsQuery := by
  have hsolids (ts : List Token) : ts.any startsQuery = (solids ts).any startsQuery := by
    induction ts with
    | nil => rfl
    | cons t ts ih =>
      rw [solids_cons]
      split
      · next hs =>
        obtain ⟨w, rfl⟩ := Token.eq_whitespace hs
        exact ih
      · rw [List.any_cons, List.any_cons, ih]
  rw [hsolids, hsolids us, h]

theorem reflowWindow_eq_some {indent : Nat} {code out : Text} (h : IsRow (tokenize code)) :
    reflowWindow indent code = some out ↔ (Nesting.after (tokenize code)).isBalanced ∧
      (tokenize code).any startsQuery = false ∧ ∃ w, window? {} (tokenize code) = some w ∧ w.Within (tokenize code) ∧
        out = joinLines (rowLines (strip w.front) (w.rows indent)) := by
  have hblank {w : Window} (hw : window? {} (tokenize code) = some w) :
      (isBlankText (spell w.front) || w.inner.all Token.isSpace) = false ↔ w.Within (tokenize code) := by
    obtain ⟨hk, sp, hsp, e⟩ := window?_tokens hw
    have hfront : Tidy w.front := h.tidy.of_infix
      ⟨[], w.keyword :: (sp ++ .openParen :: (w.inner ++ .closeParen :: w.back)), by rw [e]; simp⟩
    rw [Bool.or_eq_false_iff, ← Bool.not_eq_true, ← Bool.not_eq_true, hfront.isBlankText_spell, ← solids_eq_nil]
    exact ⟨fun hs => ⟨h, hk, ⟨sp, hsp, e⟩, hs.1, hs.2⟩, fun hs => ⟨hs.front, hs.inner⟩⟩
  constructor
  · intro ho
    simp only [reflowWindow] at ho
    split at ho
    · cases ho
    · next hcond =>
      split at ho
      · cases ho
      · next w hw =>
        split at ho
        · cases ho
        · next hb =>
          have hwithin := (hblank hw).mp (Bool.eq_false_iff.mpr hb)
          simp only [Bool.or_eq_true, not_or, Bool.not_eq_true, Bool.not_eq_false'] at hcond
          exact ⟨hcond.1, hcond.2, w, hw, hwithin, by rw [← hwithin.lines_eq, ← Option.some.inj ho]⟩
  · rintro ⟨hbal, hquery, w, hw, hwithin, rfl⟩
    simp only [reflowWindow, hbal, hquery, hw, (hblank hw).mpr hwithin, hwithin.lines_eq]
    rfl

/-- The lines of a window, put on one line, are broken into the same lines. -/
theorem reflowWindow_lines {indent : Nat} {code out : Text} (h : IsRow (tokenize code))
    (ho : reflowWindow indent code = some out) :
    ∃ g rows, IsRows g rows ∧ out = joinLines (rowLines g rows) ∧
      (g :: rows.map Prod.snd).flatMap solids = solidsOf code ∧
      ∀ code', tokenize code' = spread (g :: rows.map Prod.snd) → reflowWindow indent code' = some out := by
  obtain ⟨hbal, hquery, w, hw, hwithin, rfl⟩ := (reflowWindow_eq_some h).mp ho
  have hrows := hwithin.isRows indent
  have hs : (strip w.front :: (w.rows indent).map Prod.snd).flatMap solids = solidsOf code := by
    obtain ⟨mid, e, hcut⟩ := hwithin.exists_cut indent
    rw [List.flatMap_def, ← hcut, ← List.flatMap_def, ← solids_flatten, e, solidsOf]
  refine ⟨_, _, hrows, rfl, hs, fun code' e => ?_⟩
  have hrow' : IsRow (tokenize code') := e ▸ hrows.isRow_spread
  have hs' : solidsOf code' = solidsOf code := by rw [← hs, solidsOf, e, solids_spread]
  have hbal' : Nesting.after (tokenize code') = Nesting.after (tokenize code) := Nesting.after_congr hs'
  have hw' := window?_solids {} (tokenize code')
  rw [← solidsOf, hs', solidsOf, window?_solids, hw] at hw'
  obtain ⟨w', hw', hsolids⟩ := Option.map_eq_some_iff.mp hw'.symm
  obtain ⟨hk, htokens⟩ := window?_tokens hw'
  have hwithin' : w'.Within (tokenize code') := by
    refine ⟨hrow', hk, htokens, ?_, ?_⟩
    · rw [show solids w'.front = solids w.front from congrArg Window.front hsolids]
      exact hwithin.front
    · rw [show solids w'.inner = solids w.inner from congrArg Window.inner hsolids]
      exact hwithin.inner
  obtain ⟨hfront, hlines⟩ := hwithin.rows_spread hwithin' hsolids indent e
  exact (reflowWindow_eq_some hrow').mpr
    ⟨by rwa [hbal'], by rwa [any_startsQuery hs'], w', hw', hwithin', by rw [hfront, hlines]⟩

/-! ## Both -/

theorem reflow_lines {indent : Nat} {code out : Text} (h : IsRow (tokenize code)) (ho : reflow indent code = some out) :
    ∃ g rows, IsRows g rows ∧ out = joinLines (rowLines g rows) ∧
      (g :: rows.map Prod.snd).flatMap solids = solidsOf code ∧
      ∀ code', '\n' ∉ code' → tokenize code' = spread (g :: rows.map Prod.snd) → reflow indent code' = some out := by
  rw [reflow] at ho
  split at ho
  · cases ho
  rcases Option.or_eq_some_iff.mp ho with ho | ⟨hnone, ho⟩
  · obtain ⟨g, rows, hrows, e, hs, hagain⟩ := reflowCase_lines h ho
    refine ⟨g, rows, hrows, e, hs, fun code' hn e' => ?_⟩
    rw [reflow, if_neg (by simpa using hn), hagain code' e', Option.some_or]
  · obtain ⟨g, rows, hrows, e, hs, hagain⟩ := reflowWindow_lines h ho
    refine ⟨g, rows, hrows, e, hs, fun code' hn e' => ?_⟩
    have hs' : solidsOf code' = solidsOf code := by rw [← hs, solidsOf, e', solids_spread]
    rw [reflow, if_neg (by simpa using hn), reflowCase_eq_none hs' hnone, Option.none_or, hagain code' e']

theorem reflow_nil (indent : Nat) : reflow indent [] = none := by
  simp [reflow, reflowCase, reflowWindow, tokenize, caseShape, window?]

/-- Code on one line, broken into lines and put on one line again, is broken
into the same lines. -/
theorem reflow_twice (indent : Nat) {code out : Text} (hn : ∃ n c, normalize n c = code) (hl : '\n' ∉ code)
    (hc : ∀ t ∈ tokenize code, t.isLineComment = false) (hv : '\x0b' ∉ code)
    (ha : ∀ c ∈ code, isBlank c → c.toNat < 0x80) (h : reflow indent code = some out) :
    solidsOf out = solidsOf code ∧ reflow indent (normalize indent out) = some out := by
  obtain ⟨n, c, hn⟩ := hn
  obtain ⟨htidy, htight⟩ := tidy_normalize hn hl hc (hards_script hv ha)
  have hne : tokenize code ≠ [] := by
    intro e
    have hnil := spell_tokenize code
    rw [e, spell_nil] at hnil
    rw [← hnil, reflow_nil] at h
    cases h
  obtain ⟨g, rows, hrows, rfl, hs, hagain⟩ := reflow_lines ⟨htidy, hne, htight⟩ h
  refine ⟨hrows.solidsOf_rowLines.trans hs, hagain _ ?_ (hrows.tokenize_normalize indent)⟩
  rw [← spell_tokenize (normalize _ _), hrows.tokenize_normalize]
  exact hrows.isRow_spread.tidy.line

set_option maxRecDepth 100000 in
/-- Keywords that stand close to other tokens get blanks around them the first
time, and a CASE that is not broken has an END of its own. -/
theorem reflow_twice_close : reflow 2 "CASE WHEN(a=1)THEN'x'ELSE CASE b WHEN 2 THEN 3END END AS d".toList =
      some "CASE\n  WHEN(a=1)\n    THEN'x'\n  ELSE CASE b WHEN 2 THEN 3END\nEND AS d".toList ∧
    reflow 2 (normalize 2 "CASE\n  WHEN(a=1)\n    THEN'x'\n  ELSE CASE b WHEN 2 THEN 3END\nEND AS d".toList) =
      some "CASE\n  WHEN(a=1)\n    THEN'x'\n  ELSE CASE b WHEN 2 THEN 3END\nEND AS d".toList := by
  have h : reflow 2 "CASE WHEN(a=1)THEN'x'ELSE CASE b WHEN 2 THEN 3END END AS d".toList =
      some "CASE\n  WHEN(a=1)\n    THEN'x'\n  ELSE CASE b WHEN 2 THEN 3END\nEND AS d".toList := by decide +kernel
  refine ⟨h, (reflow_twice 2 ⟨2, "CASE  WHEN(a=1)THEN'x'ELSE CASE b\nWHEN 2 THEN 3END END AS d\n".toList, ?_⟩ ?_ ?_ ?_
    (forall_blank ?_) h).2⟩ <;> decide +kernel

end SqlLayout
