import SqlLayout.Proofs.Accepts

/-!
# The bodies of clauses do not see letter case

What is done to an item before it is laid out, and the way a clause is split
into items, asks for keywords and lengths only. A clause in upper case has the
body of the clause itself, in upper case (`Clause.split_upper`).
-/

namespace SqlLayout

/-! ## CASE -/

theorem caseShape_raise (n : Nesting) (d : Nat) (ts : List Token) :
    caseShape n d (raise ts) =
      ⟨(caseShape n d ts).pending, raise (caseShape n d ts).first,
        (caseShape n d ts).later.map (Prod.map id raise)⟩ := by
  induction ts generalizing n d with
  | nil => rfl
  | cons t ts ih =>
    simp only [raise_cons, caseShape, Nesting.topKeyword_upper, Nesting.step_upper, ih]
    cases (caseStep d (n.topKeyword t)).2 <;> rfl

theorem reflowCase_upper (n : Nat) (code : Text) : reflowCase n (upper code) = (reflowCase n code).map upper := by
  unfold reflowCase
  simp only [tokenize_upper_raise, caseShape_raise, List.any_map, List.map_map, spell_raise, trimEnd_upper]
  generalize caseShape {} 0 (tokenize code) = shape
  have hl : shape.later.map ((fun l : Nat × List Token => trimEnd (pad (l.1 * n) ++ spell l.2)) ∘ Prod.map id raise) =
      (shape.later.map fun l => trimEnd (pad (l.1 * n) ++ spell l.2)).map upper := by
    rw [List.map_map]
    refine List.map_congr_left fun l _ => ?_
    simp only [Function.comp_apply, ← trimEnd_upper, upper_append, upper_pad, ← spell_raise, Prod.map_fst, Prod.map_snd,
      id]
  rw [hl, ← List.map_cons, joinLines_upper]
  change (if decide (shape.pending = 0) && shape.later.any (fun l => decide (l.1 = 0)) then _ else _) = _
  split <;> rfl

/-! ## Windows -/

theorem startsQuery_upper (t : Token) : startsQuery t.upper = startsQuery t := by simp [startsQuery]

def Window.upper (w : Window) : Window := ⟨raise w.front, w.keyword.upper, raise w.inner, raise w.back⟩

theorem window?_raise (n : Nesting) (ts : List Token) : window? n (raise ts) = (window? n ts).map Window.upper := by
  induction ts generalizing n with
  | nil => rfl
  | cons t ts ih =>
    have hrest : (if n.topKeyword t = some .OVER then (raise ts).dropWhile Token.isSpace else []) =
        raise (if n.topKeyword t = some .OVER then ts.dropWhile Token.isSpace else []) := by
      rw [dropWhile_raise Token.isSpace_upper]
      split <;> rfl
    have later : (window? (n.step t) (raise ts)).map (fun w => { w with front := t.upper :: w.front }) =
        ((window? (n.step t) ts).map fun w => { w with front := t :: w.front }).map Window.upper := by
      rw [ih, Option.map_map, Option.map_map]
      rfl
    simp only [raise_cons, window?, Nesting.topKeyword_upper, Nesting.step_upper, hrest]
    generalize (if n.topKeyword t = some .OVER then ts.dropWhile Token.isSpace else []) = us
    cases us with
    | nil => exact later
    | cons u us =>
      cases u with
      | openParen =>
        simp only [raise_cons, Token.upper, splitClosing_raise, Option.map_map]
        rfl
      | _ => exact later

theorem windowParts_raise (n : Nesting) (started : Bool) (ts : List Token) :
    windowParts n started (raise ts) = (windowParts n started ts).map raise := by
  induction ts generalizing n started with
  | nil => rfl
  | cons t ts ih =>
    simp only [raise_cons, windowParts, Nesting.topKeyword_upper, Nesting.step_upper, Token.text_upper,
      isBlankText_upper, ih, modifyHead_raise]
    split <;> rfl

theorem Window.lines_upper (n : Nat) (w : Window) : w.upper.lines n = (w.lines n).map SqlLayout.upper := by
  have hp : (windowParts {} false (raise w.inner)).map (fun p => trim (spell p)) =
      ((windowParts {} false w.inner).map fun p => trim (spell p)).map SqlLayout.upper := by
    rw [windowParts_raise, List.map_map, List.map_map]
    simp [Function.comp_def]
  unfold Window.lines
  simp only [Window.upper, hp, filter_ne_nil_upper, spell_raise, trim_upper, upper_eq_nil, Token.text_upper]
  have hk : ∀ s : Text, pad n ++ SqlLayout.upper s ++ " (".toList = SqlLayout.upper (pad n ++ s ++ " (".toList) := by
    intro s
    rw [upper_append, upper_append, upper_pad]
    rfl
  have hlast : pad n ++ (if trim (spell w.back) = [] then [')'] else ')' :: ' ' :: SqlLayout.upper (trim (spell w.back))) =
      SqlLayout.upper (pad n ++ if trim (spell w.back) = [] then [')'] else ')' :: ' ' :: trim (spell w.back)) := by
    rw [upper_append, upper_pad]
    split <;> rfl
  rw [hk, hlast]
  simp [Function.comp_def, upper_pad]

theorem reflowWindow_upper (n : Nat) (code : Text) :
    reflowWindow n (upper code) = (reflowWindow n code).map upper := by
  unfold reflowWindow
  simp only [tokenize_upper_raise, Nesting.after_raise, any_raise startsQuery_upper, window?_raise]
  split
  · rfl
  cases window? {} (tokenize code) with
  | none => rfl
  | some w =>
    have hspace : (raise w.inner).all Token.isSpace = w.inner.all Token.isSpace := by
      simp [raise, Function.comp_def]
    have hf : w.upper.front = raise w.front := rfl
    have hi : w.upper.inner = raise w.inner := rfl
    simp only [Option.map_some, hf, hi, spell_raise, isBlankText_upper, hspace, w.lines_upper, joinLines_upper]
    split <;> rfl

theorem reflow_upper (n : Nat) (code : Text) : reflow n (upper code) = (reflow n code).map upper := by
  unfold reflow
  rw [contains_upper (by decide), reflowCase_upper, reflowWindow_upper]
  split
  · rfl
  · cases reflowCase n code <;> rfl

theorem Item.reflow_upper (n : Nat) (i : Item) : i.upper.reflow n = (i.reflow n).upper := by
  simp only [Item.reflow, Item.upper, SqlLayout.reflow_upper]
  cases SqlLayout.reflow n i.code <;> rfl

/-! ## Aliases -/

theorem splitLastAs_raise (n : Nesting) (ts : List Token) :
    splitLastAs n (raise ts) = (splitLastAs n ts).map (Prod.map raise raise) := by
  induction ts generalizing n with
  | nil => rfl
  | cons t ts ih =>
    simp only [raise_cons, splitLastAs, Nesting.topKeyword_upper, Nesting.step_upper, ih]
    cases splitLastAs (n.step t) ts with
    | some p => rfl
    | none =>
      simp only [Option.map_none]
      split <;> rfl

theorem splitAlias_upper (code : Text) : splitAlias (upper code) = (splitAlias code).map (Prod.map upper upper) := by
  unfold splitAlias
  rw [contains_upper (by decide), tokenize_upper_raise]
  split
  · rfl
  cases tokenize code with
  | nil => rfl
  | cons t ts =>
    simp only [raise_cons, Nesting.step_upper, splitLastAs_raise, Option.map_map]
    congr 1
    funext p
    simp [← upper_append]

theorem aliasWidth_upper (items : List Item) : aliasWidth (items.map Item.upper) = aliasWidth items := by
  unfold aliasWidth
  rw [List.filterMap_map]
  congr 1
  refine List.filterMap_congr fun i _ => ?_
  simp only [Function.comp_apply, Item.upper, splitAlias_upper, Option.map_map]
  congr 1
  funext p
  exact length_upper p.1

theorem Item.alignAlias_upper (width : Nat) (i : Item) : i.upper.alignAlias width = (i.alignAlias width).upper := by
  simp only [Item.alignAlias, Item.upper, splitAlias_upper]
  cases splitAlias i.code with
  | none => rfl
  | some p => simp [upper_pad]

theorem alignAliases_upper (items : List Item) :
    alignAliases (items.map Item.upper) = (alignAliases items).map Item.upper := by
  simp [alignAliases, aliasWidth_upper, Function.comp_def, Item.alignAlias_upper]

/-! ## Modifiers -/

theorem blanked_upper (ws : List Text) : [' '].intercalate (ws.map upper) = upper ([' '].intercalate ws) := by
  induction ws with
  | nil => rfl
  | cons w ws ih =>
    cases ws with
    | nil => simp
    | cons v ws =>
      simp only [List.map_cons, List.intercalate_cons_cons, upper_append] at ih ⊢
      rw [ih]
      rfl

theorem modifiers_raise (ts : List Token) : (splitModifiers (raise ts)).1 = (splitModifiers ts).1.map upper := by
  simp only [splitModifiers, takeModifiers_raise, Prod.map_fst, List.map_eq_nil_iff, blanked_upper]
  split <;> rfl

/-! ## Sources -/

def Join.upper (j : Join) : Join :=
  ⟨SqlLayout.upper j.operator, j.table.upper, j.on.map SqlLayout.upper, j.conditions.map Item.upper⟩

def Sources.upper (s : Sources) : Sources := ⟨s.table.upper, s.joins.map Join.upper⟩

theorem joinOperator_raise (m : Nat) (ts : List Token) :
    joinOperator m (raise ts) = (joinOperator m ts).map (Prod.map (List.map upper) raise) := by
  fun_induction joinOperator m ts with
  | case1 => rfl
  | case2 m t ts hk | case3 m t ts hk hm | case4 m t ts hk hm | case8 m t ts hk =>
    rw [raise_cons, joinOperator.eq_def]
    simp [*]
  | case5 m t k hj ha hk hm w us ih =>
    have hs : raise (.whitespace w :: us) = .whitespace (upper w) :: raise us := rfl
    rw [raise_cons, hs, joinOperator.eq_def]
    simp only [Token.keyword_upper, hk, hm, ite_true, ih, Option.map_map, Token.text_upper]
    rfl
  | case6 m t ts k hj ha hk hm hs =>
    rw [raise_cons, joinOperator.eq_def]
    simp only [Token.keyword_upper, hk, hm, ite_true, Option.map_none]
    rcases ts with - | ⟨u, us⟩
    · rfl
    cases u with
    | whitespace w => exact (hs w us rfl).elim
    | _ => rfl
  | case7 m t ts k hj ha hk hm =>
    rw [raise_cons, joinOperator.eq_def]
    simp only [Token.keyword_upper, hk, hm, Option.map_none]
    rfl

def joinHere? (n : Nesting) (ts : List Token) : Option (List Text × List Token) :=
  if n.depth = 0 then joinOperator 0 ts else none

theorem joinHere?_raise (n : Nesting) (ts : List Token) :
    joinHere? n (raise ts) = (joinHere? n ts).map (Prod.map (List.map upper) raise) := by
  unfold joinHere?
  split
  · exact joinOperator_raise 0 ts
  · rfl

theorem joinSections_cons (n : Nesting) (t : Token) (ts : List Token) : joinSections n (t :: ts) =
    match joinHere? n (t :: ts) with
    | some p => ([], ([' '].intercalate p.1, (joinSections n p.2).1) :: (joinSections n p.2).2)
    | none => (t :: (joinSections (n.step t) ts).1, (joinSections (n.step t) ts).2) := by
  rw [joinSections]
  split
  · next h =>
    rw [show joinHere? n (t :: ts) = _ from h]
  · next h =>
    rw [show joinHere? n (t :: ts) = _ from h]

theorem joinSections_raise (n : Nesting) (ts : List Token) :
    joinSections n (raise ts) = (joinSections n ts).map raise (List.map (Prod.map upper raise)) := by
  induction n, ts using joinSections.induct with
  | case1 => simp [joinSections]
  | case2 n t ts ws rest h _ _ _ _ ih =>
    have h : joinHere? n (t :: ts) = some (ws, rest) := h
    have h' := joinHere?_raise n (t :: ts)
    rw [h, raise_cons] at h'
    rw [raise_cons, joinSections_cons, h', joinSections_cons, h]
    simp [ih, blanked_upper]
  | case3 n t ts h _ _ _ ih =>
    have h : joinHere? n (t :: ts) = none := h
    have h' := joinHere?_raise n (t :: ts)
    rw [h, raise_cons] at h'
    rw [raise_cons, joinSections_cons, h', joinSections_cons, h]
    simp [ih]

theorem splitOn?_raise (n : Nesting) (ts : List Token) :
    splitOn? n (raise ts) = (splitOn? n ts).map (Prod.map raise (Prod.map upper raise)) := by
  induction ts generalizing n with
  | nil => rfl
  | cons t ts ih =>
    simp only [raise_cons, splitOn?, Nesting.topKeyword_upper, Nesting.step_upper, ih, Token.text_upper]
    split
    · rfl
    · rw [Option.map_map, Option.map_map]
      rfl

theorem Item.ofTokens_raise (ts : List Token) : Item.ofTokens (raise ts) = (Item.ofTokens ts).upper := by
  rw [ofTokens, ofTokens, ofTokens?_raise]
  cases ofTokens? ts <;> rfl

theorem conditionItems_raise (ts : List Token) : conditionItems (raise ts) = (conditionItems ts).map Item.upper := by
  rw [conditionItems, conditionItems, conditionGroups_raise, filterMap_ofTokens?_raise]

theorem listItems_raise (ts : List Token) : listItems (raise ts) = (listItems ts).map Item.upper := by
  rw [listItems, listItems, commaGroups_raise, filterMap_ofTokens?_raise]

theorem Join.ofTokens_raise (operator : Text) (ts : List Token) :
    Join.ofTokens (SqlLayout.upper operator) (raise ts) = (Join.ofTokens operator ts).upper := by
  unfold Join.ofTokens
  rw [splitOn?_raise]
  cases splitOn? {} ts with
  | none => simp [Join.upper, Item.ofTokens_raise]
  | some p => simp [Join.upper, Item.ofTokens_raise, conditionItems_raise]

theorem Sources.ofTokens_raise (ts : List Token) : Sources.ofTokens (raise ts) = (Sources.ofTokens ts).upper := by
  simp [Sources.ofTokens, Sources.upper, joinSections_raise, Item.ofTokens_raise, Function.comp_def, Join.ofTokens_raise]

/-! ## Bodies -/

def Body.upper : Body → Body
  | .selection modifiers items => .selection (modifiers.map SqlLayout.upper) (items.map Item.upper)
  | .list items => .list (items.map Item.upper)
  | .conditions items => .conditions (items.map Item.upper)
  | .sources s => .sources s.upper

theorem Item.prepare_upper (n : Nat) (i : Item) : i.upper.prepare n = (i.prepare n).upper := by
  simp [Item.prepare, Item.upper, normalize_upper]

theorem prepareAll_upper (n : Nat) (items : List Item) :
    prepareAll n (items.map Item.upper) = (prepareAll n items).map (List.map Item.upper) := by
  have hc : ∀ i : Item, i.upper.code = [] ↔ i.code = [] := fun i => upper_eq_nil
  unfold prepareAll
  simp only [List.any_map, Function.comp_def, hc, List.map_map, Item.prepare_upper]
  split
  · rfl
  · simp [Except.map]

theorem selectionBody_raise (o : Options) (ts : List Token) :
    selectionBody o (raise ts) = (selectionBody o ts).map Body.upper := by
  have hm : splitModifiers (raise ts) = (splitModifiers ts).map (Option.map upper) raise :=
    Prod.ext (modifiers_raise ts) (splitModifiers_raise ts)
  unfold selectionBody
  simp only [hm, Prod.map_fst, Prod.map_snd, listItems_raise, prepareAll_upper]
  cases prepareAll o.indentSize (listItems (splitModifiers ts).2) with
  | error f => rfl
  | ok items =>
    have hr : (items.map Item.upper).map (Item.reflow o.indentSize) = (items.map (Item.reflow o.indentSize)).map Item.upper := by
      simp [Function.comp_def, Item.reflow_upper]
    simp only [Except.map, Body.upper, hr, alignAliases_upper]
    split <;> rfl

theorem Clause.split_upper (o : Options) (c : Clause) : c.upper.split o = (c.split o).map Body.upper := by
  have hs : ∀ s : Sources, (s.upper).mapItems (Item.prepare o.indentSize) = (s.mapItems (Item.prepare o.indentSize)).upper := by
    intro s
    simp [Sources.mapItems, Sources.upper, Join.mapItems, Join.upper, Function.comp_def, Item.prepare_upper]
  unfold Clause.split
  simp only [Clause.upper, tokenize_upper_raise]
  cases c.kind with
  | SELECT => exact selectionBody_raise o _
  | FROM => simp only [Sources.ofTokens_raise, hs, Except.map, Body.upper]
  | GROUP_BY | ORDER_BY =>
    simp only [listItems_raise, prepareAll_upper]
    cases prepareAll o.indentSize (listItems (tokenize c.body)) <;> rfl
  | WHERE | HAVING =>
    simp only [conditionItems_raise, prepareAll_upper]
    cases prepareAll o.indentSize (conditionItems (tokenize c.body)) <;> rfl

end SqlLayout
