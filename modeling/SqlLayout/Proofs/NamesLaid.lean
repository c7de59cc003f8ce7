import SqlLayout.Proofs.NamesSplit

/-!
# Names of a layout

The clauses of a SELECT have its names, and so have the lines of every style,
in the same order (`namesIn_selectLines`). What a layout puts in front of code
has no dots, and what it puts behind it is no part of a name.
-/

namespace SqlLayout

/-! ## Joins -/

theorem dot_notMem_intercalate {ws : List Text} (h : ∀ w ∈ ws, '.' ∉ w) : '.' ∉ [' '].intercalate ws := by
  induction ws with
  | nil => simp
  | cons w ws ih =>
    have ih := ih fun v hv => h v (by simp [hv])
    have hw := h w (by simp)
    cases ws with
    | nil => simpa using hw
    | cons v ws => simp [List.intercalate_cons_cons, hw, ih]

theorem joinOperator_names {m : Nat} {ts rest : List Token} {ws : List Text} (h : joinOperator m ts = some (ws, rest)) :
    Nameless ts ∧ tokenNames rest = tokenNames ts ∧ ∀ w ∈ ws, '.' ∉ w := by
  fun_induction joinOperator m ts generalizing ws with
  | case2 m t ts hk =>
    cases h
    exact ⟨nameless_keyword hk rfl _, (tokenNames_keyword hk _).symm, by simpa using dot_notMem_keyword hk⟩
  | case3 m t ts hk =>
    cases h
    exact ⟨nameless_keyword hk rfl _, (tokenNames_keyword hk _).symm, by simpa using dot_notMem_keyword hk⟩
  | case5 m t k _ _ hk hm w us ih =>
    obtain ⟨⟨vs, b⟩, e, hab⟩ := Option.map_eq_some_iff.mp h
    cases hab
    obtain ⟨-, ih, hv⟩ := ih e
    have hcuts : k.cuts := by
      rw [Bool.and_eq_true] at hm
      have := hm.1
      cases k <;> first | rfl | cases this
    refine ⟨nameless_keyword hk hcuts _, ?_, List.forall_mem_cons.mpr ⟨dot_notMem_keyword hk, hv⟩⟩
    rw [ih, tokenNames_keyword hk, tokenNames_cons Token.noConfusion]
    rfl
  | _ => cases h

structure Fronts (ts front : List Token) (more : List Text) : Prop where
  head : front.head?.elim [] Token.name = ts.head?.elim [] Token.name
  names : tokenNames front ++ more = tokenNames ts

theorem Fronts.cons {ts front : List Token} {more : List Text} (h : Fronts ts front more) (t : Token) :
    Fronts (t :: ts) (t :: front) more where
  head := rfl
  names := by rw [tokenNames, tokenNames, h.head, List.append_assoc, h.names]

theorem Fronts.cut {ts : List Token} {more : List Text} (h : Nameless ts) (e : more = tokenNames ts) : Fronts ts [] more where
  head := Eq.symm h
  names := e

theorem joinSections_names (n : Nesting) (ts : List Token) :
    Fronts ts (joinSections n ts).1 ((joinSections n ts).2.flatMap fun p => tokenNames p.2) ∧
      ∀ p ∈ (joinSections n ts).2, '.' ∉ p.1 := by
  fun_induction joinSections n ts with
  | case1 => exact ⟨⟨rfl, rfl⟩, by simp⟩
  | case2 n t ts ws rest h hlt front later e ih =>
    obtain ⟨hn, erest, hw⟩ := joinOperator_names (eq_some_of_ite h)
    rw [e] at ih
    refine ⟨.cut hn ?_, List.forall_mem_cons.mpr ⟨dot_notMem_intercalate hw, ih.2⟩⟩
    rw [List.flatMap_cons, ih.1.names, erest]
  | case3 n t ts h front later e ih =>
    rw [e] at ih
    exact ⟨ih.1.cons t, ih.2⟩

/-- The words of a join have no dots, and a join without ON has no conditions. -/
structure Join.Bare (j : Join) : Prop where
  operator : '.' ∉ j.operator
  on : ∀ on ∈ j.on, '.' ∉ on
  noOn : j.on = none → j.conditions = []

def Join.names (j : Join) : List Text := j.table.names ++ j.conditions.flatMap Item.names

def Sources.names (s : Sources) : List Text := s.table.names ++ s.joins.flatMap Join.names

theorem Join.names_ofTokens {operator : Text} (ho : '.' ∉ operator) {ts : List Token} (hl : Legible ts) :
    (Join.ofTokens operator ts).names = tokenNames ts ∧ (Join.ofTokens operator ts).Bare := by
  unfold Join.ofTokens
  split
  · next table on rest e =>
    obtain ⟨t, hk, rfl, rfl⟩ := splitOn?_parts e
    have htable : (Item.ofTokens table).names = tokenNames table := Item.names_ofTokens hl.of_append_left.readable
    have hrest := names_conditionItems hl.of_append_right.2.2
    refine ⟨?_, ho, fun on h => Option.some.inj h ▸ dot_notMem_keyword hk, fun h => by cases h⟩
    rw [names, htable, hrest, tokenNames_append (.inr (nameless_keyword hk rfl _)), tokenNames_keyword hk]
  · refine ⟨?_, ho, fun on h => absurd h (Option.not_mem_none on), fun _ => rfl⟩
    rw [names, Item.names_ofTokens hl.readable]
    exact List.append_nil _

theorem Sources.names_ofTokens {ts : List Token} (hl : Legible ts) :
    (Sources.ofTokens ts).names = tokenNames ts ∧ ∀ j ∈ (Sources.ofTokens ts).joins, j.Bare := by
  obtain ⟨hfront, hdots⟩ := joinSections_names {} ts
  obtain ⟨-, hp, hj⟩ := joinSections_parts {} ts fun t ht => hl.formed ht
  have hjoin : ∀ p ∈ (joinSections {} ts).2, (Join.ofTokens p.1 p.2).names = tokenNames p.2 ∧ (Join.ofTokens p.1 p.2).Bare :=
    fun p hm => Join.names_ofTokens (hdots p hm) (hl.of_infix (hj p hm).2)
  refine ⟨?_, List.forall_mem_map.mpr fun p hm => (hjoin p hm).2⟩
  rw [← hfront.names, names, ofTokens, Item.names_ofTokens (hl.of_infix hp.isInfix).readable, List.flatMap_map,
    List.flatMap_congr fun p hm => (hjoin p hm).1]

theorem Sources.names_prepare (n : Nat) (s : Sources) : (s.mapItems (Item.prepare n)).names = s.names := by
  have hj : ∀ j : Join, (j.mapItems (Item.prepare n)).names = j.names := fun j => by
    simp [Join.names, Join.mapItems, List.flatMap_map]
  simp [names, mapItems, List.flatMap_map, hj]

/-! ## Clauses -/

theorem opens_names {k : Keyword} {ts tokens : List Token} {kind : ClauseKind} {more : Text}
    (h : opens k ts = some (kind, more, tokens)) : k.cuts ∧ '.' ∉ more ∧ tokenNames tokens = tokenNames ts := by
  have withBy : ∀ {kind' u us}, ts.dropWhile Token.isSpace = u :: us →
      (if u.isKeyword .BY then some (kind', ' ' :: u.text, us) else none) = some (kind, more, tokens) →
      '.' ∉ more ∧ tokenNames tokens = tokenNames ts := by
    intro kind' u us eu h
    split at h
    · next hk =>
      cases h
      have hk : u.keyword = some .BY := by simpa [Token.isKeyword] using hk
      refine ⟨by simpa using dot_notMem_keyword hk, ?_⟩
      rw [← tokenNames_dropWhile_isSpace ts, eu, tokenNames_keyword hk]
    · cases h
  unfold opens at h
  cases eu : ts.dropWhile Token.isSpace with
  | nil => cases k <;> simp only [eu] at h <;> first
      | (cases h; exact ⟨rfl, by simp, rfl⟩)
      | cases h
  | cons u us => cases k <;> simp only [eu] at h <;> first
      | (cases h; exact ⟨rfl, by simp, rfl⟩)
      | exact ⟨rfl, withBy eu h⟩
      | cases h

theorem sections_names (n : Nesting) (ts : List Token) :
    Fronts ts (sections n ts).1 ((sections n ts).2.flatMap fun s => tokenNames s.tokens) ∧
      ∀ s ∈ (sections n ts).2, '.' ∉ s.keyword := by
  induction ts generalizing n with
  | nil => exact ⟨⟨rfl, rfl⟩, by simp [sections]⟩
  | cons t ts ih =>
    obtain ⟨hfront, hdots⟩ := ih (n.step t)
    rw [sections]
    generalize sections (n.step t) ts = p at hfront hdots
    obtain ⟨front, later⟩ := p
    simp only at hfront hdots ⊢
    split
    · next kind more tokens h =>
      obtain ⟨k, hk, ho⟩ := Option.bind_eq_some_iff.mp h
      have hk : t.keyword = some k := (Nesting.topKeyword_eq_some.mp hk).2
      obtain ⟨hcuts, hmore, e⟩ := opens_names ho
      refine ⟨.cut (nameless_keyword hk hcuts _) ?_, List.forall_mem_cons.mpr ⟨?_, hdots⟩⟩
      · rw [List.flatMap_cons, e, hfront.names, tokenNames_keyword hk]
      · simp [dot_notMem_keyword hk, hmore]
    · exact ⟨hfront.cons t, hdots⟩

/-! ## Bodies -/

def Body.names : Body → List Text
  | .selection modifiers items => modifiers.elim [] SqlLayout.names ++ items.flatMap Item.names
  | .list items | .conditions items => items.flatMap Item.names
  | .sources s => s.names

def Body.Bare : Body → Prop
  | .sources s => ∀ j ∈ s.joins, j.Bare
  | _ => True

theorem selectionBody_names {o : Options} {ts : List Token} {b : Body} (h : selectionBody o ts = .ok b)
    (hl : Legible ts) : b.names = tokenNames ts ∧ b.Bare := by
  obtain ⟨e, hlr⟩ := names_splitModifiers hl
  unfold selectionBody at h
  generalize splitModifiers ts = p at e hlr h
  obtain ⟨modifiers, rest⟩ := p
  simp only at e hlr h
  obtain ⟨items, hi, rfl⟩ := map_eq_ok h
  have hitems : items.flatMap Item.names = tokenNames rest := by rw [names_prepareAll hi, names_listItems hlr]
  have hmap : ∀ {f : Item → Item}, (∀ i, (f i).names = i.names) → ∀ is : List Item,
      (is.map f).flatMap Item.names = is.flatMap Item.names := fun hf is => by simp [List.flatMap_map, hf]
  refine ⟨?_, trivial⟩
  rw [← e, ← hitems, ← hmap (Item.names_reflow o.indentSize), Body.names]
  split
  · rw [alignAliases, hmap (Item.names_alignAlias _)]
  · rfl

theorem Clause.split_names {o : Options} {c : Clause} {b : Body} (h : c.split o = .ok b) :
    b.names = SqlLayout.names c.body ∧ b.Bare := by
  have hl := legible_tokenize c.body
  rw [names_eq_tokenNames]
  have list : (prepareAll o.indentSize (listItems (tokenize c.body))).map Body.list = .ok b →
      b.names = tokenNames (tokenize c.body) ∧ b.Bare := by
    intro h
    obtain ⟨items, hi, rfl⟩ := map_eq_ok h
    exact ⟨by rw [Body.names, names_prepareAll hi, names_listItems hl], trivial⟩
  have conditions : (prepareAll o.indentSize (conditionItems (tokenize c.body))).map Body.conditions = .ok b →
      b.names = tokenNames (tokenize c.body) ∧ b.Bare := by
    intro h
    obtain ⟨items, hi, rfl⟩ := map_eq_ok h
    exact ⟨by rw [Body.names, names_prepareAll hi, names_conditionItems hl], trivial⟩
  unfold Clause.split at h
  cases hk : c.kind with
  | SELECT => rw [hk] at h; exact selectionBody_names h hl
  | GROUP_BY => rw [hk] at h; exact list h
  | ORDER_BY => rw [hk] at h; exact list h
  | WHERE => rw [hk] at h; exact conditions h
  | HAVING => rw [hk] at h; exact conditions h
  | FROM =>
    rw [hk] at h
    cases h
    obtain ⟨e, hb⟩ := Sources.names_ofTokens hl
    refine ⟨by rw [Body.names, Sources.names_prepare, e], List.forall_mem_map.mpr fun j hj => ?_⟩
    obtain ⟨ho, hon, hno⟩ := hb j hj
    exact ⟨ho, hon, fun h => by rw [Join.mapItems, hno h]; rfl⟩

/-! ## Lines of an item -/

theorem namesIn_commentsAt (column : Nat) (comments : List Text) : namesIn (commentsAt column comments) = namesIn comments :=
  namesIn_map (fun c => by simp) comments

theorem namesIn_codeLines {head : Text} (h : '.' ∉ head) (column : Nat) (code : Text) :
    namesIn (codeLines head column code) = names code := by
  rw [← namesIn_splitLines code, codeLines]
  cases splitLines code with
  | nil => rfl
  | cons l ls => simp only [namesIn_cons, names_append_left h, namesIn_map (names_pad_append _)]

theorem namesIn_closeLast {suffix : Text} {sfx : List Token} (hs : Suffix suffix sfx) (trailing : Option Text)
    {ls : List Text} (h : ls ≠ []) : namesIn (closeLast suffix trailing ls) = namesIn ls ++ namesIn trailing.toList := by
  -- a comma and a blank are read neither as a name nor as a dot
  have hend : ∀ {l r : Text}, StopsName r → names (l ++ suffix ++ r) = names l ++ names r := by
    intro l r hr
    cases hs with
    | none => rw [List.append_nil, names_append hr]
    | comma =>
      rw [List.append_assoc, List.singleton_append, names_append (stopsName_cons (by decide) r), names_cons (by decide)]
  induction ls with
  | nil => exact absurd rfl h
  | cons l ls ih =>
    cases ls with
    | nil =>
      cases trailing with
      | none => simpa [closeLast] using hend (l := l) (r := []) rfl
      | some c => simpa [closeLast, names_cons] using hend (l := l) (stopsName_cons (c := ' ') (by decide) c)
    | cons m ls => rw [closeLast, namesIn_cons, ih (List.cons_ne_nil _ _), namesIn_cons l, List.append_assoc]; simp

theorem Spot.namesIn_lines {s : Spot} (hs : '.' ∉ s.head) {suffix : Text} {sfx : List Token}
    (h : Suffix suffix sfx) (i : Item) : namesIn (s.lines suffix i) = i.names := by
  have hcode : ∀ {head : Text}, '.' ∉ head →
      namesIn ((closeLast suffix i.trailing (codeLines head s.column i.code)).map trimEnd) =
        names i.code ++ namesIn i.trailing.toList := by
    intro head hh
    rw [namesIn_map names_trimEnd, namesIn_closeLast h i.trailing (codeLines_ne_nil _ _ _), namesIn_codeLines hh]
  unfold Spot.lines
  simp only [namesIn_append, namesIn_commentsAt, Item.names]
  split
  · rw [hcode (dot_notMem_pad _)]
    simp [names_eq_nil hs]
  · rw [hcode hs]
    simp

/-! ## Lists and predicates -/

theorem namesIn_laterItems (comma : CommaPlace) (rest : Nat) (items : List Item) :
    namesIn (laterItems comma rest items) = items.flatMap Item.names := by
  induction items with
  | nil => rfl
  | cons i is ih =>
    cases comma with
    | before =>
      have hhead : '.' ∉ pad (rest - 2) ++ [',', ' '] := by simp [dot_notMem_pad]
      have hline := Spot.namesIn_lines (s := ⟨_, false, rest, rest⟩) hhead Suffix.none i
      exact (namesIn_append _ _).trans (congrArg₂ (· ++ ·) hline ih)
    | after =>
      have hline := Spot.namesIn_lines (s := ⟨pad rest, false, rest, rest⟩) (dot_notMem_pad rest) (suffix_ite (is ≠ [])) i
      have := (namesIn_append _ (laterItems .after rest is)).trans (congrArg₂ (· ++ ·) hline ih)
      simpa [laterItems] using this

theorem namesIn_commaList {s : ListShape} (hs : '.' ∉ s.head) (comma : CommaPlace) (items : List Item) :
    namesIn (commaList comma s items) = items.flatMap Item.names := by
  cases items with
  | nil => rfl
  | cons i is => rw [commaList, namesIn_append, namesIn_laterItems, Spot.namesIn_lines hs (suffix_ite _), List.flatMap_cons]

theorem Item.splitOperator_names {i : Item} {operator code : Text} (h : i.splitOperator = some (operator, code)) :
    '.' ∉ operator ∧ SqlLayout.names code = SqlLayout.names i.code := by
  unfold splitOperator at h
  split at h
  · next t ts e =>
    split at h
    · next hk =>
      cases h
      obtain ⟨k, hk⟩ : ∃ k, t.keyword = some k := by
        simp only [Token.isKeyword, Bool.or_eq_true, decide_eq_true_eq] at hk
        exact hk.elim (fun h => ⟨_, h⟩) fun h => ⟨_, h⟩
      have hcode : i.code = t.text ++ spell ts := by rw [← spell_cons, ← e, spell_tokenize]
      exact ⟨dot_notMem_keyword hk, by rw [hcode, names_append_left (dot_notMem_keyword hk), names_trimStart]⟩
    · cases h
  · cases h

theorem namesIn_laterCondition (align : Bool) (rest : Nat) (i : Item) : namesIn (laterCondition align rest i) = i.names := by
  unfold laterCondition
  split
  · next operator code e =>
    obtain ⟨ho, hc⟩ := Item.splitOperator_names (eq_some_of_ite e)
    rw [Spot.namesIn_lines (by simp [dot_notMem_pad, ho]) Suffix.none, Item.names, Item.names, hc]
  · exact Spot.namesIn_lines (dot_notMem_pad rest) Suffix.none i

theorem namesIn_conditionList {s : ListShape} (hs : '.' ∉ s.head) (align : Bool) (items : List Item) :
    namesIn (conditionList align s items) = items.flatMap Item.names := by
  cases items with
  | nil => rfl
  | cons i is =>
    have hlater : namesIn (is.flatMap (laterCondition align s.rest)) = is.flatMap Item.names := by
      rw [namesIn, List.flatMap_assoc]
      exact List.flatMap_congr fun i _ => namesIn_laterCondition align s.rest i
    rw [conditionList, namesIn_append, hlater, Spot.namesIn_lines hs Suffix.none, List.flatMap_cons]

/-! ## Styles -/

section Styles

variable (o : Options) {keyword : Text} (hk : '.' ∉ keyword)

theorem namesIn_joins {f : Join → List Text} (hf : ∀ {j : Join}, j.Bare → namesIn (f j) = j.names) {joins : List Join}
    (h : ∀ j ∈ joins, j.Bare) : namesIn (joins.flatMap f) = joins.flatMap Join.names := by
  rw [namesIn, List.flatMap_assoc]
  exact List.flatMap_congr fun j hj => hf (h j hj)

theorem Legacy.namesIn_itemsBelow (items : List Item) : namesIn (itemsBelow o items) = items.flatMap Item.names :=
  namesIn_commaList (dot_notMem_pad _) _ items

theorem Indent.namesIn_itemsBelow (items : List Item) : namesIn (itemsBelow o items) = items.flatMap Item.names :=
  namesIn_commaList (dot_notMem_pad _) _ items

theorem Indent.namesIn_conditionsBelow (column : Nat) (items : List Item) :
    namesIn (conditionsBelow column items) = items.flatMap Item.names :=
  namesIn_conditionList (dot_notMem_pad _) _ items

include hk

theorem names_headline : names (trimEnd keyword) = [] := by rw [names_trimEnd, names_eq_nil hk]

theorem names_modifiers (m : Text) : names (trimEnd (keyword ++ ' ' :: m)) = names m := by
  rw [names_trimEnd, names_append_left hk, names_cons (by decide)]

theorem dot_notMem_column (column : Nat) : '.' ∉ pad column ++ keyword ++ [' '] := by simp [dot_notMem_pad, hk]

theorem Legacy.namesIn_selection (modifiers : Option Text) (items : List Item) :
    namesIn (selection o keyword modifiers items) = modifiers.elim [] names ++ items.flatMap Item.names := by
  unfold selection
  cases modifiers with
  | some m => simp only [namesIn_cons, names_modifiers hk, namesIn_itemsBelow, Option.elim_some]
  | none =>
    simp only [Option.elim_none, List.nil_append]
    split
    · exact namesIn_commaList (by simp [hk]) _ items
    · rw [namesIn_cons, names_headline hk, namesIn_itemsBelow, List.nil_append]

theorem Legacy.namesIn_predicate (column rest : Nat) (items : List Item) :
    namesIn (predicate column keyword rest items) = items.flatMap Item.names := by
  unfold predicate
  simp only
  split
  · next h =>
    rw [h, namesIn_cons, names_headline (dot_notMem_column hk column)]
    rfl
  · exact namesIn_conditionList (dot_notMem_column hk column) _ items

theorem Legacy.namesIn_table (column : Nat) (i : Item) : namesIn (table column keyword i) = i.names :=
  Spot.namesIn_lines (dot_notMem_column hk column) Suffix.none i

omit hk in
theorem River.namesIn_orAlone {s : ListShape} (hs : '.' ∉ s.head) {ls : List Text} : namesIn (orAlone s ls) = namesIn ls := by
  unfold orAlone
  split
  · next h => rw [h, namesIn_cons, names_headline hs, List.nil_append]
  · rfl

theorem River.namesIn_selection (modifiers : Option Text) (items : List Item) :
    namesIn (selection o keyword modifiers items) = modifiers.elim [] names ++ items.flatMap Item.names := by
  unfold selection
  generalize max (o.river + 1) (keyword.length + 1) = column
  cases modifiers with
  | some m =>
    have hitems := namesIn_commaList (s := ⟨pad column, false, column, column⟩) (dot_notMem_pad column) o.commaPlace items
    simp only [namesIn_cons, names_modifiers hk, hitems, Option.elim_some]
  | none =>
    have hs : '.' ∉ keyword ++ pad (column - keyword.length) := by simp [hk, dot_notMem_pad]
    exact (namesIn_orAlone hs).trans (namesIn_commaList hs _ items)

theorem River.namesIn_conditions (start : Nat) (items : List Item) :
    namesIn (conditions start keyword items) = items.flatMap Item.names :=
  (namesIn_orAlone (dot_notMem_column hk start)).trans (namesIn_conditionList (dot_notMem_column hk start) _ items)

theorem River.namesIn_table (i : Item) : namesIn (table o keyword i) = i.names :=
  Spot.namesIn_lines (dot_notMem_column hk o.river) Suffix.none i

theorem Indent.namesIn_selection (modifiers : Option Text) (items : List Item) :
    namesIn (selection o keyword modifiers items) = modifiers.elim [] names ++ items.flatMap Item.names := by
  unfold selection
  cases modifiers with
  | some m => simp only [namesIn_cons, names_modifiers hk, namesIn_itemsBelow, Option.elim_some]
  | none =>
    simp only [Option.elim_none, List.nil_append]
    split
    · exact namesIn_commaList (by simp [hk]) _ items
    · rw [namesIn_cons, names_headline hk, namesIn_itemsBelow, List.nil_append]

omit hk

theorem Legacy.namesIn_join {j : Join} (h : j.Bare) : namesIn (join o j) = j.names := by
  rw [join, namesIn_append, namesIn_table h.operator, Join.names]
  cases hon : j.on with
  | none => rw [h.noOn hon]; rfl
  | some on => simp only [namesIn_predicate (h.on on hon)]

theorem River.namesIn_join {j : Join} (h : j.Bare) : namesIn (join o j) = j.names := by
  rw [join, namesIn_append, namesIn_table o h.operator, Join.names]
  cases hon : j.on with
  | none => rw [h.noOn hon]; rfl
  | some on => simp only [namesIn_conditions (h.on on hon)]

theorem Indent.namesIn_join {j : Join} (h : j.Bare) : namesIn (join o j) = j.names := by
  rw [join, namesIn_append, Spot.namesIn_lines (dot_notMem_column h.operator _) Suffix.none, Join.names]
  cases hon : j.on with
  | none => rw [h.noOn hon]; rfl
  | some on =>
    have hline : names (trimEnd (pad (o.indentSize * 2) ++ on)) = [] := names_headline (by simp [dot_notMem_pad, h.on on hon])
    simp only [namesIn_cons, hline, namesIn_conditionsBelow, List.nil_append]

include hk in
theorem namesIn_clauseLines {b : Body} (hb : b.Bare) : namesIn (clauseLines o keyword b) = b.names := by
  unfold clauseLines
  cases o.style with
  | legacy =>
    cases b with
    | selection modifiers items => exact Legacy.namesIn_selection o hk modifiers items
    | list items => rw [Legacy.lines, namesIn_cons, names_headline hk, Legacy.namesIn_itemsBelow]; rfl
    | conditions items => exact Legacy.namesIn_predicate hk 0 o.indentSize items
    | sources s => rw [Legacy.lines, namesIn_append, Legacy.namesIn_table hk, namesIn_joins (Legacy.namesIn_join o) hb]; rfl
  | river =>
    cases b with
    | selection modifiers items => exact River.namesIn_selection o hk modifiers items
    | list items =>
      have hs : '.' ∉ (River.shape o.river keyword).head := dot_notMem_column hk o.river
      exact (River.namesIn_orAlone hs).trans (namesIn_commaList hs _ items)
    | conditions items => exact River.namesIn_conditions hk o.river items
    | sources s => rw [River.lines, namesIn_append, River.namesIn_table o hk, namesIn_joins (River.namesIn_join o) hb]; rfl
  | indent =>
    cases b with
    | selection modifiers items => exact Indent.namesIn_selection o hk modifiers items
    | list items => rw [Indent.lines, namesIn_cons, names_headline hk, Indent.namesIn_itemsBelow]; rfl
    | conditions items => rw [Indent.lines, namesIn_cons, names_headline hk, Indent.namesIn_conditionsBelow]; rfl
    | sources s =>
      have htable := Spot.namesIn_lines (s := ⟨pad o.indentSize, false, o.indentSize, o.indentSize⟩) (dot_notMem_pad _)
        Suffix.none s.table
      rw [Indent.lines, namesIn_cons, names_headline hk, namesIn_append, htable, namesIn_joins (Indent.namesIn_join o) hb]
      rfl

end Styles

/-! ## SELECT -/

theorem namesIn_attach (inline : Bool) (above below : List Text) :
    namesIn (attach inline above below) = namesIn above ++ namesIn below := by
  unfold attach
  split
  · next last l ls e =>
    split
    · obtain ⟨init, rfl⟩ := List.getLast?_eq_some_iff.mp e
      have hline : names (last ++ ' ' :: trimStart l) = names last ++ names l := by
        rw [names_append (stopsName_cons (by decide) _), names_cons (by decide), names_trimStart]
      simp [hline]
    · exact namesIn_append _ _
  · exact namesIn_append _ _

theorem namesIn_stack {o : Options} {clauses : List Clause} {bodies : List (Clause × Body)}
    (h : (clauses.mapM fun c => (c.split o).map fun b => (c, b)) = .ok bodies)
    (hk : ∀ c ∈ clauses, '.' ∉ c.keyword) (above : List Text) :
    namesIn (bodies.foldl (fun above p => attach (o.inlines p.1.kind) above (clauseLines o p.1.keyword p.2)) above) =
      namesIn above ++ clauses.flatMap fun c => names c.body := by
  induction clauses generalizing bodies above with
  | nil => cases h; exact (List.append_nil _).symm
  | cons c clauses ih =>
    rw [List.mapM_cons] at h
    cases hb : c.split o with
    | error f => rw [hb] at h; cases h
    | ok b =>
      cases hbs : clauses.mapM fun c => (c.split o).map fun b => (c, b) with
      | error f => rw [hb, hbs] at h; cases h
      | ok rest =>
        rw [hb, hbs] at h
        obtain rfl : (c, b) :: rest = bodies := by cases h; rfl
        obtain ⟨e, hbare⟩ := Clause.split_names hb
        rw [List.foldl_cons, ih hbs fun c hc => hk c (by simp [hc]), namesIn_attach,
          namesIn_clauseLines o (hk c (by simp)) hbare, e, List.append_assoc]
        rfl

theorem Select.namesIn_lines {o : Options} {sql : Text} {s : Select} {lines : List Text} (hs : Select.ofText sql = .ok s)
    (hl : s.lines o = .ok lines) : namesIn lines = names sql := by
  obtain ⟨hfront, hdots⟩ := sections_names {} (tokenize sql)
  obtain ⟨-, hp, hw⟩ := sections_parts {} (tokenize sql) fun _ => formed_of_mem
  obtain ⟨elead, eclauses⟩ := Select.ofText_eq hs
  have hleg := legible_tokenize sql
  have hlead : namesIn (s.lead.elim [] trimmedLines) = tokenNames (sections {} (tokenize sql)).1 := by
    rw [elead, namesIn_trimmedLines, names_trim, (hleg.of_infix hp.isInfix).names_spell]
  have hclauses : (s.clauses.flatMap fun c => names c.body) =
      (sections {} (tokenize sql)).2.flatMap fun s => tokenNames s.tokens := by
    rw [eclauses, List.flatMap_map]
    refine List.flatMap_congr fun s hm => ?_
    rw [Section.clause, names_trim, (hleg.of_infix (hw s hm).2).names_spell]
  have hkeywords : ∀ c ∈ s.clauses, '.' ∉ c.keyword := by
    rw [eclauses]
    exact List.forall_mem_map.mpr hdots
  unfold Select.lines at hl
  cases hb : s.clauses.mapM fun c => (c.split o).map fun b => (c, b) with
  | error f => rw [hb] at hl; cases hl
  | ok bodies =>
    rw [hb] at hl
    cases hl
    rw [namesIn_stack hb hkeywords, hlead, hclauses, hfront.names, names_eq_tokenNames]

theorem tokenNames_recaseFrom (o : Options) (seen ts : List Token) : tokenNames (recaseFrom o seen ts) = tokenNames ts := by
  induction ts generalizing seen with
  | nil => rfl
  | cons t ts ih =>
    rw [recaseFrom, tokenNames, tokenNames, ih]
    rcases recaseToken_cases o seen t ts with e | ⟨w, l, rfl, e⟩
    · rw [e]
      split
      · next hd =>
        subst hd
        have hhead : (recaseFrom o (.dot :: seen) ts).head? = ts.head? := by
          cases ts with
          | nil => rfl
          | cons u ts =>
            have hu : recaseToken o (.dot :: seen) u ts = u := by
              cases u with
              | word w => simp [recaseToken, keepsCase]
              | _ => rfl
            rw [recaseFrom, hu]
            rfl
        rw [hhead]
      · rfl
    · rw [e, if_neg Token.noConfusion, if_neg Token.noConfusion]
      rfl

theorem names_recase (o : Options) (s : Text) : names (recase o s) = names s := by
  rw [names_eq_tokenNames, tokenize_recase, recaseTokens, tokenNames_recaseFrom, names_eq_tokenNames]

/-- The names of a SELECT are those of its layout. -/
theorem namesIn_selectLines {o : Options} {sql : Text} {lines : List Text} (h : selectLines o sql = .ok lines) :
    namesIn lines = names sql := by
  simp only [selectLines] at h
  cases hc : checkTokens (tokenize (recase o sql)) with
  | error f => rw [hc] at h; cases h
  | ok u =>
    cases hs : Select.ofText (recase o sql) with
    | error f => rw [hc, hs] at h; cases h
    | ok s =>
      rw [hc, hs] at h
      rw [Select.namesIn_lines hs h, names_recase]

end SqlLayout
