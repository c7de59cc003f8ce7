import SqlLayout.Proofs.Resplit

/-!
# Bodies that are built again

The lines of a clause, read again, hold the same modifiers, items, tables and
conditions, but for the gap behind an AND or OR that was pulled to the left.
So the clause is laid out as the same lines (`Clause.split_again`).
-/

namespace SqlLayout

/-! ## Modifiers -/

def EndsMarked (ts : List Token) : Prop := ∃ front t, ts = front ++ [t] ∧ t.isMarker ∧ t.isSpace = false

namespace EndsMarked

variable {as bs : List Token}

theorem append (h : EndsMarked bs) (as : List Token) : EndsMarked (as ++ bs) := by
  obtain ⟨front, t, rfl, ht⟩ := h
  exact ⟨as ++ front, t, by rw [List.append_assoc], ht⟩

theorem append_or (h : EndsMarked as) (h' : bs = [] ∨ EndsMarked bs) : EndsMarked (as ++ bs) := by
  rcases h' with rfl | h'
  · rwa [List.append_nil]
  · exact h'.append as

theorem last (h : EndsMarked as) : beads true as ≠ [] ∧ ∀ b ∈ (beads true as).getLast?, b.2.isMarker := by
  obtain ⟨front, t, rfl, hm, ht⟩ := h
  rw [beads_append, beads_cons_solid ht, beads_nil]
  refine ⟨by simp, fun b hb => ?_⟩
  rw [List.getLast?_append, List.getLast?_singleton] at hb
  obtain rfl := Option.some.inj hb
  exact hm

end EndsMarked

theorem Token.marked_of_isKeyword {t : Token} {k : Keyword} (h : t.isKeyword k) : t.isMarker ∧ t.isSpace = false := by
  refine ⟨Token.isMarker_of_keyword (k := k) (of_decide_eq_true h), ?_⟩
  obtain ⟨w, rfl⟩ := isWord_of_isKeyword h
  rfl

theorem nextIf_endsMarked {p : Token → Bool} (hp : ∀ t, p t → t.isMarker ∧ t.isSpace = false) {ts a b : List Token}
    (h : nextIf p ts = some (a, b)) : EndsMarked a := by
  unfold nextIf at h
  split at h
  · next t us _ =>
    split at h
    · next ht =>
      cases h
      exact ⟨_, t, rfl, hp t ht⟩
    · cases h
  · cases h

theorem optional_endsMarked {take : List Token → Option (List Token × List Token)}
    (ht : ∀ {ts a b : List Token}, take ts = some (a, b) → EndsMarked a) (ts : List Token) :
    (optional take ts).1 = [] ∨ EndsMarked (optional take ts).1 := by
  unfold optional
  cases h : take ts with
  | none => exact Or.inl rfl
  | some p => exact Or.inr (ht h)

theorem isCount_marked {t : Token} (h : isCount t) : t.isMarker ∧ t.isSpace = false := by
  cases t with
  | number w => exact ⟨rfl, rfl⟩
  | word w =>
    have h : (Token.word w).isWordFrom ['@'] := h
    refine ⟨?_, rfl⟩
    rw [Token.isMarker, Bool.or_eq_true]
    right
    cases w with
    | nil => cases h
    | cons c w =>
      obtain rfl : c = '@' := by simpa [Token.isWordFrom] using h
      rfl
  | _ => cases h

theorem takeCount_endsMarked {ts a b : List Token} (h : takeCount ts = some (a, b)) : EndsMarked a := by
  unfold takeCount at h
  split at h
  · next p e =>
    cases h
    exact nextIf_endsMarked (fun _ => isCount_marked) e
  · obtain ⟨⟨a, b⟩, -, h⟩ := Option.bind_eq_some_iff.mp h
    obtain ⟨⟨inner, rest⟩, -, h⟩ := Option.bind_eq_some_iff.mp h
    cases h
    exact ⟨_, .closeParen, rfl, rfl, rfl⟩

theorem takeTies_endsMarked {ts a b : List Token} (h : takeTies ts = some (a, b)) : EndsMarked a := by
  obtain ⟨⟨a, b⟩, -, h⟩ := Option.bind_eq_some_iff.mp h
  obtain ⟨⟨c, d⟩, e, h⟩ := Option.bind_eq_some_iff.mp h
  cases h
  exact (nextIf_endsMarked (fun _ => Token.marked_of_isKeyword) e).append _

theorem takeTop_endsMarked {ts a b : List Token} (h : takeTop ts = some (a, b)) : EndsMarked a := by
  obtain ⟨⟨count, rest⟩, e, h⟩ := Option.map_eq_some_iff.mp h
  obtain ⟨rfl, -⟩ := Prod.mk.inj h
  have hpercent := @optional_endsMarked (nextIf (Token.isKeyword .PERCENT))
    (nextIf_endsMarked fun _ => Token.marked_of_isKeyword) rest
  exact ((takeCount_endsMarked e).append_or hpercent).append_or (optional_endsMarked takeTies_endsMarked _)

theorem takeModifier_endsMarked {ts a b : List Token} (h : takeModifier ts = some (a, b)) : EndsMarked a := by
  unfold takeModifier at h
  split at h
  · cases h
  · next t us _ =>
    have h := (Option.filter_eq_some_iff.mp h).1
    have word : ∀ {k : Keyword}, t.keyword = some k → EndsMarked [t] := fun hk =>
      ⟨[], t, rfl, Token.marked_of_isKeyword (by rw [Token.isKeyword, hk, decide_eq_true rfl])⟩
    split at h
    · next hk =>
      cases h
      exact word hk
    · next hk =>
      cases h
      exact word hk
    · obtain ⟨⟨c, d⟩, e, h⟩ := Option.map_eq_some_iff.mp h
      cases h
      exact (takeTop_endsMarked e).append [t]
    · cases h

theorem parted_flatten_append {bss : List (List Bead)} {l : List Bead} (h : ∀ bs ∈ bss, parted bs = bs) (hl : parted l = l) :
    parted (bss.flatten ++ l) = bss.flatten ++ l := by
  induction bss with
  | nil => exact hl
  | cons bs bss ih =>
    obtain ⟨hb, hbs⟩ := List.forall_mem_cons.mp h
    rw [List.flatten_cons, List.append_assoc]
    cases bs with
    | nil => exact ih hbs
    | cons b bs => rw [parted_append (List.cons_ne_nil b bs), hb]

namespace Modifiers

variable {ts rest : List Token} {as : List (List Token)} (h : Modifiers ts as rest)
include h

theorem isInfix : (∀ a ∈ as, a <:+: ts) ∧ rest <:+: ts := by
  induction h with
  | done => exact ⟨by simp, List.infix_refl _⟩
  | @more ts a b rest as h _ ih =>
    have hts : a ++ b <:+ ts := (takeModifier_eq h).1 ▸ List.dropWhile_suffix _
    have hb : b <:+: ts := (List.suffix_append a b).isInfix.trans hts.isInfix
    refine ⟨fun c hc => ?_, ih.2.trans hb⟩
    rcases List.mem_cons.mp hc with rfl | hc
    · exact (List.prefix_append c b).isInfix.trans hts.isInfix
    · exact (ih.1 c hc).trans hb

/-- What stands behind the modifiers can be replaced, and a gap be put behind
each of them. -/
theorem replaces {l : List Bead} (hl : Replaces l (beads true rest)) :
    Replaces ((as.map (beads true)).flatten ++ l) (beads true ts) := by
  induction h with
  | done => exact hl
  | @more ts a b rest as h _ ih =>
    obtain ⟨hloose, hparted⟩ := ih hl
    obtain ⟨hne, hlast⟩ := (takeModifier_endsMarked h).last
    rw [List.map_cons, List.flatten_cons, List.append_assoc, ← beads_dropWhile ts, (takeModifier_eq h).1]
    refine ⟨(Loosens.refl _).behind_marker hloose hlast hparted, ?_⟩
    rw [parted_append hne, parted_beads]

theorem cut {bss : List (List Bead)} {l : List Bead} (hb : beads true ts = bss.flatten ++ l)
    (hs : as.map solids = bss.map (List.map Prod.snd)) (hp : ∀ bs ∈ bss, parted bs = bs) (hl : parted l = l) :
    as.map (beads true) = bss ∧ beads true rest = l := by
  induction h generalizing bss with
  | done =>
    obtain rfl : bss = [] := by simpa using hs.symm
    exact ⟨rfl, hb⟩
  | @more ts a b rest as h _ ih =>
    cases bss with
    | nil => cases hs
    | cons bs bss =>
      obtain ⟨ha, has⟩ := List.cons.inj hs
      obtain ⟨-, hps⟩ := List.forall_mem_cons.mp hp
      rw [List.flatten_cons, List.append_assoc, ← beads_dropWhile ts, (takeModifier_eq h).1] at hb
      obtain ⟨hfirst, hbehind⟩ := beads_cut hb (by rw [ha, List.length_map])
      have hbehind : beads true b = bss.flatten ++ l := by
        rw [← parted_beads, hbehind, parted_flatten_append hps hl]
      obtain ⟨hrest, hlist⟩ := ih hbehind has hps
      exact ⟨by rw [List.map_cons, hfirst, hrest], hlist⟩

end Modifiers

def modifierText (as : List (List Token)) : Option Text :=
  if as = [] then none else some ([' '].intercalate (as.map collapse))

theorem intercalate_stable {as : List (List Token)} (h : ∀ a ∈ as, Lexed a ∧ Stable a) (hne : as ≠ []) :
    Stable (tokenize ([' '].intercalate (as.map collapse))) ∧
      beadsOf ([' '].intercalate (as.map collapse)) = (as.map (beads true)).flatten := by
  have one : ∀ a ∈ as, Stable (tokenize (collapse a)) ∧ beadsOf (collapse a) = beads true a := by
    intro a ha
    obtain ⟨hl, hs⟩ := h a ha
    obtain ⟨-, -, e⟩ := collapse_stable hl hs
    refine ⟨?_, e⟩
    rw [stable_tokenize, e, map_snd_beads]
    exact hs.of_subset fun t ht => (mem_solids.mp ht).1
  clear h
  induction as with
  | nil => exact absurd rfl hne
  | cons a as ih =>
    obtain ⟨ha, has⟩ := List.forall_mem_cons.mp one
    cases as with
    | nil => simpa using ha
    | cons c as =>
      have ih := ih (List.cons_ne_nil c as) has
      obtain ⟨hs, e⟩ := gap_stable ha.1 ih.1 (w := [' ']) rfl (List.cons_ne_nil _ _)
      rw [List.map_cons, List.map_cons, List.intercalate_cons_cons, List.append_assoc]
      rw [List.map_cons] at hs e ih
      exact ⟨hs, by rw [e, ha.2, ih.2]; rfl⟩

theorem modifierText_stable {as : List (List Token)} (h : ∀ a ∈ as, Lexed a ∧ Stable a) :
    (∀ m ∈ modifierText as, Stable (tokenize m)) ∧ (modifierText as).elim [] beadsOf = (as.map (beads true)).flatten := by
  unfold modifierText
  split
  · next e =>
    subst e
    exact ⟨by simp, rfl⟩
  · next hne =>
    obtain ⟨hs, e⟩ := intercalate_stable h hne
    refine ⟨?_, e⟩
    rintro m ⟨⟩
    exact hs

theorem modifierText_congr {as cs : List (List Token)} (ha : ∀ a ∈ as, Lexed a ∧ Stable a)
    (hc : ∀ c ∈ cs, Lexed c ∧ Stable c)
    (h : as.map (beads true) = cs.map (beads true)) : modifierText as = modifierText cs := by
  have text : ∀ {ds : List (List Token)}, (∀ d ∈ ds, Lexed d ∧ Stable d) →
      ds.map collapse = (ds.map (beads true)).map fun bs => spell (unbead bs) := by
    intro ds hd
    rw [List.map_map]
    exact List.map_congr_left fun d hd' => (collapse_stable (hd d hd').1 (hd d hd').2).1
  have hnil : as = [] ↔ cs = [] := by
    rw [← List.map_eq_nil_iff (f := beads true), h, List.map_eq_nil_iff]
  simp only [modifierText, text ha, text hc, h, hnil]

/-! ## Bodies -/

def Body.predicates : Body → List Item
  | .selection _ _ | .list _ => []
  | .conditions items => items
  | .sources s => s.joins.flatMap Join.conditions

def Body.settle (align : Bool) : Body → Body
  | .conditions items => .conditions (settleLater align items)
  | .sources s => .sources ⟨s.table, s.joins.map (Join.settle align)⟩
  | b => b

theorem Item.IsThread.settle_false {i : Item} (h : i.IsThread) : i.settle false = i := by
  obtain ⟨bs, hb, rfl⟩ := h
  have : (Item.ofBeads bs).conditionBeads false = bs := hb.beads_ofBeads
  rw [Item.settle, this]

theorem settleLater_false {items : List Item} (h : ∀ i ∈ items, i.IsThread) : settleLater false items = items := by
  cases items with
  | nil => rfl
  | cons i is =>
    obtain ⟨-, his⟩ := List.forall_mem_cons.mp h
    rw [settleLater, List.map_congr_left (g := id) fun j hj => (his j hj).settle_false, List.map_id]

theorem conditionList_settle {align : Bool} {items : List Item} (h : ∀ i ∈ items, i.IsThread) (s : ListShape) :
    conditionList align s (settleLater align items) = conditionList align s items := by
  cases items with
  | nil => rfl
  | cons i is =>
    obtain ⟨-, his⟩ := List.forall_mem_cons.mp h
    rw [settleLater, conditionList, conditionList, List.flatMap_map]
    congr 1
    refine List.flatMap_congr fun j hj => ?_
    obtain ⟨bs, hb, rfl⟩ := his j hj
    exact laterCondition_settle hb align s.rest

namespace Body

variable {b : Body} (h : ∀ i ∈ b.predicates, i.IsThread)
include h

theorem settle_false : b.settle false = b := by
  cases b with
  | conditions items => exact congrArg conditions (settleLater_false h)
  | sources s =>
    have hjoins : s.joins.map (Join.settle false) = s.joins := by
      refine (List.map_congr_left fun j hj => ?_).trans (List.map_id _)
      rw [Join.settle, settleLater_false fun i hi => h i (List.mem_flatMap.mpr ⟨j, hj, hi⟩), id]
    rw [settle, hjoins]
  | _ => rfl

theorem river_settle (o : Options) (keyword : Text) : River.lines o keyword (b.settle true) = River.lines o keyword b := by
  cases b with
  | conditions items => simp only [settle, River.lines, River.conditions,
      conditionList_settle (show ∀ i ∈ items, i.IsThread from h)]
  | sources s =>
    simp only [settle, River.lines, List.flatMap_map]
    congr 1
    refine List.flatMap_congr fun j hj => ?_
    have hj : ∀ i ∈ j.conditions, i.IsThread := fun i hi => h i (List.mem_flatMap.mpr ⟨j, hj, hi⟩)
    simp only [River.join, Join.settle, River.conditions, conditionList_settle hj]
  | _ => rfl

/-- The gaps behind ANDs and ORs do not show in the lines. -/
theorem clauseLines_settle (o : Options) (keyword : Text) :
    clauseLines o keyword (b.settle o.pullsOperators) = clauseLines o keyword b := by
  unfold clauseLines Options.pullsOperators
  cases o.style with
  | legacy => exact congrArg (Legacy.lines o keyword) (settle_false h)
  | river => exact river_settle h o keyword
  | indent => exact congrArg (Indent.lines o keyword) (settle_false h)

end Body

/-- A body without comments that is laid out and read again is the same, up to
the gaps behind ANDs and ORs. -/
structure Rereads (o : Options) (read : List Token → Except Fault Body) (ts : List Token) (b : Body) : Prop where
  stable : b.IsStable
  threads : ∀ i ∈ b.predicates, i.IsThread
  again : ∀ bs, b.Strand o.pullsOperators bs → Replaces bs (beads true ts) ∧
    ∀ us, Lexed us → beads true us = bs → read us = .ok (b.settle o.pullsOperators)

section
variable {ts : List Token} (hl : Lexed ts) (hs : Stable ts)
include hl hs

theorem list_rereads (o : Options) (hd : droppedCommas (commaGroups {} ts) = 0) {b : Body}
    (h : (prepareAll o.indentSize (listItems ts)).map Body.list = .ok b) :
    Rereads o (fun us => (prepareAll o.indentSize (listItems us)).map Body.list) ts b := by
  rw [listItems_stable hl hs] at h
  obtain rfl := Except.ok.inj h
  have hthread := threaded_filter (stable_commaGroups hl hs)
  have hbeads : ((((commaGroups {} ts).map (beads true)).filter (· ≠ [])).map Item.ofBeads).map Item.beads =
      ((commaGroups {} ts).map (beads true)).filter (· ≠ []) := by
    rw [List.map_map]
    exact (List.map_congr_left fun bs hb => (hthread bs hb).1.beads_ofBeads).trans (List.map_id _)
  refine ⟨List.forall_mem_map.mpr fun bs hb => (hthread bs hb).1.isStable, by simp [Body.predicates], fun bs hb => ?_⟩
  have hb : Strung _ bs := hb
  rw [hbeads] at hb
  have hsame : List.Forall₂ (fun bs cs => Replaces cs bs) _ (((commaGroups {} ts).map (beads true)).filter (· ≠ [])) :=
    List.forall₂_same.mpr fun cs hc => ⟨Loosens.refl cs, (hthread cs hc).1.parted_eq⟩
  obtain ⟨hr, hagain⟩ := list_again hs hd hsame hb
  refine ⟨hr, fun us hu e => ?_⟩
  have hsu := hs.of_replaces hr e
  rw [listItems_stable hu hsu, hagain us hsu e]
  rfl

theorem conditions_rereads (o : Options) {b : Body}
    (h : (prepareAll o.indentSize (conditionItems ts)).map Body.conditions = .ok b) :
    Rereads o (fun us => (prepareAll o.indentSize (conditionItems us)).map Body.conditions) ts b := by
  rw [conditionItems_stable hl hs] at h
  obtain rfl := Except.ok.inj h
  have hthread := isThread_filter (stable_conditionGroups hl hs)
  obtain ⟨hr, hagain⟩ := conditions_again hl hs o.pullsOperators rfl
  refine ⟨fun i hi => (hthread i hi).isStable, hthread, ?_⟩
  rintro bs rfl
  refine ⟨hr, fun us hu e => ?_⟩
  rw [conditionItems_stable hu (hs.of_replaces hr e), hagain us e]
  rfl

theorem sources_rereads (o : Options) {b : Body}
    (h : b = .sources ((Sources.ofTokens ts).mapItems (Item.prepare o.indentSize))) :
    Rereads o (fun us => .ok (.sources ((Sources.ofTokens us).mapItems (Item.prepare o.indentSize)))) ts b := by
  obtain ⟨hstable, hthread, hr, hagain⟩ := sources_again hl hs o.indentSize o.pullsOperators rfl
  subst h
  refine ⟨hstable, fun i hi => ?_, ?_⟩
  · obtain ⟨j, hj, hi⟩ := List.mem_flatMap.mp hi
    exact hthread j hj i hi
  · rintro bs rfl
    refine ⟨hr, fun us hu e => ?_⟩
    rw [hagain us hu e]
    rfl

end

/-! ## Selections -/

def Options.aligns (o : Options) : Bool := o.alignAliases && o.style ≠ .indent

theorem selectionBody_stable {ts rest : List Token} {as : List (List Token)} (hl : Lexed ts) (hs : Stable ts)
    (h : Modifiers ts as rest) (o : Options) :
    selectionBody o ts = .ok (.selection (modifierText as) (remake o.indentSize o.aligns
      ((((commaGroups {} rest).map (beads true)).filter (· ≠ [])).map Item.ofBeads))) := by
  have hi := h.isInfix.2
  rw [selectionBody, splitModifiers, h.takeModifiers_eq]
  simp only
  rw [listItems_stable (hl.of_infix hi) (hs.of_subset hi.subset)]
  simp only [Except.map, modifierText, remake, Options.aligns, List.map_eq_nil_iff]
  rfl

theorem selection_rereads {o : Options} {ts : List Token} (hl : Lexed ts) (hs : Stable ts)
    (hd : droppedCommas (commaGroups {} (splitModifiers ts).2) = 0) {b : Body} (h : selectionBody o ts = .ok b) :
    Rereads o (selectionBody o) ts b := by
  obtain ⟨as, rest, hm⟩ := Modifiers.exists_of ts
  rw [selectionBody_stable hl hs hm] at h
  obtain rfl := Except.ok.inj h
  rw [splitModifiers, hm.takeModifiers_eq] at hd
  obtain ⟨hpre, hpost⟩ := hm.isInfix
  have hrest := hs.of_subset hpost.subset
  have hmods : ∀ a ∈ as, Lexed a ∧ Stable a := fun a ha => ⟨hl.of_infix (hpre a ha), hs.of_subset (hpre a ha).subset⟩
  obtain ⟨htext, ebeads⟩ := modifierText_stable hmods
  generalize hitems :
    remake o.indentSize o.aligns ((((commaGroups {} rest).map (beads true)).filter (· ≠ [])).map Item.ofBeads) = items
  obtain ⟨hstable, hloose, hagain⟩ := remake_again o.indentSize o.aligns
    (threaded_filter (stable_commaGroups (hl.of_infix hpost) hrest)) hitems.symm
  refine ⟨⟨htext, hstable⟩, by simp [Body.predicates], ?_⟩
  rintro bs ⟨l, hstrung, rfl⟩
  have hreplaces : List.Forall₂ (fun bs cs => Replaces cs bs) (((commaGroups {} rest).map (beads true)).filter (· ≠ []))
      (items.map Item.beads) := by
    refine (forall₂_and_right hloose fun cs hc => ?_).imp fun bs cs h => h
    obtain ⟨i, -, rfl⟩ := List.mem_map.mp hc
    exact parted_beads true _
  obtain ⟨hlist, hlists⟩ := list_again hrest hd hreplaces hstrung
  rw [ebeads]
  have hr := hm.replaces hlist
  refine ⟨hr, fun us hu e => ?_⟩
  -- the modifiers are found again, and the list behind them
  have hsu := hs.of_replaces hr e
  obtain ⟨as', rest', hm', has, -⟩ := hm.congr (solids_of_loosens (e ▸ hr.1))
  obtain ⟨hpre', hpost'⟩ := hm'.isInfix
  have hmods' : ∀ a ∈ as', Lexed a ∧ Stable a := fun a ha =>
    ⟨hu.of_infix (hpre' a ha), hsu.of_subset (hpre' a ha).subset⟩
  have hcounts : as'.map solids = (as.map (beads true)).map (List.map Prod.snd) := by
    rw [has, List.map_map]
    exact List.map_congr_left fun a _ => (map_snd_beads true a).symm
  obtain ⟨hfound, hlist'⟩ := hm'.cut e hcounts (List.forall_mem_map.mpr fun a _ => parted_beads true a) hlist.2
  rw [selectionBody_stable hu hsu hm', modifierText_congr hmods' hmods hfound,
    hlists rest' (hsu.of_subset hpost'.subset) hlist', hagain]
  rfl

/-! ## Clauses -/

/-- Lines of the clause, read again as its body, are laid out as the same
lines. -/
def SplitsAgain (o : Options) (kind : ClauseKind) (keyword : Text) (ts : List Token) (b : Body) : Prop :=
  ∀ bs, b.Strand o.pullsOperators bs → Replaces bs (beads true ts) ∧
    ∀ us, Lexed us → beads true us = bs → ∃ b', Clause.split o ⟨kind, keyword, trim (spell us)⟩ = .ok b' ∧
      clauseLines o keyword b' = clauseLines o keyword b

theorem Rereads.splitsAgain {o : Options} {kind : ClauseKind} {keyword : Text} {ts : List Token} (hs : Stable ts) {b : Body}
    {read : List Token → Except Fault Body} (h : Rereads o read (strip ts) b)
    (hread : ∀ us, Lexed us → Stable us → Clause.split o ⟨kind, keyword, trim (spell us)⟩ = read (strip us)) :
    b.IsStable ∧ SplitsAgain o kind keyword ts b := by
  refine ⟨h.stable, fun bs hb => ?_⟩
  obtain ⟨hreplaces, hagain⟩ := h.again bs hb
  rw [beads_strip] at hreplaces
  refine ⟨hreplaces, fun us hu e => ⟨_, ?_, Body.clauseLines_settle h.threads o keyword⟩⟩
  rw [hread us hu (hs.of_replaces hreplaces e)]
  exact hagain _ (hu.of_infix (infix_strip us)) (by rw [beads_strip, e])

theorem Clause.split_again {o : Options} {kind : ClauseKind} {keyword : Text} {ts : List Token} (hl : Lexed ts)
    (hs : Stable ts)
    {b : Body} (h : Clause.split o ⟨kind, keyword, trim (spell ts)⟩ = .ok b)
    (hd : droppedCommas (Clause.elements ⟨kind, keyword, trim (spell ts)⟩) = 0) :
    b.IsStable ∧ SplitsAgain o kind keyword ts b := by
  have hls : Lexed (strip ts) := hl.of_infix (infix_strip ts)
  have hss : Stable (strip ts) := hs.of_subset (infix_strip ts).subset
  simp only [split, elements, tokenize_trim hl hs] at h hd
  cases kind with
  | SELECT =>
    refine (selection_rereads hls hss hd h).splitsAgain hs fun us hu hsu => ?_
    simp only [split, tokenize_trim hu hsu]
  | GROUP_BY | ORDER_BY =>
    refine (list_rereads hls hss o hd h).splitsAgain hs fun us hu hsu => ?_
    simp only [split, tokenize_trim hu hsu]
  | WHERE | HAVING =>
    refine (conditions_rereads hls hss o h).splitsAgain hs fun us hu hsu => ?_
    simp only [split, tokenize_trim hu hsu]
  | FROM =>
    refine (sources_rereads hls hss o (Except.ok.inj h).symm).splitsAgain hs fun us hu hsu => ?_
    simp only [split, tokenize_trim hu hsu]

end SqlLayout
