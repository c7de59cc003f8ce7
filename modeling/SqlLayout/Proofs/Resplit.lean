import SqlLayout.Proofs.Settled

/-!
# Clauses that are split again

The lines of a clause, read again, are split into the same modifiers, items,
tables and conditions, so they are laid out as the same lines
(`Clause.split_again`).
-/

namespace SqlLayout

/-! ## Tokens behind keywords -/

structure Keywords (ws : List Token) (word : Text) : Prop where
  beads : beads true ws = beadsOf word
  stable : Stable (tokenize word)
  marker : ∀ b ∈ beadsOf word, b.2.isMarker
  ne_nil : beadsOf word ≠ []

theorem Keywords.opens {ws : List Token} {word : Text} (h : Keywords ws word) : Opens (beadsOf word) :=
  ⟨parted_beads true _, fun b hb => h.marker b (List.mem_of_head? hb)⟩

theorem keywords_single {t : Token} {k : Keyword} (hk : t.keyword = some k) (hf : t.Formed) (hs : Stable [t]) :
    Keywords [t] t.text := by
  obtain ⟨hst, et⟩ := stable_text hf hs
  have hsolid : t.isSpace = false := by
    cases t <;> first | rfl | cases hk
  have ebeads : beadsOf t.text = [(true, t)] := by rw [beadsOf, et, beads_cons_solid hsolid, beads_nil]
  refine ⟨by rw [beadsOf, et], hst, ?_, ?_⟩
  · rw [ebeads]
    rintro b hb
    obtain rfl := List.mem_singleton.mp hb
    exact Token.isMarker_of_keyword hk
  · rw [ebeads]
    exact List.cons_ne_nil _ _

theorem Keywords.blank {vs ws sp : List Token} {v w : Text} (hv : Keywords vs v) (hw : Keywords ws w)
    (hsp : ∀ t ∈ sp, t.isSpace)
    (hne : sp ≠ []) : Keywords (vs ++ (sp ++ ws)) (v ++ ' ' :: w) := by
  obtain ⟨hs, e⟩ := gap_stable hv.stable hw.stable (w := [' ']) rfl (List.cons_ne_nil _ _)
  rw [List.singleton_append] at hs e
  have hbeads : SqlLayout.beads true (vs ++ (sp ++ ws)) = beadsOf (v ++ ' ' :: w) := by
    obtain ⟨t, sp, rfl⟩ := List.exists_cons_of_ne_nil hne
    rw [beads_append, hv.beads, List.cons_append, beads_cons_space (hsp t List.mem_cons_self),
      beads_space_append (List.all_eq_true.mpr fun u hu => hsp u (List.mem_cons_of_mem t hu)), hw.beads, e]
  refine ⟨hbeads, hs, ?_, ?_⟩
  · rw [e]
    exact List.forall_mem_append.mpr ⟨hv.marker, hw.marker⟩
  · rw [e]
    exact List.append_ne_nil_of_left_ne_nil hv.ne_nil _

/-- Texts with the tokens behind them, one after the other. -/
inductive Headed : List Token → List (Text × List Token) → Prop
  | nil : Headed [] []
  | cons {ws ts rest : List Token} {word : Text} {parts : List (Text × List Token)} : Keywords ws word → Headed rest parts →
      Headed (ws ++ (ts ++ rest)) ((word, ts) :: parts)

theorem forall₂_and_right {α β : Type} {R : α → β → Prop} {p : β → Prop} {l : List α} {u : List β} (h : List.Forall₂ R l u)
    (hu : ∀ b ∈ u, p b) : List.Forall₂ (fun a b => R a b ∧ p b) l u := by
  induction h with
  | nil => exact .nil
  | cons h _ ih =>
    exact .cons ⟨h, hu _ List.mem_cons_self⟩ (ih fun b hb => hu b (List.mem_cons_of_mem _ hb))

namespace Headed

variable {rest : List Token} {parts : List (Text × List Token)} (h : Headed rest parts)
include h

theorem isInfix : ∀ p ∈ parts, p.2 <:+: rest := by
  induction h with
  | nil => simp
  | @cons ws ts rest word parts _ _ ih =>
    intro p hp
    rcases List.mem_cons.mp hp with rfl | hp
    · exact ⟨ws, rest, by simp⟩
    · exact (ih p hp).trans ⟨ws ++ ts, [], by simp⟩

theorem stable : ∀ p ∈ parts, Stable (tokenize p.1) := by
  induction h with
  | nil => simp
  | cons hw _ ih =>
    intro p hp
    rcases List.mem_cons.mp hp with rfl | hp
    · exact hw.stable
    · exact ih p hp

theorem replaces {qs : List (Text × List Bead)}
    (hq : List.Forall₂ (fun p q => p.1 = q.1 ∧ Replaces q.2 (beads true p.2)) parts qs) :
    Loosens (beads true rest) (qs.flatMap fun q => beadsOf q.1 ++ q.2) ∧ Opens (qs.flatMap fun q => beadsOf q.1 ++ q.2) := by
  induction h generalizing qs with
  | nil =>
    cases hq
    exact ⟨.nil, .nil⟩
  | @cons ws ts rest word parts hw _ ih =>
    cases hq with
    | @cons _ q _ qs h hq =>
      obtain ⟨hloose, hopens⟩ := ih hq
      obtain ⟨rfl, hr, hp⟩ := h
      have hbody := hr.before_opens hloose hopens
      have hparted : parted (q.2 ++ qs.flatMap fun q => beadsOf q.1 ++ q.2) =
          q.2 ++ qs.flatMap fun q => beadsOf q.1 ++ q.2 := by
        cases e : q.2 with
        | nil => exact hopens.parted
        | cons b bs =>
          rw [e] at hp
          rw [parted_append (List.cons_ne_nil b bs), hp]
      rw [List.flatMap_cons, List.append_assoc]
      refine ⟨?_, ?_⟩
      · refine Loosens.behind_marker (hw.beads ▸ Loosens.refl _) hbody
          (fun c hc => hw.marker c (List.mem_of_getLast? hc)) hparted
      · have hne := hw.ne_nil
        have hopens := hw.opens
        refine ⟨by rw [parted_append hne, hopens.parted], ?_⟩
        rw [List.head?_append_of_ne_nil _ hne]
        exact hopens.marker

/-- What stands in front of the first keyword is left as it is. -/
theorem replaces_behind (front : List Token) {qs : List (Text × List Bead)}
    (hq : List.Forall₂ (fun p q => p.1 = q.1 ∧ Replaces q.2 (beads true p.2)) parts qs) :
    Replaces (beads true front ++ qs.flatMap fun q => beadsOf q.1 ++ q.2) (beads true (front ++ rest)) := by
  obtain ⟨hloose, hopens⟩ := h.replaces hq
  refine ⟨(Loosens.refl _).before_opens hloose hopens, ?_⟩
  cases e : beads true front with
  | nil => exact hopens.parted
  | cons b bs => rw [parted_append (List.cons_ne_nil b bs), ← e, parted_beads]

theorem cut {qs : List (Text × List Bead)} {gap : Bool} (hb : beads gap rest = qs.flatMap fun q => beadsOf q.1 ++ q.2)
    (hq : List.Forall₂ (fun p q => p.1 = q.1 ∧ solids p.2 = q.2.map Prod.snd ∧ parted q.2 = q.2) parts qs) :
    List.Forall₂ (fun p q => p.1 = q.1 ∧ beads true p.2 = q.2) parts qs := by
  induction h generalizing qs gap with
  | nil =>
    cases hq
    exact .nil
  | @cons ws ts rest word parts hw _ ih =>
    cases hq with
    | @cons _ q _ qs h hq =>
      obtain ⟨rfl, hs, hp⟩ := h
      rw [List.flatMap_cons, List.append_assoc] at hb
      obtain ⟨-, hb⟩ := beads_cut hb (by rw [← hw.beads, length_beads])
      obtain ⟨hbody, hb⟩ := beads_cut hb (by rw [hs, List.length_map])
      refine .cons ⟨rfl, ?_⟩ (ih hb hq)
      rw [← hp, ← hbody, parted_beads]

omit h in
/-- Tokens with these beads have the same ones in front of the keywords and
behind each of them. -/
theorem again {front front' rest' : List Token} {parts' : List (Text × List Token)} {qs : List (Text × List Bead)}
    (h' : Headed rest' parts') (hfront : solids front' = solids front)
    (hparts : List.Forall₂ (fun p' p => p'.1 = p.1 ∧ solids p'.2 = solids p.2) parts' parts)
    (hq : List.Forall₂ (fun p q => p.1 = q.1 ∧ Replaces q.2 (beads true p.2)) parts qs)
    (e : beads true (front' ++ rest') = beads true front ++ qs.flatMap fun q => beadsOf q.1 ++ q.2) :
    beads true front' = beads true front ∧ List.Forall₂ (fun p q => p.1 = q.1 ∧ beads true p.2 = q.2) parts' qs := by
  obtain ⟨hfirst, hbehind⟩ := beads_cut e (by rw [hfront, length_beads])
  refine ⟨hfirst, h'.cut hbehind ?_⟩
  clear e hbehind h'
  induction hparts generalizing qs with
  | nil =>
    cases hq
    exact .nil
  | cons h _ ih =>
    cases hq with
    | cons hq hqs => exact .cons ⟨h.1.trans hq.1, by rw [h.2, hq.2.1.tokens, map_snd_beads], hq.2.2⟩ (ih hqs)

end Headed

/-! ## Sources -/

theorem joinOperator_keywords {m : Nat} {ts rest : List Token} {words : List Text}
    (h : joinOperator m ts = some (words, rest))
    (hl : Lexed ts) (hs : Stable ts) : ∃ ws, ts = ws ++ rest ∧ Keywords ws ([' '].intercalate words) ∧ words ≠ [] := by
  fun_induction joinOperator m ts generalizing words with
  | case2 m t ts hk =>
    cases h
    exact ⟨[t], rfl, by simpa using keywords_single hk (hl.formed List.mem_cons_self) (hs.of_subset (by simp)),
      List.cons_ne_nil _ _⟩
  | case3 m t ts hk =>
    cases h
    exact ⟨[t], rfl, by simpa using keywords_single hk (hl.formed List.mem_cons_self) (hs.of_subset (by simp)),
      List.cons_ne_nil _ _⟩
  | case5 m t k _ _ hk _ w us ih =>
    obtain ⟨⟨vs, b⟩, e, hab⟩ := Option.map_eq_some_iff.mp h
    cases hab
    have hus : us <:+ t :: .whitespace w :: us := (List.suffix_cons _ _).trans (List.suffix_cons _ _)
    obtain ⟨ws, rfl, hw, hne⟩ := ih e (hl.of_infix hus.isInfix) (hs.of_subset hus.subset)
    obtain ⟨v, vs, rfl⟩ := List.exists_cons_of_ne_nil hne
    have ht := keywords_single hk (hl.formed List.mem_cons_self) (hs.of_subset (by simp))
    refine ⟨t :: .whitespace w :: ws, rfl, ?_, List.cons_ne_nil _ _⟩
    have : Keywords ([t] ++ ([.whitespace w] ++ ws)) _ := ht.blank hw (by simp [Token.isSpace]) (List.cons_ne_nil _ _)
    rw [List.intercalate_cons_cons]
    simpa using this
  | _ => cases h

theorem joinSections_headed (n : Nesting) {ts : List Token} (hl : Lexed ts) (hs : Stable ts) :
    ∃ rest, ts = (joinSections n ts).1 ++ rest ∧ Headed rest (joinSections n ts).2 := by
  fun_induction joinSections n ts with
  | case1 => exact ⟨[], rfl, .nil⟩
  | case2 n t ts words rest h hlt front later e ih =>
    obtain ⟨ws, ews, hw, -⟩ := joinOperator_keywords (eq_some_of_ite h) hl hs
    have hrest : rest <:+ t :: ts := ⟨ws, ews.symm⟩
    obtain ⟨us, eus, hus⟩ := ih (hl.of_infix hrest.isInfix) (hs.of_subset hrest.subset)
    rw [e] at eus hus
    exact ⟨t :: ts, rfl, by rw [ews, eus]; exact .cons hw hus⟩
  | case3 n t ts h front later e ih =>
    obtain ⟨us, eus, hus⟩ := ih (hl.of_infix (List.suffix_cons t ts).isInfix) (hs.of_subset (List.subset_cons_self t ts))
    rw [e] at eus hus
    exact ⟨us, congrArg (t :: ·) eus, hus⟩

def Join.tail (align : Bool) (j : Join) : List Bead :=
  j.table.beads ++ match j.on with
    | none => []
    | some on => beadsOf on ++ predicateBeads align j.conditions

def Join.settle (align : Bool) (j : Join) : Join := { j with conditions := settleLater align j.conditions }

theorem Join.beads_eq (align : Bool) (j : Join) : j.beads align = beadsOf j.operator ++ j.tail align := by
  unfold beads tail
  cases j.on with
  | none => exact List.append_assoc _ _ _
  | some on => exact List.append_assoc _ _ _

def Item.IsThread (i : Item) : Prop := ∃ bs, Threaded bs ∧ i = ofBeads bs

theorem Item.IsThread.isStable {i : Item} (h : i.IsThread) : i.IsStable := by
  obtain ⟨bs, hb, rfl⟩ := h
  exact hb.isStable

theorem threaded_filter {gs : List (List Token)} (h : ∀ g ∈ gs, Lexed g ∧ Stable g) :
    ∀ bs ∈ (gs.map (beads true)).filter (· ≠ []), Threaded bs ∧ bs ≠ [] := by
  intro bs hbs
  obtain ⟨g, hg, rfl⟩ := List.mem_map.mp (List.mem_of_mem_filter hbs)
  exact ⟨⟨g, (h g hg).1, (h g hg).2, rfl⟩, by simpa using (List.mem_filter.mp hbs).2⟩

theorem isThread_filter {gs : List (List Token)} (h : ∀ g ∈ gs, Lexed g ∧ Stable g) :
    ∀ i ∈ ((gs.map (beads true)).filter (· ≠ [])).map Item.ofBeads, i.IsThread :=
  List.forall_mem_map.mpr fun bs hbs => ⟨bs, (threaded_filter h bs hbs).1, rfl⟩

/-- A join that was split off `ts`. Laid out and read again, it is the same
join up to the gaps behind its ANDs and ORs. -/
structure RereadsJoin (operator : Text) (n : Nat) (align : Bool) (ts : List Token) (j : Join) : Prop where
  stable : j.IsStable
  threads : ∀ i ∈ j.conditions, i.IsThread
  operator_eq : j.operator = operator
  tail : Replaces (j.tail align) (beads true ts)
  again : ∀ us, Lexed us → beads true us = j.tail align →
    (Join.ofTokens operator us).mapItems (Item.prepare n) = j.settle align

theorem prepare_conditions {ts : List Token} (hl : Lexed ts) (hs : Stable ts) (n : Nat) :
    (conditionItems ts).map (Item.prepare n) =
    (((conditionGroups {} 0 false ts).map (beads true)).filter (· ≠ [])).map Item.ofBeads :=
  (prepareAll_eq (conditionItems_stable hl hs n)).symm

section
variable {ts : List Token} (hl : Lexed ts) (hs : Stable ts)
include hl hs

/-- The words of the ON stand behind the table. -/
theorem splitOn?_headed {table rest : List Token} {on : Text} (h : splitOn? {} ts = some (table, on, rest)) :
    ∃ behind, ts = table ++ behind ∧ Headed behind [(on, rest)] := by
  obtain ⟨t, hk, rfl, rfl⟩ := splitOn?_parts h
  have ht : [t] <:+: table ++ t :: rest := ⟨table, rest, by simp⟩
  refine ⟨t :: rest, rfl, ?_⟩
  have hword := keywords_single hk (hl.formed (ht.subset List.mem_cons_self)) (hs.of_subset ht.subset)
  have hheaded : Headed ([t] ++ (rest ++ [])) [(t.text, rest)] := .cons hword .nil
  simpa using hheaded

variable {operator : Text} (ho : Stable (tokenize operator)) (n : Nat) (align : Bool) {j : Join}
  (hj : j = (Join.ofTokens operator ts).mapItems (Item.prepare n))
include ho hj

theorem join_again_without_on (hon : splitOn? {} ts = none) : RereadsJoin operator n align ts j := by
  have hthread : Threaded (beads true ts) := ⟨ts, hl, hs, rfl⟩
  have e : j = ⟨operator, Item.ofBeads (beads true ts), none, []⟩ := by
    rw [hj, Join.ofTokens, hon, Join.mapItems, Item.prepare_ofTokens hl hs]
    rfl
  subst e
  have htail : Join.tail align ⟨operator, Item.ofBeads (beads true ts), none, []⟩ = beads true ts := by
    rw [Join.tail, List.append_nil, hthread.beads_ofBeads]
  have hreplaces : Replaces (beads true ts) (beads true ts) := ⟨Loosens.refl _, parted_beads true ts⟩
  refine ⟨⟨ho, hthread.isStable, by simp, by simp⟩, by simp, rfl, by rwa [htail], fun us hu e => ?_⟩
  rw [htail] at e
  have hsolids : solids us = solids ts := solids_of_loosens (e ▸ hreplaces.1)
  rw [Join.ofTokens, splitOn?_none_congr hsolids hon, Join.mapItems, Item.prepare_ofTokens hu (hs.of_replaces hreplaces e), e]
  rfl

theorem join_again_with_on {table rest : List Token} {on : Text} (hon : splitOn? {} ts = some (table, on, rest)) :
    RereadsJoin operator n align ts j := by
  obtain ⟨behind, ets, hheaded⟩ := splitOn?_headed hl hs hon
  have htable : table <:+: ts := ⟨[], behind, ets.symm⟩
  have hbehind : behind <:+: ts := ⟨table, [], by rw [List.append_nil, ets]⟩
  have hrest : rest <:+: ts := (hheaded.isInfix _ List.mem_cons_self).trans hbehind
  have hlt := hl.of_infix htable
  have hst := hs.of_subset htable.subset
  have hlr := hl.of_infix hrest
  have hsr := hs.of_subset hrest.subset
  have hthread : Threaded (beads true table) := ⟨table, hlt, hst, rfl⟩
  obtain ⟨items, hitems⟩ : ∃ items,
      items = (((conditionGroups {} 0 false rest).map (beads true)).filter (· ≠ [])).map Item.ofBeads := ⟨_, rfl⟩
  obtain ⟨hconditions, hagain⟩ := conditions_again hlr hsr align hitems
  have hthreads : ∀ i ∈ items, i.IsThread := by
    rw [hitems]
    exact isThread_filter (stable_conditionGroups hlr hsr)
  have e : j = ⟨operator, Item.ofBeads (beads true table), some on, items⟩ := by
    rw [hj, Join.ofTokens, hon, hitems, ← prepare_conditions hlr hsr n, Join.mapItems, Item.prepare_ofTokens hlt hst]
  subst e
  have htail : Join.tail align ⟨operator, Item.ofBeads (beads true table), some on, items⟩ =
      beads true table ++ [(on, predicateBeads align items)].flatMap fun q => beadsOf q.1 ++ q.2 := by
    rw [Join.tail, hthread.beads_ofBeads, List.flatMap_singleton]
  have hpair : List.Forall₂ (fun p q => p.1 = q.1 ∧ Replaces q.2 (beads true p.2)) [(on, rest)]
      [(on, predicateBeads align items)] := .cons ⟨rfl, hconditions⟩ .nil
  have hreplaces := hheaded.replaces_behind table hpair
  rw [← ets, ← htail] at hreplaces
  refine ⟨⟨ho, hthread.isStable, ?_, fun i hi => (hthreads i hi).isStable⟩, hthreads, rfl, hreplaces, fun us hu e => ?_⟩
  · rintro _ ⟨⟩
    exact hheaded.stable _ List.mem_cons_self
  · -- the ON is found again
    have hsolids : solids us = solids ts := solids_of_loosens (e ▸ hreplaces.1)
    have hsu := hs.of_replaces hreplaces e
    obtain ⟨table', rest', hon', ht, hr⟩ := splitOn?_some_congr hsolids hon
    obtain ⟨behind', rfl, hheaded'⟩ := splitOn?_headed hu hsu hon'
    rw [htail] at e
    have hparts : List.Forall₂ (fun p' p => p'.1 = p.1 ∧ solids p'.2 = solids p.2) [(on, rest')] [(on, rest)] :=
      .cons ⟨rfl, hr⟩ .nil
    obtain ⟨hfirst, hcut⟩ := hheaded'.again ht hparts hpair e
    have hrest' : rest' <:+: table' ++ behind' :=
      (hheaded'.isInfix _ List.mem_cons_self).trans (List.suffix_append table' behind').isInfix
    have htable' : table' <:+: table' ++ behind' := (List.prefix_append table' behind').isInfix
    obtain ⟨⟨-, hconditions'⟩, -⟩ := List.forall₂_cons.mp hcut
    rw [Join.ofTokens, hon']
    simp only [Join.mapItems]
    rw [Item.prepare_ofTokens (hu.of_infix htable') (hsu.of_subset htable'.subset),
      prepare_conditions (hu.of_infix hrest') (hsu.of_subset hrest'.subset), hagain rest' hconditions', hfirst]
    rfl

theorem join_again : RereadsJoin operator n align ts j := by
  cases hon : splitOn? {} ts with
  | none => exact join_again_without_on hl hs ho n align hj hon
  | some p => exact join_again_with_on hl hs ho n align hj hon

omit ho hj

theorem sources_headed (n : Nat) : ∃ rest, ts = (joinSections {} ts).1 ++ rest ∧ Headed rest (joinSections {} ts).2 ∧
    (Sources.ofTokens ts).mapItems (Item.prepare n) = ⟨Item.ofBeads (beads true (joinSections {} ts).1),
      (joinSections {} ts).2.map fun p => (Join.ofTokens p.1 p.2).mapItems (Item.prepare n)⟩ := by
  obtain ⟨rest, ets, hheaded⟩ := joinSections_headed {} hl hs
  have hfront : (joinSections {} ts).1 <:+: ts := ⟨[], rest, ets.symm⟩
  refine ⟨rest, ets, hheaded, ?_⟩
  rw [Sources.ofTokens, Sources.mapItems, List.map_map, Item.prepare_ofTokens (hl.of_infix hfront) (hs.of_subset hfront.subset)]
  rfl

/-- The sources of a FROM that is laid out, read again, are the same up to the
gaps behind ANDs and ORs. -/
theorem sources_again (n : Nat) (align : Bool) {s : Sources} (h : s = (Sources.ofTokens ts).mapItems (Item.prepare n)) :
    (Body.sources s).IsStable ∧ (∀ j ∈ s.joins, ∀ i ∈ j.conditions, i.IsThread) ∧
      Replaces (s.table.beads ++ s.joins.flatMap (Join.beads align)) (beads true ts) ∧
      ∀ us, Lexed us → beads true us = s.table.beads ++ s.joins.flatMap (Join.beads align) →
        (Sources.ofTokens us).mapItems (Item.prepare n) = ⟨s.table, s.joins.map (Join.settle align)⟩ := by
  obtain ⟨rest, ets, hheaded, hsources⟩ := sources_headed hl hs n
  rw [hsources] at h
  subst h
  generalize hjoins : joinSections {} ts = p at ets hheaded ⊢
  obtain ⟨front, parts⟩ := p
  simp only at ets hheaded ⊢
  have hfront : front <:+: ts := ⟨[], rest, ets.symm⟩
  have hrest : rest <:+: ts := ⟨front, [], by rw [List.append_nil, ← ets]⟩
  have hthread : Threaded (beads true front) := ⟨front, hl.of_infix hfront, hs.of_subset hfront.subset, rfl⟩
  have hjoin := fun p hp => join_again (hl.of_infix ((hheaded.isInfix p hp).trans hrest))
    (hs.of_subset ((hheaded.isInfix p hp).trans hrest).subset) (hheaded.stable p hp) n align rfl
  have hbeads : (parts.map fun p => (Join.ofTokens p.1 p.2).mapItems (Item.prepare n)).flatMap (Join.beads align) =
      (parts.map fun p => (p.1, ((Join.ofTokens p.1 p.2).mapItems (Item.prepare n)).tail align)).flatMap fun q =>
        beadsOf q.1 ++ q.2 := by
    rw [List.flatMap_map, List.flatMap_map]
    refine List.flatMap_congr fun p hp => ?_
    rw [Join.beads_eq, (hjoin p hp).operator_eq]
  have hpair : List.Forall₂ (fun p q => p.1 = q.1 ∧ Replaces q.2 (beads true p.2)) parts
      (parts.map fun p => (p.1, ((Join.ofTokens p.1 p.2).mapItems (Item.prepare n)).tail align)) := by
    rw [List.forall₂_map_right_iff, List.forall₂_same]
    exact fun p hp => ⟨rfl, (hjoin p hp).tail⟩
  have hreplaces := hheaded.replaces_behind front hpair
  rw [← ets] at hreplaces
  rw [hbeads, hthread.beads_ofBeads]
  refine ⟨⟨hthread.isStable, List.forall_mem_map.mpr fun p hp => (hjoin p hp).stable⟩,
    List.forall_mem_map.mpr fun p hp => (hjoin p hp).threads, hreplaces, fun us hu e => ?_⟩
  -- the joins are found again
  have hsolids : solids us = solids ts := solids_of_loosens (e ▸ hreplaces.1)
  have hsu := hs.of_replaces hreplaces e
  obtain ⟨hsame, hparts⟩ := joinSections_congr {} hu hl hsolids
  obtain ⟨rest', eus, hheaded', hsources'⟩ := sources_headed hu hsu n
  rw [hsources']
  have hrest' : rest' <:+: us := ⟨(joinSections {} us).1, [], by rw [List.append_nil, ← eus]⟩
  rw [hjoins, ← List.forall₂_eq_eq_eq, List.forall₂_map_left_iff, List.forall₂_map_right_iff] at hparts
  rw [hjoins] at hsame
  rw [eus] at e
  obtain ⟨hfirst, hcut⟩ := hheaded'.again hsame (hparts.imp fun _ _ => Prod.mk.inj) hpair e
  have hagain := forall₂_and_right (List.forall₂_map_right_iff.mp hcut) hjoin
  rw [hfirst, List.map_map]
  congr 1
  rw [← List.forall₂_eq_eq_eq, List.forall₂_map_left_iff, List.forall₂_map_right_iff]
  refine ((List.forall₂_and_left _ _).mpr ⟨hheaded'.isInfix, hagain⟩).imp fun p' p h => ?_
  obtain ⟨hi, ⟨hword, hbody⟩, hread⟩ := h
  rw [Function.comp_apply, hword]
  exact hread.again p'.2 (hu.of_infix (hi.trans hrest')) hbody

end

end SqlLayout
