import SqlLayout.Proofs.Cuts
import SqlLayout.Proofs.Remade

/-!
# Lists and predicates that are read again

The lines of a list, read again, are cut into the same elements
(`list_again`). Those of a predicate are cut into conditions that have the
same ANDs and ORs with the same code behind them (`conditions_again`).
-/

namespace SqlLayout

/-! ## Beads in the place of others -/

/-- The beads may be put in the place of other ones, behind space. -/
def Replaces (cs bs : List Bead) : Prop := Loosens bs cs ∧ parted cs = cs

theorem Replaces.ne_nil {bs cs : List Bead} (h : Replaces cs bs) (hne : bs ≠ []) : cs ≠ [] := by
  rintro rfl
  have := h.1.tokens
  rw [List.map_nil, eq_comm, List.map_eq_nil_iff] at this
  exact hne this

theorem solids_of_loosens {ts us : List Token} (h : Loosens (beads true ts) (beads true us)) : solids us = solids ts := by
  rw [← map_snd_beads true, h.tokens, map_snd_beads]

theorem Stable.of_replaces {ts us : List Token} (hs : Stable ts) {bs : List Bead} (h : Replaces bs (beads true ts))
    (e : beads true us = bs) : Stable us := by
  have hsolids : solids us = solids ts := solids_of_loosens (e ▸ h.1)
  exact Stable.of_solids (hsolids ▸ hs.of_subset fun t ht => (mem_solids.mp ht).1)

def Replacements (gs : List (List Token)) (css : List (List Bead)) : Prop :=
  List.Forall₂ (fun g cs => Replaces cs (beads true g) ∧ cs ≠ []) gs css

namespace Replacements

variable {gs hs : List (List Token)} {css : List (List Bead)} (h : Replacements gs css)
include h

theorem solids_eq : gs.map solids = css.map (List.map Prod.snd) := by
  induction h with
  | nil => rfl
  | cons h _ ih => rw [List.map_cons, List.map_cons, ih, h.1.1.tokens, map_snd_beads]

theorem parted_eq : css.map parted = css := by
  induction h with
  | nil => rfl
  | cons h _ ih => rw [List.map_cons, ih, h.1.2]

theorem filter_eq : css.filter (· ≠ []) = css := by
  induction h with
  | nil => rfl
  | cons h _ ih => rw [List.filter_cons_of_pos (by simpa using h.2), ih]

end Replacements

theorem replacements_of_filled {gs : List (List Token)} (hg : ∀ g ∈ gs, solids g ≠ []) {css : List (List Bead)}
    (h : List.Forall₂ (fun bs cs => Replaces cs bs) ((gs.map (beads true)).filter (· ≠ [])) css) : Replacements gs css := by
  have hbeads : ∀ bs ∈ gs.map (beads true), bs ≠ [] := List.forall_mem_map.mpr fun g hg' => mt beads_eq_nil.mp (hg g hg')
  rw [List.filter_eq_self.mpr fun bs hbs => by simpa using hbeads bs hbs] at h
  exact (List.forall₂_map_left_iff.mp ((List.forall₂_and_left _ _).mpr ⟨hbeads, h⟩)).imp fun g cs h => ⟨h.2, h.2.ne_nil h.1⟩

/-! ## Cuts by beads -/

theorem cut_flatten {gs : List (List Token)} {css : List (List Bead)} {gap : Bool} (h : beads gap gs.flatten = css.flatten)
    (hs : gs.map solids = css.map (List.map Prod.snd)) : gs.map (beads true) = css.map parted := by
  induction gs generalizing css gap with
  | nil =>
    obtain rfl : css = [] := by simpa using hs.symm
    rfl
  | cons g gs ih =>
    cases css with
    | nil => cases hs
    | cons cs css =>
      obtain ⟨hg, hgs⟩ := List.cons.inj hs
      rw [List.flatten_cons, List.flatten_cons] at h
      obtain ⟨hfirst, hrest⟩ := beads_cut h (by rw [hg, List.length_map])
      rw [List.map_cons, List.map_cons, ih hrest hgs, ← parted_beads gap g, hfirst]

namespace Strung

variable {css : List (List Bead)} {l : List Bead} (h : Strung css l)
include h

theorem cut {gs : List (List Token)} {gap : Bool} (hl : beads gap (commaed gs) = l)
    (hs : gs.map solids = css.map (List.map Prod.snd)) : gs.map (beads true) = css.map parted := by
  induction h generalizing gs gap with
  | nil =>
    obtain rfl : gs = [] := by simpa using hs
    rfl
  | one bs =>
    cases gs with
    | nil => cases hs
    | cons g gs =>
      obtain ⟨-, hgs⟩ := List.cons.inj hs
      obtain rfl : gs = [] := by simpa using hgs
      rw [commaed_singleton] at hl
      rw [List.map_singleton, List.map_singleton, ← hl, parted_beads]
  | more bs g' _ ih =>
    cases gs with
    | nil => cases hs
    | cons g gs =>
      obtain ⟨hg, hgs⟩ := List.cons.inj hs
      have hne : gs ≠ [] := by
        rintro rfl
        cases hgs
      rw [commaed_cons g hne] at hl
      obtain ⟨hfirst, hrest⟩ := beads_cut hl (by rw [hg, List.length_map])
      rw [beads_cons_solid rfl] at hrest
      rw [List.map_cons, List.map_cons, ih (List.cons.inj hrest).2 hgs, ← parted_beads gap g, hfirst]

theorem loosens {gs : List (List Token)} {gap : Bool} (hg : Replacements gs css) :
    Loosens (beads gap (commaed gs)) l ∧ parted l = l := by
  induction h generalizing gs gap with
  | nil =>
    cases hg
    exact ⟨.nil, rfl⟩
  | one bs =>
    cases hg with
    | cons h hg =>
      cases hg
      rw [commaed_singleton]
      exact ⟨h.1.1.beads, h.1.2⟩
  | more bs g' _ ih =>
    cases hg with
    | @cons g _ gs _ h hg =>
      have hne : gs ≠ [] := by
        rintro rfl
        cases hg
      obtain ⟨hloose, hparted⟩ : Loosens (beads false (commaed gs)) _ ∧ _ := ih hg
      rw [commaed_cons g hne, beads_append, beads_cons_solid rfl, parted_append h.2, h.1.2]
      exact ⟨h.1.1.beads.append_comma _ _ hloose hparted, rfl⟩

end Strung

/-! ## Lists -/

theorem infix_commaed {g : List Token} {gs : List (List Token)} (h : g ∈ gs) : g <:+: commaed gs := by
  obtain ⟨before, behind, rfl⟩ := List.append_of_mem h
  cases before with
  | nil =>
    rw [List.nil_append, commaed_cons_eq]
    exact (List.prefix_append _ _).isInfix
  | cons k before =>
    rw [List.cons_append, commaed_cons_eq, List.flatMap_append, List.flatMap_cons]
    exact ⟨k ++ before.flatMap (.comma :: ·) ++ [.comma], behind.flatMap (.comma :: ·), by simp⟩

section
variable {ts : List Token} (hl : Lexed ts) (hs : Stable ts)
include hl hs

theorem stable_commaGroups : ∀ g ∈ commaGroups {} ts, Lexed g ∧ Stable g := by
  intro g hg
  have hi : g <:+: ts := by
    have := infix_commaed hg
    rwa [commaed_commaGroups hs.bare] at this
  exact ⟨hl.of_infix hi, hs.of_subset hi.subset⟩

theorem listItems_stable (n : Nat) : prepareAll n (listItems ts) =
    .ok ((((commaGroups {} ts).map (beads true)).filter (· ≠ [])).map Item.ofBeads) :=
  prepareAll_stable (stable_commaGroups hl hs) n

end

theorem filled_or_blank {ts : List Token} (hd : droppedCommas (commaGroups {} ts) = 0) :
    (∀ g ∈ commaGroups {} ts, solids g ≠ []) ∨ ∃ g, commaGroups {} ts = [g] ∧ solids g = [] := by
  have hne := commaGroups_ne_nil {} ts
  generalize commaGroups {} ts = gs at hd hne
  have hfilled : filled gs = gs.filter fun g => !decide (solids g = []) := by
    rw [filled]
    refine List.filter_congr fun g _ => ?_
    rw [← Bool.eq_iff_iff.mpr (by simpa using solids_eq_nil.symm :
      (g.all Token.isSpace) = true ↔ decide (solids g = []) = true)]
  rw [droppedCommas, hfilled] at hd
  by_cases hall : ∀ g ∈ gs, solids g ≠ []
  · exact Or.inl hall
  · right
    have hlt : (gs.filter fun g => !decide (solids g = [])).length < gs.length := by
      rw [List.length_filter_lt_length_iff_exists]
      simpa using hall
    have hone : gs.length = 1 := by
      have := List.length_pos_iff.mpr hne
      omega
    obtain ⟨g, rfl⟩ := List.length_eq_one_iff.mp hone
    exact ⟨g, rfl, by simpa using hall⟩

theorem commaGroups_blank {ts : List Token} (h : solids ts = []) (hb : ∀ t ∈ ts, t.isComment = false) :
    ((commaGroups {} ts).map (beads true)).filter (· ≠ []) = [] := by
  have hone : (commaGroups {} ts).map solids = [[]] := by
    rw [← commaGroups_solids hb, h, commaGroups]
  refine List.filter_eq_nil_iff.mpr fun bs hbs => ?_
  obtain ⟨g, hg, rfl⟩ := List.mem_map.mp hbs
  have := List.mem_map_of_mem (f := solids) hg
  rw [hone, List.mem_singleton] at this
  simpa using beads_eq_nil.mpr this

/-- A list with other elements in the place of its own, read again, has these
elements. -/
theorem list_again {ts : List Token} (hs : Stable ts) (hd : droppedCommas (commaGroups {} ts) = 0) {css : List (List Bead)}
    {l : List Bead}
    (hc : List.Forall₂ (fun bs cs => Replaces cs bs) (((commaGroups {} ts).map (beads true)).filter (· ≠ [])) css)
    (h : Strung css l) :
    Replaces l (beads true ts) ∧ ∀ us, Stable us → beads true us = l →
      ((commaGroups {} us).map (beads true)).filter (· ≠ []) = css := by
  rcases filled_or_blank hd with hall | ⟨g, hg, hblank⟩
  · have hpieces := replacements_of_filled hall hc
    have hloose : Loosens (beads true (commaed (commaGroups {} ts))) l ∧ parted l = l := h.loosens hpieces
    rw [commaed_commaGroups hs.bare] at hloose
    refine ⟨hloose, fun us hus e => ?_⟩
    have hsolids : (commaGroups {} us).map solids = css.map (List.map Prod.snd) := by
      rw [← commaGroups_solids hus.bare, solids_of_loosens (e ▸ hloose.1), commaGroups_solids hs.bare, hpieces.solids_eq]
    have hl : beads true (commaed (commaGroups {} us)) = l := by rw [commaed_commaGroups hus.bare, e]
    rw [h.cut hl hsolids, hpieces.parted_eq, hpieces.filter_eq]
  · have hts : solids ts = [] := by
      have := commaed_commaGroups hs.bare {}
      rw [hg, commaed_singleton] at this
      rw [← this, hblank]
    rw [commaGroups_blank hts hs.bare] at hc
    cases hc
    cases h
    rw [beads_eq_nil.mpr hts]
    exact ⟨⟨.nil, rfl⟩, fun us hus e => commaGroups_blank (beads_eq_nil.mp e) hus.bare⟩

/-! ## Predicates -/

theorem conditionGroups_keyword (n : Nesting) (between : Nat) (started : Bool) (ts : List Token) :
    ∀ g ∈ (conditionGroups n between started ts).tail, ∃ t us k, g = t :: us ∧ t.keyword = some k := by
  induction ts generalizing n between started with
  | nil => simp [conditionGroups]
  | cons t ts ih =>
    have ih := ih (n.step t) (conditionStep between (n.topKeyword t)).1 (started || t.isCode)
    obtain ⟨g, gs, e⟩ := List.exists_cons_of_ne_nil
      (conditionGroups_flatten (n.step t) (conditionStep between (n.topKeyword t)).1 (started || t.isCode) ts).1
    simp only [conditionGroups, e]
    rw [e] at ih
    split
    · next hcut =>
      obtain ⟨k, hk⟩ : ∃ k, n.topKeyword t = some k := by
        cases hk : n.topKeyword t with
        | none =>
          rw [hk] at hcut
          cases hcut
        | some k => exact ⟨k, rfl⟩
      intro p hp
      rcases List.mem_cons.mp hp with rfl | hp
      · exact ⟨t, g, k, rfl, (Nesting.topKeyword_eq_some.mp hk).2⟩
      · exact ih p hp
    · exact ih

theorem conditionGroups_head (n : Nesting) (between : Nat) {ts : List Token} (hb : ∀ t ∈ ts, t.isComment = false)
    (hne : solids ts ≠ []) : ∀ g ∈ (conditionGroups n between false ts).head?, solids g ≠ [] := by
  induction ts generalizing n between with
  | nil => exact absurd rfl hne
  | cons t ts ih =>
    obtain ⟨ht, hts⟩ := List.forall_mem_cons.mp hb
    obtain ⟨g, gs, e⟩ := List.exists_cons_of_ne_nil
      (conditionGroups_flatten (n.step t) (conditionStep between (n.topKeyword t)).1 (false || t.isCode) ts).1
    simp only [conditionGroups, e, Bool.and_false, Bool.false_eq_true, if_false]
    rintro k ⟨⟩
    rw [solids_cons]
    cases hsp : t.isSpace with
    | false => simp
    | true =>
      rw [solids_cons, if_pos hsp] at hne
      have hcode : t.isCode = false := isCode_of_isSpace hsp
      rw [hcode] at e
      rw [if_pos rfl]
      exact ih (n.step t) _ hts hne g (by rw [Bool.or_false] at e; rw [e]; rfl)

theorem conditionGroups_solid {ts : List Token} (hb : ∀ t ∈ ts, t.isComment = false) (hne : solids ts ≠ []) :
    ∀ g ∈ conditionGroups {} 0 false ts, solids g ≠ [] := by
  have hhead := conditionGroups_head {} 0 hb hne
  have htail := conditionGroups_keyword {} 0 false ts
  obtain ⟨g, gs, e⟩ := List.exists_cons_of_ne_nil (conditionGroups_flatten {} 0 false ts).1
  rw [e] at hhead htail ⊢
  intro k hk
  rcases List.mem_cons.mp hk with rfl | hk
  · exact hhead k rfl
  · obtain ⟨t, us, w, rfl, hw⟩ := htail k hk
    obtain ⟨v, rfl⟩ := isWord_of_isKeyword (t := t) (k := w) (by rw [Token.isKeyword, hw, decide_eq_true rfl])
    rw [solids_cons, if_neg (by simp [Token.isSpace])]
    exact List.cons_ne_nil _ _

theorem conditionGroups_blank {ts : List Token} (h : solids ts = []) :
    ((conditionGroups {} 0 false ts).map (beads true)).filter (· ≠ []) = [] := by
  have hone : (conditionGroups {} 0 false ts).map solids = [[]] := by
    rw [← conditionGroups_solids, h, conditionGroups]
  refine List.filter_eq_nil_iff.mpr fun bs hbs => ?_
  obtain ⟨g, hg, rfl⟩ := List.mem_map.mp hbs
  have := List.mem_map_of_mem (f := solids) hg
  rw [hone, List.mem_singleton] at this
  simpa using beads_eq_nil.mpr this

/-- A condition as it is read behind its AND or OR that was pulled to the
left. -/
def Item.settle (align : Bool) (i : Item) : Item := ofBeads (i.conditionBeads align)

theorem unbead_cons_parted (t : Token) (bs : List Bead) (hb : ∀ b ∈ bs, b.2.isSpace = false) (hp : parted bs = bs) :
    ∃ ts, unbead ((true, t) :: bs) = t :: ts ∧ ts.dropWhile Token.isSpace = unbead bs := by
  cases bs with
  | nil => exact ⟨[], rfl, rfl⟩
  | cons b bs =>
    have hg : b.1 = true := (congrArg Prod.fst (List.cons.inj hp).1).symm
    refine ⟨.whitespace [' '] :: unbead (b :: bs), ?_, ?_⟩
    · rw [unbead, List.flatMap_cons, if_pos hg, unbead]
      rfl
    · rw [List.dropWhile_cons_of_pos rfl, unbead, List.dropWhile_cons_of_neg]
      simpa using hb b List.mem_cons_self

theorem solid_of_beads {gap : Bool} {ts : List Token} : ∀ b ∈ beads gap ts, b.2.isSpace = false := by
  intro b hb
  have := List.mem_map_of_mem (f := Prod.snd) hb
  rw [map_snd_beads] at this
  exact (mem_solids.mp this).2

section
variable {i : Item} (h : i.IsStable) {operator code : Text} (hs : i.splitOperator = some (operator, code))
include h hs

theorem Item.conditionBeads_eq : ∃ t ts, tokenize i.code = t :: ts ∧ t.text = operator ∧
    (t.isKeyword .AND || t.isKeyword .OR) ∧
    tokenize code = ts.dropWhile Token.isSpace ∧ i.conditionBeads true = (true, t) :: beadsOf code ∧
    Threaded (i.conditionBeads true) := by
  obtain ⟨t, ts, e, ht, hk, hop, eop, hcode, ecode⟩ := i.splitOperator_stable h hs
  obtain ⟨hstable, ebeads⟩ := gap_stable hop hcode (w := [' ']) rfl (List.cons_ne_nil _ _)
  have hsolid : t.isSpace = false := by
    cases t <;> first | rfl | cases hk
  have eoperator : beadsOf operator = [(true, t)] := by rw [beadsOf, eop, beads_cons_solid hsolid, beads_nil]
  have econdition : i.conditionBeads true = beadsOf operator ++ beadsOf code := by
    rw [conditionBeads, if_pos rfl, hs]
  refine ⟨t, ts, e, ht, hk, ecode, ?_, ?_⟩
  · rw [econdition, eoperator, List.singleton_append]
  · rw [econdition, ← ebeads]
    exact ⟨_, lexed_tokenize _, hstable, rfl⟩

end

/-- The AND or OR is found again, with the same code behind it. -/
theorem Item.splitOperator_settle {bs : List Bead} (h : Threaded bs) {operator code : Text}
    (hs : (ofBeads bs).splitOperator = some (operator, code)) :
    ((ofBeads bs).settle true).splitOperator = some (operator, code) := by
  obtain ⟨t, ts, e, ht, hk, ecode, econdition, hthreaded⟩ := Item.conditionBeads_eq h.isStable hs
  obtain ⟨us, eus, edrop⟩ := unbead_cons_parted t (beadsOf code) solid_of_beads (parted_beads true _)
  have htokens : tokenize ((ofBeads bs).settle true).code = t :: us := by
    rw [settle, hthreaded.tokenize_code, econdition, eus]
  have hne : bs ≠ [] := by
    rintro rfl
    rw [h.tokenize_code] at e
    cases e
  -- the code behind the operator is on one line
  have hrow : IsRow (t :: ts) := by
    rw [← e, h.tokenize_code]
    exact h.isRow hne
  have hcode : unbead (beadsOf code) = tokenize code := by
    have htidy : Tidy (tokenize code) := by
      rw [ecode]
      exact hrow.tidy.of_infix ((List.dropWhile_suffix _).isInfix.trans (List.suffix_cons t ts).isInfix)
    rw [beadsOf, ← strip_blanked htidy.lexed, htidy.blanked_eq]
    refine strip_eq_self ?_ fun u hu => hrow.getLast u ?_
    · rw [ecode]
      intro u hu
      have := List.head?_dropWhile_not Token.isSpace ts
      rw [Option.mem_def.mp hu] at this
      simpa using this
    · obtain ⟨a, ha⟩ : tokenize code <:+ t :: ts := ecode ▸ (List.dropWhile_suffix _).trans (List.suffix_cons t ts)
      rw [← ha, Option.mem_def, List.getLast?_append, Option.mem_def.mp hu]
      rfl
  have hlexed := lexed_tokenize ((ofBeads bs).settle true).code
  have hstable : Stable (tokenize ((ofBeads bs).settle true).code) := by
    rw [settle, hthreaded.tokenize_code]
    exact hthreaded.tokenize_code ▸ hthreaded.isStable.stable
  rw [htokens] at hlexed hstable
  have htrim : trimStart (spell us) = code := by
    rw [trimStart_firm (fun u hu => hlexed.formed (List.mem_cons_of_mem t hu)) fun u hu =>
        hstable.firm u (List.mem_cons_of_mem t hu),
      edrop, hcode, spell_tokenize]
  rw [splitOperator, htokens]
  simp only
  rw [if_pos hk, ht, htrim]

theorem laterCondition_settle {bs : List Bead} (h : Threaded bs) (align : Bool) (rest : Nat) :
    laterCondition align rest ((Item.ofBeads bs).settle align) = laterCondition align rest (Item.ofBeads bs) := by
  have same : (Item.ofBeads bs).conditionBeads align = (Item.ofBeads bs).beads →
      laterCondition align rest ((Item.ofBeads bs).settle align) = laterCondition align rest (Item.ofBeads bs) := by
    intro e
    rw [Item.settle, e, h.beads_ofBeads]
  cases align with
  | false => exact same rfl
  | true =>
    cases hs : (Item.ofBeads bs).splitOperator with
    | none =>
      apply same
      rw [Item.conditionBeads, if_pos rfl, hs]
    | some p =>
      obtain ⟨operator, code⟩ := p
      have hsettle := Item.splitOperator_settle h hs
      simp only [laterCondition, if_true, hsettle, hs]
      rfl

theorem Item.conditionBeads_replaces {i : Item} (h : i.IsStable) (ho : Opens i.beads) (align : Bool) :
    Replaces (i.conditionBeads align) i.beads ∧ Opens (i.conditionBeads align) := by
  have same : i.conditionBeads align = i.beads →
      Replaces (i.conditionBeads align) i.beads ∧ Opens (i.conditionBeads align) := by
    intro e
    rw [e]
    exact ⟨⟨Loosens.refl _, ho.parted⟩, ho⟩
  cases align with
  | false => exact same rfl
  | true =>
    cases hs : i.splitOperator with
    | none =>
      apply same
      rw [conditionBeads, if_pos rfl, hs]
    | some p =>
      obtain ⟨operator, code⟩ := p
      obtain ⟨t, ts, e, -, hk, ecode, econdition, -⟩ := Item.conditionBeads_eq h hs
      have hmark : t.isMarker := by
        rw [Bool.or_eq_true] at hk
        exact hk.elim (fun hk => Token.isMarker_of_keyword (of_decide_eq_true hk))
          fun hk => Token.isMarker_of_keyword (of_decide_eq_true hk)
      have hsolid : t.isSpace = false := by
        cases t <;> first | rfl | cases hk
      rw [econdition, Item.beads, beadsOf, beadsOf, e, ecode, beads_dropWhile, beads_cons_solid hsolid]
      refine ⟨⟨?_, rfl⟩, rfl, ?_⟩
      · exact Loosens.cons_marked hmark _ _ (Loosens.refl _).beads (parted_beads true ts)
      · rintro b ⟨⟩
        exact hmark

def settleLater (align : Bool) : List Item → List Item
  | [] => []
  | i :: is => i :: is.map (Item.settle align)

section
variable {ts : List Token} (hl : Lexed ts) (hs : Stable ts)
include hl hs

theorem stable_conditionGroups : ∀ g ∈ conditionGroups {} 0 false ts, Lexed g ∧ Stable g := by
  intro g hg
  have hi : g <:+: ts := by
    have := List.infix_of_mem_flatten hg
    rwa [(conditionGroups_flatten {} 0 false ts).2] at this
  exact ⟨hl.of_infix hi, hs.of_subset hi.subset⟩

theorem conditionItems_stable (n : Nat) : prepareAll n (conditionItems ts) =
    .ok ((((conditionGroups {} 0 false ts).map (beads true)).filter (· ≠ [])).map Item.ofBeads) :=
  prepareAll_stable (stable_conditionGroups hl hs) n

/-- A predicate that is laid out, read again, has the same conditions, up to
the gaps behind their operators. -/
theorem conditions_again (align : Bool) {items : List Item}
    (hi : items = (((conditionGroups {} 0 false ts).map (beads true)).filter (· ≠ [])).map Item.ofBeads) :
    Replaces (predicateBeads align items) (beads true ts) ∧ ∀ us, beads true us = predicateBeads align items →
      (((conditionGroups {} 0 false us).map (beads true)).filter (· ≠ [])).map Item.ofBeads = settleLater align items := by
  by_cases hne : solids ts = []
  · rw [conditionGroups_blank hne] at hi
    subst hi
    rw [beads_eq_nil.mpr hne]
    refine ⟨⟨.nil, rfl⟩, fun us e => ?_⟩
    rw [conditionGroups_blank (beads_eq_nil.mp e)]
    rfl
  · have hsolid := conditionGroups_solid hs.bare hne
    have hkeys := conditionGroups_keyword {} 0 false ts
    have hgroups := stable_conditionGroups hl hs
    have hflat := (conditionGroups_flatten {} 0 false ts).2
    have hsplit : ∀ us, beads true us = predicateBeads align items → solids us = solids ts →
        (conditionGroups {} 0 false us).map solids = (conditionGroups {} 0 false ts).map solids := fun us _ e => by
      rw [← conditionGroups_solids, e, conditionGroups_solids]
    rw [List.filter_eq_self.mpr fun bs hbs => by
      obtain ⟨g, hg, rfl⟩ := List.mem_map.mp hbs
      simpa using mt beads_eq_nil.mp (hsolid g hg)] at hi
    obtain ⟨g, gs, e⟩ := List.exists_cons_of_ne_nil (conditionGroups_flatten {} 0 false ts).1
    rw [e] at hsolid hkeys hgroups hflat hsplit hi
    have hthread : ∀ k ∈ g :: gs, Threaded (beads true k) := fun k hk => ⟨k, (hgroups k hk).1, (hgroups k hk).2, rfl⟩
    have hlater : ∀ k ∈ gs, Replaces ((Item.ofBeads (beads true k)).conditionBeads align) (beads true k) ∧
        Opens ((Item.ofBeads (beads true k)).conditionBeads align) := by
      intro k hk
      have ht := hthread k (List.mem_cons_of_mem g hk)
      obtain ⟨t, us, w, rfl, hw⟩ := hkeys k hk
      have := Item.conditionBeads_replaces ht.isStable (by rw [ht.beads_ofBeads]; exact Opens.of_keyword hw us) align
      rwa [ht.beads_ofBeads] at this
    have hcss : predicateBeads align items =
        (beads true g :: gs.map fun k => (Item.ofBeads (beads true k)).conditionBeads align).flatten := by
      rw [hi, List.map_cons, List.map_cons, predicateBeads, (hthread g List.mem_cons_self).beads_ofBeads, List.flatten_cons,
        List.flatMap_def, List.map_map, List.map_map]
      rfl
    have hpieces : Replacements (g :: gs)
        (beads true g :: gs.map fun k => (Item.ofBeads (beads true k)).conditionBeads align) := by
      refine .cons ⟨⟨Loosens.refl _, parted_beads true g⟩, mt beads_eq_nil.mp (hsolid g List.mem_cons_self)⟩ ?_
      rw [List.forall₂_map_right_iff, List.forall₂_same]
      exact fun k hk => ⟨(hlater k hk).1, (hlater k hk).1.ne_nil (mt beads_eq_nil.mp (hsolid k (List.mem_cons_of_mem g hk)))⟩
    have hreplaces : Replaces (predicateBeads align items) (beads true ts) := by
      have hrest : List.Forall₂ (fun k cs => Loosens (beads true k) cs ∧ Opens cs) gs
          (gs.map fun k => (Item.ofBeads (beads true k)).conditionBeads align) := by
        rw [List.forall₂_map_right_iff, List.forall₂_same]
        exact fun k hk => ⟨(hlater k hk).1.1, (hlater k hk).2⟩
      obtain ⟨hloose, hopens⟩ := loosens_flatten hrest
      rw [hcss, ← hflat, List.flatten_cons, List.flatten_cons]
      refine ⟨(Loosens.refl _).before_opens hloose hopens, ?_⟩
      rw [parted_append (mt beads_eq_nil.mp (hsolid g List.mem_cons_self)), parted_beads]
    refine ⟨hreplaces, fun us hus => ?_⟩
    have hsolids := hsplit us hus (solids_of_loosens (hus ▸ hreplaces.1))
    have hflat' : beads true (conditionGroups {} 0 false us).flatten =
        (beads true g :: gs.map fun k => (Item.ofBeads (beads true k)).conditionBeads align).flatten := by
      rw [(conditionGroups_flatten {} 0 false us).2, hus, hcss]
    rw [cut_flatten hflat' (hsolids.trans hpieces.solids_eq), hpieces.parted_eq, hpieces.filter_eq, hi]
    simp only [List.map_cons, List.map_map, settleLater]
    rfl

end

end SqlLayout
