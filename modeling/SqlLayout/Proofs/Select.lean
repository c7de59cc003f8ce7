import SqlLayout.Query
import SqlLayout.Proofs.Recase
import SqlLayout.Proofs.Sections

/-!
# The layout of a SELECT holds its tokens

Every token of a SELECT goes to one line of its layout, in the order of the
source, but for commas: a comma may move past comments, and one beside an
empty element of a list is dropped (`Lays.of_selectLines`).
-/

namespace SqlLayout

theorem flat_of_checkTokens {ts : List Token} (h : checkTokens ts = .ok ()) : Flat ts := by
  induction ts with
  | nil => exact fun t ht => absurd ht (by simp)
  | cons t ts ih =>
    rw [checkTokens] at h
    split at h
    · cases h
    split at h
    · cases h
    · next hu hs =>
      intro u hu'
      rcases List.mem_cons.mp hu' with rfl | hu'
      · simp [Token.isFlat, hu, hs]
      · exact ih h u hu'

/-! ## Bodies -/

def Clause.elements (c : Clause) : List (List Token) :=
  match c.kind with
  | .SELECT => commaGroups {} (splitModifiers (tokenize c.body)).2
  | .GROUP_BY | .ORDER_BY => commaGroups {} (tokenize c.body)
  | .FROM | .WHERE | .HAVING => []

theorem prepareAll_eq {n : Nat} {items prepared : List Item} (h : prepareAll n items = .ok prepared) :
    prepared = items.map (Item.prepare n) := by
  unfold prepareAll at h
  split at h
  · cases h
  · cases h; rfl

theorem map_eq_ok {ε α β : Type} {f : α → β} {x : Except ε α} {b : β} (h : x.map f = .ok b) :
    ∃ a, x = .ok a ∧ f a = b := by
  cases x with
  | error e => cases h
  | ok a => cases h; exact ⟨a, rfl, rfl⟩

theorem forall₂_map_left {f : Item → Item} (hf : ∀ {i us}, Item.Holds i us → (f i).Holds us)
    {items : List Item} {us : List (List Token)} (h : List.Forall₂ Item.Holds items us) :
    List.Forall₂ Item.Holds (items.map f) us := by
  induction h with
  | nil => exact .nil
  | cons hi _ ih => exact .cons (hf hi) ih

theorem selectionBody_holds {o : Options} {ts : List Token} {b : Body} (h : selectionBody o ts = .ok b)
    (hl : Legible ts) (hf : Flat ts) :
    ∃ us, b.Holds us ∧ Keeps (droppedCommas (commaGroups {} (splitModifiers ts).2)) us (plains ts) := by
  obtain ⟨ms, e, hlr, hfr, hnil, hsp⟩ := takeModifiers_spells hl hf
  unfold selectionBody splitModifiers at h
  unfold splitModifiers
  generalize takeModifiers ts = p at e hlr hfr hnil hsp h
  obtain ⟨mods, rest⟩ := p
  simp only at e hlr hfr hnil hsp h ⊢
  obtain ⟨items, hi, rfl⟩ := map_eq_ok h
  have hitems : List.Forall₂ Item.Holds items _ := prepareAll_eq hi ▸ holds_listItems hlr hfr o.indentSize
  have hitems := forall₂_map_left (f := Item.reflow o.indentSize)
    (fun ⟨p, e, h⟩ => ⟨p, e, Item.shows_reflow h _⟩) hitems
  refine ⟨ms ++ commaed ((filled (commaGroups {} rest)).map plains), ⟨ms, _, rfl, ?_, ?_⟩, ?_⟩
  · split
    · next hm => exact hnil hm
    · exact hsp
  · split
    · exact forall₂_map_left (fun ⟨p, e, h⟩ => ⟨p, e, Item.shows_alignAlias h _⟩) hitems
    · exact hitems
  · rw [e]
    simpa using (Keeps.refl ms).append (listItems_keeps rest)

theorem Clause.holds_split {o : Options} {c : Clause} {b : Body} (h : c.split o = .ok b)
    (hf : Flat (tokenize c.body)) : ∃ us, b.Holds us ∧ Keeps (droppedCommas c.elements) us (plainsOf c.body) := by
  have hl := legible_tokenize c.body
  have list : (prepareAll o.indentSize (listItems (tokenize c.body))).map Body.list = .ok b →
      ∃ us, b.Holds us ∧
        Keeps (droppedCommas (commaGroups {} (tokenize c.body))) us (plainsOf c.body) := by
    intro h
    obtain ⟨items, hi, rfl⟩ := map_eq_ok h
    exact ⟨_, ⟨_, rfl, prepareAll_eq hi ▸ holds_listItems hl hf o.indentSize⟩, listItems_keeps _⟩
  have conditions : (prepareAll o.indentSize (conditionItems (tokenize c.body))).map Body.conditions = .ok b →
      ∃ us, b.Holds us ∧ Keeps 0 us (plainsOf c.body) := by
    intro h
    obtain ⟨items, hi, rfl⟩ := map_eq_ok h
    obtain ⟨us, e, hc⟩ := holds_conditionItems hl hf o.indentSize
    exact ⟨_, ⟨us, e.symm, prepareAll_eq hi ▸ hc⟩, Keeps.refl _⟩
  unfold Clause.split at h
  unfold Clause.elements
  cases hk : c.kind with
  | SELECT => rw [hk] at h; exact selectionBody_holds h hl hf
  | GROUP_BY => rw [hk] at h; exact list h
  | ORDER_BY => rw [hk] at h; exact list h
  | WHERE => rw [hk] at h; exact conditions h
  | HAVING => rw [hk] at h; exact conditions h
  | FROM =>
    rw [hk] at h
    cases h
    exact ⟨_, Sources.holds_ofTokens hl hf o.indentSize, Keeps.refl _⟩

/-! ## Lines -/

theorem lays_clauseLines (o : Options) {keyword : Text} (hk : Worded keyword) {b : Body} {us : List Token}
    (h : b.Holds us) : Lays 0 (plainsOf keyword ++ us) (clauseLines o keyword b) := by
  unfold clauseLines
  cases o.style with
  | legacy => exact Legacy.lays_lines o hk h
  | river => exact River.lays_lines o hk h
  | indent => exact Indent.lays_lines o hk h

theorem takesMore_of_endsInLineComment {l : Text} (h : endsInLineComment l = false) :
    TakesMore (plainsOf l) := by
  have e : neighbour (tokenize l).reverse = (solidsOf l).getLast? := by
    rw [neighbour, solidsOf, solids, List.getLast?_eq_head?_reverse, ← List.filter_reverse, List.head?_filter]
  rw [endsInLineComment, e] at h
  rw [TakesMore, plainsOf_eq, List.getLast?_map]
  cases hl : (solidsOf l).getLast? with
  | none => rfl
  | some t => simpa [hl] using h

theorem fades_attach (inline : Bool) (above below : List Text) :
    Fades (above ++ below) (attach inline above below) := by
  unfold attach
  split
  · next last l ls e =>
    split
    · next hi =>
      simp only [Bool.and_eq_true, Bool.not_eq_true'] at hi
      obtain ⟨init, rfl⟩ := List.getLast?_eq_some_iff.mp e
      have hglue : Fades [last, l] [last ++ ' ' :: trimStart l] :=
        ((Fades.refl [last]).cons ((Fades.trimStart l).trans (Fades.space_append (w := [' ']) (by decide) _))).trans
          (Fades.glue (takesMore_of_endsInLineComment hi.2) rfl)
      have := (Fades.refl init).append (hglue.append (Fades.refl ls))
      simpa using this
    · exact Fades.refl _
  · exact Fades.refl _

/-! ## Clauses -/

def Section.clause (s : Section) : Clause := ⟨s.kind, s.keyword, trim (spell s.tokens)⟩

def Section.plains (s : Section) : List Token := plainsOf s.keyword ++ SqlLayout.plains s.tokens

theorem Section.lays {o : Options} {s : Section} {b : Body} (h : s.clause.split o = .ok b) (hw : Worded s.keyword)
    (hl : Legible s.tokens) (hf : Flat s.tokens) :
    Lays (droppedCommas s.clause.elements) s.plains (clauseLines o s.keyword b) := by
  obtain ⟨hfb, hthin⟩ := trim_spell hl hf
  obtain ⟨us, hb, hk⟩ := Clause.holds_split h hfb
  have := (lays_clauseLines o hw hb).keeps ((Keeps.refl (plainsOf s.keyword)).append hk)
  refine Lays.mono (by simpa using this) (hthin.imp (fun e => ?_) fun h => ?_)
  · rw [Section.plains, ← e]; rfl
  · rw [Section.plains, seen_append, seen_append]
    exact Nat.add_lt_add_left h.1 _

theorem lays_clauses {o : Options} {found : List Section} {bodies : List (Clause × Body)}
    (h : ((found.map Section.clause).mapM fun c => (c.split o).map fun b => (c, b)) = .ok bodies)
    (hs : ∀ s ∈ found, Worded s.keyword ∧ Legible s.tokens ∧ Flat s.tokens) {j : Nat} {us : List Token}
    {above : List Text} (ha : Lays j us above) :
    Lays (j + (found.map fun s => droppedCommas s.clause.elements).sum) (us ++ found.flatMap Section.plains)
      (bodies.foldl (fun above p => attach (o.inlines p.1.kind) above (clauseLines o p.1.keyword p.2)) above) := by
  induction found generalizing bodies j us above with
  | nil => cases h; simpa using ha
  | cons s found ih =>
    rw [List.map_cons, List.mapM_cons] at h
    cases hb : s.clause.split o with
    | error f => rw [hb] at h; cases h
    | ok b =>
      cases hbs : ((found.map Section.clause).mapM fun c => (c.split o).map fun b => (c, b)) with
      | error f => rw [hb, hbs] at h; cases h
      | ok rest =>
        rw [hb, hbs] at h
        obtain rfl : (s.clause, b) :: rest = bodies := by cases h; rfl
        obtain ⟨hw, hl, hf⟩ := hs s (by simp)
        have hline := (ha.append (Section.lays hb hw hl hf)).fades (fades_attach (o.inlines s.kind) _ _)
        have := ih hbs (fun s h => hs s (by simp [h])) hline
        simpa [Nat.add_assoc, Section.clause] using this

/-! ## The whole SELECT -/

def Select.lists (s : Select) : List (List (List Token)) := s.clauses.map Clause.elements

theorem Select.ofText_eq {sql : Text} {s : Select} (h : Select.ofText sql = .ok s) :
    s.lead.elim [] trimmedLines = trimmedLines (trim (spell (sections {} (tokenize sql)).1)) ∧
      s.clauses = (sections {} (tokenize sql)).2.map Section.clause := by
  unfold Select.ofText at h
  simp only at h
  split at h
  · cases h
  split at h
  · cases h
  split at h
  · cases h
  · cases h
    refine ⟨?_, rfl⟩
    simp only
    split
    · next e => rw [e]; rfl
    · rfl

theorem Select.lays {o : Options} {sql : Text} {s : Select} {lines : List Text} (hs : Select.ofText sql = .ok s)
    (hl : s.lines o = .ok lines) (hf : Flat (tokenize sql)) :
    Lays (s.lists.map droppedCommas).sum (plainsOf sql) lines := by
  obtain ⟨e, hp, hw⟩ := sections_parts {} (tokenize sql) fun _ => formed_of_mem
  obtain ⟨elead, eclauses⟩ := Select.ofText_eq hs
  have hleg := legible_tokenize sql
  unfold Select.lines at hl
  rw [elead] at hl
  unfold Select.lists
  rw [eclauses] at hl ⊢
  generalize sections {} (tokenize sql) = p at e hp hw hl
  obtain ⟨front, found⟩ := p
  simp only at e hp hw hl ⊢
  obtain ⟨hft, hthin⟩ := trim_spell (hleg.of_infix hp.isInfix) (hf.of_subset hp.subset)
  have hlead : Spells (plains front) (trimmedLines (trim (spell front))) :=
    (spells_trimmedLines hft).of_thins hthin
  cases hb : ((found.map Section.clause).mapM fun c => (c.split o).map fun b => (c, b)) with
  | error f => rw [hb] at hl; cases hl
  | ok bodies =>
    rw [hb] at hl
    cases hl
    have := lays_clauses hb (fun s h => ⟨(hw s h).1, hleg.of_infix (hw s h).2, hf.of_subset (hw s h).2.subset⟩)
      hlead.lays
    have e : plainsOf sql = plains front ++ found.flatMap Section.plains := by
      simp only [plainsOf_eq, solidsOf, e, List.map_append, List.map_flatMap]
      rfl
    rw [e]
    simpa [Function.comp_def] using this

def listsOf (o : Options) (sql : Text) : List (List (List Token)) :=
  match Select.ofText (recase o sql) with
  | .ok s => s.lists
  | .error _ => []

theorem lays_selectLines {o : Options} {sql : Text} {lines : List Text} (h : selectLines o sql = .ok lines) :
    Lays ((listsOf o sql).map droppedCommas).sum (plainsOf sql) lines := by
  simp only [selectLines] at h
  cases hc : checkTokens (tokenize (recase o sql)) with
  | error f => rw [hc] at h; cases h
  | ok u =>
    cases hs : Select.ofText (recase o sql) with
    | error f => rw [hc, hs] at h; cases h
    | ok s =>
      rw [hc, hs] at h
      have := Select.lays hs h (flat_of_checkTokens hc)
      rw [plainsOf_recase] at this
      simpa [listsOf, hs] using this

end SqlLayout
