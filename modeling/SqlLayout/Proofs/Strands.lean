import SqlLayout.Proofs.Beads
import SqlLayout.Proofs.Select

/-!
# The beads of lines

Without comments, the lines of a clause carry the beads of its keyword and of
its items, whatever the style. Each item starts behind space, and so does each
condition behind its AND or OR when that is pulled to the left
(`carries_clauseLines`).
-/

namespace SqlLayout

/-! ## Lines -/

def Carries (bs : List Bead) (ls : List Text) : Prop := (∀ l ∈ ls, Stable (tokenize l)) ∧ ls.flatMap beadsOf = bs

namespace Carries

variable {bs cs : List Bead} {ls ms : List Text}

protected theorem nil : Carries [] [] := ⟨by simp, rfl⟩

theorem append (h : Carries bs ls) (h' : Carries cs ms) : Carries (bs ++ cs) (ls ++ ms) :=
  ⟨List.forall_mem_append.mpr ⟨h.1, h'.1⟩, by rw [List.flatMap_append, h.2, h'.2]⟩

theorem single {l : Text} (h : Stable (tokenize l)) : Carries (beadsOf l) [l] := ⟨by simpa using h, by simp⟩

theorem map {f : Text → Text} (hf : ∀ l, Stable (tokenize l) → Stable (tokenize (f l)) ∧ beadsOf (f l) = beadsOf l)
    (h : Carries bs ls) : Carries bs (ls.map f) := by
  refine ⟨List.forall_mem_map.mpr fun l hl => (hf l (h.1 l hl)).1, ?_⟩
  rw [List.flatMap_map, ← h.2]
  exact List.flatMap_congr fun l hl => (hf l (h.1 l hl)).2

theorem joinLines (h : Carries bs ls) : Stable (tokenize (joinLines ls)) ∧ beadsOf (SqlLayout.joinLines ls) = bs := by
  have e := beadsOf_joinLines h.1
  refine ⟨?_, e.trans h.2⟩
  rw [stable_tokenize, e, List.map_flatMap, List.flatMap_def]
  have hsolid : ∀ l ∈ ls, Stable ((beadsOf l).map Prod.snd) := fun l hl => stable_tokenize.mp (h.1 l hl)
  refine ⟨fun t ht => ?_, fun t ht => ?_, fun t ht => ?_, fun t ht => ?_⟩ <;>
    obtain ⟨us, hus, ht⟩ := List.mem_flatten.mp ht <;> obtain ⟨l, hl, rfl⟩ := List.mem_map.mp hus
  · exact (hsolid l hl).flat t ht
  · exact (hsolid l hl).bare t ht
  · exact (hsolid l hl).firm t ht
  · exact (hsolid l hl).soft t ht

end Carries

theorem stable_of_beads {s t : Text} (h : beadsOf s = beadsOf t) (ht : Stable (tokenize t)) : Stable (tokenize s) := by
  rw [stable_tokenize, h]
  exact stable_tokenize.mp ht

theorem pad_stable (n : Nat) {l : Text} (h : Stable (tokenize l)) :
    Stable (tokenize (pad n ++ l)) ∧ beadsOf (pad n ++ l) = beadsOf l :=
  ⟨stable_of_beads (beadsOf_pad_append n l) h, beadsOf_pad_append n l⟩

theorem trimEnd_stable {l : Text} (h : Stable (tokenize l)) :
    Stable (tokenize (trimEnd l)) ∧ beadsOf (trimEnd l) = beadsOf l :=
  ⟨stable_of_beads (beadsOf_trimEnd h) h, beadsOf_trimEnd h⟩

theorem trimStart_stable {l : Text} (h : Stable (tokenize l)) :
    Stable (tokenize (trimStart l)) ∧ beadsOf (trimStart l) = beadsOf l :=
  ⟨stable_of_beads (beadsOf_trimStart h) h, beadsOf_trimStart h⟩

theorem gap_stable {a b w : Text} (ha : Stable (tokenize a)) (hb : Stable (tokenize b)) (hw : w.all isSpaceChar)
    (hne : w ≠ []) :
    Stable (tokenize (a ++ (w ++ b))) ∧ beadsOf (a ++ (w ++ b)) = beadsOf a ++ beadsOf b := by
  have e := beadsOf_gap ha hw hne b
  refine ⟨?_, e⟩
  rw [stable_tokenize, e, List.map_append]
  exact (stable_tokenize.mp ha).append (stable_tokenize.mp hb)

theorem stable_of_joinLines {ls : List Text} (h : Stable (tokenize (joinLines ls))) : ∀ l ∈ ls, Stable (tokenize l) := by
  match ls with
  | [] => simp
  | [l] => simpa using h
  | l :: m :: ls =>
    rw [joinLines_cons_cons] at h
    have e := solidsOf_line (flat_append_newline.mp h.flat).1 (joinLines (m :: ls))
    have hsolid : Stable (solidsOf l ++ solidsOf (joinLines (m :: ls))) := by
      rw [← e]
      exact h.of_subset fun t ht => (mem_solids.mp ht).1
    refine List.forall_mem_cons.mpr ⟨Stable.of_solids (hsolid.of_subset (List.subset_append_left _ _)), ?_⟩
    exact stable_of_joinLines (Stable.of_solids (hsolid.of_subset (List.subset_append_right _ _)))

theorem carries_splitLines {s : Text} (h : Stable (tokenize s)) : Carries (beadsOf s) (splitLines s) := by
  have hlines : ∀ l ∈ splitLines s, Stable (tokenize l) := stable_of_joinLines (by rwa [joinLines_splitLines])
  refine ⟨hlines, ?_⟩
  rw [← beadsOf_joinLines hlines, joinLines_splitLines]

/-! ## One item -/

/-- Text in front of a line that adds the beads. -/
def Bears (head : Text) (bs : List Bead) : Prop := Stable (bs.map Prod.snd) ∧ ∀ l, beadsOf (head ++ l) = bs ++ beadsOf l

theorem bears_pad (n : Nat) : Bears (pad n) [] := ⟨stable_nil, beadsOf_pad_append n⟩

theorem bears_word {a : Text} (h : Stable (tokenize a)) (n m : Nat) : Bears (pad n ++ a ++ pad (m + 1)) (beadsOf a) := by
  refine ⟨stable_tokenize.mp h, fun l => ?_⟩
  rw [List.append_assoc, List.append_assoc, beadsOf_pad_append]
  exact beadsOf_gap h (all_isSpaceChar_pad _) (by simp [pad]) l

theorem stable_text {t : Token} (hf : t.Formed) (h : Stable [t]) : Stable (tokenize t.text) ∧ tokenize t.text = [t] := by
  have e : tokenize t.text = [t] := by
    have := tokenize_text_append (s := []) hf t.stops_nil
    rwa [List.append_nil, tokenize] at this
  exact ⟨e ▸ h, e⟩

theorem stable_comma : Stable [.comma] :=
  ⟨List.forall_mem_singleton.mpr rfl, List.forall_mem_singleton.mpr rfl, List.forall_mem_singleton.mpr (Or.inr ⟨rfl, rfl⟩),
    List.forall_mem_singleton.mpr (Or.inr rfl)⟩

theorem bears_comma (n : Nat) : Bears (pad n ++ [',', ' ']) [(true, .comma)] := by
  obtain ⟨hs, e⟩ := stable_text (t := .comma) trivial stable_comma
  have := bears_word hs n 0
  rwa [show beadsOf (Token.text .comma) = [(true, .comma)] by rw [beadsOf, e]; rfl, List.append_assoc] at this

theorem Bears.line {head l : Text} {bs : List Bead} (h : Bears head bs) (hl : Stable (tokenize l)) :
    Stable (tokenize (head ++ l)) ∧ beadsOf (head ++ l) = bs ++ beadsOf l := by
  refine ⟨?_, h.2 l⟩
  rw [stable_tokenize, h.2, List.map_append]
  exact h.1.append (stable_tokenize.mp hl)

/-- The head alone on its line. -/
theorem Bears.carries {head : Text} {bs : List Bead} (h : Bears head bs) : Carries bs [trimEnd head] := by
  have hl : Stable (tokenize ([] : Text)) := by rw [tokenize]; exact stable_nil
  obtain ⟨hs, e⟩ := h.line hl
  rw [List.append_nil] at hs e
  rw [beadsOf_nil, List.append_nil] at e
  exact e ▸ Carries.map (fun _ => trimEnd_stable) (Carries.single hs)

structure Item.IsStable (i : Item) : Prop where
  bare : i = { code := i.code }
  stable : Stable (tokenize i.code)

def Item.beads (i : Item) : List Bead := beadsOf i.code

theorem carries_codeLines {head code : Text} {bs : List Bead} (h : Bears head bs) (hc : Stable (tokenize code))
    (column : Nat) :
    Carries (bs ++ beadsOf code) (codeLines head column code) := by
  have hlines := carries_splitLines hc
  unfold codeLines
  obtain ⟨l, ls, e⟩ := List.exists_cons_of_ne_nil (splitLines_ne_nil code)
  rw [e] at hlines ⊢
  obtain ⟨hl, hls⟩ := List.forall_mem_cons.mp hlines.1
  obtain ⟨hs, el⟩ := h.line hl
  have hrest : Carries (ls.flatMap beadsOf) (ls.map (pad column ++ ·)) :=
    Carries.map (fun _ => pad_stable column) ⟨hls, rfl⟩
  have := (Carries.single hs).append hrest
  rwa [el, List.append_assoc, ← List.flatMap_cons, hlines.2] at this

theorem carries_closeLast {bs : List Bead} {ls : List Text} (h : Carries bs ls) (hne : ls ≠ []) :
    Carries bs (closeLast [] none ls) ∧ ∃ gap, Carries (bs ++ [(gap, .comma)]) (closeLast [','] none ls) := by
  obtain ⟨ls, l, rfl⟩ := (List.eq_nil_or_concat ls).resolve_left hne
  rw [List.concat_eq_append] at h ⊢
  obtain ⟨hls, hl⟩ := List.forall_mem_append.mp h.1
  have hl : Stable (tokenize l) := hl l List.mem_cons_self
  rw [closeLast_append, closeLast_append]
  refine ⟨by simpa using h, gapBehind true (tokenize l), ?_⟩
  have hcomma : tokenize [','] = [.comma] := (stable_text (t := .comma) trivial stable_comma).2
  have htokens : tokenize (l ++ [',']) = tokenize l ++ [.comma] := by
    rw [tokenize_break hl (by decide) (by decide), hcomma]
  have hs : Stable (tokenize (l ++ [','])) := by
    rw [htokens]
    exact hl.append stable_comma
  have hbeads : beadsOf (l ++ [',']) = beadsOf l ++ [(gapBehind true (tokenize l), .comma)] := by
    rw [beadsOf, htokens, beads_append]
    rfl
  have := Carries.append ⟨hls, rfl⟩ (Carries.single hs)
  rw [hbeads, ← List.append_assoc] at this
  have e : ls.flatMap beadsOf ++ beadsOf l = bs := by
    rw [← h.2]
    simp
  rwa [e] at this

theorem Spot.lines_bare_item {s : Spot} {i : Item} (h : i.IsStable) (suffix : Text) :
    s.lines suffix i = (closeLast suffix none (codeLines s.head s.column i.code)).map trimEnd := by
  rw [h.bare]
  simp [Spot.lines, commentsAt]

section
variable {s : Spot} {bs : List Bead} (hs : Bears s.head bs) {i : Item} (hi : i.IsStable)
include hs hi

theorem Spot.carries_lines : Carries (bs ++ i.beads) (s.lines [] i) := by
  rw [Spot.lines_bare_item hi]
  exact Carries.map (fun _ => trimEnd_stable) (carries_closeLast (carries_codeLines hs hi.stable _)
    (codeLines_ne_nil _ _ _)).1

theorem Spot.carries_lines_comma : ∃ gap, Carries (bs ++ i.beads ++ [(gap, .comma)]) (s.lines [','] i) := by
  rw [Spot.lines_bare_item hi]
  obtain ⟨gap, h⟩ := (carries_closeLast (carries_codeLines hs hi.stable s.column) (codeLines_ne_nil _ _ _)).2
  exact ⟨gap, Carries.map (fun _ => trimEnd_stable) h⟩

end

/-! ## Lists -/

/-- Beads of several items with a comma between two of them. -/
inductive Strung : List (List Bead) → List Bead → Prop
  | nil : Strung [] []
  | one (bs : List Bead) : Strung [bs] bs
  | more (bs : List Bead) (gap : Bool) {cs : List Bead} {css : List (List Bead)} {l : List Bead} : Strung (cs :: css) l →
      Strung (bs :: cs :: css) (bs ++ (gap, .comma) :: l)

theorem carries_laterItems_before (rest : Nat) {items : List Item} (h : ∀ i ∈ items, i.IsStable) :
    Carries (items.flatMap fun i => (true, .comma) :: i.beads) (laterItems .before rest items) := by
  induction items with
  | nil => exact Carries.nil
  | cons i is ih =>
    have hi := Spot.carries_lines (s := { head := pad (rest - 2) ++ [',', ' '], column := rest }) (bears_comma _)
      (h i List.mem_cons_self)
    have := hi.append (ih fun j hj => h j (List.mem_cons_of_mem i hj))
    simpa [laterItems] using this

theorem strung_before (bs : List Bead) (css : List (List Bead)) :
    Strung (bs :: css) (bs ++ css.flatMap fun cs => (true, .comma) :: cs) := by
  induction css generalizing bs with
  | nil => simpa using Strung.one bs
  | cons cs css ih => simpa using Strung.more bs true (ih cs)

theorem carries_laterItems_after {s : Spot} {bs : List Bead} (hs : Bears s.head bs) (rest : Nat) {i : Item}
    {items : List Item}
    (h : ∀ j ∈ i :: items, j.IsStable) : ∃ l, Strung ((i :: items).map Item.beads) l ∧
      Carries (bs ++ l) (s.lines (if items ≠ [] then [','] else []) i ++ laterItems .after rest items) := by
  induction items generalizing s bs i with
  | nil =>
    have := Spot.carries_lines hs (h i List.mem_cons_self)
    exact ⟨i.beads, .one _, by simpa [laterItems] using this⟩
  | cons j js ih =>
    obtain ⟨gap, hi⟩ := Spot.carries_lines_comma hs (h i List.mem_cons_self)
    obtain ⟨l, hl, hc⟩ := ih (s := { head := pad rest, column := rest }) (bears_pad rest)
      fun k hk => h k (List.mem_cons_of_mem i hk)
    refine ⟨i.beads ++ (gap, .comma) :: l, .more _ gap hl, ?_⟩
    have := hi.append hc
    simpa [laterItems] using this

theorem carries_commaList {s : ListShape} {bs : List Bead} (hs : Bears s.head bs) (comma : CommaPlace) {items : List Item}
    (h : ∀ i ∈ items, i.IsStable) (hne : items ≠ [] ∨ bs = []) :
    ∃ l, Strung (items.map Item.beads) l ∧ Carries (bs ++ l) (commaList comma s items) := by
  cases items with
  | nil =>
    obtain rfl := hne.resolve_left (by simp)
    exact ⟨[], .nil, Carries.nil⟩
  | cons i is =>
    cases comma with
    | before =>
      have hi := Spot.carries_lines (s := s.spot (if is = [] then s.first else s.rest)) hs (h i List.mem_cons_self)
      have := hi.append (carries_laterItems_before s.rest fun j hj => h j (List.mem_cons_of_mem i hj))
      refine ⟨_, strung_before i.beads (is.map Item.beads), ?_⟩
      simpa [commaList, List.flatMap_map] using this
    | after =>
      obtain ⟨l, hl, hc⟩ := carries_laterItems_after (s := s.spot (if is = [] then s.first else s.rest)) hs s.rest h
      exact ⟨l, hl, by simpa [commaList] using hc⟩

/-! ## Predicates -/

/-- The beads of a condition, with a gap behind its AND or OR when it is pulled
to the left. -/
def Item.conditionBeads (align : Bool) (i : Item) : List Bead :=
  match (if align then i.splitOperator else none) with
  | some (operator, code) => beadsOf operator ++ beadsOf code
  | none => i.beads

def predicateBeads (align : Bool) : List Item → List Bead
  | [] => []
  | i :: is => i.beads ++ is.flatMap (Item.conditionBeads align)

theorem Item.splitOperator_stable {i : Item} (h : i.IsStable) {operator code : Text}
    (hs : i.splitOperator = some (operator, code)) :
    ∃ t ts, tokenize i.code = t :: ts ∧ t.text = operator ∧ (t.isKeyword .AND || t.isKeyword .OR) ∧
      Stable (tokenize operator) ∧ tokenize operator = [t] ∧ Stable (tokenize code) ∧
      tokenize code = ts.dropWhile Token.isSpace := by
  unfold Item.splitOperator at hs
  split at hs
  · next t ts e =>
    split at hs
    · next hk =>
      cases hs
      have hstable := h.stable
      rw [e] at hstable
      have hl := lexed_tokenize i.code
      rw [e] at hl
      have hts : Lexed ts := (show Lexed ([t] ++ ts) from hl).of_append.2
      have hsts : Stable ts := hstable.of_subset (List.subset_cons_self t ts)
      obtain ⟨hst, et⟩ := stable_text (hl.formed List.mem_cons_self) (hstable.of_subset (by simp))
      have ecode := tokenize_trimStart hts hsts
      refine ⟨t, ts, e, rfl, hk, hst, et, ?_, ecode⟩
      rw [ecode]
      exact hsts.of_subset (List.dropWhile_suffix _).subset
    · cases hs
  · cases hs

theorem carries_laterCondition (align : Bool) (rest : Nat) {i : Item} (h : i.IsStable) :
    Carries (i.conditionBeads align) (laterCondition align rest i) := by
  unfold laterCondition Item.conditionBeads
  cases e : (if align then i.splitOperator else none) with
  | some p =>
    obtain ⟨operator, code⟩ := p
    have e : i.splitOperator = some (operator, code) := by
      split at e
      · exact e
      · cases e
    obtain ⟨t, ts, -, -, -, hop, -, hcode, -⟩ := i.splitOperator_stable h e
    have hbare : ({ i with code } : Item).IsStable := ⟨by rw [h.bare], hcode⟩
    exact Spot.carries_lines (s := ⟨pad (rest - (operator.length + 1)) ++ operator ++ [' '], false, rest, rest⟩)
      (bears_word hop _ 0) hbare
  | none => exact Spot.carries_lines (s := { head := pad rest, column := rest }) (bears_pad rest) h

theorem carries_conditionList {s : ListShape} {bs : List Bead} (hs : Bears s.head bs) (align : Bool) {items : List Item}
    (h : ∀ i ∈ items, i.IsStable) (hne : items ≠ [] ∨ bs = []) :
    Carries (bs ++ predicateBeads align items) (conditionList align s items) := by
  cases items with
  | nil =>
    obtain rfl := hne.resolve_left (by simp)
    exact Carries.nil
  | cons i is =>
    have hlater : Carries (is.flatMap (Item.conditionBeads align)) (is.flatMap (laterCondition align s.rest)) := by
      have his : ∀ j ∈ is, j.IsStable := fun j hj => h j (List.mem_cons_of_mem i hj)
      clear hne h
      induction is with
      | nil => exact Carries.nil
      | cons j js ih =>
        exact (carries_laterCondition align s.rest (his j List.mem_cons_self)).append
          (ih fun k hk => his k (List.mem_cons_of_mem j hk))
    have := (Spot.carries_lines (s := s.spot s.first) hs (h i List.mem_cons_self)).append hlater
    simpa [conditionList, predicateBeads] using this

/-! ## Bodies -/

structure Join.IsStable (j : Join) : Prop where
  operator : Stable (tokenize j.operator)
  table : j.table.IsStable
  on : ∀ on ∈ j.on, Stable (tokenize on)
  conditions : ∀ i ∈ j.conditions, i.IsStable

def Body.IsStable : Body → Prop
  | .selection modifiers items => (∀ m ∈ modifiers, Stable (tokenize m)) ∧ ∀ i ∈ items, i.IsStable
  | .list items => ∀ i ∈ items, i.IsStable
  | .conditions items => ∀ i ∈ items, i.IsStable
  | .sources s => s.table.IsStable ∧ ∀ j ∈ s.joins, j.IsStable

def Join.beads (align : Bool) (j : Join) : List Bead :=
  beadsOf j.operator ++ j.table.beads ++ match j.on with
    | none => []
    | some on => beadsOf on ++ predicateBeads align j.conditions

def Body.Strand (align : Bool) : Body → List Bead → Prop
  | .selection modifiers items, bs => ∃ l, Strung (items.map Item.beads) l ∧ bs = modifiers.elim [] beadsOf ++ l
  | .list items, bs => Strung (items.map Item.beads) bs
  | .conditions items, bs => bs = predicateBeads align items
  | .sources s, bs => bs = s.table.beads ++ s.joins.flatMap (Join.beads align)

theorem carries_joins {align : Bool} {f : Join → List Text} (hf : ∀ {j : Join}, j.IsStable → Carries (j.beads align) (f j))
    {joins : List Join} (h : ∀ j ∈ joins, j.IsStable) : Carries (joins.flatMap (Join.beads align)) (joins.flatMap f) := by
  induction joins with
  | nil => exact Carries.nil
  | cons j js ih => exact (hf (h j List.mem_cons_self)).append (ih fun k hk => h k (List.mem_cons_of_mem j hk))

section
variable {keyword : Text} (hk : Stable (tokenize keyword))
include hk

theorem carries_keyword : Carries (beadsOf keyword) [trimEnd keyword] :=
  Carries.map (fun _ => trimEnd_stable) (Carries.single hk)

theorem carries_modifiers {m : Text} (hm : Stable (tokenize m)) :
    Carries (beadsOf keyword ++ beadsOf m) [trimEnd (keyword ++ ' ' :: m)] := by
  obtain ⟨hs, e⟩ := gap_stable hk hm (w := [' ']) rfl (List.cons_ne_nil _ _)
  exact e ▸ Carries.map (fun _ => trimEnd_stable) (Carries.single hs)

theorem carries_selection (comma : CommaPlace) {modifiers : Option Text} {items : List Item} {below : List Text}
    (hb : ∃ l, Strung (items.map Item.beads) l ∧ Carries l below) (inline : Bool) (rest : Nat) :
    (Body.selection modifiers items).IsStable → ∃ bs, (Body.selection modifiers items).Strand false bs ∧
      Carries (beadsOf keyword ++ bs)
      (match modifiers with
      | some m => trimEnd (keyword ++ ' ' :: m) :: below
      | none =>
        if inline && items ≠ [] then commaList comma ⟨keyword ++ [' '], true, keyword.length + 1, rest⟩ items
        else trimEnd keyword :: below) := by
  rintro ⟨hm, hi⟩
  obtain ⟨l, hl, hc⟩ := hb
  cases modifiers with
  | some m => exact ⟨_, ⟨l, hl, rfl⟩, by simpa using (carries_modifiers hk (hm m rfl)).append hc⟩
  | none =>
    simp only
    split
    · next hinline =>
      simp only [Bool.and_eq_true, decide_eq_true_eq] at hinline
      obtain ⟨l, hl, hc⟩ := carries_commaList (s := ⟨keyword ++ [' '], true, keyword.length + 1, rest⟩)
        (bears_word hk 0 0) comma hi (Or.inl hinline.2)
      exact ⟨_, ⟨l, hl, rfl⟩, hc⟩
    · exact ⟨_, ⟨l, hl, rfl⟩, (carries_keyword hk).append hc⟩

theorem carries_keywordItem (n : Nat) (column : Nat) {i : Item} (hi : i.IsStable) :
    Carries (beadsOf keyword ++ i.beads) (Spot.lines ⟨pad n ++ keyword ++ [' '], true, column, column⟩ [] i) :=
  Spot.carries_lines (s := ⟨pad n ++ keyword ++ [' '], true, column, column⟩) (bears_word hk n 0) hi

end

namespace Legacy

variable (o : Options) {keyword : Text} (hk : Stable (tokenize keyword))

theorem carries_itemsBelow {items : List Item} (h : ∀ i ∈ items, i.IsStable) :
    ∃ l, Strung (items.map Item.beads) l ∧ Carries l (itemsBelow o items) :=
  carries_commaList (bears_pad _) o.commaPlace h (Or.inr rfl)

include hk

theorem carries_predicate (column rest : Nat) {items : List Item} (h : ∀ i ∈ items, i.IsStable) :
    Carries (beadsOf keyword ++ predicateBeads false items) (predicate column keyword rest items) := by
  simp only [predicate]
  split
  · next hi =>
    subst hi
    simpa [predicateBeads, pad] using (bears_word hk column 0).carries
  · next hi => exact carries_conditionList (bears_word hk column 0) false h (Or.inl hi)

theorem carries_lines {b : Body} (h : b.IsStable) : ∃ bs, b.Strand false bs ∧
    Carries (beadsOf keyword ++ bs) (lines o keyword b) := by
  cases b with
  | selection modifiers items => exact carries_selection hk o.commaPlace (carries_itemsBelow o h.2) _ _ h
  | list items =>
    obtain ⟨l, hl, hc⟩ := carries_itemsBelow o h
    exact ⟨l, hl, (carries_keyword hk).append hc⟩
  | conditions items => exact ⟨_, rfl, carries_predicate hk 0 o.indentSize h⟩
  | sources s =>
    obtain ⟨ht, hj⟩ := h
    refine ⟨_, rfl, ?_⟩
    rw [← List.append_assoc]
    refine (carries_keywordItem hk 0 _ ht).append (carries_joins (fun {j} hj => ?_) hj)
    unfold join Join.beads
    refine (carries_keywordItem hj.operator o.indentSize _ hj.table).append ?_
    cases hon : j.on with
    | none => exact Carries.nil
    | some on => exact carries_predicate (hj.on on hon) _ _ hj.conditions

end Legacy

namespace River

variable (o : Options) {keyword : Text} (hk : Stable (tokenize keyword))

theorem carries_orAlone {s : ListShape} (hs : Bears s.head (beadsOf keyword)) {items : List Item}
    (h : ∀ i ∈ items, i.IsStable) :
    ∃ l, Strung (items.map Item.beads) l ∧ Carries (beadsOf keyword ++ l) (orAlone s (commaList o.commaPlace s items)) := by
  cases items with
  | nil => exact ⟨[], .nil, by simpa [commaList, orAlone] using hs.carries⟩
  | cons i is =>
    have hne : commaList o.commaPlace s (i :: is) ≠ [] := List.append_ne_nil_of_left_ne_nil (Spot.lines_ne_nil _ _ _) _
    rw [orAlone, if_neg hne]
    exact carries_commaList hs o.commaPlace h (Or.inl (List.cons_ne_nil _ _))

include hk

theorem carries_conditions (start : Nat) {items : List Item} (h : ∀ i ∈ items, i.IsStable) :
    Carries (beadsOf keyword ++ predicateBeads true items) (conditions start keyword items) := by
  have hs : Bears (shape start keyword).head (beadsOf keyword) := bears_word hk start 0
  unfold conditions
  cases items with
  | nil => simpa [conditionList, orAlone, predicateBeads] using hs.carries
  | cons i is =>
    have hne : conditionList true (shape start keyword) (i :: is) ≠ [] :=
      List.append_ne_nil_of_left_ne_nil (Spot.lines_ne_nil _ _ _) _
    simp only [orAlone]
    rw [if_neg hne]
    exact carries_conditionList hs true h (Or.inl (List.cons_ne_nil _ _))

theorem carries_table {i : Item} (hi : i.IsStable) : Carries (beadsOf keyword ++ i.beads) (table o keyword i) :=
  carries_keywordItem hk o.river _ hi

theorem carries_lines {b : Body} (h : b.IsStable) : ∃ bs, b.Strand true bs ∧
    Carries (beadsOf keyword ++ bs) (lines o keyword b) := by
  cases b with
  | selection modifiers items =>
    obtain ⟨hm, hi⟩ := h
    simp only [lines, selection]
    have hw : keyword.length + 1 ≤ max (o.river + 1) (keyword.length + 1) := Nat.le_max_right _ _
    generalize max (o.river + 1) (keyword.length + 1) = column at hw
    cases modifiers with
    | some m =>
      obtain ⟨l, hl, hc⟩ := carries_commaList (s := ⟨pad column, false, column, column⟩) (bears_pad column) o.commaPlace hi
        (Or.inr rfl)
      exact ⟨_, ⟨l, hl, rfl⟩, by simpa using (carries_modifiers hk (hm m rfl)).append hc⟩
    | none =>
      obtain ⟨m, rfl⟩ : ∃ m, column = keyword.length + (m + 1) := ⟨column - (keyword.length + 1), by omega⟩
      have hs : Bears (keyword ++ pad (keyword.length + (m + 1) - keyword.length)) (beadsOf keyword) := by
        rw [Nat.add_sub_cancel_left]
        exact bears_word hk 0 m
      obtain ⟨l, hl, hc⟩ := carries_orAlone o (s := ⟨_, true, keyword.length + (m + 1), keyword.length + (m + 1)⟩) hs hi
      exact ⟨_, ⟨l, hl, rfl⟩, hc⟩
  | list items => exact carries_orAlone o (bears_word hk o.river 0) h
  | conditions items => exact ⟨_, rfl, carries_conditions hk o.river h⟩
  | sources s =>
    obtain ⟨ht, hj⟩ := h
    refine ⟨_, rfl, ?_⟩
    rw [← List.append_assoc]
    refine (carries_table o hk ht).append (carries_joins (fun {j} hj => ?_) hj)
    unfold join Join.beads
    refine (carries_table o hj.operator hj.table).append ?_
    cases hon : j.on with
    | none => exact Carries.nil
    | some on => exact carries_conditions (hj.on on hon) _ hj.conditions

end River

namespace Indent

variable (o : Options) {keyword : Text} (hk : Stable (tokenize keyword))

theorem carries_itemsBelow {items : List Item} (h : ∀ i ∈ items, i.IsStable) :
    ∃ l, Strung (items.map Item.beads) l ∧ Carries l (itemsBelow o items) :=
  carries_commaList (bears_pad _) o.commaPlace h (Or.inr rfl)

theorem carries_conditionsBelow (column : Nat) {items : List Item} (h : ∀ i ∈ items, i.IsStable) :
    Carries (predicateBeads false items) (conditionsBelow column items) :=
  carries_conditionList (bears_pad _) false h (Or.inr rfl)

include hk

theorem carries_lines {b : Body} (h : b.IsStable) : ∃ bs, b.Strand false bs ∧
    Carries (beadsOf keyword ++ bs) (lines o keyword b) := by
  cases b with
  | selection modifiers items => exact carries_selection hk o.commaPlace (carries_itemsBelow o h.2) _ _ h
  | list items =>
    obtain ⟨l, hl, hc⟩ := carries_itemsBelow o h
    exact ⟨l, hl, (carries_keyword hk).append hc⟩
  | conditions items => exact ⟨_, rfl, (carries_keyword hk).append (carries_conditionsBelow o.indentSize h)⟩
  | sources s =>
    obtain ⟨ht, hj⟩ := h
    refine ⟨_, rfl, ?_⟩
    have htable := Spot.carries_lines (s := { head := pad o.indentSize, column := o.indentSize }) (bears_pad _) ht
    refine (carries_keyword hk).append (htable.append (carries_joins (fun {j} hj => ?_) hj))
    unfold join Join.beads
    refine (carries_keywordItem hj.operator o.indentSize _ hj.table).append ?_
    cases hon : j.on with
    | none => exact Carries.nil
    | some on =>
      have hline : Carries (beadsOf on) [trimEnd (pad (o.indentSize * 2) ++ on)] :=
        Carries.map (f := fun l => trimEnd (pad (o.indentSize * 2) ++ l))
          (fun l hl => by
            obtain ⟨hs, e⟩ := pad_stable (o.indentSize * 2) hl
            exact ⟨(trimEnd_stable hs).1, (trimEnd_stable hs).2.trans e⟩)
          (Carries.single (hj.on on hon))
      exact hline.append (carries_conditionsBelow _ hj.conditions)

end Indent

/-! ## Clauses under one another -/

def Options.pullsOperators (o : Options) : Bool := o.style = .river

theorem carries_clauseLines (o : Options) {keyword : Text} (hk : Stable (tokenize keyword)) {b : Body} (h : b.IsStable) :
    ∃ bs, b.Strand o.pullsOperators bs ∧ Carries (beadsOf keyword ++ bs) (clauseLines o keyword b) := by
  unfold clauseLines Options.pullsOperators
  cases o.style with
  | legacy => exact Legacy.carries_lines o hk h
  | river => exact River.carries_lines o hk h
  | indent => exact Indent.carries_lines o hk h

theorem carries_attach (inline : Bool) {above below : List Text} {bs cs : List Bead} (ha : Carries bs above)
    (hb : Carries cs below) :
    Carries (bs ++ cs) (attach inline above below) := by
  unfold attach
  split
  · next last l ls e =>
    split
    · obtain ⟨init, rfl⟩ := List.getLast?_eq_some_iff.mp e
      obtain ⟨hinit, hlast⟩ := List.forall_mem_append.mp ha.1
      obtain ⟨hl, hls⟩ := List.forall_mem_cons.mp hb.1
      have htrim := trimStart_stable hl
      obtain ⟨hs, e⟩ := gap_stable (hlast last List.mem_cons_self) htrim.1 (w := [' ']) rfl (List.cons_ne_nil _ _)
      have := (Carries.append ⟨hinit, rfl⟩ (Carries.single hs)).append ⟨hls, rfl⟩
      rw [show last ++ ([' '] ++ trimStart l) = last ++ ' ' :: trimStart l from rfl] at this e
      rw [e, htrim.2] at this
      have hbs : init.flatMap beadsOf ++ beadsOf last = bs := by
        rw [← ha.2]
        simp
      have hcs : beadsOf l ++ ls.flatMap beadsOf = cs := by
        rw [← hb.2]
        simp
      rw [← hbs, ← hcs]
      simpa using this
    · exact ha.append hb
  · exact ha.append hb

end SqlLayout
