import SqlLayout.Clause
import SqlLayout.Proofs.Styles

/-!
# Sections of a token list

A FROM clause is cut in front of its join operators and behind its ONs, and a
SELECT in front of its clause keywords. The parts have the tokens of the
whole, the keywords written with one blank between their words.
-/

namespace SqlLayout

theorem worded_keyword {k : Keyword} {t : Token} (hk : t.keyword = some k) (hf : t.Formed) :
    Worded t.text ∧ plainsOf t.text = [t.plain] ∧ t.isSpace = false := by
  have hw : t.isKeyword k := by simp [Token.isKeyword, hk]
  obtain ⟨w, rfl⟩ := isWord_of_isKeyword hw
  exact ⟨worded_text hf (isFlat_word hf) rfl rfl, plainsOf_text hf rfl, rfl⟩

/-! ## Joins -/

theorem joinOperator_worded {m : Nat} {ts rest : List Token} {ws : List Text}
    (h : joinOperator m ts = some (ws, rest)) (hf : ∀ t ∈ ts, t.Formed) :
    Worded ([' '].intercalate ws) ∧ solids ts = solidsOf ([' '].intercalate ws) ++ solids rest ∧
      rest <:+ ts ∧ ws ≠ [] := by
  fun_induction joinOperator m ts generalizing ws with
  | case2 m t ts hk =>
    cases h
    obtain ⟨hw, -, hs⟩ := worded_keyword hk (hf t (by simp))
    exact ⟨by simpa using hw, by simp [solids_cons, hs, solidsOf_text (hf t (by simp)) hs], List.suffix_cons _ _,
      List.cons_ne_nil _ _⟩
  | case3 m t ts hk =>
    cases h
    obtain ⟨hw, -, hs⟩ := worded_keyword hk (hf t (by simp))
    exact ⟨by simpa using hw, by simp [solids_cons, hs, solidsOf_text (hf t (by simp)) hs], List.suffix_cons _ _,
      List.cons_ne_nil _ _⟩
  | case5 m t k _ _ hk _ w us ih =>
    obtain ⟨⟨vs, b⟩, e, hab⟩ := Option.map_eq_some_iff.mp h
    cases hab
    obtain ⟨hw, -, hs⟩ := worded_keyword hk (hf t (by simp))
    obtain ⟨hv, ev, hb, hne⟩ := ih e fun t ht => hf t (by simp [ht])
    obtain ⟨v, vs, rfl⟩ := List.exists_cons_of_ne_nil hne
    obtain ⟨-, hwv⟩ := hw.blank hv
    have ei : [' '].intercalate (t.text :: v :: vs) = t.text ++ ' ' :: [' '].intercalate (v :: vs) := by
      simp [List.intercalate_cons_cons]
    refine ⟨ei ▸ hwv, ?_, hb.trans ?_, List.cons_ne_nil _ _⟩
    · rw [ei, hw.solidsOf_blank, solidsOf_text (hf t (by simp)) hs, solids_cons, solids_cons, hs, ev]
      simp [Token.isSpace]
    · exact (List.suffix_cons _ _).trans (List.suffix_cons _ _)
  | _ => cases h

theorem joinSections_parts (n : Nesting) (ts : List Token) (hf : ∀ t ∈ ts, t.Formed) :
    solids ts = solids (joinSections n ts).1 ++
        (joinSections n ts).2.flatMap (fun p => solidsOf p.1 ++ solids p.2) ∧
      (joinSections n ts).1 <+: ts ∧
        ∀ p ∈ (joinSections n ts).2, Worded p.1 ∧ p.2 <:+: ts := by
  fun_induction joinSections n ts with
  | case1 => simp
  | case2 n t ts ws rest h hlt front later e ih =>
    obtain ⟨hw, ew, hr, -⟩ := joinOperator_worded (eq_some_of_ite h) hf
    obtain ⟨ih₁, ih₂, ih₃⟩ := ih fun t ht => hf t (hr.subset ht)
    rw [e] at ih₁ ih₂ ih₃
    refine ⟨?_, List.nil_prefix, fun p hp => ?_⟩
    · rw [ew, ih₁]; simp
    · rcases List.mem_cons.mp hp with rfl | hp
      · exact ⟨hw, ih₂.isInfix.trans hr.isInfix⟩
      · exact ⟨(ih₃ p hp).1, (ih₃ p hp).2.trans hr.isInfix⟩
  | case3 n t ts h front later e ih =>
    obtain ⟨ih₁, ih₂, ih₃⟩ := ih fun t ht => hf t (by simp [ht])
    rw [e] at ih₁ ih₂ ih₃
    refine ⟨?_, by simpa using ih₂, fun p hp => ?_⟩
    · rw [solids_cons, solids_cons, ih₁]
      split <;> simp
    · exact ⟨(ih₃ p hp).1, (ih₃ p hp).2.trans (List.suffix_cons _ _).isInfix⟩

theorem splitOn?_parts {n : Nesting} {ts table rest : List Token} {on : Text}
    (h : splitOn? n ts = some (table, on, rest)) :
    ∃ t : Token, t.keyword = some .ON ∧ on = t.text ∧ ts = table ++ t :: rest := by
  induction ts generalizing n table with
  | nil => cases h
  | cons t ts ih =>
    rw [splitOn?] at h
    split at h
    · next hk =>
      cases h
      refine ⟨t, ?_, rfl, rfl⟩
      unfold Nesting.topKeyword at hk
      split at hk
      · exact hk
      · cases hk
    · obtain ⟨⟨a, b⟩, e, hab⟩ := Option.map_eq_some_iff.mp h
      cases hab
      obtain ⟨u, hu, rfl, rfl⟩ := ih e
      exact ⟨u, hu, rfl, rfl⟩

theorem Join.holds_ofTokens {operator : Text} {ts : List Token} (hw : Worded operator) (hl : Legible ts)
    (hf : Flat ts) (n : Nat) :
    ((Join.ofTokens operator ts).mapItems (Item.prepare n)).Holds (plainsOf operator ++ plains ts) := by
  unfold Join.ofTokens
  split
  · next table on rest e =>
    obtain ⟨t, hk, rfl, rfl⟩ := splitOn?_parts e
    obtain ⟨hon, eon, hs⟩ := worded_keyword hk (hl.formed (by simp))
    obtain ⟨ft, -, fr⟩ : Flat table ∧ Flat [t] ∧ Flat rest := by
      rw [← flat_append, ← flat_append]; exact hf
    obtain ⟨us, eus, hc⟩ := holds_conditionItems hl.of_append_right.2.2 fr n
    exact {
      operator := hw
      on := fun on h => by cases h; exact hon
      noOn := fun h => by cases h
      parts := ⟨plains table, us, by simp [plains_cons, hs, eon, eus, Join.mapItems],
        Item.shows_ofTokens hl.of_append_left.readable ft n, hc⟩ }
  · exact {
      operator := hw
      on := fun on h => by cases h
      noOn := fun _ => rfl
      parts := ⟨plains ts, [], by simp [Join.mapItems], Item.shows_ofTokens hl.readable hf n, .nil⟩ }

theorem Sources.holds_ofTokens {ts : List Token} (hl : Legible ts) (hf : Flat ts) (n : Nat) :
    ((Sources.ofTokens ts).mapItems (Item.prepare n)).Holds (plains ts) := by
  obtain ⟨e, hp, hj⟩ := joinSections_parts {} ts fun t ht => hl.formed ht
  unfold Sources.ofTokens
  generalize joinSections {} ts = js at e hp hj
  obtain ⟨front, joins⟩ := js
  refine ⟨plains front, joins.map fun p => plainsOf p.1 ++ plains p.2, ?_, ?_, ?_⟩
  · simp [plains, e, plainsOf_eq, List.flatMap_def, Function.comp_def]
  · exact Item.shows_ofTokens (hl.of_infix hp.isInfix).readable (hf.of_subset hp.subset) n
  · simp only [Sources.mapItems, List.map_map]
    clear e hp
    induction joins with
    | nil => exact .nil
    | cons p joins ih =>
      obtain ⟨hw, hi⟩ := hj p (by simp)
      exact .cons (Join.holds_ofTokens hw (hl.of_infix hi) (hf.of_subset hi.subset) n)
        (ih fun p hp => hj p (by simp [hp]))

/-! ## Clauses -/

theorem opens_parts {k : Keyword} {ts tokens : List Token} {kind : ClauseKind} {more : Text}
    (h : opens k ts = some (kind, more, tokens)) {t : Token} (ht : t.keyword = some k)
    (hf : ∀ u ∈ t :: ts, u.Formed) :
    Worded (t.text ++ more) ∧ solids (t :: ts) = solidsOf (t.text ++ more) ++ solids tokens ∧ tokens <:+ ts := by
  obtain ⟨hw, -, hs⟩ := worded_keyword ht (hf t (by simp))
  have e := solidsOf_text (hf t (by simp)) hs
  have alone : more = [] ∧ tokens = ts →
      Worded (t.text ++ more) ∧ solids (t :: ts) = solidsOf (t.text ++ more) ++ solids tokens ∧ tokens <:+ ts := by
    rintro ⟨rfl, rfl⟩
    exact ⟨by simpa using hw, by simp [solids_cons, hs, e], List.suffix_refl _⟩
  have withBy : ∀ {kind' u us}, ts.dropWhile Token.isSpace = u :: us →
      (if u.isKeyword .BY then some (kind', ' ' :: u.text, us) else none) = some (kind, more, tokens) →
      Worded (t.text ++ more) ∧ solids (t :: ts) = solidsOf (t.text ++ more) ++ solids tokens ∧ tokens <:+ ts := by
    intro kind' u us eu h
    split at h
    · next hk =>
      cases h
      have hsuf : u :: tokens <:+ ts := eu ▸ List.dropWhile_suffix _
      have hfu := hf u (List.mem_cons_of_mem _ (hsuf.subset (by simp)))
      obtain ⟨hu, -, hus⟩ := worded_keyword (k := .BY) (by simpa [Token.isKeyword] using hk) hfu
      refine ⟨(hw.blank hu).2, ?_, (List.suffix_cons _ _).trans hsuf⟩
      rw [hw.solidsOf_blank, e, solidsOf_text hfu hus, solids_cons, hs, ← solids_dropWhile_isSpace ts, eu, solids_cons, hus]
      rfl
    · cases h
  unfold opens at h
  cases eu : ts.dropWhile Token.isSpace with
  | nil => cases k <;> simp only [eu] at h <;> first
      | (cases h; exact alone ⟨rfl, rfl⟩)
      | cases h
  | cons u us => cases k <;> simp only [eu] at h <;> first
      | (cases h; exact alone ⟨rfl, rfl⟩)
      | exact withBy eu h
      | cases h

theorem sections_parts (n : Nesting) (ts : List Token) (hf : ∀ t ∈ ts, t.Formed) :
    solids ts = solids (sections n ts).1 ++
        (sections n ts).2.flatMap (fun s => solidsOf s.keyword ++ solids s.tokens) ∧
      (sections n ts).1 <+: ts ∧ ∀ s ∈ (sections n ts).2, Worded s.keyword ∧ s.tokens <:+: ts := by
  induction ts generalizing n with
  | nil => simp [sections]
  | cons t ts ih =>
    obtain ⟨ih₁, ih₂, ih₃⟩ := ih (n.step t) fun t ht => hf t (by simp [ht])
    rw [sections]
    generalize sections (n.step t) ts = p at ih₁ ih₂ ih₃
    obtain ⟨front, later⟩ := p
    simp only at ih₁ ih₂ ih₃ ⊢
    have hcons : solids (t :: ts) =
        solids (t :: front) ++ later.flatMap (fun s => solidsOf s.keyword ++ solids s.tokens) := by
      rw [solids_cons, solids_cons, ih₁]
      split <;> simp
    split
    · next kind more tokens h =>
      obtain ⟨k, hk, ho⟩ := Option.bind_eq_some_iff.mp h
      have hk : t.keyword = some k := by
        unfold Nesting.topKeyword at hk
        split at hk
        · exact hk
        · cases hk
      obtain ⟨hw, e, hs⟩ := opens_parts ho hk fun u hu => by
        rcases List.mem_cons.mp hu with rfl | hu
        · exact hf u (by simp)
        · exact hf u (by simp [ih₂.subset hu])
      refine ⟨?_, List.nil_prefix, fun s hs' => ?_⟩
      · rw [hcons, e]
        simp
      · rcases List.mem_cons.mp hs' with rfl | hs'
        · exact ⟨hw, (hs.isInfix.trans ih₂.isInfix).trans (List.suffix_cons _ _).isInfix⟩
        · exact ⟨(ih₃ s hs').1, (ih₃ s hs').2.trans (List.suffix_cons _ _).isInfix⟩
    · exact ⟨hcons, by simpa using ih₂, fun s hs =>
        ⟨(ih₃ s hs).1, (ih₃ s hs).2.trans (List.suffix_cons _ _).isInfix⟩⟩

end SqlLayout
