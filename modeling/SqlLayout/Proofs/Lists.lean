import SqlLayout.Item.Split
import SqlLayout.Proofs.Breaks

/-!
# Lists and predicates hold their tokens

A list is cut at its commas. The comments behind a comma on its line go in
front of it, and a comma beside a group of nothing but space is dropped. A
predicate is cut in front of its ANDs and ORs, and nothing is dropped.
-/

namespace SqlLayout

/-! ## Groups between commas -/

theorem lineComments_isPrefix (ts : List Token) : lineComments ts <+: ts := by
  unfold lineComments
  simp only
  split
  · exact List.rdropWhile_prefix _ _
  · split
    · exact (List.rdropWhile_prefix _ _).trans (List.takeWhile_prefix _)
    · exact List.nil_prefix

theorem lineComments_trivia (ts : List Token) : ∀ t ∈ lineComments ts, t.isTrivia := by
  have hall : ∀ us : List Token, (∀ t ∈ us, (t.isTrivia && !t.isNewline) = true) →
      ∀ t ∈ dropEndWhile Token.isSpace us, t.isTrivia := by
    intro us h t ht
    have := h t ((List.rdropWhile_prefix Token.isSpace us).subset ht)
    simp only [Bool.and_eq_true] at this
    exact this.1
  unfold lineComments
  simp only
  split
  · next h => exact hall ts (by simpa using h)
  · split
    · exact hall _ (List.all_eq_true.mp List.all_takeWhile)
    · simp

def withoutCommas (n : Nesting) : List Token → List Token
  | [] => []
  | t :: ts =>
    if t = .comma ∧ n.depth = 0 then withoutCommas n ts else t :: withoutCommas (n.step t) ts

theorem commaGroups_cases (n : Nesting) (ts : List Token) :
    (withoutCommas n ts = ts ∧ commaGroups n ts = [ts]) ∨ ∃ a rest, ts = a ++ .comma :: rest ∧
      withoutCommas n a = a ∧ (a.foldl Nesting.step n).depth = 0 ∧
      commaGroups n ts = (a ++ lineComments rest) ::
        commaGroups (a.foldl Nesting.step n) (rest.drop (lineComments rest).length) := by
  induction ts generalizing n with
  | nil => exact Or.inl ⟨rfl, by rw [commaGroups]⟩
  | cons t ts ih =>
    rw [commaGroups]
    split
    · next h => exact Or.inr ⟨[], ts, by rw [h.1]; rfl, rfl, h.2, rfl⟩
    · next h =>
      rcases ih (n.step t) with ⟨ew, e⟩ | ⟨a, rest, rfl, ew, hd, e⟩
      · exact Or.inl ⟨by rw [withoutCommas, if_neg h, ew], by rw [e]; rfl⟩
      · exact Or.inr ⟨t :: a, rest, rfl, by rw [withoutCommas, if_neg h, ew], hd, by rw [e]; rfl⟩

theorem commaGroups_ne_nil (n : Nesting) (ts : List Token) : commaGroups n ts ≠ [] := by
  rcases commaGroups_cases n ts with ⟨-, e⟩ | ⟨a, rest, -, -, -, e⟩ <;> rw [e] <;> exact List.cons_ne_nil _ _

theorem commaGroups_induction {P : Nesting → List Token → List (List Token) → Prop}
    (one : ∀ n ts, withoutCommas n ts = ts → P n ts [ts])
    (more : ∀ n a lc rest gs, withoutCommas n a = a → (a.foldl Nesting.step n).depth = 0 → (∀ t ∈ lc, t.isTrivia) →
      gs ≠ [] → P (a.foldl Nesting.step n) rest gs → P n (a ++ .comma :: (lc ++ rest)) ((a ++ lc) :: gs))
    (n : Nesting) (ts : List Token) : P n ts (commaGroups n ts) := by
  induction h : ts.length using Nat.strong_induction_on generalizing n ts with
  | _ m ih =>
    subst h
    rcases commaGroups_cases n ts with ⟨ew, e⟩ | ⟨a, rest, rfl, ew, hd, e⟩
    · rw [e]; exact one n ts ew
    · obtain ⟨r, hr⟩ := lineComments_isPrefix rest
      have hdrop : rest.drop (lineComments rest).length = r := by
        have := @List.drop_left _ (lineComments rest) r
        rwa [hr] at this
      rw [e, hdrop]
      have := more n a (lineComments rest) r _ ew hd (lineComments_trivia rest) (commaGroups_ne_nil _ r)
        (ih r.length (by have := congrArg List.length hr; simp at this ⊢; omega) _ r rfl)
      rwa [hr] at this

/-- The comments behind a comma can be read behind those in front of it. -/
theorem readable_group {a lc rest : List Token} (h : Legible (a ++ .comma :: (lc ++ rest)))
    (hc : ∀ t ∈ lc, t.isTrivia) : Readable (a ++ lc) := by
  obtain ⟨e₁, e₂⟩ := dropEndWhile_append_all hc a
  have ha : Legible a := h.of_append_left
  have hlc : Legible lc := h.of_append_right.2.2.of_append_left
  refine ⟨e₁ ▸ ha.readable.1, e₂ ▸ ha.readable.2.append hlc fun t ht => ?_⟩
  have htr : t.isTrivia := List.mem_rtakeWhile_imp (List.mem_of_getLast? ht)
  -- the token in front of the comma
  obtain ⟨x, hx⟩ := List.getLast?_eq_some_iff.mp ht
  obtain ⟨y, hy⟩ : takeEndWhile Token.isTrivia a <:+ a := List.rtakeWhile_suffix _ _
  rw [← hy, hx, List.append_assoc, List.append_assoc] at h
  have hs := h.of_append_right.of_append_right.2.1
  cases t with
  | whitespace w => exact Or.inl rfl
  | lineComment c => simp [Token.Stops, Token.text, Token.isSpace] at hs
  | blockComment c =>
    refine Or.inr fun hu => ?_
    have := hs.resolve_left (by simp [Token.isSpace]) hu
    simp [Token.text] at this
  | _ => simp [Token.isTrivia, Token.isSpace, Token.isComment] at htr

theorem commaGroups_readable (n : Nesting) {ts : List Token} (hl : Legible ts) :
    ∀ g ∈ commaGroups n ts, Readable g ∧ g ⊆ ts := by
  refine commaGroups_induction (P := fun _ ts gs => Legible ts → ∀ g ∈ gs, Readable g ∧ g ⊆ ts)
    (fun _ ts _ hl g hg => ?_) (fun _ a lc rest gs _ _ hlc _ ih hl g hg => ?_) n ts hl
  · obtain rfl := List.mem_singleton.mp hg
    exact ⟨hl.readable, List.Subset.refl _⟩
  · rcases List.mem_cons.mp hg with rfl | hg
    · exact ⟨readable_group hl hlc, fun t ht => by simp only [List.mem_append, List.mem_cons] at ht ⊢; tauto⟩
    · obtain ⟨hr, hs⟩ := ih hl.of_append_right.2.2.of_append_right g hg
      exact ⟨hr, fun t ht => by simp [hs ht]⟩

/-! ## Commas between groups -/

def commaed (us : List (List Token)) : List Token := [Token.comma].intercalate us

@[simp] theorem commaed_nil : commaed [] = [] := rfl

@[simp] theorem commaed_singleton (u : List Token) : commaed [u] = u := List.intercalate_singleton

theorem commaed_cons {us : List (List Token)} (u : List Token) (h : us ≠ []) :
    commaed (u :: us) = u ++ .comma :: commaed us := by
  obtain ⟨v, us, rfl⟩ := List.exists_cons_of_ne_nil h
  simp [commaed, List.intercalate_cons_cons]

theorem commaGroups_keeps (n : Nesting) (ts : List Token) :
    Keeps 0 (commaed ((commaGroups n ts).map plains)) (plains ts) := by
  refine commaGroups_induction (P := fun _ ts gs => Keeps 0 (commaed (gs.map plains)) (plains ts))
    (fun _ ts _ => by simpa using Keeps.refl _) (fun _ a lc rest gs _ _ hlc hgs ih => ?_) n ts
  have hc : Keeps 0 (plains lc ++ [.comma]) (.comma :: plains lc) :=
    (Keeps.comma_comments (List.forall_mem_singleton.mpr rfl) fun t ht => isComment_of_mem_plains hlc ht).symm
  have := (Keeps.refl (plains a)).append (hc.append ih)
  rw [List.map_cons, commaed_cons _ (by simpa using hgs)]
  simpa [plains_cons, Token.isSpace, Token.plain] using this

def filled (gs : List (List Token)) : List (List Token) := gs.filter fun g => !g.all Token.isSpace

/-- How many commas go with the groups of nothing but space. -/
def droppedCommas (gs : List (List Token)) : Nat := gs.length - max 1 (filled gs).length

theorem filled_cons (g : List Token) (gs : List (List Token)) :
    filled (g :: gs) = if g.all Token.isSpace then filled gs else g :: filled gs := by
  unfold filled
  cases h : g.all Token.isSpace <;> simp [h]

theorem length_filled_le (gs : List (List Token)) : (filled gs).length ≤ gs.length := List.length_filter_le _ _

theorem plains_eq_nil {g : List Token} (h : g.all Token.isSpace) : plains g = [] := by
  rw [plains, solids_eq_nil.mpr h]
  rfl

theorem filled_keeps {gs : List (List Token)} (h : gs ≠ []) :
    Keeps (droppedCommas gs) (commaed ((filled gs).map plains)) (commaed (gs.map plains)) := by
  induction gs with
  | nil => exact absurd rfl h
  | cons g gs ih =>
    have comma : Keeps 1 [] [Token.comma] := ⟨rfl, by simp, rfl⟩
    rcases gs with _ | ⟨g', gs⟩
    · rw [filled_cons]
      cases hg : g.all Token.isSpace with
      | true => simpa [filled, droppedCommas, hg, plains_eq_nil hg] using Keeps.refl []
      | false => simpa [filled, droppedCommas, hg] using Keeps.refl (plains g)
    · have ih := ih (List.cons_ne_nil _ _)
      generalize hgs : g' :: gs = hs at ih
      have hne : hs ≠ [] := hgs ▸ List.cons_ne_nil _ _
      have hlen : 0 < hs.length := List.length_pos_iff.mpr hne
      have hle := length_filled_le hs
      rw [List.map_cons, commaed_cons _ (by simpa using hne)]
      cases hg : g.all Token.isSpace with
      | true =>
        have e : droppedCommas (g :: hs) = 1 + droppedCommas hs := by
          simp only [droppedCommas, filled_cons, hg, ite_true, List.length_cons]
          omega
        rw [e, filled_cons, hg, plains_eq_nil hg]
        exact comma.append ih
      | false =>
        have hf : filled (g :: hs) = g :: filled hs := by simp [filled_cons, hg]
        have e : droppedCommas (g :: hs) = hs.length - (filled hs).length := by
          simp only [droppedCommas, hf, List.length_cons]
          omega
        rw [hf, e, List.map_cons]
        by_cases hn : filled hs = []
        · have e : hs.length - (filled hs).length = 0 + (1 + droppedCommas hs) := by
            simp only [droppedCommas, hn, List.length_nil]
            omega
          rw [e]
          simpa [hn] using (Keeps.refl (plains g)).append (comma.append ih)
        · have hpos := List.length_pos_iff.mpr hn
          have e : hs.length - (filled hs).length = 0 + (0 + droppedCommas hs) := by
            simp only [droppedCommas]
            omega
          rw [e, commaed_cons _ (by simpa using hn)]
          exact (Keeps.refl (plains g)).append ((Keeps.refl [.comma]).append ih)

/-- Commas with a group of nothing but space at one side. -/
def looseCommas : List (List Token) → Nat
  | g :: h :: gs => (if g.all Token.isSpace || h.all Token.isSpace then 1 else 0) + looseCommas (h :: gs)
  | _ => 0

theorem droppedCommas_le (gs : List (List Token)) : droppedCommas gs ≤ looseCommas gs := by
  induction gs with
  | nil => exact Nat.le_refl _
  | cons g gs ih =>
    rcases gs with _ | ⟨h, gs⟩
    · simp only [droppedCommas, List.length_cons, List.length_nil]
      omega
    · have hle := length_filled_le (h :: gs)
      rw [looseCommas]
      simp only [droppedCommas, List.length_cons] at ih hle ⊢
      rw [filled_cons g]
      cases hg : g.all Token.isSpace with
      | true => simp only [if_true, Bool.true_or]; omega
      | false =>
        simp only [Bool.false_eq_true, if_false, Bool.false_or, List.length_cons]
        by_cases hn : filled (h :: gs) = []
        · -- all groups behind are empty
          have hh : h.all Token.isSpace := by
            rw [filled_cons] at hn
            split at hn
            · assumption
            · cases hn
          simp only [hn, hh, if_true, List.length_nil] at ih ⊢
          omega
        · have := List.length_pos_iff.mpr hn
          omega

/-! ## Items of a list -/

def Item.Holds (i : Item) (us : List Token) : Prop := ∃ p : Parts, p.all = us ∧ i.Shows p

theorem Item.ofTokens?_eq_none {g : List Token} (hr : Readable g) :
    Item.ofTokens? g = none ↔ g.all Token.isSpace := by
  constructor
  · intro h
    simpa using isSpace_of_none hr h
  · intro h
    have hs : ∀ t ∈ g, t.isSpace := by simpa using h
    have ht : g.dropWhile Token.isTrivia = [] := by
      simpa using fun t ht => by simp [Token.isTrivia, hs t ht]
    have hc : commentLines g = [] := by
      refine List.filter_eq_nil_iff.mpr fun l hl => ?_
      obtain ⟨m, hm, rfl⟩ := List.mem_map.mp hl
      have hi := (mem_splitOnP hm).1
      have := spell_space (fun t ht => hr.formed (hi.subset ht)) fun t ht => hs t (hi.subset ht)
      have : trim (spell m) = [] := trim_eq_nil.mpr (by
        simp only [List.all_eq_true] at this ⊢
        exact fun c hc => isBlank_of_isSpaceChar (this c hc))
      simp [this]
    simp [ofTokens?, ht, hc]

theorem holds_items {gs : List (List Token)} (h : ∀ g ∈ gs, Readable g ∧ Flat g) (n : Nat) :
    List.Forall₂ Item.Holds ((gs.filterMap Item.ofTokens?).map (Item.prepare n)) ((filled gs).map plains) := by
  induction gs with
  | nil => exact .nil
  | cons g gs ih =>
    obtain ⟨hr, hf⟩ := h g (by simp)
    have ih := ih fun g hg => h g (by simp [hg])
    rw [filled_cons]
    cases e : Item.ofTokens? g with
    | none => simpa [e, (Item.ofTokens?_eq_none hr).mp e] using ih
    | some i =>
      have hg : g.all Token.isSpace = false := by
        cases hg : g.all Token.isSpace with
        | false => rfl
        | true => rw [(Item.ofTokens?_eq_none hr).mpr hg] at e; cases e
      rw [hg, List.filterMap_cons_some e]
      exact .cons (Item.shows_of_tokens hr hf e n) ih

theorem holds_listItems {ts : List Token} (hl : Legible ts) (hf : Flat ts) (n : Nat) :
    List.Forall₂ Item.Holds ((listItems ts).map (Item.prepare n)) ((filled (commaGroups {} ts)).map plains) :=
  holds_items (fun g hg => ⟨(commaGroups_readable {} hl g hg).1, hf.of_subset (commaGroups_readable {} hl g hg).2⟩) n

theorem listItems_keeps (ts : List Token) : Keeps (droppedCommas (commaGroups {} ts))
    (commaed ((filled (commaGroups {} ts)).map plains)) (plains ts) :=
  (filled_keeps (commaGroups_ne_nil {} ts)).trans (commaGroups_keeps {} ts)

/-! ## Conditions -/

theorem conditionGroups_flatten (n : Nesting) (between : Nat) (started : Bool) (ts : List Token) :
    conditionGroups n between started ts ≠ [] ∧ (conditionGroups n between started ts).flatten = ts := by
  induction ts generalizing n between started with
  | nil => exact ⟨List.cons_ne_nil _ _, rfl⟩
  | cons t ts ih =>
    obtain ⟨hne, e⟩ := ih (n.step t) (conditionStep between (n.topKeyword t)).1 (started || t.isCode)
    rw [conditionGroups]
    simp only
    split
    · exact ⟨List.cons_ne_nil _ _, by rw [List.flatten_cons, flatten_modifyHead hne, e]; rfl⟩
    · exact ⟨by simpa using hne, by rw [flatten_modifyHead hne, e]⟩

theorem flatten_filled (gs : List (List Token)) : ((filled gs).map plains).flatten = plains gs.flatten := by
  induction gs with
  | nil => rfl
  | cons g gs ih =>
    rw [filled_cons, List.flatten_cons, plains_append, ← ih]
    cases hg : g.all Token.isSpace with
    | true => simp [plains_eq_nil hg]
    | false => rfl

theorem holds_conditionItems {ts : List Token} (hl : Legible ts) (hf : Flat ts) (n : Nat) :
    ∃ us, us.flatten = plains ts ∧ List.Forall₂ Item.Holds ((conditionItems ts).map (Item.prepare n)) us := by
  have e := (conditionGroups_flatten {} 0 false ts).2
  refine ⟨_, by rw [flatten_filled, e], holds_items (fun g hg => ?_) n⟩
  obtain ⟨x, y, hxy⟩ := List.append_of_mem hg
  have hi : g <:+: ts := by
    rw [← e, hxy]
    exact ⟨x.flatten, y.flatten, by simp⟩
  exact ⟨(hl.of_infix hi).readable, hf.of_subset hi.subset⟩

end SqlLayout
