import SqlLayout.Proofs.Recase
import SqlLayout.Proofs.Sections
import SqlLayout.Proofs.Splits

/-!
# Joins of a FROM clause

A FROM clause is split at its join operators, one after the other, and behind
the first ON of each join. Here a join operator is told by the place where it
ends: a JOIN outside of all parentheses, or an APPLY with a modifier in front,
together with the two modifiers that stand directly in front of it, or the one.
The split finds these and no others, and it loses nothing
(`sources_hold_tokens`).
-/

namespace SqlLayout

/-! ## Join operators by place -/

def Token.isJoinModifier (t : Token) : Bool := t.keyword.any Keyword.isJoinModifier

/-- The join operator that ends at `t`. The tokens in front of `t`, the nearest
one first, are `before`. -/
def operatorAt (n : Nesting) (before : List Token) (t : Token) : Option Text :=
  let modifiers := (before.takeWhile Token.isJoinModifier).take 2
  let words := [' '].intercalate ((t :: modifiers).reverse.map Token.text)
  match n.topKeyword t with
  | some .JOIN => some words
  | some .APPLY => if modifiers = [] then none else some words
  | _ => none

def joinOperators (n : Nesting) (before : List Token) : List Token → List Text
  | [] => []
  | t :: us => (operatorAt n before t).toList ++ joinOperators (n.step t) (t :: before) us

example : joinOperators {} [] (solidsOf "a left inner outer join (b join c) cross apply left(d)".toList) =
    ["inner outer join".toList, "cross apply".toList] := by decide +kernel

theorem operatorAt_congr {n m : Nesting} (h : n.depth = m.depth) {b b' : List Token}
    (hb : b.takeWhile Token.isJoinModifier = b'.takeWhile Token.isJoinModifier) (t : Token) :
    operatorAt n b t = operatorAt m b' t := by
  rw [operatorAt, operatorAt, hb, Nesting.topKeyword_congr h]

theorem joinOperators_congr {n m : Nesting} (h : n.depth = m.depth) {b b' : List Token}
    (hb : b.takeWhile Token.isJoinModifier = b'.takeWhile Token.isJoinModifier) (us : List Token) :
    joinOperators n b us = joinOperators m b' us := by
  induction us generalizing n m b b' with
  | nil => rfl
  | cons t us ih =>
    have hcons : (t :: b).takeWhile Token.isJoinModifier = (t :: b').takeWhile Token.isJoinModifier := by
      rw [List.takeWhile_cons, List.takeWhile_cons, hb]
    rw [joinOperators, joinOperators, operatorAt_congr h hb, ih (Nesting.depth_step h t) hcons]

/-! Comments are no part of a join operator. -/

@[simp] theorem Token.keyword_clip (t : Token) : t.clip.keyword = t.keyword := by cases t <;> rfl

@[simp] theorem Nesting.step_clip (n : Nesting) (t : Token) : n.step t.clip = n.step t := by cases t <;> rfl

@[simp] theorem Nesting.topKeyword_clip (n : Nesting) (t : Token) : n.topKeyword t.clip = n.topKeyword t := by
  simp [topKeyword]

theorem Token.clip_of_keyword {t : Token} {k : Keyword} (h : t.keyword = some k) : t.clip = t := by
  cases t <;> first | rfl | cases h

theorem operatorAt_clip (n : Nesting) (before : List Token) (t : Token) :
    operatorAt n (before.map Token.clip) t.clip = operatorAt n before t := by
  have hrun : (before.map Token.clip).takeWhile Token.isJoinModifier = before.takeWhile Token.isJoinModifier := by
    induction before with
    | nil => rfl
    | cons u us ih =>
      rw [List.map_cons, List.takeWhile_cons, List.takeWhile_cons, ih, Token.isJoinModifier, Token.keyword_clip]
      cases hk : u.keyword with
      | none => simp [Token.isJoinModifier, hk]
      | some k => simp [Token.isJoinModifier, hk, Token.clip_of_keyword hk]
  unfold operatorAt
  rw [hrun, Nesting.topKeyword_clip]
  cases hk : n.topKeyword t with
  | none => rfl
  | some k => rw [Token.clip_of_keyword (Nesting.topKeyword_eq_some.mp hk).2]

theorem joinOperators_clip (n : Nesting) (before us : List Token) :
    joinOperators n (before.map Token.clip) (us.map Token.clip) = joinOperators n before us := by
  induction us generalizing n before with
  | nil => rfl
  | cons t us ih =>
    rw [List.map_cons, joinOperators, joinOperators, operatorAt_clip, Nesting.step_clip, ← ih (n.step t) (t :: before)]
    rfl

/-! ## Reading one operator -/

section
variable {m : Nat} {t : Token} {ts : List Token}

theorem joinOperator_join (h : t.keyword = some .JOIN) : joinOperator m (t :: ts) = some ([t.text], ts) := by
  rw [joinOperator.eq_def]
  simp only [h]

theorem joinOperator_apply (h : t.keyword = some .APPLY) :
    joinOperator m (t :: ts) = if 0 < m then some ([t.text], ts) else none := by
  rw [joinOperator.eq_def]
  simp only [h]

theorem joinOperator_plain (h : t.keyword = none) : joinOperator m (t :: ts) = none := by
  rw [joinOperator.eq_def]
  simp only [h]

theorem joinOperator_modifier (h : t.isJoinModifier) (hm : m < 2) (w : Text) :
    joinOperator m (t :: .whitespace w :: ts) = (joinOperator (m + 1) ts).map (Prod.map (t.text :: ·) id) := by
  obtain ⟨k, hk, hmod⟩ := (Option.any_eq_true _ _).mp h
  rw [joinOperator, hk]
  cases k <;> first
    | (cases hmod; done)
    | simp [Keyword.isJoinModifier, hm]

end

theorem joinOperator_count {m : Nat} {ts rest : List Token} {ws : List Text}
    (h : joinOperator m ts = some (ws, rest)) (hm : m ≤ 2) : 1 ≤ ws.length ∧ m + ws.length ≤ 3 := by
  fun_induction joinOperator m ts generalizing ws with
  | case2 | case3 => cases h; simp; omega
  | case5 m t k _ _ _ hk w us ih =>
    obtain ⟨⟨vs, b⟩, e, hab⟩ := Option.map_eq_some_iff.mp h
    cases hab
    have hlt : m < 2 := by simpa using (Bool.and_eq_true_iff.mp hk).2
    have := ih e (by omega)
    simp only [List.length_cons]
    omega
  | _ => cases h

/-- With another modifier in front, an operator that has room for it is read
the same way. -/
theorem joinOperator_succ {m : Nat} {ts rest : List Token} {ws : List Text}
    (h : joinOperator m ts = some (ws, rest)) (hw : m + ws.length ≤ 2) : joinOperator (m + 1) ts = some (ws, rest) := by
  fun_induction joinOperator m ts generalizing ws with
  | case2 m t ts hk => cases h; exact joinOperator_join hk
  | case3 m t ts hk => cases h; rw [joinOperator_apply hk, if_pos m.succ_pos]
  | case5 m t k hj ha hk hmod w us ih =>
    obtain ⟨⟨vs, b⟩, e, hab⟩ := Option.map_eq_some_iff.mp h
    cases hab
    obtain ⟨hmod, hlt⟩ := Bool.and_eq_true_iff.mp hmod
    have hlt : m < 2 := by simpa using hlt
    have hvs := (joinOperator_count e (by omega)).1
    simp only [List.length_cons] at hw
    rw [joinOperator_modifier (by simp [Token.isJoinModifier, hk, hmod]) (by omega), ih e (by omega)]
    rfl
  | _ => cases h

/-- The operator that starts at a place is the one that ends where it ends, if
no modifier too many stands in front. -/
theorem joinOperators_of_operator {m : Nat} {ts rest : List Token} {ws : List Text}
    (h : joinOperator m ts = some (ws, rest)) {n : Nesting} (hn : n.depth = 0) (ms : List Token) {b : List Token} (hm : ms.length = m)
    (hms : ∀ t ∈ ms, t.isJoinModifier) (hm2 : m ≤ 2) (hb : m + ws.length = 3 ∨ b.takeWhile Token.isJoinModifier = []) :
    ∃ b', b'.takeWhile Token.isJoinModifier = [] ∧ joinOperators n (ms ++ b) (solids ts) =
      [' '].intercalate (ms.reverse.map Token.text ++ ws) :: joinOperators n b' (solids rest) := by
  have hmodifiers : ∀ {ms : List Token} {m}, ms.length = m → (∀ t ∈ ms, t.isJoinModifier) → m ≤ 2 →
      (m + 1 = 3 ∨ b.takeWhile Token.isJoinModifier = []) → ((ms ++ b).takeWhile Token.isJoinModifier).take 2 = ms := by
    intro ms m hm hms hm2 hb
    rw [List.takeWhile_append_of_pos hms]
    rcases hb with hb | hb
    · exact List.take_left' (by omega)
    · rw [hb, List.append_nil, List.take_of_length_le (by omega)]
  fun_induction joinOperator m ts generalizing ws ms with
  | case2 m t ts hk =>
    cases h
    have hs : t.isSpace = false := by cases t <;> first | rfl | cases hk
    refine ⟨t :: (ms ++ b), by simp [Token.isJoinModifier, hk, Keyword.isJoinModifier], ?_⟩
    rw [solids_cons, hs, if_neg (by decide), joinOperators, Nesting.step_of_keyword hk, operatorAt,
      hmodifiers hm hms hm2 hb, Nesting.topKeyword_eq_some.mpr ⟨hn, hk⟩]
    simp
  | case3 m t ts hk hpos =>
    cases h
    have hs : t.isSpace = false := by cases t <;> first | rfl | cases hk
    have hne : ms ≠ [] := by rintro rfl; simp at hm; omega
    refine ⟨t :: (ms ++ b), by simp [Token.isJoinModifier, hk, Keyword.isJoinModifier], ?_⟩
    rw [solids_cons, hs, if_neg (by decide), joinOperators, Nesting.step_of_keyword hk, operatorAt,
      hmodifiers hm hms hm2 hb, Nesting.topKeyword_eq_some.mpr ⟨hn, hk⟩]
    simp [hne]
  | case5 m t k hj ha hk hmod w us ih =>
    obtain ⟨⟨vs, r⟩, e, hab⟩ := Option.map_eq_some_iff.mp h
    cases hab
    obtain ⟨hmod, hlt⟩ := Bool.and_eq_true_iff.mp hmod
    have hlt : m < 2 := by simpa using hlt
    have hs : t.isSpace = false := by cases t <;> first | rfl | cases hk
    have hnone : operatorAt n (ms ++ b) t = none := by
      rw [operatorAt, Nesting.topKeyword_eq_some.mpr ⟨hn, hk⟩]
      cases k <;> first | rfl | cases hmod
    obtain ⟨b', hb', e⟩ := ih e (t :: ms) (by simp [hm])
      (by simpa [Token.isJoinModifier, hk, hmod] using hms) (by omega)
      (hb.imp_left fun h => by simp only [List.length_cons] at h; omega)
    refine ⟨b', hb', ?_⟩
    have hspace : solids (.whitespace w :: us) = solids us := rfl
    rw [solids_cons, hs, if_neg (by decide), hspace, joinOperators, Nesting.step_of_keyword hk, hnone,
      ← List.cons_append, e]
    simp
  | _ => cases h

/-! ## The split at the operators -/

/-- No operator that starts among the modifiers in front goes on. -/
def Inert (before ts : List Token) : Prop :=
  ∀ m, 0 < m → m ≤ 2 → m ≤ (before.takeWhile Token.isJoinModifier).length →
    joinOperator m (ts.dropWhile Token.isSpace) = none

theorem Inert.of_run {before : List Token} (h : before.takeWhile Token.isJoinModifier = []) (ts : List Token) :
    Inert before ts := fun m hm _ hle => by
  rw [h, List.length_nil] at hle
  omega

theorem joinOperator_rest {m : Nat} (hm : m < 2) {t : Token} {ts : List Token} (hl : Lexed (t :: ts))
    (ht : t.isJoinModifier) (h : joinOperator m (t :: ts) = none) :
    joinOperator (m + 1) (ts.dropWhile Token.isSpace) = none := by
  obtain ⟨-, hstop, hrest⟩ := hl
  cases ts with
  | nil => rfl
  | cons u us =>
    cases hu : u.isSpace with
    | true =>
      obtain ⟨w, rfl⟩ := Token.eq_whitespace hu
      have e : joinOperator (m + 1) us = none := by
        rw [joinOperator_modifier ht hm] at h
        simpa using h
      have hus : us.dropWhile Token.isSpace = us := by
        cases us with
        | nil => rfl
        | cons v vs =>
          refine List.dropWhile_cons_of_neg fun hv => ?_
          -- two tokens of space would be one
          obtain ⟨x, rfl⟩ := Token.eq_whitespace hv
          obtain ⟨hx, hxs⟩ := hrest.2.2.1
          obtain ⟨c, r, rfl⟩ := List.exists_cons_of_ne_nil hx
          have := hrest.2.1
          simp only [Token.Stops, spell_cons, Token.text, List.cons_append, List.head?_cons, Option.any_some] at this
          simp [(List.all_cons.symm.trans hxs |> Bool.and_eq_true_iff.mp).1] at this
      rw [List.dropWhile_cons_of_pos hu, hus, e]
    | false =>
      rw [List.dropWhile_cons_of_neg (by simp [hu])]
      -- a word does not touch a word
      have hku : u.keyword = none := by
        cases u with
        | word w =>
          have hw := word_chars hrest.1
          obtain ⟨c, r, rfl, -⟩ := hrest.1
          obtain ⟨k, hk, -⟩ := (Option.any_eq_true _ _).mp ht
          obtain ⟨x, rfl⟩ := isWord_of_isKeyword (t := t) (k := k) (by simp [Token.isKeyword, hk])
          simp only [List.all_cons, Bool.and_eq_true] at hw
          simp [Token.Stops, Token.text, hw.1] at hstop
        | _ => rfl
      exact joinOperator_plain hku

theorem Inert.cons {before ts : List Token} {t : Token} (hl : Lexed (t :: ts)) (hs : t.isSpace = false)
    (hi : Inert before (t :: ts)) (h : joinOperator 0 (t :: ts) = none) : Inert (t :: before) ts := by
  intro m hpos hm hle
  obtain ⟨m, rfl⟩ := Nat.exists_eq_succ_of_ne_zero (Nat.ne_of_gt hpos)
  cases ht : t.isJoinModifier with
  | false => simp [ht] at hle
  | true =>
    rw [List.takeWhile_cons_of_pos ht, List.length_cons] at hle
    refine joinOperator_rest (by omega) hl ht ?_
    cases m with
    | zero => exact h
    | succ m =>
      have := hi (m + 1) (by omega) (by omega) (by omega)
      rwa [List.dropWhile_cons_of_neg (by simp [hs])] at this

theorem operatorAt_none {n : Nesting} {before ts : List Token} {t : Token} (hs : t.isSpace = false)
    (hi : n.depth = 0 → Inert before (t :: ts)) (h : n.depth = 0 → joinOperator 0 (t :: ts) = none) :
    operatorAt n before t = none := by
  unfold operatorAt
  cases hk : n.topKeyword t with
  | none => rfl
  | some k =>
    obtain ⟨hn, hk⟩ := Nesting.topKeyword_eq_some.mp hk
    have h := h hn
    by_cases hj : k = .JOIN
    · rw [joinOperator_join (hj ▸ hk)] at h
      cases h
    by_cases ha : k = .APPLY
    · subst ha
      cases hrun : before.takeWhile Token.isJoinModifier with
      | nil => rfl
      | cons u us =>
        have := hi hn 1 (by decide) (by decide) (by simp [hrun])
        rw [List.dropWhile_cons_of_neg (by simp [hs])] at this
        rw [joinOperator_apply hk, if_pos Nat.one_pos] at this
        cases this
    · cases k <;> first | rfl | exact absurd rfl hj | exact absurd rfl ha

/-- The split finds the join operators, and leaves none in a part. -/
theorem joinSections_operators (n : Nesting) (before : List Token) {ts : List Token} (hl : Lexed ts)
    (hi : n.depth = 0 → Inert before ts) :
    (joinSections n ts).2.map Prod.fst = joinOperators n before (solids ts) ∧
      joinOperators n before (solids (joinSections n ts).1) = [] ∧
        ∀ p ∈ (joinSections n ts).2, joinOperators {} [] (solids p.2) = [] := by
  fun_induction joinSections n ts generalizing before with
  | case1 => simp [joinOperators]
  | case2 n t ts ws rest h hlt front later e ih =>
    have hn : n.depth = 0 := by
      by_contra hn
      simp [hn] at h
    rw [dif_pos hn] at h
    obtain ⟨-, hcount⟩ := joinOperator_count h (by decide)
    obtain ⟨-, -, hr, -⟩ := joinOperator_worded h fun u hu => hl.formed hu
    have hs : t.isSpace = false := by
      cases t with
      | whitespace w => rw [joinOperator_plain rfl] at h; cases h
      | _ => rfl
    -- three words, or no modifier in front
    have hroom : 0 + ws.length = 3 ∨ before.takeWhile Token.isJoinModifier = [] := by
      by_contra hne
      obtain ⟨hlen, hrun⟩ := not_or.mp hne
      have := hi hn 1 (by decide) (by decide) (List.length_pos_iff.mpr hrun)
      rw [List.dropWhile_cons_of_neg (by simp [hs]), joinOperator_succ h (by omega)] at this
      cases this
    obtain ⟨b', hb', e'⟩ := joinOperators_of_operator h hn [] rfl (by simp) (by decide) hroom
    obtain ⟨x, hx⟩ := hr
    obtain ⟨ih₁, ih₂, ih₃⟩ := ih b' (hx ▸ hl).of_append.2 fun _ => Inert.of_run hb' _
    rw [e] at ih₁ ih₂ ih₃
    refine ⟨?_, by simp [joinOperators], fun p hp => ?_⟩
    · rw [List.map_cons, ih₁]
      exact e'.symm
    · rcases List.mem_cons.mp hp with rfl | hp
      · rw [← ih₂]
        exact joinOperators_congr hn.symm (by simp [hb']) _
      · exact ih₃ p hp
  | case3 n t ts h front later e ih =>
    have hnone : n.depth = 0 → joinOperator 0 (t :: ts) = none := fun hn => by rwa [dif_pos hn] at h
    cases hs : t.isSpace with
    | true =>
      obtain ⟨ih₁, ih₂, ih₃⟩ := ih before hl.2.2 fun hn => by
        rw [Nesting.step_of_isSpace hs] at hn
        have := hi hn
        rwa [Inert, List.dropWhile_cons_of_pos hs] at this
      rw [e, Nesting.step_of_isSpace hs] at ih₁ ih₂
      rw [e] at ih₃
      exact ⟨by rw [solids_cons, if_pos hs]; exact ih₁, by rw [solids_cons, if_pos hs]; exact ih₂, ih₃⟩
    | false =>
      have hat := operatorAt_none hs hi hnone
      obtain ⟨ih₁, ih₂, ih₃⟩ := ih (t :: before) hl.2.2 fun hn => by
        cases ht : t.isJoinModifier with
        | false => exact Inert.of_run (by simp [ht]) _
        | true =>
          obtain ⟨k, hk, -⟩ := (Option.any_eq_true _ _).mp ht
          rw [Nesting.step_of_keyword hk] at hn
          exact Inert.cons hl hs (hi hn) (hnone hn)
      rw [e] at ih₁ ih₂ ih₃
      refine ⟨?_, ?_, ih₃⟩
      · rw [solids_cons, hs, if_neg (by decide), joinOperators, hat]
        exact ih₁
      · rw [solids_cons, hs, if_neg (by decide), joinOperators, hat]
        exact ih₂

/-! ## Parts -/

def Join.restClips (j : Join) : List Token :=
  j.table.clips ++ (j.on.toList.flatMap clipsOf ++ j.conditions.flatMap Item.clips)

def Sources.clips (s : Sources) : List Token :=
  s.table.clips ++ s.joins.flatMap fun j => clipsOf j.operator ++ j.restClips

def Onless (n : Nesting) : List Token → Prop
  | [] => True
  | t :: us => n.topKeyword t ≠ some .ON ∧ Onless (n.step t) us

theorem onless_clip (n : Nesting) (us : List Token) : Onless n (us.map Token.clip) ↔ Onless n us := by
  induction us generalizing n with
  | nil => exact Iff.rfl
  | cons t us ih => simp [Onless, ih]

theorem onless_solids_cons {n : Nesting} {t : Token} {ts : List Token} :
    Onless n (solids (t :: ts)) ↔ n.topKeyword t ≠ some .ON ∧ Onless (n.step t) (solids ts) := by
  rw [solids_cons]
  split
  · next h => simp [Nesting.topKeyword_of_isSpace h, Nesting.step_of_isSpace h]
  · exact Iff.rfl

theorem splitOn?_onless (n : Nesting) (ts : List Token) :
    match splitOn? n ts with
    | some (table, _, _) => Onless n (solids table)
    | none => Onless n (solids ts) := by
  induction ts generalizing n with
  | nil => trivial
  | cons t ts ih =>
    rw [splitOn?]
    split_ifs with h
    · trivial
    · have ih := ih (n.step t)
      cases e : splitOn? (n.step t) ts with
      | none =>
        rw [e] at ih
        exact onless_solids_cons.mpr ⟨h, ih⟩
      | some p =>
        rw [e] at ih
        exact onless_solids_cons.mpr ⟨h, ih⟩

theorem Item.clips_ofTokens {g : List Token} (hr : Readable g) : (Item.ofTokens g).clips = SqlLayout.clips g := by
  have h := clips_ofTokens? hr
  unfold ofTokens
  cases e : ofTokens? g with
  | none =>
    rw [e] at h
    rw [← h]
    simp [clips]
  | some i => simpa [e] using h

theorem clips_conditionItems {ts : List Token} (hl : Legible ts) : (conditionItems ts).flatMap Item.clips = clips ts := by
  rw [conditionItems, clips_items (conditionGroups_readable hl), (conditionGroups_flatten {} 0 false ts).2]

structure Join.Splits (j : Join) (ts : List Token) : Prop where
  rest : j.restClips = clips ts
  table : Onless {} j.table.clips
  on : ∀ on, j.on = some on → ∃ t : Token, tokenize on = [t] ∧ t.isKeyword .ON

theorem Join.splits_ofTokens (operator : Text) {ts : List Token} (hl : Legible ts) : (Join.ofTokens operator ts).Splits ts := by
  have hfirst := splitOn?_onless {} ts
  unfold Join.ofTokens
  cases e : splitOn? {} ts with
  | none =>
    rw [e] at hfirst
    refine ⟨?_, ?_, by simp⟩
    · simp [restClips, Item.clips_ofTokens hl.readable]
    · rw [Item.clips_ofTokens hl.readable]
      exact (onless_clip _ _).mpr hfirst
  | some p =>
    obtain ⟨table, on, rest⟩ := p
    rw [e] at hfirst
    obtain ⟨t, hk, rfl, rfl⟩ := splitOn?_parts e
    have htable : Legible table := hl.of_append_left
    have hft : t.Formed := hl.formed (by simp)
    have hread : tokenize t.text = [t] := by
      have := tokenize_text_append hft t.stops_nil
      rwa [List.append_nil, tokenize] at this
    refine ⟨?_, ?_, fun on h => ?_⟩
    · simp only [restClips, Item.clips_ofTokens htable.readable, clips_conditionItems hl.of_append_right.2.2,
        Option.toList_some, List.flatMap_singleton, clipsOf, hread]
      have hon : clips (t :: rest) = clips [t] ++ clips rest := clips_append [t] rest
      rw [clips_append, hon]
    · simp only [Item.clips_ofTokens htable.readable]
      exact (onless_clip _ _).mpr hfirst
    · cases h
      exact ⟨t, hread, by simp [Token.isKeyword, hk]⟩

/-! ## Nothing is lost -/

/-- The sources of a FROM clause hold its tokens. There is a join for each
join operator, and none is left inside a part. -/
structure Sources.Splits (s : Sources) (body : Text) : Prop where
  clips : s.clips = clipsOf body
  operators : s.joins.map Join.operator = joinOperators {} [] (solidsOf body)
  table : joinOperators {} [] s.table.clips = []
  rest : ∀ j ∈ s.joins, joinOperators {} [] j.restClips = []
  first : ∀ j ∈ s.joins, Onless {} j.table.clips
  on : ∀ j ∈ s.joins, ∀ on, j.on = some on → ∃ t : Token, tokenize on = [t] ∧ t.isKeyword .ON

theorem sources_hold_tokens (body : Text) : (Sources.ofTokens (tokenize body)).Splits body := by
  have hl := legible_tokenize body
  obtain ⟨etokens, hfront, hparts⟩ := joinSections_parts {} (tokenize body) fun t => formed_of_mem
  obtain ⟨eops, hbare, hbares⟩ := joinSections_operators {} [] (lexed_tokenize body) fun _ =>
    Inert.of_run rfl _
  unfold Sources.ofTokens
  generalize joinSections {} (tokenize body) = js at etokens hfront hparts eops hbare hbares
  obtain ⟨front, joins⟩ := js
  have hlf : Legible front := hl.of_infix hfront.isInfix
  have hjoin : ∀ p ∈ joins, (Join.ofTokens p.1 p.2).Splits p.2 := fun p hp =>
    Join.splits_ofTokens p.1 (hl.of_infix (hparts p hp).2)
  have hoperator : ∀ p : Text × List Token, (Join.ofTokens p.1 p.2).operator = p.1 := fun p => by
    unfold Join.ofTokens
    split <;> rfl
  have hclip : ∀ us, joinOperators {} [] (us.map Token.clip) = joinOperators {} [] us := joinOperators_clip {} []
  refine ⟨?_, ?_, ?_, fun j hj => ?_, fun j hj => ?_, fun j hj => ?_⟩
  · rw [Sources.clips, Item.clips_ofTokens hlf.readable, clipsOf, SqlLayout.clips, SqlLayout.clips, etokens,
      List.map_append, List.map_flatMap, List.flatMap_map]
    congr 1
    refine List.flatMap_congr fun p hp => ?_
    rw [hoperator, (hjoin p hp).rest, List.map_append]
    rfl
  · rw [List.map_map, solidsOf, ← eops]
    exact List.map_congr_left fun p _ => hoperator p
  · rw [Item.clips_ofTokens hlf.readable, SqlLayout.clips, hclip, hbare]
  all_goals obtain ⟨p, hp, rfl⟩ := List.mem_map.mp hj
  · rw [(hjoin p hp).rest, SqlLayout.clips, hclip, hbares p hp]
  · exact (hjoin p hp).table
  · exact (hjoin p hp).on

end SqlLayout
