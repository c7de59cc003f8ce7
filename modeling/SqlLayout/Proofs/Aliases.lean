import SqlLayout.Proofs.Firm

/-!
# Aliases in one column

An alias is told by the place of its AS in the tokens of the code. Moving the
aliases of some items keeps the text in front of each alias up to its blank
end, and the alias, so all of them start a blank behind the widest such text,
and there is nothing to move a second time (`aliases_aligned`).
-/

namespace SqlLayout

/-! ## Places -/

theorem topAt_append (n : Nesting) (a b : List Token) (i : Nat) :
    topAt n (a ++ b) (a.length + i) = topAt (a.foldl Nesting.step n) b i := by
  induction a generalizing n with
  | nil => rw [List.nil_append, List.length_nil, Nat.zero_add, List.foldl_nil]
  | cons t a ih => rw [List.cons_append, List.length_cons, Nat.add_right_comm, topAt_cons_succ, ih, List.foldl_cons]

theorem exists_token_of_topAt {n : Nesting} {ts : List Token} {k : Nat} {w : Keyword} (h : topAt n ts k = some w) :
    ∃ t, ts.drop k = t :: ts.drop (k + 1) ∧ t.keyword = some w := by
  obtain ⟨t, ht, hw⟩ := Option.bind_eq_some_iff.mp h
  exact ⟨t, List.drop_eq_getElem?_toList_append.trans (by rw [ht]; rfl), (Nesting.topKeyword_eq_some.mp hw).2⟩

/-- The place of the alias of code on one line: the last AS outside of all
parentheses, if it is not the first token. -/
structure AliasAt (code : Text) (k : Nat) : Prop where
  line : '\n' ∉ code
  pos : 0 < k
  as : topAt {} (tokenize code) k = some .AS
  last : ∀ j, k < j → topAt {} (tokenize code) j ≠ some .AS

def textBefore (code : Text) (k : Nat) : Text := spell ((tokenize code).take k)

theorem AliasAt.unique {code : Text} {k l : Nat} (h : AliasAt code k) (h' : AliasAt code l) : k = l := by
  rcases Nat.lt_trichotomy k l with hlt | rfl | hlt
  · exact absurd h'.as (h.last l hlt)
  · rfl
  · exact absurd h.as (h'.last k hlt)

/-! ## The split finds the alias -/

theorem splitLastAs_eq_none {n : Nesting} {ts : List Token} :
    splitLastAs n ts = none ↔ ∀ j, topAt n ts j ≠ some .AS := by
  induction ts generalizing n with
  | nil => simp [splitLastAs]
  | cons t ts ih =>
    have hcons : splitLastAs n (t :: ts) = none ↔ n.topKeyword t ≠ some .AS ∧ splitLastAs (n.step t) ts = none := by
      rw [splitLastAs]
      split
      · next e => simp [e]
      · next e => simp [e]
    rw [hcons, ih]
    constructor
    · rintro ⟨ht, hts⟩ (- | j)
      · exact ht
      · exact hts j
    · exact fun h => ⟨h 0, fun j => h (j + 1)⟩

theorem splitLastAs_of_topAt {n : Nesting} {ts : List Token} {k : Nat} (h : topAt n ts k = some .AS)
    (hl : ∀ j, k < j → topAt n ts j ≠ some .AS) : splitLastAs n ts = some (ts.take k, ts.drop k) := by
  induction ts generalizing n k with
  | nil => cases h
  | cons t ts ih =>
    cases k with
    | zero =>
      have hts : splitLastAs (n.step t) ts = none := splitLastAs_eq_none.mpr fun j => hl (j + 1) (Nat.succ_pos j)
      have ht : n.topKeyword t = some .AS := h
      simp [splitLastAs, hts, ht]
    | succ k =>
      have hts := ih (n := n.step t) (k := k) h fun j hj => hl (j + 1) (Nat.succ_lt_succ hj)
      simp [splitLastAs, hts]

theorem exists_topAt_of_splitLastAs {n : Nesting} {ts : List Token} {p : List Token × List Token}
    (h : splitLastAs n ts = some p) : ∃ k, topAt n ts k = some .AS ∧ ∀ j, k < j → topAt n ts j ≠ some .AS := by
  induction ts generalizing n p with
  | nil => cases h
  | cons t ts ih =>
    cases hts : splitLastAs (n.step t) ts with
    | some q =>
      obtain ⟨k, hk, hl⟩ := ih hts
      refine ⟨k + 1, hk, fun j hj => ?_⟩
      obtain ⟨j, rfl⟩ := Nat.exists_eq_succ_of_ne_zero (Nat.ne_zero_of_lt hj)
      exact hl j (Nat.lt_of_succ_lt_succ hj)
    | none =>
      have ht : n.topKeyword t = some .AS := by
        by_contra ht
        simp [splitLastAs, hts, ht] at h
      refine ⟨0, ht, fun j hj => ?_⟩
      obtain ⟨j, rfl⟩ := Nat.exists_eq_succ_of_ne_zero hj.ne'
      exact splitLastAs_eq_none.mp hts j

theorem AliasAt.splitAlias {code : Text} {k : Nat} (h : AliasAt code k) :
    splitAlias code = some (trimEnd (textBefore code k), spell ((tokenize code).drop k)) := by
  obtain ⟨k, rfl⟩ := Nat.exists_eq_succ_of_ne_zero h.pos.ne'
  have has := h.as
  have hlast := h.last
  rw [SqlLayout.splitAlias, if_neg (by simpa using h.line), textBefore]
  cases e : tokenize code with
  | nil => simp [e] at has
  | cons t ts =>
    rw [e] at has hlast
    have has : topAt (Nesting.step {} t) ts k = some .AS := has
    have := splitLastAs_of_topAt has fun j hj => hlast (j + 1) (Nat.succ_lt_succ hj)
    simp [this]

theorem splitAlias_eq_none {code : Text} (h : ∀ k, ¬AliasAt code k) : splitAlias code = none := by
  rw [splitAlias]
  split
  · rfl
  next hn =>
  split
  · rfl
  · next t ts e =>
    rw [Option.map_eq_none_iff]
    by_contra hne
    obtain ⟨p, hp⟩ := Option.ne_none_iff_exists'.mp hne
    obtain ⟨k, hk, hl⟩ := exists_topAt_of_splitLastAs hp
    refine h (k + 1) ⟨by simpa using hn, Nat.succ_pos k, by rwa [e], fun j hj => ?_⟩
    obtain ⟨j, rfl⟩ := Nat.exists_eq_succ_of_ne_zero (Nat.ne_zero_of_lt hj)
    rw [e]
    exact hl j (Nat.lt_of_succ_lt_succ hj)

/-! ## Moving an alias -/

theorem solids_dropEndWhile (ts : List Token) : solids (dropEndWhile Token.isSpace ts) = solids ts := by
  have hspace : (takeEndWhile Token.isSpace ts).all Token.isSpace := List.all_eq_true.mpr fun t ht => List.mem_rtakeWhile_imp ht
  rw [← congrArg solids (dropEndWhile_append_takeEndWhile Token.isSpace ts), solids_append, solids_eq_nil.mpr hspace,
    List.append_nil]

section
variable {code : Text} {k : Nat} (h : AliasAt code k) (hh : hards code = 0)
include h

theorem AliasAt.tokens : Lexed ((tokenize code).take k ++ (tokenize code).drop k) ∧
    '\n' ∉ spell ((tokenize code).take k ++ (tokenize code).drop k) ∧ (tokenize code).drop k ≠ [] := by
  obtain ⟨t, ht, -⟩ := exists_token_of_topAt h.as
  rw [List.take_append_drop, spell_tokenize]
  exact ⟨lexed_tokenize code, h.line, by simp [ht]⟩

theorem AliasAt.length_take : ((tokenize code).take k).length = k := by
  obtain ⟨t, ht, -⟩ := exists_token_of_topAt h.as
  have := congrArg List.length ht
  simp only [List.length_drop, List.length_cons] at this
  rw [List.length_take]
  omega

section
include hh

theorem AliasAt.trimEnd_before :
    trimEnd (textBefore code k) = spell (dropEndWhile Token.isSpace ((tokenize code).take k)) := by
  obtain ⟨hl, hn, hne⟩ := h.tokens
  refine trimEnd_firm (fun t ht => hl.of_append.1.formed ht) fun t ht => hl.firm hne hn ?_ ht
  rwa [List.take_append_drop, spell_tokenize]

theorem AliasAt.tokenize_moved (n : Nat) :
    tokenize (trimEnd (textBefore code k) ++ pad (n + 1) ++ spell ((tokenize code).drop k)) =
      dropEndWhile Token.isSpace ((tokenize code).take k) ++
        .whitespace (pad (n + 1)) :: (tokenize code).drop k := by
  obtain ⟨hl, hn, hne⟩ := h.tokens
  obtain ⟨t, ht, hk⟩ := exists_token_of_topAt h.as
  have hws : Lexed (.whitespace (pad (n + 1)) :: (tokenize code).drop k) := by
    refine ⟨⟨List.cons_ne_nil _ _, by simp [pad, isSpaceChar]⟩, ?_, hl.of_append.2⟩
    refine stops_whitespace (fun t ht => hl.of_append.2.formed ht) ?_
    rw [ht]
    rintro u ⟨⟩
    cases t <;> first | rfl | cases hk
  obtain ⟨cut, hcut⟩ : dropEndWhile Token.isSpace ((tokenize code).take k) <+: (tokenize code).take k :=
    List.rdropWhile_prefix _ _
  have hfront : Lexed (dropEndWhile Token.isSpace ((tokenize code).take k)) :=
    (show Lexed (_ ++ cut) from hcut.symm ▸ hl.of_append.1).of_append.1
  have hlexed := hfront.append hws fun u hu => by
    have hmem : u ∈ (tokenize code).take k := hcut ▸ List.mem_append_left cut (List.mem_of_getLast? hu)
    exact Token.stops_cons (by decide) (hl.isUnterminated hne hmem) (by simp [getLast_dropEndWhile _ u hu])
      (by simp [hl.isLineComment hne hn hmem]) _
  rw [h.trimEnd_before hh, ← hlexed.tokenize_spell]
  simp [Token.text]

end

/-- Behind the blanks that are cut, a token is as far behind the alias as
before. -/
theorem AliasAt.topAt_moved (w : Text) (i : Nat) :
    topAt {} (dropEndWhile Token.isSpace ((tokenize code).take k) ++ .whitespace w :: (tokenize code).drop k)
      ((dropEndWhile Token.isSpace ((tokenize code).take k)).length + 1 + i) = topAt {} (tokenize code) (k + i) := by
  have hold := topAt_append {} ((tokenize code).take k) ((tokenize code).drop k) i
  rw [List.take_append_drop, h.length_take] at hold
  rw [Nat.add_assoc, topAt_append, Nat.add_comm 1 i, topAt_cons_succ, Nesting.step_of_isSpace rfl, hold,
    ← Nesting.foldl_solids, solids_dropEndWhile, Nesting.foldl_solids]

include hh

/-- The alias is found again where it is moved to, with the same text in front
of it up to the blanks. -/
theorem AliasAt.moved (n : Nat) {code' : Text}
    (e : code' = trimEnd (textBefore code k) ++ pad (n + 1) ++ spell ((tokenize code).drop k)) :
    ∃ k', AliasAt code' k' ∧ textBefore code' k' = trimEnd (textBefore code k) ++ pad (n + 1) ∧
      (tokenize code').drop k' = (tokenize code).drop k ∧ solidsOf code' = solidsOf code := by
  have hmoved := h.tokenize_moved hh n
  have hat := h.topAt_moved (pad (n + 1))
  rw [← e] at hmoved
  rw [← hmoved] at hat
  refine ⟨(dropEndWhile Token.isSpace ((tokenize code).take k)).length + 1, ⟨?_, Nat.succ_pos _, ?_, fun j hj => ?_⟩,
    ?_, ?_, ?_⟩
  · have hparts : '\n' ∉ textBefore code k ∧ '\n' ∉ spell ((tokenize code).drop k) := by
      have := h.tokens.2.1
      rwa [spell_append, List.mem_append, not_or] at this
    rw [e]
    simp only [List.mem_append, not_or]
    exact ⟨⟨fun hm => hparts.1 ((trimEnd_isPrefix _).subset hm), by simp [pad]⟩, hparts.2⟩
  · exact (hat 0).trans h.as
  · obtain ⟨i, rfl⟩ := Nat.exists_eq_add_of_lt hj
    rw [Nat.add_assoc _ i 1, hat]
    exact h.last _ (by omega)
  · rw [textBefore, hmoved, h.trimEnd_before hh, List.take_length_add_append]
    simp [Token.text]
  · rw [hmoved, List.drop_length_add_append, List.drop_one, List.tail_cons]
  · rw [solidsOf, solidsOf, hmoved, ← congrArg solids (List.take_append_drop k (tokenize code)), solids_append, solids_append,
      solids_cons, if_pos (by rfl), solids_dropEndWhile]

end

/-! ## One item -/

/-- What becomes of an item when the widest text in front of an alias has
`width` characters. -/
structure Item.Aligned (width : Nat) (i j : Item) : Prop where
  comments : j = { i with code := j.code }
  solids : solidsOf j.code = solidsOf i.code
  unmoved : (∀ k, ¬AliasAt i.code k) → j = i
  moved : ∀ k, AliasAt i.code k → ∃ k', AliasAt j.code k' ∧ (textBefore j.code k').length = width + 1 ∧
    trimEnd (textBefore j.code k') = trimEnd (textBefore i.code k) ∧
    (tokenize j.code).drop k' = (tokenize i.code).drop k

theorem Item.alignAlias_of_alias {i : Item} {k : Nat} (h : AliasAt i.code k) (width : Nat) :
    (i.alignAlias width).code = trimEnd (textBefore i.code k) ++ pad (width - (trimEnd (textBefore i.code k)).length + 1) ++
      spell ((tokenize i.code).drop k) := by
  rw [Item.alignAlias, h.splitAlias]

theorem Item.alignAlias_of_not_alias {i : Item} (h : ∀ k, ¬AliasAt i.code k) (width : Nat) : i.alignAlias width = i := by
  rw [Item.alignAlias, splitAlias_eq_none h]

section
variable {i : Item} (hh : hards i.code = 0) (width : Nat)
include hh

theorem Item.splitAlias_alignAlias : splitAlias (i.alignAlias width).code = splitAlias i.code := by
  by_cases h : ∃ k, AliasAt i.code k
  · obtain ⟨k, h⟩ := h
    obtain ⟨k', h', hb, hd, -⟩ := h.moved hh _ (i.alignAlias_of_alias h width)
    rw [h'.splitAlias, h.splitAlias, hb, hd, trimEnd_append_blank (by simp [pad, isBlank]), trimEnd_trimEnd]
  · rw [i.alignAlias_of_not_alias (not_exists.mp h)]

theorem Item.alignAlias_twice : (i.alignAlias width).alignAlias width = i.alignAlias width := by
  have h := i.splitAlias_alignAlias hh width
  cases e : splitAlias i.code with
  | none => rw [Item.alignAlias, h, e]
  | some p => simp only [Item.alignAlias, e] at h ⊢; rw [h]

theorem Item.aligned (hw : ∀ k, AliasAt i.code k → (trimEnd (textBefore i.code k)).length ≤ width) :
    i.Aligned width (i.alignAlias width) := by
  by_cases h : ∃ k, AliasAt i.code k
  · obtain ⟨k, h⟩ := h
    obtain ⟨k', h', hb, hd, hs⟩ := h.moved hh _ (i.alignAlias_of_alias h width)
    refine ⟨?_, hs, fun hn => absurd h (hn k), fun l hl => ⟨k', h', ?_, ?_, ?_⟩⟩
    · simp [Item.alignAlias, h.splitAlias]
    · have := hw k h
      rw [hb, List.length_append, pad, List.length_replicate]
      omega
    · rw [hb, trimEnd_append_blank (by simp [pad, isBlank]), trimEnd_trimEnd, h.unique hl]
    · rw [hd, h.unique hl]
  · have hn := not_exists.mp h
    rw [i.alignAlias_of_not_alias hn]
    exact ⟨rfl, rfl, fun _ => rfl, fun k hk => absurd hk (hn k)⟩

end

/-! ## All items -/

theorem aliasWidth_max (items : List Item) :
    (0 :: items.filterMap fun i => (splitAlias i.code).map (·.1.length)).max? = some (aliasWidth items) := List.max?_cons'

theorem length_le_aliasWidth {items : List Item} {i : Item} (hi : i ∈ items) {k : Nat} (h : AliasAt i.code k) :
    (trimEnd (textBefore i.code k)).length ≤ aliasWidth items := by
  refine (List.max?_eq_some_iff.mp (aliasWidth_max items)).2 _ (List.mem_cons_of_mem 0 (List.mem_filterMap.mpr ⟨i, hi, ?_⟩))
  rw [h.splitAlias]
  rfl

theorem exists_alias_of_splitAlias {code : Text} {p : Text × Text} (h : splitAlias code = some p) : ∃ k, AliasAt code k := by
  by_contra hn
  rw [splitAlias_eq_none (not_exists.mp hn)] at h
  cases h

theorem exists_aliasWidth {items : List Item} (h : ∃ i ∈ items, ∃ k, AliasAt i.code k) :
    ∃ i ∈ items, ∃ k, AliasAt i.code k ∧ (trimEnd (textBefore i.code k)).length = aliasWidth items := by
  rcases List.mem_cons.mp (List.max?_eq_some_iff.mp (aliasWidth_max items)).1 with h0 | hm
  · obtain ⟨i, hi, k, hk⟩ := h
    have := length_le_aliasWidth hi hk
    exact ⟨i, hi, k, hk, by omega⟩
  · obtain ⟨i, hi, hw⟩ := List.mem_filterMap.mp hm
    obtain ⟨p, hp, hw⟩ := Option.map_eq_some_iff.mp hw
    obtain ⟨k, hk⟩ := exists_alias_of_splitAlias hp
    rw [hk.splitAlias] at hp
    obtain rfl := Option.some.inj hp
    exact ⟨i, hi, k, hk, hw⟩

theorem aliasWidth_alignAliases {items : List Item} (hh : ∀ i ∈ items, hards i.code = 0) :
    aliasWidth (alignAliases items) = aliasWidth items := by
  rw [aliasWidth, alignAliases, List.filterMap_map, aliasWidth]
  congr 1
  refine List.filterMap_congr fun i hi => ?_
  rw [Function.comp_apply, i.splitAlias_alignAlias (hh i hi)]

theorem alignAliases_twice {items : List Item} (hh : ∀ i ∈ items, hards i.code = 0) :
    alignAliases (alignAliases items) = alignAliases items := by
  conv_lhs => rw [alignAliases, aliasWidth_alignAliases hh, alignAliases, List.map_map]
  exact List.map_congr_left fun i hi => i.alignAlias_twice (hh i hi) _

/-- Each alias starts a blank behind the widest text in front of one, if space
is the only blank. -/
theorem aliases_aligned (items : List Item) (hv : ∀ i ∈ items, '\x0b' ∉ i.code)
    (ha : ∀ i ∈ items, ∀ c ∈ i.code, isBlank c → c.toNat < 0x80) :
    ∃ width, List.Forall₂ (Item.Aligned width) items (alignAliases items) ∧
      (∀ i ∈ items, ∀ k, AliasAt i.code k → (trimEnd (textBefore i.code k)).length ≤ width) ∧
      ((∃ i ∈ items, ∃ k, AliasAt i.code k) → ∃ j ∈ alignAliases items, ∃ k, AliasAt j.code k ∧
        (trimEnd (textBefore j.code k)).length = width ∧
        textBefore j.code k = trimEnd (textBefore j.code k) ++ [' ']) ∧
      alignAliases (alignAliases items) = alignAliases items := by
  have hh : ∀ i ∈ items, hards i.code = 0 := fun i hi => hards_script (hv i hi) (ha i hi)
  refine ⟨aliasWidth items, ?_, fun i hi k hk => length_le_aliasWidth hi hk, fun h => ?_, alignAliases_twice hh⟩
  · rw [alignAliases, List.forall₂_map_right_iff, List.forall₂_same]
    exact fun i hi => i.aligned (hh i hi) _ fun k hk => length_le_aliasWidth hi hk
  · obtain ⟨i, hi, k, hk, hw⟩ := exists_aliasWidth h
    obtain ⟨k', hk', hb, -⟩ := hk.moved (hh i hi) _ (i.alignAlias_of_alias hk (aliasWidth items))
    have ht : trimEnd (textBefore (i.alignAlias (aliasWidth items)).code k') = trimEnd (textBefore i.code k) := by
      rw [hb, trimEnd_append_blank (by simp [pad, isBlank]), trimEnd_trimEnd]
    refine ⟨_, List.mem_map_of_mem hi, k', hk', by rw [ht, hw], ?_⟩
    rw [ht, hb, hw, Nat.sub_self]
    rfl

set_option maxRecDepth 100000 in
/-- The AS of a type is no alias, a column is counted in characters, and code
on two lines keeps its alias. -/
theorem aliases_aligned_behind_cast :
    (alignAliases [{ code := "CAST(é AS INT) as é".toList }, { code := "b AS  c".toList }, { code := "AS".toList },
        { code := "(\n) AS d".toList }]).map Item.code =
      ["CAST(é AS INT) as é".toList, "b              AS  c".toList, "AS".toList, "(\n) AS d".toList] ∧
    alignAliases (alignAliases [{ code := "CAST(é AS INT) as é".toList }, { code := "b AS  c".toList },
        { code := "AS".toList }, { code := "(\n) AS d".toList }]) =
      alignAliases [{ code := "CAST(é AS INT) as é".toList }, { code := "b AS  c".toList }, { code := "AS".toList },
        { code := "(\n) AS d".toList }] := by
  obtain ⟨-, -, -, -, h⟩ := aliases_aligned [{ code := "CAST(é AS INT) as é".toList }, { code := "b AS  c".toList },
    { code := "AS".toList }, { code := "(\n) AS d".toList }] (by decide +kernel)
    fun i hi => forall_blank (by revert i; decide +kernel)
  exact ⟨by decide +kernel, h⟩

end SqlLayout
