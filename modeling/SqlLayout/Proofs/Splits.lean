import SqlLayout.Proofs.Lists
import SqlLayout.Proofs.Toplevel

/-!
# Items hold what was split

The items of a list hold its tokens without the commas outside of all
parentheses, and the items of a predicate all of its tokens, in the order of
the text and whatever the text is (`items_hold_tokens`). Only comments change,
and only by blanks at their end.
-/

namespace SqlLayout

/-! ## Comments up to their end -/

def Token.clip : Token → Token
  | lineComment c => lineComment (trimEnd c)
  | blockComment c => blockComment (trimEnd c)
  | t => t

/-- The tokens other than space, comments without the blanks at their end. -/
def clips (ts : List Token) : List Token := (solids ts).map Token.clip

def clipsOf (s : Text) : List Token := clips (tokenize s)

@[simp] theorem clips_nil : clips [] = [] := rfl

@[simp] theorem clips_append (ts us : List Token) : clips (ts ++ us) = clips ts ++ clips us := by simp [clips]

@[simp] theorem clipsOf_nil : clipsOf [] = [] := by simp [clipsOf, tokenize]

theorem clips_eq {ts us : List Token} (h : solids ts = solids us) : clips ts = clips us := by rw [clips, h, clips]

@[simp] theorem Token.clip_clip (t : Token) : t.clip.clip = t.clip := by cases t <;> simp [clip]

@[simp] theorem Token.isSpace_clip (t : Token) : t.clip.isSpace = t.isSpace := by cases t <;> rfl

theorem Legible.clipsOf_spell {ts : List Token} (h : Legible ts) : clipsOf (spell ts) = clips ts := by
  rw [clipsOf, clips, ← solidsOf, h.solidsOf_spell, clips]

theorem takeComment_isPrefix {b p : Text} (hb : takeComment b = (b, [])) (hp : p <+: b) : takeComment p = (p, []) := by
  obtain ⟨r, rfl⟩ := hp
  have happ := takeComment_append p
  have hend := takeComment_rest (s := p)
  have hself := takeComment_self p
  generalize takeComment p = q at happ hend hself ⊢
  obtain ⟨x, y⟩ := q
  by_cases h : y = []
  · subst h
    exact Prod.ext (by simpa using happ) rfl
  -- the end of the comment would stand in front of the rest
  · rw [← happ, List.append_assoc, takeComment_append_stop hself (Or.inl (hend h))] at hb
    simp [h] at hb

theorem Token.Formed.clip {t : Token} (hf : t.Formed) (hc : t.isComment) :
    t.clip.Formed ∧ t.clip.text = trimEnd t.text ∧ trimEnd t.text ≠ [] := by
  cases t with
  | lineComment c => exact ⟨(trimEnd_lineComment hf).2, rfl, (trimEnd_lineComment hf).1⟩
  | blockComment c =>
    obtain ⟨b, rfl, hb⟩ := hf
    have e : trimEnd ('/' :: '*' :: b) = '/' :: '*' :: trimEnd b := by
      rw [trimEnd_cons (by decide), trimEnd_cons (by decide)]
    exact ⟨⟨trimEnd b, e, takeComment_isPrefix hb (trimEnd_isPrefix b)⟩, rfl, by simp [Token.text, e]⟩
  | _ => cases hc

/-! ## Trimmed comments -/

theorem isBlank_text {t : Token} (hf : t.Formed) (hs : t.isSpace) : t.text.all isBlank := by
  obtain ⟨w, rfl⟩ := Token.eq_whitespace hs
  exact List.all_eq_true.mpr fun c hc => isBlank_of_isSpaceChar (List.all_eq_true.mp hf.2 c hc)

theorem head_comment {t : Token} (hf : t.Formed) (hc : t.isComment) :
    ∃ c r, t.text = c :: r ∧ isBlank c = false := by
  cases t with
  | lineComment w => obtain ⟨b, rfl, -⟩ := hf; exact ⟨'-', '-' :: b, rfl, by decide⟩
  | blockComment w => obtain ⟨b, rfl, -⟩ := hf; exact ⟨'/', '*' :: b, rfl, by decide⟩
  | _ => cases hc

theorem trimStart_comments {ts : List Token} (hf : ∀ t ∈ ts, t.Formed) (ht : ∀ t ∈ ts, t.isTrivia) :
    trimStart (spell ts) = spell (ts.dropWhile Token.isSpace) := by
  induction ts with
  | nil => rfl
  | cons t ts ih =>
    rw [spell_cons, trimStart]
    cases hs : t.isSpace with
    | true =>
      rw [List.dropWhile_append_of_pos (by simpa using isBlank_text (hf t (by simp)) hs),
        List.dropWhile_cons_of_pos hs]
      exact ih (fun u hu => hf u (by simp [hu])) fun u hu => ht u (by simp [hu])
    | false =>
      have hc : t.isComment := by simpa [Token.isTrivia, hs] using ht t (by simp)
      obtain ⟨c, r, e, hb⟩ := head_comment (hf t (by simp)) hc
      rw [List.dropWhile_cons_of_neg (by simp [hs]), spell_cons, e, List.cons_append,
        List.dropWhile_cons_of_neg (by simp [hb])]

theorem clipsOf_trimEnd {ts : List Token} (hl : Legible ts) (ht : ∀ t ∈ ts, t.isTrivia) :
    clipsOf (trimEnd (spell ts)) = clips ts := by
  induction ts using List.reverseRecOn with
  | nil => exact clipsOf_nil
  | append_singleton ts t ih =>
    have hf : t.Formed := hl.formed (by simp)
    rw [spell_append, spell_cons, spell_nil, List.append_nil]
    cases hs : t.isSpace with
    | true =>
      rw [trimEnd_append_blank (isBlank_text hf hs), ih hl.of_append_left fun u hu => ht u (by simp [hu])]
      exact clips_eq (by simp [solids_cons, hs])
    | false =>
      have hc : t.isComment := by simpa [Token.isTrivia, hs] using ht t (by simp)
      obtain ⟨hft, e, hne⟩ := hf.clip hc
      have hl' : Legible (ts ++ [t.clip]) := hl.cut_last hft (e ▸ trimEnd_isPrefix _)
      rw [trimEnd_append hne, ← e]
      have := hl'.clipsOf_spell
      rw [spell_append, spell_cons, spell_nil, List.append_nil] at this
      rw [this]
      simp [clips, solids_cons, hs]

theorem clipsOf_trim {ts : List Token} (hl : Legible ts) (ht : ∀ t ∈ ts, t.isTrivia) :
    clipsOf (trim (spell ts)) = clips ts := by
  have hsuf := List.dropWhile_suffix (l := ts) Token.isSpace
  rw [trim, trimStart_comments (fun t h => hl.formed h) ht,
    clipsOf_trimEnd (hl.of_infix hsuf.isInfix) fun t h => ht t (hsuf.subset h)]
  exact clips_eq (solids_dropWhile_isSpace ts)

theorem clips_commentLines {ts : List Token} (hl : Legible ts) (ht : ∀ t ∈ ts, t.isTrivia) :
    (commentLines ts).flatMap clipsOf = clips ts := by
  have hlines : ∀ l ∈ ts.splitOnP Token.isNewline, clipsOf (trim (spell l)) = clips l := fun l hm => by
    obtain ⟨hi, -⟩ := mem_splitOnP hm
    exact clipsOf_trim (hl.of_infix hi) fun t h => ht t (hi.subset h)
  rw [commentLines, flatMap_filter_ne_nil clipsOf_nil, List.flatMap_map, List.flatMap_congr hlines, clips, ← solids_splitOnP, List.map_flatMap]
  rfl

theorem clips_nonempty? (s : Text) : (nonempty? s).toList.flatMap clipsOf = clipsOf s := by
  unfold nonempty?
  split
  · next h => simp [h]
  · simp

/-! ## Items -/

def Item.clips (i : Item) : List Token :=
  i.leading.flatMap clipsOf ++ (clipsOf i.code ++ (i.trailing.toList.flatMap clipsOf ++ i.following.flatMap clipsOf))

theorem Item.Cut.clips_parts {c : Item.Cut} (hc : c.Sound) (hr : Readable c.all) :
    c.item.leading.flatMap clipsOf = SqlLayout.clips c.lead ∧
      clipsOf c.item.code = SqlLayout.clips (c.near ++ c.core) ∧
      c.item.trailing.toList.flatMap clipsOf = SqlLayout.clips c.trail ∧
      c.item.following.flatMap clipsOf = SqlLayout.clips c.follow := by
  obtain ⟨hl, hb⟩ := Item.Cut.legible hc hr
  have hfront := hc.front
  have hback := hc.back
  refine ⟨clips_commentLines hl.of_append_left fun t h => hfront t (by simp [h]),
    hl.of_append_right.of_append_right.clipsOf_spell, ?_,
    clips_commentLines hb.of_append_right fun t h => hback t (by simp [h])⟩
  rw [item, clips_nonempty?, clipsOf_trim hb.of_append_left fun t h => hback t (by simp [h])]

theorem Item.Cut.clips_item {c : Item.Cut} (hc : c.Sound) (hr : Readable c.all) :
    c.item.clips = SqlLayout.clips c.all := by
  obtain ⟨hleading, hcode, htrailing, hfollowing⟩ := Item.Cut.clips_parts hc hr
  rw [Item.clips, hleading, hcode, htrailing, hfollowing]
  simp [SqlLayout.clips, Item.Cut.solids_all hc]

theorem Item.clips_ofTokens? {g : List Token} (hr : Readable g) :
    (Item.ofTokens? g).toList.flatMap Item.clips = SqlLayout.clips g := by
  by_cases ht : ∀ t ∈ g, t.isTrivia
  · have e := clips_commentLines (hr.legible_trivia ht) ht
    rw [ofTokens?_trivia ht, ← e]
    split
    · next h => simp [h]
    · simp [Item.clips]
  · obtain ⟨c, hc, rfl, e⟩ := exists_cut ht
    rw [e, Option.toList_some, List.flatMap_singleton, Item.Cut.clips_item hc hr]

theorem clips_items {gs : List (List Token)} (h : ∀ g ∈ gs, Readable g) :
    (gs.filterMap Item.ofTokens?).flatMap Item.clips = clips gs.flatten := by
  induction gs with
  | nil => rfl
  | cons g gs ih =>
    have hg := Item.clips_ofTokens? (h g (by simp))
    rw [List.flatten_cons, clips_append, ← ih fun g hm => h g (by simp [hm]), ← hg]
    cases e : Item.ofTokens? g <;> simp [e]

/-! ## Lists -/

theorem withoutCommas_congr {n m : Nesting} (h : n.depth = m.depth) (ts : List Token) :
    withoutCommas n ts = withoutCommas m ts := by
  induction ts generalizing n m with
  | nil => rfl
  | cons t ts ih => rw [withoutCommas, withoutCommas, h, ih h, ih (Nesting.depth_step h t)]

theorem withoutCommas_append (n : Nesting) (ts us : List Token) :
    withoutCommas n (ts ++ us) = withoutCommas n ts ++ withoutCommas (ts.foldl Nesting.step n) us := by
  induction ts generalizing n with
  | nil => rfl
  | cons t ts ih =>
    rw [List.cons_append, withoutCommas, withoutCommas, List.foldl_cons]
    split
    · next h =>
      rw [ih, h.1]
      rfl
    · rw [ih, List.cons_append]

theorem foldl_trivia {ts : List Token} (h : ∀ t ∈ ts, t.isTrivia) (n : Nesting) : ts.foldl Nesting.step n = n := by
  induction ts with
  | nil => rfl
  | cons t ts ih =>
    have e : n.step t = n := by
      have := h t (by simp)
      cases t <;> first | rfl | cases this
    rw [List.foldl_cons, e, ih fun u hu => h u (by simp [hu])]

theorem withoutCommas_trivia {ts : List Token} (h : ∀ t ∈ ts, t.isTrivia) (n : Nesting) : withoutCommas n ts = ts := by
  induction ts generalizing n with
  | nil => rfl
  | cons t ts ih =>
    have ht : t ≠ .comma := by
      rintro rfl
      cases h .comma (by simp)
    rw [withoutCommas, if_neg (by simp [ht]), ih fun u hu => h u (by simp [hu])]

theorem length_withoutCommas_le (n : Nesting) (ts : List Token) : (withoutCommas n ts).length ≤ ts.length := by
  induction ts generalizing n with
  | nil => exact Nat.le_refl _
  | cons t ts ih =>
    have := ih n
    have := ih (n.step t)
    rw [withoutCommas]
    split <;> simp only [List.length_cons] <;> omega

theorem withoutCommas_append_eq {n : Nesting} {ts us : List Token} : withoutCommas n (ts ++ us) = ts ++ us ↔
    withoutCommas n ts = ts ∧ withoutCommas (ts.foldl Nesting.step n) us = us := by
  rw [withoutCommas_append]
  constructor
  · intro h
    have hlen := congrArg List.length h
    have h₁ := length_withoutCommas_le n ts
    have h₂ := length_withoutCommas_le (ts.foldl Nesting.step n) us
    rw [List.length_append, List.length_append] at hlen
    exact List.append_inj h (by omega)
  · rintro ⟨h₁, h₂⟩
    rw [h₁, h₂]

theorem solids_withoutCommas (n : Nesting) (ts : List Token) :
    solids (withoutCommas n ts) = withoutCommas n (solids ts) := by
  induction ts generalizing n with
  | nil => rfl
  | cons t ts ih =>
    rw [withoutCommas, solids_cons]
    split
    · next h => rw [ih, h.1, if_neg (by decide), withoutCommas, if_pos ⟨rfl, h.2⟩]
    · next h =>
      rw [solids_cons, ih]
      split
      · next hs => rw [Nesting.step_of_isSpace hs]
      · rw [withoutCommas, if_neg h]

theorem commaGroups_flatten (n : Nesting) (ts : List Token) : (commaGroups n ts).flatten = withoutCommas n ts := by
  refine commaGroups_induction (P := fun n ts gs => gs.flatten = withoutCommas n ts)
    (fun n ts h => by simp [h]) (fun n a lc rest gs ha hd hlc _ ih => ?_) n ts
  rw [List.flatten_cons, ih, withoutCommas_append, ha, withoutCommas, if_pos ⟨rfl, hd⟩, withoutCommas_append,
    withoutCommas_trivia hlc, foldl_trivia hlc, List.append_assoc]

theorem commaGroups_bare {n : Nesting} (hn : n.depth = 0) (ts : List Token) :
    ∀ g ∈ commaGroups n ts, withoutCommas {} g = g := by
  refine commaGroups_induction (P := fun n _ gs => n.depth = 0 → ∀ g ∈ gs, withoutCommas {} g = g)
    (fun n ts h hn g hg => ?_) (fun n a lc rest gs ha hd hlc _ ih hn g hg => ?_) n ts hn
  · obtain rfl := List.mem_singleton.mp hg
    rwa [withoutCommas_congr (m := n) hn.symm]
  · rcases List.mem_cons.mp hg with rfl | hg
    · rw [withoutCommas_congr (m := n) hn.symm, withoutCommas_append, ha, withoutCommas_trivia hlc]
    · exact ih hd g hg

/-- The code of an item has no comma that its tokens did not have. -/
theorem Item.bare_ofTokens? {g : List Token} (hr : Readable g) (h : withoutCommas {} g = g) {i : Item}
    (hi : Item.ofTokens? g = some i) : withoutCommas {} (solidsOf i.code) = solidsOf i.code := by
  by_cases ht : ∀ t ∈ g, t.isTrivia
  · rw [ofTokens?_trivia ht] at hi
    split at hi
    · cases hi
    · cases hi
      simp [withoutCommas]
  · obtain ⟨c, hc, rfl, e⟩ := exists_cut ht
    obtain rfl := Option.some.inj (hi.symm.trans e)
    have hcode : Legible (c.near ++ c.core) := (Item.Cut.legible hc hr).1.of_append_right.of_append_right
    have hfront := hc.front
    have e : c.all = (c.lead ++ c.gap) ++ ((c.near ++ c.core) ++ (c.trail ++ c.follow)) := by simp [Item.Cut.all]
    rw [e] at h
    have h := (withoutCommas_append_eq.mp h).2
    rw [foldl_trivia fun t h => hfront t (by simp at h ⊢; tauto)] at h
    rw [Item.Cut.item, hcode.solidsOf_spell, ← solids_withoutCommas, (withoutCommas_append_eq.mp h).1]

/-! ## Predicates -/

def Token.isCut (t : Token) : Bool := t.isKeyword .AND || t.isKeyword .OR

theorem isCut_of_cuts {between : Nat} {n : Nesting} {t : Token} (h : (conditionStep between (n.topKeyword t)).2) :
    t.isCut := by
  cases hk : n.topKeyword t with
  | none => simp [hk, conditionStep] at h
  | some k =>
    obtain ⟨-, hk'⟩ := Nesting.topKeyword_eq_some.mp hk
    rw [hk] at h
    cases k <;> first
      | (cases h; done)
      | simp [Token.isCut, Token.isKeyword, hk']

/-- Groups behind the first one start with an AND or OR, and then there is
code in front of them. -/
theorem conditionGroups_starts (n : Nesting) (between : Nat) (started : Bool) (ts : List Token) :
    ∃ g gs, conditionGroups n between started ts = g :: gs ∧ (∀ h ∈ gs, h.head?.any Token.isCut) ∧
      (gs = [] ∨ started ∨ ∃ t ∈ g, t.isCode) := by
  induction ts generalizing n between started with
  | nil => exact ⟨[], [], rfl, by simp, .inl rfl⟩
  | cons t ts ih =>
    obtain ⟨g, gs, e, hgs, hcode⟩ := ih (n.step t) (conditionStep between (n.topKeyword t)).1 (started || t.isCode)
    rw [conditionGroups]
    simp only [e, List.modifyHead_cons]
    split
    · next h =>
      obtain ⟨hcuts, hs⟩ := Bool.and_eq_true_iff.mp h
      refine ⟨[], (t :: g) :: gs, rfl, fun h hm => ?_, .inr (.inl hs)⟩
      rcases List.mem_cons.mp hm with rfl | hm
      · exact isCut_of_cuts hcuts
      · exact hgs h hm
    · refine ⟨t :: g, gs, rfl, hgs, hcode.imp_right fun h => ?_⟩
      rw [Bool.or_eq_true] at h
      rcases h with (h | h) | ⟨u, hu, hc⟩
      · exact .inl h
      · exact .inr ⟨t, by simp, h⟩
      · exact .inr ⟨u, by simp [hu], hc⟩

theorem Item.starts_ofTokens? {g : List Token} (hr : Readable g) {t : Token} (hg : g.head? = some t) (ht : t.isCode)
    {i : Item} (hi : Item.ofTokens? g = some i) : (tokenize i.code).head? = some t := by
  have htr : t.isTrivia = false := by simpa [Token.isCode] using ht
  have hall : ¬∀ u ∈ g, u.isTrivia := fun h => by
    have := h t (List.mem_of_head? hg)
    rw [htr] at this
    cases this
  obtain ⟨c, hc, rfl, e⟩ := exists_cut hall
  obtain rfl := Option.some.inj (hi.symm.trans e)
  obtain ⟨u, hlast, -⟩ := hc.core
  have hcode : Legible (c.near ++ c.core) := (Item.Cut.legible hc hr).1.of_append_right.of_append_right
  have hfront : c.lead ++ (c.gap ++ c.near) = [] := by
    by_contra hne
    obtain ⟨v, vs, ev⟩ := List.exists_cons_of_ne_nil hne
    have e : c.all = (c.lead ++ (c.gap ++ c.near)) ++ (c.core ++ (c.trail ++ c.follow)) := by simp [Item.Cut.all]
    rw [e, ev] at hg
    obtain rfl : v = t := Option.some.inj hg
    have := hc.front v (by simp [ev])
    rw [htr] at this
    cases this
  simp only [List.append_eq_nil_iff] at hfront
  obtain ⟨hlead, hgap, hnear⟩ := hfront
  obtain ⟨x, xs, ex⟩ : ∃ x xs, c.core = x :: xs := List.exists_cons_of_ne_nil (by rintro h; simp [h] at hlast)
  obtain rfl : x = t := by simpa [Item.Cut.all, hlead, hgap, hnear, ex] using hg
  rw [hnear, ex, List.nil_append] at hcode
  have hs : x.isSpace = false := by
    simp only [Token.isTrivia, Bool.or_eq_false_iff] at htr
    exact htr.1
  rw [Item.Cut.item, hnear, ex, List.nil_append, spell_cons,
    tokenize_text_append hcode.1 (hcode.2.1.resolve_left (by simp [hs]))]
  rfl

theorem conditionGroups_readable {ts : List Token} (hl : Legible ts) :
    ∀ g ∈ conditionGroups {} 0 false ts, Readable g := by
  intro g hg
  have e := (conditionGroups_flatten {} 0 false ts).2
  obtain ⟨x, y, hxy⟩ := List.append_of_mem hg
  have hi : g <:+: ts := by
    rw [← e, hxy]
    exact ⟨x.flatten, y.flatten, by simp⟩
  exact (hl.of_infix hi).readable

theorem conditionItems_start {ts : List Token} (hl : Legible ts) :
    ∀ i ∈ (conditionItems ts).tail, (tokenize i.code).head?.any Token.isCut := by
  have hread := conditionGroups_readable hl
  obtain ⟨g, gs, e, hgs, hcode⟩ := conditionGroups_starts {} 0 false ts
  rw [conditionItems, e]
  rw [e] at hread
  have hstart : ∀ i ∈ gs.filterMap Item.ofTokens?, (tokenize i.code).head?.any Token.isCut := by
    intro i hi
    obtain ⟨h, hm, hi⟩ := List.mem_filterMap.mp hi
    obtain ⟨t, ht, hcut⟩ : ∃ t, h.head? = some t ∧ t.isCut := by
      have := hgs h hm
      cases eh : h.head? with
      | none => simp [eh] at this
      | some t => exact ⟨t, rfl, by simpa [eh] using this⟩
    have hc : t.isCode := by cases t <;> first | rfl | cases hcut
    rw [Item.starts_ofTokens? (hread h (by simp [hm])) ht hc hi]
    exact hcut
  cases hg : Item.ofTokens? g with
  | some i => rwa [List.filterMap_cons_some hg, List.tail_cons]
  | none =>
    rw [List.filterMap_cons_none hg]
    exact fun i hi => hstart i (List.mem_of_mem_tail hi)

/-! ## Nothing is lost -/

/-- A list and a predicate are split without loss and in order. -/
theorem items_hold_tokens (s : Text) :
    (listItems (tokenize s)).flatMap Item.clips = clips (withoutCommas {} (tokenize s)) ∧
      (∀ i ∈ listItems (tokenize s), withoutCommas {} (solidsOf i.code) = solidsOf i.code) ∧
      (conditionItems (tokenize s)).flatMap Item.clips = clipsOf s ∧
      ∀ i ∈ (conditionItems (tokenize s)).tail, (tokenize i.code).head?.any Token.isCut := by
  have hl := legible_tokenize s
  have hread : ∀ g ∈ commaGroups {} (tokenize s), Readable g := fun g hg => (commaGroups_readable {} hl g hg).1
  refine ⟨?_, fun i hi => ?_, ?_, conditionItems_start hl⟩
  · rw [listItems, clips_items hread, commaGroups_flatten]
  · obtain ⟨g, hg, e⟩ := List.mem_filterMap.mp hi
    exact Item.bare_ofTokens? (hread g hg) (commaGroups_bare rfl _ g hg) e
  · rw [conditionItems, clips_items (conditionGroups_readable hl), (conditionGroups_flatten {} 0 false _).2]
    rfl

end SqlLayout
