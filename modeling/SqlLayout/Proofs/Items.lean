import SqlLayout.Item
import SqlLayout.Proofs.Rows

/-!
# Items hold their tokens

An item that is made of tokens has them all, in four parts that stand in the
order of the source: the comments in front, the code, the comments behind it
and those that follow. The code ends in code, so that a comma or a comment can
be put behind it.
-/

namespace SqlLayout

theorem Legible.of_infix {ts us : List Token} (h : Legible ts) (hu : us <:+: ts) : Legible us := by
  obtain ⟨a, b, rfl⟩ := hu
  exact h.of_append_left.of_append_right

theorem newline_notMem_text {t : Token} (hf : t.isFlat) (hn : t.isNewline = false) : '\n' ∉ t.text := by
  cases hs : t.isSpace with
  | true =>
    match t, hs with
    | .whitespace w, _ => simpa [Token.isNewline, Token.text] using hn
  | false =>
    have := hf
    simp only [Token.isFlat, Token.spansLines, hs, Bool.not_false, Bool.true_and, Bool.and_eq_true,
      Bool.not_eq_true'] at this
    simpa using this.2

theorem isNewline_of_notMem {t : Token} (h : '\n' ∉ t.text) : t.isNewline = false := by
  cases t with
  | whitespace w => simpa [Token.isNewline, Token.text] using h
  | _ => rfl

theorem newline_notMem_spell {ts : List Token} (hf : Flat ts) (hn : ∀ t ∈ ts, t.isNewline = false) :
    '\n' ∉ spell ts := by
  simp only [spell, List.mem_flatMap, not_exists, not_and]
  exact fun t ht => newline_notMem_text (hf t ht) (hn t ht)

/-! ## Comments on lines of their own -/

theorem flatMap_filter_ne_nil {α : Type} {f : Text → List α} (h : f [] = []) (ls : List Text) :
    (ls.filter (· ≠ [])).flatMap f = ls.flatMap f := by
  induction ls with
  | nil => rfl
  | cons l ls ih =>
    by_cases hl : l = []
    · rw [List.filter_cons_of_neg (by simp [hl]), ih, List.flatMap_cons, hl, h, List.nil_append]
    · rw [List.filter_cons_of_pos (by simp [hl]), List.flatMap_cons, ih, List.flatMap_cons]

theorem solids_splitOnP (ts : List Token) : (ts.splitOnP Token.isNewline).flatMap solids = solids ts := by
  induction ts with
  | nil => rfl
  | cons t ts ih =>
    rw [List.splitOnP_cons_eq_if_modifyHead]
    split
    · next h =>
      have hs : t.isSpace := by cases t <;> first | rfl | cases h
      simp [solids_cons, hs, ih]
    · obtain ⟨m, ms, e⟩ := List.exists_cons_of_ne_nil (List.splitOnP_ne_nil Token.isNewline ts)
      rw [e] at ih ⊢
      rw [solids_cons, ← ih]
      split <;> simp_all [solids_cons]

theorem plains_splitOnP (ts : List Token) : (ts.splitOnP Token.isNewline).flatMap plains = plains ts := by
  rw [plains, ← solids_splitOnP, List.map_flatMap]
  rfl

theorem spells_commentLines {ts : List Token} (hl : Legible ts) (hf : Flat ts) :
    Spells (plains ts) (commentLines ts) := by
  refine Spells.fades ?_ (Fades.filter _)
  have h : ∀ l ∈ ts.splitOnP Token.isNewline, Spells (plains l) [trim (spell l)] := by
    intro l hm
    obtain ⟨hi, hn⟩ := mem_splitOnP hm
    have hfl : Flat l := hf.of_subset hi.subset
    exact spells_trim (hl.of_infix hi) hfl (newline_notMem_spell hfl hn)
  rw [← plains_splitOnP]
  generalize ts.splitOnP Token.isNewline = ps at h
  induction ps with
  | nil => exact Spells.nil
  | cons p ps ih => exact (h p (by simp)).append (ih fun l hl => h l (by simp [hl]))

/-! ## Code on one line -/

def blanked (ts : List Token) : List Token := ts.map fun t => if t.isSpace then .whitespace [' '] else t

theorem plains_blanked (ts : List Token) : plains (blanked ts) = plains ts := by
  induction ts with
  | nil => rfl
  | cons t ts ih =>
    simp only [blanked, List.map_cons] at ih ⊢
    rw [plains_cons, plains_cons, ih]
    cases h : t.isSpace with
    | true => simp [Token.isSpace]
    | false => simp [h]

theorem legible_blanked {ts : List Token} (hl : Legible ts) (hf : Flat ts)
    (hc : ∀ t ∈ ts, t.isLineComment = false) : Legible (blanked ts) := by
  induction ts with
  | nil => trivial
  | cons t ts ih =>
    obtain ⟨hft, hst, hlt⟩ := hl
    have ih := ih hlt (hf.of_subset (by simp)) fun t ht => hc t (by simp [ht])
    cases hs : t.isSpace with
    | true =>
      have e : blanked (t :: ts) = .whitespace [' '] :: blanked ts := by simp [blanked, hs]
      rw [e]
      exact ⟨⟨by simp, by decide⟩, Or.inl rfl, ih⟩
    | false =>
      have e : blanked (t :: ts) = t :: blanked ts := by simp [blanked, hs]
      rw [e]
      refine ⟨hft, Or.inr ?_, ih⟩
      have hst := hst.resolve_left (by simp [hs])
      cases ts with
      | nil => exact hst
      | cons u us =>
        cases hu : u.isSpace with
        | true =>
          have e : blanked (u :: us) = .whitespace [' '] :: blanked us := by simp [blanked, hu]
          rw [e]
          exact Token.stops_cons (by decide) (hf.isUnterminated (by simp)) (by simp [hs])
            (by simp [hc t]) _
        | false =>
          have e : blanked (u :: us) = u :: blanked us := by simp [blanked, hu]
          rw [e] at ih ⊢
          have hp : t.Stops u.text := hst.of_isPrefix (List.prefix_append _ _)
          refine hp.append hlt.1.text_ne_nil fun hd => ?_
          obtain rfl := hlt.1.eq_dot hd
          exact ih.2.1.resolve_left (by simp [Token.isSpace])

theorem collapse_eq (ts : List Token) : collapse ts = trim (spell (blanked ts)) := by
  simp only [collapse, spell, blanked, List.flatMap_map]
  congr 2
  funext t
  split <;> rfl

theorem spells_collapse {ts : List Token} (hl : Legible ts) (hf : Flat ts)
    (hc : ∀ t ∈ ts, t.isLineComment = false) : Spells (plains ts) [collapse ts] := by
  have hfb : Flat (blanked ts) := by
    intro t ht
    obtain ⟨u, hu, rfl⟩ := List.mem_map.mp ht
    split
    · rfl
    · exact hf u hu
  rw [collapse_eq, ← plains_blanked]
  refine spells_trim (legible_blanked hl hf hc) hfb (newline_notMem_spell hfb fun t ht => ?_)
  obtain ⟨u, hu, rfl⟩ := List.mem_map.mp ht
  split
  · rfl
  · next h => cases u <;> first | rfl | exact absurd rfl h

theorem spells_normalize (n : Nat) {s : Text} (hf : Flat (tokenize s)) :
    Spells (plainsOf s) [normalize n s] := by
  unfold normalize
  split
  · refine ((spells_trimmedLines hf).fades ?_).fades (Fades.join _)
    unfold hang
    cases trimmedLines s with
    | nil => exact Fades.refl _
    | cons l ls => exact (Fades.refl [l]).cons (Fades.map (Fades.pad_append n) ls)
  · next h => exact spells_collapse (legible_tokenize s) hf (by simpa using h)

/-! ## Ends of token lists -/

/-- The token list without the space and comments at its end can be read, and
so can they. A comma may have stood between the two. -/
def Readable (g : List Token) : Prop :=
  Legible (dropEndWhile Token.isTrivia g) ∧ Legible (takeEndWhile Token.isTrivia g)

theorem Legible.readable {g : List Token} (h : Legible g) : Readable g := by
  rw [← dropEndWhile_append_takeEndWhile Token.isTrivia g] at h
  exact ⟨h.of_append_left, h.of_append_right⟩

theorem Readable.formed {g : List Token} (h : Readable g) {t : Token} (ht : t ∈ g) : t.Formed := by
  rw [← dropEndWhile_append_takeEndWhile Token.isTrivia g] at ht
  rcases List.mem_append.mp ht with ht | ht
  · exact h.1.formed ht
  · exact h.2.formed ht

theorem Readable.legible_trivia {g : List Token} (h : Readable g) (ht : ∀ t ∈ g, t.isTrivia) : Legible g := by
  have e : dropEndWhile Token.isTrivia g = [] := List.rdropWhile_eq_nil_iff.mpr ht
  have := dropEndWhile_append_takeEndWhile Token.isTrivia g
  rw [e, List.nil_append] at this
  exact this ▸ h.2

theorem isComment_of_mem_plains {ts : List Token} (h : ∀ t ∈ ts, t.isTrivia) {t : Token}
    (ht : t ∈ plains ts) : t.isComment := by
  obtain ⟨u, hu, rfl⟩ := List.mem_map.mp ht
  obtain ⟨hu, hs⟩ := mem_solids.mp hu
  simpa [Token.isTrivia, hs] using h u hu

/-! ## Parts of an item -/

structure Parts where
  lead : List Token := []
  code : List Token := []
  trail : List Token := []
  follow : List Token := []

def Parts.all (p : Parts) : List Token := p.lead ++ (p.code ++ (p.trail ++ p.follow))

structure Item.Shows (i : Item) (p : Parts) : Prop where
  leading : Spells p.lead i.leading
  code : Spells p.code [i.code]
  trailing : Spells p.trail i.trailing.toList
  following : Spells p.follow i.following
  ends : TakesMore p.code
  lead : ∀ t ∈ p.lead, t.isComment
  rest : ∀ t ∈ p.trail ++ p.follow, t.isComment

theorem Item.Shows.of_fades {i : Item} {p : Parts} (h : i.Shows p) {c : Text} (hc : Fades [i.code] [c]) :
    Item.Shows { i with code := c } p :=
  { h with code := h.code.fades hc }

theorem Item.shows_empty (n : Nat) : (Item.prepare n {}).Shows {} where
  leading := Spells.nil
  code := plainsOf_nil ▸ spells_normalize n (s := []) (by simp [tokenize, Flat])
  trailing := Spells.nil
  following := Spells.nil
  ends := rfl
  lead := by simp
  rest := by simp

theorem spells_nonempty? {us : List Token} {s : Text} (h : Spells us [s]) :
    Spells us (nonempty? s).toList := by
  have e : (nonempty? s).toList = [s].filter (· ≠ []) := by
    unfold nonempty?
    split <;> simp_all
  exact e ▸ h.fades (Fades.filter _)

theorem getLast_plains {ts : List Token} {t : Token} (h : ts.getLast? = some t) (hc : t.isCode) :
    (plains ts).getLast? = some t.plain := by
  have hs : t.isSpace = false := by
    simp only [Token.isCode, Token.isTrivia, Bool.not_eq_true', Bool.or_eq_false_iff] at hc
    exact hc.1
  rw [plains, List.getLast?_map, getLast_solids h hs]
  rfl

theorem Item.shows_of_comments {g : List Token} (hl : Legible g) (hf : Flat g) (ht : ∀ t ∈ g, t.isTrivia)
    (n : Nat) : (Item.prepare n { following := commentLines g }).Shows { follow := plains g } :=
  { shows_empty n with
    following := spells_commentLines hl hf
    rest := fun t h => isComment_of_mem_plains ht (by simpa using h) }

/-! ## Cutting a token list

A list that holds code is cut into the lines in front of the code, the space
between these and the code, the comments on the line of the code and the code,
the comments behind it on its last line and the lines that follow. -/

structure Item.Cut where
  lead : List Token
  gap : List Token
  near : List Token
  core : List Token
  trail : List Token
  follow : List Token

namespace Item.Cut

def all (c : Cut) : List Token := c.lead ++ (c.gap ++ (c.near ++ (c.core ++ (c.trail ++ c.follow))))

def item (c : Cut) : Item where
  leading := commentLines c.lead
  code := spell (c.near ++ c.core)
  trailing := nonempty? (trim (spell c.trail))
  following := commentLines c.follow

structure Sound (c : Cut) : Prop where
  front : ∀ t ∈ c.lead ++ (c.gap ++ c.near), t.isTrivia
  gap : ∀ t ∈ c.gap, t.isSpace
  core : ∃ t, c.core.getLast? = some t ∧ t.isCode
  trail : ∀ t ∈ c.trail, t.isNewline = false
  follow : ∀ t ∈ c.follow.head?, t.isNewline
  back : ∀ t ∈ c.trail ++ c.follow, t.isTrivia

theorem legible {c : Cut} (hc : c.Sound) (hr : Readable c.all) :
    Legible (c.lead ++ (c.gap ++ (c.near ++ c.core))) ∧ Legible (c.trail ++ c.follow) := by
  have e : c.all = c.lead ++ (c.gap ++ (c.near ++ c.core)) ++ (c.trail ++ c.follow) := by simp [all]
  obtain ⟨t, hlast, ht⟩ := hc.core
  obtain ⟨x, hx⟩ := List.getLast?_eq_some_iff.mp hlast
  have ht : t.isTrivia = false := by simpa [Token.isCode] using ht
  have hends : dropEndWhile Token.isTrivia (c.lead ++ (c.gap ++ (c.near ++ c.core))) =
        c.lead ++ (c.gap ++ (c.near ++ c.core)) ∧
      takeEndWhile Token.isTrivia (c.lead ++ (c.gap ++ (c.near ++ c.core))) = [] := by
    simp [hx, dropEndWhile, takeEndWhile, ht]
  obtain ⟨h₁, h₂⟩ := dropEndWhile_append_all hc.back (c.lead ++ (c.gap ++ (c.near ++ c.core)))
  rw [Readable, e, h₁, h₂, hends.1, hends.2, List.nil_append] at hr
  exact hr

theorem solids_all {c : Cut} (hc : c.Sound) :
    solids c.all = solids c.lead ++ (solids (c.near ++ c.core) ++ (solids c.trail ++ solids c.follow)) := by
  have : solids c.gap = [] := solids_eq_nil.mpr (by simpa using hc.gap)
  simp [all, this]

end Item.Cut

theorem Item.ofTokens?_trivia {g : List Token} (h : ∀ t ∈ g, t.isTrivia) :
    Item.ofTokens? g = if commentLines g = [] then none else some { following := commentLines g } := by
  simp [ofTokens?, List.dropWhile_eq_nil_iff.mpr h]

theorem Item.exists_cut {g : List Token} (h : ¬∀ t ∈ g, t.isTrivia) :
    ∃ c : Item.Cut, c.Sound ∧ c.all = g ∧ Item.ofTokens? g = some c.item := by
  have hrest : g.dropWhile Token.isTrivia ≠ [] := fun e => h (by simpa using e)
  have hg := List.takeWhile_append_dropWhile (p := Token.isTrivia) (l := g)
  have hfront : ∀ t ∈ g.takeWhile Token.isTrivia, t.isTrivia := List.all_eq_true.mp List.all_takeWhile
  obtain ⟨c, r, e⟩ := List.exists_cons_of_ne_nil hrest
  have hc : c.isTrivia = false := by
    have := List.head?_dropWhile_not Token.isTrivia g
    simpa [e] using this
  simp only [ofTokens?, hrest, if_false]
  generalize g.takeWhile Token.isTrivia = front at hg hfront ⊢
  generalize g.dropWhile Token.isTrivia = rest at hrest hg e ⊢
  have hne : dropEndWhile Token.isTrivia rest ≠ [] := by
    intro h
    have := List.rdropWhile_eq_nil_iff.mp h c (by simp [e])
    simp [hc] at this
  have hlast : ((dropEndWhile Token.isTrivia rest).getLast hne).isCode := by
    have : ¬Token.isTrivia _ := List.rdropWhile_last_not Token.isTrivia rest hne
    simp only [Bool.not_eq_true] at this
    exact congrArg not this
  have hback : ∀ t ∈ takeEndWhile Token.isTrivia rest, t.isTrivia := fun t ht => List.mem_rtakeWhile_imp ht
  have hrest := dropEndWhile_append_takeEndWhile Token.isTrivia rest
  generalize dropEndWhile Token.isTrivia rest = core at hne hlast hrest ⊢
  generalize takeEndWhile Token.isTrivia rest = back at hback hrest ⊢
  -- the front is cut behind its last line break, the back in front of its first one
  have efront := dropEndWhile_append_takeEndWhile (fun t : Token => !t.isNewline) front
  generalize dropEndWhile (fun t : Token => !t.isNewline) front = far at efront ⊢
  generalize takeEndWhile (fun t : Token => !t.isNewline) front = line at efront ⊢
  have eline := List.takeWhile_append_dropWhile (p := Token.isSpace) (l := line)
  have hgap : ∀ t ∈ line.takeWhile Token.isSpace, t.isSpace := List.all_eq_true.mp List.all_takeWhile
  generalize line.takeWhile Token.isSpace = gap at eline hgap ⊢
  generalize line.dropWhile Token.isSpace = near at eline ⊢
  have eback := List.takeWhile_append_dropWhile (p := fun t : Token => !t.isNewline) (l := back)
  have htrail : ∀ t ∈ back.takeWhile fun t => !t.isNewline, t.isNewline = false := by
    intro t ht
    simpa using List.all_eq_true.mp List.all_takeWhile t ht
  have hfollow : ∀ t ∈ (back.dropWhile fun t => !t.isNewline).head?, t.isNewline := fun t ht => by
    have := List.head?_dropWhile_not (fun t : Token => !t.isNewline) back
    simpa [Option.mem_def.mp ht] using this
  generalize (back.takeWhile fun t => !t.isNewline) = trail at eback htrail ⊢
  generalize (back.dropWhile fun t => !t.isNewline) = follow at eback hfollow ⊢
  subst efront eline eback
  exact ⟨⟨far, gap, near, core, trail, follow⟩,
    ⟨hfront, hgap, ⟨_, List.getLast?_eq_some_getLast hne, hlast⟩, htrail, hfollow, hback⟩,
    by rw [← hg, ← hrest]; simp [Cut.all], rfl⟩

theorem Item.Cut.shows_item {c : Item.Cut} (hc : c.Sound) (hr : Readable c.all) (hf : Flat c.all) (n : Nat) :
    ∃ p : Parts, p.all = plains c.all ∧ (c.item.prepare n).Shows p := by
  obtain ⟨hl, hb⟩ := Cut.legible hc hr
  have hcode : Legible (c.near ++ c.core) := hl.of_append_right.of_append_right
  obtain ⟨flead, -, fnear, fcore, ftrail, ffollow⟩ : Flat c.lead ∧ Flat c.gap ∧ Flat c.near ∧ Flat c.core ∧
      Flat c.trail ∧ Flat c.follow := by simpa only [Cut.all, flat_append] using hf
  have hlead : ∀ t ∈ c.lead, t.isTrivia := fun t ht => hc.front t (by simp [ht])
  refine ⟨⟨plains c.lead, plains (c.near ++ c.core), plains c.trail, plains c.follow⟩, ?_, ?_⟩
  · simp [Parts.all, plains, Cut.solids_all hc]
  · exact {
      leading := spells_commentLines hl.of_append_left flead
      code := hcode.plainsOf_spell ▸ spells_normalize n (flat_tokenize_spell hcode (fnear.append fcore))
      trailing :=
        spells_nonempty? (spells_trim hb.of_append_left ftrail (newline_notMem_spell ftrail hc.trail))
      following := spells_commentLines hb.of_append_right ffollow
      ends := by
        obtain ⟨t, ht, htc⟩ := hc.core
        have e : (c.near ++ c.core).getLast? = some t := by
          rw [List.getLast?_append, ht]; rfl
        rw [TakesMore, getLast_plains e htc]
        cases t <;> first | rfl | cases htc
      lead := fun t ht => isComment_of_mem_plains hlead ht
      rest := fun t ht => isComment_of_mem_plains hc.back (by simpa using ht) }

theorem Item.shows_of_tokens {g : List Token} (hr : Readable g) (hf : Flat g) {i : Item}
    (h : Item.ofTokens? g = some i) (n : Nat) : ∃ p : Parts, p.all = plains g ∧ (i.prepare n).Shows p := by
  by_cases ht : ∀ t ∈ g, t.isTrivia
  · rw [ofTokens?_trivia ht] at h
    split at h
    · cases h
    · cases h
      exact ⟨_, by simp [Parts.all], shows_of_comments (hr.legible_trivia ht) hf ht n⟩
  · obtain ⟨c, hc, rfl, e⟩ := exists_cut ht
    obtain rfl := Option.some.inj (h.symm.trans e)
    exact Cut.shows_item hc hr hf n

theorem trim_eq_nil {s : Text} : trim s = [] ↔ s.all isBlank := by
  rw [trim, trimEnd_eq_nil, trimStart]
  constructor
  · intro h
    rw [← List.takeWhile_append_dropWhile (p := isBlank) (l := s), List.all_append, h]
    simp
  · intro h
    rw [List.dropWhile_eq_nil_iff.mpr (by simpa using h)]
    rfl

theorem Item.isSpace_of_none {g : List Token} (hr : Readable g) (h : Item.ofTokens? g = none) :
    ∀ t ∈ g, t.isSpace := by
  by_cases ht : ∀ t ∈ g, t.isTrivia
  · rw [ofTokens?_trivia ht] at h
    split at h
    · next hc =>
      intro t hm
      by_contra hs
      have hp : t.plain ∈ plains g := List.mem_map_of_mem (mem_solids.mpr ⟨hm, by simpa using hs⟩)
      rw [← plains_splitOnP, List.mem_flatMap] at hp
      obtain ⟨l, hl, hp⟩ := hp
      obtain ⟨u, hu, -⟩ := List.mem_map.mp hp
      obtain ⟨hu, hus⟩ := mem_solids.mp hu
      have hug : u ∈ g := (mem_splitOnP hl).1.subset hu
      have hb : trim (spell l) = [] := by
        have := List.filter_eq_nil_iff.mp hc (trim (spell l)) (List.mem_map_of_mem hl)
        simpa using this
      rw [trim_eq_nil, List.all_eq_true] at hb
      have hblank : ∀ c ∈ u.text, isBlank c := fun c hc => hb c (List.mem_flatMap.mpr ⟨u, hu, hc⟩)
      have hcomment : u.isComment := by simpa [Token.isTrivia, hus] using ht u hug
      have hf := hr.formed hug
      cases u with
      | lineComment w =>
        obtain ⟨b, rfl, -⟩ := hf
        exact absurd (hblank '-' (by simp [Token.text])) (by decide)
      | blockComment w =>
        obtain ⟨b, rfl, -⟩ := hf
        exact absurd (hblank '/' (by simp [Token.text])) (by decide)
      | _ => cases hcomment
    · cases h
  · obtain ⟨c, -, -, e⟩ := exists_cut ht
    rw [e] at h
    cases h

theorem Item.shows_ofTokens {g : List Token} (hr : Readable g) (hf : Flat g) (n : Nat) :
    ∃ p : Parts, p.all = plains g ∧ ((Item.ofTokens g).prepare n).Shows p := by
  unfold ofTokens
  cases h : ofTokens? g with
  | some i => exact shows_of_tokens hr hf h n
  | none =>
    refine ⟨{}, ?_, shows_empty n⟩
    have hs := isSpace_of_none hr h
    have : solids g = [] := solids_eq_nil.mpr (by simpa using hs)
    simp [Parts.all, plains, this]

end SqlLayout
