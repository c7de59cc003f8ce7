import SqlLayout.Query
import SqlLayout.Proofs.Spread

/-!
# Tokens and the space between them

The beads of a token list are its tokens other than space, each with a flag
that says whether space stands in front of it. Code without comments is put on
one line by its beads, and a list that is cut in two has its beads cut in two.
-/

namespace SqlLayout

/-- A token, and whether space stands in front of it. -/
abbrev Bead := Bool × Token

def beads (gap : Bool) : List Token → List Bead
  | [] => []
  | t :: ts => if t.isSpace then beads true ts else (gap, t) :: beads false ts

def beadsOf (s : Text) : List Bead := beads true (tokenize s)

def gapBehind (gap : Bool) (ts : List Token) : Bool := ts.foldl (fun _ t => t.isSpace) gap

def parted : List Bead → List Bead
  | [] => []
  | b :: bs => (true, b.2) :: bs

@[simp] theorem beads_nil (gap : Bool) : beads gap [] = [] := rfl

theorem beads_cons_space {t : Token} (h : t.isSpace) (gap : Bool) (ts : List Token) :
    beads gap (t :: ts) = beads true ts := by rw [beads, if_pos h]

theorem beads_cons_solid {t : Token} (h : t.isSpace = false) (gap : Bool) (ts : List Token) :
    beads gap (t :: ts) = (gap, t) :: beads false ts := by rw [beads, if_neg (by simp [h])]

theorem map_snd_beads (gap : Bool) (ts : List Token) : (beads gap ts).map Prod.snd = solids ts := by
  induction ts generalizing gap with
  | nil => rfl
  | cons t ts ih =>
    rw [solids_cons]
    cases h : t.isSpace with
    | true => rw [beads_cons_space h, ih, if_pos rfl]
    | false => rw [beads_cons_solid h, List.map_cons, ih, if_neg (by simp)]

theorem length_beads (gap : Bool) (ts : List Token) : (beads gap ts).length = (solids ts).length := by
  rw [← map_snd_beads gap, List.length_map]

theorem beads_eq_nil {gap : Bool} {ts : List Token} : beads gap ts = [] ↔ solids ts = [] := by
  rw [← map_snd_beads gap, List.map_eq_nil_iff]

theorem beads_append (gap : Bool) (ts us : List Token) :
    beads gap (ts ++ us) = beads gap ts ++ beads (gapBehind gap ts) us := by
  induction ts generalizing gap with
  | nil => rfl
  | cons t ts ih =>
    rw [List.cons_append]
    cases h : t.isSpace with
    | true => rw [beads_cons_space h, beads_cons_space h, ih, gapBehind, gapBehind, List.foldl_cons, h]
    | false => rw [beads_cons_solid h, beads_cons_solid h, ih, gapBehind, gapBehind, List.foldl_cons, h, List.cons_append]

theorem parted_beads (gap : Bool) (ts : List Token) : parted (beads gap ts) = beads true ts := by
  induction ts generalizing gap with
  | nil => rfl
  | cons t ts ih =>
    cases h : t.isSpace with
    | true => rw [beads_cons_space h, beads_cons_space h, ih]
    | false => rw [beads_cons_solid h, beads_cons_solid h, parted]

theorem parted_append {bs : List Bead} (h : bs ≠ []) (cs : List Bead) : parted (bs ++ cs) = parted bs ++ cs := by
  obtain ⟨b, bs, rfl⟩ := List.exists_cons_of_ne_nil h
  rfl

theorem beads_space_append {x : List Token} (hx : x.all Token.isSpace) (ts : List Token) :
    beads true (x ++ ts) = beads true ts := by
  induction x with
  | nil => rfl
  | cons t x ih =>
    rw [List.all_cons, Bool.and_eq_true] at hx
    rw [List.cons_append, beads_cons_space hx.1, ih hx.2]

theorem beads_append_space {y : List Token} (hy : y.all Token.isSpace) (gap : Bool) (ts : List Token) :
    beads gap (ts ++ y) = beads gap ts := by
  rw [beads_append, beads_eq_nil.mpr (solids_eq_nil.mpr hy), List.append_nil]

@[simp] theorem beads_strip (ts : List Token) : beads true (strip ts) = beads true ts := by
  obtain ⟨x, y, e, hx, hy⟩ := exists_strip ts
  conv_rhs => rw [e]
  rw [beads_space_append hx, beads_append_space hy]

theorem beads_dropEndWhile (gap : Bool) (ts : List Token) : beads gap (dropEndWhile Token.isSpace ts) = beads gap ts := by
  conv_rhs => rw [← dropEndWhile_append_takeEndWhile Token.isSpace ts]
  exact (beads_append_space (List.all_eq_true.mpr fun t ht => List.mem_rtakeWhile_imp ht) gap _).symm

theorem beads_dropWhile (ts : List Token) : beads true (ts.dropWhile Token.isSpace) = beads true ts := by
  conv_rhs => rw [← List.takeWhile_append_dropWhile (p := Token.isSpace) (l := ts)]
  exact (beads_space_append List.all_takeWhile _).symm

theorem beads_cut {gap : Bool} {ts us : List Token} {bs cs : List Bead} (h : beads gap (ts ++ us) = bs ++ cs)
    (hl : (solids ts).length = bs.length) : beads gap ts = bs ∧ beads (gapBehind gap ts) us = cs := by
  rw [beads_append] at h
  exact List.append_inj h (by rw [length_beads, hl])

/-! ## Beads on one line -/

def unbead : List Bead → List Token
  | [] => []
  | b :: bs => b.2 :: bs.flatMap fun c => if c.1 then [.whitespace [' '], c.2] else [c.2]

theorem dropEndWhile_cons {α : Type} {p : α → Bool} {a : α} (ha : p a = false) (l : List α) :
    dropEndWhile p (a :: l) = a :: dropEndWhile p l := by
  have hne : dropEndWhile p [a] ≠ [] := by simp [dropEndWhile, ha]
  by_cases h : dropEndWhile p l = []
  · have hl : ∀ x ∈ l, p x := by
      simpa [dropEndWhile] using h
    rw [← List.singleton_append, (dropEndWhile_append_all hl [a]).1, h]
    simp [dropEndWhile, ha]
  · rw [← List.singleton_append, dropEndWhile_append h, List.singleton_append]

theorem dropEndWhile_blanked {ts : List Token} (h : Lexed ts) : dropEndWhile Token.isSpace (blanked ts) =
    (beads false ts).flatMap fun c => if c.1 then [.whitespace [' '], c.2] else [c.2] := by
  induction ts with
  | nil => rfl
  | cons t ts ih =>
    have ih := ih (show Lexed ([t] ++ ts) from h).of_append.2
    cases ht : t.isSpace with
    | false =>
      rw [beads_cons_solid ht, List.flatMap_cons, ← ih, blanked, List.map_cons, if_neg (by simp [ht]), ← blanked,
        dropEndWhile_cons ht]
      rfl
    | true =>
      rw [beads_cons_space ht, blanked, List.map_cons, if_pos (by rw [ht]), ← blanked]
      cases ts with
      | nil => rfl
      | cons u us =>
        have hu := h.isSpace_next ht
        rw [beads_cons_solid hu] at ih ⊢
        have hcons : dropEndWhile Token.isSpace (blanked (u :: us)) ≠ [] := by
          rw [ih]
          simp
        rw [← List.singleton_append, dropEndWhile_append hcons, ih]
        rfl

/-- What is left of a list when it is put on one line can be told from its
beads. -/
theorem strip_blanked {ts : List Token} (h : Lexed ts) : strip (blanked ts) = unbead (beads true ts) := by
  have solid : ∀ us, Lexed us → (∀ u ∈ us.head?, u.isSpace = false) → strip (blanked us) = unbead (beads true us) := by
    intro us hl hh
    cases us with
    | nil => rfl
    | cons u us =>
      have hu := hh u rfl
      have e : blanked (u :: us) = u :: blanked us := by rw [blanked, List.map_cons, if_neg (by simp [hu]), ← blanked]
      rw [beads_cons_solid hu, unbead, strip, e, List.dropWhile_cons_of_neg (by simp [hu]), dropEndWhile_cons hu,
        dropEndWhile_blanked (show Lexed ([u] ++ us) from hl).of_append.2]
  cases ts with
  | nil => rfl
  | cons t ts =>
    cases ht : t.isSpace with
    | false => exact solid _ h (by simp [ht])
    | true =>
      have e : blanked (t :: ts) = [.whitespace [' ']] ++ (blanked ts ++ []) := by
        rw [blanked, List.map_cons, if_pos (by rw [ht]), ← blanked]
        simp
      rw [e, strip_space_append rfl rfl, beads_cons_space ht]
      refine solid ts (show Lexed ([t] ++ ts) from h).of_append.2 fun u hu => ?_
      cases ts with
      | nil => cases hu
      | cons v ts =>
        obtain rfl := Option.some.inj hu
        exact h.isSpace_next ht

/-! ## Stable tokens -/

/-- Tokens that stay as they are when lines are cut and trimmed: no comments,
no literal that spans lines or has a blank end, and no hard blanks. -/
structure Stable (ts : List Token) : Prop where
  flat : Flat ts
  bare : ∀ t ∈ ts, t.isComment = false
  firm : ∀ t ∈ ts, t.Firm
  soft : ∀ t ∈ ts, t.isSpace ∨ hards t.text = 0

namespace Stable

variable {ts us : List Token}

theorem of_subset (h : Stable us) (hs : ts ⊆ us) : Stable ts :=
  ⟨h.flat.of_subset hs, fun t ht => h.bare t (hs ht), fun t ht => h.firm t (hs ht), fun t ht => h.soft t (hs ht)⟩

theorem append (h : Stable ts) (h' : Stable us) : Stable (ts ++ us) :=
  ⟨h.flat.append h'.flat, List.forall_mem_append.mpr ⟨h.bare, h'.bare⟩, List.forall_mem_append.mpr ⟨h.firm, h'.firm⟩,
    List.forall_mem_append.mpr ⟨h.soft, h'.soft⟩⟩

theorem of_solids (h : Stable (solids ts)) : Stable ts := by
  have key : ∀ t ∈ ts, t.isSpace ∨ t ∈ solids ts := by
    intro t ht
    cases hs : t.isSpace with
    | true => exact Or.inl rfl
    | false => exact Or.inr (mem_solids.mpr ⟨ht, hs⟩)
  refine ⟨fun t ht => ?_, fun t ht => ?_, fun t ht => ?_, fun t ht => ?_⟩
  all_goals rcases key t ht with hs | hm
  · obtain ⟨w, rfl⟩ := Token.eq_whitespace hs
    rfl
  · exact h.flat t hm
  · obtain ⟨w, rfl⟩ := Token.eq_whitespace hs
    rfl
  · exact h.bare t hm
  · exact Or.inl hs
  · exact h.firm t hm
  · exact Or.inl hs
  · exact h.soft t hm

theorem isLineComment (h : Stable ts) : ∀ t ∈ ts, t.isLineComment = false := by
  intro t ht
  have := h.bare t ht
  cases t <;> first | rfl | cases this

theorem isTrivia (h : Stable ts) : ∀ t ∈ ts, t.isTrivia = t.isSpace := by
  intro t ht
  rw [Token.isTrivia, h.bare t ht, Bool.or_false]

theorem stops (h : Stable ts) {c : Char} (hc : isBreak c) {s : Text} :
    ∀ t ∈ ts.getLast?, (t.isSpace → isSpaceChar c = false) → t.Stops (c :: s) := by
  intro t ht hs
  have hm := List.mem_of_getLast? ht
  exact Token.stops_cons hc (h.flat.isUnterminated hm) hs (by simp [h.isLineComment t hm]) s

end Stable

section
variable {a : Text} (ha : Stable (tokenize a))
include ha

theorem tokenize_break {c : Char} (hc : isBreak c) (hs : isSpaceChar c = false) (s : Text) :
    tokenize (a ++ c :: s) = tokenize a ++ tokenize (c :: s) :=
  tokenize_append fun t ht => ha.stops hc t ht fun _ => hs

/-- Space between two texts becomes one with the space at their ends. -/
theorem exists_tokenize_gap {w : Text} (hw : w.all isSpaceChar) (hne : w ≠ []) (b : Text) : ∃ v,
    tokenize (a ++ (w ++ b)) =
      dropEndWhile Token.isSpace (tokenize a) ++ .whitespace v :: (tokenize b).dropWhile Token.isSpace := by
  have hfront : ∀ t ∈ (dropEndWhile Token.isSpace (tokenize a)).getLast?, t.isSpace = false := getLast_dropEndWhile _
  have hback : ∀ t ∈ ((tokenize b).dropWhile Token.isSpace).head?, t.isSpace = false := fun t ht => by
    have := List.head?_dropWhile_not Token.isSpace (tokenize b)
    rw [Option.mem_def.mp ht] at this
    simpa using this
  have hx : ∀ t ∈ takeEndWhile Token.isSpace (tokenize a), t.isSpace := fun t ht => List.mem_rtakeWhile_imp ht
  have hy : ∀ t ∈ (tokenize b).takeWhile Token.isSpace, t.isSpace := fun t ht => List.mem_takeWhile_imp ht
  have ea := dropEndWhile_append_takeEndWhile Token.isSpace (tokenize a)
  have eb := List.takeWhile_append_dropWhile (p := Token.isSpace) (l := tokenize b)
  have hla := lexed_tokenize a
  have hlb := lexed_tokenize b
  have htext : a ++ (w ++ b) = spell (tokenize a) ++ (w ++ spell (tokenize b)) := by rw [spell_tokenize, spell_tokenize]
  rw [htext, ← ea, ← eb]
  rw [← ea] at hla ha
  rw [← eb] at hlb
  rw [ea, eb]
  generalize dropEndWhile Token.isSpace (tokenize a) = front at *
  generalize takeEndWhile Token.isSpace (tokenize a) = x at *
  generalize (tokenize b).takeWhile Token.isSpace = y at *
  generalize (tokenize b).dropWhile Token.isSpace = back at *
  have hgap : (Token.whitespace (spell x ++ (w ++ spell y))).Formed := by
    refine ⟨by simp [hne], ?_⟩
    rw [List.all_append, List.all_append, spell_space (fun t ht => hla.of_append.2.formed ht) hx, hw,
      spell_space (fun t ht => hlb.of_append.1.formed ht) hy]
    rfl
  have hlex : Lexed (front ++ .whitespace (spell x ++ (w ++ spell y)) :: back) := by
    refine hla.of_append.1.append ⟨hgap, stops_whitespace (fun t ht => hlb.of_append.2.formed ht) hback, hlb.of_append.2⟩
      fun t ht => ?_
    obtain ⟨c, v, e⟩ := List.exists_cons_of_ne_nil hgap.1
    have hc : isSpaceChar c := List.all_eq_true.mp hgap.2 c (by rw [e]; exact List.mem_cons_self)
    rw [spell_cons, Token.text, e, List.cons_append]
    exact (ha.of_subset (List.subset_append_left front x)).stops (isBreak_space hc) t ht (by simp [hfront t ht])
  refine ⟨spell x ++ (w ++ spell y), ?_⟩
  rw [← hlex.tokenize_spell, ← ea, ← eb]
  simp [Token.text]

theorem beadsOf_gap {w : Text} (hw : w.all isSpaceChar) (hne : w ≠ []) (b : Text) :
    beadsOf (a ++ (w ++ b)) = beadsOf a ++ beadsOf b := by
  obtain ⟨v, e⟩ := exists_tokenize_gap ha hw hne b
  rw [beadsOf, e, beads_append, beads_cons_space rfl, beads_dropEndWhile, beads_dropWhile]
  rfl

end

/-! ## Texts -/

theorem stable_nil : Stable [] := ⟨by simp [Flat], by simp, by simp, by simp⟩

theorem stable_tokenize {s : Text} : Stable (tokenize s) ↔ Stable ((beadsOf s).map Prod.snd) := by
  rw [beadsOf, map_snd_beads]
  exact ⟨fun h => h.of_subset fun t ht => (mem_solids.mp ht).1, Stable.of_solids⟩

@[simp] theorem beadsOf_nil : beadsOf [] = [] := by rw [beadsOf, tokenize, beads]

theorem beadsOf_space_append {w : Text} (hw : w.all isSpaceChar) (s : Text) : beadsOf (w ++ s) = beadsOf s := by
  by_cases hne : w = []
  · rw [hne, List.nil_append]
  · have := beadsOf_gap (a := []) (by rw [tokenize]; exact stable_nil) hw hne s
    rwa [beadsOf_nil] at this

theorem all_isSpaceChar_pad (n : Nat) : (pad n).all isSpaceChar := by simp [pad, isSpaceChar]

theorem beadsOf_pad_append (n : Nat) (s : Text) : beadsOf (pad n ++ s) = beadsOf s :=
  beadsOf_space_append (all_isSpaceChar_pad n) s

theorem beadsOf_joinLines {ls : List Text} (h : ∀ l ∈ ls, Stable (tokenize l)) :
    beadsOf (joinLines ls) = ls.flatMap beadsOf := by
  match ls with
  | [] => simp
  | [l] => simp
  | l :: m :: ls =>
    have ih := beadsOf_joinLines fun k hk => h k (List.mem_cons_of_mem l hk)
    rw [joinLines_cons_cons, List.flatMap_cons, ← ih]
    exact beadsOf_gap (w := ['\n']) (h l List.mem_cons_self) rfl (List.cons_ne_nil _ _) _

section
variable {ts : List Token} (hl : Lexed ts) (hs : Stable ts)
include hl hs

theorem tokenize_trimEnd : tokenize (trimEnd (spell ts)) = dropEndWhile Token.isSpace ts := by
  rw [trimEnd_firm (fun t ht => hl.formed ht) hs.firm]
  exact (hl.of_infix (List.rdropWhile_prefix _ _).isInfix).tokenize_spell

theorem tokenize_trimStart : tokenize (trimStart (spell ts)) = ts.dropWhile Token.isSpace := by
  rw [trimStart_firm (fun t ht => hl.formed ht) hs.firm]
  exact (hl.of_infix (List.dropWhile_suffix _).isInfix).tokenize_spell

theorem tokenize_trim : tokenize (trim (spell ts)) = strip ts := by
  rw [trim_firm (fun t ht => hl.formed ht) hs.firm]
  exact (hl.of_infix (infix_strip ts)).tokenize_spell

end

section
variable {s : Text} (h : Stable (tokenize s))
include h

theorem beadsOf_trimEnd : beadsOf (trimEnd s) = beadsOf s := by
  have e := tokenize_trimEnd (lexed_tokenize s) h
  rw [spell_tokenize] at e
  rw [beadsOf, e, beads_dropEndWhile]
  rfl

theorem beadsOf_trimStart : beadsOf (trimStart s) = beadsOf s := by
  have e := tokenize_trimStart (lexed_tokenize s) h
  rw [spell_tokenize] at e
  rw [beadsOf, e, beads_dropWhile]
  rfl

end

/-! ## Code on one line -/

theorem beads_blanked (gap : Bool) (ts : List Token) : beads gap (blanked ts) = beads gap ts := by
  induction ts generalizing gap with
  | nil => rfl
  | cons t ts ih =>
    rw [blanked, List.map_cons, ← blanked]
    cases h : t.isSpace with
    | true => rw [if_pos rfl, beads_cons_space rfl, beads_cons_space h, ih]
    | false => rw [if_neg (by simp), beads_cons_solid h, beads_cons_solid h, ih]

theorem Stable.blanked {ts : List Token} (h : Stable ts) : Stable (blanked ts) := by
  refine Stable.of_solids ?_
  rw [← map_snd_beads true, beads_blanked, map_snd_beads]
  exact h.of_subset fun t ht => (mem_solids.mp ht).1

/-- Tokens are put on one line by their beads, which stay. -/
theorem collapse_stable {ts : List Token} (h : Lexed ts) (hs : Stable ts) :
    collapse ts = spell (unbead (beads true ts)) ∧ tokenize (collapse ts) = unbead (beads true ts) ∧
      beadsOf (collapse ts) = beads true ts := by
  have hl : Lexed (blanked ts) := h.blanked hs.isLineComment
  have e : collapse ts = spell (strip (blanked ts)) := by
    rw [collapse_eq, trim_firm (fun t ht => hl.formed ht) hs.blanked.firm]
  have ht : tokenize (collapse ts) = strip (blanked ts) := by
    rw [e]
    exact (hl.of_infix (infix_strip _)).tokenize_spell
  rw [← strip_blanked h]
  exact ⟨e, ht, by rw [beadsOf, ht, beads_strip, beads_blanked]⟩

theorem normalize_stable {s : Text} (h : Stable (tokenize s)) (n : Nat) :
    normalize n s = spell (unbead (beadsOf s)) ∧ tokenize (normalize n s) = unbead (beadsOf s) ∧
      beadsOf (normalize n s) = beadsOf s := by
  rw [normalize, if_neg (by simpa using h.isLineComment)]
  exact collapse_stable (lexed_tokenize s) h

/-! ## Items -/

def Item.ofBeads (bs : List Bead) : Item := { code := spell (unbead bs) }

theorem takeWhile_congr_mem {α : Type} {p q : α → Bool} {l : List α} (h : ∀ a ∈ l, p a = q a) :
    l.takeWhile p = l.takeWhile q := by
  induction l with
  | nil => rfl
  | cons a l ih =>
    rw [List.takeWhile_cons, List.takeWhile_cons, h a List.mem_cons_self, ih fun b hb => h b (List.mem_cons_of_mem _ hb)]

theorem dropWhile_congr_mem {α : Type} {p q : α → Bool} {l : List α} (h : ∀ a ∈ l, p a = q a) :
    l.dropWhile p = l.dropWhile q := by
  induction l with
  | nil => rfl
  | cons a l ih =>
    rw [List.dropWhile_cons, List.dropWhile_cons, h a List.mem_cons_self, ih fun b hb => h b (List.mem_cons_of_mem _ hb)]

theorem commentLines_space {ts : List Token} (hf : ∀ t ∈ ts, t.Formed) (hs : ∀ t ∈ ts, t.isSpace) :
    commentLines ts = [] := by
  refine List.filter_eq_nil_iff.mpr fun l hl => ?_
  obtain ⟨m, hm, rfl⟩ := List.mem_map.mp hl
  have hi := (mem_splitOnP hm).1
  have := spell_space (fun t ht => hf t (hi.subset ht)) fun t ht => hs t (hi.subset ht)
  have : trim (spell m) = [] := trim_eq_nil.mpr (by
    simp only [List.all_eq_true] at this ⊢
    exact fun c hc => isBlank_of_isSpaceChar (this c hc))
  simp [this]

theorem trim_space {ts : List Token} (hf : ∀ t ∈ ts, t.Formed) (hs : ∀ t ∈ ts, t.isSpace) : trim (spell ts) = [] := by
  refine trim_eq_nil.mpr ?_
  have := spell_space hf hs
  simp only [List.all_eq_true] at this ⊢
  exact fun c hc => isBlank_of_isSpaceChar (this c hc)

theorem Item.ofTokens?_stable {g : List Token} (hl : Lexed g) (h : Stable g) :
    Item.ofTokens? g = if solids g = [] then none else some { code := spell (strip g) } := by
  have hfront : g.takeWhile Token.isTrivia = g.takeWhile Token.isSpace := takeWhile_congr_mem h.isTrivia
  have hrest : g.dropWhile Token.isTrivia = g.dropWhile Token.isSpace := dropWhile_congr_mem h.isTrivia
  have hsuffix := List.dropWhile_suffix (l := g) Token.isSpace
  have hback : takeEndWhile Token.isTrivia (g.dropWhile Token.isSpace) =
      takeEndWhile Token.isSpace (g.dropWhile Token.isSpace) := by
    rw [takeEndWhile, takeEndWhile, takeWhile_congr_mem fun t ht => h.isTrivia t (hsuffix.subset (List.mem_reverse.mp ht))]
  have hcode : dropEndWhile Token.isTrivia (g.dropWhile Token.isSpace) = strip g := by
    rw [strip, dropEndWhile, dropEndWhile,
      dropWhile_congr_mem fun t ht => h.isTrivia t (hsuffix.subset (List.mem_reverse.mp ht))]
  have hxs : ∀ t ∈ g.takeWhile Token.isSpace, t.isSpace := fun t ht => List.mem_takeWhile_imp ht
  have hys : ∀ t ∈ takeEndWhile Token.isSpace (g.dropWhile Token.isSpace), t.isSpace :=
    fun t ht => List.mem_rtakeWhile_imp ht
  have hxf : ∀ t ∈ g.takeWhile Token.isSpace, t.Formed := fun t ht => hl.formed ((List.takeWhile_prefix _).subset ht)
  have hyf : ∀ t ∈ takeEndWhile Token.isSpace (g.dropWhile Token.isSpace), t.Formed := fun t ht =>
    hl.formed (hsuffix.subset ((List.rtakeWhile_suffix _ _).subset ht))
  have hnil : g.dropWhile Token.isSpace = [] ↔ solids g = [] := by
    rw [solids_eq_nil, List.dropWhile_eq_nil_iff, List.all_eq_true]
  simp only [ofTokens?, hfront, hrest]
  split
  · next e =>
    have hg : g.takeWhile Token.isSpace = g := by
      have := List.takeWhile_append_dropWhile (p := Token.isSpace) (l := g)
      rwa [e, List.append_nil] at this
    rw [hg] at hxs
    rw [if_pos (hnil.mp e), commentLines_space (fun t ht => hl.formed ht) hxs, if_pos rfl]
  · next e =>
    rw [if_neg (mt hnil.mpr e), hback, hcode]
    have hkept := List.rdropWhile_prefix (fun t : Token => !t.isNewline) (g.takeWhile Token.isSpace)
    have hline := List.rtakeWhile_suffix (fun t : Token => !t.isNewline) (g.takeWhile Token.isSpace)
    have hlead : commentLines (dropEndWhile (fun t => !t.isNewline) (g.takeWhile Token.isSpace)) = [] :=
      commentLines_space (fun t ht => hxf t (hkept.subset ht)) fun t ht => hxs t (hkept.subset ht)
    have hsame : (takeEndWhile (fun t => !t.isNewline) (g.takeWhile Token.isSpace)).dropWhile Token.isSpace = [] :=
      List.dropWhile_eq_nil_iff.mpr fun t ht => hxs t (hline.subset ht)
    have htrail :
        trim (spell ((takeEndWhile Token.isSpace (g.dropWhile Token.isSpace)).takeWhile fun t => !t.isNewline)) = [] :=
      trim_space (fun t ht => hyf t ((List.takeWhile_prefix _).subset ht))
        fun t ht => hys t ((List.takeWhile_prefix _).subset ht)
    have hfollow :
        commentLines ((takeEndWhile Token.isSpace (g.dropWhile Token.isSpace)).dropWhile fun t => !t.isNewline) = [] :=
      commentLines_space (fun t ht => hyf t ((List.dropWhile_suffix _).subset ht)) fun t ht =>
        hys t ((List.dropWhile_suffix _).subset ht)
    rw [hlead, hsame, htrail, hfollow, List.nil_append]
    rfl

theorem beadsOf_spell_strip {g : List Token} (hl : Lexed g) : beadsOf (spell (strip g)) = beads true g := by
  rw [beadsOf, (hl.of_infix (infix_strip g)).tokenize_spell, beads_strip]

theorem Item.prepare_strip {g : List Token} (hl : Lexed g) (h : Stable g) (n : Nat) :
    Item.prepare n { code := spell (strip g) } = ofBeads (beads true g) := by
  have hstable : Stable (tokenize (spell (strip g))) := by
    rw [(hl.of_infix (infix_strip g)).tokenize_spell]
    exact h.of_subset (infix_strip g).subset
  rw [prepare, (normalize_stable hstable n).1, beadsOf_spell_strip hl, ofBeads]

theorem Item.prepare_ofTokens {g : List Token} (hl : Lexed g) (h : Stable g) (n : Nat) :
    (Item.ofTokens g).prepare n = ofBeads (beads true g) := by
  rw [ofTokens, ofTokens?_stable hl h]
  split
  · next hn =>
    have := prepare_strip hl h n
    rwa [strip_eq_nil.mpr hn, spell_nil] at this
  · exact prepare_strip hl h n

theorem prepareAll_stable {gs : List (List Token)} (h : ∀ g ∈ gs, Lexed g ∧ Stable g) (n : Nat) :
    prepareAll n (gs.filterMap Item.ofTokens?) = .ok (((gs.map (beads true)).filter (· ≠ [])).map Item.ofBeads) := by
  have hitems : (gs.filterMap Item.ofTokens?).map (Item.prepare n) =
      ((gs.map (beads true)).filter (· ≠ [])).map Item.ofBeads := by
    induction gs with
    | nil => rfl
    | cons g gs ih =>
      obtain ⟨hl, hs⟩ := h g List.mem_cons_self
      have ih := ih fun k hk => h k (List.mem_cons_of_mem g hk)
      have hg := Item.ofTokens?_stable hl hs
      rw [List.map_cons]
      by_cases hn : solids g = []
      · rw [if_pos hn] at hg
        rw [List.filterMap_cons_none hg, ih, List.filter_cons_of_neg (by simpa using beads_eq_nil.mpr hn)]
      · rw [if_neg hn] at hg
        rw [List.filterMap_cons_some hg, List.map_cons, ih,
          List.filter_cons_of_pos (by simpa using mt beads_eq_nil.mp hn), List.map_cons, Item.prepare_strip hl hs]
  have hcode : ∀ i ∈ gs.filterMap Item.ofTokens?, i.code ≠ [] := by
    intro i hi
    obtain ⟨g, hg, e⟩ := List.mem_filterMap.mp hi
    obtain ⟨hl, hs⟩ := h g hg
    rw [Item.ofTokens?_stable hl hs] at e
    split at e
    · cases e
    · next hn =>
      rw [← Option.some.inj e]
      exact spell_ne_nil (hl.of_infix (infix_strip g)).legible (mt strip_eq_nil.mp hn)
  have hfilled : (gs.filterMap Item.ofTokens?).any (·.code = []) = false :=
    List.any_eq_false.mpr fun i hi => by simpa using hcode i hi
  rw [prepareAll, hfilled, if_neg (by decide), hitems]

end SqlLayout
