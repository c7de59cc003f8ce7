import SqlLayout.Layout
import SqlLayout.Proofs.Lists

/-!
# Items in their places

The lines of an item hold its tokens behind those of its head, and a comma
that is put behind its code or in front of it has moved past comments only.
-/

namespace SqlLayout

/-! ## Heads -/

/-- The head `h` puts `a` in front of a line. -/
def Heads (a h : Text) : Prop := ∀ s, Fades [a, s] [h ++ s]

theorem heads_pad (n : Nat) : Heads [] (pad n) := fun s =>
  (show Fades [[], s] [s] from ⟨by simp, fun h _ => ⟨by simp, (flatLines_cons.mp h).2⟩⟩).trans
    (Fades.pad_append n s)

theorem heads_word {a : Text} (ha : TakesMore (plainsOf a)) (n m : Nat) : Heads a (pad n ++ a ++ pad (m + 1)) := by
  intro s
  have := ((Fades.refl [a]).cons (Fades.pad_append (m + 1) s)).trans (Fades.glue ha rfl)
  rw [List.append_assoc, List.append_assoc]
  exact this.trans (Fades.pad_append n _)

theorem Heads.trimEnd {a h : Text} (hh : Heads a h) : Fades [a] [trimEnd h] := by
  have h₁ : Fades [a] [a, []] := ⟨by simp, fun hf _ => ⟨by simp, by simpa [tokenize, Flat] using hf⟩⟩
  have := h₁.trans (hh [])
  rw [List.append_nil] at this
  exact this.trans (Fades.trimEnd h)

/-! ## One item -/

theorem fades_commentsAt (column : Nat) (cs : List Text) : Fades cs (commentsAt column cs) :=
  Fades.map (fun c => (Fades.pad_append column c).trans (Fades.trimEnd _)) cs

theorem fades_codeLines {a head : Text} (hh : Heads a head) (column : Nat) (code : Text) :
    Fades [a, code] (codeLines head column code) := by
  refine ((Fades.refl [a]).append (Fades.split code)).trans ?_
  unfold codeLines
  obtain ⟨l, ls, e⟩ := List.exists_cons_of_ne_nil (splitLines_ne_nil code)
  rw [e]
  exact (hh l).append (Fades.map (Fades.pad_append column) ls)

theorem codeLines_ne_nil (head : Text) (column : Nat) (code : Text) : codeLines head column code ≠ [] := by
  unfold codeLines
  obtain ⟨l, ls, e⟩ := List.exists_cons_of_ne_nil (splitLines_ne_nil code)
  rw [e]
  exact List.cons_ne_nil _ _

theorem closeLast_append (suffix : Text) (trailing : Option Text) (ls : List Text) (l : Text) :
    closeLast suffix trailing (ls ++ [l]) = ls ++ [l ++ (suffix ++ trailing.elim [] (' ' :: ·))] := by
  induction ls with
  | nil => cases trailing <;> simp [closeLast]
  | cons m ls ih =>
    obtain ⟨x, xs, e⟩ := List.exists_cons_of_ne_nil (List.append_ne_nil_of_right_ne_nil ls (List.cons_ne_nil l []))
    rw [List.cons_append, List.cons_append, ← ih, e, closeLast]
    simp

theorem Spot.lines_ne_nil (s : Spot) (suffix : Text) (i : Item) : s.lines suffix i ≠ [] := by
  have h : ∀ head, closeLast suffix i.trailing (codeLines head s.column i.code) ≠ [] := by
    intro head
    obtain ⟨ls, l, e⟩ := (List.eq_nil_or_concat _).resolve_left (codeLines_ne_nil head s.column i.code)
    rw [e, List.concat_eq_append, closeLast_append]
    simp
  unfold Spot.lines
  simp [h]

inductive Suffix : Text → List Token → Prop
  | none : Suffix [] []
  | comma : Suffix [','] [.comma]

theorem suffix_ite (c : Bool) : Suffix (if c then [','] else []) (if c then [.comma] else []) := by
  cases c
  · exact .none
  · exact .comma

theorem Suffix.spells {suffix : Text} {sfx : List Token} (h : Suffix suffix sfx) : Spells sfx [suffix] := by
  cases h with
  | none => exact Spells.nil.fades (Fades.join [])
  | comma =>
    have h : Legible [Token.comma] := ⟨trivial, Or.inr trivial, trivial⟩
    have := h.plainsOf_spell
    have hf := flat_tokenize_spell h (fun t ht => by obtain rfl := List.mem_singleton.mp ht; rfl)
    exact Or.inr ⟨by decide, by simpa [plains, solids, Token.text, Token.isSpace, Token.plain] using this,
      flatLines_cons.mpr ⟨hf, flatLines_nil⟩⟩

theorem Suffix.commas {suffix : Text} {sfx : List Token} (h : Suffix suffix sfx) : ∀ t ∈ sfx, t = .comma := by
  cases h <;> simp

theorem Suffix.takesMore {suffix : Text} {sfx : List Token} (h : Suffix suffix sfx) : TakesMore sfx :=
  takesMore_of_forall fun t ht => by rw [h.commas t ht]; rfl

theorem spells_closeLast {us trail sfx : List Token} {suffix : Text} {trailing : Option Text} {ls : List Text}
    (h : Spells us ls) (hne : ls ≠ []) (hm : TakesMore us) (hs : Suffix suffix sfx)
    (ht : Spells trail trailing.toList) :
    Spells (us ++ (sfx ++ trail)) (closeLast suffix trailing ls) := by
  obtain ⟨ls, l, rfl⟩ := (List.eq_nil_or_concat ls).resolve_left hne
  have hclose : Spells (sfx ++ trail) [suffix ++ trailing.elim [] (' ' :: ·)] := by
    cases trailing with
    | none => simpa using hs.spells.append ht
    | some c =>
      have hc := ht.fades (Fades.space_append (w := [' ']) (by decide) c)
      exact hs.spells.glue hc hs.takesMore rfl
  rw [List.concat_eq_append] at h ⊢
  rw [closeLast_append]
  refine h.glue_last hclose hm ?_
  cases hs with
  | none => cases trailing <;> rfl
  | comma => rfl

theorem spells_code {us trail follow sfx : List Token} {suffix a head : Text} {i : Item} (hh : Heads a head)
    (h : Spells us [a, i.code]) (hm : TakesMore us) (hs : Suffix suffix sfx)
    (ht : Spells trail i.trailing.toList) (hf : Spells follow i.following) (column following : Nat) :
    Spells (us ++ (sfx ++ (trail ++ follow)))
      ((closeLast suffix i.trailing (codeLines head column i.code)).map trimEnd ++
        commentsAt following i.following) := by
  have hcode := h.fades (fades_codeLines hh column i.code)
  have hclose := spells_closeLast hcode (codeLines_ne_nil _ _ _) hm hs ht
  have := (hclose.fades (Fades.map Fades.trimEnd _)).append (hf.fades (fades_commentsAt following _))
  simpa using this

/-- Where an item stands: its head holds `hs`, which leading comments must not
push down unless they are commas. -/
structure Spot.Reads (s : Spot) (a : Text) (hs : List Token) : Prop where
  heads : Heads a s.head
  spells : Spells hs [a]
  takesMore : TakesMore hs
  keyword : s.isKeyword = false → ∀ t ∈ hs, t = .comma

theorem Spot.lays_lines {s : Spot} {a suffix : Text} {hs sfx : List Token} (hr : s.Reads a hs)
    (hsf : Suffix suffix sfx) {i : Item} {us : List Token} (hi : i.Holds us) :
    Lays 0 (hs ++ (us ++ sfx)) (s.lines suffix i) := by
  obtain ⟨p, rfl, h⟩ := hi
  -- the comma behind the code goes behind all comments
  have htail : Keeps 0 (sfx ++ (p.trail ++ p.follow)) ((p.trail ++ p.follow) ++ sfx) :=
    Keeps.comma_comments hsf.commas h.rest
  have e : hs ++ (p.all ++ sfx) = (hs ++ p.lead) ++ (p.code ++ ((p.trail ++ p.follow) ++ sfx)) := by
    simp [Parts.all]
  have hlead := h.leading.fades (fades_commentsAt s.column i.leading)
  unfold Spot.lines
  by_cases hd : (s.isKeyword && i.leading ≠ []) = true
  · simp only [hd, if_true]
    have hcode := spells_code (heads_pad s.column)
      (show Spells p.code [[], i.code] from (Spells.nil.fades (Fades.join [])).append h.code)
      h.ends hsf h.trailing h.following s.column s.following
    have := (((hr.spells.fades hr.heads.trimEnd).append hlead).append hcode).lays.keeps
      ((Keeps.refl (hs ++ p.lead)).append ((Keeps.refl p.code).append htail))
    rw [e]
    simpa using this
  · simp only [hd]
    have hcode := spells_code hr.heads (hr.spells.append h.code) (hr.takesMore.append h.ends) hsf
      h.trailing h.following s.column s.following
    rw [List.append_assoc] at hcode
    rw [e]
    simp only [Bool.false_eq_true, if_false, List.nil_append, List.append_assoc] at hcode ⊢
    generalize List.map trimEnd (closeLast suffix i.trailing (codeLines s.head s.column i.code)) ++
      commentsAt s.following i.following = body at hcode
    have hlays := (hlead.append hcode).lays.keeps
      ((Keeps.refl p.lead).append ((Keeps.refl hs).append ((Keeps.refl p.code).append htail)))
    cases hk : s.isKeyword with
    | false =>
      have := (Keeps.comma_comments (hr.keyword hk) h.lead).symm.append
        (Keeps.refl (p.code ++ ((p.trail ++ p.follow) ++ sfx)))
      simp only [List.append_assoc] at hlays this
      exact hlays.keeps this
    | true =>
      have hn : i.leading = [] := by simpa [hk] using hd
      have hl := h.leading
      rw [hn] at hl hlays ⊢
      rcases hl with hl | ⟨-, hl, -⟩
      · have := hcode.hards_le
        refine Or.inl ?_
        simp only [commentsAt, List.map_nil, List.nil_append, seen_append, hardsIn_nil] at *
        omega
      · rw [← hl] at hlays ⊢
        simpa using hlays

/-! ## Lists -/

theorem plainsOf_comma : plainsOf [','] = [.comma] := plainsOf_text (t := .comma) trivial rfl

theorem takesMore_nil : TakesMore [] := rfl

theorem reads_pad {s : Spot} {n : Nat} (h : s.head = pad n) : s.Reads [] [] where
  heads := h ▸ heads_pad n
  spells := Suffix.none.spells
  takesMore := takesMore_nil
  keyword := by simp

theorem reads_comma {s : Spot} {n : Nat} (h : s.head = pad n ++ [',', ' ']) : s.Reads [','] [.comma] where
  heads := by
    have := heads_word (a := [',']) (plainsOf_comma ▸ rfl) n 0
    rw [h]
    simpa [pad] using this
  spells := Suffix.comma.spells
  takesMore := Suffix.comma.takesMore
  keyword := by simp

theorem commaed_cons_eq (u : List Token) (us : List (List Token)) :
    commaed (u :: us) = u ++ us.flatMap (Token.comma :: ·) := by
  induction us generalizing u with
  | nil => simp
  | cons v us ih => rw [commaed_cons _ (List.cons_ne_nil _ _), ih]; rfl

theorem lays_laterItems_before (rest : Nat) {items : List Item} {us : List (List Token)}
    (h : List.Forall₂ Item.Holds items us) :
    Lays 0 (us.flatMap (Token.comma :: ·)) (laterItems .before rest items) := by
  induction h with
  | nil => exact Spells.nil.lays
  | cons hi _ ih =>
    have := Spot.lays_lines (s := { head := pad (rest - 2) ++ [',', ' '], column := rest })
      (reads_comma rfl) Suffix.none hi
    rw [List.append_nil] at this
    exact this.append ih

theorem lays_laterItems_after (rest : Nat) {items : List Item} {us : List (List Token)}
    (h : List.Forall₂ Item.Holds items us) : Lays 0 (commaed us) (laterItems .after rest items) := by
  induction h with
  | nil => exact Spells.nil.lays
  | @cons i u is us hi hs ih =>
    have := Spot.lays_lines (s := { head := pad rest, column := rest }) (reads_pad rfl)
      (suffix_ite (is ≠ [])) hi
    have := this.append ih
    cases hs with
    | nil => simpa [laterItems] using this
    | cons _ _ =>
      rw [commaed_cons _ (List.cons_ne_nil _ _), laterItems]
      simpa using this

def ListShape.Reads (s : ListShape) (a : Text) (hs : List Token) : Prop := ∀ n, (s.spot n).Reads a hs

theorem lays_commaList {s : ListShape} {a : Text} {hs : List Token} (hr : s.Reads a hs) (comma : CommaPlace)
    {items : List Item} {us : List (List Token)} (h : List.Forall₂ Item.Holds items us)
    (hne : items ≠ [] ∨ hs = []) : Lays 0 (hs ++ commaed us) (commaList comma s items) := by
  cases h with
  | nil =>
    obtain rfl := hne.resolve_left (by simp)
    exact Spells.nil.lays
  | @cons i u is us hi his =>
    have hr := hr (if is = [] then s.first else s.rest)
    cases comma with
    | before =>
      have := (Spot.lays_lines hr Suffix.none hi).append (lays_laterItems_before s.rest his)
      rw [commaed_cons_eq]
      simpa [commaList] using this
    | after =>
      have := (Spot.lays_lines hr (suffix_ite (is ≠ [])) hi).append (lays_laterItems_after s.rest his)
      cases his with
      | nil => simpa [commaList] using this
      | cons _ _ =>
        rw [commaed_cons _ (List.cons_ne_nil _ _)]
        simpa [commaList] using this

/-! ## Predicates -/

theorem fades_splitOperator {i : Item} {operator code : Text} (h : i.splitOperator = some (operator, code)) :
    Fades [i.code] [operator, code] ∧ TakesMore (plainsOf operator) := by
  unfold Item.splitOperator at h
  split at h
  · next t ts e =>
    split at h
    · next hk =>
      cases h
      obtain ⟨w, rfl⟩ : ∃ w, t = .word w := by
        simp only [Bool.or_eq_true] at hk
        exact hk.elim isWord_of_isKeyword isWord_of_isKeyword
      have hcut := Fades.cut (s := i.code) [[.word w], ts] (by simp [e])
      refine ⟨hcut.trans ?_, takesMore_text (formed_of_mem (s := i.code) (by simp [e])) rfl rfl⟩
      simpa [Token.text] using (Fades.refl [w]).cons (Fades.trimStart (spell ts))
    · cases h
  · cases h

theorem lays_laterCondition (align : Bool) (rest : Nat) {i : Item} {us : List Token} (h : i.Holds us) :
    Lays 0 us (laterCondition align rest i) := by
  unfold laterCondition
  split
  · next operator code e =>
    obtain ⟨p, rfl, h⟩ := h
    have e : i.splitOperator = some (operator, code) := by
      split at e
      · exact e
      · cases e
    obtain ⟨hf, hm⟩ := fades_splitOperator e
    -- the AND or OR and the rest are the code, on one line again
    have hcode := spells_code (i := { i with code }) (heads_word hm (rest - (operator.length + 1)) 0)
      (h.code.fades hf) h.ends Suffix.none h.trailing h.following rest rest
    have := ((h.leading.fades (fades_commentsAt rest _)).append hcode).lays
    simpa [Spot.lines, Parts.all, pad] using this
  · have := Spot.lays_lines (s := { head := pad rest, column := rest }) (reads_pad rfl) Suffix.none h
    simpa using this

theorem lays_conditionList {s : ListShape} {a : Text} {hs : List Token} (hr : s.Reads a hs) (align : Bool)
    {items : List Item} {us : List (List Token)} (h : List.Forall₂ Item.Holds items us)
    (hne : items ≠ [] ∨ hs = []) : Lays 0 (hs ++ us.flatten) (conditionList align s items) := by
  cases h with
  | nil =>
    obtain rfl := hne.resolve_left (by simp)
    exact Spells.nil.lays
  | @cons i u is us hi his =>
    have hlater : Lays 0 us.flatten (is.flatMap (laterCondition align s.rest)) := by
      clear hne
      induction his with
      | nil => exact Spells.nil.lays
      | cons hi _ ih => exact (lays_laterCondition align s.rest hi).append ih
    have := (Spot.lays_lines (hr s.first) Suffix.none hi).append hlater
    simpa [conditionList] using this

end SqlLayout
