import SqlLayout.Proofs.Trim

/-!
# Lines that hold tokens

`Lays k us ls` says that the lines `ls` hold the tokens `us` in their order,
less `k` commas, and that no comma has moved but past comments. Where trimming
has cut into a token the lines have fewer hard blanks than the tokens, and
nothing more is said: such lines hold other tokens, which a count finds.

The lemmas below put such lines together. Lines under one another hold the
tokens of both; two lines become one where the first does not end in a line
comment and the second starts with a character that no token goes on with.
-/

namespace SqlLayout

/-! ## Lines of a text -/

@[simp] theorem joinLines_nil : joinLines [] = [] := rfl

@[simp] theorem joinLines_singleton (l : Text) : joinLines [l] = l := List.intercalate_singleton

@[simp] theorem joinLines_cons_cons (l m : Text) (ls : List Text) :
    joinLines (l :: m :: ls) = l ++ '\n' :: joinLines (m :: ls) := by
  simp [joinLines, List.intercalate_cons_cons]

theorem joinLines_cons (l : Text) (ls : List Text) : ∃ r, joinLines (l :: ls) = l ++ r := by
  cases ls with
  | nil => exact ⟨[], by simp⟩
  | cons m ls => exact ⟨_, joinLines_cons_cons l m ls⟩

theorem all_joinLines {p : Char → Bool} (hp : p '\n') {ls : List Text} (h : ∀ l ∈ ls, l.all p) : (joinLines ls).all p := by
  match ls with
  | [] => rfl
  | [l] => simpa using h l (by simp)
  | l :: m :: ls =>
    have ih := all_joinLines hp fun k hk => h k (List.mem_cons_of_mem l hk)
    rw [joinLines_cons_cons, List.all_append, List.all_cons, ih, h l (by simp), hp]
    rfl

theorem splitLines_ne_nil (s : Text) : splitLines s ≠ [] := List.splitOn_ne_nil '\n' s

theorem mem_splitOnP {α : Type} {p : α → Bool} {xs l : List α} (h : l ∈ xs.splitOnP p) :
    l <:+: xs ∧ ∀ x ∈ l, p x = false := by
  -- the first part is a start of the list, which a step makes longer
  have key : ∃ m ms, xs.splitOnP p = m :: ms ∧ (m <+: xs ∧ ∀ x ∈ m, p x = false) ∧
      ∀ l ∈ ms, l <:+: xs ∧ ∀ x ∈ l, p x = false := by
    clear h
    induction xs with
    | nil => exact ⟨[], [], by simp, by simp, by simp⟩
    | cons x xs ih =>
      obtain ⟨m, ms, e, ⟨hm, hmp⟩, hms⟩ := ih
      rw [List.splitOnP_cons_eq_if_modifyHead, e]
      cases hx : p x with
      | true =>
        refine ⟨[], m :: ms, by simp, by simp, fun l hl => ?_⟩
        rcases List.mem_cons.mp hl with rfl | hl
        · exact ⟨hm.isInfix.trans (List.suffix_cons _ _).isInfix, hmp⟩
        · exact ⟨(hms l hl).1.trans (List.suffix_cons _ _).isInfix, (hms l hl).2⟩
      | false =>
        refine ⟨x :: m, ms, by simp, ⟨by simpa using hm, by simpa [hx] using hmp⟩, fun l hl => ?_⟩
        exact ⟨(hms l hl).1.trans (List.suffix_cons _ _).isInfix, (hms l hl).2⟩
  obtain ⟨m, ms, e, hm, hms⟩ := key
  rw [e] at h
  rcases List.mem_cons.mp h with rfl | h
  · exact ⟨hm.1.isInfix, hm.2⟩
  · exact hms l h

theorem newline_notMem_splitLines {s l : Text} (h : l ∈ splitLines s) : '\n' ∉ l := fun hn => by
  have := (mem_splitOnP (p := (· == '\n')) h).2 _ hn
  simp at this

/-- A newline stands in space only, so the line in front of it is flat. -/
theorem flat_line {ts : List Token} (hl : Legible ts) (hf : Flat ts) {l r : Text}
    (e : spell ts = l ++ '\n' :: r) : Flat (tokenize l) := by
  induction ts generalizing l with
  | nil => simp at e
  | cons t ts ih =>
    obtain ⟨hft, hst, hlt⟩ := hl
    rw [spell_cons] at e
    rcases List.append_eq_append_iff.mp e with ⟨l', rfl, e'⟩ | ⟨w, ht, e'⟩
    · have ih := ih hlt (hf.of_subset (by simp)) e'
      rw [flat_tokenize_iff] at ih ⊢
      rw [solidsOf_text_append hft (hst.imp_right (·.of_isPrefix (e' ▸ List.prefix_append l' _)))]
      split
      · exact ih
      · exact (show Flat [t] from hf.of_subset (by simp)).append ih
    · cases w with
      | nil =>
        rw [List.nil_append] at e'
        rw [List.append_nil] at ht
        subst ht
        have hl : Legible [t] := ⟨hft, hst.imp_right (·.of_isPrefix List.nil_prefix), trivial⟩
        simpa using flat_tokenize_spell hl (hf.of_subset (by simp))
      | cons c w =>
        obtain ⟨rfl, -⟩ := List.cons.inj e'
        have hn : t.isSpace := by
          have := hf t (by simp)
          simp only [Token.isFlat, Token.spansLines, ht, Bool.and_eq_true, Bool.not_eq_true',
            Bool.and_eq_false_iff, Bool.not_eq_false'] at this
          exact this.2.resolve_right (by simp)
        obtain ⟨v, rfl⟩ := Token.eq_whitespace hn
        have hv : l.all isSpaceChar := by
          have := hft.2
          rw [show v = l ++ '\n' :: w from ht, List.all_append, Bool.and_eq_true] at this
          exact this.1
        rw [flat_iff_solids, ← solidsOf, solidsOf_space hv]
        exact fun t ht => absurd ht (by simp)

theorem solidsOf_line {l : Text} (h : Flat (tokenize l)) (r : Text) :
    solidsOf (l ++ '\n' :: r) = solidsOf l ++ solidsOf r :=
  solidsOf_append_newline (closed_iff.mpr fun _ ht => h.isUnterminated ht) r

theorem flat_append_newline {l r : Text} :
    Flat (tokenize (l ++ '\n' :: r)) ↔ Flat (tokenize l) ∧ Flat (tokenize r) := by
  have key : Flat (tokenize l) →
      (Flat (tokenize (l ++ '\n' :: r)) ↔ Flat (tokenize l) ∧ Flat (tokenize r)) := by
    intro h
    rw [flat_tokenize_iff, flat_tokenize_iff l, flat_tokenize_iff r, solidsOf_line h]
    exact ⟨fun h => ⟨h.of_subset (by simp), h.of_subset (by simp)⟩, fun h => h.1.append h.2⟩
  constructor
  · intro h
    exact (key (flat_line (legible_tokenize _) h (spell_tokenize _))).mp h
  · exact fun h => (key h.1).mpr h

def hardsIn (ls : List Text) : Nat := (ls.map hards).sum

def plainsIn (ls : List Text) : List Token := ls.flatMap plainsOf

def FlatLines (ls : List Text) : Prop := ∀ l ∈ ls, Flat (tokenize l)

@[simp] theorem hardsIn_nil : hardsIn [] = 0 := rfl

@[simp] theorem hardsIn_cons (l : Text) (ls : List Text) : hardsIn (l :: ls) = hards l + hardsIn ls := by
  simp [hardsIn]

@[simp] theorem hardsIn_append (ls ms : List Text) : hardsIn (ls ++ ms) = hardsIn ls + hardsIn ms := by
  simp [hardsIn]

@[simp] theorem plainsIn_nil : plainsIn [] = [] := rfl

@[simp] theorem plainsIn_cons (l : Text) (ls : List Text) :
    plainsIn (l :: ls) = plainsOf l ++ plainsIn ls := List.flatMap_cons

@[simp] theorem plainsIn_append (ls ms : List Text) :
    plainsIn (ls ++ ms) = plainsIn ls ++ plainsIn ms := List.flatMap_append

@[simp] theorem flatLines_nil : FlatLines [] := fun _ h => absurd h (by simp)

@[simp] theorem flatLines_cons {l : Text} {ls : List Text} :
    FlatLines (l :: ls) ↔ Flat (tokenize l) ∧ FlatLines ls := by simp [FlatLines]

@[simp] theorem flatLines_append {ls ms : List Text} :
    FlatLines (ls ++ ms) ↔ FlatLines ls ∧ FlatLines ms := by
  simp [FlatLines, or_imp, forall_and]

theorem hards_joinLines (ls : List Text) : hards (joinLines ls) = hardsIn ls := by
  match ls with
  | [] => rfl
  | [l] => simp
  | l :: m :: ls =>
    have : isHard '\n' = false := by decide
    rw [joinLines_cons_cons, hards_append, hards_cons, hards_joinLines (m :: ls), this]
    simp

theorem flat_joinLines {ls : List Text} : Flat (tokenize (joinLines ls)) ↔ FlatLines ls := by
  match ls with
  | [] => simp [tokenize, Flat]
  | [l] => simp
  | l :: m :: ls =>
    rw [joinLines_cons_cons, flat_append_newline, @flat_joinLines (m :: ls), flatLines_cons (l := l)]

theorem plainsOf_joinLines {ls : List Text} (h : FlatLines ls) : plainsOf (joinLines ls) = plainsIn ls := by
  match ls with
  | [] => simp
  | [l] => simp
  | l :: m :: ls =>
    obtain ⟨hl, hls⟩ := flatLines_cons.mp h
    have ih := plainsOf_joinLines hls
    rw [joinLines_cons_cons, plainsOf_eq, solidsOf_line hl, List.map_append, ← plainsOf_eq, ← plainsOf_eq,
      ih, plainsIn_cons l]

def TakesMore (us : List Token) : Prop := us.getLast?.all fun t => !t.isLineComment

theorem TakesMore.append {us vs : List Token} (h : TakesMore us) (h' : TakesMore vs) : TakesMore (us ++ vs) := by
  unfold TakesMore at *
  rw [List.getLast?_append]
  cases e : vs.getLast? with
  | none => exact h
  | some t => rwa [e] at h'

theorem takesMore_of_forall {us : List Token} (h : ∀ t ∈ us, t.isLineComment = false) : TakesMore us := by
  unfold TakesMore
  cases e : us.getLast? with
  | none => rfl
  | some t => simpa using h t (List.mem_of_getLast? e)

/-! ## Lines that lose no token -/

/-- The second lines hold the tokens of the first, or have lost a hard blank. -/
def Fades (ls ms : List Text) : Prop :=
  hardsIn ms ≤ hardsIn ls ∧
    (FlatLines ls → hardsIn ms = hardsIn ls → plainsIn ms = plainsIn ls ∧ FlatLines ms)

namespace Fades

variable {ls ms ns ls' ms' : List Text} {l m : Text}

theorem refl (ls : List Text) : Fades ls ls := ⟨Nat.le_refl _, fun h _ => ⟨rfl, h⟩⟩

theorem trans (h : Fades ls ms) (h' : Fades ms ns) : Fades ls ns := by
  refine ⟨h'.1.trans h.1, fun hf e => ?_⟩
  have e₁ : hardsIn ms = hardsIn ls := Nat.le_antisymm h.1 (e ▸ h'.1)
  obtain ⟨p, hf⟩ := h.2 hf e₁
  obtain ⟨q, hf⟩ := h'.2 hf (e.trans e₁.symm)
  exact ⟨q.trans p, hf⟩

theorem append (h : Fades ls ms) (h' : Fades ls' ms') : Fades (ls ++ ls') (ms ++ ms') := by
  have hle := h.1
  have hle' := h'.1
  refine ⟨by rw [hardsIn_append, hardsIn_append]; omega, fun hf e => ?_⟩
  obtain ⟨hl, hl'⟩ := flatLines_append.mp hf
  rw [hardsIn_append, hardsIn_append] at e
  obtain ⟨p, hm⟩ := h.2 hl (by omega)
  obtain ⟨q, hm'⟩ := h'.2 hl' (by omega)
  exact ⟨by simp [p, q], flatLines_append.mpr ⟨hm, hm'⟩⟩

theorem cons (h : Fades [l] [m]) (h' : Fades ls ms) : Fades (l :: ls) (m :: ms) := h.append h'

theorem map_map {α : Type} {f g : α → Text} (h : ∀ x, Fades [f x] [g x]) (xs : List α) :
    Fades (xs.map f) (xs.map g) := by
  induction xs with
  | nil => exact refl _
  | cons x xs ih => exact (h x).cons ih

theorem map {f : Text → Text} (hf : ∀ l, Fades [l] [f l]) (ls : List Text) : Fades ls (ls.map f) := by
  simpa using map_map (f := id) hf ls

theorem filter (ls : List Text) : Fades ls (ls.filter (· ≠ [])) := by
  induction ls with
  | nil => exact refl _
  | cons l ls ih =>
    by_cases hl : l = []
    · subst hl
      rw [List.filter_cons_of_neg (by simp)]
      refine trans ?_ ih
      exact ⟨by simp, fun h _ => ⟨by simp, (flatLines_cons.mp h).2⟩⟩
    · rw [List.filter_cons_of_pos (by simpa using hl)]
      exact (refl [l]).append ih

theorem join (ls : List Text) : Fades ls [joinLines ls] :=
  ⟨by simp [hards_joinLines], fun h _ =>
    ⟨by simp [plainsOf_joinLines h], flatLines_cons.mpr ⟨flat_joinLines.mpr h, flatLines_nil⟩⟩⟩

theorem split (s : Text) : Fades [s] (splitLines s) := by
  have e := joinLines_splitLines s
  refine ⟨by simp [← hards_joinLines, e], fun h _ => ?_⟩
  have hf : FlatLines (splitLines s) := flat_joinLines.mp (by rw [e]; exact (flatLines_cons.mp h).1)
  exact ⟨by simp [← plainsOf_joinLines hf, e], hf⟩

theorem of_solids (hs : solidsOf m = solidsOf l) (hh : hards m ≤ hards l) : Fades [l] [m] := by
  refine ⟨by simpa using hh, fun hf _ => ?_⟩
  have hf := (flatLines_cons.mp hf).1
  refine ⟨by simp [plainsOf_eq, hs], flatLines_cons.mpr ⟨?_, flatLines_nil⟩⟩
  rw [flat_iff_solids] at hf ⊢
  rwa [← solidsOf, hs]

theorem space_append {w : Text} (hw : w.all isSpaceChar) (l : Text) : Fades [l] [w ++ l] :=
  of_solids (solidsOf_space_append hw l) (by simp [hards_space hw])

theorem drop_space {w : Text} (hw : w.all isSpaceChar) (l : Text) : Fades [w ++ l] [l] :=
  of_solids (solidsOf_space_append hw l).symm (by simp)

theorem pad_append (n : Nat) (l : Text) : Fades [l] [pad n ++ l] :=
  space_append (by simp [pad, isSpaceChar]) l

theorem of_thins (hf : Flat (tokenize l) → Flat (tokenize m) ∧ Thins (tokenize l) m)
    (hm : hards m ≤ hards l) : Fades [l] [m] := by
  refine ⟨by simpa using hm, fun h e => ?_⟩
  obtain ⟨hm, ht⟩ := hf (flatLines_cons.mp h).1
  have hp : plainsOf m = plainsOf l := ht.resolve_right fun ⟨_, hlt⟩ => by
    rw [spell_tokenize] at hlt
    simp at e
    omega
  exact ⟨by simp [hp], flatLines_cons.mpr ⟨hm, flatLines_nil⟩⟩

theorem trimEnd (l : Text) : Fades [l] [trimEnd l] := by
  refine of_thins (fun h => ?_) (hards_trimEnd_le l)
  obtain ⟨us, hl, hf, e, ht⟩ := trimEnd_spell (legible_tokenize l) h
  rw [spell_tokenize] at e
  rw [← e]
  exact ⟨flat_tokenize_spell hl hf, ht⟩

theorem trimStart (l : Text) : Fades [l] [trimStart l] := by
  refine of_thins (fun h => ?_) (hards_trimStart_le l)
  simpa only [spell_tokenize] using trimStart_spell (legible_tokenize l) h

theorem trim (l : Text) : Fades [l] [trim l] := (trimStart l).trans (trimEnd _)

theorem glue {a b : Text} (ha : TakesMore (plainsOf a)) (hb : b.head?.all isBreak) :
    Fades [a, b] [a ++ b] := by
  refine ⟨by simp, fun hf _ => ?_⟩
  obtain ⟨fa, fb, -⟩ : Flat (tokenize a) ∧ Flat (tokenize b) ∧ FlatLines [] := by simpa using hf
  have hs : solidsOf (a ++ b) = solidsOf a ++ solidsOf b := by
    refine solidsOf_append_break (closed_iff.mpr fun _ ht => fa.isUnterminated ht) ?_ hb
    rw [TakesMore, plainsOf_eq, List.getLast?_map] at ha
    cases h : (solidsOf a).getLast? with
    | none => rfl
    | some t => simpa [h] using ha
  refine ⟨by simp [plainsOf_eq, hs], flatLines_cons.mpr ⟨?_, flatLines_nil⟩⟩
  rw [flat_iff_solids] at fa fb ⊢
  rw [← solidsOf, hs]
  exact fa.append fb

theorem cut {s : Text} (ps : List (List Token)) (h : ps.flatten = tokenize s) :
    Fades [s] (ps.map spell) := by
  have hh : ∀ ps : List (List Token), hardsIn (ps.map spell) = hards (spell ps.flatten) := by
    intro ps
    induction ps with
    | nil => rfl
    | cons p ps ih => simp [ih]
  have hp : ∀ ps : List (List Token), Legible ps.flatten → Flat ps.flatten →
      plainsIn (ps.map spell) = plains ps.flatten ∧ FlatLines (ps.map spell) := by
    intro ps hl hf
    induction ps with
    | nil => exact ⟨rfl, flatLines_nil⟩
    | cons p ps ih =>
      obtain ⟨e, f⟩ := ih hl.of_append_right (hf.of_subset (by simp))
      have hlp : Legible p := hl.of_append_left
      refine ⟨by simp [e, hlp.plainsOf_spell], flatLines_cons.mpr ⟨?_, f⟩⟩
      exact flat_tokenize_spell hlp (hf.of_subset (by simp))
  refine ⟨by rw [hh, h, spell_tokenize]; simp, fun hf _ => ?_⟩
  obtain ⟨e, f⟩ := hp ps (h ▸ legible_tokenize s) (h ▸ (flatLines_cons.mp hf).1)
  exact ⟨by simp [e, h, plainsOf], f⟩

end Fades

/-! ## Lines that spell tokens -/

def Spells (us : List Token) (ls : List Text) : Prop :=
  hardsIn ls < seen us ∨ hardsIn ls = seen us ∧ plainsIn ls = us ∧ FlatLines ls

namespace Spells

variable {us vs : List Token} {ls ms : List Text}

theorem hards_le (h : Spells us ls) : hardsIn ls ≤ seen us := by
  rcases h with h | h
  · exact h.le
  · exact h.1.le

protected theorem nil : Spells [] [] := Or.inr ⟨rfl, rfl, flatLines_nil⟩

theorem append (h : Spells us ls) (h' : Spells vs ms) : Spells (us ++ vs) (ls ++ ms) := by
  have hle := h.hards_le
  have hle' := h'.hards_le
  rcases h with h | ⟨e, p, f⟩
  · exact Or.inl (by rw [hardsIn_append, seen_append]; omega)
  rcases h' with h' | ⟨e', p', f'⟩
  · exact Or.inl (by rw [hardsIn_append, seen_append]; omega)
  · exact Or.inr ⟨by simp [e, e'], by simp [p, p'], flatLines_append.mpr ⟨f, f'⟩⟩

theorem mono (h : Spells us ls) (hu : us = vs ∨ seen us < seen vs) : Spells vs ls := by
  rcases hu with rfl | hu
  · exact h
  · exact Or.inl (Nat.lt_of_le_of_lt h.hards_le hu)

theorem fades (h : Spells us ls) (hm : Fades ls ms) : Spells us ms := by
  rcases h with h | ⟨e, p, f⟩
  · exact Or.inl (Nat.lt_of_le_of_lt hm.1 h)
  rcases hm.1.lt_or_eq with hlt | heq
  · exact Or.inl (e ▸ hlt)
  · obtain ⟨q, f⟩ := hm.2 f heq
    exact Or.inr ⟨heq.trans e, q.trans p, f⟩

theorem glue_last {a b : Text} (h : Spells us (ls ++ [a])) (h' : Spells vs [b])
    (hl : TakesMore us) (hb : b.head?.all isBreak) : Spells (us ++ vs) (ls ++ [a ++ b]) := by
  have happ := h.append h'
  rcases h with h | ⟨-, p, -⟩
  · have := h'.hards_le
    refine Or.inl ?_
    simp only [hardsIn_append, hardsIn_cons, hards_append, hardsIn_nil, seen_append] at *
    omega
  have ha : TakesMore (plainsOf a) := by
    rw [plainsIn_append, plainsIn_cons, plainsIn_nil, List.append_nil] at p
    unfold TakesMore at *
    cases e : (plainsOf a).getLast? with
    | none => rfl
    | some t =>
      rw [← p, List.getLast?_append, e] at hl
      exact hl
  refine happ.fades ?_
  rw [List.append_assoc]
  exact (Fades.refl ls).append (Fades.glue ha hb)

theorem glue {a b : Text} (h : Spells us [a]) (h' : Spells vs [b]) (hl : TakesMore us)
    (hb : b.head?.all isBreak) : Spells (us ++ vs) [a ++ b] := by
  rw [← List.nil_append [a]] at h
  exact h.glue_last h' hl hb

end Spells

/-! ## Trimmed lines -/

theorem spells_of_thins {ts : List Token} {m : Text} (hf : Flat (tokenize m)) (ht : Thins ts m)
    (hn : '\n' ∉ m) (hm : m.getLast?.all fun c => !isBlank c) : Spells (plains ts) [m] := by
  simpa [Spells, hf] using ht.line hn hm

theorem spells_trim {ts : List Token} (hl : Legible ts) (hf : Flat ts) (hn : '\n' ∉ spell ts) :
    Spells (plains ts) [trim (spell ts)] := by
  obtain ⟨hft, ht⟩ := trim_spell hl hf
  exact spells_of_thins hft ht (fun h => hn (mem_trim h)) (getLast_trim _)

theorem spells_trimEnd {ts : List Token} (hl : Legible ts) (hf : Flat ts) (hn : '\n' ∉ spell ts) :
    Spells (plains ts) [trimEnd (spell ts)] := by
  obtain ⟨us, hlu, hfu, e, ht⟩ := trimEnd_spell hl hf
  rw [← e]
  refine spells_of_thins (flat_tokenize_spell hlu hfu) ht ?_ (e ▸ getLast_trimEnd _)
  rw [e]
  exact fun h => hn ((trimEnd_isPrefix _).subset h)

theorem spells_splitLines {s : Text} (h : Flat (tokenize s)) {f : Text → Text}
    (hf : ∀ {l}, Flat (tokenize l) → '\n' ∉ l → Spells (plainsOf l) [f l]) :
    Spells (plainsOf s) ((splitLines s).map f) := by
  have hfl : FlatLines (splitLines s) := flat_joinLines.mp (by rwa [joinLines_splitLines])
  have e : plainsOf s = plainsIn (splitLines s) := by
    rw [← plainsOf_joinLines hfl, joinLines_splitLines]
  have hn : ∀ l ∈ splitLines s, '\n' ∉ l := fun l => newline_notMem_splitLines
  rw [e]
  generalize splitLines s = ls at hfl hn
  induction ls with
  | nil => exact Spells.nil
  | cons l ls ih =>
    obtain ⟨hl, hfl⟩ := flatLines_cons.mp hfl
    exact (hf hl (hn l (by simp))).append (ih hfl fun m hm => hn m (by simp [hm]))

theorem spells_trimmedLines {s : Text} (h : Flat (tokenize s)) : Spells (plainsOf s) (trimmedLines s) := by
  refine Spells.fades (spells_splitLines h fun {l} hl hn => ?_) (Fades.filter _)
  simpa [plainsOf, spell_tokenize] using spells_trim (legible_tokenize l) hl (by rwa [spell_tokenize])

theorem spells_trimmedEnds {s : Text} (h : Flat (tokenize s)) :
    Spells (plainsOf s) ((splitLines s).map trimEnd) := by
  refine spells_splitLines h fun {l} hl hn => ?_
  simpa [plainsOf, spell_tokenize] using spells_trimEnd (legible_tokenize l) hl (by rwa [spell_tokenize])

theorem Spells.of_thins {ts : List Token} {s : Text} {ls : List Text} (h : Spells (plainsOf s) ls)
    (ht : Thins ts s) : Spells (plains ts) ls :=
  h.mono (ht.imp_right And.left)

/-! ## Commas -/

/-- The tokens `us` are `vs` less `k` commas, and other commas have moved past
comments at most. -/
structure Keeps (k : Nat) (us vs : List Token) : Prop where
  others : us.filter (· ≠ .comma) = vs.filter (· ≠ .comma)
  code : (us.filter Token.isCode).Sublist (vs.filter Token.isCode)
  commas : us.count .comma + k = vs.count .comma

namespace Keeps

variable {j k : Nat} {us vs ws us' vs' : List Token}

theorem refl (us : List Token) : Keeps 0 us us := ⟨rfl, List.Sublist.refl _, rfl⟩

theorem trans (h : Keeps j us vs) (h' : Keeps k vs ws) : Keeps (j + k) us ws :=
  ⟨h.others.trans h'.others, h.code.trans h'.code, by have := h.commas; have := h'.commas; omega⟩

theorem append (h : Keeps j us vs) (h' : Keeps k us' vs') : Keeps (j + k) (us ++ us') (vs ++ vs') where
  others := by simp only [List.filter_append, h.others, h'.others]
  code := by simpa only [List.filter_append] using h.code.append h'.code
  commas := by
    have := h.commas
    have := h'.commas
    simp only [List.count_append]; omega

theorem seen_eq (h : Keeps k us vs) : seen us = seen vs := by
  have key : ∀ ts : List Token, seen ts = seen (ts.filter (· ≠ .comma)) := by
    intro ts
    induction ts with
    | nil => rfl
    | cons t ts ih =>
      by_cases ht : t = .comma
      · subst ht; simpa [Token.text, show isHard ',' = false by decide] using ih
      · simp [ht, ih]
  rw [key us, key vs, h.others]

/-- Commas may go past comments. -/
theorem comma_comments {xs cs : List Token} (hx : ∀ t ∈ xs, t = .comma) (hc : ∀ t ∈ cs, t.isComment) :
    Keeps 0 (xs ++ cs) (cs ++ xs) where
  others := by
    have : xs.filter (· ≠ .comma) = [] := List.filter_eq_nil_iff.mpr fun t ht => by simp [hx t ht]
    rw [List.filter_append, List.filter_append, this]
    simp
  code := by
    have : cs.filter Token.isCode = [] :=
      List.filter_eq_nil_iff.mpr fun t ht => by simp [Token.isCode, Token.isTrivia, hc t ht]
    rw [List.filter_append, List.filter_append, this]
    simp
  commas := by simp only [List.count_append]; omega

theorem length_code (ts : List Token) : (ts.filter Token.isCode).length =
    ts.count .comma + ((ts.filter (· ≠ .comma)).filter Token.isCode).length := by
  induction ts with
  | nil => rfl
  | cons t ts ih =>
    by_cases ht : t = .comma
    · subst ht
      simp [Token.isCode, Token.isTrivia, Token.isSpace, Token.isComment] at ih ⊢
      omega
    · cases hc : t.isCode <;> simp_all
      omega

theorem code_eq (h : Keeps 0 us vs) : us.filter Token.isCode = vs.filter Token.isCode := by
  refine h.code.eq_of_length ?_
  have := h.commas
  rw [length_code us, length_code vs, h.others]
  omega

theorem symm (h : Keeps 0 us vs) : Keeps 0 vs us :=
  ⟨h.others.symm, h.code_eq ▸ List.Sublist.refl _, h.commas.symm⟩

end Keeps

/-! ## Lines that hold tokens -/

def Lays (k : Nat) (us : List Token) (ls : List Text) : Prop :=
  hardsIn ls < seen us ∨ ∃ vs, Keeps k vs us ∧ Spells vs ls

theorem Spells.lays {us : List Token} {ls : List Text} (h : Spells us ls) : Lays 0 us ls :=
  Or.inr ⟨us, .refl us, h⟩

namespace Lays

variable {j k : Nat} {us vs : List Token} {ls ms : List Text}

theorem hards_le (h : Lays k us ls) : hardsIn ls ≤ seen us := by
  rcases h with h | ⟨vs, hk, h⟩
  · exact h.le
  · exact hk.seen_eq ▸ h.hards_le

theorem append (h : Lays j us ls) (h' : Lays k vs ms) : Lays (j + k) (us ++ vs) (ls ++ ms) := by
  have hle := h.hards_le
  have hle' := h'.hards_le
  rcases h with h | ⟨us', hk, h⟩
  · exact Or.inl (by rw [hardsIn_append, seen_append]; omega)
  rcases h' with h' | ⟨vs', hk', h'⟩
  · exact Or.inl (by rw [hardsIn_append, seen_append]; omega)
  · exact Or.inr ⟨us' ++ vs', hk.append hk', h.append h'⟩

theorem keeps (h : Lays j us ls) (hk : Keeps k us vs) : Lays (j + k) vs ls := by
  rcases h with h | ⟨us', hk', h⟩
  · exact Or.inl (hk.seen_eq ▸ h)
  · exact Or.inr ⟨us', hk'.trans hk, h⟩

theorem mono (h : Lays k us ls) (hu : us = vs ∨ seen us < seen vs) : Lays k vs ls := by
  rcases hu with rfl | hu
  · exact h
  · exact Or.inl (Nat.lt_of_le_of_lt h.hards_le hu)

theorem fades (h : Lays k us ls) (hm : Fades ls ms) : Lays k us ms := by
  rcases h with h | ⟨vs, hk, h⟩
  · exact Or.inl (Nat.lt_of_le_of_lt hm.1 h)
  · exact Or.inr ⟨vs, hk, h.fades hm⟩

theorem joined (h : Lays k us ls) : hards (joinLines ls) < seen us ∨
    Keeps k (plainsOf (joinLines ls)) us ∧ Flat (tokenize (joinLines ls)) := by
  rw [hards_joinLines]
  rcases h with h | ⟨vs, hk, h | ⟨-, p, f⟩⟩
  · exact Or.inl h
  · exact Or.inl (hk.seen_eq ▸ h)
  · exact Or.inr ⟨by rwa [plainsOf_joinLines f, p], flat_joinLines.mpr f⟩

end Lays

end SqlLayout
