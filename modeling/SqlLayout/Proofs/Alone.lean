import SqlLayout.Proofs.Endings

/-!
# Stretches of one block

The stretches from which a block was made are a block alone, too
(`exists_alone`). Without what followed, a look ahead sees less: it does not
complete a draft, and a comment that was kept for the sake of a later line is
in front of nothing, so that it becomes a group of comments, which it was.
-/

namespace SqlLayout

/-! ## Looking less far ahead -/

theorem nextCodeLine_append {ys : List Stretch} {l : Line} (h : nextCodeLine ys = some l) (zs : List Stretch) :
    nextCodeLine (ys ++ zs) = some l := by
  induction ys with
  | nil => cases h
  | cons y ys ih =>
    rw [List.cons_append]
    rw [nextCodeLine] at h ⊢
    cases ho : y.opening with
    | openComment => rw [ho] at h; cases h
    | code c f => rw [ho] at h; exact h
    | _ => rw [ho] at h; exact ih h

theorem Draft.keepsComment_mono {d : Draft} {ys : List Stretch} (h : d.keepsComment ys) (zs : List Stretch) :
    d.keepsComment (ys ++ zs) := by
  rw [keepsComment, Bool.or_eq_true] at h ⊢
  refine h.imp_right fun h => ?_
  cases hn : nextCodeLine ys with
  | none => simp [hn] at h
  | some l => rwa [nextCodeLine_append hn, ← hn]

theorem Draft.isComplete_mono {d : Draft} {last : Line} {ys : List Stretch} (h : d.isComplete last ys) (zs : List Stretch) :
    d.isComplete last (ys ++ zs) := by
  cases hn : nextCodeLine ys with
  | some l => rwa [isComplete, nextCodeLine_append hn, ← hn, ← isComplete]
  | none =>
    have hsemi : last.endsInSemicolon := by simpa [isComplete, hn] using h
    simp [isComplete, hsemi]

/-! ## Comments in a draft -/

/-- A stretch with code opens with it, or with a comment that has no end. -/
def Stretch.Shows (s : Stretch) : Prop :=
  s.opening ≠ .openComment → (∀ c f, s.opening ≠ .code c f) → ∀ t ∈ tokensOf s.lines, t.isCode = false

theorem Draft.isStatement_push {ls : List Line} (h : ∀ t ∈ tokensOf ls, t.isCode = false) (d : Draft) :
    (d.push ls).tally.isStatement = d.tally.isStatement := by
  have hwords : (tokensOf ls).any (fun t => t.keyword.any marksStatement) = false :=
    List.any_eq_false.mpr fun t ht => by simp [keyword_of_not_isCode (h t ht)]
  change ((tokensOf ls).foldl Tally.step d.tally).isStatement = _
  rw [Tally.foldl_isStatement, hwords, Bool.or_false]

theorem Draft.keepsComment_push {ls : List Line} (h : ∀ t ∈ tokensOf ls, t.isCode = false) (d : Draft) (ss : List Stretch) :
    (d.push ls).keepsComment ss = d.keepsComment ss := by
  rw [keepsComment, isStatement_push h, ← keepsComment]

theorem Draft.push_ne_nil (d : Draft) (s : Stretch) : (d.push s.lines).lines ≠ [] := by
  simp [push, s.lines_ne_nil]

/-! ## From a draft to its block -/

/-- The draft becomes the block with the stretches `ys`, in front of `zs`.
Before an empty line that is no line of its own, a block ends only in a
semicolon or a comment. -/
inductive Made (d : Draft) : List Stretch → List Stretch → List Block → Prop
  | draft {ys zs : List Stretch} (k : Option BlockKind)
      (semicolon : zs = [⟨{}, []⟩] → ∃ y ∈ ys.getLast?, y.last.endsInSemicolon) :
      Made d ys zs ({ d.push (ys.flatMap Stretch.lines) with kind := k } : Draft).block?.toList
  | comment {s : Stretch} {zs : List Stretch} (hd : d.lines = []) (ho : s.opening = .comment) :
      Made d [s] zs [⟨.comment, textOf s.lines⟩]

/-- What follows `ys` in `ss` is not asked for, or it is asked only whether
comments become a group. -/
def Alone (d : Draft) (ss ys : List Stretch) (bs : List Block) : Prop :=
  (blocksFrom d ys = bs ∧ (d.keepsComment ss → d.keepsComment ys)) ∨
    ((d.kind = none ∨ d.kind = some .commentGroup) ∧ nextCodeLine ys = none ∧
      blocksFrom { d with kind := some .commentGroup } ys = bs)

structure First (d : Draft) (ss ys zs : List Stretch) (bs : List Block) : Prop where
  split : ss = ys ++ zs
  run : blocksFrom d ss = bs ++ blocksFrom {} zs
  made : Made d ys zs bs
  alone : Alone d ss ys bs
  nonempty : d.lines = [] → ss ≠ [] → ys ≠ []

section
variable {d : Draft} {s : Stretch} {ss : List Stretch}

theorem first_end (hd : d.lines ≠ []) (hs : s.opening ≠ .blank)
    (h : blocksFrom d (s :: ss) = d.block?.toList ++ blocksFrom {} (s :: ss))
    (ha : Alone d (s :: ss) [] d.block?.toList) : First d (s :: ss) [] (s :: ss) d.block?.toList where
  split := rfl
  run := h
  made := by
    have : Made d [] (s :: ss) _ := .draft d.kind fun e => ?_
    · simpa [Draft.push] using this
    · obtain ⟨rfl, -⟩ := List.cons.inj e
      exact absurd rfl hs
  alone := ha
  nonempty := fun h _ => absurd h hd

theorem First.push {k : Option BlockKind} {ys zs : List Stretch} {bs : List Block}
    (h : First { d.push s.lines with kind := k } ss ys zs bs)
    (hrun : blocksFrom d (s :: ss) = blocksFrom { d.push s.lines with kind := k } ss)
    (ha : Alone d (s :: ss) (s :: ys) bs) : First d (s :: ss) (s :: ys) zs bs where
  split := by rw [h.split, List.cons_append]
  run := hrun.trans h.run
  made := by
    have hm := h.made
    cases hm with
    | draft k' semicolon =>
      have : Made d (s :: ys) zs _ := .draft k' fun e => ?_
      · simpa [Draft.push] using this
      · obtain ⟨y, hy, hsemi⟩ := semicolon e
        exact ⟨y, by rw [List.getLast?_cons, Option.mem_def.mp hy]; rfl, hsemi⟩
    | comment hd ho => exact absurd hd (d.push_ne_nil s)
  alone := ha
  nonempty := fun _ _ => List.cons_ne_nil _ _

def Stretch.Idle (s : Stretch) : Prop := ∀ ss, nextCodeLine (s :: ss) = nextCodeLine ss

theorem Stretch.Idle.keepsComment (h : s.Idle) (d : Draft) (ss : List Stretch) : d.keepsComment (s :: ss) = d.keepsComment ss := by
  rw [Draft.keepsComment, h ss, ← Draft.keepsComment]

theorem Alone.push {ys : List Stretch} {bs : List Block} (h : Alone (d.push s.lines) ss ys bs) (hidle : s.Idle)
    (hcode : ∀ t ∈ tokensOf s.lines, t.isCode = false)
    (hrun : (d.keepsComment ss → d.keepsComment ys) → blocksFrom d (s :: ys) = blocksFrom (d.push s.lines) ys)
    (hnote : d.kind = none ∨ d.kind = some .commentGroup →
      blocksFrom { d with kind := some .commentGroup } (s :: ys) =
        blocksFrom (Draft.push { d with kind := some .commentGroup } s.lines) ys) :
    Alone d (s :: ss) (s :: ys) bs := by
  rcases h with ⟨e, hkeep⟩ | ⟨hkind, hnone, e⟩
  · simp only [Draft.keepsComment_push hcode] at hkeep
    exact Or.inl ⟨(hrun hkeep).trans e, by rwa [hidle.keepsComment, hidle.keepsComment]⟩
  · exact Or.inr ⟨hkind, (hidle ys).trans hnone, (hnote hkind).trans e⟩

theorem First.goOn {ys zs : List Stretch} {bs : List Block} (h : First (d.push s.lines) ss ys zs bs) (hidle : s.Idle)
    (hcode : ∀ t ∈ tokensOf s.lines, t.isCode = false) (hss : blocksFrom d (s :: ss) = blocksFrom (d.push s.lines) ss)
    (hrun : (d.keepsComment ss → d.keepsComment ys) → blocksFrom d (s :: ys) = blocksFrom (d.push s.lines) ys)
    (hnote : d.kind = none ∨ d.kind = some .commentGroup →
      blocksFrom { d with kind := some .commentGroup } (s :: ys) =
        blocksFrom (Draft.push { d with kind := some .commentGroup } s.lines) ys) :
    First d (s :: ss) (s :: ys) zs bs :=
  First.push (k := d.kind) h hss (h.alone.push hidle hcode hrun hnote)

theorem exists_first_blank (ho : s.opening = .blank) (hshow : s.Shows) (hd : d.lines ≠ [])
    (ih : ∃ ys zs bs, First (d.push s.lines) ss ys zs bs) : ∃ ys zs bs, First d (s :: ss) ys zs bs := by
  have hidle : s.Idle := fun ss => by rw [nextCodeLine, ho]
  have hrun : ∀ {d : Draft}, d.lines ≠ [] → ∀ ss, blocksFrom d (s :: ss) = blocksFrom (d.push s.lines) ss := by
    intro d hd ss
    rw [blocksFrom, ho]
    simp [hd]
  obtain ⟨ys, zs, bs, h⟩ := ih
  exact ⟨_, _, _, h.goOn hidle (hshow (by simp [ho]) (by simp [ho])) (hrun hd ss) (fun _ => hrun hd ys)
    fun _ => hrun (d := { d with kind := some .commentGroup }) hd ys⟩

theorem exists_first_lineComment (ho : s.opening = .lineComment) (hshow : s.Shows) (hd : d.lines = [] → d = {})
    (ih : ∃ ys zs bs, First (d.push s.lines) ss ys zs bs)
    (ih' : ∃ ys zs bs, First (Draft.push { kind := some .commentGroup } s.lines) ss ys zs bs) :
    ∃ ys zs bs, First d (s :: ss) ys zs bs := by
  have hidle : s.Idle := fun ss => by rw [nextCodeLine, ho]
  have hcode := hshow (by simp [ho]) (by simp [ho])
  have hrun : ∀ (d : Draft) (ss : List Stretch), d.kind = some .commentGroup ∨ d.keepsComment ss →
      blocksFrom d (s :: ss) = blocksFrom (d.push s.lines) ss := by
    intro d ss h
    rw [blocksFrom, ho]
    simp [h]
  have hnew : ∀ (d : Draft) (ss : List Stretch), d.kind ≠ some .commentGroup → d.keepsComment ss = false →
      blocksFrom d (s :: ss) = d.block?.toList ++ blocksFrom (Draft.push { kind := some .commentGroup } s.lines) ss := by
    intro d ss hk h
    rw [blocksFrom, ho]
    simp [hk, h]
  by_cases hkeep : d.kind = some .commentGroup ∨ d.keepsComment ss
  · obtain ⟨ys, zs, bs, h⟩ := ih
    exact ⟨_, _, _, h.goOn hidle hcode (hrun d ss hkeep) (fun himp => hrun d ys (hkeep.imp_right himp))
      fun _ => hrun { d with kind := some .commentGroup } ys (Or.inl rfl)⟩
  rw [not_or, Bool.not_eq_true] at hkeep
  obtain ⟨hk, hkeep⟩ := hkeep
  have hfresh : Draft.keepsComment {} ss = false := by
    rw [Draft.keepsComment, Bool.or_eq_false_iff] at hkeep ⊢
    exact ⟨rfl, hkeep.2⟩
  by_cases hne : d.lines = []
  · -- the comment starts a group, here and alone
    obtain rfl := hd hne
    obtain ⟨ys, zs, bs, h⟩ := ih'
    have hrest : Draft.keepsComment {} ys = false := by
      by_contra hys
      rw [Bool.not_eq_false] at hys
      rw [h.split, Draft.keepsComment_mono hys] at hfresh
      cases hfresh
    refine ⟨_, _, _, First.push (k := some .commentGroup) h (hnew {} ss hk hfresh) (Or.inl ⟨?_, ?_⟩)⟩
    · rw [hnew {} ys hk hrest]
      rcases h.alone with ⟨e, -⟩ | ⟨-, -, e⟩ <;> exact e
    · rw [hidle.keepsComment, hfresh]
      exact fun h => by cases h
  · refine ⟨_, _, _, first_end hne (by simp [ho]) ?_ (Or.inl ⟨rfl, ?_⟩)⟩
    · rw [hnew d ss hk hkeep, hnew {} ss (by simp) hfresh]
      rfl
    · rw [hidle.keepsComment, hkeep]
      exact fun h => by cases h

theorem exists_first_comment (ho : s.opening = .comment) (hshow : s.Shows) (hd : d.lines = [] → d = {})
    (hk : d.kind ≠ some .comment) (ih : ∃ ys zs bs, First (d.push s.lines) ss ys zs bs) :
    ∃ ys zs bs, First d (s :: ss) ys zs bs := by
  have hidle : s.Idle := fun ss => by rw [nextCodeLine, ho]
  have hcode := hshow (by simp [ho]) (by simp [ho])
  have hgroup : d.kind.any (fun k => !k.isComment) = false → d.kind = none ∨ d.kind = some .commentGroup := by
    intro h
    cases hkind : d.kind with
    | none => exact Or.inl rfl
    | some k =>
      rw [hkind] at h hk
      cases k with
      | comment => exact absurd rfl hk
      | commentGroup => exact Or.inr rfl
      | _ => cases h
  have hrun : ∀ (d : Draft) (ss : List Stretch), d.kind.any (fun k => !k.isComment) → d.keepsComment ss →
      blocksFrom d (s :: ss) = blocksFrom (d.push s.lines) ss := by
    intro d ss hk h
    rw [blocksFrom, ho]
    simp [hk, h]
  have hnew : ∀ (d : Draft) (ss : List Stretch), (d.kind.any (fun k => !k.isComment) && d.keepsComment ss) = false →
      blocksFrom d (s :: ss) = d.block?.toList ++ ⟨.comment, textOf s.lines⟩ :: blocksFrom {} ss := by
    intro d ss h
    rw [blocksFrom, ho]
    simp only [h]
    rfl
  by_cases hkeep : d.kind.any (fun k => !k.isComment) && d.keepsComment ss
  · rw [Bool.and_eq_true] at hkeep
    obtain ⟨ys, zs, bs, h⟩ := ih
    refine ⟨_, _, _, h.goOn hidle hcode (hrun d ss hkeep.1 hkeep.2) (fun himp => hrun d ys hkeep.1 (himp hkeep.2))
      fun hgroup => ?_⟩
    rcases hgroup with h | h <;> simp [h, BlockKind.isComment] at hkeep
  rw [Bool.not_eq_true] at hkeep
  by_cases hne : d.lines = []
  · obtain rfl := hd hne
    refine ⟨[s], ss, _, rfl, hnew {} ss rfl, .comment rfl ho, Or.inr ⟨Or.inl rfl, hidle [], ?_⟩, by simp⟩
    exact hnew { kind := some .commentGroup } [] rfl
  · refine ⟨_, _, _, first_end hne (by simp [ho]) (by rw [hnew d ss hkeep, hnew {} ss rfl]; rfl) ?_⟩
    rcases Bool.and_eq_false_iff.mp hkeep with hkind | hkeep
    · refine Or.inr ⟨hgroup hkind, rfl, ?_⟩
      rcases hgroup hkind with h | h <;> simp [blocksFrom, Draft.block?, h]
    · refine Or.inl ⟨rfl, ?_⟩
      rw [hidle.keepsComment, hkeep]
      exact fun h => by cases h

theorem exists_first_openComment (ho : s.opening = .openComment) (hd : d.lines = [] → d = {}) :
    ∃ ys zs bs, First d (s :: ss) ys zs bs := by
  have hrun : ∀ d : Draft, blocksFrom d (s :: ss) = d.block?.toList ++
      (Draft.push { kind := some .generic } ((s :: ss).flatMap Stretch.lines)).block?.toList := by
    intro d
    rw [blocksFrom, ho]
  by_cases hne : d.lines = []
  · obtain rfl := hd hne
    have hnil : blocksFrom {} [] = [] := rfl
    refine ⟨s :: ss, [], _, (List.append_nil _).symm, by rw [hnil, List.append_nil], ?_, Or.inl ⟨rfl, id⟩, by simp⟩
    rw [hrun {}]
    exact .draft (some .generic) (by simp)
  · refine ⟨_, _, _, first_end hne (by simp [ho]) (by rw [hrun d, hrun {}]; rfl) (Or.inl ⟨rfl, ?_⟩)⟩
    simp [Draft.keepsComment, nextCodeLine, ho]

theorem exists_first_code {c f : Line} (ho : s.opening = .code c f) (hd : d.lines = [] → d = {}) (hk : d.kind ≠ some .comment)
    (ih : ∀ k, k ≠ some .comment → ∃ ys zs bs, First { d.push s.lines with kind := k } ss ys zs bs) :
    ∃ ys zs bs, First d (s :: ss) ys zs bs := by
  have hkeep : ∀ ys zs, d.keepsComment (s :: ys) → d.keepsComment (s :: zs) := by
    intro ys zs
    rw [Draft.keepsComment, Draft.keepsComment, nextCodeLine, nextCodeLine, ho]
    exact id
  by_cases hnote : d.kind = some .commentGroup
  · have hne : d.lines ≠ [] := by
      intro h
      rw [hd h] at hnote
      cases hnote
    refine ⟨_, _, _, first_end hne (by simp [ho]) ?_ (Or.inr ⟨Or.inr hnote, rfl, ?_⟩)⟩
    · rw [blocksFrom, blocksFrom, ho]
      simp [hnote]
    · rw [← hnote]
      rfl
  have hkind := kind_ne_comment rfl hk c
  have hnote' := kind_ne_comment rfl hnote c
  generalize hd' : ({ d.push s.lines with kind := some (d.kind.getD c.classify) } : Draft) = d'
  have hrun : ∀ ss, blocksFrom d (s :: ss) =
      if d'.isComplete s.last ss then d'.block?.toList ++ blocksFrom {} ss else blocksFrom d' ss := by
    intro ss
    rw [blocksFrom, ho, ← hd']
    simp only [hnote, ite_false, List.nil_append]
    rfl
  by_cases hcomplete : d'.isComplete s.last ss
  · refine ⟨[s], ss, _, rfl, by rw [hrun ss, if_pos hcomplete], ?_, Or.inl ⟨?_, hkeep ss []⟩, by simp⟩
    · have : Made d [s] ss _ := .draft (some (d.kind.getD c.classify)) fun e => ?_
      · rw [← hd']
        simpa using this
      · subst e
        exact ⟨s, rfl, semicolon_of_isComplete hcomplete⟩
    · rw [hrun []]
      split
      · exact List.append_nil _
      · rw [blocksFrom]
  · obtain ⟨ys, zs, bs, h⟩ := ih _ hkind
    refine ⟨_, _, _, h.push ?_ (Or.inl ⟨?_, hkeep ss ys⟩)⟩
    · rw [hrun ss, if_neg hcomplete, hd']
    · have hrest : ¬d'.isComplete s.last ys := by
        intro hys
        rw [h.split] at hcomplete
        exact hcomplete (Draft.isComplete_mono hys zs)
      rw [hrun ys, if_neg hrest, ← hd']
      rcases h.alone with ⟨e, -⟩ | ⟨hnone | hgroup, -⟩
      · exact e
      · cases hnone
      · exact absurd hgroup hnote'

end

theorem exists_first {ss : List Stretch} (hs : ∀ s ∈ ss, s.Shows) (d : Draft) (hd : d.lines = [] → d = {})
    (hhead : d.lines = [] → ∀ s ∈ ss.head?, s.opening ≠ .blank) (hk : d.kind ≠ some .comment) :
    ∃ ys zs bs, First d ss ys zs bs := by
  induction ss generalizing d with
  | nil =>
    have hm : Made d [] [] _ := .draft d.kind (by simp)
    refine ⟨[], [], _, rfl, ?_, hm, Or.inl ⟨?_, id⟩, by simp⟩
    all_goals simp [blocksFrom, Draft.push]
    rfl
  | cons s ss ih =>
    have hshow := hs s List.mem_cons_self
    have ih : ∀ d : Draft, d.lines ≠ [] → d.kind ≠ some .comment → ∃ ys zs bs, First d ss ys zs bs :=
      fun d hd hk => ih (fun y hy => hs y (List.mem_cons_of_mem _ hy)) d (fun h => absurd h hd) (fun h => absurd h hd) hk
    cases ho : s.opening with
    | blank => exact exists_first_blank ho hshow (fun h => hhead h s rfl ho) (ih _ (d.push_ne_nil s) hk)
    | lineComment =>
      exact exists_first_lineComment ho hshow hd (ih _ (d.push_ne_nil s) hk) (ih _ (Draft.push_ne_nil _ s) (by simp [Draft.push]))
    | comment => exact exists_first_comment ho hshow hd hk (ih _ (d.push_ne_nil s) hk)
    | openComment => exact exists_first_openComment ho hd
    | code c f => exact exists_first_code ho hd hk fun k hk => ih _ (d.push_ne_nil s) hk

/-! ## The stretches of a block -/

/-- In front of no code, comments at the start are a group in any case. -/
theorem blocksFrom_group {ys : List Stretch} (h : nextCodeLine ys = none) :
    blocksFrom { kind := some .commentGroup } ys = blocksFrom {} ys := by
  induction ys with
  | nil => rfl
  | cons y ys ih =>
    rw [nextCodeLine] at h
    rw [blocksFrom, blocksFrom]
    cases ho : y.opening with
    | blank =>
      rw [ho] at h
      simpa using ih h
    | lineComment =>
      rw [ho] at h
      have hkeep : Draft.keepsComment {} ys = false := by
        rw [Draft.keepsComment, show nextCodeLine ys = none from h]
        rfl
      simp [hkeep, Draft.block?]
    | comment => rfl
    | openComment => rfl
    | code c f =>
      rw [ho] at h
      cases h

theorem Made.length_le {d : Draft} {ys zs : List Stretch} {bs : List Block} (h : Made d ys zs bs) : bs.length ≤ 1 := by
  cases h with
  | draft k => exact Option.length_toList_le
  | comment => exact le_rfl

/-- A block is made of a run of the stretches, which make it alone, too. -/
theorem exists_alone {ss : List Stretch} (hs : ∀ s ∈ ss, s.Shows) : ∀ b ∈ blocksFrom {} ss,
    ∃ xs ys zs, ss = xs ++ (ys ++ zs) ∧ Made {} ys zs [b] ∧ blocksFrom {} ys = [b] ∧ ∀ y ∈ ys.head?, y.opening ≠ .blank := by
  induction hn : ss.length using Nat.strong_induction_on generalizing ss with
  | h n ih =>
    intro b hb
    cases ss with
    | nil => cases hb
    | cons s ss =>
      by_cases ho : s.opening = .blank
      · rw [blocksFrom, ho] at hb
        obtain ⟨xs, ys, zs, rfl, h⟩ := ih _ (by simp [← hn]) (fun x hx => hs x (List.mem_cons_of_mem _ hx)) rfl b hb
        exact ⟨s :: xs, ys, zs, rfl, h⟩
      obtain ⟨ys, zs, bs, h⟩ := exists_first hs {} (fun _ => rfl) (fun _ x hx => by simpa [← Option.some.inj hx] using ho) (by simp)
      have hne := h.nonempty rfl (List.cons_ne_nil s ss)
      rw [h.run, List.mem_append] at hb
      rcases hb with hb | hb
      · obtain rfl : bs = [b] := by
          have hle := h.made.length_le
          cases bs with
          | nil => cases hb
          | cons c cs =>
            obtain rfl : cs = [] := by simpa using hle
            rw [List.mem_singleton.mp hb]
        refine ⟨[], ys, zs, h.split, h.made, ?_, ?_⟩
        · rcases h.alone with ⟨e, -⟩ | ⟨-, hnone, e⟩
          · exact e
          · rw [← blocksFrom_group hnone, e]
        · obtain ⟨y, ys, rfl⟩ := List.exists_cons_of_ne_nil hne
          obtain ⟨rfl, -⟩ := List.cons.inj h.split
          intro x hx
          rwa [← Option.some.inj hx]
      · have hlen : zs.length < n := by
          have := congrArg List.length h.split
          have hpos := List.length_pos_iff.mpr hne
          rw [hn, List.length_append] at this
          omega
        obtain ⟨xs', ys', zs', e, h'⟩ := ih _ hlen (fun x hx => hs x (by rw [h.split]; exact List.mem_append_right _ hx)) rfl b hb
        exact ⟨ys ++ xs', ys', zs', by rw [h.split, e, List.append_assoc], h'⟩

end SqlLayout
