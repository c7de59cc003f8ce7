import SqlLayout.Proofs.Beads

/-!
# Letter case and gaps

The letter case of a word depends on its neighbours other than space and on
whether a dot touches it. Space that is put beside keywords, commas or
parentheses leaves both as they are when no keyword touches a dot, so the
words keep their letter case (`Loosens.recaseFrom_eq`).
-/

namespace SqlLayout

/-! ## Letter case by beads -/

def dotTouches (prev : Option Token) (b : Bead) (next : Option Bead) : Bool :=
  (!b.1 && prev = some .dot) || next = some (false, .dot)

def Bead.IsCased (o : Options) (prev : Option Token) (b : Bead) (next : Option Bead) : Prop :=
  ∀ w, b.2 = .word w → dotTouches prev b next = false → b.2.isWordFrom ['@', '#'] = false →
    (caseOf o prev (next.map Prod.snd) w).apply w = w

def AllCased (o : Options) (prev : Option Token) : List Bead → Prop
  | [] => True
  | b :: bs => Bead.IsCased o prev b bs.head? ∧ AllCased o (some b.2) bs

theorem neighbour_eq_head (gap : Bool) (ts : List Token) : neighbour ts = (beads gap ts).head?.map Prod.snd := by
  rw [← List.head?_map, map_snd_beads, solids, List.head?_filter, neighbour]

theorem head_eq_dot (ts : List Token) : ts.head? = some .dot ↔ (beads false ts).head? = some (false, .dot) := by
  cases ts with
  | nil => simp
  | cons t ts =>
    cases h : t.isSpace with
    | false => simp [beads_cons_solid h]
    | true =>
      have hgap : ∀ (us : List Token), (beads true us).head? ≠ some (false, .dot) := by
        intro us
        induction us with
        | nil => simp
        | cons u us ih =>
          cases hu : u.isSpace with
          | true => rwa [beads_cons_space hu]
          | false => simp [beads_cons_solid hu]
      rw [beads_cons_space h]
      refine iff_of_false (fun e => ?_) (hgap ts)
      rw [Option.some.inj e] at h
      cases h

theorem recaseToken_eq_iff {o : Options} {seen ts : List Token} {t : Token} (ht : t.isSpace = false) :
    recaseToken o seen t ts = t ↔
      Bead.IsCased o (neighbour seen) (seen.head?.all Token.isSpace, t) (beads false ts).head? := by
  have hfront : seen.head? = some .dot ↔ (!seen.head?.all Token.isSpace && neighbour seen = some Token.dot) = true := by
    cases seen with
    | nil => simp
    | cons u us =>
      cases hu : u.isSpace with
      | true =>
        have hne : u ≠ .dot := by
          rintro rfl
          cases hu
        simp [hu, hne]
      | false => simp [neighbour, hu]
  have hkeeps : keepsCase seen ts t = true ↔
      dotTouches (neighbour seen) (seen.head?.all Token.isSpace, t) (beads false ts).head? = true ∨
        t.isWordFrom ['@', '#'] = true := by
    rw [keepsCase, dotTouches]
    simp only [Bool.or_eq_true, decide_eq_true_eq, hfront, head_eq_dot ts]
  cases t with
  | word w =>
    rw [recaseToken, Bead.IsCased, neighbour_eq_head false ts]
    by_cases hk : keepsCase seen ts (.word w) = true
    · rw [if_pos hk]
      refine iff_of_true rfl fun v _ hd hm => ?_
      rcases hkeeps.mp hk with h | h
      · rw [hd] at h
        cases h
      · rw [hm] at h
        cases h
    · rw [if_neg hk, Token.word.injEq]
      rw [hkeeps, not_or, Bool.not_eq_true, Bool.not_eq_true] at hk
      constructor
      · rintro h v ⟨⟩ _ _
        exact h
      · exact fun h => h w rfl hk.1 hk.2
  | _ =>
    refine iff_of_true rfl fun w hw => ?_
    cases hw

theorem recaseFrom_eq_iff {o : Options} {seen ts : List Token} :
    recaseFrom o seen ts = ts ↔ AllCased o (neighbour seen) (beads (seen.head?.all Token.isSpace) ts) := by
  induction ts generalizing seen with
  | nil => exact iff_of_true rfl trivial
  | cons t ts ih =>
    have ih : recaseFrom o (t :: seen) ts = ts ↔ AllCased o (neighbour (t :: seen)) (beads t.isSpace ts) := ih
    rw [recaseFrom, List.cons.injEq, ih]
    cases h : t.isSpace with
    | true =>
      obtain ⟨w, rfl⟩ := Token.eq_whitespace h
      rw [beads_cons_space h]
      exact and_iff_right rfl
    | false =>
      rw [beads_cons_solid h, AllCased, recaseToken_eq_iff h]
      have hn : neighbour (t :: seen) = some t := by simp [neighbour, h]
      rw [hn]

/-! ## Gaps beside markers -/

/-- What is no part of a name: neither a dot nor a plain word. -/
def Token.isMarker : Token → Bool
  | .dot => false
  | .word w => (Keyword.ofWord? w).isSome || (Token.word w).isWordFrom ['@', '#']
  | _ => true

/-- A gap between two tokens stays as it is, or is put beside a marker; any
may stand in front of a comma. -/
def Eases (t : Token) (b c : Bead) : Prop := b.1 = c.1 ∨ c.2 = .comma ∨ c.1 = true ∧ (t.isMarker ∨ c.2.isMarker)

/-- The same tokens with other gaps; the first gap is a free one. -/
inductive Loosens : List Bead → List Bead → Prop
  | nil : Loosens [] []
  | one (g g' : Bool) (t : Token) : Loosens [(g, t)] [(g', t)]
  | cons (g g' : Bool) {t : Token} {b c : Bead} {bs cs : List Bead} : Eases t b c → Loosens (b :: bs) (c :: cs) →
      Loosens ((g, t) :: b :: bs) ((g', t) :: c :: cs)

namespace Loosens

variable {bs cs ds es : List Bead}

theorem tokens (h : Loosens bs cs) : cs.map Prod.snd = bs.map Prod.snd := by
  induction h with
  | nil => rfl
  | one g g' t => rfl
  | cons g g' _ _ ih => exact congrArg (_ :: ·) ih

protected theorem refl (bs : List Bead) : Loosens bs bs := by
  induction bs with
  | nil => exact .nil
  | cons b bs ih =>
    cases bs with
    | nil => exact .one _ _ _
    | cons c bs => exact .cons _ _ (Or.inl rfl) ih

theorem of_parted (h : Loosens (parted bs) cs) : Loosens bs cs := by
  cases bs with
  | nil => exact h
  | cons b bs =>
    cases h with
    | one g g' t => exact .one _ _ _
    | cons g g' he h => exact .cons _ _ he h

theorem append (h : Loosens bs cs) (h' : Loosens ds es)
    (hj : ∀ c ∈ cs.getLast?, ∀ d ∈ ds.head?, ∀ e ∈ es.head?, Eases c.2 d e) : Loosens (bs ++ ds) (cs ++ es) := by
  induction h with
  | nil => exact h'
  | one g g' t =>
    cases h' with
    | nil => exact .one _ _ _
    | one f f' u => exact .cons _ _ (hj (g', t) rfl (f, u) rfl (f', u) rfl) (.one _ _ _)
    | cons f f' he h' => exact .cons _ _ (hj (g', t) rfl _ rfl _ rfl) (.cons _ _ he h')
  | cons g g' he _ ih =>
    refine .cons _ _ he (ih fun c hc => hj c ?_)
    rw [List.getLast?_cons_cons]
    exact hc

theorem gap_of_parted {e : Bead} (he : parted es = es) (hh : e ∈ es.head?) : e.1 = true := by
  cases es with
  | nil => cases hh
  | cons e' es =>
    obtain rfl := Option.some.inj hh
    exact (congrArg Prod.fst (List.cons.inj he).1).symm

theorem append_marked (h : Loosens bs cs) (h' : Loosens ds es) (hm : ∀ c ∈ cs.getLast?, c.2.isMarker) (he : parted es = es) :
    Loosens (bs ++ ds) (cs ++ es) :=
  h.append h' fun c hc _ _ _ hh => Or.inr (Or.inr ⟨gap_of_parted he hh, Or.inl (hm c hc)⟩)

theorem append_marker (h : Loosens bs cs) (h' : Loosens ds es) (hm : ∀ e ∈ es.head?, e.2.isMarker) (he : parted es = es) :
    Loosens (bs ++ ds) (cs ++ es) :=
  h.append h' fun _ _ _ _ e hh => Or.inr (Or.inr ⟨gap_of_parted he hh, Or.inr (hm e hh)⟩)

theorem cons_marked {t : Token} (ht : t.isMarker) (g g' : Bool) (h : Loosens ds es) (he : parted es = es) :
    Loosens ((g, t) :: ds) ((g', t) :: es) :=
  append_marked (.one g g' t) h (by rintro c ⟨⟩; exact ht) he

/-- A comma may stand anywhere, and a gap may be put behind it. -/
theorem append_comma (h : Loosens bs cs) (g g' : Bool) (h' : Loosens ds es) (he : parted es = es) :
    Loosens (bs ++ (g, .comma) :: ds) (cs ++ (g', .comma) :: es) := by
  refine h.append (cons_marked rfl g g' h' he) fun b _ d _ e he' => ?_
  obtain rfl := Option.some.inj he'
  exact Or.inr (Or.inl rfl)

end Loosens

/-! ## Names stay in one piece -/

/-- No keyword touches a dot. -/
def KeywordsApart (ts : List Token) : Prop :=
  ts.IsChain fun t u => (t = .dot → u.keyword = none) ∧ (u = .dot → t.keyword = none)

instance (ts : List Token) : Decidable (KeywordsApart ts) :=
  inferInstanceAs (Decidable (ts.IsChain fun t u => (t = .dot → u.keyword = none) ∧ (u = .dot → t.keyword = none)))

def BeadsApart (prev : Option Token) : List Bead → Prop
  | [] => True
  | b :: bs =>
    (b.1 = false → (prev = some .dot → b.2.keyword = none) ∧ (b.2 = .dot → prev.bind Token.keyword = none)) ∧
      BeadsApart (some b.2) bs

theorem KeywordsApart.beads {gap : Bool} {prev : Option Token} {ts : List Token} (h : KeywordsApart ts)
    (hp : gap = false → ∀ p ∈ prev, KeywordsApart (p :: ts)) : BeadsApart prev (SqlLayout.beads gap ts) := by
  induction ts generalizing gap prev with
  | nil => trivial
  | cons t ts ih =>
    cases ht : t.isSpace with
    | true =>
      rw [beads_cons_space ht]
      exact ih h.tail (by simp)
    | false =>
      rw [beads_cons_solid ht]
      refine ⟨fun hg => ?_, ih h.tail fun _ p hp => ?_⟩
      · cases prev with
        | none => exact ⟨by simp, fun _ => rfl⟩
        | some p =>
          have := (List.isChain_cons_cons.mp (hp hg p rfl)).1
          exact ⟨fun e => this.1 (Option.some.inj e), this.2⟩
      · obtain rfl := Option.some.inj hp
        exact h

theorem Token.keyword_of_isMarker {t : Token} {w : Text} (h : t.isMarker) (hw : t = .word w)
    (hm : t.isWordFrom ['@', '#'] = false) : t.keyword ≠ none := by
  subst hw
  rw [isMarker, hm, Bool.or_false] at h
  exact fun e => by rw [keyword] at e; simp [e] at h

section
variable {o : Options} {t : Token} {w : Text} (hw : t = .word w) (hm : t.isWordFrom ['@', '#'] = false)
include hw hm

theorem Eases.dot_front {g g' : Bool} (he : Eases .dot (g, t) (g', t)) (ha : g = false → t.keyword = none) : g = g' := by
  rcases he with he | he | ⟨hg, he | he⟩
  · exact he
  · rw [hw] at he
    cases he
  · cases he
  · cases g with
    | true => exact Eq.symm hg
    | false => exact absurd (ha rfl) (Token.keyword_of_isMarker he hw hm)

theorem Eases.dot_behind {b c : Bead} (he : Eases t b c) (hbc : c.2 = b.2)
    (ha : b.1 = false → b.2 = .dot → t.keyword = none) :
    b = (false, .dot) ↔ c = (false, .dot) := by
  obtain ⟨g, u⟩ := b
  obtain ⟨g', u'⟩ := c
  obtain rfl : u' = u := hbc
  simp only [Prod.mk.injEq]
  refine and_congr_left fun hu => ?_
  rcases he with he | he | ⟨hg, he | he⟩
  · rw [show g = g' from he]
  · rw [hu] at he
    cases he
  · cases g with
    | true => rw [show g' = true from hg]
    | false => exact absurd (ha rfl hu) (Token.keyword_of_isMarker he hw hm)
  · rw [hu] at he
    cases he

theorem dotTouches_congr {prev : Option Token} {g g' : Bool} {next next' : Option Bead}
    (hf : ∀ p ∈ prev, Eases p (g, t) (g', t))
    (ha : g = false → prev = some .dot → t.keyword = none) (hn : next = some (false, .dot) ↔ next' = some (false, .dot)) :
    dotTouches prev (g, t) next = dotTouches prev (g', t) next' := by
  have hfront : (!g && prev = some Token.dot) = (!g' && prev = some Token.dot) := by
    by_cases hp : prev = some .dot
    · rw [Eases.dot_front hw hm (hf .dot hp) fun hg => ha hg hp]
    · simp [hp]
  simp only [dotTouches, hfront, hn]

end

theorem AllCased.loosens {o : Options} {prev : Option Token} {bs cs : List Bead} (h : Loosens bs cs)
    (ha : BeadsApart prev bs)
    (hf : ∀ b ∈ bs.head?, ∀ c ∈ cs.head?, ∀ p ∈ prev, Eases p b c) (hc : AllCased o prev bs) :
    AllCased o prev cs := by
  induction h generalizing prev with
  | nil => trivial
  | one g g' t =>
    refine ⟨fun w hw hd hm => hc.1 w hw ?_ hm, trivial⟩
    rwa [dotTouches_congr hw hm (hf _ rfl _ rfl) (fun hg => (ha.1 hg).1) Iff.rfl]
  | @cons g g' t b c bs cs he h ih =>
    obtain ⟨hc, hcs⟩ := hc
    obtain ⟨ha, has⟩ := ha
    have hbc : c.2 = b.2 := (List.cons.inj h.tokens).1
    refine ⟨fun w hw hd hm => ?_, ih has ?_ hcs⟩
    · have hbehind := Eases.dot_behind hw hm he hbc fun hg hb => (has.1 hg).2 hb
      have hsame := dotTouches_congr hw hm (hf _ rfl _ rfl) (fun hg => (ha hg).1)
        (show some b = some (false, .dot) ↔ some c = some (false, .dot) by simpa using hbehind)
      have := hc w hw (hsame.trans hd) hm
      rw [List.head?_cons, Option.map_some, ← hbc] at this
      exact this
    · rintro b' ⟨⟩ c' ⟨⟩ p ⟨⟩
      exact he

/-- Words keep their letter case when gaps are put beside markers. -/
theorem Loosens.recaseFrom_eq {o : Options} {ts us : List Token} (h : Loosens (beads true ts) (beads true us))
    (ha : KeywordsApart ts) (hc : recaseFrom o [] ts = ts) : recaseFrom o [] us = us :=
  recaseFrom_eq_iff.mpr (AllCased.loosens h (ha.beads (by simp)) (fun _ _ _ _ => by simp [neighbour])
    (recaseFrom_eq_iff.mp hc))

end SqlLayout
