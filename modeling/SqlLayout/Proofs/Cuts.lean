import SqlLayout.Proofs.Bodies
import SqlLayout.Proofs.Joins
import SqlLayout.Proofs.Reflow
import SqlLayout.Proofs.Stretches

/-!
# Cuts do not see space

Where a SELECT, a list, a predicate or a FROM is cut depends on its tokens
other than space. Two token lists that differ in space only are cut into parts
that differ in space only.
-/

namespace SqlLayout

/-! ## Lists -/

theorem lineComments_bare {ts : List Token} (h : ∀ t ∈ ts, t.isComment = false) : lineComments ts = [] := by
  have space : ∀ us : List Token, us ⊆ ts → (∀ t ∈ us, (t.isTrivia && !t.isNewline) = true) →
      dropEndWhile Token.isSpace us = [] := by
    intro us hsub hus
    have hs : ∀ t ∈ us, t.isSpace := fun t ht => by
      have := hus t ht
      rw [Token.isTrivia, h t (hsub ht), Bool.or_false, Bool.and_eq_true] at this
      exact this.1
    simpa [dropEndWhile] using hs
  simp only [lineComments]
  split
  · next e => exact space ts (List.Subset.refl ts) (by simpa using e)
  · split
    · exact space _ (List.takeWhile_prefix _).subset (List.all_eq_true.mp List.all_takeWhile)
    · rfl

theorem commaGroups_cons_bare {t : Token} {ts : List Token} (h : ∀ u ∈ ts, u.isComment = false) (n : Nesting) :
    commaGroups n (t :: ts) =
      if t = .comma ∧ n.depth = 0 then [] :: commaGroups n ts else (commaGroups (n.step t) ts).modifyHead (t :: ·) := by
  rw [commaGroups, lineComments_bare h, List.length_nil, List.drop_zero]

section
variable {ts : List Token} (h : ∀ t ∈ ts, t.isComment = false)
include h

theorem commaGroups_solids (n : Nesting) : commaGroups n (solids ts) = (commaGroups n ts).map solids := by
  induction ts generalizing n with
  | nil => rw [solids_nil, commaGroups]; rfl
  | cons t ts ih =>
    obtain ⟨-, hts⟩ := List.forall_mem_cons.mp h
    have ih := ih hts
    have hsolid : ∀ u ∈ solids ts, u.isComment = false := fun u hu => hts u (mem_solids.mp hu).1
    obtain ⟨g, gs, e⟩ := List.exists_cons_of_ne_nil (commaGroups_ne_nil (n.step t) ts)
    rw [solids_cons, commaGroups_cons_bare hts]
    cases hs : t.isSpace with
    | true =>
      rw [Nesting.step_of_isSpace hs] at e ⊢
      obtain ⟨w, rfl⟩ := Token.eq_whitespace hs
      rw [if_pos rfl, ih, e, if_neg (by simp)]
      simp [solids_cons, hs]
    | false =>
      rw [if_neg (by simp), commaGroups_cons_bare hsolid, ih, ih, e]
      split <;> simp [solids_cons, hs]

theorem commaed_commaGroups (n : Nesting) : commaed (commaGroups n ts) = ts := by
  induction ts generalizing n with
  | nil => rw [commaGroups]; rfl
  | cons t ts ih =>
    obtain ⟨-, hts⟩ := List.forall_mem_cons.mp h
    have ih := ih hts
    rw [commaGroups_cons_bare hts]
    split
    · next hc => rw [commaed_cons _ (commaGroups_ne_nil n ts), ih, hc.1]; rfl
    · have ih := ih (n.step t)
      obtain ⟨g, gs, e⟩ := List.exists_cons_of_ne_nil (commaGroups_ne_nil (n.step t) ts)
      rw [e] at ih ⊢
      cases gs with
      | nil => simpa using ih
      | cons k gs =>
        rw [commaed_cons _ (List.cons_ne_nil _ _)] at ih
        rw [List.modifyHead_cons, commaed_cons _ (List.cons_ne_nil _ _), List.cons_append, ih]

end

/-! ## Predicates -/

theorem conditionGroups_solids (n : Nesting) (between : Nat) (started : Bool) (ts : List Token) :
    conditionGroups n between started (solids ts) = (conditionGroups n between started ts).map solids := by
  induction ts generalizing n between started with
  | nil => rfl
  | cons t ts ih =>
    rw [solids_cons]
    cases hs : t.isSpace with
    | true =>
      obtain ⟨g, gs, e⟩ := List.exists_cons_of_ne_nil (conditionGroups_flatten n between started ts).1
      rw [if_pos rfl, ih, conditionGroups, Nesting.topKeyword_of_isSpace hs, Nesting.step_of_isSpace hs,
        isCode_of_isSpace hs]
      simp only [conditionStep, Bool.or_false, Bool.false_and, Bool.false_eq_true, if_false, e]
      simp [solids_cons, hs]
    | false =>
      obtain ⟨g, gs, e⟩ := List.exists_cons_of_ne_nil
        (conditionGroups_flatten (n.step t) (conditionStep between (n.topKeyword t)).1 (started || t.isCode) ts).1
      rw [if_neg (by simp), conditionGroups, conditionGroups]
      simp only [ih, e]
      split <;> simp [solids_cons, hs]

/-! ## Sources -/

theorem splitOn?_solids (n : Nesting) (ts : List Token) :
    splitOn? n (solids ts) = (splitOn? n ts).map (Prod.map solids (Prod.map id solids)) := by
  induction ts generalizing n with
  | nil => rfl
  | cons t ts ih =>
    rw [solids_cons]
    cases hs : t.isSpace with
    | true =>
      rw [if_pos rfl, ih, splitOn?, Nesting.topKeyword_of_isSpace hs, Nesting.step_of_isSpace hs, if_neg (by simp),
        Option.map_map]
      congr 1
      funext p
      obtain ⟨a, b⟩ := p
      simp [solids_cons, hs]
    | false =>
      rw [if_neg (by simp), splitOn?, splitOn?]
      split
      · rfl
      · rw [ih, Option.map_map, Option.map_map]
        congr 1
        funext p
        obtain ⟨a, b⟩ := p
        simp [solids_cons, hs]

section
variable {n : Nesting} {ts us : List Token} (h : solids us = solids ts)
include h

theorem splitOn?_none_congr (hon : splitOn? n ts = none) : splitOn? n us = none := by
  have hus := splitOn?_solids n us
  rw [h, splitOn?_solids, hon] at hus
  exact Option.map_eq_none_iff.mp hus.symm

theorem splitOn?_some_congr {table rest : List Token} {on : Text} (hon : splitOn? n ts = some (table, on, rest)) :
    ∃ table' rest', splitOn? n us = some (table', on, rest') ∧ solids table' = solids table ∧ solids rest' = solids rest := by
  have hus := splitOn?_solids n us
  rw [h, splitOn?_solids, hon] at hus
  obtain ⟨⟨table', on', rest'⟩, hon', hp⟩ := Option.map_eq_some_iff.mp hus.symm
  obtain ⟨htable, hp⟩ := Prod.mk.inj hp
  obtain ⟨rfl, hrest⟩ : on' = on ∧ solids rest' = solids rest := Prod.mk.inj hp
  exact ⟨table', rest', hon', htable, hrest⟩

end

def joinWords (modifiers : Nat) : List Token → Option (List Text × List Token)
  | [] => none
  | t :: ts =>
    match t.keyword with
    | some .JOIN => some ([t.text], ts)
    | some .APPLY => if 0 < modifiers then some ([t.text], ts) else none
    | some k =>
      if k.isJoinModifier && modifiers < 2 then (joinWords (modifiers + 1) ts).map (Prod.map (t.text :: ·) id)
      else none
    | none => none

theorem Token.keyword_eq_none {t : Token} (h : ∀ w, t ≠ .word w) : t.keyword = none := by
  cases t with
  | word w => exact absurd rfl (h w)
  | _ => rfl

/-- No word stands right behind another. -/
theorem Lexed.keyword_next {t u : Token} {ts : List Token} (h : Lexed (t :: u :: ts)) {k : Keyword}
    (ht : t.keyword = some k) :
    u.keyword = none := by
  refine Token.keyword_eq_none fun w hw => ?_
  subst hw
  obtain ⟨-, hs, ⟨c, r, rfl, hc, -⟩, -⟩ := h
  cases t with
  | word v =>
    simp only [Token.Stops, spell_cons, Token.text, List.cons_append, List.head?_cons, Option.any_some,
      Bool.not_eq_true'] at hs
    rw [isWordChar, hc] at hs
    cases hs
  | _ => cases ht

theorem joinWords_modifier {m : Nat} {t : Token} {k : Keyword} (hk : t.keyword = some k) (hj : k ≠ .JOIN) (ha : k ≠ .APPLY)
    (ts : List Token) : joinWords m (t :: ts) =
      if k.isJoinModifier && m < 2 then (joinWords (m + 1) ts).map (Prod.map (t.text :: ·) id) else none := by
  rw [joinWords, hk]
  split
  · next h => exact absurd (Option.some.inj h) hj
  · next h => exact absurd (Option.some.inj h) ha
  · next h =>
    cases h
    rfl
  · next h => cases h

theorem joinOperator_solids {m : Nat} {l : List Token} (hl : Lexed l) (hs : ∀ t ∈ l.head?, t.isSpace = false) :
    joinWords m (solids l) = (joinOperator m l).map (Prod.map id solids) := by
  have solid : ∀ {t : Token} {ts : List Token}, (∀ u ∈ (t :: ts).head?, u.isSpace = false) →
      solids (t :: ts) = t :: solids ts := by
    intro t ts h
    rw [solids_cons, if_neg (by simp [h t rfl])]
  fun_induction joinOperator m l with
  | case1 => rfl
  | case2 m t ts hk =>
    rw [solid hs, joinWords, hk]
    rfl
  | case3 m t ts hk hm =>
    rw [solid hs, joinWords, hk, if_pos hm]
    rfl
  | case4 m t ts hk hm =>
    rw [solid hs, joinWords, hk, if_neg hm]
    rfl
  | case5 m t k hj ha hk hcond w us ih =>
    have hl' : Lexed (.whitespace w :: us) := (show Lexed ([t] ++ .whitespace w :: us) from hl).of_append.2
    have hnext : ∀ u ∈ us.head?, u.isSpace = false := by
      cases us with
      | nil => simp
      | cons u us =>
        rintro v ⟨⟩
        exact hl'.isSpace_next rfl
    have ih := ih (show Lexed ([.whitespace w] ++ us) from hl').of_append.2 hnext
    rw [solid hs, solids_cons, if_pos (show (Token.whitespace w).isSpace from rfl), joinWords_modifier hk hj ha, if_pos hcond, ih,
      Option.map_map, Option.map_map]
    rfl
  | case6 m t ts k hj ha hk hcond hspace =>
    rw [solid hs, joinWords_modifier hk hj ha, if_pos hcond]
    -- the next token is no word
    cases ts with
    | nil => rfl
    | cons u us =>
      have hu : u.isSpace = false := by
        cases u with
        | whitespace w => exact absurd rfl (hspace w us)
        | _ => rfl
      rw [solids_cons, if_neg (by simp [hu]), joinWords, hl.keyword_next hk]
      rfl
  | case7 m t ts k hj ha hk hcond =>
    rw [solid hs, joinWords_modifier hk hj ha, if_neg hcond]
    rfl
  | case8 m t ts hk =>
    rw [solid hs, joinWords, hk]
    rfl

theorem joinHere?_congr {n : Nesting} {t : Token} {ts us : List Token} (ht : Lexed (t :: ts)) (hu : Lexed (t :: us))
    (hs : t.isSpace = false) (h : solids ts = solids us) :
    (joinHere? n (t :: ts)).map (Prod.map id solids) = (joinHere? n (t :: us)).map (Prod.map id solids) := by
  have hhead : ∀ {ts : List Token}, ∀ u ∈ (t :: ts).head?, u.isSpace = false := by
    rintro ts u ⟨⟩
    exact hs
  have hsolids : solids (t :: ts) = solids (t :: us) := by rw [solids_cons, solids_cons, h]
  unfold joinHere?
  split
  · rw [← joinOperator_solids ht hhead, ← joinOperator_solids hu hhead, hsolids]
  · rfl

theorem joinSections_cons_space {t : Token} (hs : t.isSpace) (n : Nesting) (ts : List Token) :
    joinSections n (t :: ts) = (t :: (joinSections n ts).1, (joinSections n ts).2) := by
  obtain ⟨w, rfl⟩ := Token.eq_whitespace hs
  have hnone : joinHere? n (.whitespace w :: ts) = none := by
    rw [joinHere?, joinOperator_plain rfl, ite_self]
  rw [joinSections_cons, hnone]
  rfl

theorem joinOperator_suffix {m : Nat} {ts rest : List Token} {ws : List Text} (h : joinOperator m ts = some (ws, rest)) :
    rest <:+ ts := by
  fun_induction joinOperator m ts generalizing ws with
  | case2 | case3 => cases h; exact List.suffix_cons _ _
  | case5 m t k _ _ _ _ w us ih =>
    obtain ⟨⟨a, b⟩, e, hab⟩ := Option.map_eq_some_iff.mp h
    cases hab
    exact ((ih e).trans (List.suffix_cons _ _)).trans (List.suffix_cons _ _)
  | _ => cases h

theorem joinSections_congr (n : Nesting) {ts us : List Token} (ht : Lexed ts) (hu : Lexed us) (h : solids ts = solids us) :
    solids (joinSections n ts).1 = solids (joinSections n us).1 ∧
      (joinSections n ts).2.map (Prod.map id solids) = (joinSections n us).2.map (Prod.map id solids) := by
  induction hlen : ts.length + us.length using Nat.strong_induction_on generalizing n ts us with
  | _ len ih =>
    subst hlen
    cases ts with
    | nil =>
      cases us with
      | nil => exact ⟨rfl, rfl⟩
      | cons u us =>
        have hus : u.isSpace := by
          by_contra hus
          rw [solids_cons, if_neg hus] at h
          cases h
        rw [solids_cons, if_pos hus] at h
        have := ih _ (by simp) n ht (show Lexed ([u] ++ us) from hu).of_append.2 h rfl
        rw [joinSections_cons_space hus, solids_cons, if_pos hus]
        exact this
    | cons t ts =>
      have hlt : Lexed ts := (show Lexed ([t] ++ ts) from ht).of_append.2
      cases hts : t.isSpace with
      | true =>
        rw [solids_cons, if_pos hts] at h
        have := ih _ (by simp) n hlt hu h rfl
        rw [joinSections_cons_space hts, solids_cons, if_pos hts]
        exact this
      | false =>
        cases us with
        | nil =>
          rw [solids_cons, if_neg (by simp [hts])] at h
          cases h
        | cons u us =>
          have hlu : Lexed us := (show Lexed ([u] ++ us) from hu).of_append.2
          cases hus : u.isSpace with
          | true =>
            rw [solids_cons (t := u), if_pos hus] at h
            have := ih _ (by simp) n ht hlu h rfl
            rw [joinSections_cons_space hus, solids_cons (t := u), if_pos hus]
            exact this
          | false =>
            rw [solids_cons, if_neg (by simp [hts]), solids_cons, if_neg (by simp [hus])] at h
            obtain ⟨rfl, hrest⟩ := List.cons.inj h
            have hhere := joinHere?_congr (n := n) ht hu hts hrest
            rw [joinSections_cons, joinSections_cons]
            cases ha : joinHere? n (t :: ts) with
            | none =>
              rw [ha] at hhere
              rw [Option.map_eq_none_iff.mp hhere.symm]
              have := ih _ (by simp; omega) (n.step t) hlt hlu hrest rfl
              simp only [solids_cons, hts, Bool.false_eq_true, if_false, this.1, this.2, and_self]
            | some p =>
              obtain ⟨ws, rest⟩ := p
              rw [ha] at hhere
              obtain ⟨⟨ws', rest'⟩, hb, hp⟩ := Option.map_eq_some_iff.mp hhere.symm
              obtain ⟨rfl, hbehind⟩ := Prod.mk.inj hp
              have ha := eq_some_of_ite ha
              have hb' := eq_some_of_ite hb
              have := ih _ (Nat.add_lt_add (joinOperator_length ha) (joinOperator_length hb')) n
                (ht.of_infix (joinOperator_suffix ha).isInfix)
                  (hu.of_infix (joinOperator_suffix hb').isInfix) hbehind.symm rfl
              rw [hb]
              simp [this.1, this.2]

/-! ## Clauses -/

theorem dropWhile_solids (ts : List Token) : (solids ts).dropWhile Token.isSpace = solids (ts.dropWhile Token.isSpace) := by
  rw [solids_dropWhile_isSpace]
  cases eu : solids ts with
  | nil => rfl
  | cons u us =>
    have hu : u.isSpace = false := (mem_solids.mp (eu ▸ List.mem_cons_self)).2
    exact List.dropWhile_cons_of_neg (by simp [hu])

theorem opens_solids (k : Keyword) (ts : List Token) :
    opens k (solids ts) = (opens k ts).map (Prod.map id (Prod.map id solids)) := by
  have h := List.head?_dropWhile_not Token.isSpace ts
  unfold opens
  rw [dropWhile_solids]
  cases eu : ts.dropWhile Token.isSpace with
  | nil => cases k <;> rfl
  | cons u us =>
    rw [eu] at h
    rw [solids_cons, if_neg (by simpa using h)]
    cases hb : u.isKeyword .BY <;> cases k <;> simp [hb]

def Section.solids (s : Section) : Section := { s with tokens := SqlLayout.solids s.tokens }

theorem sections_solids (n : Nesting) (ts : List Token) :
    sections n (solids ts) = (sections n ts).map solids (List.map Section.solids) := by
  induction ts generalizing n with
  | nil => rfl
  | cons t ts ih =>
    rw [solids_cons]
    cases hs : t.isSpace with
    | true =>
      rw [if_pos rfl, ih, sections, Nesting.topKeyword_of_isSpace hs, Nesting.step_of_isSpace hs]
      simp only [Option.bind_none, Prod.map, solids_cons, hs, if_true]
    | false =>
      rw [if_neg (by simp), sections, sections, ih]
      simp only [Prod.map_fst, Prod.map_snd, opens_solids]
      cases n.topKeyword t with
      | none => simp [solids_cons, hs]
      | some k =>
        simp only [Option.bind_some]
        cases opens k (sections (n.step t) ts).1 with
        | none => simp [solids_cons, hs]
        | some p => rfl

/-! ## Modifiers -/

theorem nextIf_solids (p : Token → Bool) (ts : List Token) :
    nextIf p (solids ts) = (nextIf p ts).map (Prod.map solids solids) := by
  have h := List.head?_dropWhile_not Token.isSpace ts
  have hspace : solids (ts.takeWhile Token.isSpace) = [] := solids_eq_nil.mpr List.all_takeWhile
  have hnone : (solids ts).takeWhile Token.isSpace = [] := by
    cases e : solids ts with
    | nil => rfl
    | cons u us =>
      have hu : u.isSpace = false := (mem_solids.mp (e ▸ List.mem_cons_self)).2
      exact List.takeWhile_cons_of_neg (by simp [hu])
  rw [nextIf, nextIf, dropWhile_solids, hnone]
  cases e : ts.dropWhile Token.isSpace with
  | nil => rfl
  | cons t us =>
    have ht : t.isSpace = false := by simpa [e] using h
    rw [solids_cons, if_neg (by simp [ht])]
    cases hp : p t <;> simp [hp, hspace, solids_cons, ht]

theorem optional_solids {take : List Token → Option (List Token × List Token)}
    (h : ∀ ts, take (solids ts) = (take ts).map (Prod.map solids solids)) (ts : List Token) :
    optional take (solids ts) = (optional take ts).map solids solids := by
  rw [optional, optional, h]
  cases take ts <;> rfl

theorem takeCount_solids (ts : List Token) : takeCount (solids ts) = (takeCount ts).map (Prod.map solids solids) := by
  unfold takeCount
  rw [nextIf_solids]
  cases nextIf isCount ts with
  | some p => rfl
  | none =>
    simp only [Option.map_none, nextIf_solids]
    cases nextIf (fun t => decide (t = Token.openParen)) ts with
    | none => rfl
    | some p =>
      simp only [Option.map_some, Option.bind_eq_bind, Option.bind_some, Prod.map, splitClosing_solids]
      cases splitClosing 0 p.2 with
      | none => rfl
      | some q => simp [solids_cons, Token.isSpace]

theorem takeTies_solids (ts : List Token) : takeTies (solids ts) = (takeTies ts).map (Prod.map solids solids) := by
  unfold takeTies
  rw [nextIf_solids]
  cases nextIf (Token.isKeyword .WITH) ts with
  | none => rfl
  | some p =>
    simp only [Option.map_some, Option.bind_eq_bind, Option.bind_some, Prod.map, nextIf_solids]
    cases nextIf (Token.isKeyword .TIES) p.2 with
    | none => rfl
    | some q => simp

theorem takeTop_solids (ts : List Token) : takeTop (solids ts) = (takeTop ts).map (Prod.map solids solids) := by
  unfold takeTop
  rw [takeCount_solids, Option.map_map, Option.map_map]
  congr 1
  funext p
  simp [optional_solids (nextIf_solids (Token.isKeyword .PERCENT)), optional_solids takeTies_solids]

theorem takeModifier_solids (ts : List Token) :
    takeModifier (solids ts) = (takeModifier ts).map (Prod.map solids solids) := by
  have hf : ∀ x : Option (List Token × List Token),
      (x.map (Prod.map solids solids)).filter (fun p => !p.1.any Token.isComment) =
        (x.filter fun p => !p.1.any Token.isComment).map (Prod.map solids solids) := by
    rintro (_ | ⟨a, b⟩)
    · rfl
    · have hany : (solids a).any Token.isComment = a.any Token.isComment := by
        rw [solids, List.any_filter]
        exact List.any_congr rfl fun t => by cases t <;> rfl
      simp only [Option.map_some, Option.filter, Prod.map, hany]
      split <;> rfl
  have h := List.head?_dropWhile_not Token.isSpace ts
  unfold takeModifier
  rw [dropWhile_solids]
  cases e : ts.dropWhile Token.isSpace with
  | nil => rfl
  | cons t us =>
    have ht : t.isSpace = false := by simpa [e] using h
    rw [solids_cons, if_neg (by simp [ht])]
    simp only [takeTop_solids, ← hf]
    congr 1
    split
    · simp [solids_cons, ht]
    · simp [solids_cons, ht]
    · rw [Option.map_map, Option.map_map]
      congr 1
      funext p
      obtain ⟨a, b⟩ := p
      simp [solids_cons, ht]
    · rfl

inductive Modifiers : List Token → List (List Token) → List Token → Prop
  | done {ts : List Token} : takeModifier ts = none → Modifiers ts [] ts
  | more {ts a b rest : List Token} {as : List (List Token)} : takeModifier ts = some (a, b) → Modifiers b as rest →
      Modifiers ts (a :: as) rest

namespace Modifiers

variable {ts us rest : List Token} {as : List (List Token)}

theorem takeModifiers_eq (h : Modifiers ts as rest) : takeModifiers ts = (as.map collapse, rest) := by
  induction h with
  | done h =>
    rw [takeModifiers]
    split
    · next h' => rw [h] at h'; cases h'
    · rfl
  | more h _ ih =>
    rw [takeModifiers]
    split
    · next h' =>
      rw [h] at h'
      cases h'
      rw [ih]
      rfl
    · next h' => rw [h] at h'; cases h'

theorem exists_of (ts : List Token) : ∃ as rest, Modifiers ts as rest := by
  fun_induction takeModifiers ts with
  | case1 ts a b h _ ih =>
    obtain ⟨as, rest, ih⟩ := ih
    exact ⟨a :: as, rest, .more h ih⟩
  | case2 ts h => exact ⟨[], ts, .done h⟩

theorem congr (h : Modifiers ts as rest) (hs : solids us = solids ts) :
    ∃ as' rest', Modifiers us as' rest' ∧ as'.map solids = as.map solids ∧ solids rest' = solids rest := by
  induction h generalizing us with
  | done h =>
    have hn := takeModifier_solids us
    rw [hs, takeModifier_solids, h] at hn
    exact ⟨[], us, .done (Option.map_eq_none_iff.mp hn.symm), rfl, hs⟩
  | more h _ ih =>
    have hn := takeModifier_solids us
    rw [hs, takeModifier_solids, h] at hn
    obtain ⟨⟨a', b'⟩, h', hp⟩ := Option.map_eq_some_iff.mp hn.symm
    obtain ⟨ha, hb⟩ := Prod.mk.inj hp
    obtain ⟨as', rest', hm, has, hrest⟩ := ih hb
    exact ⟨a' :: as', rest', .more h' hm, by rw [List.map_cons, List.map_cons, has, ha], hrest⟩

end Modifiers

end SqlLayout
