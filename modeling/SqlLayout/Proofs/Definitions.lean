import SqlLayout.With
import SqlLayout.Proofs.Select

/-!
# The head of a WITH statement holds its tokens

Each reader takes tokens from the front and leaves a suffix. What it returns
has the tokens it took.
-/

namespace SqlLayout

theorem skipSpace_parts {ts us : List Token} (h : skipSpace ts = .ok us) : plains us = plains ts ∧ us <:+ ts := by
  have e := plains_dropWhile_isSpace ts
  have hs := List.dropWhile_suffix (l := ts) Token.isSpace
  unfold skipSpace at h
  split at h
  · next t us' et =>
    split at h
    · cases h
    · cases h; rw [← et]; exact ⟨e, hs⟩
  · next et => cases h; rw [← e, et]; exact ⟨rfl, List.nil_suffix⟩

theorem skipSpace_cons {ts us : List Token} {t : Token} (h : skipSpace ts = .ok (t :: us)) (hl : Legible ts)
    (hf : Flat ts) : t.Formed ∧ t.isFlat ∧ plains ts = plains (t :: us) ∧ us <:+ ts := by
  obtain ⟨e, hs⟩ := skipSpace_parts h
  have ht : t ∈ ts := hs.subset (by simp)
  exact ⟨hl.formed ht, hf t ht, e.symm, (List.suffix_cons _ _).trans hs⟩

theorem takeKeyword_parts {k : Keyword} {f : HeaderFault} {ts rest : List Token} {w : Text}
    (h : takeKeyword k f ts = .ok (w, rest)) (hl : Legible ts) (hf : Flat ts) :
    Worded w ∧ plains ts = plainsOf w ++ plains rest ∧ rest <:+ ts := by
  obtain ⟨us, e, h⟩ := ok_of_bind h
  split at h
  · next t us =>
    split at h
    · next hk =>
      cases h
      obtain ⟨hft, -, ep, hs⟩ := skipSpace_cons e hl hf
      obtain ⟨hw, et, hsp⟩ := worded_keyword (k := k) (by simpa [Token.isKeyword] using hk) hft
      exact ⟨hw, by rw [ep, et, plains_cons, hsp]; rfl, hs⟩
    · cases h
  · cases h

theorem takeName_parts {ts rest : List Token} {w : Text} (h : takeName ts = .ok (w, rest)) (hl : Legible ts)
    (hf : Flat ts) : Worded w ∧ plains ts = plainsOf w ++ plains rest ∧ rest <:+ ts := by
  obtain ⟨us, e, h⟩ := ok_of_bind h
  split at h
  · next t us =>
    split at h
    · next hn =>
      cases h
      obtain ⟨hft, hfl, ep, hs⟩ := skipSpace_cons e hl hf
      have ht : t.isSpace = false ∧ t.isLineComment = false := by
        cases t <;> first | exact ⟨rfl, rfl⟩ | cases hn
      refine ⟨worded_text hft hfl ht.1 ht.2, ?_, hs⟩
      rw [ep, plainsOf_text hft ht.1, plains_cons, ht.1]; rfl
    · cases h
  · cases h

theorem takeGroup_parts {ts inner rest : List Token} (h : takeGroup ts = .ok (inner, rest)) (hl : Legible ts)
    (hf : Flat ts) :
    plains ts = .openParen :: (plains inner ++ .closeParen :: plains rest) ∧ inner <:+: ts ∧ rest <:+ ts := by
  obtain ⟨us, e, h⟩ := ok_of_bind h
  split at h
  · next us =>
    split at h
    · next p hp =>
      cases h
      obtain ⟨-, -, ep, hs⟩ := skipSpace_cons e hl hf
      have hsplit := splitClosing_eq hp
      have hi : inner <:+: us := hsplit ▸ (List.prefix_append _ _).isInfix
      have hr : rest <:+ us := hsplit ▸ (List.suffix_cons _ _).trans (List.suffix_append _ _)
      refine ⟨?_, hi.trans hs.isInfix, hr.trans hs⟩
      rw [ep, hsplit]
      simp [plains_cons, Token.isSpace, Token.plain]
    · cases h
  · cases h

def HoldsColumns (us : List Token) : Option Text → Prop
  | none => us = []
  | some c => ∃ inner ts, us = .openParen :: (inner ++ [.closeParen]) ∧ c = '(' :: normalize 0 (spell ts) ++ [')'] ∧
      Spells inner [normalize 0 (spell ts)]

theorem takeColumns_parts {ts rest : List Token} {c : Option Text} (h : takeColumns ts = .ok (c, rest))
    (hl : Legible ts) (hf : Flat ts) : ∃ us, HoldsColumns us c ∧ plains ts = us ++ plains rest ∧ rest <:+ ts := by
  obtain ⟨us, e, h⟩ := ok_of_bind h
  split at h
  · obtain ⟨⟨inner, r⟩, e', h⟩ := ok_of_bind h
    cases h
    obtain ⟨ep, hs⟩ := skipSpace_parts e
    obtain ⟨eg, hi, hr⟩ := takeGroup_parts e' (hl.of_infix hs.isInfix) (hf.of_subset hs.subset)
    have hli := hl.of_infix (hi.trans hs.isInfix)
    have hsp := spells_normalize 0 (flat_tokenize_spell hli (hf.of_subset (hi.trans hs.isInfix).subset))
    rw [hli.plainsOf_spell] at hsp
    exact ⟨_, ⟨_, _, rfl, rfl, hsp⟩, by rw [← ep, eg]; simp, hr.trans hs⟩
  · cases h
    obtain ⟨ep, hs⟩ := skipSpace_parts e
    exact ⟨[], rfl, by rw [← ep]; rfl, hs⟩

structure Definition.Holds (d : Definition) (us : List Token) : Prop where
  name : Worded d.name
  as : Worded d.as
  flat : Flat (tokenize d.body)
  parts : ∃ columns ts, us = plainsOf d.name ++ (columns ++ (plainsOf d.as ++ (.openParen :: (plains ts ++ [.closeParen])))) ∧
    HoldsColumns columns d.columns ∧ Thins ts d.body

theorem takeDefinition_parts {ts rest : List Token} {d : Definition} (h : takeDefinition ts = .ok (d, rest))
    (hl : Legible ts) (hf : Flat ts) : ∃ us, d.Holds us ∧ plains ts = us ++ plains rest ∧ rest <:+ ts := by
  obtain ⟨⟨name, a⟩, e₁, h⟩ := ok_of_bind h
  obtain ⟨⟨columns, b⟩, e₂, h⟩ := ok_of_bind h
  obtain ⟨⟨as, c⟩, e₃, h⟩ := ok_of_bind h
  obtain ⟨⟨body, d⟩, e₄, h⟩ := ok_of_bind h
  cases h
  obtain ⟨hn, en, sa⟩ := takeName_parts e₁ hl hf
  obtain ⟨cs, hc, ec, sb⟩ := takeColumns_parts e₂ (hl.of_infix sa.isInfix) (hf.of_subset sa.subset)
  have sb := sb.trans sa
  obtain ⟨ha, ea, sc⟩ := takeKeyword_parts e₃ (hl.of_infix sb.isInfix) (hf.of_subset sb.subset)
  have sc := sc.trans sb
  obtain ⟨eb, hi, sd⟩ := takeGroup_parts e₄ (hl.of_infix sc.isInfix) (hf.of_subset sc.subset)
  have hi := hi.trans sc.isInfix
  obtain ⟨hfb, hthin⟩ := trim_spell (hl.of_infix hi) (hf.of_subset hi.subset)
  refine ⟨_, ⟨hn, ha, hfb, cs, body, rfl, hc, hthin⟩, ?_, sd.trans sc⟩
  rw [en, ec, ea, eb]
  simp

theorem dropWhile_isTrivia_dropWhile_isSpace (ts : List Token) :
    (ts.dropWhile Token.isSpace).dropWhile Token.isTrivia = ts.dropWhile Token.isTrivia := by
  induction ts with
  | nil => rfl
  | cons t ts ih =>
    cases hs : t.isSpace with
    | true => simp [hs, ih, Token.isTrivia]
    | false => simp [hs]

/-- The comma that is looked for behind comments stands in front of them. -/
theorem skipSpace_comma {ts us tail : List Token} (hc : ts.dropWhile Token.isTrivia = .comma :: tail)
    (h : skipSpace ts = .ok us) : us = .comma :: tail := by
  rw [← dropWhile_isTrivia_dropWhile_isSpace] at hc
  unfold skipSpace at h
  split at h
  · next t us' e =>
    split at h
    · cases h
    · next ht =>
      cases h
      have hs : t.isSpace = false := by
        have := List.head?_dropWhile_not Token.isSpace ts
        simpa [e] using this
      rw [e, List.dropWhile_cons_of_neg (by simpa [Token.isTrivia, hs] using ht)] at hc
      exact hc
  · next e => rw [e] at hc; cases hc

theorem takeDefinitions_parts {ts rest : List Token} {ds : List Definition}
    (h : takeDefinitions ts = .ok (ds, rest)) (hl : Legible ts) (hf : Flat ts) :
    ∃ us, ds ≠ [] ∧ List.Forall₂ Definition.Holds ds us ∧ plains ts = commaed us ++ plains rest ∧ rest <:+ ts := by
  fun_induction takeDefinitions ts generalizing ds with
  | case1 => cases h
  | case2 => cases h
  | case3 ts d rest' hd tail hc us hs hlt ih =>
    obtain ⟨⟨ds', r⟩, e, h⟩ := map_eq_ok h
    cases h
    obtain ⟨u, hu, eu, su⟩ := takeDefinition_parts hd hl hf
    obtain ⟨ep, sp⟩ := skipSpace_parts hs
    obtain rfl := skipSpace_comma hc hs
    have st : tail <:+ ts := ((List.suffix_cons _ _).trans sp).trans su
    obtain ⟨vs, hne, hvs, ev, sv⟩ := ih e (hl.of_infix st.isInfix) (hf.of_subset st.subset)
    refine ⟨u :: vs, List.cons_ne_nil _ _, .cons hu hvs, ?_, sv.trans st⟩
    have hvn : vs ≠ [] := by
      rintro rfl
      cases hvs
      exact hne rfl
    rw [eu, ← ep, plains_cons, commaed_cons _ hvn]
    simp only [List.tail_cons] at ev
    simp [Token.isSpace, Token.plain, ev]
  | case4 ts d rest' hd hc =>
    cases h
    obtain ⟨u, hu, eu, su⟩ := takeDefinition_parts hd hl hf
    exact ⟨[u], List.cons_ne_nil _ _, .cons hu .nil, by simpa using eu, su⟩

/-! ## The statement -/

structure With.Holds (w : With) (us : List Token) : Prop where
  keyword : Worded w.keyword
  nonempty : w.definitions ≠ []
  flat : Flat (tokenize w.main)
  parts : ∃ ds ts, us = (if w.semicolon then [.semicolon] else []) ++ (plainsOf w.keyword ++ (commaed ds ++ plains ts)) ∧
    List.Forall₂ Definition.Holds w.definitions ds ∧ Thins ts w.main

theorem With.holds_ofText {sql : Text} {w : With} (h : With.ofText sql = .ok w) (hf : Flat (tokenize sql)) :
    w.Holds (plainsOf sql) := by
  have hl := legible_tokenize sql
  obtain ⟨ts, e₁, h⟩ := ok_of_bind h
  obtain ⟨⟨keyword, a⟩, e₂, h⟩ := ok_of_bind h
  obtain ⟨⟨ds, b⟩, e₃, h⟩ := ok_of_bind h
  obtain ⟨ep, sp⟩ := skipSpace_parts e₁
  -- the semicolon, if there is one
  obtain ⟨us, eus, su, epus⟩ : ∃ us, (if ts.head? = some .semicolon then ts.tail else ts) = us ∧
      us <:+ tokenize sql ∧ plains ts = (if ts.head? = some .semicolon then [.semicolon] else []) ++ plains us := by
    split
    · next hs =>
      obtain ⟨ts, rfl⟩ := List.head?_eq_some_iff.mp hs
      exact ⟨ts, rfl, (List.suffix_cons _ _).trans sp, by simp [plains_cons, Token.isSpace, Token.plain]⟩
    · exact ⟨ts, rfl, sp, rfl⟩
  rw [eus] at e₂
  obtain ⟨hk, ek, sk⟩ := takeKeyword_parts e₂ (hl.of_infix su.isInfix) (hf.of_subset su.subset)
  have sk := sk.trans su
  obtain ⟨vs, hne, hds, ed, sd⟩ := takeDefinitions_parts e₃ (hl.of_infix sk.isInfix) (hf.of_subset sk.subset)
  have sd := sd.trans sk
  obtain ⟨hfm, hthin⟩ := trim_spell (hl.of_infix sd.isInfix) (hf.of_subset sd.subset)
  simp only at h
  split at h
  · cases h
  · cases h
    refine ⟨hk, hne, hfm, vs, b, ?_, hds, hthin⟩
    rw [plainsOf, ← ep, epus, ek, ed]
    simp

end SqlLayout
