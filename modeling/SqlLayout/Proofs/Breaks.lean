import SqlLayout.Item.Alias
import SqlLayout.Item.Modifier
import SqlLayout.Item.Reflow
import SqlLayout.Proofs.Items

/-!
# Code that is broken into lines

A CASE or a window is cut between tokens, and so is code in front of its
alias. The parts are trimmed and moved, which loses no token.
-/

namespace SqlLayout

/-! ## CASE -/

theorem caseShape_tokens (n : Nesting) (d : Nat) (ts : List Token) :
    (caseShape n d ts).first ++ ((caseShape n d ts).later.map Prod.snd).flatten = ts := by
  induction ts generalizing n d with
  | nil => rfl
  | cons t ts ih =>
    rw [caseShape]
    cases h : (caseStep d (n.topKeyword t)).2 with
    | none => simp [h, ih]
    | some l => simp [h, ih]

theorem fades_reflowCase {indent : Nat} {code m : Text} (h : reflowCase indent code = some m) :
    Fades [code] [m] := by
  simp only [reflowCase] at h
  split at h
  · cases h
    have e := caseShape_tokens {} 0 (tokenize code)
    generalize caseShape {} 0 (tokenize code) = shape at e
    refine (Fades.cut (shape.first :: shape.later.map Prod.snd) e).trans (Fades.trans ?_ (Fades.join _))
    rw [List.map_cons, List.map_map]
    refine (Fades.trimEnd _).cons (Fades.map_map (fun l => ?_) _)
    exact (Fades.pad_append _ _).trans (Fades.trimEnd _)
  · cases h

/-! ## Windows -/

theorem window?_tokens {n : Nesting} {ts : List Token} {w : Window} (h : window? n ts = some w) :
    w.keyword.isKeyword .OVER ∧ ∃ sp : List Token, (∀ t ∈ sp, t.isSpace) ∧
      ts = w.front ++ w.keyword :: (sp ++ .openParen :: (w.inner ++ .closeParen :: w.back)) := by
  induction ts generalizing n w with
  | nil => cases h
  | cons t ts ih =>
    rw [window?] at h
    split at h
    · next us e =>
      obtain ⟨⟨inner, back⟩, hp, rfl⟩ := Option.map_eq_some_iff.mp h
      split at e
      · next hk =>
        have hk : t.isKeyword .OVER := by
          unfold Nesting.topKeyword at hk
          split at hk
          · simpa [Token.isKeyword] using hk
          · cases hk
        refine ⟨hk, ts.takeWhile Token.isSpace, List.all_eq_true.mp List.all_takeWhile, ?_⟩
        rw [List.nil_append, ← splitClosing_eq hp, ← e, List.takeWhile_append_dropWhile]
      · cases e
    · obtain ⟨w, hw, rfl⟩ := Option.map_eq_some_iff.mp h
      obtain ⟨hk, sp, hsp, e⟩ := ih hw
      exact ⟨hk, sp, hsp, by rw [e]; rfl⟩

theorem flatten_modifyHead {t : Token} {gs : List (List Token)} (h : gs ≠ []) :
    (gs.modifyHead (t :: ·)).flatten = t :: gs.flatten := by
  obtain ⟨g, gs, rfl⟩ := List.exists_cons_of_ne_nil h
  rfl

theorem windowParts_flatten (n : Nesting) (started : Bool) (ts : List Token) :
    windowParts n started ts ≠ [] ∧ (windowParts n started ts).flatten = ts := by
  induction ts generalizing n started with
  | nil => exact ⟨List.cons_ne_nil _ _, rfl⟩
  | cons t ts ih =>
    obtain ⟨hne, e⟩ := ih (n.step t) (started || !isBlankText t.text)
    have e : ((windowParts (n.step t) (started || !isBlankText t.text) ts).modifyHead (t :: ·)).flatten =
        t :: ts := by rw [flatten_modifyHead hne, e]
    rw [windowParts]
    split
    · exact ⟨List.cons_ne_nil _ _, e⟩
    · exact ⟨by simpa using hne, e⟩

theorem isWord_of_isKeyword {k : Keyword} {t : Token} (h : t.isKeyword k) : ∃ w, t = .word w := by
  cases t with
  | word w => exact ⟨w, rfl⟩
  | _ => simp [Token.isKeyword, Token.keyword] at h

theorem spell_space {ts : List Token} (hl : ∀ t ∈ ts, t.Formed) (hs : ∀ t ∈ ts, t.isSpace) :
    (spell ts).all isSpaceChar := by
  rw [List.all_eq_true]
  intro c hc
  obtain ⟨t, ht, hc⟩ := List.mem_flatMap.mp hc
  match t, hs t ht, hl t ht with
  | .whitespace w, _, hf => exact List.all_eq_true.mp hf.2 c hc

theorem solidsOf_text {t : Token} (hf : t.Formed) (hs : t.isSpace = false) : solidsOf t.text = [t] := by
  have h : Legible [t] := ⟨hf, Or.inr t.stops_nil, trivial⟩
  have := h.solidsOf_spell
  rwa [spell_cons, spell_nil, List.append_nil, solids_cons, hs] at this

theorem plainsOf_text {t : Token} (hf : t.Formed) (hs : t.isSpace = false) : plainsOf t.text = [t.plain] := by
  rw [plainsOf_eq, solidsOf_text hf hs]
  rfl

theorem takesMore_text {t : Token} (hf : t.Formed) (hs : t.isSpace = false) (hc : t.isLineComment = false) :
    TakesMore (plainsOf t.text) := by
  rw [plainsOf_text hf hs]
  simpa [TakesMore] using hc

theorem fades_reflowWindow {indent : Nat} {code m : Text} (h : reflowWindow indent code = some m) :
    Fades [code] [m] := by
  simp only [reflowWindow] at h
  split at h
  · cases h
  split at h
  · cases h
  · next w hw =>
    split at h
    · cases h
    · cases h
      obtain ⟨hk, sp, hsp, e⟩ := window?_tokens hw
      obtain ⟨kw, hkw⟩ := isWord_of_isKeyword hk
      have hsp : (spell sp).all isSpaceChar :=
        spell_space (fun t ht => formed_of_mem (s := code) (by rw [e]; simp [ht])) hsp
      refine Fades.trans ?_ (Fades.join _)
      have hcut := Fades.cut (s := code)
        ([w.front, [w.keyword], sp ++ [.openParen]] ++ windowParts {} false w.inner ++
          [[.closeParen], w.back]) (by
        rw [e]
        simp [(windowParts_flatten {} false w.inner).2])
      refine hcut.trans ?_
      simp only [List.map_append, List.map_cons, List.map_nil, Window.lines]
      refine Fades.append (Fades.append ?_ ?_) ?_
      · refine (Fades.trim _).cons ?_
        have hparen : Fades [spell (sp ++ [.openParen])] [" (".toList] := by
          rw [spell_append]
          exact (Fades.drop_space hsp _).trans (Fades.space_append (w := [' ']) (by decide) _)
        have hf : w.keyword.Formed := formed_of_mem (s := code) (by rw [e]; simp)
        have hlast := takesMore_text hf (by rw [hkw]; rfl) (by rw [hkw]; rfl)
        rw [List.append_assoc]
        simpa using ((Fades.refl [w.keyword.text]).cons hparen).trans
          ((Fades.glue hlast (by decide)).trans (Fades.pad_append indent _))
      · have hparts := Fades.map_map (fun p => Fades.trim (spell p)) (windowParts {} false w.inner)
        exact (hparts.trans (Fades.filter _)).trans (Fades.map (Fades.pad_append _) _)
      · have hback : Fades [spell [.closeParen], spell w.back] [[')'], trim (spell w.back)] :=
          (Fades.refl [[')']]).cons (Fades.trim _)
        refine hback.trans (Fades.trans ?_ (Fades.pad_append indent _))
        split
        · next hb =>
          rw [hb]
          simpa using Fades.filter [[')'], []]
        · have hlast := takesMore_text (t := .closeParen) trivial rfl rfl
          exact ((Fades.refl [[')']]).cons (Fades.space_append (w := [' ']) (by decide) _)).trans
            (Fades.glue hlast rfl)

theorem fades_reflow {indent : Nat} {code m : Text} (h : reflow indent code = some m) :
    Fades [code] [m] := by
  unfold reflow at h
  split at h
  · cases h
  · rcases Option.or_eq_some_iff.mp h with h | ⟨-, h⟩
    · exact fades_reflowCase h
    · exact fades_reflowWindow h

theorem Item.shows_reflow {i : Item} {p : Parts} (h : i.Shows p) (indent : Nat) : (i.reflow indent).Shows p := by
  refine h.of_fades ?_
  cases e : SqlLayout.reflow indent i.code with
  | none => exact Fades.refl _
  | some m => exact fades_reflow e

/-! ## Aliases -/

theorem rest_of_lineComment {t : Token} {ts : List Token} (hl : Legible (t :: ts)) (hc : t.isLineComment)
    (hn : '\n' ∉ spell ts) : ts = [] := by
  obtain ⟨-, hs, hlt⟩ := hl
  match t, hc, hs with
  | .lineComment c, _, hs =>
    by_contra hne
    obtain ⟨d, r, e⟩ := List.exists_cons_of_ne_nil (spell_ne_nil hlt hne)
    have hs := hs.resolve_left (by simp [Token.isSpace])
    rw [e] at hs hn
    obtain rfl : d = '\n' := by simpa [Token.Stops] using hs
    simp at hn

/-- What follows a line comment on its line becomes part of it. -/
theorem Legible.extend_comment {ts : List Token} {c b : Text} (hl : Legible (ts ++ [.lineComment c]))
    (hb : '\n' ∉ b) : Legible (ts ++ [.lineComment (c ++ b)]) := by
  obtain ⟨r, rfl, hr⟩ : (Token.lineComment c).Formed := hl.formed (by simp)
  refine hl.extend_last (b := b) ⟨r ++ b, rfl, ?_⟩ rfl (by simp [Token.text])
  rw [List.all_append, Bool.and_eq_true]
  refine ⟨hr, ?_⟩
  simp only [List.all_eq_true, decide_eq_true_eq]
  rintro x hx rfl
  exact hb hx

theorem solidsOf_comment_append {a b c : Text} {ts : List Token} (h : tokenize a = ts ++ [.lineComment c])
    (hb : '\n' ∉ b) : solidsOf (a ++ b) = solids ts ++ [.lineComment (c ++ b)] := by
  have hl : Legible (ts ++ [.lineComment c]) := h ▸ legible_tokenize a
  have e : spell (ts ++ [.lineComment (c ++ b)]) = a ++ b := by
    rw [← spell_tokenize a, h]
    simp [Token.text]
  rw [← e, (hl.extend_comment hb).solidsOf_spell]
  simp [solids_cons, Token.isSpace]

theorem takesMore_trimEnd {s : Text} (hn : '\n' ∉ s) (hc : ∀ t ∈ solidsOf s, t.isLineComment = false) :
    TakesMore (plainsOf (trimEnd s)) := by
  obtain ⟨w, e, -⟩ := exists_trimEnd s
  rw [e, List.mem_append, not_or] at hn
  have hno : ∀ t ∈ tokenize (trimEnd s), t.isLineComment = false := by
    intro t ht
    by_contra hlc
    obtain ⟨x, y, exy⟩ := List.append_of_mem ht
    have hl := legible_tokenize (trimEnd s)
    have hy : y = [] := by
      rw [exy] at hl
      refine rest_of_lineComment hl.of_append_right (by simpa using hlc) fun h => hn.1 ?_
      rw [← spell_tokenize (trimEnd s), exy]
      simp [h]
    match t, hlc with
    | .lineComment c, _ =>
      have := solidsOf_comment_append (b := w) (by rw [exy, hy]) hn.2
      rw [← e] at this
      have hm : Token.lineComment (c ++ w) ∈ solidsOf s := by simp [this]
      simpa [Token.isLineComment] using hc _ hm
  refine takesMore_of_forall fun t ht => ?_
  obtain ⟨u, hu, rfl⟩ := List.mem_map.mp ht
  simpa using hno u (mem_solids.mp hu).1

theorem splitLastAs_tokens {n : Nesting} {ts a b : List Token} (h : splitLastAs n ts = some (a, b)) :
    ts = a ++ b ∧ b ≠ [] := by
  induction ts generalizing n a b with
  | nil => cases h
  | cons t ts ih =>
    rw [splitLastAs] at h
    split at h
    · next e => cases h; obtain ⟨rfl, hb⟩ := ih e; exact ⟨rfl, hb⟩
    · split at h
      · cases h; exact ⟨rfl, List.cons_ne_nil _ _⟩
      · cases h

theorem fades_splitAlias {code front back : Text} (h : splitAlias code = some (front, back)) (n : Nat) :
    Fades [code] [front ++ pad (n + 1) ++ back] := by
  unfold splitAlias at h
  split at h
  · cases h
  next hn =>
  split at h
  · cases h
  · next t ts e =>
    obtain ⟨⟨a, b⟩, hab, h⟩ := Option.map_eq_some_iff.mp h
    cases h
    obtain ⟨rfl, hb⟩ := splitLastAs_tokens hab
    have hl := legible_tokenize code
    have hcut := Fades.cut (s := code) [t :: a, b] (by simp [e])
    have hn : '\n' ∉ spell (t :: a) ++ spell b := by
      rw [← spell_append, List.cons_append, ← e, spell_tokenize]
      simpa using hn
    rw [e, ← List.cons_append] at hl
    have hno : ∀ u ∈ t :: a, u.isLineComment = false := by
      intro u hu
      by_contra hlc
      obtain ⟨x, y, exy⟩ := List.append_of_mem hu
      rw [exy, List.append_assoc, List.cons_append] at hl
      have := rest_of_lineComment hl.of_append_right (by simpa using hlc) fun h => hn ?_
      · exact hb (List.append_eq_nil_iff.mp this).2
      · rw [exy, spell_append, spell_cons]
        simp only [spell_append, List.mem_append] at h ⊢
        tauto
    have hlast : TakesMore (plainsOf (trimEnd (spell (t :: a)))) := by
      refine takesMore_trimEnd (fun h => hn (List.mem_append_left _ h)) fun u hu => hno u ?_
      rw [hl.of_append_left.solidsOf_spell] at hu
      exact (mem_solids.mp hu).1
    rw [List.append_assoc]
    exact hcut.trans (((Fades.trimEnd _).cons (Fades.pad_append (n + 1) _)).trans (Fades.glue hlast rfl))

theorem Item.shows_alignAlias {i : Item} {p : Parts} (h : i.Shows p) (width : Nat) :
    (i.alignAlias width).Shows p := by
  unfold alignAlias
  split
  · next e => exact h.of_fades (fades_splitAlias e _)
  · exact h

/-! ## Modifiers -/

theorem takeModifier_noComment {ts a b : List Token} (h : takeModifier ts = some (a, b)) :
    ∀ t ∈ a, t.isComment = false := by
  unfold takeModifier at h
  split at h
  · cases h
  · simpa using (Option.filter_eq_some_iff.mp h).2

theorem isLineComment_of_isComment {t : Token} (h : t.isComment = false) : t.isLineComment = false := by
  cases t <;> first | rfl | cases h

theorem takeModifiers_spells {ts : List Token} (hl : Legible ts) (hf : Flat ts) :
    ∃ us, plains ts = us ++ plains (takeModifiers ts).2 ∧ Legible (takeModifiers ts).2 ∧
      Flat (takeModifiers ts).2 ∧ ((takeModifiers ts).1 = [] → us = []) ∧
        Spells us [[' '].intercalate (takeModifiers ts).1] := by
  fun_induction takeModifiers ts with
  | case1 ts a b h hlt ih =>
    obtain ⟨e, -⟩ := takeModifier_eq h
    have hl : Legible (a ++ b) := e ▸ hl.of_infix (List.dropWhile_suffix _).isInfix
    obtain ⟨fa, fb⟩ := flat_append.mp (e ▸ hf.of_subset (List.dropWhile_suffix Token.isSpace).subset)
    obtain ⟨us, eb, hlr, hfr, -, hsp⟩ := ih hl.of_append_right fb
    have ha : ∀ t ∈ a, t.isLineComment = false := fun t ht =>
      isLineComment_of_isComment (takeModifier_noComment h t ht)
    refine ⟨plains a ++ us, ?_, hlr, hfr, fun h => absurd h (List.cons_ne_nil _ _), ?_⟩
    · rw [← plains_dropWhile_isSpace, e, plains_append, eb, List.append_assoc]; rfl
    · have hlast : TakesMore (plains a) := by
        refine takesMore_of_forall fun t ht => ?_
        obtain ⟨u, hu, rfl⟩ := List.mem_map.mp ht
        simpa using ha u (mem_solids.mp hu).1
      have hca := spells_collapse hl.of_append_left fa ha
      change Spells _ [[' '].intercalate (collapse a :: (takeModifiers b).1)]
      cases hms : (takeModifiers b).1 with
      | nil =>
        rw [hms] at hsp
        simpa using hca.glue hsp hlast rfl
      | cons m ms =>
        rw [hms] at hsp
        rw [List.intercalate_cons_cons, List.append_assoc]
        exact Spells.glue hca
          (hsp.fades (Fades.space_append (w := [' ']) (by decide) _)) hlast rfl
  | case2 ts h => exact ⟨[], by simp, hl, hf, fun _ => rfl, by simpa using Spells.nil.fades (Fades.join [])⟩

end SqlLayout
