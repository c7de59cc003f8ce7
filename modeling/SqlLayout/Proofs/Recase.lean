import SqlLayout.Casing
import SqlLayout.Proofs.Trim

/-!
# Letter case changes no token

A word in another letter case has its characters in the same classes, so the
tokens in front of it stop where they did, and the recased text reads as the
recased tokens.
-/

namespace SqlLayout

def Alike (c d : Char) : Prop := d = c ∨ c.isAlpha ∧ d.isAlpha

theorem Alike.isWordChar {c d : Char} (h : Alike c d) : isWordChar d = isWordChar c := by
  rcases h with rfl | ⟨hc, hd⟩
  · rfl
  · simp [SqlLayout.isWordChar, startsWord_of_isAlpha hc, startsWord_of_isAlpha hd]

theorem Alike.startsWord {c d : Char} (h : Alike c d) : startsWord d = startsWord c := by
  rcases h with rfl | ⟨hc, hd⟩
  · rfl
  · rw [startsWord_of_isAlpha hc, startsWord_of_isAlpha hd]

theorem isAlpha_ne {c x : Char} (hx : x.isAlpha = false) (hc : c.isAlpha) : c ≠ x := by
  rintro rfl
  rw [hx] at hc
  cases hc

theorem Alike.eq_iff {c d x : Char} (hx : x.isAlpha = false) (h : Alike c d) : d = x ↔ c = x := by
  rcases h with rfl | ⟨hc, hd⟩
  · rfl
  · exact ⟨fun e => absurd e (isAlpha_ne hx hd), fun e => absurd e (isAlpha_ne hx hc)⟩

theorem isDigit_of_isAlpha {c : Char} (h : c.isAlpha) : c.isDigit = false := by
  have := isAlpha_toNat.mp h
  have hd : ¬(48 ≤ c.toNat ∧ c.toNat ≤ 57) := by omega
  simpa [Char.isDigit, UInt32.le_iff_toNat_le] using hd

theorem Alike.isDigit {c d : Char} (h : Alike c d) : d.isDigit = c.isDigit := by
  rcases h with rfl | ⟨hc, hd⟩
  · rfl
  · rw [isDigit_of_isAlpha hc, isDigit_of_isAlpha hd]

theorem Alike.isSpaceChar {c d : Char} (h : Alike c d) : isSpaceChar d = isSpaceChar c := by
  simp only [SqlLayout.isSpaceChar, h.eq_iff (x := ' ') (by decide), h.eq_iff (x := '\t') (by decide),
    h.eq_iff (x := '\n') (by decide), h.eq_iff (x := '\x0c') (by decide), h.eq_iff (x := '\r') (by decide)]

theorem Alike.joinsOperator {c d : Char} (h : Alike c d) (o : Char) : joinsOperator o d = joinsOperator o c := by
  simp only [SqlLayout.joinsOperator, isOperatorPair, List.contains_eq_mem, List.mem_cons, Prod.mk.injEq,
    List.not_mem_nil, or_false, h.eq_iff (x := '>') (by decide), h.eq_iff (x := '=') (by decide),
    h.eq_iff (x := '<') (by decide), h.eq_iff (x := '|') (by decide), h.eq_iff (x := ':') (by decide),
    h.eq_iff (x := '-') (by decide), h.eq_iff (x := '*') (by decide)]

theorem Token.Stops.alike {t : Token} {s s' : Text} (h : t.Stops s) (hs : List.Forall₂ Alike s s') :
    t.Stops s' := by
  cases hs with
  | nil => exact h
  | @cons c d r r' hc hr =>
    cases t with
    | whitespace w => simpa [Stops, hc.isSpaceChar] using h
    | lineComment w => simpa [Stops, hc.eq_iff (x := '\n') (by decide)] using h
    | blockComment w => exact fun hu => absurd (h hu) (List.cons_ne_nil _ _)
    | stringLiteral w =>
      refine ⟨fun hu => absurd (h.1 hu) (List.cons_ne_nil _ _), ?_⟩
      simpa [hc.eq_iff (x := '\'') (by decide)] using h.2
    | quotedIdentifier w =>
      refine ⟨fun hu => absurd (h.1 hu) (List.cons_ne_nil _ _), ?_⟩
      have h := h.2
      by_cases hw : w.head? = some '['
      · simpa [hw, hc.eq_iff (x := ']') (by decide)] using h
      · simpa [hw, hc.eq_iff (x := '"') (by decide)] using h
    | number w =>
      refine ⟨by simpa [hc.isDigit] using h.1, h.2.imp_right fun hf => ?_⟩
      cases hr with
      | nil => simp [startsFraction]
      | cons hd _ => simpa [startsFraction, hc.eq_iff (x := '.') (by decide), hd.isDigit] using hf
    | word w => simpa [Stops, hc.isWordChar] using h
    | operator w =>
      rcases w with - | ⟨o, - | ⟨o', w⟩⟩
      · trivial
      · simpa [Stops, hc.joinsOperator] using h
      · trivial
    | dot => simpa [Stops, hc.isDigit] using h
    | _ => trivial

theorem all_isWordChar_alike {s s' : Text} (h : List.Forall₂ Alike s s') :
    s'.all isWordChar = s.all isWordChar := by
  induction h with
  | nil => rfl
  | cons h _ ih => rw [List.all_cons, List.all_cons, ih, h.isWordChar]

/-! ## Words -/

theorem alike_upper (w : Text) : List.Forall₂ Alike w (upper w) :=
  List.forall₂_map_right_iff.mpr (List.forall₂_same.mpr fun c _ => toUpper_cases c)

theorem alike_lower (w : Text) : List.Forall₂ Alike w (lower w) :=
  List.forall₂_map_right_iff.mpr (List.forall₂_same.mpr fun c _ => toLower_cases c)

theorem alike_refl (w : Text) : List.Forall₂ Alike w w := List.forall₂_same.mpr fun _ _ => Or.inl rfl

theorem LetterCase.alike_apply (l : LetterCase) (w : Text) : List.Forall₂ Alike w (l.apply w) := by
  cases l with
  | upper => exact alike_upper w
  | lower => exact alike_lower w
  | preserve => exact alike_refl w

theorem LetterCase.upper_apply (l : LetterCase) (w : Text) : SqlLayout.upper (l.apply w) = SqlLayout.upper w := by
  cases l with
  | upper => simp [apply, SqlLayout.upper]
  | lower => simp [apply, SqlLayout.upper, SqlLayout.lower]
  | preserve => rfl

/-! ## Tokens -/

theorem recaseToken_cases (o : Options) (seen : List Token) (t : Token) (ts : List Token) :
    recaseToken o seen t ts = t ∨
      ∃ w l, t = .word w ∧ recaseToken o seen t ts = .word (LetterCase.apply l w) := by
  cases t with
  | word w =>
    rw [recaseToken]
    split
    · exact Or.inl rfl
    · exact Or.inr ⟨w, _, rfl, rfl⟩
  | _ => exact Or.inl rfl

theorem recaseToken_formed {o : Options} {seen : List Token} {t : Token} {ts : List Token} (h : t.Formed) :
    (recaseToken o seen t ts).Formed := by
  rcases recaseToken_cases o seen t ts with e | ⟨w, l, rfl, e⟩ <;> rw [e]
  · exact h
  · obtain ⟨c, r, rfl, hc, hr⟩ := h
    have hw := l.alike_apply (c :: r)
    generalize l.apply (c :: r) = v at hw
    obtain ⟨d, r', hcd, hrr, rfl⟩ := List.forall₂_cons_left_iff.mp hw
    exact ⟨d, r', rfl, hcd.startsWord ▸ hc, all_isWordChar_alike hrr ▸ hr⟩

theorem recaseToken_plain (o : Options) (seen : List Token) (t : Token) (ts : List Token) :
    (recaseToken o seen t ts).plain = t.plain := by
  rcases recaseToken_cases o seen t ts with e | ⟨w, l, rfl, e⟩ <;> rw [e]
  simp [Token.plain, l.upper_apply]

theorem alike_recaseToken (o : Options) (seen : List Token) (t : Token) (ts : List Token) :
    List.Forall₂ Alike t.text (recaseToken o seen t ts).text := by
  rcases recaseToken_cases o seen t ts with e | ⟨w, l, rfl, e⟩ <;> rw [e]
  · exact alike_refl _
  · exact l.alike_apply w

theorem alike_recaseFrom (o : Options) (seen ts : List Token) :
    List.Forall₂ Alike (spell ts) (spell (recaseFrom o seen ts)) := by
  induction ts generalizing seen with
  | nil => exact .nil
  | cons t ts ih => exact List.rel_append (alike_recaseToken o seen t ts) (ih _)

/-- Each token of the list stops before what follows, space too. -/
def Lexed : List Token → Prop
  | [] => True
  | t :: ts => t.Formed ∧ t.Stops (spell ts) ∧ Lexed ts

theorem lexed_tokenize (s : Text) : Lexed (tokenize s) := by
  fun_induction tokenize s with
  | case1 => trivial
  | case2 c s ih =>
    refine ⟨(scan_spec c s).1, ?_, ih⟩
    rw [spell_tokenize]
    exact (scan_spec c s).2

theorem Lexed.formed {ts : List Token} (h : Lexed ts) {t : Token} (ht : t ∈ ts) : t.Formed := by
  induction ts with
  | nil => cases ht
  | cons u ts ih =>
    rcases List.mem_cons.mp ht with rfl | ht
    · exact h.1
    · exact ih h.2.2 ht

theorem Lexed.tokenize_spell {ts : List Token} (h : Lexed ts) : tokenize (spell ts) = ts := by
  induction ts with
  | nil => rw [spell_nil, tokenize]
  | cons t ts ih => rw [spell_cons, tokenize_text_append h.1 h.2.1, ih h.2.2]

theorem tokenize_eq_iff {s : Text} {ts : List Token} : tokenize s = ts ↔ Lexed ts ∧ spell ts = s := by
  constructor
  · rintro rfl
    exact ⟨lexed_tokenize s, spell_tokenize s⟩
  · rintro ⟨h, rfl⟩
    exact h.tokenize_spell

theorem Lexed.of_append {ts us : List Token} (h : Lexed (ts ++ us)) : Lexed ts ∧ Lexed us := by
  induction ts with
  | nil => exact ⟨trivial, h⟩
  | cons t ts ih =>
    obtain ⟨hf, hs, ht⟩ := h
    exact ⟨⟨hf, hs.of_isPrefix (by simp), (ih ht).1⟩, (ih ht).2⟩

theorem Lexed.of_infix {ts us : List Token} (h : Lexed ts) (hu : us <:+: ts) : Lexed us := by
  obtain ⟨before, behind, rfl⟩ := hu
  exact h.of_append.1.of_append.2

theorem Lexed.recaseFrom {ts : List Token} (h : Lexed ts) (o : Options) (seen : List Token) :
    Lexed (recaseFrom o seen ts) := by
  induction ts generalizing seen with
  | nil => trivial
  | cons t ts ih =>
    obtain ⟨hf, hs, ht⟩ := h
    refine ⟨recaseToken_formed hf, ?_, ih ht _⟩
    have hal := hs.alike (alike_recaseFrom o (t :: seen) ts)
    rcases recaseToken_cases o seen t ts with e | ⟨w, l, rfl, e⟩ <;> rw [e]
    · exact hal
    · exact hal

/-- The recased text reads as the recased tokens. -/
theorem tokenize_recase (o : Options) (s : Text) : tokenize (recase o s) = recaseTokens o (tokenize s) :=
  ((lexed_tokenize s).recaseFrom o []).tokenize_spell

theorem plains_recaseFrom (o : Options) (seen ts : List Token) : plains (recaseFrom o seen ts) = plains ts := by
  induction ts generalizing seen with
  | nil => rfl
  | cons t ts ih =>
    have hp := recaseToken_plain o seen t ts
    have hs : (recaseToken o seen t ts).isSpace = t.isSpace := by
      rw [← Token.isSpace_plain, hp, Token.isSpace_plain]
    rw [SqlLayout.recaseFrom, plains_cons, plains_cons, ih, hp, hs]

@[simp] theorem plainsOf_recase (o : Options) (s : Text) : plainsOf (recase o s) = plainsOf s := by
  rw [plainsOf, tokenize_recase, recaseTokens, plains_recaseFrom, plainsOf]

/-! ## Recasing twice

What decides on the letter case of a word is the same for tokens in plain
form, and recasing keeps that form. -/

@[simp] theorem upper_upper (w : Text) : upper (upper w) = upper w := by
  simp [upper]

@[simp] theorem Keyword.ofWord?_upper (w : Text) : Keyword.ofWord? (upper w) = Keyword.ofWord? w := by
  simp [Keyword.ofWord?]

@[simp] theorem nameIn?_upper (names : List String) (w : Text) : nameIn? names (upper w) = nameIn? names w := by
  simp [nameIn?]

namespace Token

@[simp] theorem keyword_plain (t : Token) : t.plain.keyword = t.keyword := by
  cases t with
  | word w => exact Keyword.ofWord?_upper w
  | _ => rfl

@[simp] theorem isKeyword_plain (k : Keyword) (t : Token) : t.plain.isKeyword k = t.isKeyword k := by
  simp [isKeyword]

theorem isWordFrom_plain (cs : List Char) (hcs : ∀ x ∈ cs, x.isAlpha = false) (t : Token) :
    t.plain.isWordFrom cs = t.isWordFrom cs := by
  cases t with
  | word w =>
    cases w with
    | nil => rfl
    | cons c w =>
      rw [Bool.eq_iff_iff]
      simp only [plain, upper, List.map_cons, isWordFrom, List.contains_eq_mem, decide_eq_true_eq]
      -- a mark is in the list before and after, and a letter never is
      have mark : ∀ x ∈ cs, c.toUpper = x ↔ c = x := fun x hx => Alike.eq_iff (hcs x hx) (toUpper_cases c)
      constructor
      · intro h
        rwa [(mark _ h).mp rfl]
      · intro h
        rwa [(mark _ h).mpr rfl]
  | _ => rfl

end Token

@[simp] theorem isWordIn_plain (ws : List String) (t : Option Token) :
    isWordIn ws (t.map Token.plain) = isWordIn ws t := by
  rcases t with - | t
  · rfl
  · cases t <;> simp [isWordIn, Token.plain]

@[simp] theorem isTypeWord_plain (t : Option Token) : isTypeWord (t.map Token.plain) = isTypeWord t := by
  rcases t with - | t
  · rfl
  · cases t <;> simp [isTypeWord, Token.plain, isTypeName]

@[simp] theorem isVariable_plain (t : Option Token) : isVariable (t.map Token.plain) = isVariable t := by
  cases t with
  | none => rfl
  | some t => exact Token.isWordFrom_plain ['@'] (by simp) t

theorem map_plain_eq_mark {m : Token} (hw : ∀ w, m ≠ .word w) (hc : ∀ c, m ≠ .lineComment c) (t : Option Token) :
    decide (t.map Token.plain = some m) = decide (t = some m) := by
  rw [decide_eq_decide]
  rcases t with - | t
  · simp
  · rw [Option.map_some, Option.some.injEq, Option.some.injEq]
    cases t with
    | word w => exact ⟨fun h => absurd h.symm (hw _), fun h => absurd h.symm (hw _)⟩
    | lineComment c => exact ⟨fun h => absurd h.symm (hc _), fun h => absurd h.symm (hc _)⟩
    | _ => rfl

@[simp] theorem inPhrase_plain (k : Keyword) (prev next : Option Token) :
    inPhrase k (prev.map Token.plain) (next.map Token.plain) = inPhrase k prev next := by
  have equals := map_plain_eq_mark (m := .operator ['=']) (by simp) (by simp)
  have closes := map_plain_eq_mark (m := .closeParen) (by simp) (by simp)
  have opens := map_plain_eq_mark (m := .openParen) (by simp) (by simp)
  cases k with
  | DEFAULT => simp only [inPhrase, isWordIn_plain, isTypeWord_plain, equals, closes]
  | CHECK => simp only [inPhrase, isWordIn_plain, opens]
  | _ => simp [inPhrase]

@[simp] theorem caseOf_plain (o : Options) (prev next : Option Token) (w : Text) :
    caseOf o (prev.map Token.plain) (next.map Token.plain) (upper w) = caseOf o prev next w := by
  have called := map_plain_eq_mark (m := .openParen) (by simp) (by simp) next
  have asked : (prev.map Token.plain).any (Token.isKeyword .AS) = prev.any (Token.isKeyword .AS) := by
    cases prev <;> simp
  unfold caseOf
  rw [Keyword.ofWord?_upper]
  cases Keyword.ofWord? w with
  | some k => simp only [inPhrase_plain]
  | none =>
    simp only [isFunctionName, isTypeName, nameIn?_upper, called, asked, isVariable_plain]
    congr

theorem neighbour_plain (ts : List Token) : neighbour (ts.map Token.plain) = (neighbour ts).map Token.plain := by
  simp [neighbour, List.find?_map]

theorem keepsCase_plain (seen ts : List Token) (t : Token) :
    keepsCase (seen.map Token.plain) (ts.map Token.plain) t.plain = keepsCase seen ts t := by
  have dot := map_plain_eq_mark (m := .dot) (by simp) (by simp)
  simp only [keepsCase, List.head?_map, dot, Token.isWordFrom_plain ['@', '#'] (by simp)]

def LetterCase.orElse : LetterCase → LetterCase → LetterCase
  | .preserve, m => m
  | l, _ => l

theorem LetterCase.apply_apply (l m : LetterCase) (w : Text) : l.apply (m.apply w) = (l.orElse m).apply w := by
  cases l with
  | upper => exact m.upper_apply w
  | lower => cases m <;> simp [apply, orElse, SqlLayout.lower, SqlLayout.upper]
  | preserve => rfl

/-- The letter cases that the second options ask for, or else the first. -/
def Options.casedBy (o₁ o₂ : Options) : Options :=
  { o₂ with
    keywordCase := o₂.keywordCase.orElse o₁.keywordCase
    functionCase := o₂.functionCase.orElse o₁.functionCase
    typeCase := o₂.typeCase.orElse o₁.typeCase }

theorem caseOf_casedBy (o₁ o₂ : Options) (prev next : Option Token) (w : Text) :
    caseOf (o₁.casedBy o₂) prev next w = (caseOf o₂ prev next w).orElse (caseOf o₁ prev next w) := by
  unfold caseOf Options.casedBy
  -- both options put the word under the same of the three
  cases Keyword.ofWord? w with
  | some k =>
    by_cases h : k.isPhraseOnly && !inPhrase k prev next
    · simp only [h, ite_true, LetterCase.orElse]
    · simp only [h, ite_false, Bool.false_eq_true]
  | none =>
    simp only
    split
    · rfl
    split
    · rfl
    · rfl

theorem recaseToken_recaseToken {o₁ o₂ : Options} {seen seen' ts ts' : List Token} {t : Token}
    (hs : seen'.map Token.plain = seen.map Token.plain) (ht : ts'.map Token.plain = ts.map Token.plain) :
    recaseToken o₂ seen' (recaseToken o₁ seen t ts) ts' = recaseToken (o₁.casedBy o₂) seen t ts := by
  cases t with
  | word w =>
    have again : ∀ v, upper v = upper w → recaseToken o₂ seen' (.word v) ts' =
        if keepsCase seen ts (.word w) then .word v
        else .word ((caseOf o₂ (neighbour seen) (neighbour ts) w).apply v) := by
      intro v hv
      have hk : keepsCase seen' ts' (.word v) = keepsCase seen ts (.word w) := by
        rw [← keepsCase_plain, hs, ht, Token.plain, hv]
        exact keepsCase_plain seen ts (.word w)
      have hc : caseOf o₂ (neighbour seen') (neighbour ts') v = caseOf o₂ (neighbour seen) (neighbour ts) w := by
        rw [← caseOf_plain, ← neighbour_plain, ← neighbour_plain, hs, ht, hv, neighbour_plain, neighbour_plain,
          caseOf_plain]
      rw [recaseToken, hk, hc]
    by_cases hk : keepsCase seen ts (.word w)
    · rw [recaseToken, if_pos hk, again w rfl, if_pos hk, recaseToken, if_pos hk]
    · rw [recaseToken, if_neg hk, again _ (LetterCase.upper_apply _ w), if_neg hk, LetterCase.apply_apply,
        ← caseOf_casedBy, recaseToken, if_neg hk]
  | _ => rfl

theorem map_plain_recaseFrom (o : Options) (seen ts : List Token) :
    (recaseFrom o seen ts).map Token.plain = ts.map Token.plain := by
  induction ts generalizing seen with
  | nil => rfl
  | cons t ts ih => rw [recaseFrom, List.map_cons, List.map_cons, recaseToken_plain, ih]

theorem recaseFrom_recaseFrom {o₁ o₂ : Options} {seen seen' ts : List Token}
    (hs : seen'.map Token.plain = seen.map Token.plain) :
    recaseFrom o₂ seen' (recaseFrom o₁ seen ts) = recaseFrom (o₁.casedBy o₂) seen ts := by
  induction ts generalizing seen seen' with
  | nil => rfl
  | cons t ts ih =>
    have hseen : (recaseToken o₁ seen t ts :: seen').map Token.plain = (t :: seen).map Token.plain := by
      rw [List.map_cons, List.map_cons, recaseToken_plain, hs]
    rw [recaseFrom, recaseFrom, recaseToken_recaseToken hs (map_plain_recaseFrom o₁ _ ts), ih hseen, recaseFrom]

theorem recase_recase_casedBy (o₁ o₂ : Options) (s : Text) : recase o₂ (recase o₁ s) = recase (o₁.casedBy o₂) s := by
  rw [recase, tokenize_recase, recaseTokens, recaseTokens, recaseFrom_recaseFrom rfl]
  rfl

@[simp] theorem LetterCase.orElse_self (l : LetterCase) : l.orElse l = l := by cases l <;> rfl

@[simp] theorem Options.casedBy_self (o : Options) : o.casedBy o = o := by simp [casedBy]

@[simp] theorem recase_recase (o : Options) (s : Text) : recase o (recase o s) = recase o s := by
  rw [recase_recase_casedBy, Options.casedBy_self]

end SqlLayout
