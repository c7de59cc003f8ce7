import SqlLayout.Proofs.Blank
import SqlLayout.Proofs.Relex

/-!
# Trimming the text of tokens

A trimmed text has the tokens of the text, or fewer hard blanks: a token that
trimming cuts into loses one. Line comments are compared without their blank
ends, which trimming may cut, and words without regard to letter case.
-/

namespace SqlLayout

/-! ## Tokens as they are compared -/

namespace Token

def plain : Token → Token
  | word w => word (upper w)
  | lineComment c => lineComment (trimEnd c)
  | t => t

def isFlat (t : Token) : Bool := !t.isUnterminated && !t.spansLines

@[simp] theorem isSpace_plain (t : Token) : t.plain.isSpace = t.isSpace := by cases t <;> rfl

@[simp] theorem isComment_plain (t : Token) : t.plain.isComment = t.isComment := by cases t <;> rfl

@[simp] theorem isLineComment_plain (t : Token) : t.plain.isLineComment = t.isLineComment := by
  cases t <;> rfl

@[simp] theorem isCode_plain (t : Token) : t.plain.isCode = t.isCode := by cases t <;> rfl

@[simp] theorem isUnterminated_plain (t : Token) : t.plain.isUnterminated = t.isUnterminated := by
  cases t <;> rfl

end Token

def plains (ts : List Token) : List Token := (solids ts).map Token.plain

def plainsOf (s : Text) : List Token := plains (tokenize s)

@[simp] theorem plains_nil : plains [] = [] := rfl

@[simp] theorem plains_append (ts us : List Token) : plains (ts ++ us) = plains ts ++ plains us := by
  simp [plains]

theorem plains_cons (t : Token) (ts : List Token) :
    plains (t :: ts) = if t.isSpace then plains ts else t.plain :: plains ts := by
  unfold plains; rw [solids_cons]; split <;> rfl

theorem filter_plains {p : Token → Bool} (hp : ∀ t, p t.plain = p t) (hs : ∀ t, p t → t.isSpace = false) (ts : List Token) :
    (plains ts).filter p = (ts.filter p).map Token.plain := by
  rw [plains, List.filter_map, solids, List.filter_filter]
  congr 1
  refine List.filter_congr fun t _ => ?_
  cases h : p t with
  | true => simp [hp, h, hs t h]
  | false => simp [hp, h]

theorem filter_isCode_plains (ts : List Token) : (plains ts).filter Token.isCode = (ts.filter Token.isCode).map Token.plain :=
  filter_plains Token.isCode_plain (fun t h => by cases t <;> first | rfl | cases h) ts

theorem solids_dropWhile_isSpace (ts : List Token) : solids (ts.dropWhile Token.isSpace) = solids ts := by
  induction ts with
  | nil => rfl
  | cons t ts ih =>
    cases hs : t.isSpace with
    | true => rw [List.dropWhile_cons_of_pos hs, ih, solids_cons]; simp [hs]
    | false => rw [List.dropWhile_cons_of_neg (by simp [hs])]

theorem plains_dropWhile_isSpace (ts : List Token) : plains (ts.dropWhile Token.isSpace) = plains ts := by
  rw [plains, solids_dropWhile_isSpace, plains]

theorem plainsOf_eq (s : Text) : plainsOf s = (solidsOf s).map Token.plain := rfl

@[simp] theorem plainsOf_nil : plainsOf [] = [] := by simp [plainsOf_eq]

theorem Legible.plainsOf_spell {ts : List Token} (h : Legible ts) : plainsOf (spell ts) = plains ts := by
  rw [plainsOf_eq, h.solidsOf_spell, plains]

def seen (ts : List Token) : Nat := (ts.map fun t => hards t.text).sum

@[simp] theorem seen_nil : seen [] = 0 := rfl

@[simp] theorem seen_cons (t : Token) (ts : List Token) : seen (t :: ts) = hards t.text + seen ts := rfl

@[simp] theorem seen_append (ts us : List Token) : seen (ts ++ us) = seen ts + seen us := by
  simp [seen]

theorem hards_plain_le (t : Token) : hards t.plain.text ≤ hards t.text := by
  cases t with
  | word w => exact (hards_upper w).le
  | lineComment c => exact hards_trimEnd_le c
  | _ => exact Nat.le_refl _

theorem hards_plain {t : Token} (h : t.isLineComment = false) : hards t.plain.text = hards t.text := by
  cases t with
  | word w => exact hards_upper w
  | lineComment c => cases h
  | _ => rfl

theorem seen_plains_le (ts : List Token) : seen (plains ts) ≤ hards (spell ts) := by
  induction ts with
  | nil => exact Nat.le_refl _
  | cons t ts ih =>
    rw [plains_cons, spell_cons, hards_append]
    split
    · omega
    · have := hards_plain_le t
      rw [seen_cons]; omega

theorem seen_plainsOf_le (s : Text) : seen (plainsOf s) ≤ hards s := by
  have := seen_plains_le (tokenize s)
  rwa [spell_tokenize] at this

/-- The text has the tokens of `ts`, or has lost a hard blank of one of them. -/
def Thins (ts : List Token) (s : Text) : Prop :=
  plainsOf s = plains ts ∨ seen (plainsOf s) < seen (plains ts) ∧ hards s < hards (spell ts)

theorem Thins.seen_le {ts : List Token} {s : Text} (h : Thins ts s) :
    seen (plainsOf s) ≤ seen (plains ts) := by
  rcases h with h | h
  · rw [h]
  · exact h.1.le

/-! ## Ends of tokens -/

theorem isSpaceChar_of_isWordChar {c : Char} (h : isWordChar c) : isSpaceChar c = false := by
  have := isBreak_space (c := c)
  by_contra hc
  simp only [Bool.not_eq_false] at hc
  simp [isBreak, h] at this
  simp [this] at hc

theorem word_chars {w : Text} (h : (Token.word w).Formed) : w.all isWordChar := by
  obtain ⟨c, r, rfl, hc, hr⟩ := h
  simp [isWordChar, hc]
  simpa [isWordChar] using hr

theorem closesAtEnd_getLast {q : Char} {b : Text} (h : Token.closesAtEnd q b) : b.getLast? = some q := by
  fun_induction Token.closesAtEnd q b with
  | case1 => cases h
  | case2 c => simpa using h
  | case3 c d b hc ih => rw [List.getLast?_cons_cons]; exact ih h
  | case4 c b hc ih =>
    have hb := ih h
    cases b with
    | nil => cases hb
    | cons x b => rwa [List.getLast?_cons_cons, List.getLast?_cons_cons]
  | case5 => cases h

theorem closed_blockComment {w : Text} (hf : (Token.blockComment w).Formed)
    (hu : (Token.blockComment w).isUnterminated = false) : w.getLast? = some '/' := by
  obtain ⟨b, rfl, -⟩ := hf
  have : ['*', '/'] <:+ b := by
    by_contra h
    rw [(isUnterminated_blockComment b).mpr h] at hu; cases hu
  obtain ⟨r, rfl⟩ := this
  simp [List.getLast?_cons, List.getLast?_append]

theorem closed_number {w : Text} (hf : (Token.number w).Formed) :
    ∃ c, w.getLast? = some c ∧ c.isDigit := by
  obtain ⟨ds, hds, ⟨rfl, hne⟩ | ⟨d, fs, rfl, hd, hfs⟩⟩ := hf
  · exact ⟨_, List.getLast?_eq_some_getLast hne, List.all_eq_true.mp hds _ (List.getLast_mem hne)⟩
  · refine ⟨(d :: fs).getLast (List.cons_ne_nil _ _), ?_, ?_⟩
    · rw [List.getLast?_append_of_ne_nil _ (List.cons_ne_nil _ _), List.getLast?_cons_cons,
        List.getLast?_eq_some_getLast]
    have : (d :: fs).all Char.isDigit := by simpa [hd] using hfs
    exact List.all_eq_true.mp this _ (List.getLast_mem _)

theorem isBlank_of_isDigit {c : Char} (h : c.isDigit) : isBlank c = false := by
  have : 48 ≤ c.toNat ∧ c.toNat ≤ 57 := by
    simpa [Char.isDigit, UInt32.le_iff_toNat_le] using h
  simp only [isBlank, Bool.or_eq_false_iff, Bool.and_eq_false_iff, decide_eq_false_iff_not]
  omega

theorem isBlank_of_pair {c d : Char} (h : isOperatorPair c d) : isBlank c = false ∧ isBlank d = false := by
  simp only [isOperatorPair, List.contains_eq_mem, List.mem_cons, Prod.mk.injEq, List.not_mem_nil,
    or_false, decide_eq_true_eq] at h
  rcases h with ⟨rfl, rfl⟩ | ⟨rfl, rfl⟩ | ⟨rfl, rfl⟩ | ⟨rfl, rfl⟩ | ⟨rfl, rfl⟩ | ⟨rfl, rfl⟩ |
    ⟨rfl, rfl⟩ | ⟨rfl, rfl⟩ | ⟨rfl, rfl⟩ | ⟨rfl, rfl⟩ | ⟨rfl, rfl⟩ | ⟨rfl, rfl⟩ <;> decide

/-- The words and operators, in which alone a hard blank can stand at an end. -/
theorem noSpace_of_formed {t : Token} (hf : t.Formed) (h : (∃ w, t = .word w) ∨ ∃ c, t = .operator [c]) :
    t.text.all fun c => !isSpaceChar c := by
  rcases h with ⟨w, rfl⟩ | ⟨c, rfl⟩
  · have := word_chars hf
    simp only [List.all_eq_true, Token.text] at this ⊢
    exact fun c hc => by simp [isSpaceChar_of_isWordChar (this c hc)]
  · obtain ⟨k, hk, e | ⟨d, e, -⟩⟩ := hf
    · obtain ⟨rfl, -⟩ := List.cons.inj e
      simpa [Token.text] using (isOperatorChar_iff.mp hk).1
    · simp at e

theorem Token.trimEnd_text {t : Token} (hf : t.Formed) (hu : t.isUnterminated = false)
    (hs : t.isSpace = false) (hl : t.isLineComment = false) :
    trimEnd t.text = t.text ∨
      hards (trimEnd t.text) < hards t.text ∧ (trimEnd t.text = [] ∨ ∃ w, t = .word w) := by
  have last : ∀ {c : Char}, t.text.getLast? = some c → isBlank c = false → trimEnd t.text = t.text := by
    intro c h hc
    exact trimEnd_of_getLast (by simp [h, hc])
  cases t with
  | whitespace w => cases hs
  | lineComment w => cases hl
  | blockComment w => exact Or.inl (last (closed_blockComment hf hu) (by decide))
  | stringLiteral w =>
    obtain ⟨b, rfl, -⟩ := hf
    have hb : Token.closesAtEnd '\'' b := by simpa [isUnterminated, isEnclosed] using hu
    have := closesAtEnd_getLast hb
    exact Or.inl (last (c := '\'') (by simp [Token.text, List.getLast?_cons, this]) (by decide))
  | quotedIdentifier w =>
    obtain ⟨b, ⟨rfl, -⟩ | ⟨rfl, -⟩⟩ := hf
    · have hb : Token.closesAtEnd '"' b := by simpa [isUnterminated, isEnclosed] using hu
      have := closesAtEnd_getLast hb
      exact Or.inl (last (c := '"') (by simp [Token.text, List.getLast?_cons, this]) (by decide))
    · have hb : Token.closesAtEnd ']' b := by simpa [isUnterminated, isEnclosed] using hu
      have := closesAtEnd_getLast hb
      exact Or.inl (last (c := ']') (by simp [Token.text, List.getLast?_cons, this]) (by decide))
  | number w =>
    obtain ⟨c, hc, hd⟩ := closed_number hf
    exact Or.inl (last hc (isBlank_of_isDigit hd))
  | word w =>
    by_cases h : trimEnd w = w
    · exact Or.inl h
    · exact Or.inr ⟨hards_trimEnd_lt (noSpace_of_formed hf (Or.inl ⟨w, rfl⟩)) h, Or.inr ⟨w, rfl⟩⟩
  | operator w =>
    obtain ⟨c, -, rfl | ⟨d, rfl, hp⟩⟩ := id hf
    · by_cases h : trimEnd [c] = [c]
      · exact Or.inl h
      · refine Or.inr ⟨hards_trimEnd_lt (noSpace_of_formed hf (Or.inr ⟨c, rfl⟩)) h, Or.inl ?_⟩
        have := trimEnd_isPrefix [c]
        rcases List.prefix_cons_iff.mp this with e | ⟨r, e, hr⟩
        · exact e
        · rw [List.prefix_nil.mp hr] at e; exact absurd e h
    · exact Or.inl (last (c := d) rfl (isBlank_of_pair hp).2)
  | comma => exact Or.inl (last (c := ',') rfl (by decide))
  | semicolon => exact Or.inl (last (c := ';') rfl (by decide))
  | dot => exact Or.inl (last (c := '.') rfl (by decide))
  | openParen => exact Or.inl (last (c := '(') rfl (by decide))
  | closeParen => exact Or.inl (last (c := ')') rfl (by decide))

theorem Token.trimStart_text {t : Token} (hf : t.Formed) (hs : t.isSpace = false) :
    trimStart t.text = t.text ∨
      hards (trimStart t.text) < hards t.text ∧ (trimStart t.text = [] ∨ ∃ w, t = .word w) := by
  have head : ∀ {c : Char} {r : Text}, t.text = c :: r → isBlank c = false → trimStart t.text = t.text := by
    intro c r h hc
    rw [h]; exact List.dropWhile_cons_of_neg (by simp [hc])
  cases t with
  | whitespace w => cases hs
  | lineComment w => obtain ⟨b, rfl, -⟩ := hf; exact Or.inl (head rfl (by decide))
  | blockComment w => obtain ⟨b, rfl, -⟩ := hf; exact Or.inl (head rfl (by decide))
  | stringLiteral w => obtain ⟨b, rfl, -⟩ := hf; exact Or.inl (head rfl (by decide))
  | quotedIdentifier w =>
    obtain ⟨b, ⟨rfl, -⟩ | ⟨rfl, -⟩⟩ := hf <;> exact Or.inl (head rfl (by decide))
  | number w =>
    obtain ⟨ds, hds, ⟨rfl, hne⟩ | ⟨d, fs, rfl, -⟩⟩ := hf
    · obtain ⟨c, r, rfl⟩ := List.exists_cons_of_ne_nil hne
      exact Or.inl (head rfl (isBlank_of_isDigit (by simp_all)))
    · cases ds with
      | nil => exact Or.inl (head rfl (by decide))
      | cons c ds => exact Or.inl (head rfl (isBlank_of_isDigit (by simp_all)))
  | word w =>
    by_cases h : trimStart w = w
    · exact Or.inl h
    · exact Or.inr ⟨hards_trimStart_lt (noSpace_of_formed hf (Or.inl ⟨w, rfl⟩)) h, Or.inr ⟨w, rfl⟩⟩
  | operator w =>
    obtain ⟨c, -, rfl | ⟨d, rfl, hp⟩⟩ := id hf
    · cases hc : isBlank c with
      | false => exact Or.inl (head rfl hc)
      | true =>
        have hw := noSpace_of_formed hf (Or.inr ⟨c, rfl⟩)
        have e : trimStart [c] = [] := List.dropWhile_cons_of_pos hc
        exact Or.inr ⟨hards_trimStart_lt hw (by simp [Token.text, e]), Or.inl e⟩
    · exact Or.inl (head rfl (isBlank_of_pair hp).1)
  | _ => exact Or.inl (head rfl (by decide))

/-! ## Ends of token lists -/

def Flat (ts : List Token) : Prop := ∀ t ∈ ts, t.isFlat

theorem Flat.isUnterminated {ts : List Token} (h : Flat ts) {t : Token} (ht : t ∈ ts) :
    t.isUnterminated = false := by
  have := h t ht
  simp only [Token.isFlat, Bool.and_eq_true, Bool.not_eq_true'] at this
  exact this.1

theorem Flat.append {ts us : List Token} (h₁ : Flat ts) (h₂ : Flat us) : Flat (ts ++ us) := by
  intro t ht
  rcases List.mem_append.mp ht with ht | ht
  · exact h₁ t ht
  · exact h₂ t ht

theorem flat_append {ts us : List Token} : Flat (ts ++ us) ↔ Flat ts ∧ Flat us := List.forall_mem_append

theorem Flat.of_subset {ts us : List Token} (h : Flat ts) (hs : us ⊆ ts) : Flat us := fun t ht => h t (hs ht)

/-- The last token may be cut, if what is left of it is a token. -/
theorem Legible.cut_last {us : List Token} {t t' : Token} (h : Legible (us ++ [t])) (hf : t'.Formed)
    (hp : t'.text <+: t.text) : Legible (us ++ [t']) := by
  induction us with
  | nil => exact ⟨hf, Or.inr t'.stops_nil, trivial⟩
  | cons u us ih =>
    refine ⟨h.1, h.2.1.imp_right fun hu => hu.of_isPrefix ?_, ih h.2.2⟩
    simp only [List.append_eq, spell_append, spell_cons, spell_nil, List.append_nil]
    exact (List.prefix_append_right_inj _).mpr hp

theorem trimEnd_lineComment {c : Text} (h : (Token.lineComment c).Formed) :
    trimEnd c ≠ [] ∧ (Token.lineComment (trimEnd c)).Formed := by
  obtain ⟨b, rfl, hb⟩ := h
  rw [trimEnd_cons (by decide), trimEnd_cons (by decide)]
  refine ⟨List.cons_ne_nil _ _, _, rfl, ?_⟩
  simp only [List.all_eq_true] at hb ⊢
  exact fun d hd => hb d ((trimEnd_isPrefix b).subset hd)

theorem isFlat_lineComment {c : Text} (h : (Token.lineComment c).Formed) : (Token.lineComment c).isFlat := by
  obtain ⟨b, rfl, hb⟩ := h
  have : '\n' ∉ b := fun hn => absurd (List.all_eq_true.mp hb _ hn) (by decide)
  simpa [Token.isFlat, Token.isUnterminated, Token.spansLines, Token.isSpace, Token.text] using this

theorem isFlat_word {w : Text} (h : (Token.word w).Formed) : (Token.word w).isFlat := by
  have := noSpace_of_formed h (Or.inl ⟨w, rfl⟩)
  simp only [List.all_eq_true, Token.text] at this
  simp only [Token.isFlat, Token.isUnterminated, Token.spansLines, Token.isSpace, Token.text,
    Bool.not_false, Bool.true_and, Bool.not_eq_true', List.contains_eq_mem, decide_eq_false_iff_not]
  intro hn
  exact absurd (this _ hn) (by decide)

theorem trimEnd_spell {ts : List Token} (hl : Legible ts) (hf : Flat ts) :
    ∃ us, Legible us ∧ Flat us ∧ spell us = trimEnd (spell ts) ∧ Thins ts (spell us) := by
  induction ts using List.reverseRecOn with
  | nil => exact ⟨[], hl, hf, rfl, Or.inl (by simp)⟩
  | append_singleton ts t ih =>
    have hft : t.Formed := hl.formed (by simp)
    have hut : t.isUnterminated = false := hf.isUnterminated (by simp)
    obtain ⟨us, hlu, hfu, hu, hthin⟩ := ih hl.of_append_left fun t ht => hf t (by simp [ht])
    have e : spell (ts ++ [t]) = spell ts ++ t.text := by simp
    cases hs : t.isSpace with
    | true =>
      obtain ⟨w, rfl⟩ := Token.eq_whitespace hs
      have hw : w.all isBlank := by
        have hw := hft.2
        simp only [List.all_eq_true] at hw ⊢
        exact fun c hc => isBlank_of_isSpaceChar (hw c hc)
      refine ⟨us, hlu, hfu, by rw [e, hu]; exact (trimEnd_append_blank hw _).symm, ?_⟩
      simpa [Thins, plains_cons, hs, Token.text, hards_space hft.2] using hthin
    | false =>
    cases hlc : t.isLineComment with
    | true =>
      obtain ⟨c, rfl⟩ := Token.eq_lineComment hlc
      obtain ⟨hne, hfc⟩ := trimEnd_lineComment hft
      have hlc : Legible (ts ++ [.lineComment (trimEnd c)]) :=
        hl.cut_last hfc (trimEnd_isPrefix c)
      refine ⟨_, hlc, ?_, ?_, Or.inl ?_⟩
      · exact (hf.of_subset (by simp)).append fun t ht => by
          obtain rfl := List.mem_singleton.mp ht
          exact isFlat_lineComment hfc
      · simp only [spell_append, spell_cons, spell_nil, List.append_nil, Token.text]
        exact (trimEnd_append hne _).symm
      · rw [hlc.plainsOf_spell]
        simp [plains_cons, Token.isSpace, Token.plain]
    | false =>
      rcases Token.trimEnd_text hft hut hs hlc with h | ⟨hlt, h⟩
      · refine ⟨ts ++ [t], hl, hf, ?_, Or.inl hl.plainsOf_spell⟩
        rw [e, trimEnd_append (by rw [h]; exact hft.text_ne_nil), h]
      · have hseen : seen (plains (ts ++ [t])) = seen (plains ts) + hards t.text := by
          simp [plains_cons, hs, hards_plain hlc]
        by_cases hn : trimEnd t.text = []
        · refine ⟨us, hlu, hfu, ?_, Or.inr ⟨?_, ?_⟩⟩
          · rw [e, trimEnd_append_blank (trimEnd_eq_nil.mp hn), hu]
          · have := hthin.seen_le
            omega
          · have := hards_trimEnd_le (spell ts)
            rw [hu, e, hards_append]
            omega
        · obtain ⟨w, rfl⟩ := h.resolve_left hn
          have hfw : (Token.word (trimEnd w)).Formed := by
            obtain ⟨c, r, rfl, hc, hr⟩ := hft
            obtain ⟨x, hx⟩ := trimEnd_isPrefix (c :: r)
            cases ht : trimEnd (c :: r) with
            | nil => exact absurd ht hn
            | cons d y =>
              rw [ht] at hx
              obtain ⟨rfl, hy⟩ := List.cons.inj hx
              refine ⟨d, y, rfl, hc, ?_⟩
              rw [← hy, List.append_eq, List.all_append, Bool.and_eq_true] at hr
              exact hr.1
          have hlw : Legible (ts ++ [.word (trimEnd w)]) :=
            hl.cut_last hfw (trimEnd_isPrefix w)
          refine ⟨_, hlw, ?_, ?_, Or.inr ⟨?_, ?_⟩⟩
          · exact (hf.of_subset (by simp)).append fun t ht => by
              obtain rfl := List.mem_singleton.mp ht
              exact isFlat_word hfw
          · simp only [spell_append, spell_cons, spell_nil, List.append_nil]
            exact (trimEnd_append hn _).symm
          · rw [hlw.plainsOf_spell, hseen]
            simpa [plains_cons, Token.isSpace, Token.plain, Token.text] using hlt
          · simpa [Token.text] using hlt

/-! ## Starts of token lists

A word that loses its start may read as something else, and so may what
follows up to the end of the word characters and points. -/

def isNameChar (c : Char) : Bool := isWordChar c || c = '.'

theorem mem_of_mem_tokenize {t : Token} {s : Text} (ht : t ∈ tokenize s) {c : Char} (hc : c ∈ t.text) :
    c ∈ s := by
  rw [← spell_tokenize s]
  exact List.mem_flatMap.mpr ⟨t, ht, hc⟩

theorem name_token {t : Token} (hf : t.Formed) (hn : t.text.all isNameChar) :
    (∃ w, t = .word w) ∨ (∃ w, t = .number w) ∨ t = .dot := by
  simp only [List.all_eq_true] at hn
  have no : ∀ {c : Char}, c ∈ t.text → isNameChar c = false → False := by
    intro c hc h
    rw [hn c hc] at h; cases h
  cases t with
  | word w => exact Or.inl ⟨w, rfl⟩
  | number w => exact Or.inr (Or.inl ⟨w, rfl⟩)
  | dot => exact Or.inr (Or.inr rfl)
  | whitespace w =>
    obtain ⟨c, r, rfl⟩ := List.exists_cons_of_ne_nil hf.1
    have hc : isSpaceChar c := by simpa using (List.all_eq_true.mp hf.2) c (by simp)
    have := isBreak_space hc
    exact (no (c := c) (by simp [Token.text]) (by simp_all [isBreak, isNameChar])).elim
  | lineComment w =>
    obtain ⟨b, rfl, -⟩ := hf
    exact (no (c := '-') (by simp [Token.text]) (by decide)).elim
  | blockComment w =>
    obtain ⟨b, rfl, -⟩ := hf
    exact (no (c := '/') (by simp [Token.text]) (by decide)).elim
  | stringLiteral w =>
    obtain ⟨b, rfl, -⟩ := hf
    exact (no (c := '\'') (by simp [Token.text]) (by decide)).elim
  | quotedIdentifier w =>
    obtain ⟨b, ⟨rfl, -⟩ | ⟨rfl, -⟩⟩ := hf
    · exact (no (c := '"') (by simp [Token.text]) (by decide)).elim
    · exact (no (c := '[') (by simp [Token.text]) (by decide)).elim
  | operator w =>
    obtain ⟨c, hc, hw⟩ := hf
    obtain ⟨-, hw', hd, -, -, -, hp, -⟩ := isOperatorChar_iff.mp hc
    refine (no (c := c) ?_ (by simp [isNameChar, isWordChar, hw', hd, hp])).elim
    rcases hw with rfl | ⟨d, rfl, -⟩ <;> simp [Token.text]
  | comma => exact (no (c := ',') (by simp [Token.text]) (by decide)).elim
  | semicolon => exact (no (c := ';') (by simp [Token.text]) (by decide)).elim
  | openParen => exact (no (c := '(') (by simp [Token.text]) (by decide)).elim
  | closeParen => exact (no (c := ')') (by simp [Token.text]) (by decide)).elim

theorem name_tokens {u : Text} (hu : u.all isNameChar) {t : Token} (ht : t ∈ tokenize u) :
    (∃ w, t = .word w) ∨ (∃ w, t = .number w) ∨ t = .dot := by
  refine name_token (formed_of_mem ht) ?_
  simp only [List.all_eq_true] at hu ⊢
  exact fun c hc => hu c (mem_of_mem_tokenize ht hc)

theorem stops_name {u q : Text} (hu : u.all isNameChar) (hq : !q.head?.any isNameChar) :
    ∀ t ∈ (tokenize u).getLast?, t.Stops q := by
  intro t ht
  have hw : !q.head?.any isWordChar := by
    cases q <;> simp_all [isNameChar]
  have hd : !q.head?.any Char.isDigit := by
    cases q <;> simp_all [isNameChar, isWordChar]
  rcases name_tokens hu (List.mem_of_getLast? ht) with ⟨w, rfl⟩ | ⟨w, rfl⟩ | rfl
  · exact hw
  · refine ⟨hd, Or.inr ?_⟩
    cases q <;> simp_all [isNameChar, startsFraction]
  · exact hd

theorem solidsOf_name_append {u q : Text} (hu : u.all isNameChar) (hq : !q.head?.any isNameChar) :
    solidsOf (u ++ q) = solidsOf u ++ solidsOf q :=
  solidsOf_append fun t ht => Or.inr (stops_name hu hq t ht)

theorem seen_plains {ts : List Token} (hf : ∀ t ∈ ts, t.Formed) (hl : ∀ t ∈ ts, t.isLineComment = false) :
    seen (plains ts) = hards (spell ts) := by
  induction ts with
  | nil => rfl
  | cons t ts ih =>
    have ih := ih (fun t ht => hf t (by simp [ht])) fun t ht => hl t (by simp [ht])
    rw [plains_cons, spell_cons, hards_append, ← ih]
    cases hs : t.isSpace with
    | true =>
      match t, hs, hf t (by simp) with
      | .whitespace w, _, h => simp [Token.text, hards_space h.2]
    | false => simp [hards_plain (hl t (by simp))]

theorem seen_name {u : Text} (hu : u.all isNameChar) : seen (plainsOf u) = hards u := by
  rw [plainsOf, seen_plains (fun t ht => formed_of_mem ht), spell_tokenize]
  intro t ht
  rcases name_tokens hu ht with ⟨w, rfl⟩ | ⟨w, rfl⟩ | rfl <;> rfl

theorem flat_name {u : Text} (hu : u.all isNameChar) : Flat (tokenize u) := by
  intro t ht
  have hn : '\n' ∉ t.text := fun hn =>
    absurd (List.all_eq_true.mp hu _ (mem_of_mem_tokenize ht hn)) (by decide)
  rcases name_tokens hu ht with ⟨w, rfl⟩ | ⟨w, rfl⟩ | rfl <;>
    simp [Token.isFlat, Token.isUnterminated, Token.spansLines, hn]

theorem flat_iff_solids {ts : List Token} : Flat ts ↔ Flat (solids ts) := by
  constructor
  · exact fun h => h.of_subset (List.filter_subset_self ts)
  · intro h t ht
    cases hs : t.isSpace with
    | false => exact h t (mem_solids.mpr ⟨ht, hs⟩)
    | true => simp [Token.isFlat, isUnterminated_of_isSpace hs, Token.spansLines, hs]

theorem flat_tokenize_iff (s : Text) : Flat (tokenize s) ↔ Flat (solidsOf s) := flat_iff_solids

theorem seen_word_append {w : Text} (hw : w.all isWordChar) {ts : List Token} (hl : Legible ts)
    (hf : Flat ts) : Flat (tokenize (w ++ spell ts)) ∧
      seen (plainsOf (w ++ spell ts)) ≤ hards w + seen (plains ts) := by
  let r := (spell ts).takeWhile isNameChar
  let q := (spell ts).dropWhile isNameChar
  have e : r ++ q = spell ts := List.takeWhile_append_dropWhile
  have hr : r.all isNameChar := List.all_takeWhile
  have hq : !q.head?.any isNameChar := head_dropWhile _ _
  have hwr : (w ++ r).all isNameChar := by
    simp only [List.all_eq_true, List.mem_append] at hw hr ⊢
    rintro c (hc | hc)
    · simp [isNameChar, hw c hc]
    · exact hr c hc
  have h₁ : solidsOf (w ++ spell ts) = solidsOf (w ++ r) ++ solidsOf q := by
    rw [← e, ← List.append_assoc, solidsOf_name_append hwr hq]
  have h₂ : solids ts = solidsOf r ++ solidsOf q := by
    rw [← hl.solidsOf_spell, ← e, solidsOf_name_append hr hq]
  constructor
  · rw [flat_iff_solids] at hf ⊢
    change Flat (solidsOf _)
    rw [h₁]
    rw [h₂] at hf
    exact (flat_iff_solids.mp (flat_name hwr)).append (hf.of_subset (by simp))
  · have hp : plainsOf (w ++ spell ts) = plainsOf (w ++ r) ++ plainsOf q := by
      simp only [plainsOf_eq, h₁, List.map_append]
    have hp' : plains ts = plainsOf r ++ plainsOf q := by
      rw [plains, h₂]; simp only [plainsOf_eq, List.map_append]
    rw [hp, hp', seen_append, seen_append, seen_name hwr, seen_name hr, hards_append]
    omega

theorem flat_tokenize_spell {ts : List Token} (hl : Legible ts) (hf : Flat ts) : Flat (tokenize (spell ts)) := by
  rw [flat_iff_solids] at hf ⊢
  change Flat (solidsOf _)
  rwa [hl.solidsOf_spell]

theorem trimStart_spell {ts : List Token} (hl : Legible ts) (hf : Flat ts) :
    Flat (tokenize (trimStart (spell ts))) ∧ Thins ts (trimStart (spell ts)) := by
  induction ts with
  | nil => exact ⟨flat_tokenize_spell hl hf, Or.inl (by simp [trimStart])⟩
  | cons t ts ih =>
    obtain ⟨hft, hst, hlt⟩ := id hl
    have hfts : Flat ts := hf.of_subset (by simp)
    obtain ⟨ihf, iht⟩ := ih hlt hfts
    cases hs : t.isSpace with
    | true =>
      obtain ⟨w, rfl⟩ := Token.eq_whitespace hs
      have hw : ∀ c ∈ w, isBlank c := fun c hc =>
        isBlank_of_isSpaceChar (List.all_eq_true.mp hft.2 c hc)
      rw [spell_cons, show trimStart ((Token.whitespace w).text ++ spell ts) = trimStart (spell ts) from
        List.dropWhile_append_of_pos hw]
      exact ⟨ihf, by simpa [Thins, plains_cons, hs, Token.text, hards_space hft.2] using iht⟩
    | false =>
      have happ : ∀ {x : Text}, trimStart x ≠ [] → trimStart (x ++ spell ts) = trimStart x ++ spell ts := by
        intro x hx
        simp only [trimStart] at hx ⊢
        rw [List.dropWhile_append]
        simp [hx]
      rcases Token.trimStart_text hft hs with h | ⟨hlt', h⟩
      · have e : trimStart (spell (t :: ts)) = spell (t :: ts) := by
          rw [spell_cons, happ (by rw [h]; exact hft.text_ne_nil), h]
        rw [e]
        exact ⟨flat_tokenize_spell hl hf, Or.inl hl.plainsOf_spell⟩
      · have hseen : hards t.text + seen (plains ts) = seen (plains (t :: ts)) := by
          have hlc : t.isLineComment = false := by
            cases t <;> first | rfl | skip
            obtain ⟨b, rfl, -⟩ := hft
            simp [Token.text, trimStart, isBlank] at hlt'
          simp [plains_cons, hs, hards_plain hlc]
        rw [spell_cons]
        by_cases hn : trimStart t.text = []
        · have : trimStart (t.text ++ spell ts) = trimStart (spell ts) :=
            List.dropWhile_append_of_pos (by simpa [trimStart] using hn)
          rw [this]
          refine ⟨ihf, Or.inr ⟨?_, ?_⟩⟩
          · have := iht.seen_le
            omega
          · have := hards_trimStart_le (spell ts)
            rw [spell_cons, hards_append]
            omega
        · obtain ⟨w, rfl⟩ := h.resolve_left hn
          rw [happ hn]
          have hw : (trimStart w).all isWordChar := by
            have := word_chars hft
            simp only [List.all_eq_true] at this ⊢
            exact fun c hc => this c ((List.dropWhile_suffix isBlank).subset hc)
          obtain ⟨h₁, h₂⟩ := seen_word_append hw hlt hfts
          simp only [Token.text] at hlt' hseen ⊢
          refine ⟨h₁, Or.inr ⟨by omega, ?_⟩⟩
          rw [spell_cons, hards_append, hards_append]
          exact Nat.add_lt_add_right hlt' _

theorem trim_spell {ts : List Token} (hl : Legible ts) (hf : Flat ts) :
    Flat (tokenize (trim (spell ts))) ∧ Thins ts (trim (spell ts)) := by
  obtain ⟨us, hlu, hfu, hu, hthin⟩ := trimEnd_spell hl hf
  obtain ⟨h₁, h₂⟩ := trimStart_spell hlu hfu
  rw [trim_eq_trimStart_trimEnd, ← hu]
  refine ⟨h₁, ?_⟩
  rw [Thins, ← hlu.plainsOf_spell] at h₂
  rcases hthin with e | ⟨h₃, h₄⟩
  · have := hards_trimEnd_le (spell ts)
    rw [← hu] at this
    rcases h₂ with e' | ⟨h₅, h₆⟩
    · exact Or.inl (e'.trans e)
    · exact Or.inr ⟨by rwa [e] at h₅, by omega⟩
  · have := hards_trimStart_le (spell us)
    rcases h₂ with e' | ⟨h₅, h₆⟩
    · exact Or.inr ⟨by rw [e']; exact h₃, by omega⟩
    · exact Or.inr ⟨by omega, by omega⟩

/-! ## One line -/

/-- A line comment ends its line, so in a trimmed line it has no blank end. -/
theorem hards_eq_seen {ts : List Token} (hl : Legible ts) (hn : '\n' ∉ spell ts)
    (ht : (spell ts).getLast?.all fun c => !isBlank c) : hards (spell ts) = seen (plains ts) := by
  induction ts with
  | nil => rfl
  | cons t ts ih =>
    obtain ⟨hf, hs, hlt⟩ := hl
    rw [spell_cons] at hn ht ⊢
    have hlast : (spell ts).getLast?.all fun c => !isBlank c := by
      cases e : spell ts with
      | nil => rfl
      | cons c r =>
        rwa [e, List.getLast?_append_of_ne_nil _ (List.cons_ne_nil _ _)] at ht
    have ih := ih hlt (fun h => hn (by simp [h])) hlast
    rw [hards_append, ih, plains_cons]
    cases hsp : t.isSpace with
    | true =>
      obtain ⟨w, rfl⟩ := Token.eq_whitespace hsp
      simp [Token.text, hards_space hf.2]
    | false =>
      have hs := hs.resolve_left (by simp [hsp])
      cases hlc : t.isLineComment with
      | false => simp [hards_plain hlc]
      | true =>
        obtain ⟨c, rfl⟩ := Token.eq_lineComment hlc
        -- nothing can follow
        have hnil : spell ts = [] := by
          cases e : spell ts with
          | nil => rfl
          | cons d r =>
            rw [e] at hs hn
            obtain rfl : d = '\n' := by simpa [Token.Stops] using hs
            exact absurd (by simp) hn
        rw [hnil, List.append_nil] at ht
        have hc : trimEnd c = c := trimEnd_of_getLast ht
        simp [Token.plain, Token.text, hc]

theorem Thins.line {ts : List Token} {m : Text} (h : Thins ts m) (hn : '\n' ∉ m)
    (hm : m.getLast?.all fun c => !isBlank c) :
    hards m < seen (plains ts) ∨ hards m = seen (plains ts) ∧ plainsOf m = plains ts := by
  have e : hards m = seen (plainsOf m) := by
    have := hards_eq_seen (legible_tokenize m)
    rw [spell_tokenize] at this
    exact this hn hm
  rcases h with h | ⟨h, -⟩
  · exact Or.inr ⟨by rw [e, h], h⟩
  · exact Or.inl (by rwa [e])

end SqlLayout
