import Mathlib
import SqlLayout.Token.Lexer

/-!
# The token at the head of a text

`Token.Formed` says which texts a token of each kind has, and `Token.Stops`
what may follow it without making it longer. The scanner reads exactly the
token that has both properties (`scan_spec`, `scan_text_append`).
-/

namespace SqlLayout

def isOperatorChar (c : Char) : Bool :=
  !(isSpaceChar c || startsWord c || c.isDigit ||
    ['\'', '"', '[', ',', ';', '.', '(', ')'].contains c)

def joinsOperator (c d : Char) : Bool :=
  isOperatorPair c d || (c = '-' && d = '-') || (c = '/' && d = '*')

def startsFraction (s : Text) : Bool := s.head? = some '.' && s.tail.head?.any Char.isDigit

namespace Token

def Formed : Token → Prop
  | whitespace w => w ≠ [] ∧ w.all isSpaceChar
  | lineComment w => ∃ b, w = '-' :: '-' :: b ∧ b.all (· ≠ '\n')
  | blockComment w => ∃ b, w = '/' :: '*' :: b ∧ takeComment b = (b, [])
  | stringLiteral w => ∃ b, w = '\'' :: b ∧ takeQuoted '\'' b = (b, [])
  | quotedIdentifier w =>
    ∃ b, (w = '"' :: b ∧ takeQuoted '"' b = (b, [])) ∨ (w = '[' :: b ∧ takeQuoted ']' b = (b, []))
  | number w =>
    ∃ ds, ds.all Char.isDigit ∧
      (w = ds ∧ ds ≠ [] ∨ ∃ d fs, w = ds ++ '.' :: d :: fs ∧ d.isDigit ∧ fs.all Char.isDigit)
  | word w => ∃ c r, w = c :: r ∧ startsWord c ∧ r.all isWordChar
  | operator w => ∃ c, isOperatorChar c ∧ (w = [c] ∨ ∃ d, w = [c, d] ∧ isOperatorPair c d)
  | _ => True

/-- No character at the head of `s` would lengthen the token. -/
def Stops (s : Text) : Token → Prop
  | whitespace _ => !s.head?.any isSpaceChar
  | lineComment _ => s.head?.all (· = '\n')
  | blockComment w => (blockComment w).isUnterminated → s = []
  | stringLiteral w =>
    ((stringLiteral w).isUnterminated → s = []) ∧ s.head? ≠ some '\''
  | quotedIdentifier w =>
    ((quotedIdentifier w).isUnterminated → s = []) ∧
      s.head? ≠ some (if w.head? = some '[' then ']' else '"')
  | number w => !s.head?.any Char.isDigit ∧ (w.contains '.' ∨ !startsFraction s)
  | word _ => !s.head?.any isWordChar
  | operator w =>
    match w with
    | [c] => !s.head?.any (joinsOperator c)
    | _ => True
  | dot => !s.head?.any Char.isDigit
  | _ => True

end Token

/-! ## Runs of characters -/

theorem head_dropWhile (p : Char → Bool) (s : Text) : !(s.dropWhile p).head?.any p := by
  induction s with
  | nil => rfl
  | cons c s ih => by_cases h : p c <;> simp_all

theorem takeWhile_append_stop {p : Char → Bool} {r s : Text} (hr : r.all p) (hs : !s.head?.any p) :
    (r ++ s).takeWhile p = r := by
  rw [List.takeWhile_append_of_pos (by simpa using hr)]
  cases s with
  | nil => simp
  | cons d s => simp_all

theorem dropWhile_append_stop {p : Char → Bool} {r s : Text} (hr : r.all p) (hs : !s.head?.any p) :
    (r ++ s).dropWhile p = s := by
  rw [List.dropWhile_append_of_pos (by simpa using hr)]
  cases s with
  | nil => simp
  | cons d s => simp_all

theorem takeRun_append_stop {p : Char → Bool} {c : Char} {r s : Text} (hr : r.all p)
    (hs : !s.head?.any p) : takeRun p c (r ++ s) = (c :: r, s) := by
  rw [takeRun, takeWhile_append_stop hr hs, dropWhile_append_stop hr hs]

/-! ## Block comments -/

theorem takeComment_self (s : Text) : takeComment (takeComment s).1 = ((takeComment s).1, []) := by
  fun_induction takeComment s with
  | case1 => rfl
  | case2 s => rfl
  | case3 c s hne ih =>
    simp only [Prod.map_fst]
    rw [takeComment]
    · simp [ih]
    · rintro s' rfl e
      -- the first character of what is taken is the first of the text
      have := takeComment_append s
      rw [e, List.cons_append] at this
      exact hne _ rfl this.symm

theorem takeComment_rest {s : Text} (h : (takeComment s).2 ≠ []) :
    ['*', '/'] <:+ (takeComment s).1 := by
  fun_induction takeComment s with
  | case1 => exact absurd rfl h
  | case2 s => exact List.suffix_refl _
  | case3 c s _ ih => exact (ih h).trans (List.suffix_cons _ _)

theorem takeComment_append_stop {b s : Text} (hb : takeComment b = (b, []))
    (hs : ['*', '/'] <:+ b ∨ s = []) : takeComment (b ++ s) = (b, s) := by
  rcases hs with hs | rfl
  swap
  · rw [List.append_nil, hb]
  fun_induction takeComment b with
  | case1 => simp at hs
  | case2 r =>
    obtain rfl : r = [] := (Prod.mk.inj hb).2
    rfl
  | case3 c b hne ih =>
    have hb' : takeComment b = (b, []) := by
      obtain ⟨h₁, h₂⟩ := Prod.mk.inj hb
      exact Prod.ext (List.cons.inj h₁).2 h₂
    have hs' : ['*', '/'] <:+ b := by
      rcases List.suffix_cons_iff.mp hs with e | h
      · obtain ⟨rfl, rfl⟩ := List.cons.inj e
        exact absurd rfl (hne [] rfl)
      · exact h
    rw [List.cons_append, takeComment]
    · rw [ih hb' hs']; rfl
    · rintro s' rfl e
      cases b with
      | nil => simp at hs'
      | cons d b => exact hne b rfl (by rw [(List.cons.inj e).1])

theorem byteSize_append (s t : Text) : byteSize (s ++ t) = byteSize s + byteSize t := by
  induction s with
  | nil => simp [byteSize]
  | cons c s ih => simp only [List.cons_append, byteSize, ih]; omega

theorem isUnterminated_blockComment (b : Text) :
    (Token.blockComment ('/' :: '*' :: b)).isUnterminated ↔ ¬['*', '/'] <:+ b := by
  simp only [Token.isUnterminated, Bool.or_eq_true, decide_eq_true_eq, Bool.not_eq_true',
    List.isSuffixOf_iff_suffix, ← Bool.not_eq_true]
  have h2 : byteSize ['*', '/'] = 2 := by decide
  have hb : byteSize ('/' :: '*' :: b) = 2 + byteSize b := by
    simp only [byteSize]
    rw [← Nat.add_assoc]; rfl
  constructor
  · rintro (h | h) hs
    · obtain ⟨u, rfl⟩ := hs
      rw [byteSize_append] at hb
      omega
    · exact h (hs.trans ((List.suffix_cons _ _).trans (List.suffix_cons _ _)))
  · intro h
    by_cases hs : ['*', '/'] <:+ '/' :: '*' :: b
    · -- only `/*/` ends in the mark without a body that does
      rcases List.suffix_cons_iff.mp hs with e | hs
      · simp at e
      rcases List.suffix_cons_iff.mp hs with e | hs
      · obtain rfl := (List.cons.inj e).2
        left; decide
      · exact absurd hs h
    · exact Or.inr hs

/-! ## Quoted texts -/

theorem takeQuoted_append_stop {close : Char} {b s : Text} (hb : Token.closesAtEnd close b)
    (hs : s.head? ≠ some close) : takeQuoted close (b ++ s) = (b, s) := by
  fun_induction Token.closesAtEnd close b with
  | case1 => cases hb
  | case2 c =>
    cases s with
    | nil => rfl
    | cons d s => simp_all [takeQuoted]
  | case3 c d b hc ih =>
    have := ih hb
    simp only [List.cons_append] at this ⊢
    simp [takeQuoted, hc, this]
  | case4 c b hc ih =>
    obtain rfl := Decidable.not_not.mp hc
    simp [takeQuoted, ih hb]
  | case5 => cases hb

theorem takeQuoted_rest {close : Char} {s : Text} (h : (takeQuoted close s).2 ≠ []) :
    Token.closesAtEnd close (takeQuoted close s).1 ∧ (takeQuoted close s).2.head? ≠ some close := by
  fun_induction takeQuoted close s with
  | case1 => exact absurd rfl h
  | case2 c => exact absurd rfl h
  | case3 c d s hc ih =>
    obtain ⟨h₁, h₂⟩ := ih h
    refine ⟨?_, h₂⟩
    rw [Prod.map_fst]
    -- something is taken, or the rest would not be shorter
    cases e : (takeQuoted close (d :: s)).1 with
    | nil => rw [e] at h₁; cases h₁
    | cons x b => rw [e] at h₁; simp [Token.closesAtEnd, hc, h₁]
  | case4 c s hc ih =>
    obtain rfl := Decidable.not_not.mp hc
    obtain ⟨h₁, h₂⟩ := ih h
    exact ⟨by simpa [Token.closesAtEnd] using h₁, h₂⟩
  | case5 c d s hc hd => simp_all [Token.closesAtEnd]

theorem takeQuoted_self (close : Char) (s : Text) :
    takeQuoted close (takeQuoted close s).1 = ((takeQuoted close s).1, []) := by
  by_cases h : (takeQuoted close s).2 = []
  · have := takeQuoted_append close s
    rw [h, List.append_nil] at this
    rw [this]
    exact Prod.ext this h
  · have := takeQuoted_append_stop (takeQuoted_rest h).1 (s := []) (by simp)
    rwa [List.append_nil] at this

/-- Of a text that a mark closes at its end, or else of everything. -/
theorem takeQuoted_text_append {close : Char} {b s : Text} (hb : takeQuoted close b = (b, []))
    (ho : Token.closesAtEnd close b = false → s = []) (hs : s.head? ≠ some close) :
    takeQuoted close (b ++ s) = (b, s) := by
  cases h : Token.closesAtEnd close b with
  | true => exact takeQuoted_append_stop h hs
  | false => rw [ho h, List.append_nil, hb]

/-! ## Numbers -/

theorem takeNumber_spec (s : Text) :
    !(takeNumber s).2.head?.any Char.isDigit ∧
      ((takeNumber s).1.contains '.' ∨ !startsFraction (takeNumber s).2) := by
  have hd := head_dropWhile Char.isDigit s
  unfold takeNumber
  split
  · rename_i d r e
    split
    · exact ⟨head_dropWhile _ _, by simp⟩
    · exact ⟨by rw [← e]; exact hd, by simp_all [startsFraction]⟩
  · rename_i r hne
    refine ⟨hd, Or.inr ?_⟩
    generalize s.dropWhile Char.isDigit = r at hne
    match r, hne with
    | [], _ => rfl
    | [c], _ => simp [startsFraction]
    | c :: d :: r, hne =>
      have : c ≠ '.' := by rintro rfl; exact hne d r rfl
      simp [startsFraction, this]

theorem takeNumber_formed {s : Text} (h : (takeNumber s).1 ≠ []) :
    (Token.number (takeNumber s).1).Formed := by
  refine ⟨s.takeWhile Char.isDigit, List.all_takeWhile, ?_⟩
  revert h
  unfold takeNumber
  split
  · rename_i d r e
    split
    · rename_i hd
      intro _
      right
      refine ⟨d, r.takeWhile Char.isDigit, ?_, hd, List.all_takeWhile⟩
      rw [List.takeWhile_cons_of_pos hd]
    · exact fun h => Or.inl ⟨rfl, h⟩
  · exact fun h => Or.inl ⟨rfl, h⟩

theorem takeNumber_append_stop {w s : Text} (h : (Token.number w).Formed)
    (hd : !s.head?.any Char.isDigit) (hf : w.contains '.' ∨ !startsFraction s) :
    takeNumber (w ++ s) = (w, s) := by
  obtain ⟨ds, hds, ⟨rfl, -⟩ | ⟨d, fs, rfl, hd', hfs⟩⟩ := h
  · have hp : w.contains '.' = false := by
      rw [← Bool.not_eq_true, List.contains_iff_mem]
      intro hm
      exact absurd (List.all_eq_true.mp hds _ hm) (by decide)
    have hf := hf.resolve_left (by rw [hp]; exact Bool.false_ne_true)
    unfold takeNumber
    rw [takeWhile_append_stop hds hd, dropWhile_append_stop hds hd]
    split
    · rename_i d r
      rw [if_neg (by simpa [startsFraction] using hf)]
    · rfl
  · have hp : !('.' :: d :: (fs ++ s)).head?.any Char.isDigit := by
      simp only [List.head?_cons, Option.any_some]; decide
    have e : ds ++ '.' :: d :: fs ++ s = ds ++ '.' :: d :: (fs ++ s) := by simp
    unfold takeNumber
    rw [e, takeWhile_append_stop hds hp, dropWhile_append_stop hds hp]
    simp only [hd', if_true, List.takeWhile_cons_of_pos, List.dropWhile_cons_of_pos]
    rw [takeWhile_append_stop hfs hd, dropWhile_append_stop hfs hd]

/-! ## One token -/

theorem isOperatorChar_iff {c : Char} : isOperatorChar c ↔
    ¬isSpaceChar c ∧ ¬startsWord c ∧ ¬c.isDigit ∧ (c ≠ '\'' ∧ c ≠ '"' ∧ c ≠ '[') ∧
      c ≠ ',' ∧ c ≠ ';' ∧ c ≠ '.' ∧ c ≠ '(' ∧ c ≠ ')' := by
  simp [isOperatorChar, and_assoc]

theorem scanMark_spec {c : Char} {s : Text} (hc : ¬isSpaceChar c) (hq : c ≠ '\'' ∧ c ≠ '"' ∧ c ≠ '[')
    (hd : ¬c.isDigit) (hf : ¬(c = '.' ∧ s.head?.any Char.isDigit))
    (hj : ¬(c = '-' ∧ s.head? = some '-') ∧ ¬(c = '/' ∧ s.head? = some '*')) :
    (scanMark c s).1.Formed ∧ (scanMark c s).1.Stops (scanMark c s).2 := by
  unfold scanMark
  split
  · exact ⟨trivial, trivial⟩
  split
  · exact ⟨trivial, trivial⟩
  split
  · rename_i h; exact ⟨trivial, by simpa [h, Token.Stops] using hf⟩
  split
  · exact ⟨trivial, trivial⟩
  split
  · exact ⟨trivial, trivial⟩
  split
  · rename_i h
    exact ⟨⟨c, _, rfl, h, List.all_takeWhile⟩, head_dropWhile _ _⟩
  have ho : isOperatorChar c := isOperatorChar_iff.mpr (by simp_all)
  split
  · rename_i h
    cases s with
    | nil => cases h
    | cons d s => exact ⟨⟨c, ho, Or.inr ⟨d, rfl, h⟩⟩, trivial⟩
  · rename_i h
    refine ⟨⟨c, ho, Or.inl rfl⟩, ?_⟩
    cases s with
    | nil => rfl
    | cons d s =>
      simp_all only [Token.Stops, joinsOperator, List.head?_cons, Option.any_some, Option.some.injEq]
      simp [not_and_or.mp hj.1, not_and_or.mp hj.2]

theorem scanLiteral_spec {c : Char} {s : Text} (hc : ¬isSpaceChar c)
    (hj : ¬(c = '-' ∧ s.head? = some '-') ∧ ¬(c = '/' ∧ s.head? = some '*')) :
    (scanLiteral c s).1.Formed ∧ (scanLiteral c s).1.Stops (scanLiteral c s).2 := by
  have open_rest : ∀ {q : Char}, Token.closesAtEnd q (takeQuoted q s).1 = false → (takeQuoted q s).2 = [] := by
    intro q h
    by_contra hne
    rw [(takeQuoted_rest hne).1] at h; cases h
  have head_rest : ∀ {q : Char}, (takeQuoted q s).2.head? ≠ some q := by
    intro q
    by_cases h : (takeQuoted q s).2 = []
    · simp [h]
    · exact (takeQuoted_rest h).2
  unfold scanLiteral
  split
  · rename_i h
    exact ⟨⟨_, by rw [h], takeQuoted_self _ s⟩,
      by simpa [Token.isUnterminated, Token.isEnclosed, h] using open_rest, head_rest⟩
  split
  · rename_i h
    exact ⟨⟨_, Or.inl ⟨by rw [h], takeQuoted_self _ s⟩⟩,
      by simpa [Token.isUnterminated, Token.isEnclosed, h] using open_rest, by simpa [h] using head_rest⟩
  split
  · rename_i h
    exact ⟨⟨_, Or.inr ⟨by rw [h], takeQuoted_self _ s⟩⟩,
      by simpa [Token.isUnterminated, Token.isEnclosed, h] using open_rest, by simpa [h] using head_rest⟩
  split
  · rename_i h
    exact ⟨takeNumber_formed (takeNumber_ne_nil h), takeNumber_spec _⟩
  · exact scanMark_spec hc ⟨‹_›, ‹_›, ‹_›⟩ (by simp_all) (by simp_all) hj

theorem scan_spec (c : Char) (s : Text) : (scan c s).1.Formed ∧ (scan c s).1.Stops (scan c s).2 := by
  unfold scan
  split
  · rename_i h
    exact ⟨⟨List.cons_ne_nil _ _, by simp [h]⟩, head_dropWhile _ _⟩
  split
  · rename_i h
    obtain ⟨rfl, hs⟩ : c = '-' ∧ s.head? = some '-' := by simpa using h
    cases s with
    | nil => cases hs
    | cons d s =>
      obtain rfl : d = '-' := by simpa using hs
      have hl := head_dropWhile (fun d => decide (d ≠ '\n')) ('-' :: s)
      refine ⟨⟨s.takeWhile (· ≠ '\n'), by simp, List.all_takeWhile⟩, ?_⟩
      simp only [Token.Stops, takeRun, Prod.map_snd, id]
      generalize List.dropWhile _ _ = r at hl ⊢
      cases r <;> simp_all
  split
  · rename_i h
    obtain ⟨rfl, hs⟩ : c = '/' ∧ s.head? = some '*' := by simpa using h
    refine ⟨⟨_, rfl, takeComment_self _⟩, ?_⟩
    intro hu
    by_contra hne
    exact (isUnterminated_blockComment _).mp hu (takeComment_rest hne)
  · exact scanLiteral_spec ‹_› (by simp_all)

theorem startsWord_ne {c : Char} (h : startsWord c) : ¬isSpaceChar c ∧ ¬c.isDigit ∧
    c ≠ '-' ∧ c ≠ '/' ∧ (c ≠ '\'' ∧ c ≠ '"' ∧ c ≠ '[') ∧
      c ≠ ',' ∧ c ≠ ';' ∧ c ≠ '.' ∧ c ≠ '(' ∧ c ≠ ')' := by
  have ne : ∀ {d : Char}, startsWord d = false → c ≠ d := by
    rintro d hd rfl; rw [h] at hd; cases hd
  refine ⟨?_, ?_, ne (by decide), ne (by decide), ⟨ne (by decide), ne (by decide), ne (by decide)⟩,
    ne (by decide), ne (by decide), ne (by decide), ne (by decide), ne (by decide)⟩
  · simp only [isSpaceChar, Bool.or_eq_true, decide_eq_true_eq, not_or]
    exact ⟨⟨⟨⟨ne (by decide), ne (by decide)⟩, ne (by decide)⟩, ne (by decide)⟩, ne (by decide)⟩
  · intro hd
    have h48 : 48 ≤ c.toNat ∧ c.toNat ≤ 57 := by
      simpa [Char.isDigit, UInt32.le_iff_toNat_le] using hd
    have : ¬(0x80 ≤ c.toNat) := by omega
    simp [startsWord, Char.isAlpha, Char.isUpper, Char.isLower, UInt32.le_iff_toNat_le, this] at h
    rcases h with ((((h | h) | rfl) | rfl) | rfl) | rfl
    · omega
    · omega
    all_goals simp at h48

theorem isDigit_ne {c : Char} (h : c.isDigit) :
    ¬isSpaceChar c ∧ (c ≠ '-' ∧ c ≠ '/') ∧ (c ≠ '\'' ∧ c ≠ '"' ∧ c ≠ '[') := by
  have ne : ∀ {d : Char}, d.isDigit = false → c ≠ d := by
    rintro d hd rfl; rw [h] at hd; cases hd
  refine ⟨?_, ⟨ne (by decide), ne (by decide)⟩, ne (by decide), ne (by decide), ne (by decide)⟩
  simp only [isSpaceChar, Bool.or_eq_true, decide_eq_true_eq, not_or]
  exact ⟨⟨⟨⟨ne (by decide), ne (by decide)⟩, ne (by decide)⟩, ne (by decide)⟩, ne (by decide)⟩

theorem number_head {c : Char} {r : Text} (h : (Token.number (c :: r)).Formed) (s : Text) :
    ¬isSpaceChar c ∧ (c ≠ '-' ∧ c ≠ '/') ∧ (c ≠ '\'' ∧ c ≠ '"' ∧ c ≠ '[') ∧
      (c.isDigit || (c = '.' && (r ++ s).head?.any Char.isDigit)) := by
  by_cases hd : c.isDigit
  · obtain ⟨h₁, h₂, h₃⟩ := isDigit_ne hd
    exact ⟨h₁, h₂, h₃, by simp [hd]⟩
  · obtain ⟨ds, hds, ⟨rfl, -⟩ | ⟨d, fs, e, hd', -⟩⟩ := h
    · simp [hd] at hds
    · cases ds with
      | nil =>
        obtain ⟨rfl, rfl⟩ := List.cons.inj e
        exact ⟨by decide, by decide, by decide, by simp [hd']⟩
      | cons x ds =>
        obtain ⟨rfl, -⟩ := List.cons.inj e
        simp [hd] at hds

theorem scan_eq_scanLiteral {c : Char} {s : Text} (hc : ¬isSpaceChar c)
    (hj : ¬(c = '-' ∧ s.head? = some '-') ∧ ¬(c = '/' ∧ s.head? = some '*')) :
    scan c s = scanLiteral c s := by
  unfold scan
  rw [if_neg hc, if_neg (by simpa using hj.1), if_neg (by simpa using hj.2)]

theorem scan_eq_scanMark {c : Char} {s : Text} (hc : ¬isSpaceChar c)
    (hj : ¬(c = '-' ∧ s.head? = some '-') ∧ ¬(c = '/' ∧ s.head? = some '*'))
    (hq : c ≠ '\'' ∧ c ≠ '"' ∧ c ≠ '[') (hd : ¬c.isDigit) (hf : ¬(c = '.' ∧ s.head?.any Char.isDigit)) :
    scan c s = scanMark c s := by
  rw [scan_eq_scanLiteral hc hj]
  unfold scanLiteral
  rw [if_neg hq.1, if_neg hq.2.1, if_neg hq.2.2, if_neg (by simpa [hd] using hf)]

theorem scan_text_append {t : Token} {s r : Text} {c : Char} (ht : t.Formed) (hs : t.Stops s)
    (e : t.text = c :: r) : scan c (r ++ s) = (t, s) := by
  cases t with
  | whitespace w =>
    obtain rfl : w = c :: r := e
    obtain ⟨hc, hr⟩ : isSpaceChar c ∧ r.all isSpaceChar := by simpa using ht.2
    unfold scan
    rw [if_pos hc, takeRun_append_stop hr hs]
    rfl
  | lineComment w =>
    obtain ⟨b, rfl, hb⟩ := ht
    obtain ⟨rfl, rfl⟩ := List.cons.inj e
    unfold scan
    rw [if_neg (by decide), if_pos (by simp), takeRun_append_stop (by simpa using hb) ?_]
    · rfl
    · cases s <;> simp_all [Token.Stops]
  | blockComment w =>
    obtain ⟨b, rfl, hb⟩ := ht
    obtain ⟨rfl, rfl⟩ := List.cons.inj e
    have hs' : ['*', '/'] <:+ b ∨ s = [] := by
      by_cases h : ['*', '/'] <:+ b
      · exact Or.inl h
      · exact Or.inr (hs ((isUnterminated_blockComment b).mpr h))
    unfold scan
    rw [if_neg (by decide), if_neg (by simp), if_pos (by simp)]
    simp [takeComment_append_stop hb hs']
  | stringLiteral w =>
    obtain ⟨b, rfl, hb⟩ := ht
    obtain ⟨rfl, rfl⟩ := List.cons.inj e
    rw [scan_eq_scanLiteral (by decide) (by simp)]
    simp [scanLiteral, takeQuoted_text_append hb (by simpa [Token.isUnterminated, Token.isEnclosed] using hs.1) hs.2]
  | quotedIdentifier w =>
    obtain ⟨b, ⟨rfl, hb⟩ | ⟨rfl, hb⟩⟩ := ht
    · obtain ⟨rfl, rfl⟩ := List.cons.inj e
      rw [scan_eq_scanLiteral (by decide) (by simp)]
      simp [scanLiteral, takeQuoted_text_append hb
        (by simpa [Token.isUnterminated, Token.isEnclosed] using hs.1) (by simpa using hs.2)]
    · obtain ⟨rfl, rfl⟩ := List.cons.inj e
      rw [scan_eq_scanLiteral (by decide) (by simp)]
      simp [scanLiteral, takeQuoted_text_append hb
        (by simpa [Token.isUnterminated, Token.isEnclosed] using hs.1) (by simpa using hs.2)]
  | number w =>
    have hn := takeNumber_append_stop ht hs.1 hs.2
    obtain rfl : w = c :: r := e
    obtain ⟨hc, hj, hq, hd⟩ := number_head ht s
    rw [scan_eq_scanLiteral hc ⟨fun h => hj.1 h.1, fun h => hj.2 h.1⟩]
    unfold scanLiteral
    rw [if_neg hq.1, if_neg hq.2.1, if_neg hq.2.2, if_pos hd, ← List.cons_append, hn]
    rfl
  | word w =>
    obtain ⟨c', r', rfl, hw, hr⟩ := ht
    obtain ⟨rfl, rfl⟩ := List.cons.inj e
    obtain ⟨hc, hd, h₁, h₂, hq, h₃, h₄, h₅, h₆, h₇⟩ := startsWord_ne hw
    rw [scan_eq_scanMark hc ⟨fun h => h₁ h.1, fun h => h₂ h.1⟩ hq hd (fun h => h₅ h.1)]
    simp [scanMark, h₃, h₄, h₅, h₆, h₇, hw, takeRun_append_stop hr hs]
  | operator w =>
    obtain ⟨k, ho, hw⟩ := ht
    obtain rfl : c = k := by
      rcases hw with rfl | ⟨d, rfl, -⟩ <;> exact (List.cons.inj e).1.symm
    obtain ⟨hc, hw', hd, hq, h₃, h₄, h₅, h₆, h₇⟩ := isOperatorChar_iff.mp ho
    rcases hw with rfl | ⟨d, rfl, hp⟩
    · obtain rfl := (List.cons.inj e).2
      obtain ⟨hp, hj⟩ : ¬s.head?.any (isOperatorPair c) ∧
          (¬(c = '-' ∧ s.head? = some '-') ∧ ¬(c = '/' ∧ s.head? = some '*')) := by
        cases s <;> simp_all [Token.Stops, joinsOperator, ← not_and_or]
      rw [List.nil_append, scan_eq_scanMark hc hj hq hd (fun h => h₅ h.1)]
      simp [scanMark, h₃, h₄, h₅, h₆, h₇, hw', hp]
    · obtain rfl := (List.cons.inj e).2
      have hj : ¬(c = '-' ∧ (d :: s).head? = some '-') ∧ ¬(c = '/' ∧ (d :: s).head? = some '*') := by
        constructor <;> rintro ⟨rfl, h⟩ <;> cases h <;> revert hp <;> decide
      rw [List.singleton_append, scan_eq_scanMark hc hj hq hd (fun h => h₅ h.1)]
      simp [scanMark, h₃, h₄, h₅, h₆, h₇, hw', hp]
  | comma =>
    obtain ⟨rfl, rfl⟩ := List.cons.inj e
    rw [scan_eq_scanMark (by decide) (by simp) (by simp) (by decide) (by simp)]; rfl
  | semicolon =>
    obtain ⟨rfl, rfl⟩ := List.cons.inj e
    rw [scan_eq_scanMark (by decide) (by simp) (by simp) (by decide) (by simp)]; rfl
  | dot =>
    obtain ⟨rfl, rfl⟩ := List.cons.inj e
    rw [scan_eq_scanMark (by decide) (by simp) (by simp) (by decide) (by simpa [Token.Stops] using hs)]; rfl
  | openParen =>
    obtain ⟨rfl, rfl⟩ := List.cons.inj e
    rw [scan_eq_scanMark (by decide) (by simp) (by simp) (by decide) (by simp)]; rfl
  | closeParen =>
    obtain ⟨rfl, rfl⟩ := List.cons.inj e
    rw [scan_eq_scanMark (by decide) (by simp) (by simp) (by decide) (by simp)]; rfl

end SqlLayout
