import SqlLayout.Proofs.Recase

/-!
# Texts in upper case

The lexer asks for classes of characters and for marks, never for a letter, so
a text in upper case has the tokens of the text, in upper case
(`tokenize_upper`).
-/

namespace SqlLayout

/-! ## Characters -/

theorem alike_toUpper (c : Char) : Alike c c.toUpper := toUpper_cases c

theorem toUpper_eq_iff {c x : Char} (hx : x.isAlpha = false) : c.toUpper = x ↔ c = x :=
  (alike_toUpper c).eq_iff hx

@[simp] theorem isSpaceChar_toUpper (c : Char) : isSpaceChar c.toUpper = isSpaceChar c :=
  (alike_toUpper c).isSpaceChar

@[simp] theorem isWordChar_toUpper (c : Char) : isWordChar c.toUpper = isWordChar c :=
  (alike_toUpper c).isWordChar

@[simp] theorem startsWord_toUpper (c : Char) : startsWord c.toUpper = startsWord c :=
  (alike_toUpper c).startsWord

@[simp] theorem isDigit_toUpper (c : Char) : c.toUpper.isDigit = c.isDigit := (alike_toUpper c).isDigit

@[simp] theorem isBlank_toUpper (c : Char) : isBlank c.toUpper = isBlank c := by
  rcases toUpper_cases c with h | ⟨h, h'⟩
  · rw [h]
  · rw [isBlank_of_isAlpha h, isBlank_of_isAlpha h']

theorem isOperatorPair_toUpper (c d : Char) : isOperatorPair c.toUpper d.toUpper = isOperatorPair c d := by
  simp (disch := decide) only [isOperatorPair, List.contains_eq_mem, List.mem_cons, Prod.mk.injEq,
    List.not_mem_nil, or_false, toUpper_eq_iff]

/-! ## Lists under a map that keeps a predicate -/

section Maps

variable {α : Type} {f : α → α} {p : α → Bool}

theorem takeWhile_map_self (hp : ∀ a, p (f a) = p a) (l : List α) :
    (l.map f).takeWhile p = (l.takeWhile p).map f := by
  rw [List.takeWhile_map, (funext hp : p ∘ f = p)]

theorem dropWhile_map_self (hp : ∀ a, p (f a) = p a) (l : List α) :
    (l.map f).dropWhile p = (l.dropWhile p).map f := by
  rw [List.dropWhile_map, (funext hp : p ∘ f = p)]

theorem takeEndWhile_map_self (hp : ∀ a, p (f a) = p a) (l : List α) :
    takeEndWhile p (l.map f) = (takeEndWhile p l).map f := by
  rw [takeEndWhile, takeEndWhile, ← List.map_reverse, takeWhile_map_self hp, List.map_reverse]

theorem dropEndWhile_map_self (hp : ∀ a, p (f a) = p a) (l : List α) :
    dropEndWhile p (l.map f) = (dropEndWhile p l).map f := by
  rw [dropEndWhile, dropEndWhile, ← List.map_reverse, dropWhile_map_self hp, List.map_reverse]

theorem splitOnP_map_self (hp : ∀ a, p (f a) = p a) (l : List α) :
    (l.map f).splitOnP p = (l.splitOnP p).map (List.map f) := by
  induction l with
  | nil => rfl
  | cons a l ih =>
    rw [List.map_cons, List.splitOnP_cons_eq_if_modifyHead, List.splitOnP_cons_eq_if_modifyHead, ih, hp]
    cases l.splitOnP p <;> split <;> rfl

end Maps

/-! ## Texts -/

@[simp] theorem upper_nil : upper [] = [] := rfl

@[simp] theorem upper_cons (c : Char) (s : Text) : upper (c :: s) = c.toUpper :: upper s := rfl

@[simp] theorem upper_append (s t : Text) : upper (s ++ t) = upper s ++ upper t := List.map_append

@[simp] theorem upper_eq_nil {s : Text} : upper s = [] ↔ s = [] := List.map_eq_nil_iff

@[simp] theorem length_upper (s : Text) : (upper s).length = s.length := List.length_map ..

@[simp] theorem isBlankText_upper (s : Text) : isBlankText (upper s) = isBlankText s := by
  simp [isBlankText, upper, Function.comp_def]

theorem takeWhile_upper {p : Char → Bool} (hp : ∀ c : Char, p c.toUpper = p c) (s : Text) :
    (upper s).takeWhile p = upper (s.takeWhile p) := takeWhile_map_self hp s

theorem dropWhile_upper {p : Char → Bool} (hp : ∀ c : Char, p c.toUpper = p c) (s : Text) :
    (upper s).dropWhile p = upper (s.dropWhile p) := dropWhile_map_self hp s

theorem head?_upper (s : Text) : (upper s).head? = s.head?.map Char.toUpper := List.head?_map

theorem head?_upper_eq_some {x : Char} (hx : x.isAlpha = false) {s : Text} :
    (upper s).head? = some x ↔ s.head? = some x := by
  cases s with
  | nil => rfl
  | cons c s => simp [toUpper_eq_iff hx]

@[simp] theorem trimStart_upper (s : Text) : trimStart (upper s) = upper (trimStart s) :=
  dropWhile_upper isBlank_toUpper s

@[simp] theorem trimEnd_upper (s : Text) : trimEnd (upper s) = upper (trimEnd s) :=
  dropEndWhile_map_self isBlank_toUpper s

@[simp] theorem trim_upper (s : Text) : trim (upper s) = upper (trim s) := by simp [trim]

theorem contains_upper {x : Char} (hx : x.isAlpha = false) (s : Text) :
    (upper s).contains x = s.contains x := by
  induction s with
  | nil => rfl
  | cons c s ih => simp only [upper_cons, List.contains_cons, ih, beq_eq_decide, eq_comm (a := x), toUpper_eq_iff hx]

theorem splitLines_upper (s : Text) : splitLines (upper s) = (splitLines s).map upper :=
  splitOnP_map_self (fun c => by simp only [beq_eq_decide, toUpper_eq_iff (x := '\n') (by decide)]) s

theorem joinLines_upper (ls : List Text) : joinLines (ls.map upper) = upper (joinLines ls) := by
  induction ls with
  | nil => rfl
  | cons l ls ih =>
    cases ls with
    | nil => simp [joinLines]
    | cons m ls =>
      simp only [joinLines, List.map_cons, List.intercalate_cons_cons, upper_append] at ih ⊢
      rw [ih]
      rfl

theorem filter_ne_nil_upper (ls : List Text) :
    (ls.map upper).filter (· ≠ []) = (ls.filter (· ≠ [])).map upper := by
  rw [List.filter_map]
  simp [Function.comp_def]

theorem trimmedLines_upper (s : Text) : trimmedLines (upper s) = (trimmedLines s).map upper := by
  rw [trimmedLines, trimmedLines, splitLines_upper, ← filter_ne_nil_upper, List.map_map, List.map_map]
  simp [Function.comp_def]

theorem upper_pad (n : Nat) : upper (pad n) = pad n := by simp [upper, pad]

/-! ## One token -/

namespace Token

def upper : Token → Token
  | word s => word (SqlLayout.upper s)
  | quotedIdentifier s => quotedIdentifier (SqlLayout.upper s)
  | stringLiteral s => stringLiteral (SqlLayout.upper s)
  | number s => number (SqlLayout.upper s)
  | operator s => operator (SqlLayout.upper s)
  | lineComment s => lineComment (SqlLayout.upper s)
  | blockComment s => blockComment (SqlLayout.upper s)
  | whitespace s => whitespace (SqlLayout.upper s)
  | t => t

end Token

theorem takeRun_upper {p : Char → Bool} (hp : ∀ c : Char, p c.toUpper = p c) (c : Char) (s : Text) :
    takeRun p c.toUpper (upper s) = (takeRun p c s).map upper upper := by
  simp [takeRun, takeWhile_upper hp, dropWhile_upper hp]

theorem takeComment_upper (s : Text) : takeComment (upper s) = (takeComment s).map upper upper := by
  fun_induction takeComment s with
  | case1 => rfl
  | case2 s => rfl
  | case3 c s hc ih =>
    rw [upper_cons, takeComment.eq_3, ih]
    · rfl
    · intro s' h e
      cases s with
      | nil => cases e
      | cons d s =>
        obtain ⟨hd, rfl⟩ := List.cons.inj e
        exact hc s ((toUpper_eq_iff (by decide)).mp h) (by rw [(toUpper_eq_iff (by decide)).mp hd])

theorem takeQuoted_upper (close : Char) (hc : close.isAlpha = false) (s : Text) :
    takeQuoted close (upper s) = (takeQuoted close s).map upper upper := by
  fun_induction takeQuoted close s with
  | case1 => rfl
  | case2 c => rfl
  | case3 c d s h ih =>
    rw [upper_cons, upper_cons, takeQuoted, if_pos (mt (toUpper_eq_iff hc).mp h), ← upper_cons, ih]
    rfl
  | case4 c s h ih =>
    rw [upper_cons, upper_cons, takeQuoted, if_neg (mt (mt (toUpper_eq_iff hc).mpr) h),
      if_pos ((toUpper_eq_iff hc).mpr rfl), ih]
    rfl
  | case5 c d s h hd =>
    rw [upper_cons, upper_cons, takeQuoted, if_neg (mt (mt (toUpper_eq_iff hc).mpr) h),
      if_neg (mt (toUpper_eq_iff hc).mp hd)]
    rfl

theorem takeNumber_eq (s : Text) : takeNumber s =
    if startsFraction (s.dropWhile Char.isDigit) then
      (s.takeWhile Char.isDigit ++ '.' :: (s.dropWhile Char.isDigit).tail.takeWhile Char.isDigit,
        (s.dropWhile Char.isDigit).tail.dropWhile Char.isDigit)
    else (s.takeWhile Char.isDigit, s.dropWhile Char.isDigit) := by
  unfold takeNumber
  split
  · next d r e => simp [e, startsFraction]
  · next h =>
    rw [if_neg]
    intro hf
    rcases e : s.dropWhile Char.isDigit with - | ⟨c, - | ⟨d, r⟩⟩
    · simp [e, startsFraction] at hf
    · simp [e, startsFraction] at hf
    · obtain ⟨rfl, -⟩ : c = '.' ∧ d.isDigit := by simpa [e, startsFraction] using hf
      exact h d r e

theorem startsFraction_upper (s : Text) : startsFraction (upper s) = startsFraction s := by
  match s with
  | [] => rfl
  | [c] => simp [startsFraction]
  | c :: d :: s => simp [startsFraction, toUpper_eq_iff (x := '.') (by decide)]

theorem takeNumber_upper (s : Text) : takeNumber (upper s) = (takeNumber s).map upper upper := by
  have ht : ∀ r : Text, (upper r).tail = upper r.tail := fun r => List.map_tail.symm
  rw [takeNumber_eq, takeNumber_eq, dropWhile_upper isDigit_toUpper, takeWhile_upper isDigit_toUpper,
    startsFraction_upper, ht, takeWhile_upper isDigit_toUpper, dropWhile_upper isDigit_toUpper]
  split
  · simp
  · rfl

theorem scanMark_upper (c : Char) (s : Text) :
    scanMark c.toUpper (upper s) = (scanMark c s).map Token.upper upper := by
  unfold scanMark
  simp only [toUpper_eq_iff (x := ',') (by decide), toUpper_eq_iff (x := ';') (by decide),
    toUpper_eq_iff (x := '.') (by decide), toUpper_eq_iff (x := '(') (by decide),
    toUpper_eq_iff (x := ')') (by decide), startsWord_toUpper, head?_upper, Option.any_map,
    takeRun_upper isWordChar_toUpper]
  iterate 5
    split
    · rfl
  split
  · rfl
  have hp : (s.head?.any fun d => isOperatorPair c.toUpper d.toUpper) = s.head?.any (isOperatorPair c) := by
    simp only [isOperatorPair_toUpper]
  simp only [hp]
  split
  · simp [Prod.map, Token.upper, upper, List.map_take]
  · rfl

theorem scanLiteral_upper (c : Char) (s : Text) :
    scanLiteral c.toUpper (upper s) = (scanLiteral c s).map Token.upper upper := by
  unfold scanLiteral
  simp only [toUpper_eq_iff (x := '\'') (by decide), toUpper_eq_iff (x := '"') (by decide),
    toUpper_eq_iff (x := '[') (by decide), toUpper_eq_iff (x := '.') (by decide), isDigit_toUpper,
    head?_upper, Option.any_map, takeQuoted_upper '\'' (by decide),
    takeQuoted_upper '"' (by decide), takeQuoted_upper ']' (by decide),
    ← upper_cons, takeNumber_upper, scanMark_upper]
  iterate 3
    split
    · rfl
  split
  · rfl
  · rfl

theorem scan_upper (c : Char) (s : Text) : scan c.toUpper (upper s) = (scan c s).map Token.upper upper := by
  have hn := takeRun_upper (p := (· ≠ '\n')) (fun d => by simp [toUpper_eq_iff (x := '\n') (by decide)]) c s
  have ht : (upper s).tail = upper s.tail := List.map_tail.symm
  unfold scan
  simp only [isSpaceChar_toUpper, toUpper_eq_iff (x := '-') (by decide), toUpper_eq_iff (x := '/') (by decide),
    head?_upper_eq_some (x := '-') (by decide), head?_upper_eq_some (x := '*') (by decide), takeRun_upper isSpaceChar_toUpper, hn, ht,
    takeComment_upper, scanLiteral_upper]
  iterate 3
    split
    · rfl
  · rfl

theorem tokenize_upper (s : Text) : tokenize (upper s) = (tokenize s).map Token.upper := by
  fun_induction tokenize s with
  | case1 => simp [tokenize]
  | case2 c s ih => rw [upper_cons, tokenize, scan_upper, List.map_cons, ← ih]; rfl

/-! ## What is asked of a token -/

namespace Token

@[simp] theorem text_upper (t : Token) : t.upper.text = SqlLayout.upper t.text := by cases t <;> rfl

@[simp] theorem isSpace_upper (t : Token) : t.upper.isSpace = t.isSpace := by cases t <;> rfl

@[simp] theorem isComment_upper (t : Token) : t.upper.isComment = t.isComment := by cases t <;> rfl

@[simp] theorem isLineComment_upper (t : Token) : t.upper.isLineComment = t.isLineComment := by cases t <;> rfl

@[simp] theorem isTrivia_upper (t : Token) : t.upper.isTrivia = t.isTrivia := by simp [isTrivia]

@[simp] theorem isCode_upper (t : Token) : t.upper.isCode = t.isCode := by simp [isCode]

@[simp] theorem describe_upper (t : Token) : t.upper.describe = t.describe := by cases t <;> rfl

@[simp] theorem isNewline_upper (t : Token) : t.upper.isNewline = t.isNewline := by
  cases t <;> first | rfl | exact contains_upper (by decide) _

@[simp] theorem spansLines_upper (t : Token) : t.upper.spansLines = t.spansLines := by
  rw [spansLines, spansLines, isSpace_upper, text_upper, contains_upper (by decide)]

@[simp] theorem keyword_upper (t : Token) : t.upper.keyword = t.keyword := by
  cases t <;> first | rfl | exact Keyword.ofWord?_upper _

@[simp] theorem isKeyword_upper (k : Keyword) (t : Token) : t.upper.isKeyword k = t.isKeyword k := by
  simp [isKeyword]

theorem isWordFrom_upper {cs : List Char} (hcs : ∀ x ∈ cs, x.isAlpha = false) (t : Token) :
    t.upper.isWordFrom cs = t.isWordFrom cs := by
  cases t with
  | word w =>
    cases w with
    | nil => rfl
    | cons c w =>
      simp only [upper, upper_cons, isWordFrom, List.contains_eq_mem, decide_eq_decide]
      refine ⟨fun h => ?_, fun h => ?_⟩
      · rwa [(toUpper_eq_iff (hcs _ h)).mp rfl]
      · rwa [(toUpper_eq_iff (hcs _ h)).mpr rfl]
  | _ => rfl

@[simp] theorem upper_eq_comma {t : Token} : t.upper = .comma ↔ t = .comma := by cases t <;> simp [upper]

@[simp] theorem upper_eq_semicolon {t : Token} : t.upper = .semicolon ↔ t = .semicolon := by
  cases t <;> simp [upper]

@[simp] theorem upper_eq_openParen {t : Token} : t.upper = .openParen ↔ t = .openParen := by
  cases t <;> simp [upper]

theorem closesAtEnd_upper {close : Char} (hc : close.isAlpha = false) (s : Text) :
    closesAtEnd close (SqlLayout.upper s) = closesAtEnd close s := by
  fun_induction closesAtEnd close s <;> simp_all [closesAtEnd, toUpper_eq_iff hc]

theorem isEnclosed_upper {opening close : Char} (ho : opening.isAlpha = false) (hc : close.isAlpha = false)
    (s : Text) : isEnclosed opening close (SqlLayout.upper s) = isEnclosed opening close s := by
  cases s with
  | nil => rfl
  | cons c s => simp [isEnclosed, closesAtEnd_upper hc, toUpper_eq_iff ho]

end Token

theorem utf8Size_of_isAlpha {c : Char} (h : c.isAlpha) : c.utf8Size = 1 := by
  have := isAlpha_toNat.mp h
  rw [Char.utf8Size, if_pos]
  rw [UInt32.le_iff_toNat_le]
  have : c.val.toNat = c.toNat := rfl
  simp
  omega

theorem byteSize_upper (s : Text) : byteSize (upper s) = byteSize s := by
  induction s with
  | nil => rfl
  | cons c s ih =>
    rw [upper_cons, byteSize, byteSize, ih]
    rcases toUpper_cases c with h | ⟨h, h'⟩
    · rw [h]
    · rw [utf8Size_of_isAlpha h, utf8Size_of_isAlpha h']

theorem isSuffixOf_upper (s : Text) : ['*', '/'].isSuffixOf (upper s) = ['*', '/'].isSuffixOf s := by
  simp only [List.isSuffixOf, upper, ← List.map_reverse]
  rcases s.reverse with - | ⟨c, - | ⟨d, r⟩⟩
  · rfl
  · simp [List.isPrefixOf]
  · simp only [List.map_cons, List.reverse_cons, List.reverse_nil, List.nil_append, List.cons_append,
      List.isPrefixOf, beq_eq_decide, Bool.and_true, eq_comm (a := '/'), eq_comm (a := '*'),
      toUpper_eq_iff (x := '/') (by decide), toUpper_eq_iff (x := '*') (by decide)]

@[simp] theorem Token.isUnterminated_upper (t : Token) : t.upper.isUnterminated = t.isUnterminated := by
  cases t with
  | stringLiteral s => rw [upper, isUnterminated, isUnterminated, isEnclosed_upper (by decide) (by decide)]
  | quotedIdentifier s =>
    rw [upper, isUnterminated, isUnterminated, isEnclosed_upper (by decide) (by decide),
      isEnclosed_upper (by decide) (by decide)]
    simp only [head?_upper_eq_some (x := '[') (by decide)]
  | blockComment s => simp only [upper, isUnterminated, byteSize_upper, isSuffixOf_upper]
  | _ => rfl

end SqlLayout
