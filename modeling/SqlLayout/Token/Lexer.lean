import SqlLayout.Token

/-!
# Lexer

`scan` reads one token off a text that is not empty. It loses no character
and its token is never empty (`scan_text`, `scan_ne_nil`), so `tokenize` ends
and the tokens spell the text again (`spell_tokenize`).

Every character beyond ASCII belongs to a word. Space is the space, tab,
newline, form feed and carriage return.
-/

namespace SqlLayout

/-! ## Character classes -/

def isSpaceChar (c : Char) : Bool :=
  c = ' ' || c = '\t' || c = '\n' || c = '\x0c' || c = '\r'

def startsWord (c : Char) : Bool :=
  c.isAlpha || c = '_' || c = '@' || c = '#' || c = '$' || 0x80 ≤ c.toNat

def isWordChar (c : Char) : Bool := startsWord c || c.isDigit

def isOperatorPair (c d : Char) : Bool :=
  [('<', '>'), ('!', '='), ('<', '='), ('>', '='), ('!', '<'), ('!', '>'), ('|', '|'), (':', ':'),
    ('+', '='), ('-', '='), ('*', '='), ('/', '=')].contains (c, d)

/-! ## What a token takes -/

/-- Splits behind the first comment end, or takes everything. -/
def takeComment : Text → Text × Text
  | [] => ([], [])
  | '*' :: '/' :: s => (['*', '/'], s)
  | c :: s => ((takeComment s).map (c :: ·) id)

/-- Splits behind the first closing mark that is not doubled, or takes
everything. -/
def takeQuoted (close : Char) : Text → Text × Text
  | [] => ([], [])
  | [c] => ([c], [])
  | c :: d :: s =>
    if c ≠ close then (takeQuoted close (d :: s)).map (c :: ·) id
    else if d = close then (takeQuoted close s).map (c :: d :: ·) id
    else ([c], d :: s)

/-- Digits, and a point with digits behind it. -/
def takeNumber (s : Text) : Text × Text :=
  let whole := s.takeWhile Char.isDigit
  match s.dropWhile Char.isDigit with
  | '.' :: d :: r =>
    if d.isDigit then
      (whole ++ '.' :: (d :: r).takeWhile Char.isDigit, (d :: r).dropWhile Char.isDigit)
    else (whole, '.' :: d :: r)
  | r => (whole, r)

def takeRun (p : Char → Bool) (c : Char) (s : Text) : Text × Text :=
  (c :: s.takeWhile p, s.dropWhile p)

theorem takeComment_append (s : Text) : (takeComment s).1 ++ (takeComment s).2 = s := by
  fun_induction takeComment s with
  | case1 => rfl
  | case2 s => rfl
  | case3 c s _ ih => simp [ih]

theorem takeQuoted_append (close : Char) (s : Text) :
    (takeQuoted close s).1 ++ (takeQuoted close s).2 = s := by
  fun_induction takeQuoted close s <;> simp_all

theorem takeNumber_append (s : Text) : (takeNumber s).1 ++ (takeNumber s).2 = s := by
  have h := List.takeWhile_append_dropWhile (p := Char.isDigit) (l := s)
  unfold takeNumber
  split
  · rename_i d r e
    rw [e] at h
    split
    · rw [List.append_assoc, List.cons_append, List.takeWhile_append_dropWhile]; exact h
    · exact h
  · rename_i e; exact h

theorem takeRun_append (p : Char → Bool) (c : Char) (s : Text) :
    (takeRun p c s).1 ++ (takeRun p c s).2 = c :: s := by
  simp [takeRun, List.takeWhile_append_dropWhile]

/-! ## One token -/

def scanMark (c : Char) (s : Text) : Token × Text :=
  if c = ',' then (.comma, s)
  else if c = ';' then (.semicolon, s)
  else if c = '.' then (.dot, s)
  else if c = '(' then (.openParen, s)
  else if c = ')' then (.closeParen, s)
  else if startsWord c then (takeRun isWordChar c s).map .word id
  else if s.head?.any (isOperatorPair c) then (.operator (c :: s.take 1), s.drop 1)
  else (.operator [c], s)

/-- A literal or a quoted identifier, and whatever has no delimiters. -/
def scanLiteral (c : Char) (s : Text) : Token × Text :=
  if c = '\'' then (takeQuoted '\'' s).map (fun b => .stringLiteral (c :: b)) id
  else if c = '"' then (takeQuoted '"' s).map (fun b => .quotedIdentifier (c :: b)) id
  else if c = '[' then (takeQuoted ']' s).map (fun b => .quotedIdentifier (c :: b)) id
  else if c.isDigit || (c = '.' && s.head?.any Char.isDigit) then
    (takeNumber (c :: s)).map .number id
  else scanMark c s

/-- The token at the head of `c :: s`, and what follows it. -/
def scan (c : Char) (s : Text) : Token × Text :=
  if isSpaceChar c then (takeRun isSpaceChar c s).map .whitespace id
  else if c = '-' && s.head? = some '-' then (takeRun (· ≠ '\n') c s).map .lineComment id
  else if c = '/' && s.head? = some '*' then
    (takeComment s.tail).map (fun b => .blockComment ('/' :: '*' :: b)) id
  else scanLiteral c s

theorem scanMark_text (c : Char) (s : Text) : (scanMark c s).1.text ++ (scanMark c s).2 = c :: s := by
  unfold scanMark
  iterate 5
    split
    · next h => subst h; rfl
  split
  · exact takeRun_append _ c s
  split
  · exact congrArg (c :: ·) (List.take_append_drop 1 s)
  · rfl

theorem scanLiteral_text (c : Char) (s : Text) :
    (scanLiteral c s).1.text ++ (scanLiteral c s).2 = c :: s := by
  unfold scanLiteral
  iterate 3
    split
    · exact congrArg (c :: ·) (takeQuoted_append _ s)
  split
  · exact takeNumber_append (c :: s)
  · exact scanMark_text c s

theorem scan_text (c : Char) (s : Text) : (scan c s).1.text ++ (scan c s).2 = c :: s := by
  unfold scan
  iterate 2
    split
    · exact takeRun_append _ c s
  split
  · next h =>
    cases s with
    | nil => simp at h
    | cons d s =>
      have := takeComment_append s
      simp_all [Prod.map, Token.text]
  · exact scanLiteral_text c s

theorem takeNumber_ne_nil {c : Char} {s : Text}
    (h : (c.isDigit || (c = '.' && s.head?.any Char.isDigit)) = true) :
    (takeNumber (c :: s)).1 ≠ [] := by
  by_cases hc : c.isDigit
  · unfold takeNumber
    have : List.takeWhile Char.isDigit (c :: s) = c :: s.takeWhile Char.isDigit := by simp [hc]
    simp only [this]
    split
    · split <;> simp
    · simp
  · -- a point with a digit behind it
    cases s with
    | nil => simp [hc] at h
    | cons d s =>
      simp only [hc, Bool.false_or, List.head?_cons, Option.any_some, Bool.and_eq_true,
        decide_eq_true_eq] at h
      obtain ⟨rfl, hd⟩ := h
      simp [takeNumber, hc, hd]

theorem scanMark_ne_nil (c : Char) (s : Text) : (scanMark c s).1.text ≠ [] := by
  unfold scanMark
  iterate 7
    split
    · exact List.cons_ne_nil _ _
  · exact List.cons_ne_nil _ _

theorem scanLiteral_ne_nil (c : Char) (s : Text) : (scanLiteral c s).1.text ≠ [] := by
  unfold scanLiteral
  iterate 3
    split
    · exact List.cons_ne_nil _ _
  split
  · next h => exact takeNumber_ne_nil h
  · exact scanMark_ne_nil c s

theorem scan_ne_nil (c : Char) (s : Text) : (scan c s).1.text ≠ [] := by
  unfold scan
  iterate 3
    split
    · exact List.cons_ne_nil _ _
  · exact scanLiteral_ne_nil c s

theorem scan_length (c : Char) (s : Text) : (scan c s).2.length ≤ s.length := by
  have h := congrArg List.length (scan_text c s)
  have := List.length_pos_iff.mpr (scan_ne_nil c s)
  simp only [List.length_append, List.length_cons] at h
  omega

/-! ## All tokens -/

def tokenize : Text → List Token
  | [] => []
  | c :: s => (scan c s).1 :: tokenize (scan c s).2
termination_by s => s.length
decreasing_by exact Nat.lt_succ_of_le (scan_length c s)

theorem spell_tokenize (s : Text) : spell (tokenize s) = s := by
  fun_induction tokenize s with
  | case1 => rfl
  | case2 c s ih => rw [spell_cons, ih, scan_text]

/-- Each token with the bytes at which it starts and ends. -/
def spans (start : Nat) : List Token → List (Token × Nat × Nat)
  | [] => []
  | t :: ts => (t, start, start + byteSize t.text) :: spans (start + byteSize t.text) ts

end SqlLayout
