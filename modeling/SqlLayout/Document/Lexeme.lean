import SqlLayout.Text

/-!
# Words of a document

A document is written in words, strings and marks. Spaces and comments only
divide them. A line ends with a newline or with a carriage return in front of
one; other control characters stand nowhere, not even in a string or comment.
-/

namespace SqlLayout.Document

inductive Lexeme where
  /-- Letters, digits, underscores and signs, without marks. -/
  | word (s : Text)
  /-- A string, with whether its marks stand three in a row. -/
  | quoted (block : Bool) (s : Text)
  | equals
  | dot
  | comma
  | openBracket
  | closeBracket
  | openBrace
  | closeBrace
  | newline
deriving DecidableEq

/-! ## Strings -/

/-- Splits behind the quotation mark that ends a string; a backslash hides the
character behind it. -/
def takeBasic : Text → Option (Text × Text)
  | [] => none
  | '"' :: s => some ([], s)
  | '\\' :: c :: s => (takeBasic s).map (Prod.map ('\\' :: c :: ·) id)
  | c :: s => (takeBasic s).map (Prod.map (c :: ·) id)

def takeLiteral : Text → Option (Text × Text)
  | [] => none
  | c :: s => if c = '\'' then some ([], s) else (takeLiteral s).map (Prod.map (c :: ·) id)

/-- Splits behind three marks that end a string. Of more marks in a row the
last three do, as long as there are at most five. -/
def takeBlock (mark : Char) (hides : Bool) : Text → Option (Text × Text)
  | [] => none
  | c :: s =>
    if c = mark && s.take 2 = [mark, mark] then
      let more := ((s.drop 2).take 2).takeWhile (· = mark)
      some (more, (s.drop 2).drop more.length)
    else
      match c, s with
      | '\\', d :: s =>
        if hides then (takeBlock mark hides s).map (Prod.map ('\\' :: d :: ·) id)
        else (takeBlock mark hides (d :: s)).map (Prod.map ('\\' :: ·) id)
      | c, s => (takeBlock mark hides s).map (Prod.map (c :: ·) id)

/-- A newline right behind three opening marks is not part of the string. -/
def dropNewline : Text → Text
  | '\n' :: s => s
  | s => s

def hexDigit? (c : Char) : Option Nat :=
  if c.isDigit then some (c.toNat - 48)
  else if 'a' ≤ c ∧ c ≤ 'f' then some (c.toNat - 87)
  else if 'A' ≤ c ∧ c ≤ 'F' then some (c.toNat - 55)
  else none

def charOf? (ds : Text) : Option Char := do
  let digits ← ds.mapM hexDigit?
  let n := digits.foldl (fun n d => 16 * n + d) 0
  if n.isValidChar then some (Char.ofNat n) else none

def escaped? : Char → Option Char
  | 'b' => some '\x08'
  | 't' => some '\t'
  | 'n' => some '\n'
  | 'f' => some '\x0c'
  | 'r' => some '\r'
  | '"' => some '"'
  | '\\' => some '\\'
  | _ => none

/-- Where a backslash at the end of a line leads to. -/
inductive Gap where
  | none
  /-- The line still has to end. -/
  | line
  /-- Space is skipped. -/
  | skip
deriving DecidableEq

/-- The text that a string with escapes spells. With `block`, a backslash at
the end of a line joins it with the next text. -/
def unescape (block : Bool) : Gap → Text → Option Text
  | g, [] => if g = .line then none else some []
  | g, c :: s =>
    if g = .line then
      if c = '\n' then unescape block .skip s
      else if c = ' ' ∨ c = '\t' then unescape block .line s
      else none
    else if g = .skip ∧ (c = ' ' ∨ c = '\t' ∨ c = '\n') then unescape block .skip s
    else if c ≠ '\\' then (unescape block .none s).map (c :: ·)
    else
      match s with
      | 'u' :: c₁ :: c₂ :: c₃ :: c₄ :: s => do
        let c ← charOf? [c₁, c₂, c₃, c₄]
        (unescape block .none s).map (c :: ·)
      | 'U' :: c₁ :: c₂ :: c₃ :: c₄ :: c₅ :: c₆ :: c₇ :: c₈ :: s => do
        let c ← charOf? [c₁, c₂, c₃, c₄, c₅, c₆, c₇, c₈]
        (unescape block .none s).map (c :: ·)
      | '\n' :: s => if block then unescape block .skip s else none
      | c :: s =>
        if block ∧ (c = ' ' ∨ c = '\t') then unescape block .line s
        else do
          let c ← escaped? c
          (unescape block .none s).map (c :: ·)
      | [] => none

/-- The text of a string as it is written, behind its first mark, and what
follows. -/
def takeString (mark : Char) (s : Text) : Option (Text × Text) :=
  if s.take 2 = [mark, mark] then takeBlock mark (mark = '"') (dropNewline (s.drop 2))
  else if mark = '"' then takeBasic s
  else takeLiteral s

/-- Quotation marks allow escapes, apostrophes do not. Only three marks let a
string run over lines. -/
def spelled? (mark : Char) (block : Bool) (raw : Text) : Option Text :=
  if !block && raw.contains '\n' then none
  else if mark = '"' then unescape block .none raw
  else some raw

def scanString (mark : Char) (s : Text) : Option (Lexeme × Text) :=
  let block := s.take 2 = [mark, mark]
  (takeString mark s).bind fun p => (spelled? mark block p.1).map fun t => (.quoted block t, p.2)

/-! ## Words and marks -/

def isWordChar (c : Char) : Bool := c.isAlphanum || c = '_' || c = '-' || c = '+'

def mark? : Char → Option Lexeme
  | '\n' => some .newline
  | '=' => some .equals
  | '.' => some .dot
  | ',' => some .comma
  | '[' => some .openBracket
  | ']' => some .closeBracket
  | '\x7b' => some .openBrace
  | '\x7d' => some .closeBrace
  | _ => none

/-- What stands at the head of `c :: s`, if it is not space or a comment, and
what follows. -/
def scanLexeme (c : Char) (s : Text) : Option (Option Lexeme × Text) :=
  if c = ' ' ∨ c = '\t' then some (none, s)
  else if c = '#' then some (none, s.dropWhile (· ≠ '\n'))
  else if c = '"' ∨ c = '\'' then (scanString c s).map (Prod.map some id)
  else if isWordChar c then
    some (some (.word (c :: s.takeWhile isWordChar)), s.dropWhile isWordChar)
  else (mark? c).map fun m => (some m, s)

/-! ## Scanning takes characters -/

theorem takeBasic_length {s a b : Text} (h : takeBasic s = some (a, b)) : b.length < s.length := by
  fun_induction takeBasic s generalizing a with
  | case1 => cases h
  | case2 => cases h; simp
  | case3 c s ih =>
    obtain ⟨⟨a', b'⟩, e, hab⟩ := Option.map_eq_some_iff.mp h
    cases hab
    have := ih e
    simp only [List.length_cons]; omega
  | case4 c s _ _ ih =>
    obtain ⟨⟨a', b'⟩, e, hab⟩ := Option.map_eq_some_iff.mp h
    cases hab
    have := ih e
    simp only [List.length_cons]; omega

theorem takeLiteral_length {s a b : Text} (h : takeLiteral s = some (a, b)) :
    b.length < s.length := by
  fun_induction takeLiteral s generalizing a with
  | case1 => cases h
  | case2 => cases h; simp
  | case3 c s _ ih =>
    obtain ⟨⟨a', b'⟩, e, hab⟩ := Option.map_eq_some_iff.mp h
    cases hab
    have := ih e
    simp only [List.length_cons]; omega

theorem takeBlock_length {mark : Char} {hides : Bool} {s a b : Text}
    (h : takeBlock mark hides s = some (a, b)) : b.length < s.length := by
  fun_induction takeBlock mark hides s generalizing a with
  | case1 => cases h
  | case2 => cases h; simp only [List.length_cons, List.length_drop]; omega
  | case3 d s _ _ ih =>
    obtain ⟨⟨a', b'⟩, e, hab⟩ := Option.map_eq_some_iff.mp h
    cases hab
    have := ih e
    simp only [List.length_cons]; omega
  | case4 d s _ _ ih =>
    obtain ⟨⟨a', b'⟩, e, hab⟩ := Option.map_eq_some_iff.mp h
    cases hab
    have := ih e
    simp only [List.length_cons] at this ⊢; omega
  | case5 c s _ _ ih =>
    obtain ⟨⟨a', b'⟩, e, hab⟩ := Option.map_eq_some_iff.mp h
    cases hab
    have := ih e
    simp only [List.length_cons]; omega

theorem dropNewline_length (s : Text) : (dropNewline s).length ≤ s.length := by
  unfold dropNewline
  split
  · simp
  · exact Nat.le_refl _

theorem takeString_length {mark : Char} {s a b : Text} (h : takeString mark s = some (a, b)) :
    b.length ≤ s.length := by
  unfold takeString at h
  split at h
  · have h₁ := takeBlock_length h
    have h₂ := dropNewline_length (s.drop 2)
    simp only [List.length_drop] at h₂
    omega
  split at h
  · exact Nat.le_of_lt (takeBasic_length h)
  · exact Nat.le_of_lt (takeLiteral_length h)

theorem scanString_length {mark : Char} {s : Text} {t : Lexeme} {rest : Text}
    (h : scanString mark s = some (t, rest)) : rest.length ≤ s.length := by
  obtain ⟨⟨raw, r⟩, e, h⟩ := Option.bind_eq_some_iff.mp h
  obtain ⟨_, _, h⟩ := Option.map_eq_some_iff.mp h
  cases h
  exact takeString_length e

theorem scanLexeme_length {c : Char} {s : Text} {t : Option Lexeme} {rest : Text}
    (h : scanLexeme c s = some (t, rest)) : rest.length ≤ s.length := by
  unfold scanLexeme at h
  split at h
  · cases h; exact Nat.le_refl _
  split at h
  · cases h; exact (List.dropWhile_suffix (l := s) (· ≠ '\n')).length_le
  split at h
  · obtain ⟨⟨t', r⟩, e, hab⟩ := Option.map_eq_some_iff.mp h
    cases hab
    exact scanString_length e
  split at h
  · cases h; exact (List.dropWhile_suffix (l := s) isWordChar).length_le
  · obtain ⟨m, _, hab⟩ := Option.map_eq_some_iff.mp h
    cases hab
    exact Nat.le_refl _

def scanLexemes : Text → Option (List Lexeme)
  | [] => some []
  | c :: s =>
    match h : scanLexeme c s with
    | none => none
    | some (t, rest) =>
      have : rest.length ≤ s.length := scanLexeme_length h
      (scanLexemes rest).map (t.toList ++ ·)
termination_by s => s.length
decreasing_by exact Nat.lt_succ_of_le this

/-! ## Whole documents -/

def isWritable (c : Char) : Bool :=
  c = '\t' || c = '\n' || (0x20 ≤ c.toNat && c.toNat ≠ 0x7F)

def dropByteOrderMark : Text → Text
  | '\uFEFF' :: s => s
  | s => s

def lexemes? (s : Text) : Option (List Lexeme) :=
  let s := unifyNewlines (dropByteOrderMark s)
  if s.all isWritable then scanLexemes s else none

end SqlLayout.Document
