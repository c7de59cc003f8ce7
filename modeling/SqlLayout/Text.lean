/-!
# Text

Text is a list of characters. Letter case is ASCII case. Trimming is by the
Unicode property White_Space, which is wider than the space the lexer knows,
so a line can be blank here and still hold a word.
-/

namespace SqlLayout

abbrev Text := List Char

/-! ## Blank characters and trimming -/

/-- The 25 characters with the property White_Space. -/
def isBlank (c : Char) : Bool :=
  let n := c.toNat
  (9 ≤ n && n ≤ 13) || n = 0x20 || n = 0x85 || n = 0xA0 || n = 0x1680 ||
    (0x2000 ≤ n && n ≤ 0x200A) || n = 0x2028 || n = 0x2029 || n = 0x202F || n = 0x205F || n = 0x3000

/-- What is left of a list when the longest end that satisfies `p` is cut. -/
def dropEndWhile {α : Type} (p : α → Bool) (l : List α) : List α :=
  (l.reverse.dropWhile p).reverse

def takeEndWhile {α : Type} (p : α → Bool) (l : List α) : List α :=
  (l.reverse.takeWhile p).reverse

theorem dropEndWhile_append_takeEndWhile {α : Type} (p : α → Bool) (l : List α) :
    dropEndWhile p l ++ takeEndWhile p l = l := by
  rw [dropEndWhile, takeEndWhile, ← List.reverse_append, List.takeWhile_append_dropWhile,
    List.reverse_reverse]

def trimStart (s : Text) : Text := s.dropWhile isBlank

def trimEnd (s : Text) : Text := dropEndWhile isBlank s

def trim (s : Text) : Text := trimEnd (trimStart s)

def isBlankText (s : Text) : Bool := s.all isBlank

/-! ## Letter case -/

def upper (s : Text) : Text := s.map Char.toUpper

def lower (s : Text) : Text := s.map Char.toLower

/-! ## Lines -/

/-- The lines of a text, at least one: every newline ends a line and starts
the next. -/
def splitLines (s : Text) : List Text := s.splitOn '\n'

def joinLines (ls : List Text) : Text := ['\n'].intercalate ls

theorem joinLines_splitLines (s : Text) : joinLines (splitLines s) = s :=
  List.intercalate_splitOn '\n'

/-- The lines without their blank ends, and without the lines that then are
empty. -/
def trimmedLines (s : Text) : List Text :=
  ((splitLines s).map trim).filter (· ≠ [])

/-- Writes each carriage return and newline pair as a newline. -/
def unifyNewlines : Text → Text
  | '\r' :: '\n' :: s => '\n' :: unifyNewlines s
  | c :: s => c :: unifyNewlines s
  | [] => []

def pad (n : Nat) : Text := List.replicate n ' '

/-- The order by code points, which is also that of the bytes in UTF-8. -/
def textLe : Text → Text → Bool
  | [], _ => true
  | _ :: _, [] => false
  | c :: s, d :: t => c.toNat < d.toNat || (c = d && textLe s t)

def byteSize : Text → Nat
  | [] => 0
  | c :: s => c.utf8Size + byteSize s

end SqlLayout
