import SqlLayout.Keyword

/-!
# Tokens

A token carries its text, delimiters included, so the texts of a token list
put together give the text that was read.
-/

namespace SqlLayout

inductive Token where
  | word (s : Text)
  | quotedIdentifier (s : Text)
  | stringLiteral (s : Text)
  | number (s : Text)
  | operator (s : Text)
  | comma
  | semicolon
  | dot
  | openParen
  | closeParen
  | lineComment (s : Text)
  | blockComment (s : Text)
  | whitespace (s : Text)
deriving DecidableEq

namespace Token

def text : Token → Text
  | word s | quotedIdentifier s | stringLiteral s | number s | operator s => s
  | comma => [',']
  | semicolon => [';']
  | dot => ['.']
  | openParen => ['(']
  | closeParen => [')']
  | lineComment s | blockComment s | whitespace s => s

def isComment : Token → Bool
  | lineComment _ | blockComment _ => true
  | _ => false

def isLineComment : Token → Bool
  | lineComment _ => true
  | _ => false

def isSpace : Token → Bool
  | whitespace _ => true
  | _ => false

/-- Space and comments, which no statement is made of. -/
def isTrivia (t : Token) : Bool := t.isSpace || t.isComment

def isCode (t : Token) : Bool := !t.isTrivia

theorem eq_whitespace {t : Token} (h : t.isSpace) : ∃ w, t = whitespace w := by
  cases t with
  | whitespace w => exact ⟨w, rfl⟩
  | _ => cases h

theorem eq_lineComment {t : Token} (h : t.isLineComment) : ∃ c, t = lineComment c := by
  cases t with
  | lineComment c => exact ⟨c, rfl⟩
  | _ => cases h

def isNewline : Token → Bool
  | whitespace s => s.contains '\n'
  | _ => false

def keyword : Token → Option Keyword
  | word w => Keyword.ofWord? w
  | _ => none

def isKeyword (k : Keyword) (t : Token) : Bool := t.keyword = some k

def isWordFrom (cs : List Char) : Token → Bool
  | word (c :: _) => cs.contains c
  | _ => false

/-- The first closing mark that is not doubled is the last character. -/
def closesAtEnd (close : Char) : Text → Bool
  | [] => false
  | [c] => c = close
  | c :: d :: s =>
    if c ≠ close then closesAtEnd close (d :: s)
    else if d = close then closesAtEnd close s
    else false

/-- Starts with `opening`, and what follows closes at its end. -/
def isEnclosed (opening close : Char) : Text → Bool
  | [] => false
  | c :: s => c = opening && closesAtEnd close s

/-- A literal, quoted identifier or block comment without its end. -/
def isUnterminated : Token → Bool
  | stringLiteral s => !isEnclosed '\'' '\'' s
  | quotedIdentifier s =>
    if s.head? = some '[' then !isEnclosed '[' ']' s else !isEnclosed '"' '"' s
  | blockComment s => byteSize s < 4 || !(['*', '/'].isSuffixOf s)
  | _ => false

def describe : Token → String
  | word _ => "word"
  | quotedIdentifier _ => "quoted identifier"
  | stringLiteral _ => "string literal"
  | number _ => "number"
  | operator _ => "operator"
  | comma => "comma"
  | semicolon => "semicolon"
  | dot => "dot"
  | openParen | closeParen => "parenthesis"
  | lineComment _ => "line comment"
  | blockComment _ => "block comment"
  | whitespace _ => "whitespace"

def spansLines (t : Token) : Bool := !t.isSpace && t.text.contains '\n'

end Token

def spell (ts : List Token) : Text := ts.flatMap Token.text

@[simp] theorem spell_nil : spell [] = [] := rfl

@[simp] theorem spell_cons (t : Token) (ts : List Token) : spell (t :: ts) = t.text ++ spell ts := rfl

@[simp] theorem spell_append (ts us : List Token) : spell (ts ++ us) = spell ts ++ spell us :=
  List.flatMap_append

end SqlLayout
