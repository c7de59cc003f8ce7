import SqlLayout.Options
import SqlLayout.Token.Lexer

/-!
# Letter case of keywords

Keywords, function names and type names take the letter case the options ask
for. All other tokens stay, and so do words that touch a dot (parts of a
qualified name) and the names of variables and temporary tables.

Only words change and only in letter case, so every test that looks at the
neighbours of a word gives the same answer afterwards.
-/

namespace SqlLayout

def neighbour (ts : List Token) : Option Token := ts.find? fun t => !t.isSpace

def isWordIn (ws : List String) : Option Token → Bool
  | some (.word w) => (nameIn? ws w).isSome
  | _ => false

def isTypeWord : Option Token → Bool
  | some (.word w) => isTypeName w
  | _ => false

def isVariable : Option Token → Bool
  | some t => t.isWordFrom ['@']
  | none => false

/-- Whether a keyword stands in one of the phrases in which alone it is one.
`prev` and `next` are its neighbours. -/
def inPhrase (k : Keyword) (prev next : Option Token) : Bool :=
  match k with
  | .KEY => isWordIn ["PRIMARY", "FOREIGN", "UNIQUE"] prev
  | .INDEX => isWordIn ["CREATE", "DROP", "ALTER", "UNIQUE", "CLUSTERED", "NONCLUSTERED"] prev
  | .ROW => isWordIn ["CURRENT", "EACH"] prev
  | .CURRENT => isWordIn ["ROW", "OF"] next
  | .NEXT => isWordIn ["FETCH"] prev || isWordIn ["VALUE"] next
  | .RANGE => isWordIn ["BETWEEN", "UNBOUNDED", "CURRENT"] next
  | .OUTPUT => isWordIn ["INSERTED", "DELETED"] next || isVariable prev || isTypeWord prev
  | .DEFAULT =>
    isWordIn ["VALUES", "FOR"] next || isWordIn ["ADD", "NULL"] prev ||
      prev = some (.operator ['=']) || prev = some .closeParen || isTypeWord prev
  | .CHECK => next = some .openParen || isWordIn ["WITH", "ADD"] prev
  | _ => true

/-- The letter case of a word that no dot touches. `prev` and
`next` are its neighbours. -/
def caseOf (o : Options) (prev next : Option Token) (w : Text) : LetterCase :=
  match Keyword.ofWord? w with
  | some k => if k.isPhraseOnly && !inPhrase k prev next then .preserve else o.keywordCase
  | none =>
    let called := next = some .openParen
    if called && isFunctionName w then o.functionCase
    else if isTypeName w &&
        (called || prev.any (Token.isKeyword .AS) || isVariable prev) then o.typeCase
    else .preserve

/-- Part of a qualified name, or the name of a variable or temporary table.
`seen` are the tokens in front of the word, the nearest first. -/
def keepsCase (seen ts : List Token) (t : Token) : Bool :=
  seen.head? = some .dot || ts.head? = some .dot || t.isWordFrom ['@', '#']

def recaseToken (o : Options) (seen : List Token) (t : Token) (ts : List Token) : Token :=
  match t with
  | .word w =>
    if keepsCase seen ts t then t
    else .word ((caseOf o (neighbour seen) (neighbour ts) w).apply w)
  | t => t

def recaseFrom (o : Options) (seen : List Token) : List Token → List Token
  | [] => []
  | t :: ts => recaseToken o seen t ts :: recaseFrom o (t :: seen) ts

def recaseTokens (o : Options) (ts : List Token) : List Token := recaseFrom o [] ts

def recase (o : Options) (sql : Text) : Text := spell (recaseTokens o (tokenize sql))

end SqlLayout
