import SqlLayout.Proofs.Stacks

/-!
# What decides on blocks

Where a block starts and ends depends on the tokens of the lines in plain form
and on nothing else (`Line.look`), so it stays when letter case changes. Of a
line that lies ahead even less is asked (`Line.view`).
-/

namespace SqlLayout

/-! ## Lines -/

@[simp] theorem plain_plain (t : Token) : t.plain.plain = t.plain := by
  cases t with
  | word w => simp [Token.plain]
  | lineComment c => simp [Token.plain, trimEnd_trimEnd]
  | _ => rfl

@[simp] theorem plains_plains (ts : List Token) : plains (plains ts) = plains ts := by
  induction ts with
  | nil => rfl
  | cons t ts ih =>
    rw [plains_cons]
    split
    · exact ih
    · next h => rw [plains_cons, Token.isSpace_plain, if_neg h, plain_plain, ih]

namespace Line

def look (l : Line) : Line := { tokens := plains l.tokens, continued := l.continued }

@[simp] theorem look_bare (l : Line) : l.bare.look = l.look := by simp [look, bare]

@[simp] theorem code_look (l : Line) : l.look.code = l.code.map Token.plain := filter_isCode_plains l.tokens

@[simp] theorem firstKeyword_look (l : Line) : l.look.firstKeyword = l.firstKeyword := by
  have hc : l.look.continued = l.continued := rfl
  rw [firstKeyword, firstKeyword, code_look, List.head?_map, hc]
  cases l.code.head? <;> simp

@[simp] theorem hasKeyword_look (k : Keyword) (l : Line) : l.look.hasKeyword k = l.hasKeyword k := by
  simp [hasKeyword, Function.comp_def]

@[simp] theorem endsInSemicolon_look (l : Line) : l.look.endsInSemicolon = l.endsInSemicolon := by
  rw [endsInSemicolon, endsInSemicolon, code_look, List.getLast?_map]
  exact map_plain_eq_mark (by simp) (by simp) _

@[simp] theorem startsStatement_look (l : Line) : l.look.startsStatement = l.startsStatement := by
  have hc : l.look.continued = l.continued := rfl
  rw [startsStatement, startsStatement, code_look, hc]
  congr 1
  match l.code with
  | [] => rfl
  | [t] => cases t <;> simp [Token.plain, Token.keyword]
  | t :: u :: us =>
    cases t with
    | semicolon => exact Token.isKeyword_plain .WITH u
    | _ => simp [Token.plain, Token.keyword]

@[simp] theorem definesCursor_look (l : Line) : l.look.definesCursor = l.definesCursor := by
  have hd : l.look.code.dropWhile (fun t => !t.isKeyword .CURSOR) =
      (l.code.dropWhile fun t => !t.isKeyword .CURSOR).map Token.plain := by
    simp [List.dropWhile_map, Function.comp_def]
  rw [definesCursor, definesCursor, hd, firstKeyword_look]
  cases l.code.dropWhile fun t => !t.isKeyword .CURSOR with
  | nil => rfl
  | cons t ts => simp [Function.comp_def]

end Line

theorem intoTemporary_plain (ts : List Token) : intoTemporary (ts.map Token.plain) = intoTemporary ts := by
  induction ts with
  | nil => rfl
  | cons t ts ih =>
    cases ts with
    | nil => rfl
    | cons u ts =>
      rw [List.map_cons] at ih
      rw [List.map_cons, List.map_cons, intoTemporary, ih, intoTemporary, Token.isKeyword_plain,
        Token.isWordFrom_plain _ (by simp)]

@[simp] theorem Line.classify_look (l : Line) : l.look.classify = l.classify := by
  have hfirst : l.look.code.head?.bind Token.keyword = l.code.head?.bind Token.keyword := by
    rw [code_look, List.head?_map]
    cases l.code.head? <;> simp
  have hsecond : l.look.code[1]?.bind Token.keyword = l.code[1]?.bind Token.keyword := by
    rw [code_look, List.getElem?_map]
    cases l.code[1]? <;> simp
  have hsemi : decide (l.look.code.head? = some .semicolon) = decide (l.code.head? = some .semicolon) := by
    rw [code_look, List.head?_map]
    exact map_plain_eq_mark (by simp) (by simp) _
  have hmod : l.look.code.any (fun t => t.keyword.any modifies) = l.code.any fun t => t.keyword.any modifies := by
    simp [Function.comp_def]
  have hinto : intoTemporary l.look.code = intoTemporary l.code := by rw [code_look, intoTemporary_plain]
  simp only [classify, hfirst, hsecond, hsemi, hmod, hinto, definesCursor_look, hasKeyword_look]

/-! ## Stretches -/

def Stretch.look (x : Stretch) : Stretch := ⟨x.first.look, x.more.map Line.look⟩

@[simp] theorem Stretch.look_bare (x : Stretch) : x.bare.look = x.look := by
  simp [look, bare, Function.comp_def]

@[simp] theorem Stretch.lines_look (x : Stretch) : x.look.lines = x.lines.map Line.look := rfl

@[simp] theorem Stretch.last_look (x : Stretch) : x.look.last = x.last.look := by
  obtain ⟨first, more⟩ := x
  rcases List.eq_nil_or_concat more with rfl | ⟨ls, l, rfl⟩ <;>
    simp [Stretch.look, Stretch.last, List.getLastD_eq_getLast?]

def Opening.look : Opening → Opening
  | .code classified face => .code classified.look face.look
  | o => o

theorem any_isCode_plains (ts : List Token) : (plains ts).any Token.isCode = ts.any Token.isCode := by
  induction ts with
  | nil => rfl
  | cons t ts ih =>
    rw [plains_cons, List.any_cons]
    split
    · next h => simp [Token.isCode, Token.isTrivia, h, ih]
    · simp [ih]

theorem any_isCode_look (ls : List Line) :
    ((ls.map Line.look).flatMap Line.tokens).any Token.isCode = (ls.flatMap Line.tokens).any Token.isCode := by
  induction ls with
  | nil => rfl
  | cons l ls ih =>
    rw [List.map_cons, List.flatMap_cons, List.any_append, ih, List.flatMap_cons, List.any_append]
    congr 1
    exact any_isCode_plains l.tokens

theorem dropWhile_plains (ts : List Token) : (plains ts).dropWhile Token.isSpace = plains ts := by
  induction ts with
  | nil => rfl
  | cons t ts ih =>
    rw [plains_cons]
    split
    · exact ih
    · next h => rw [List.dropWhile_cons_of_neg (by simpa using h)]

@[simp] theorem Stretch.opening_look (x : Stretch) : x.look.opening = x.opening.look := by
  have hfirst : x.look.first.tokens.dropWhile Token.isSpace = plains (x.first.tokens.dropWhile Token.isSpace) := by
    rw [plains_dropWhile_isSpace]
    exact dropWhile_plains x.first.tokens
  have hspace := List.head?_dropWhile_not Token.isSpace x.first.tokens
  rw [opening, opening, hfirst]
  cases hts : x.first.tokens.dropWhile Token.isSpace with
  | nil => rfl
  | cons t ts =>
    have ht : ¬t.isSpace := by simpa [hts] using hspace
    rw [plains_cons, if_neg ht]
    cases t with
    | whitespace w => exact absurd rfl ht
    | blockComment c =>
      simp only [Token.plain]
      split
      · rfl
      · have hafter : (if c.contains '\n' then (x.look.more.take (c.count '\n')).flatMap Line.tokens else plains ts).any
            Token.isCode =
            (if c.contains '\n' then (x.more.take (c.count '\n')).flatMap Line.tokens else ts).any Token.isCode := by
          split
          · rw [look, ← List.map_take, any_isCode_look]
          · exact any_isCode_plains ts
        rw [hafter]
        generalize (if c.contains '\n' then (x.more.take (c.count '\n')).flatMap Line.tokens else ts).any
          Token.isCode = after
        cases after with
        | true =>
          simp only [ite_true, Opening.look, x.last_look]
          rfl
        | false =>
          have hlast := x.last_look
          rw [look] at hlast ⊢
          rw [← List.map_drop]
          cases x.more.drop (c.count '\n') with
          | nil => rfl
          | cons l ls => simp [Opening.look, hlast]
    | _ => rfl

/-! ## Tallies -/

namespace Tally

def look (s : Tally) : Tally := { s with lastCode := s.lastCode.map Token.plain }

theorem keyword_look (s : Tally) (k : Option Keyword) : (s.keyword k).look = s.look.keyword k := by
  unfold keyword
  split <;> rfl

theorem step_plain (n : Nesting) (t : Token) : n.step t.plain = n.step t := by cases t <;> rfl

theorem code_look (s : Tally) (t : Token) : (s.code t).look = s.look.code t.plain := by
  have h := s.keyword_look t.keyword
  have hnest : ∀ s : Tally, s.look.nesting.topKeyword t.plain = s.nesting.topKeyword t := by
    intro s
    simp [Nesting.topKeyword, look]
  rw [code, code, Token.keyword_plain, ← h, hnest]
  rfl

theorem step_look (s : Tally) (t : Token) : (s.step t).look = s.look.step t.plain := by
  have h : (if t.isCode then s.code t else s).look = if t.isCode then s.look.code t.plain else s.look := by
    split
    · exact code_look s t
    · rfl
  simp only [step, Token.isCode_plain, step_plain, Token.isUnterminated_plain, ← h]
  rfl

theorem step_space (s : Tally) {t : Token} (h : t.isSpace) : s.step t = s := by
  cases t with
  | whitespace w => simp [step, Token.isCode, Token.isTrivia, Token.isSpace, Token.isUnterminated, Nesting.step]
  | _ => cases h

theorem foldl_look (s : Tally) (ts : List Token) : (ts.foldl step s).look = (plains ts).foldl step s.look := by
  induction ts generalizing s with
  | nil => rfl
  | cons t ts ih =>
    rw [List.foldl_cons, ih, plains_cons]
    split
    · next h => rw [step_space s h]
    · rw [List.foldl_cons, step_look]

@[simp] theorem needsMore_look (s : Tally) : s.look.needsMore = s.needsMore := by
  unfold needsMore look
  cases s.lastCode with
  | none => rfl
  | some t => cases t <;> simp [Token.plain, Token.keyword]

end Tally

/-! ## Lines ahead -/

/-- What is asked of the next line with code: whether it starts a statement,
with which word, and whether a DECLARE is that of a cursor. -/
def Line.view (l : Line) : Bool × Option Keyword × Bool :=
  (l.startsStatement, l.firstKeyword, l.firstKeyword = some .DECLARE && l.definesCursor)

@[simp] theorem Line.view_look (l : Line) : l.look.view = l.view := by simp [view]

theorem keepsComment_congr {d d' : Draft} {xs xs' : List Stretch} (ht : d.tally.look = d'.tally.look)
    (hn : (nextCodeLine xs).map Line.view = (nextCodeLine xs').map Line.view) :
    d.keepsComment xs = d'.keepsComment xs' := by
  have hs : d.tally.isStatement = d'.tally.isStatement := by
    change d.tally.look.isStatement = _
    rw [ht]
    rfl
  -- a line that starts no statement keeps the comment in any case
  have asked : ∀ ys : List Stretch, (nextCodeLine ys).any (fun l => l.continuesStatement || !l.startsStatement) =
      ((nextCodeLine ys).map Line.view).any fun v => v.2.1.any Line.leadsContinuation || !v.1 := by
    intro ys
    cases nextCodeLine ys with
    | none => rfl
    | some l => cases h : l.startsStatement <;> simp [Line.continuesStatement, Line.view, h]
  rw [Draft.keepsComment, Draft.keepsComment, hs, asked, asked, hn]

/-- What is asked of the line with which a statement may end. -/
def Line.ending (l : Line) : Bool × Bool × Bool := (l.endsInSemicolon, l.definesCursor, l.hasKeyword .SELECT)

@[simp] theorem Line.ending_look (l : Line) : l.look.ending = l.ending := by simp [ending]

theorem isComplete_congr {d d' : Draft} {last last' : Line} {xs xs' : List Stretch} (hk : d.kind = d'.kind)
    (ht : d.tally.look = d'.tally.look) (hl : last.ending = last'.ending)
    (hn : (nextCodeLine xs).map Line.view = (nextCodeLine xs').map Line.view) :
    d.isComplete last xs = d'.isComplete last' xs' := by
  have hmore : d.tally.needsMore = d'.tally.needsMore := by
    rw [← Tally.needsMore_look, ht, Tally.needsMore_look]
  have hrows : d.tally.awaitsRows = d'.tally.awaitsRows := by
    change d.tally.look.awaitsRows = _
    rw [ht]
    rfl
  have hmain : d.tally.hasMain = d'.tally.hasMain := by
    change d.tally.look.hasMain = _
    rw [ht]
    rfl
  obtain ⟨hsemi, hcursor, hselect⟩ : last.endsInSemicolon = last'.endsInSemicolon ∧
      last.definesCursor = last'.definesCursor ∧ last.hasKeyword .SELECT = last'.hasKeyword .SELECT := by
    simpa [Line.ending] using hl
  rw [Draft.isComplete, Draft.isComplete, hk, hmore, hrows, hmain, hsemi, hcursor, hselect]
  cases h : nextCodeLine xs with
  | none =>
    rw [h] at hn
    rw [Option.map_eq_none_iff.mp hn.symm]
  | some l =>
    rw [h] at hn
    obtain ⟨l', h', hv⟩ := Option.map_eq_some_iff.mp hn.symm
    rw [h']
    simp only [Line.view, Prod.mk.injEq] at hv
    obtain ⟨hstart, hfirst, hdeclare⟩ := hv
    simp only [hstart, hfirst]
    have hdec : (decide (l.firstKeyword = some .DECLARE) && !l'.definesCursor) =
        (decide (l.firstKeyword = some .DECLARE) && !l.definesCursor) := by
      rw [hfirst] at hdeclare
      by_cases hd : l.firstKeyword = some .DECLARE
      · simpa [hd] using hdeclare
      · simp [hd]
    rw [hdec]

/-! ## Letter case -/

theorem spread_look (inside : Bool) (l : Line) (ps : List Text) :
    (Line.spread inside l ps).map Line.look = (Line.spread inside l.look ps).map Line.look := by
  induction ps with
  | nil => simp [Line.spread, Line.look]
  | cons p ps ih =>
    cases ps with
    | nil => simp [Line.spread, Line.look]
    | cons q ps => simp [Line.spread, ih]

theorem behind_look (t : Token) (l : Line) : (l.behind t).map Line.look = (l.look.behind t).map Line.look := by
  unfold Line.behind
  split
  · simp [spread_look _ l]
  · simp [Line.look, plains_cons]

theorem lines_look_congr {ts us : List Token} (h : (lines ts).map Line.look = (lines us).map Line.look) {t u : Token}
    (hb : ∀ l : Line, (l.behind t).map Line.look = (l.behind u).map Line.look) :
    (lines (t :: ts)).map Line.look = (lines (u :: us)).map Line.look := by
  obtain ⟨l, ls, e⟩ := List.exists_cons_of_ne_nil (lines_ne_nil ts)
  obtain ⟨l', ls', e'⟩ := List.exists_cons_of_ne_nil (lines_ne_nil us)
  rw [e, e', List.map_cons, List.map_cons, List.cons.injEq] at h
  rw [lines_cons_behind e, lines_cons_behind e', List.map_append, List.map_append, behind_look t, h.1, hb, ← behind_look,
    h.2]

theorem splitLines_of_notMem {w : Text} (h : '\n' ∉ w) : splitLines w = [w] := List.splitOn_eq_singleton h

theorem behind_word {w : Text} (h : (Token.word w).Formed) (l : Line) :
    (l.behind (.word w)).map Line.look = [{ tokens := .word (upper w) :: plains l.tokens, continued := l.continued }] := by
  have hn : '\n' ∉ w := by
    intro hc
    have := isSpaceChar_of_isWordChar (List.all_eq_true.mp (word_chars h) _ hc)
    cases this
  rw [Line.behind, Token.text, splitLines_of_notMem hn]
  simp [Line.look, plains_cons, Token.isSpace, Token.plain]

end SqlLayout
