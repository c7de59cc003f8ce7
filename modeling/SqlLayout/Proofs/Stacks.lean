import SqlLayout.Proofs.Recase
import SqlLayout.Proofs.Segments

/-!
# Lines of texts under one another

Lines are compared with their tokens in plain form and without space, since a
run of space that crosses lines is one token of the first of them. Compared
in this way, the lines of two texts with a newline between them are the lines
of the one and the lines of the other, if the first text ends in no token
(`stretchesOf_newline`).
-/

namespace SqlLayout

/-! ## Lines without space -/

def Line.bare (l : Line) : Line := { l with tokens := plains l.tokens }

def putSpace (c : Char) : List Line → List Line
  | [] => []
  | l :: ls => if c = '\n' then {} :: l :: ls else { l with text := c :: l.text } :: ls

theorem head_lines (ts : List Token) : ∃ l ls, lines ts = l :: ls ∧ l.continued = false := by
  induction ts with
  | nil => exact ⟨{}, [], rfl, rfl⟩
  | cons t ts ih =>
    obtain ⟨l, ls, h, hl⟩ := ih
    rcases lines_cons (t := t) h with ⟨-, e⟩ | ⟨p, ms, z, -, -, e⟩
    · exact ⟨_, _, e, hl⟩
    · exact ⟨_, _, e, rfl⟩

theorem plains_space (w : Text) (ts : List Token) : plains (.whitespace w :: ts) = plains ts := by
  simp [plains_cons, Token.isSpace]

theorem splitLines_cons {c : Char} {w p : Text} {ps : List Text} (h : splitLines w = p :: ps) :
    splitLines (c :: w) = if c = '\n' then [] :: p :: ps else (c :: p) :: ps := by
  unfold splitLines at h ⊢
  rw [List.splitOn, List.splitOnP_cons_eq_if_modifyHead]
  by_cases hc : c = '\n'
  · rw [if_pos (by simpa using hc), if_pos hc]
    exact congrArg ([] :: ·) h
  · rw [if_neg (by simpa using hc), if_neg hc]
    change List.modifyHead (c :: ·) (List.splitOn '\n' w) = _
    rw [h]
    rfl

/-- Space in front of tokens goes in front of their lines, one character after
the other. -/
theorem lines_space (w : Text) (ts : List Token) :
    (lines (.whitespace w :: ts)).map Line.bare = w.foldr putSpace ((lines ts).map Line.bare) := by
  obtain ⟨l, ls, h, hl⟩ := head_lines ts
  have shape : ∀ w, (lines (.whitespace w :: ts)).map Line.bare =
      (Line.spread false l (splitLines w)).map Line.bare ++ ls.map Line.bare := by
    intro w
    rw [lines, h]
    simp only [Token.text]
    cases e : splitLines w with
    | nil => exact absurd e (splitLines_ne_nil w)
    | cons p ps =>
      cases ps with
      | nil =>
        have : w = p := by rw [← joinLines_splitLines w, e, joinLines_singleton]
        simp [Line.spread, Line.bare, plains_space, this, hl]
      | cons q ps => simp [Line.spread, Line.bare, plains_space, Token.isSpace]
  induction w with
  | nil =>
    rw [shape, h]
    simp [splitLines, Line.spread, ← hl]
  | cons c w ih =>
    rw [List.foldr_cons, ← ih, shape, shape]
    obtain ⟨p, ps, e⟩ := List.exists_cons_of_ne_nil (splitLines_ne_nil w)
    rw [splitLines_cons e, e]
    by_cases hc : c = '\n'
    · cases ps <;> simp [hc, Line.spread, putSpace, Line.bare]
    · cases ps <;> simp [hc, Line.spread, putSpace, Line.bare]

/-! ## Space one character at a time -/

def Token.parts : Token → List Token
  | .whitespace w => w.map fun c => .whitespace [c]
  | t => [t]

def spaced (ts : List Token) : List Token := ts.flatMap Token.parts

theorem spaced_cons (t : Token) (ts : List Token) : spaced (t :: ts) = t.parts ++ spaced ts := rfl

theorem Token.parts_of_not_isSpace {t : Token} (h : t.isSpace = false) : t.parts = [t] := by
  cases t with
  | whitespace w => cases h
  | _ => rfl

theorem spaced_tokenize_cons {c : Char} (hc : isSpaceChar c) (s : Text) :
    spaced (tokenize (c :: s)) = .whitespace [c] :: spaced (tokenize s) := by
  have run : ∀ s, tokenize (c :: s) = .whitespace (c :: s.takeWhile isSpaceChar) :: tokenize (s.dropWhile isSpaceChar) := by
    intro s
    rw [tokenize, scan, if_pos hc]
    rfl
  rw [run, spaced_cons]
  cases s with
  | nil => rfl
  | cons d s =>
    by_cases hd : isSpaceChar d
    · rw [List.takeWhile_cons_of_pos hd, List.dropWhile_cons_of_pos hd, tokenize, scan, if_pos hd]
      rfl
    · rw [List.takeWhile_cons_of_neg hd, List.dropWhile_cons_of_neg hd]
      rfl

theorem spaced_tokenize_append {w : Text} (hw : w.all isSpaceChar) (s : Text) :
    spaced (tokenize (w ++ s)) = w.map (fun c => .whitespace [c]) ++ spaced (tokenize s) := by
  induction w with
  | nil => rfl
  | cons c w ih =>
    rw [List.all_cons, Bool.and_eq_true] at hw
    rw [List.cons_append, spaced_tokenize_cons hw.1, ih hw.2]
    rfl

theorem Legible.spaced_tokenize {ts : List Token} (h : Legible ts) : spaced (tokenize (spell ts)) = spaced ts := by
  induction ts with
  | nil => rw [spell_nil, tokenize]
  | cons t ts ih =>
    obtain ⟨hf, hs, ht⟩ := h
    rw [spell_cons, spaced_cons, ← ih ht]
    cases hsp : t.isSpace with
    | false => rw [tokenize_text_append hf (hs.resolve_left (by simp [hsp])), spaced_cons]
    | true =>
      obtain ⟨w, rfl⟩ := Token.eq_whitespace hsp
      exact spaced_tokenize_append hf.2 _

/-! ## Lines of tokens and more tokens -/

def Line.behind (t : Token) (l : Line) : List Line :=
  match splitLines t.text with
  | p :: q :: ps => { text := p, tokens := [t] } :: Line.spread (!t.isSpace) l (q :: ps)
  | _ => [{ l with text := t.text ++ l.text, tokens := t :: l.tokens }]

theorem lines_cons_behind {t : Token} {ts : List Token} {l : Line} {ls : List Line} (h : lines ts = l :: ls) :
    lines (t :: ts) = l.behind t ++ ls := by
  rw [lines, h, Line.behind]
  simp only
  rcases splitLines t.text with - | ⟨p, - | ⟨q, ps⟩⟩
  · rfl
  · rfl
  · rfl

theorem bare_eq_iff {l l' : Line} :
    l.bare = l'.bare ↔ l.text = l'.text ∧ plains l.tokens = plains l'.tokens ∧ l.continued = l'.continued := by
  simp [Line.bare]

theorem spread_bare {inside : Bool} {l l' : Line} (h : l.bare = l'.bare) (ps : List Text) :
    (Line.spread inside l ps).map Line.bare = (Line.spread inside l' ps).map Line.bare := by
  obtain ⟨htext, htokens, -⟩ := bare_eq_iff.mp h
  induction ps with
  | nil => simpa [Line.spread] using h
  | cons p ps ih =>
    cases ps with
    | nil => simp [Line.spread, Line.bare, htext, htokens]
    | cons q ps => simp [Line.spread, ih]

theorem behind_bare {l l' : Line} (h : l.bare = l'.bare) (t : Token) :
    (l.behind t).map Line.bare = (l'.behind t).map Line.bare := by
  obtain ⟨htext, htokens, hcontinued⟩ := bare_eq_iff.mp h
  unfold Line.behind
  split
  · simp [spread_bare h]
  · simp [Line.bare, plains_cons, htext, htokens, hcontinued]

theorem lines_bare_congr {ts us : List Token} (h : (lines ts).map Line.bare = (lines us).map Line.bare) (t : Token) :
    (lines (t :: ts)).map Line.bare = (lines (t :: us)).map Line.bare := by
  obtain ⟨l, ls, e⟩ := List.exists_cons_of_ne_nil (lines_ne_nil ts)
  obtain ⟨l', ls', e'⟩ := List.exists_cons_of_ne_nil (lines_ne_nil us)
  rw [e, e', List.map_cons, List.map_cons, List.cons.injEq] at h
  rw [lines_cons_behind e, lines_cons_behind e', List.map_append, List.map_append, behind_bare h.1, h.2]

theorem lines_spaces (w : Text) (ts : List Token) :
    (lines (w.map (fun c => .whitespace [c]) ++ ts)).map Line.bare = w.foldr putSpace ((lines ts).map Line.bare) := by
  induction w with
  | nil => rfl
  | cons c w ih =>
    rw [List.map_cons, List.cons_append, lines_space, ih]
    rfl

theorem lines_spaced (ts : List Token) : (lines (spaced ts)).map Line.bare = (lines ts).map Line.bare := by
  induction ts with
  | nil => rfl
  | cons t ts ih =>
    rw [spaced_cons]
    cases hs : t.isSpace with
    | false =>
      rw [Token.parts_of_not_isSpace hs]
      exact lines_bare_congr ih t
    | true =>
      match t, hs with
      | .whitespace w, _ =>
        rw [lines_space, ← ih]
        exact lines_spaces w (spaced ts)

theorem Legible.lines_tokenize {ts : List Token} (h : Legible ts) :
    (lines (tokenize (spell ts))).map Line.bare = (lines ts).map Line.bare := by
  rw [← lines_spaced, h.spaced_tokenize, lines_spaced]

theorem lines_newline (ts us : List Token) :
    (lines (ts ++ .whitespace ['\n'] :: us)).map Line.bare = (lines ts).map Line.bare ++ (lines us).map Line.bare := by
  induction ts with
  | nil =>
    obtain ⟨l, ls, e⟩ := List.exists_cons_of_ne_nil (lines_ne_nil us)
    rw [List.nil_append, lines_space, e]
    rfl
  | cons t ts ih =>
    obtain ⟨l, ls, e⟩ := List.exists_cons_of_ne_nil (lines_ne_nil ts)
    obtain ⟨l', ls', e'⟩ := List.exists_cons_of_ne_nil (lines_ne_nil (ts ++ .whitespace ['\n'] :: us))
    rw [e, e', List.map_cons, List.map_cons, List.cons_append, List.cons.injEq] at ih
    rw [List.cons_append, lines_cons_behind e, lines_cons_behind e', List.map_append, List.map_append, behind_bare ih.1,
      ih.2, List.append_assoc]

/-! ## Stretches of a text -/

def Stretch.bare (s : Stretch) : Stretch := ⟨s.first.bare, s.more.map Line.bare⟩

@[simp] theorem lines_bare (s : Stretch) : s.bare.lines = s.lines.map Line.bare := rfl

theorem stretches_map {f : Line → Line} (hf : ∀ l, (f l).continued = l.continued) (ls : List Line) :
    stretches (ls.map f) = (stretches ls).map fun x => ⟨f x.first, x.more.map f⟩ := by
  fun_induction stretches ls with
  | case1 => rw [List.map_nil, stretches, List.map_nil]
  | case2 l ls ih =>
    have hc : Line.continued ∘ f = Line.continued := funext hf
    rw [List.map_cons, stretches_cons, List.takeWhile_map, List.dropWhile_map, hc, ih]
    rfl

theorem stretches_append (ls : List Line) {m : Line} {ms : List Line} (hm : m.continued = false) :
    stretches (ls ++ m :: ms) = stretches ls ++ stretches (m :: ms) := by
  have hm : ¬m.continued := by simp [hm]
  fun_induction stretches ls with
  | case1 => rfl
  | case2 l ls ih =>
    have ht : (ls ++ m :: ms).takeWhile Line.continued = ls.takeWhile Line.continued := by
      rw [List.takeWhile_append, List.takeWhile_cons_of_neg hm, List.append_nil]
      split
      · next h => exact ((List.takeWhile_prefix _).eq_of_length h).symm
      · rfl
    have hd : (ls ++ m :: ms).dropWhile Line.continued = ls.dropWhile Line.continued ++ m :: ms := by
      rw [List.dropWhile_append, List.dropWhile_cons_of_neg hm]
      split
      · next h => rw [List.isEmpty_iff.mp h, List.nil_append]
      · rfl
    rw [List.cons_append, stretches_cons, ht, hd, ih, List.cons_append]

def stretchesOf (s : Text) : List Stretch := (stretches (lines (tokenize s))).map Stretch.bare

theorem stretchesOf_eq (s : Text) : stretchesOf s = stretches ((lines (tokenize s)).map Line.bare) :=
  (stretches_map (f := Line.bare) (fun _ => rfl) _).symm

theorem stretchesOf_newline {a : Text} (ha : Closed a) (b : Text) :
    stretchesOf (a ++ '\n' :: b) = stretchesOf a ++ stretchesOf b := by
  have hl : Legible (tokenize a ++ .whitespace ['\n'] :: tokenize b) := by
    refine (legible_tokenize a).append ⟨⟨by simp, by simp [isSpaceChar]⟩, Or.inl rfl, legible_tokenize b⟩ fun t ht => ?_
    cases hs : t.isSpace with
    | true => exact Or.inl rfl
    | false =>
      refine Or.inr (Token.stops_cons (by decide) ?_ (by simp [hs]) (fun _ => rfl) _)
      exact closed_iff.mp ha t (List.mem_of_getLast? ht)
  have hspell : spell (tokenize a ++ .whitespace ['\n'] :: tokenize b) = a ++ '\n' :: b := by
    rw [spell_append, spell_cons, spell_tokenize, spell_tokenize]
    rfl
  have e := hl.lines_tokenize
  rw [hspell, lines_newline] at e
  obtain ⟨m, ms, hm, hc⟩ := head_lines (tokenize b)
  rw [stretchesOf_eq, e, stretchesOf_eq, stretchesOf_eq, hm]
  exact stretches_append _ hc

theorem flatMap_stretchesOf (s : Text) :
    (stretchesOf s).flatMap Stretch.lines = (lines (tokenize s)).map Line.bare := by
  rw [stretchesOf_eq, flatMap_stretches]

theorem textOf_stretchesOf (s : Text) : textOf ((stretchesOf s).flatMap Stretch.lines) = s := by
  have : ((lines (tokenize s)).map Line.bare).map Line.text = (lines (tokenize s)).map Line.text := by
    rw [List.map_map]
    rfl
  rw [flatMap_stretchesOf, textOf, this]
  exact (textOf_lines _).trans (spell_tokenize s)

theorem stretchesOf_ne_nil (s : Text) : stretchesOf s ≠ [] := by
  obtain ⟨l, ls, h⟩ := List.exists_cons_of_ne_nil (lines_ne_nil (tokenize s))
  rw [stretchesOf_eq, h, List.map_cons, stretches_cons]
  exact List.cons_ne_nil _ _

/-! ## Pieces of a text -/

theorem textOf_bare (ls : List Line) : textOf (ls.map Line.bare) = textOf ls := by
  rw [textOf, List.map_map]
  rfl

theorem newline_notMem_stretchesOf {s : Text} {x : Stretch} (h : x ∈ stretchesOf s) : ∀ l ∈ x.lines, '\n' ∉ l.text := by
  intro l hl
  have hmem : l ∈ (lines (tokenize s)).map Line.bare := by
    rw [← flatMap_stretchesOf]
    exact List.mem_flatMap.mpr ⟨x, h, hl⟩
  obtain ⟨k, hk, rfl⟩ := List.mem_map.mp hmem
  exact (fits_of_mem_lines k hk).newline_notMem

theorem count_textOf {ls : List Line} (h : ∀ l ∈ ls, '\n' ∉ l.text) : (textOf ls).count '\n' = ls.length - 1 := by
  rw [textOf, count_joinLines, List.length_map]
  intro x hx
  obtain ⟨l, hl, rfl⟩ := List.mem_map.mp hx
  exact h l hl

theorem Stretch.lines_ne_nil (x : Stretch) : x.lines ≠ [] := List.cons_ne_nil _ _

theorem textOf_cons_stretch (x : Stretch) {xs : List Stretch} (h : xs ≠ []) :
    textOf ((x :: xs).flatMap Stretch.lines) = textOf x.lines ++ '\n' :: textOf (xs.flatMap Stretch.lines) := by
  obtain ⟨y, ys, rfl⟩ := List.exists_cons_of_ne_nil h
  rw [List.flatMap_cons, textOf_append x.lines_ne_nil]
  exact List.append_ne_nil_of_left_ne_nil y.lines_ne_nil _

theorem append_inj_of_lines {xs ys zs ws : List Stretch} (h : xs ++ ys = zs ++ ws)
    (hlen : (xs.flatMap Stretch.lines).length = (zs.flatMap Stretch.lines).length) : xs = zs ∧ ys = ws := by
  have hpos : ∀ (x : Stretch) (xs : List Stretch), ((x :: xs).flatMap Stretch.lines).length ≠ 0 := by
    intro x xs
    simp [Stretch.lines]
  induction xs generalizing zs with
  | nil =>
    cases zs with
    | nil => exact ⟨rfl, h⟩
    | cons z zs => exact absurd hlen.symm (hpos z zs)
  | cons x xs ih =>
    cases zs with
    | nil => exact absurd hlen (hpos x xs)
    | cons z zs =>
      rw [List.cons_append, List.cons_append, List.cons.injEq] at h
      obtain ⟨rfl, h⟩ := h
      simp only [List.flatMap_cons, List.length_append, Nat.add_left_cancel_iff] at hlen
      obtain ⟨rfl, rfl⟩ := ih h hlen
      exact ⟨rfl, rfl⟩

/-- A text that is cut between two stretches, where no token goes on. -/
theorem stretchesOf_split {s : Text} {xs ys : List Stretch} (h : stretchesOf s = xs ++ ys) (hxs : xs ≠ []) (hys : ys ≠ [])
    (hc : Closed (textOf (xs.flatMap Stretch.lines))) :
    stretchesOf (textOf (xs.flatMap Stretch.lines)) = xs ∧ stretchesOf (textOf (ys.flatMap Stretch.lines)) = ys := by
  have hlines : ∀ {zs : List Stretch}, zs ≠ [] → zs.flatMap Stretch.lines ≠ [] := by
    intro zs hzs
    obtain ⟨z, zs, rfl⟩ := List.exists_cons_of_ne_nil hzs
    rw [List.flatMap_cons]
    exact List.append_ne_nil_of_left_ne_nil z.lines_ne_nil _
  have htext := textOf_stretchesOf s
  rw [h, List.flatMap_append, textOf_append (hlines hxs) (hlines hys)] at htext
  have e := h
  rw [← htext, stretchesOf_newline hc] at e
  -- the lines are counted by the newlines
  refine append_inj_of_lines e ?_
  have hcount := @count_textOf (xs.flatMap Stretch.lines) fun l hl => by
    obtain ⟨x, hx, hl⟩ := List.mem_flatMap.mp hl
    exact newline_notMem_stretchesOf (s := s) (x := x) (by simp [h, hx]) l hl
  have hcount' := @count_textOf ((stretchesOf (textOf (xs.flatMap Stretch.lines))).flatMap Stretch.lines) fun l hl => by
    obtain ⟨z, hz, hl⟩ := List.mem_flatMap.mp hl
    exact newline_notMem_stretchesOf hz l hl
  rw [textOf_stretchesOf, hcount] at hcount'
  have h₁ := List.length_pos_iff.mpr (hlines hxs)
  have h₂ := List.length_pos_iff.mpr (hlines (stretchesOf_ne_nil (textOf (xs.flatMap Stretch.lines))))
  omega

/-- A stretch that is read in the same way wherever it stands. -/
structure Piece (x : Stretch) : Prop where
  closed : Closed (textOf x.lines)
  reads : stretchesOf (textOf x.lines) = [x]
  soft : hards (textOf x.lines) = 0

theorem hards_textOf {ls : List Line} : hards (textOf ls) = 0 ↔ ∀ l ∈ ls, hards l.text = 0 := by
  rw [textOf, hards_joinLines]
  induction ls with
  | nil => simp
  | cons l ls ih => rw [List.map_cons, hardsIn_cons, Nat.add_eq_zero_iff, ih, List.forall_mem_cons]

theorem closed_first {s : Text} {x : Stretch} {xs : List Stretch} (hc : Closed s) (h : stretchesOf s = x :: xs) :
    Closed (textOf x.lines) := by
  obtain ⟨y, ys, e, rfl, -⟩ := List.map_eq_cons_iff.mp h
  have hw := (sound_stretches (legible_tokenize s)).whole
  have htext := textOf_lines (tokenize s)
  rw [← flatMap_stretches (lines (tokenize s)), e, spell_tokenize] at htext
  rw [e, List.map_cons] at hw
  rw [lines_bare, textOf_bare]
  generalize e' : ys.map Stretch.lines = rest at hw
  cases hw with
  | cons reads closed whole =>
    rcases closed with closed | rfl
    · exact closed
    · obtain rfl := List.map_eq_nil_iff.mp e'
      rw [List.flatMap_cons, List.flatMap_nil, List.append_nil] at htext
      rwa [htext]
  | cut reads notClosed =>
    refine absurd ?_ notClosed
    have : ys.flatMap Stretch.lines = [{}] := by rw [List.flatMap_def, e']; rfl
    rw [List.flatMap_cons, this, textOf_newline y.lines_ne_nil] at htext
    rwa [htext]

theorem pieces_stretchesOf {s : Text} (hc : Closed s) (hh : hards s = 0) : ∀ x ∈ stretchesOf s, Piece x := by
  generalize e : stretchesOf s = xs
  induction xs generalizing s with
  | nil => exact absurd e (stretchesOf_ne_nil s)
  | cons x xs ih =>
    have hfirst := closed_first hc e
    have htext := textOf_stretchesOf s
    rw [e] at htext
    by_cases hxs : xs = []
    · subst hxs
      have hx : textOf x.lines = s := by simpa using htext
      have : Piece x := ⟨hx ▸ hc, by rw [hx, e], hx ▸ hh⟩
      simpa using this
    · rw [textOf_cons_stretch x hxs] at htext
      obtain ⟨hx, hrest⟩ := @stretchesOf_split s [x] xs e (List.cons_ne_nil _ _) hxs (by simpa using hfirst)
      rw [← htext, hards_append, hards_cons] at hh
      have hx : Piece x := ⟨hfirst, by simpa using hx, by omega⟩
      have hclosed : Closed (textOf (xs.flatMap Stretch.lines)) := by
        rw [← htext, Closed, solidsOf_append_newline hfirst] at hc
        exact fun t ht => hc t (List.mem_append_right _ ht)
      exact List.forall_mem_cons.mpr ⟨hx, ih hclosed (by omega) hrest⟩

theorem stretchesOf_pieces {xs : List Stretch} (h : ∀ x ∈ xs, Piece x) (hne : xs ≠ []) :
    Closed (textOf (xs.flatMap Stretch.lines)) ∧ stretchesOf (textOf (xs.flatMap Stretch.lines)) = xs := by
  induction xs with
  | nil => exact absurd rfl hne
  | cons x xs ih =>
    have hx := h x List.mem_cons_self
    by_cases hxs : xs = []
    · subst hxs
      simpa using And.intro hx.closed hx.reads
    · obtain ⟨hc, e⟩ := ih (fun y hy => h y (List.mem_cons_of_mem _ hy)) hxs
      rw [textOf_cons_stretch x hxs, stretchesOf_newline hx.closed, hx.reads, e, Closed, solidsOf_append_newline hx.closed]
      refine ⟨fun t ht => ?_, rfl⟩
      exact (List.mem_append.mp ht).elim (hx.closed t) (hc t)

/-! ## Tokens of pieces -/

theorem tokensOf_lines (ts : List Token) : tokensOf (lines ts) = ts := by
  induction ts with
  | nil => rfl
  | cons t ts ih =>
    obtain ⟨l, ls, h⟩ := List.exists_cons_of_ne_nil (lines_ne_nil ts)
    rw [h, tokensOf_cons] at ih
    rcases lines_cons (t := t) h with ⟨-, e⟩ | ⟨p, ms, z, -, -, e⟩
    · rw [e, tokensOf_cons, List.cons_append, ih]
    · have hms : tokensOf (ms.map fun m => { text := m, continued := !t.isSpace }) = [] := by
        simp [tokensOf, List.flatMap_map]
      rw [e, List.cons_append, tokensOf_cons, tokensOf_append, tokensOf_cons, hms, List.nil_append, ih]
      rfl

theorem tokensOf_bare (ls : List Line) : tokensOf (ls.map Line.bare) = plains (tokensOf ls) := by
  induction ls with
  | nil => rfl
  | cons l ls ih => rw [List.map_cons, tokensOf_cons, tokensOf_cons, plains_append, ih]; rfl

theorem tokensOf_stretchesOf (s : Text) : tokensOf ((stretchesOf s).flatMap Stretch.lines) = plainsOf s := by
  rw [flatMap_stretchesOf, tokensOf_bare, tokensOf_lines, plainsOf]

theorem Piece.plainsOf_eq {x : Stretch} (h : Piece x) : plainsOf (textOf x.lines) = tokensOf x.lines := by
  simpa [h.reads] using (tokensOf_stretchesOf (textOf x.lines)).symm

/-! ## Blank pieces -/

def blankStretch (w : Text) : Stretch := ⟨{ text := w }, []⟩

theorem stretchesOf_space {w : Text} (hw : w.all isSpaceChar) (hn : '\n' ∉ w) : stretchesOf w = [blankStretch w] := by
  have e : (lines (tokenize w)).map Line.bare = w.foldr putSpace [{}] := by
    have := spaced_tokenize_append hw []
    rw [List.append_nil] at this
    rw [← lines_spaced, this, tokenize]
    exact lines_spaces w []
  have put : w.foldr putSpace [{}] = [({ text := w } : Line)] := by
    clear e hw
    induction w with
    | nil => rfl
    | cons c w ih =>
      rw [List.mem_cons, not_or] at hn
      rw [List.foldr_cons, ih hn.2, putSpace, if_neg (Ne.symm hn.1)]
  rw [stretchesOf_eq, e, put, stretches_cons, List.dropWhile_nil, stretches]
  rfl

theorem Piece.not_closed {x : Stretch} (h : Piece x) {a b : Text} (e : textOf x.lines = a ++ '\n' :: b) : ¬Closed a := by
  intro ha
  have hr := h.reads
  rw [e, stretchesOf_newline ha] at hr
  have hlen := congrArg List.length hr
  have h₁ := List.length_pos_iff.mpr (stretchesOf_ne_nil a)
  have h₂ := List.length_pos_iff.mpr (stretchesOf_ne_nil b)
  rw [List.length_append, List.length_singleton] at hlen
  omega

theorem closed_space {w : Text} (hw : w.all isSpaceChar) : Closed w := by
  rw [Closed, solidsOf_space hw]
  simp

theorem textOf_singleton (l : Line) : textOf [l] = l.text := by simp [textOf]

theorem eq_blankStretch {s : Text} {x : Stretch} {xs : List Stretch} (h : stretchesOf s = x :: xs) (hh : hards s = 0)
    (hx : isBlankText x.first.text) : x = blankStretch x.first.text := by
  have hn : '\n' ∉ x.first.text := newline_notMem_stretchesOf (s := s) (x := x) (by simp [h]) _ (by simp [Stretch.lines])
  have htext := textOf_stretchesOf s
  rw [h, List.flatMap_cons, Stretch.lines, List.cons_append] at htext
  have hw : x.first.text.all isSpaceChar := by
    refine space_of_hards hx (hards_textOf.mp (htext ▸ hh) x.first List.mem_cons_self)
  cases e : x.more ++ xs.flatMap Stretch.lines with
  | nil =>
    rw [e, textOf_singleton] at htext
    rw [← htext, stretchesOf_space hw hn] at h
    exact (List.cons.inj h).1.symm
  | cons l ls =>
    have hsplit := @textOf_append [x.first] (l :: ls) (List.cons_ne_nil _ _) (List.cons_ne_nil _ _)
    rw [textOf_singleton, List.singleton_append, ← e, htext] at hsplit
    rw [hsplit, stretchesOf_newline (closed_space hw), stretchesOf_space hw hn] at h
    exact (List.cons.inj h).1.symm

theorem Piece.eq_blank {x : Stretch} (h : Piece x) (hx : isBlankText x.first.text) : x = blankStretch x.first.text :=
  eq_blankStretch h.reads h.soft hx

theorem Piece.first_of_last {x : Stretch} (h : Piece x) (hx : isBlankText x.last.text) : x.last = x.first := by
  obtain ⟨ls, e⟩ := x.exists_last
  have hh := hards_textOf.mp h.soft
  have hw := space_of_hards hx (hh x.last (by simp [e]))
  cases ls with
  | nil =>
    rw [Stretch.lines, List.nil_append] at e
    exact (List.cons.inj e).1.symm
  | cons l ls =>
    have ht : textOf x.lines = textOf (l :: ls) ++ '\n' :: x.last.text := by
      rw [e, textOf_append (List.cons_ne_nil _ _) (List.cons_ne_nil _ _), textOf_singleton]
    have hc := h.closed
    rw [ht] at hc
    refine absurd ?_ (h.not_closed ht)
    rwa [Closed, solidsOf_space_end hc hw] at hc

end SqlLayout
