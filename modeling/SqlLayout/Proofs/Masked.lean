import SqlLayout.Proofs.Shades

/-!
# A comment without its end

Of a comment that has no end, nothing counts but that it has none (`Alike`),
so a newline more or less in it makes no difference to what stands in front of
it (`stretchesOf_extended`).
-/

namespace SqlLayout

/-! ## Without the text of the comment -/

def Token.masked : Token → Token
  | blockComment c => if (blockComment c).isUnterminated then blockComment ['/', '*'] else blockComment c
  | t => t

theorem Token.masked_of_comment {c : Text} (h : (blockComment c).isUnterminated) :
    (blockComment c).masked = blockComment ['/', '*'] := by
  rw [masked, if_pos h]

theorem Token.masked_cases (t : Token) :
    t.masked = t ∨ ∃ c, t = blockComment c ∧ t.isUnterminated ∧ t.masked = blockComment ['/', '*'] := by
  cases t with
  | blockComment c =>
    by_cases h : (blockComment c).isUnterminated
    · exact Or.inr ⟨c, rfl, h, masked_of_comment h⟩
    · exact Or.inl (by rw [masked, if_neg h])
  | _ => exact Or.inl rfl

@[simp] theorem Token.isCode_masked (t : Token) : t.masked.isCode = t.isCode := by
  rcases t.masked_cases with h | ⟨c, rfl, -, h⟩ <;> rw [h]
  rfl

@[simp] theorem Token.isSpace_masked (t : Token) : t.masked.isSpace = t.isSpace := by
  rcases t.masked_cases with h | ⟨c, rfl, -, h⟩ <;> rw [h]
  rfl

theorem Token.masked_of_isCode {t : Token} (h : t.isCode) : t.masked = t := by
  rcases t.masked_cases with h' | ⟨c, rfl, -⟩
  · exact h'
  · cases h

theorem Tally.step_masked (s : Tally) (t : Token) : s.step t.masked = s.step t := by
  rcases t.masked_cases with h | ⟨c, rfl, hu, h⟩ <;> rw [h]
  have hopen : (Token.blockComment ['/', '*']).isUnterminated = (Token.blockComment c).isUnterminated := by
    rw [hu]
    rfl
  simp only [step, hopen]
  rfl

def Line.masked (l : Line) : Line := { l with tokens := l.tokens.map Token.masked }

def Stretch.masked (x : Stretch) : Stretch := ⟨x.first.masked, x.more.map Line.masked⟩

@[simp] theorem Line.code_masked (l : Line) : l.masked.code = l.code := by
  rw [code, masked, List.filter_map]
  have : Token.isCode ∘ Token.masked = Token.isCode := funext Token.isCode_masked
  rw [this]
  exact (List.map_congr_left fun t ht => Token.masked_of_isCode (List.mem_filter.mp ht).2).trans (List.map_id _)

@[simp] theorem Line.continued_masked (l : Line) : l.masked.continued = l.continued := rfl

@[simp] theorem Line.view_masked (l : Line) : l.masked.view = l.view := by
  simp [view, startsStatement, firstKeyword, definesCursor]

@[simp] theorem Line.ending_masked (l : Line) : l.masked.ending = l.ending := by
  simp [ending, endsInSemicolon, firstKeyword, definesCursor, hasKeyword]

@[simp] theorem Line.classify_masked (l : Line) : l.masked.classify = l.classify := by
  simp [classify, firstKeyword, definesCursor, hasKeyword]

@[simp] theorem Stretch.lines_masked (x : Stretch) : x.masked.lines = x.lines.map Line.masked := rfl

@[simp] theorem Stretch.last_masked (x : Stretch) : x.masked.last = x.last.masked := by
  obtain ⟨first, more⟩ := x
  rcases List.eq_nil_or_concat more with rfl | ⟨ls, l, rfl⟩ <;>
    simp [Stretch.masked, Stretch.last, List.getLastD_eq_getLast?]

theorem tokensOf_masked (ls : List Line) : tokensOf (ls.map Line.masked) = (tokensOf ls).map Token.masked := by
  simp [tokensOf, List.map_flatMap, List.flatMap_map, Line.masked]

def Opening.masked : Opening → Opening
  | .code classified face => .code classified.masked face.masked
  | o => o

theorem Opening.alike_of_masked {o o' : Opening} (h : o.masked = o'.masked) : o.Alike o' := by
  cases o with
  | code c f =>
    cases o' with
    | code c' f' =>
      obtain ⟨hc, hf⟩ := Opening.code.inj h
      exact .code (by rw [← c.classify_masked, hc, c'.classify_masked]) (by rw [← f.view_masked, hf, f'.view_masked])
    | _ => cases h
  | blank => cases o' <;> first | exact .blank | cases h
  | lineComment => cases o' <;> first | exact .lineComment | cases h
  | comment => cases o' <;> first | exact .comment | cases h
  | openComment => cases o' <;> first | exact .openComment | cases h

theorem Stretch.opening_masked (x : Stretch) : x.masked.opening = x.opening.masked := by
  have hfirst : x.masked.first.tokens.dropWhile Token.isSpace = (x.first.tokens.dropWhile Token.isSpace).map Token.masked := by
    have : Token.isSpace ∘ Token.masked = Token.isSpace := funext Token.isSpace_masked
    rw [masked, Line.masked, List.dropWhile_map, this]
  rw [opening, opening, hfirst]
  cases x.first.tokens.dropWhile Token.isSpace with
  | nil => rfl
  | cons t ts =>
    cases t with
    | blockComment c =>
      by_cases hu : (Token.blockComment c).isUnterminated
      · rw [List.map_cons, Token.masked_of_comment hu]
        simp only [hu, ite_true]
        rfl
      · have hsame : (Token.blockComment c).masked = .blockComment c := by rw [Token.masked, if_neg hu]
        have hcode : ∀ ls : List Line, ((ls.map Line.masked).flatMap Line.tokens).any Token.isCode =
            (ls.flatMap Line.tokens).any Token.isCode := by
          intro ls
          rw [← tokensOf, tokensOf_masked]
          simp [tokensOf, Function.comp_def]
        have hafter : (if c.contains '\n' then (x.masked.more.take (c.count '\n')).flatMap Line.tokens
              else ts.map Token.masked).any Token.isCode =
            (if c.contains '\n' then (x.more.take (c.count '\n')).flatMap Line.tokens else ts).any Token.isCode := by
          split
          · rw [masked, ← List.map_take, hcode]
          · simp [Function.comp_def]
        have hlast := x.last_masked
        rw [List.map_cons, hsame]
        simp only [hu, hafter, hlast]
        generalize (if c.contains '\n' then (x.more.take (c.count '\n')).flatMap Line.tokens else ts).any Token.isCode = after
        rw [masked, ← List.map_drop]
        cases after with
        | true => rfl
        | false => cases x.more.drop (c.count '\n') <;> rfl
    | _ => rfl

theorem Stretch.alike_of_masked {x y : Stretch} (h : x.masked = y.masked) : x.Alike id y := by
  have hlines : x.lines.map Line.masked = y.lines.map Line.masked := by rw [← x.lines_masked, h, y.lines_masked]
  refine ⟨?_, fun s s' hs => ?_, ?_, ?_⟩
  · have := congrArg (List.map Line.text) hlines
    simpa [Function.comp_def, Line.masked] using this
  · have hfold : ∀ (ts : List Token) (s : Tally), (ts.map Token.masked).foldl Tally.step s = ts.foldl Tally.step s := by
      intro ts s
      simp only [List.foldl_map, Tally.step_masked]
    have htokens := congrArg tokensOf hlines
    rw [tokensOf_masked, tokensOf_masked] at htokens
    rw [← hfold, htokens, hfold, Tally.foldl_look, Tally.foldl_look, hs]
  · exact Opening.alike_of_masked (by rw [← x.opening_masked, h, y.opening_masked])
  · rw [← x.last.ending_masked, ← x.last_masked, h, y.last_masked, y.last.ending_masked]

theorem blocksFrom_masked {xs ys : List Stretch} (h : xs.map Stretch.masked = ys.map Stretch.masked) :
    blocksFrom {} xs = blocksFrom {} ys := by
  have := blocksFrom_alike (f := id) shade_id (d := {}) ⟨rfl, rfl, rfl⟩
    (List.Forall₂.imp (fun _ _ => Stretch.alike_of_masked)
      (List.forall₂_map_left_iff.mp (List.forall₂_map_right_iff.mp (List.forall₂_eq_eq_eq ▸ h))))
  rwa [Block.map_under_id, Block.map_under_id] at this

/-! ## The newline behind it -/

theorem splitLines_newline (s : Text) : splitLines (s ++ ['\n']) = splitLines s ++ [[]] := by
  induction s with
  | nil => rfl
  | cons c s ih =>
    obtain ⟨p, ps, e⟩ := List.exists_cons_of_ne_nil (splitLines_ne_nil s)
    rw [e, List.cons_append] at ih
    rw [List.cons_append, splitLines_cons ih, splitLines_cons e]
    split <;> rfl

theorem spread_masked (inside : Bool) (l : Line) (ps : List Text) :
    (Line.spread inside l ps).map Line.masked = Line.spread inside l.masked ps := by
  induction ps with
  | nil => rfl
  | cons p ps ih =>
    cases ps with
    | nil => rfl
    | cons q ps => simp [Line.spread, ih, Line.masked]

theorem behind_masked {l l' : Line} (h : l.masked = l'.masked) (t : Token) :
    (l.behind t).map Line.masked = (l'.behind t).map Line.masked := by
  obtain ⟨htext, htokens, hcontinued⟩ := Line.mk.inj h
  unfold Line.behind
  split
  · simp [spread_masked, h]
  · simp [Line.masked, htext, htokens, hcontinued]

theorem lines_masked_congr {ts us : List Token} {ks : List Line}
    (h : (lines us).map Line.masked = (lines ts).map Line.masked ++ ks) (t : Token) :
    (lines (t :: us)).map Line.masked = (lines (t :: ts)).map Line.masked ++ ks := by
  obtain ⟨l, ls, e⟩ := List.exists_cons_of_ne_nil (lines_ne_nil ts)
  obtain ⟨l', ls', e'⟩ := List.exists_cons_of_ne_nil (lines_ne_nil us)
  rw [e, e', List.map_cons, List.map_cons, List.cons_append, List.cons.injEq] at h
  rw [lines_cons_behind e, lines_cons_behind e', List.map_append, List.map_append, behind_masked h.1, h.2, List.append_assoc]

theorem behind_parts {t : Token} {p : Text} {ps : List Text} (h : splitLines t.text = p :: ps) (hps : ps ≠ []) (l : Line) :
    l.behind t = { text := p, tokens := [t] } :: Line.spread (!t.isSpace) l ps := by
  obtain ⟨q, ps, rfl⟩ := List.exists_cons_of_ne_nil hps
  rw [Line.behind, h]

theorem lines_extended {c : Text} (hu : (Token.blockComment c).isUnterminated)
    (hu' : (Token.blockComment (c ++ ['\n'])).isUnterminated) (hn : c.getLast? ≠ some '\n') (ts : List Token) :
    (lines (ts ++ [.blockComment (c ++ ['\n'])])).map Line.masked =
      (lines (ts ++ [.blockComment c])).map Line.masked ++ [({} : Line)] := by
  induction ts with
  | nil =>
    have hnil : lines [] = {} :: [] := rfl
    obtain ⟨p, ps, e⟩ := List.exists_cons_of_ne_nil (splitLines_ne_nil c)
    have e' : splitLines (Token.blockComment (c ++ ['\n'])).text = p :: (ps ++ [[]]) := by
      rw [Token.text, splitLines_newline, e, List.cons_append]
    have hjoin := joinLines_splitLines c
    rw [e] at hjoin
    rw [List.nil_append, List.nil_append, lines_cons_behind hnil, lines_cons_behind hnil, List.append_nil, List.append_nil,
      behind_parts e' (by simp), spread_append]
    rcases List.eq_nil_or_concat ps with rfl | ⟨ms, z, rfl⟩
    · rw [joinLines_singleton] at hjoin
      simp [Line.behind, Token.text, e, Line.masked, Token.masked, hu, hu', hjoin]
    · rw [List.concat_eq_append] at hjoin e ⊢
      have hz : z ≠ [] := by
        rintro rfl
        rw [← List.cons_append, joinLines_append (List.cons_ne_nil _ _) (List.cons_ne_nil _ _), joinLines_singleton] at hjoin
        simp [← hjoin] at hn
      rw [behind_parts (t := .blockComment c) e (by simp), spread_append]
      simp [Line.masked, Token.masked, hu, hu', hz, Token.isSpace]
  | cons t ts ih => exact lines_masked_congr ih t

theorem bare_masked (l : Line) : l.masked.bare = l.bare.masked := by
  have hplain : ∀ t : Token, t.masked.plain = t.plain.masked := by
    intro t
    rcases t.masked_cases with h | ⟨c, rfl, -⟩
    · rw [h]
      cases t with
      | blockComment c => exact h.symm
      | _ => rfl
    · rw [Token.masked]
      split <;> simp_all [Token.plain, Token.masked]
  have htokens : plains (l.tokens.map Token.masked) = (plains l.tokens).map Token.masked := by
    induction l.tokens with
    | nil => rfl
    | cons t ts ih =>
      rw [List.map_cons, plains_cons, plains_cons, Token.isSpace_masked, ih, hplain]
      split <;> rfl
  simp only [Line.masked, Line.bare, htokens]

theorem stretchesOf_masked (s : Text) :
    (stretchesOf s).map Stretch.masked = stretches (((lines (tokenize s)).map Line.bare).map Line.masked) := by
  rw [stretchesOf_eq]
  exact (stretches_map (f := Line.masked) (fun _ => rfl) _).symm

/-- The stretches of a text that ends in a comment are those with one newline more in the comment. -/
theorem stretchesOf_extended {s : Text} (hc : ¬Closed (s ++ ['\n'])) (hn : s.getLast? ≠ some '\n')
    (hlast : ∀ u, (solidsOf (s ++ ['\n'])).getLast? = some u → u.isUnterminated → u.isComment) :
    (stretchesOf (s ++ ['\n'])).map Stretch.masked = (stretchesOf s).map Stretch.masked ++ [⟨{}, []⟩] := by
  obtain ⟨ts, t, t', e, hu, hu', hf, ht, hcomment⟩ := exists_extended hc
  have hc' : t'.isComment := hlast t' (by rw [solidsOf_newline_of_last e hf ht hu, getLast_solids_open hu']) hu'
  obtain ⟨c, rfl⟩ := eq_blockComment hu (hcomment ▸ hc')
  obtain ⟨c', rfl⟩ := eq_blockComment hu' hc'
  obtain rfl : c' = c ++ ['\n'] := ht
  obtain ⟨hl, espell⟩ := legible_newline_of_last e hf rfl hu
  rw [getLast_of_last e] at hn
  have hlines : ((lines (tokenize (s ++ ['\n']))).map Line.bare).map Line.masked =
      ((lines (tokenize s)).map Line.bare).map Line.masked ++ [({} : Line)] := by
    have hswap : ∀ ls : List Line, (ls.map Line.bare).map Line.masked = (ls.map Line.masked).map Line.bare := by
      intro ls
      simp [bare_masked]
    rw [← espell, hl.lines_tokenize, hswap, lines_extended hu hu' hn, e, hswap, List.map_append]
    rfl
  rw [stretchesOf_masked, hlines, stretches_append _ rfl, stretchesOf_masked]
  simp [stretches]

end SqlLayout
