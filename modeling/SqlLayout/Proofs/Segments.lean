import SqlLayout.Block.Segment
import SqlLayout.Proofs.Inks
import SqlLayout.Proofs.Stretches

/-!
# Blocks hold the tokens of a script

A draft is a piece of the lines of a script, and what is left is the rest of
the pieces (`Next`). Pushing a stretch joins two pieces, and finishing a
block drops the first one. Around a block only blank lines are left out, so
the blocks of a script hold its tokens, in order, but for tokens of nothing
but blanks (`cut_segment`).
-/

namespace SqlLayout

/-! ## The end of a text -/

def finished (s out : Text) : Text :=
  if s.getLast? = some '\n' && out.getLast? ≠ some '\n' then out ++ ['\n'] else out

theorem finished_of_getLast {s out : Text} (h : out.getLast? = s.getLast?) : finished s out = out := by
  rw [finished, if_neg]
  simp [h]

theorem finished_newline {s out : Text} (hs : s.getLast? = some '\n') (ho : out.getLast? ≠ some '\n') :
    finished s out = out ++ ['\n'] := by
  rw [finished, if_pos]
  simp [hs, ho]

theorem finished_append (s a : Text) {out : Text} (h : out ≠ []) : finished s (a ++ out) = a ++ finished s out := by
  unfold finished
  rw [List.getLast?_append_of_ne_nil a h]
  split
  · rw [List.append_assoc]
  · rfl

theorem ne_nil_of_not_closed_text {s : Text} (h : ¬Closed s) : s ≠ [] := by
  rintro rfl
  exact h (by simp [Closed])

/-! ## Blocks of a text -/

def solidsIn (bs : List Block) : List Token := bs.flatMap fun b => solidsOf b.content

/-- The blocks hold the tokens of the text, and none ends inside a token. -/
structure Closes (s : Text) (bs : List Block) : Prop where
  closed : ∀ b ∈ bs, Closed b.content
  reads : Sheds (solidsOf s) (solidsIn bs)

/-- The blocks hold the tokens of the text, and the last of them ends inside
a token. If that is a comment, a newline at the end of the text may be left
out of it. -/
structure Ends (s : Text) (init : List Block) (b : Block) : Prop where
  closed : ∀ c ∈ init, Closed c.content
  notClosed : ¬Closed b.content
  reads : Sheds (solidsOf s) (solidsIn init ++ solidsOf (finished s b.content))
  comment : finished s b.content ≠ b.content → ∃ c, (solidsOf b.content).getLast? = some (.blockComment c)

def Cut (s : Text) (bs : List Block) : Prop := Closes s bs ∨ ∃ init b, bs = init ++ [b] ∧ Ends s init b

theorem Closes.closed_text {s : Text} {bs : List Block} (h : Closes s bs) : Closed s := by
  intro t ht
  by_contra hu
  have hu : t.isUnterminated := by simpa using hu
  have hin := h.reads.mem ht (isInk_of_isUnterminated (formed_of_mem (mem_solids.mp ht).1) hu)
  obtain ⟨b, hb, ht⟩ := List.mem_flatMap.mp hin
  rw [h.closed b hb t ht] at hu
  cases hu

theorem solidsIn_append (bs cs : List Block) : solidsIn (bs ++ cs) = solidsIn bs ++ solidsIn cs := List.flatMap_append

theorem Closes.append {ls ms : List Line} {bs cs : List Block} (h : Closes (textOf ls) bs) (h' : Cut (textOf ms) cs) :
    Cut (textOf (ls ++ ms)) (bs ++ cs) := by
  have e := @solidsOf_textOf_append ls ms h.closed_text
  rcases h' with h' | ⟨init, b, rfl, h'⟩
  · refine Or.inl ⟨fun b hb => ?_, ?_⟩
    · exact (List.mem_append.mp hb).elim (h.closed b) (h'.closed b)
    · rw [solidsIn_append, e]
      exact h.reads.append h'.reads
  · have hm : textOf ms ≠ [] := by
      intro hm
      have hr := h'.reads
      rw [hm, finished, if_neg (by simp), solidsOf_nil] at hr
      have hnil := List.sublist_nil.mp hr.sublist
      refine h'.notClosed ?_
      rw [Closed, (List.append_eq_nil_iff.mp hnil).2]
      exact fun t ht => by cases ht
    have hlast : (textOf (ls ++ ms)).getLast? = (textOf ms).getLast? := by
      have hms : ms ≠ [] := by rintro rfl; exact hm rfl
      by_cases hls : ls = []
      · simp [hls]
      · rw [textOf_append hls hms, List.getLast?_append_of_ne_nil _ (List.cons_ne_nil _ _)]
        exact List.getLast?_append_of_ne_nil ['\n'] hm
    have hfin : finished (textOf (ls ++ ms)) b.content = finished (textOf ms) b.content := by
      rw [finished, hlast, ← finished]
    refine Or.inr ⟨bs ++ init, b, by simp, fun c hc => ?_, h'.notClosed, ?_, ?_⟩
    · exact (List.mem_append.mp hc).elim (h.closed c) (h'.closed c)
    · rw [hfin, e, solidsIn_append, List.append_assoc]
      exact h.reads.append h'.reads
    · rw [hfin]
      exact h'.comment

structure Fills (s : Text) (bs : List Block) : Prop where
  closed : Closed s → Closes s bs
  notClosed : ¬Closed s → ∃ b w, bs = [b] ∧ IsGap isBlank w ∧ s = w ++ b.content

theorem fills_singleton (k : BlockKind) (s : Text) : Fills s [⟨k, s⟩] where
  closed := fun h => ⟨by simpa using h, by simpa [solidsIn] using Sheds.refl (solidsOf s)⟩
  notClosed := fun _ => ⟨_, [], rfl, Or.inl rfl, rfl⟩

theorem Fills.cut {s : Text} {bs : List Block} (h : Fills s bs) : Cut s bs := by
  by_cases hc : Closed s
  · exact Or.inl (h.closed hc)
  · obtain ⟨b, w, rfl, hw, e⟩ := h.notClosed hc
    have hb : ¬Closed b.content := by rwa [e, hw.closed_iff] at hc
    have hfin : finished s b.content = b.content := by
      rw [finished_of_getLast]
      rw [e, List.getLast?_append_of_ne_nil _ (ne_nil_of_not_closed_text hb)]
    refine Or.inr ⟨[], b, rfl, by simp, hb, ?_, fun h => absurd hfin h⟩
    rw [hfin, e]
    exact hw.sheds _

theorem Fills.cut_newline {s : Text} {bs : List Block} (h : Fills s bs) (hc : ¬Closed (s ++ ['\n']))
    (hn : s.getLast? ≠ some '\n') {c : Text} (hcomment : (solidsOf s).getLast? = some (.blockComment c)) :
    Cut (s ++ ['\n']) bs := by
  obtain ⟨b, w, rfl, hw, e⟩ := h.notClosed fun h => hc h.newline
  have hb : ¬Closed b.content := by
    rw [← hw.closed_iff, ← e]
    exact fun h => hc h.newline
  have hlast : b.content.getLast? ≠ some '\n' := by
    rwa [e, List.getLast?_append_of_ne_nil _ (ne_nil_of_not_closed_text hb)] at hn
  refine Or.inr ⟨[], b, rfl, by simp, hb, ?_, fun _ => ⟨c, ?_⟩⟩
  · rw [finished_newline (by simp) hlast, e, List.append_assoc]
    exact hw.sheds _
  · have hne : solidsOf b.content ≠ [] := by
      intro hnil
      refine hb ?_
      rw [Closed, hnil]
      exact fun t ht => by cases ht
    rwa [e, hw.solidsOf_append, List.getLast?_append_of_ne_nil _ hne] at hcomment

/-! ## Blank lines around a block -/

section
variable {p : Char → Bool} {ls : List Text} (hp : p '\n') (h : ∀ l ∈ ls, isBlankText l → l.all p)
include hp h

theorem drop_blank_lines : ls.dropWhile isBlankText = [] ∧ (joinLines ls).all p ∨
    ∃ w, IsGap p w ∧ joinLines ls = w ++ joinLines (ls.dropWhile isBlankText) := by
  have e := List.takeWhile_append_dropWhile (p := isBlankText) (l := ls)
  have hall : (joinLines (ls.takeWhile isBlankText)).all p := by
    refine all_joinLines hp fun l hl => h l ?_ (List.mem_takeWhile_imp hl)
    rw [← e]
    exact List.mem_append_left _ hl
  generalize ls.takeWhile isBlankText = above at hall e
  generalize ls.dropWhile isBlankText = below at e
  subst e
  by_cases hb : below = []
  · subst hb
    exact Or.inl ⟨rfl, by rwa [List.append_nil]⟩
  by_cases ha : above = []
  · subst ha
    exact Or.inr ⟨[], Or.inl rfl, rfl⟩
  · exact Or.inr ⟨joinLines above ++ ['\n'], Or.inr ⟨_, hall, rfl⟩, by rw [joinLines_append ha hb]; simp⟩

theorem drop_blank_end (hne : dropEndWhile isBlankText ls ≠ []) :
    joinLines ls = joinLines (dropEndWhile isBlankText ls) ∨
      ∃ w, w.all p ∧ joinLines ls = joinLines (dropEndWhile isBlankText ls) ++ '\n' :: w := by
  have e := dropEndWhile_append_takeEndWhile isBlankText ls
  have hall : (joinLines (takeEndWhile isBlankText ls)).all p := by
    refine all_joinLines hp fun l hl => h l ?_ (List.mem_takeWhile_imp (List.mem_reverse.mp hl))
    rw [← e]
    exact List.mem_append_right _ hl
  generalize takeEndWhile isBlankText ls = below at hall e
  by_cases hb : below = []
  · rw [hb, List.append_nil] at e
    exact Or.inl (by rw [e])
  · have hj := joinLines_append hne hb
    rw [e] at hj
    exact Or.inr ⟨_, hall, hj⟩

end

/-- A draft is a block with blank lines around it, and with blank lines behind
it only if it ends in no token. -/
theorem Draft.block?_cases (d : Draft) {p : Char → Bool} (hp : p '\n')
    (h : ∀ l ∈ d.lines.map Line.text, isBlankText l → l.all p) :
    d.block? = none ∧ (textOf d.lines).all p ∨
      ∃ b w, d.block? = some b ∧ IsGap p w ∧
        (textOf d.lines = w ++ b.content ∨ d.tally.unterminated = false ∧
          ∃ v, v.all p ∧ textOf d.lines = w ++ (b.content ++ '\n' :: v)) := by
  rw [Draft.block?]
  by_cases ht : (d.lines.map Line.text).dropWhile isBlankText = []
  · rw [if_pos ht]
    refine Or.inl ⟨rfl, ?_⟩
    rcases drop_blank_lines hp h with ⟨-, h⟩ | ⟨w, hw, e⟩
    · exact h
    · rw [ht, joinLines_nil, List.append_nil] at e
      rw [textOf, e]
      exact hw.all hp
  obtain ⟨w, hw, e⟩ := (drop_blank_lines hp h).resolve_left fun h => ht h.1
  change textOf d.lines = _ at e
  rw [if_neg ht, e]
  cases hu : d.tally.unterminated with
  | true => exact Or.inr ⟨_, w, rfl, hw, Or.inl rfl⟩
  | false =>
    have hne : dropEndWhile isBlankText ((d.lines.map Line.text).dropWhile isBlankText) ≠ [] := by
      -- the first line is not blank
      obtain ⟨l, ls, hl⟩ := List.exists_cons_of_ne_nil ht
      have hfirst := List.head?_dropWhile_not isBlankText (d.lines.map Line.text)
      rw [hl] at hfirst ⊢
      intro hnil
      have := List.rdropWhile_eq_nil_iff.mp hnil l List.mem_cons_self
      simp [this] at hfirst
    have hbelow : ∀ l ∈ (d.lines.map Line.text).dropWhile isBlankText, isBlankText l → l.all p :=
      fun l hl => h l ((List.dropWhile_suffix isBlankText).subset hl)
    refine Or.inr ⟨_, w, rfl, hw, ?_⟩
    rcases drop_blank_end hp hbelow hne with e' | ⟨v, hv, e'⟩
    · exact Or.inl (by rw [e'])
    · exact Or.inr ⟨rfl, v, hv, by rw [e']⟩

theorem Draft.fills {d : Draft} (ht : d.tally.unterminated = false → Closed (textOf d.lines)) :
    Fills (textOf d.lines) d.block?.toList := by
  rcases d.block?_cases (p := isBlank) rfl fun _ _ h => h with ⟨e, hs⟩ | ⟨b, w, e, hw, hb⟩
  · rw [e]
    exact ⟨fun _ => ⟨by simp, sheds_blank hs⟩, fun h => absurd (closed_of_blank hs) h⟩
  rw [e]
  rcases hb with hb | ⟨hu, v, hv, hb⟩
  · rw [hb]
    refine ⟨fun hc => ⟨by simpa using hw.closed_iff.mp hc, by simpa [solidsIn] using hw.sheds b.content⟩, fun _ => ?_⟩
    exact ⟨b, w, rfl, hw, rfl⟩
  · refine ⟨fun hc => ?_, fun hc => absurd (ht hu) hc⟩
    rw [hb] at hc ⊢
    have hc := hw.closed_iff.mp hc
    have e := solidsOf_blank_end hc hv
    refine ⟨fun c hb => ?_, ?_⟩
    · obtain rfl : c = b := by simpa using hb
      rw [Closed, e, List.forall_mem_append] at hc
      exact hc.1
    · refine (hw.sheds _).trans ?_
      rw [e]
      simpa [solidsIn] using (Sheds.refl (solidsOf b.content)).append (sheds_blank hv)

/-! ## A draft in front of stretches -/

@[simp] theorem Tally.keyword_unterminated (s : Tally) (k : Option Keyword) :
    (s.keyword k).unterminated = s.unterminated := by
  unfold Tally.keyword
  split <;> rfl

theorem Tally.step_unterminated (s : Tally) (t : Token) :
    (s.step t).unterminated = (s.unterminated || t.isUnterminated) := by
  unfold Tally.step
  split <;> simp [Tally.code]

theorem Tally.foldl_unterminated (s : Tally) (ts : List Token) :
    (ts.foldl Tally.step s).unterminated = (s.unterminated || ts.any Token.isUnterminated) := by
  induction ts generalizing s with
  | nil => simp
  | cons t ts ih => rw [List.foldl_cons, ih, Tally.step_unterminated, List.any_cons, Bool.or_assoc]

structure Next (d : Draft) (ss : List Stretch) : Prop where
  tally : d.tally.unterminated = (tokensOf d.lines).any Token.isUnterminated
  whole : Whole (d.lines :: ss.map Stretch.lines)
  tied : ∀ s ∈ ss, s.Tied
  fits : ∀ s ∈ ss, ∀ l ∈ s.lines, l.Fits
  neat : ∀ s ∈ ss, s.first.Neat

namespace Next

variable {d : Draft} {s : Stretch} {ss : List Stretch}

theorem push (h : Next d (s :: ss)) : Next (d.push s.lines) ss where
  tally := by
    rw [Draft.push, Tally.foldl_unterminated, h.tally, tokensOf_append, List.any_append]
    rfl
  whole := h.whole.merge
  tied := fun s' hs => h.tied s' (List.mem_cons_of_mem _ hs)
  fits := fun s' hs => h.fits s' (List.mem_cons_of_mem _ hs)
  neat := fun s' hs => h.neat s' (List.mem_cons_of_mem _ hs)

theorem with_kind (h : Next d ss) (k : Option BlockKind) : Next { d with kind := k } ss := ⟨h.1, h.2, h.3, h.4, h.5⟩

theorem cases (h : Next d ss) :
    (Closed (textOf d.lines) ∧ ∀ k, Next { kind := k } ss) ∨ ss = [] ∨
      ss = [⟨{}, []⟩] ∧ ¬Closed (textOf d.lines ++ ['\n']) := by
  have hw := h.whole
  generalize e : ss.map Stretch.lines = rest at hw
  cases hw with
  | cons reads closed whole =>
    subst e
    rcases closed with closed | closed
    · exact Or.inl ⟨closed, fun k => ⟨rfl, .cons (by simp) (Or.inl (by simp [Closed])) whole, h.tied, h.fits, h.neat⟩⟩
    · exact Or.inr (Or.inl (by simpa using closed))
  | cut reads notClosed =>
    obtain ⟨⟨first, more⟩, hs, e⟩ := List.map_eq_singleton_iff.mp e
    obtain ⟨rfl, rfl⟩ : first = {} ∧ more = [] := List.cons.inj e
    exact Or.inr (Or.inr ⟨hs, notClosed⟩)

theorem closed (h : Next d ss) (hu : ∀ t ∈ tokensOf d.lines, t.isUnterminated = false) : Closed (textOf d.lines) := by
  have hsolids : ∀ t ∈ solids (tokensOf d.lines), t.isUnterminated = false := fun t ht => hu t (mem_solids.mp ht).1
  have hw := h.whole
  generalize ss.map Stretch.lines = rest at hw
  cases hw with
  | cons reads _ _ => exact fun t ht => hsolids t (reads ▸ ht)
  | cut reads notClosed => exact absurd (fun t ht => hsolids t (reads ▸ ht)) notClosed

theorem reads (h : Next d ss) (hc : Closed (textOf d.lines)) : solidsOf (textOf d.lines) = solids (tokensOf d.lines) := by
  have hw := h.whole
  generalize ss.map Stretch.lines = rest at hw
  cases hw with
  | cons reads _ _ => exact reads
  | cut reads notClosed => exact absurd hc.newline notClosed

theorem fills (h : Next d ss) : Fills (textOf d.lines) d.block?.toList := by
  refine Draft.fills fun hu => h.closed fun t ht => ?_
  rw [h.tally, List.any_eq_false] at hu
  simpa using hu t ht

theorem finish (h : Next d ss) {bs : List Block} (hf : Fills (textOf d.lines) bs)
    (ih : Next {} ss → Cut (textOf (ss.flatMap Stretch.lines)) (blocksFrom {} ss))
    (hn : ss = [⟨{}, []⟩] → ¬Closed (textOf d.lines ++ ['\n']) →
      (textOf d.lines).getLast? ≠ some '\n' ∧ ∃ c, (solidsOf (textOf d.lines)).getLast? = some (.blockComment c)) :
    Cut (textOf (d.lines ++ ss.flatMap Stretch.lines)) (bs ++ blocksFrom {} ss) := by
  rcases h.cases with ⟨hc, hnext⟩ | rfl | ⟨rfl, hc⟩
  · exact (hf.closed hc).append (ih (hnext none))
  · simpa [blocksFrom, Draft.block?] using hf.cut
  · obtain ⟨hlast, c, hcomment⟩ := hn rfl hc
    have := hf.cut_newline hc hlast hcomment
    rw [← textOf_newline (ne_nil_of_not_closed hc)] at this
    simpa [blocksFrom, Draft.block?, Stretch.opening, Stretch.lines] using this

end Next

/-! ## How a stretch opens -/

theorem Stretch.opening_blank {s : Stretch} (h : s.opening = .blank) : s.first.tokens.all Token.isSpace := by
  unfold Stretch.opening at h
  split at h
  · next e => simpa using e
  · cases h
  · simp only at h
    repeat' split at h
    all_goals cases h
  · cases h

theorem Stretch.opening_lineComment {x : Stretch} (h : x.opening = .lineComment) :
    ∃ c ts, x.first.tokens.dropWhile Token.isSpace = .lineComment c :: ts := by
  unfold Stretch.opening at h
  split at h
  · cases h
  · next c ts e => exact ⟨c, ts, e⟩
  · simp only at h
    repeat' split at h
    all_goals cases h
  · cases h

theorem Stretch.opening_comment_code {x : Stretch} (h : x.opening = .comment) {c : Text} {ts : List Token}
    (e : x.first.tokens.dropWhile Token.isSpace = .blockComment c :: ts) :
    (if c.contains '\n' then (x.more.take (c.count '\n')).flatMap Line.tokens else ts).any Token.isCode = false := by
  unfold Stretch.opening at h
  rw [e] at h
  simp only at h
  split at h
  · cases h
  · by_contra hcode
    rw [Bool.not_eq_false] at hcode
    simp only [hcode, ite_true] at h
    cases h

theorem Stretch.opening_comment {s : Stretch} (h : s.opening = .comment) :
    ∃ c ts, s.first.tokens.dropWhile Token.isSpace = .blockComment c :: ts ∧
      (Token.blockComment c).isUnterminated = false ∧ s.more.length ≤ c.count '\n' := by
  unfold Stretch.opening at h
  split at h
  · cases h
  · cases h
  · next c ts e =>
    cases hu : (Token.blockComment c).isUnterminated with
    | true => simp [hu] at h
    | false =>
      cases hm : s.more.drop (c.count '\n') with
      | nil => exact ⟨c, ts, e, hu, List.drop_eq_nil_iff.mp hm⟩
      | cons l ls => simp only [hm] at h; split_ifs at h
  · cases h

/-- A stretch with nothing but comments holds no code. -/
theorem Stretch.code_of_comment {s : Stretch} (ho : s.opening = .comment) (hneat : s.first.Neat) {t : Token}
    (ht : t ∈ tokensOf s.lines) : t.isCode = false := by
  obtain ⟨c, ts, e, -, hlen⟩ := Stretch.opening_comment ho
  have hcode := Stretch.opening_comment_code ho e
  obtain ⟨sp, hsp, ef⟩ := tokens_eq_dropWhile e
  have hall : ∀ u ∈ ts ++ tokensOf s.more, u.isCode = false := by
    by_cases hn : c.contains '\n'
    · have hnil := hneat.newline sp (.blockComment c) ts ef (by simpa [Token.text] using hn)
      rw [if_pos hn, List.take_of_length_le hlen, List.any_eq_false] at hcode
      subst hnil
      simpa [tokensOf] using hcode
    · have hzero : c.count '\n' = 0 := List.count_eq_zero.mpr (by simpa using hn)
      rw [hzero, Nat.le_zero, List.length_eq_zero_iff] at hlen
      rw [if_neg hn, List.any_eq_false] at hcode
      simpa [hlen] using hcode
  rw [Stretch.lines, tokensOf_cons, ef, List.append_assoc, List.mem_append, List.cons_append, List.mem_cons] at ht
  rcases ht with ht | rfl | ht
  · exact isCode_of_isSpace (hsp t ht)
  · rfl
  · exact hall t ht

/-! ## Where a draft is finished -/

theorem getLast_textOf {ls : List Line} {l : Line} (hf : l.Fits) (hl : l.text ≠ []) :
    (textOf (ls ++ [l])).getLast? ≠ some '\n' := by
  have e : (textOf (ls ++ [l])).getLast? = l.text.getLast? := by
    by_cases hls : ls = []
    · simp [hls, textOf]
    · rw [textOf_append hls (List.cons_ne_nil _ _), List.getLast?_append_of_ne_nil _ (List.cons_ne_nil _ _)]
      simpa [textOf] using List.getLast?_append_of_ne_nil ['\n'] hl
  rw [e]
  exact fun h => hf.newline_notMem (List.mem_of_getLast? h)

theorem Stretch.exists_last (s : Stretch) : ∃ ls, s.lines = ls ++ [s.last] := by
  obtain ⟨first, more⟩ := s
  rcases List.eq_nil_or_concat more with rfl | ⟨ls, l, rfl⟩
  · exact ⟨[], rfl⟩
  · exact ⟨first :: ls, by simp [Stretch.lines, Stretch.last, List.getLastD_eq_getLast?]⟩

/-- In front of nothing but an empty line only a semicolon completes a draft. -/
theorem semicolon_of_isComplete {d : Draft} {s : Stretch} (h : d.isComplete s.last [⟨{}, []⟩]) : s.last.endsInSemicolon := by
  simpa [Draft.isComplete, nextCodeLine, Stretch.opening] using h

theorem getLast_of_semicolon {s : Stretch} (hf : ∀ l ∈ s.lines, l.Fits) (h : s.last.endsInSemicolon) (ls : List Line) :
    (textOf (ls ++ s.lines)).getLast? ≠ some '\n' := by
  have hmem : Token.semicolon ∈ s.last.tokens := by
    rw [Line.endsInSemicolon, decide_eq_true_eq] at h
    exact (List.mem_filter.mp (List.mem_of_getLast? h)).1
  obtain ⟨init, e⟩ := s.exists_last
  have hlast := hf s.last (by simp [e])
  rw [e, ← List.append_assoc]
  exact getLast_textOf hlast (hlast.semicolon hmem)

theorem comment_of_semicolon {s : Stretch} (h : s.last.endsInSemicolon) (ls : List Line) {u : Token}
    (hu : (solids (tokensOf (ls ++ s.lines))).getLast? = some u) (hopen : u.isUnterminated) : u.isComment := by
  obtain ⟨init, e⟩ := s.exists_last
  by_contra hc
  rw [Bool.not_eq_true] at hc
  -- the last token would be the last code
  have hcode : u.isCode := by simp [Token.isCode, Token.isTrivia, isSpace_of_isUnterminated hopen, hc]
  have hfilter : ((tokensOf (ls ++ s.lines)).filter Token.isCode).getLast? = some u := by
    obtain ⟨us, eu⟩ := List.getLast?_eq_some_iff.mp hu
    rw [← filter_isCode_solids, eu, List.filter_append, List.filter_cons_of_pos hcode, List.filter_nil, List.getLast?_concat]
  rw [Line.endsInSemicolon, decide_eq_true_eq] at h
  have hne : s.last.code ≠ [] := by
    intro hnil
    rw [hnil] at h
    cases h
  rw [e, ← List.append_assoc, tokensOf_append, List.filter_append] at hfilter
  have hone : (tokensOf [s.last]).filter Token.isCode = s.last.code := by simp [Line.code]
  rw [hone, List.getLast?_append_of_ne_nil _ hne, h] at hfilter
  obtain rfl := Option.some.inj hfilter
  cases hopen

/-- All newlines are in the comment, and it does not end in one. -/
theorem getLast_of_comment {x c : Text} {rest : List Token}
    (h : solidsOf (x ++ ['\n']) = .blockComment c :: rest) (hu : (Token.blockComment c).isUnterminated = false)
    (hcount : x.count '\n' ≤ c.count '\n') : x.getLast? ≠ some '\n' := by
  have hmem : Token.blockComment c ∈ tokenize (x ++ ['\n']) := by
    have : Token.blockComment c ∈ solidsOf (x ++ ['\n']) := by simp [h]
    exact (mem_solids.mp this).1
  have hc := closed_blockComment (formed_of_mem hmem) hu
  obtain ⟨a, b, e⟩ := List.append_of_mem hmem
  have espell := spell_tokenize (x ++ ['\n'])
  rw [e, spell_append, spell_cons, Token.text] at espell
  rcases List.eq_nil_or_concat (spell b) with hb | ⟨r, d, hb⟩
  · -- the comment would end in the newline
    have := congrArg List.getLast? espell
    rw [hb, List.append_nil, List.getLast?_append, hc] at this
    simp at this
  · rw [hb, List.concat_eq_append, ← List.append_assoc, ← List.append_assoc] at espell
    obtain ⟨rfl, -⟩ := List.append_inj' espell rfl
    intro hlast
    rcases List.eq_nil_or_concat r with rfl | ⟨q, f, rfl⟩
    · rw [List.append_nil, List.getLast?_append, hc] at hlast
      simp at hlast
    · obtain rfl : f = '\n' := by simpa using hlast
      simp only [List.concat_eq_append, List.count_append, List.count_cons, List.count_nil] at hcount
      simp at hcount
      omega

theorem getLast_of_opening {s : Stretch} (hf : ∀ l ∈ s.lines, l.Fits) (ho : s.opening = .comment)
    (hr : solidsOf (textOf s.lines ++ ['\n']) = solids (tokensOf s.lines)) :
    (textOf s.lines).getLast? ≠ some '\n' := by
  have hcount : (textOf s.lines).count '\n' = s.more.length := by
    have hn : ∀ x ∈ s.lines.map Line.text, '\n' ∉ x := by
      intro x hx
      obtain ⟨l, hl, rfl⟩ := List.mem_map.mp hx
      exact (hf l hl).newline_notMem
    simpa [textOf, Stretch.lines] using count_joinLines hn
  obtain ⟨c, ts, e, hu, hlen⟩ := Stretch.opening_comment ho
  have htokens : solids (tokensOf s.lines) = .blockComment c :: solids (ts ++ tokensOf s.more) := by
    have hspace : solids (s.first.tokens.takeWhile Token.isSpace) = [] :=
      solids_eq_nil.mpr (List.all_eq_true.mpr fun t => List.mem_takeWhile_imp)
    rw [Stretch.lines, tokensOf_cons, ← List.takeWhile_append_dropWhile (p := Token.isSpace) (l := s.first.tokens), e]
    simp [hspace, solids_cons, Token.isSpace]
  exact getLast_of_comment (hr.trans htokens) hu (hcount ▸ hlen)

/-! ## All blocks -/

theorem Next.skip {d : Draft} {s : Stretch} {ss : List Stretch} (h : Next d (s :: ss)) (hd : d.lines = [])
    (ho : s.opening = .blank) : Next d ss ∧ Closes (textOf s.lines) [] := by
  have hspace : solids (tokensOf s.lines) = [] := by
    have htokens := Stretch.opening_blank ho
    rw [Stretch.lines, h.tied s List.mem_cons_self htokens, tokensOf_cons, tokensOf_nil, List.append_nil]
    exact solids_eq_nil.mpr htokens
  have hw := h.push.whole
  have e : (d.push s.lines).lines = s.lines := by simp [Draft.push, hd]
  rw [e] at hw
  generalize hrest : ss.map Stretch.lines = rest at hw
  cases hw with
  | cons reads closed whole =>
    have hsolids := reads.trans hspace
    have hnil : Closed (textOf ([] : List Line)) := by simp [Closed]
    refine ⟨⟨h.tally, hd ▸ hrest ▸ .cons (by simp) (Or.inl hnil) whole, h.push.tied, h.push.fits, h.push.neat⟩, by simp, ?_⟩
    rw [hsolids]
    exact .refl []
  | cut reads notClosed =>
    exact absurd (fun t ht => by rw [reads, hspace] at ht; cases ht) notClosed

theorem Draft.push_push (d : Draft) (ls ms : List Line) : (d.push ls).push ms = d.push (ls ++ ms) := by
  simp [push]

theorem Next.push_append {d : Draft} {xs ys : List Stretch} (h : Next d (xs ++ ys)) :
    Next (d.push (xs.flatMap Stretch.lines)) ys := by
  induction xs generalizing d with
  | nil => simpa [Draft.push] using h
  | cons x xs ih =>
    have := ih h.push
    rwa [Draft.push_push, ← List.flatMap_cons] at this

theorem Next.push_all {d : Draft} {ss : List Stretch} (h : Next d ss) :
    Next (d.push (ss.flatMap Stretch.lines)) [] :=
  Next.push_append (by rwa [List.append_nil])

theorem Whole.reads_newline {ls : List Line} {rest : List (List Line)} (h : Whole (ls :: rest)) (hr : rest ≠ [])
    (hc : ¬Closed (textOf ls ++ ['\n'])) : solidsOf (textOf ls ++ ['\n']) = solids (tokensOf ls) := by
  cases h with
  | cons reads closed whole => exact absurd (closed.resolve_right hr).newline hc
  | cut reads notClosed => exact reads

theorem cut_blocksFrom {d : Draft} {ss : List Stretch} (h : Next d ss) :
    Cut (textOf (d.lines ++ ss.flatMap Stretch.lines)) (blocksFrom d ss) := by
  induction ss generalizing d with
  | nil => simpa [blocksFrom] using h.fills.cut
  | cons s ss ih =>
    have hpush : ∀ {d : Draft}, Next d (s :: ss) →
        Cut (textOf (d.lines ++ (s :: ss).flatMap Stretch.lines)) (blocksFrom (d.push s.lines) ss) := by
      intro d h
      simpa [Draft.push] using ih h.push
    rcases h.cases with ⟨hc, hnext⟩ | he | ⟨he, hc⟩
    swap
    · cases he
    swap
    · -- the empty line behind a newline that is part of a token
      obtain ⟨rfl, rfl⟩ : s = ⟨{}, []⟩ ∧ ss = [] := List.cons.inj he
      have hne : d.lines ≠ [] := ne_nil_of_not_closed hc
      simpa [blocksFrom, Stretch.opening, hne] using hpush h
    have hblock := h.fills.closed hc
    have hfinish : ∀ {d : Draft} {bs : List Block}, Next d (s :: ss) →
        Fills (textOf (d.lines ++ s.lines)) bs →
        (ss = [⟨{}, []⟩] → ¬Closed (textOf (d.lines ++ s.lines) ++ ['\n']) →
          (textOf (d.lines ++ s.lines)).getLast? ≠ some '\n' ∧
            ∀ u, (solids (tokensOf (d.lines ++ s.lines))).getLast? = some u → u.isUnterminated → u.isComment) →
        Cut (textOf (d.lines ++ (s :: ss).flatMap Stretch.lines)) (bs ++ blocksFrom {} ss) := by
      intro d bs h hf hn
      have hlast : ss = [⟨{}, []⟩] → ¬Closed (textOf (d.lines ++ s.lines) ++ ['\n']) →
          (textOf (d.lines ++ s.lines)).getLast? ≠ some '\n' ∧
            ∃ c, (solidsOf (textOf (d.lines ++ s.lines))).getLast? = some (.blockComment c) := by
        intro e hopen
        obtain ⟨h₁, h₂⟩ := hn e hopen
        have hr := h.push.whole.reads_newline (by simp [e]) hopen
        exact ⟨h₁, comment_of_newline hopen fun u hu => h₂ u (hr ▸ hu)⟩
      simpa [Draft.push] using h.push.finish hf (fun h => by simpa using ih h) hlast
    rw [blocksFrom]
    split
    · next ho =>
      split
      · next hd =>
        obtain ⟨hskip, hclose⟩ := h.skip hd ho
        have := hclose.append (ih hskip)
        simpa [hd] using this
      · exact hpush h
    · split
      · exact hpush h
      · exact hblock.append (hpush (hnext _))
    · next ho =>
      split
      · exact hpush h
      · have hn := hnext none
        refine hblock.append (hfinish hn (fills_singleton .comment _) fun e hc => ⟨?_, fun u hu hopen => ?_⟩)
        · have hr := hn.push.whole.reads_newline (by simp [e]) hc
          exact getLast_of_opening (h.fits s List.mem_cons_self) ho hr
        · have hmem := (mem_solids.mp (List.mem_of_getLast? hu)).1
          have := Stretch.code_of_comment ho (h.neat s List.mem_cons_self) hmem
          simpa [Token.isCode, Token.isTrivia, isSpace_of_isUnterminated hopen] using this
    · have := (hnext (some .generic)).push_all
      exact hblock.append this.fills.cut
    · next classified face _ =>
      -- a group of comments ends here, and the draft may be complete with this stretch
      have hcode : ∀ {d : Draft}, Next d (s :: ss) → Cut (textOf (d.lines ++ (s :: ss).flatMap Stretch.lines))
          (if (d.push s.lines).isComplete s.last ss then (d.push s.lines).block?.toList ++ blocksFrom {} ss
            else blocksFrom (d.push s.lines) ss) := by
        intro d h
        split
        · next hcomplete =>
          refine hfinish h h.push.fills fun e _ => ?_
          subst e
          have hsemi := semicolon_of_isComplete hcomplete
          exact ⟨getLast_of_semicolon (h.fits s List.mem_cons_self) hsemi d.lines, fun u => comment_of_semicolon hsemi d.lines⟩
        · exact hpush h
      by_cases hnote : d.kind = some .commentGroup
      · simp only [hnote, ite_true]
        exact hblock.append (hcode (hnext _))
      · simp only [hnote, ite_false, List.nil_append]
        exact hcode (h.with_kind (some (d.kind.getD classified.classify)))

theorem unifyNewlines_eq {s : Text} (h : '\r' ∉ s) : unifyNewlines s = s := by
  fun_induction unifyNewlines s with
  | case1 s ih => simp at h
  | case2 c s _ ih => rw [ih fun hm => h (List.mem_cons_of_mem _ hm)]
  | case3 => rfl

theorem next_tokenize (s : Text) : Next {} (stretches (lines (tokenize s))) := by
  have hleg := legible_tokenize s
  have hsound := sound_stretches hleg
  have hmem : ∀ x ∈ stretches (lines (tokenize s)), ∀ l ∈ x.lines, l ∈ lines (tokenize s) := by
    intro x hx l hl
    rw [← flatMap_stretches (lines (tokenize s))]
    exact List.mem_flatMap.mpr ⟨x, hx, hl⟩
  refine ⟨rfl, .cons (by simp) (Or.inl (by simp [Closed])) hsound.whole, hsound.tied, fun x hx l hl => ?_, fun x hx => ?_⟩
  · exact fits_of_mem_lines l (hmem x hx l hl)
  · exact neat_lines hleg x.first (hmem x hx x.first List.mem_cons_self)

/-- The blocks of a script hold its tokens in order. -/
theorem cut_segment (script : Text) : Cut (unifyNewlines script) (segment script) := by
  have := cut_blocksFrom (next_tokenize (unifyNewlines script))
  rw [List.nil_append, flatMap_stretches, textOf_lines, spell_tokenize] at this
  rwa [segment]

end SqlLayout
