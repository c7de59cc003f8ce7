import SqlLayout.Proofs.Firm

/-!
# Code on one line

Code without line comments is put on one line by writing a blank for the space
wherever it stands and trimming the ends. Of the tokens that are written, those
that trimming cuts into are neither space nor comments, so in what is left each
space is one blank (`tidy_normalize`).
-/

namespace SqlLayout

/-! ## Blanks at the front -/

theorem tokenize_append {a b : Text} (h : ∀ t ∈ (tokenize a).getLast?, t.Stops b) :
    tokenize (a ++ b) = tokenize a ++ tokenize b := by
  have := ((lexed_tokenize a).append (lexed_tokenize b) (by rwa [spell_tokenize])).tokenize_spell
  rwa [spell_append, spell_tokenize, spell_tokenize] at this

theorem isHard_iff {c : Char} : isHard c ↔ isBlank c ∧ isSpaceChar c = false := by simp [isHard]

theorem isNameChar_of_isHard {c : Char} (hc : isHard c) : c = '\x0b' ∨ isNameChar c := by
  obtain ⟨hb, hs⟩ := isHard_iff.mp hc
  by_cases hlt : c.toNat < 0x80
  · left
    by_contra hne
    have : hards [c] = 0 := hards_script (by simpa using Ne.symm hne) (by simpa using fun _ => hlt)
    simp [hc] at this
  · right
    simp only [isNameChar, isWordChar, startsWord, Bool.or_eq_true, decide_eq_true_eq]
    omega

/-- A hard blank changes the words and numbers that it is written together
with. -/
theorem tokenize_hard_cons {c : Char} (hc : isHard c) (s : Text) : ∃ a a' b, tokenize (c :: s) = a ++ b ∧
    tokenize s = a' ++ b ∧ ∀ t ∈ a ++ a', t.isSpace = false ∧ t.isLineComment = false := by
  rcases isNameChar_of_isHard hc with rfl | hn
  · refine ⟨[.operator ['\x0b']], [], tokenize s, ?_, rfl, by simp [Token.isSpace, Token.isLineComment]⟩
    refine tokenize_text_append (t := .operator ['\x0b']) ⟨'\x0b', by decide, Or.inl rfl⟩ ?_
    cases s <;> simp [Token.Stops, joinsOperator, isOperatorPair]
  · have hr : (s.takeWhile isNameChar).all isNameChar := List.all_takeWhile
    have hu : (c :: s.takeWhile isNameChar).all isNameChar := by rw [List.all_cons, hn, hr]; rfl
    have hq := head_dropWhile isNameChar s
    have e : s.takeWhile isNameChar ++ s.dropWhile isNameChar = s := List.takeWhile_append_dropWhile
    refine ⟨tokenize (c :: s.takeWhile isNameChar), tokenize (s.takeWhile isNameChar), tokenize (s.dropWhile isNameChar),
      ?_, ?_, fun t ht => ?_⟩
    · rw [← tokenize_append (stops_name hu hq), List.cons_append, e]
    · rw [← tokenize_append (stops_name hr hq), e]
    · have : (∃ w, t = .word w) ∨ (∃ w, t = .number w) ∨ t = .dot :=
        (List.mem_append.mp ht).elim (name_tokens hu) (name_tokens hr)
      rcases this with ⟨w, rfl⟩ | ⟨w, rfl⟩ | rfl <;> exact ⟨rfl, rfl⟩

theorem isLineComment_of_blank_append {w s : Text} (hw : w.all isBlank)
    (h : ∃ t ∈ solidsOf (w ++ s), t.isLineComment) : ∃ t ∈ solidsOf s, t.isLineComment := by
  induction w with
  | nil => exact h
  | cons c w ih =>
    rw [List.all_cons, Bool.and_eq_true] at hw
    refine ih hw.2 ?_
    rw [List.cons_append] at h
    cases hs : isSpaceChar c with
    | true => rwa [solidsOf_cons_space hs] at h
    | false =>
      obtain ⟨a, a', b, e, e', hab⟩ := tokenize_hard_cons (isHard_iff.mpr ⟨hw.1, hs⟩) (w ++ s)
      obtain ⟨t, ht, hc⟩ := h
      rw [solidsOf, e, mem_solids, List.mem_append] at ht
      refine ⟨t, mem_solids.mpr ⟨?_, ht.2⟩, hc⟩
      rcases ht.1 with ha | hb
      · rw [(hab t (List.mem_append_left _ ha)).2] at hc
        cases hc
      · rw [e']
        exact List.mem_append_right _ hb

def Spaced (ts : List Token) : Prop := ∀ t ∈ ts, t.isSpace → t = .whitespace [' ']

theorem Spaced.of_blank_append {w s : Text} (hw : w.all isBlank) (h : Spaced (tokenize (w ++ s))) :
    Spaced (tokenize s) := by
  induction w with
  | nil => exact h
  | cons c w ih =>
    rw [List.all_cons, Bool.and_eq_true] at hw
    refine ih hw.2 ?_
    rw [List.cons_append] at h
    cases hs : isSpaceChar c with
    | true =>
      have e : tokenize (c :: (w ++ s)) = .whitespace (c :: (w ++ s).takeWhile isSpaceChar) ::
          tokenize ((w ++ s).dropWhile isSpaceChar) := by
        rw [tokenize, scan, if_pos hs]
        rfl
      rw [e] at h
      -- the space is one blank, so no space follows it
      have hrun : (w ++ s).takeWhile isSpaceChar = [] :=
        (List.cons.inj (Token.whitespace.inj (h _ List.mem_cons_self rfl))).2
      have hrest := List.takeWhile_append_dropWhile (p := isSpaceChar) (l := w ++ s)
      rw [hrun, List.nil_append] at hrest
      rw [hrest] at h
      exact fun t ht => h t (List.mem_cons_of_mem _ ht)
    | false =>
      obtain ⟨a, a', b, e, e', hab⟩ := tokenize_hard_cons (isHard_iff.mpr ⟨hw.1, hs⟩) (w ++ s)
      rw [e] at h
      rw [e']
      intro t ht hsp
      rcases List.mem_append.mp ht with ha | hb
      · rw [(hab t (List.mem_append_right _ ha)).1] at hsp
        cases hsp
      · exact h t (List.mem_append_right _ hb) hsp

/-! ## Blanks at the end -/

/-- The tokens in front of the last one do not change when more text
follows. -/
theorem Lexed.tokenize_append {ts us : List Token} (h : Lexed (ts ++ us)) (hne : us ≠ []) {y : Text}
    (hy : !y.head?.any Char.isDigit) : tokenize (spell ts ++ (spell us ++ y)) = ts ++ tokenize (spell us ++ y) := by
  induction ts with
  | nil => rfl
  | cons t ts ih =>
    obtain ⟨hf, hs, ht⟩ := h
    have hrest : spell (ts ++ us) ≠ [] := spell_ne_nil ht.legible (by simp [hne])
    rw [spell_cons, List.append_assoc, tokenize_text_append hf, ih ht, List.cons_append]
    rw [← List.append_assoc, ← spell_append]
    exact hs.append hrest fun _ => hy

theorem head_of_blank {y : Text} (hy : y.all isBlank) : !y.head?.any Char.isDigit := by
  cases y with
  | nil => rfl
  | cons c y =>
    rw [List.all_cons, Bool.and_eq_true] at hy
    by_contra hd
    rw [isBlank_of_isDigit (by simpa using hd)] at hy
    exact absurd hy.1 (by decide)

theorem ne_nil_of_isSpace {a b : List Token} {t : Token} (hf : t.Formed) (hs : t.isSpace)
    (hl : (spell (a ++ t :: b)).getLast?.all fun c => !isBlank c) : b ≠ [] := by
  rintro rfl
  obtain ⟨w, rfl⟩ := Token.eq_whitespace hs
  obtain ⟨hne, hw⟩ := hf
  rw [spell_append, spell_cons, spell_nil, List.append_nil, Token.text, List.getLast?_append_of_ne_nil _ hne,
    List.getLast?_eq_some_getLast hne] at hl
  have hb : isBlank (w.getLast hne) := isBlank_of_isSpaceChar (List.all_eq_true.mp hw _ (List.getLast_mem hne))
  simp [hb] at hl

theorem Spaced.of_append_blank {l y : Text} (hl : l.getLast?.all fun c => !isBlank c) (hy : y.all isBlank)
    (h : Spaced (tokenize (l ++ y))) : Spaced (tokenize l) := by
  intro t ht hs
  obtain ⟨a, b, e⟩ := List.append_of_mem ht
  have hlex := lexed_tokenize l
  rw [e, List.append_cons] at hlex
  have hb : b ≠ [] := by
    refine ne_nil_of_isSpace (a := a) (formed_of_mem ht) hs ?_
    rwa [← e, spell_tokenize]
  have htext : l ++ y = spell (a ++ [t]) ++ (spell b ++ y) := by
    rw [← List.append_assoc, ← spell_append, ← List.append_cons, ← e, spell_tokenize]
  refine h t ?_ hs
  rw [htext, hlex.tokenize_append hb (head_of_blank hy)]
  simp

theorem isLineComment_of_append_blank {l y : Text} (hn : '\n' ∉ l) (hy : y.all isBlank)
    (h : ∃ t ∈ solidsOf (l ++ y), t.isLineComment) : ∃ t ∈ solidsOf l, t.isLineComment := by
  obtain ⟨t, ht, hc⟩ := h
  obtain ⟨a, b, e⟩ := List.append_of_mem (mem_solids.mp ht).1
  obtain ⟨r, rfl⟩ := Token.eq_lineComment hc
  have hlex := lexed_tokenize (l ++ y)
  rw [e] at hlex
  obtain ⟨r, rfl, -⟩ : (Token.lineComment r).Formed := hlex.formed (by simp)
  have htext : l ++ y = spell a ++ ('-' :: '-' :: (r ++ spell b)) := by
    rw [← spell_tokenize (l ++ y), e, spell_append, spell_cons]
    rfl
  have hdash : '-' ∉ y := fun hm => absurd (List.all_eq_true.mp hy _ hm) (by decide)
  obtain ⟨c, hl, hc⟩ : ∃ c, l = spell a ++ '-' :: '-' :: c ∧ '-' :: '-' :: c <+: '-' :: '-' :: (r ++ spell b) := by
    rcases List.append_eq_append_iff.mp htext with ⟨c, -, hy'⟩ | ⟨c, hl, hy'⟩
    · exact absurd (by rw [hy']; simp) hdash
    · rcases c with - | ⟨d, - | ⟨d', c⟩⟩
      · exact absurd (by rw [← List.nil_append y, ← hy']; simp) hdash
      · obtain ⟨-, hy'⟩ := List.cons.inj hy'
        exact absurd (by rw [← List.nil_append y, ← List.append_eq, ← hy']; simp) hdash
      · obtain ⟨rfl, hy''⟩ := List.cons.inj hy'
        obtain ⟨rfl, -⟩ := List.cons.inj hy''
        exact ⟨c, hl, y, hy'.symm⟩
  have hcomment : Lexed (a ++ [.lineComment ('-' :: '-' :: c)]) := by
    refine hlex.of_append.1.append ⟨⟨c, rfl, ?_⟩, Token.stops_nil _, trivial⟩ fun u hu => ?_
    · rw [List.all_eq_true]
      rintro x hx
      have : x ≠ '\n' := by
        rintro rfl
        exact hn (by rw [hl]; simp [hx])
      simpa using this
    · refine (hlex.stops u hu).of_isPrefix ?_
      simpa [Token.text] using hc
  refine ⟨.lineComment ('-' :: '-' :: c), mem_solids.mpr ⟨?_, rfl⟩, rfl⟩
  rw [hl, show spell a ++ '-' :: '-' :: c = spell (a ++ [.lineComment ('-' :: '-' :: c)]) by simp [Token.text],
    hcomment.tokenize_spell]
  simp

/-! ## A single line -/

theorem exists_trim (s : Text) : ∃ x y, s = x ++ (trim s ++ y) ∧ x.all isBlank ∧ y.all isBlank := by
  obtain ⟨y, e, hy⟩ := exists_trimEnd (trimStart s)
  refine ⟨s.takeWhile isBlank, y, ?_, List.all_takeWhile, hy⟩
  rw [trim, ← e, trimStart, List.takeWhile_append_dropWhile]

/-- A text of which one line is left when blank lines and blank ends are cut. -/
theorem exists_line {ls : List Text} {m : Text} (h : (ls.map trim).filter (· ≠ []) = [m]) :
    ∃ x y, joinLines ls = x ++ (m ++ y) ∧ x.all isBlank ∧ y.all isBlank := by
  induction ls with
  | nil => simp at h
  | cons l ls ih =>
    rw [List.map_cons] at h
    by_cases hl : trim l = []
    · rw [List.filter_cons_of_neg (by simp [hl])] at h
      obtain ⟨x, y, e, hx, hy⟩ := ih h
      cases ls with
      | nil => simp at h
      | cons l' ls =>
        refine ⟨l ++ '\n' :: x, y, by rw [joinLines_cons_cons, e]; simp, ?_, hy⟩
        rw [List.all_append, List.all_cons, trim_eq_nil.mp hl, hx]
        rfl
    · rw [List.filter_cons_of_pos (by simp [hl])] at h
      obtain ⟨rfl, hrest⟩ := List.cons.inj h
      obtain ⟨x, y, e, hx, hy⟩ := exists_trim l
      cases ls with
      | nil => exact ⟨x, y, by simpa using e, hx, hy⟩
      | cons l' ls =>
        have hblank : ∀ k ∈ l' :: ls, k.all isBlank := by
          intro k hk
          rw [List.filter_eq_nil_iff] at hrest
          exact trim_eq_nil.mp (by simpa using hrest (trim k) (List.mem_map_of_mem hk))
        refine ⟨x, y ++ '\n' :: joinLines (l' :: ls), ?_, hx, ?_⟩
        · rw [joinLines_cons_cons]
          conv_lhs => rw [e]
          simp
        · rw [List.all_append, List.all_cons, hy, all_joinLines (by decide) hblank]
          rfl

theorem Lexed.blanked {ts : List Token} (h : Lexed ts) (hc : ∀ t ∈ ts, t.isLineComment = false) : Lexed (blanked ts) := by
  refine h.respace hc fun t ht => ?_
  split
  · exact ⟨rfl, List.cons_ne_nil _ _, by decide⟩
  · rfl

theorem spaced_normalize {n : Nat} {c code : Text} (e : normalize n c = code) (hn : '\n' ∉ code)
    (hc : ∀ t ∈ tokenize code, t.isLineComment = false) :
    code.head?.all (fun c => !isBlank c) ∧ (code.getLast?.all fun c => !isBlank c) ∧ Spaced (tokenize code) := by
  unfold normalize at e
  split at e
  · next hlc =>
    cases hls : trimmedLines c with
    | nil =>
      obtain rfl : code = [] := by simpa [hang, hls] using e.symm
      exact ⟨rfl, rfl, by simp [tokenize, Spaced]⟩
    | cons l ls =>
      cases ls with
      | cons l' ls =>
        refine absurd ?_ hn
        rw [← e, hang, hls]
        simp
      | nil =>
        obtain rfl : l = code := by simpa [hang, hls] using e
        obtain ⟨x, y, hxy, hx, hy⟩ := exists_line hls
        rw [joinLines_splitLines] at hxy
        rw [hxy, List.any_eq_true] at hlc
        obtain ⟨t, ht, hlc⟩ := hlc
        -- the comment is still there
        have hsolid : t ∈ solidsOf (x ++ (l ++ y)) := mem_solids.mpr ⟨ht, by cases t <;> first | rfl | cases hlc⟩
        obtain ⟨u, hu, hul⟩ := isLineComment_of_append_blank hn hy (isLineComment_of_blank_append hx ⟨t, hsolid, hlc⟩)
        rw [hc u (mem_solids.mp hu).1] at hul
        cases hul
  · next hlc =>
    rw [collapse_eq] at e
    have hlex := (lexed_tokenize c).blanked (by simpa using hlc)
    have hspaced : Spaced (tokenize (spell (blanked (tokenize c)))) := by
      rw [hlex.tokenize_spell]
      intro t ht hs
      obtain ⟨u, hu, rfl⟩ := List.mem_map.mp ht
      split at hs
      · next h => rw [if_pos h]
      · next h => exact absurd hs h
    obtain ⟨x, y, hxy, hx, hy⟩ := exists_trim (spell (blanked (tokenize c)))
    rw [e] at hxy
    rw [hxy] at hspaced
    have hlast : code.getLast?.all fun c => !isBlank c := e ▸ getLast_trim _
    refine ⟨?_, hlast, (hspaced.of_blank_append hx).of_append_blank hlast hy⟩
    have hhead := head_dropWhile isBlank (trimEnd (spell (blanked (tokenize c))))
    rw [← trimStart, ← trim_eq_trimStart_trimEnd, e] at hhead
    cases code with
    | nil => rfl
    | cons d code => simpa using hhead

/-! ## Tidy tokens -/

/-- Tokens on one line, each space a blank, that trimming does not cut into. -/
structure Tidy (ts : List Token) : Prop where
  lexed : Lexed ts
  line : '\n' ∉ spell ts
  plain : ∀ t ∈ ts, t.isLineComment = false
  spaced : Spaced ts
  firm : ∀ t ∈ ts, t.Firm

namespace Tidy

variable {ts us : List Token}

theorem of_infix (h : Tidy us) (hi : ts <:+: us) : Tidy ts := by
  obtain ⟨a, b, rfl⟩ := hi
  refine ⟨h.lexed.of_append.1.of_append.2, fun hm => h.line ?_, fun t ht => h.plain t ?_, fun t ht => h.spaced t ?_,
    fun t ht => h.firm t ?_⟩ <;> simp_all

theorem formed (h : Tidy ts) : ∀ t ∈ ts, t.Formed := fun _ ht => h.lexed.formed ht

theorem trim_spell (h : Tidy ts) : trim (spell ts) = spell (strip ts) := trim_firm h.formed h.firm

theorem trimEnd_spell (h : Tidy ts) (hh : ∀ t ∈ ts.head?, t.isSpace = false) : trimEnd (spell ts) = spell (strip ts) := by
  rw [trimEnd_firm h.formed h.firm, strip]
  cases ts with
  | nil => rfl
  | cons t ts => rw [List.dropWhile_cons_of_neg (by simpa using hh t rfl)]

theorem isBlankText_text (h : Tidy ts) : ∀ t ∈ ts, isBlankText t.text = t.isSpace := by
  intro t ht
  have hf := h.formed t ht
  cases hs : t.isSpace with
  | true => exact isBlank_text hf hs
  | false =>
    have he := ((h.firm t ht).resolve_left (by simp [hs])).2
    refine Bool.eq_false_iff.mpr fun hb => hf.text_ne_nil ?_
    rw [← he, trimEnd_eq_nil.mpr hb]

theorem isBlankText_spell (h : Tidy ts) : isBlankText (spell ts) = true ↔ solids ts = [] := by
  rw [solids_eq_nil, isBlankText, spell, List.all_flatMap, List.all_eq_true, List.all_eq_true]
  exact forall₂_congr fun t ht => by rw [← isBlankText, h.isBlankText_text t ht]

theorem blanked_eq (h : Tidy ts) : blanked ts = ts := by
  refine (List.map_congr_left fun t ht => ?_).trans (List.map_id ts)
  split
  · next hs => exact (h.spaced t ht hs).symm
  · rfl

end Tidy

theorem tidy_normalize {n : Nat} {c code : Text} (e : normalize n c = code) (hn : '\n' ∉ code)
    (hc : ∀ t ∈ tokenize code, t.isLineComment = false) (hh : hards code = 0) :
    Tidy (tokenize code) ∧ strip (tokenize code) = tokenize code := by
  obtain ⟨hhead, hlast, hsp⟩ := spaced_normalize e hn hc
  have hl := lexed_tokenize code
  have hs := spell_tokenize code
  refine ⟨⟨hl, by rwa [hs], hc, hsp, fun t ht => ?_⟩, strip_eq_self (fun t ht => ?_) fun t ht => ?_⟩
  · cases hts : t.isSpace with
    | true => exact Or.inl hts
    | false =>
      have hf := formed_of_mem ht
      have hht : hards t.text = 0 := hards_of_mem ht (by rwa [hs])
      obtain ⟨a, b, ht⟩ := List.append_of_mem ht
      cases b with
      | cons u b =>
        rw [ht, List.append_cons] at hl hs
        exact hl.firm (List.cons_ne_nil _ _) (by rwa [hs]) (by rwa [hs]) (by simp)
      | nil =>
        refine Or.inr ⟨(Token.trimStart_text hf hts).resolve_right ?_, trimEnd_of_getLast ?_⟩
        · rw [hht]
          exact fun h => absurd h.1 (Nat.not_lt_zero _)
        · rwa [← hs, ht, spell_append, spell_cons, spell_nil, List.append_nil,
            List.getLast?_append_of_ne_nil _ hf.text_ne_nil] at hlast
  · obtain ⟨r, e⟩ := List.head?_eq_some_iff.mp ht
    by_contra hsp
    obtain ⟨w, rfl⟩ := Token.eq_whitespace (by simpa using hsp)
    obtain ⟨hne, hw⟩ : (Token.whitespace w).Formed := hl.formed (List.mem_of_head? ht)
    obtain ⟨d, w, rfl⟩ := List.exists_cons_of_ne_nil hne
    have hd : isBlank d := isBlank_of_isSpaceChar (List.all_eq_true.mp hw d List.mem_cons_self)
    rw [← hs, e] at hhead
    simp [Token.text, hd] at hhead
  · obtain ⟨a, e⟩ := List.getLast?_eq_some_iff.mp ht
    by_contra hsp
    rw [← hs, e] at hlast
    exact ne_nil_of_isSpace (hl.formed (List.mem_of_getLast? ht)) (by simpa using hsp) hlast rfl

end SqlLayout
