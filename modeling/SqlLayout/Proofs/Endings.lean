import SqlLayout.Proofs.Dropped
import SqlLayout.Proofs.Locality
import SqlLayout.Proofs.Toplevel

/-!
# Where a statement ends

A block ends at a semicolon, in front of a comment, or where its tokens ask
for nothing more and the next line starts a statement. A comment that ends is
kept in a statement of which some word was seen. So a block with such a word,
and any block with code right behind it, is a whole statement, as far as
parentheses, CASEs and its last token tell (`segment_finishes`). What a comment
cuts off otherwise need not be one.
-/

namespace SqlLayout

/-! ## What tokens leave open -/

def countCase (n : Nat) (t : Token) : Nat :=
  match t.keyword with
  | some .CASE => n + 1
  | some .END => n - 1
  | _ => n

def openCases (ts : List Token) : Nat := ts.foldl countCase 0

def lastCode? (ts : List Token) : Option Token := (ts.filter Token.isCode).getLast?

/-- No statement ends in this token. -/
def Token.leavesOpen : Token → Bool
  | .comma | .dot => true
  | .operator op => op ≠ ['*']
  | t => t.keyword.any Keyword.expectsMore

def marksStatement : Keyword → Bool
  | .SELECT | .VALUES | .EXEC | .EXECUTE | .INSERT | .UPDATE | .DELETE | .CREATE | .ALTER | .WITH | .DECLARE => true
  | _ => false

theorem keyword_of_not_isCode {t : Token} (h : t.isCode = false) : t.keyword = none := by
  cases t with
  | word w => cases h
  | _ => rfl

namespace Tally

theorem step_nesting (s : Tally) (t : Token) : (s.step t).nesting = s.nesting.step t := by
  have keeps : ∀ k, (s.keyword k).nesting = s.nesting := by
    intro k
    unfold keyword
    split <;> rfl
  unfold step
  split
  · simp [code, keeps]
  · rfl

theorem step_openCases (s : Tally) (t : Token) : (s.step t).openCases = countCase s.openCases t := by
  have counts : (s.keyword t.keyword).openCases = countCase s.openCases t := by
    unfold keyword countCase
    split <;> simp_all
  unfold step
  split
  · simpa [code] using counts
  · next h => simp [countCase, keyword_of_not_isCode (by simpa using h)]

theorem step_lastCode (s : Tally) (t : Token) : (s.step t).lastCode = if t.isCode then some t else s.lastCode := by
  unfold step
  split
  · rfl
  · rfl

theorem foldl_nesting (ts : List Token) (s : Tally) : (ts.foldl step s).nesting = ts.foldl Nesting.step s.nesting := by
  induction ts generalizing s with
  | nil => rfl
  | cons t ts ih => rw [List.foldl_cons, ih, step_nesting, List.foldl_cons]

theorem foldl_openCases (ts : List Token) (s : Tally) : (ts.foldl step s).openCases = ts.foldl countCase s.openCases := by
  induction ts generalizing s with
  | nil => rfl
  | cons t ts ih => rw [List.foldl_cons, ih, step_openCases, List.foldl_cons]

theorem step_isStatement (s : Tally) (t : Token) :
    (s.step t).isStatement = (s.isStatement || t.keyword.any marksStatement) := by
  have marks : (s.keyword t.keyword).isStatement = (s.isStatement || t.keyword.any marksStatement) := by
    cases t.keyword with
    | none => simp [keyword]
    | some k => cases k <;> simp [keyword, marksStatement]
  unfold step
  split
  · simpa [code] using marks
  · next h => simp [keyword_of_not_isCode (by simpa using h)]

theorem foldl_isStatement (ts : List Token) (s : Tally) :
    (ts.foldl step s).isStatement = (s.isStatement || ts.any fun t => t.keyword.any marksStatement) := by
  induction ts generalizing s with
  | nil => simp
  | cons t ts ih => rw [List.foldl_cons, ih, step_isStatement, List.any_cons, Bool.or_assoc]

theorem foldl_lastCode (ts : List Token) : (ts.foldl step {}).lastCode = lastCode? ts := by
  induction ts using List.reverseRecOn with
  | nil => rfl
  | append_singleton ts t ih =>
    rw [List.foldl_append, List.foldl_cons, List.foldl_nil, step_lastCode, ih, lastCode?, lastCode?, List.filter_append]
    cases h : t.isCode <;> simp [h]

theorem of_not_needsMore {s : Tally} (h : s.needsMore = false) :
    s.nesting.depth = 0 ∧ s.openCases = 0 ∧ s.lastCode.any Token.leavesOpen = false := by
  simp only [needsMore, Bool.or_eq_false_iff, decide_eq_false_iff_not, Nat.not_lt, Nat.le_zero] at h
  obtain ⟨⟨hd, hc⟩, hl⟩ := h
  refine ⟨hd, hc, ?_⟩
  cases e : s.lastCode with
  | none => rfl
  | some t =>
    rw [e] at hl
    cases t <;> simp_all [Token.leavesOpen]

end Tally

/-! ## Tokens that do not count -/

theorem keyword_of_blank {t : Token} (h : t.isInk = false) : t.keyword = none := by
  cases t with
  | word w =>
    have hink : isBlankText (upper w) := by
      have := Token.isInk_plain (.word w)
      rw [h] at this
      simpa [Token.isInk, Token.plain, Token.text] using this
    have htable : ∀ p ∈ Keyword.table, isBlankText p.1 = false := by decide +kernel
    refine List.lookup_eq_none_iff.mpr fun p hp => ?_
    have hne : upper w ≠ p.1 := by
      intro e
      rw [e, htable p hp] at hink
      cases hink
    simpa using hne
  | _ => rfl

theorem foldl_skip {α : Type} {f : α → Token → α} {P : Token → Prop} (hf : ∀ a t, P t → f a t = a) {ts : List Token}
    (h : ∀ t ∈ ts, P t) (a : α) : ts.foldl f a = a := by
  induction ts generalizing a with
  | nil => rfl
  | cons t ts ih => rw [List.foldl_cons, hf a t (h t List.mem_cons_self), ih fun t ht => h t (List.mem_cons_of_mem _ ht)]

theorem countCase_blank (n : Nat) (t : Token) (h : t.isInk = false) : countCase n t = n := by
  rw [countCase, keyword_of_blank h]

theorem nestingStep_blank (n : Nesting) (t : Token) (h : t.isInk = false) : n.step t = n := by
  cases t with
  | openParen => cases h
  | closeParen => cases h
  | _ => rfl

theorem countCase_space (n : Nat) (t : Token) (h : t.isSpace) : countCase n t = n := by
  obtain ⟨w, rfl⟩ := Token.eq_whitespace h
  rfl

theorem lastCode?_solids (ts : List Token) : lastCode? (solids ts) = lastCode? ts := by
  rw [lastCode?, lastCode?, filter_isCode_solids]

theorem lastCode?_around {us ts vs : List Token} {t : Token} (h : lastCode? (us ++ (ts ++ vs)) = some t) (ht : t.isInk)
    (hu : ∀ u ∈ us, u.isInk = false) (hv : ∀ v ∈ vs, v.isInk = false) : lastCode? ts = some t := by
  have out : ∀ {xs : List Token}, (∀ x ∈ xs, x.isInk = false) → (xs.filter Token.isCode).getLast? ≠ some t := by
    intro xs hx e
    rw [hx t (List.mem_filter.mp (List.mem_of_getLast? e)).1] at ht
    cases ht
  rw [lastCode?, List.filter_append, List.filter_append, List.getLast?_append, List.getLast?_append] at h
  rcases Option.or_eq_some_iff.mp h with h | ⟨-, h⟩
  · rcases Option.or_eq_some_iff.mp h with h | ⟨-, h⟩
    · exact absurd h (out hv)
    · exact h
  · exact absurd h (out hu)

/-! ## What a block says about its draft -/

section
variable {d : Draft} {ss : List Stretch} {b : Block}

/-- The block has the tokens of the draft, with those of the blank lines
around it. -/
theorem Next.block_reads (h : Next d ss) (hc : Closed (textOf d.lines)) (hb : d.block? = some b) {p : Char → Bool}
    (hp : p '\n') (hl : ∀ l ∈ d.lines, isBlankText l.text → l.text.all p) (hblank : ∀ c, p c → isBlank c) :
    ∃ w v, w.all p ∧ v.all p ∧ solids (tokensOf d.lines) = solidsOf w ++ (solidsOf b.content ++ solidsOf v) := by
  have hlines : ∀ l ∈ d.lines.map Line.text, isBlankText l → l.all p := by
    intro l hl'
    obtain ⟨k, hk, rfl⟩ := List.mem_map.mp hl'
    exact hl k hk
  have all : ∀ {w : Text}, w.all p → w.all isBlank := fun hw =>
    List.all_eq_true.mpr fun c hc => hblank c (List.all_eq_true.mp hw c hc)
  rw [← h.reads hc]
  rcases d.block?_cases hp hlines with ⟨e, -⟩ | ⟨b', w, e, hw, ht⟩
  · rw [hb] at e
    cases e
  rw [hb] at e
  obtain rfl := Option.some.inj e
  have hgap : IsGap isBlank w := hw.imp_right fun ⟨v, hv, e⟩ => ⟨v, all hv, e⟩
  refine ⟨w, ?_⟩
  rcases ht with ht | ⟨-, v, hv, ht⟩
  · exact ⟨[], hw.all hp, rfl, by rw [ht, hgap.solidsOf_append, solidsOf_nil, List.append_nil]⟩
  · rw [ht] at hc ⊢
    exact ⟨v, hw.all hp, hv, by rw [hgap.solidsOf_append, solidsOf_blank_end (hgap.closed_iff.mp hc) (all hv)]⟩

theorem Next.block_around (h : Next d ss) (hc : Closed (textOf d.lines)) (hb : d.block? = some b) :
    ∃ us vs, (∀ u ∈ us, u.isInk = false) ∧ (∀ v ∈ vs, v.isInk = false) ∧
      solids (tokensOf d.lines) = us ++ (solidsOf b.content ++ vs) := by
  obtain ⟨w, v, hw, hv, e⟩ := h.block_reads hc hb (p := isBlank) rfl (fun _ _ h => h) fun _ h => h
  exact ⟨solidsOf w, solidsOf v, fun u hu => isInk_of_mem_blank hw (mem_solids.mp hu).1,
    fun u hu => isInk_of_mem_blank hv (mem_solids.mp hu).1, e⟩

/-- Nothing is left open in the block. What its last token says counts if
`plain` holds, that is, if no line is blank to the draft only. -/
structure Block.Settled (plain : Prop) (b : Block) : Prop where
  depth : (Nesting.after (tokenize b.content)).depth = 0
  cases : openCases (tokenize b.content) = 0
  last : plain → (lastCode? (tokenize b.content)).any Token.leavesOpen = false

def Block.Codeless (b : Block) : Prop := ∀ t ∈ tokenize b.content, t.isCode = false

def Block.Unmarked (b : Block) : Prop := ∀ t ∈ tokenize b.content, t.keyword.any marksStatement = false

theorem codeless_of_solids (h : ∀ t ∈ solidsOf b.content, t.isCode = false) : b.Codeless := by
  intro t ht
  cases hs : t.isSpace with
  | true => exact isCode_of_isSpace hs
  | false => exact h t (mem_solids.mpr ⟨ht, hs⟩)

theorem Block.Codeless.settled (h : b.Codeless) (plain : Prop) : b.Settled plain := by
  have nest : ∀ (n : Nesting) (t : Token), t.isCode = false → n.step t = n := by
    intro n t ht
    cases t <;> first | rfl | cases ht
  have count : ∀ (n : Nat) (t : Token), t.isCode = false → countCase n t = n := by
    intro n t ht
    cases t <;> first | rfl | cases ht
  refine ⟨?_, ?_, fun _ => ?_⟩
  · rw [Nesting.after, foldl_skip nest h]
  · rw [openCases, foldl_skip count h]
  · rw [lastCode?, List.filter_eq_nil_iff.mpr fun t ht => by simp [h t ht]]
    rfl

theorem Next.settled (h : Next d ss) (hc : Closed (textOf d.lines)) (hb : d.block? = some b)
    (ht : d.tally = (tokensOf d.lines).foldl Tally.step {}) (hm : d.tally.needsMore = false) {plain : Prop}
    (hp : plain → ∀ l ∈ d.lines, isBlankText l.text → l.text.all isSpaceChar) : b.Settled plain := by
  obtain ⟨hdepth, hcases, hlast⟩ := Tally.of_not_needsMore hm
  rw [ht, Tally.foldl_nesting] at hdepth
  rw [ht, Tally.foldl_openCases] at hcases
  rw [ht, Tally.foldl_lastCode, ← lastCode?_solids] at hlast
  obtain ⟨us, vs, hu, hv, e⟩ := h.block_around hc hb
  have around : ∀ {α : Type} (f : α → Token → α) (a : α), (∀ a t, t.isInk = false → f a t = a) →
      (∀ a t, t.isSpace → f a t = a) → (tokenize b.content).foldl f a = (tokensOf d.lines).foldl f a := by
    intro α f a hblank hspace
    rw [← foldl_solids hspace (tokensOf d.lines), e, List.foldl_append, List.foldl_append, foldl_skip hblank hu,
      foldl_skip hblank hv, solidsOf, foldl_solids hspace]
  refine ⟨?_, ?_, fun hplain => ?_⟩
  · rw [Nesting.after, around _ _ nestingStep_blank fun n t h => Nesting.step_of_isSpace h n]
    exact hdepth
  · rw [openCases, around _ _ countCase_blank countCase_space]
    exact hcases
  · obtain ⟨w, v, hw, hv, e⟩ := h.block_reads hc hb (by decide) (hp hplain) fun c hc => isBlank_of_isSpaceChar hc
    rwa [e, solidsOf_space hw, solidsOf_space hv, List.nil_append, List.append_nil, solidsOf, lastCode?_solids] at hlast

theorem Next.semicolon (h : Next d ss) (hc : Closed (textOf d.lines)) (hb : d.block? = some b)
    (hl : lastCode? (tokensOf d.lines) = some .semicolon) : lastCode? (tokenize b.content) = some .semicolon := by
  obtain ⟨us, vs, hu, hv, e⟩ := h.block_around hc hb
  rw [← lastCode?_solids, e] at hl
  rw [← lastCode?_solids]
  exact lastCode?_around hl rfl hu hv

theorem Next.unmarked (h : Next d ss) (hc : Closed (textOf d.lines)) (hb : d.block? = some b)
    (ht : d.tally = (tokensOf d.lines).foldl Tally.step {}) (hs : d.tally.isStatement = false) : b.Unmarked := by
  intro t hm
  obtain ⟨us, vs, -, -, e⟩ := h.block_around hc hb
  rw [ht, Tally.foldl_isStatement, Bool.or_eq_false_iff, List.any_eq_false] at hs
  cases hspace : t.isSpace with
  | true =>
    obtain ⟨w, rfl⟩ := Token.eq_whitespace hspace
    rfl
  | false =>
    have hsolid : t ∈ solids (tokensOf d.lines) := by
      rw [e]
      exact List.mem_append_right _ (List.mem_append_left _ (mem_solids.mpr ⟨hm, hspace⟩))
    simpa using hs.2 t (mem_solids.mp hsolid).1

theorem Next.codeless (h : Next d ss) (hc : Closed (textOf d.lines)) (hb : d.block? = some b)
    (ht : ∀ t ∈ tokensOf d.lines, t.isCode = false) : b.Codeless := by
  obtain ⟨us, vs, -, -, e⟩ := h.block_around hc hb
  refine codeless_of_solids fun t hm => ht t (mem_solids.mp ?_).1
  rw [e]
  exact List.mem_append_right _ (List.mem_append_left _ hm)

end

/-! ## Comments -/

def IsNote (ts : List Token) : Prop := ∀ t ∈ ts, t.isSpace ∨ t.isLineComment

theorem IsNote.isCode {ts : List Token} (h : IsNote ts) {t : Token} (ht : t ∈ ts) : t.isCode = false := by
  rcases h t ht with hs | hc
  · exact isCode_of_isSpace hs
  · obtain ⟨c, rfl⟩ := Token.eq_lineComment hc
    rfl

theorem IsNote.isUnterminated {ts : List Token} (h : IsNote ts) {t : Token} (ht : t ∈ ts) : t.isUnterminated = false := by
  rcases h t ht with hs | hc
  · exact isUnterminated_of_isSpace hs
  · obtain ⟨c, rfl⟩ := Token.eq_lineComment hc
    rfl

theorem Next.note {d : Draft} {ss : List Stretch} (h : Next d ss) (hnote : IsNote (tokensOf d.lines)) {c : Text}
    (hc : .lineComment c ∈ tokensOf d.lines) (hf : (Token.lineComment c).Formed) : ∃ b, d.block? = some b ∧ b.Codeless := by
  have hclosed := h.closed fun t => hnote.isUnterminated
  cases hb : d.block? with
  | some b => exact ⟨b, rfl, h.codeless hclosed hb fun t => hnote.isCode⟩
  | none =>
    -- all lines would be blank
    rcases d.block?_cases (p := isBlank) rfl fun _ _ h => h with ⟨-, hblank⟩ | ⟨b, w, e, -⟩
    · have hmem : Token.lineComment c ∈ solidsOf (textOf d.lines) := by
        rw [h.reads hclosed]
        exact mem_solids.mpr ⟨hc, rfl⟩
      have hink := isInk_of_mem_blank hblank (mem_solids.mp hmem).1
      obtain ⟨r, rfl, -⟩ := hf
      cases hink
    · rw [hb] at e
      cases e

theorem kind_of_block? {d : Draft} (hk : d.kind = some .generic) {b : Block} (hb : d.block? = some b) : b.kind = .generic := by
  simp only [Draft.block?, hk, Option.getD_some] at hb
  split at hb
  · cases hb
  split at hb
  all_goals
    obtain rfl := Option.some.inj hb
    rfl

theorem codeless_of_openComment {s : Stretch} {ss : List Stretch} {k : BlockKind}
    (h : Next (Draft.push { kind := some k } ((s :: ss).flatMap Stretch.lines)) []) (ho : s.opening = .openComment)
    {b : Block} (hb : (Draft.push { kind := some k } ((s :: ss).flatMap Stretch.lines)).block? = some b) : b.Codeless := by
  obtain ⟨c, ts, e, hu⟩ : ∃ c ts, s.first.tokens.dropWhile Token.isSpace = .blockComment c :: ts ∧
      (Token.blockComment c).isUnterminated := by
    unfold Stretch.opening at ho
    split at ho
    · cases ho
    · cases ho
    · next c ts e =>
      split at ho
      · next hu => exact ⟨c, ts, e, hu⟩
      · simp only at ho
        repeat' split at ho
        all_goals cases ho
    · cases ho
  obtain ⟨sp, hsp, htokens⟩ := tokens_eq_dropWhile e
  generalize hd : Draft.push { kind := some k } ((s :: ss).flatMap Stretch.lines) = d at h hb
  have hlines : d.lines = s.first :: (s.more ++ ss.flatMap Stretch.lines) := by
    rw [← hd]
    simp [Draft.push, Stretch.lines]
  have hsolids : solids (tokensOf d.lines) = .blockComment c :: solids (ts ++ tokensOf (s.more ++ ss.flatMap Stretch.lines)) := by
    have hsp : solids sp = [] := solids_eq_nil.mpr (List.all_eq_true.mpr hsp)
    rw [hlines, tokensOf_cons, htokens, List.append_assoc, solids_append, hsp, List.cons_append, solids_cons]
    rfl
  have hmem : Token.blockComment c ∈ tokensOf d.lines := by
    refine (mem_solids.mp ?_).1
    rw [hsolids]
    exact List.mem_cons_self
  have hopen : d.tally.unterminated := by
    rw [h.tally]
    exact List.any_eq_true.mpr ⟨_, hmem, hu⟩
  have hreads : solidsOf (textOf d.lines) = solids (tokensOf d.lines) := by
    cases h.whole with
    | cons reads _ _ => exact reads
  have hone : solidsOf (textOf d.lines) = [.blockComment c] := by
    rw [hreads, hsolids, rest_of_solidsOf (hreads.trans hsolids) hu]
  rcases d.block?_cases (p := isBlank) rfl fun _ _ h => h with ⟨e', -⟩ | ⟨b', w, e', hw, ht⟩
  · rw [hb] at e'
    cases e'
  · rw [hb] at e'
    obtain rfl := Option.some.inj e'
    rcases ht with ht | ⟨hclosed, -⟩
    · rw [ht, hw.solidsOf_append] at hone
      refine codeless_of_solids fun t htm => ?_
      have : t ∈ [Token.blockComment c] := hone ▸ List.mem_append_right _ htm
      obtain rfl := List.mem_singleton.mp this
      rfl
    · rw [hopen] at hclosed
      cases hclosed

theorem codeless_of_newline {s : Text} (h : ∀ t ∈ solidsOf (s ++ ['\n']), t.isCode = false) :
    ∀ t ∈ solidsOf s, t.isCode = false := by
  by_cases hc : Closed s
  · rwa [solidsOf_newline hc] at h
  obtain ⟨ts, t, e, hu⟩ := exists_last_of_not_closed hc
  obtain ⟨t', hf, ht, hs, hcomment, -⟩ := (formed_of_mem (t := t) (s := s) (by simp [e])).extend hu
  have hone : solids [t'] = [t'] := by simp [solids_cons, hs]
  rw [solidsOf_newline_of_last e hf ht hu, solids_append, hone] at h
  rw [solidsOf, e, solids_append, solids_cons, isSpace_of_isUnterminated hu]
  intro u hu'
  rcases List.mem_append.mp hu' with hu' | hu'
  · exact h u (List.mem_append_left _ hu')
  · obtain rfl : u = t := by simpa using hu'
    have := h t' (List.mem_append_right _ List.mem_cons_self)
    exact isCode_of_isComment (hcomment ▸ by simpa [Token.isCode, Token.isTrivia, hs] using this)

theorem codeless_of_comment {s : Stretch} {ss : List Stretch} (h : Next {} (s :: ss)) (ho : s.opening = .comment)
    (k : BlockKind) : Block.Codeless ⟨k, textOf s.lines⟩ := by
  have hcode : ∀ t ∈ solids (tokensOf s.lines), t.isCode = false := fun t ht =>
    Stretch.code_of_comment ho (h.neat s List.mem_cons_self) (mem_solids.mp ht).1
  have hw := h.push.whole
  have e : (Draft.push {} s.lines).lines = s.lines := rfl
  rw [e] at hw
  refine codeless_of_solids ?_
  generalize ss.map Stretch.lines = rest at hw
  cases hw with
  | cons reads _ _ => exact fun t ht => hcode t (reads ▸ ht)
  | cut reads _ => exact codeless_of_newline fun t ht => hcode t (reads ▸ ht)

/-! ## One block and the next -/

/-- A block is finished in front of the next one. Else it was cut off by a
comment that has no end, or it shows no word of a statement. -/
def Passes (plain : Prop) (b c : Block) : Prop :=
  lastCode? (tokenize b.content) = some .semicolon ∨ b.Settled plain ∨ c.Codeless ∧ (c.kind.isComment → b.Unmarked)

theorem isChain_toList_append {α : Type} {R : α → α → Prop} {x : Option α} {ys : List α}
    (h : ∀ a, x = some a → ∀ c ∈ ys.head?, R a c) (hy : List.IsChain R ys) : List.IsChain R (x.toList ++ ys) := by
  cases x with
  | none => exact hy
  | some a => exact List.isChain_cons.mpr ⟨h a rfl, hy⟩

structure Draft.Kept (d : Draft) : Prop where
  kind : d.kind ≠ some .comment
  tally : d.tally = (tokensOf d.lines).foldl Tally.step {}
  note : d.kind = some .commentGroup → IsNote (tokensOf d.lines)
  code : d.kind = none → ∀ t ∈ tokensOf d.lines, t.isCode = false

theorem kept_empty {k : Option BlockKind} (hk : k ≠ some .comment) : Draft.Kept { kind := k } :=
  ⟨hk, rfl, fun _ t ht => (by cases ht), fun _ t ht => (by cases ht)⟩

theorem Draft.Kept.codeless {d : Draft} (h : d.Kept) (hk : d.kind.any (fun k => !k.isComment) = false) :
    ∀ t ∈ tokensOf d.lines, t.isCode = false := by
  cases e : d.kind with
  | none => exact h.code e
  | some k =>
    rw [e] at hk
    cases k with
    | comment => exact absurd e h.kind
    | commentGroup => exact fun t => (h.note e).isCode
    | _ => cases hk

theorem Draft.Kept.push {d : Draft} (h : d.Kept) {ls : List Line} (hn : d.kind = some .commentGroup → IsNote (tokensOf ls))
    (hc : d.kind = none → ∀ t ∈ tokensOf ls, t.isCode = false) : (d.push ls).Kept where
  kind := h.kind
  tally := by
    rw [Draft.push, h.tally, tokensOf_append, List.foldl_append]
    rfl
  note := by
    intro hk t ht
    rw [Draft.push, tokensOf_append] at ht
    exact (List.mem_append.mp ht).elim (h.note hk t) (hn hk t)
  code := by
    intro hk t ht
    rw [Draft.push, tokensOf_append] at ht
    exact (List.mem_append.mp ht).elim (h.code hk t) (hc hk t)

theorem Line.isComment_classify (l : Line) : l.classify.isComment = false := by
  unfold classify
  simp only
  repeat' split
  all_goals rfl

/-- Code does not make a comment of a draft. -/
theorem kind_ne_comment {k : Option BlockKind} {c : BlockKind} (hc : c.isComment) (h : k ≠ some c) (l : Line) :
    some (k.getD l.classify) ≠ some c := by
  cases k with
  | some k => exact h
  | none =>
    intro e
    have hl := l.isComment_classify
    rw [show l.classify = c from Option.some.inj e, hc] at hl
    cases hl

structure Stretch.Read (s : Stretch) : Prop where
  ordered : s.Ordered
  formed : ∀ t ∈ s.first.tokens, t.Formed

theorem read_tokenize (s : Text) : ∀ x ∈ stretches (lines (tokenize s)), x.Read := fun x hx =>
  ⟨ordered_tokenize s x hx, fun t ht => formed_of_mem (s := s) (by
    rw [← tokensOf_lines (tokenize s), ← flatMap_stretches (lines (tokenize s))]
    exact List.mem_flatMap.mpr ⟨x.first, List.mem_flatMap.mpr ⟨x, hx, List.mem_cons_self⟩, ht⟩)⟩

section
variable {d : Draft} {s : Stretch} {ss : List Stretch}

theorem isNote_of_blank (h : Next d (s :: ss)) (ho : s.opening = .blank) : IsNote (tokensOf s.lines) := by
  have htokens := Stretch.opening_blank ho
  rw [Stretch.lines, h.tied s List.mem_cons_self htokens, tokensOf_cons, tokensOf_nil, List.append_nil]
  exact fun t ht => Or.inl (List.all_eq_true.mp htokens t ht)

theorem isNote_of_lineComment (h : Next d (s :: ss)) (hs : s.Read) (ho : s.opening = .lineComment) :
    IsNote (tokensOf s.lines) ∧ ∃ c, .lineComment c ∈ tokensOf s.lines ∧ (Token.lineComment c).Formed := by
  obtain ⟨hmore, ⟨c, hc⟩, hall⟩ := Stretch.tokens_of_lineComment hs.ordered (h.neat s List.mem_cons_self) hs.formed ho
  rw [Stretch.lines, hmore, tokensOf_cons, tokensOf_nil, List.append_nil]
  exact ⟨hall, c, hc, hs.formed _ hc⟩

theorem head_note (h : Next d ss) (hk : d.kind = some .commentGroup) (hnote : IsNote (tokensOf d.lines)) {c : Text}
    (hc : .lineComment c ∈ tokensOf d.lines) (hf : (Token.lineComment c).Formed) (hs : ∀ s ∈ ss, s.Read) :
    ∀ b ∈ (blocksFrom d ss).head?, b.Codeless := by
  induction ss generalizing d with
  | nil =>
    obtain ⟨b, e, hb⟩ := h.note hnote hc hf
    simpa [blocksFrom, e] using hb
  | cons s ss ih =>
    obtain ⟨b, e, hb⟩ := h.note hnote hc hf
    have hne : d.lines ≠ [] := by
      rintro hnil
      rw [hnil] at hc
      cases hc
    have hpush : IsNote (tokensOf s.lines) → ∀ b ∈ (blocksFrom (d.push s.lines) ss).head?, b.Codeless := by
      intro hn
      refine ih h.push hk ?_ ?_ fun s' hs' => hs s' (List.mem_cons_of_mem _ hs')
      · rw [Draft.push, tokensOf_append]
        exact fun t ht => (List.mem_append.mp ht).elim (hnote t) (hn t)
      · rw [Draft.push, tokensOf_append]
        exact List.mem_append_left _ hc
    rw [blocksFrom]
    split
    · next ho =>
      rw [if_neg hne]
      exact hpush (isNote_of_blank h ho)
    · next ho =>
      rw [if_pos (by simp [hk])]
      exact hpush (isNote_of_lineComment h (hs s List.mem_cons_self) ho).1
    · rw [if_neg (by simp [hk, BlockKind.isComment]), e]
      simpa using hb
    · rw [e]
      simpa using hb
    · simp only [hk, ite_true, e]
      simpa using hb

variable {plain : Prop}

/-- No line is blank to the draft only. -/
def Soft (ls : List Line) : Prop := ∀ l ∈ ls, isBlankText l.text → l.text.all isSpaceChar

/-- Where a draft is complete, what it leaves open is asked for. -/
theorem passes_of_isComplete {last : Line} {init : List Line} (h : Next d ss) (hkept : d.Kept) (hl : d.lines = init ++ [last])
    (hcomplete : d.isComplete last ss) (hsoft : plain → Soft d.lines) {b : Block} (hb : d.block? = some b) :
    ∀ c ∈ (blocksFrom {} ss).head?, Passes plain b c := by
  intro c hc
  rcases h.cases with ⟨hclosed, -⟩ | rfl | ⟨rfl, -⟩
  · rw [Draft.isComplete, Bool.or_eq_true, Bool.and_eq_true, Bool.not_eq_true'] at hcomplete
    rcases hcomplete with hsemi | ⟨hmore, -⟩
    · refine Or.inl (h.semicolon hclosed hb ?_)
      rw [Line.endsInSemicolon, decide_eq_true_eq] at hsemi
      have hne : last.code ≠ [] := by
        intro hnil
        rw [hnil] at hsemi
        cases hsemi
      have hone : (tokensOf [last]).filter Token.isCode = last.code := by simp [Line.code]
      rw [hl, lastCode?, tokensOf_append, List.filter_append, hone, List.getLast?_append_of_ne_nil _ hne, hsemi]
    · exact Or.inr (Or.inl (h.settled hclosed hb hkept.tally hmore hsoft))
  · simp [blocksFrom, Draft.block?] at hc
  · simp [blocksFrom, Draft.block?, Stretch.opening] at hc

/-- What a comment is no part of shows no word of a statement. -/
theorem passes_of_cut {rest : List Stretch} (h : Next d ss) (hkept : d.Kept) (hc : Closed (textOf d.lines))
    (hcut : d.keepsComment rest = false ∨ d.kind.any (fun k => !k.isComment) = false) {b c : Block} (hb : d.block? = some b)
    (hcode : c.Codeless) : Passes plain b c := by
  rcases hcut with hkeep | hkind
  · rw [Draft.keepsComment, Bool.or_eq_false_iff] at hkeep
    exact Or.inr (Or.inr ⟨hcode, fun _ => h.unmarked hc hb hkept.tally hkeep.1⟩)
  · exact Or.inr (Or.inl ((h.codeless hc hb (hkept.codeless hkind)).settled plain))

/-- Behind any draft the stretches become blocks of which each passes. -/
def Chained (plain : Prop) (ss : List Stretch) : Prop :=
  ∀ d : Draft, Next d ss → d.Kept → (plain → Soft (d.lines ++ ss.flatMap Stretch.lines)) →
    List.IsChain (Passes plain) (blocksFrom d ss)

end

namespace Chained

variable {plain : Prop} {d : Draft} {s : Stretch} {ss : List Stretch} (hss : Chained plain ss)
include hss

theorem fresh (h : Next d ss) (hsoft : plain → Soft (ss.flatMap Stretch.lines)) :
    List.IsChain (Passes plain) (blocksFrom {} ss) := by
  rcases h.cases with ⟨-, hnext⟩ | rfl | ⟨rfl, -⟩
  · exact hss _ (hnext none) (kept_empty (by simp)) hsoft
  · simp [blocksFrom, Draft.block?]
  · simp [blocksFrom, Draft.block?, Stretch.opening]

theorem push (h : Next d (s :: ss)) (hkept : d.Kept) (hn : d.kind = some .commentGroup → IsNote (tokensOf s.lines))
    (hc : d.kind = none → ∀ t ∈ tokensOf s.lines, t.isCode = false)
    (hsoft : plain → Soft (d.lines ++ (s :: ss).flatMap Stretch.lines)) :
    List.IsChain (Passes plain) (blocksFrom (d.push s.lines) ss) :=
  hss _ h.push (hkept.push hn hc) fun hp => by simpa [Draft.push] using hsoft hp

/-- Behind code a draft that is complete becomes a block. -/
theorem pushed (h : Next d (s :: ss)) (hkept : d.Kept) (hk : d.kind ≠ some .commentGroup) (hk₀ : d.kind ≠ none)
    (hsoft : plain → Soft (d.lines ++ (s :: ss).flatMap Stretch.lines)) :
    List.IsChain (Passes plain) (if (d.push s.lines).isComplete s.last ss
      then (d.push s.lines).block?.toList ++ blocksFrom {} ss else blocksFrom (d.push s.lines) ss) := by
  have hk : d.kind = some .commentGroup → IsNote (tokensOf s.lines) := fun e => absurd e hk
  have hk₀ : d.kind = none → ∀ t ∈ tokensOf s.lines, t.isCode = false := fun e => absurd e hk₀
  split
  · next hcomplete =>
    obtain ⟨init, e⟩ := s.exists_last
    have hlines : (d.push s.lines).lines = (d.lines ++ init) ++ [s.last] := by
      rw [List.append_assoc, ← e]
      rfl
    have hpushed : plain → Soft (d.push s.lines).lines := by
      intro hp l hl
      apply hsoft hp l
      rw [List.flatMap_cons, ← List.append_assoc]
      exact List.mem_append_left _ hl
    apply isChain_toList_append
    · intro b hb
      exact passes_of_isComplete h.push (hkept.push hk hk₀) hlines hcomplete hpushed hb
    · exact hss.fresh h.push fun hp l hl => hsoft hp l (by simp [hl])
  · exact hss.push h hkept hk hk₀ hsoft

variable (h : Next d (s :: ss)) (hkept : d.Kept) (hsoft : plain → Soft (d.lines ++ (s :: ss).flatMap Stretch.lines))
include h hkept hsoft

theorem blank (ho : s.opening = .blank) : List.IsChain (Passes plain) (blocksFrom d (s :: ss)) := by
  rw [blocksFrom]
  simp only [ho]
  split
  · next hd =>
    apply hss d (h.skip hd ho).1 hkept
    intro hp l hl
    apply hsoft hp l
    rw [List.flatMap_cons, List.mem_append, List.mem_append]
    exact (List.mem_append.mp hl).imp_right Or.inr
  · have hnote := isNote_of_blank h ho
    exact hss.push h hkept (fun _ => hnote) (fun _ t => hnote.isCode) hsoft

variable (hc : Closed (textOf d.lines)) (hnext : ∀ k, Next { kind := k } (s :: ss))
include hc hnext

theorem lineComment (ho : s.opening = .lineComment) (hs : ∀ x ∈ s :: ss, x.Read) :
    List.IsChain (Passes plain) (blocksFrom d (s :: ss)) := by
  obtain ⟨hnote, t, ht, hf⟩ := isNote_of_lineComment h (hs s List.mem_cons_self) ho
  rw [blocksFrom]
  simp only [ho]
  split
  · exact hss.push h hkept (fun _ => hnote) (fun _ t => hnote.isCode) hsoft
  · next hkeep =>
    have hn := hnext (some .commentGroup)
    obtain ⟨-, hkeep⟩ : ¬d.kind = some .commentGroup ∧ d.keepsComment ss = false := by simpa using hkeep
    have hgroup := head_note hn.push rfl hnote ht hf fun x hx => hs x (List.mem_cons_of_mem s hx)
    apply isChain_toList_append
    · intro b hb c hc'
      exact passes_of_cut h hkept hc (Or.inl hkeep) hb (hgroup c hc')
    · apply hss.push hn (kept_empty (by simp)) (fun _ => hnote) (fun _ t => hnote.isCode)
      exact fun hp l hl => hsoft hp l (List.mem_append_right _ hl)

theorem comment (ho : s.opening = .comment) : List.IsChain (Passes plain) (blocksFrom d (s :: ss)) := by
  rw [blocksFrom]
  simp only [ho]
  split
  · next hkeep =>
    have hcode : ∀ t ∈ tokensOf s.lines, t.isCode = false := fun t ht =>
      Stretch.code_of_comment ho (h.neat s List.mem_cons_self) ht
    apply hss.push h hkept _ (fun _ => hcode) hsoft
    intro hk
    simp [hk, BlockKind.isComment] at hkeep
  · next hkeep =>
    have hn := hnext none
    have hcomment := codeless_of_comment hn ho .comment
    have hfresh := hss.fresh hn.push fun hp l hl => hsoft hp l (by simp [hl])
    apply isChain_toList_append
    · intro b hb c hc'
      obtain rfl := Option.some.inj hc'
      rw [Bool.not_eq_true, Bool.and_eq_false_iff] at hkeep
      exact passes_of_cut h hkept hc hkeep.symm hb hcomment
    · exact List.isChain_cons.mpr ⟨fun c _ => Or.inr (Or.inl (hcomment.settled plain)), hfresh⟩

theorem code {l l' : Line} (ho : s.opening = .code l l') : List.IsChain (Passes plain) (blocksFrom d (s :: ss)) := by
  rw [blocksFrom]
  simp only [ho]
  by_cases hnote : d.kind = some .commentGroup
  · -- the group ends, and a draft starts
    simp only [hnote, ite_true]
    apply isChain_toList_append
    · intro b hb c _
      exact Or.inr (Or.inl ((h.codeless hc hb fun t => (hkept.note hnote).isCode).settled plain))
    · apply hss.pushed (hnext _) (kept_empty (kind_ne_comment rfl (by simp) l)) (kind_ne_comment rfl (by simp) l) (by simp)
      exact fun hp l hl => hsoft hp l (List.mem_append_right _ hl)
  · simp only [hnote, ite_false, List.nil_append]
    have hk := kind_ne_comment rfl hnote l
    exact hss.pushed (h.with_kind _) ⟨kind_ne_comment rfl hkept.kind l, hkept.tally, fun e => absurd e hk, by simp⟩ hk
      (by simp) hsoft

end Chained

theorem chain_openComment {plain : Prop} {d : Draft} {s : Stretch} {ss : List Stretch}
    (hnext : ∀ k, Next { kind := k } (s :: ss)) (ho : s.opening = .openComment) :
    List.IsChain (Passes plain) (blocksFrom d (s :: ss)) := by
  have hopen := (hnext (some .generic)).push_all
  rw [blocksFrom]
  simp only [ho]
  apply isChain_toList_append
  · intro b _ c hc
    have hblock := Option.mem_toList.mp (List.mem_of_head? hc)
    have hkind : c.kind.isComment = false := by
      rw [kind_of_block? rfl hblock]
      rfl
    exact Or.inr (Or.inr ⟨codeless_of_openComment hopen ho hblock, fun hk => absurd hk (by simp [hkind])⟩)
  · cases (Draft.push { kind := some .generic } ((s :: ss).flatMap Stretch.lines)).block? <;> simp

theorem chained {plain : Prop} {ss : List Stretch} (hs : ∀ s ∈ ss, s.Read) : Chained plain ss := by
  induction ss with
  | nil =>
    intro d _ _ _
    rw [blocksFrom]
    cases d.block? <;> simp
  | cons s ss ih =>
    intro d h hkept hsoft
    have ih := ih fun x hx => hs x (List.mem_cons_of_mem s hx)
    rcases h.cases with ⟨hc, hnext⟩ | he | ⟨he, hc⟩
    · cases ho : s.opening with
      | blank => exact ih.blank h hkept hsoft ho
      | lineComment => exact ih.lineComment h hkept hsoft hc hnext ho hs
      | comment => exact ih.comment h hkept hsoft hc hnext ho
      | openComment => exact chain_openComment hnext ho
      | code l l' => exact ih.code h hkept hsoft hc hnext ho
    · cases he
    · -- the text ends in a newline that the last token takes
      obtain ⟨rfl, rfl⟩ : s = ⟨{}, []⟩ ∧ ss = [] := List.cons.inj he
      have hne : d.lines ≠ [] := ne_nil_of_not_closed hc
      simp only [blocksFrom, Stretch.opening, hne]
      cases (d.push (Stretch.lines ⟨{}, []⟩)).block? <;> simp

/-- A block leaves nothing open, unless it ends in a semicolon, if code
follows it, or if a comment with an end does and it has a word of a statement.
A line that is blank to the draft and not to the lexer can hide what the last
token asks for. -/
theorem segment_finishes (script : Text) (pre post : List Block) (b c : Block)
    (h : segment script = pre ++ b :: c :: post)
    (hc : (∃ t ∈ tokenize c.content, t.isCode) ∨
      c.kind.isComment ∧ ∃ t ∈ tokenize b.content, t.keyword.any marksStatement)
    (hb : lastCode? (tokenize b.content) ≠ some .semicolon) :
    (Nesting.after (tokenize b.content)).depth = 0 ∧ openCases (tokenize b.content) = 0 ∧
      ((∀ l ∈ splitLines (unifyNewlines script), isBlankText l → l.all isSpaceChar) →
        (lastCode? (tokenize b.content)).any Token.leavesOpen = false) := by
  have hread := read_tokenize (unifyNewlines script)
  have hsoft : (∀ l ∈ splitLines (unifyNewlines script), isBlankText l → l.all isSpaceChar) →
      Soft (([] : List Line) ++ (stretches (lines (tokenize (unifyNewlines script)))).flatMap Stretch.lines) := by
    intro hp l hl
    rw [List.nil_append, flatMap_stretches] at hl
    refine hp l.text ?_
    rw [← map_text_lines]
    exact List.mem_map_of_mem hl
  have hchain := chained hread {} (next_tokenize (unifyNewlines script)) (kept_empty (by simp)) hsoft
  have hpass : Passes (∀ l ∈ splitLines (unifyNewlines script), isBlankText l → l.all isSpaceChar) b c := by
    rw [← segment, h] at hchain
    exact (List.isChain_cons_cons.mp (List.isChain_append.mp hchain).2.1).1
  rcases hpass with hsemi | hsettled | ⟨hcodeless, hunmarked⟩
  · exact absurd hsemi hb
  · exact ⟨hsettled.depth, hsettled.cases, hsettled.last⟩
  · rcases hc with ⟨t, ht, htc⟩ | ⟨hkind, t, ht, hmark⟩
    · rw [hcodeless t ht] at htc
      cases htc
    · rw [hunmarked hkind t ht] at hmark
      cases hmark

/-- Both SELECTs end where the next statement can start, the second one in
front of a comment. -/
theorem segment_finishes_select :
    segment "select (1\n)\nselect 2\n-- c\nselect 3".toList =
        [⟨.select, "select (1\n)".toList⟩, ⟨.select, "select 2".toList⟩, ⟨.commentGroup, "-- c".toList⟩,
          ⟨.select, "select 3".toList⟩] ∧
      ∀ b ∈ [Block.mk .select "select (1\n)".toList, ⟨.select, "select 2".toList⟩],
        (Nesting.after (tokenize b.content)).depth = 0 ∧ openCases (tokenize b.content) = 0 ∧
          (lastCode? (tokenize b.content)).any Token.leavesOpen = false := by
  have h : segment "select (1\n)\nselect 2\n-- c\nselect 3".toList =
      [⟨.select, "select (1\n)".toList⟩, ⟨.select, "select 2".toList⟩, ⟨.commentGroup, "-- c".toList⟩,
        ⟨.select, "select 3".toList⟩] := by decide +kernel
  obtain ⟨h₁, h₂, h₃⟩ := segment_finishes _ [] _ _ _ h (Or.inl (by decide +kernel)) (by decide +kernel)
  obtain ⟨k₁, k₂, k₃⟩ := segment_finishes _ [⟨.select, "select (1\n)".toList⟩] _ _ _ h
    (Or.inr (by decide +kernel)) (by decide +kernel)
  refine ⟨h, List.forall_mem_cons.mpr ⟨⟨h₁, h₂, h₃ (by decide +kernel)⟩, List.forall_mem_singleton.mpr ?_⟩⟩
  exact ⟨k₁, k₂, k₃ (by decide +kernel)⟩

/-- A comment cuts where no word of a statement was seen and the line behind it
starts a statement, even inside parentheses, and a comment without its end cuts
anywhere. A line that is blank to the draft hides a comma. -/
theorem segment_cuts_at_comment :
    segment "if (\n-- c\nselect 1)".toList =
        [⟨.generic, "if (".toList⟩, ⟨.commentGroup, "-- c".toList⟩, ⟨.select, "select 1)".toList⟩] ∧
      lastCode? (tokenize "if (".toList) ≠ some .semicolon ∧
      (Nesting.after (tokenize "if (".toList)).depth ≠ 0 ∧
    segment "select (\n/* c".toList = [⟨.select, "select (".toList⟩, ⟨.generic, "/* c".toList⟩] ∧
      lastCode? (tokenize "select (".toList) ≠ some .semicolon ∧
      (Nesting.after (tokenize "select (".toList)).depth ≠ 0 ∧
    segment "select 1,\n\u00a0\nselect 2".toList = [⟨.select, "select 1,".toList⟩, ⟨.select, "select 2".toList⟩] ∧
      lastCode? (tokenize "select 1,".toList) = some .comma :=
  ⟨by decide +kernel, by decide +kernel, by decide +kernel, by decide +kernel, by decide +kernel, by decide +kernel,
    by decide +kernel, by decide +kernel⟩

end SqlLayout
