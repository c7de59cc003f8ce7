import SqlLayout.Proofs.Items
import SqlLayout.Proofs.Looks

/-!
# Blocks are runs of lines

The blocks of a script are runs of its lines in order, with blank lines around
them (`segment_tiles`). A token that is not space has characters in one block
at most: a line that starts inside a token is never the first of a piece that
blocks are cut from.
-/

namespace SqlLayout

/-! ## Lines of one token -/

def lineAt (s : Text) (p : Nat) : Nat := (s.take p).count '\n'

theorem count_parts {p z : Text} {ms : List Text} (hn : ∀ x ∈ p :: ms ++ [z], '\n' ∉ x) :
    (joinLines (p :: ms ++ [z])).count '\n' = ms.length + 1 := by
  rw [count_joinLines hn]
  simp

/-- Tokens in front only push the later lines down. -/
theorem drop_lines (us ts : List Token) :
    (lines (us ++ ts)).drop ((spell us).count '\n' + 1) = (lines ts).drop 1 := by
  induction us with
  | nil => rfl
  | cons u us ih =>
    obtain ⟨l, ls, h⟩ := List.exists_cons_of_ne_nil (lines_ne_nil (us ++ ts))
    rw [h, List.drop_succ_cons] at ih
    rw [spell_cons, List.count_append, List.cons_append]
    rcases lines_cons (t := u) h with ⟨hn, e⟩ | ⟨p, ms, z, et, hn, e⟩
    · rw [e, List.count_eq_zero.mpr hn, Nat.zero_add, List.drop_succ_cons, ih]
    · have hlen : ms.length + 1 + (spell us).count '\n' + 1 =
          (ms.map fun m => ({ text := m, continued := !u.isSpace } : Line)).length + ((spell us).count '\n' + 1) + 1 := by
        rw [List.length_map]
        omega
      rw [e, et, count_parts hn, hlen, List.cons_append, List.drop_succ_cons, List.drop_length_add_append,
        List.drop_succ_cons, ih]

theorem getElem_lines (us ts : List Token) {k : Nat} (hk : 0 < k) :
    (lines (us ++ ts))[(spell us).count '\n' + k]? = (lines ts)[k]? := by
  obtain ⟨k, rfl⟩ := Nat.exists_eq_add_of_lt hk
  have h := congrArg (·[k]?) (drop_lines us ts)
  simp only [List.getElem?_drop] at h
  rw [Nat.zero_add, ← Nat.add_assoc, Nat.add_right_comm, h, Nat.add_comm]

/-- A line on which a character of a token stands, behind the line on which
the token starts. -/
theorem continued_inside {t : Token} (ht : t.isSpace = false) (vs : List Token) {q k : Nat} (hq : q < t.text.length)
    (hk : 0 < k) (hle : k ≤ lineAt t.text q) {l : Line} (hl : (lines (t :: vs))[k]? = some l) : l.continued := by
  obtain ⟨m, ls, h⟩ := List.exists_cons_of_ne_nil (lines_ne_nil vs)
  have htake : lineAt t.text q ≤ t.text.count '\n' := (List.take_sublist q _).count_le _
  rcases lines_cons (t := t) h with ⟨hn, -⟩ | ⟨p, ms, z, et, hn, e⟩
  · rw [List.count_eq_zero.mpr hn] at htake
    omega
  · have hcount : t.text.count '\n' = ms.length + 1 := by rw [et, count_parts hn]
    obtain ⟨k, rfl⟩ := Nat.exists_eq_add_of_lt hk
    rw [e, List.cons_append, Nat.zero_add, List.getElem?_cons_succ] at hl
    by_cases hm : k < ms.length
    · rw [List.getElem?_append_left (by simpa using hm), List.getElem?_map] at hl
      obtain ⟨x, -, rfl⟩ := Option.map_eq_some_iff.mp hl
      simp [ht]
    · -- the last line of the token, which is not empty as a character stands on it
      obtain rfl : k = ms.length := by omega
      have hz : z ≠ [] := by
        rintro rfl
        have hend : t.text = joinLines (p :: ms) ++ ['\n'] := by
          rw [et, joinLines_append (List.cons_ne_nil _ _) (List.cons_ne_nil _ _), joinLines_singleton]
        have hlast : lineAt t.text q ≤ (joinLines (p :: ms)).count '\n' := by
          have hlen : t.text.length = (joinLines (p :: ms)).length + 1 := by simp [hend]
          rw [lineAt, hend, List.take_append_of_le_length (by omega)]
          exact (List.take_sublist q _).count_le _
        rw [count_joinLines fun x hx => hn x (List.mem_append_left _ hx), List.length_cons] at hlast
        omega
      rw [List.getElem?_append_right (by simp), List.length_map, Nat.sub_self, List.getElem?_cons_zero] at hl
      obtain rfl := Option.some.inj hl
      simp [ht, hz]

theorem lineAt_append (us : Text) {t vs : Text} {p : Nat} (h₁ : us.length ≤ p) (h₂ : p < us.length + t.length) :
    lineAt (us ++ (t ++ vs)) p = us.count '\n' + lineAt t (p - us.length) := by
  rw [lineAt, lineAt, List.take_append, List.take_of_length_le h₁, List.count_append,
    List.take_append_of_le_length (by omega)]

theorem continued_between {s : Text} {us vs : List Token} {t : Token} (h : tokenize s = us ++ t :: vs)
    (ht : t.isSpace = false) {p q : Nat} (hp : (spell us).length ≤ p) (hpq : p ≤ q)
    (hq : q < (spell us).length + t.text.length) {m : Nat} (h₁ : lineAt s p < m) (h₂ : m ≤ lineAt s q) {l : Line}
    (hl : (lines (tokenize s))[m]? = some l) : l.continued := by
  have hs : s = spell us ++ (t.text ++ spell vs) := by
    rw [← spell_cons, ← spell_append, ← h, spell_tokenize]
  rw [hs, lineAt_append _ hp (by omega)] at h₁
  rw [hs, lineAt_append _ (by omega) hq] at h₂
  obtain ⟨k, rfl⟩ : ∃ k, m = (spell us).count '\n' + k := ⟨m - (spell us).count '\n', by omega⟩
  have hk : lineAt t.text (p - (spell us).length) < k := by omega
  rw [h, getElem_lines us _ (by omega)] at hl
  exact continued_inside ht vs (q := q - (spell us).length) (by omega) (by omega) (by omega) hl

/-! ## Blank lines -/

def Line.IsIdle (l : Line) : Prop := l.continued = false ∧ l.tokens.all Token.isSpace

theorem head_not_continued {ts : List Token} {l : Line} {ls : List Line} (h : lines ts = l :: ls) :
    l.continued = false := by
  obtain ⟨l', ls', h', hc⟩ := head_lines ts
  rw [h] at h'
  exact (List.cons.inj h').1 ▸ hc

theorem space_of_isIdle {ts : List Token} (hf : ∀ t ∈ ts, t.Formed) : ∀ l ∈ lines ts, l.IsIdle → l.text.all isSpaceChar := by
  induction ts with
  | nil =>
    intro l hl _
    obtain rfl : l = {} := by simpa [lines] using hl
    rfl
  | cons t ts ih =>
    obtain ⟨l, ls, h⟩ := List.exists_cons_of_ne_nil (lines_ne_nil ts)
    have hc := head_not_continued h
    rw [h] at ih
    have ih := ih fun u hu => hf u (List.mem_cons_of_mem _ hu)
    have htext : t.isSpace → t.text.all isSpaceChar := by
      intro hs
      obtain ⟨w, rfl⟩ := Token.eq_whitespace hs
      exact (hf _ List.mem_cons_self).2
    intro k hk hidle
    rcases lines_cons (t := t) h with ⟨-, e⟩ | ⟨p, ms, z, et, hn, e⟩
    · rw [e] at hk
      rcases List.mem_cons.mp hk with rfl | hk
      · obtain ⟨-, htok⟩ := hidle
        simp only [List.all_cons, Bool.and_eq_true] at htok
        simp [htext htok.1, ih l List.mem_cons_self ⟨hc, htok.2⟩]
      · exact ih k (List.mem_cons_of_mem _ hk) hidle
    · have hpart : t.isSpace → ∀ x ∈ p :: ms ++ [z], x.all isSpaceChar := by
        intro hs x hx
        have := htext hs
        rw [et, List.all_eq_true] at this
        exact List.all_eq_true.mpr fun c hc => this c (mem_joinLines hx hc)
      rw [e, List.cons_append] at hk
      obtain ⟨hcont, htok⟩ := hidle
      rcases List.mem_cons.mp hk with rfl | hk
      · exact hpart (by simpa using htok) p (by simp)
      rcases List.mem_append.mp hk with hk | hk
      · obtain ⟨m, hm, rfl⟩ := List.mem_map.mp hk
        exact hpart (by simpa using hcont) m (by simp [hm])
      rcases List.mem_cons.mp hk with rfl | hk
      · have hl := ih l List.mem_cons_self ⟨hc, htok⟩
        have hz : z.all isSpaceChar := by
          rcases Bool.eq_false_or_eq_true t.isSpace with hs | hs
          · exact hpart hs z (by simp)
          · obtain rfl : z = [] := by simpa [hs] using hcont
            rfl
        simp [hz, hl]
      · exact ih k (List.mem_cons_of_mem _ hk) ⟨hcont, htok⟩

theorem mem_text_of_mem_tokens {ts : List Token} {l : Line} (hl : l ∈ lines ts) {t : Token} (ht : t ∈ l.tokens) {c : Char}
    {s : Text} (htext : t.text = c :: s) (hc : c ≠ '\n') : c ∈ l.text := by
  induction ts generalizing l with
  | nil =>
    obtain rfl : l = {} := by simpa [lines] using hl
    cases ht
  | cons u ts ih =>
    obtain ⟨m, ms, h⟩ := List.exists_cons_of_ne_nil (lines_ne_nil ts)
    rw [h] at ih
    rcases lines_cons (t := u) h with ⟨-, e⟩ | ⟨p, ps, z, et, hn, e⟩
    · rw [e] at hl
      rcases List.mem_cons.mp hl with rfl | hl
      · rcases List.mem_cons.mp ht with rfl | ht
        · exact List.mem_append_left _ (by rw [htext]; exact List.mem_cons_self)
        · exact List.mem_append_right _ (ih List.mem_cons_self ht)
      · exact ih (List.mem_cons_of_mem _ hl) ht
    · rw [e, List.cons_append] at hl
      rcases List.mem_cons.mp hl with rfl | hl
      · obtain rfl := List.mem_singleton.mp ht
        -- the first line of the token is not empty, as it does not start with a newline
        cases p with
        | nil =>
          rw [htext] at et
          cases ps <;> exact absurd (List.cons.inj et).1 hc
        | cons d p =>
          rw [htext] at et
          have : c = d := by cases ps <;> exact (List.cons.inj et).1
          exact this ▸ List.mem_cons_self
      rcases List.mem_append.mp hl with hl | hl
      · obtain ⟨x, -, rfl⟩ := List.mem_map.mp hl
        cases ht
      rcases List.mem_cons.mp hl with rfl | hl
      · exact List.mem_append_right _ (ih List.mem_cons_self ht)
      · exact ih (List.mem_cons_of_mem _ hl) ht

theorem not_blank_of_comment {ts : List Token} (hf : ∀ t ∈ ts, t.Formed) {l : Line} (hl : l ∈ lines ts) {c : Text}
    (hc : .blockComment c ∈ l.tokens) : ¬isBlankText l.text := by
  have hmem : .blockComment c ∈ tokensOf (lines ts) := List.mem_flatMap.mpr ⟨l, hl, hc⟩
  rw [tokensOf_lines] at hmem
  obtain ⟨b, rfl, -⟩ := hf _ hmem
  intro hblank
  have := List.all_eq_true.mp hblank _ (mem_text_of_mem_tokens hl hc rfl (by decide))
  cases this

def Line.GoesOn (l : Line) : Prop :=
  (l.continued ∧ l.tokens = []) ∨ ∃ t ∈ l.tokens.getLast?, t.isSpace = false ∧ '\n' ∈ t.text

theorem Line.IsIdle.not_goesOn {l : Line} (h : l.IsIdle) : ¬l.GoesOn := by
  rintro (⟨hc, -⟩ | ⟨t, ht, hs, -⟩)
  · simp [h.1] at hc
  · have := List.all_eq_true.mp h.2 t (List.mem_of_getLast? ht)
    simp [hs] at this

def Runs (ls : List Line) : Prop := List.IsChain (fun k l => l.continued → k.GoesOn) ls

theorem Runs.insert {c : Bool} {k m : Line} {ls : List Line} (h : Runs (m :: ls)) (hm : m.continued → c)
    (hk : c → k.GoesOn) (ms : List Text) :
    Runs (k :: (ms.map (fun x => ({ text := x, continued := c } : Line)) ++ m :: ls)) := by
  induction ms generalizing k with
  | nil => exact List.isChain_cons_cons.mpr ⟨fun hc => hk (hm hc), h⟩
  | cons x ms ih => exact List.isChain_cons_cons.mpr ⟨hk, ih fun hc => Or.inl ⟨hc, rfl⟩⟩

theorem runs_lines (ts : List Token) : Runs (lines ts) := by
  induction ts with
  | nil => exact List.isChain_singleton _
  | cons t ts ih =>
    obtain ⟨l, ls, h⟩ := List.exists_cons_of_ne_nil (lines_ne_nil ts)
    have hc := head_not_continued h
    rw [h] at ih
    -- the line in front may get more tokens
    have front : ∀ {k : Line}, (∀ t ∈ l.tokens.getLast?, t ∈ k.tokens.getLast?) → Runs (k :: ls) := by
      intro k hk
      refine List.IsChain.imp_head (fun hl hm => ?_) ih
      rcases hl hm with ⟨hcont, -⟩ | ⟨u, hu, hgoes⟩
      · simp [hc] at hcont
      · exact Or.inr ⟨u, hk u hu, hgoes⟩
    rcases lines_cons (t := t) h with ⟨-, e⟩ | ⟨p, ms, z, et, hn, e⟩
    · rw [e]
      refine front fun u hu => ?_
      rw [List.getLast?_cons, Option.mem_def.mp hu]
      rfl
    · have hlast := @front { l with text := z ++ l.text, continued := !t.isSpace && z ≠ [] } fun u hu => hu
      rw [e, List.cons_append]
      refine hlast.insert (fun ht => ?_) (fun ht => Or.inr ⟨t, rfl, ?_, ?_⟩) ms
      · exact (Bool.and_eq_true_iff.mp ht).1
      · simpa using ht
      · rw [et, ← List.count_pos_iff, count_parts hn]
        exact Nat.succ_pos _

structure Stretch.Ordered (s : Stretch) : Prop where
  first : s.first.continued = false
  goesOn : s.more ≠ [] → s.first.GoesOn
  blank : s.opening = .blank → ∀ l ∈ s.lines, isBlankText l.text
  comment : s.opening = .comment → ¬isBlankText s.first.text

theorem ordered_stretches {ls : List Line} (hhead : ls.head?.all fun l => !l.continued) (hruns : Runs ls)
    (hspace : ∀ l ∈ ls, l.IsIdle → l.text.all isSpaceChar)
    (hcomment : ∀ l ∈ ls, ∀ c, .blockComment c ∈ l.tokens → ¬isBlankText l.text) : ∀ s ∈ stretches ls, s.Ordered := by
  fun_induction stretches ls with
  | case1 => simp
  | case2 l ls ih =>
    have hl : l.continued = false := by simpa using hhead
    have hgoes : ls.takeWhile Line.continued ≠ [] → l.GoesOn := by
      intro hmore
      cases ls with
      | nil => exact absurd rfl hmore
      | cons m ls =>
        refine (List.isChain_cons_cons.mp hruns).1 ?_
        by_contra hm
        exact hmore (List.takeWhile_cons_of_neg hm)
    intro s hs
    rcases List.mem_cons.mp hs with rfl | hs
    · refine ⟨hl, hgoes, fun ho => ?_, fun ho => ?_⟩
      · have hidle : l.IsIdle := ⟨hl, Stretch.opening_blank ho⟩
        have hmore : ls.takeWhile Line.continued = [] := not_not.mp (mt hgoes hidle.not_goesOn)
        simp only [Stretch.lines, hmore, List.mem_singleton, forall_eq]
        exact List.all_eq_true.mpr fun c hc =>
          isBlank_of_isSpaceChar (List.all_eq_true.mp (hspace l List.mem_cons_self hidle) c hc)
      · obtain ⟨c, ts, e, -⟩ := Stretch.opening_comment ho
        exact hcomment l List.mem_cons_self c ((List.dropWhile_sublist _).subset (by rw [e]; exact List.mem_cons_self))
    · have hsuffix := List.dropWhile_suffix (l := ls) Line.continued
      refine ih ?_ ?_ (fun k hk => hspace k (List.mem_cons_of_mem _ (hsuffix.subset hk)))
        (fun k hk => hcomment k (List.mem_cons_of_mem _ (hsuffix.subset hk))) s hs
      · have := List.head?_dropWhile_not Line.continued ls
        cases h : (ls.dropWhile Line.continued).head? <;> simp_all
      · exact hruns.suffix (hsuffix.trans (List.suffix_cons l ls))

theorem ordered_tokenize (s : Text) : ∀ x ∈ stretches (lines (tokenize s)), x.Ordered := by
  refine ordered_stretches ?_ (runs_lines _) (space_of_isIdle fun t => formed_of_mem)
    fun l hl c hc => not_blank_of_comment (fun t => formed_of_mem) hl hc
  obtain ⟨l, ls, e, hl⟩ := head_lines (tokenize s)
  simp [e, hl]

/-! ## Pieces of a script -/

/-- The lines are blank but for a run of them that is the block, if there is
one. The run does not start with a blank line. -/
inductive Frames : List Text → List Block → Prop
  | blank {ls : List Text} (h : ∀ l ∈ ls, isBlankText l) : Frames ls []
  | block {above ls below : List Text} (k : BlockKind) (hne : ls ≠ []) (hhead : ∀ l ∈ ls.head?, ¬isBlankText l)
      (habove : ∀ l ∈ above, isBlankText l)
      (hbelow : ∀ l ∈ below, isBlankText l) : Frames (above ++ (ls ++ below)) [⟨k, joinLines ls⟩]

theorem Draft.frames (d : Draft) : Frames (d.lines.map Line.text) d.block?.toList := by
  have habove : ∀ l ∈ (d.lines.map Line.text).takeWhile isBlankText, isBlankText l := fun l => List.mem_takeWhile_imp
  have hsplit := List.takeWhile_append_dropWhile (p := isBlankText) (l := d.lines.map Line.text)
  have hfirst : ∀ l ∈ ((d.lines.map Line.text).dropWhile isBlankText).head?, ¬isBlankText l := by
    have := List.head?_dropWhile_not isBlankText (d.lines.map Line.text)
    intro l hl
    simpa [Option.mem_def.mp hl] using this
  rw [Draft.block?]
  generalize (d.lines.map Line.text).dropWhile isBlankText = texts at hsplit hfirst
  rw [← hsplit]
  split_ifs with hnil hun
  · subst hnil
    rw [List.append_nil]
    exact .blank habove
  · have := Frames.block .generic hnil hfirst habove (List.forall_mem_nil fun l => isBlankText l = true)
    simpa using this
  · have hbelow : ∀ l ∈ takeEndWhile isBlankText texts, isBlankText l := by
      intro l hl
      exact List.mem_takeWhile_imp (List.mem_reverse.mp hl)
    have hparts := dropEndWhile_append_takeEndWhile isBlankText texts
    have hend : dropEndWhile isBlankText texts ≠ [] := by
      intro hend
      obtain ⟨l, ls, rfl⟩ := List.exists_cons_of_ne_nil hnil
      rw [hend, List.nil_append] at hparts
      exact hfirst l rfl (hbelow l (by rw [hparts]; exact List.mem_cons_self))
    have hhead : ∀ l ∈ (dropEndWhile isBlankText texts).head?, ¬isBlankText l := by
      obtain ⟨l, ls, e⟩ := List.exists_cons_of_ne_nil hend
      intro k hk
      refine hfirst k ?_
      rw [e] at hk
      rwa [← hparts, e]
    have := Frames.block (d.kind.getD .commentGroup) hend hhead habove hbelow
    rwa [hparts] at this

inductive Covers : List Line → List Block → Prop
  | nil : Covers [] []
  | cons {piece rest : List Line} {bs cs : List Block} (frames : Frames (piece.map Line.text) bs)
      (head : rest.head?.all fun l => !l.continued) (covers : Covers rest cs) : Covers (piece ++ rest) (bs ++ cs)

theorem head_stretches {ss : List Stretch} (h : ∀ s ∈ ss, s.Ordered) :
    (ss.flatMap Stretch.lines).head?.all fun l => !l.continued := by
  cases ss with
  | nil => rfl
  | cons s ss => simp [Stretch.lines, (h s List.mem_cons_self).first]

theorem covers_blocksFrom (d : Draft) {ss : List Stretch} (h : ∀ s ∈ ss, s.Ordered) :
    Covers (d.lines ++ ss.flatMap Stretch.lines) (blocksFrom d ss) := by
  induction ss generalizing d with
  | nil => simpa [blocksFrom] using Covers.cons d.frames rfl .nil
  | cons s ss ih =>
    have hrest : ∀ r ∈ ss, r.Ordered := fun r hr => h r (List.mem_cons_of_mem _ hr)
    have hpush : ∀ d : Draft, Covers (d.lines ++ (s :: ss).flatMap Stretch.lines) (blocksFrom (d.push s.lines) ss) := by
      intro d
      simpa [Draft.push] using ih (d.push s.lines) hrest
    -- the draft ends in front of the stretch
    have hend : ∀ {cs : List Block}, Covers ((s :: ss).flatMap Stretch.lines) cs →
        Covers (d.lines ++ (s :: ss).flatMap Stretch.lines) (d.block?.toList ++ cs) :=
      fun hc => .cons d.frames (head_stretches h) hc
    -- a block ends with the stretch
    have hdone : ∀ {ls : List Line} {bs : List Block}, Frames (ls.map Line.text) bs →
        Covers (ls ++ ss.flatMap Stretch.lines) (bs ++ blocksFrom {} ss) :=
      fun hf => .cons hf (head_stretches hrest) (by simpa using ih {} hrest)
    rw [blocksFrom]
    split
    · next ho =>
      split
      · next hd =>
        have hblank : ∀ l ∈ s.lines.map Line.text, isBlankText l := by
          simpa using (h s List.mem_cons_self).blank ho
        have := Covers.cons (Frames.blank hblank) (head_stretches hrest) (by simpa [hd] using ih d hrest)
        simpa [hd] using this
      · exact hpush d
    · split
      · exact hpush d
      · exact hend (by simpa using hpush { kind := some .commentGroup })
    · next ho =>
      split
      · exact hpush d
      · have hf : Frames (s.lines.map Line.text) [⟨.comment, joinLines (s.lines.map Line.text)⟩] := by
          have hnil := List.forall_mem_nil fun l => isBlankText l = true
          have hne : s.lines.map Line.text ≠ [] := by simp [Stretch.lines]
          have hhead : ∀ l ∈ (s.lines.map Line.text).head?, ¬isBlankText l := by
            intro l hl
            obtain rfl : s.first.text = l := by simpa [Stretch.lines] using hl
            exact (h s List.mem_cons_self).comment ho
          simpa using Frames.block .comment hne hhead hnil hnil
        exact hend (by simpa using hdone hf)
    · refine hend ?_
      simpa [Draft.push] using Covers.cons
        (Draft.push { kind := some .generic } ((s :: ss).flatMap Stretch.lines)).frames rfl .nil
    · next classified face _ =>
      have hcode : ∀ d : Draft, Covers (d.lines ++ (s :: ss).flatMap Stretch.lines)
          (if (d.push s.lines).isComplete s.last ss then (d.push s.lines).block?.toList ++ blocksFrom {} ss
            else blocksFrom (d.push s.lines) ss) := by
        intro d
        split
        · simpa [Draft.push] using hdone (d.push s.lines).frames
        · exact hpush d
      by_cases hnote : d.kind = some .commentGroup
      · simp only [hnote, ite_true]
        exact hend (by simpa using hcode { kind := some (Option.getD none classified.classify) })
      · simp only [hnote, ite_false, List.nil_append]
        exact hcode { d with kind := some (d.kind.getD classified.classify) }

/-! ## Tiles -/

/-- The lines of a block and the blank lines behind them. -/
structure Tile where
  lines : List Text
  gap : List Text

def Tile.all (t : Tile) : List Text := t.lines ++ t.gap

/-- For each line the number of the block it is part of, the first block
having the number `n`. -/
def ownersFrom (n : Nat) : List Tile → List (Option Nat)
  | [] => []
  | t :: ts => List.replicate t.lines.length (some n) ++ (List.replicate t.gap.length none ++ ownersFrom (n + 1) ts)

def owners (gap : List Text) (tiles : List Tile) : List (Option Nat) :=
  List.replicate gap.length none ++ ownersFrom 0 tiles

/-- Two lines with lines between them that all start inside a token are not
part of different blocks. -/
def Steady (ls : List Line) (os : List (Option Nat)) : Prop :=
  ∀ i j a b, i ≤ j → (∀ (m : Nat) (l : Line), i < m → m ≤ j → ls[m]? = some l → l.continued) →
    os[i]? = some (some a) → os[j]? = some (some b) → a = b

theorem Steady.append {ls ms : List Line} {ps : List (Option Nat)} (os : List (Option Nat)) (n : Nat) (hlen : os.length = ls.length)
    (hlen' : ps.length = ms.length) (hos : ∀ a, some a ∈ os → a = n) (hms : ms.head?.all fun l => !l.continued)
    (h : Steady ms ps) : Steady (ls ++ ms) (os ++ ps) := by
  intro i j a b hij hbetween hi hj
  by_cases hj' : j < os.length
  · rw [List.getElem?_append_left hj'] at hj
    rw [List.getElem?_append_left (by omega)] at hi
    rw [hos a (List.mem_of_getElem? hi), hos b (List.mem_of_getElem? hj)]
  by_cases hi' : i < os.length
  · -- the first line behind the piece does not start inside a token
    have hj'' : j < os.length + ps.length := by
      have := (List.getElem?_eq_some_iff.mp hj).1
      rwa [List.length_append] at this
    obtain ⟨m, ms, rfl⟩ := List.exists_cons_of_length_pos (l := ms) (by omega)
    have hm := hbetween os.length m hi' (by omega) (by simp [hlen])
    simp [hm] at hms
  · obtain ⟨i, rfl⟩ := Nat.exists_eq_add_of_le (Nat.not_lt.mp hi')
    obtain ⟨j, rfl⟩ := Nat.exists_eq_add_of_le (Nat.not_lt.mp hj')
    rw [List.getElem?_append_right (by omega), Nat.add_sub_cancel_left] at hi hj
    refine h i j a b (by omega) (fun m l h₁ h₂ hl => ?_) hi hj
    refine hbetween (os.length + m) l (by omega) (by omega) ?_
    rwa [List.getElem?_append_right (by omega), hlen, Nat.add_sub_cancel_left]

theorem length_ownersFrom (n : Nat) (tiles : List Tile) : (ownersFrom n tiles).length = (tiles.flatMap Tile.all).length := by
  induction tiles generalizing n with
  | nil => rfl
  | cons t ts ih => simp [ownersFrom, Tile.all, ih]

structure Tiled (ls : List Line) (bs : List Block) (gap : List Text) (tiles : List Tile) : Prop where
  lines : ls.map Line.text = gap ++ tiles.flatMap Tile.all
  blank : ∀ l ∈ gap ++ tiles.flatMap Tile.gap, isBlankText l
  contents : bs.map Block.content = tiles.map fun t => joinLines t.lines
  filled : ∀ t ∈ tiles, t.lines ≠ []
  heads : ∀ t ∈ tiles, ∀ l ∈ t.lines.head?, ¬isBlankText l
  steady : ∀ n, Steady ls (List.replicate gap.length none ++ ownersFrom n tiles)

theorem Covers.tiled {ls : List Line} {bs : List Block} (h : Covers ls bs) : ∃ gap tiles, Tiled ls bs gap tiles := by
  induction h with
  | nil => exact ⟨[], [], rfl, by simp, rfl, by simp, by simp, by intro n i j a b _ _ hi; simp [ownersFrom] at hi⟩
  | @cons piece rest bs cs frames head covers ih =>
    obtain ⟨gap, tiles, ih⟩ := ih
    have hrest : ∀ n, (List.replicate gap.length none ++ ownersFrom n tiles).length = rest.length := by
      intro n
      have := congrArg List.length ih.lines
      simpa [length_ownersFrom] using this.symm
    have hblank := ih.blank
    generalize e : piece.map Line.text = texts at frames
    have hlen : texts.length = piece.length := by rw [← e, List.length_map]
    cases frames with
    | blank hb =>
      refine ⟨texts ++ gap, tiles, ?_, ?_, ih.contents, ih.filled, ih.heads, fun n => ?_⟩
      · simp [e, ih.lines]
      · intro l hl
        simp only [List.append_assoc, List.mem_append] at hl hblank
        exact hl.elim (hb l) (hblank l)
      · have := Steady.append (List.replicate texts.length none) 0 (by simpa using hlen) (hrest n) (by simp)
          head (ih.steady n)
        rwa [← List.append_assoc, List.replicate_append_replicate, ← List.length_append] at this
    | @block above run below k hne hhead habove hbelow =>
      refine ⟨above, ⟨run, below ++ gap⟩ :: tiles, ?_, ?_, ?_, ?_, ?_, fun n => ?_⟩
      · simp [e, ih.lines, Tile.all]
      · intro l hl
        simp only [List.flatMap_cons, List.mem_append] at hl hblank
        rcases hl with hl | (hl | hl) | hl
        · exact habove l hl
        · exact hbelow l hl
        · exact hblank l (Or.inl hl)
        · exact hblank l (Or.inr hl)
      · simp [ih.contents]
      · exact List.forall_mem_cons.mpr ⟨hne, ih.filled⟩
      · exact List.forall_mem_cons.mpr ⟨hhead, ih.heads⟩
      · have := Steady.append (List.replicate above.length none ++ (List.replicate run.length (some n) ++
          List.replicate below.length none)) n (by simpa using hlen) (hrest (n + 1)) ?_ head (ih.steady (n + 1))
        · rw [ownersFrom, List.length_append, ← List.replicate_append_replicate]
          simpa only [List.append_assoc] using this
        · intro a ha
          have : run ≠ [] ∧ a = n := by simpa using ha
          exact this.2

theorem covers_segment (script : Text) : Covers (lines (tokenize (unifyNewlines script))) (segment script) := by
  have := covers_blocksFrom {} (ordered_tokenize (unifyNewlines script))
  rwa [List.nil_append, flatMap_stretches] at this

/-- The lines of a script are blocks with blank lines around them, and no
token that is not space has characters in two blocks. -/
theorem segment_tiles (script : Text) :
    ∃ gap tiles, splitLines (unifyNewlines script) = gap ++ tiles.flatMap Tile.all ∧
      (∀ l ∈ gap ++ tiles.flatMap Tile.gap, trim l = []) ∧ (∀ t ∈ tiles, t.lines ≠ []) ∧
      (segment script).map Block.content = tiles.map (fun t => joinLines t.lines) ∧
      ∀ us t vs, tokenize (unifyNewlines script) = us ++ t :: vs → t.isSpace = false →
        ∀ p q a b, (spell us).length ≤ p → p < (spell us).length + t.text.length →
          (spell us).length ≤ q → q < (spell us).length + t.text.length →
          (owners gap tiles)[lineAt (unifyNewlines script) p]? = some (some a) →
          (owners gap tiles)[lineAt (unifyNewlines script) q]? = some (some b) → a = b := by
  obtain ⟨gap, tiles, h⟩ := (covers_segment script).tiled
  refine ⟨gap, tiles, ?_, ?_, h.filled, h.contents, ?_⟩
  · rw [← h.lines, map_text_lines]
  · exact fun l hl => trim_eq_nil.mpr (h.blank l hl)
  · intro us t vs htokens ht p q a b hp hp' hq hq' ha hb
    -- of two characters of the token the later one stands on a later line or on the same
    have ordered : ∀ {p q a b}, p ≤ q → (spell us).length ≤ p → q < (spell us).length + t.text.length →
        (owners gap tiles)[lineAt (unifyNewlines script) p]? = some (some a) →
        (owners gap tiles)[lineAt (unifyNewlines script) q]? = some (some b) → a = b := by
      intro p q a b hpq hp hq ha hb
      have hle : lineAt (unifyNewlines script) p ≤ lineAt (unifyNewlines script) q :=
        ((List.take_prefix_take_left hpq).sublist).count_le _
      exact h.steady 0 _ _ a b hle (fun m l h₁ h₂ hl => continued_between htokens ht hp hpq hq h₁ h₂ hl) ha hb
    rcases Nat.le_total p q with hpq | hpq
    · exact ordered hpq hp hq' ha hb
    · exact (ordered hpq hq hp' hb ha).symm

end SqlLayout
