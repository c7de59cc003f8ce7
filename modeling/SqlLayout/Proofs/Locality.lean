import SqlLayout.Script
import SqlLayout.Proofs.Shades
import SqlLayout.Proofs.Tiles

/-!
# Scripts one after the other

A script that ends in a semicolon is cut into the same blocks whatever follows
on later lines, and what follows is cut as if it stood alone
(`segment_append`). A look ahead from inside the first script meets the
semicolon before it leaves the script, and behind it a new draft starts.
-/

namespace SqlLayout

theorem bare_bare (x : Stretch) : x.bare.bare = x.bare := by
  simp [Stretch.bare, Line.bare, Function.comp_def]

theorem blocksFrom_bares (xs : List Stretch) : blocksFrom {} (xs.map Stretch.bare) = blocksFrom {} xs := by
  have h : (blocksFrom {} (xs.map Stretch.bare)).map (Block.under id) = (blocksFrom {} xs).map (Block.under id) := by
    refine blocksFrom_congr shade_id ⟨rfl, rfl, rfl⟩ ?_
    rw [List.map_map]
    exact List.map_congr_left fun x _ => bare_bare x
  rwa [Block.map_under_id, Block.map_under_id] at h

theorem segment_eq (script : Text) : segment script = blocksFrom {} (stretchesOf (unifyNewlines script)) :=
  (blocksFrom_bares _).symm

/-! ## The stretch of a semicolon -/

theorem code_eq_nil {l : Line} : l.code = [] ↔ ∀ t ∈ l.tokens, t.isCode = false := by
  simp [Line.code, List.filter_eq_nil_iff]

/-- A stretch that opens with a line comment is one line with nothing else on it. -/
theorem Stretch.tokens_of_lineComment {x : Stretch} (hx : x.Ordered) (hneat : x.first.Neat)
    (hformed : ∀ t ∈ x.first.tokens, t.Formed) (ho : x.opening = .lineComment) :
    x.more = [] ∧ (∃ c, .lineComment c ∈ x.first.tokens) ∧ ∀ t ∈ x.first.tokens, t.isSpace ∨ t.isLineComment := by
  obtain ⟨c, ts, e⟩ := Stretch.opening_lineComment ho
  obtain ⟨sp, hsp, htokens⟩ := tokens_eq_dropWhile e
  have hts := hneat.lineComment sp c ts htokens
  have hall : ∀ t ∈ x.first.tokens, t.isSpace ∨ t = .lineComment c := by
    intro t ht
    rw [htokens, List.mem_append, List.mem_cons] at ht
    rcases ht with ht | ht | ht
    · exact Or.inl (hsp t ht)
    · exact Or.inr ht
    · exact Or.inl (List.all_eq_true.mp hts t ht)
  have hmem : Token.lineComment c ∈ x.first.tokens := by simp [htokens]
  refine ⟨?_, ⟨c, hmem⟩, fun t ht => (hall t ht).imp_right (by rintro rfl; rfl)⟩
  by_contra hm
  rcases hx.goesOn hm with ⟨-, hnil⟩ | ⟨t, ht, hs, hn⟩
  · simp [hnil] at hmem
  · rcases hall t (List.mem_of_getLast? ht) with h | rfl
    · rw [hs] at h
      cases h
    · exact newline_notMem_lineComment (hformed _ hmem) hn

/-- A stretch without code on its last line, unless it opens with code. -/
theorem Stretch.code_last {x : Stretch} (hx : x.Ordered) (hneat : x.first.Neat)
    (hformed : ∀ t ∈ x.first.tokens, t.Formed) (hopen : x.opening ≠ .openComment) :
    x.last.code = [] ∨ ∃ c f, x.opening = .code c f := by
  have hfirst : x.more = [] → x.last = x.first := by
    intro hm
    rw [Stretch.last, hm]
    rfl
  cases ho : x.opening with
  | blank =>
    have hspace := Stretch.opening_blank ho
    have hidle : x.first.IsIdle := ⟨hx.first, hspace⟩
    have hmore : x.more = [] := not_not.mp (mt hx.goesOn hidle.not_goesOn)
    rw [hfirst hmore, code_eq_nil]
    exact Or.inl fun t ht => isCode_of_isSpace (List.all_eq_true.mp hspace t ht)
  | lineComment =>
    obtain ⟨hmore, -, hall⟩ := Stretch.tokens_of_lineComment hx hneat hformed ho
    rw [hfirst hmore, code_eq_nil]
    refine Or.inl fun t ht => ?_
    rcases hall t ht with h | h
    · exact isCode_of_isSpace h
    · obtain ⟨c, rfl⟩ := Token.eq_lineComment h
      rfl
  | comment =>
    obtain ⟨ls, e⟩ := x.exists_last
    rw [code_eq_nil]
    refine Or.inl fun t ht => Stretch.code_of_comment ho hneat ?_
    rw [e, tokensOf_append]
    exact List.mem_append_right _ (by simpa using ht)
  | openComment => exact absurd ho hopen
  | code c f => exact Or.inr ⟨c, f, rfl⟩

/-! ## The line of a semicolon -/

theorem lines_inline {us : List Token} (h : '\n' ∉ spell us) : lines us = [{ text := spell us, tokens := us }] := by
  induction us with
  | nil => rfl
  | cons u us ih =>
    rw [spell_cons, List.mem_append, not_or] at h
    rcases lines_cons (t := u) (ih h.2) with ⟨-, e⟩ | ⟨p, ms, z, et, hn, -⟩
    · exact e
    · refine absurd ?_ h.1
      rw [et, ← List.count_pos_iff, count_parts hn]
      exact Nat.succ_pos _

theorem lines_front (ts : List Token) {us : List Token} {l : Line} (h : lines us = [l]) :
    ∃ init k pre, lines (ts ++ us) = init ++ [k] ∧ k.tokens = pre ++ l.tokens := by
  induction ts with
  | nil => exact ⟨[], l, [], by simpa using h, rfl⟩
  | cons t ts ih =>
    obtain ⟨init, k, pre, e, hk⟩ := ih
    rw [List.cons_append]
    cases init with
    | nil =>
      rcases lines_cons (t := t) e with ⟨-, e'⟩ | ⟨p, ms, z, -, -, e'⟩
      · exact ⟨[], _, t :: pre, e', by simp [hk]⟩
      · exact ⟨_, _, pre, e', hk⟩
    | cons m init =>
      refine ⟨m.behind t ++ init, k, pre, ?_, hk⟩
      rw [lines_cons_behind e, List.append_assoc]
      rfl

theorem endsInSemicolon_of_tokens {l : Line} {ts us : List Token} (h : l.tokens = ts ++ .semicolon :: us)
    (hu : ∀ t ∈ us, t.isTrivia) : l.endsInSemicolon := by
  have hcode : us.filter Token.isCode = [] := by
    rw [List.filter_eq_nil_iff]
    intro t ht
    simp [Token.isCode, hu t ht]
  have hsemi : Token.semicolon.isCode = true := rfl
  simp [Line.endsInSemicolon, Line.code, h, List.filter_cons_of_pos hsemi, hcode]

/-! ## Blocks of two scripts -/

theorem nextCodeLine_congr (xs : List Stretch) {zs zs' : List Stretch} (h : nextCodeLine zs = nextCodeLine zs') :
    nextCodeLine (xs ++ zs) = nextCodeLine (xs ++ zs') := by
  induction xs with
  | nil => exact h
  | cons x xs ih => rw [List.cons_append, List.cons_append, nextCodeLine, nextCodeLine, ih]

theorem keepsComment_append (d : Draft) {xs xs' : List Stretch} (h : nextCodeLine xs = nextCodeLine xs') :
    d.keepsComment xs = d.keepsComment xs' := by
  rw [Draft.keepsComment, Draft.keepsComment, h]

theorem isComplete_append (d : Draft) (last : Line) {xs xs' : List Stretch} (h : nextCodeLine xs = nextCodeLine xs') :
    d.isComplete last xs = d.isComplete last xs' := by
  rw [Draft.isComplete, Draft.isComplete, h]

/-- Behind the same stretches, two ends that look the same from afar make a
difference only for the draft that reaches them. -/
theorem blocksFrom_ends {xs zs zs' : List Stretch} {cs : List Block} {P : Draft → Prop}
    (hopen : ∀ x ∈ xs, x.opening ≠ .openComment) (hnext : nextCodeLine zs = nextCodeLine zs') (hnew : ∀ k, P { kind := k })
    (hpush : ∀ d, P d → ∀ x ∈ xs, ∀ k, P { d.push x.lines with kind := k })
    (h : ∀ d, P d → blocksFrom d zs = blocksFrom d zs' ++ cs) (d : Draft) (hd : P d) :
    blocksFrom d (xs ++ zs) = blocksFrom d (xs ++ zs') ++ cs := by
  induction xs generalizing d with
  | nil => exact h d hd
  | cons x xs ih =>
    have ih := ih (fun y hy => hopen y (List.mem_cons_of_mem _ hy))
      (fun d hd y hy => hpush d hd y (List.mem_cons_of_mem _ hy))
    have hpush' : ∀ d, P d → ∀ k, P { d.push x.lines with kind := k } := fun d hd => hpush d hd x List.mem_cons_self
    have hpush : ∀ d, P d → P (d.push x.lines) := fun d hd => hpush' d hd d.kind
    have hnext := nextCodeLine_congr xs hnext
    rw [List.cons_append, List.cons_append, blocksFrom, blocksFrom, keepsComment_append d hnext]
    cases ho : x.opening with
    | blank =>
      simp only
      split
      · exact ih d hd
      · exact ih _ (hpush d hd)
    | lineComment =>
      simp only
      split
      · exact ih _ (hpush d hd)
      · rw [ih _ (hpush _ (hnew _)), List.append_assoc]
    | comment =>
      simp only
      split
      · exact ih _ (hpush d hd)
      · rw [ih _ (hnew none), List.append_assoc, List.cons_append]
    | openComment => exact absurd ho (hopen x List.mem_cons_self)
    | code classified face =>
      have hcode : ∀ d : Draft, P d →
          (if d.isComplete x.last (xs ++ zs) then d.block?.toList ++ blocksFrom {} (xs ++ zs) else blocksFrom d (xs ++ zs)) =
          (if d.isComplete x.last (xs ++ zs') then d.block?.toList ++ blocksFrom {} (xs ++ zs')
            else blocksFrom d (xs ++ zs')) ++ cs := by
        intro d hd
        rw [isComplete_append d x.last hnext]
        split
        · rw [ih _ (hnew none), List.append_assoc]
        · exact ih d hd
      by_cases hnote : d.kind = some .commentGroup
      · simp only [hnote, ite_true]
        rw [hcode _ (hpush _ (hnew _)), List.append_assoc]
      · simp only [hnote, ite_false, List.nil_append]
        exact hcode _ (hpush' d hd _)

/-- Behind the stretch of a semicolon a new draft starts. -/
theorem blocksFrom_append (d : Draft) {xs : List Stretch} (ys : List Stretch) {x : Stretch} {c f : Line}
    (hopen : ∀ y ∈ xs, y.opening ≠ .openComment) (hx : x.opening = .code c f) (hs : x.last.endsInSemicolon) :
    blocksFrom d (xs ++ x :: ys) = blocksFrom d (xs ++ [x]) ++ blocksFrom {} ys := by
  have hcomplete : ∀ (d : Draft) (zs : List Stretch), d.isComplete x.last zs := by
    intro d zs
    simp [Draft.isComplete, hs]
  refine blocksFrom_ends (P := fun _ => True) hopen ?_ (fun _ => trivial) (fun _ _ _ _ _ => trivial) (fun d _ => ?_) d trivial
  · rw [nextCodeLine, nextCodeLine, hx]
  · have hnew : blocksFrom {} [] = [] := rfl
    rw [blocksFrom, blocksFrom, hx]
    simp only [hcomplete, ite_true, hnew, List.append_nil, List.append_assoc]

theorem unifyNewlines_append {a : Text} (h : '\r' ∉ a) (b : Text) : unifyNewlines (a ++ b) = a ++ unifyNewlines b := by
  induction a with
  | nil => rfl
  | cons c a ih =>
    rw [List.mem_cons, not_or] at h
    rw [List.cons_append, unifyNewlines, ih h.2, List.cons_append]
    rintro s rfl
    exact absurd rfl h.1

theorem Stretch.opening_bare (x : Stretch) : x.bare.opening.Alike x.opening :=
  Opening.alike_of_look (by rw [← x.bare.opening_look, x.look_bare, x.opening_look])

theorem opening_bare {x : Stretch} {c f : Line} (h : x.opening = .code c f) : ∃ c f, x.bare.opening = .code c f := by
  have ho := x.opening_bare
  rw [h] at ho
  generalize x.bare.opening = o at ho
  cases ho with
  | code => exact ⟨_, _, rfl⟩

theorem opening_bare_ne {x : Stretch} (h : x.opening ≠ .openComment) : x.bare.opening ≠ .openComment := by
  intro ho
  have halike := x.opening_bare
  rw [ho] at halike
  generalize e : x.opening = o at halike
  cases halike
  exact h e

theorem Stretch.opening_openComment {x : Stretch} (h : x.opening = .openComment) :
    ∃ t ∈ x.first.tokens, t.isUnterminated := by
  unfold Stretch.opening at h
  split at h
  · cases h
  · cases h
  · next c ts e =>
    refine ⟨.blockComment c, (List.dropWhile_sublist _).subset (by rw [e]; exact List.mem_cons_self), ?_⟩
    by_contra hu
    simp only [hu, ite_false] at h
    repeat' split at h
    all_goals cases h
  · cases h

theorem exists_last_stretch {a : Text} (hc : ∀ t ∈ tokenize a, t.isUnterminated = false) {ts us : List Token}
    (ha : tokenize a = ts ++ .semicolon :: us) (hu : ∀ t ∈ us, t.isTrivia) (hn : '\n' ∉ spell us) :
    ∃ xs x c f, stretchesOf a = xs ++ [x] ∧ (∀ y ∈ xs, y.opening ≠ .openComment) ∧ x.opening = .code c f ∧
      x.last.endsInSemicolon := by
  have hline : lines (.semicolon :: us) = [_] := lines_inline (by simpa [Token.text] using hn)
  obtain ⟨init, k, pre, elines, hk⟩ := lines_front ts hline
  rw [← ha] at elines
  have hsemi := endsInSemicolon_of_tokens hk hu
  -- the last line of the last stretch is the last line of the text
  have hall := flatMap_stretches (lines (tokenize a))
  rcases List.eq_nil_or_concat (stretches (lines (tokenize a))) with hnil | ⟨xs, x, hxs⟩
  · rw [hnil, elines] at hall
    simp at hall
  rw [List.concat_eq_append] at hxs
  obtain ⟨ls, hls⟩ := x.exists_last
  have hlast : x.last = k := by
    rw [hxs, List.flatMap_append, List.flatMap_singleton, hls, elines, ← List.append_assoc] at hall
    exact (List.append_inj' hall rfl).2 |> List.cons.inj |>.1
  have hmem : ∀ y ∈ stretches (lines (tokenize a)), ∀ l ∈ y.lines, l ∈ lines (tokenize a) := by
    intro y hy l hl
    rw [← flatMap_stretches (lines (tokenize a))]
    exact List.mem_flatMap.mpr ⟨y, hy, hl⟩
  have htokens : ∀ y ∈ stretches (lines (tokenize a)), ∀ t ∈ y.first.tokens, t ∈ tokenize a := by
    intro y hy t ht
    rw [← tokensOf_lines (tokenize a)]
    exact List.mem_flatMap.mpr ⟨y.first, hmem y hy y.first List.mem_cons_self, ht⟩
  have hopen : ∀ y ∈ stretches (lines (tokenize a)), y.opening ≠ .openComment := by
    intro y hy ho
    obtain ⟨t, ht, hun⟩ := Stretch.opening_openComment ho
    rw [hc t (htokens y hy t ht)] at hun
    cases hun
  have hx : x ∈ stretches (lines (tokenize a)) := by simp [hxs]
  have hneat := neat_lines (legible_tokenize a) x.first (hmem x hx x.first List.mem_cons_self)
  obtain hcode | ⟨c, f, hcode⟩ := Stretch.code_last (ordered_tokenize a x hx) hneat
    (fun t ht => formed_of_mem (htokens x hx t ht)) (hopen x hx)
  · rw [hlast] at hcode
    simp [Line.endsInSemicolon, hcode] at hsemi
  obtain ⟨c', f', hcode'⟩ := opening_bare hcode
  refine ⟨xs.map Stretch.bare, x.bare, c', f', by simp [stretchesOf, hxs], fun y hy => ?_, hcode', ?_⟩
  · obtain ⟨z, hz, rfl⟩ := List.mem_map.mp hy
    exact opening_bare_ne (hopen z (by simp [hxs, hz]))
  · rw [← Line.endsInSemicolon_look, ← Stretch.last_look, Stretch.look_bare, Stretch.last_look,
      Line.endsInSemicolon_look, hlast]
    exact hsemi

/-- What follows a script that ends in a semicolon changes none of its blocks,
and is cut and printed as if it stood alone. -/
theorem segment_append (a b : Text) (hr : '\r' ∉ a) (hc : ∀ t ∈ tokenize a, t.isUnterminated = false)
    (ts us : List Token) (ha : tokenize a = ts ++ .semicolon :: us) (hu : ∀ t ∈ us, t.isTrivia) (hn : '\n' ∉ spell us) :
    segment (a ++ '\n' :: b) = segment a ++ segment b ∧
      ∀ o, printScript o (a ++ '\n' :: b) = printScript o a ++ printScript o b := by
  have hsegment : segment (a ++ '\n' :: b) = segment a ++ segment b := by
    obtain ⟨xs, x, c, f, hxs, hopen, hx, hs⟩ := exists_last_stretch hc ha hu hn
    have hb : unifyNewlines ('\n' :: b) = '\n' :: unifyNewlines b := unifyNewlines_append (a := ['\n']) (by decide) b
    rw [segment_eq, unifyNewlines_append hr, hb, stretchesOf_newline (closed_iff.mpr hc), hxs, List.append_assoc,
      List.singleton_append, blocksFrom_append _ _ hopen hx hs, ← hxs, segment_eq, unifyNewlines_eq hr, segment_eq]
  exact ⟨hsegment, fun o => by rw [printScript, hsegment, List.map_append]; rfl⟩

set_option maxRecDepth 100000 in
/-- Without its semicolon the INSERT would take the SELECT for its rows. -/
theorem segment_append_insert :
    (segment "insert into t (a)\nselect 1".toList).length = 1 ∧
      segment "insert into t (a); -- done\nselect 1".toList =
        segment "insert into t (a); -- done".toList ++ segment "select 1".toList :=
  ⟨by decide +kernel,
    (segment_append "insert into t (a); -- done".toList "select 1".toList (by decide) (by decide +kernel)
      (tokenize "insert into t (a)".toList) [.whitespace [' '], .lineComment "-- done".toList] (by decide +kernel)
      (by decide) (by decide)).1⟩

end SqlLayout
