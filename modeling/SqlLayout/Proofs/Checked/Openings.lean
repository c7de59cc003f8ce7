import SqlLayout.Proofs.Checked.Lines

/-!
# How lines start

A line that starts with a block comment is told from the line on which the
comment ends, which is found by the offset of the last byte of the comment
(`startAt_starts`).
-/

namespace SqlLayout.Checked

inductive LineStart where
  | blank
  | lineComment
  /-- A block comment with the index of the line on which it ends. -/
  | comment (last : Nat) (codeAfter : Bool)
  | openComment
  | code
  | continued

def Page.lineOf (p : Page) (offset : Nat) : Nat := (p.rows.takeWhile (·.start ≤ offset)).length - 1

def Page.startAt (p : Page) (i : Nat) : Run LineStart := do
  if (← elem p.rows i).continued then return .continued
  else
    match (← p.tokensAt i).filter (!·.1.isSpace) with
    | [] => return .blank
    | (.lineComment _, _) :: _ => return .lineComment
    | (.blockComment c, _, stop) :: _ => do
      if ← isUnterminated (.blockComment c) then return .openComment
      else do
        let last := p.lineOf (← minus stop 1)
        return .comment last ((← p.tokensAt last).any fun t => stop ≤ t.2.1 && t.1.isCode)
    | _ => return .code

/-! ## The line of an offset -/

theorem start_lt_of_mem_place {k j : Nat} {ls : List Line} : ∀ r ∈ place k j ls, k ≤ r.start ∧ r.start < k + extent ls := by
  induction ls generalizing k j with
  | nil => nofun
  | cons l ls ih =>
    refine List.forall_mem_cons.mpr ⟨by simp, fun r hr => ?_⟩
    have := ih r hr
    rw [extent_cons]; omega

section
variable {s : Text} {above below : List Line} {l : Line}

theorem lineOf_between (e : lines (tokenize s) = above ++ l :: below) {offset : Nat} (h : extent above ≤ offset)
    (h' : offset ≤ extent above + byteSize l.text) : (pageOf s).lineOf offset = above.length := by
  have hrows : (pageOf s).rows = _ := (congrArg (place 0 0) e).trans (place_append 0 0 above (l :: below))
  have habove : ∀ r ∈ place 0 0 above, (decide (r.start ≤ offset)) = true := fun r hr => by
    have := start_lt_of_mem_place r hr
    simp; omega
  have hbelow : (place (0 + extent above + byteSize l.text + 1) (0 + (tokensOf above).length + l.tokens.length) below).takeWhile
      (·.start ≤ offset) = [] := by
    cases below with
    | nil => rfl
    | cons k ks => exact List.takeWhile_cons_of_neg (by simp; omega)
  rw [Page.lineOf, hrows, List.takeWhile_append_of_pos habove, place, List.takeWhile_cons_of_pos (by simp; omega), hbelow]
  simp

/-- The newlines in front of an offset number its line. -/
theorem lineOf_append {u v : Text} (e : s = u ++ v) : (pageOf s).lineOf (byteSize u) = u.count '\n' := by
  obtain ⟨ms, z, hu⟩ := List.eq_nil_or_concat (splitLines u) |>.resolve_left (splitLines_ne_nil u)
  obtain ⟨w, ws, hv⟩ := List.exists_cons_of_ne_nil (splitLines_ne_nil v)
  rw [List.concat_eq_append] at hu
  have hu' : u = joinLines (ms ++ [z]) := by rw [← hu, joinLines_splitLines]
  have hnu : ∀ x ∈ ms ++ [z], '\n' ∉ x := fun x hx => newline_notMem_splitLines (hu ▸ hx)
  have hnv : ∀ x ∈ w :: ws, '\n' ∉ x := fun x hx => newline_notMem_splitLines (hv ▸ hx)
  have hlines : splitLines s = ms ++ (z ++ w) :: ws := by
    rw [e, hu', ← joinLines_splitLines v, hv, ← joinLines_glue]
    refine splitLines_joinLines (by simp) fun x hx => ?_
    simp only [List.mem_append, List.mem_cons, List.not_mem_nil, or_false] at hx hnu hnv
    rcases hx with hx | rfl | hx
    · exact hnu x (.inl hx)
    · simp [hnu z (.inr rfl), hnv w (.inl rfl)]
    · exact hnv x (.inr hx)
  rw [← map_text_lines] at hlines
  obtain ⟨above, rest, hsplit, hms, hrest⟩ := List.map_eq_append_iff.mp hlines
  obtain ⟨l, below, rfl, hl, -⟩ := List.map_eq_cons_iff.mp hrest
  have hextent : extent above = (ms.map fun l => byteSize l + 1).sum := by rw [← hms, List.map_map]; rfl
  have hsize : byteSize u = extent above + byteSize z := by rw [hu', byteSize_joinLines, hextent]
  have hcount : u.count '\n' = above.length := by rw [hu', count_joinLines hnu, ← hms]; simp
  rw [hcount]
  exact lineOf_between hsplit (by omega) (by rw [hl, byteSize_append]; omega)

theorem Stand.append {ts : List (Token × Nat × Nat)} {k p : Nat} {ls ms : List Line} (h : Stand ts k p (ls ++ ms)) :
    Stand ts (k + extent ls) (p + byteSize (spell (tokensOf ls))) ms := by
  induction ls generalizing k p with
  | nil => exact h
  | cons l ls ih =>
    rw [extent_cons, tokensOf_cons, spell_append, byteSize_append, ← Nat.add_assoc, ← Nat.add_assoc, ← Nat.add_assoc]
    exact ih h.2.2

theorem lineOf_start (e : lines (tokenize s) = above ++ l :: below) {front back : List Token} {t : Token}
    (ht : l.tokens = front ++ t :: back) :
    (pageOf s).lineOf (byteSize (spell (tokensOf above ++ front))) = above.length := by
  have h := stand_lines (tokenize s) 0
  rw [e] at h
  have h := h.append.1 (t, byteSize (spell (tokensOf above ++ front)), byteSize (spell (tokensOf above ++ front)) + byteSize t.text)
    (by rw [ht, spans_append, spans, spell_append, byteSize_append, Nat.zero_add]; simp)
  exact lineOf_between e (by simpa using h.1) (by simpa using h.2)

end

/-! ## A token over several lines -/

/-- Where a token with newlines stands on a line, the lines behind hold its
later parts. -/
def Spreads : List Line → Prop
  | [] => True
  | l :: ls => (∀ front t back, l.tokens = front ++ t :: back → '\n' ∈ t.text → back = [] ∧
      ∃ (ms : List Text) (z : Text) (k : Line) (ks : List Line),
        ls = ms.map (fun m => { text := m, continued := !t.isSpace }) ++ { k with text := z ++ k.text, continued := !t.isSpace && z ≠ [] } :: ks ∧
        t.text.count '\n' = ms.length + 1 ∧ (z = [] → t.text.getLast? = some '\n')) ∧ Spreads ls

theorem spreads_of_tokens_nil {ks ls : List Line} (h : ∀ k ∈ ks, k.tokens = []) (hl : Spreads ls) : Spreads (ks ++ ls) := by
  induction ks with
  | nil => exact hl
  | cons k ks ih =>
    obtain ⟨hk, h⟩ := List.forall_mem_cons.mp h
    exact ⟨fun front t back e => by simp [hk] at e, ih h⟩

theorem Spreads.append {ls ms : List Line} (h : Spreads (ls ++ ms)) : Spreads ms := by
  induction ls with
  | nil => exact h
  | cons l ls ih => exact ih h.2

theorem spreads_lines (ts : List Token) : Spreads (lines ts) := by
  induction ts with
  | nil => exact ⟨fun front t back e => by simp at e, trivial⟩
  | cons t ts ih =>
    obtain ⟨l, ls, h⟩ := List.exists_cons_of_ne_nil (lines_ne_nil ts)
    rw [h] at ih
    obtain ⟨hl, hls⟩ := ih
    rcases lines_cons (t := t) h with ⟨hn, e⟩ | ⟨p, ms, z, et, hnew, e⟩
    · rw [e]
      refine ⟨fun front u back eu hu => ?_, hls⟩
      cases front with
      | nil => exact absurd ((List.cons.inj eu).1 ▸ hu) hn
      | cons v front => exact hl front u back (List.cons.inj eu).2 hu
    · rw [e]
      refine ⟨fun front u back eu hu => ?_, spreads_of_tokens_nil (by simp) ⟨hl, hls⟩⟩
      cases front with
      | cons v front => simp at eu
      | nil =>
        obtain ⟨rfl, rfl⟩ := List.cons.inj eu
        refine ⟨rfl, ms, z, l, ls, rfl, ?_, fun hz => ?_⟩
        · rw [et, count_joinLines hnew]; simp
        · rw [et, hz, joinLines_append (List.cons_ne_nil _ _) (List.cons_ne_nil _ _)]; simp

theorem comment_below {ts : List Token} {above below : List Line} {l : Line} (e : lines ts = above ++ l :: below)
    {front back : List Token} {c : Text} (hc : (Token.blockComment c).Formed)
    (ht : l.tokens = front ++ .blockComment c :: back) (hu : (Token.blockComment c).isUnterminated = false) :
    (c.count '\n' = 0 ∨ back = [] ∧ ∃ ks k ms, below = ks ++ k :: ms ∧ c.count '\n' = ks.length + 1 ∧ tokensOf ks = [] ∧
      (∀ x ∈ ks, x.continued) ∧ k.continued) := by
  by_cases hn : '\n' ∈ c
  · have hspreads := spreads_lines ts
    rw [e] at hspreads
    obtain ⟨hback, ms, z, k, ks, hbelow, hcount, hz⟩ := hspreads.append.1 front _ back ht hn
    have hz : z ≠ [] := fun h => by
      have := isUnterminated_of_getLast hc rfl (hz h)
      rw [hu] at this; cases this
    refine .inr ⟨hback, _, _, ks, hbelow, by simpa [Token.text] using hcount, ?_, ?_, by simp [Token.isSpace, hz]⟩
    · exact List.flatMap_eq_nil_iff.mpr fun x hx => by obtain ⟨m, -, rfl⟩ := List.mem_map.mp hx; rfl
    · exact fun x hx => by obtain ⟨m, -, rfl⟩ := List.mem_map.mp hx; rfl
  · exact .inl (List.count_eq_zero.mpr hn)

/-! ## The start of a line and the opening of its stretch -/

/-- What the line with the index `i` starts with, when a stretch with this
opening starts there. -/
inductive Starts (i : Nat) (s : Stretch) : Opening → LineStart → Prop
  | blank : Starts i s .blank .blank
  | lineComment : Starts i s .lineComment .lineComment
  | openComment : Starts i s .openComment .openComment
  | comment : Starts i s .comment (.comment (i + s.more.length) false)
  | code : Starts i s (.code s.first s.first) .code
  /-- Code stands behind the comment on the line on which that ends. -/
  | mixed {n : Nat} (h : n ≤ s.more.length) : Starts i s (.code s.last s.first) (.comment (i + n) true)
  /-- A token that starts behind the comment goes on over the line on which that ends. -/
  | behind {n : Nat} {l : Line} (h : s.more[n]? = some l) : Starts i s (.code s.last l) (.comment (i + n) false)

theorem starts_comment {s : Stretch} {c : Text} {back : List Token} {after : Bool} (i : Nat)
    (ht : s.first.tokens.dropWhile Token.isSpace = .blockComment c :: back)
    (hu : (Token.blockComment c).isUnterminated = false) (hn : c.count '\n' ≤ s.more.length)
    (ha : (if c.contains '\n' then (s.more.take (c.count '\n')).flatMap Line.tokens else back).any Token.isCode = after) :
    Starts i s s.opening (.comment (i + c.count '\n') after) := by
  rw [Stretch.opening, ht]
  simp only [hu, ha, Bool.false_eq_true, if_false]
  cases after with
  | true => exact .mixed hn
  | false =>
    rcases Nat.eq_or_lt_of_le hn with hn | hn
    · rw [hn, List.drop_length]; exact .comment
    · rw [List.drop_eq_getElem_cons hn]
      exact .behind (List.getElem?_eq_getElem hn)

theorem filter_spans {k : Nat} {front : List Token} (hf : ∀ t ∈ front, t.isSpace) {t : Token} (ht : t.isSpace = false)
    (back : List Token) : ∃ us, (spans k (front ++ t :: back)).filter (fun t => !t.1.isSpace) =
      (t, k + byteSize (spell front), k + byteSize (spell front) + byteSize t.text) :: us := by
  induction front generalizing k with
  | nil => exact ⟨_, by rw [List.nil_append, spans, List.filter_cons_of_pos (by simp [ht])]; rfl⟩
  | cons u front ih =>
    obtain ⟨hu, hf⟩ := List.forall_mem_cons.mp hf
    obtain ⟨us, h⟩ := ih (k := k + byteSize u.text) hf
    refine ⟨us, ?_⟩
    rw [List.cons_append, spans, List.filter_cons_of_neg (by simp [hu]), h, spell_cons, byteSize_append, Nat.add_assoc k]

theorem any_behind {k stop : Nat} (h : stop ≤ k) (ts : List Token) :
    (spans k ts).any (fun t => stop ≤ t.2.1 && t.1.isCode) = ts.any Token.isCode := by
  rw [← any_spans Token.isCode k ts, Bool.eq_iff_iff, List.any_eq_true, List.any_eq_true]
  refine exists_congr fun t => and_congr_right fun ht => ?_
  have := le_start t ht
  simp; omega

theorem any_behind_comment {k : Nat} {front : List Token} (hf : ∀ t ∈ front, t.isSpace) {t : Token} (ht : t.isComment)
    (back : List Token) :
    (spans k (front ++ t :: back)).any (fun u => k + byteSize (spell front) + byteSize t.text ≤ u.2.1 && u.1.isCode) =
      back.any Token.isCode := by
  have hnone : (spans k (front ++ [t])).any (fun u => k + byteSize (spell front) + byteSize t.text ≤ u.2.1 && u.1.isCode) =
      false := by
    rw [List.any_eq_false]
    intro u hu
    have hu : u.1 ∈ front ++ [t] := by
      rw [← map_fst_spans k (front ++ [t])]; exact List.mem_map_of_mem hu
    have hcode : u.1.isCode = false := by
      rcases List.mem_append.mp hu with hu | hu
      · exact isCode_of_isSpace (hf _ hu)
      · rw [List.mem_singleton.mp hu]; exact isCode_of_isComment ht
    simp [hcode]
  have hstop : k + byteSize (spell front) + byteSize t.text ≤ k + byteSize (spell (front ++ [t])) := by
    rw [spell_append, byteSize_append, spell_cons, spell_nil, List.append_nil, Nat.add_assoc]
  have hback := any_behind hstop back
  rw [← List.singleton_append, ← List.append_assoc, spans_append, List.any_append, hnone, hback, Bool.false_or]

section
variable {s : Text} {above below : List Line} {l : Line}

theorem lineOf_comment (e : lines (tokenize s) = above ++ l :: below) {front back : List Token} {c : Text}
    (ht : l.tokens = front ++ .blockComment c :: back) (hu : (Token.blockComment c).isUnterminated = false) :
    minus (byteSize (spell (tokensOf above)) + byteSize (spell front) + byteSize c) 1 =
        .ok (byteSize (spell (tokensOf above)) + byteSize (spell front) + byteSize c - 1) ∧
      (pageOf s).lineOf (byteSize (spell (tokensOf above)) + byteSize (spell front) + byteSize c - 1) =
        above.length + c.count '\n' := by
  obtain ⟨x, rfl⟩ : ∃ x, c = x ++ ['*', '/'] := by
    have hsuffix : ['*', '/'].isSuffixOf c := by
      rw [Token.isUnterminated] at hu
      simp only [Bool.or_eq_false_iff, Bool.not_eq_false'] at hu
      exact hu.2
    obtain ⟨x, hx⟩ := List.isSuffixOf_iff_suffix.mp hsuffix
    exact ⟨x, hx.symm⟩
  have hsize : byteSize (x ++ ['*', '/']) = byteSize (x ++ ['*']) + 1 := by
    simp only [byteSize_append, byteSize]; rfl
  have htext : s = (spell (tokensOf above ++ front) ++ (x ++ ['*'])) ++ '/' :: spell (back ++ tokensOf below) := by
    rw [← spell_tokenize s, ← tokensOf_lines (tokenize s), e]
    simp [ht, spell_append, Token.text]
  have hoffset : byteSize (spell (tokensOf above)) + byteSize (spell front) + byteSize (x ++ ['*', '/']) - 1 =
      byteSize (spell (tokensOf above ++ front) ++ (x ++ ['*'])) := by
    rw [hsize, ← Nat.add_assoc, Nat.add_sub_cancel, ← byteSize_append, ← byteSize_append, ← spell_append]
  have hstart := lineOf_start e ht
  rw [lineOf_append (v := x ++ '*' :: '/' :: spell (back ++ tokensOf below)) (by rw [htext]; simp)] at hstart
  refine ⟨minus_of_le (by rw [hsize]; omega), ?_⟩
  rw [hoffset, lineOf_append htext, List.count_append, hstart]
  simp

theorem any_behind_end (e : lines (tokenize s) = above ++ l :: below) {front back : List Token} {c : Text}
    (hf : ∀ t ∈ front, t.isSpace) (ht : l.tokens = front ++ .blockComment c :: back)
    (hu : (Token.blockComment c).isUnterminated = false) :
    let more := below.takeWhile Line.continued
    ∃ us, (pageOf s).tokensAt (above.length + c.count '\n') = .ok us ∧ c.count '\n' ≤ more.length ∧
      (if c.contains '\n' then (more.take (c.count '\n')).flatMap Line.tokens else back).any Token.isCode =
        us.any fun t => byteSize (spell (tokensOf above)) + byteSize (spell front) + byteSize c ≤ t.2.1 && t.1.isCode := by
  intro more
  have hc : (Token.blockComment c).Formed := formed_of_mem (by
    rw [← tokensOf_lines (tokenize s), e]; simp [ht])
  rcases comment_below e hc ht hu with hn | ⟨rfl, ks, k, ms, hbelow, hn, hks, hcont, hk⟩
  · have hnot : c.contains '\n' = false := by simpa using List.count_eq_zero.mp hn
    refine ⟨_, by rw [hn]; exact tokensAt_append e, by omega, ?_⟩
    rw [hnot, ht, if_neg Bool.false_ne_true]
    exact (any_behind_comment hf rfl back).symm
  · have hin : c.contains '\n' = true := by
      simpa using List.count_pos_iff.mp (show 0 < c.count '\n' by omega)
    have hmore : more = ks ++ k :: ms.takeWhile Line.continued := by
      simp only [more, hbelow]
      rw [List.takeWhile_append_of_pos hcont, List.takeWhile_cons_of_pos hk]
    have htake : more.take (c.count '\n') = ks ++ [k] := by
      have hsplit : more = (ks ++ [k]) ++ ms.takeWhile Line.continued := by rw [hmore]; simp
      rw [hsplit, hn, List.take_left' (by simp)]
    have e' : lines (tokenize s) = (above ++ l :: ks) ++ k :: ms := by rw [e, hbelow]; simp
    have htokens := tokensAt_append e'
    rw [show (above ++ l :: ks).length = above.length + c.count '\n' by simp [hn]] at htokens
    refine ⟨_, htokens, by rw [hmore, hn]; simp, ?_⟩
    have hstop : byteSize (spell (tokensOf (above ++ l :: ks))) =
        byteSize (spell (tokensOf above)) + byteSize (spell front) + byteSize c := by
      simp [ht, hks, spell_append, byteSize_append, Token.text, Nat.add_assoc]
    rw [if_pos hin, htake, hstop, any_behind (Nat.le_refl _)]
    have hks : ks.flatMap Line.tokens = [] := hks
    simp [hks]

theorem startAt_starts (e : lines (tokenize s) = above ++ l :: below) (hl : l.continued = false) :
    let x : Stretch := ⟨l, below.takeWhile Line.continued⟩
    ∃ r, (pageOf s).startAt above.length = .ok r ∧ Starts above.length x x.opening r := by
  intro x
  have helem := elem_of_getElem? (row_append e)
  have htokens := tokensAt_append e
  rw [Page.startAt, helem, ok_bind]
  simp only [hl, Bool.false_eq_true, if_false, htokens, ok_bind]
  have hdrop : x.first.tokens.dropWhile Token.isSpace = l.tokens.dropWhile Token.isSpace := rfl
  cases hd : l.tokens.dropWhile Token.isSpace with
  | nil =>
    have hall := List.dropWhile_eq_nil_iff.mp hd
    have hfilter : (spans (byteSize (spell (tokensOf above))) l.tokens).filter (fun t => !t.1.isSpace) = [] :=
      List.filter_eq_nil_iff.mpr fun t ht => by
        have := hall t.1 (by rw [← map_fst_spans (byteSize (spell (tokensOf above))) l.tokens]; exact List.mem_map_of_mem ht)
        simp [this]
    rw [hfilter]
    exact ⟨_, rfl, by rw [Stretch.opening, hdrop, hd]; exact .blank⟩
  | cons t back =>
    obtain ⟨front, hfront, ht⟩ := tokens_eq_dropWhile hd
    have hspace : t.isSpace = false := by
      have := List.head?_dropWhile_not Token.isSpace l.tokens
      simpa [hd] using this
    obtain ⟨us, hfilter⟩ := filter_spans (k := byteSize (spell (tokensOf above))) hfront hspace back
    rw [ht, hfilter]
    cases t with
    | whitespace w => cases hspace
    | lineComment c => exact ⟨_, rfl, by rw [Stretch.opening, hdrop, hd]; exact .lineComment⟩
    | blockComment c =>
      simp only [isUnterminated_eq, ok_bind]
      cases hu : (Token.blockComment c).isUnterminated with
      | true => exact ⟨_, rfl, by rw [Stretch.opening, hdrop, hd]; simp only [hu, if_true]; exact .openComment⟩
      | false =>
        obtain ⟨hminus, hline⟩ := lineOf_comment e ht hu
        obtain ⟨us, htokens, hn, hany⟩ := any_behind_end e hfront ht hu
        refine ⟨_, ?_, starts_comment above.length (hdrop.trans hd) hu hn hany⟩
        simp only [Token.text, Bool.false_eq_true, if_false, hminus, hline, htokens, ok_bind, pure_eq_ok]
        rfl
    | _ => exact ⟨_, rfl, by rw [Stretch.opening, hdrop, hd]; exact .code⟩

end

end SqlLayout.Checked
