import SqlLayout.Proofs.Stacks
import SqlLayout.Proofs.Checked.Items

/-!
# Lines by offset

The lines of a script are known by the offsets of their ends and the indices
of their tokens. A line is read again by cutting these out of the script and
of its token list (`Page.line_append`).
-/

namespace SqlLayout.Checked

/-- A line by the offsets of its ends, with the indices of its first token and
of the one behind its last. -/
structure Row where
  start : Nat
  stop : Nat
  continued : Bool
  first : Nat
  last : Nat

def lineEnds (k : Nat) : List Text → List (Nat × Nat)
  | [] => []
  | l :: ls => (k, k + byteSize l) :: lineEnds (k + byteSize l + 1) ls

def runsOver (ts : List (Token × Nat × Nat)) (k : Nat) : Bool :=
  ts.any fun t => t.1.spansLines && t.2.1 < k && k < t.2.2

def rowsFrom (ts : List (Token × Nat × Nat)) (j : Nat) : List (Nat × Nat) → Run (List Row)
  | [] => .ok []
  | (start, stop) :: ls => do
    let last := (← findFrom (fun t => stop < t.2.1) ts j).getD ts.length
    return ⟨start, stop, runsOver ts start, j, last⟩ :: (← rowsFrom ts last ls)

structure Page where
  text : Text
  tokens : List (Token × Nat × Nat)
  rows : List Row

def Page.ofText (s : Text) : Run Page := do
  let ts ← lexSpans s
  return ⟨s, ts, ← rowsFrom ts 0 (lineEnds 0 (splitLines s))⟩

def Page.tokensAt (p : Page) (i : Nat) : Run (List (Token × Nat × Nat)) := do
  let r ← elem p.rows i
  range p.tokens r.first r.last

def Page.line (p : Page) (i : Nat) : Run Line := do
  let r ← elem p.rows i
  return { text := ← slice p.text r.start r.stop, tokens := (← p.tokensAt i).map (·.1), continued := r.continued }

/-! ## Where lines and their tokens stand -/

def extent (ls : List Line) : Nat := (ls.map fun l => byteSize l.text + 1).sum

@[simp] theorem extent_nil : extent [] = 0 := rfl

@[simp] theorem extent_cons (l : Line) (ls : List Line) : extent (l :: ls) = byteSize l.text + 1 + extent ls :=
  List.sum_cons

@[simp] theorem extent_append (ls ms : List Line) : extent (ls ++ ms) = extent ls + extent ms := by
  simp [extent]

def place (k j : Nat) : List Line → List Row
  | [] => []
  | l :: ls => ⟨k, k + byteSize l.text, l.continued, j, j + l.tokens.length⟩ ::
      place (k + byteSize l.text + 1) (j + l.tokens.length) ls

/-- Every token starts on its line, and a line is continued where a token of
`ts` runs over its start. The lines start at `k` and their tokens at `p`. -/
def Stand (ts : List (Token × Nat × Nat)) (k p : Nat) : List Line → Prop
  | [] => True
  | l :: ls => (∀ t ∈ spans p l.tokens, k ≤ t.2.1 ∧ t.2.1 ≤ k + byteSize l.text) ∧ l.continued = runsOver ts k ∧
      Stand ts (k + byteSize l.text + 1) (p + byteSize (spell l.tokens)) ls

theorem le_start {k : Nat} {ts : List Token} : ∀ t ∈ spans k ts, k ≤ t.2.1 := by
  induction ts generalizing k with
  | nil => nofun
  | cons t ts ih =>
    refine List.forall_mem_cons.mpr ⟨Nat.le_refl k, fun u hu => ?_⟩
    have := ih u hu
    omega

theorem runsOver_start {ts : List (Token × Nat × Nat)} {k : Nat} (h : ∀ t ∈ ts, k ≤ t.2.1) : runsOver ts k = false := by
  rw [runsOver, List.any_eq_false]
  intro t ht
  have := h t ht
  simp; omega

theorem runsOver_cons (t : Token) (s e k : Nat) (ts : List (Token × Nat × Nat)) :
    runsOver ((t, s, e) :: ts) k = (t.spansLines && s < k && k < e || runsOver ts k) := List.any_cons

theorem Stand.front {ts : List (Token × Nat × Nat)} {k p : Nat} {ls : List Line} (h : Stand ts k p ls) (t : Token)
    (s : Nat) {e : Nat} (he : e ≤ k) : Stand ((t, s, e) :: ts) k p ls := by
  induction ls generalizing k p with
  | nil => trivial
  | cons l ls ih =>
    refine ⟨h.1, ?_, ih h.2.2 (by omega)⟩
    rw [runsOver_cons, h.2.1]
    simp; omega

theorem byteSize_joinLines (ls : List Text) (z : Text) :
    byteSize (joinLines (ls ++ [z])) = (ls.map fun l => byteSize l + 1).sum + byteSize z := by
  induction ls with
  | nil => simp
  | cons l ls ih =>
    have h := joinLines_append (List.cons_ne_nil l []) (List.append_ne_nil_of_right_ne_nil ls (List.cons_ne_nil z []))
    rw [joinLines_singleton, List.singleton_append] at h
    rw [List.cons_append, h, byteSize_append, byteSize, ih, List.map_cons, List.sum_cons]
    have : Char.utf8Size '\n' = 1 := rfl
    omega

/-- The lines behind the first line of a token, up to the one it ends on. -/
theorem stand_inside {t : Token} {ts : List (Token × Nat × Nat)} {k e : Nat} (ht : '\n' ∈ t.text) (hts : ∀ u ∈ ts, e ≤ u.2.1)
    {l : Line} {ls : List Line} (hl : ∀ u ∈ spans e l.tokens, u.2.1 ≤ e + byteSize l.text)
    (hls : Stand ((t, k, e) :: ts) (e + byteSize l.text + 1) (e + byteSize (spell l.tokens)) ls) (ms : List Text) (z : Text)
    {m : Nat} (hm : k < m) (he : m + (ms.map fun l => byteSize l + 1).sum + byteSize z = e) :
    Stand ((t, k, e) :: ts) m e (ms.map (fun m => { text := m, continued := !t.isSpace }) ++
      { l with text := z ++ l.text, continued := !t.isSpace && z ≠ [] } :: ls) := by
  have hspans : t.spansLines = !t.isSpace := by simp [Token.spansLines, ht]
  have hover (n : Nat) (hn : k < n) (hle : n ≤ e) : runsOver ((t, k, e) :: ts) n = (!t.isSpace && n < e) := by
    rw [runsOver_cons, runsOver_start fun u hu => Nat.le_trans hle (hts u hu), hspans]
    simp [hn]
  induction ms generalizing m with
  | nil =>
    have he : m + byteSize z = e := by simpa using he
    refine ⟨fun u hu => ?_, ?_, ?_⟩
    · have := le_start u hu
      have := hl u hu
      rw [byteSize_append]; omega
    · rw [hover m hm (by omega)]
      cases z with
      | nil => simp [byteSize] at he; simp [he]
      | cons c z =>
        have := c.utf8Size_pos
        rw [byteSize] at he
        simp; omega
    · rwa [byteSize_append, ← Nat.add_assoc, he]
  | cons n ms ih =>
    rw [List.map_cons, List.sum_cons] at he
    refine ⟨fun u hu => absurd hu List.not_mem_nil, ?_, ih (m := m + byteSize n + 1) (by omega) (by omega)⟩
    rw [hover m hm (by omega)]
    simp; omega

theorem stand_lines (ts : List Token) (k : Nat) : Stand (spans k ts) k k (lines ts) := by
  induction ts generalizing k with
  | nil => exact ⟨nofun, rfl, trivial⟩
  | cons t ts ih =>
    obtain ⟨l, ls, h⟩ := List.exists_cons_of_ne_nil (lines_ne_nil ts)
    have ih := ih (k + byteSize t.text)
    rw [h] at ih
    obtain ⟨hstart, hcontinued, hrest⟩ := ih
    have hrest := hrest.front t k (e := k + byteSize t.text) (by omega)
    have hnone : runsOver (spans k (t :: ts)) k = false := runsOver_start le_start
    rcases lines_cons (t := t) h with ⟨-, e⟩ | ⟨p, ms, z, et, -, e⟩
    · rw [e]
      refine ⟨List.forall_mem_cons.mpr ⟨by simp, fun u hu => ?_⟩, ?_, ?_⟩
      · have := hstart u hu
        rw [byteSize_append]; omega
      · rw [hnone]; exact hcontinued.trans (runsOver_start le_start)
      · rw [byteSize_append, spell_cons, byteSize_append, ← Nat.add_assoc, ← Nat.add_assoc]
        exact hrest
    · have hnewline : '\n' ∈ t.text := by
        rw [et, joinLines_append (List.cons_ne_nil _ _) (List.cons_ne_nil _ _)]; simp
      have hsize : byteSize t.text = byteSize p + 1 + (ms.map fun l => byteSize l + 1).sum + byteSize z := by
        rw [et, byteSize_joinLines, List.map_cons, List.sum_cons]
      rw [e]
      refine ⟨List.forall_mem_singleton.mpr (by simp), hnone.symm, ?_⟩
      have := stand_inside hnewline le_start (fun u hu => (hstart u hu).2) hrest ms z (m := k + byteSize p + 1) (by omega) (by omega)
      simpa [spans] using this

/-! ## The rows -/

theorem Stand.starts {ts : List (Token × Nat × Nat)} {k p : Nat} {ls : List Line} (h : Stand ts k p ls) :
    ∀ t ∈ spans p (tokensOf ls), k ≤ t.2.1 := by
  induction ls generalizing k p with
  | nil => nofun
  | cons l ls ih =>
    rw [tokensOf_cons, spans_append]
    intro t ht
    rcases List.mem_append.mp ht with ht | ht
    · exact (h.1 t ht).1
    · have := ih h.2.2 t ht
      omega

theorem getD_findIdx?_append {α : Type} {p : α → Bool} {a b : List α} (ha : ∀ x ∈ a, p x = false) (hb : ∀ x ∈ b, p x)
    (n : Nat) : (((a ++ b).findIdx? p).map (n + ·)).getD (n + (a ++ b).length) = n + a.length := by
  cases b with
  | nil => rw [List.append_nil, List.findIdx?_eq_none_iff.mpr ha]; rfl
  | cons x b => rw [findIdx?_first ha (hb x List.mem_cons_self)]; rfl

theorem rowsFrom_eq {ts us : List Token} {ls : List Line} {k : Nat} (e : ts = us ++ tokensOf ls)
    (h : Stand (spans 0 ts) k (byteSize (spell us)) ls) :
    rowsFrom (spans 0 ts) us.length (lineEnds k (ls.map Line.text)) = .ok (place k us.length ls) := by
  induction ls generalizing us k with
  | nil => rfl
  | cons l ls ih =>
    obtain ⟨hl, hcontinued, hls⟩ := h
    rw [tokensOf_cons, ← List.append_assoc] at e
    have hspell : byteSize (spell (us ++ l.tokens)) = byteSize (spell us) + byteSize (spell l.tokens) := by
      rw [spell_append, byteSize_append]
    have hrest := ih e (by rwa [hspell])
    rw [List.length_append] at hrest
    have hlast := getD_findIdx?_append (p := fun t => decide (k + byteSize l.text < t.2.1))
      (a := spans (byteSize (spell us)) l.tokens) (b := spans (byteSize (spell us) + byteSize (spell l.tokens)) (tokensOf ls))
      (fun t ht => by have := hl t ht; simp; omega) (fun t ht => by have := hls.starts t ht; simp; omega) us.length
    rw [← spans_append, length_spans, length_spans] at hlast
    have hsplit : spans 0 ts = spans 0 us ++ spans (byteSize (spell us)) (l.tokens ++ tokensOf ls) := by
      rw [e, List.append_assoc, spans_append, Nat.zero_add]
    have hfind := findFrom_append (p := fun t => decide (k + byteSize l.text < t.2.1)) hsplit
    have hlength : (spans 0 ts).length = us.length + (l.tokens ++ tokensOf ls).length := by
      rw [hsplit, List.length_append, length_spans, length_spans]
    rw [length_spans] at hfind
    rw [List.map_cons, lineEnds, rowsFrom, hfind, ok_bind]
    simp only [hlength, hlast, hrest, ok_bind, pure_eq_ok, place, hcontinued]

def pageOf (s : Text) : Page := ⟨s, spans 0 (tokenize s), place 0 0 (lines (tokenize s))⟩

theorem ofText_eq (s : Text) : Page.ofText s = .ok (pageOf s) := by
  have hrows := rowsFrom_eq (show tokenize s = [] ++ tokensOf (lines (tokenize s)) from (tokensOf_lines _).symm)
    (stand_lines (tokenize s) 0)
  rw [List.length_nil] at hrows
  rw [Page.ofText, lexSpans_eq, ok_bind, ← map_text_lines, hrows]; rfl

/-! ## Reading a line -/

@[simp] theorem length_place (k j : Nat) (ls : List Line) : (place k j ls).length = ls.length := by
  induction ls generalizing k j with
  | nil => rfl
  | cons l ls ih => rw [place, List.length_cons, List.length_cons, ih]

theorem place_append (k j : Nat) (ls ms : List Line) :
    place k j (ls ++ ms) = place k j ls ++ place (k + extent ls) (j + (tokensOf ls).length) ms := by
  induction ls generalizing k j with
  | nil => rfl
  | cons l ls ih =>
    rw [List.cons_append, place, ih, place, List.cons_append, tokensOf_cons, List.length_append, extent_cons]
    simp only [Nat.add_assoc]

theorem byteSize_textOf {ls : List Line} (h : ls ≠ []) : byteSize (textOf ls) + 1 = extent ls := by
  obtain ⟨ls, l, rfl⟩ := List.eq_nil_or_concat ls |>.resolve_left h
  rw [List.concat_eq_append, textOf, List.map_append, List.map_singleton, byteSize_joinLines, extent_append, List.map_map]
  rfl

theorem textOf_around (ls : List Line) (l : Line) (ms : List Line) :
    ∃ x y, textOf (ls ++ l :: ms) = x ++ l.text ++ y ∧ byteSize x = extent ls := by
  obtain ⟨y, hy⟩ : ∃ y, textOf (l :: ms) = l.text ++ y := joinLines_cons l.text _
  by_cases h : ls = []
  · exact ⟨[], y, by rw [h]; exact hy, by rw [h]; rfl⟩
  · refine ⟨textOf ls ++ ['\n'], y, ?_, ?_⟩
    · rw [textOf_append h (List.cons_ne_nil _ _), hy]; simp
    · rw [byteSize_append, ← byteSize_textOf h]; rfl

section
variable {s : Text} {above below : List Line} {l : Line}

theorem row_append (e : lines (tokenize s) = above ++ l :: below) : (pageOf s).rows[above.length]? =
    some ⟨extent above, extent above + byteSize l.text, l.continued, (tokensOf above).length,
      (tokensOf above).length + l.tokens.length⟩ := by
  have h := getElem?_split (place_append 0 0 above (l :: below))
  rw [length_place] at h
  simpa [pageOf, e] using h

theorem tokensAt_append (e : lines (tokenize s) = above ++ l :: below) :
    (pageOf s).tokensAt above.length = .ok (spans (byteSize (spell (tokensOf above))) l.tokens) := by
  rw [Page.tokensAt, elem_of_getElem? (row_append e)]
  refine range_spans (c := tokensOf below) ?_ rfl rfl
  rw [← tokensOf_lines (tokenize s), e]; simp

theorem line_append (e : lines (tokenize s) = above ++ l :: below) : (pageOf s).line above.length = .ok l := by
  obtain ⟨x, y, htext, hx⟩ := textOf_around above l below
  have hslice : slice s (extent above) (extent above + byteSize l.text) = .ok l.text := by
    rw [← spell_tokenize s, ← textOf_lines, e, htext]
    exact slice_append x l.text y hx.symm (by rw [hx])
  rw [Page.line, elem_of_getElem? (row_append e), ok_bind, tokensAt_append e]
  simp only [pageOf, hslice, ok_bind, map_fst_spans, pure_eq_ok]

end

end SqlLayout.Checked
