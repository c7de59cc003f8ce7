import SqlLayout.Proofs.Looks
import SqlLayout.Proofs.Upper

/-!
# What blocks are made of

Decisions ask for the tokens of the lines in plain form, and of the text of a
line only whether it is blank. A map of texts that keeps blank lines and joined
lines apart (`Shade`) is seen in the contents of the blocks and nowhere else
(`blocksFrom_congr`).
-/

namespace SqlLayout

structure Shade (f : Text → Text) : Prop where
  blank : ∀ s, isBlankText (f s) = isBlankText s
  join : ∀ ls, joinLines (ls.map f) = f (joinLines ls)

theorem shade_id : Shade id := ⟨fun _ => rfl, fun ls => by simp⟩

theorem shade_upper : Shade upper := ⟨isBlankText_upper, joinLines_upper⟩

def Line.under (f : Text → Text) (l : Line) : Line := { l.bare with text := f l.text }

def Stretch.under (f : Text → Text) (x : Stretch) : Stretch := ⟨x.first.under f, x.more.map (Line.under f)⟩

def Block.under (f : Text → Text) (b : Block) : Block := { b with content := f b.content }

variable {f : Text → Text}

theorem Block.map_under_id (bs : List Block) : bs.map (Block.under id) = bs := List.map_id bs

theorem Block.eq_of_under {b b' : Block} (h : b.under f = b'.under f) : b.kind = b'.kind ∧ f b.content = f b'.content :=
  Block.mk.inj h

@[simp] theorem Line.look_under (l : Line) : (l.under f).look = l.look := l.look_bare

@[simp] theorem Stretch.lines_under (x : Stretch) : (x.under f).lines = x.lines.map (Line.under f) := rfl

@[simp] theorem Stretch.look_under (x : Stretch) : (x.under f).look = x.look := by
  simp [look, under, Function.comp_def]

theorem map_text_of_under {ls ms : List Line} (h : ls.map (Line.under f) = ms.map (Line.under f)) :
    (ls.map Line.text).map f = (ms.map Line.text).map f := by
  have := congrArg (List.map Line.text) h
  simpa [Function.comp_def, Line.under] using this

theorem map_look_of_under {ls ms : List Line} (h : ls.map (Line.under f) = ms.map (Line.under f)) :
    ls.map Line.look = ms.map Line.look := by
  have := congrArg (List.map Line.look) h
  simpa [Function.comp_def] using this

theorem tokensOf_look (ls : List Line) : tokensOf (ls.map Line.look) = plains (tokensOf ls) := by
  rw [← tokensOf_bare, tokensOf, tokensOf, List.flatMap_map, List.flatMap_map]
  rfl

/-! ## Stretches that are taken for one another -/

inductive Opening.Alike : Opening → Opening → Prop
  | blank : Alike .blank .blank
  | lineComment : Alike .lineComment .lineComment
  | comment : Alike .comment .comment
  | openComment : Alike .openComment .openComment
  | code {c c' f f' : Line} (kind : c.classify = c'.classify) (view : f.view = f'.view) : Alike (.code c f) (.code c' f')

theorem Opening.alike_of_look {o o' : Opening} (h : o.look = o'.look) : o.Alike o' := by
  cases o with
  | code c f =>
    cases o' with
    | code c' f' =>
      obtain ⟨hc, hf⟩ := Opening.code.inj h
      exact .code (by rw [← c.classify_look, hc, c'.classify_look]) (by rw [← f.view_look, hf, f'.view_look])
    | _ => cases h
  | blank => cases o' <;> first | exact .blank | cases h
  | lineComment => cases o' <;> first | exact .lineComment | cases h
  | comment => cases o' <;> first | exact .comment | cases h
  | openComment => cases o' <;> first | exact .openComment | cases h

def CountsAs (ls ms : List Line) : Prop :=
  ∀ s s' : Tally, s.look = s'.look → ((tokensOf ls).foldl Tally.step s).look = ((tokensOf ms).foldl Tally.step s').look

theorem countsAs_of_look {ls ms : List Line} (h : ls.map Line.look = ms.map Line.look) : CountsAs ls ms := by
  intro s s' hs
  rw [Tally.foldl_look, Tally.foldl_look, ← tokensOf_look, h, tokensOf_look, hs]

structure Stretch.Alike (f : Text → Text) (x y : Stretch) : Prop where
  texts : (x.lines.map Line.text).map f = (y.lines.map Line.text).map f
  counts : CountsAs x.lines y.lines
  opening : x.opening.Alike y.opening
  ending : x.last.ending = y.last.ending

theorem Stretch.alike_of_under {x y : Stretch} (h : x.under f = y.under f) : x.Alike f y := by
  have hlook : x.look = y.look := by rw [← x.look_under (f := f), h, y.look_under]
  have hlines : x.lines.map (Line.under f) = y.lines.map (Line.under f) := by
    rw [← x.lines_under, h, y.lines_under]
  refine ⟨map_text_of_under hlines, countsAs_of_look (map_look_of_under hlines), ?_, ?_⟩
  · exact Opening.alike_of_look (by rw [← x.opening_look, hlook, y.opening_look])
  · rw [← x.last.ending_look, ← x.last_look, hlook, y.last_look, y.last.ending_look]

theorem alike_of_under {xs ys : List Stretch} (h : xs.map (Stretch.under f) = ys.map (Stretch.under f)) :
    List.Forall₂ (Stretch.Alike f) xs ys :=
  List.Forall₂.imp (fun _ _ => Stretch.alike_of_under)
    (List.forall₂_map_left_iff.mp (List.forall₂_map_right_iff.mp (List.forall₂_eq_eq_eq ▸ h)))

theorem view_nextCodeLine {xs ys : List Stretch} (h : List.Forall₂ (Stretch.Alike f) xs ys) :
    (nextCodeLine xs).map Line.view = (nextCodeLine ys).map Line.view := by
  induction h with
  | nil => rfl
  | @cons x y xs ys hx _ ih =>
    have ho := hx.opening
    rw [nextCodeLine, nextCodeLine]
    generalize x.opening = o at ho
    generalize y.opening = o' at ho
    cases ho with
    | code _ view => exact congrArg some view
    | openComment => rfl
    | _ => exact ih

theorem texts_flatMap {xs ys : List Stretch} (h : List.Forall₂ (Stretch.Alike f) xs ys) :
    ((xs.flatMap Stretch.lines).map Line.text).map f = ((ys.flatMap Stretch.lines).map Line.text).map f := by
  induction h with
  | nil => rfl
  | cons hx _ ih => simp only [List.flatMap_cons, List.map_append, hx.texts, ih]

theorem counts_flatMap {xs ys : List Stretch} (h : List.Forall₂ (Stretch.Alike f) xs ys) :
    CountsAs (xs.flatMap Stretch.lines) (ys.flatMap Stretch.lines) := by
  induction h with
  | nil => exact fun _ _ hs => hs
  | cons hx _ ih =>
    intro s s' hs
    simp only [List.flatMap_cons, tokensOf_append, List.foldl_append]
    exact ih _ _ (hx.counts _ _ hs)

/-! ## Drafts that become the same block -/

/-- Drafts that become the same block under `f`, now and with the same lines
pushed. -/
structure Draft.Same (f : Text → Text) (d e : Draft) : Prop where
  kind : d.kind = e.kind
  texts : (d.lines.map Line.text).map f = (e.lines.map Line.text).map f
  tally : d.tally.look = e.tally.look

namespace Draft.Same

variable {d e : Draft} (h : d.Same f e)
include h

theorem block?_eq (hf : Shade f) : d.block?.map (Block.under f) = e.block?.map (Block.under f) := by
  have hu : d.tally.look.unterminated = e.tally.look.unterminated := by rw [h.tally]
  change d.tally.unterminated = e.tally.unterminated at hu
  have htexts : ((d.lines.map Line.text).dropWhile isBlankText).map f = ((e.lines.map Line.text).dropWhile isBlankText).map f := by
    rw [← dropWhile_map_self hf.blank, h.texts, dropWhile_map_self hf.blank]
  rw [Draft.block?, Draft.block?, h.kind, hu]
  generalize (d.lines.map Line.text).dropWhile isBlankText = ls at htexts
  generalize (e.lines.map Line.text).dropWhile isBlankText = ms at htexts
  have hnil : ls = [] ↔ ms = [] := by
    rw [← List.map_eq_nil_iff (f := f), htexts, List.map_eq_nil_iff]
  have hend : (dropEndWhile isBlankText ls).map f = (dropEndWhile isBlankText ms).map f := by
    rw [← dropEndWhile_map_self hf.blank, htexts, dropEndWhile_map_self hf.blank]
  simp only [hnil]
  split_ifs
  · rfl
  · simp only [Option.map_some, Block.under, ← hf.join, htexts]
  · simp only [Option.map_some, Block.under, ← hf.join, hend]

theorem toList_block? (hf : Shade f) : d.block?.toList.map (Block.under f) = e.block?.toList.map (Block.under f) := by
  rw [← Option.toList_map, h.block?_eq hf, Option.toList_map]

theorem lines_eq_nil : d.lines = [] ↔ e.lines = [] := by
  have := congrArg List.length h.texts
  simp only [List.length_map] at this
  rw [← List.length_eq_zero_iff, this, List.length_eq_zero_iff]

theorem with_kind (k : Option BlockKind) : Draft.Same f { d with kind := k } { e with kind := k } :=
  ⟨rfl, h.texts, h.tally⟩

theorem push {ls ms : List Line} (htexts : (ls.map Line.text).map f = (ms.map Line.text).map f) (hcounts : CountsAs ls ms) :
    (d.push ls).Same f (e.push ms) where
  kind := h.kind
  texts := by
    simp only [Draft.push, List.map_append, h.texts, htexts]
  tally := hcounts _ _ h.tally

end Draft.Same

/-- Stretches that are alike are cut at the same places, into blocks of the
same kinds. -/
theorem blocksFrom_alike (hf : Shade f) {d e : Draft} {xs ys : List Stretch} (h : d.Same f e)
    (hx : List.Forall₂ (Stretch.Alike f) xs ys) :
    (blocksFrom d xs).map (Block.under f) = (blocksFrom e ys).map (Block.under f) := by
  induction hx generalizing d e with
  | nil => rw [blocksFrom, blocksFrom, h.toList_block? hf]
  | @cons x y xs ys hxy hxs ih =>
    have hview := view_nextCodeLine hxs
    have hpush : ∀ {d e : Draft}, d.Same f e →
        (blocksFrom (d.push x.lines) xs).map (Block.under f) = (blocksFrom (e.push y.lines) ys).map (Block.under f) :=
      fun h => ih (h.push hxy.texts hxy.counts)
    have hnew : (blocksFrom {} xs).map (Block.under f) = (blocksFrom {} ys).map (Block.under f) :=
      ih ⟨rfl, rfl, rfl⟩
    have hkeeps : d.keepsComment xs = e.keepsComment ys := keepsComment_congr h.tally hview
    have hopen := hxy.opening
    rw [blocksFrom, blocksFrom, h.kind, hkeeps]
    generalize x.opening = o at hopen
    generalize y.opening = o' at hopen
    cases hopen with
    | blank =>
      simp only [h.lines_eq_nil]
      split
      · exact ih h
      · exact hpush h
    | lineComment =>
      simp only
      split
      · exact hpush h
      · rw [List.map_append, List.map_append, h.toList_block? hf, hpush ⟨rfl, rfl, rfl⟩]
    | comment =>
      simp only
      split
      · exact hpush h
      · simp only [List.map_append, List.map_cons, h.toList_block? hf, hnew, Block.under, ← hf.join, hxy.texts]
    | openComment =>
      have hrest : Draft.Same f (Draft.push { kind := some .generic } ((x :: xs).flatMap Stretch.lines))
          (Draft.push { kind := some .generic } ((y :: ys).flatMap Stretch.lines)) :=
        Draft.Same.push ⟨rfl, rfl, rfl⟩ (texts_flatMap (.cons hxy hxs)) (counts_flatMap (.cons hxy hxs))
      simp only [List.map_append]
      rw [h.toList_block? hf, hrest.toList_block? hf]
    | code hkind =>
      have hcode : ∀ {d e : Draft}, d.Same f e →
          (if (d.push x.lines).isComplete x.last xs then (d.push x.lines).block?.toList ++ blocksFrom {} xs
            else blocksFrom (d.push x.lines) xs).map (Block.under f) =
          (if (e.push y.lines).isComplete y.last ys then (e.push y.lines).block?.toList ++ blocksFrom {} ys
            else blocksFrom (e.push y.lines) ys).map (Block.under f) := by
        intro d e h
        have hp := h.push hxy.texts hxy.counts
        rw [isComplete_congr hp.kind hp.tally hxy.ending hview]
        split
        · rw [List.map_append, List.map_append, hp.toList_block? hf, hnew]
        · exact hpush h
      simp only [hkind, List.map_append]
      split
      · rw [h.toList_block? hf, hcode ⟨rfl, rfl, rfl⟩]
      · rw [h.kind, hcode (h.with_kind _)]

/-- Stretches that look alike are cut at the same places, into blocks of the
same kinds. -/
theorem blocksFrom_congr (hf : Shade f) {d e : Draft} {xs ys : List Stretch} (h : d.Same f e)
    (hx : xs.map (Stretch.under f) = ys.map (Stretch.under f)) :
    (blocksFrom d xs).map (Block.under f) = (blocksFrom e ys).map (Block.under f) :=
  blocksFrom_alike hf h (alike_of_under hx)

end SqlLayout
