import SqlLayout.Proofs.Shades
import SqlLayout.Proofs.Tiles

/-!
# Where blocks stand

A block has the lines from the first line behind its predecessor that is not
blank, so the number of lines of each block tells where all of them stand
(`segment_extents`).
-/

namespace SqlLayout

/-- For each block the number of its first line and how many lines it has,
`n` lines being in front of `ls`. -/
def extentsFrom (n : Nat) (ls : List Text) : List Block → List (Nat × Nat)
  | [] => []
  | b :: bs =>
    let above := (ls.takeWhile isBlankText).length
    let size := (splitLines b.content).length
    (n + above, size) :: extentsFrom (n + above + size) (ls.drop (above + size)) bs

def extents (script : Text) : List (Nat × Nat) := extentsFrom 0 (splitLines (unifyNewlines script)) (segment script)

def Block.Fits (ls : List Text) (b : Block) (e : Nat × Nat) : Prop := splitLines b.content = (ls.drop e.1).take e.2

theorem takeWhile_blank {gap ls : List Text} (hgap : ∀ l ∈ gap, isBlankText l) (hhead : ∀ l ∈ ls.head?, ¬isBlankText l) :
    (gap ++ ls).takeWhile isBlankText = gap := by
  rw [List.takeWhile_append_of_pos hgap]
  cases ls with
  | nil => simp
  | cons l ls => rw [List.takeWhile_cons_of_neg (hhead l rfl), List.append_nil]

theorem fits_extentsFrom (pre : List Text) {gap : List Text} {tiles : List Tile} {bs : List Block}
    (hgap : ∀ l ∈ gap, isBlankText l) (hbelow : ∀ t ∈ tiles, ∀ l ∈ t.gap, isBlankText l) (hne : ∀ t ∈ tiles, t.lines ≠ [])
    (hhead : ∀ t ∈ tiles, ∀ l ∈ t.lines.head?, ¬isBlankText l) (hn : ∀ t ∈ tiles, ∀ l ∈ t.lines, '\n' ∉ l)
    (hbs : bs.map Block.content = tiles.map fun t => joinLines t.lines) :
    List.Forall₂ (Block.Fits (pre ++ (gap ++ tiles.flatMap Tile.all))) bs
      (extentsFrom pre.length (gap ++ tiles.flatMap Tile.all) bs) := by
  induction tiles generalizing pre gap bs with
  | nil =>
    obtain rfl : bs = [] := List.map_eq_nil_iff.mp hbs
    exact .nil
  | cons t ts ih =>
    cases bs with
    | nil => cases hbs
    | cons b bs =>
      obtain ⟨hb, hbs⟩ := List.cons.inj hbs
      have hlines : splitLines b.content = t.lines := by
        rw [hb]
        exact List.splitOn_intercalate _ (hn t List.mem_cons_self) (hne t List.mem_cons_self)
      have habove : (gap ++ (t :: ts).flatMap Tile.all).takeWhile isBlankText = gap := by
        refine takeWhile_blank hgap fun l hl => hhead t List.mem_cons_self l ?_
        obtain ⟨k, ks, e⟩ := List.exists_cons_of_ne_nil (hne t List.mem_cons_self)
        rw [List.flatMap_cons, Tile.all, e] at hl
        rwa [e]
      have hdrop : (gap ++ (t :: ts).flatMap Tile.all).drop (gap.length + t.lines.length) = t.gap ++ ts.flatMap Tile.all := by
        rw [List.drop_length_add_append, List.flatMap_cons, Tile.all, List.append_assoc, List.drop_left]
      have ih := ih (pre ++ gap ++ t.lines) (hbelow t List.mem_cons_self) (fun u hu => hbelow u (List.mem_cons_of_mem t hu))
        (fun u hu => hne u (List.mem_cons_of_mem t hu)) (fun u hu => hhead u (List.mem_cons_of_mem t hu))
        (fun u hu => hn u (List.mem_cons_of_mem t hu)) hbs
      have hall : pre ++ gap ++ t.lines ++ (t.gap ++ ts.flatMap Tile.all) = pre ++ (gap ++ (t :: ts).flatMap Tile.all) := by
        simp [Tile.all]
      rw [hall] at ih
      simp only [extentsFrom, habove, hlines, hdrop]
      refine .cons ?_ ?_
      · rw [Block.Fits, hlines, ← hall, List.append_assoc, List.append_assoc, ← List.append_assoc pre, ← List.length_append,
          List.drop_left, List.take_left]
      · simpa [Nat.add_assoc] using ih

theorem segment_extents (script : Text) :
    List.Forall₂ (Block.Fits (splitLines (unifyNewlines script))) (segment script) (extents script) := by
  obtain ⟨gap, tiles, h⟩ := (covers_segment script).tiled
  have hlines := h.lines
  rw [map_text_lines] at hlines
  have hblank := h.blank
  rw [List.forall_mem_append] at hblank
  have hbelow : ∀ t ∈ tiles, ∀ l ∈ t.gap, isBlankText l := fun t ht l hl =>
    hblank.2 l (List.mem_flatMap.mpr ⟨t, ht, hl⟩)
  have hn : ∀ t ∈ tiles, ∀ l ∈ t.lines, '\n' ∉ l := by
    intro t ht l hl
    refine newline_notMem_splitLines (s := unifyNewlines script) ?_
    rw [hlines]
    exact List.mem_append_right _ (List.mem_flatMap.mpr ⟨t, ht, List.mem_append_left _ hl⟩)
  have := fits_extentsFrom [] hblank.1 hbelow h.filled h.heads hn h.contents
  rwa [extents, hlines]

theorem extentsFrom_congr (n : Nat) {ls ms : List Text} {bs cs : List Block} (h : ls.map upper = ms.map upper)
    (hb : bs.map (Block.under upper) = cs.map (Block.under upper)) :
    extentsFrom n ls bs = extentsFrom n ms cs := by
  induction bs generalizing n ls ms cs with
  | nil =>
    obtain rfl : cs = [] := List.map_eq_nil_iff.mp hb.symm
    rfl
  | cons b bs ih =>
    cases cs with
    | nil => cases hb
    | cons c cs =>
      obtain ⟨hbc, hb⟩ := List.cons.inj hb
      have habove : (ls.takeWhile isBlankText).length = (ms.takeWhile isBlankText).length := by
        have e : ∀ ls : List Text, (ls.takeWhile isBlankText).length = ((ls.map upper).takeWhile isBlankText).length := by
          intro ls
          rw [takeWhile_map_self isBlankText_upper, List.length_map]
        rw [e, h, ← e]
      have hsize : (splitLines b.content).length = (splitLines c.content).length := by
        have e : ∀ s : Text, (splitLines s).length = (splitLines (upper s)).length := by
          intro s
          rw [splitLines_upper, List.length_map]
        rw [e, (Block.eq_of_under hbc).2, ← e]
      simp only [extentsFrom, habove, hsize]
      congr 1
      refine ih _ ?_ hb
      rw [List.map_drop, List.map_drop, h]

end SqlLayout
