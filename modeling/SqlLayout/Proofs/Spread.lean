import SqlLayout.Proofs.Tidy

/-!
# Groups of tokens on lines

Tokens are cut into groups, the groups are written on lines, and the lines are
put on one line again. What is read from the lines are the tokens of the groups
(`IsRows.tokenize_normalize`), and a cut between the same tokens finds the groups
again (`strip_cuts`).
-/

namespace SqlLayout

/-! ## Groups of tokens -/

def spread : List (List Token) → List Token
  | [] => []
  | g :: gs => g ++ gs.flatMap (.whitespace [' '] :: ·)

@[simp] theorem spread_singleton (g : List Token) : spread [g] = g := List.append_nil g

theorem spread_cons_cons (g h : List Token) (gs : List (List Token)) :
    spread (g :: h :: gs) = g ++ .whitespace [' '] :: spread (h :: gs) := rfl

theorem solids_flatMap {β : Type} {f : β → Token} (hf : ∀ b, (f b).isSpace) (g : β → List Token) (bs : List β) :
    solids (bs.flatMap fun b => f b :: g b) = bs.flatMap fun b => solids (g b) := by
  induction bs with
  | nil => rfl
  | cons b bs ih => rw [List.flatMap_cons, solids_append, solids_cons, if_pos (hf b), ih, List.flatMap_cons]

theorem solids_flatten (gs : List (List Token)) : solids gs.flatten = gs.flatMap solids := by
  rw [List.flatMap_def]
  exact List.filter_flatten

theorem solids_spread (gs : List (List Token)) : solids (spread gs) = gs.flatMap solids := by
  cases gs with
  | nil => rfl
  | cons g gs =>
    rw [spread, solids_append, List.flatMap_cons]
    exact congrArg (solids g ++ ·) (solids_flatMap (f := fun _ => .whitespace [' ']) (fun _ => rfl) id gs)

theorem append_cut {a b c d : List Token} (e : a ++ b = c ++ d) (hs : solids a = solids c)
    (hc : ∀ t ∈ c.getLast?, t.isSpace = false) : ∃ z, z.all Token.isSpace ∧ a = c ++ z ∧ d = z ++ b := by
  rcases List.append_eq_append_iff.mp e with ⟨z, hz, hb⟩ | ⟨z, hz, hd⟩
  · rw [hz, solids_append] at hs
    have hz' : solids z = [] := List.self_eq_append_right.mp hs
    cases e : z.getLast? with
    | none =>
      obtain rfl := List.getLast?_eq_none_iff.mp e
      exact ⟨[], rfl, by simpa using hz.symm, by simpa using hb.symm⟩
    | some t =>
      have ht := List.all_eq_true.mp (solids_eq_nil.mp hz') t (List.mem_of_getLast? e)
      rw [hc t (by rw [hz, List.getLast?_append, e]; rfl)] at ht
      cases ht
  · rw [hz, solids_append] at hs
    exact ⟨z, solids_eq_nil.mp (List.append_right_eq_self.mp hs), hz, hd⟩

/-- Groups without space at their ends are found again in what is spread. -/
theorem strip_cuts {hs gs : List (List Token)} {x y : List Token} (e : hs.flatten = x ++ (spread gs ++ y))
    (hx : x.all Token.isSpace) (h : hs.map solids = gs.map solids)
    (hg : ∀ g ∈ gs, g ≠ [] ∧ strip g = g) : hs.map strip = gs := by
  induction gs generalizing hs x with
  | nil =>
    obtain rfl : hs = [] := by simpa using h
    rfl
  | cons g gs ih =>
    cases hs with
    | nil => simp at h
    | cons k hs =>
      obtain ⟨hk, hgs⟩ := List.cons.inj h
      obtain ⟨hne, htight⟩ := hg g List.mem_cons_self
      have hlast : ∀ t ∈ (x ++ g).getLast?, t.isSpace = false := by
        rw [List.getLast?_append_of_ne_nil _ hne, ← htight]
        exact getLast_strip g
      have hfront : solids k = solids (x ++ g) := by rw [solids_append, solids_eq_nil.mpr hx, hk, List.nil_append]
      have hstrip {z : List Token} (hz : z.all Token.isSpace) : strip (x ++ g ++ z) = g := by
        rw [List.append_assoc, strip_space_append hx hz, htight]
      rw [List.flatten_cons] at e
      cases gs with
      | nil =>
        obtain rfl : hs = [] := by simpa using hgs
        rw [spread_singleton, ← List.append_assoc] at e
        obtain ⟨z, hz, rfl, -⟩ := append_cut e hfront hlast
        rw [List.map_singleton, hstrip hz]
      | cons g' gs =>
        have e : k ++ hs.flatten = (x ++ g) ++ (.whitespace [' '] :: (spread (g' :: gs) ++ y)) := by
          rw [e, spread_cons_cons]
          simp
        obtain ⟨z, hz, rfl, hrest⟩ := append_cut e hfront hlast
        obtain ⟨x', hx', hrest⟩ : ∃ x', x'.all Token.isSpace ∧ hs.flatten = x' ++ (spread (g' :: gs) ++ y) := by
          rcases z with - | ⟨t, - | ⟨u, z⟩⟩
          · exact ⟨[.whitespace [' ']], rfl, hrest.symm⟩
          · exact ⟨[], rfl, (List.cons.inj hrest).2.symm⟩
          · -- the next group does not start with space
            obtain ⟨hne', htight'⟩ := hg g' (by simp)
            obtain ⟨v, r, rfl⟩ := List.exists_cons_of_ne_nil hne'
            have hv : v.isSpace = false := head_strip _ v (by rw [htight']; rfl)
            obtain ⟨rfl, -⟩ := List.cons.inj (List.cons.inj hrest).2
            simp [hv] at hz
        rw [List.map_cons, hstrip hz, ih hrest hx' hgs fun g hg' => hg g (List.mem_cons_of_mem _ hg')]

/-! ## Lines of tokens -/

structure IsRow (ts : List Token) : Prop where
  tidy : Tidy ts
  ne_nil : ts ≠ []
  tight : strip ts = ts

theorem joinLines_eq_flatMap (l : Text) (ls : List Text) : joinLines (l :: ls) = l ++ ls.flatMap ('\n' :: ·) := by
  induction ls generalizing l with
  | nil => simp
  | cons m ls ih => rw [joinLines_cons_cons, ih, List.flatMap_cons]; rfl

theorem IsRow.head {ts : List Token} (h : IsRow ts) : ∀ t ∈ ts.head?, t.isSpace = false := h.tight ▸ head_strip ts

theorem IsRow.getLast {ts : List Token} (h : IsRow ts) : ∀ t ∈ ts.getLast?, t.isSpace = false := h.tight ▸ getLast_strip ts

theorem Tidy.isRow {ts g : List Token} (h : Tidy ts) (hi : g <:+: ts) (hs : solids g ≠ []) : IsRow (strip g) :=
  ⟨h.of_infix ((infix_strip g).trans hi), mt strip_eq_nil.mp hs, strip_strip g⟩

/-- The first line stands at the margin, each other one behind as many blanks
as it says. -/
def rowLines (g : List Token) (rows : List (Nat × List Token)) : List Text :=
  spell g :: rows.map fun r => pad r.1 ++ spell r.2

/-- Lines that can be read again: of all but the last one each token has its
end. -/
structure IsRows (g : List Token) (rows : List (Nat × List Token)) : Prop where
  head : IsRow g
  tail : ∀ r ∈ rows, IsRow r.2
  closed : ∀ h ∈ (g :: rows.map Prod.snd).dropLast, ∀ t ∈ h, t.isUnterminated = false

section
variable {g : List Token} {rows : List (Nat × List Token)} (h : IsRows g rows)
include h

theorem IsRows.lexed : Lexed (g ++ rows.flatMap fun r => .whitespace ('\n' :: pad r.1) :: r.2) := by
  induction rows generalizing g with
  | nil => simpa using h.head.tidy.lexed
  | cons r rows ih =>
    have hr := h.tail r List.mem_cons_self
    have ih := ih ⟨hr, fun q hq => h.tail q (List.mem_cons_of_mem r hq), fun k hk => h.closed k (List.mem_cons_of_mem g hk)⟩
    rw [List.flatMap_cons, List.cons_append]
    refine h.head.tidy.lexed.append ⟨⟨List.cons_ne_nil _ _, ?_⟩, ?_, ih⟩ fun t ht => ?_
    · simp [pad, isSpaceChar]
    · refine stops_whitespace (fun t ht => ih.formed ht) ?_
      rw [List.head?_append_of_ne_nil _ hr.ne_nil]
      exact hr.head
    · have hm := List.mem_of_getLast? ht
      refine Token.stops_cons (by decide) (h.closed g List.mem_cons_self t hm) ?_ (fun _ => rfl) _
      rw [h.head.getLast t ht]
      exact fun hs => absurd hs (by decide)

theorem IsRows.tokenize_rowLines : tokenize (joinLines (rowLines g rows)) =
    g ++ rows.flatMap fun r => .whitespace ('\n' :: pad r.1) :: r.2 := by
  rw [← h.lexed.tokenize_spell, rowLines, joinLines_eq_flatMap, spell_append, List.flatMap_map]
  simp only [spell, List.flatMap_assoc]
  rfl

theorem IsRows.forall_spread {p : Token → Prop} (hp : p (.whitespace [' '])) (hr : ∀ k, IsRow k → ∀ t ∈ k, p t) :
    ∀ t ∈ spread (g :: rows.map Prod.snd), p t := by
  intro t ht
  rw [spread, List.flatMap_map, List.mem_append, List.mem_flatMap] at ht
  rcases ht with ht | ⟨r, hm, ht⟩
  · exact hr g h.head t ht
  · rcases List.mem_cons.mp ht with rfl | ht
    · exact hp
    · exact hr r.2 (h.tail r hm) t ht

theorem IsRows.blanked_tokenize : blanked (tokenize (joinLines (rowLines g rows))) = spread (g :: rows.map Prod.snd) := by
  rw [h.tokenize_rowLines, spread, List.flatMap_map, blanked, List.map_append, List.map_flatMap, ← blanked,
    h.head.tidy.blanked_eq]
  congr 1
  refine List.flatMap_congr fun r hr => ?_
  rw [List.map_cons, if_pos (by rfl), ← blanked, (h.tail r hr).tidy.blanked_eq]

theorem IsRows.isLineComment : ∀ t ∈ tokenize (joinLines (rowLines g rows)), t.isLineComment = false := by
  rw [h.tokenize_rowLines]
  intro t ht
  rcases List.mem_append.mp ht with ht | ht
  · exact h.head.tidy.plain t ht
  · obtain ⟨r, hr, ht⟩ := List.mem_flatMap.mp ht
    rcases List.mem_cons.mp ht with rfl | ht
    · rfl
    · exact (h.tail r hr).tidy.plain t ht

/-- What the lines hold, on one line. -/
theorem IsRows.isRow_spread : IsRow (spread (g :: rows.map Prod.snd)) := by
  refine ⟨⟨?_, fun hm => ?_, ?_, ?_, ?_⟩, ?_, strip_eq_self ?_ ?_⟩
  · rw [← h.blanked_tokenize]
    exact (lexed_tokenize _).blanked h.isLineComment
  · obtain ⟨t, ht, hm⟩ := List.mem_flatMap.mp hm
    refine h.forall_spread (p := fun t => '\n' ∉ t.text) (by decide) (fun k hk t ht hm => ?_) t ht hm
    exact hk.tidy.line (List.mem_flatMap.mpr ⟨t, ht, hm⟩)
  · exact h.forall_spread rfl fun k hk => hk.tidy.plain
  · exact h.forall_spread (fun _ => rfl) fun k hk => hk.tidy.spaced
  · exact h.forall_spread (Or.inl rfl) fun k hk => hk.tidy.firm
  · rw [spread]
    simp [h.head.ne_nil]
  · rw [spread, List.head?_append_of_ne_nil _ h.head.ne_nil]
    exact h.head.head
  · rcases List.eq_nil_or_concat rows with rfl | ⟨rows, r, rfl⟩
    · simpa using h.head.getLast
    · have hr := h.tail r (by simp)
      rw [spread, List.concat_eq_append, List.map_append, List.flatMap_append, List.map_singleton, List.flatMap_singleton,
        List.append_cons, ← List.append_assoc, List.getLast?_append_of_ne_nil _ hr.ne_nil]
      exact hr.getLast

theorem IsRows.solidsOf_rowLines : solidsOf (joinLines (rowLines g rows)) = (g :: rows.map Prod.snd).flatMap solids := by
  rw [solidsOf, h.tokenize_rowLines, solids_append, solids_flatMap (fun _ => rfl), List.flatMap_cons, List.flatMap_map]

theorem IsRows.tokenize_normalize (n : Nat) :
    tokenize (normalize n (joinLines (rowLines g rows))) = spread (g :: rows.map Prod.snd) := by
  rw [normalize, if_neg (by simpa using h.isLineComment), collapse_eq, h.blanked_tokenize, h.isRow_spread.tidy.trim_spell,
    h.isRow_spread.tight, h.isRow_spread.tidy.lexed.tokenize_spell]

end

end SqlLayout
