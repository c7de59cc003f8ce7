import SqlLayout.Proofs.Flush
import SqlLayout.Proofs.Places

/-!
# Columns of the river style

The lines of an item have its code at the column of its spot, as long as the
head of the spot ends there (`Spot.codeAt_lines`). A comma or an operator that
is pulled to the left needs room for that: two characters in a list, four in a
predicate. Behind a clause keyword there is enough at every river, and behind
an ON if the indent is not empty (`river_aligned`).
-/

namespace SqlLayout

/-! ## One item -/

def StartsAt (column : Nat) (code line : Text) : Prop :=
  ∃ first head more, (splitLines code).head? = some first ∧ trimEnd first ≠ [] ∧
    line = head ++ (trimEnd first ++ more) ∧ head.length = column

/-- The lines of an item whose code starts at a column: the comments in front
of it, the lines of the code, and the comments behind it. -/
def Item.CodeAt (column : Nat) (i : Item) (lines : List Text) : Prop :=
  ∃ line below, lines = commentsAt column i.leading ++ line :: below ∧
    below.length + 1 = (splitLines i.code).length + i.following.length ∧
    (i.code ≠ [] → StartsAt column i.code line)

inductive Lined (column : Nat) : List Item → List Text → Prop
  | nil : Lined column [] []
  | cons {i : Item} {is : List Item} {block below : List Text} :
    i.CodeAt column block → Lined column is below → Lined column (i :: is) (block ++ below)

theorem closeLast_cons (suffix : Text) (trailing : Option Text) (l : Text) (ls : List Text) :
    ∃ more below, closeLast suffix trailing (l :: ls) = (l ++ more) :: below ∧ below.length = ls.length := by
  have hlen : ∀ m ms, (closeLast suffix trailing (m :: ms)).length = ms.length + 1 := by
    intro m ms
    induction ms generalizing m with
    | nil => rfl
    | cons x xs ih => simp [closeLast, ih x]
  cases ls with
  | nil => exact ⟨_, [], congrArg (fun x => [x]) (List.append_assoc _ _ _), rfl⟩
  | cons m ms => exact ⟨[], _, by rw [List.append_nil]; rfl, hlen m ms⟩

theorem trimEnd_isPrefix_append (s t : Text) : trimEnd s <+: trimEnd (s ++ t) := by
  by_cases ht : trimEnd t = []
  · rw [trimEnd_append_blank (trimEnd_eq_nil.mp ht)]
  · rw [trimEnd_append ht]
    exact (trimEnd_isPrefix s).trans (List.prefix_append _ _)

theorem Flush.first_line {code l : Text} {ls : List Text} (h : Flush code) (hne : code ≠ [])
    (e : splitLines code = l :: ls) : SqlLayout.trimEnd l ≠ [] := by
  rw [← joinLines_splitLines code, e, joinLines_eq_flatMap] at h hne
  cases l with
  | cons c l =>
    rw [trimEnd_cons (flush_cons.mp h)]
    exact List.cons_ne_nil _ _
  | nil =>
    cases ls with
    | nil => exact absurd rfl hne
    | cons m ms => exact absurd (flush_cons.mp h) (by decide)

theorem codeLines_cons (head : Text) (column : Nat) (code suffix : Text) (trailing : Option Text) :
    ∃ l ls more below, splitLines code = l :: ls ∧
      closeLast suffix trailing (codeLines head column code) = (head ++ (l ++ more)) :: below ∧ below.length = ls.length := by
  obtain ⟨l, ls, e⟩ := List.exists_cons_of_ne_nil (splitLines_ne_nil code)
  obtain ⟨more, below, eclose, hbelow⟩ := closeLast_cons suffix trailing (head ++ l) (ls.map (pad column ++ ·))
  refine ⟨l, ls, more, below, e, ?_, by rw [hbelow, List.length_map]⟩
  rw [codeLines, e, ← List.append_assoc]
  exact eclose

/-- The line of a keyword that leading comments must not push down, if there
is one, and then the lines of the item. -/
theorem Spot.codeAt_lines {s : Spot} (hlen : s.head.length = s.column) (suffix : Text) {i : Item} (hf : Flush i.code) :
    ∃ keyword block, s.lines suffix i = keyword ++ block ∧ keyword.length ≤ s.isKeyword.toNat ∧ i.CodeAt s.column block := by
  have hcode : ∀ head : Text, head.length = s.column →
      i.CodeAt s.column (commentsAt s.column i.leading ++
        (closeLast suffix i.trailing (codeLines head s.column i.code)).map trimEnd ++ commentsAt s.following i.following) := by
    intro head hhead
    obtain ⟨l, ls, more, below, e, eclose, hbelow⟩ := codeLines_cons head s.column i.code suffix i.trailing
    refine ⟨trimEnd (head ++ (l ++ more)), below.map trimEnd ++ commentsAt s.following i.following, ?_, ?_, fun hne => ?_⟩
    · rw [eclose, List.map_cons, List.append_assoc, List.cons_append]
    · rw [e, List.length_append, List.length_map, hbelow, commentsAt, List.length_map, List.length_cons]
      omega
    · have hl := hf.first_line hne e
      obtain ⟨rest, er⟩ := trimEnd_isPrefix_append l more
      have hmore : trimEnd (l ++ more) ≠ [] := er ▸ List.append_ne_nil_of_left_ne_nil hl rest
      exact ⟨l, head, rest, by rw [e]; rfl, hl, by rw [trimEnd_append hmore, er], hhead⟩
  by_cases hd : (s.isKeyword && i.leading ≠ []) = true
  · refine ⟨[trimEnd s.head], _, ?_, ?_, hcode (pad s.column) (List.length_replicate ..)⟩
    · simp only [Spot.lines, hd, if_true, List.append_assoc]
    · rw [(Bool.and_eq_true_iff.mp hd).1]
      rfl
  · refine ⟨[], _, ?_, Nat.zero_le _, hcode s.head hlen⟩
    simp only [Spot.lines, hd, if_false, List.nil_append, Bool.false_eq_true]

theorem Spot.codeAt_plain {s : Spot} (hk : s.isKeyword = false) (hlen : s.head.length = s.column) (suffix : Text) {i : Item}
    (hf : Flush i.code) : i.CodeAt s.column (s.lines suffix i) := by
  obtain ⟨keyword, block, e, hkeyword, hcode⟩ := s.codeAt_lines hlen suffix hf
  obtain rfl : keyword = [] := List.eq_nil_of_length_eq_zero (by simpa [hk] using hkeyword)
  rw [e]
  exact hcode

/-! ## Lists and predicates -/

theorem lined_laterItems (comma : CommaPlace) {rest : Nat} (hrest : 2 ≤ rest) {items : List Item}
    (hf : ∀ i ∈ items, Flush i.code) : Lined rest items (laterItems comma rest items) := by
  induction items with
  | nil => exact .nil
  | cons i is ih =>
    obtain ⟨hi, his⟩ := List.forall_mem_cons.mp hf
    refine .cons (Spot.codeAt_plain rfl ?_ _ hi) (ih his)
    cases comma with
    | before => simp [pad]; omega
    | after => simp [pad]

def Item.behindOperator (i : Item) : Item :=
  match i.splitOperator with
  | some (_, code) => { i with code }
  | none => i

/-- The AND or OR of a condition behind the first is no part of what is lined
up. -/
def linedConditions : List Item → List Item
  | [] => []
  | i :: is => i :: is.map Item.behindOperator

theorem codeAt_laterCondition {rest : Nat} (hrest : 4 ≤ rest) {i : Item} (hf : Flush i.code) :
    i.behindOperator.CodeAt rest (laterCondition true rest i) := by
  unfold laterCondition Item.behindOperator
  rw [if_pos rfl]
  cases e : i.splitOperator with
  | none => exact Spot.codeAt_plain rfl (by simp [pad]) [] hf
  | some p =>
    obtain ⟨operator, code⟩ := p
    obtain ⟨hoperator, hcode⟩ := Item.splitOperator_eq_some e
    have hlen : operator.length ≤ 3 := by
      rw [← length_upper operator]
      rcases hoperator with h | h <;> rw [h] <;> decide
    refine Spot.codeAt_plain rfl ?_ [] hcode
    simp [pad]
    omega

theorem lined_laterConditions {rest : Nat} (hrest : 4 ≤ rest) {items : List Item} (hf : ∀ i ∈ items, Flush i.code) :
    Lined rest (items.map Item.behindOperator) (items.flatMap (laterCondition true rest)) := by
  induction items with
  | nil => exact .nil
  | cons i is ih =>
    obtain ⟨hi, his⟩ := List.forall_mem_cons.mp hf
    exact .cons (codeAt_laterCondition hrest hi) (ih his)

/-- At most one line, for a keyword or the modifiers, and the items behind it
with their code at one column. -/
def Aligned (column : Nat) (items : List Item) (lines : List Text) : Prop :=
  ∃ above below, lines = above ++ below ∧ above.length ≤ 1 ∧ Lined column items below

structure ListShape.Even (s : ListShape) : Prop where
  head : s.head.length = s.first
  rest : s.rest = s.first

theorem ListShape.Even.lined {s : ListShape} (h : s.Even) (n : Nat) (suffix : Text) {i : Item} (hi : Flush i.code)
    {is : List Item} {later : List Text} (hl : Lined s.rest is later) :
    ∃ keyword below, (s.spot n).lines suffix i ++ later = keyword ++ below ∧ keyword.length ≤ s.isKeyword.toNat ∧
      Lined s.first (i :: is) below := by
  obtain ⟨keyword, block, e, hk, hc⟩ := Spot.codeAt_lines (s := s.spot n) h.head suffix hi
  rw [h.rest] at hl
  exact ⟨keyword, block ++ later, by rw [e, List.append_assoc], hk, .cons hc hl⟩

theorem lined_commaList {s : ListShape} (h : s.Even) (hrest : 2 ≤ s.first) (comma : CommaPlace) {items : List Item}
    (hf : ∀ i ∈ items, Flush i.code) :
    ∃ keyword below, commaList comma s items = keyword ++ below ∧ keyword.length ≤ s.isKeyword.toNat ∧
      Lined s.first items below := by
  cases items with
  | nil => exact ⟨[], [], rfl, Nat.zero_le _, .nil⟩
  | cons i is =>
    obtain ⟨hi, his⟩ := List.forall_mem_cons.mp hf
    exact h.lined _ _ hi (lined_laterItems comma (h.rest ▸ hrest) his)

theorem lined_conditionList {s : ListShape} (h : s.Even) (hrest : 4 ≤ s.first) {items : List Item}
    (hf : ∀ i ∈ items, Flush i.code) :
    ∃ keyword below, conditionList true s items = keyword ++ below ∧ keyword.length ≤ s.isKeyword.toNat ∧
      Lined s.first (linedConditions items) below := by
  cases items with
  | nil => exact ⟨[], [], rfl, Nat.zero_le _, .nil⟩
  | cons i is =>
    obtain ⟨hi, his⟩ := List.forall_mem_cons.mp hf
    exact h.lined _ _ hi (lined_laterConditions (h.rest ▸ hrest) his)

/-! ## Keywords -/

/-- The first line is the keyword at its column, alone or with a blank and more
behind it. -/
def LedBy (start : Nat) (keyword : Text) (lines : List Text) : Prop :=
  ∃ more below, lines = (pad start ++ (keyword ++ more)) :: below ∧ (more = [] ∨ ∃ t, more = ' ' :: t)

theorem LedBy.append {start : Nat} {keyword : Text} {lines : List Text} (h : LedBy start keyword lines) (below : List Text) :
    LedBy start keyword (lines ++ below) := by
  obtain ⟨more, ls, rfl, hmore⟩ := h
  exact ⟨more, ls ++ below, rfl, hmore⟩

theorem Ended.ledBy {keyword : Text} (h : Ended keyword) (start : Nat) (s : Text) (below : List Text) :
    LedBy start keyword (trimEnd (pad start ++ keyword ++ ' ' :: s) :: below) := by
  by_cases hs : trimEnd (' ' :: s) = []
  · refine ⟨[], below, ?_, .inl rfl⟩
    rw [trimEnd_append_blank (trimEnd_eq_nil.mp hs), (h.append _).1, List.append_nil]
  · obtain ⟨c, t, ht⟩ := List.exists_cons_of_ne_nil hs
    obtain ⟨rfl, -⟩ := List.cons_prefix_cons.mp (ht ▸ trimEnd_isPrefix (' ' :: s))
    exact ⟨' ' :: t, below, by rw [trimEnd_append hs, ht, List.append_assoc], .inr ⟨t, rfl⟩⟩

theorem Spot.ledBy_lines {s : Spot} (hk : s.isKeyword) {start : Nat} {keyword : Text} (he : Ended keyword)
    (hh : s.head = pad start ++ keyword ++ [' ']) (suffix : Text) (i : Item) : LedBy start keyword (s.lines suffix i) := by
  unfold Spot.lines
  by_cases hd : i.leading = []
  · obtain ⟨l, ls, more, below, -, eclose, -⟩ := codeLines_cons s.head s.column i.code suffix i.trailing
    simp only [hd, hk, commentsAt, List.map_nil, ne_eq, not_true, decide_false, Bool.and_false, Bool.false_eq_true,
      if_false, List.nil_append]
    rw [eclose, hh, List.append_assoc (pad start ++ keyword)]
    exact he.ledBy start _ _
  · simp only [hk, ne_eq, hd, not_false_eq_true, decide_true, Bool.and_self, if_true]
    rw [hh]
    exact he.ledBy start [] _

namespace River

theorem shape_even (start : Nat) (keyword : Text) : (shape start keyword).Even where
  head := by simp [shape, pad]; omega
  rest := rfl

theorem ledBy_orAlone {start : Nat} {keyword : Text} (he : Ended keyword) {lines : List Text}
    (h : lines = [] ∨ LedBy start keyword lines) : LedBy start keyword (orAlone (shape start keyword) lines) := by
  unfold orAlone
  split
  · exact he.ledBy start [] []
  · next hne => exact h.resolve_left hne

theorem aligned_orAlone (s : ListShape) {column : Nat} {items : List Item} {lines above below : List Text}
    (e : lines = above ++ below) (ha : above.length ≤ 1) (h : Lined column items below) :
    Aligned column items (orAlone s lines) := by
  unfold orAlone
  split
  · next hnil =>
    obtain ⟨-, rfl⟩ := List.append_eq_nil_iff.mp (e ▸ hnil)
    exact ⟨[trimEnd s.head], [], rfl, Nat.le_refl 1, h⟩
  · exact ⟨above, below, e, ha, h⟩

theorem list_aligned (o : Options) {keyword : Text} (he : Ended keyword) {items : List Item}
    (hf : ∀ i ∈ items, Flush i.code) :
    LedBy o.river keyword (list o keyword items) ∧
      Aligned (o.river + keyword.length + 1) items (list o keyword items) := by
  have hpos := List.length_pos_iff.mpr he.2
  have hroom : 2 ≤ o.river + keyword.length + 1 := by omega
  obtain ⟨above, below, e, ha, h⟩ := lined_commaList (shape_even o.river keyword) hroom o.commaPlace hf
  refine ⟨ledBy_orAlone he ?_, aligned_orAlone _ e ha h⟩
  cases items with
  | nil => exact .inl rfl
  | cons i is => exact .inr ((Spot.ledBy_lines rfl he rfl _ i).append _)

theorem conditions_aligned {start : Nat} {keyword : Text} (he : Ended keyword) (hroom : 4 ≤ start + keyword.length + 1)
    {items : List Item} (hf : ∀ i ∈ items, Flush i.code) :
    LedBy start keyword (conditions start keyword items) ∧
      Aligned (start + keyword.length + 1) (linedConditions items) (conditions start keyword items) := by
  obtain ⟨above, below, e, ha, h⟩ := lined_conditionList (shape_even start keyword) hroom hf
  refine ⟨ledBy_orAlone he ?_, aligned_orAlone _ e ha h⟩
  cases items with
  | nil => exact .inl rfl
  | cons i is => exact .inr ((Spot.ledBy_lines rfl he rfl _ i).append _)

theorem selection_aligned (o : Options) {keyword : Text} (he : Ended keyword) (modifiers : Option Text) {items : List Item}
    (hf : ∀ i ∈ items, Flush i.code) :
    Aligned (max (o.river + 1) (keyword.length + 1)) items (selection o keyword modifiers items) := by
  have hpos := List.length_pos_iff.mpr he.2
  have hroom : 2 ≤ max (o.river + 1) (keyword.length + 1) := by omega
  have lined : ∀ s : ListShape, s.Even → s.first = max (o.river + 1) (keyword.length + 1) →
      ∃ above below, commaList o.commaPlace s items = above ++ below ∧ above.length ≤ s.isKeyword.toNat ∧
        Lined (max (o.river + 1) (keyword.length + 1)) items below := by
    intro s hs hfirst
    rw [← hfirst] at hroom ⊢
    exact lined_commaList hs hroom o.commaPlace hf
  cases modifiers with
  | none =>
    obtain ⟨above, below, e, ha, h⟩ := lined
      { head := keyword ++ pad (max (o.river + 1) (keyword.length + 1) - keyword.length), isKeyword := true, first := _, rest := _ }
      ⟨by simp [pad]; omega, rfl⟩ rfl
    exact aligned_orAlone _ e ha h
  | some m =>
    obtain ⟨above, below, e, ha, h⟩ := lined
      { head := pad (max (o.river + 1) (keyword.length + 1)), isKeyword := false, first := _, rest := _ }
      ⟨List.length_replicate .., rfl⟩ rfl
    obtain rfl : above = [] := List.eq_nil_of_length_eq_zero (Nat.le_zero.mp ha)
    exact ⟨[trimEnd (keyword ++ ' ' :: m)], below, by rw [selection, e]; rfl, Nat.le_refl 1, h⟩

end River

/-! ## Clauses -/

/-- The join operator stands at the river and its ON one indent behind, with
the conditions at one column. -/
def Join.Aligned (o : Options) (j : Join) (lines : List Text) : Prop :=
  ∃ table conditions, lines = table ++ conditions ∧ LedBy o.river j.operator table ∧
    match j.on with
    | none => conditions = []
    | some on => LedBy (o.river + o.indentSize) on conditions ∧
      SqlLayout.Aligned (o.river + o.indentSize + on.length + 1) (linedConditions j.conditions) conditions

/-- The keyword of each clause behind the SELECT and each join operator stands
at the river, and all items of a list or a predicate start at one column. -/
def Body.Aligned (o : Options) (keyword : Text) : Body → List Text → Prop
  | .selection _ items, lines => SqlLayout.Aligned (max (o.river + 1) (keyword.length + 1)) items lines
  | .list items, lines =>
    LedBy o.river keyword lines ∧ SqlLayout.Aligned (o.river + keyword.length + 1) items lines
  | .conditions items, lines =>
    LedBy o.river keyword lines ∧ SqlLayout.Aligned (o.river + keyword.length + 1) (linedConditions items) lines
  | .sources s, lines => ∃ table joins, lines = table ++ joins.flatten ∧ LedBy o.river keyword table ∧
    List.Forall₂ (Join.Aligned o) s.joins joins

theorem River.join_aligned {o : Options} (hi : 1 ≤ o.indentSize) {j : Join} (h : j.Fits) :
    j.Aligned o (River.join o j) := by
  refine ⟨_, _, rfl, Spot.ledBy_lines rfl h.operator rfl [] j.table, ?_⟩
  cases hon : j.on with
  | none => rfl
  | some on =>
    have e := h.on on hon
    have hlen : on.length = 2 := by rw [← length_upper on, e]; rfl
    have he : Ended on := Ended.of_upper (e ▸ ⟨by decide, by decide⟩)
    exact River.conditions_aligned he (by omega) h.conditions

theorem Options.indentSize_of_check {o : Options} (h : o.check = .ok ()) : 1 ≤ o.indentSize := by
  unfold Options.check at h
  split at h
  · cases h
  · omega

theorem Clause.Spelled.ended {c : Clause} (h : c.Spelled) : Ended c.keyword := by
  refine Ended.of_upper (h ▸ ?_)
  cases c.kind <;> exact ⟨by decide, by decide⟩

theorem Clause.Spelled.length {c : Clause} (h : c.Spelled) : 4 ≤ c.keyword.length := by
  rw [← length_upper c.keyword, h]
  cases c.kind <;> decide

theorem River.body_aligned {o : Options} (ho : 1 ≤ o.indentSize) {c : Clause} (h : c.Spelled) {b : Body}
    (hb : b.Fits c.kind) : b.Aligned o c.keyword (River.lines o c.keyword b) := by
  have he := h.ended
  have hlen := h.length
  unfold Body.Fits at hb
  split at hb
  case h_1 modifiers items _ => exact selection_aligned o he modifiers hb
  case h_2 items _ | h_3 items _ => exact list_aligned o he hb
  case h_4 items _ | h_5 items _ => exact conditions_aligned he (by omega) hb
  case h_6 s _ =>
    have htable : LedBy o.river c.keyword (table o c.keyword s.table) := Spot.ledBy_lines rfl he rfl [] s.table
    refine ⟨_, s.joins.map (join o), by rw [River.lines, List.flatMap_def], htable, ?_⟩
    exact List.forall₂_map_right_iff.mpr (List.forall₂_same.mpr fun j hj => join_aligned ho (hb j hj))
  case h_7 => exact hb.elim

/-- The keywords of the river style start at its column, and the items of each
list and each predicate start at one column, an AND or OR put in front of it. -/
theorem river_aligned {o : Options} (hc : o.check = .ok ()) (hs : o.style = .river) :
    (∀ sql s, Select.ofText sql = .ok s → ∀ c ∈ s.clauses, c.Spelled) ∧
      ∀ c : Clause, c.Spelled → (∀ b, c.split o = .ok b → b.Fits c.kind) ∧
        ∀ b : Body, b.Fits c.kind → b.Aligned o c.keyword (clauseLines o c.keyword b) := by
  refine ⟨fun sql s h => ofText_spelled h, fun c hk => ⟨fun b => Clause.fits_split, fun b hb => ?_⟩⟩
  rw [clauseLines, hs]
  exact River.body_aligned (Options.indentSize_of_check hc) hk hb

/-- At the first column and the smallest indent the AND reaches the edge. -/
theorem river_aligned_at_edge :
    let o : Options := { indentSize := 1, riverColumn := 1 }
    let c : Clause := ⟨.FROM, "from".toList, "t join u on\n-- key\na = 1 AND b = 2 OR c = 3".toList⟩
    o.check = .ok () ∧ o.style = .river ∧ c.Spelled ∧
      ∃ b, c.split o = .ok b ∧ b.Fits c.kind ∧ b.Aligned o c.keyword (clauseLines o c.keyword b) ∧
        clauseLines o c.keyword b =
          ["from t", "join u", " on", "    -- key", "    a = 1", "AND b = 2", " OR c = 3"].map String.toList := by
  intro o c
  have hc : o.check = .ok () := rfl
  have hk : c.Spelled := by decide
  obtain ⟨hfits, haligned⟩ := (river_aligned hc rfl).2 c hk
  exact ⟨hc, rfl, hk, _, rfl, hfits _ rfl, haligned _ (hfits _ rfl), by decide +kernel⟩

end SqlLayout
