import SqlLayout.Proofs.Bodies
import SqlLayout.Proofs.Order

/-!
# Layouts do not see letter case

Every style asks for the lengths of keywords and for what an item is made of.
A statement is laid out on lines that in upper case are told by the statement
in upper case (`selectLines_upper_congr`, `withLines_upper_congr`).
-/

namespace SqlLayout

/-! ## One item -/

theorem commentsAt_upper (column : Nat) (comments : List Text) :
    commentsAt column (comments.map upper) = (commentsAt column comments).map upper := by
  simp only [commentsAt, List.map_map]
  refine List.map_congr_left fun c _ => ?_
  simp only [Function.comp_apply, ← trimEnd_upper, upper_append, upper_pad]

theorem closeLast_upper (suffix : Text) (trailing : Option Text) (ls : List Text) :
    closeLast (upper suffix) (trailing.map upper) (ls.map upper) = (closeLast suffix trailing ls).map upper := by
  induction ls with
  | nil => rfl
  | cons l ls ih =>
    cases ls with
    | nil =>
      simp only [List.map_cons, List.map_nil, closeLast, upper_append]
      cases trailing <;> rfl
    | cons m ls => exact congrArg (upper l :: ·) ih

theorem codeLines_upper (head : Text) (column : Nat) (code : Text) :
    codeLines (upper head) column (upper code) = (codeLines head column code).map upper := by
  unfold codeLines
  rw [splitLines_upper]
  cases splitLines code with
  | nil => rfl
  | cons l ls => simp [upper_pad]

def Spot.upper (s : Spot) : Spot := { s with head := SqlLayout.upper s.head }

theorem map_trimEnd_upper (ls : List Text) : (ls.map upper).map trimEnd = (ls.map trimEnd).map upper := by
  simp [Function.comp_def]

theorem Spot.lines_upper (s : Spot) (suffix : Text) (i : Item) :
    s.upper.lines (SqlLayout.upper suffix) i.upper = (s.lines suffix i).map SqlLayout.upper := by
  unfold Spot.lines
  simp only [Spot.upper, Item.upper, ne_eq, List.map_eq_nil_iff, commentsAt_upper, trimEnd_upper, List.map_append]
  split
  · rw [← upper_pad s.column, codeLines_upper, closeLast_upper, map_trimEnd_upper, upper_pad]
    rfl
  · rw [codeLines_upper, closeLast_upper, map_trimEnd_upper]
    rfl

theorem Spot.lines_bare {s : Spot} (hs : SqlLayout.upper s.head = s.head) {suffix : Text}
    (h : SqlLayout.upper suffix = suffix) (i : Item) : s.lines suffix i.upper = (s.lines suffix i).map SqlLayout.upper := by
  have := s.lines_upper suffix i
  rwa [Spot.upper, hs, h] at this

/-! ## Lists and predicates -/

def ListShape.upper (s : ListShape) : ListShape := { s with head := SqlLayout.upper s.head }

theorem commaSuffix_upper (p : Bool) : upper (if p then [','] else []) = if p then [','] else [] := by
  cases p <;> rfl

theorem laterItems_upper (comma : CommaPlace) (rest : Nat) (items : List Item) :
    laterItems comma rest (items.map Item.upper) = (laterItems comma rest items).map upper := by
  induction items with
  | nil => rfl
  | cons i is ih =>
    simp only [List.map_cons, laterItems, ih, ne_eq, List.map_eq_nil_iff, List.map_append]
    congr 1
    refine Spot.lines_bare ?_ (commaSuffix_upper _) i
    cases comma <;> simp [upper_pad]

theorem commaList_upper (comma : CommaPlace) (s : ListShape) (items : List Item) :
    commaList comma s.upper (items.map Item.upper) = (commaList comma s items).map upper := by
  cases items with
  | nil => rfl
  | cons i is =>
    simp only [List.map_cons, commaList, ne_eq, List.map_eq_nil_iff, List.map_append, laterItems_upper]
    congr 1
    rw [← Spot.lines_upper, commaSuffix_upper]
    rfl

theorem Item.splitOperator_upper (i : Item) :
    i.upper.splitOperator = i.splitOperator.map (Prod.map SqlLayout.upper SqlLayout.upper) := by
  unfold splitOperator
  simp only [Item.upper, tokenize_upper_raise]
  cases tokenize i.code with
  | nil => rfl
  | cons t ts =>
    simp only [raise_cons, Token.isKeyword_upper, Token.text_upper, spell_raise, trimStart_upper]
    split <;> rfl

theorem laterCondition_upper (align : Bool) (rest : Nat) (i : Item) :
    laterCondition align rest i.upper = (laterCondition align rest i).map upper := by
  have hs : (if align then i.upper.splitOperator else none) =
      (if align then i.splitOperator else none).map (Prod.map upper upper) := by
    rw [Item.splitOperator_upper]
    split <;> rfl
  unfold laterCondition
  rw [hs]
  cases (if align then i.splitOperator else none) with
  | none => exact Spot.lines_bare (upper_pad rest) rfl i
  | some p =>
    obtain ⟨operator, code⟩ := p
    simp only [Option.map_some, Prod.map_apply, length_upper]
    rw [← Spot.lines_upper, Spot.upper, upper_append, upper_append, upper_pad]
    rfl

theorem conditionList_upper (align : Bool) (s : ListShape) (items : List Item) :
    conditionList align s.upper (items.map Item.upper) = (conditionList align s items).map upper := by
  cases items with
  | nil => rfl
  | cons i is =>
    simp only [List.map_cons, conditionList, List.flatMap_map, List.map_append, List.map_flatMap, laterCondition_upper]
    congr 1
    exact (s.spot s.first).lines_upper [] i

/-! ## Styles -/

section Styles

variable (o : Options)

theorem headline_upper (keyword m : Text) :
    trimEnd (upper keyword ++ ' ' :: upper m) = upper (trimEnd (keyword ++ ' ' :: m)) := by
  rw [← trimEnd_upper, upper_append]
  rfl

theorem Indent.itemsBelow_upper (items : List Item) :
    itemsBelow o (items.map Item.upper) = (itemsBelow o items).map upper := by
  unfold itemsBelow
  rw [← commaList_upper, ListShape.upper, upper_pad]

theorem Indent.conditionsBelow_upper (column : Nat) (items : List Item) :
    conditionsBelow column (items.map Item.upper) = (conditionsBelow column items).map upper := by
  unfold conditionsBelow
  rw [← conditionList_upper, ListShape.upper, upper_pad]

theorem Indent.selection_upper (keyword : Text) (modifiers : Option Text) (items : List Item) :
    selection o (upper keyword) (modifiers.map upper) (items.map Item.upper) =
      (selection o keyword modifiers items).map upper := by
  unfold selection
  cases modifiers with
  | some m => simp only [Option.map_some, headline_upper, itemsBelow_upper, List.map_cons]
  | none =>
    simp only [Option.map_none, ne_eq, List.map_eq_nil_iff, length_upper]
    split
    · rw [← commaList_upper, ListShape.upper, upper_append]
      rfl
    · rw [trimEnd_upper, itemsBelow_upper, List.map_cons]

theorem Indent.join_upper (j : Join) : join o j.upper = (join o j).map upper := by
  unfold join
  simp only [Join.upper, length_upper, List.map_append]
  congr 1
  · rw [← Spot.lines_upper, Spot.upper, upper_append, upper_append, upper_pad]
    rfl
  · cases j.on with
    | none => rfl
    | some on => simp only [Option.map_some, conditionsBelow_upper, ← trimEnd_upper, upper_append, upper_pad, List.map_cons]

theorem Indent.lines_upper (keyword : Text) (b : Body) : lines o (upper keyword) b.upper = (lines o keyword b).map upper := by
  cases b with
  | selection modifiers items => exact selection_upper o keyword modifiers items
  | list items => simp only [Body.upper, lines, trimEnd_upper, itemsBelow_upper, List.map_cons]
  | conditions items => simp only [Body.upper, lines, trimEnd_upper, conditionsBelow_upper, List.map_cons]
  | sources s =>
    have ht : Spot.lines { head := pad o.indentSize, column := o.indentSize } [] s.table.upper = _ :=
      Spot.lines_bare (upper_pad _) rfl s.table
    simp only [Body.upper, Sources.upper, lines, trimEnd_upper, ht, List.flatMap_map, join_upper, List.map_cons,
      List.map_append, List.map_flatMap]

theorem Legacy.itemsBelow_upper (items : List Item) :
    itemsBelow o (items.map Item.upper) = (itemsBelow o items).map upper := by
  unfold itemsBelow
  rw [← commaList_upper, ListShape.upper, upper_pad]

theorem Legacy.selection_upper (keyword : Text) (modifiers : Option Text) (items : List Item) :
    selection o (upper keyword) (modifiers.map upper) (items.map Item.upper) =
      (selection o keyword modifiers items).map upper := by
  unfold selection
  cases modifiers with
  | some m => simp only [Option.map_some, headline_upper, itemsBelow_upper, List.map_cons]
  | none =>
    simp only [Option.map_none, ne_eq, List.map_eq_nil_iff, length_upper]
    split
    · rw [← commaList_upper, ListShape.upper, upper_append]
      rfl
    · rw [trimEnd_upper, itemsBelow_upper, List.map_cons]

theorem atColumn_upper (column : Nat) (keyword : Text) :
    pad column ++ upper keyword ++ [' '] = upper (pad column ++ keyword ++ [' ']) := by
  rw [upper_append, upper_append, upper_pad]
  rfl

theorem Legacy.predicate_upper (column : Nat) (keyword : Text) (rest : Nat) (items : List Item) :
    predicate column (upper keyword) rest (items.map Item.upper) = (predicate column keyword rest items).map upper := by
  unfold predicate
  simp only [List.map_eq_nil_iff, length_upper, atColumn_upper, trimEnd_upper]
  split
  · rfl
  · rw [← conditionList_upper]
    rfl

theorem Legacy.table_upper (column : Nat) (keyword : Text) (i : Item) :
    table column (upper keyword) i.upper = (table column keyword i).map upper := by
  unfold table
  rw [length_upper, atColumn_upper, ← Spot.lines_upper]
  rfl

theorem Legacy.join_upper (j : Join) : join o j.upper = (join o j).map upper := by
  unfold join
  simp only [Join.upper, table_upper, List.map_append]
  congr 1
  cases j.on with
  | none => rfl
  | some on => exact predicate_upper _ on _ j.conditions

theorem Legacy.lines_upper (keyword : Text) (b : Body) : lines o (upper keyword) b.upper = (lines o keyword b).map upper := by
  cases b with
  | selection modifiers items => exact selection_upper o keyword modifiers items
  | list items => simp only [Body.upper, lines, trimEnd_upper, itemsBelow_upper, List.map_cons]
  | conditions items => exact predicate_upper 0 keyword o.indentSize items
  | sources s =>
    simp only [Body.upper, Sources.upper, lines, table_upper, List.flatMap_map, join_upper, List.map_append,
      List.map_flatMap]

theorem River.shape_upper (start : Nat) (keyword : Text) : shape start (upper keyword) = (shape start keyword).upper := by
  simp only [shape, ListShape.upper, length_upper, atColumn_upper]

theorem River.orAlone_upper (s : ListShape) (ls : List Text) : orAlone s.upper (ls.map upper) = (orAlone s ls).map upper := by
  simp only [orAlone, List.map_eq_nil_iff, ListShape.upper, trimEnd_upper]
  split <;> rfl

theorem River.selection_upper (keyword : Text) (modifiers : Option Text) (items : List Item) :
    selection o (upper keyword) (modifiers.map upper) (items.map Item.upper) =
      (selection o keyword modifiers items).map upper := by
  unfold selection
  simp only [length_upper]
  cases modifiers with
  | some m =>
    simp only [Option.map_some, headline_upper, List.map_cons, ← commaList_upper, ListShape.upper, upper_pad]
  | none =>
    simp only [Option.map_none]
    rw [← orAlone_upper, ← commaList_upper, ListShape.upper, upper_append, upper_pad]

theorem River.conditions_upper (start : Nat) (keyword : Text) (items : List Item) :
    conditions start (upper keyword) (items.map Item.upper) = (conditions start keyword items).map upper := by
  simp only [conditions, shape_upper, conditionList_upper, orAlone_upper]

theorem River.table_upper (keyword : Text) (i : Item) : table o (upper keyword) i.upper = (table o keyword i).map upper := by
  simp only [table, shape_upper]
  rw [← Spot.lines_upper]
  rfl

theorem River.join_upper (j : Join) : join o j.upper = (join o j).map upper := by
  unfold join
  simp only [Join.upper, table_upper, List.map_append]
  congr 1
  cases j.on with
  | none => rfl
  | some on => exact conditions_upper _ on j.conditions

theorem River.lines_upper (keyword : Text) (b : Body) : lines o (upper keyword) b.upper = (lines o keyword b).map upper := by
  cases b with
  | selection modifiers items => exact selection_upper o keyword modifiers items
  | list items => simp only [Body.upper, lines, list, shape_upper, commaList_upper, orAlone_upper]
  | conditions items => exact conditions_upper o.river keyword items
  | sources s =>
    simp only [Body.upper, Sources.upper, lines, table_upper, List.flatMap_map, join_upper, List.map_append,
      List.map_flatMap]

theorem clauseLines_upper (keyword : Text) (b : Body) :
    clauseLines o (upper keyword) b.upper = (clauseLines o keyword b).map upper := by
  unfold clauseLines
  cases o.style with
  | legacy => exact Legacy.lines_upper o keyword b
  | river => exact River.lines_upper o keyword b
  | indent => exact Indent.lines_upper o keyword b

end Styles

/-! ## SELECT -/

theorem endsInLineComment_upper (l : Text) : endsInLineComment (upper l) = endsInLineComment l := by
  unfold endsInLineComment neighbour
  rw [tokenize_upper_raise, raise, ← List.map_reverse, List.find?_map, Option.any_map]
  simp only [Function.comp_def, Token.isSpace_upper, Token.isLineComment_upper]

theorem attach_upper (inline : Bool) (above below : List Text) :
    attach inline (above.map upper) (below.map upper) = (attach inline above below).map upper := by
  unfold attach
  rw [List.getLast?_map]
  cases above.getLast? with
  | none => simp
  | some last =>
    cases below with
    | nil => simp
    | cons l ls =>
      simp only [Option.map_some, List.map_cons, endsInLineComment_upper, trimStart_upper]
      split
      · simp
      · simp

theorem mapM_map {ε α β : Type} {f : α → Except ε β} {g : α → α} {h : β → β} (hf : ∀ a, f (g a) = (f a).map h)
    (as : List α) : (as.map g).mapM f = (as.mapM f).map (List.map h) := by
  induction as with
  | nil => rfl
  | cons a as ih =>
    rw [List.map_cons, List.mapM_cons, List.mapM_cons, hf, ih]
    cases f a with
    | error e => rfl
    | ok b => cases as.mapM f <;> rfl

def stack (o : Options) (above : List Text) (bodies : List (Clause × Body)) : List Text :=
  bodies.foldl (fun above p => attach (o.inlines p.1.kind) above (clauseLines o p.1.keyword p.2)) above

theorem stack_upper (o : Options) (above : List Text) (bodies : List (Clause × Body)) :
    stack o (above.map upper) (bodies.map (Prod.map Clause.upper Body.upper)) = (stack o above bodies).map upper := by
  induction bodies generalizing above with
  | nil => rfl
  | cons p ps ih =>
    have hp : attach (o.inlines p.1.kind) (above.map upper) (clauseLines o (upper p.1.keyword) p.2.upper) =
        (attach (o.inlines p.1.kind) above (clauseLines o p.1.keyword p.2)).map upper := by
      rw [clauseLines_upper, attach_upper]
    exact (congrArg (stack o · _) hp).trans (ih _)

theorem Select.lines_upper (o : Options) (s : Select) : s.upper.lines o = (s.lines o).map (List.map SqlLayout.upper) := by
  have hsplit : ∀ c : Clause, ((c.upper.split o).map fun b => (c.upper, b)) =
      ((c.split o).map fun b => (c, b)).map (Prod.map Clause.upper Body.upper) := by
    intro c
    rw [Clause.split_upper]
    cases c.split o <;> rfl
  have hlead : (s.lead.map SqlLayout.upper).elim [] trimmedLines = (s.lead.elim [] trimmedLines).map SqlLayout.upper := by
    cases s.lead with
    | none => rfl
    | some l => exact trimmedLines_upper l
  have hbodies := mapM_map (f := fun c => (c.split o).map fun b => (c, b)) hsplit s.clauses
  simp only [Select.lines, Select.upper, hbodies, hlead]
  refine bind_map fun bodies => ?_
  exact congrArg Except.ok (stack_upper o _ bodies)

def casedLines (o : Options) (cased : Text) : Except Fault (List Text) := do
  checkTokens (tokenize cased)
  let s ← Select.ofText cased
  s.lines o

theorem casedLines_upper (o : Options) (cased : Text) :
    casedLines o (upper cased) = (casedLines o cased).map (List.map upper) := by
  unfold casedLines
  rw [tokenize_upper_raise, checkTokens_raise, Select.ofText_upper]
  cases checkTokens (tokenize cased) with
  | error f => rfl
  | ok u => exact bind_map (Select.lines_upper o)

/-- The lines of a SELECT are told by its text in upper case, but for their
letter case. -/
theorem selectLines_upper (o : Options) (sql : Text) :
    (selectLines o (upper sql)).map (List.map upper) = (selectLines o sql).map (List.map upper) := by
  have h : ∀ s, (selectLines o s).map (List.map upper) = casedLines o (upper s) := by
    intro s
    rw [← upper_recase o s, casedLines_upper]
    rfl
  rw [h, h, upper_upper]

/-! ## WITH statements -/

theorem queryLines_upper (o : Options) (sql : Text) :
    (queryLines o (upper sql)).map upper = (queryLines o sql).map upper := by
  have h := selectLines_upper o sql
  have hu : ∀ ls : List Text, (ls.map upper).map upper = ls.map upper := fun ls => by simp [Function.comp_def]
  unfold queryLines
  rw [startsWithSelect_upper, trimmedLines_upper]
  split
  · cases e : selectLines o sql with
    | error f =>
      rw [e] at h
      cases e' : selectLines o (upper sql) with
      | error f' => exact hu _
      | ok ls' => rw [e'] at h; cases h
    | ok ls =>
      rw [e] at h
      cases e' : selectLines o (upper sql) with
      | error f' => rw [e'] at h; cases h
      | ok ls' =>
        rw [e'] at h
        exact Except.ok.inj h
  · exact hu _

theorem indentLine_upper (n : Nat) (l : Text) : indentLine n (upper l) = upper (indentLine n l) := by
  unfold indentLine
  simp only [upper_eq_nil]
  split
  · rfl
  · rw [upper_append, upper_pad]

theorem Definition.lines_upper (o : Options) (front close : Text) (d : Definition) :
    (d.upper.lines o (SqlLayout.upper front) close).map SqlLayout.upper = (d.lines o front close).map SqlLayout.upper := by
  have hc : (d.columns.map SqlLayout.upper).elim [] (' ' :: ·) = SqlLayout.upper (d.columns.elim [] (' ' :: ·)) := by
    cases d.columns <;> rfl
  have hi : ∀ ls : List Text, (ls.map (indentLine o.indentSize)).map SqlLayout.upper =
      (ls.map SqlLayout.upper).map (indentLine o.indentSize) := by
    intro ls
    simp [Function.comp_def, indentLine_upper]
  simp only [Definition.lines, Definition.upper, hc, List.map_cons, List.map_append, hi, queryLines_upper, upper_append,
    upper_cons, upper_upper]

theorem laterDefinitions_upper (o : Options) (ds : List Definition) :
    (laterDefinitions o (ds.map Definition.upper)).map upper = (laterDefinitions o ds).map upper := by
  induction ds with
  | nil => rfl
  | cons d ds ih =>
    have hf : upper (if o.commaPlace = .before then [',', ' '] else []) = if o.commaPlace = .before then [',', ' '] else [] := by
      split <;> rfl
    have h := d.lines_upper o (if o.commaPlace = .before then [',', ' '] else [])
      (if o.commaPlace = .after && ds ≠ [] then [')', ','] else [')'])
    rw [hf] at h
    simp only [List.map_cons, laterDefinitions, ne_eq, List.map_eq_nil_iff, List.map_append, ih]
    exact congrArg (· ++ _) h

theorem definitionLines_upper (o : Options) (front : Text) (ds : List Definition) :
    (definitionLines o (upper front) (ds.map Definition.upper)).map upper = (definitionLines o front ds).map upper := by
  cases ds with
  | nil => rfl
  | cons d ds =>
    simp only [List.map_cons, definitionLines, ne_eq, List.map_eq_nil_iff, List.map_append, laterDefinitions_upper]
    exact congrArg (· ++ _) (d.lines_upper o front _)

theorem With.lines_upper (o : Options) (w : With) :
    (w.upper.lines o).map SqlLayout.upper = (w.lines o).map SqlLayout.upper := by
  have hfront : (if w.semicolon then [';'] else []) ++ SqlLayout.upper w.keyword ++ [' '] =
      SqlLayout.upper ((if w.semicolon then [';'] else []) ++ w.keyword ++ [' ']) := by
    rw [upper_append, upper_append]
    cases w.semicolon <;> rfl
  have hmain : (if startsWithSelect (SqlLayout.upper w.main) then queryLines o (SqlLayout.upper w.main)
        else (splitLines (SqlLayout.upper w.main)).map trimEnd).map SqlLayout.upper =
      (if startsWithSelect w.main then queryLines o w.main else (splitLines w.main).map trimEnd).map SqlLayout.upper := by
    rw [startsWithSelect_upper, splitLines_upper]
    split
    · exact queryLines_upper o w.main
    · simp [Function.comp_def]
  have hhead := definitionLines_upper o ((if w.semicolon then [';'] else []) ++ w.keyword ++ [' ']) w.definitions
  rw [← hfront] at hhead
  simp only [With.lines, With.upper, List.map_append]
  exact congrArg₂ (· ++ ·) hhead hmain

def casedWith (o : Options) (cased : Text) : Except Fault (List Text) := do
  checkTokens (tokenize cased)
  let w ← With.ofText cased
  return w.lines o

theorem casedWith_upper (o : Options) (cased : Text) :
    (casedWith o (upper cased)).map (List.map upper) = (casedWith o cased).map (List.map upper) := by
  unfold casedWith
  rw [tokenize_upper_raise, checkTokens_raise, With.ofText_upper]
  cases checkTokens (tokenize cased) with
  | error f => rfl
  | ok u =>
    cases With.ofText cased with
    | error f => rfl
    | ok w => exact congrArg Except.ok (w.lines_upper o)

theorem withLines_upper (o : Options) (sql : Text) :
    (withLines o (upper sql)).map (List.map upper) = (withLines o sql).map (List.map upper) := by
  have h : ∀ s, (withLines o s).map (List.map upper) = (casedWith o (upper s)).map (List.map upper) := by
    intro s
    rw [← upper_recase o s, casedWith_upper]
    rfl
  rw [h, h, upper_upper]

end SqlLayout
