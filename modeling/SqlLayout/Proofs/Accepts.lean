import SqlLayout.Proofs.Readers

/-!
# Which statements a layout accepts

Whether a SELECT is laid out is told by its clauses and the items of its lists
and predicates, and so is how many commas are dropped. The options and the
letter case have no say in it.
-/

namespace SqlLayout

section Results

variable {ε α β : Type}

theorem isOk_map (f : α → β) (x : Except ε α) : (x.map f).isOk = x.isOk := by cases x <;> rfl

theorem isOk_mapM (f : α → Except ε β) (l : List α) : (l.mapM f).isOk = l.all fun a => (f a).isOk := by
  induction l with
  | nil => rfl
  | cons a l ih =>
    rw [List.mapM_cons, List.all_cons, ← ih]
    cases f a with
    | error e => rfl
    | ok b => cases l.mapM f <;> rfl

end Results

/-! ## SELECT -/

def Clause.items (c : Clause) : List Item :=
  match c.kind with
  | .SELECT => listItems (splitModifiers (tokenize c.body)).2
  | .GROUP_BY | .ORDER_BY => listItems (tokenize c.body)
  | .WHERE | .HAVING => conditionItems (tokenize c.body)
  | .FROM => []

def Clause.isFilled (c : Clause) : Bool := c.items.all (·.code ≠ [])

def isSelect (sql : Text) : Bool :=
  (checkTokens (tokenize sql)).isOk &&
    match Select.ofText sql with
    | .ok s => s.clauses.all Clause.isFilled
    | .error _ => false

theorem prepareAll_isOk (n : Nat) (items : List Item) : (prepareAll n items).isOk = items.all (·.code ≠ []) := by
  unfold prepareAll
  split
  · next h => simpa [Except.isOk, Except.toBool] using h
  · next h => simpa [Except.isOk, Except.toBool] using h

theorem Clause.split_isOk (o : Options) (c : Clause) : (c.split o).isOk = c.isFilled := by
  unfold Clause.split Clause.isFilled Clause.items
  cases c.kind with
  | SELECT => exact (isOk_map _ _).trans (prepareAll_isOk _ _)
  | FROM => rfl
  | _ => exact (isOk_map _ _).trans (prepareAll_isOk _ _)

theorem Select.lines_isOk (o : Options) (s : Select) : (s.lines o).isOk = s.clauses.all Clause.isFilled := by
  have h := isOk_mapM (fun c => (c.split o).map fun b => (c, b)) s.clauses
  simp only [isOk_map, Clause.split_isOk] at h
  rw [← h, Select.lines]
  cases s.clauses.mapM fun c => (c.split o).map fun b => (c, b) <;> rfl

theorem selectLines_isOk_recase (o : Options) (sql : Text) : (selectLines o sql).isOk = isSelect (recase o sql) := by
  simp only [selectLines, isSelect]
  cases checkTokens (tokenize (recase o sql)) with
  | error f => rfl
  | ok u =>
    cases Select.ofText (recase o sql) with
    | error f => rfl
    | ok s => exact Select.lines_isOk o s

/-! ## Letter case -/

theorem upper_spell_recaseFrom (o : Options) (seen ts : List Token) :
    upper (spell (recaseFrom o seen ts)) = upper (spell ts) := by
  induction ts generalizing seen with
  | nil => rfl
  | cons t ts ih =>
    have ht : upper (recaseToken o seen t ts).text = upper t.text := by
      rcases recaseToken_cases o seen t ts with e | ⟨w, l, rfl, e⟩ <;> rw [e]
      exact l.upper_apply w
    rw [recaseFrom, spell_cons, spell_cons, upper_append, upper_append, ht, ih]

@[simp] theorem upper_recase (o : Options) (sql : Text) : upper (recase o sql) = upper sql := by
  rw [recase, recaseTokens, upper_spell_recaseFrom, spell_tokenize]

theorem Clause.items_upper (c : Clause) : c.upper.items = c.items.map Item.upper := by
  unfold items listItems conditionItems
  simp only [upper, tokenize_upper_raise, splitModifiers_raise, commaGroups_raise, conditionGroups_raise,
    filterMap_ofTokens?_raise]
  cases c.kind <;> rfl

theorem Clause.isFilled_upper (c : Clause) : c.upper.isFilled = c.isFilled := by
  rw [isFilled, isFilled, items_upper, List.all_map]
  simp [Function.comp_def, Item.upper]

theorem isSelect_upper (sql : Text) : isSelect (upper sql) = isSelect sql := by
  unfold isSelect
  rw [tokenize_upper_raise, checkTokens_raise, Select.ofText_upper]
  cases Select.ofText sql with
  | error f => rfl
  | ok s => simp [Except.map, Select.upper, Function.comp_def, Clause.isFilled_upper]

/-- Neither the options nor the letter case tell whether a SELECT is laid out. -/
theorem selectLines_isOk (o : Options) (sql : Text) : (selectLines o sql).isOk = isSelect sql := by
  rw [selectLines_isOk_recase, ← isSelect_upper, upper_recase, isSelect_upper]

/-! ## Dropped commas -/

/-- How many commas of a SELECT have a blank element beside them and are
dropped. -/
def droppedOf (sql : Text) : Nat :=
  match Select.ofText sql with
  | .ok s => (s.lists.map droppedCommas).sum
  | .error _ => 0

theorem droppedCommas_raise (gs : List (List Token)) : droppedCommas (gs.map raise) = droppedCommas gs := by
  have hf : filled (gs.map raise) = (filled gs).map raise := by
    rw [filled, filled, List.filter_map]
    congr 1
    refine List.filter_congr fun g _ => ?_
    simp [raise, Function.comp_def]
  simp [droppedCommas, hf]

theorem Clause.elements_upper (c : Clause) : c.upper.elements = c.elements.map raise := by
  unfold elements
  simp only [upper, tokenize_upper_raise, splitModifiers_raise, commaGroups_raise]
  cases c.kind <;> rfl

theorem droppedOf_upper (sql : Text) : droppedOf (upper sql) = droppedOf sql := by
  unfold droppedOf
  rw [Select.ofText_upper]
  cases Select.ofText sql with
  | error f => rfl
  | ok s =>
    simp [Except.map, Select.upper, Select.lists, Function.comp_def, Clause.elements_upper, droppedCommas_raise]

theorem sum_droppedCommas_listsOf (o : Options) (sql : Text) :
    ((listsOf o sql).map droppedCommas).sum = droppedOf sql := by
  rw [← droppedOf_upper, ← upper_recase o, droppedOf_upper, droppedOf, listsOf]
  cases Select.ofText (recase o sql) <;> rfl

/-! ## WITH statements -/

theorem startsWithSelect_upper (sql : Text) : startsWithSelect (upper sql) = startsWithSelect sql := by
  unfold startsWithSelect
  rw [tokenize_upper_raise, raise, List.find?_map, Option.any_map]
  simp only [Function.comp_def, Token.isCode_upper, Token.isKeyword_upper]

def queryLoss (sql : Text) : Nat := if startsWithSelect sql && isSelect sql then droppedOf sql else 0

theorem queryLoss_upper (sql : Text) : queryLoss (upper sql) = queryLoss sql := by
  rw [queryLoss, queryLoss, startsWithSelect_upper, isSelect_upper, droppedOf_upper]

/-- What is put behind the text becomes part of a comment. -/
def endsOpen (s : Text) : Bool := (tokenize s).getLast?.any Token.isLineComment

theorem endsOpen_upper (s : Text) : endsOpen (upper s) = endsOpen s := by
  rw [endsOpen, endsOpen, tokenize_upper_raise, raise, List.getLast?_map, Option.any_map]
  simp only [Token.isLineComment_upper]

/-- The tokens that become part of a comment at the end of the column list:
its parenthesis, the AS and the parenthesis of the body. -/
def Definition.swallowed (d : Definition) : Nat :=
  if d.columns.any fun c => endsOpen c.dropLast then (plainsOf d.as).length + 2 else 0

def Definition.loss (d : Definition) : Nat := d.swallowed + queryLoss d.body

def With.loss (w : With) : Nat := (w.definitions.map Definition.loss).sum + queryLoss w.main

theorem length_plainsOf_upper (s : Text) : (plainsOf (upper s)).length = (plainsOf s).length := by
  simp only [plainsOf_eq, solidsOf, solids, tokenize_upper_raise, raise, List.length_map, List.filter_map,
    Function.comp_def, Token.isSpace_upper]

theorem Definition.loss_upper (d : Definition) : d.upper.loss = d.loss := by
  have hc : ∀ c : Text, endsOpen (SqlLayout.upper c).dropLast = endsOpen c.dropLast := fun c => by
    rw [SqlLayout.upper, ← List.map_dropLast]
    exact endsOpen_upper _
  simp only [loss, swallowed, upper, queryLoss_upper, length_plainsOf_upper, Option.any_map, hc]

theorem With.loss_upper (w : With) : w.upper.loss = w.loss := by
  simp [loss, upper, queryLoss_upper, Function.comp_def, Definition.loss_upper]

def withLoss (sql : Text) : Nat :=
  match With.ofText sql with
  | .ok w => w.loss
  | .error _ => 0

theorem withLoss_upper (sql : Text) : withLoss (upper sql) = withLoss sql := by
  unfold withLoss
  rw [With.ofText_upper]
  cases With.ofText sql with
  | error f => rfl
  | ok w => exact w.loss_upper

def isWith (sql : Text) : Bool := (checkTokens (tokenize sql)).isOk && (With.ofText sql).isOk

theorem isWith_upper (sql : Text) : isWith (upper sql) = isWith sql := by
  rw [isWith, isWith, tokenize_upper_raise, checkTokens_raise, With.ofText_upper, isOk_map]

theorem withLines_isOk (o : Options) (sql : Text) : (withLines o sql).isOk = isWith sql := by
  rw [← isWith_upper, ← upper_recase o, isWith_upper]
  simp only [withLines, isWith]
  cases checkTokens (tokenize (recase o sql)) with
  | error f => rfl
  | ok u => cases With.ofText (recase o sql) <;> rfl

end SqlLayout
