import SqlLayout.Proofs.Select
import SqlLayout.Proofs.Checked.Clauses
import SqlLayout.Proofs.Checked.Expressions
import SqlLayout.Proofs.Checked.Layouts
import SqlLayout.Proofs.Checked.Modifiers
import SqlLayout.Proofs.Checked.Sources

/-!
# A SELECT from end to end

Each clause is split, its items are put on one line each, broken again and
lined up, and its lines are attached to those above.
-/

namespace SqlLayout.Checked

/-! ## Bodies -/

def prepareItem (indent : Nat) (i : Item) : Run Item := do return { i with code := ← normalizeText indent i.code }

def prepareEach (indent : Nat) : List Item → Run (Except Fault (List Item))
  | [] => .ok (.ok [])
  | i :: is =>
    if i.code = [] then .ok (.error (.shape .emptyItem))
    else do
      let i ← prepareItem indent i
      return (← prepareEach indent is).map (i :: ·)

def prepareJoin (indent : Nat) (j : Join) : Run Join := do
  return { j with table := ← prepareItem indent j.table, conditions := ← j.conditions.mapM (prepareItem indent) }

def prepareSources (indent : Nat) (s : Sources) : Run Sources := do
  return ⟨← prepareItem indent s.table, ← s.joins.mapM (prepareJoin indent)⟩

def reflowItem (indent : Nat) (i : Item) : Run Item := do
  return { i with code := (← reflowCode indent i.code).getD i.code }

def splitSelection (o : Options) (body : Text) : Run (Except Fault Body) := do
  let (modifiers, list) ← splitModifier body
  match ← prepareEach o.indentSize (← splitItems .comma list) with
  | .error f => return .error f
  | .ok items => do
    let items ← items.mapM (reflowItem o.indentSize)
    let items ← if o.alignAliases && o.style ≠ .indent then padAliases items else .ok items
    return .ok (.selection modifiers items)

def splitClause (o : Options) (c : Clause) : Run (Except Fault Body) :=
  match c.kind with
  | .SELECT => splitSelection o c.body
  | .GROUP_BY | .ORDER_BY => do
    return (← prepareEach o.indentSize (← splitItems .comma c.body)).map .list
  | .WHERE | .HAVING => do
    return (← prepareEach o.indentSize (← splitItems .boolean c.body)).map .conditions
  | .FROM => do return .ok (.sources (← prepareSources o.indentSize (← splitFrom c.body)))

theorem prepareItem_eq (indent : Nat) (i : Item) : prepareItem indent i = .ok (i.prepare indent) := by
  rw [prepareItem, normalizeText_eq]; rfl

theorem prepareEach_eq (indent : Nat) (items : List Item) : prepareEach indent items = .ok (prepareAll indent items) := by
  induction items with
  | nil => rfl
  | cons i is ih =>
    rw [prepareEach, prepareItem_eq, ok_bind, ih, ok_bind, prepareAll, prepareAll, List.any_cons]
    by_cases hi : i.code = []
    · simp [hi]
    · simp only [hi, if_false, decide_false, Bool.false_or]
      split <;> rfl

theorem prepareJoin_eq (indent : Nat) (j : Join) : prepareJoin indent j = .ok (j.mapItems (Item.prepare indent)) := by
  rw [prepareJoin, prepareItem_eq, ok_bind, mapM_eq_ok fun i _ => prepareItem_eq indent i]; rfl

theorem prepareSources_eq (indent : Nat) (s : Sources) :
    prepareSources indent s = .ok (s.mapItems (Item.prepare indent)) := by
  rw [prepareSources, prepareItem_eq, ok_bind, mapM_eq_ok fun j _ => prepareJoin_eq indent j]; rfl

theorem trimEnd_normalize {indent : Nat} {code : Text} (h : '\n' ∉ normalize indent code) :
    trimEnd (normalize indent code) = normalize indent code := by
  unfold normalize at h ⊢
  split
  · next hc =>
    rw [if_pos hc] at h
    unfold hang at h ⊢
    cases hls : trimmedLines code with
    | nil => rfl
    | cons l ls =>
      rw [hls] at h
      cases ls with
      | nil =>
        have hl : l ∈ trimmedLines code := by simp [hls]
        obtain ⟨m, -, rfl⟩ := List.mem_map.mp (List.mem_of_mem_filter hl)
        change trimEnd (joinLines [trim m]) = joinLines [trim m]
        rw [joinLines_singleton]
        exact trimEnd_trimEnd (trimStart m)
      | cons m ms => exact absurd h (by simp)
  · exact trimEnd_trimEnd _

theorem reflowItem_eq (indent : Nat) {i : Item} (h : '\n' ∉ i.code → trimEnd i.code = i.code) :
    reflowItem indent i = .ok (i.reflow indent) := by rw [reflowItem, reflowCode_eq indent h]; rfl

theorem splitSelection_eq (o : Options) (body : Text) :
    splitSelection o body = .ok (selectionBody o (tokenize body)) := by
  obtain ⟨front, hfront, -⟩ := walk_modifiers (a := []) rfl (lexed_tokenize body) {}
  have hlist : Lexed (splitModifiers (tokenize body)).2 := by
    have h := lexed_tokenize body
    rw [hfront] at h
    exact h.of_append.2
  rw [splitSelection, splitModifier_eq, ok_bind, selectionBody]
  simp only [Prod.map, id_eq, splitItems_comma, hlist.tokenize_spell, ok_bind, prepareEach_eq]
  cases hp : prepareAll o.indentSize (listItems (splitModifiers (tokenize body)).2) with
  | error f => rfl
  | ok items =>
    have hreflow : items.mapM (reflowItem o.indentSize) = .ok (items.map (Item.reflow o.indentSize)) := by
      rw [prepareAll_eq hp, List.map_map]
      exact mapM_map_eq_ok fun i _ => reflowItem_eq o.indentSize trimEnd_normalize
    simp only [hreflow, ok_bind, padAliases_eq, Except.map]
    split <;> rfl

theorem splitClause_eq (o : Options) (c : Clause) : splitClause o c = .ok (c.split o) := by
  unfold splitClause Clause.split
  cases c.kind with
  | SELECT => exact splitSelection_eq o c.body
  | FROM => simp only [splitFrom_eq, prepareSources_eq, ok_bind, pure_eq_ok]
  | WHERE | HAVING => simp only [splitItems_boolean, prepareEach_eq, ok_bind, pure_eq_ok]
  | GROUP_BY | ORDER_BY => simp only [splitItems_comma, prepareEach_eq, ok_bind, pure_eq_ok]

/-! ## Lines -/

def endsWithLineComment (l : Text) : Run Bool := do
  return (neighbour (← lex l).reverse).any Token.isLineComment

def attachLines (inline : Bool) (above below : List Text) : Run (List Text) :=
  match above.getLast?, below with
  | some last, l :: ls => do
    if inline && !(← endsWithLineComment last) then return above.dropLast ++ (last ++ ' ' :: trimStart l) :: ls
    else return above ++ below
  | _, _ => .ok (above ++ below)

def clausesLines (o : Options) (above : List Text) : List Clause → Run (Except Fault (List Text))
  | [] => .ok (.ok above)
  | c :: cs => do
    match ← splitClause o c with
    | .error f => return .error f
    | .ok b => do clausesLines o (← attachLines (o.inlines c.kind) above (← styleLines o c.keyword b)) cs

def formatSelect (o : Options) (sql : Text) : Run (Except Fault (List Text)) := do
  let cased ← recaseText o sql
  match ← checkText cased with
  | .error f => return .error f
  | .ok () =>
    match ← extract cased with
    | .error f => return .error f
    | .ok s => clausesLines o (s.lead.elim [] trimmedLines) s.clauses

theorem attachLines_eq (inline : Bool) (above below : List Text) :
    attachLines inline above below = .ok (attach inline above below) := by
  unfold attachLines attach
  cases above.getLast? with
  | none => rfl
  | some last =>
    cases below with
    | nil => rfl
    | cons l ls =>
      have hends : endsWithLineComment last = .ok (endsInLineComment last) := by rw [endsWithLineComment, lex_eq]; rfl
      simp only [hends, ok_bind, pure_eq_ok]
      cases inline && !endsInLineComment last <;> rfl

theorem byteSize_keyword {t : Token} {k : Keyword} (h : t.keyword = some k) : byteSize t.text = t.text.length := by
  cases t with
  | word w =>
    have hall : ∀ p ∈ Keyword.table, byteSize p.1 = p.1.length := by decide +kernel
    obtain ⟨l₁, l₂, e, -⟩ := List.lookup_eq_some_iff.mp h
    have := hall (upper w, k) (by rw [e]; simp)
    rwa [byteSize_upper, upper, List.length_map] at this
  | _ => cases h

theorem opens_select {k : Keyword} {ts us : List Token} {more : Text} (h : opens k ts = some (.SELECT, more, us)) :
    more = [] := by
  cases k with
  | SELECT => cases h; rfl
  | GROUP | ORDER =>
    simp only [opens] at h
    split at h
    · split at h <;> cases h
    · cases h
  | _ => cases h

theorem sections_width (n : Nesting) (ts : List Token) :
    ∀ s ∈ (sections n ts).2, s.kind = .SELECT → byteSize s.keyword = s.keyword.length := by
  induction ts generalizing n with
  | nil => nofun
  | cons t ts ih =>
    rw [sections]
    cases hopen : (n.topKeyword t).bind (opens · (sections (n.step t) ts).1) with
    | none => simpa [hopen] using ih (n.step t)
    | some p =>
      obtain ⟨kind, more, tokens⟩ := p
      simp only [hopen]
      refine List.forall_mem_cons.mpr ⟨fun hk => ?_, ih (n.step t)⟩
      obtain rfl : kind = .SELECT := hk
      obtain ⟨k, htop, hopen⟩ := Option.bind_eq_some_iff.mp hopen
      rw [opens_select hopen, List.append_nil]
      exact byteSize_keyword (keyword_of_topKeyword htop)

theorem ofText_width {sql : Text} {s : Select} (h : Select.ofText sql = .ok s) :
    ∀ c ∈ s.clauses, c.kind = .SELECT → byteSize c.keyword = c.keyword.length := by
  unfold Select.ofText at h
  simp only at h
  split at h
  · cases h
  split at h
  · cases h
  split at h
  · cases h
  · cases h
    intro c hc
    obtain ⟨f, hf, rfl⟩ := List.mem_map.mp hc
    exact sections_width {} _ f hf

theorem split_selection {o : Options} {c : Clause} {modifiers : Option Text} {items : List Item}
    (h : c.split o = .ok (.selection modifiers items)) : c.kind = .SELECT := by
  unfold Clause.split at h
  cases hk : c.kind with
  | SELECT => rfl
  | FROM => rw [hk] at h; cases h
  | WHERE | HAVING | GROUP_BY | ORDER_BY =>
    rw [hk] at h
    obtain ⟨_, -, h⟩ := map_eq_ok h
    cases h

theorem clausesLines_eq (o : Options) (above : List Text) {cs : List Clause}
    (h : ∀ c ∈ cs, c.kind = .SELECT → byteSize c.keyword = c.keyword.length) :
    clausesLines o above cs = .ok ((cs.mapM fun c : Clause => (c.split o).map fun b => (c, b)).map fun bodies =>
      bodies.foldl (fun above p => attach (o.inlines p.1.kind) above (clauseLines o p.1.keyword p.2)) above) := by
  induction cs generalizing above with
  | nil => rfl
  | cons c cs ih =>
    obtain ⟨hc, h⟩ := List.forall_mem_cons.mp h
    rw [clausesLines, splitClause_eq, ok_bind, List.mapM_cons]
    cases hs : c.split o with
    | error f => rfl
    | ok b =>
      have hwidth : ∀ modifiers items, b = .selection modifiers items → byteSize c.keyword = c.keyword.length := by
        rintro modifiers items rfl
        exact hc (split_selection hs)
      simp only [styleLines_eq o hwidth, attachLines_eq, ok_bind, ih _ h]
      cases cs.mapM fun c : Clause => (c.split o).map fun b => (c, b) <;> rfl

theorem formatSelect_eq (o : Options) (sql : Text) : formatSelect o sql = .ok (selectLines o sql) := by
  rw [formatSelect, recaseText_eq, ok_bind, checkText_eq, ok_bind, selectLines]
  cases checkTokens (tokenize (recase o sql)) with
  | error f => rfl
  | ok _ =>
    simp only [extract_eq, ok_bind]
    cases hs : Select.ofText (recase o sql) with
    | error f => rfl
    | ok s =>
      simp only [clausesLines_eq o _ (ofText_width hs)]
      change _ = Except.ok (s.lines o)
      rw [Select.lines]
      cases s.clauses.mapM fun c => (c.split o).map fun b => (c, b) <;> rfl

end SqlLayout.Checked
