import SqlLayout.Item.Split

/-!
# Sources of a FROM clause

The first table and the joins in the order in which they are written. A join
operator outside of all parentheses starts a join.
-/

namespace SqlLayout

structure Join where
  /-- The join operator as written, with one blank between its words. -/
  operator : Text
  table : Item
  on : Option Text
  conditions : List Item
deriving DecidableEq

structure Sources where
  table : Item
  joins : List Join
deriving DecidableEq

/-- The words of the join operator that starts a token list, and what follows
it. At most two modifiers stand before JOIN or APPLY, and APPLY needs one. -/
def joinOperator (modifiers : Nat) : List Token → Option (List Text × List Token)
  | [] => none
  | t :: ts =>
    match t.keyword with
    | some .JOIN => some ([t.text], ts)
    | some .APPLY => if 0 < modifiers then some ([t.text], ts) else none
    | some k =>
      if k.isJoinModifier && modifiers < 2 then
        match ts with
        | .whitespace _ :: us => (joinOperator (modifiers + 1) us).map (Prod.map (t.text :: ·) id)
        | _ => none
      else none
    | none => none

theorem joinOperator_length {m : Nat} {ts : List Token} {ws : List Text} {rest : List Token}
    (h : joinOperator m ts = some (ws, rest)) : rest.length < ts.length := by
  fun_induction joinOperator m ts generalizing ws with
  | case5 m t k _ _ _ _ w us ih =>
    obtain ⟨⟨a, b⟩, e, hab⟩ := Option.map_eq_some_iff.mp h
    cases hab
    have := ih e
    simp only [List.length_cons]; omega
  | _ => simp_all

theorem eq_some_of_ite {α : Type} {p : Prop} [Decidable p] {a : Option α} {x : α}
    (h : (if p then a else none) = some x) : a = some x := by
  split at h
  · exact h
  · cases h

/-- The tokens in front of the first join, and each join operator with the
tokens behind it. -/
def joinSections (n : Nesting) : List Token → List Token × List (Text × List Token)
  | [] => ([], [])
  | t :: ts =>
    match h : if n.depth = 0 then joinOperator 0 (t :: ts) else none with
    | some (ws, rest) =>
      have : rest.length < (t :: ts).length := joinOperator_length (eq_some_of_ite h)
      let (front, later) := joinSections n rest
      ([], ([' '].intercalate ws, front) :: later)
    | none =>
      let (front, later) := joinSections (n.step t) ts
      (t :: front, later)
termination_by ts => ts.length
decreasing_by
  · assumption
  · exact Nat.lt_succ_self _

def splitOn? (n : Nesting) : List Token → Option (List Token × Text × List Token)
  | [] => none
  | t :: ts =>
    if n.topKeyword t = some .ON then some ([], t.text, ts)
    else (splitOn? (n.step t) ts).map (Prod.map (t :: ·) id)

def Join.ofTokens (operator : Text) (ts : List Token) : Join :=
  match splitOn? {} ts with
  | some (table, on, rest) => ⟨operator, .ofTokens table, some on, conditionItems rest⟩
  | none => ⟨operator, .ofTokens ts, none, []⟩

def Sources.ofTokens (ts : List Token) : Sources :=
  let (front, joins) := joinSections {} ts
  ⟨.ofTokens front, joins.map fun j => .ofTokens j.1 j.2⟩

def Join.mapItems (f : Item → Item) (j : Join) : Join :=
  { j with table := f j.table, conditions := j.conditions.map f }

def Sources.mapItems (f : Item → Item) (s : Sources) : Sources :=
  ⟨f s.table, s.joins.map (·.mapItems f)⟩

end SqlLayout
