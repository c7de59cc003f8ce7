import SqlLayout.Item

/-!
# Modifiers of a SELECT

DISTINCT, ALL and TOP stand in front of the list, each any number of times. A
TOP has a count, which is a number, a variable or an expression in
parentheses, then may have PERCENT and WITH TIES.
-/

namespace SqlLayout

/-- The next token behind space if it satisfies `p`, with the space, and what
follows. -/
def nextIf (p : Token → Bool) (ts : List Token) : Option (List Token × List Token) :=
  match ts.dropWhile Token.isSpace with
  | t :: us => if p t then some (ts.takeWhile Token.isSpace ++ [t], us) else none
  | [] => none

theorem nextIf_eq {p : Token → Bool} {ts a b : List Token} (h : nextIf p ts = some (a, b)) :
    ts = a ++ b := by
  unfold nextIf at h
  split at h
  · next t us e =>
    split at h
    · cases h
      rw [List.append_assoc, List.singleton_append, ← e, List.takeWhile_append_dropWhile]
    · cases h
  · cases h

def optional (take : List Token → Option (List Token × List Token)) (ts : List Token) :
    List Token × List Token :=
  (take ts).getD ([], ts)

def isCount : Token → Bool
  | .number _ => true
  | t => t.isWordFrom ['@']

def takeCount (ts : List Token) : Option (List Token × List Token) :=
  match nextIf isCount ts with
  | some p => some p
  | none => do
    let (a, b) ← nextIf (· = .openParen) ts
    let (inner, rest) ← splitClosing 0 b
    some (a ++ inner ++ [.closeParen], rest)

def takeTies (ts : List Token) : Option (List Token × List Token) := do
  let (a, b) ← nextIf (Token.isKeyword .WITH) ts
  let (c, d) ← nextIf (Token.isKeyword .TIES) b
  some (a ++ c, d)

def takeTop (ts : List Token) : Option (List Token × List Token) :=
  (takeCount ts).map fun count =>
    let percent := optional (nextIf (Token.isKeyword .PERCENT)) count.2
    let ties := optional takeTies percent.2
    (count.1 ++ percent.1 ++ ties.1, ties.2)

/-- One modifier without comments, and what follows it. -/
def takeModifier (ts : List Token) : Option (List Token × List Token) :=
  match ts.dropWhile Token.isSpace with
  | [] => none
  | t :: us =>
    let found :=
      match t.keyword with
      | some .DISTINCT | some .ALL => some ([t], us)
      | some .TOP => (takeTop us).map (Prod.map (t :: ·) id)
      | _ => none
    found.filter fun p => !p.1.any Token.isComment

/-! ## Nothing is lost -/

theorem optional_eq (take : List Token → Option (List Token × List Token)) (ts : List Token)
    (h : ∀ a b, take ts = some (a, b) → ts = a ++ b) :
    ts = (optional take ts).1 ++ (optional take ts).2 := by
  unfold optional
  cases e : take ts with
  | none => rfl
  | some p => exact h p.1 p.2 e

theorem takeCount_eq {ts a b : List Token} (h : takeCount ts = some (a, b)) : ts = a ++ b := by
  unfold takeCount at h
  split at h
  · next p e => cases h; exact nextIf_eq e
  · obtain ⟨⟨a₁, b₁⟩, e₁, h⟩ := Option.bind_eq_some_iff.mp h
    obtain ⟨⟨inner, rest⟩, e₂, h⟩ := Option.bind_eq_some_iff.mp h
    cases h
    rw [nextIf_eq e₁, splitClosing_eq e₂]; simp

theorem takeTies_eq {ts a b : List Token} (h : takeTies ts = some (a, b)) : ts = a ++ b := by
  obtain ⟨⟨a₁, b₁⟩, e₁, h⟩ := Option.bind_eq_some_iff.mp h
  obtain ⟨⟨c, d⟩, e₂, h⟩ := Option.bind_eq_some_iff.mp h
  cases h
  rw [nextIf_eq e₁, nextIf_eq e₂]; simp

theorem takeTop_eq {ts a b : List Token} (h : takeTop ts = some (a, b)) : ts = a ++ b := by
  obtain ⟨⟨count, rest⟩, e, h⟩ := Option.map_eq_some_iff.mp h
  obtain ⟨rfl, rfl⟩ := Prod.mk.inj h
  have h₁ := optional_eq (nextIf (Token.isKeyword .PERCENT)) rest fun _ _ => nextIf_eq
  have h₂ := optional_eq takeTies (optional (nextIf (Token.isKeyword .PERCENT)) rest).2
    fun _ _ => takeTies_eq
  rw [takeCount_eq e, List.append_assoc, List.append_assoc, ← h₂, ← h₁]

theorem takeModifier_eq {ts a b : List Token} (h : takeModifier ts = some (a, b)) :
    ts.dropWhile Token.isSpace = a ++ b ∧ a ≠ [] := by
  unfold takeModifier at h
  split at h
  · cases h
  · next t us e =>
    have h := (Option.filter_eq_some_iff.mp h).1
    rw [e]
    split at h
    · cases h; simp
    · cases h; simp
    · obtain ⟨⟨c, d⟩, e₂, h⟩ := Option.map_eq_some_iff.mp h
      cases h; simp [takeTop_eq e₂]
    · cases h

theorem takeModifier_length {ts a b : List Token} (h : takeModifier ts = some (a, b)) :
    b.length < ts.length := by
  obtain ⟨e, ha⟩ := takeModifier_eq h
  have h₁ := congrArg List.length e
  have h₂ := (List.dropWhile_suffix (l := ts) Token.isSpace).length_le
  have h₃ := List.length_pos_iff.mpr ha
  simp only [List.length_append] at h₁
  omega

/-! ## All modifiers -/

def takeModifiers (ts : List Token) : List Text × List Token :=
  match h : takeModifier ts with
  | some (a, b) =>
    have : b.length < ts.length := takeModifier_length h
    (takeModifiers b).map (collapse a :: ·) id
  | none => ([], ts)
termination_by ts.length

def splitModifiers (ts : List Token) : Option Text × List Token :=
  let (ms, rest) := takeModifiers ts
  (if ms = [] then none else some ([' '].intercalate ms), rest)

end SqlLayout
