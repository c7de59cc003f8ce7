import SqlLayout.Clause
import SqlLayout.Proofs.Relex

/-!
# Places outside of all parentheses

What a keyword does depends on whether it stands outside of all parentheses.
Here such places are told by their index in a list of tokens other than space,
without regard to how a list is read. Parentheses are balanced when they spell
a Dyck word (`isBalanced_iff`).
-/

namespace SqlLayout

/-! ## Depth -/

namespace Nesting

theorem step_of_isSpace {t : Token} (h : t.isSpace) (n : Nesting) : n.step t = n := by
  obtain ⟨w, rfl⟩ := Token.eq_whitespace h
  rfl

theorem topKeyword_of_isSpace {t : Token} (h : t.isSpace) (n : Nesting) : n.topKeyword t = none := by
  obtain ⟨w, rfl⟩ := Token.eq_whitespace h
  simp [topKeyword, Token.keyword]

theorem step_of_keyword {t : Token} {k : Keyword} (h : t.keyword = some k) (n : Nesting) : n.step t = n := by
  cases t with
  | word w => rfl
  | _ => cases h

theorem topKeyword_eq_some {n : Nesting} {t : Token} {k : Keyword} :
    n.topKeyword t = some k ↔ n.depth = 0 ∧ t.keyword = some k := by
  unfold topKeyword
  split <;> simp_all

theorem foldl_solids (n : Nesting) (ts : List Token) : (solids ts).foldl step n = ts.foldl step n :=
  SqlLayout.foldl_solids (fun n _ h => step_of_isSpace h n) ts n

/-- The nesting behind a text is told by its tokens other than space. -/
theorem after_congr {s s' : Text} (h : solidsOf s = solidsOf s') : after (tokenize s) = after (tokenize s') := by
  rw [after, after, ← foldl_solids, ← solidsOf, h, solidsOf, foldl_solids]

/-- A stray parenthesis has no effect on the depth. -/
theorem depth_step {n m : Nesting} (h : n.depth = m.depth) (t : Token) : (n.step t).depth = (m.step t).depth := by
  cases t with
  | openParen => simp [step, h]
  | closeParen => simp only [step, h]; split <;> simp_all
  | _ => exact h

theorem topKeyword_congr {n m : Nesting} (h : n.depth = m.depth) (t : Token) : n.topKeyword t = m.topKeyword t := by
  rw [topKeyword, topKeyword, h]

end Nesting

/-! ## Balanced parentheses -/

def parens (ts : List Token) : List DyckStep :=
  ts.filterMap fun
    | .openParen => some .U
    | .closeParen => some .D
    | _ => none

/-- The steps end `d` open parentheses and close no other that is not open. -/
def ClosesAll : Nat → List DyckStep → Prop
  | d, [] => d = 0
  | d, .U :: l => ClosesAll (d + 1) l
  | 0, .D :: _ => False
  | d + 1, .D :: l => ClosesAll d l

theorem stray_foldl {n : Nesting} (h : n.stray) (ts : List Token) : (ts.foldl Nesting.step n).stray := by
  induction ts generalizing n with
  | nil => exact h
  | cons t ts ih =>
    refine ih ?_
    cases t with
    | closeParen => simp only [Nesting.step]; split <;> simp [h]
    | _ => exact h

theorem isBalanced_foldl {n : Nesting} (hn : n.stray = false) (ts : List Token) :
    (ts.foldl Nesting.step n).isBalanced ↔ ClosesAll n.depth (parens ts) := by
  induction ts generalizing n with
  | nil => rw [List.foldl_nil, Nesting.isBalanced, hn]; exact (Bool.and_true _) ▸ decide_eq_true_iff
  | cons t ts ih =>
    rw [List.foldl_cons]
    cases t with
    | openParen => exact ih hn
    | closeParen =>
      have e : parens (.closeParen :: ts) = .D :: parens ts := rfl
      obtain ⟨d, s⟩ := n
      cases d with
      | zero => simp [e, ClosesAll, Nesting.isBalanced, Nesting.step, stray_foldl]
      | succ d => exact ih hn
    | _ => exact ih hn

theorem closesAll_iff (d : Nat) (l : List DyckStep) :
    ClosesAll d l ↔ d + l.count .U = l.count .D ∧ ∀ i, (l.take i).count .D ≤ d + (l.take i).count .U := by
  induction l generalizing d with
  | nil => simp [ClosesAll]
  | cons s l ih =>
    have shift : (∀ i, ((s :: l).take i).count .D ≤ d + ((s :: l).take i).count .U) ↔
        ∀ i, (s :: l.take i).count .D ≤ d + (s :: l.take i).count .U := by
      refine ⟨fun h i => by simpa using h (i + 1), fun h i => ?_⟩
      cases i with
      | zero => simp
      | succ i => simpa using h i
    rw [shift]
    cases s with
    | U => simp [ClosesAll, ih, Nat.add_assoc, Nat.add_comm 1]
    | D =>
      cases d with
      | zero => simpa [ClosesAll] using fun _ => ⟨0, by simp⟩
      | succ d => simp [ClosesAll, ih, Nat.add_right_comm d 1]

theorem isBalanced_iff (ts : List Token) : (Nesting.after ts).isBalanced ↔ ∃ w : DyckWord, w.toList = parens ts := by
  rw [Nesting.after, isBalanced_foldl rfl, closesAll_iff]
  constructor
  · rintro ⟨h, hi⟩
    exact ⟨⟨parens ts, by simpa using h, by simpa using hi⟩, rfl⟩
  · rintro ⟨w, e⟩
    rw [← e]
    exact ⟨by simpa using w.count_U_eq_count_D, by simpa using w.count_D_le_count_U⟩

/-! ## Places -/

def topAt (n : Nesting) (us : List Token) (i : Nat) : Option Keyword :=
  us[i]?.bind ((us.take i).foldl Nesting.step n).topKeyword

@[simp] theorem topAt_nil (n : Nesting) (i : Nat) : topAt n [] i = none := rfl

@[simp] theorem topAt_cons_zero (n : Nesting) (t : Token) (us : List Token) :
    topAt n (t :: us) 0 = n.topKeyword t := rfl

@[simp] theorem topAt_cons_succ (n : Nesting) (t : Token) (us : List Token) (i : Nat) :
    topAt n (t :: us) (i + 1) = topAt (n.step t) us i := rfl

end SqlLayout
