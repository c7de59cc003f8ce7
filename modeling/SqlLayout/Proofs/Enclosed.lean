import SqlLayout.Proofs.Accepts
import SqlLayout.Proofs.Single

/-!
# Text in parentheses

A balanced list of tokens between parentheses has no keyword outside of them
and leaves the depth as it was. The split of a SELECT passes over it, so two
texts that differ in what a pair of parentheses encloses are split alike
(`select_passes_over_parens`).
-/

namespace SqlLayout

/-! ## Reading on behind a mark -/

theorem tokenize_append_break {a : Text} (ha : Closed a) (he : endsOpen a = false) {c : Char} (hc : isBreak c)
    (hs : isSpaceChar c = false) (s : Text) : tokenize (a ++ c :: s) = tokenize a ++ tokenize (c :: s) := by
  have main : ∀ ts, Lexed ts → (∀ t ∈ ts, t.isUnterminated = false) → ts.getLast?.any Token.isLineComment = false →
      tokenize (spell ts ++ c :: s) = ts ++ tokenize (c :: s) := by
    intro ts hl hu ho
    induction ts with
    | nil => rfl
    | cons t ts ih =>
      obtain ⟨hf, hstop, hl⟩ := hl
      have hd : c.isDigit = false := by
        have := hc
        simp only [isBreak, isWordChar, Bool.and_eq_true, Bool.not_eq_true', Bool.or_eq_false_iff] at this
        exact this.1.2
      have hstop : t.Stops (spell ts ++ c :: s) := by
        cases ts with
        | nil =>
          refine Token.stops_cons hc (hu t (by simp)) (fun _ => hs) (fun hlc => ?_) s
          rw [List.getLast?_singleton, Option.any_some, hlc] at ho
          cases ho
        | cons u us => exact hstop.append (spell_ne_nil (hl.tokenize_spell ▸ legible_tokenize _) (List.cons_ne_nil _ _)) fun _ => by simp [hd]
      have ho : ts.getLast?.any Token.isLineComment = false := by
        cases ts with
        | nil => rfl
        | cons u us => rwa [List.getLast?_cons_cons] at ho
      rw [spell_cons, List.append_assoc, tokenize_text_append hf hstop,
        ih hl (fun u hm => hu u (List.mem_cons_of_mem _ hm)) ho, List.cons_append]
  have := main (tokenize a) (lexed_tokenize a) (closed_iff.mp ha) he
  rwa [spell_tokenize] at this

def inParens (p q x : Text) : Text := p ++ '(' :: (x ++ ')' :: q)

/-- Closed text with balanced parentheses behind which the line can go on. -/
structure Enclosable (x : Text) : Prop where
  closed : Closed x
  ends : endsOpen x = false
  balanced : (Nesting.after (tokenize x)).isBalanced

/-! ## Balanced tokens -/

def IsGroup (g : List Token) : Prop :=
  ∃ ts, (Nesting.after ts).isBalanced ∧ g = .openParen :: (ts ++ [.closeParen])

theorem tokenize_inParens {p x : Text} (hp : Closed p) (he : endsOpen p = false) (hx : Enclosable x) (q : Text) :
    ∃ g, IsGroup g ∧ spell g = '(' :: (x ++ [')']) ∧ tokenize (inParens p q x) = tokenize p ++ (g ++ tokenize q) := by
  refine ⟨.openParen :: (tokenize x ++ [.closeParen]), ⟨_, hx.balanced, rfl⟩, ?_, ?_⟩
  · simp [Token.text, spell_tokenize]
  have hopen : ∀ s, tokenize ('(' :: s) = .openParen :: tokenize s := fun s =>
    tokenize_text_append (t := .openParen) trivial trivial
  have hclose : ∀ s, tokenize (')' :: s) = .closeParen :: tokenize s := fun s =>
    tokenize_text_append (t := .closeParen) trivial trivial
  rw [inParens, tokenize_append_break hp he (by decide) (by decide), hopen,
    tokenize_append_break hx.closed hx.ends (by decide) (by decide), hclose]
  simp

/-- Inside other parentheses the depth is higher throughout. -/
theorem foldl_deeper {m : Nesting} {ts : List Token} (h : (ts.foldl Nesting.step m).stray = false) (k : Nat) (b : Bool) :
    ts.foldl Nesting.step ⟨m.depth + k, b⟩ = ⟨(ts.foldl Nesting.step m).depth + k, b⟩ := by
  induction ts generalizing m with
  | nil => rfl
  | cons t ts ih =>
    rw [List.foldl_cons] at h ⊢
    rw [List.foldl_cons, ← ih h]
    congr 1
    cases t with
    | openParen => simp [Nesting.step, Nat.add_right_comm]
    | closeParen =>
      have hd : m.depth ≠ 0 := by
        intro hd
        have := stray_foldl (n := m.step .closeParen) (by simp [Nesting.step, hd]) ts
        rw [h] at this
        cases this
      simp only [Nesting.step, hd, Nat.add_eq_zero_iff, false_and, if_false, Nesting.mk.injEq, and_true]
      omega
    | _ => rfl

def Covered (n : Nesting) : List Token → Prop
  | [] => True
  | t :: ts => n.topKeyword t = none ∧ Covered (n.step t) ts

theorem Covered.append {n : Nesting} {ts us : List Token} (h : Covered n ts) (h' : Covered (ts.foldl Nesting.step n) us) :
    Covered n (ts ++ us) := by
  induction ts generalizing n with
  | nil => exact h'
  | cons t ts ih => exact ⟨h.1, ih h.2 h'⟩

theorem covered_deeper {m : Nesting} {ts : List Token} (h : (ts.foldl Nesting.step m).stray = false) (k : Nat) (b : Bool) :
    Covered ⟨m.depth + (k + 1), b⟩ ts := by
  induction ts generalizing m with
  | nil => trivial
  | cons t ts ih =>
    refine ⟨by simp [Nesting.topKeyword], ?_⟩
    have hstep : (m.step t).stray = false := by
      by_contra hs
      have := stray_foldl (n := m.step t) (by simpa using hs) ts
      rw [← List.foldl_cons, h] at this
      cases this
    have := foldl_deeper (show ([t].foldl Nesting.step m).stray = false from hstep) (k + 1) b
    rw [List.foldl_cons, List.foldl_nil, List.foldl_cons, List.foldl_nil] at this
    rw [this]
    exact ih h

section
variable {g : List Token} (hg : IsGroup g)
include hg

theorem IsGroup.foldl (n : Nesting) : g.foldl Nesting.step n = n := by
  obtain ⟨ts, hb, rfl⟩ := hg
  obtain ⟨hd, hs⟩ : (Nesting.after ts).depth = 0 ∧ (Nesting.after ts).stray = false := by
    simpa [Nesting.isBalanced] using hb
  have h : ts.foldl Nesting.step ⟨n.depth + 1, n.stray⟩ = ⟨n.depth + 1, n.stray⟩ := by
    simpa [show (ts.foldl Nesting.step {}).depth = 0 from hd] using foldl_deeper (m := {}) hs (n.depth + 1) n.stray
  rw [List.foldl_cons, List.foldl_append]
  change [Token.closeParen].foldl Nesting.step (ts.foldl Nesting.step ⟨n.depth + 1, n.stray⟩) = n
  rw [h]
  rfl

theorem IsGroup.covered (n : Nesting) : Covered n g := by
  obtain ⟨ts, hb, rfl⟩ := hg
  have hs : (Nesting.after ts).stray = false := by
    have : (Nesting.after ts).depth = 0 ∧ (Nesting.after ts).stray = false := by simpa [Nesting.isBalanced] using hb
    exact this.2
  refine ⟨by simp [Nesting.topKeyword, Token.keyword], Covered.append ?_ ⟨by simp [Nesting.topKeyword, Token.keyword], trivial⟩⟩
  have := covered_deeper (m := {}) hs n.depth n.stray
  rwa [Nat.zero_add] at this

end

/-! ## Passing over a group -/

theorem setOperator?_covered {n : Nesting} {ts : List Token} (h : Covered n ts) (us : List Token) :
    setOperator? n (ts ++ us) = setOperator? (ts.foldl Nesting.step n) us := by
  induction ts generalizing n with
  | nil => rfl
  | cons t ts ih => rw [List.cons_append, setOperator?, h.1, List.foldl_cons]; exact ih h.2

theorem sections_covered {n : Nesting} {ts : List Token} (h : Covered n ts) (us : List Token) :
    sections n (ts ++ us) =
      (ts ++ (sections (ts.foldl Nesting.step n) us).1, (sections (ts.foldl Nesting.step n) us).2) := by
  induction ts generalizing n with
  | nil => rfl
  | cons t ts ih => rw [List.cons_append, sections, h.1, ih h.2]; rfl

theorem setOperator?_group (n : Nesting) (ts us : List Token) :
    ∃ k, ∀ g, IsGroup g → setOperator? n (ts ++ (g ++ us)) = k := by
  induction ts generalizing n with
  | nil => exact ⟨setOperator? n us, fun g hg => by rw [List.nil_append, setOperator?_covered (hg.covered n), hg.foldl]⟩
  | cons t ts ih =>
    obtain ⟨k, hk⟩ := ih (n.step t)
    cases h : (n.topKeyword t).filter Keyword.isSetOperator with
    | some k' => exact ⟨some k', fun g hg => by rw [List.cons_append, setOperator?, h]⟩
    | none => exact ⟨k, fun g hg => by rw [List.cons_append, setOperator?, h]; exact hk g hg⟩

/-- Whether a clause opens does not depend on a group further on. -/
theorem opens_group (k : Keyword) (a b : List Token) :
    (∀ g, IsGroup g → opens k (a ++ (g ++ b)) = none) ∨
      ∃ kind more a', ∀ g, IsGroup g → opens k (a ++ (g ++ b)) = some (kind, more, a' ++ (g ++ b)) := by
  have hrest : ∀ g, IsGroup g → (a ++ (g ++ b)).dropWhile Token.isSpace =
      a.dropWhile Token.isSpace ++ (g ++ b) := by
    rintro g ⟨ts, -, rfl⟩
    rw [List.dropWhile_append]
    cases ha : (a.dropWhile Token.isSpace).isEmpty with
    | false => rfl
    | true =>
      rw [List.isEmpty_iff.mp ha]
      rfl
  cases ha : a.dropWhile Token.isSpace with
  | nil =>
    have hopen : ∀ g, IsGroup g → ∃ us, (a ++ (g ++ b)).dropWhile Token.isSpace = .openParen :: us := by
      intro g hg
      rw [hrest g hg, ha]
      obtain ⟨ts, -, rfl⟩ := hg
      exact ⟨_, rfl⟩
    cases k <;> first
      | exact .inr ⟨_, _, a, fun g _ => rfl⟩
      | exact .inl fun g _ => rfl
      | exact .inl fun g hg => by obtain ⟨us, e⟩ := hopen g hg; simp [opens, e, Token.isKeyword, Token.keyword]
  | cons u us =>
    have hby : ∀ g, IsGroup g → (a ++ (g ++ b)).dropWhile Token.isSpace = u :: (us ++ (g ++ b)) := fun g hg => by
      rw [hrest g hg, ha, List.cons_append]
    cases hu : u.isKeyword .BY <;> cases k <;> first
      | exact .inr ⟨_, _, a, fun g _ => rfl⟩
      | exact .inl fun g _ => rfl
      | exact .inl fun g hg => by simp only [opens, hby g hg, hu]; rfl
      | exact .inr ⟨_, _, us, fun g hg => by simp only [opens, hby g hg, hu]; rfl⟩

/-- The sections around a group: it is in front of the first one, or in one of
them. -/
theorem sections_group (n : Nesting) (ts us : List Token) :
    (∃ a b later, ∀ g, IsGroup g → sections n (ts ++ (g ++ us)) = (a ++ (g ++ b), later)) ∨
      ∃ front pre kind keyword a b post, ∀ g, IsGroup g →
        sections n (ts ++ (g ++ us)) = (front, pre ++ ⟨kind, keyword, a ++ (g ++ b)⟩ :: post) := by
  induction ts generalizing n with
  | nil =>
    refine .inl ⟨[], (sections n us).1, (sections n us).2, fun g hg => ?_⟩
    rw [List.nil_append, sections_covered (hg.covered n), hg.foldl]
    rfl
  | cons t ts ih =>
    rcases ih (n.step t) with ⟨a, b, later, ih⟩ | ⟨front, pre, kind, keyword, a, b, post, ih⟩
    · cases hk : n.topKeyword t with
      | none => exact .inl ⟨t :: a, b, later, fun g hg => by rw [List.cons_append, sections, ih g hg, hk]; rfl⟩
      | some k =>
        rcases opens_group k a b with ho | ⟨kind, more, a', ho⟩
        · exact .inl ⟨t :: a, b, later, fun g hg => by
            rw [List.cons_append, sections, ih g hg, hk]
            simp [ho g hg]⟩
        · exact .inr ⟨[], [], kind, t.text ++ more, a', b, later, fun g hg => by
            rw [List.cons_append, sections, ih g hg, hk]
            simp [ho g hg]⟩
    · cases ho : (n.topKeyword t).bind (opens · front) with
      | none => exact .inr ⟨t :: front, pre, kind, keyword, a, b, post, fun g hg => by
          rw [List.cons_append, sections, ih g hg]
          simp only [ho]⟩
      | some p =>
        exact .inr ⟨[], ⟨p.1, t.text ++ p.2.1, p.2.2⟩ :: pre, kind, keyword, a, b, post, fun g hg => by
          rw [List.cons_append, sections, ih g hg]
          simp only [ho]
          rfl⟩

/-! ## Clauses around parentheses -/

theorem trim_inParens (a b x : Text) : trim (inParens a b x) = inParens (trimStart a) (trimEnd b) x := by
  have hstart : ∀ r : Text, trimStart (a ++ '(' :: r) = trimStart a ++ '(' :: r := fun r => by
    rw [trimStart, List.dropWhile_append]
    cases h : (a.dropWhile isBlank).isEmpty with
    | true =>
      rw [trimStart, List.isEmpty_iff.mp h]
      rfl
    | false => rfl
  have hclose : trimEnd (')' :: b) = ')' :: trimEnd b := trimEnd_cons (by decide) b
  have hopen : trimEnd ('(' :: (x ++ ')' :: b)) = '(' :: (x ++ ')' :: trimEnd b) := by
    rw [trimEnd_cons (by decide), trimEnd_append (by rw [hclose]; exact List.cons_ne_nil _ _), hclose]
  rw [inParens, inParens, trim, hstart, trimEnd_append (by rw [hopen]; exact List.cons_ne_nil _ _), hopen]

theorem checkShape_code (kinds : List ClauseKind) :
    ∃ f, ∀ front : List Token, front.any Token.isCode → Select.checkShape front kinds = .error f := by
  cases kinds with
  | nil => exact ⟨_, fun _ _ => rfl⟩
  | cons k ks =>
    by_cases hk : k = .SELECT
    · subst hk
      cases hd : disorder? (.SELECT :: ks) with
      | some p => exact ⟨.outOfOrder p.1 p.2, fun front _ => by simp [Select.checkShape, hd]⟩
      | none => exact ⟨.textBeforeSelect, fun front h => by simp only [Select.checkShape, hd, h]; rfl⟩
    · exact ⟨.beforeSelect k, fun front _ => by simp [Select.checkShape, hk]⟩

/-- A SELECT with balanced text in parentheses is split the same way whatever
that text is. -/
theorem select_passes_over_parens {p : Text} (hp : Closed p) (he : endsOpen p = false) (q : Text) :
    (∃ f, ∀ x, Enclosable x → Select.ofText (inParens p q x) = .error f) ∨
      ∃ lead pre kind keyword a b post, ∀ x, Enclosable x →
        Select.ofText (inParens p q x) = .ok ⟨lead, pre ++ ⟨kind, keyword, inParens a b x⟩ :: post⟩ := by
  obtain ⟨set, hset⟩ := setOperator?_group {} (tokenize p) (tokenize q)
  have hafter : ∀ g, IsGroup g →
      Nesting.after (tokenize p ++ (g ++ tokenize q)) = Nesting.after (tokenize p ++ tokenize q) := fun g hg => by
    simp only [Nesting.after, List.foldl_append, hg.foldl]
  have hfound := sections_group {} (tokenize p) (tokenize q)
  have hread : ∀ x, Enclosable x → ∃ g, IsGroup g ∧ spell g = '(' :: (x ++ [')']) ∧
      tokenize (inParens p q x) = tokenize p ++ (g ++ tokenize q) := fun x hx => tokenize_inParens hp he hx q
  cases set with
  | some k =>
    refine .inl ⟨.shape (.setOperator k), fun x hx => ?_⟩
    obtain ⟨g, hg, -, e⟩ := hread x hx
    simp only [Select.ofText, e, hset g hg]
  | none =>
  cases hb : (Nesting.after (tokenize p ++ tokenize q)).isBalanced with
  | false =>
    refine .inl ⟨.unbalanced, fun x hx => ?_⟩
    obtain ⟨g, hg, -, e⟩ := hread x hx
    simp [Select.ofText, e, hset g hg, hafter g hg, hb]
  | true =>
  rcases hfound with ⟨a, b, later, hfound⟩ | ⟨front, pre, kind, keyword, a, b, post, hfound⟩
  · obtain ⟨f, hf⟩ := checkShape_code (later.map Section.kind)
    refine .inl ⟨.shape f, fun x hx => ?_⟩
    obtain ⟨g, hg, -, e⟩ := hread x hx
    have hcode : (a ++ (g ++ b)).any Token.isCode := by
      obtain ⟨ts, -, rfl⟩ := hg
      simp [Token.isCode, Token.isTrivia, Token.isSpace, Token.isComment]
    simp [Select.ofText, e, hset g hg, hafter g hg, hb, hfound g hg, hf _ hcode]
  · -- the kinds, and with them the verdict, do not depend on the group
    cases hc : Select.checkShape front (pre.map Section.kind ++ kind :: post.map Section.kind) with
    | error f =>
      refine .inl ⟨.shape f, fun x hx => ?_⟩
      obtain ⟨g, hg, -, e⟩ := hread x hx
      simp [Select.ofText, e, hset g hg, hafter g hg, hb, hfound g hg, hc]
    | ok u =>
      refine .inr ⟨nonempty? (trim (spell front)), pre.map Section.clause, kind, keyword, trimStart (spell a),
        trimEnd (spell b), post.map Section.clause, fun x hx => ?_⟩
      obtain ⟨g, hg, eg, e⟩ := hread x hx
      have hbody : trim (spell (a ++ (g ++ b))) = inParens (trimStart (spell a)) (trimEnd (spell b)) x := by
        rw [← trim_inParens, spell_append, spell_append, eg]
        simp [inParens]
      simp only [Select.ofText, e, hset g hg, hafter g hg, hb, hfound g hg, List.map_append, List.map_cons, hc, hbody]
      rfl

/-- The ORDER BY of a window opens no clause, and neither does another text in
its place. -/
theorem select_passes_over_parens_window :
    Closed "select sum(a) over ".toList ∧ endsOpen "select sum(a) over ".toList = false ∧
      Enclosable "order by b".toList ∧ Enclosable "/* from */ (select 1) union".toList ∧
      ∃ lead pre kind keyword a b post,
        Select.ofText (inParens "select sum(a) over ".toList " as s from t".toList "order by b".toList) =
            .ok ⟨lead, pre ++ ⟨kind, keyword, inParens a b "order by b".toList⟩ :: post⟩ ∧
          Select.ofText (inParens "select sum(a) over ".toList " as s from t".toList
              "/* from */ (select 1) union".toList) =
            .ok ⟨lead, pre ++ ⟨kind, keyword, inParens a b "/* from */ (select 1) union".toList⟩ :: post⟩ := by
  have hp : Closed "select sum(a) over ".toList := closed_iff.mpr (by decide +kernel)
  have he : endsOpen "select sum(a) over ".toList = false := by decide +kernel
  have hx : Enclosable "order by b".toList :=
    ⟨closed_iff.mpr (by decide +kernel), by decide +kernel, by decide +kernel⟩
  have hx' : Enclosable "/* from */ (select 1) union".toList :=
    ⟨closed_iff.mpr (by decide +kernel), by decide +kernel, by decide +kernel⟩
  refine ⟨hp, he, hx, hx', ?_⟩
  rcases select_passes_over_parens hp he " as s from t".toList with ⟨f, h⟩ | ⟨lead, pre, kind, keyword, a, b, post, h⟩
  · have hok : (Select.ofText (inParens "select sum(a) over ".toList " as s from t".toList "order by b".toList)).isOk := by
      decide +kernel
    rw [h _ hx] at hok
    cases hok
  · exact ⟨lead, pre, kind, keyword, a, b, post, h _ hx, h _ hx'⟩

end SqlLayout
