import SqlLayout.Proofs.Recase
import SqlLayout.Proofs.Upper

/-!
# What recasing changes

The letter case of a word is asked for by its neighbours, which look the same
after a first pass, so two passes are one (`recase_twice`). A pass moves no
token, and a word it changes is one of the vocabularies and no part of a
qualified name (`recase_frame`).
-/

namespace SqlLayout

/-! ## Two passes -/

theorem caseOf_congr {o o' : Options} (hk : o.keywordCase = o'.keywordCase) (hf : o.functionCase = o'.functionCase)
    (ht : o.typeCase = o'.typeCase) (prev next : Option Token) (w : Text) :
    caseOf o prev next w = caseOf o' prev next w := by
  simp only [caseOf, hk, hf, ht]

theorem recaseFrom_congr {o o' : Options} (hk : o.keywordCase = o'.keywordCase) (hf : o.functionCase = o'.functionCase)
    (ht : o.typeCase = o'.typeCase) (seen ts : List Token) : recaseFrom o seen ts = recaseFrom o' seen ts := by
  induction ts generalizing seen with
  | nil => rfl
  | cons t ts ih =>
    have hone : recaseToken o seen t ts = recaseToken o' seen t ts := by
      cases t with
      | word w => simp only [recaseToken, caseOf_congr hk hf ht]
      | _ => rfl
    rw [recaseFrom, recaseFrom, hone, ih]

theorem recase_congr {o o' : Options} (hk : o.keywordCase = o'.keywordCase) (hf : o.functionCase = o'.functionCase)
    (ht : o.typeCase = o'.typeCase) (s : Text) : recase o s = recase o' s := by
  rw [recase, recase, recaseTokens, recaseTokens, recaseFrom_congr hk hf ht]

theorem LetterCase.orElse_of_ne {l : LetterCase} (h : l ≠ .preserve) (m : LetterCase) : l.orElse m = l := by
  cases l with
  | preserve => exact absurd rfl h
  | _ => rfl

/-- A second pass leaves of the first what it does not ask for itself. -/
theorem recase_twice (o₁ o₂ : Options) :
    (∀ o₃ : Options,
      o₃.keywordCase = (if o₂.keywordCase = .preserve then o₁.keywordCase else o₂.keywordCase) →
      o₃.functionCase = (if o₂.functionCase = .preserve then o₁.functionCase else o₂.functionCase) →
      o₃.typeCase = (if o₂.typeCase = .preserve then o₁.typeCase else o₂.typeCase) →
      ∀ s, recase o₂ (recase o₁ s) = recase o₃ s) ∧
    (∀ s, recase o₁ (recase o₁ s) = recase o₁ s) ∧
    (o₂.keywordCase ≠ .preserve → o₂.functionCase ≠ .preserve → o₂.typeCase ≠ .preserve →
      ∀ s, recase o₂ (recase o₁ s) = recase o₂ s) := by
  have chosen : ∀ l m : LetterCase, l.orElse m = if l = .preserve then m else l := by
    intro l m
    cases l <;> rfl
  refine ⟨fun o₃ hk hf ht s => ?_, fun s => recase_recase o₁ s, fun hk hf ht s => ?_⟩
  · rw [recase_recase_casedBy]
    refine recase_congr ?_ ?_ ?_ s
    · rw [hk, ← chosen, Options.casedBy]
    · rw [hf, ← chosen, Options.casedBy]
    · rw [ht, ← chosen, Options.casedBy]
  · rw [recase_recase_casedBy]
    refine recase_congr ?_ ?_ ?_ s
    · exact LetterCase.orElse_of_ne hk _
    · exact LetterCase.orElse_of_ne hf _
    · exact LetterCase.orElse_of_ne ht _

/-- The function keeps its lower case in the second pass, the type its upper
case. -/
theorem recase_twice_mixed :
    recase { functionCase := .preserve, typeCase := .preserve }
        (recase { keywordCase := .lower, functionCase := .lower } "Select Cast(a As Int)".toList) =
      recase { functionCase := .lower } "Select Cast(a As Int)".toList ∧
    recase { functionCase := .lower } "Select Cast(a As Int)".toList = "SELECT cast(a AS INT)".toList ∧
    recase {} (recase { keywordCase := .lower, functionCase := .lower } "Select Cast(a As Int)".toList) =
      recase {} "Select Cast(a As Int)".toList :=
  have h := recase_twice { keywordCase := .lower, functionCase := .lower }
  ⟨(h { functionCase := .preserve, typeCase := .preserve }).1 { functionCase := .lower } rfl rfl rfl _,
    by decide +kernel, (h {}).2.2 (by decide) (by decide) (by decide) _⟩

/-! ## One pass -/

inductive TokenKind where
  | word
  | quotedIdentifier
  | stringLiteral
  | number
  | operator
  | comma
  | semicolon
  | dot
  | openParen
  | closeParen
  | lineComment
  | blockComment
  | whitespace
deriving DecidableEq

def Token.kind : Token → TokenKind
  | word _ => .word
  | quotedIdentifier _ => .quotedIdentifier
  | stringLiteral _ => .stringLiteral
  | number _ => .number
  | operator _ => .operator
  | comma => .comma
  | semicolon => .semicolon
  | dot => .dot
  | openParen => .openParen
  | closeParen => .closeParen
  | lineComment _ => .lineComment
  | blockComment _ => .blockComment
  | whitespace _ => .whitespace

/-- The kind of each token with the bytes at which it starts and ends. -/
def layoutOf (s : Text) : List (TokenKind × Nat × Nat) :=
  (spans 0 (tokenize s)).map fun p => (p.1.kind, p.2)

/-- The token at `i` is part of a qualified name, or the name of a variable or
temporary table, or a word of no vocabulary. -/
def IsOwn (ts : List Token) (i : Nat) (w : Text) : Prop :=
  (0 < i ∧ ts[i - 1]? = some .dot) ∨ ts[i + 1]? = some .dot ∨ w.head? = some '@' ∨ w.head? = some '#' ∨
    (Keyword.ofWord? w = none ∧ isFunctionName w = false ∧ isTypeName w = false)

theorem recaseToken_kind (o : Options) (seen : List Token) (t : Token) (ts : List Token) :
    (recaseToken o seen t ts).kind = t.kind := by
  rcases recaseToken_cases o seen t ts with e | ⟨w, l, rfl, e⟩ <;> rw [e]
  rfl

theorem upper_recaseToken (o : Options) (seen : List Token) (t : Token) (ts : List Token) :
    upper (recaseToken o seen t ts).text = upper t.text := by
  rcases recaseToken_cases o seen t ts with e | ⟨w, l, rfl, e⟩ <;> rw [e]
  exact l.upper_apply w

theorem spans_recaseFrom (o : Options) (seen ts : List Token) (n : Nat) :
    (spans n (recaseFrom o seen ts)).map (fun p => (p.1.kind, p.2)) = (spans n ts).map fun p => (p.1.kind, p.2) := by
  induction ts generalizing seen n with
  | nil => rfl
  | cons t ts ih =>
    have hsize : byteSize (recaseToken o seen t ts).text = byteSize t.text := by
      rw [← byteSize_upper, upper_recaseToken, byteSize_upper]
    simp only [recaseFrom, spans, List.map_cons, hsize, recaseToken_kind, ih]

theorem getElem_recaseFrom (o : Options) (seen ts : List Token) (i : Nat) :
    (recaseFrom o seen ts)[i]? =
      ts[i]?.map fun t => recaseToken o ((ts.take i).reverse ++ seen) t (ts.drop (i + 1)) := by
  induction ts generalizing seen i with
  | nil => rfl
  | cons t ts ih =>
    cases i with
    | zero => rfl
    | succ i =>
      rw [recaseFrom, List.getElem?_cons_succ, ih, List.getElem?_cons_succ, List.take_succ_cons, List.reverse_cons,
        List.append_assoc, List.drop_succ_cons]
      rfl

theorem caseOf_of_own {w : Text} (hk : Keyword.ofWord? w = none) (hf : isFunctionName w = false)
    (ht : isTypeName w = false) (o : Options) (prev next : Option Token) : caseOf o prev next w = .preserve := by
  simp [caseOf, hk, hf, ht]

theorem recaseToken_own {o : Options} {ts : List Token} {i : Nat} {w : Text} (h : IsOwn ts i w) :
    recaseToken o (ts.take i).reverse (.word w) (ts.drop (i + 1)) = .word w := by
  rw [recaseToken]
  split
  · rfl
  next hkeeps =>
  simp only [keepsCase, Bool.or_eq_true, decide_eq_true_eq, not_or, List.head?_reverse, List.head?_drop] at hkeeps
  obtain ⟨⟨hleft, hright⟩, hname⟩ := hkeeps
  have hmark : ∀ c ∈ ['@', '#'], w.head? ≠ some c := by
    rintro c hc hw
    obtain ⟨r, rfl⟩ : ∃ r, w = c :: r := by
      cases w with
      | nil => cases hw
      | cons d r => exact ⟨r, by rw [Option.some.inj hw]⟩
    exact hname (by simpa [Token.isWordFrom] using hc)
  rcases h with ⟨hi, hdot⟩ | hdot | hw | hw | ⟨hk, hf, ht⟩
  · refine absurd ?_ hleft
    rw [List.getLast?_take, if_neg (Nat.ne_of_gt hi), hdot]
    rfl
  · exact absurd hdot hright
  · exact absurd hw (hmark '@' (by simp))
  · exact absurd hw (hmark '#' (by simp))
  · rw [caseOf_of_own hk hf ht]
    rfl

/-- No token is moved by recasing, none but a word is changed, and a word in
its letter case only, if it is of a vocabulary and stands alone. -/
theorem recase_frame (o : Options) (s : Text) :
    layoutOf (recase o s) = layoutOf s ∧
      ∀ i t, (tokenize s)[i]? = some t → ∃ u, (tokenize (recase o s))[i]? = some u ∧
        u.kind = t.kind ∧ upper u.text = upper t.text ∧ (t.kind ≠ .word → u = t) ∧
        (t.kind = .word → IsOwn (tokenize s) i t.text → u = t) := by
  rw [layoutOf, layoutOf, tokenize_recase, recaseTokens]
  refine ⟨spans_recaseFrom o [] _ 0, fun i t ht => ?_⟩
  refine ⟨_, (getElem_recaseFrom o [] _ i).trans (by rw [ht]; rfl), recaseToken_kind .., upper_recaseToken .., ?_, ?_⟩
  · intro hkind
    rcases recaseToken_cases o ((tokenize s).take i).reverse t ((tokenize s).drop (i + 1)) with e | ⟨w, l, rfl, -⟩
    · rwa [List.append_nil]
    · exact absurd rfl hkind
  · intro hkind hown
    cases t with
    | word w => rw [List.append_nil]; exact recaseToken_own hown
    | _ => cases hkind

/-- The column is called like a keyword, and the string holds one. -/
theorem recase_frame_qualified :
    (tokenize "select t.from 'as'".toList)[4]? = some (.word "from".toList) ∧
      (tokenize (recase {} "select t.from 'as'".toList))[4]? = some (.word "from".toList) ∧
      (tokenize (recase {} "select t.from 'as'".toList))[6]? = some (.stringLiteral "'as'".toList) ∧
      recase {} "select t.from 'as'".toList = "SELECT t.from 'as'".toList := by
  have hname : (tokenize "select t.from 'as'".toList)[4]? = some (.word "from".toList) := by decide +kernel
  have hstring : (tokenize "select t.from 'as'".toList)[6]? = some (.stringLiteral "'as'".toList) := by decide +kernel
  obtain ⟨u, hu, -, -, -, hsame⟩ := (recase_frame {} "select t.from 'as'".toList).2 4 _ hname
  obtain ⟨v, hv, -, -, hother, -⟩ := (recase_frame {} "select t.from 'as'".toList).2 6 _ hstring
  rw [hsame rfl (Or.inl ⟨by decide, by decide +kernel⟩)] at hu
  rw [hother (by decide)] at hv
  exact ⟨hname, hu, hv, by decide +kernel⟩

end SqlLayout
