import SqlLayout.Proofs.Select
import SqlLayout.Proofs.Toplevel
import SqlLayout.Proofs.Unclosed

/-!
# Single SELECTs

A text is split into clauses exactly if it is one SELECT without set operators
whose parentheses are balanced and whose clause keywords stand in their order,
with nothing but comments in front (`select_splits_single`). The split keeps
all tokens and leaves no clause keyword inside a clause. Bodies are trimmed,
and trimming knows more blanks than the lexer: cut off a word, they can lay
bare a keyword that the text does not have (`select_bares_keyword`).
-/

namespace SqlLayout

/-! ## Clause keywords by place -/

/-- The clause that a keyword opens; `by_` says that BY comes next. -/
def Keyword.clause? (by_ : Bool) : Keyword → Option ClauseKind
  | .SELECT => some .SELECT
  | .FROM => some .FROM
  | .WHERE => some .WHERE
  | .HAVING => some .HAVING
  | .GROUP => if by_ then some .GROUP_BY else none
  | .ORDER => if by_ then some .ORDER_BY else none
  | _ => none

def isBy (t : Option Token) : Bool := t.any (Token.isKeyword .BY)

def clauseAt (n : Nesting) (us : List Token) (i : Nat) : Option ClauseKind :=
  (topAt n us i).bind (Keyword.clause? (isBy us[i + 1]?))

def clauseKinds (n : Nesting) (us : List Token) : List ClauseKind :=
  (List.range us.length).filterMap (clauseAt n us)

@[simp] theorem clauseAt_cons_zero (n : Nesting) (t : Token) (us : List Token) :
    clauseAt n (t :: us) 0 = (n.topKeyword t).bind (Keyword.clause? (isBy us.head?)) := by
  cases us <;> rfl

@[simp] theorem clauseAt_cons_succ (n : Nesting) (t : Token) (us : List Token) (i : Nat) :
    clauseAt n (t :: us) (i + 1) = clauseAt (n.step t) us i := rfl

@[simp] theorem clauseKinds_nil (n : Nesting) : clauseKinds n [] = [] := rfl

theorem clauseKinds_cons (n : Nesting) (t : Token) (us : List Token) :
    clauseKinds n (t :: us) = (clauseAt n (t :: us) 0).toList ++ clauseKinds (n.step t) us := by
  rw [clauseKinds, List.length_cons, List.range_succ_eq_map, List.filterMap_cons, List.filterMap_map]
  have e : clauseAt n (t :: us) ∘ Nat.succ = clauseAt (n.step t) us := rfl
  rw [e]
  cases clauseAt n (t :: us) 0 <;> rfl

theorem clauseKinds_congr {n m : Nesting} (h : n.depth = m.depth) (us : List Token) : clauseKinds n us = clauseKinds m us := by
  induction us generalizing n m with
  | nil => rfl
  | cons t us ih =>
    rw [clauseKinds_cons, clauseKinds_cons, clauseAt_cons_zero, clauseAt_cons_zero, Nesting.topKeyword_congr h,
      ih (Nesting.depth_step h t)]

/-! ## What the split finds -/

theorem setOperator?_eq_none {n : Nesting} {ts : List Token} :
    setOperator? n ts = none ↔ ∀ i k, topAt n (solids ts) i = some k → k.isSetOperator = false := by
  induction ts generalizing n with
  | nil => simp [setOperator?]
  | cons t ts ih =>
    rw [setOperator?, solids_cons]
    cases hs : t.isSpace with
    | true => simpa [Nesting.topKeyword_of_isSpace hs, Nesting.step_of_isSpace hs] using ih
    | false =>
      have hplaces : (∀ i k, topAt n (t :: solids ts) i = some k → k.isSetOperator = false) ↔
          (∀ k, n.topKeyword t = some k → k.isSetOperator = false) ∧
            ∀ i k, topAt (n.step t) (solids ts) i = some k → k.isSetOperator = false :=
        ⟨fun h => ⟨h 0, fun i => h (i + 1)⟩, fun h i => by
          cases i with
          | zero => exact h.1
          | succ i => exact h.2 i⟩
      rw [if_neg (by simp), hplaces, ← ih]
      cases n.topKeyword t with
      | none => simp
      | some k => cases hk : k.isSetOperator <;> simp [Option.filter, hk]

theorem head_solids_dropWhile (ts : List Token) : (solids ts).head? = (ts.dropWhile Token.isSpace).head? := by
  rw [← solids_dropWhile_isSpace]
  have h := List.head?_dropWhile_not Token.isSpace ts
  cases e : ts.dropWhile Token.isSpace with
  | nil => rfl
  | cons t us =>
    rw [e] at h
    rw [solids_cons, if_neg (by simpa using h)]
    rfl

theorem opens_kind (k : Keyword) (ts : List Token) :
    (opens k ts).map Prod.fst = k.clause? (isBy (solids ts).head?) := by
  rw [head_solids_dropWhile]
  unfold opens
  cases ts.dropWhile Token.isSpace with
  | nil => cases k <;> rfl
  | cons t us =>
    rw [List.head?_cons, isBy, Option.any_some]
    cases h : t.isKeyword .BY <;> cases k <;> simp [Keyword.clause?, h]

theorem opens_tokens {k : Keyword} {ts tokens : List Token} {kind : ClauseKind} {more : Text}
    (h : opens k ts = some (kind, more, tokens)) :
    tokens = ts ∨ ∃ u, u.isKeyword .BY ∧ ts.dropWhile Token.isSpace = u :: tokens := by
  unfold opens at h
  cases e : ts.dropWhile Token.isSpace with
  | nil =>
    simp only [e] at h
    cases k <;> simp_all
  | cons u us => cases hu : u.isKeyword .BY <;> cases k <;> simp_all

/-- A token opens the same clause in front of the first section as in front of
all that follows. -/
theorem isBy_front (n : Nesting) (ts : List Token) :
    isBy (solids (sections n ts).1).head? = isBy (solids ts).head? := by
  induction ts generalizing n with
  | nil => rfl
  | cons t ts ih =>
    rw [sections]
    simp only
    split
    · next kind more tokens h =>
      obtain ⟨k, hk, ho⟩ := Option.bind_eq_some_iff.mp h
      obtain ⟨-, hk⟩ := Nesting.topKeyword_eq_some.mp hk
      have hs : t.isSpace = false := by cases t <;> first | rfl | cases hk
      have hby : t.isKeyword .BY = false := by
        have := congrArg (Option.map Prod.fst) ho
        rw [opens_kind] at this
        cases k <;> first | (simp [Token.isKeyword, hk]; done) | cases this
      simp [solids_cons, hs, isBy, hby]
    · rw [solids_cons, solids_cons]
      cases hs : t.isSpace with
      | true => exact ih _
      | false => rfl

theorem sections_cons (n : Nesting) (t : Token) (ts : List Token) :
    (t.isSpace ∧ sections n (t :: ts) = (t :: (sections (n.step t) ts).1, (sections (n.step t) ts).2)) ∨
    (t.isSpace = false ∧ clauseAt n (solids (t :: ts)) 0 = none ∧
      sections n (t :: ts) = (t :: (sections (n.step t) ts).1, (sections (n.step t) ts).2)) ∨
    ∃ k kind more tokens, t.isSpace = false ∧ n.depth = 0 ∧ t.keyword = some k ∧
      clauseAt n (solids (t :: ts)) 0 = some kind ∧ opens k (sections (n.step t) ts).1 = some (kind, more, tokens) ∧
      sections n (t :: ts) = ([], ⟨kind, t.text ++ more, tokens⟩ :: (sections (n.step t) ts).2) := by
  have hat : t.isSpace = false → clauseAt n (solids (t :: ts)) 0 =
      ((n.topKeyword t).bind (opens · (sections (n.step t) ts).1)).map Prod.fst := by
    intro hs
    rw [solids_cons, if_neg (by simp [hs]), clauseAt_cons_zero, ← isBy_front (n.step t) ts]
    cases n.topKeyword t with
    | none => rfl
    | some k => exact (opens_kind k _).symm
  cases h : (n.topKeyword t).bind (opens · (sections (n.step t) ts).1) with
  | none =>
    have e : sections n (t :: ts) = (t :: (sections (n.step t) ts).1, (sections (n.step t) ts).2) := by
      rw [sections]; simp only [h]
    cases hs : t.isSpace with
    | true => exact .inl ⟨rfl, e⟩
    | false => exact .inr (.inl ⟨rfl, by rw [hat hs, h]; rfl, e⟩)
  | some p =>
    obtain ⟨kind, more, tokens⟩ := p
    obtain ⟨k, hk, ho⟩ := Option.bind_eq_some_iff.mp h
    obtain ⟨hd, hk⟩ := Nesting.topKeyword_eq_some.mp hk
    have hs : t.isSpace = false := by cases t <;> first | rfl | cases hk
    refine .inr (.inr ⟨k, kind, more, tokens, hs, hd, hk, by rw [hat hs, h]; rfl, ho, ?_⟩)
    rw [sections]; simp only [h]

theorem sections_kinds (n : Nesting) (ts : List Token) :
    (sections n ts).2.map Section.kind = clauseKinds n (solids ts) := by
  induction ts generalizing n with
  | nil => rfl
  | cons t ts ih =>
    rcases sections_cons n t ts with ⟨hs, e⟩ | ⟨hs, ha, e⟩ | ⟨k, kind, more, tokens, hs, -, -, ha, -, e⟩
    · rw [e, solids_cons, if_pos hs, ih, Nesting.step_of_isSpace hs]
    · rw [e, ih]
      rw [solids_cons, if_neg (by simp [hs])] at ha ⊢
      rw [clauseKinds_cons, ha]
      rfl
    · rw [e, List.map_cons, ih]
      rw [solids_cons, if_neg (by simp [hs])] at ha ⊢
      rw [clauseKinds_cons, ha]
      rfl

theorem mem_solids_front (n : Nesting) (ts : List Token) (u : Token) :
    u ∈ solids (sections n ts).1 ↔ ∃ i, (solids ts)[i]? = some u ∧ ∀ j ≤ i, clauseAt n (solids ts) j = none := by
  induction ts generalizing n with
  | nil => simp [sections]
  | cons t ts ih =>
    rcases sections_cons n t ts with ⟨hs, e⟩ | ⟨hs, ha, e⟩ | ⟨k, kind, more, tokens, hs, -, -, ha, -, e⟩
    · rw [e, solids_cons, if_pos hs, solids_cons, if_pos hs, ih, Nesting.step_of_isSpace hs]
    · rw [e]
      rw [solids_cons, if_neg (by simp [hs]), List.mem_cons, ih]
      rw [solids_cons, if_neg (by simp [hs])] at ha ⊢
      constructor
      · rintro (rfl | ⟨i, hi, hj⟩)
        · exact ⟨0, rfl, fun j hj => by rw [Nat.le_zero.mp hj, ha]⟩
        · refine ⟨i + 1, hi, fun j hle => ?_⟩
          cases j with
          | zero => exact ha
          | succ j => exact hj j (Nat.le_of_succ_le_succ hle)
      · rintro ⟨i, hi, hj⟩
        cases i with
        | zero => exact .inl (Option.some.inj hi).symm
        | succ i => exact .inr ⟨i, hi, fun j hle => hj (j + 1) (Nat.succ_le_succ hle)⟩
    · rw [e]
      simp only [solids_nil, List.not_mem_nil, false_iff, not_exists, not_and, not_forall]
      exact fun i _ => ⟨0, Nat.zero_le i, by rw [ha]; simp⟩

/-- No clause starts inside a section. -/
theorem sections_flat (n : Nesting) (ts : List Token) :
    clauseKinds n (solids (sections n ts).1) = [] ∧
      ∀ s ∈ (sections n ts).2, clauseKinds {} (solids s.tokens) = [] := by
  induction ts generalizing n with
  | nil => simp [sections]
  | cons t ts ih =>
    obtain ⟨ihf, ihs⟩ := ih (n.step t)
    rcases sections_cons n t ts with ⟨hs, e⟩ | ⟨hs, ha, e⟩ | ⟨k, kind, more, tokens, hs, hd, hk, -, ho, e⟩
    · rw [e, solids_cons, if_pos hs]
      rw [Nesting.step_of_isSpace hs] at ihf
      exact ⟨by rwa [Nesting.step_of_isSpace hs], ihs⟩
    · rw [e]
      refine ⟨?_, ihs⟩
      rw [solids_cons, if_neg (by simp [hs])] at ha ⊢
      rw [clauseAt_cons_zero, ← isBy_front (n.step t) ts, ← clauseAt_cons_zero] at ha
      rw [clauseKinds_cons, ihf, ha]
      rfl
    · rw [e]
      refine ⟨rfl, fun s hm => ?_⟩
      rcases List.mem_cons.mp hm with rfl | hm
      · -- what is left of the tokens in front, without a BY
        rw [Nesting.step_of_keyword hk] at ihf ho
        rw [clauseKinds_congr (m := n) hd.symm]
        rcases opens_tokens ho with rfl | ⟨u, hu, eu⟩
        · exact ihf
        · have hku : u.keyword = some .BY := by simpa [Token.isKeyword] using hu
          have hsu : u.isSpace = false := by cases u <;> first | rfl | cases hku
          rw [← solids_dropWhile_isSpace, eu, solids_cons, if_neg (by simp [hsu]), clauseKinds_cons] at ihf
          rw [Nesting.step_of_keyword hku] at ihf
          exact (List.append_eq_nil_iff.mp ihf).2
      · exact ihs s hm

/-! ## Which texts are accepted -/

/-- The tokens, space apart, of a single SELECT without set operators. -/
structure SingleSelect (us : List Token) : Prop where
  noSetOperator : ∀ i k, topAt {} us i = some k → k.isSetOperator = false
  balanced : ∃ w : DyckWord, w.toList = parens us
  select : (clauseKinds {} us).head? = some .SELECT
  ordered : (clauseKinds {} us).Pairwise fun k l => k.rank < l.rank
  /-- Nothing but comments up to the first clause. -/
  front : ∀ i u, us[i]? = some u → (∀ j ≤ i, clauseAt {} us j = none) → u.isComment

theorem disorder?_eq_none {ks : List ClauseKind} : disorder? ks = none ↔ ks.Pairwise fun k l => k.rank < l.rank := by
  have chain : disorder? ks = none ↔ ks.IsChain fun k l => k.rank < l.rank := by
    induction ks with
    | nil => simp [disorder?]
    | cons k ks ih =>
      cases ks with
      | nil => simp [disorder?]
      | cons l ks =>
        rw [disorder?, List.isChain_cons_cons, ← ih]
        split
        · next h => simp [Nat.not_lt.mpr h]
        · next h => simp [Nat.lt_of_not_le h]
  have : IsTrans ClauseKind fun k l => k.rank < l.rank := ⟨fun _ _ _ => Nat.lt_trans⟩
  rw [chain, List.isChain_iff_pairwise]

theorem checkShape_isOk (front : List Token) (kinds : List ClauseKind) : (Select.checkShape front kinds).isOk ↔
    kinds.head? = some .SELECT ∧ (kinds.Pairwise fun k l => k.rank < l.rank) ∧ ∀ u ∈ solids front, u.isComment := by
  have hfront : front.any Token.isCode = false ↔ ∀ u ∈ solids front, u.isComment := by
    simp only [List.any_eq_false, mem_solids, Token.isCode, Token.isTrivia]
    exact forall_congr' fun u => by cases u.isSpace <;> simp
  unfold Select.checkShape
  cases kinds with
  | nil => simp [Except.isOk, Except.toBool]
  | cons k ks =>
    rw [← disorder?_eq_none, ← hfront, List.head?_cons]
    by_cases hk : k = .SELECT
    · cases hd : disorder? (k :: ks) with
      | none => cases front.any Token.isCode <;> simp [hk, Except.isOk, Except.toBool]
      | some p => simp [hk, Except.isOk, Except.toBool]
    · simp [hk, Except.isOk, Except.toBool]

theorem isBalanced_after (ts : List Token) :
    (Nesting.after ts).isBalanced ↔ ∃ w : DyckWord, w.toList = parens (solids ts) := by
  rw [← isBalanced_iff, Nesting.after, Nesting.after, Nesting.foldl_solids]

theorem ofText_isOk (sql : Text) : (Select.ofText sql).isOk ↔ SingleSelect (solidsOf sql) := by
  have hset : setOperator? {} (tokenize sql) = none ↔ _ := setOperator?_eq_none
  have hbal := isBalanced_after (tokenize sql)
  have hkinds := sections_kinds {} (tokenize sql)
  have hshape := checkShape_isOk (sections {} (tokenize sql)).1 ((sections {} (tokenize sql)).2.map Section.kind)
  have hfront : (∀ u ∈ solids (sections {} (tokenize sql)).1, u.isComment) ↔
      ∀ i u, (solidsOf sql)[i]? = some u → (∀ j ≤ i, clauseAt {} (solidsOf sql) j = none) → u.isComment := by
    simp only [mem_solids_front]
    exact ⟨fun h i u hi hj => h u ⟨i, hi, hj⟩, fun h u ⟨i, hi, hj⟩ => h i u hi hj⟩
  rw [hkinds, hfront] at hshape
  have hsingle : SingleSelect (solidsOf sql) ↔ setOperator? {} (tokenize sql) = none ∧
      (Nesting.after (tokenize sql)).isBalanced ∧
        (Select.checkShape (sections {} (tokenize sql)).1 ((sections {} (tokenize sql)).2.map Section.kind)).isOk := by
    rw [hset, hbal, hkinds, hshape]
    exact ⟨fun h => ⟨h.noSetOperator, h.balanced, h.select, h.ordered, h.front⟩,
      fun ⟨h₁, h₂, h₃, h₄, h₅⟩ => ⟨h₁, h₂, h₃, h₄, h₅⟩⟩
  rw [hsingle]
  unfold Select.ofText
  simp only
  cases setOperator? {} (tokenize sql) with
  | some k => simp [Except.isOk, Except.toBool]
  | none =>
    cases (Nesting.after (tokenize sql)).isBalanced with
    | false => simp [Except.isOk, Except.toBool]
    | true =>
      cases Select.checkShape (sections {} (tokenize sql)).1 ((sections {} (tokenize sql)).2.map Section.kind) with
      | error f => simp [Except.isOk, Except.toBool]
      | ok u => simp [Except.isOk, Except.toBool]

/-! ## Space at the end of a body

Space at the end of a text is no token of its own behind a literal or a
comment without its end. No keyword depends on that. -/

def Token.isMute : Token → Bool
  | stringLiteral _ | quotedIdentifier _ | lineComment _ | blockComment _ => true
  | _ => false

theorem Token.Formed.extend_mute {t : Token} {c : Char} (hf : t.Formed)
    (h : t.isUnterminated ∨ t.isLineComment ∧ c ≠ '\n') :
    t.isMute ∧ ∃ t' : Token, t'.Formed ∧ t'.text = t.text ++ [c] ∧ t'.isMute := by
  cases t with
  | lineComment w =>
    obtain ⟨b, rfl, hb⟩ := hf
    have hc : c ≠ '\n' := (h.resolve_left (by simp [isUnterminated])).2
    exact ⟨rfl, .lineComment ('-' :: '-' :: (b ++ [c])), ⟨_, rfl, by simp_all⟩, rfl, rfl⟩
  | blockComment w =>
    obtain ⟨b, rfl, hb⟩ := hf
    have hu := (isUnterminated_blockComment b).mp (h.resolve_right (by simp [isLineComment]))
    exact ⟨rfl, .blockComment ('/' :: '*' :: (b ++ [c])), ⟨_, rfl, takeComment_concat hb hu c⟩, rfl, rfl⟩
  | stringLiteral w =>
    obtain ⟨b, rfl, hb⟩ := hf
    have hu : closesAtEnd '\'' b = false := by simpa [isUnterminated, isEnclosed, isLineComment] using h
    exact ⟨rfl, .stringLiteral ('\'' :: (b ++ [c])), ⟨_, rfl, takeQuoted_concat hb hu c⟩, rfl, rfl⟩
  | quotedIdentifier w =>
    obtain ⟨b, ⟨rfl, hb⟩ | ⟨rfl, hb⟩⟩ := hf
    · have hu : closesAtEnd '"' b = false := by simpa [isUnterminated, isEnclosed, isLineComment] using h
      exact ⟨rfl, .quotedIdentifier ('"' :: (b ++ [c])), ⟨_, .inl ⟨rfl, takeQuoted_concat hb hu c⟩⟩, rfl, rfl⟩
    · have hu : closesAtEnd ']' b = false := by simpa [isUnterminated, isEnclosed, isLineComment] using h
      exact ⟨rfl, .quotedIdentifier ('[' :: (b ++ [c])), ⟨_, .inr ⟨rfl, takeQuoted_concat hb hu c⟩⟩, rfl, rfl⟩
  | _ => simp [isUnterminated, isLineComment] at h

theorem clauseKinds_concat_mute {t : Token} (ht : t.isMute) (n : Nesting) (us : List Token) :
    clauseKinds n (us ++ [t]) = clauseKinds n us := by
  have hk : t.keyword = none := by cases t <;> first | rfl | cases ht
  induction us generalizing n with
  | nil => rw [List.nil_append, clauseKinds_cons, clauseAt_cons_zero]; simp [Nesting.topKeyword, hk]
  | cons u us ih =>
    have hby : isBy (us ++ [t]).head? = isBy us.head? := by
      cases us with
      | nil => simp [isBy, Token.isKeyword, hk]
      | cons v us => rfl
    rw [List.cons_append, clauseKinds_cons, clauseKinds_cons, ih, clauseAt_cons_zero, clauseAt_cons_zero, hby]

theorem clauseKinds_concat_space {c : Char} (hc : isSpaceChar c) (a : Text) :
    clauseKinds {} (solidsOf (a ++ [c])) = clauseKinds {} (solidsOf a) := by
  rcases List.eq_nil_or_concat (tokenize a) with e | ⟨ts, t, e⟩
  · obtain rfl : a = [] := by rw [← spell_tokenize a, e]; rfl
    rw [List.nil_append, solidsOf_space (w := [c]) (by simpa using hc), solidsOf_nil]
  rw [List.concat_eq_append] at e
  have hf : t.Formed := formed_of_mem (s := a) (by simp [e])
  by_cases hstop : t.isSpace ∨ t.Stops [c]
  · rw [solidsOf_append (by simpa [e] using hstop), solidsOf_space (w := [c]) (by simpa using hc), List.append_nil]
  -- the space becomes part of the last token
  obtain ⟨hs, hstop⟩ := not_or.mp hstop
  have hs : t.isSpace = false := by simpa using hs
  have hgrows : t.isUnterminated ∨ t.isLineComment ∧ c ≠ '\n' := by
    by_contra h
    obtain ⟨hu, hl⟩ := not_or.mp h
    exact hstop (Token.stops_cons (isBreak_space hc) (by simpa using hu) (by simp [hs]) (by simpa using hl) [])
  obtain ⟨hm, t', hf', ht', hm'⟩ := hf.extend_mute hgrows
  have hs' : t'.isSpace = false := by cases t' <;> first | rfl | cases hm'
  have hl' : Legible (ts ++ [t']) := by
    refine Legible.extend_last (t := t) (e ▸ legible_tokenize a) hf' ht' fun hdot => ?_
    rw [hf.eq_dot hdot] at hm
    cases hm
  have ea : solidsOf a = solids ts ++ [t] := by simp [solidsOf, e, solids_cons, hs]
  have ec : solidsOf (a ++ [c]) = solids ts ++ [t'] := by
    have := hl'.solidsOf_spell
    rw [spell_append, spell_cons, spell_nil, List.append_nil, ht', ← List.append_assoc] at this
    rw [show spell ts ++ t.text = a by rw [← spell_tokenize a, e]; simp] at this
    simpa [solids_cons, hs'] using this
  rw [ea, ec, clauseKinds_concat_mute hm, clauseKinds_concat_mute hm']

theorem clauseKinds_append_space {w : Text} (hw : w.all isSpaceChar) (a : Text) :
    clauseKinds {} (solidsOf (a ++ w)) = clauseKinds {} (solidsOf a) := by
  induction w generalizing a with
  | nil => rw [List.append_nil]
  | cons c w ih =>
    obtain ⟨hc, hw⟩ := Bool.and_eq_true_iff.mp (List.all_cons.symm.trans hw)
    rw [List.append_cons, ih hw, clauseKinds_concat_space hc]

/-- Where trimming cuts off nothing but space, it lays no keyword bare. -/
theorem clauseKinds_trim {s : Text} (h : hards (trim s) = hards s) :
    clauseKinds {} (solidsOf (trim s)) = clauseKinds {} (solidsOf s) := by
  obtain ⟨v, ev, hv⟩ := exists_trimEnd (trimStart s)
  have es : s.takeWhile isBlank ++ (trim s ++ v) = s := by
    rw [trim, ← ev, trimStart, List.takeWhile_append_dropWhile]
  have hu : (s.takeWhile isBlank).all isBlank := List.all_takeWhile
  have hsum := congrArg hards es
  rw [hards_append, hards_append] at hsum
  have hu := space_of_hards hu (by omega)
  have hv := space_of_hards hv (by omega)
  rw [← es, solidsOf_space_append hu, es, clauseKinds_append_space hv]

/-! ## The split -/

/-- The clauses of a text: `front` and `bodies` are the texts between its
clause keywords, before they are trimmed. -/
structure Select.Splits (s : Select) (sql front : Text) (bodies : List Text) : Prop where
  lead : s.lead = nonempty? (trim front)
  body : s.clauses.map Clause.body = bodies.map trim
  kind : s.clauses.map Clause.kind = clauseKinds {} (solidsOf sql)
  solids : solidsOf sql =
    solidsOf front ++ (s.clauses.zip bodies).flatMap fun p => solidsOf p.1.keyword ++ solidsOf p.2
  flat : ∀ b ∈ bodies, clauseKinds {} (solidsOf b) = []
  trimmed : ∀ b ∈ bodies, hards (trim b) = hards b → clauseKinds {} (solidsOf (trim b)) = []

theorem ofText_eq_sections {sql : Text} {s : Select} (h : Select.ofText sql = .ok s) :
    s.lead = nonempty? (trim (spell (sections {} (tokenize sql)).1)) ∧
      s.clauses = (sections {} (tokenize sql)).2.map Section.clause := by
  unfold Select.ofText at h
  simp only at h
  split at h
  · cases h
  split at h
  · cases h
  split at h
  · cases h
  · cases h
    exact ⟨rfl, rfl⟩

theorem Select.splits_ofText {sql : Text} {s : Select} (h : Select.ofText sql = .ok s) :
    ∃ front bodies, s.Splits sql front bodies := by
  obtain ⟨elead, eclauses⟩ := ofText_eq_sections h
  obtain ⟨esolids, hp, hw⟩ := sections_parts {} (tokenize sql) fun _ => formed_of_mem
  have hkinds := sections_kinds {} (tokenize sql)
  have hflat := (sections_flat {} (tokenize sql)).2
  have hleg := legible_tokenize sql
  generalize sections {} (tokenize sql) = p at elead eclauses esolids hp hw hkinds hflat
  obtain ⟨front, found⟩ := p
  have hread : ∀ s ∈ found, solidsOf (spell s.tokens) = SqlLayout.solids s.tokens := fun s hs =>
    (hleg.of_infix (hw s hs).2).solidsOf_spell
  have hbare : ∀ b ∈ found.map fun s => spell s.tokens, clauseKinds {} (solidsOf b) = [] := by
    intro b hb
    obtain ⟨s, hs, rfl⟩ := List.mem_map.mp hb
    rw [hread s hs, hflat s hs]
  refine ⟨spell front, found.map fun s => spell s.tokens, elead, ?_, ?_, ?_, hbare, fun b hb hh => ?_⟩
  · simp [eclauses, Section.clause]
  · rw [eclauses, List.map_map]
    exact hkinds
  · rw [solidsOf, esolids, (hleg.of_infix hp.isInfix).solidsOf_spell, eclauses, List.zip_map', List.flatMap_map]
    congr 1
    exact List.flatMap_congr fun s hs => by rw [hread s hs]; rfl
  · rw [clauseKinds_trim hh, hbare b hb]

/-- The texts that are split into clauses, and what the clauses hold. -/
theorem select_splits_single (sql : Text) :
    ((Select.ofText sql).isOk ↔ SingleSelect (solidsOf sql)) ∧
      ∀ s, Select.ofText sql = .ok s → ∃ front bodies, s.Splits sql front bodies :=
  ⟨ofText_isOk sql, fun _ h => Select.splits_ofText h⟩

/-- The comment is the text in front, and the subquery stays in its clause. -/
theorem select_splits_single_subquery :
    SingleSelect (solidsOf "-- c\nselect a from (select 1) t group  by a".toList) ∧
      Select.ofText "-- c\nselect a from (select 1) t group  by a".toList = .ok
        ⟨some "-- c".toList, [⟨.SELECT, "select".toList, "a".toList⟩, ⟨.FROM, "from".toList, "(select 1) t".toList⟩,
          ⟨.GROUP_BY, "group by".toList, "a".toList⟩]⟩ ∧
      ∃ front bodies, Select.Splits
        ⟨some "-- c".toList, [⟨.SELECT, "select".toList, "a".toList⟩, ⟨.FROM, "from".toList, "(select 1) t".toList⟩,
          ⟨.GROUP_BY, "group by".toList, "a".toList⟩]⟩
        "-- c\nselect a from (select 1) t group  by a".toList front bodies := by
  have h := select_splits_single "-- c\nselect a from (select 1) t group  by a".toList
  have hs : Select.ofText "-- c\nselect a from (select 1) t group  by a".toList = .ok
      ⟨some "-- c".toList, [⟨.SELECT, "select".toList, "a".toList⟩, ⟨.FROM, "from".toList, "(select 1) t".toList⟩,
        ⟨.GROUP_BY, "group by".toList, "a".toList⟩]⟩ := by decide +kernel
  exact ⟨h.1.mp (by rw [hs]; rfl), hs, h.2 _ hs⟩

/-- The no-break space makes the last word no keyword, and is trimmed off. -/
theorem select_bares_keyword :
    ∃ c : Clause, Select.ofText "SELECT \u00a0from".toList = .ok ⟨none, [c]⟩ ∧ c.kind = .SELECT ∧
      c.body = "from".toList ∧ clauseKinds {} (solidsOf c.body) = [.FROM] ∧
      clauseKinds {} (solidsOf "SELECT \u00a0from".toList) = [.SELECT] :=
  ⟨⟨.SELECT, "SELECT".toList, "from".toList⟩, by decide +kernel, rfl, rfl, by decide +kernel, by decide +kernel⟩

end SqlLayout
