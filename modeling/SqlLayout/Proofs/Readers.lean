import SqlLayout.Proofs.Definitions
import SqlLayout.Proofs.Upper

/-!
# Readers do not see letter case

Every reader asks for kinds of tokens, keywords and marks only, so what it
returns for a text in upper case is what it returns for the text itself, in
upper case, and its faults are the same.
-/

namespace SqlLayout

def raise (ts : List Token) : List Token := ts.map Token.upper

@[simp] theorem raise_nil : raise [] = [] := rfl

@[simp] theorem raise_cons (t : Token) (ts : List Token) : raise (t :: ts) = t.upper :: raise ts := rfl

@[simp] theorem raise_append (ts us : List Token) : raise (ts ++ us) = raise ts ++ raise us := List.map_append

@[simp] theorem raise_eq_nil {ts : List Token} : raise ts = [] ↔ ts = [] := List.map_eq_nil_iff

@[simp] theorem length_raise (ts : List Token) : (raise ts).length = ts.length := List.length_map ..

theorem drop_raise (n : Nat) (ts : List Token) : (raise ts).drop n = raise (ts.drop n) := List.map_drop.symm

@[simp] theorem spell_raise (ts : List Token) : spell (raise ts) = upper (spell ts) := by
  induction ts with
  | nil => rfl
  | cons t ts ih => simp [ih]

theorem tokenize_upper_raise (s : Text) : tokenize (upper s) = raise (tokenize s) := tokenize_upper s

/-! ## Runs of tokens -/

theorem takeWhile_raise {p : Token → Bool} (hp : ∀ t : Token, p t.upper = p t) (ts : List Token) :
    (raise ts).takeWhile p = raise (ts.takeWhile p) := takeWhile_map_self hp ts

theorem dropWhile_raise {p : Token → Bool} (hp : ∀ t : Token, p t.upper = p t) (ts : List Token) :
    (raise ts).dropWhile p = raise (ts.dropWhile p) := dropWhile_map_self hp ts

theorem takeEndWhile_raise {p : Token → Bool} (hp : ∀ t : Token, p t.upper = p t) (ts : List Token) :
    takeEndWhile p (raise ts) = raise (takeEndWhile p ts) := takeEndWhile_map_self hp ts

theorem dropEndWhile_raise {p : Token → Bool} (hp : ∀ t : Token, p t.upper = p t) (ts : List Token) :
    dropEndWhile p (raise ts) = raise (dropEndWhile p ts) := dropEndWhile_map_self hp ts

theorem any_raise {p : Token → Bool} (hp : ∀ t : Token, p t.upper = p t) (ts : List Token) :
    (raise ts).any p = ts.any p := by
  rw [raise, List.any_map, (funext hp : p ∘ Token.upper = p)]

theorem modifyHead_raise (t : Token) (gs : List (List Token)) :
    (gs.map raise).modifyHead (t.upper :: ·) = (gs.modifyHead (t :: ·)).map raise := by
  cases gs <;> rfl

theorem splitOnP_raise {p : Token → Bool} (hp : ∀ t : Token, p t.upper = p t) (ts : List Token) :
    (raise ts).splitOnP p = (ts.splitOnP p).map raise := splitOnP_map_self hp ts

/-! ## Nesting -/

@[simp] theorem Nesting.step_upper (n : Nesting) (t : Token) : n.step t.upper = n.step t := by cases t <;> rfl

@[simp] theorem Nesting.topKeyword_upper (n : Nesting) (t : Token) : n.topKeyword t.upper = n.topKeyword t := by
  simp [topKeyword]

@[simp] theorem Nesting.after_raise (ts : List Token) : Nesting.after (raise ts) = Nesting.after ts := by
  simp [Nesting.after, raise, List.foldl_map]

theorem checkTokens_raise (ts : List Token) : checkTokens (raise ts) = checkTokens ts := by
  induction ts with
  | nil => rfl
  | cons t ts ih => simp [checkTokens, ih]

theorem splitClosing_raise (d : Nat) (ts : List Token) :
    splitClosing d (raise ts) = (splitClosing d ts).map (Prod.map raise raise) := by
  induction ts generalizing d with
  | nil => rfl
  | cons t ts ih =>
    cases t with
    | closeParen =>
      cases d with
      | zero => rfl
      | succ d =>
        simp only [raise_cons, Token.upper, splitClosing, ih, Option.map_map]
        rfl
    | _ =>
      simp only [raise_cons, Token.upper, splitClosing, ih, Option.map_map]
      rfl

/-! ## Items -/

theorem commentLines_raise (ts : List Token) : commentLines (raise ts) = (commentLines ts).map upper := by
  rw [commentLines, commentLines, splitOnP_raise Token.isNewline_upper, List.map_map, ← filter_ne_nil_upper,
    List.map_map]
  simp [Function.comp_def]

def Item.upper (i : Item) : Item :=
  ⟨i.leading.map SqlLayout.upper, SqlLayout.upper i.code, i.trailing.map SqlLayout.upper,
    i.following.map SqlLayout.upper⟩

theorem nonempty?_upper (s : Text) : nonempty? (upper s) = (nonempty? s).map upper := by
  unfold nonempty?
  simp only [upper_eq_nil]
  split <;> rfl

theorem Item.ofTokens?_raise (ts : List Token) : ofTokens? (raise ts) = (ofTokens? ts).map Item.upper := by
  unfold ofTokens?
  have hn : ∀ t : Token, (fun t => !t.isNewline) t.upper = (fun t => !t.isNewline) t := by simp
  simp only [takeWhile_raise Token.isTrivia_upper, dropWhile_raise Token.isTrivia_upper, raise_eq_nil,
    commentLines_raise, List.map_eq_nil_iff, takeEndWhile_raise Token.isTrivia_upper, dropEndWhile_raise Token.isTrivia_upper,
    takeEndWhile_raise (p := fun t => !t.isNewline) hn, dropEndWhile_raise (p := fun t => !t.isNewline) hn, takeWhile_raise (p := fun t => !t.isNewline) hn, dropWhile_raise (p := fun t => !t.isNewline) hn,
    dropWhile_raise Token.isSpace_upper, ← raise_append, spell_raise, trim_upper, nonempty?_upper]
  split
  · split <;> rfl
  · rfl

/-! ## Lists -/

theorem lineComments_raise (ts : List Token) : lineComments (raise ts) = raise (lineComments ts) := by
  have hp : ∀ t : Token, (t.upper.isTrivia && !t.upper.isNewline) = (t.isTrivia && !t.isNewline) := by simp
  unfold lineComments
  simp only [dropWhile_raise (p := fun t => t.isTrivia && !t.isNewline) hp,
    takeWhile_raise (p := fun t => t.isTrivia && !t.isNewline) hp, dropEndWhile_raise Token.isSpace_upper]
  cases ts.dropWhile fun t => t.isTrivia && !t.isNewline with
  | nil => rfl
  | cons t us =>
    simp only [raise_cons, Token.isNewline_upper]
    split <;> rfl

theorem commaGroups_raise (n : Nesting) (ts : List Token) :
    commaGroups n (raise ts) = (commaGroups n ts).map raise := by
  fun_induction commaGroups n ts with
  | case1 => simp [commaGroups]
  | case2 n t ts h ih =>
    rw [raise_cons, commaGroups, if_pos (by simpa using h), lineComments_raise, length_raise, drop_raise, ih]
    rfl
  | case3 n t ts h ih =>
    rw [raise_cons, commaGroups, if_neg (by simpa using h), Nesting.step_upper, ih]
    exact modifyHead_raise _ _

theorem conditionGroups_raise (n : Nesting) (between : Nat) (started : Bool) (ts : List Token) :
    conditionGroups n between started (raise ts) = (conditionGroups n between started ts).map raise := by
  induction ts generalizing n between started with
  | nil => rfl
  | cons t ts ih =>
    simp only [raise_cons, conditionGroups, Nesting.topKeyword_upper, Nesting.step_upper, Token.isCode_upper, ih,
      modifyHead_raise]
    split <;> rfl

theorem filterMap_ofTokens?_raise (gs : List (List Token)) :
    (gs.map raise).filterMap Item.ofTokens? = (gs.filterMap Item.ofTokens?).map Item.upper := by
  rw [List.filterMap_map, List.map_filterMap]
  exact List.filterMap_congr fun g _ => Item.ofTokens?_raise g

/-! ## Modifiers -/

theorem nextIf_raise {p : Token → Bool} (hp : ∀ t : Token, p t.upper = p t) (ts : List Token) :
    nextIf p (raise ts) = (nextIf p ts).map (Prod.map raise raise) := by
  unfold nextIf
  rw [dropWhile_raise Token.isSpace_upper, takeWhile_raise Token.isSpace_upper]
  cases ts.dropWhile Token.isSpace with
  | nil => rfl
  | cons t us =>
    simp only [raise_cons, hp]
    split <;> simp

theorem isCount_upper (t : Token) : isCount t.upper = isCount t := by
  cases t <;> first | rfl | exact Token.isWordFrom_upper (by simp) _

theorem optional_raise {take : List Token → Option (List Token × List Token)}
    (h : ∀ ts, take (raise ts) = (take ts).map (Prod.map raise raise)) (ts : List Token) :
    optional take (raise ts) = (optional take ts).map raise raise := by
  unfold optional
  rw [h]
  cases take ts <;> rfl

theorem takeCount_raise (ts : List Token) : takeCount (raise ts) = (takeCount ts).map (Prod.map raise raise) := by
  have hp := nextIf_raise (p := (· = .openParen)) (by simp) ts
  unfold takeCount
  rw [nextIf_raise isCount_upper]
  cases nextIf isCount ts with
  | some p => rfl
  | none =>
    simp only [Option.map_none, hp]
    cases nextIf (fun t => decide (t = .openParen)) ts with
    | none => rfl
    | some p =>
      simp only [Option.map_some, Option.bind_eq_bind, Option.bind_some, Prod.map_fst, Prod.map_snd, splitClosing_raise]
      cases splitClosing 0 p.2 with
      | none => rfl
      | some q => simp [Token.upper]

theorem takeTies_raise (ts : List Token) : takeTies (raise ts) = (takeTies ts).map (Prod.map raise raise) := by
  unfold takeTies
  rw [nextIf_raise (Token.isKeyword_upper .WITH)]
  cases nextIf (Token.isKeyword .WITH) ts with
  | none => rfl
  | some p =>
    simp only [Option.map_some, Option.bind_eq_bind, Option.bind_some, Prod.map_fst, Prod.map_snd,
      nextIf_raise (Token.isKeyword_upper .TIES)]
    cases nextIf (Token.isKeyword .TIES) p.2 with
    | none => rfl
    | some q => simp

theorem takeTop_raise (ts : List Token) : takeTop (raise ts) = (takeTop ts).map (Prod.map raise raise) := by
  unfold takeTop
  rw [takeCount_raise, Option.map_map, Option.map_map]
  congr 1
  funext p
  simp [optional_raise (nextIf_raise (Token.isKeyword_upper .PERCENT)),
    optional_raise takeTies_raise]

theorem takeModifier_raise (ts : List Token) :
    takeModifier (raise ts) = (takeModifier ts).map (Prod.map raise raise) := by
  have hf : ∀ x : Option (List Token × List Token),
      (x.map (Prod.map raise raise)).filter (fun p => !p.1.any Token.isComment) =
        (x.filter fun p => !p.1.any Token.isComment).map (Prod.map raise raise) := by
    rintro (_ | p)
    · rfl
    · simp only [Option.map_some, Option.filter, Prod.map_fst, any_raise Token.isComment_upper]
      split <;> rfl
  unfold takeModifier
  rw [dropWhile_raise Token.isSpace_upper]
  cases ts.dropWhile Token.isSpace with
  | nil => rfl
  | cons t us =>
    simp only [raise_cons, Token.keyword_upper, takeTop_raise, ← hf]
    congr 1
    split
    · rfl
    · rfl
    · rw [Option.map_map, Option.map_map]; rfl
    · rfl

theorem collapse_raise (ts : List Token) : collapse (raise ts) = upper (collapse ts) := by
  rw [collapse, collapse, ← trim_upper]
  congr 1
  induction ts with
  | nil => rfl
  | cons t ts ih =>
    simp only [raise_cons, List.flatMap_cons, ih, upper_append, Token.isSpace_upper, Token.text_upper]
    split <;> rfl

theorem takeModifiers_raise (ts : List Token) :
    takeModifiers (raise ts) = (takeModifiers ts).map (List.map upper) raise := by
  fun_induction takeModifiers ts with
  | case1 ts a b h _ ih =>
    rw [takeModifiers]
    split
    · next a' b' h' =>
      rw [takeModifier_raise, h] at h'
      cases h'
      rw [ih, collapse_raise]
      rfl
    · next h' => rw [takeModifier_raise, h] at h'; cases h'
  | case2 ts h =>
    rw [takeModifiers]
    split
    · next h' => rw [takeModifier_raise, h] at h'; cases h'
    · rfl

theorem splitModifiers_raise (ts : List Token) : (splitModifiers (raise ts)).2 = raise (splitModifiers ts).2 := by
  simp [splitModifiers, takeModifiers_raise]

/-! ## Clauses -/

def Clause.upper (c : Clause) : Clause := ⟨c.kind, SqlLayout.upper c.keyword, SqlLayout.upper c.body⟩

def Select.upper (s : Select) : Select := ⟨s.lead.map SqlLayout.upper, s.clauses.map Clause.upper⟩

def Section.upper (s : Section) : Section := ⟨s.kind, SqlLayout.upper s.keyword, raise s.tokens⟩

theorem opens_raise (k : Keyword) (ts : List Token) :
    opens k (raise ts) = (opens k ts).map (Prod.map id (Prod.map upper raise)) := by
  unfold opens
  rw [dropWhile_raise Token.isSpace_upper]
  cases ts.dropWhile Token.isSpace with
  | nil => cases k <;> rfl
  | cons t us =>
    simp only [raise_cons, Token.isKeyword_upper, Token.text_upper]
    cases k <;> first | rfl | (simp only []; split <;> rfl)

theorem sections_raise (n : Nesting) (ts : List Token) :
    sections n (raise ts) = (sections n ts).map raise (List.map Section.upper) := by
  induction ts generalizing n with
  | nil => rfl
  | cons t ts ih =>
    simp only [raise_cons, sections, Nesting.topKeyword_upper, Nesting.step_upper, ih, Prod.map_fst, Prod.map_snd]
    cases n.topKeyword t with
    | none => rfl
    | some k =>
      simp only [Option.bind_some, opens_raise]
      cases opens k (sections (n.step t) ts).1 with
      | none => rfl
      | some p => simp [Section.upper]

theorem setOperator?_raise (n : Nesting) (ts : List Token) : setOperator? n (raise ts) = setOperator? n ts := by
  induction ts generalizing n with
  | nil => rfl
  | cons t ts ih => simp only [raise_cons, setOperator?, Nesting.topKeyword_upper, Nesting.step_upper, ih]

theorem Select.checkShape_raise (front : List Token) (kinds : List ClauseKind) :
    checkShape (raise front) kinds = checkShape front kinds := by
  simp only [checkShape, any_raise Token.isCode_upper]

theorem Select.ofText_upper (sql : Text) : ofText (SqlLayout.upper sql) = (ofText sql).map Select.upper := by
  unfold ofText
  simp only [tokenize_upper_raise, setOperator?_raise, Nesting.after_raise, sections_raise, Prod.map_fst, Prod.map_snd]
  cases setOperator? {} (tokenize sql) with
  | some k => rfl
  | none =>
    have hk : ((sections {} (tokenize sql)).2.map Section.upper).map Section.kind =
        (sections {} (tokenize sql)).2.map Section.kind := by simp [Section.upper]
    simp only [hk, checkShape_raise, spell_raise, trim_upper, upper_eq_nil]
    cases (Nesting.after (tokenize sql)).isBalanced with
    | false => rfl
    | true =>
      cases checkShape (sections {} (tokenize sql)).1 ((sections {} (tokenize sql)).2.map Section.kind) with
      | error f => rfl
      | ok u =>
        have hl : (if trim (spell (sections {} (tokenize sql)).1) = [] then none
            else some (SqlLayout.upper (trim (spell (sections {} (tokenize sql)).1)))) =
              (if trim (spell (sections {} (tokenize sql)).1) = [] then none
                else some (trim (spell (sections {} (tokenize sql)).1))).map SqlLayout.upper := by
          split <;> rfl
        simp [Except.map, Select.upper, Clause.upper, Section.upper, hl]

/-! ## Heads of WITH statements -/

theorem bind_map {ε α α' β β' : Type} {x : Except ε α} {f : α → α'} {g : α → Except ε β}
    {g' : α' → Except ε β'} {h : β → β'} (hg : ∀ a, g' (f a) = (g a).map h) :
    (x.map f >>= g') = (x >>= g).map h := by
  cases x with
  | error e => rfl
  | ok a => exact hg a

theorem skipSpace_raise (ts : List Token) : skipSpace (raise ts) = (skipSpace ts).map raise := by
  unfold skipSpace
  rw [dropWhile_raise Token.isSpace_upper]
  cases ts.dropWhile Token.isSpace with
  | nil => rfl
  | cons t us =>
    simp only [raise_cons, Token.isComment_upper]
    split <;> rfl

theorem takeKeyword_raise (k : Keyword) (f : HeaderFault) (ts : List Token) :
    takeKeyword k f (raise ts) = (takeKeyword k f ts).map (Prod.map upper raise) := by
  unfold takeKeyword
  rw [skipSpace_raise]
  refine bind_map fun us => ?_
  cases us with
  | nil => rfl
  | cons t us =>
    simp only [raise_cons, Token.isKeyword_upper, Token.text_upper]
    split <;> rfl

theorem isName_upper (t : Token) : isName t.upper = isName t := by
  cases t <;> first | rfl | simp [isName, Token.upper]

theorem takeName_raise (ts : List Token) : takeName (raise ts) = (takeName ts).map (Prod.map upper raise) := by
  unfold takeName
  rw [skipSpace_raise]
  refine bind_map fun us => ?_
  cases us with
  | nil => rfl
  | cons t us =>
    simp only [raise_cons, isName_upper, Token.text_upper]
    split <;> rfl

theorem takeGroup_raise (ts : List Token) : takeGroup (raise ts) = (takeGroup ts).map (Prod.map raise raise) := by
  unfold takeGroup
  rw [skipSpace_raise]
  refine bind_map fun us => ?_
  cases us with
  | nil => rfl
  | cons t us =>
    cases t with
    | openParen =>
      simp only [raise_cons, Token.upper, splitClosing_raise]
      cases splitClosing 0 us <;> rfl
    | _ => rfl

theorem hang_upper (n : Nat) (s : Text) : hang n (upper s) = (hang n s).map upper := by
  unfold hang
  rw [trimmedLines_upper]
  cases trimmedLines s with
  | nil => rfl
  | cons l ls => simp [upper_pad]

theorem normalize_upper (n : Nat) (s : Text) : normalize n (upper s) = upper (normalize n s) := by
  unfold normalize
  rw [tokenize_upper_raise, any_raise Token.isLineComment_upper, hang_upper, joinLines_upper, collapse_raise]
  split <;> rfl

theorem takeColumns_raise (ts : List Token) :
    takeColumns (raise ts) = (takeColumns ts).map (Prod.map (Option.map upper) raise) := by
  unfold takeColumns
  rw [skipSpace_raise]
  refine bind_map fun us => ?_
  cases us with
  | nil => rfl
  | cons t us =>
    cases t with
    | openParen =>
      have hg : takeGroup (.openParen :: raise us) = _ := takeGroup_raise (.openParen :: us)
      simp only [raise_cons, Token.upper, hg]
      refine bind_map fun p => ?_
      simp [normalize_upper, Except.map]
    | _ => rfl

def Definition.upper (d : Definition) : Definition :=
  ⟨SqlLayout.upper d.name, d.columns.map SqlLayout.upper, SqlLayout.upper d.as, SqlLayout.upper d.body⟩

def With.upper (w : With) : With :=
  ⟨w.semicolon, SqlLayout.upper w.keyword, w.definitions.map Definition.upper, SqlLayout.upper w.main⟩

theorem takeDefinition_raise (ts : List Token) :
    takeDefinition (raise ts) = (takeDefinition ts).map (Prod.map Definition.upper raise) := by
  unfold takeDefinition
  rw [takeName_raise]
  refine bind_map fun name => ?_
  simp only [Prod.map_snd, takeColumns_raise]
  refine bind_map fun columns => ?_
  simp only [Prod.map_snd, takeKeyword_raise]
  refine bind_map fun as => ?_
  simp only [Prod.map_snd, takeGroup_raise]
  refine bind_map fun body => ?_
  simp [Except.map, Definition.upper]

theorem takeDefinitions_eq (ts : List Token) : takeDefinitions ts = (do
    let p ← takeDefinition ts
    if (p.2.dropWhile Token.isTrivia).head? = some .comma then
      let us ← skipSpace p.2
      (takeDefinitions us.tail).map (Prod.map (p.1 :: ·) id)
    else .ok ([p.1], p.2)) := by
  rw [takeDefinitions]
  split
  · next h => rw [h]; rfl
  · next d rest h =>
    conv_rhs => rw [h]
    change _ = if (rest.dropWhile Token.isTrivia).head? = some .comma then _ else _
    split
    · next e =>
      rw [if_pos (by rw [e]; rfl)]
      change _ = skipSpace rest >>= _
      split <;> next h' => (conv_rhs => rw [h']); rfl
    · next e =>
      rw [if_neg]
      intro hc
      obtain ⟨us, hus⟩ := List.head?_eq_some_iff.mp hc
      exact e us hus

theorem takeDefinitions_raise (ts : List Token) :
    takeDefinitions (raise ts) = (takeDefinitions ts).map (Prod.map (List.map Definition.upper) raise) := by
  fun_induction takeDefinitions ts with
  | case1 ts f h => rw [takeDefinitions_eq, takeDefinition_raise, h]; rfl
  | case2 ts d rest h us hc f hs =>
    rw [takeDefinitions_eq, takeDefinition_raise, h]
    change (if ((raise rest).dropWhile Token.isTrivia).head? = some .comma then _ else _) = _
    rw [if_pos (by rw [dropWhile_raise Token.isTrivia_upper, hc]; rfl)]
    change (skipSpace (raise rest) >>= _) = _
    rw [skipSpace_raise, hs]
    rfl
  | case3 ts d rest h us hc us' hs hl ih =>
    have ht : (raise us').tail = raise us'.tail := List.map_tail.symm
    rw [takeDefinitions_eq, takeDefinition_raise, h]
    change (if ((raise rest).dropWhile Token.isTrivia).head? = some .comma then _ else _) = _
    rw [if_pos (by rw [dropWhile_raise Token.isTrivia_upper, hc]; rfl)]
    change (skipSpace (raise rest) >>= _) = _
    rw [skipSpace_raise, hs]
    change (takeDefinitions (raise us').tail).map _ = _
    rw [ht, ih]
    cases takeDefinitions us'.tail <;> rfl
  | case4 ts d rest h hc =>
    rw [takeDefinitions_eq, takeDefinition_raise, h]
    change (if ((raise rest).dropWhile Token.isTrivia).head? = some .comma then _ else _) = _
    rw [if_neg]
    · rfl
    · rw [dropWhile_raise Token.isTrivia_upper]
      cases e : rest.dropWhile Token.isTrivia with
      | nil => simp
      | cons t us =>
        simp only [raise_cons, List.head?_cons, Option.some.injEq, Token.upper_eq_comma]
        rintro rfl
        exact hc us e

theorem With.ofText_upper (sql : Text) : ofText (SqlLayout.upper sql) = (ofText sql).map With.upper := by
  unfold ofText
  rw [tokenize_upper_raise, skipSpace_raise]
  refine bind_map fun ts => ?_
  have hh : (raise ts).head? = some .semicolon ↔ ts.head? = some .semicolon := by
    cases ts <;> simp
  have ht : (if ts.head? = some .semicolon then (raise ts).tail else raise ts) =
      raise (if ts.head? = some .semicolon then ts.tail else ts) := by
    split
    · exact List.map_tail.symm
    · rfl
  simp only [hh, ht, takeKeyword_raise]
  refine bind_map fun keyword => ?_
  simp only [Prod.map_snd, takeDefinitions_raise]
  refine bind_map fun ds => ?_
  simp only [Prod.map_fst, Prod.map_snd, spell_raise, trim_upper, upper_eq_nil]
  split <;> rfl

end SqlLayout
