import SqlLayout.With
import SqlLayout.Proofs.Definitions
import SqlLayout.Proofs.Toplevel

/-!
# The grammar of the head of a WITH statement

The head is an optional semicolon, WITH and definitions with commas between
them, and only space stands between its elements. A text is read exactly if it
starts with such a head and something else than a comma follows, and the parts
that are read are those of the grammar (`ofText_eq_ok`).
-/

namespace SqlLayout

/-! ## Grammar -/

def Spaces (ts : List Token) : Prop := ∀ t ∈ ts, t.isSpace

inductive NameToken : Token → Prop
  | quoted (s : Text) : NameToken (.quotedIdentifier s)
  | word {w : Text} (h : Keyword.ofWord? w = none) : NameToken (.word w)

inductive ColumnsWritten : Option Text → List Token → Prop
  | none : ColumnsWritten none []
  | some {inner : List Token} (h : (Nesting.after inner).isBalanced) :
    ColumnsWritten (some ('(' :: normalize 0 (spell inner) ++ [')'])) (.openParen :: (inner ++ [.closeParen]))

inductive Definition.Written : Definition → List Token → Prop
  | intro {name as : Token} {columns : Option Text} {sp cs sp' sp'' body : List Token} (hn : NameToken name)
    (hs : Spaces sp) (hc : ColumnsWritten columns cs) (hs' : Spaces sp') (ha : as.isKeyword .AS) (hs'' : Spaces sp'')
    (hb : (Nesting.after body).isBalanced) :
    Written ⟨name.text, columns, as.text, trim (spell body)⟩
      (name :: (sp ++ (cs ++ (sp' ++ as :: (sp'' ++ .openParen :: (body ++ [.closeParen]))))))

/-- One definition or more, each with the space in front of it. -/
inductive DefinitionsWritten : List Definition → List Token → Prop
  | one {d : Definition} {sp ts : List Token} (hs : Spaces sp) (hd : d.Written ts) : DefinitionsWritten [d] (sp ++ ts)
  | more {d : Definition} {ds : List Definition} {sp ts sp' us : List Token} (hs : Spaces sp) (hd : d.Written ts)
    (hs' : Spaces sp') (hds : DefinitionsWritten ds us) :
    DefinitionsWritten (d :: ds) (sp ++ (ts ++ (sp' ++ .comma :: us)))

inductive SemicolonWritten : Bool → List Token → Prop
  | absent : SemicolonWritten false []
  | present : SemicolonWritten true [.semicolon]

inductive With.Written : With → List Token → Prop
  | intro {semicolon : Bool} {keyword : Token} {ds : List Definition} {sp ss sp' head rest : List Token}
    (hs : Spaces sp) (hsemi : SemicolonWritten semicolon ss) (hs' : Spaces sp') (hk : keyword.isKeyword .WITH)
    (hd : DefinitionsWritten ds head) (hc : rest.find? Token.isCode ≠ some .comma) (hm : trim (spell rest) ≠ []) :
    Written ⟨semicolon, keyword.text, ds, trim (spell rest)⟩ (sp ++ (ss ++ (sp' ++ keyword :: (head ++ rest))))

/-! ## Single tokens -/

theorem Spaces.append {ts us : List Token} (h : Spaces ts) (h' : Spaces us) : Spaces (ts ++ us) := fun t ht =>
  (List.mem_append.mp ht).elim (h t) (h' t)

theorem isCode_of_isKeyword {k : Keyword} {t : Token} (h : t.isKeyword k) : t.isCode := by
  obtain ⟨w, rfl⟩ := isWord_of_isKeyword h
  rfl

theorem isName_iff {t : Token} : isName t ↔ NameToken t := by
  constructor
  · intro h
    cases t with
    | quotedIdentifier s => exact .quoted s
    | word w => exact .word (by simpa [isName] using h)
    | _ => cases h
  · rintro (s | h)
    · rfl
    · simpa [isName] using h

theorem NameToken.isCode {t : Token} (h : NameToken t) : t.isCode := by cases h <;> rfl

theorem skipSpace_append {sp : List Token} (hs : Spaces sp) (ts : List Token) (h : ∀ t ∈ ts.head?, t.isCode) :
    skipSpace (sp ++ ts) = .ok ts := by
  unfold skipSpace
  rw [List.dropWhile_append_of_pos hs]
  cases ts with
  | nil => rfl
  | cons t ts =>
    have hc := h t rfl
    simp only [Token.isCode, Token.isTrivia, Bool.not_eq_true', Bool.or_eq_false_iff] at hc
    rw [List.dropWhile_cons_of_neg (by simp [hc.1])]
    simp [hc.2]

theorem skipSpace_eq_ok {ts us : List Token} (h : skipSpace ts = .ok us) :
    (∃ sp, Spaces sp ∧ ts = sp ++ us) ∧ ∀ t ∈ us.head?, t.isCode := by
  have hsplit := List.takeWhile_append_dropWhile (p := Token.isSpace) (l := ts)
  have hspaces : Spaces (ts.takeWhile Token.isSpace) := fun _ => List.mem_takeWhile_imp
  unfold skipSpace at h
  split at h
  · next t vs e =>
    split at h
    · cases h
    · next hc =>
      cases h
      have hs : t.isSpace = false := by
        have := List.head?_dropWhile_not Token.isSpace ts
        simpa [e] using this
      refine ⟨⟨_, hspaces, e ▸ hsplit.symm⟩, fun u hu => ?_⟩
      cases hu
      simpa [Token.isCode, Token.isTrivia, hs] using hc
  · next e =>
    cases h
    exact ⟨⟨_, hspaces, e ▸ hsplit.symm⟩, by simp⟩

theorem takeKeyword_eq_ok {k : Keyword} {f : HeaderFault} {ts rest : List Token} {w : Text} :
    takeKeyword k f ts = .ok (w, rest) ↔ ∃ sp t, Spaces sp ∧ t.isKeyword k ∧ w = t.text ∧ ts = sp ++ t :: rest := by
  constructor
  · intro h
    obtain ⟨us, e, h⟩ := ok_of_bind h
    obtain ⟨⟨sp, hs, ets⟩, -⟩ := skipSpace_eq_ok e
    split at h
    · split at h
      · next hk => cases h; exact ⟨sp, _, hs, hk, rfl, ets⟩
      · cases h
    · cases h
  · rintro ⟨sp, t, hs, hk, rfl, rfl⟩
    have e := skipSpace_append hs (t :: rest) (by simpa using isCode_of_isKeyword hk)
    simp [takeKeyword, e, hk, bind, Except.bind]

theorem takeName_eq_ok {ts rest : List Token} {w : Text} :
    takeName ts = .ok (w, rest) ↔ ∃ sp t, Spaces sp ∧ NameToken t ∧ w = t.text ∧ ts = sp ++ t :: rest := by
  constructor
  · intro h
    obtain ⟨us, e, h⟩ := ok_of_bind h
    obtain ⟨⟨sp, hs, ets⟩, -⟩ := skipSpace_eq_ok e
    split at h
    · split at h
      · next hn => cases h; exact ⟨sp, _, hs, isName_iff.mp hn, rfl, ets⟩
      · cases h
    · cases h
  · rintro ⟨sp, t, hs, hn, rfl, rfl⟩
    have e := skipSpace_append hs (t :: rest) (by simpa using hn.isCode)
    simp [takeName, e, isName_iff.mpr hn, bind, Except.bind]

/-! ## Groups in parentheses -/

/-- The closing parenthesis is found that makes what is enclosed balanced. -/
theorem splitClosing_eq_some {d : Nat} {ts inner rest : List Token} :
    splitClosing d ts = some (inner, rest) ↔ ts = inner ++ .closeParen :: rest ∧ ClosesAll d (parens inner) := by
  constructor
  · intro h
    refine ⟨splitClosing_eq h, ?_⟩
    fun_induction splitClosing d ts generalizing inner with
    | case1 => cases h
    | case2 => cases h; rfl
    | case3 d ts ih =>
      obtain ⟨⟨a, b⟩, e, hab⟩ := Option.map_eq_some_iff.mp h
      cases hab
      exact ih e
    | case4 d ts ih =>
      obtain ⟨⟨a, b⟩, e, hab⟩ := Option.map_eq_some_iff.mp h
      cases hab
      exact ih e
    | case5 d t ts hc ho ih =>
      obtain ⟨⟨a, b⟩, e, hab⟩ := Option.map_eq_some_iff.mp h
      cases hab
      have hcl := ih e
      cases t <;> first | exact hcl | exact (hc rfl).elim | exact (ho rfl).elim
  · rintro ⟨rfl, h⟩
    induction inner generalizing d with
    | nil =>
      obtain rfl : d = 0 := h
      rfl
    | cons t inner ih =>
      rw [List.cons_append]
      cases t with
      | openParen => rw [splitClosing, ih h]; rfl
      | closeParen =>
        cases d with
        | zero => cases h
        | succ d => rw [splitClosing, ih h]; rfl
      | _ => rw [splitClosing, ih h] <;> first | rfl | exact Token.noConfusion

theorem splitClosing_zero {ts inner rest : List Token} :
    splitClosing 0 ts = some (inner, rest) ↔ ts = inner ++ .closeParen :: rest ∧ (Nesting.after inner).isBalanced := by
  rw [splitClosing_eq_some, Nesting.after, isBalanced_foldl rfl]

theorem isCode_openParen {ts : List Token} : ∀ t ∈ (Token.openParen :: ts).head?, t.isCode := by
  rintro _ ⟨⟩
  rfl

theorem takeGroup_eq_ok {ts inner rest : List Token} :
    takeGroup ts = .ok (inner, rest) ↔ ∃ sp, Spaces sp ∧ (Nesting.after inner).isBalanced ∧
      ts = sp ++ .openParen :: (inner ++ .closeParen :: rest) := by
  constructor
  · intro h
    obtain ⟨us, e, h⟩ := ok_of_bind h
    obtain ⟨⟨sp, hs, ets⟩, -⟩ := skipSpace_eq_ok e
    split at h
    · split at h
      · next p hp =>
        cases h
        obtain ⟨rfl, hb⟩ := splitClosing_zero.mp hp
        exact ⟨sp, hs, hb, ets⟩
      · cases h
    · cases h
  · rintro ⟨sp, hs, hb, rfl⟩
    have e := skipSpace_append hs (.openParen :: (inner ++ .closeParen :: rest)) isCode_openParen
    simp [takeGroup, e, splitClosing_zero.mpr ⟨rfl, hb⟩, bind, Except.bind]

/-! ## Definitions -/

theorem takeColumns_eq_ok {ts rest : List Token} {columns : Option Text} (h : takeColumns ts = .ok (columns, rest)) :
    ∃ sp cs, Spaces sp ∧ ColumnsWritten columns cs ∧ ts = sp ++ (cs ++ rest) := by
  obtain ⟨us, e, h⟩ := ok_of_bind h
  obtain ⟨⟨sp, hs, ets⟩, -⟩ := skipSpace_eq_ok e
  split at h
  · obtain ⟨⟨inner, r⟩, e', h⟩ := ok_of_bind h
    cases h
    obtain ⟨sp', hs', hb, e'⟩ := takeGroup_eq_ok.mp e'
    cases sp' with
    | nil =>
      rw [List.nil_append] at e'
      exact ⟨sp, _, hs, .some hb, by rw [ets, e']; simp⟩
    | cons t sp' =>
      obtain rfl := (List.cons.inj e').1
      cases hs' .openParen (by simp)
  · cases h
    exact ⟨sp, [], hs, .none, ets⟩

theorem takeColumns_append {sp cs sp' : List Token} {columns : Option Text} {as : Token} (hs : Spaces sp)
    (hc : ColumnsWritten columns cs) (hs' : Spaces sp') (ha : as.isKeyword .AS) (rest : List Token) :
    ∃ us, takeColumns (sp ++ (cs ++ (sp' ++ as :: rest))) = .ok (columns, us) ∧
      takeKeyword .AS .noAs us = .ok (as.text, rest) := by
  cases hc with
  | none =>
    obtain ⟨w, rfl⟩ := isWord_of_isKeyword ha
    have e := skipSpace_append (hs.append hs') (.word w :: rest) (by simpa using isCode_of_isKeyword ha)
    rw [List.append_assoc] at e
    refine ⟨.word w :: rest, ?_, takeKeyword_eq_ok.mpr ⟨[], _, by simp [Spaces], ha, rfl, rfl⟩⟩
    simp [takeColumns, e, bind, Except.bind]
  | @some inner hb =>
    have e := skipSpace_append hs (.openParen :: (inner ++ .closeParen :: (sp' ++ as :: rest))) isCode_openParen
    have eg := takeGroup_eq_ok.mpr ⟨[], by simp [Spaces], hb, (List.nil_append (.openParen :: (inner ++ .closeParen :: (sp' ++ as :: rest)))).symm⟩
    refine ⟨sp' ++ as :: rest, ?_, takeKeyword_eq_ok.mpr ⟨sp', _, hs', ha, rfl, rfl⟩⟩
    simp [takeColumns, e, eg, bind, Except.bind]

theorem takeDefinition_eq_ok {ts rest : List Token} {d : Definition} :
    takeDefinition ts = .ok (d, rest) ↔ ∃ sp us, Spaces sp ∧ d.Written us ∧ ts = sp ++ (us ++ rest) := by
  constructor
  · intro h
    obtain ⟨⟨name, a⟩, e₁, h⟩ := ok_of_bind h
    obtain ⟨⟨columns, b⟩, e₂, h⟩ := ok_of_bind h
    obtain ⟨⟨as, c⟩, e₃, h⟩ := ok_of_bind h
    obtain ⟨⟨body, r⟩, e₄, h⟩ := ok_of_bind h
    cases h
    obtain ⟨sp₁, name, hs₁, hn, rfl, rfl⟩ := takeName_eq_ok.mp e₁
    obtain ⟨sp₂, cs, hs₂, hc, rfl⟩ := takeColumns_eq_ok e₂
    obtain ⟨sp₃, as, hs₃, ha, rfl, rfl⟩ := takeKeyword_eq_ok.mp e₃
    obtain ⟨sp₄, hs₄, hb, rfl⟩ := takeGroup_eq_ok.mp e₄
    exact ⟨sp₁, _, hs₁, .intro hn hs₂ hc hs₃ ha hs₄ hb, by simp⟩
  · rintro ⟨sp₁, us, hs₁, ⟨hn, hs₂, hc, hs₃, ha, hs₄, hb⟩, rfl⟩
    rename_i name as columns sp₂ cs sp₃ sp₄ body
    have e₁ := takeName_eq_ok.mpr ⟨sp₁, name, hs₁, hn, rfl,
      show _ = sp₁ ++ name :: (sp₂ ++ (cs ++ (sp₃ ++ as :: (sp₄ ++ .openParen :: (body ++ .closeParen :: rest))))) from rfl⟩
    obtain ⟨us, e₂, e₃⟩ := takeColumns_append hs₂ hc hs₃ ha (sp₄ ++ .openParen :: (body ++ .closeParen :: rest))
    have e₄ := takeGroup_eq_ok.mpr ⟨sp₄, hs₄, hb, Eq.refl (sp₄ ++ .openParen :: (body ++ .closeParen :: rest))⟩
    simp [takeDefinition, e₁, e₂, e₃, e₄, bind, Except.bind]

/-! ## Several definitions -/

theorem find_isCode (ts : List Token) : ts.find? Token.isCode = (ts.dropWhile Token.isTrivia).head? := by
  induction ts with
  | nil => rfl
  | cons t ts ih =>
    cases h : t.isTrivia with
    | true => rw [List.dropWhile_cons_of_pos h, List.find?_cons_of_neg (by simp [Token.isCode, h]), ih]
    | false => rw [List.dropWhile_cons_of_neg (by simp [h]), List.find?_cons_of_pos (by simp [Token.isCode, h])]; rfl

theorem takeDefinitions_last {ts rest : List Token} {d : Definition} (h : takeDefinition ts = .ok (d, rest))
    (hc : rest.find? Token.isCode ≠ some .comma) : takeDefinitions ts = .ok ([d], rest) := by
  rw [takeDefinitions]
  split
  · next e => cases h.symm.trans e
  · next e =>
    cases h.symm.trans e
    split
    · next tail et => exact absurd (by rw [find_isCode, et]; rfl) hc
    · rfl

theorem takeDefinitions_comma {ts sp us : List Token} {d : Definition} (h : takeDefinition ts = .ok (d, sp ++ .comma :: us))
    (hs : Spaces sp) : takeDefinitions ts = (takeDefinitions us).map (Prod.map (d :: ·) id) := by
  have ec : (sp ++ .comma :: us).dropWhile Token.isTrivia = .comma :: us := by
    rw [List.dropWhile_append_of_pos fun t ht => by simp [Token.isTrivia, hs t ht]]
    rfl
  have es : skipSpace (sp ++ .comma :: us) = .ok (.comma :: us) := skipSpace_append hs _ (by rintro _ ⟨⟩; rfl)
  rw [takeDefinitions]
  split
  · next e => cases h.symm.trans e
  · next e =>
    cases h.symm.trans e
    split
    · split
      · next e => cases es.symm.trans e
      · next e => cases es.symm.trans e; rfl
    · next hn => exact (hn _ ec).elim

theorem takeDefinitions_eq_ok {ts rest : List Token} {ds : List Definition} :
    takeDefinitions ts = .ok (ds, rest) ↔
      ∃ us, DefinitionsWritten ds us ∧ rest.find? Token.isCode ≠ some .comma ∧ ts = us ++ rest := by
  constructor
  · intro h
    fun_induction takeDefinitions ts generalizing ds with
    | case1 => cases h
    | case2 => cases h
    | case3 ts d rest' hd tail hc us hs hlt ih =>
      obtain ⟨⟨ds', r⟩, e, h⟩ := map_eq_ok h
      cases h
      obtain ⟨sp, us', hsp, hw, rfl⟩ := takeDefinition_eq_ok.mp hd
      obtain rfl := skipSpace_comma hc hs
      obtain ⟨⟨sp', hsp', rfl⟩, -⟩ := skipSpace_eq_ok hs
      obtain ⟨vs, hvs, hr, e⟩ := ih e
      rw [List.tail_cons] at e
      subst e
      exact ⟨_, .more hsp hw hsp' hvs, hr, by simp⟩
    | case4 ts d rest' hd hc =>
      cases h
      obtain ⟨sp, us, hs, hw, rfl⟩ := takeDefinition_eq_ok.mp hd
      refine ⟨_, .one hs hw, fun hr => ?_, by simp⟩
      rw [find_isCode] at hr
      obtain ⟨tail, e⟩ := List.head?_eq_some_iff.mp hr
      exact hc tail e
  · rintro ⟨us, hw, hr, rfl⟩
    induction hw with
    | @one d sp us hs hd => exact takeDefinitions_last (takeDefinition_eq_ok.mpr ⟨sp, us, hs, hd, by simp⟩) hr
    | @more d ds sp us sp' vs hs hd hs' _ ih =>
      have e : takeDefinition (sp ++ (us ++ (sp' ++ .comma :: vs)) ++ rest) = .ok (d, sp' ++ .comma :: (vs ++ rest)) :=
        takeDefinition_eq_ok.mpr ⟨sp, us, hs, hd, by simp⟩
      rw [takeDefinitions_comma e hs', ih]
      rfl

/-! ## The whole statement -/

/-- A text is read as `w` exactly if `w` is written there. -/
theorem ofText_eq_ok {sql : Text} {w : With} : With.ofText sql = .ok w ↔ w.Written (tokenize sql) := by
  constructor
  · intro h
    obtain ⟨ts, e₁, h⟩ := ok_of_bind h
    obtain ⟨⟨keyword, a⟩, e₂, h⟩ := ok_of_bind h
    obtain ⟨⟨ds, rest⟩, e₃, h⟩ := ok_of_bind h
    obtain ⟨⟨sp, hs, ets⟩, -⟩ := skipSpace_eq_ok e₁
    obtain ⟨sp', t, hs', hk, ew, e'⟩ := takeKeyword_eq_ok.mp e₂
    obtain ⟨head, hd, hc, er⟩ := takeDefinitions_eq_ok.mp e₃
    simp only at h
    split at h
    · cases h
    next hm =>
    cases h
    rw [ets, ew]
    subst er
    by_cases hsemi : ts.head? = some .semicolon
    · obtain ⟨us, rfl⟩ := List.head?_eq_some_iff.mp hsemi
      obtain rfl : us = sp' ++ t :: (head ++ rest) := by simpa using e'
      exact .intro hs .present hs' hk hd hc hm
    · obtain rfl : ts = sp' ++ t :: (head ++ rest) := by simpa [hsemi] using e'
      rw [decide_eq_false hsemi]
      exact .intro hs .absent hs' hk hd hc hm
  · intro h
    generalize e : tokenize sql = ts at h
    obtain @⟨semicolon, keyword, ds, sp, ss, sp', head, rest, hs, hsemi, hs', hk, hd, hc, hm⟩ := h
    have e₃ := takeDefinitions_eq_ok.mpr ⟨head, hd, hc, rfl⟩
    cases hsemi with
    | present =>
      have e₁ := skipSpace_append hs (.semicolon :: (sp' ++ keyword :: (head ++ rest))) (by rintro _ ⟨⟩; rfl)
      have e₂ := (takeKeyword_eq_ok (f := .noWith)).mpr ⟨sp', keyword, hs', hk, rfl, Eq.refl (sp' ++ keyword :: (head ++ rest))⟩
      simp [With.ofText, e, e₁, e₂, e₃, hm, bind, Except.bind]
    | absent =>
      obtain ⟨w, rfl⟩ := isWord_of_isKeyword hk
      have e₁ := skipSpace_append (hs.append hs') (.word w :: (head ++ rest)) (by rintro _ ⟨⟩; rfl)
      rw [List.append_assoc] at e₁
      have e₂ := (takeKeyword_eq_ok (f := .noWith)).mpr ⟨[], _, by simp [Spaces], hk, rfl, Eq.refl (.word w :: (head ++ rest))⟩
      simp [With.ofText, e, e₁, e₂, e₃, hm, bind, Except.bind]

end SqlLayout
