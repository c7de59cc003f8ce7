import SqlLayout.Proofs.Scan

/-!
# Tokens of texts that are put together

`solidsOf` are the tokens of a text other than space. A token list is
`Legible` when its spelling has the solids of the list: each token stops
before what follows, except that space may be cut, doubled or added. So any
part of a token list can be spelled and read again, and two texts can be put
together wherever the first one stops before the second
(`solidsOf_append`).
-/

namespace SqlLayout

def solids (ts : List Token) : List Token := ts.filter fun t => !t.isSpace

def solidsOf (s : Text) : List Token := solids (tokenize s)

@[simp] theorem solids_nil : solids [] = [] := rfl

@[simp] theorem solids_append (ts us : List Token) : solids (ts ++ us) = solids ts ++ solids us :=
  List.filter_append ..

theorem solids_cons (t : Token) (ts : List Token) :
    solids (t :: ts) = if t.isSpace then solids ts else t :: solids ts := by
  unfold solids; cases h : t.isSpace <;> simp [h]

/-- What passes over space reads the other tokens only. -/
theorem foldl_solids {α : Type} {f : α → Token → α} (hf : ∀ a t, t.isSpace → f a t = a) (ts : List Token) (a : α) :
    (solids ts).foldl f a = ts.foldl f a := by
  induction ts generalizing a with
  | nil => rfl
  | cons t ts ih =>
    rw [solids_cons]
    split
    · next h => rw [ih, List.foldl_cons, hf a t h]
    · rw [List.foldl_cons, List.foldl_cons, ih]

theorem mem_solids {t : Token} {ts : List Token} : t ∈ solids ts ↔ t ∈ ts ∧ t.isSpace = false := by
  simp [solids]

@[simp] theorem solidsOf_nil : solidsOf [] = [] := by simp [solidsOf, tokenize]

theorem solids_eq_nil {ts : List Token} : solids ts = [] ↔ ts.all Token.isSpace := by
  simp [solids, List.filter_eq_nil_iff]

/-! ## Reading one token -/

theorem Token.Formed.text_ne_nil {t : Token} (h : t.Formed) : t.text ≠ [] := by
  cases t with
  | whitespace w => exact h.1
  | lineComment w => obtain ⟨b, rfl, -⟩ := h; exact List.cons_ne_nil _ _
  | blockComment w => obtain ⟨b, rfl, -⟩ := h; exact List.cons_ne_nil _ _
  | stringLiteral w => obtain ⟨b, rfl, -⟩ := h; exact List.cons_ne_nil _ _
  | quotedIdentifier w =>
    obtain ⟨b, ⟨rfl, -⟩ | ⟨rfl, -⟩⟩ := h <;> exact List.cons_ne_nil _ _
  | number w =>
    obtain ⟨ds, -, ⟨rfl, h⟩ | ⟨d, fs, rfl, -⟩⟩ := h
    · exact h
    · simp [Token.text]
  | word w => obtain ⟨c, r, rfl, -⟩ := h; exact List.cons_ne_nil _ _
  | operator w => obtain ⟨c, -, rfl | ⟨d, rfl, -⟩⟩ := h <;> exact List.cons_ne_nil _ _
  | _ => exact List.cons_ne_nil _ _

theorem tokenize_text_append {t : Token} {s : Text} (ht : t.Formed) (hs : t.Stops s) :
    tokenize (t.text ++ s) = t :: tokenize s := by
  cases e : t.text with
  | nil => exact absurd e ht.text_ne_nil
  | cons c r => rw [List.cons_append, tokenize, scan_text_append ht hs e]

theorem formed_of_mem {t : Token} {s : Text} (h : t ∈ tokenize s) : t.Formed := by
  fun_induction tokenize s with
  | case1 => cases h
  | case2 c s ih =>
    rcases List.mem_cons.mp h with rfl | h
    · exact (scan_spec c s).1
    · exact ih h

/-! ## Space -/

theorem solidsOf_dropWhile (s : Text) : solidsOf (s.dropWhile isSpaceChar) = solidsOf s := by
  cases s with
  | nil => rfl
  | cons c s =>
    by_cases h : isSpaceChar c
    · rw [List.dropWhile_cons_of_pos h]
      simp [solidsOf, tokenize, scan, h, takeRun, solids_cons, Token.isSpace]
    · rw [List.dropWhile_cons_of_neg h]

theorem solidsOf_space_append {w : Text} (hw : w.all isSpaceChar) (s : Text) :
    solidsOf (w ++ s) = solidsOf s := by
  rw [← solidsOf_dropWhile, List.dropWhile_append_of_pos (by simpa using hw), solidsOf_dropWhile]

theorem solidsOf_space {w : Text} (hw : w.all isSpaceChar) : solidsOf w = [] := by
  simpa using solidsOf_space_append hw []

theorem solidsOf_cons_space {c : Char} (hc : isSpaceChar c) (s : Text) :
    solidsOf (c :: s) = solidsOf s :=
  solidsOf_space_append (w := [c]) (by simpa using hc) s

theorem solidsOf_text_append {t : Token} {s : Text} (hf : t.Formed) (hs : t.isSpace ∨ t.Stops s) :
    solidsOf (t.text ++ s) = if t.isSpace then solidsOf s else t :: solidsOf s := by
  cases hsp : t.isSpace with
  | true =>
    match t, hsp, hf with
    | .whitespace w, _, hf => exact solidsOf_space_append hf.2 _
  | false =>
    rw [solidsOf, tokenize_text_append hf (hs.resolve_left (by simp [hsp])), solids_cons, hsp]
    rfl

/-! ## Legible token lists -/

def Legible : List Token → Prop
  | [] => True
  | t :: ts => t.Formed ∧ (t.isSpace ∨ t.Stops (spell ts)) ∧ Legible ts

theorem legible_tokenize (s : Text) : Legible (tokenize s) := by
  fun_induction tokenize s with
  | case1 => trivial
  | case2 c s ih =>
    refine ⟨(scan_spec c s).1, Or.inr ?_, ih⟩
    rw [spell_tokenize]
    exact (scan_spec c s).2

theorem Legible.solidsOf_spell {ts : List Token} (h : Legible ts) : solidsOf (spell ts) = solids ts := by
  induction ts with
  | nil => exact solidsOf_nil
  | cons t ts ih =>
    obtain ⟨hf, hs, ht⟩ := h
    rw [spell_cons, solids_cons, ← ih ht]
    exact solidsOf_text_append hf hs

theorem Legible.of_append_right {ts us : List Token} (h : Legible (ts ++ us)) : Legible us := by
  induction ts with
  | nil => exact h
  | cons t ts ih => exact ih h.2.2

theorem Legible.formed {ts : List Token} (h : Legible ts) {t : Token} (ht : t ∈ ts) : t.Formed := by
  induction ts with
  | nil => cases ht
  | cons u ts ih =>
    rcases List.mem_cons.mp ht with rfl | ht
    · exact h.1
    · exact ih h.2.2 ht

theorem any_head_of_isPrefix {p : Char → Bool} {s s' : Text} (h : s' <+: s) (hs : !s.head?.any p) :
    !s'.head?.any p := by
  obtain ⟨r, rfl⟩ := h
  cases s' with
  | nil => rfl
  | cons c s' => exact hs

/-- What stops a token also does when its end is cut. -/
theorem Token.Stops.of_isPrefix {t : Token} {s s' : Text} (hs : t.Stops s) (h : s' <+: s) : t.Stops s' := by
  have nil : s = [] → s' = [] := by
    rintro rfl; exact List.prefix_nil.mp h
  have head : ∀ {c : Char}, s.head? ≠ some c → s'.head? ≠ some c := by
    intro c hc e
    obtain ⟨r, rfl⟩ := h
    cases s' with
    | nil => cases e
    | cons d s' => exact hc e
  cases t with
  | whitespace w => exact any_head_of_isPrefix h hs
  | lineComment w =>
    obtain ⟨r, rfl⟩ := h
    cases s' with
    | nil => rfl
    | cons c s' => exact hs
  | blockComment w => exact fun hu => nil (hs hu)
  | stringLiteral w => exact ⟨fun hu => nil (hs.1 hu), head hs.2⟩
  | quotedIdentifier w => exact ⟨fun hu => nil (hs.1 hu), head hs.2⟩
  | number w =>
    refine ⟨any_head_of_isPrefix h hs.1, hs.2.imp_right ?_⟩
    obtain ⟨r, rfl⟩ := h
    intro hf
    rcases s' with - | ⟨c, - | ⟨d, s'⟩⟩
    · rfl
    · simp [startsFraction]
    · exact hf
  | word w => exact any_head_of_isPrefix h hs
  | operator w =>
    rcases w with - | ⟨o, - | ⟨o', w⟩⟩
    · trivial
    · exact any_head_of_isPrefix (s := s) h hs
    · trivial
  | dot => exact any_head_of_isPrefix h hs
  | _ => trivial

theorem Token.stops_nil (t : Token) : t.Stops [] := by
  cases t with
  | operator w =>
    match w with
    | [] => trivial
    | [c] => rfl
    | _ :: _ :: _ => trivial
  | _ => simp [Stops, startsFraction]

theorem Legible.of_append_left {ts us : List Token} (h : Legible (ts ++ us)) : Legible ts := by
  induction ts with
  | nil => trivial
  | cons t ts ih =>
    refine ⟨h.1, h.2.1.imp_right fun hs => ?_, ih h.2.2⟩
    rw [List.append_eq, spell_append] at hs
    exact hs.of_isPrefix (List.prefix_append _ _)

/-! ## Putting token lists together -/

theorem spell_ne_nil {ts : List Token} (h : Legible ts) (hne : ts ≠ []) : spell ts ≠ [] := by
  cases ts with
  | nil => exact absurd rfl hne
  | cons t ts =>
    intro e
    exact h.1.text_ne_nil (List.append_eq_nil_iff.mp e).1

/-- A point of its own is the only token that one character more can turn
into a part of the token in front of it. -/
theorem Token.Stops.append {t : Token} {x : Text} (hs : t.Stops x) (hx : x ≠ []) {b : Text}
    (hd : x = ['.'] → !b.head?.any Char.isDigit) : t.Stops (x ++ b) := by
  obtain ⟨c, x, rfl⟩ := List.exists_cons_of_ne_nil hx
  cases t with
  | blockComment w => exact fun hu => absurd (hs hu) (List.cons_ne_nil _ _)
  | stringLiteral w => exact ⟨fun hu => absurd (hs.1 hu) (List.cons_ne_nil _ _), hs.2⟩
  | quotedIdentifier w => exact ⟨fun hu => absurd (hs.1 hu) (List.cons_ne_nil _ _), hs.2⟩
  | number w =>
    refine ⟨hs.1, hs.2.imp_right fun hf => ?_⟩
    cases x with
    | nil =>
      by_cases hc : c = '.'
      · have := hd (by rw [hc])
        cases b <;> simp_all [startsFraction]
      · simp [startsFraction, hc]
    | cons d x => exact hf
  | operator w =>
    rcases w with - | ⟨o, - | ⟨o', w⟩⟩
    · trivial
    · exact hs
    · trivial
  | _ => exact hs

theorem Token.Formed.eq_dot {t : Token} (h : t.Formed) (e : t.text = ['.']) : t = .dot := by
  cases t with
  | dot => rfl
  | whitespace w => subst e; simp [Formed, isSpaceChar] at h
  | lineComment w => obtain ⟨b, rfl, -⟩ := h; simp [Token.text] at e
  | blockComment w => obtain ⟨b, rfl, -⟩ := h; simp [Token.text] at e
  | stringLiteral w => obtain ⟨b, rfl, -⟩ := h; simp [Token.text] at e
  | quotedIdentifier w => obtain ⟨b, ⟨rfl, -⟩ | ⟨rfl, -⟩⟩ := h <;> simp [Token.text] at e
  | number w =>
    obtain ⟨ds, hds, ⟨rfl, -⟩ | ⟨d, fs, rfl, -⟩⟩ := h
    · obtain rfl : w = ['.'] := e
      exact absurd hds (by decide)
    · have := congrArg List.length e
      simp [Token.text] at this
      omega
  | word w =>
    obtain ⟨c, r, rfl, hc, -⟩ := h
    exact absurd (List.cons.inj e).1 (startsWord_ne hc).2.2.2.2.2.2.2.1
  | operator w =>
    obtain ⟨c, hc, hw⟩ := h
    have hne := (isOperatorChar_iff.mp hc).2.2.2.2.2.2.1
    rcases hw with rfl | ⟨d, rfl, -⟩ <;> exact absurd (List.cons.inj e).1 hne
  | _ => simp [Token.text] at e

theorem Legible.append {ts us : List Token} (h₁ : Legible ts) (h₂ : Legible us)
    (h : ∀ t ∈ ts.getLast?, t.isSpace ∨ t.Stops (spell us)) : Legible (ts ++ us) := by
  induction ts with
  | nil => exact h₂
  | cons t ts ih =>
    obtain ⟨hf, hs, ht⟩ := h₁
    cases ts with
    | nil => exact ⟨hf, h t rfl, h₂⟩
    | cons u ts =>
      have h' : ∀ t ∈ (u :: ts).getLast?, t.isSpace ∨ t.Stops (spell us) := by
        simpa [List.getLast?_cons_cons] using h
      refine ⟨hf, hs.imp_right fun hs => ?_, ih ht h'⟩
      rw [List.append_eq, spell_append]
      refine hs.append (spell_ne_nil ht (List.cons_ne_nil _ _)) fun e => ?_
      -- the tokens between are a single point
      have hu : ts = [] ∧ u.text = ['.'] := by
        cases ts with
        | nil => exact ⟨rfl, by simpa using e⟩
        | cons v ts =>
          have := congrArg List.length e
          have h1 := List.length_pos_iff.mpr ht.1.text_ne_nil
          have h2 := List.length_pos_iff.mpr ht.2.2.1.text_ne_nil
          simp only [spell_cons, List.length_append, List.length_singleton] at this
          omega
      obtain ⟨rfl, hu⟩ := hu
      obtain rfl := ht.1.eq_dot hu
      simpa [Token.isSpace, Token.Stops] using h' .dot rfl

theorem Legible.extend_last {ts : List Token} {t t' : Token} {b : Text} (h : Legible (ts ++ [t])) (hf : t'.Formed)
    (e : t'.text = t.text ++ b) (ht : t.text ≠ ['.']) : Legible (ts ++ [t']) := by
  induction ts with
  | nil => exact ⟨hf, Or.inr t'.stops_nil, trivial⟩
  | cons u ts ih =>
    refine ⟨h.1, h.2.1.imp_right fun hs => ?_, ih h.2.2⟩
    have hne := (h.formed (t := t) (by simp)).text_ne_nil
    rw [List.append_eq, spell_append] at hs ⊢
    rw [show spell [t'] = spell [t] ++ b by simpa using e, ← List.append_assoc]
    refine hs.append (by simp [hne]) fun e => ?_
    rw [spell_cons, spell_nil, List.append_nil] at e
    rcases List.append_eq_singleton_iff.mp e with ⟨-, e⟩ | ⟨-, e⟩
    · exact absurd e ht
    · exact absurd e hne

/-- Two texts put together where the first one stops. -/
theorem solidsOf_append {a b : Text} (h : ∀ t ∈ (tokenize a).getLast?, t.isSpace ∨ t.Stops b) :
    solidsOf (a ++ b) = solidsOf a ++ solidsOf b := by
  have hl : Legible (tokenize a ++ tokenize b) :=
    (legible_tokenize a).append (legible_tokenize b) (by rwa [spell_tokenize])
  have := hl.solidsOf_spell
  rwa [spell_append, spell_tokenize, spell_tokenize, solids_append] at this

/-! ## Closed texts -/

def Closed (s : Text) : Prop := ∀ t ∈ solidsOf s, t.isUnterminated = false

theorem isUnterminated_of_isSpace {t : Token} (h : t.isSpace) : t.isUnterminated = false := by
  cases t with
  | whitespace w => rfl
  | _ => cases h

theorem closed_iff {s : Text} : Closed s ↔ ∀ t ∈ tokenize s, t.isUnterminated = false := by
  constructor
  · intro h t ht
    cases hs : t.isSpace with
    | false => exact h t (mem_solids.mpr ⟨ht, hs⟩)
    | true => exact isUnterminated_of_isSpace hs
  · exact fun h t ht => h t (mem_solids.mp ht).1

/-- A character that no closed token but space and line comments goes on with. -/
def isBreak (c : Char) : Bool :=
  !isWordChar c && !(['.', '\'', '"', ']', '>', '=', '<', '|', ':', '-', '*'].contains c)

theorem isBreak_space {c : Char} (h : isSpaceChar c) : isBreak c := by
  simp only [isSpaceChar, Bool.or_eq_true, decide_eq_true_eq] at h
  rcases h with (((rfl | rfl) | rfl) | rfl) | rfl <;> decide

theorem Token.stops_cons {t : Token} {c : Char} (hc : isBreak c) (hu : t.isUnterminated = false)
    (hs : t.isSpace → isSpaceChar c = false) (hl : t.isLineComment → c = '\n') (s : Text) :
    t.Stops (c :: s) := by
  simp only [isBreak, Bool.and_eq_true, Bool.not_eq_true', List.contains_eq_mem, List.mem_cons,
    List.not_mem_nil, or_false, not_or, decide_eq_false_iff_not] at hc
  obtain ⟨hw, hp, hq, hq', hb, hc⟩ := hc
  have hd : c.isDigit = false := by
    simp only [isWordChar, Bool.or_eq_false_iff] at hw
    exact hw.2
  have hj : ∀ o, joinsOperator o c = false := by
    intro o
    simp [joinsOperator, isOperatorPair, hc]
  cases t with
  | whitespace w => simpa [Stops] using hs rfl
  | lineComment w => simpa [Stops] using hl rfl
  | blockComment w => intro h; rw [hu] at h; cases h
  | stringLiteral w => exact ⟨fun h => (by rw [hu] at h; cases h), by simpa using hq⟩
  | quotedIdentifier w =>
    refine ⟨fun h => (by rw [hu] at h; cases h), ?_⟩
    split <;> simp [hb, hq']
  | number w => exact ⟨by simp [hd], Or.inr (by simp [startsFraction, hp])⟩
  | word w => simp [Stops, hw]
  | operator w =>
    rcases w with - | ⟨o, - | ⟨o', w⟩⟩
    · trivial
    · simp [Stops, hj]
    · trivial
  | dot => simp [Stops, hd]
  | _ => trivial

theorem getLast_solids {ts : List Token} {t : Token} (h : t ∈ ts.getLast?) (hs : t.isSpace = false) :
    (solids ts).getLast? = some t := by
  obtain ⟨us, rfl⟩ := List.getLast?_eq_some_iff.mp h
  simp [solids, hs]

theorem solidsOf_append_newline {a : Text} (ha : Closed a) (b : Text) :
    solidsOf (a ++ '\n' :: b) = solidsOf a ++ solidsOf b := by
  rw [solidsOf_append, solidsOf_cons_space (by decide)]
  intro t ht
  cases hs : t.isSpace with
  | true => exact Or.inl rfl
  | false =>
    refine Or.inr (Token.stops_cons (by decide) ?_ (by simp [hs]) (fun _ => rfl) b)
    exact closed_iff.mp ha t (List.mem_of_getLast? ht)

/-- Behind a text that does not end in a line comment. -/
theorem solidsOf_append_break {a b : Text} (ha : Closed a)
    (hl : (solidsOf a).getLast?.all fun t => !t.isLineComment) (hb : b.head?.all isBreak) :
    solidsOf (a ++ b) = solidsOf a ++ solidsOf b := by
  cases b with
  | nil => simp
  | cons c b =>
    refine solidsOf_append fun t ht => ?_
    cases hs : t.isSpace with
    | true => exact Or.inl rfl
    | false =>
      have hlast := getLast_solids ht hs
      refine Or.inr (Token.stops_cons (by simpa using hb) ?_ (by simp [hs]) ?_ b)
      · exact closed_iff.mp ha t (List.mem_of_getLast? ht)
      · rw [solidsOf, hlast] at hl
        simp_all

end SqlLayout
