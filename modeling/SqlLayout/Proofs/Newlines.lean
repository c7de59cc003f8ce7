import SqlLayout.Proofs.Recase
import SqlLayout.Proofs.Segments

/-!
# Tokens and the ends of lines

A carriage return in front of a newline is space between tokens, a blank end
of a line comment, or part of a token that goes on over the end of its line.
So a text with unified newlines has the tokens of the text, with unified
newlines inside of them (`plainsOf_unifyNewlines`).
-/

namespace SqlLayout

theorem unifyNewlines_pair (s : Text) : unifyNewlines ('\r' :: '\n' :: s) = '\n' :: unifyNewlines s := rfl

theorem unifyNewlines_cons {c : Char} {s : Text} (h : c = '\r' → s.head? ≠ some '\n') :
    unifyNewlines (c :: s) = c :: unifyNewlines s := by
  rw [unifyNewlines]
  rintro s' rfl rfl
  exact h rfl rfl

theorem unifyNewlines_cons_ne {c : Char} (h : c ≠ '\r') (s : Text) : unifyNewlines (c :: s) = c :: unifyNewlines s :=
  unifyNewlines_cons fun e => absurd e h

theorem unifyNewlines_singleton (c : Char) : unifyNewlines [c] = [c] := unifyNewlines_cons (by simp)

/-- No pair stands where the texts meet. -/
theorem unifyNewlines_append_of_ends {a b : Text} (h : a.getLast? = some '\r' → b.head? ≠ some '\n') :
    unifyNewlines (a ++ b) = unifyNewlines a ++ unifyNewlines b := by
  fun_induction unifyNewlines a with
  | case1 a ih =>
    have hlast : a.getLast? = some '\r' → b.head? ≠ some '\n' := by
      intro ha
      refine h ?_
      rw [List.getLast?_cons, List.getLast?_cons, ha]
      rfl
    rw [List.cons_append, List.cons_append, unifyNewlines_pair, ih hlast, List.cons_append]
  | case2 c a hc ih =>
    have hlast : a.getLast? = some '\r' → b.head? ≠ some '\n' := by
      intro ha
      refine h ?_
      rw [List.getLast?_cons, ha]
      rfl
    rw [List.cons_append, unifyNewlines_cons, ih hlast, List.cons_append]
    rintro rfl
    cases a with
    | nil => exact h rfl
    | cons d a =>
      intro e
      obtain rfl : d = '\n' := by simpa using e
      exact hc a rfl rfl
  | case3 => rfl

theorem unifyNewlines_line {a : Text} (h : '\n' ∉ a) (b : Text) :
    unifyNewlines (a ++ '\r' :: '\n' :: b) = a ++ '\n' :: unifyNewlines b := by
  induction a with
  | nil => rfl
  | cons c a ih =>
    rw [List.mem_cons, not_or] at h
    rw [List.cons_append, unifyNewlines_cons, ih h.2, List.cons_append]
    rintro - e
    cases a with
    | nil => cases e
    | cons d a => exact h.2 (by simp_all)

theorem unifyNewlines_of_newline_notMem {s : Text} (h : '\n' ∉ s) : unifyNewlines s = s := by
  fun_induction unifyNewlines s with
  | case1 s ih => simp at h
  | case2 c s _ ih => rw [ih fun hm => h (List.mem_cons_of_mem _ hm)]
  | case3 => rfl

theorem head?_unifyNewlines {c : Char} (hr : c ≠ '\r') (hn : c ≠ '\n') (s : Text) :
    (unifyNewlines s).head? = some c ↔ s.head? = some c := by
  fun_cases unifyNewlines s with
  | case1 s => simp [Ne.symm hr, Ne.symm hn]
  | case2 d s => simp
  | case3 => simp

theorem mem_unifyNewlines {c : Char} {s : Text} (h : c ∈ unifyNewlines s) : c ∈ s := by
  fun_induction unifyNewlines s with
  | case1 s ih =>
    rcases List.mem_cons.mp h with rfl | h
    · simp
    · simp [ih h]
  | case2 d s _ ih =>
    rcases List.mem_cons.mp h with rfl | h
    · simp
    · simp [ih h]
  | case3 => cases h

theorem unifyNewlines_ne_nil {s : Text} (h : s ≠ []) : unifyNewlines s ≠ [] := by
  fun_cases unifyNewlines s with
  | case1 s => exact List.cons_ne_nil _ _
  | case2 c s => exact List.cons_ne_nil _ _
  | case3 => exact absurd rfl h

theorem unifyNewlines_cases (c : Char) (s : Text) :
    (∃ r, c = '\r' ∧ s = '\n' :: r ∧ unifyNewlines (c :: s) = unifyNewlines s) ∨
      (c = '\r' → s.head? ≠ some '\n') ∧ unifyNewlines (c :: s) = c :: unifyNewlines s := by
  by_cases h : c = '\r' ∧ s.head? = some '\n'
  · obtain ⟨rfl, hs⟩ := h
    cases s with
    | nil => cases hs
    | cons d s =>
      obtain rfl : d = '\n' := by simpa using hs
      exact Or.inl ⟨s, rfl, rfl, by rw [unifyNewlines_pair, unifyNewlines_cons_ne (by decide)]⟩
  · have h : c = '\r' → s.head? ≠ some '\n' := fun e hs => h ⟨e, hs⟩
    exact Or.inr ⟨h, unifyNewlines_cons h⟩

/-! ## Inside of tokens -/

section
variable {q : Char} (hr : q ≠ '\r') (hn : q ≠ '\n')
include hr hn

theorem exists_unifyNewlines_cons_ne {d : Char} (h : d ≠ q) (s : Text) :
    ∃ e r, unifyNewlines (d :: s) = e :: r ∧ e ≠ q := by
  obtain ⟨e, r, hr'⟩ := List.exists_cons_of_ne_nil (unifyNewlines_ne_nil (List.cons_ne_nil d s))
  refine ⟨e, r, hr', ?_⟩
  rintro rfl
  have := (head?_unifyNewlines hr hn (d :: s)).mp (by rw [hr']; rfl)
  exact h (Option.some.inj this)

theorem takeQuoted_unifyNewlines (b : Text) :
    takeQuoted q (unifyNewlines b) = (takeQuoted q b).map unifyNewlines unifyNewlines := by
  have head : ∀ (d : Char) (s : Text), ∃ x, (takeQuoted q (d :: s)).1 = d :: x := by
    intro d s
    cases s with
    | nil => exact ⟨[], rfl⟩
    | cons e s =>
      rw [takeQuoted]
      repeat' split
      all_goals exact ⟨_, rfl⟩
  fun_induction takeQuoted q b with
  | case1 => rfl
  | case2 c => rw [unifyNewlines_singleton, takeQuoted, Prod.map_apply, unifyNewlines_singleton, unifyNewlines]
  | case3 c d s hc ih =>
    obtain ⟨x, hx⟩ := head d s
    rcases unifyNewlines_cases c (d :: s) with ⟨r, rfl, e, hu⟩ | ⟨hpair, hu⟩
    · obtain ⟨rfl, rfl⟩ := List.cons.inj e
      rw [hu, ih, Prod.map_map]
      refine Prod.ext ?_ rfl
      simp [hx, unifyNewlines_pair, unifyNewlines_cons_ne (show '\n' ≠ '\r' by decide)]
    · obtain ⟨e, r, hr'⟩ := List.exists_cons_of_ne_nil (unifyNewlines_ne_nil (List.cons_ne_nil d s))
      rw [hu, hr', takeQuoted, if_pos hc, ← hr', ih, Prod.map_map, Prod.map_map]
      refine Prod.ext ?_ rfl
      simp only [Prod.map_fst, Function.comp_apply, hx]
      exact (unifyNewlines_cons (s := d :: x) hpair).symm
  | case4 c s hc ih =>
    obtain rfl := Decidable.not_not.mp hc
    rw [unifyNewlines_cons_ne hr, unifyNewlines_cons_ne hr, takeQuoted, if_neg hc, if_pos rfl,
      ih, Prod.map_map, Prod.map_map]
    refine Prod.ext ?_ rfl
    simp only [Prod.map_fst, Function.comp_apply]
    rw [unifyNewlines_cons_ne hr, unifyNewlines_cons_ne hr]
  | case5 c d s hc hd =>
    obtain rfl := Decidable.not_not.mp hc
    obtain ⟨e, r, hr', he⟩ := exists_unifyNewlines_cons_ne hr hn hd s
    rw [unifyNewlines_cons_ne hr, hr', takeQuoted, if_neg hc, if_neg he, ← hr',
      Prod.map_apply, unifyNewlines_singleton]

theorem closesAtEnd_unifyNewlines (b : Text) : Token.closesAtEnd q (unifyNewlines b) = Token.closesAtEnd q b := by
  fun_induction Token.closesAtEnd q b with
  | case1 => rfl
  | case2 c => rw [unifyNewlines_singleton, Token.closesAtEnd]
  | case3 c d s hc ih =>
    rcases unifyNewlines_cases c (d :: s) with ⟨r, -, -, hu⟩ | ⟨-, hu⟩
    · rw [hu, ih]
    · obtain ⟨e, r, hr'⟩ := List.exists_cons_of_ne_nil (unifyNewlines_ne_nil (List.cons_ne_nil d s))
      rw [hu, hr', Token.closesAtEnd, if_pos hc, ← hr', ih]
  | case4 c s hc ih =>
    obtain rfl := Decidable.not_not.mp hc
    rw [unifyNewlines_cons_ne hr, unifyNewlines_cons_ne hr, Token.closesAtEnd, if_neg hc,
      if_pos rfl, ih]
  | case5 c d s hc hd =>
    obtain rfl := Decidable.not_not.mp hc
    obtain ⟨e, r, hr', he⟩ := exists_unifyNewlines_cons_ne hr hn hd s
    rw [unifyNewlines_cons_ne hr, hr', Token.closesAtEnd, if_neg hc, if_neg he]

end

theorem takeComment_unifyNewlines (b : Text) :
    takeComment (unifyNewlines b) = (takeComment b).map unifyNewlines unifyNewlines := by
  have take : ∀ (c : Char) (s : Text), (c = '*' → s.head? ≠ some '/') →
      takeComment (c :: s) = (takeComment s).map (c :: ·) id := by
    intro c s h
    rw [takeComment]
    rintro s' rfl rfl
    exact h rfl rfl
  have head : ∀ (s : Text), (takeComment s).1.head? = some '\n' → s.head? = some '\n' := by
    intro s h
    have := takeComment_append s
    cases e : (takeComment s).1 with
    | nil => simp [e] at h
    | cons c r =>
      rw [e] at h this
      rw [← this]
      exact h
  fun_induction takeComment b with
  | case1 => rfl
  | case2 s => rw [unifyNewlines_cons_ne (by decide), unifyNewlines_cons_ne (by decide), takeComment]; rfl
  | case3 c s hne ih =>
    have hmark : c = '*' → s.head? ≠ some '/' := by
      rintro rfl hs
      cases s with
      | nil => cases hs
      | cons d s => exact hne s rfl (by simpa using hs)
    rcases unifyNewlines_cases c s with ⟨r, rfl, rfl, hu⟩ | ⟨hpair, hu⟩
    · rw [hu, ih, take '\n' r (fun h => absurd h (by decide)), Prod.map_map, Prod.map_map, Prod.map_map]
      refine Prod.ext ?_ rfl
      simp [unifyNewlines_pair, unifyNewlines_cons_ne (show '\n' ≠ '\r' by decide)]
    · rw [hu, take, ih, Prod.map_map, Prod.map_map]
      · refine Prod.ext ?_ rfl
        simp only [Prod.map_fst, Function.comp_apply]
        exact (unifyNewlines_cons fun h e => hpair h (head s e)).symm
      · exact fun h => mt (head?_unifyNewlines (by decide) (by decide) s).mp (hmark h)

theorem suffix_unifyNewlines (b : Text) : ['*', '/'] <:+ unifyNewlines b ↔ ['*', '/'] <:+ b := by
  constructor
  · intro h
    induction b with
    | nil => exact h
    | cons c s ih =>
      rcases unifyNewlines_cases c s with ⟨r, -, -, hu⟩ | ⟨-, hu⟩
      · rw [hu] at h
        exact (ih h).trans (List.suffix_cons c s)
      rw [hu] at h
      rcases List.suffix_cons_iff.mp h with e | h
      · -- the mark is all there is
        obtain ⟨rfl, hend⟩ := List.cons.inj e
        have hs : s = ['/'] := by
          cases s with
          | nil => cases hend
          | cons d s =>
            rcases unifyNewlines_cases d s with ⟨r, -, rfl, hd⟩ | ⟨-, hd⟩
            · rw [hd, unifyNewlines_cons_ne (by decide)] at hend
              cases hend
            · rw [hd] at hend
              obtain ⟨rfl, hnil⟩ := List.cons.inj hend
              by_cases hs : s = []
              · rw [hs]
              · exact absurd hnil.symm (unifyNewlines_ne_nil hs)
        rw [hs]
      · exact (ih h).trans (List.suffix_cons c s)
  · rintro ⟨r, rfl⟩
    rw [unifyNewlines_append_of_ends (by simp)]
    exact ⟨unifyNewlines r, rfl⟩

/-! ## Tokens -/

namespace Token

/-- The token with unified newlines inside of it. A line comment has none. -/
def unify : Token → Token
  | stringLiteral s => stringLiteral (unifyNewlines s)
  | quotedIdentifier s => quotedIdentifier (unifyNewlines s)
  | blockComment s => blockComment (unifyNewlines s)
  | whitespace s => whitespace (unifyNewlines s)
  | t => t

@[simp] theorem isSpace_unify (t : Token) : t.unify.isSpace = t.isSpace := by cases t <;> rfl

theorem Stops.unifyNewlines {t : Token} {s : Text} (h : t.Stops s) (hu : t.isUnterminated = false)
    (hs : t.isSpace = false) : t.Stops (unifyNewlines s) := by
  cases s with
  | nil => exact t.stops_nil
  | cons c s =>
    rcases unifyNewlines_cases c s with ⟨r, rfl, rfl, e⟩ | ⟨-, e⟩
    · rw [e, unifyNewlines_cons_ne (by decide)]
      exact Token.stops_cons (by decide) hu (by simp [hs]) (fun _ => rfl) _
    rw [e]
    cases t with
    | number w =>
      refine ⟨h.1, h.2.imp_right fun hf => ?_⟩
      by_cases hc : c = '.'
      · subst hc
        cases s with
        | nil => exact hf
        | cons d s =>
          rcases unifyNewlines_cases d s with ⟨r, rfl, rfl, e⟩ | ⟨-, e⟩
          · rw [e, unifyNewlines_cons_ne (by decide)]
            simp [startsFraction, show Char.isDigit '\n' = false by decide]
          · rwa [e]
      · simp [startsFraction, hc]
    | operator w =>
      rcases w with - | ⟨o, - | ⟨o', w⟩⟩
      · trivial
      · exact h
      · trivial
    | stringLiteral w => exact ⟨fun h' => absurd h' (by simp [hu]), h.2⟩
    | quotedIdentifier w => exact ⟨fun h' => absurd h' (by simp [hu]), h.2⟩
    | blockComment w => exact fun h' => absurd h' (by simp [hu])
    | _ => exact h

def isMarked : Token → Bool
  | stringLiteral _ | quotedIdentifier _ | blockComment _ => true
  | _ => false

variable {t : Token}

theorem text_unify (h : t.isMarked) : t.unify.text = unifyNewlines t.text := by
  cases t <;> first | rfl | cases h

theorem Formed.unify (hf : t.Formed) (h : t.isMarked) :
    t.unify.Formed ∧ t.unify.isUnterminated = t.isUnterminated := by
  have quoted : ∀ {q : Char} {b : Text}, q ≠ '\r' → q ≠ '\n' → takeQuoted q b = (b, []) →
      takeQuoted q (unifyNewlines b) = (unifyNewlines b, []) := by
    intro q b hr hn hb
    rw [takeQuoted_unifyNewlines hr hn, hb]
    rfl
  cases t with
  | stringLiteral w =>
    obtain ⟨b, rfl, hb⟩ := hf
    have e : unifyNewlines ('\'' :: b) = '\'' :: unifyNewlines b := unifyNewlines_cons_ne (by decide) b
    refine ⟨⟨unifyNewlines b, e, quoted (by decide) (by decide) hb⟩, ?_⟩
    rw [Token.unify, e]
    simp [isUnterminated, isEnclosed, closesAtEnd_unifyNewlines]
  | quotedIdentifier w =>
    obtain ⟨b, ⟨rfl, hb⟩ | ⟨rfl, hb⟩⟩ := hf
    · have e : unifyNewlines ('"' :: b) = '"' :: unifyNewlines b := unifyNewlines_cons_ne (by decide) b
      refine ⟨⟨unifyNewlines b, Or.inl ⟨e, quoted (by decide) (by decide) hb⟩⟩, ?_⟩
      rw [Token.unify, e]
      simp [isUnterminated, isEnclosed, closesAtEnd_unifyNewlines]
    · have e : unifyNewlines ('[' :: b) = '[' :: unifyNewlines b := unifyNewlines_cons_ne (by decide) b
      refine ⟨⟨unifyNewlines b, Or.inr ⟨e, quoted (by decide) (by decide) hb⟩⟩, ?_⟩
      rw [Token.unify, e]
      simp [isUnterminated, isEnclosed, closesAtEnd_unifyNewlines]
  | blockComment w =>
    obtain ⟨b, rfl, hb⟩ := hf
    have e : unifyNewlines ('/' :: '*' :: b) = '/' :: '*' :: unifyNewlines b := by
      rw [unifyNewlines_cons_ne (by decide), unifyNewlines_cons_ne (by decide)]
    refine ⟨⟨unifyNewlines b, e, ?_⟩, ?_⟩
    · rw [takeComment_unifyNewlines, hb]
      rfl
    · rw [Token.unify, e, Bool.eq_iff_iff, isUnterminated_blockComment, isUnterminated_blockComment, suffix_unifyNewlines]
  | _ => cases h

theorem Stops.unify {s : Text} (h : t.Stops s) (ht : t.isMarked) (hu : t.unify.isUnterminated = false) : t.unify.Stops s := by
  have closed : ∀ {p : Prop}, t.unify.isUnterminated → p := by
    intro p h
    rw [hu] at h
    cases h
  cases t with
  | stringLiteral w => exact ⟨closed, h.2⟩
  | quotedIdentifier w =>
    refine ⟨closed, ?_⟩
    simpa only [head?_unifyNewlines (show '[' ≠ '\r' by decide) (show '[' ≠ '\n' by decide)] using h.2
  | blockComment w => exact closed
  | _ => cases ht

theorem Formed.getLast_ne (hf : t.Formed) (ht : t.isMarked) (hu : t.isUnterminated = false) : t.text.getLast? ≠ some '\r' := by
  intro h
  have hs : t.isSpace = false := by cases t <;> first | rfl | cases ht
  have hl : t.isLineComment = false := by cases t <;> first | rfl | cases ht
  have hw : ∀ w, t ≠ .word w := by
    rintro w rfl
    cases ht
  rcases Token.trimEnd_text hf hu hs hl with e | ⟨-, e | ⟨w, e⟩⟩
  · have := getLast_trimEnd t.text
    rw [e, h] at this
    cases this
  · rcases hf.cases_of_blank (trimEnd_eq_nil.mp e) with h | ⟨w, rfl⟩ | ⟨w, rfl⟩
    · rw [hs] at h
      cases h
    · cases ht
    · cases ht
  · exact hw w e

theorem Formed.noSpace (hf : t.Formed) (hs : t.isSpace = false) (hl : t.isLineComment = false) (hm : t.isMarked = false) :
    ∀ c ∈ t.text, isSpaceChar c = false := by
  have digit : ∀ {c : Char}, c.isDigit → isSpaceChar c = false := fun h => isSpaceChar_of_isWordChar (by simp [isWordChar, h])
  intro c hc
  cases t with
  | word w => exact isSpaceChar_of_isWordChar (List.all_eq_true.mp (word_chars hf) c hc)
  | number w =>
    obtain ⟨ds, hds, ⟨rfl, -⟩ | ⟨d, fs, rfl, hd, hfs⟩⟩ := hf
    · exact digit (List.all_eq_true.mp hds c hc)
    · rw [text, List.mem_append, List.mem_cons, List.mem_cons] at hc
      rcases hc with hc | rfl | rfl | hc
      · exact digit (List.all_eq_true.mp hds c hc)
      · decide
      · exact digit hd
      · exact digit (List.all_eq_true.mp hfs c hc)
  | operator w =>
    obtain ⟨o, ho, hw⟩ := hf
    have ho := (isOperatorChar_iff.mp ho).1
    rw [Bool.not_eq_true] at ho
    rcases hw with rfl | ⟨d, rfl, hp⟩
    · obtain rfl := List.mem_singleton.mp hc
      exact ho
    · rcases List.mem_cons.mp hc with rfl | hc
      · exact ho
      · obtain rfl := List.mem_singleton.mp hc
        by_contra hd
        have := isBlank_of_isSpaceChar (by simpa using hd)
        rw [(isBlank_of_pair hp).2] at this
        cases this
  | whitespace w => cases hs
  | lineComment w => cases hl
  | stringLiteral w => cases hm
  | quotedIdentifier w => cases hm
  | blockComment w => cases hm
  | _ =>
    obtain rfl := List.mem_singleton.mp hc
    decide

end Token

/-- The tokens of a text with unified newlines, for those of the text. -/
theorem exists_unified {ts : List Token} (h : Lexed ts) :
    ∃ us, Legible us ∧ spell us = unifyNewlines (spell ts) ∧ plains us = (plains ts).map Token.unify := by
  induction ts with
  | nil => exact ⟨[], trivial, rfl, rfl⟩
  | cons t ts ih =>
    obtain ⟨hf, hstop, hts⟩ := h
    obtain ⟨us, hl, hspell, hplain⟩ := ih hts
    -- `u` for `t`, with what stands behind it
    have front : ∀ u : Token, u.Formed → u.text ++ unifyNewlines (spell ts) = unifyNewlines (t.text ++ spell ts) →
        (u.isSpace ∨ u.Stops (unifyNewlines (spell ts))) → u.isSpace = t.isSpace → u.plain = t.plain.unify →
        ∃ us, Legible us ∧ spell us = unifyNewlines (spell (t :: ts)) ∧ plains us = (plains (t :: ts)).map Token.unify := by
      intro u hu htext hstop hs hp
      refine ⟨u :: us, ⟨hu, by rwa [hspell], hl⟩, by rw [spell_cons, hspell, htext, spell_cons], ?_⟩
      rw [plains_cons, plains_cons, hs, hplain, hp]
      split <;> rfl
    by_cases hs : t.isSpace
    · obtain ⟨w, rfl⟩ := Token.eq_whitespace hs
      have hspace : (unifyNewlines w).all isSpaceChar :=
        List.all_eq_true.mpr fun c hc => List.all_eq_true.mp hf.2 c (mem_unifyNewlines hc)
      refine front (.whitespace (unifyNewlines w)) ⟨unifyNewlines_ne_nil hf.1, hspace⟩ ?_ (Or.inl rfl) rfl rfl
      refine (unifyNewlines_append_of_ends fun _ h => ?_).symm
      have : !(spell ts).head?.any isSpaceChar := hstop
      simp [h, isSpaceChar] at this
    by_cases hm : t.isMarked
    · obtain ⟨hfu, hu⟩ := hf.unify hm
      refine front t.unify hfu ?_ (Or.inr ?_) t.isSpace_unify ?_
      · rw [Token.text_unify hm]
        cases ho : t.isUnterminated with
        | true => simp [hstop.eq_nil ho, unifyNewlines]
        | false => exact (unifyNewlines_append_of_ends fun h => absurd h (hf.getLast_ne hm ho)).symm
      · cases ho : t.isUnterminated with
        | true => simpa [hstop.eq_nil ho, unifyNewlines] using Token.stops_nil _
        | false => exact (hstop.unifyNewlines ho (by simpa using hs)).unify hm (hu.trans ho)
      · cases t <;> rfl
    by_cases hc : t.isLineComment
    · obtain ⟨c, rfl⟩ := Token.eq_lineComment hc
      have hn := newline_notMem_lineComment hf
      by_cases hpair : c.getLast? = some '\r' ∧ (spell ts).head? = some '\n'
      · -- the comment loses its last character
        obtain ⟨hr, hh⟩ := hpair
        obtain ⟨r, hr'⟩ : ∃ r, spell ts = '\n' :: r := by
          cases e : spell ts with
          | nil => simp [e] at hh
          | cons d r => exact ⟨r, by simpa [e] using hh⟩
        obtain ⟨b, rfl, hb⟩ := hf
        obtain ⟨b', rfl⟩ : ∃ b', b = b' ++ ['\r'] := by
          rcases List.eq_nil_or_concat b with rfl | ⟨b', d, rfl⟩
          · simp at hr
          · refine ⟨b', ?_⟩
            simpa [List.getLast?_cons] using hr
        have hb' : b'.all (· ≠ '\n') := by
          rw [List.all_append, Bool.and_eq_true] at hb
          exact hb.1
        have hn' : '\n' ∉ '-' :: '-' :: b' := newline_notMem_lineComment ⟨b', rfl, hb'⟩
        refine front (.lineComment ('-' :: '-' :: b')) ⟨b', rfl, hb'⟩ ?_ (Or.inr ?_) rfl ?_
        · have e := unifyNewlines_line hn' r
          rw [hr', unifyNewlines_cons_ne (by decide)]
          simpa [Token.text] using e.symm
        · rw [hr', unifyNewlines_cons_ne (by decide)]
          rfl
        · have e := trimEnd_append_blank (w := ['\r']) rfl ('-' :: '-' :: b')
          simp only [Token.plain, Token.unify]
          rw [← e]
          rfl
      · refine front (.lineComment c) hf ?_ (Or.inr (hstop.unifyNewlines rfl rfl)) rfl rfl
        rw [Token.text, unifyNewlines_append_of_ends fun h e => hpair ⟨h, e⟩, unifyNewlines_of_newline_notMem hn]
    · have hspace := hf.noSpace (by simpa using hs) (by simpa using hc) (by simpa using hm)
      have hn : '\n' ∉ t.text := fun h => absurd (hspace _ h) (by decide)
      have hu : t.isUnterminated = false := by cases t <;> first | rfl | exact absurd rfl hm
      have hlast : t.text.getLast? ≠ some '\r' := fun h => absurd (hspace _ (List.mem_of_getLast? h)) (by decide)
      refine front t hf ?_ (Or.inr (hstop.unifyNewlines hu (by simpa using hs))) rfl ?_
      · rw [unifyNewlines_append_of_ends fun h => absurd h hlast, unifyNewlines_of_newline_notMem hn]
      · cases t <;> first | rfl | exact absurd rfl hm | exact absurd rfl hs

theorem plainsOf_unifyNewlines (s : Text) : plainsOf (unifyNewlines s) = (plainsOf s).map Token.unify := by
  obtain ⟨us, hl, hspell, hplain⟩ := exists_unified (lexed_tokenize s)
  rw [spell_tokenize] at hspell
  rw [← hspell, hl.plainsOf_spell, hplain]
  rfl

end SqlLayout
