import SqlLayout.Proofs.Verdict

/-!
# Formatting again

A block that keeps its lines does not change when it is formatted again. Text
that is laid out may: a comment that gets a line of its own can belong to
something else when it is read again. This happens to a comment in front of a
SELECT, which becomes a block of its own, and to a comment that is all there
is in front of an OVER, which leaves the code of its item.
-/

namespace SqlLayout

/-- A block that is not laid out is the same when it is formatted again. -/
theorem Block.format_again_of_recased {o : Options} {b : Block} {out : Text} (hs : b.kind ≠ .select)
    (hw : b.kind ≠ .withStatement) (h : b.format o = .ok out) : (Block.mk b.kind out).format o = .ok out := by
  cases hk : b.kind with
  | select => exact absurd hk hs
  | withStatement => exact absurd hk hw
  | comment | commentGroup => rfl
  | _ =>
    simp only [format, hk, Except.ok.injEq] at h
    simp only [format, ← h, recase_recase]

set_option maxRecDepth 100000 in
/-- The comment is part of the SELECT at first and stands alone afterwards, so
it gets two blank lines. -/
theorem format_again_parts_comment :
    format {} "/* c */ select 1".toList = "/* c */\nSELECT 1".toList ∧
      format {} (format {} "/* c */ select 1".toList) = "/* c */\n\n\nSELECT 1".toList ∧
      format {} (format {} "/* c */ select 1".toList) ≠ format {} "/* c */ select 1".toList := by
  have h : format {} "/* c */ select 1".toList = "/* c */\nSELECT 1".toList := by decide +kernel
  have h' : format {} "/* c */\nSELECT 1".toList = "/* c */\n\n\nSELECT 1".toList := by decide +kernel
  rw [h, h']
  exact ⟨rfl, rfl, by decide +kernel⟩

/-! ## Comments in front of a line break -/

/-- Space, or a comment behind which its line can go on. -/
def Token.IsAside (t : Token) : Prop :=
  t.isSpace ∨ ∃ c, t = .blockComment c ∧ (blockComment c).isUnterminated = false

/-- No line comment, and no comment without its end, has something behind it
on its line. -/
theorem Lexed.isAside {front rest : List Token} {t u : Token} (hl : Lexed (front ++ t :: rest))
    (hn : '\n' ∉ spell (front ++ t :: rest)) (hu : u ∈ front) (hc : u.isTrivia) : u.Formed ∧ u.IsAside := by
  obtain ⟨a, b, rfl⟩ := List.append_of_mem hu
  rw [List.append_assoc, List.cons_append] at hl hn
  obtain ⟨-, hf, hs, hl⟩ := hl.of_append
  refine ⟨hf, ?_⟩
  have hne : spell (b ++ t :: rest) ≠ [] := by
    simp [hl.of_append.2.1.text_ne_nil]
  cases u with
  | lineComment c =>
    obtain ⟨d, r, e⟩ := List.exists_cons_of_ne_nil hne
    obtain rfl : d = '\n' := by simpa [Token.Stops, e] using hs
    simp [e] at hn
  | blockComment c => exact Or.inr ⟨c, rfl, Bool.eq_false_iff.mpr fun h => hne (hs h)⟩
  | whitespace w => exact Or.inl rfl
  | _ => cases hc

theorem tokenize_asides_append {cs : List Token} (hl : Lexed cs) (hc : ∀ t ∈ cs, t.IsAside)
    (he : ∀ t ∈ cs.getLast?, t.isSpace = false) (s : Text) :
    tokenize (spell cs ++ '\n' :: s) = cs ++ tokenize ('\n' :: s) := by
  induction cs with
  | nil => rfl
  | cons t cs ih =>
    obtain ⟨hf, hs, ht⟩ := hl
    have he' : ∀ u ∈ cs.getLast?, u.isSpace = false := fun u hm => he u (by
      rw [List.getLast?_cons]; simp_all)
    rw [spell_cons, List.append_assoc, tokenize_text_append hf,
      ih ht (fun u h => hc u (by simp [h])) he', List.cons_append]
    obtain hsp | ⟨c, rfl, hu⟩ := hc t (by simp)
    · obtain ⟨w, rfl⟩ := Token.eq_whitespace hsp
      cases cs with
      | nil => cases he _ rfl
      | cons u us =>
        obtain ⟨d, r, e⟩ := List.exists_cons_of_ne_nil ht.1.text_ne_nil
        simpa [Token.Stops, e] using hs
    · exact fun h => absurd h (by simp [hu])

theorem tokenize_newline_word {n : Nat} {k : Text} (hk : (Token.word k).Formed) (r : Text) :
    tokenize ('\n' :: (pad n ++ (k ++ ' ' :: r))) =
      .whitespace ('\n' :: pad n) :: .word k :: tokenize (' ' :: r) := by
  have hw : (Token.whitespace ('\n' :: pad n)).Formed := ⟨List.cons_ne_nil _ _, by simp [isSpaceChar, pad]⟩
  obtain ⟨c, s, rfl, hc, -⟩ := id hk
  have e := tokenize_text_append (s := c :: s ++ ' ' :: r) hw (by
    simpa [Token.Stops] using (startsWord_ne hc).1)
  have e' := tokenize_text_append (s := ' ' :: r) hk (by simp [Token.Stops, isWordChar, startsWord])
  rw [show tokenize (c :: s ++ ' ' :: r) = _ from e'] at e
  simpa [Token.text] using e

theorem exists_trim_asides {front : List Token} (h : ∀ t ∈ front, t.Formed ∧ t.IsAside) :
    ∃ cs, cs <:+: front ∧ trim (spell front) = spell cs ∧ trim (spell cs) = spell cs ∧
      ∀ t ∈ cs.getLast?, t.isSpace = false := by
  have e := List.takeWhile_append_dropWhile (p := Token.isSpace) (l := front)
  have e' := dropEndWhile_append_takeEndWhile Token.isSpace (front.dropWhile Token.isSpace)
  generalize hcs : dropEndWhile Token.isSpace (front.dropWhile Token.isSpace) = cs at e'
  rw [← e', ← List.append_assoc] at e
  have hsub : cs ⊆ front := by rw [← e]; simp
  have hcomment : ∀ t ∈ cs, t.isSpace = false → (∃ r, t.text = '/' :: r) ∧ t.text.getLast? = some '/' := by
    intro t ht hs
    obtain ⟨hf, hsp | ⟨c, rfl, hu⟩⟩ := h t (hsub ht)
    · simp [hs] at hsp
    · obtain ⟨b, rfl, -⟩ := id hf
      exact ⟨⟨_, rfl⟩, closed_blockComment hf hu⟩
  have hhead : ∀ t ∈ cs.head?, t.isSpace = false := by
    intro t ht
    have := List.head?_dropWhile_not Token.isSpace front
    rw [← e', List.head?_append, Option.mem_def.mp ht] at this
    simpa using this
  have hlast : ∀ t ∈ cs.getLast?, t.isSpace = false := by
    intro t ht
    obtain ⟨hne, rfl⟩ := List.mem_getLast?_eq_getLast ht
    subst hcs
    have : ¬Token.isSpace _ := List.rdropWhile_last_not Token.isSpace (front.dropWhile Token.isSpace) hne
    exact Bool.eq_false_iff.mpr this
  -- a comment starts and ends in a slash
  have hself : trim (spell cs) = spell cs := by
    have hslash : isBlank '/' = false := by decide
    refine trim_of_ends ?_ ?_
    · cases cs with
      | nil => rfl
      | cons t ts =>
        obtain ⟨⟨r, hr⟩, -⟩ := hcomment t (by simp) (hhead t rfl)
        simp [hr, hslash]
    · rcases List.eq_nil_or_concat cs with rfl | ⟨ts, t, rfl⟩
      · rfl
      · obtain ⟨-, hl⟩ := hcomment t (by simp) (hlast t (by simp))
        simp [List.getLast?_append, hl, hslash]
  have hblank : ∀ ts ⊆ front, (∀ t ∈ ts, t.isSpace) → (spell ts).all isBlank := fun ts hts hsp =>
    List.all_eq_true.mpr fun c hc =>
      isBlank_of_isSpaceChar (List.all_eq_true.mp (spell_space (fun t ht => (h t (hts ht)).1) hsp) c hc)
  refine ⟨cs, ⟨_, _, e⟩, Eq.trans ?_ hself, hself, hlast⟩
  rw [← e, spell_append, spell_append]
  refine trim_blank_append (hblank _ ?_ fun _ => List.mem_takeWhile_imp) (hblank _ ?_ fun t ht => ?_) _
  · exact List.takeWhile_subset _
  · exact fun t ht => by rw [← e]; simp [ht]
  · exact List.mem_takeWhile_imp (List.mem_reverse.mp ht)

/-! ## Items that are read again -/

/-- What stands in front of the first line break and holds no code leads the
item. -/
theorem Item.leading_ofTokens {cs rest : List Token} {t : Token} {w : Text}
    (hc : ∀ t ∈ cs, t.isTrivia ∧ t.isNewline = false) (hw : '\n' ∈ w) (ht : t.isTrivia = false)
    (h : trim (spell cs) ≠ []) :
    (ofTokens (cs ++ .whitespace w :: t :: rest)).leading = [trim (spell cs)] := by
  have hnl : (Token.whitespace w).isNewline := by simpa [Token.isNewline] using hw
  have htw : (Token.whitespace w).isTrivia := rfl
  have hfront : (cs ++ .whitespace w :: t :: rest).takeWhile Token.isTrivia = cs ++ [.whitespace w] := by
    rw [List.takeWhile_append_of_pos fun u hu => (hc u hu).1]
    simp [ht, htw]
  have hrest : (cs ++ .whitespace w :: t :: rest).dropWhile Token.isTrivia = t :: rest := by
    rw [List.dropWhile_append_of_pos fun u hu => (hc u hu).1]
    simp [ht, htw]
  have hdrop : dropEndWhile (fun t => !t.isNewline) (cs ++ [.whitespace w]) = cs ++ [.whitespace w] := by
    simp [dropEndWhile, hnl]
  have hsplit : (cs ++ [Token.whitespace w]).splitOnP Token.isNewline = [cs, []] := by
    rw [List.splitOnP_append_cons_of_forall_mem (fun u hu => (hc u hu).2) _ hnl]
    rfl
  simp [ofTokens, ofTokens?, hfront, hrest, hdrop, commentLines, hsplit, h, show trim [] = [] from rfl]

theorem Item.leading_read {code : Text} (hn : '\n' ∉ code) : (read code).leading = [] := by
  have hc : ∀ t ∈ tokenize code, t.isNewline = false := fun t ht =>
    isNewline_of_notMem fun h => hn (mem_of_mem_tokenize ht h)
  have hdrop : dropEndWhile (fun t => !t.isNewline) ((tokenize code).takeWhile Token.isTrivia) = [] := by
    simp only [dropEndWhile, List.reverse_eq_nil_iff, List.dropWhile_eq_nil_iff, List.mem_reverse]
    exact fun t ht => by simp [hc t (List.takeWhile_subset _ ht)]
  simp only [read, ofTokens, ofTokens?]
  split
  · split <;> rfl
  · simp [hdrop, commentLines, show trim [] = [] from rfl]

/-- Comments that are all there is in front of an OVER are part of the code
until the window is broken, and lead the item afterwards. -/
theorem reflowWindow_frees_comments {n : Nat} {code m : Text} {w : Window} (h : reflowWindow n code = some m)
    (hw : window? {} (tokenize code) = some w) (hn : '\n' ∉ code) (hc : ∀ t ∈ w.front, t.isTrivia) :
    (Item.read code).leading = [] ∧ (Item.read m).leading = [trim (spell w.front)] := by
  refine ⟨Item.leading_read hn, ?_⟩
  obtain ⟨hk, sp, -, e⟩ := window?_tokens hw
  obtain ⟨k, hkw⟩ := isWord_of_isKeyword hk
  have hl := lexed_tokenize code
  have hnl : '\n' ∉ spell (tokenize code) := by rwa [spell_tokenize]
  rw [e, hkw] at hl hnl
  have haside := fun t ht => hl.isAside hnl ht (hc t ht)
  obtain ⟨cs, hinfix, hspell, hself, hlast⟩ := exists_trim_asides haside
  have hlcs : Lexed cs := by
    obtain ⟨a, b, e⟩ := hinfix
    rw [← e] at hl
    exact hl.of_append.1.of_append.1.of_append.2
  obtain ⟨hblank, rfl⟩ : isBlankText (spell w.front) = false ∧ m = joinLines (w.lines n) := by
    simp only [reflowWindow, hw] at h
    split at h
    · cases h
    split at h
    · cases h
    · next hb =>
      simp only [Bool.or_eq_true, not_or, Bool.not_eq_true] at hb
      exact ⟨hb.1, (Option.some.inj h).symm⟩
  obtain ⟨r, hr⟩ : ∃ r, joinLines (w.lines n) = spell cs ++ '\n' :: (pad n ++ (k ++ ' ' :: r)) := by
    obtain ⟨r, hr⟩ := joinLines_cons (pad n ++ w.keyword.text ++ " (".toList) _
    refine ⟨'(' :: r, ?_⟩
    rw [← hspell, Window.lines, List.append_assoc, List.cons_append, List.cons_append, List.nil_append,
      joinLines_cons_cons, hr, hkw]
    simp [Token.text]
  have hk' : (Token.word k).Formed := hl.of_append.2.1
  have hsub := hinfix.subset
  rw [Item.read, hr, tokenize_asides_append hlcs (fun t ht => (haside t (hsub ht)).2) hlast,
    tokenize_newline_word hk', hspell, ← hself]
  refine Item.leading_ofTokens (fun t ht => ⟨hc t (hsub ht), ?_⟩) (by simp) rfl ?_
  · refine isNewline_of_notMem fun hm => hnl ?_
    rw [spell_append]
    exact List.mem_append_left _ (List.mem_flatMap.mpr ⟨t, hsub ht, hm⟩)
  · rw [hself, ← hspell]
    exact fun h => by simp [isBlankText, trim_eq_nil.mp h] at hblank

set_option maxRecDepth 100000 in
/-- The comment leaves the code of the first item, whose window is then left
on its line. -/
theorem format_again_moves_comment :
    (Block.mk .select "select /*c*/ over (partition by b) from t".toList).format {} =
        .ok "SELECT /*c*/\n           OVER (\n               PARTITION BY b\n           )\n      FROM t".toList ∧
      (Block.mk .select
          "SELECT /*c*/\n           OVER (\n               PARTITION BY b\n           )\n      FROM t".toList).format {} =
        .ok "SELECT\n       /*c*/\n       OVER ( PARTITION BY b )\n      FROM t".toList ∧
      "SELECT\n       /*c*/\n       OVER ( PARTITION BY b )\n      FROM t".toList ≠
        "SELECT /*c*/\n           OVER (\n               PARTITION BY b\n           )\n      FROM t".toList :=
  ⟨by decide +kernel, by decide +kernel, by decide +kernel⟩

end SqlLayout
