import SqlLayout.Proofs.Segments

/-!
# What no block holds

Only blank lines are left out of the blocks. Blank is meant as trimming
means it, so a line with a word of hard blanks on it is left out as well.
That is the one way for code to get lost (`segment_sheds_code`).
-/

namespace SqlLayout

theorem filter_isCode_solidsIn (bs : List Block) :
    (solidsIn bs).filter Token.isCode = bs.flatMap fun b => (tokenize b.content).filter Token.isCode := by
  rw [solidsIn, List.filter_flatMap]
  exact congrArg (bs.flatMap ·) (funext fun b => filter_isCode_solids (tokenize b.content))

theorem Sheds.filter {us vs : List Token} (h : Sheds us vs) (p : Token → Bool) : Sheds (us.filter p) (vs.filter p) where
  sublist := h.sublist.filter p
  inks := by
    have comm : ∀ ts : List Token, SqlLayout.inks (ts.filter p) = (SqlLayout.inks ts).filter p := fun ts =>
      List.filter_comm ..
    rw [comm, comm, h.inks]

/-- The newline that a block may lack is part of a comment. -/
theorem Ends.filter_isCode {s : Text} {init : List Block} {b : Block} (h : Ends s init b) :
    (solidsOf (finished s b.content)).filter Token.isCode = (solidsOf b.content).filter Token.isCode := by
  by_cases hfin : finished s b.content = b.content
  · rw [hfin]
  have hs : finished s b.content = b.content ++ ['\n'] := by
    unfold finished at hfin ⊢
    split at hfin
    · next h => rw [if_pos h]
    · exact absurd rfl hfin
  obtain ⟨c, hc⟩ := h.comment hfin
  obtain ⟨ts, t, e, hu⟩ := exists_last_of_not_closed h.notClosed
  have hsolids : solidsOf b.content = solids ts ++ [t] := by
    rw [solidsOf, e, solids_append, solids_cons, isSpace_of_isUnterminated hu]
    rfl
  obtain rfl : t = .blockComment c := by
    rw [hsolids, List.getLast?_concat] at hc
    exact Option.some.inj hc
  obtain ⟨t', hf, ht, hspace, hcomment, -⟩ := (formed_of_mem (t := .blockComment c) (s := b.content) (by simp [e])).extend hu
  have hcode : t'.isCode = false := isCode_of_isComment hcomment
  have hcode' : (Token.blockComment c).isCode = false := rfl
  have hone : solids [t'] = [t'] := by simp [solids_cons, hspace]
  rw [hs, solidsOf_newline_of_last e hf ht hu, hsolids, solids_append, hone, List.filter_append, List.filter_append,
    List.filter_cons_of_neg (by simp [hcode]), List.filter_cons_of_neg (by simp [hcode'])]

/-- The code of the blocks, each read on its own, is the code of the script in
order, but for words and operators of nothing but blanks. -/
theorem segment_sheds_code (script : Text) :
    Sheds ((tokenize (unifyNewlines script)).filter Token.isCode)
      ((segment script).flatMap fun b => (tokenize b.content).filter Token.isCode) := by
  rw [← filter_isCode_solids, ← solidsOf, ← filter_isCode_solidsIn]
  rcases cut_segment script with h | ⟨init, b, e, h⟩
  · exact h.reads.filter Token.isCode
  · have hr := h.reads.filter Token.isCode
    rw [List.filter_append, h.filter_isCode, ← List.filter_append] at hr
    rw [e, solidsIn_append]
    simpa [solidsIn] using hr

/-- The no-break space on the second line is a word to the lexer, and blank to
the draft. -/
theorem segment_drops_blank_word :
    ((segment "select 1\n\u00a0".toList).flatMap fun b => (tokenize b.content).filter Token.isCode) =
        [.word "select".toList, .number ['1']] ∧
      (tokenize (unifyNewlines "select 1\n\u00a0".toList)).filter Token.isCode ≠
        (segment "select 1\n\u00a0".toList).flatMap fun b => (tokenize b.content).filter Token.isCode :=
  ⟨by decide +kernel, by decide +kernel⟩

end SqlLayout
