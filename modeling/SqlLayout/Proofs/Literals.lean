import SqlLayout.Proofs.Newlines
import SqlLayout.Proofs.Preserved

/-!
# Literals of a script

A string or a quoted identifier comes out of the formatter as it went in, but
for the ends of its lines: those are unified in the whole script, before
anything is read (`format_keeps_literals`).
-/

namespace SqlLayout

def Token.literal? : Token → Option Text
  | stringLiteral s | quotedIdentifier s => some s
  | _ => none

def literals (s : Text) : List Text := (tokenize s).filterMap Token.literal?

theorem literals_eq (s : Text) : literals s = (plainsOf s).filterMap Token.literal? := by
  rw [literals, plainsOf, plains, List.filterMap_map, solids, List.filterMap_filter]
  refine List.filterMap_congr fun t _ => ?_
  cases t <;> rfl

theorem literal?_unify (t : Token) : t.unify.literal? = t.literal?.map unifyNewlines := by cases t <;> rfl

theorem literals_unifyNewlines (s : Text) : literals (unifyNewlines s) = (literals s).map unifyNewlines := by
  rw [literals_eq, literals_eq, plainsOf_unifyNewlines, List.filterMap_map, List.map_filterMap]
  exact List.filterMap_congr fun t _ => literal?_unify t

theorem isInk_of_literal {t : Token} (hf : t.Formed) {w : Text} (h : t.literal? = some w) : t.isInk := by
  by_contra hb
  rcases hf.cases_of_blank (by simpa [Token.isInk, isBlankText] using hb) with hs | ⟨v, rfl⟩ | ⟨v, rfl⟩
  · obtain ⟨v, rfl⟩ := Token.eq_whitespace hs
    cases h
  · cases h
  · cases h

theorem literals_of_blank {s : Text} (h : isBlankText s) : literals s = [] := by
  rw [literals, List.filterMap_eq_nil_iff]
  intro t ht
  cases e : t.literal? with
  | none => rfl
  | some w =>
    have := isInk_of_literal (formed_of_mem ht) e
    rw [isInk_of_mem_blank h ht] at this
    cases this

theorem Sheds.literals {us vs : List Token} (h : Sheds us vs) (hu : ∀ u ∈ us, ∀ w, u.literal? = some w → u.isInk) :
    vs.filterMap Token.literal? = us.filterMap Token.literal? := by
  have drop : ∀ ts : List Token, (∀ t ∈ ts, ∀ w, t.literal? = some w → t.isInk) →
      (SqlLayout.inks ts).filterMap Token.literal? = ts.filterMap Token.literal? := by
    intro ts hts
    rw [SqlLayout.inks, List.filterMap_filter]
    refine List.filterMap_congr fun t ht => ?_
    cases e : t.literal? with
    | none => simp
    | some w => simp [hts t ht w e]
  rw [← drop us hu, ← drop vs fun v hv => hu v (h.sublist.subset hv), h.inks]

/-- The literals of a formatted script, in some order, are those of the script
with unified newlines inside of them. -/
theorem format_keeps_literals (o : Options) (script : Text) :
    (literals (format o script)).Perm ((literals script).map unifyNewlines) := by
  obtain ⟨ts, hs, hp⟩ := plains_finished o script
  have hink : ∀ u ∈ plainsOf (unifyNewlines script), ∀ w, u.literal? = some w → u.isInk := by
    intro u hu w hw
    obtain ⟨t, ht, rfl⟩ := List.mem_map.mp hu
    rw [Token.isInk_plain]
    refine isInk_of_literal (formed_of_mem (mem_solids.mp ht).1) (w := w) ?_
    cases t <;> exact hw
  have hfinished : (literals (finished script (render o (printScript o script)))).Perm ((literals script).map unifyNewlines) := by
    rw [← literals_unifyNewlines, literals_eq, literals_eq, ← hs.literals hink]
    exact hp.filterMap _
  by_cases hb : isBlankText script
  · rw [format, if_pos hb, literals_of_blank hb]
    exact .refl []
  by_cases hb' : isBlankText (render o (printScript o script))
  · -- nothing but blanks comes out
    have hblank : isBlankText (finished script (render o (printScript o script))) := by
      unfold finished
      split
      · simpa [isBlankText] using ⟨by simpa [isBlankText] using hb', rfl⟩
      · exact hb'
    rw [literals_of_blank hblank] at hfinished
    have hnil := List.map_eq_nil_iff.mp hfinished.nil_eq.symm
    rw [format, if_neg hb]
    simp [hb', hnil]
  · rwa [format_eq hb hb']

/-- The string has a carriage return in front of its newline, and loses it. -/
theorem format_unifies_literal :
    literals "select 'a\r\nb'".toList = ["'a\r\nb'".toList] ∧
      format {} "select 'a\r\nb'".toList = "SELECT 'a\nb'".toList ∧
      ¬(literals (format {} "select 'a\r\nb'".toList)).Perm (literals "select 'a\r\nb'".toList) := by
  have h : format {} "select 'a\r\nb'".toList = "SELECT 'a\nb'".toList := by decide +kernel
  rw [h]
  exact ⟨by decide +kernel, rfl, by decide +kernel⟩

end SqlLayout
