import Mathlib
import SqlLayout.Token.Lexer

/-!
# Letters

A change of letter case takes a letter to a letter and leaves every other
character alone, so no character changes its class.
-/

namespace SqlLayout

theorem isAlpha_toNat {c : Char} :
    c.isAlpha ↔ 65 ≤ c.toNat ∧ c.toNat ≤ 90 ∨ 97 ≤ c.toNat ∧ c.toNat ≤ 122 := by
  simp [Char.isAlpha, Char.isUpper, Char.isLower, UInt32.le_iff_toNat_le]

theorem toUpper_toNat (c : Char) :
    c.toUpper.toNat = if 97 ≤ c.toNat ∧ c.toNat ≤ 122 then c.toNat - 32 else c.toNat := by
  by_cases h : 'a'.val ≤ c.val ∧ c.val ≤ 'z'.val
  · have hr : 97 ≤ c.toNat ∧ c.toNat ≤ 122 := by simpa [UInt32.le_iff_toNat_le] using h
    rw [if_pos hr, Char.toUpper, dif_pos h]
    simp only [Char.toNat, UInt32.toNat_add, UInt32.toNat_sub]
    have : c.val.toNat = c.toNat := rfl
    simp
    omega
  · rw [if_neg (by simpa [UInt32.le_iff_toNat_le] using h), Char.toUpper, dif_neg h]

theorem toLower_toNat (c : Char) :
    c.toLower.toNat = if 65 ≤ c.toNat ∧ c.toNat ≤ 90 then c.toNat + 32 else c.toNat := by
  by_cases h : 'A'.val ≤ c.val ∧ c.val ≤ 'Z'.val
  · have hr : 65 ≤ c.toNat ∧ c.toNat ≤ 90 := by simpa [UInt32.le_iff_toNat_le] using h
    rw [if_pos hr, Char.toLower, dif_pos h]
    simp only [Char.toNat, UInt32.toNat_add, UInt32.toNat_sub]
    have : c.val.toNat = c.toNat := rfl
    simp
    omega
  · rw [if_neg (by simpa [UInt32.le_iff_toNat_le] using h), Char.toLower, dif_neg h]

theorem toUpper_cases (c : Char) : c.toUpper = c ∨ c.isAlpha ∧ c.toUpper.isAlpha := by
  rw [isAlpha_toNat, isAlpha_toNat, ← Char.toNat_inj, toUpper_toNat]
  split <;> omega

theorem toLower_cases (c : Char) : c.toLower = c ∨ c.isAlpha ∧ c.toLower.isAlpha := by
  rw [isAlpha_toNat, isAlpha_toNat, ← Char.toNat_inj, toLower_toNat]
  split <;> omega

theorem startsWord_of_isAlpha {c : Char} (h : c.isAlpha) : startsWord c := by simp [startsWord, h]

theorem isBlank_of_isAlpha {c : Char} (h : c.isAlpha) : isBlank c = false := by
  have := isAlpha_toNat.mp h
  simp only [isBlank, Bool.or_eq_false_iff, Bool.and_eq_false_iff, decide_eq_false_iff_not]
  omega

end SqlLayout
