import Mathlib.Tactic

/-!
# Signed machine integers that do not wrap

An operation on 64-bit signed integers whose exact result fits is exact.
-/

namespace Lxs.Lib.Signed

variable {a b : Int64}

def Fits (n : ℤ) : Prop := -2 ^ 63 ≤ n ∧ n < 2 ^ 63

theorem bmod_of_fits {n : ℤ} (h : Fits n) : n.bmod (2 ^ 64) = n :=
  Int.bmod_eq_of_le (by have := h.1; omega) (by have := h.2; omega)

theorem toInt_add (h : Fits (a.toInt + b.toInt)) : (a + b).toInt = a.toInt + b.toInt := by
  rw [Int64.toInt_add, bmod_of_fits h]

theorem toInt_sub (h : Fits (a.toInt - b.toInt)) : (a - b).toInt = a.toInt - b.toInt := by
  rw [Int64.toInt_sub, bmod_of_fits h]

theorem toInt_mul (h : Fits (a.toInt * b.toInt)) : (a * b).toInt = a.toInt * b.toInt := by
  rw [Int64.toInt_mul, bmod_of_fits h]

theorem toInt_div (ha : 0 ≤ a.toInt) (hb : 0 ≤ b.toInt) : (a / b).toInt = a.toInt / b.toInt := by
  have hlt := Int64.toInt_lt a
  have hle := Int.ediv_le_self b.toInt ha
  have hnonneg := Int.ediv_nonneg ha hb
  rw [Int64.toInt_div, Int.tdiv_eq_ediv_of_nonneg ha, bmod_of_fits ⟨by omega, by omega⟩]

end Lxs.Lib.Signed
