import Mathlib

/-! # `int` arithmetic that does not wrap

    The C `int` of the RISC-V target is `Int32`: every operation wraps
    modulo `2^32`.  Where a result is known to lie in `[-2^31, 2^31)`, the
    operation is the integer one; these lemmas say so for the operations a
    loop over coordinates uses, so that its proof runs on `toInt` values
    with `omega`. -/

namespace Int32

variable {a b : Int32}

theorem toInt_add_of_range (h₁ : -2 ^ 31 ≤ a.toInt + b.toInt) (h₂ : a.toInt + b.toInt < 2 ^ 31) :
    (a + b).toInt = a.toInt + b.toInt := by
  rw [Int32.toInt_add]
  exact Int.bmod_eq_of_le (by omega) (by omega)

theorem toInt_sub_of_range (h₁ : -2 ^ 31 ≤ a.toInt - b.toInt) (h₂ : a.toInt - b.toInt < 2 ^ 31) :
    (a - b).toInt = a.toInt - b.toInt := by
  rw [Int32.toInt_sub]
  exact Int.bmod_eq_of_le (by omega) (by omega)

theorem toInt_mul_of_range (h₁ : -2 ^ 31 ≤ a.toInt * b.toInt) (h₂ : a.toInt * b.toInt < 2 ^ 31) :
    (a * b).toInt = a.toInt * b.toInt := by
  rw [Int32.toInt_mul]
  exact Int.bmod_eq_of_le (by omega) (by omega)

/-- Negation wraps only at `INT_MIN`. -/
theorem toInt_neg_of_ne (h : -2 ^ 31 < a.toInt) : (-a).toInt = -a.toInt := by
  have := Int32.toInt_lt a
  rw [Int32.toInt_neg]
  exact Int.bmod_eq_of_le (by omega) (by omega)

/-- `INT_MIN` is its own negation. -/
theorem neg_minValue : -Int32.minValue = Int32.minValue := by decide

/-- Halving a non-negative `int`. -/
theorem toInt_div_two (ha : 0 ≤ a.toInt) : (a / 2).toInt = a.toInt / 2 := by
  rw [Int32.toInt_div_of_ne_right _ _ (by decide), show (2 : Int32).toInt = 2 from rfl,
    Int.tdiv_eq_ediv_of_nonneg ha]

end Int32
