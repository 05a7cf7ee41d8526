import Mathlib

/-! # Linear scans

    `firstFrom p start count` is the loop
    `for(i = start; i < start + count; i++) if(p(i)) return i;`
    that allocators run over a bitmap or a table.

    * `firstFrom_some`: a result lies in the range, satisfies `p`, and no
      index before it does;
    * `firstFrom_eq_none`: no result exactly when no index of the range
      satisfies `p`. -/

namespace Scan

/-- The first `i` in `[start, start + count)` with `p i`. -/
def firstFrom (p : Nat → Bool) (start : Nat) : Nat → Option Nat
  | 0 => none
  | count + 1 => if p start then some start else firstFrom p (start + 1) count

variable {p : Nat → Bool}

theorem firstFrom_some {start i : Nat} :
    ∀ {count}, firstFrom p start count = some i →
      start ≤ i ∧ i < start + count ∧ p i = true ∧ ∀ j, start ≤ j → j < i → p j = false
  | 0, h => by simp [firstFrom] at h
  | count + 1, h => by
      simp only [firstFrom] at h
      by_cases hp : p start
      · rw [if_pos hp, Option.some.injEq] at h
        subst h
        exact ⟨Nat.le_refl _, by omega, hp, fun j h₁ h₂ => absurd h₂ (by omega)⟩
      · rw [if_neg hp] at h
        obtain ⟨h₁, h₂, h₃, h₄⟩ := firstFrom_some h
        refine ⟨by omega, by omega, h₃, fun j hj hji => ?_⟩
        rcases Nat.eq_or_lt_of_le hj with rfl | hj
        · simpa using hp
        · exact h₄ j hj hji

theorem firstFrom_eq_none {start : Nat} :
    ∀ {count}, firstFrom p start count = none ↔ ∀ j, start ≤ j → j < start + count → p j = false
  | 0 => by simp only [firstFrom, true_iff]; intro j h₁ h₂; omega
  | count + 1 => by
      simp only [firstFrom]
      by_cases hp : p start
      · simp only [hp, if_true, reduceCtorEq, false_iff, not_forall]
        exact ⟨start, Nat.le_refl _, by omega, by simp [hp]⟩
      · rw [if_neg hp, firstFrom_eq_none]
        constructor
        · intro h j hj hjc
          rcases Nat.eq_or_lt_of_le hj with rfl | hj
          · simpa using hp
          · exact h j hj (by omega)
        · intro h j hj hjc
          exact h j (by omega) (by omega)

end Scan
