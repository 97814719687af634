/-
Division by a constant through a multiplication and a shift.
-/
import Mathlib.Data.Nat.ModEq
import Mathlib.Tactic.Ring

namespace MagicDiv

variable {d e m nc p x : ℕ}

theorem excess_lt (hd : 0 < d) (hnc : d ∣ nc + 1) (he : nc * e < 2 ^ p) (hx : x < nc + d) :
    x * e < (d - x % d) * 2 ^ p := by
  have hr : x % d < d := Nat.mod_lt x hd
  have hle : d ≤ nc + 1 := Nat.le_of_dvd (Nat.succ_pos nc) hnc
  by_cases hlow : x ≤ nc
  · -- One multiple of the power is enough.
    calc x * e ≤ nc * e := Nat.mul_le_mul_right e hlow
      _ < 1 * 2 ^ p := by omega
      _ ≤ (d - x % d) * 2 ^ p := Nat.mul_le_mul_right _ (by omega)
  · -- Above `nc` the remainder is small, and there is room for two.
    have hmod : x % d = x - (nc + 1) := by
      obtain ⟨j, hj⟩ : ∃ j, x = j + (nc + 1) := ⟨x - (nc + 1), by omega⟩
      obtain ⟨c, hc⟩ := hnc
      rw [hj, hc, Nat.add_mul_mod_self_left, Nat.mod_eq_of_lt (by omega)]
      omega
    calc x * e ≤ (2 * nc) * e := Nat.mul_le_mul_right e (by omega)
      _ = 2 * (nc * e) := by ring
      _ < 2 * 2 ^ p := by omega
      _ ≤ (d - x % d) * 2 ^ p := Nat.mul_le_mul_right _ (by omega)

theorem mul_div_pow_eq_div (hd : 0 < d) (hm : m * d = 2 ^ p + e) (hnc : d ∣ nc + 1)
    (he : nc * e < 2 ^ p) (hx : x < nc + d) : x * m / 2 ^ p = x / d := by
  have hexcess := excess_lt hd hnc he hx
  have hdiv : d * (x / d) + x % d = x := Nat.div_add_mod x d
  have hr : x % d < d := Nat.mod_lt x hd
  have hprod : x * m * d = x * 2 ^ p + x * e := by
    rw [mul_assoc, hm, mul_add]
  apply Nat.div_eq_of_lt_le
  · -- The quotient is reached.
    apply Nat.le_of_mul_le_mul_right _ hd
    calc x / d * 2 ^ p * d = d * (x / d) * 2 ^ p := by ring
      _ ≤ x * 2 ^ p := Nat.mul_le_mul_right _ (by omega)
      _ ≤ x * m * d := by omega
  · -- The next one is not.
    apply Nat.lt_of_mul_lt_mul_right (a := d)
    calc x * m * d = x * 2 ^ p + x * e := hprod
      _ < x * 2 ^ p + (d - x % d) * 2 ^ p := by omega
      _ = (x + (d - x % d)) * 2 ^ p := by ring
      _ = (d * (x / d) + d) * 2 ^ p := by congr 1; omega
      _ = (x / d + 1) * 2 ^ p * d := by ring

end MagicDiv
