/-
Fields of bits in a number.
-/
import Mathlib.Data.Nat.Bitwise
import Mathlib.Tactic.Ring

namespace Fields

variable {n p l v i q k : ℕ}

/-- The field of `l` bits from position `p` on. -/
def get (n p l : ℕ) : ℕ := n / 2 ^ p % 2 ^ l

def put (n p l v : ℕ) : ℕ := 2 ^ (p + l) * (n / 2 ^ (p + l)) + (2 ^ p * (v % 2 ^ l) + n % 2 ^ p)

theorem testBit_get : (get n p l).testBit i = (decide (i < l) && n.testBit (i + p)) := by
  rw [get, Nat.testBit_mod_two_pow, Nat.testBit_div_two_pow]

theorem get_congr {m : ℕ} (h : ∀ i < l, n.testBit (i + p) = m.testBit (i + p)) :
    get n p l = get m p l := by
  apply Nat.eq_of_testBit_eq
  intro i
  rw [testBit_get, testBit_get]
  by_cases hi : i < l
  · rw [h i hi]
  · simp only [hi, decide_false, Bool.false_and]

theorem put_low_lt : 2 ^ p * (v % 2 ^ l) + n % 2 ^ p < 2 ^ (p + l) := by
  have hv : v % 2 ^ l + 1 ≤ 2 ^ l := Nat.mod_lt v (Nat.two_pow_pos l)
  have hn : n % 2 ^ p < 2 ^ p := Nat.mod_lt n (Nat.two_pow_pos p)
  calc 2 ^ p * (v % 2 ^ l) + n % 2 ^ p < 2 ^ p * (v % 2 ^ l) + 2 ^ p := by omega
    _ = 2 ^ p * (v % 2 ^ l + 1) := by ring
    _ ≤ 2 ^ p * 2 ^ l := Nat.mul_le_mul_left _ hv
    _ = 2 ^ (p + l) := (pow_add 2 p l).symm

theorem testBit_put : (put n p l v).testBit i =
    if p ≤ i ∧ i < p + l then v.testBit (i - p) else n.testBit i := by
  have hn : n % 2 ^ p < 2 ^ p := Nat.mod_lt n (Nat.two_pow_pos p)
  rw [put, Nat.testBit_two_pow_mul_add _ put_low_lt, Nat.testBit_two_pow_mul_add _ hn,
    Nat.testBit_mod_two_pow, Nat.testBit_mod_two_pow, Nat.testBit_div_two_pow]
  by_cases hlow : i < p
  · have hno : ¬ (p ≤ i ∧ i < p + l) := by omega
    rw [if_pos (show i < p + l by omega), if_pos hlow, if_neg hno]
    simp only [hlow, decide_true, Bool.true_and]
  · by_cases hmid : i < p + l
    · have hlt : i - p < l := by omega
      rw [if_pos hmid, if_neg hlow, if_pos ⟨by omega, hmid⟩]
      simp only [hlt, decide_true, Bool.true_and]
    · have hno : ¬ (p ≤ i ∧ i < p + l) := by omega
      rw [if_neg hmid, if_neg hno, Nat.sub_add_cancel (by omega)]

theorem get_put_self : get (put n p l v) p l = v % 2 ^ l := by
  apply Nat.eq_of_testBit_eq
  intro i
  rw [testBit_get, testBit_put, Nat.testBit_mod_two_pow]
  by_cases hi : i < l
  · rw [if_pos (by omega), Nat.add_sub_cancel]
  · simp only [hi, decide_false, Bool.false_and]

theorem put_eq_self_iff : put n p l v = n ↔ v % 2 ^ l = get n p l := by
  constructor
  · intro h
    rw [← get_put_self, h]
  · intro h
    apply Nat.eq_of_testBit_eq
    intro i
    rw [testBit_put]
    split
    · rename_i hi
      have hbit := congrArg (Nat.testBit · (i - p)) h
      rw [testBit_get, Nat.testBit_mod_two_pow, Nat.sub_add_cancel hi.1] at hbit
      have hlt : i - p < l := by omega
      simpa only [hlt, decide_true, Bool.true_and] using hbit
    · rfl

end Fields
