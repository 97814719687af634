/-
Counts of bits.
-/
import Mathlib.Data.Nat.Bitwise

namespace BitScan

variable {n k x i : ℕ}

/-- Zeros below the lowest bit; all `n` where none is set. -/
def low (n x : ℕ) : ℕ := (List.range n).findIdx x.testBit

def high (n x : ℕ) : ℕ := (List.range n).findIdx fun i => x.testBit (n - 1 - i)

def ones (n x : ℕ) : ℕ := (List.range n).countP x.testBit

theorem low_le : low n x ≤ n := by
  have h : (List.range n).findIdx x.testBit ≤ (List.range n).length := List.findIdx_le_length
  rwa [List.length_range] at h

theorem high_le : high n x ≤ n := by
  have h : (List.range n).findIdx (fun i => x.testBit (n - 1 - i)) ≤ (List.range n).length :=
    List.findIdx_le_length
  rwa [List.length_range] at h

theorem ones_le : ones n x ≤ n := by
  have h : (List.range n).countP x.testBit ≤ (List.range n).length := List.countP_le_length
  rwa [List.length_range] at h

theorem low_lt (hx : x < 2 ^ n) (h0 : x ≠ 0) : low n x < n := by
  obtain ⟨i, hi⟩ := Nat.exists_testBit_of_ne_zero h0
  have hin : i < n := by
    by_contra hge
    rw [Nat.testBit_lt_two_pow (lt_of_lt_of_le hx (Nat.pow_le_pow_right (by omega) (by omega)))]
      at hi
    cases hi
  have h : (List.range n).findIdx x.testBit < (List.range n).length :=
    List.findIdx_lt_length_of_exists ⟨i, List.mem_range.mpr hin, hi⟩
  rwa [List.length_range] at h

theorem low_zero (n : ℕ) : low n 0 = n := by
  have h : (List.range n).findIdx (Nat.testBit 0) = (List.range n).length :=
    List.findIdx_eq_length_of_false fun i _ => Nat.zero_testBit i
  rwa [List.length_range] at h

theorem high_zero (n : ℕ) : high n 0 = n := by
  have h : (List.range n).findIdx (fun i => Nat.testBit 0 (n - 1 - i)) = (List.range n).length :=
    List.findIdx_eq_length_of_false fun i _ => Nat.zero_testBit _
  rwa [List.length_range] at h

theorem low_eq_zero (hn : 0 < n) : low n x = 0 ↔ x.testBit 0 = true := by
  obtain ⟨k, rfl⟩ : ∃ k, n = k + 1 := ⟨n - 1, by omega⟩
  rw [low, List.range_succ_eq_map, List.findIdx_cons]
  cases x.testBit 0 <;> simp

theorem high_eq_zero (hn : 0 < n) : high n x = 0 ↔ x.testBit (n - 1) = true := by
  obtain ⟨k, rfl⟩ : ∃ k, n = k + 1 := ⟨n - 1, by omega⟩
  rw [high, List.range_succ_eq_map, List.findIdx_cons]
  simp only [Nat.add_sub_cancel, Nat.sub_zero]
  cases x.testBit k <;> simp

theorem low_add (k : ℕ) (hx : x < 2 ^ n) (h0 : x ≠ 0) : low (n + k) x = low n x := by
  have hlt : (List.range n).findIdx x.testBit < (List.range n).length := by
    rw [List.length_range]
    exact low_lt hx h0
  rw [low, List.range_add, List.findIdx_append, if_pos hlt]
  rfl

theorem high_add (k : ℕ) (hx : x < 2 ^ n) : high (n + k) x = high n x + k := by
  have hzero : ∀ i < k, x.testBit (n + k - 1 - i) = false := by
    intro i hi
    exact Nat.testBit_lt_two_pow
      (lt_of_lt_of_le hx (Nat.pow_le_pow_right (by omega) (by omega)))
  have hnone : (List.range k).findIdx (fun i => x.testBit (n + k - 1 - i)) = k := by
    have h : (List.range k).findIdx (fun i => x.testBit (n + k - 1 - i)) = (List.range k).length :=
      List.findIdx_eq_length_of_false fun i hi => hzero i (List.mem_range.mp hi)
    rwa [List.length_range] at h
  rw [high, Nat.add_comm n k, List.range_add, List.findIdx_append, Nat.add_comm k n, hnone,
    List.length_range, if_neg (lt_irrefl k), List.findIdx_map, high]
  -- Position `k + i` of the wider word is position `i` of the narrower one.
  congr 2
  funext i
  show x.testBit (n + k - 1 - (k + i)) = x.testBit (n - 1 - i)
  congr 1
  omega

theorem ones_add (k : ℕ) (hx : x < 2 ^ n) : ones (n + k) x = ones n x := by
  have hzero : ((List.range k).map (n + ·)).countP x.testBit = 0 := by
    rw [List.countP_eq_zero]
    intro i hi
    obtain ⟨j, -, rfl⟩ := List.mem_map.mp hi
    have hlt : x < 2 ^ (n + j) :=
      lt_of_lt_of_le hx (Nat.pow_le_pow_right (by omega) (by omega))
    rw [Nat.testBit_lt_two_pow hlt]
    exact Bool.false_ne_true
  rw [ones, List.range_add, List.countP_append, hzero]
  rfl

end BitScan
