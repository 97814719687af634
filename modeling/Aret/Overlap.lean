/-
Copies between ranges of a memory that may overlap.

The memory is a function of addresses, which wrap at a power of two.
-/
import Mathlib.Data.BitVec
import Mathlib.Tactic.Ring

namespace Overlap

variable {w : ℕ} {β : Type} {m : BitVec w → β} {d s a : BitVec w} {e k n i p : ℕ}

/-- The `n` cells from `d` on are filled. -/
def fill (m : BitVec w → β) (d : BitVec w) (n : ℕ) (f : ℕ → β) : BitVec w → β :=
  fun a => if (a - d).toNat < n then f (a - d).toNat else m a

def blit (m : BitVec w → β) (d s : BitVec w) (n : ℕ) : BitVec w → β :=
  fill m d n fun i => m (s + BitVec.ofNat w i)

/-- Copies of `k` elements of `e` cells. -/
def elems (m : BitVec w → β) (d s : BitVec w) (e : ℕ) : ℕ → BitVec w → β
  | 0 => m
  | k + 1 => blit (elems m d s e k) (d + BitVec.ofNat w (k * e)) (s + BitVec.ofNat w (k * e)) e

/-- `k` elements are filled with the same `e` cells. -/
def fills (m : BitVec w → β) (d : BitVec w) (e : ℕ) (f : ℕ → β) : ℕ → BitVec w → β
  | 0 => m
  | k + 1 => fill (fills m d e f k) (d + BitVec.ofNat w (k * e)) e f

/-! ### Indices -/

theorem offset_toNat (d : BitVec w) (h : n < 2 ^ w) : (d + BitVec.ofNat w n - d).toNat = n := by
  rw [BitVec.add_comm, BitVec.add_sub_cancel, BitVec.toNat_ofNat, Nat.mod_eq_of_lt h]

theorem add_offset (d a : BitVec w) : d + BitVec.ofNat w (a - d).toNat = a := by
  rw [BitVec.ofNat_toNat, BitVec.setWidth_eq, BitVec.add_comm, BitVec.sub_add_cancel]

theorem offset_sub (h : p < 2 ^ w) : (a - (d + BitVec.ofNat w p)).toNat =
    if p ≤ (a - d).toNat then (a - d).toNat - p else 2 ^ w + (a - d).toNat - p := by
  have ha := (a - d).isLt
  rw [sub_add_eq_sub_sub, BitVec.toNat_sub, BitVec.toNat_ofNat, Nat.mod_eq_of_lt h]
  split
  · rw [show 2 ^ w - p + (a - d).toNat = 2 ^ w + ((a - d).toNat - p) by omega, Nat.add_mod_left,
      Nat.mod_eq_of_lt (by omega)]
  · rw [Nat.mod_eq_of_lt (by omega)]
    omega

theorem offset_sub_lt (h : p + e ≤ 2 ^ w) :
    (a - (d + BitVec.ofNat w p)).toNat < e ↔ p ≤ (a - d).toNat ∧ (a - d).toNat < p + e := by
  rcases Nat.eq_zero_or_pos e with rfl | he
  · omega
  · rw [offset_sub (show p < 2 ^ w by omega)]
    split <;> omega

variable (d s) in
def dist : ℕ := (d - s).toNat

theorem source_offset (h : i < 2 ^ w) : (s + BitVec.ofNat w i - d).toNat =
    if dist d s ≤ i then i - dist d s else 2 ^ w + i - dist d s := by
  have hd : d = s + BitVec.ofNat w (dist d s) := (add_offset s d).symm
  conv_lhs => rw [hd, offset_sub (show dist d s < 2 ^ w from (d - s).isLt), offset_toNat s h]

/-! ### One element after the other -/

theorem fill_at (h : p + e ≤ 2 ^ w) (f : ℕ → β) : fill m (d + BitVec.ofNat w p) e f a =
    if p ≤ (a - d).toNat ∧ (a - d).toNat < p + e then f ((a - d).toNat - p) else m a := by
  have ha := (a - d).isLt
  rw [fill]
  by_cases hin : p ≤ (a - d).toNat ∧ (a - d).toNat < p + e
  · rw [if_pos ((offset_sub_lt h).mpr hin), if_pos hin, offset_sub (show p < 2 ^ w by omega),
      if_pos hin.1]
  · rw [if_neg (mt (offset_sub_lt h).mp hin), if_neg hin]

theorem fill_one (f : ℕ → β) : fill m d 1 f a = if a = d then f 0 else m a := by
  rw [fill]
  by_cases h : a = d
  · rw [if_pos h, h, BitVec.sub_self, if_pos]
    · rfl
    · exact Nat.zero_lt_one
  · have hne : (a - d).toNat ≠ 0 := by
      intro hz
      refine h (sub_eq_zero.mp (BitVec.eq_of_toNat_eq (hz.trans ?_)))
      rfl
    rw [if_neg h, if_neg (by omega)]

theorem elems_succ (h : k * e + e ≤ 2 ^ w) : elems m d s e (k + 1) a =
    if k * e ≤ (a - d).toNat ∧ (a - d).toNat < k * e + e then
      elems m d s e k (s + BitVec.ofNat w (a - d).toNat)
    else elems m d s e k a := by
  rw [elems, blit, fill_at h]
  split
  · rename_i hin
    rw [BitVec.add_assoc, ← BitVec.ofNat_add, Nat.add_sub_cancel' hin.1]
  · rfl

theorem elems_front (h : (k + 1) * e ≤ 2 ^ w) : elems m d s e (k + 1) =
    elems (blit m d s e) (d + BitVec.ofNat w e) (s + BitVec.ofNat w e) e k := by
  induction k with
  | zero =>
    have hzero : BitVec.ofNat w 0 = 0 := rfl
    rw [elems, elems, elems, Nat.zero_mul, hzero, add_zero, add_zero]
  | succ k ih =>
    have hle : (k + 1) * e ≤ 2 ^ w := le_trans (Nat.mul_le_mul_right e (Nat.le_succ _)) h
    rw [elems, ih hle]
    conv_rhs => rw [elems]
    have hsum : (k + 1) * e = e + k * e := by ring
    rw [hsum, BitVec.ofNat_add, ← BitVec.add_assoc, ← BitVec.add_assoc]

theorem elems_above (hk : k * e ≤ 2 ^ w) (ha : k * e ≤ (a - d).toNat) : elems m d s e k a = m a := by
  induction k with
  | zero => rfl
  | succ k ih =>
    rw [Nat.succ_mul] at hk ha
    rw [elems_succ hk, if_neg (by omega), ih (by omega) (by omega)]

theorem elems_one (h : n ≤ 2 ^ w) : elems m d s 1 n a =
    if (a - d).toNat < n then m (s + BitVec.ofNat w ((a - d).toNat % dist d s)) else m a := by
  induction n generalizing a with
  | zero => rfl
  | succ n ih =>
    have hdist := (d - s).isLt
    rw [elems_succ (by omega), Nat.mul_one]
    by_cases hlast : n ≤ (a - d).toNat ∧ (a - d).toNat < n + 1
    · have hidx : (a - d).toNat = n := by omega
      rw [if_pos hlast, if_pos hlast.2, hidx, ih (by omega), source_offset (show n < 2 ^ w by omega)]
      by_cases hle : dist d s ≤ n
      · rw [if_pos hle]
        by_cases hzero : dist d s = 0
        · -- Nothing moves.
          rw [hzero, if_neg (by omega), Nat.mod_zero]
        · rw [if_pos (by omega), ← Nat.mod_eq_sub_mod hle]
      · rw [if_neg hle, if_neg (by rw [dist] at *; omega), Nat.mod_eq_of_lt (by omega)]
    · rw [if_neg hlast, ih (by omega)]
      by_cases hlt : (a - d).toNat < n
      · rw [if_pos hlt, if_pos (by omega)]
      · rw [if_neg hlt, if_neg (by omega)]

theorem elems_late (hk : k * e ≤ 2 ^ w) (hi : i < k * e) (hlate : dist d s ≤ i % e) :
    elems m d s e k (d + BitVec.ofNat w i) = m (s + BitVec.ofNat w i) := by
  induction k with
  | zero =>
    rw [Nat.zero_mul] at hi
    exact absurd hi (Nat.not_lt_zero i)
  | succ k ih =>
    rw [Nat.succ_mul] at hk hi
    rw [elems_succ hk, offset_toNat d (by omega)]
    by_cases hlast : k * e ≤ i
    · have hmod : i % e = i - k * e := by
        have hi' : i = i - k * e + k * e := by omega
        rw [hi', Nat.add_mul_mod_self_right, Nat.mod_eq_of_lt (by omega)]
        omega
      rw [if_pos ⟨hlast, hi⟩, elems_above (by omega)]
      rw [source_offset (show i < 2 ^ w by omega), if_pos (by omega)]
      omega
    · rw [if_neg (by omega), ih (by omega) (by omega)]

theorem elems_eq_iff (hk : k * e ≤ 2 ^ w) :
    elems m d s e k = elems m d s 1 (k * e) ↔
      ∀ i < k * e, dist d s ≤ i % e →
        m (s + BitVec.ofNat w i) = m (s + BitVec.ofNat w (i % dist d s)) := by
  constructor
  · intro h i hi hlate
    have hcell := congrFun h (d + BitVec.ofNat w i)
    rwa [elems_late hk hi hlate, elems_one hk, offset_toNat d (by omega), if_pos hi] at hcell
  · intro h
    induction k with
    | zero =>
      rw [Nat.zero_mul]
      rfl
    | succ k ih =>
      have hdist := (d - s).isLt
      rw [Nat.succ_mul] at hk h ⊢
      have hprev := ih (by omega) fun i hi => h i (by omega)
      funext a
      rw [elems_succ hk, hprev, elems_one hk]
      by_cases hlast : k * e ≤ (a - d).toNat ∧ (a - d).toNat < k * e + e
      · obtain ⟨i, hidx⟩ : ∃ i, i = (a - d).toNat := ⟨_, rfl⟩
        rw [← hidx] at hlast ⊢
        rw [if_pos hlast, if_pos hlast.2, elems_one (by omega),
          source_offset (show i < 2 ^ w by omega)]
        by_cases hle : dist d s ≤ i
        · rw [if_pos hle]
          by_cases hearly : i - dist d s < k * e
          · rw [if_pos hearly, ← Nat.mod_eq_sub_mod hle]
          · have hmod : i % e = i - k * e := by
              have hi' : i = i - k * e + k * e := by omega
              rw [hi', Nat.add_mul_mod_self_right, Nat.mod_eq_of_lt (by omega)]
              omega
            rw [if_neg hearly, h i hlast.2 (by omega)]
        · rw [if_neg hle, if_neg (by rw [dist] at *; omega), Nat.mod_eq_of_lt (by omega)]
      · rw [if_neg hlast, elems_one (by omega)]
        by_cases hlt : (a - d).toNat < k * e
        · rw [if_pos hlt, if_pos (by omega)]
        · rw [if_neg hlt, if_neg (by omega)]

theorem fills_front (f : ℕ → β) : fills m d e f (k + 1) =
    fills (fill m d e f) (d + BitVec.ofNat w e) e f k := by
  induction k with
  | zero =>
    have hzero : BitVec.ofNat w 0 = 0 := rfl
    rw [fills, fills, fills, Nat.zero_mul, hzero, add_zero]
  | succ k ih =>
    have hsum : (k + 1) * e = e + k * e := by ring
    rw [fills, ih, hsum, BitVec.ofNat_add, ← BitVec.add_assoc]
    rfl

theorem fills_eq (f : ℕ → β) (hk : k * e ≤ 2 ^ w) :
    fills m d e f k = fill m d (k * e) fun i => f (i % e) := by
  induction k with
  | zero =>
    rw [Nat.zero_mul]
    rfl
  | succ k ih =>
    rw [Nat.succ_mul] at hk ⊢
    funext a
    rw [fills, fill_at hk, ih (by omega), fill, fill]
    by_cases hlast : k * e ≤ (a - d).toNat ∧ (a - d).toNat < k * e + e
    · have hmod : (a - d).toNat % e = (a - d).toNat - k * e := by
        have hi' : (a - d).toNat = (a - d).toNat - k * e + k * e := by omega
        rw [hi', Nat.add_mul_mod_self_right, Nat.mod_eq_of_lt (by omega)]
        omega
      rw [if_pos hlast, if_pos hlast.2, hmod]
    · rw [if_neg hlast]
      by_cases hlt : (a - d).toNat < k * e
      · rw [if_pos hlt, if_pos (by omega)]
      · rw [if_neg hlt, if_neg (by omega)]

end Overlap
