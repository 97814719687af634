/-
The multipliers that stand for a division by a constant.
-/
import Aret.MagicDiv

namespace Aret

/-- `wrapping_sub`. -/
def u32Sub (a b : ℕ) : ℕ := (a + 2 ^ 32 - b) % 2 ^ 32

structure MagicState where
  p : ℕ
  q1 : ℕ
  r1 : ℕ
  q2 : ℕ
  r2 : ℕ
  add : Bool

namespace MagicState

variable (d nc : ℕ) (z : MagicState)

def step : MagicState where
  p := z.p + 1
  q1 := if nc - z.r1 ≤ z.r1 then (z.q1 * 2 % 2 ^ 32 + 1) % 2 ^ 32 else z.q1 * 2 % 2 ^ 32
  r1 := if nc - z.r1 ≤ z.r1 then u32Sub (z.r1 * 2 % 2 ^ 32) nc else z.r1 * 2 % 2 ^ 32
  q2 := if d - z.r2 ≤ z.r2 + 1 then (z.q2 * 2 % 2 ^ 32 + 1) % 2 ^ 32 else z.q2 * 2 % 2 ^ 32
  r2 :=
    if d - z.r2 ≤ z.r2 + 1 then u32Sub ((z.r2 * 2 % 2 ^ 32 + 1) % 2 ^ 32) d
    else (z.r2 * 2 % 2 ^ 32 + 1) % 2 ^ 32
  add := z.add || decide ((if d - z.r2 ≤ z.r2 + 1 then 0x7fffffff else 0x80000000) ≤ z.q2)

def stops : Bool :=
  let delta := d - 1 - z.r2
  decide (64 ≤ z.p ∨ ¬ (z.q1 < delta ∨ z.q1 = delta ∧ z.r1 = 0))

end MagicState

def magicLoop (d nc : ℕ) : ℕ → MagicState → MagicState
  | 0, z => z
  | n + 1, z =>
    let z := z.step d nc
    if z.stops d then z else magicLoop d nc n z

/-- `nc`. -/
def magicBound (d : ℕ) : ℕ := 0xffffffff - u32Sub 0 d % d

/-- `magicu32`: the multiplier, the shift above 32, and whether a correction is needed. -/
def magicu32 (d : ℕ) : Option (ℕ × ℕ × Bool) :=
  if d < 2 then none
  else
    let two31 := 0x80000000
    let nc := magicBound d
    let q1 := two31 / nc
    let q2 := 0x7fffffff / d
    -- `p` grows from 31, and the loop ends at 64.
    let z := magicLoop d nc 33
      ⟨31, q1, two31 - q1 * nc % 2 ^ 32, q2, 0x7fffffff - q2 * d % 2 ^ 32, false⟩
    some ((z.q2 + 1) % 2 ^ 32, z.p - 32, z.add)

/-! ### The search -/

section
variable {d nc : ℕ} {z : MagicState}

theorem double_div_mod (n m c : ℕ) (hm : 0 < m) (hc : c ≤ 1) :
    (2 * n + c) / m = 2 * (n / m) + (if m ≤ 2 * (n % m) + c then 1 else 0) ∧
      (2 * n + c) % m = 2 * (n % m) + c - (if m ≤ 2 * (n % m) + c then m else 0) := by
  have hn : m * (n / m) + n % m = n := Nat.div_add_mod n m
  have hr : n % m < m := Nat.mod_lt n hm
  rw [Nat.div_mod_unique hm]
  split
  · refine ⟨?_, by omega⟩
    rw [Nat.mul_add, Nat.mul_left_comm, Nat.mul_one]
    omega
  · refine ⟨?_, by omega⟩
    rw [Nat.add_zero, Nat.mul_left_comm]
    omega

/-- What the variables hold: `q1` may have wrapped, and so may `q2` once a correction is needed. -/
structure MagicInv (d nc : ℕ) (z : MagicState) : Prop where
  q1 : z.q1 ≤ 2 ^ z.p / nc
  r1 : z.r1 = 2 ^ z.p % nc
  r2 : z.r2 = (2 ^ z.p - 1) % d
  q2 : z.add = false → z.q2 = (2 ^ z.p - 1) / d ∧ z.q2 < 2 ^ 32 - 1

theorem magicInv_step (hd : 2 ≤ d) (hd32 : d < 2 ^ 32) (hnc : 0 < nc) (hnc32 : nc < 2 ^ 32)
    (h : MagicInv d nc z) : MagicInv d nc (z.step d nc) := by
  obtain ⟨hdiv1, hmod1⟩ := double_div_mod (2 ^ z.p) nc 0 hnc (by omega)
  obtain ⟨hdiv2, hmod2⟩ := double_div_mod (2 ^ z.p - 1) d 1 (by omega) le_rfl
  have hpow : 2 ^ (z.p + 1) = 2 * 2 ^ z.p := by rw [pow_succ, mul_comm]
  have hpow1 : 2 ^ (z.p + 1) - 1 = 2 * (2 ^ z.p - 1) + 1 := by
    have hpos := Nat.two_pow_pos z.p
    omega
  have hr1 : z.r1 < nc := by
    rw [h.r1]
    exact Nat.mod_lt _ hnc
  have hr2 : z.r2 < d := by
    rw [h.r2]
    exact Nat.mod_lt _ (by omega)
  simp only [add_zero, ← hpow, ← h.r1] at hdiv1 hmod1
  rw [← hpow1, ← h.r2] at hdiv2 hmod2
  -- The comparisons of the code are those of the doubled remainders.
  have hc1 : nc - z.r1 ≤ z.r1 ↔ nc ≤ 2 * z.r1 := by omega
  have hc2 : d - z.r2 ≤ z.r2 + 1 ↔ d ≤ 2 * z.r2 + 1 := by omega
  refine ⟨?_, ?_, ?_, ?_⟩
  · have hq := h.q1
    show (if nc - z.r1 ≤ z.r1 then _ else _) ≤ 2 ^ (z.p + 1) / nc
    rw [hdiv1]
    by_cases hc : nc ≤ 2 * z.r1
    · rw [if_pos hc, if_pos (hc1.mpr hc)]
      omega
    · rw [if_neg hc, if_neg (mt hc1.mp hc)]
      omega
  · show (if nc - z.r1 ≤ z.r1 then _ else _) = 2 ^ (z.p + 1) % nc
    rw [hmod1]
    by_cases hc : nc ≤ 2 * z.r1
    · rw [if_pos hc, if_pos (hc1.mpr hc), u32Sub]
      omega
    · rw [if_neg hc, if_neg (mt hc1.mp hc)]
      omega
  · show (if d - z.r2 ≤ z.r2 + 1 then _ else _) = (2 ^ (z.p + 1) - 1) % d
    rw [hmod2]
    by_cases hc : d ≤ 2 * z.r2 + 1
    · rw [if_pos hc, if_pos (hc2.mpr hc), u32Sub]
      omega
    · rw [if_neg hc, if_neg (mt hc2.mp hc)]
      omega
  · intro hadd
    have hor : (z.add || decide ((if d - z.r2 ≤ z.r2 + 1 then 0x7fffffff else 0x80000000) ≤ z.q2)) =
        false := hadd
    rw [Bool.or_eq_false_iff, decide_eq_false_iff_not] at hor
    obtain ⟨hq2, hlt⟩ := h.q2 hor.1
    have hno := hor.2
    show (if d - z.r2 ≤ z.r2 + 1 then _ else _) = (2 ^ (z.p + 1) - 1) / d ∧
      (if d - z.r2 ≤ z.r2 + 1 then _ else _) < 2 ^ 32 - 1
    rw [hdiv2, ← hq2]
    by_cases hc : d ≤ 2 * z.r2 + 1
    · rw [if_pos (hc2.mpr hc)] at hno
      rw [if_pos hc, if_pos (hc2.mpr hc)]
      omega
    · rw [if_neg (mt hc2.mp hc)] at hno
      rw [if_neg hc, if_neg (mt hc2.mp hc)]
      omega

theorem magicLoop_spec (hd : 2 ≤ d) (hd32 : d < 2 ^ 32) (hnc : 0 < nc) (hnc32 : nc < 2 ^ 32) (n : ℕ)
    (h : MagicInv d nc z) (hn : z.p + n = 64) :
    MagicInv d nc (magicLoop d nc n z) ∧ (0 < n → z.p < (magicLoop d nc n z).p) ∧
      ((magicLoop d nc n z).stops d = true ∨ (magicLoop d nc n z).p = 64) := by
  induction n generalizing z with
  | zero => exact ⟨h, fun h0 => absurd h0 (by omega), .inr hn⟩
  | succ n ih =>
      have hstep := magicInv_step hd hd32 hnc hnc32 h
      have hp : (z.step d nc).p = z.p + 1 := rfl
      rw [magicLoop]
      split
      · rename_i hstop
        exact ⟨hstep, fun _ => by omega, .inl hstop⟩
      · obtain ⟨hinv, hlt, hend⟩ := ih hstep (by omega)
        refine ⟨hinv, fun _ => ?_, hend⟩
        rcases Nat.eq_zero_or_pos n with rfl | hpos
        · show z.p < (z.step d nc).p
          omega
        · have := hlt hpos
          omega

theorem magicBound_spec (hd : 2 ≤ d) (hd32 : d < 2 ^ 32) :
    d ∣ magicBound d + 1 ∧ 2 ^ 32 ≤ magicBound d + d ∧ magicBound d < 2 ^ 32 ∧
      2 ^ 31 ≤ magicBound d := by
  have hrem : u32Sub 0 d % d = 2 ^ 32 % d := by
    have hsub : u32Sub 0 d = 2 ^ 32 - d := by
      rw [u32Sub]
      omega
    rw [hsub]
    exact (Nat.mod_eq_sub_mod hd32.le).symm
  have hlt : 2 ^ 32 % d < d := Nat.mod_lt _ (by omega)
  have hdiv : d * (2 ^ 32 / d) + 2 ^ 32 % d = 2 ^ 32 := Nat.div_add_mod _ d
  have hbound : magicBound d + 1 = d * (2 ^ 32 / d) := by
    rw [magicBound, hrem]
    omega
  refine ⟨⟨_, hbound⟩, by omega, by omega, ?_⟩
  by_cases hhalf : d ≤ 2 ^ 31
  · omega
  · -- One multiple of `d` fits.
    have hone : 0 < 2 ^ 32 / d := Nat.div_pos hd32.le (by omega)
    have hle : d * 1 ≤ d * (2 ^ 32 / d) := Nat.mul_le_mul_left d hone
    omega

theorem magicInv_start :
    MagicInv d nc ⟨31, 0x80000000 / nc, 0x80000000 - 0x80000000 / nc * nc % 2 ^ 32, 0x7fffffff / d,
      0x7fffffff - 0x7fffffff / d * d % 2 ^ 32, false⟩ := by
  have h1 := Nat.div_add_mod 0x80000000 nc
  have h2 := Nat.div_add_mod 0x7fffffff d
  rw [mul_comm] at h1 h2
  refine ⟨le_rfl, ?_, ?_, fun _ => ⟨rfl, ?_⟩⟩
  · show _ = 0x80000000 % nc
    dsimp only
    rw [Nat.mod_eq_of_lt (by omega)]
    omega
  · show _ = 0x7fffffff % d
    dsimp only
    rw [Nat.mod_eq_of_lt (by omega)]
    omega
  · exact lt_of_le_of_lt (Nat.div_le_self _ _) (by decide)

theorem magicInv_early (hpos : 0 < d) (hd32 : d < 2 ^ 32) (h : MagicInv d nc z)
    (hadd : z.add = false) : z.p < 64 := by
  obtain ⟨hq2, hlt⟩ := h.q2 hadd
  by_contra hp
  have hpow : 2 ^ 64 ≤ 2 ^ z.p := Nat.pow_le_pow_right (by omega) (by omega)
  have hmul : (2 ^ 32 - 1) * d ≤ 2 ^ z.p - 1 := by
    have hle : (2 ^ 32 - 1) * d ≤ (2 ^ 32 - 1) * (2 ^ 32 - 1) := Nat.mul_le_mul_left _ (by omega)
    omega
  have hle : 2 ^ 32 - 1 ≤ (2 ^ z.p - 1) / d := (Nat.le_div_iff_mul_le hpos).mpr hmul
  omega

theorem magicu32_spec {m s : ℕ} (hd : 2 ≤ d) (hd32 : d < 2 ^ 32)
    (h : magicu32 d = some (m, s, false)) :
    m < 2 ^ 32 ∧ ∀ x < 2 ^ 32, x * m / 2 ^ (s + 32) = x / d := by
  obtain ⟨hdvd, hnd, hnc32, hnc⟩ := magicBound_spec hd hd32
  obtain ⟨hinv, hp, hend⟩ :=
    magicLoop_spec hd hd32 (by omega) hnc32 33 magicInv_start rfl
  rw [magicu32, if_neg (by omega)] at h
  dsimp only at h
  generalize magicLoop d (magicBound d) 33 _ = z at h hinv hp hend
  simp only [Option.some.injEq, Prod.mk.injEq] at h
  obtain ⟨hm, hsp, hadd⟩ := h
  obtain ⟨hq2, hq2lt⟩ := hinv.q2 hadd
  have hp31 : 31 < z.p := hp (by decide)
  have hp64 : z.p < 64 := magicInv_early (by omega) hd32 hinv hadd
  have hps : z.p = s + 32 := by omega
  have hmq : m = z.q2 + 1 := by omega
  -- The loop has stopped because the quotient is large enough.
  have hstop : ¬ (z.q1 < d - 1 - z.r2 ∨ z.q1 = d - 1 - z.r2 ∧ z.r1 = 0) := by
    rcases hend with hstops | h64
    · have hor := of_decide_eq_true hstops
      exact hor.resolve_left (by omega)
    · omega
  rw [← hps]
  have hpos := Nat.two_pow_pos z.p
  have hr2 : z.r2 < d := by
    rw [hinv.r2]
    exact Nat.mod_lt _ (by omega)
  have hmd : m * d = 2 ^ z.p + (d - 1 - z.r2) := by
    have hdiv := Nat.div_add_mod (2 ^ z.p - 1) d
    rw [← hq2, ← hinv.r2] at hdiv
    rw [hmq, Nat.add_mul, Nat.one_mul, Nat.mul_comm]
    omega
  have hexcess : magicBound d * (d - 1 - z.r2) < 2 ^ z.p := by
    have hdiv := Nat.div_add_mod (2 ^ z.p) (magicBound d)
    rw [← hinv.r1] at hdiv
    have hq : magicBound d * z.q1 ≤ magicBound d * (2 ^ z.p / magicBound d) :=
      Nat.mul_le_mul_left _ hinv.q1
    by_cases heq : z.q1 = d - 1 - z.r2
    · rw [heq] at hq
      omega
    · have hlt : magicBound d * (d - 1 - z.r2 + 1) ≤ magicBound d * z.q1 :=
        Nat.mul_le_mul_left _ (by omega)
      rw [Nat.mul_add] at hlt
      omega
  refine ⟨by omega, fun x hx => ?_⟩
  exact MagicDiv.mul_div_pow_eq_div (by omega) hmd hdvd hexcess (by omega)

end

end Aret
