/-
The search for a multiplier never leaves its words, and its result is exact.

* `magicu32_exact` — the search, the quotients, and the divisions that
  `tryMagicUdiv` recovers.
-/
import Aret.FoldSound

namespace Aret

/-- `+` on words of 32 bits. -/
def u32Add? (a b : ℕ) : Option ℕ := if a + b < 2 ^ 32 then some (a + b) else none

/-- `-` on words of 32 bits. -/
def u32Sub? (a b : ℕ) : Option ℕ := if b ≤ a then some (a - b) else none

theorem u32Add?_of_lt {a b : ℕ} (h : a + b < 2 ^ 32) : u32Add? a b = some (a + b) := if_pos h

theorem u32Sub?_of_le {a b : ℕ} (h : b ≤ a) : u32Sub? a b = some (a - b) := if_pos h

namespace MagicState

/-- The body of the loop, where `+=`, `+` and `-` fail outside their words. -/
def checkedStep (d nc : ℕ) (z : MagicState) : Option MagicState := do
  let p ← u32Add? z.p 1
  let room1 ← u32Sub? nc z.r1
  let (q1, r1) :=
    if room1 ≤ z.r1 then
      ((z.q1 * 2 % 2 ^ 32 + 1) % 2 ^ 32, u32Sub (z.r1 * 2 % 2 ^ 32) nc)
    else (z.q1 * 2 % 2 ^ 32, z.r1 * 2 % 2 ^ 32)
  let next2 ← u32Add? z.r2 1
  let room2 ← u32Sub? d z.r2
  let (q2, r2, add) :=
    if room2 ≤ next2 then
      ((z.q2 * 2 % 2 ^ 32 + 1) % 2 ^ 32, u32Sub ((z.r2 * 2 % 2 ^ 32 + 1) % 2 ^ 32) d,
        if 0x7fffffff ≤ z.q2 then true else z.add)
    else
      (z.q2 * 2 % 2 ^ 32, (z.r2 * 2 % 2 ^ 32 + 1) % 2 ^ 32,
        if 0x80000000 ≤ z.q2 then true else z.add)
  some ⟨p, q1, r1, q2, r2, add⟩

/-- `delta`. -/
def checkedDelta (d : ℕ) (z : MagicState) : Option ℕ := do
  let below ← u32Sub? d 1
  u32Sub? below z.r2

end MagicState

def checkedLoop (d nc : ℕ) : ℕ → MagicState → Option MagicState
  | 0, _ => none
  | fuel + 1, z => do
    let z ← z.checkedStep d nc
    let delta ← z.checkedDelta d
    if 64 ≤ z.p ∨ ¬ (z.q1 < delta ∨ z.q1 = delta ∧ z.r1 = 0) then some z
    else checkedLoop d nc fuel z

def checkedStart (d nc : ℕ) : Option MagicState := do
  let r1 ← u32Sub? 0x80000000 (0x80000000 / nc * nc % 2 ^ 32)
  let r2 ← u32Sub? 0x7fffffff (0x7fffffff / d * d % 2 ^ 32)
  some ⟨31, 0x80000000 / nc, r1, 0x7fffffff / d, r2, false⟩

/-- `magicu32`, for which at most so many rounds are waited. -/
def checkedMagicu32 (fuel d : ℕ) : Option (Option (ℕ × ℕ × Bool)) :=
  if d < 2 then some none
  else do
    let nc ← u32Sub? 0xffffffff (u32Sub 0 d % d)
    let start ← checkedStart d nc
    let z ← checkedLoop d nc fuel start
    let s ← u32Sub? z.p 32
    some (some ((z.q2 + 1) % 2 ^ 32, s, z.add))

/-! ### No operation fails -/

section
variable {d nc : ℕ} {z : MagicState}

theorem MagicInv.bounds (h : MagicInv d nc z) (hd : 0 < d) (hnc : 0 < nc) :
    z.r1 < nc ∧ z.r2 < d := by
  rw [h.r1, h.r2]
  exact ⟨Nat.mod_lt _ hnc, Nat.mod_lt _ hd⟩

theorem checkedStep_eq (hd32 : d < 2 ^ 32) (hp : z.p < 64) (hr1 : z.r1 < nc) (hr2 : z.r2 < d) :
    z.checkedStep d nc = some (z.step d nc) := by
  have hadd : ∀ (b : Bool) (k : ℕ),
      (if k ≤ z.q2 then true else b) = (b || decide (k ≤ z.q2)) := by
    intro b k
    by_cases hk : k ≤ z.q2 <;> simp [hk]
  have hp1 : u32Add? z.p 1 = some (z.p + 1) := u32Add?_of_lt (by omega)
  have hr : u32Add? z.r2 1 = some (z.r2 + 1) := u32Add?_of_lt (by omega)
  simp only [MagicState.checkedStep, Option.bind_eq_bind, hp1, hr, u32Sub?_of_le hr1.le,
    u32Sub?_of_le hr2.le, Option.bind_some, hadd]
  -- What is left are the four combinations of the two comparisons.
  by_cases h1 : nc - z.r1 ≤ z.r1 <;> by_cases h2 : d - z.r2 ≤ z.r2 + 1 <;>
    simp [MagicState.step, h1, h2]

theorem checkedDelta_eq (hr2 : z.r2 < d) : z.checkedDelta d = some (d - 1 - z.r2) := by
  have h1 : u32Sub? d 1 = some (d - 1) := u32Sub?_of_le (by omega)
  have h2 : u32Sub? (d - 1) z.r2 = some (d - 1 - z.r2) := u32Sub?_of_le (by omega)
  simp [MagicState.checkedDelta, h1, h2]

theorem checkedLoop_eq (hd : 2 ≤ d) (hd32 : d < 2 ^ 32) (hnc : 0 < nc) (hnc32 : nc < 2 ^ 32)
    (n fuel : ℕ) (h : MagicInv d nc z) (hn : z.p + (n + 1) = 64) (hfuel : n + 1 ≤ fuel) :
    checkedLoop d nc fuel z = some (magicLoop d nc (n + 1) z) ∧
      (magicLoop d nc (n + 1) z).p ≤ 64 := by
  induction n generalizing z fuel with
  | zero =>
      obtain ⟨fuel, rfl⟩ : ∃ m, fuel = m + 1 := ⟨fuel - 1, by omega⟩
      obtain ⟨hr1, hr2⟩ := h.bounds (by omega) hnc
      have hinv := magicInv_step hd hd32 hnc hnc32 h
      have hp : (z.step d nc).p = 64 := hn
      have hlast : magicLoop d nc 1 z = z.step d nc := by
        rw [magicLoop]
        exact ite_self _
      rw [checkedLoop, checkedStep_eq hd32 (by omega) hr1 hr2, hlast]
      refine ⟨?_, hp.le⟩
      rw [Option.bind_eq_bind, Option.bind_some,
        checkedDelta_eq (hinv.bounds (by omega) hnc).2, Option.bind_eq_bind, Option.bind_some,
        if_pos (.inl hp.ge)]
  | succ n ih =>
      obtain ⟨fuel, rfl⟩ : ∃ m, fuel = m + 1 := ⟨fuel - 1, by omega⟩
      obtain ⟨hr1, hr2⟩ := h.bounds (by omega) hnc
      have hinv := magicInv_step hd hd32 hnc hnc32 h
      have hp : (z.step d nc).p = z.p + 1 := rfl
      have hrest := ih fuel hinv (by omega) (by omega)
      rw [checkedLoop, checkedStep_eq hd32 (by omega) hr1 hr2, Option.bind_eq_bind,
        Option.bind_some, checkedDelta_eq (hinv.bounds (by omega) hnc).2, Option.bind_eq_bind,
        Option.bind_some, magicLoop]
      by_cases hstop : (z.step d nc).stops d = true
      · rw [if_pos (of_decide_eq_true hstop), if_pos hstop]
        exact ⟨rfl, by omega⟩
      · rw [if_neg (fun hs => hstop (decide_eq_true hs)), if_neg hstop]
        exact hrest

theorem checkedStart_eq : checkedStart d nc = some ⟨31, 0x80000000 / nc,
    0x80000000 - 0x80000000 / nc * nc % 2 ^ 32, 0x7fffffff / d,
    0x7fffffff - 0x7fffffff / d * d % 2 ^ 32, false⟩ := by
  have h1 := Nat.div_mul_le_self 0x80000000 nc
  have h2 := Nat.div_mul_le_self 0x7fffffff d
  rw [checkedStart, u32Sub?_of_le (by omega), u32Sub?_of_le (by omega)]
  rfl

theorem checkedMagicu32_eq (hd : 2 ≤ d) (hd32 : d < 2 ^ 32) {fuel : ℕ} (hfuel : 33 ≤ fuel) :
    checkedMagicu32 fuel d = some (magicu32 d) := by
  obtain ⟨-, -, hnc32, hnc⟩ := magicBound_spec hd hd32
  obtain ⟨-, hp, -⟩ := magicLoop_spec hd hd32 (by omega) hnc32 33 magicInv_start rfl
  have hrem : u32Sub 0 d % d ≤ 0xffffffff := by
    have hlt : u32Sub 0 d % d < d := Nat.mod_lt _ (by omega)
    omega
  have hloop := (checkedLoop_eq hd hd32 (by omega) hnc32 32 fuel magicInv_start rfl hfuel).1
  have hp31 := hp (by omega)
  rw [checkedMagicu32, if_neg (by omega), magicu32, if_neg (by omega), u32Sub?_of_le hrem]
  show ((checkedStart d (magicBound d)).bind fun start => _) = _
  rw [checkedStart_eq, Option.bind_some]
  show ((checkedLoop d (magicBound d) fuel _).bind fun z => _) = _
  rw [hloop, Option.bind_some, u32Sub?_of_le hp31]
  rfl

end

/-- The search fails nowhere and ends by 64, without a correction its multiplier divides
every word of 32 bits, and the divisions recovered are those products. -/
theorem magicu32_exact :
    (∀ d, 2 ≤ d → d < 2 ^ 32 →
      (∀ fuel, 33 ≤ fuel → checkedMagicu32 fuel d = some (magicu32 d)) ∧
      (∃ start z, checkedStart d (magicBound d) = some start ∧ z.p ≤ 64 ∧
        ∀ fuel, 33 ≤ fuel → checkedLoop d (magicBound d) fuel start = some z) ∧
      ∀ m s, magicu32 d = some (m, s, false) →
        ∀ x, x < 2 ^ 32 → x * m / 2 ^ (32 + s) = x / d) ∧
    ∀ shifted t r, tryMagicUdiv shifted t = some r →
      ∃ (x : Expr) (m d n : ℕ), t = n ∧ 2 ≤ d ∧ d < 2 ^ 32 ∧ m < 2 ^ 32 ∧
        r = .binary .udiv x (.const d (.ofBits 32)) ∧
        ∀ v, shifted.peelCast.eval v = x.eval v * BitVec.ofNat 64 m ∧
          ((x.eval v).toNat < 2 ^ 32 →
            (x.eval v).toNat * m / 2 ^ n = (x.eval v).toNat / d ∧
              r.eval v = shifted.peelCast.eval v >>> n) := by
  refine ⟨fun d hd hd32 => ⟨fun fuel hfuel => checkedMagicu32_eq hd hd32 hfuel, ?_, ?_⟩, ?_⟩
  · obtain ⟨-, -, hnc32, hnc⟩ := magicBound_spec hd hd32
    have hloop := fun fuel => checkedLoop_eq hd hd32 (show 0 < magicBound d by omega) hnc32 32 fuel
      magicInv_start rfl
    exact ⟨_, _, checkedStart_eq, (hloop 33 le_rfl).2, fun fuel hfuel => (hloop fuel hfuel).1⟩
  · intro m s h x hx
    rw [Nat.add_comm]
    exact (magicu32_spec hd hd32 h).2 x hx
  · intro shifted t r h
    obtain ⟨x, m, d, n, rfl, rfl, hpeel, hn, -, hd, hd32, hmagic⟩ := tryMagicUdiv_some h
    obtain ⟨hm, hdiv⟩ := magicu32_spec hd hd32 hmagic
    refine ⟨x, m, d, n, rfl, hd, hd32, hm, rfl, fun v => ⟨hpeel v, fun hx => ⟨?_, ?_⟩⟩⟩
    · rw [← hdiv _ hx, Nat.sub_add_cancel hn]
    · show x.eval v / BitVec.ofInt 64 (d : ℤ) = _
      rw [hpeel, Lift.ofInt_nat]
      exact magic_word hx hn hd hd32 hmagic

/-- The multiplier of 10, and the largest word. -/
theorem magicu32_exact_ten : 4294967295 * 0xcccccccd / 2 ^ (32 + 3) = 4294967295 / 10 :=
  (magicu32_exact.1 10 (by omega) (by omega)).2.2 0xcccccccd 3 (by decide +kernel) _ (by omega)

end Aret
