/-
Products and quotients of two words on a host without integers of 128 bits.

* `soft_same_iff` — these helpers and those of a host with such integers do the
  same on every product, and on a quotient exactly when it fits and nothing is
  lost on the way.
-/
import Aret.LiftMul

namespace Aret.Lift

/-! ### The helpers -/

/-- `(uint32_t)x`, as a word again. -/
def low32 (x : Word) : Word := (x.setWidth 32).setWidth 64

/-- `__ix_mul64hi`. -/
def softMul64hi (a b : Word) : Word :=
  let al := low32 a
  let ah := a >>> 32
  let bl := low32 b
  let bh := b >>> 32
  let ll := al * bl
  let lh := al * bh
  let hl := ah * bl
  let hh := ah * bh
  let cr := (ll >>> 32) + low32 lh + low32 hl
  hh + (lh >>> 32) + (hl >>> 32) + (cr >>> 32)

/-- `__ix_imul64hi`. -/
def softImul64hi (a b : Word) : Word :=
  let hi := softMul64hi a b
  let hi := if a.toInt < 0 then hi - b else hi
  if b.toInt < 0 then hi - a else hi

def dividendBit (hi lo : Word) (i : ℕ) : Word :=
  (if 64 ≤ i then hi >>> (i - 64) else lo >>> i) &&& 1

/-- The loop of `__ix_divmod128`, over the bits below the given one. -/
def divmodLoop (hi lo d : Word) : ℕ → Word → Word → Word × Word
  | 0, q, r => (q, r)
  | i + 1, q, r =>
    -- The shift drops the top bit of the remainder.
    let r := r <<< 1 ||| dividendBit hi lo i
    if d ≠ 0 ∧ d ≤ r then divmodLoop hi lo d i (if i < 64 then q ||| (1 : Word) <<< i else q) (r - d)
    else divmodLoop hi lo d i q r

/-- `__ix_divmod128`: a quotient, of which the low word is kept, and a remainder. -/
def divmod128 (hi lo d : Word) : Word × Word := divmodLoop hi lo d 128 0 0

/-- `__ix_udiv`. -/
def softUdiv (hi lo d : Word) : Except Fault Word :=
  if d = 0 then .error .trap else .ok (divmod128 hi lo d).1

/-- `__ix_umod`. -/
def softUmod (hi lo d : Word) : Except Fault Word :=
  if d = 0 then .error .trap else .ok (divmod128 hi lo d).2

/-- `-(int64_t)x`, which no `int64_t` is for the least one. -/
def negSigned (x : Word) : Except Fault Word :=
  if x = BitVec.intMin 64 then .error .undefined else .ok (-x)

def dividendAbs (hi lo : Word) : Word × Word :=
  if hi.toInt < 0 then (~~~hi + ofBool (~~~lo + 1 = 0), ~~~lo + 1) else (hi, lo)

def divisorAbs (d : Word) : Except Fault Word := if d.toInt < 0 then negSigned d else .ok d

/-- `neg?(uint64_t)(-(int64_t)x):x`. -/
def signed (neg : Bool) (x : Word) : Except Fault Word := if neg then negSigned x else .ok x

/-- `__ix_idiv`. -/
def softIdiv (hi lo d : Word) : Except Fault Word :=
  if d = 0 then .error .trap
  else do
    let n := dividendAbs hi lo
    let dd ← divisorAbs d
    signed (xor (hi.toInt < 0) (d.toInt < 0)) (divmod128 n.1 n.2 dd).1

/-- `__ix_imod`. -/
def softImod (hi lo d : Word) : Except Fault Word :=
  if d = 0 then .error .trap
  else do
    let n := dividendAbs hi lo
    let dd ← divisorAbs d
    signed (hi.toInt < 0) (divmod128 n.1 n.2 dd).2

/-- The helpers where `__SIZEOF_INT128__` is not defined; the others are the same everywhere. -/
def softHelper (name : String) (args : List Word) : Except Fault Word :=
  match name, args with
  | "__ix_mul64hi", [a, b] => .ok (softMul64hi a b)
  | "__ix_imul64hi", [a, b] => .ok (softImul64hi a b)
  | "__ix_udiv", [hi, lo, d] => softUdiv hi lo d
  | "__ix_umod", [hi, lo, d] => softUmod hi lo d
  | "__ix_idiv", [hi, lo, d] => softIdiv hi lo d
  | "__ix_imod", [hi, lo, d] => softImod hi lo d
  | _, _ => helper name args

def SameHelper (name : String) (args : List Word) : Prop := softHelper name args = helper name args

/-! ### Products -/

theorem low32_toNat (x : Word) : (low32 x).toNat = x.toNat % 2 ^ 32 := by
  simp only [low32, BitVec.toNat_setWidth]
  omega

theorem softMul64hi_toNat (a b : Word) : (softMul64hi a b).toNat = a.toNat * b.toNat / 2 ^ 64 := by
  have ha := a.isLt
  have hb := b.isLt
  simp only [softMul64hi, BitVec.toNat_add, BitVec.toNat_mul, BitVec.toNat_ushiftRight, low32_toNat,
    Nat.shiftRight_eq_div_pow]
  -- The half words, and the four products as words of their own.
  obtain ⟨al, hal⟩ : ∃ al, al = a.toNat % 2 ^ 32 := ⟨_, rfl⟩
  obtain ⟨ah, hah⟩ : ∃ ah, ah = a.toNat / 2 ^ 32 := ⟨_, rfl⟩
  obtain ⟨bl, hbl⟩ : ∃ bl, bl = b.toNat % 2 ^ 32 := ⟨_, rfl⟩
  obtain ⟨bh, hbh⟩ : ∃ bh, bh = b.toNat / 2 ^ 32 := ⟨_, rfl⟩
  rw [← hal, ← hah, ← hbl, ← hbh]
  have hprod : a.toNat * b.toNat = ah * bh * 2 ^ 64 + (al * bh + ah * bl) * 2 ^ 32 + al * bl := by
    have h1 : a.toNat = ah * 2 ^ 32 + al := by omega
    have h2 : b.toNat = bh * 2 ^ 32 + bl := by omega
    rw [h1, h2]
    ring
  have hbound : ∀ x y : ℕ, x < 2 ^ 32 → y < 2 ^ 32 → x * y ≤ (2 ^ 32 - 1) * (2 ^ 32 - 1) := by
    intro x y hx hy
    exact Nat.mul_le_mul (by omega) (by omega)
  have hll := hbound al bl (by omega) (by omega)
  have hlh := hbound al bh (by omega) (by omega)
  have hhl := hbound ah bl (by omega) (by omega)
  have hhh := hbound ah bh (by omega) (by omega)
  rw [hprod]
  generalize al * bl = ll at *
  generalize al * bh = lh at *
  generalize ah * bl = hl at *
  generalize ah * bh = hh at *
  omega

theorem softImul64hi_eq (a b : Word) :
    softImul64hi a b = BitVec.ofInt 64 (a.toInt * b.toInt / 2 ^ 64) := by
  have ha := a.isLt
  have hb := b.isLt
  have hm : a.toNat * b.toNat < 2 ^ 64 * 2 ^ 64 := by
    exact Nat.mul_lt_mul'' ha hb
  have hmul := softMul64hi_toNat a b
  have hta := BitVec.toInt_eq_toNat_cond a
  have htb := BitVec.toInt_eq_toNat_cond b
  have hcast : ((a.toNat * b.toNat : ℕ) : ℤ) = a.toNat * b.toNat := by
    push_cast
    rfl
  have hprod : a.toInt * b.toInt = (a.toNat * b.toNat : ℕ) -
      2 ^ 64 * ((if a.toInt < 0 then b.toNat else 0) + (if b.toInt < 0 then a.toNat else 0)) +
      2 ^ 128 * (if a.toInt < 0 ∧ b.toInt < 0 then 1 else 0) := by
    rw [hcast]
    split at hta <;> split at htb
    · have h1 : ¬ a.toInt < 0 := by omega
      have h2 : ¬ b.toInt < 0 := by omega
      rw [if_neg h1, if_neg h2, if_neg (by tauto), hta, htb]
      ring
    · have h1 : ¬ a.toInt < 0 := by omega
      have h2 : b.toInt < 0 := by omega
      rw [if_neg h1, if_pos h2, if_neg (by tauto), hta, htb]
      push_cast
      ring
    · have h1 : a.toInt < 0 := by omega
      have h2 : ¬ b.toInt < 0 := by omega
      rw [if_pos h1, if_neg h2, if_neg (by tauto), hta, htb]
      push_cast
      ring
    · have h1 : a.toInt < 0 := by omega
      have h2 : b.toInt < 0 := by omega
      rw [if_pos h1, if_pos h2, if_pos ⟨h1, h2⟩, hta, htb]
      push_cast
      ring
  apply BitVec.eq_of_toNat_eq
  rw [BitVec.toNat_ofInt, hprod]
  generalize a.toNat * b.toNat = m at *
  simp only [softImul64hi]
  by_cases h1 : a.toInt < 0 <;> by_cases h2 : b.toInt < 0 <;>
    simp only [h1, h2, if_true, if_false, and_true, and_false, BitVec.toNat_sub] <;> omega

/-! ### The division loop -/

section
variable {hi lo d : Word} {i : ℕ}

theorem dividendBit_toNat (h : i < 128) :
    (dividendBit hi lo i).toNat = wide hi lo / 2 ^ i % 2 := by
  have hlo := lo.isLt
  have hand : ∀ x : Word, (x &&& 1).toNat = x.toNat % 2 := by
    intro x
    rw [BitVec.toNat_and]
    exact Nat.and_one_is_mod _
  rw [dividendBit, hand, wide]
  split
  · rename_i h64
    -- The low word ends below the bit.
    obtain ⟨j, rfl⟩ := Nat.exists_eq_add_of_le h64
    rw [BitVec.toNat_ushiftRight, Nat.shiftRight_eq_div_pow, Nat.add_sub_cancel_left, pow_add,
      ← Nat.div_div_eq_div_mul]
    congr 2
    omega
  · rename_i h64
    rw [BitVec.toNat_ushiftRight, Nat.shiftRight_eq_div_pow]
    obtain ⟨j, hj⟩ := Nat.exists_eq_add_of_le (show i + 1 ≤ 64 by omega)
    -- What the high word adds is even.
    have hpow : 2 ^ 64 = 2 ^ (i + 1 + j) := congrArg _ hj
    have hsplit : hi.toNat * 2 ^ 64 = 2 ^ i * (2 * (hi.toNat * 2 ^ j)) := by
      rw [hpow]
      ring
    rw [hsplit, Nat.mul_add_div (Nat.two_pow_pos i), Nat.mul_add_mod]

variable (hi lo) in
theorem shifted_toNat (r : Word) (h : i < 128) :
    (r <<< 1 ||| dividendBit hi lo i).toNat =
      2 * r.toNat % 2 ^ 64 + wide hi lo / 2 ^ i % 2 := by
  have hb : wide hi lo / 2 ^ i % 2 < 2 ^ 1 := Nat.mod_lt _ (by decide)
  have heven : 2 * r.toNat % 2 ^ 64 = 2 ^ 1 * (r.toNat % 2 ^ 63) := by omega
  rw [BitVec.toNat_or, BitVec.toNat_shiftLeft, dividendBit_toNat h, Nat.shiftLeft_eq,
    show r.toNat * 2 ^ 1 % 2 ^ 64 = 2 * r.toNat % 2 ^ 64 by omega, heven,
    Nat.two_pow_add_eq_or_of_lt hb]

theorem set_bit {q : Word} (h : i < 64) (hq : q.toNat % 2 ^ (i + 1) = 0) :
    (q ||| (1 : Word) <<< i).toNat = q.toNat + 2 ^ i := by
  have hone : ((1 : Word) <<< i).toNat = 2 ^ i := by
    rw [BitVec.toNat_shiftLeft, Nat.shiftLeft_eq]
    show 1 * 2 ^ i % 2 ^ 64 = 2 ^ i
    rw [one_mul, Nat.mod_eq_of_lt (Nat.pow_lt_pow_right (by decide) h)]
  have hlt : 2 ^ i < 2 ^ (i + 1) := Nat.pow_lt_pow_right (by decide) (Nat.lt_succ_self i)
  have hmul := Nat.div_add_mod q.toNat (2 ^ (i + 1))
  rw [hq, Nat.add_zero] at hmul
  rw [BitVec.toNat_or, hone, ← hmul, Nat.two_pow_add_eq_or_of_lt hlt]

theorem add_bit_mod {x : ℕ} (h : i < 64) (hx : x % 2 ^ (i + 1) = 0) :
    (x + 2 ^ i) % 2 ^ 64 = x % 2 ^ 64 + 2 ^ i := by
  obtain ⟨j, hj⟩ := Nat.exists_eq_add_of_le (show i + 1 ≤ 64 by omega)
  have hpow : 2 ^ 64 = 2 ^ (i + 1) * 2 ^ j := (congrArg _ hj).trans (pow_add ..)
  have hx' : x = 2 ^ (i + 1) * (x / 2 ^ (i + 1)) := by
    have := Nat.div_add_mod x (2 ^ (i + 1))
    omega
  have hmod : x % 2 ^ 64 = 2 ^ (i + 1) * (x / 2 ^ (i + 1) % 2 ^ j) := by
    rw [hpow, ← Nat.mul_mod_mul_left, ← hx']
  have hlt : x / 2 ^ (i + 1) % 2 ^ j + 1 ≤ 2 ^ j := Nat.mod_lt _ (Nat.two_pow_pos j)
  have hle := Nat.mul_le_mul_left (2 ^ (i + 1)) hlt
  rw [Nat.mul_add, ← hmod, ← hpow, Nat.mul_one] at hle
  rw [← Nat.mod_add_mod, Nat.mod_eq_of_lt (by omega)]

variable (hi lo d) in
def quotAt (i : ℕ) : Word := BitVec.ofNat 64 (wide hi lo / 2 ^ i / d.toNat * 2 ^ i)

variable (hi lo d) in
def remAt (i : ℕ) : Word := BitVec.ofNat 64 (wide hi lo / 2 ^ i % d.toNat)

variable (hi lo i) in
theorem remAt_toNat (hd : d ≠ 0) : (remAt hi lo d i).toNat = wide hi lo / 2 ^ i % d.toNat := by
  have hd' : 0 < d.toNat := Nat.pos_of_ne_zero fun h => hd (BitVec.eq_of_toNat_eq h)
  have hlt := Nat.mod_lt (wide hi lo / 2 ^ i) hd'
  have := d.isLt
  rw [remAt, BitVec.toNat_ofNat, Nat.mod_eq_of_lt (by omega)]

variable (hi lo d) in
theorem quotAt_mod (h : i ≤ 64) : (quotAt hi lo d i).toNat % 2 ^ i = 0 := by
  rw [quotAt, BitVec.toNat_ofNat, Nat.mod_mod_of_dvd _ (Nat.pow_dvd_pow 2 h), Nat.mul_mod_left]

variable (hi lo i) in
theorem wide_div_succ : wide hi lo / 2 ^ i = 2 * (wide hi lo / 2 ^ (i + 1)) + wide hi lo / 2 ^ i % 2 := by
  rw [pow_succ, ← Nat.div_div_eq_div_mul]
  omega

theorem divmodLoop_step (hd : d ≠ 0) (hi' : i < 128)
    (hkeep : wide hi lo / 2 ^ (i + 1) % d.toNat < 2 ^ 63) :
    divmodLoop hi lo d (i + 1) (quotAt hi lo d (i + 1)) (remAt hi lo d (i + 1)) =
      divmodLoop hi lo d i (quotAt hi lo d i) (remAt hi lo d i) := by
  have hd' : 0 < d.toNat := Nat.pos_of_ne_zero fun h => hd (BitVec.eq_of_toNat_eq h)
  have hr := remAt_toNat hi lo (i + 1) hd
  have hlt := Nat.mod_lt (wide hi lo / 2 ^ (i + 1)) hd'
  obtain ⟨b, hb⟩ : ∃ b, b = wide hi lo / 2 ^ i % 2 := ⟨_, rfl⟩
  have hnext : wide hi lo / 2 ^ i = 2 * (wide hi lo / 2 ^ (i + 1)) + b := hb ▸ wide_div_succ hi lo i
  have hshift := shifted_toNat hi lo (remAt hi lo d (i + 1)) hi'
  rw [hr, ← hb, Nat.mod_eq_of_lt (by omega)] at hshift
  -- Quotient and remainder of the bits read so far, with one more bit.
  obtain ⟨p, hp⟩ : ∃ p, p = wide hi lo / 2 ^ (i + 1) := ⟨_, rfl⟩
  rw [← hp] at hr hlt hnext hshift hkeep
  have hdm := Nat.div_add_mod p d.toNat
  rw [divmodLoop]
  by_cases hle : d.toNat ≤ 2 * (p % d.toNat) + b
  · have hquot : wide hi lo / 2 ^ i / d.toNat = 2 * (p / d.toNat) + 1 := by
      rw [hnext]
      apply Nat.div_eq_of_lt_le
      · rw [Nat.add_mul, Nat.mul_assoc, Nat.mul_comm (p / d.toNat)]
        omega
      · rw [Nat.add_mul, Nat.add_mul, Nat.mul_assoc, Nat.mul_comm (p / d.toNat)]
        omega
    have hrem : wide hi lo / 2 ^ i % d.toNat = 2 * (p % d.toNat) + b - d.toNat := by
      have hdm' := Nat.div_add_mod (wide hi lo / 2 ^ i) d.toNat
      rw [hquot, hnext, Nat.mul_add, ← Nat.mul_assoc, Nat.mul_comm _ 2, Nat.mul_assoc] at hdm'
      rw [hnext]
      omega
    have hcond : d ≠ 0 ∧ d ≤ remAt hi lo d (i + 1) <<< 1 ||| dividendBit hi lo i :=
      ⟨hd, BitVec.le_def.mpr (by rw [hshift]; exact hle)⟩
    have hr' : (remAt hi lo d (i + 1) <<< 1 ||| dividendBit hi lo i) - d = remAt hi lo d i := by
      apply BitVec.eq_of_toNat_eq
      rw [BitVec.toNat_sub, hshift, remAt_toNat hi lo i hd, hrem]
      omega
    have hq' : (if i < 64 then quotAt hi lo d (i + 1) ||| (1 : Word) <<< i
        else quotAt hi lo d (i + 1)) = quotAt hi lo d i := by
      apply BitVec.eq_of_toNat_eq
      have hexp : (2 * (p / d.toNat) + 1) * 2 ^ i = p / d.toNat * 2 ^ (i + 1) + 2 ^ i := by ring
      split
      · rename_i h64
        have hmod := quotAt_mod hi lo d (show i + 1 ≤ 64 by omega)
        rw [set_bit h64 hmod, quotAt, quotAt, BitVec.toNat_ofNat, BitVec.toNat_ofNat, hquot, ← hp,
          hexp, add_bit_mod h64 (Nat.mul_mod_left _ _)]
      · rename_i h64
        -- The bit is above the word that is kept.
        obtain ⟨j, rfl⟩ := Nat.exists_eq_add_of_le (Nat.le_of_not_lt h64)
        rw [quotAt, quotAt, BitVec.toNat_ofNat, BitVec.toNat_ofNat, hquot, ← hp, hexp, pow_add 2 64 j,
          Nat.add_mul_mod_self_left]
    rw [if_pos hcond, hr', hq']
  · have hquot : wide hi lo / 2 ^ i / d.toNat = 2 * (p / d.toNat) := by
      rw [hnext]
      apply Nat.div_eq_of_lt_le
      · rw [Nat.mul_assoc, Nat.mul_comm (p / d.toNat)]
        omega
      · rw [Nat.add_mul, Nat.mul_assoc, Nat.mul_comm (p / d.toNat)]
        omega
    have hrem : wide hi lo / 2 ^ i % d.toNat = 2 * (p % d.toNat) + b := by
      have hdm' := Nat.div_add_mod (wide hi lo / 2 ^ i) d.toNat
      rw [hquot, hnext, ← Nat.mul_assoc, Nat.mul_comm _ 2, Nat.mul_assoc] at hdm'
      rw [hnext]
      omega
    have hcond : ¬ (d ≠ 0 ∧ d ≤ remAt hi lo d (i + 1) <<< 1 ||| dividendBit hi lo i) := by
      rintro ⟨-, h⟩
      rw [BitVec.le_def, hshift] at h
      exact hle h
    have hr' : remAt hi lo d (i + 1) <<< 1 ||| dividendBit hi lo i = remAt hi lo d i := by
      apply BitVec.eq_of_toNat_eq
      rw [hshift, remAt_toNat hi lo i hd, hrem]
    have hq' : quotAt hi lo d (i + 1) = quotAt hi lo d i := by
      rw [quotAt, quotAt, hquot, ← hp, pow_succ]
      congr 1
      ring
    rw [if_neg hcond, hr', hq']

theorem divmodLoop_run (hd : d ≠ 0) (h : i ≤ 128)
    (hkeep : ∀ k, i ≤ k → k < 128 → wide hi lo / 2 ^ (k + 1) % d.toNat < 2 ^ 63) :
    divmod128 hi lo d = divmodLoop hi lo d i (quotAt hi lo d i) (remAt hi lo d i) := by
  induction h using Nat.decreasingInduction with
  | self =>
    have hzero : wide hi lo / 2 ^ 128 = 0 := by
      have := hi.isLt
      have := lo.isLt
      rw [wide]
      omega
    rw [quotAt, remAt, hzero, Nat.zero_mod, Nat.zero_div, Nat.zero_mul]
    rfl
  | of_succ i hi' ih =>
    rw [ih fun k hk => hkeep k (Nat.le_of_succ_le hk), divmodLoop_step hd hi']
    exact hkeep i le_rfl hi'

theorem divmod128_exact (hd : d ≠ 0)
    (hkeep : ∀ k < 128, wide hi lo / 2 ^ (k + 1) % d.toNat < 2 ^ 63) :
    divmod128 hi lo d =
      (BitVec.ofNat 64 (wide hi lo / d.toNat), BitVec.ofNat 64 (wide hi lo % d.toNat)) := by
  rw [divmodLoop_run hd (Nat.zero_le 128) fun k _ hk => hkeep k hk, divmodLoop, quotAt, remAt, pow_zero,
    Nat.div_one, Nat.mul_one]

theorem divmodLoop_lt {q : Word} (r : Word) (h : i ≤ 64) (hq : q.toNat % 2 ^ i = 0) :
    (divmodLoop hi lo d i q r).1.toNat < q.toNat + 2 ^ i := by
  induction i generalizing q r with
  | zero => exact Nat.lt_succ_self _
  | succ i ih =>
    have hlow : q.toNat % 2 ^ i = 0 := by
      rw [← Nat.mod_mod_of_dvd _ (Nat.pow_dvd_pow 2 (Nat.le_succ i)), hq, Nat.zero_mod]
    rw [divmodLoop]
    split
    · have hset := set_bit (i := i) (by omega) hq
      rw [if_pos (by omega)]
      refine lt_of_lt_of_eq (ih _ (by omega) ?_) ?_
      · rw [hset, Nat.add_mod_right]
        exact hlow
      · rw [hset, pow_succ]
        omega
    · refine lt_of_lt_of_le (ih _ (by omega) hlow) ?_
      rw [pow_succ]
      omega

theorem divmod128_lost (hd : d ≠ 0) (h : i < 64)
    (hkeep : ∀ k, i < k → k < 128 → wide hi lo / 2 ^ (k + 1) % d.toNat < 2 ^ 63)
    (hlost : 2 ^ 63 ≤ wide hi lo / 2 ^ (i + 1) % d.toNat) :
    (divmod128 hi lo d).1.toNat < wide hi lo / d.toNat := by
  have hd' : 0 < d.toNat := Nat.pos_of_ne_zero fun h => hd (BitVec.eq_of_toNat_eq h)
  have hr := remAt_toNat hi lo (i + 1) hd
  have hshift := shifted_toNat hi lo (remAt hi lo d (i + 1)) (show i < 128 by omega)
  have hlt := Nat.mod_lt (wide hi lo / 2 ^ (i + 1)) hd'
  have hnext := wide_div_succ hi lo i
  have hdm := Nat.div_add_mod (wide hi lo / 2 ^ (i + 1)) d.toNat
  -- Without its top bit the remainder is below the divisor, and this bit is left out.
  have hskip : ¬ (d ≠ 0 ∧ d ≤ remAt hi lo d (i + 1) <<< 1 ||| dividendBit hi lo i) := by
    rintro ⟨-, hle⟩
    rw [BitVec.le_def, hshift, hr] at hle
    omega
  have hmod := quotAt_mod hi lo d (show i + 1 ≤ 64 by omega)
  have hlow : (quotAt hi lo d (i + 1)).toNat % 2 ^ i = 0 := by
    rw [← Nat.mod_mod_of_dvd _ (Nat.pow_dvd_pow 2 (Nat.le_succ i)), hmod, Nat.zero_mod]
  have hsmall : (divmod128 hi lo d).1.toNat < (quotAt hi lo d (i + 1)).toNat + 2 ^ i := by
    rw [divmodLoop_run hd (show i + 1 ≤ 128 by omega) fun k hk => hkeep k hk, divmodLoop, if_neg hskip]
    exact divmodLoop_lt _ (by omega) hlow
  have hquot : (quotAt hi lo d (i + 1)).toNat ≤ wide hi lo / 2 ^ (i + 1) / d.toNat * 2 ^ (i + 1) := by
    rw [quotAt, BitVec.toNat_ofNat]
    exact Nat.mod_le _ _
  -- The bit belongs to the quotient.
  have hone : 2 * (wide hi lo / 2 ^ (i + 1) / d.toNat) + 1 ≤ wide hi lo / 2 ^ i / d.toNat := by
    rw [Nat.le_div_iff_mul_le hd', hnext, Nat.add_mul, Nat.mul_assoc, Nat.mul_comm (_ / d.toNat)]
    omega
  have htrue : wide hi lo / 2 ^ i / d.toNat * 2 ^ i ≤ wide hi lo / d.toNat := by
    rw [Nat.div_div_eq_div_mul, Nat.mul_comm (2 ^ i), ← Nat.div_div_eq_div_mul]
    exact Nat.div_mul_le_self _ _
  have hmul := Nat.mul_le_mul_right (2 ^ i) hone
  rw [Nat.add_mul, one_mul, Nat.mul_comm 2, Nat.mul_assoc, ← pow_succ'] at hmul
  omega

end

/-! ### Quotients without signs -/

/-- The quotient fits a word, and no remainder that the loop shifts has its top bit set: each is that
of the leading bits of the dividend, once the high word is read. -/
def Divides (hi lo d : Word) : Prop :=
  hi < d ∧ ∀ k < 64, wide hi lo / 2 ^ (k + 1) % d.toNat < 2 ^ 63

section
variable {hi lo d : Word}

theorem toNat_pos (hd : d ≠ 0) : 0 < d.toNat :=
  Nat.pos_of_ne_zero fun h => hd (BitVec.eq_of_toNat_eq h)

variable (hi lo) in
theorem fits_iff (hd : d ≠ 0) : wide hi lo / d.toNat < 2 ^ 64 ↔ hi < d := by
  have hlo := lo.isLt
  rw [Nat.div_lt_iff_lt_mul (toNat_pos hd), BitVec.lt_def, wide]
  constructor
  · intro h
    by_contra hle
    have := Nat.mul_le_mul_right (2 ^ 64) (Nat.le_of_not_lt hle)
    omega
  · intro h
    have := Nat.mul_le_mul_right (2 ^ 64) (show hi.toNat + 1 ≤ d.toNat from h)
    rw [Nat.add_mul] at this
    omega

theorem leading_lt (k : ℕ) (h : 64 ≤ k) : wide hi lo / 2 ^ (k + 1) % d.toNat < 2 ^ 63 := by
  have hhi := hi.isLt
  have hlo := lo.isLt
  obtain ⟨j, rfl⟩ := Nat.exists_eq_add_of_le h
  have hle : wide hi lo / 2 ^ (64 + j + 1) ≤ wide hi lo / 2 ^ 65 :=
    Nat.div_le_div_left (Nat.pow_le_pow_right (by decide) (by omega)) (by decide)
  have hmod := Nat.mod_le (wide hi lo / 2 ^ (64 + j + 1)) d.toNat
  have hwide : wide hi lo / 2 ^ 65 < 2 ^ 63 := by
    rw [wide]
    omega
  omega

theorem exists_last {P : ℕ → Prop} {n : ℕ} (h : ∃ k < n, P k) :
    ∃ m < n, P m ∧ ∀ j, m < j → j < n → ¬ P j := by
  induction n with
  | zero =>
    obtain ⟨k, hk, -⟩ := h
    exact absurd hk (Nat.not_lt_zero k)
  | succ n ih =>
    by_cases hn : P n
    · exact ⟨n, Nat.lt_succ_self n, hn, fun j h1 h2 => by omega⟩
    · obtain ⟨k, hk, hP⟩ := h
      have hkn : k ≠ n := by
        rintro rfl
        exact hn hP
      obtain ⟨m, hm, hPm, hlast⟩ := ih ⟨k, by omega, hP⟩
      refine ⟨m, by omega, hPm, fun j h1 h2 => ?_⟩
      by_cases hj : j = n
      · rw [hj]
        exact hn
      · exact hlast j h1 (by omega)

theorem udiv_same_iff (hi lo d : Word) :
    (SameHelper "__ix_udiv" [hi, lo, d] ∧ SameHelper "__ix_umod" [hi, lo, d]) ↔
      d = 0 ∨ Divides hi lo d := by
  show (softUdiv hi lo d = udiv64 false hi lo d ∧ softUmod hi lo d = udiv64 true hi lo d) ↔ _
  by_cases hd : d = 0
  · rw [softUdiv, softUmod, udiv64, udiv64, if_pos hd, if_pos hd, if_pos hd, if_pos hd]
    exact iff_of_true ⟨rfl, rfl⟩ (Or.inl hd)
  · rw [softUdiv, softUmod, udiv64, udiv64, if_neg hd, if_neg hd, if_neg hd, if_neg hd,
      or_iff_right hd]
    constructor
    · rintro ⟨hq, -⟩
      have hfit : hi < d := by
        by_contra hlt
        have hbig := mt (fits_iff hi lo hd).mp hlt
        rw [if_pos (by omega)] at hq
        exact nomatch hq
      have hlt := (fits_iff hi lo hd).mpr hfit
      refine ⟨hfit, ?_⟩
      by_contra hlost
      -- The first remainder that is too large.
      push Not at hlost
      obtain ⟨m, hm, hmlost, hlast⟩ := exists_last hlost
      have hshort := divmod128_lost hd hm (fun j hj _ => ?_) hmlost
      · rw [if_neg (by omega), if_neg Bool.false_ne_true, Except.ok.injEq] at hq
        rw [hq, BitVec.toNat_ofNat, Nat.mod_eq_of_lt hlt] at hshort
        exact lt_irrefl _ hshort
      · by_cases h64 : 64 ≤ j
        · exact leading_lt j h64
        · exact Nat.lt_of_not_le (hlast j hj (by omega))
    · rintro ⟨hfit, hkeep⟩
      have hlt := (fits_iff hi lo hd).mpr hfit
      have hall : ∀ k < 128, wide hi lo / 2 ^ (k + 1) % d.toNat < 2 ^ 63 := by
        intro k _
        by_cases h64 : 64 ≤ k
        · exact leading_lt k h64
        · exact hkeep k (by omega)
      have hnot : ¬ 2 ^ 64 - 1 < wide hi lo / d.toNat := by omega
      rw [divmod128_exact hd hall, if_neg hnot, if_neg hnot, if_neg Bool.false_ne_true,
        if_pos (Eq.refl true)]
      constructor <;> rfl

end

/-! ### Quotients with signs -/

def DividesSigned (hi lo d : Word) : Prop :=
  d.toInt ≠ -2 ^ 63 ∧ (wideSigned hi lo).natAbs / d.toInt.natAbs < 2 ^ 63

section
variable {hi lo d : Word}

theorem dividendAbs_wide (hi lo : Word) :
    wide (dividendAbs hi lo).1 (dividendAbs hi lo).2 = (wideSigned hi lo).natAbs := by
  have hhi := hi.isLt
  have hlo := lo.isLt
  have htoInt := BitVec.toInt_eq_toNat_cond hi
  have hlow : (~~~lo + 1).toNat = (2 ^ 64 - lo.toNat) % 2 ^ 64 := by
    rw [BitVec.toNat_add, BitVec.toNat_not]
    show (2 ^ 64 - 1 - lo.toNat + 1) % 2 ^ 64 = _
    omega
  have hzero : ~~~lo + 1 = 0 ↔ lo.toNat = 0 := by
    rw [← BitVec.toNat_inj, hlow]
    show _ = 0 ↔ _
    omega
  have hhigh : (~~~hi + ofBool (~~~lo + 1 = 0)).toNat =
      (2 ^ 64 - 1 - hi.toNat + if lo.toNat = 0 then 1 else 0) % 2 ^ 64 := by
    rw [BitVec.toNat_add, BitVec.toNat_not, ofBool_toNat]
    by_cases h : lo.toNat = 0
    · rw [if_pos h, decide_eq_true (hzero.mpr h)]
      rfl
    · rw [if_neg h, decide_eq_false (mt hzero.mp h)]
      rfl
  rw [dividendAbs]
  split
  · rw [wide, wideSigned, hlow, hhigh]
    by_cases h : lo.toNat = 0
    · rw [if_pos h]
      split at htoInt <;> omega
    · rw [if_neg h]
      split at htoInt <;> omega
  · show hi.toNat * 2 ^ 64 + lo.toNat = (wideSigned hi lo).natAbs
    rw [wideSigned]
    split at htoInt <;> omega

theorem divisorAbs_eq (h : d.toInt ≠ -2 ^ 63) :
    ∃ dd : Word, divisorAbs d = .ok dd ∧ dd.toNat = d.toInt.natAbs := by
  have hd := d.isLt
  have htoInt := BitVec.toInt_eq_toNat_cond d
  rw [divisorAbs]
  split
  · have hmin : d ≠ BitVec.intMin 64 := by
      rintro rfl
      exact h (by decide)
    refine ⟨-d, if_neg hmin, ?_⟩
    rw [BitVec.toNat_neg]
    split at htoInt <;> omega
  · refine ⟨d, rfl, ?_⟩
    split at htoInt <;> omega

theorem divmod128_abs {dd : Word} (hd : d ≠ 0) (hdd : dd.toNat = d.toInt.natAbs) :
    divmod128 (dividendAbs hi lo).1 (dividendAbs hi lo).2 dd =
      (BitVec.ofNat 64 ((wideSigned hi lo).natAbs / d.toInt.natAbs),
        BitVec.ofNat 64 ((wideSigned hi lo).natAbs % d.toInt.natAbs)) := by
  have hdlt := d.isLt
  have htoInt := BitVec.toInt_eq_toNat_cond d
  have hpos := toNat_pos hd
  have hsmall : dd.toNat ≤ 2 ^ 63 := by
    split at htoInt <;> omega
  have hne : 0 < dd.toNat := by
    split at htoInt <;> omega
  have hdd0 : dd ≠ 0 := by
    rintro rfl
    exact lt_irrefl _ hne
  rw [divmod128_exact hdd0 fun k _ => lt_of_lt_of_le (Nat.mod_lt _ hne) hsmall, dividendAbs_wide, hdd]

theorem tdiv_eq (n m : ℤ) : n.tdiv m =
    if xor (n < 0) (m < 0) then -((n.natAbs / m.natAbs : ℕ) : ℤ) else (n.natAbs / m.natAbs : ℕ) := by
  by_cases hn : n < 0 <;> by_cases hm : m < 0
  · have h1 : n = -(n.natAbs : ℤ) := by omega
    have h2 : m = -(m.natAbs : ℤ) := by omega
    rw [decide_eq_true hn, decide_eq_true hm, if_neg (by decide)]
    conv_lhs => rw [h1, h2, Int.neg_tdiv, Int.tdiv_neg, neg_neg, ← Int.ofNat_tdiv]
  · have h1 : n = -(n.natAbs : ℤ) := by omega
    have h2 : m = (m.natAbs : ℤ) := by omega
    rw [decide_eq_true hn, decide_eq_false hm, if_pos (by decide)]
    conv_lhs => rw [h1, h2, Int.neg_tdiv, ← Int.ofNat_tdiv]
  · have h1 : n = (n.natAbs : ℤ) := by omega
    have h2 : m = -(m.natAbs : ℤ) := by omega
    rw [decide_eq_false hn, decide_eq_true hm, if_pos (by decide)]
    conv_lhs => rw [h1, h2, Int.tdiv_neg, ← Int.ofNat_tdiv]
  · have h1 : n = (n.natAbs : ℤ) := by omega
    have h2 : m = (m.natAbs : ℤ) := by omega
    rw [decide_eq_false hn, decide_eq_false hm, if_neg (by decide)]
    conv_lhs => rw [h1, h2, ← Int.ofNat_tdiv]

theorem tmod_eq (n m : ℤ) : n.tmod m =
    if n < 0 then -((n.natAbs % m.natAbs : ℕ) : ℤ) else (n.natAbs % m.natAbs : ℕ) := by
  have habs : n.tmod m = n.tmod m.natAbs := by
    by_cases hm : m < 0
    · have h2 : m = -(m.natAbs : ℤ) := by omega
      conv_lhs => rw [h2, Int.tmod_neg]
    · have h2 : m = (m.natAbs : ℤ) := by omega
      conv_lhs => rw [h2]
  rw [habs]
  by_cases hn : n < 0
  · have h1 : n = -(n.natAbs : ℤ) := by omega
    rw [if_pos hn]
    conv_lhs => rw [h1, Int.neg_tmod, ← Int.ofNat_tmod]
  · have h1 : n = (n.natAbs : ℤ) := by omega
    rw [if_neg hn]
    conv_lhs => rw [h1, ← Int.ofNat_tmod]

theorem wideSigned_neg (hi lo : Word) : wideSigned hi lo < 0 ↔ hi.toInt < 0 := by
  have hlo := lo.isLt
  rw [wideSigned]
  omega

theorem signed_ok (neg : Bool) {x : ℕ} (h : x < 2 ^ 63) :
    signed neg (BitVec.ofNat 64 x) = .ok (BitVec.ofInt 64 (if neg then -(x : ℤ) else x)) := by
  cases neg with
  | false => exact congrArg Except.ok (BitVec.ofInt_natCast 64 x).symm
  | true =>
    have hmin : BitVec.ofNat 64 x ≠ BitVec.intMin 64 := by
      intro he
      have he' := congrArg BitVec.toNat he
      rw [BitVec.toNat_ofNat, Nat.mod_eq_of_lt (by omega), BitVec.toNat_intMin] at he'
      omega
    show negSigned (BitVec.ofNat 64 x) = .ok (BitVec.ofInt 64 (-(x : ℤ)))
    rw [negSigned, if_neg hmin, BitVec.ofInt_neg, BitVec.ofInt_natCast]

theorem signed_ne_trap (neg : Bool) (x : Word) : signed neg x ≠ .error .trap := by
  cases neg with
  | false => exact fun h => nomatch h
  | true =>
    show negSigned x ≠ .error .trap
    rw [negSigned]
    split <;> exact fun h => nomatch h

theorem softIdiv_eq (hd : d ≠ 0) (h : d.toInt ≠ -2 ^ 63) : softIdiv hi lo d =
    signed (xor (wideSigned hi lo < 0) (d.toInt < 0))
      (BitVec.ofNat 64 ((wideSigned hi lo).natAbs / d.toInt.natAbs)) := by
  obtain ⟨dd, hok, hdd⟩ := divisorAbs_eq h
  rw [softIdiv, if_neg hd, hok]
  show signed _ _ = _
  rw [divmod128_abs hd hdd, decide_eq_decide.mpr (wideSigned_neg hi lo)]

theorem softImod_eq (hd : d ≠ 0) (h : d.toInt ≠ -2 ^ 63) : softImod hi lo d =
    signed (wideSigned hi lo < 0)
      (BitVec.ofNat 64 ((wideSigned hi lo).natAbs % d.toInt.natAbs)) := by
  obtain ⟨dd, hok, hdd⟩ := divisorAbs_eq h
  rw [softImod, if_neg hd, hok]
  show signed _ _ = _
  rw [divmod128_abs hd hdd, decide_eq_decide.mpr (wideSigned_neg hi lo)]

theorem toInt_ne_zero (hd : d ≠ 0) : d.toInt ≠ 0 := by
  intro h
  exact hd (BitVec.eq_of_toInt_eq h)

theorem idiv_differs (hd : d ≠ 0) (h : ¬ DividesSigned hi lo d) :
    softIdiv hi lo d ≠ idiv64 false hi lo d := by
  intro hsame
  rw [idiv64, if_neg hd] at hsame
  by_cases hmin : d.toInt = -2 ^ 63
  · -- The divisor has no opposite.
    have hd' : d = BitVec.intMin 64 := BitVec.eq_of_toInt_eq (hmin.trans (by decide))
    have hsoft : softIdiv hi lo d = .error .undefined := by
      rw [softIdiv, if_neg hd, hd']
      rfl
    rw [hsoft, if_neg (by omega)] at hsame
    dsimp only at hsame
    split at hsame <;> exact nomatch hsame
  · have hbig : 2 ^ 63 ≤ (wideSigned hi lo).natAbs / d.toInt.natAbs := by
      by_contra hlt
      exact h ⟨hmin, Nat.lt_of_not_le hlt⟩
    have hq := tdiv_eq (wideSigned hi lo) d.toInt
    rw [softIdiv_eq hd hmin] at hsame
    generalize (wideSigned hi lo).natAbs / d.toInt.natAbs = q at *
    split at hsame
    · -- The signs are equal here.
      rename_i hextreme
      obtain ⟨hn, hm⟩ := hextreme
      rw [hn, hm] at hsame
      exact nomatch hsame
    · dsimp only at hsame
      split at hsame
      · exact signed_ne_trap _ _ hsame
      · rename_i hin
        rw [hq] at hin
        split at hin
        · -- Only the least word is left, which has no opposite either.
          rename_i hneg
          have hq63 : q = 2 ^ 63 := by omega
          rw [hneg, hq63] at hsame
          exact nomatch hsame
        · omega

theorem idiv_same_iff (hi lo d : Word) :
    (SameHelper "__ix_idiv" [hi, lo, d] ∧ SameHelper "__ix_imod" [hi, lo, d]) ↔
      d = 0 ∨ DividesSigned hi lo d := by
  show (softIdiv hi lo d = idiv64 false hi lo d ∧ softImod hi lo d = idiv64 true hi lo d) ↔ _
  by_cases hd : d = 0
  · rw [softIdiv, softImod, idiv64, idiv64, if_pos hd, if_pos hd, if_pos hd, if_pos hd]
    exact iff_of_true ⟨rfl, rfl⟩ (Or.inl hd)
  · rw [or_iff_right hd]
    constructor
    · rintro ⟨hq, -⟩
      by_contra h
      exact idiv_differs hd h hq
    · rintro ⟨hmin, hlt⟩
      have hd0 := toInt_ne_zero hd
      have hdlt := d.isLt
      have htoInt := BitVec.toInt_eq_toNat_cond d
      have hrem : (wideSigned hi lo).natAbs % d.toInt.natAbs < 2 ^ 63 := by
        refine lt_of_lt_of_le (Nat.mod_lt _ (by omega)) ?_
        split at htoInt <;> omega
      have hnot : ¬ (wideSigned hi lo = -2 ^ 127 ∧ d.toInt = -1) := by
        rintro ⟨hn, hm⟩
        rw [hn, hm] at hlt
        exact absurd hlt (by decide)
      have hq := tdiv_eq (wideSigned hi lo) d.toInt
      have hfit : ¬ (2 ^ 63 - 1 < (wideSigned hi lo).tdiv d.toInt ∨
          (wideSigned hi lo).tdiv d.toInt < -2 ^ 63) := by
        generalize (wideSigned hi lo).natAbs / d.toInt.natAbs = q at *
        split at hq <;> omega
      rw [softIdiv_eq hd hmin, softImod_eq hd hmin, signed_ok _ hlt, signed_ok _ hrem, idiv64, idiv64,
        if_neg hd, if_neg hd, if_neg hnot, if_neg hnot, if_neg hfit, if_neg hfit, hq, tmod_eq]
      constructor
      · rfl
      · rw [if_pos (Eq.refl true)]
        simp only [decide_eq_true_eq]

end

/-! ### All six helpers -/

/-- Products are the same on both hosts; quotients and remainders are so when the divisor is zero,
which both trap, and otherwise exactly when the quotient fits, no bit of a remainder is lost, and no
sign is taken from the least signed word. -/
theorem soft_same_iff (a b hi lo d : Word) :
    (SameHelper "__ix_mul64hi" [a, b] ∧ SameHelper "__ix_imul64hi" [a, b]) ∧
    ((SameHelper "__ix_udiv" [hi, lo, d] ∧ SameHelper "__ix_umod" [hi, lo, d]) ↔
      d = 0 ∨ Divides hi lo d) ∧
    ((SameHelper "__ix_idiv" [hi, lo, d] ∧ SameHelper "__ix_imod" [hi, lo, d]) ↔
      d = 0 ∨ DividesSigned hi lo d) := by
  refine ⟨⟨?_, ?_⟩, udiv_same_iff hi lo d, idiv_same_iff hi lo d⟩
  · have hlt : a.toNat * b.toNat / 2 ^ 64 < 2 ^ 64 := (softMul64hi_toNat a b) ▸ (softMul64hi a b).isLt
    refine congrArg Except.ok (BitVec.eq_of_toNat_eq ?_)
    rw [softMul64hi_toNat, BitVec.toNat_ofNat, Nat.mod_eq_of_lt hlt]
  · exact congrArg Except.ok (softImul64hi_eq a b)

/-- The quotient of `2 ^ 127` by `2 ^ 63 + 1` fits a word, but the top bit of a remainder is lost; that
of `2 ^ 64` by one does not fit, and only the one host traps. -/
theorem soft_same_not :
    ¬ SameHelper "__ix_udiv" [0x8000000000000000, 0, 0x8000000000000001] ∧
    ¬ SameHelper "__ix_udiv" [1, 0, 1] := by
  constructor
  · show ¬ softUdiv 0x8000000000000000 0 0x8000000000000001 =
      udiv64 false 0x8000000000000000 0 0x8000000000000001
    decide +kernel
  · show ¬ softUdiv 1 0 1 = udiv64 false 1 0 1
    decide +kernel

end Aret.Lift
