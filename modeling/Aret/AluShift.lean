/-
Shifts and rotations of an x86 processor, as its manual defines them.

The count is taken modulo 32, or modulo 64 with an operand of 64 bits; no flag
changes when nothing of it is left.  A flag that the manual leaves undefined is
`none`, and so is the outcome of a double shift by more than the width.
-/
import Aret.Alu

namespace Alu

structure Flags where
  cf : Bool
  pf : Bool
  af : Bool
  zf : Bool
  sf : Bool
  of : Bool
  deriving DecidableEq

def Flags.keep (f : Flags) (r : ℕ) : Result :=
  ⟨r, some f.cf, some f.pf, some f.af, some f.zf, some f.sf, some f.of⟩

def Width.counts (w : Width) : ℕ := if w = .b64 then 64 else 32

variable (w : Width)

/-- A word shifted by `k`, and a second one against it, cut to `n` bits. -/
def funnel (n : ℕ) (left : Bool) (a b k : ℕ) : ℕ :=
  if left then (a <<< k ||| b >>> (n - k)) % 2 ^ n else (a >>> k ||| b <<< (n - k)) % 2 ^ n

def shl (a n : ℕ) (f : Flags) : Result :=
  let c := n % w.counts
  if c = 0 then f.keep a
  else
    let r := a <<< c % w.size
    result w r (if c < w.bits then some (a.testBit (w.bits - c)) else none)
      (if c = 1 then some (msb w r != msb w a) else none) none

def shr (a n : ℕ) (f : Flags) : Result :=
  let c := n % w.counts
  if c = 0 then f.keep a
  else
    result w (a >>> c) (if c < w.bits then some (a.testBit (c - 1)) else none)
      (if c = 1 then some (msb w a) else none) none

def sar (a n : ℕ) (f : Flags) : Result :=
  let c := n % w.counts
  if c = 0 then f.keep a
  else
    result w (toSigned w a / 2 ^ c % w.size).toNat
      (some (if c < w.bits then a.testBit (c - 1) else msb w a))
      (if c = 1 then some false else none) none

def rotate (left : Bool) (a n : ℕ) (f : Flags) : Result :=
  let c := n % w.counts
  if c = 0 then f.keep a
  else
    let r := funnel w.bits left a a (c % w.bits)
    let cf := if left then r.testBit 0 else msb w r
    let of := if left then msb w r != cf else msb w r != r.testBit (w.bits - 2)
    { f.keep r with cf := some cf, of := if c = 1 then some of else none }

def withCarry (a : ℕ) (cf : Bool) : ℕ := cf.toNat <<< w.bits ||| a

def rotateCarry (left : Bool) (a n : ℕ) (f : Flags) : Result :=
  let c := n % w.counts
  if c = 0 then f.keep a
  else
    let x := funnel (w.bits + 1) left (withCarry w a f.cf) (withCarry w a f.cf) (c % (w.bits + 1))
    let r := x % w.size
    let cf := x.testBit w.bits
    let of := if left then msb w r != cf else msb w a != f.cf
    { f.keep r with cf := some cf, of := if c = 1 then some of else none }

def double (left : Bool) (a b n : ℕ) (f : Flags) : Option Result :=
  let c := n % w.counts
  if c = 0 then some (f.keep a)
  else if w.bits < c then none
  else
    let r := funnel w.bits left a b c
    some (result w r (some (if left then a.testBit (w.bits - c) else a.testBit (c - 1)))
      (if c = 1 then some (msb w r != msb w a) else none) none)

/-! ### Rotations -/

theorem funnel_lt {n : ℕ} {left : Bool} {a b k : ℕ} : funnel n left a b k < 2 ^ n := by
  unfold funnel
  split <;> exact Nat.mod_lt _ (Nat.two_pow_pos n)

theorem funnel_zero {n : ℕ} {left : Bool} {a b : ℕ} (ha : a < 2 ^ n) (hb : b < 2 ^ n) :
    funnel n left a b 0 = a := by
  unfold funnel
  cases left with
  | true =>
      rw [if_pos rfl, Nat.shiftLeft_zero, Nat.sub_zero, Nat.shiftRight_eq_div_pow,
        Nat.div_eq_of_lt hb, Nat.or_zero, Nat.mod_eq_of_lt ha]
  | false =>
      rw [if_neg Bool.false_ne_true, Nat.shiftRight_zero, Nat.sub_zero, Nat.or_mod_two_pow,
        Nat.shiftLeft_eq, Nat.mul_mod_left, Nat.or_zero, Nat.mod_eq_of_lt ha]

theorem testBit_rotate {n : ℕ} {left : Bool} {x k i : ℕ} (hx : x < 2 ^ n) (hk : k < n) (hi : i < n) :
    (funnel n left x x k).testBit i = x.testBit ((if left then i + (n - k) else i + k) % n) := by
  have hout : ∀ j, n ≤ j → x.testBit j = false := fun j hj =>
    Nat.testBit_lt_two_pow (lt_of_lt_of_le hx (Nat.pow_le_pow_right (by decide) hj))
  unfold funnel
  cases left with
  | true =>
      rw [if_pos rfl, if_pos rfl, Nat.testBit_mod_two_pow, Nat.testBit_or, Nat.testBit_shiftLeft,
        Nat.testBit_shiftRight]
      by_cases hki : k ≤ i
      · have hmod : (i + (n - k)) % n = i - k := by
          rw [show i + (n - k) = i - k + n by omega, Nat.add_mod_right, Nat.mod_eq_of_lt (by omega)]
        rw [hmod, hout (n - k + i) (by omega)]
        simp only [hi, hki, decide_true, Bool.true_and, Bool.or_false]
      · have hmod : (i + (n - k)) % n = n - k + i := by
          rw [Nat.mod_eq_of_lt (by omega), Nat.add_comm]
        rw [hmod]
        simp only [hi, hki, decide_true, decide_false, Bool.true_and, Bool.false_and,
          Bool.false_or]
  | false =>
      rw [if_neg Bool.false_ne_true, if_neg Bool.false_ne_true, Nat.testBit_mod_two_pow,
        Nat.testBit_or, Nat.testBit_shiftLeft, Nat.testBit_shiftRight]
      by_cases hki : n - k ≤ i
      · have hmod : (i + k) % n = i - (n - k) := by
          rw [show i + k = i - (n - k) + n by omega, Nat.add_mod_right, Nat.mod_eq_of_lt (by omega)]
        rw [hmod, hout (k + i) (by omega)]
        simp only [hi, hki, decide_true, Bool.true_and, Bool.false_or]
      · have hmod : (i + k) % n = k + i := by
          rw [Nat.mod_eq_of_lt (by omega), Nat.add_comm]
        rw [hmod]
        simp only [hi, hki, decide_true, decide_false, Bool.true_and, Bool.false_and,
          Bool.or_false]

theorem forth_back (n i N : ℕ) (hn : 0 < n) : ((i + N) % n + (n - N % n)) % n = i % n := by
  have hlt := Nat.mod_lt N hn
  have hdiv := Nat.div_add_mod N n
  have hsum : i + N + (n - N % n) = i + n * (N / n + 1) := by
    rw [Nat.mul_add, Nat.mul_one]
    omega
  rw [Nat.mod_add_mod, hsum, Nat.add_mul_mod_self_left]

theorem back_forth (n i N : ℕ) (hn : 0 < n) : ((i + (n - N % n)) % n + N % n) % n = i % n := by
  have hlt := Nat.mod_lt N hn
  rw [Nat.mod_add_mod, show i + (n - N % n) + N % n = i + n by omega, Nat.add_mod_right]

theorem rotate_eq_iff {n : ℕ} (left : Bool) {x : ℕ} (N D : ℕ) (hn : 0 < n) (hx : x < 2 ^ n) :
    funnel n left x x ((N + D) % n) = funnel n left x x (N % n) ↔
      ∀ i < n, x.testBit ((i + D) % n) = x.testBit i := by
  have hk := Nat.mod_lt (N + D) hn
  have hk' := Nat.mod_lt N hn
  constructor
  · intro h i hi
    cases left with
    | true =>
        -- the bit that both rotations move to the same place
        have hj := Nat.mod_lt (i + (N + D)) hn
        have hbit := congrArg (fun y => y.testBit ((i + (N + D)) % n)) h
        rw [testBit_rotate hx hk hj, testBit_rotate hx hk' hj, if_pos rfl, if_pos rfl,
          forth_back n i (N + D) hn, Nat.add_comm N D, ← Nat.add_assoc, forth_back n (i + D) N hn,
          Nat.mod_eq_of_lt hi] at hbit
        exact hbit.symm
    | false =>
        have hj := Nat.mod_lt (i + (n - N % n)) hn
        have hbit := congrArg (fun y => y.testBit ((i + (n - N % n)) % n)) h
        have hfar : ((i + (n - N % n)) % n + (N + D) % n) % n = (i + D) % n := by
          rw [Nat.add_mod_mod, ← Nat.add_assoc, Nat.add_mod, ← Nat.add_mod_mod (_ % n) N,
            back_forth n i N hn, ← Nat.add_mod]
        rw [testBit_rotate hx hk hj, testBit_rotate hx hk' hj, if_neg Bool.false_ne_true,
          if_neg Bool.false_ne_true, hfar, back_forth n i N hn, Nat.mod_eq_of_lt hi] at hbit
        exact hbit
  · intro h
    apply Nat.eq_of_testBit_eq
    intro i
    by_cases hi : i < n
    · rw [testBit_rotate hx hk hi, testBit_rotate hx hk' hi]
      cases left with
      | true =>
          rw [if_pos rfl, if_pos rfl]
          have h₀ := Nat.mod_lt (i + (n - (N + D) % n)) hn
          have hi' : ((i + (n - (N + D) % n)) % n + (N + D)) % n = i := by
            rw [← Nat.add_mod_mod, back_forth n i (N + D) hn, Nat.mod_eq_of_lt hi]
          have hfar : (i + (n - N % n)) % n = ((i + (n - (N + D) % n)) % n + D) % n := by
            generalize (i + (n - (N + D) % n)) % n = i₀ at hi'
            rw [← hi', Nat.add_comm N D, ← Nat.add_assoc, forth_back n (i₀ + D) N hn]
          rw [hfar, h _ h₀]
      | false =>
          rw [if_neg Bool.false_ne_true, if_neg Bool.false_ne_true]
          have h₀ := Nat.mod_lt (i + N % n) hn
          have hfar : (i + (N + D) % n) % n = ((i + N % n) % n + D) % n := by
            rw [Nat.add_mod_mod, Nat.mod_add_mod, Nat.add_right_comm i (N % n), Nat.add_mod_mod,
              Nat.add_right_comm i D N, Nat.add_assoc]
          rw [hfar, h _ h₀]
    · have hle : 2 ^ n ≤ 2 ^ i := Nat.pow_le_pow_right (by decide) (Nat.le_of_not_lt hi)
      rw [Nat.testBit_lt_two_pow (lt_of_lt_of_le funnel_lt hle),
        Nat.testBit_lt_two_pow (lt_of_lt_of_le funnel_lt hle)]

end Alu
