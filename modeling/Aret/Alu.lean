/-
The arithmetic unit of an x86 processor, as its manual defines it: what an
operation on words of a width leaves as its result, and in which flags.

Words are natural numbers below a power of two.  A flag that the manual leaves
undefined is `none`.

The lemmas at the end say which bits of an unreduced 64-bit result carry the
flags.
-/
import Mathlib.Algebra.Order.Group.Unbundled.Int
import Mathlib.Data.Int.Basic
import Mathlib.Data.Nat.Bitwise
import Mathlib.Tactic.Ring
import Mathlib.Tactic.NormNum

namespace Alu

inductive Width
  | b8 | b16 | b32 | b64
  deriving DecidableEq, Repr

namespace Width

def bits : Width → ℕ
  | b8 => 8
  | b16 => 16
  | b32 => 32
  | b64 => 64

def size (w : Width) : ℕ := 2 ^ w.bits

def half (w : Width) : ℕ := 2 ^ (w.bits - 1)

theorem bits_pos (w : Width) : 0 < w.bits := by cases w <;> decide

theorem bits_le (w : Width) : w.bits ≤ 64 := by cases w <;> decide

theorem size_eq (w : Width) : w.size = 2 * w.half := by cases w <;> rfl

theorem size_pos (w : Width) : 0 < w.size := Nat.two_pow_pos _

theorem half_pos (w : Width) : 0 < w.half := Nat.two_pow_pos _

theorem size_le (w : Width) : w.size ≤ 2 ^ 64 := Nat.pow_le_pow_right (by decide) w.bits_le

theorem size_dvd (w : Width) : w.size ∣ 2 ^ 64 := Nat.pow_dvd_pow 2 w.bits_le

end Width

variable (w : Width)

def toSigned (x : ℕ) : ℤ := if x < w.half then x else x - w.size

def msb (x : ℕ) : Bool := w.half ≤ x

def parity (x : ℕ) : Bool := ((List.range 8).countP fun i => x.testBit i) % 2 = 0

/-- A word and the status flags, where they are defined. -/
structure Result where
  res : ℕ
  cf : Option Bool
  pf : Option Bool
  af : Option Bool
  zf : Option Bool
  sf : Option Bool
  of : Option Bool
  deriving DecidableEq

def Overflows (v : ℤ) : Prop := v < -w.half ∨ (w.half : ℤ) ≤ v

instance (v : ℤ) : Decidable (Overflows w v) := inferInstanceAs (Decidable (_ ∨ _))

def result (r : ℕ) (cf of af : Option Bool) : Result :=
  ⟨r, cf, some (parity r), af, some (r = 0), some (msb w r), of⟩

/-- `a + b + c`. -/
def add (a b c : ℕ) : Result :=
  result w ((a + b + c) % w.size) (some (w.size ≤ a + b + c))
    (some (Overflows w (toSigned w a + toSigned w b + c))) (some (16 ≤ a % 16 + b % 16 + c))

/-- `a - b - c`. -/
def sub (a b c : ℕ) : Result :=
  result w (((a : ℤ) - b - c) % w.size).toNat (some (a < b + c))
    (some (Overflows w (toSigned w a - toSigned w b - c))) (some (a % 16 < b % 16 + c))

/-- A bitwise operation with result `r`. -/
def logic (r : ℕ) : Result := result w r (some false) (some false) none

/-- `a + 1`, without a carry out. -/
def inc (a : ℕ) (cf : Bool) : Result := { add w a 1 0 with cf := some cf }

/-- `a - 1`, without a borrow out. -/
def dec (a : ℕ) (cf : Bool) : Result := { sub w a 1 0 with cf := some cf }

/-! ### Products and quotients -/

/-- The operations on a word and on the two words of a double one. -/
inductive MulOp
  | mul | imul | div | idiv
  deriving DecidableEq, Repr

def doubleWord (hi lo : ℕ) : ℤ := toSigned w hi * w.size + lo

/-- The two words that an operation leaves, the low one or the quotient first; `none` is the trap of
a division. -/
def MulOp.exec (hi lo x : ℕ) : MulOp → Option (ℕ × ℕ)
  | mul => some (lo * x % w.size, lo * x / w.size)
  | imul =>
    let p := toSigned w lo * toSigned w x
    some ((p % w.size).toNat, (p / w.size % w.size).toNat)
  | div =>
    let n := hi * w.size + lo
    if x = 0 ∨ w.size ≤ n / x then none else some (n / x, n % x)
  | idiv =>
    let n := doubleWord w hi lo
    let d := toSigned w x
    if d = 0 ∨ Overflows w (n.tdiv d) then none
    else some ((n.tdiv d % w.size).toNat, (n.tmod d % w.size).toNat)

/-! ### Conditions -/

/-- The relations between two compared words that a condition code can stand for. -/
inductive Cond
  | e | ne | b | ae | be | a | l | ge | le | g
  deriving DecidableEq, Repr

def Cond.holds (x y : ℕ) : Cond → Prop
  | e => x = y
  | ne => x ≠ y
  | b => x < y
  | ae => y ≤ x
  | be => x ≤ y
  | a => y < x
  | l => toSigned w x < toSigned w y
  | ge => toSigned w y ≤ toSigned w x
  | le => toSigned w x ≤ toSigned w y
  | g => toSigned w y < toSigned w x

/-! ### Bits of unreduced results -/

theorem msb_mod (x : ℕ) : msb w (x % w.size) = decide (x / w.half % 2 = 1) := by
  have h : x % w.size / w.half = x / w.half % 2 := by
    rw [w.size_eq, Nat.mul_comm]
    exact Nat.mod_mul_right_div_self x w.half 2
  have hlt : x % w.size < 2 * w.half := w.size_eq ▸ Nat.mod_lt x w.size_pos
  have hpos := w.half_pos
  rw [← h, msb, decide_eq_decide]
  constructor
  · intro hle
    have h1 : 1 ≤ x % w.size / w.half := (Nat.le_div_iff_mul_le hpos).mpr (by omega)
    omega
  · intro h1
    have := Nat.div_mul_le_self (x % w.size) w.half
    rw [h1] at this
    omega

theorem msb_of_lt {x : ℕ} (h : x < w.size) : msb w x = decide (x / w.half % 2 = 1) := by
  rw [← msb_mod, Nat.mod_eq_of_lt h]

theorem parity_congr {x y : ℕ} (h : x % 256 = y % 256) : parity x = parity y := by
  have hbit : ∀ i < 8, x.testBit i = y.testBit i := by
    intro i hi
    have hx := Nat.testBit_mod_two_pow x 8 i
    have hy := Nat.testBit_mod_two_pow y 8 i
    rw [show (2 : ℕ) ^ 8 = 256 from rfl] at hx hy
    rw [h, hy] at hx
    simpa [hi] using hx.symm
  have hcount : ((List.range 8).countP fun i => x.testBit i) =
      (List.range 8).countP fun i => y.testBit i := by
    refine List.countP_congr fun i hi => ?_
    rw [hbit i (List.mem_range.mp hi)]
  rw [parity, parity, hcount]

theorem toSigned_cases (x : ℕ) :
    x < w.half ∧ toSigned w x = x ∨ w.half ≤ x ∧ toSigned w x = x - w.size := by
  unfold toSigned
  split
  · exact .inl ⟨by assumption, rfl⟩
  · exact .inr ⟨by omega, rfl⟩

theorem toSigned_lt {x : ℕ} (h : x < w.size) :
    -(w.half : ℤ) ≤ toSigned w x ∧ toSigned w x < w.half := by
  have := w.size_eq
  unfold toSigned
  split <;> omega

theorem xor_bit_four (x y z : ℕ) :
    (x ^^^ y ^^^ z) / 2 ^ 4 % 2 = (x / 16 + y / 16 + z / 16) % 2 := by
  rw [Nat.xor_div_two_pow, Nat.xor_div_two_pow, Nat.xor_mod_two_eq, Nat.add_mod,
    Nat.xor_mod_two_eq, ← Nat.add_mod]

theorem bit_four_add (x y : ℕ) {c : ℕ} (hc : c ≤ 1) :
    (x / 16 + y / 16 + (x + y + c) % 2 ^ 64 / 16) % 2 = 1 ↔
      16 ≤ x % w.size % 16 + y % w.size % 16 + c := by
  have hdvd : 16 ∣ w.size := by cases w <;> decide
  rw [Nat.mod_mod_of_dvd x hdvd, Nat.mod_mod_of_dvd y hdvd]
  omega

theorem bit_four_sub (x y : ℕ) {c : ℕ} (hc : c ≤ 1) :
    (x / 16 + y / 16 + (2 ^ 64 - (y + c) % 2 ^ 64 + x) % 2 ^ 64 / 16) % 2 = 1 ↔
      x % w.size % 16 < y % w.size % 16 + c := by
  have hdvd : 16 ∣ w.size := by cases w <;> decide
  rw [Nat.mod_mod_of_dvd x hdvd, Nat.mod_mod_of_dvd y hdvd]
  omega

theorem mod_mod_size (x : ℕ) : x % 2 ^ 64 % w.size = x % w.size :=
  Nat.mod_mod_of_dvd x w.size_dvd

theorem parity_mod (x : ℕ) : parity (x % 256) = parity (x % w.size) := by
  refine parity_congr ?_
  have hdvd : 256 ∣ w.size := by cases w <;> decide
  rw [Nat.mod_mod, Nat.mod_mod_of_dvd x hdvd]

variable {w}

theorem add_mod_size (x y c : ℕ) :
    (x + y + c) % 2 ^ 64 % w.size = (x % w.size + y % w.size + c) % w.size := by
  rw [mod_mod_size, Nat.add_mod, Nat.add_mod x y, ← Nat.add_mod]

theorem sub_mod_size {x y c : ℕ} (hy : y < 2 ^ 64) :
    (2 ^ 64 - (y + c) % 2 ^ 64 + x) % 2 ^ 64 % w.size =
      ((((x % w.size : ℕ) : ℤ) - (y % w.size : ℕ) - c) % w.size).toNat := by
  rw [mod_mod_size]
  cases w <;> simp only [Width.size, Width.bits] <;> omega

variable {a b c : ℕ}

theorem overflows_add (ha : a < w.size) (hb : b < w.size) (hc : c ≤ 1) :
    Overflows w (toSigned w a + toSigned w b + c) ↔
      msb w a = msb w b ∧ msb w ((a + b + c) % w.size) ≠ msb w a := by
  have hsize := w.size_eq
  have hmod : a + b + c < w.size ∧ (a + b + c) % w.size = a + b + c ∨ w.size ≤ a + b + c ∧
      (a + b + c) % w.size = a + b + c - w.size := by
    rcases Nat.lt_or_ge (a + b + c) w.size with h | h
    · exact .inl ⟨h, Nat.mod_eq_of_lt h⟩
    · refine .inr ⟨h, ?_⟩
      rw [Nat.mod_eq_sub_mod h, Nat.mod_eq_of_lt (by omega)]
  simp only [Overflows, toSigned, msb, ne_eq, decide_eq_decide]
  generalize (a + b + c) % w.size = r at *
  generalize w.half = h at *
  generalize w.size = z at *
  split <;> split <;> omega

theorem overflows_sub (ha : a < w.size) (hb : b < w.size) (hc : c ≤ 1) :
    Overflows w (toSigned w a - toSigned w b - c) ↔
      msb w a ≠ msb w b ∧ msb w (((a : ℤ) - b - c) % w.size).toNat ≠ msb w a := by
  have hsize := w.size_eq
  have hmod : 0 ≤ (a : ℤ) - b - c ∧ ((a : ℤ) - b - c) % w.size = a - b - c ∨
      (a : ℤ) - b - c < 0 ∧ ((a : ℤ) - b - c) % w.size = a - b - c + w.size := by
    rcases lt_or_ge ((a : ℤ) - b - c) 0 with h | h
    · refine .inr ⟨h, ?_⟩
      rw [← Int.add_emod_right, Int.emod_eq_of_lt (by omega) (by omega)]
    · exact .inl ⟨h, Int.emod_eq_of_lt h (by omega)⟩
  simp only [Overflows, toSigned, msb, ne_eq, decide_eq_decide]
  generalize ((a : ℤ) - b - c) % w.size = r at *
  generalize w.half = h at *
  generalize w.size = z at *
  split <;> split <;> omega

theorem decide_overflows_add (ha : a < w.size) (hb : b < w.size) (hc : c ≤ 1) :
    decide (Overflows w (toSigned w a + toSigned w b + c)) =
      (msb w a == msb w b && msb w ((a + b + c) % w.size) != msb w a) := by
  rw [Bool.eq_iff_iff, decide_eq_true_iff, overflows_add ha hb hc]
  simp only [Bool.and_eq_true, bne_iff_ne, beq_iff_eq]

theorem decide_overflows_sub (ha : a < w.size) (hb : b < w.size) (hc : c ≤ 1) :
    decide (Overflows w (toSigned w a - toSigned w b - c)) =
      (msb w a != msb w b && msb w (sub w a b c).res != msb w a) := by
  rw [Bool.eq_iff_iff, decide_eq_true_iff, overflows_sub ha hb hc]
  simp only [Bool.and_eq_true, bne_iff_ne]
  rfl

/-! ### Conditions after a comparison -/

theorem sub_eq_zero (ha : a < w.size) (hb : b < w.size) : (sub w a b 0).res = 0 ↔ a = b := by
  have hpos := w.size_pos
  show (((a : ℤ) - b - (0 : ℕ)) % w.size).toNat = 0 ↔ a = b
  rw [Int.natCast_zero, Int.sub_zero]
  constructor
  · intro h
    have hnonneg := Int.emod_nonneg ((a : ℤ) - b) (b := w.size) (by omega)
    have hdvd : (w.size : ℤ) ∣ (a : ℤ) - b := Int.dvd_of_emod_eq_zero (by omega)
    have := Int.eq_zero_of_abs_lt_dvd hdvd (by rw [abs_lt]; omega)
    omega
  · rintro rfl
    rw [Int.sub_self, Int.zero_emod]
    rfl

theorem sub_signed_lt (ha : a < w.size) (hb : b < w.size) :
    msb w (sub w a b 0).res ≠ decide (Overflows w (toSigned w a - toSigned w b - (0 : ℕ))) ↔
      toSigned w a < toSigned w b := by
  rw [decide_overflows_sub ha hb (Nat.zero_le 1)]
  have hsize := w.size_eq
  have hmod : 0 ≤ (a : ℤ) - b ∧ ((a : ℤ) - b - (0 : ℕ)) % w.size = a - b ∨
      (a : ℤ) - b < 0 ∧ ((a : ℤ) - b - (0 : ℕ)) % w.size = a - b + w.size := by
    rw [Int.natCast_zero, Int.sub_zero]
    rcases lt_or_ge ((a : ℤ) - b) 0 with h | h
    · refine .inr ⟨h, ?_⟩
      rw [← Int.add_emod_right, Int.emod_eq_of_lt (by omega) (by omega)]
    · exact .inl ⟨h, Int.emod_eq_of_lt h (by omega)⟩
  have hres : (sub w a b 0).res = (((a : ℤ) - b - (0 : ℕ)) % w.size).toNat := rfl
  rw [hres]
  generalize ((a : ℤ) - b - (0 : ℕ)) % w.size = r at *
  have hsa := toSigned_cases w a
  have hsb := toSigned_cases w b
  generalize toSigned w a = u at *
  generalize toSigned w b = v at *
  simp only [msb]
  by_cases h₁ : w.half ≤ a <;> by_cases h₂ : w.half ≤ b <;> by_cases h₃ : w.half ≤ r.toNat <;>
    simp only [h₁, h₂, h₃, decide_true, decide_false, bne_self_eq_false, Bool.and_false,
      Bool.true_bne, Bool.false_bne, Bool.and_true, Bool.not_false, ne_eq,
      not_true_eq_false, not_false_eq_true, Bool.true_eq_false, Bool.false_eq_true, true_iff,
      false_iff] <;>
    omega

end Alu
