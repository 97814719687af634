/-
SHA-256 as FIPS 180-4 has it.
-/
import Mathlib.Data.List.Basic
import Mathlib.Tactic

namespace Fips180

/-! ### Words -/

abbrev Word := UInt32

def rotr (n : Word) (x : Word) : Word := x >>> n ||| x <<< (32 - n)

def ch (x y z : Word) : Word := x &&& y ^^^ ~~~x &&& z

def maj (x y z : Word) : Word := x &&& y ^^^ x &&& z ^^^ y &&& z

def bigSigma₀ (x : Word) : Word := rotr 2 x ^^^ rotr 13 x ^^^ rotr 22 x

def bigSigma₁ (x : Word) : Word := rotr 6 x ^^^ rotr 11 x ^^^ rotr 25 x

def smallSigma₀ (x : Word) : Word := rotr 7 x ^^^ rotr 18 x ^^^ x >>> 3

def smallSigma₁ (x : Word) : Word := rotr 17 x ^^^ rotr 19 x ^^^ x >>> 10

/-! ### Constants -/

/-- The greatest `r` with `r ^ n ≤ m`, from its bits. -/
def root (n m : ℕ) : ℕ → ℕ → ℕ
  | 0, r => r
  | b + 1, r => root n m b (if (r + 2 ^ b) ^ n ≤ m then r + 2 ^ b else r)

/-- The first 32 bits of the fractional part of the `n`-th root of `p`. -/
def fraction (n p : ℕ) : Word := UInt32.ofNat (root n (p * 2 ^ (32 * n)) 36 0)

def primes : List ℕ :=
  [2, 3, 5, 7, 11, 13, 17, 19, 23, 29, 31, 37, 41, 43, 47, 53, 59, 61, 67, 71, 73, 79, 83, 89, 97,
    101, 103, 107, 109, 113, 127, 131, 137, 139, 149, 151, 157, 163, 167, 173, 179, 181, 191, 193,
    197, 199, 211, 223, 227, 229, 233, 239, 241, 251, 257, 263, 269, 271, 277, 281, 283, 293, 307,
    311]

def k (t : ℕ) : Word := fraction 3 (primes.getD t 0)

/-- A hash value, and the working variables of a round. -/
structure Hash where
  (a b c d e f g h : Word)
  deriving DecidableEq

def initial : Hash where
  a := fraction 2 2
  b := fraction 2 3
  c := fraction 2 5
  d := fraction 2 7
  e := fraction 2 11
  f := fraction 2 13
  g := fraction 2 17
  h := fraction 2 19

/-! ### Compression -/

def word (a b c d : UInt8) : Word :=
  a.toUInt32 <<< 24 ||| b.toUInt32 <<< 16 ||| c.toUInt32 <<< 8 ||| d.toUInt32

/-- Word `t` of a block. -/
def blockWord (m : List UInt8) (t : ℕ) : Word :=
  word (m.getD (t * 4) 0) (m.getD (t * 4 + 1) 0) (m.getD (t * 4 + 2) 0) (m.getD (t * 4 + 3) 0)

def schedule (m : List UInt8) (t : ℕ) : Word :=
  if t < 16 then blockWord m t
  else smallSigma₁ (schedule m (t - 2)) + schedule m (t - 7) + smallSigma₀ (schedule m (t - 15)) +
    schedule m (t - 16)
  termination_by t

def round (kt wt : Word) (v : Hash) : Hash :=
  let t₁ := v.h + bigSigma₁ v.e + ch v.e v.f v.g + kt + wt
  let t₂ := bigSigma₀ v.a + maj v.a v.b v.c
  ⟨t₁ + t₂, v.a, v.b, v.c, v.d + t₁, v.e, v.f, v.g⟩

/-- The first `t` rounds. -/
def rounds (m : List UInt8) (v : Hash) : ℕ → Hash
  | 0 => v
  | t + 1 => round (k t) (schedule m t) (rounds m v t)

def Hash.add (v w : Hash) : Hash :=
  ⟨v.a + w.a, v.b + w.b, v.c + w.c, v.d + w.d, v.e + w.e, v.f + w.f, v.g + w.g, v.h + w.h⟩

def compress (v : Hash) (m : List UInt8) : Hash := v.add (rounds m v 64)

/-! ### Messages -/

def absorb (v : Hash) (bs : List UInt8) : Hash :=
  if 64 ≤ bs.length then absorb (compress v (bs.take 64)) (bs.drop 64) else v
  termination_by bs.length
  decreasing_by
    rw [List.length_drop]
    omega

def be64 (n : ℕ) : List UInt8 :=
  [UInt8.ofNat (n / 2 ^ 56), UInt8.ofNat (n / 2 ^ 48), UInt8.ofNat (n / 2 ^ 40),
    UInt8.ofNat (n / 2 ^ 32), UInt8.ofNat (n / 2 ^ 24), UInt8.ofNat (n / 2 ^ 16),
    UInt8.ofNat (n / 2 ^ 8), UInt8.ofNat n]

theorem be64_mod (n : ℕ) : be64 (n % 2 ^ 64) = be64 n := by
  have hbyte : ∀ i, i + 8 ≤ 64 → UInt8.ofNat (n % 2 ^ 64 / 2 ^ i) = UInt8.ofNat (n / 2 ^ i) := by
    intro i hi
    have hsplit : 2 ^ 64 = 2 ^ i * (2 ^ 8 * 2 ^ (56 - i)) := by
      rw [← Nat.pow_add, ← Nat.pow_add]
      congr 1
      omega
    refine UInt8.toNat_inj.mp ?_
    rw [UInt8.toNat_ofNat', UInt8.toNat_ofNat', hsplit, Nat.mod_mul_right_div_self,
      Nat.mod_mul_right_mod]
  rw [be64, be64, hbyte 56 le_rfl, hbyte 48 (by norm_num), hbyte 40 (by norm_num),
    hbyte 32 (by norm_num), hbyte 24 (by norm_num), hbyte 16 (by norm_num), hbyte 8 (by norm_num)]
  have hlast := hbyte 0 (by norm_num)
  rw [pow_zero, Nat.div_one, Nat.div_one] at hlast
  rw [hlast]

def zeros (len : ℕ) : ℕ := (119 - len % 64) % 64

def padding (len : ℕ) : List UInt8 := [0x80] ++ List.replicate (zeros len) 0 ++ be64 (8 * len)

def pad (msg : List UInt8) : List UInt8 := msg ++ padding msg.length

def wordBytes (w : Word) : List UInt8 :=
  [(w >>> 24).toUInt8, (w >>> 16).toUInt8, (w >>> 8).toUInt8, w.toUInt8]

def Hash.bytes (v : Hash) : List UInt8 :=
  [v.a, v.b, v.c, v.d, v.e, v.f, v.g, v.h].flatMap wordBytes

def sha256 (msg : List UInt8) : List UInt8 := (absorb initial (pad msg)).bytes

theorem length_bytes (v : Hash) : v.bytes.length = 32 := rfl

variable {v : Hash} {bs cs : List UInt8}

@[simp] theorem absorb_nil (v : Hash) : absorb v [] = v := by
  rw [absorb, if_neg (by simp)]

theorem absorb_block (h : bs.length = 64) : absorb v (bs ++ cs) = absorb (compress v bs) cs := by
  rw [absorb, if_pos (by rw [List.length_append]; omega), ← h, List.take_left, List.drop_left]

theorem absorb_one (h : bs.length = 64) : absorb v bs = compress v bs := by
  have hblock : absorb v (bs ++ []) = absorb (compress v bs) [] := absorb_block h
  rwa [List.append_nil, absorb_nil] at hblock

theorem absorb_append (h : 64 ∣ bs.length) : absorb v (bs ++ cs) = absorb (absorb v bs) cs := by
  obtain ⟨n, hn⟩ := h
  induction n generalizing v bs with
  | zero =>
    obtain rfl := List.length_eq_zero_iff.mp hn
    rw [List.nil_append, absorb_nil]
  | succ n ih =>
    have htake : (bs.take 64).length = 64 := by
      rw [List.length_take]
      omega
    have hdrop : (bs.drop 64).length = 64 * n := by
      rw [List.length_drop]
      omega
    rw [← List.take_append_drop 64 bs, List.append_assoc, absorb_block htake, absorb_block htake]
    exact ih hdrop

theorem length_padding (len : ℕ) : (padding len).length = zeros len + 9 := by
  simp only [padding, be64, List.length_append, List.length_replicate, List.length_cons,
    List.length_nil]
  omega

end Fips180
