/-
The results and flags of lifted shifts and rotations.

* `liftShift_exact_iff` — exactly when that is what the processor does: the
  overflow flag and, after double shifts and whole turns, the carry are never
  set, so they have to be right beforehand.
-/
import Aret.LiftArith
import Aret.AluShift

namespace Aret.Lift

open Alu

/-! ### Counts -/

section
variable {s : State} {e b c k : Expr} {x y z : Word}

theorem value_shlW (h : value s e = .ok x) (hk : value s k = .ok y) (hy : y.toNat < 64) :
    value s (bin .shl e k) = .ok (x <<< y.toNat) := by
  rw [value_bin h hk]
  exact if_pos hy

theorem value_shrW (h : value s e = .ok x) (hk : value s k = .ok y) (hy : y.toNat < 64) :
    value s (bin .shr e k) = .ok (x >>> y.toNat) := by
  rw [value_bin h hk]
  exact if_pos hy

theorem value_shr_undefined (h : value s e = .ok x) (hk : value s k = .ok y) (hy : 64 ≤ y.toNat) :
    value s (bin .shr e k) = .error .undefined := by
  rw [value_bin h hk]
  exact if_neg (Nat.not_lt_of_le hy)

theorem toNat_ofNat_lt {n : ℕ} (h : n < 64) : (BitVec.ofNat 64 n).toNat = n := by
  rw [BitVec.toNat_ofNat, Nat.mod_eq_of_lt (by omega)]

theorem toNat_sub_ofNat {a b : ℕ} (hb : b ≤ a) (ha : a ≤ 64) :
    (BitVec.ofNat 64 a - BitVec.ofNat 64 b).toNat = a - b := by
  rw [BitVec.toNat_sub, BitVec.toNat_ofNat, BitVec.toNat_ofNat]
  omega

theorem counts_le (w : Width) : w.counts ≤ 64 := by cases w <;> decide

theorem counts_pos (w : Width) : 0 < w.counts := by cases w <;> decide

theorem and_ones {m : ℤ} {j : ℕ} (hj : j ≤ 64) (hm : BitVec.ofInt 64 m = BitVec.ofNat 64 (2 ^ j - 1))
    (x : Word) : x &&& BitVec.ofInt 64 m = BitVec.ofNat 64 (x.toNat % 2 ^ j) := by
  have hpow : 2 ^ j ≤ 2 ^ 64 := Nat.pow_le_pow_right (by decide) hj
  have hpos := Nat.two_pow_pos j
  apply BitVec.eq_of_toNat_eq
  rw [hm, BitVec.toNat_and, BitVec.toNat_ofNat, BitVec.toNat_ofNat,
    Nat.mod_eq_of_lt (show 2 ^ j - 1 < 2 ^ 64 by omega), Nat.and_two_pow_sub_one_eq_mod,
    Nat.mod_eq_of_lt (lt_of_lt_of_le (Nat.mod_lt _ hpos) hpow)]

theorem value_ones {m : ℤ} {j : ℕ} (hj : j ≤ 64)
    (hm : BitVec.ofInt 64 m = BitVec.ofNat 64 (2 ^ j - 1)) (h : value s e = .ok x) :
    value s (bin .and e (konst m)) = .ok (BitVec.ofNat 64 (x.toNat % 2 ^ j)) := by
  rw [value_bin h (value_konst m), ← and_ones hj hm]
  rfl

theorem value_maskN {n : ℕ} (hn : n ≤ 64) (h : value s e = .ok x) :
    value s (bin .and e (konst (mask n))) = .ok (BitVec.ofNat 64 (x.toNat % 2 ^ n)) := by
  refine value_ones hn ?_ h
  have hpos := Nat.two_pow_pos n
  rw [← ofInt_nat, mask, Nat.cast_sub (by omega), Nat.cast_pow]
  rfl

theorem value_mask_of_lt (w : Width) (h : value s e = .ok x) (hx : x.toNat < w.size) :
    value s (bin .and e (konst (mask w.bits))) = .ok x := by
  rw [value_maskN w.bits_le h, Nat.mod_eq_of_lt (show x.toNat < 2 ^ w.bits from hx),
    BitVec.ofNat_toNat, BitVec.setWidth_eq]

theorem value_count (w : Width) (h : value s e = .ok x) :
    value s (bin .and e (konst (if w.bits = 64 then 63 else 31))) =
      .ok (BitVec.ofNat 64 (x.toNat % w.counts)) := by
  cases w with
  | b64 => exact value_ones (j := 6) (by decide) rfl h
  | _ => exact value_ones (j := 5) (by decide) rfl h

theorem value_turn (w : Width) (h : value s e = .ok x) :
    value s (bin .and e (konst (w.bits - 1 : ℕ))) = .ok (BitVec.ofNat 64 (x.toNat % w.bits)) := by
  cases w with
  | b8 => exact value_ones (j := 3) (by decide) rfl h
  | b16 => exact value_ones (j := 4) (by decide) rfl h
  | b32 => exact value_ones (j := 5) (by decide) rfl h
  | b64 => exact value_ones (j := 6) (by decide) rfl h

theorem value_rest (w : Width) {m : ℕ} (hm : m < w.bits) (h : value s c = .ok (BitVec.ofNat 64 m)) :
    value s (bin .and (bin .sub (konst w.bits) c) (konst (w.bits - 1 : ℕ))) =
      .ok (BitVec.ofNat 64 ((w.bits - m) % w.bits)) := by
  rw [value_turn w (value_bin (value_konst_nat w.bits) h)]
  rw [toNat_sub_ofNat hm.le w.bits_le]

theorem value_unlessZero {kind : FlagKind} {v : Expr} {m : ℕ} {p q : Bool} (hm : m < 64)
    (hc : value s c = .ok (BitVec.ofNat 64 m)) (hn : signedWidth c = none)
    (hp : s.loc (.flag kind) = ofBool p) (hv : m ≠ 0 → value s v = .ok (ofBool q)) :
    value s (unlessZero c kind v) = .ok (ofBool (if m = 0 then p else q)) := by
  have hcond := value_eqZero hc (fits_of_none hn)
  rw [ofBool_zero (by omega)] at hcond
  rw [unlessZero, value_select hcond]
  by_cases h0 : m = 0
  · rw [if_pos (decide_eq_true h0), if_pos h0, value_readFlag, hp]
  · rw [if_neg (by simp only [h0, decide_false, Bool.false_eq_true, not_false_iff]), if_neg h0,
      hv h0]

theorem testBit_word (x : Word) (i : ℕ) : x.toNat.testBit i = decide (x.toNat / 2 ^ i % 2 = 1) :=
  Nat.testBit_eq_decide_div_mod_eq

theorem value_bitW (h : value s e = .ok x) (hk : value s k = .ok y) (hy : y.toNat < 64) :
    value s (bin .and (bin .shr e k) (konst 1)) = .ok (ofBool (x.toNat.testBit y.toNat)) := by
  rw [value_bin (value_shrW h hk hy) (value_konst 1), testBit_word]
  exact congrArg Except.ok (shiftRight_and_one x y.toNat)

theorem value_shiftedW {left : Bool} {wc : Expr} {m k : ℕ} (hm : m < 64) (hk : k < 64)
    (hx : value s e = .ok x) (hy : value s b = .ok y) (hc : value s c = .ok (BitVec.ofNat 64 m))
    (hwc : value s wc = .ok (BitVec.ofNat 64 k)) : value s (Insn.shifted left e b c wc) =
      .ok (if left then x <<< m ||| y >>> k else x >>> m ||| y <<< k) := by
  have hm' := toNat_ofNat_lt hm
  have hk' := toNat_ofNat_lt hk
  cases left with
  | true =>
      have h : value s (Insn.shifted true e b c wc) = .ok (x <<< (BitVec.ofNat 64 m).toNat |||
          y >>> (BitVec.ofNat 64 k).toNat) :=
        value_bin (value_shlW hx hc (by omega)) (value_shrW hy hwc (by omega))
      rwa [hm', hk'] at h
  | false =>
      have h : value s (Insn.shifted false e b c wc) = .ok (x >>> (BitVec.ofNat 64 m).toNat |||
          y <<< (BitVec.ofNat 64 k).toNat) :=
        value_bin (value_shrW hx hc (by omega)) (value_shlW hy hwc (by omega))
      rwa [hm', hk'] at h

theorem value_shifted {left : Bool} {wc : Expr} {n m : ℕ} (hn : n ≤ 64) (hm : m < 64)
    (hmn : n - m < 64) (hx : value s e = .ok x) (hy : value s b = .ok y)
    (hc : value s c = .ok (BitVec.ofNat 64 m)) (hwc : value s wc = .ok (BitVec.ofNat 64 (n - m))) :
    value s (bin .and (Insn.shifted left e b c wc) (konst (mask n))) =
      .ok (BitVec.ofNat 64 (funnel n left x.toNat y.toNat m)) := by
  have hcut (v : ℕ) : v % 2 ^ 64 % 2 ^ n = v % 2 ^ n :=
    Nat.mod_mod_of_dvd v (Nat.pow_dvd_pow 2 hn)
  rw [value_maskN hn (value_shiftedW hm hmn hx hy hc hwc)]
  cases left
  all_goals
    simp only [if_true, Bool.false_eq_true, if_false]
    rw [BitVec.toNat_or, BitVec.toNat_shiftLeft, BitVec.toNat_ushiftRight, Nat.or_mod_two_pow,
      hcut, ← Nat.or_mod_two_pow]
    rfl

end

/-! ### What the statements make -/

inductive Shift
  | shl | shr | sar | rol | ror | rcl | rcr | shld | shrd
  deriving DecidableEq, Repr

namespace Shift

def mnemonic : Shift → Mnemonic
  | shl => .shl
  | shr => .shr
  | sar => .sar
  | rol => .rol
  | ror => .ror
  | rcl => .rcl
  | rcr => .rcr
  | shld => .shld
  | shrd => .shrd

def operands (x y n : Operand) : Shift → List Operand
  | shld | shrd => [x, y, n]
  | _ => [x, n]

/-- What the processor leaves in the destination and in the flags; `none` is undefined. -/
def exec (w : Width) (a b n : ℕ) (f : Flags) : Shift → Option Result
  | shl => some (Alu.shl w a n f)
  | shr => some (Alu.shr w a n f)
  | sar => some (Alu.sar w a n f)
  | rol => some (rotate w true a n f)
  | ror => some (rotate w false a n f)
  | rcl => some (rotateCarry w true a n f)
  | rcr => some (rotateCarry w false a n f)
  | shld => double w true a b n f
  | shrd => double w false a b n f

end Shift

def shifted (w : Width) (f : Flags) (r : ℕ) (cf : Bool) : Result :=
  { f.keep r with cf := some cf, zf := some (r = 0), sf := some (msb w r), pf := some (parity r) }

def madeRotate (w : Width) (left : Bool) (a n : ℕ) (f : Flags) : Result :=
  if n % w.bits = 0 then f.keep a
  else
    let r := funnel w.bits left a a (n % w.bits)
    { f.keep r with cf := some (if left then r.testBit 0 else r.testBit (w.bits - 1)) }

/-- A rotation through the carry: the count is not masked before it is reduced. -/
def madeRotateCarry (w : Width) (left : Bool) (a n : ℕ) (f : Flags) : Result :=
  let x := funnel (w.bits + 1) left (withCarry w a f.cf) (withCarry w a f.cf) (n % (w.bits + 1))
  if n % (w.bits + 1) = 0 then f.keep a
  else { f.keep (x % w.size) with cf := some (x.testBit w.bits) }

def madeDouble (w : Width) (left : Bool) (a b n : ℕ) (f : Flags) : Result :=
  if n % w.bits = 0 then f.keep a else shifted w f (funnel w.bits left a b (n % w.bits)) f.cf

/-- What the statements of an instruction leave; a shift left by more than the width has no end. -/
def Shift.made (w : Width) (a b n : ℕ) (f : Flags) : Shift → Option Result
  | .shl =>
    let c := n % w.counts
    if c = 0 then some (f.keep a)
    else if w.bits < c then none
    else some (shifted w f (a <<< c % w.size) (a.testBit (w.bits - c)))
  | .shr =>
    let c := n % w.counts
    some (if c = 0 then f.keep a else shifted w f (a >>> c) (a.testBit (c - 1)))
  | .sar =>
    let c := n % w.counts
    some (if c = 0 then f.keep a
      else shifted w f (toSigned w a / 2 ^ c % w.size).toNat (a.testBit (c - 1)))
  | .rol => some (madeRotate w true a n f)
  | .ror => some (madeRotate w false a n f)
  | .rcl => some (madeRotateCarry w true a n f)
  | .rcr => some (madeRotateCarry w false a n f)
  | .shld => some (madeDouble w true a b n f)
  | .shrd => some (madeDouble w false a b n f)

/-! ### The statements for flags -/

def State.Has (s : State) (f : Flags) : Prop := s.Shows (f.keep 0)

section
variable {s : State} {a c r ez ec : Expr} {z : Word} {f : Flags} {w : Width} {m : ℕ} {q : Bool}

theorem State.Has.keep (h : s.Has f) (n : ℕ) : s.Shows (f.keep n) := h.withRes n

theorem State.Has.offFlags {s' : State} (h : s.Has f) (hs : ∀ k, s'.loc (.flag k) = s.loc (.flag k)) :
    s'.Has f := State.Shows.congr h hs

/-- A flag that is set unless the count is zero, where the flags before are the result. -/
theorem value_unlessZero_shown {s' : State} {kind : FlagKind} {v : Expr} {n : ℕ} {R : Result}
    (hf : s.Has f) (hm : m < 64) (hc : value s' c = .ok (BitVec.ofNat 64 m))
    (hn : signedWidth c = none) (hkept : s'.loc (.flag kind) = s.loc (.flag kind))
    (hset : (flagOf (f.keep n) kind).isSome)
    (hv : m ≠ 0 → value s' v = .ok (ofBool ((flagOf R kind).getD false))) :
    value s' (unlessZero c kind v) =
      .ok (ofBool ((flagOf (if m = 0 then f.keep n else R) kind).getD false)) := by
  obtain ⟨p, hp⟩ := Option.isSome_iff_exists.mp hset
  rw [value_unlessZero hm hc hn (hkept.trans (hf.keep n _ p hp)) hv]
  split
  · rw [hp]
    rfl
  · rfl

/-- The flags that a shift never sets. -/
theorem shows_rest {ks : List FlagKind} {n : ℕ} {R : Result} (hf : s.Has f)
    (hR : ∀ k ∉ ks, flagOf R k = flagOf (f.keep n) k) (k : FlagKind) (hk : k ∉ ks) (q : Bool)
    (hq : flagOf (if m = 0 then f.keep n else R) k = some q) : s.loc (.flag k) = ofBool q := by
  split at hq
  · exact hf.keep n k q hq
  · exact hf.keep n k q ((hR k hk).symm.trans hq)

theorem run_shiftFlags (hf : s.Has f) (hm : m < 64) (hc : Stable s c (BitVec.ofNat 64 m))
    (hn : signedWidth c = none) (hr : Stable s r z)
    (hz : ∀ s', OffFlags s s' → value s' ez = .ok (ofBool (z.toNat % w.size = 0)))
    (hq : m ≠ 0 → ∀ s', OffFlags s s' → value s' ec = .ok (ofBool q)) :
    ∃ s', run [setFlag .zf (unlessZero c .zf ez), setFlag .cf (unlessZero c .cf ec),
        flagUnlessZero c .sf (signBit r w.bits), flagUnlessZero c .pf (fcall "__ix_pf" [r])] s =
          .ok s' ∧ OffFlags s s' ∧
      s'.Shows (if m = 0 then f.keep (z.toNat % w.size)
        else shifted w f (z.toNat % w.size) q) := by
  refine (run_shows (L := [(.zf, _), (.cf, _), (.sf, _), (.pf, _)])
    [.zf, .cf, .sf, .pf] rfl (by decide) (shows_rest hf ?_) ?_).imp
    fun s' h => ⟨h.1, h.2.1, h.2.2.2⟩
  · intro k hk
    cases k with
    | of | af | df => rfl
    | _ => exact absurd (by decide) hk
  simp only [List.forall_mem_cons]
  refine ⟨fun s' h hk => ?_, fun s' h hk => ?_, fun s' h hk => ?_, fun s' h hk => ?_, nofun⟩ <;>
    refine value_unlessZero_shown hf hm (hc s' h) hn (hk _ (.inl rfl)) rfl fun h0 => ?_
  · exact hz s' h
  · exact hq h0 s' h
  · exact value_sf (hr s' h)
  · exact value_pf_of (hr s' h)

theorem run_shiftFlags_undefined {rest : List Stmt} (hf : s.Has f) (hm : m < 64) (hm0 : m ≠ 0)
    (hc : Stable s c (BitVec.ofNat 64 m)) (hn : signedWidth c = none)
    (hz : ∀ s', OffFlags s s' → value s' ez = .ok (ofBool q))
    (hq : ∀ s', OffFlags s s' → value s' ec = .error .undefined) :
    run (setFlag .zf (unlessZero c .zf ez) :: setFlag .cf (unlessZero c .cf ec) :: rest) s =
      .error .undefined := by
  have hset : OffFlags s (s.set (.flag .zf) (ofBool (if m = 0 then f.zf else q))) :=
    ⟨rfl, fun l hl => set_loc_of_ne (hl .zf)⟩
  have hzf := value_unlessZero hm (hc s (.refl s)) hn (hf .zf _ rfl) fun _ => hz s (.refl s)
  have hcond := value_eqZero (hc _ hset) (fits_of_none hn)
  rw [ofBool_zero (by omega)] at hcond
  have hcf : value (s.set (.flag .zf) (ofBool (if m = 0 then f.zf else q)))
      (unlessZero c .cf ec) = .error .undefined := by
    rw [unlessZero, value_select hcond, if_neg (by simp only [hm0, decide_false,
      Bool.false_eq_true, not_false_iff]), hq _ hset]
  rw [setFlag, setFlag, run_set hzf]
  simp only [run, hcf]
  rfl

theorem value_eqZero_nat {s' : State} (hr : value s' r = .ok z) (hfit : Fits r z) :
    value s' (bin .eq r (konst 0)) = .ok (ofBool (z.toNat = 0)) := by
  rw [value_eqZero hr hfit, ofBool_inj.mpr (decide_eq_decide.mpr _)]
  rw [← BitVec.toNat_inj]
  rfl

theorem run_resultFlags_unlessZero (hf : s.Has f) (hm : m < 64)
    (hc : Stable s c (BitVec.ofNat 64 m)) (hn : signedWidth c = none) (hr : Stable s r z)
    (hrn : signedWidth r = none) (hz : z.toNat < w.size) :
    ∃ s', run [setFlag .zf (unlessZero c .zf (bin .eq r (konst 0))),
        flagUnlessZero c .sf (signBit r w.bits), flagUnlessZero c .pf (fcall "__ix_pf" [r])] s =
          .ok s' ∧ OffFlags s s' ∧
      s'.Shows (if m = 0 then f.keep z.toNat else shifted w f z.toNat f.cf) := by
  have hmod : z.toNat % w.size = z.toNat := Nat.mod_eq_of_lt hz
  refine (run_shows (L := [(.zf, _), (.sf, _), (.pf, _)]) [.zf, .sf, .pf] rfl (by decide)
    (shows_rest hf ?_) ?_).imp fun s' h => ⟨h.1, h.2.1, h.2.2.2⟩
  · intro k hk
    cases k with
    | of | af | cf | df => rfl
    | _ => exact absurd (by decide) hk
  simp only [List.forall_mem_cons]
  refine ⟨fun s' h hk => ?_, fun s' h hk => ?_, fun s' h hk => ?_, nofun⟩ <;>
    refine value_unlessZero_shown hf hm (hc s' h) hn (hk _ (.inl rfl)) rfl fun h0 => ?_
  · exact value_eqZero_nat (hr s' h) (fits_of_none hrn)
  · exact (value_sf (hr s' h)).trans (by rw [hmod]; rfl)
  · exact (value_pf_of (w := w) (hr s' h)).trans (by rw [hmod]; rfl)

theorem run_resultFlags (hf : s.Has f) (hr : Stable s r z) (hfit : Fits r z)
    (hz : z.toNat < w.size) :
    ∃ s', run [setFlag .zf (bin .eq r (konst 0)), setFlag .sf (signBit r w.bits), pfFlag r] s =
          .ok s' ∧ OffFlags s s' ∧ s'.Shows (shifted w f z.toNat f.cf) := by
  have hmod : z.toNat % w.size = z.toNat := Nat.mod_eq_of_lt hz
  refine (run_shows (L := [(.zf, _), (.sf, _), (.pf, _)]) [.zf, .sf, .pf] rfl (by decide)
    ?_ ?_).imp fun s' h => ⟨h.1, h.2.1, h.2.2.2⟩
  · intro k hk p hp
    cases k with
    | of | af | cf | df => exact hf _ p hp
    | _ => exact absurd (by decide) hk
  simp only [List.forall_mem_cons]
  refine ⟨fun s' h _ => value_eqZero_nat (hr s' h) hfit, fun s' h _ => ?_, fun s' h _ => ?_, nofun⟩
  · exact (value_sf (hr s' h)).trans (by rw [hmod]; rfl)
  · exact (value_pf_of (w := w) (hr s' h)).trans (by rw [hmod]; rfl)

theorem run_carryFlag {e : Expr} (r : ℕ) (hf : s.Has f) (he : value s e = .ok (ofBool q)) :
    ∃ s', run [setFlag .cf e] s = .ok s' ∧ OffFlags s s' ∧
      s'.Shows { f.keep r with cf := some q } := by
  refine ⟨s.set (.flag .cf) (ofBool q), run_set he, ⟨rfl, fun l hl => set_loc_of_ne (hl .cf)⟩, ?_⟩
  intro k p hk
  cases k with
  | df => cases hk
  | cf =>
      cases hk
      exact set_loc_self
  | zf | sf | pf | of | af =>
      exact (set_loc_of_ne (by nofun)).trans (hf.keep r _ p hk)

end

/-! ### The instructions -/

/-- The forms that the lifter takes: double shifts of 16 bits and more, and rotations through the
carry of less than 64 bits by an immediate. -/
def Shift.Accepts (w : Width) (count : Operand) : Shift → Prop
  | .shld | .shrd => w ≠ .b8
  | .rcl | .rcr => w ≠ .b64 ∧ ∃ v, count = .imm v
  | _ => True

/-- An instruction of the group, as a decoder gives it. -/
structure ShiftInsn where
  insn : Insn
  op : Shift
  dst : Operand
  src : Register
  count : Operand
  place : dst.isPlace
  source : src.width = dst.width
  counted : count = .reg (.gpr 1 .b8) ∨ ∃ v < 256, count = .imm (BitVec.ofNat 64 v)
  accepted : op.Accepts dst.width count
  mnemonic : insn.mnemonic = op.mnemonic
  ops : insn.ops = op.operands dst (.reg src) count

/-- The words of the operands, in every state with the same registers, frame slots and memory. -/
structure ShiftInsn.Words (i : ShiftInsn) (cfg : Config) (s : State) (x y : Word) (n : ℕ) : Prop where
  dst : ∀ s', Same s s' → value s' (opValue cfg i.dst) = .ok x
  src : ∀ s', Same s s' → value s' (opValue cfg (.reg i.src)) = .ok y
  count : ∀ s', Same s s' → value s' (opValue cfg i.count) = .ok (BitVec.ofNat 64 n)
  dst_lt : x.toNat < i.dst.width.size
  src_lt : y.toNat < i.dst.width.size
  count_lt : n < 256
  imm : ∀ v, i.count = .imm v → v.toNat = n

theorem ShiftInsn.words (i : ShiftInsn) (cfg : Config) (s : State) :
    ∃ x y n, i.Words cfg s x y n := by
  obtain ⟨x, hx, hxlt, -⟩ := opValue_fixed cfg i.dst s
  obtain ⟨y, hy, hylt, -⟩ := opValue_fixed cfg (.reg i.src) s
  have hsrc : y.toNat < i.dst.width.size := i.source ▸ hylt trivial
  rcases i.counted with hc | ⟨v, hv, hc⟩
  · refine ⟨x, y, s.regVal (.gpr 1 .b8), hx, hy, fun s' h => ?_, hxlt i.place, hsrc,
      regVal_lt s (.gpr 1 .b8), fun v hv => ?_⟩
    · rw [hc, ← regVal_congr h.reg]
      exact value_readReg s' (.gpr 1 .b8)
    · rw [hc] at hv
      cases hv
  · have hnat : (BitVec.ofNat 64 v).toNat = v := by
      rw [BitVec.toNat_ofNat, Nat.mod_eq_of_lt (by omega)]
    refine ⟨x, y, v, hx, hy, fun s' h => ?_, hxlt i.place, hsrc, hv, fun u hu => ?_⟩
    · rw [hc]
      exact (value_konst_nat _).trans (by rw [hnat])
    · rw [hc] at hu
      cases hu
      exact hnat

theorem sar_toNat (w : Width) {x : Word} (hx : x.toNat < w.size) (m : ℕ) :
    ((sext w.bits x).sshiftRight m).toNat % w.size =
      (toSigned w x.toNat / 2 ^ m % w.size).toNat := by
  rw [toNat_mod_of_toInt, BitVec.toInt_sshiftRight, toInt_sext w hx, Int.shiftRight_eq_div_pow]
  norm_cast

theorem sar_eq_zero (w : Width) {x : Word} (hx : x.toNat < w.size) (m : ℕ) :
    (sext w.bits x).sshiftRight m = 0 ↔
      ((sext w.bits x).sshiftRight m).toNat % w.size = 0 := by
  constructor
  · intro h
    rw [h]
    exact Nat.zero_mod _
  · intro h
    rw [toNat_mod_of_toInt] at h
    apply BitVec.eq_of_toInt_eq
    have hint : ((sext w.bits x).sshiftRight m).toInt = toSigned w x.toNat / 2 ^ m := by
      rw [BitVec.toInt_sshiftRight, toInt_sext w hx, Int.shiftRight_eq_div_pow]
      norm_cast
    have hrange := toSigned_lt w hx
    have hsize := w.size_eq
    have hpos := w.half_pos
    have hpow : (0 : ℤ) < 2 ^ m := by positivity
    have hlow : -(w.half : ℤ) ≤ toSigned w x.toNat / 2 ^ m := by
      rw [Int.le_ediv_iff_mul_le hpow]
      nlinarith
    have hhigh : toSigned w x.toNat / 2 ^ m < w.half := by
      rw [Int.ediv_lt_iff_lt_mul hpow]
      nlinarith
    rw [hint] at h ⊢
    have hnonneg := Int.emod_nonneg (toSigned w x.toNat / 2 ^ m) (b := w.size) (by omega)
    have hdvd : (w.size : ℤ) ∣ toSigned w x.toNat / 2 ^ m := Int.dvd_of_emod_eq_zero (by omega)
    exact Int.eq_zero_of_abs_lt_dvd hdvd (by rw [abs_lt]; omega)

theorem sar_zero (w : Width) {a : ℕ} (ha : a < w.size) :
    (toSigned w a / 2 ^ 0 % w.size).toNat = a := by
  have hcases := toSigned_cases w a
  rw [pow_zero, Int.ediv_one]
  rcases hcases with ⟨-, h⟩ | ⟨-, h⟩ <;> rw [h]
  · rw [Int.emod_eq_of_lt (by omega) (by omega), Int.toNat_natCast]
  · rw [Int.sub_emod_right, Int.emod_eq_of_lt (by omega) (by omega), Int.toNat_natCast]

theorem shr_toNat (w : Width) {x : Word} (hx : x.toNat < w.size) (k : ℕ) :
    (x >>> k).toNat % w.size = x.toNat >>> k := by
  rw [BitVec.toNat_ushiftRight]
  refine Nat.mod_eq_of_lt (lt_of_le_of_lt ?_ hx)
  rw [Nat.shiftRight_eq_div_pow]
  exact Nat.div_le_self ..

theorem shr_eq_zero (w : Width) {x : Word} (hx : x.toNat < w.size) (k : ℕ) :
    x >>> k = 0 ↔ (x >>> k).toNat % w.size = 0 := by
  rw [shr_toNat w hx, ← BitVec.toNat_ushiftRight, ← BitVec.toNat_inj]
  rfl

theorem value_sar {cfg : Config} {s : State} {o : Operand} {k : Expr} {x : Word} {m : ℕ}
    (ho : o.isPlace) (hx : value s (opValue cfg o) = .ok x)
    (hk : value s k = .ok (BitVec.ofNat 64 m)) (hm : m < 64) :
    value s (bin .sar (opValue cfg o) k) =
      .ok ((sext o.width.bits x).sshiftRight m) := by
  rw [value_bin hx hk]
  simp only [binary]
  rw [toNat_ofNat_lt hm, if_pos hm, signedCast_place cfg ho]

theorem signedWidth_turn (w : Width) (e : Expr) :
    signedWidth (bin .and e (konst (w.bits - 1 : ℕ))) = none := by
  cases w <;> rfl

theorem signedWidth_count (w : Width) (e : Expr) :
    signedWidth (bin .and e (konst (if w.bits = 64 then 63 else 31))) = none := by
  cases w <;> rfl

theorem toNat_funnel (w : Width) {left : Bool} {a b k : ℕ} :
    (BitVec.ofNat 64 (funnel w.bits left a b k)).toNat = funnel w.bits left a b k := by
  rw [BitVec.toNat_ofNat]
  exact Nat.mod_eq_of_lt (lt_of_lt_of_le funnel_lt w.size_le)

section
variable (i : ShiftInsn) {cfg : Config} {s : State} {x y : Word} {n : ℕ} {f : Flags}

theorem ShiftInsn.Words.turn {i : ShiftInsn} (h : i.Words cfg s x y n) (w : Width) :
    Stable s (bin .and (opValue cfg i.count) (konst (w.bits - 1 : ℕ)))
      (BitVec.ofNat 64 (n % w.bits)) := by
  intro s' hs
  have hlt := h.count_lt
  rw [value_turn w (h.count s' hs.same), BitVec.toNat_ofNat,
    Nat.mod_eq_of_lt (show n < 2 ^ 64 by omega)]

theorem ShiftInsn.Words.masked {i : ShiftInsn} (h : i.Words cfg s x y n) (w : Width) :
    Stable s (bin .and (opValue cfg i.count) (konst (if w.bits = 64 then 63 else 31)))
      (BitVec.ofNat 64 (n % w.counts)) := by
  intro s' hs
  have hlt := h.count_lt
  rw [value_count w (h.count s' hs.same), BitVec.toNat_ofNat,
    Nat.mod_eq_of_lt (show n < 2 ^ 64 by omega)]

theorem ShiftInsn.run_doubleBy (left : Bool) (h : i.Words cfg s x y n) (hf : s.Has f) :
    let w := i.dst.width
    let dst := opValue cfg i.dst
    let c := bin .and (opValue cfg i.count) (konst (w.bits - 1 : ℕ))
    let wc := bin .and (bin .sub (konst w.bits) c) (konst (w.bits - 1 : ℕ))
    let val := .select (bin .eq c (konst 0)) (bin .and dst (konst (mask w.bits)))
      (bin .and (Insn.shifted left dst (opValue cfg (.reg i.src)) c wc) (konst (mask w.bits)))
    ∃ s', run (i.insn.finish cfg i.dst [setFlag .zf (unlessZero c .zf (bin .eq val (konst 0))),
        flagUnlessZero c .sf (signBit val w.bits),
        flagUnlessZero c .pf (fcall "__ix_pf" [val])] val) s = .ok s' ∧
      s'.Leaves cfg i.dst (madeDouble w left x.toNat y.toNat n f) := by
  intro w dst c wc val
  have hpos := w.bits_pos
  have hle := w.bits_le
  have hk : n % w.bits < w.bits := Nat.mod_lt n hpos
  have hc : Stable s c (BitVec.ofNat 64 (n % w.bits)) := h.turn w
  have hval : Stable s val (BitVec.ofNat 64 (funnel w.bits left x.toNat y.toNat (n % w.bits))) := by
    intro s' hs
    have hcond := value_eqZero (hc s' hs) (fits_of_none (signedWidth_turn w _))
    rw [ofBool_zero (by omega)] at hcond
    rw [value_select hcond]
    by_cases h0 : n % w.bits = 0
    · rw [if_pos (decide_eq_true h0), h0, funnel_zero h.dst_lt h.src_lt, BitVec.ofNat_toNat,
        BitVec.setWidth_eq]
      exact value_mask_of_lt w (h.dst s' hs.same) h.dst_lt
    · rw [if_neg (by simp only [h0, decide_false, Bool.false_eq_true, not_false_iff])]
      have hwc := value_rest w hk (hc s' hs)
      rw [Nat.mod_eq_of_lt (by omega)] at hwc
      exact value_shifted hle (by omega) (by omega) (h.dst s' hs.same) (h.src s' hs.same)
        (hc s' hs) hwc
  obtain ⟨s₁, hrun, hoff, hs⟩ := run_resultFlags_unlessZero (w := w) hf (by omega) hc
    (signedWidth_turn w _) hval rfl (by rw [toNat_funnel]; exact funnel_lt)
  rw [toNat_funnel] at hs
  have hmade : (if n % w.bits = 0 then f.keep (funnel w.bits left x.toNat y.toNat (n % w.bits))
      else shifted w f (funnel w.bits left x.toNat y.toNat (n % w.bits)) f.cf) =
      madeDouble w left x.toNat y.toNat n f := by
    unfold madeDouble
    by_cases h0 : n % w.bits = 0
    · rw [if_pos h0, if_pos h0, h0, funnel_zero h.dst_lt h.src_lt]
    · rw [if_neg h0, if_neg h0]
  have hres : (madeDouble w left x.toNat y.toNat n f).res =
      funnel w.bits left x.toNat y.toNat (n % w.bits) := by
    rw [← hmade]
    split <;> rfl
  rw [hmade] at hs
  refine leaves_of_finish _ i.place hrun hs (hval s₁ hoff) ?_
  rw [toNat_funnel, hres]
  exact Nat.mod_eq_of_lt funnel_lt

theorem ShiftInsn.run_liftDouble (left : Bool) (h : i.Words cfg s x y n) (hf : s.Has f)
    (hw : i.dst.width ≠ .b8) :
    ∃ s', run (i.insn.liftDouble cfg left i.dst (.reg i.src) i.count) s = .ok s' ∧
      s'.Leaves cfg i.dst (madeDouble i.dst.width left x.toNat y.toNat n f) := by
  have hwidth : i.dst.width.bits = 16 ∨ i.dst.width.bits = 32 ∨ i.dst.width.bits = 64 := by
    revert hw
    cases i.dst.width <;> decide
  have hle := i.dst.width.bits_le
  have hk : n % i.dst.width.bits < i.dst.width.bits := Nat.mod_lt n i.dst.width.bits_pos
  unfold Insn.liftDouble
  rw [opWidth_place i.place]
  dsimp only
  rw [if_neg (not_not_intro hwidth)]
  rcases i.counted with hc | ⟨v, hv, hc⟩
  · have hby := i.run_doubleBy left h hf
    rw [hc] at hby ⊢
    exact hby
  · have hcnt : (BitVec.ofNat 64 v).toNat % 2 ^ 32 % i.dst.width.bits = n % i.dst.width.bits := by
      have hlt := h.count_lt
      rw [h.imm _ hc, Nat.mod_eq_of_lt (show n < 2 ^ 32 by omega)]
    rw [hc]
    dsimp only
    rw [hcnt]
    unfold madeDouble
    by_cases h0 : n % i.dst.width.bits = 0
    · rw [if_pos h0, if_pos h0]
      exact leaves_of_finish _ i.place rfl (hf.keep _) (h.dst s (.refl s))
        (Nat.mod_eq_of_lt h.dst_lt)
    · rw [if_neg h0, if_neg h0]
      have hval : Stable s (bin .and (Insn.shifted left (opValue cfg i.dst)
          (opValue cfg (.reg i.src)) (konst (n % i.dst.width.bits : ℕ))
          (konst (i.dst.width.bits - n % i.dst.width.bits : ℕ))) (konst (mask i.dst.width.bits)))
          (BitVec.ofNat 64 (funnel i.dst.width.bits left x.toNat y.toNat
            (n % i.dst.width.bits))) := fun s' hs =>
        value_shifted hle (by omega) (by omega) (h.dst s' hs.same) (h.src s' hs.same)
          (value_konst_nat _) (value_konst_nat _)
      have hfit : ∀ e, Fits (bin .and e (konst (mask i.dst.width.bits)))
          (BitVec.ofNat 64 (funnel i.dst.width.bits left x.toNat y.toNat
            (n % i.dst.width.bits))) := by
        intro e
        have hcut := and_mask i.dst.width (BitVec.ofNat 64 (funnel i.dst.width.bits left x.toNat
          y.toNat (n % i.dst.width.bits)))
        rw [toNat_funnel, Nat.mod_eq_of_lt (show _ < i.dst.width.size from funnel_lt)] at hcut
        rw [← hcut]
        exact fits_and (value_konst (s := s) _)
      obtain ⟨s₁, hrun, hoff, hs⟩ := run_resultFlags (w := i.dst.width) hf hval (hfit _)
        (by rw [toNat_funnel]; exact funnel_lt)
      rw [toNat_funnel] at hs
      refine leaves_of_finish _ i.place hrun hs (hval s₁ hoff) ?_
      rw [toNat_funnel]
      exact Nat.mod_eq_of_lt funnel_lt

theorem value_turned {e c wc : Expr} {left : Bool} {m : ℕ} (w : Width) (hm : m < w.bits)
    (hx : value s e = .ok x) (hlt : x.toNat < w.size) (hc : value s c = .ok (BitVec.ofNat 64 m))
    (hwc : value s wc = .ok (BitVec.ofNat 64 ((w.bits - m) % w.bits))) :
    value s (bin .and (Insn.shifted left e e c wc) (konst (mask w.bits))) =
      .ok (BitVec.ofNat 64 (funnel w.bits left x.toNat x.toNat m)) := by
  have hle := w.bits_le
  by_cases h0 : m = 0
  · subst h0
    rw [Nat.sub_zero, Nat.mod_self] at hwc
    have hval : value s (Insn.shifted left e e c wc) = .ok x := by
      rw [value_shiftedW (by decide) (by decide) hx hx hc hwc, BitVec.shiftLeft_zero,
        BitVec.ushiftRight_zero, BitVec.or_self, ite_self]
    rw [funnel_zero hlt hlt, BitVec.ofNat_toNat, BitVec.setWidth_eq]
    exact value_mask_of_lt w hval hlt
  · rw [Nat.mod_eq_of_lt (by omega)] at hwc
    exact value_shifted hle (by omega) (by omega) hx hx hc hwc

theorem ShiftInsn.run_liftRotate (left : Bool) (h : i.Words cfg s x y n) (hf : s.Has f) :
    ∃ s', run (i.insn.liftRotate cfg left i.dst i.count) s = .ok s' ∧
      s'.Leaves cfg i.dst (madeRotate i.dst.width left x.toNat n f) := by
  obtain ⟨w, hw⟩ : ∃ w, w = i.dst.width := ⟨_, rfl⟩
  have hle := w.bits_le
  have hpos := w.bits_pos
  have hxlt : x.toNat < w.size := hw ▸ h.dst_lt
  have hk : n % w.bits < w.bits := Nat.mod_lt n hpos
  let F := funnel w.bits left x.toNat x.toNat (n % w.bits)
  let c := bin .and (opValue cfg i.count) (konst (w.bits - 1 : ℕ))
  let wc := bin .and (bin .sub (konst w.bits) c) (konst (w.bits - 1 : ℕ))
  let a := bin .and (opValue cfg i.dst) (konst (mask w.bits))
  let val := bin .and (Insn.shifted left a a c wc) (konst (mask w.bits))
  have hval : Stable s val (BitVec.ofNat 64 F) := by
    intro s' hs
    have ha : value s' a = .ok x := value_mask_of_lt w (h.dst s' hs.same) hxlt
    exact value_turned w hk ha hxlt (h.turn w s' hs) (value_rest w hk (h.turn w s' hs))
  have hbit : value s (if left then bin .and val (konst 1)
      else bin .and (bin .shr val (konst (w.bits - 1 : ℕ))) (konst 1)) =
      .ok (ofBool (if left then F.testBit 0 else F.testBit (w.bits - 1))) := by
    cases left with
    | true =>
        rw [if_pos rfl, if_pos rfl, value_and (hval s (.refl s)) (value_konst 1)]
        refine congrArg Except.ok ((and_one _).trans ?_)
        rw [toNat_funnel, Nat.testBit_eq_decide_div_mod_eq, pow_zero, Nat.div_one]
    | false =>
        rw [if_neg Bool.false_ne_true, if_neg Bool.false_ne_true,
          value_bit (by omega) (hval s (.refl s)), toNat_funnel, Nat.testBit_eq_decide_div_mod_eq]
  have hcf := value_unlessZero (by omega) (h.turn w s (.refl s)) (signedWidth_turn w _)
    (hf .cf _ rfl) fun _ => hbit
  obtain ⟨s₁, hrun, hoff, hs⟩ := run_carryFlag F hf hcf
  have hmade : { f.keep F with cf := some (if n % w.bits = 0 then f.cf
      else if left then F.testBit 0 else F.testBit (w.bits - 1)) } =
      madeRotate w left x.toNat n f := by
    unfold madeRotate
    by_cases h0 : n % w.bits = 0
    · have hF : F = x.toNat := by
        show funnel w.bits left x.toNat x.toNat (n % w.bits) = x.toNat
        rw [h0, funnel_zero hxlt hxlt]
      rw [if_pos h0, if_pos h0, hF]
      rfl
    · rw [if_neg h0, if_neg h0]
  have hres : (madeRotate w left x.toNat n f).res = F := hmade ▸ rfl
  rw [hmade] at hs
  unfold Insn.liftRotate
  rw [opWidth_place i.place, ← hw]
  refine leaves_of_finish _ i.place hrun hs (hval s₁ hoff) ?_
  rw [toNat_funnel, hres, ← hw]
  exact Nat.mod_eq_of_lt funnel_lt

theorem withCarry_lt {w : Width} {a : ℕ} {cf : Bool} (ha : a < w.size) :
    withCarry w a cf < 2 ^ (w.bits + 1) := by
  refine Nat.or_lt_two_pow ?_ (lt_of_lt_of_le ha (Nat.pow_le_pow_right (by decide) (by omega)))
  rw [Nat.shiftLeft_eq, pow_succ, Nat.mul_comm]
  exact Nat.mul_lt_mul_of_pos_left (Nat.lt_succ_of_le (Bool.toNat_le cf)) (Nat.two_pow_pos _)

theorem toNat_withCarry {w : Width} (hw : w ≠ .b64) {a : ℕ} {cf : Bool} (ha : a < w.size) :
    (ofBool cf <<< w.bits ||| BitVec.ofNat 64 a).toNat = withCarry w a cf := by
  have hlt : withCarry w a cf < 2 ^ (w.bits + 1) := withCarry_lt ha
  have hbits : w.bits ≤ 32 := by
    revert hw
    cases w <;> decide
  have ha64 : a < 2 ^ 64 := lt_of_lt_of_le ha w.size_le
  have hcf : cf.toNat <<< w.bits < 2 ^ 64 := by
    rw [Nat.shiftLeft_eq]
    calc cf.toNat * 2 ^ w.bits ≤ 1 * 2 ^ 32 :=
          Nat.mul_le_mul (Bool.toNat_le cf) (Nat.pow_le_pow_right (by decide) hbits)
      _ < 2 ^ 64 := by decide
  rw [BitVec.toNat_or, BitVec.toNat_shiftLeft, ofBool_toNat, BitVec.toNat_ofNat,
    Nat.mod_eq_of_lt hcf, Nat.mod_eq_of_lt ha64]
  rfl

theorem ShiftInsn.run_liftRotateCarry (left : Bool) (h : i.Words cfg s x y n) (hf : s.Has f)
    (hw64 : i.dst.width ≠ .b64) (himm : ∃ v, i.count = .imm v) :
    ∃ s', run (i.insn.liftRotateCarry cfg left i.dst i.count) s = .ok s' ∧
      s'.Leaves cfg i.dst (madeRotateCarry i.dst.width left x.toNat n f) := by
  obtain ⟨v, hv⟩ := himm
  obtain ⟨w, hw⟩ : ∃ w, w = i.dst.width := ⟨_, rfl⟩
  rw [← hw] at hw64 ⊢
  have hbits : w.bits ≤ 32 := by
    revert hw64
    cases w <;> decide
  have hwidth : w.bits = 8 ∨ w.bits = 16 ∨ w.bits = 32 := by
    revert hw64
    cases w <;> decide
  have hxlt : x.toNat < w.size := hw ▸ h.dst_lt
  have hcnt : v.toNat % 2 ^ 32 % (w.bits + 1) = n % (w.bits + 1) := by
    have hlt := h.count_lt
    rw [h.imm v hv, Nat.mod_eq_of_lt (show n < 2 ^ 32 by omega)]
  have hk : n % (w.bits + 1) < w.bits + 1 := Nat.mod_lt n (Nat.succ_pos _)
  unfold Insn.liftRotateCarry
  rw [opWidth_place i.place, ← hw, hv]
  dsimp only
  rw [if_neg (not_not_intro hwidth), hcnt]
  have hdst : ∀ s', Same s s' →
      value s' (bin .and (opValue cfg i.dst) (konst (mask w.bits))) = .ok x :=
    fun s' hs => value_mask_of_lt w (h.dst s' hs) hxlt
  unfold madeRotateCarry
  dsimp only
  by_cases h0 : n % (w.bits + 1) = 0
  · rw [if_pos h0, if_pos h0]
    exact leaves_of_finish _ i.place rfl (hf.keep _) (hdst s (.refl s)) (hw ▸ Nat.mod_eq_of_lt hxlt)
  · rw [if_neg h0, if_neg h0]
    obtain ⟨k, hkdef⟩ : ∃ k, k = n % (w.bits + 1) := ⟨_, rfl⟩
    rw [← hkdef] at h0 hk ⊢
    let X := withCarry w x.toNat f.cf
    let F := funnel (w.bits + 1) left X X k
    let s₀ := s.set i.insn.temp (ofBool f.cf)
    have hsame : Same s s₀ := ⟨rfl, fun _ => set_loc_of_ne nofun, fun _ => set_loc_of_ne nofun⟩
    have hf₀ : s₀.Has f := hf.offFlags fun _ => set_loc_of_ne nofun
    let v := bin .or (bin .shl (.read i.insn.temp) (konst w.bits))
      (bin .and (opValue cfg i.dst) (konst (mask w.bits)))
    let rot := bin .and (Insn.shifted left v v (konst (k : ℕ)) (konst (w.bits + 1 - k : ℕ)))
      (konst (mask (w.bits + 1)))
    have hvX : Stable s₀ v (ofBool f.cf <<< w.bits ||| BitVec.ofNat 64 x.toNat) := by
      intro s' hs
      have htemp : value s' (.read i.insn.temp) = .ok (ofBool f.cf) := by
        rw [value_read, hs.loc i.insn.temp (by nofun), set_loc_self]
      have hshl := value_shlW htemp (value_konst_nat w.bits) (by rw [toNat_ofNat_lt] <;> omega)
      rw [toNat_ofNat_lt (by omega)] at hshl
      rw [value_bin hshl (hdst s' (hsame.trans hs.same)), BitVec.ofNat_toNat, BitVec.setWidth_eq]
      rfl
    have hrot : Stable s₀ rot (BitVec.ofNat 64 F) := by
      intro s' hs
      have hX := hvX s' hs
      have hval : value s' rot = .ok (BitVec.ofNat 64 (funnel (w.bits + 1) left
          (ofBool f.cf <<< w.bits ||| BitVec.ofNat 64 x.toNat).toNat
          (ofBool f.cf <<< w.bits ||| BitVec.ofNat 64 x.toNat).toNat k)) :=
        value_shifted (by omega) (by omega) (by omega) hX hX (value_konst_nat k)
          (value_konst_nat (w.bits + 1 - k))
      rwa [toNat_withCarry hw64 hxlt] at hval
    have hF : (BitVec.ofNat 64 F).toNat = F := by
      rw [BitVec.toNat_ofNat]
      exact Nat.mod_eq_of_lt (lt_of_lt_of_le funnel_lt
        (Nat.pow_le_pow_right (by decide) (show w.bits + 1 ≤ 64 by omega)))
    have hcf : value s₀ (bin .and (bin .shr rot (konst w.bits)) (konst 1)) =
        .ok (ofBool (F.testBit w.bits)) := by
      rw [value_bit (by omega) (hrot s₀ (.refl s₀)), hF, Nat.testBit_eq_decide_div_mod_eq]
    obtain ⟨s₁, hrun, hoff, hs⟩ := run_carryFlag (F % w.size) hf₀ hcf
    have hpre : run [.set i.insn.temp (readFlag .cf),
        setFlag .cf (bin .and (bin .shr rot (konst w.bits)) (konst 1))] s = .ok s₁ := by
      have hread : value s (readFlag .cf) = .ok (ofBool f.cf) := by
        rw [value_readFlag, hf .cf _ rfl]
      exact (run_set hread).trans hrun
    have hval := value_maskN w.bits_le (hrot s₁ hoff)
    rw [hF] at hval
    refine leaves_of_finish _ i.place hpre hs hval ?_
    rw [BitVec.toNat_ofNat, ← hw, mod_mod_size]
    exact Nat.mod_mod F w.size

def ShiftInsn.shlStmts (cfg : Config) : List Stmt :=
  let w := opWidth cfg i.dst
  let a := opValue cfg i.dst
  let c := bin .and (opValue cfg i.count) (konst (if w = 64 then 63 else 31))
  let r := bin .shl a c
  i.insn.finish cfg i.dst
    [setFlag .zf (unlessZero c .zf (bin .eq (bin .and r (konst (mask w))) (konst 0))),
      setFlag .cf (unlessZero c .cf (bin .and (bin .shr a (bin .sub (konst w) c)) (konst 1))),
      flagUnlessZero c .sf (signBit r w),
      flagUnlessZero c .pf (fcall "__ix_pf" [r])] r

theorem ShiftInsn.run_shl (h : i.Words cfg s x y n) (hf : s.Has f) :
    (∀ m, Shift.shl.made i.dst.width x.toNat y.toNat n f = some m →
      ∃ s', run (i.shlStmts cfg) s = .ok s' ∧ s'.Leaves cfg i.dst m) ∧
    (Shift.shl.made i.dst.width x.toNat y.toNat n f = none →
      run (i.shlStmts cfg) s = .error .undefined) := by
  unfold ShiftInsn.shlStmts
  rw [opWidth_place i.place]
  let w := i.dst.width
  let a := opValue cfg i.dst
  let c := bin .and (opValue cfg i.count) (konst (if w.bits = 64 then 63 else 31))
  let r := bin .shl a c
  obtain ⟨k, hk⟩ : ∃ k, k = n % w.counts := ⟨_, rfl⟩
  have hpos := w.bits_pos
  have hle := w.bits_le
  have hklt : k < 64 := hk ▸ lt_of_lt_of_le (Nat.mod_lt n (counts_pos w)) (counts_le w)
  have hc : Stable s c (BitVec.ofNat 64 k) := hk ▸ h.masked w
  have hr : Stable s r (x <<< k) := by
    intro s' hs
    have hval := value_shlW (h.dst s' hs.same) (hc s' hs) (by rw [toNat_ofNat_lt] <;> omega)
    rwa [toNat_ofNat_lt hklt] at hval
  have hres : (x <<< k).toNat % w.size = x.toNat <<< k % w.size := by
    rw [BitVec.toNat_shiftLeft, mod_mod_size]
  have hz : ∀ s', OffFlags s s' → value s' (bin .eq (bin .and r (konst (mask w.bits))) (konst 0)) =
      .ok (ofBool ((x <<< k).toNat % w.size = 0)) := by
    intro s' hs
    have hfit : Fits (bin .and r (konst (mask w.bits)))
        (BitVec.ofNat 64 ((x <<< k).toNat % w.size)) := by
      rw [← and_mask]
      exact fits_and (value_konst (s := s) _)
    rw [value_eqZero (value_mask w (hr s' hs)) hfit, ofBool_zero (reduced_lt w _)]
  have hdiff : ∀ s', OffFlags s s' → value s' (bin .sub (konst w.bits) c) =
      .ok (BitVec.ofNat 64 w.bits - BitVec.ofNat 64 k) := fun s' hs =>
    value_bin (value_konst_nat w.bits) (hc s' hs)
  have hmade : Shift.shl.made w x.toNat y.toNat n f = if k = 0 then some (f.keep x.toNat)
      else if w.bits < k then none
      else some (shifted w f (x.toNat <<< k % w.size) (x.toNat.testBit (w.bits - k))) := hk ▸ rfl
  rw [hmade]
  by_cases hover : w.bits < k
  · have hundef : ∀ s', OffFlags s s' → value s'
        (bin .and (bin .shr a (bin .sub (konst w.bits) c)) (konst 1)) = .error .undefined := by
      intro s' hs
      have hneg : 64 ≤ (BitVec.ofNat 64 w.bits - BitVec.ofNat 64 k).toNat := by
        rw [BitVec.toNat_sub, BitVec.toNat_ofNat, BitVec.toNat_ofNat]
        omega
      have hshr := value_shr_undefined (h.dst s' hs.same) (hdiff s' hs) hneg
      rw [bin, value, hshr]
      rfl
    rw [if_neg (show ¬ k = 0 by omega), if_pos hover]
    refine ⟨by rintro _ ⟨⟩, fun _ => ?_⟩
    obtain ⟨ws, -, hws, -⟩ := run_write cfg i.place (hr s (.refl s))
    show run (i.insn.finish cfg i.dst _ r) s = _
    rw [Insn.finish, hws]
    exact run_shiftFlags_undefined hf hklt (by omega) hc (signedWidth_count w _) hz hundef
  · have hbit : k ≠ 0 → ∀ s', OffFlags s s' → value s'
        (bin .and (bin .shr a (bin .sub (konst w.bits) c)) (konst 1)) =
          .ok (ofBool (x.toNat.testBit (w.bits - k))) := by
      intro h0 s' hs
      have hsub := toNat_sub_ofNat (Nat.le_of_not_lt hover) hle
      rw [value_bitW (h.dst s' hs.same) (hdiff s' hs) (by omega), hsub]
    obtain ⟨s₁, hrun, hoff, hs⟩ := run_shiftFlags hf hklt hc (signedWidth_count w _) hr hz hbit
    have hends : ∃ s', run (i.insn.finish cfg i.dst _ r) s = .ok s' ∧ s'.Leaves cfg i.dst _ :=
      leaves_of_finish i.insn i.place hrun hs (hr s₁ hoff) (by split <;> rfl)
    obtain ⟨s', hrun', hleaves⟩ := hends
    rw [if_neg hover]
    refine ⟨fun m hm => ⟨s', hrun', ?_⟩, fun hm => by split at hm <;> cases hm⟩
    by_cases h0 : k = 0
    · rw [if_pos h0] at hm hleaves
      cases hm
      rw [hres, h0, Nat.shiftLeft_zero, Nat.mod_eq_of_lt h.dst_lt] at hleaves
      exact hleaves
    · rw [if_neg h0] at hm hleaves
      cases hm
      rw [hres] at hleaves
      exact hleaves

theorem ShiftInsn.run_shiftRight (op : BinOp) (z : ℕ → Word) (g : ℕ → ℕ)
    (h : i.Words cfg s x y n) (hf : s.Has f)
    (hz : ∀ s' c k, Same s s' → value s' c = .ok (BitVec.ofNat 64 k) → k < 64 →
      value s' (bin op (opValue cfg i.dst) c) = .ok (z k))
    (hop : ∀ c, signedWidth (bin op (opValue cfg i.dst) c) = none)
    (hg : ∀ k, (z k).toNat % i.dst.width.size = g k)
    (hzero : ∀ k, z k = 0 ↔ (z k).toNat % i.dst.width.size = 0) (hg0 : g 0 = x.toNat) :
    ∃ s', run (Insn.liftShift.shiftRight cfg i.insn op i.dst i.count) s = .ok s' ∧
      s'.Leaves cfg i.dst (if n % i.dst.width.counts = 0 then f.keep x.toNat
        else shifted i.dst.width f (g (n % i.dst.width.counts))
          (x.toNat.testBit (n % i.dst.width.counts - 1))) := by
  obtain ⟨w, hw⟩ : ∃ w, w = i.dst.width := ⟨_, rfl⟩
  rw [← hw] at hg hzero ⊢
  obtain ⟨k, hk⟩ : ∃ k, k = n % w.counts := ⟨_, rfl⟩
  rw [← hk]
  have hklt : k < 64 := hk ▸ lt_of_lt_of_le (Nat.mod_lt n (counts_pos w)) (counts_le w)
  let c := bin .and (opValue cfg i.count) (konst (if w.bits = 64 then 63 else 31))
  have hc : Stable s c (BitVec.ofNat 64 k) := hk ▸ h.masked w
  have hr : Stable s (bin op (opValue cfg i.dst) c) (z k) := fun s' hs =>
    hz s' c k hs.same (hc s' hs) hklt
  have hzf : ∀ s', OffFlags s s' → value s' (bin .eq (bin op (opValue cfg i.dst) c) (konst 0)) =
      .ok (ofBool ((z k).toNat % w.size = 0)) := by
    intro s' hs
    rw [value_eqZero (hr s' hs) (fits_of_none (hop c)),
      ofBool_inj.mpr (decide_eq_decide.mpr (hzero k))]
  have hbit : k ≠ 0 → ∀ s', OffFlags s s' → value s'
      (bin .and (bin .shr (opValue cfg i.dst) (bin .sub c (konst 1))) (konst 1)) =
        .ok (ofBool (x.toNat.testBit (k - 1))) := by
    intro h0 s' hs
    have hdiff : value s' (bin .sub c (konst 1)) =
        .ok (BitVec.ofNat 64 k - BitVec.ofNat 64 1) :=
      value_bin (hc s' hs) (value_konst_nat 1)
    have hsub := toNat_sub_ofNat (show 1 ≤ k by omega) hklt.le
    rw [value_bitW (h.dst s' hs.same) hdiff (by omega), hsub]
  obtain ⟨s₁, hrun, hoff, hs⟩ := run_shiftFlags hf hklt hc (signedWidth_count w _) hr hzf hbit
  unfold Insn.liftShift.shiftRight
  rw [opWidth_place i.place, ← hw]
  rw [hg] at hs
  have hmade : (if k = 0 then f.keep (g k) else shifted w f (g k) (x.toNat.testBit (k - 1))) =
      if k = 0 then f.keep x.toNat else shifted w f (g k) (x.toNat.testBit (k - 1)) := by
    by_cases h0 : k = 0
    · rw [if_pos h0, if_pos h0, h0, hg0]
    · rw [if_neg h0, if_neg h0]
  have hres : (if k = 0 then f.keep (g k)
      else shifted w f (g k) (x.toNat.testBit (k - 1))).res = g k := by split <;> rfl
  rw [← hmade]
  exact leaves_of_finish _ i.place hrun hs (hr s₁ hoff) (by rw [hres, ← hw, hg])

theorem ShiftInsn.lift_eq (cfg : Config) : i.insn.lift cfg = match i.op with
    | .shl => i.shlStmts cfg
    | .shr => Insn.liftShift.shiftRight cfg i.insn .shr i.dst i.count
    | .sar => Insn.liftShift.shiftRight cfg i.insn .sar i.dst i.count
    | .rol => i.insn.liftRotate cfg true i.dst i.count
    | .ror => i.insn.liftRotate cfg false i.dst i.count
    | .rcl => i.insn.liftRotateCarry cfg true i.dst i.count
    | .rcr => i.insn.liftRotateCarry cfg false i.dst i.count
    | .shld => i.insn.liftDouble cfg true i.dst (.reg i.src) i.count
    | .shrd => i.insn.liftDouble cfg false i.dst (.reg i.src) i.count := by
  obtain ⟨⟨mn, ops, ad, tx, rd, wr⟩, op, dst, src, count, place, source, counted, accepted, hm, ho⟩ := i
  dsimp only at hm ho
  subst hm ho
  cases op <;> rfl

theorem ShiftInsn.run_lift (h : i.Words cfg s x y n) (hf : s.Has f) :
    (∀ m, i.op.made i.dst.width x.toNat y.toNat n f = some m →
      ∃ s', run (i.insn.lift cfg) s = .ok s' ∧ s'.Leaves cfg i.dst m) ∧
    (i.op.made i.dst.width x.toNat y.toNat n f = none →
      run (i.insn.lift cfg) s = .error .undefined) := by
  have hshl := i.run_shl h hf
  have hshr := i.run_shiftRight .shr (fun k => x >>> k) (fun k => x.toNat >>> k) h hf
    (fun s' c k hs hc hk => by
      rw [value_shrW (h.dst s' hs) hc (by rw [toNat_ofNat_lt hk]; exact hk), toNat_ofNat_lt hk])
    (fun c => rfl) (shr_toNat i.dst.width h.dst_lt) (shr_eq_zero i.dst.width h.dst_lt) rfl
  have hsar := i.run_shiftRight .sar (fun k => (sext i.dst.width.bits x).sshiftRight k)
    (fun k => (toSigned i.dst.width x.toNat / 2 ^ k % i.dst.width.size).toNat) h hf
    (fun s' c k hs hc hk => value_sar i.place (h.dst s' hs) hc hk) (fun c => rfl)
    (sar_toNat i.dst.width h.dst_lt) (sar_eq_zero i.dst.width h.dst_lt)
    (sar_zero i.dst.width h.dst_lt)
  have hrot := fun left => i.run_liftRotate left h hf
  have hcarry := fun left => i.run_liftRotateCarry left h hf
  have hdouble := fun left => i.run_liftDouble left h hf
  have htotal : ∀ {L : List Stmt} {r : Result}, (∃ s', run L s = .ok s' ∧ s'.Leaves cfg i.dst r) →
      (∀ m, some r = some m → ∃ s', run L s = .ok s' ∧ s'.Leaves cfg i.dst m) ∧
      (some r = none → run L s = .error .undefined) := by
    intro L r hr
    refine ⟨fun m hm => ?_, nofun⟩
    cases hm
    exact hr
  rw [i.lift_eq cfg]
  have haccepted := i.accepted
  cases hop : i.op with
  | shl => exact hshl
  | shr => exact htotal hshr
  | sar => exact htotal hsar
  | rol => exact htotal (hrot true)
  | ror => exact htotal (hrot false)
  | rcl =>
      rw [hop] at haccepted
      exact htotal (hcarry true haccepted.1 haccepted.2)
  | rcr =>
      rw [hop] at haccepted
      exact htotal (hcarry false haccepted.1 haccepted.2)
  | shld =>
      rw [hop] at haccepted
      exact htotal (hdouble true haccepted)
  | shrd =>
      rw [hop] at haccepted
      exact htotal (hdouble false haccepted)

end

/-! ### Where the statements are exact -/

/-- A result has the flags that another one defines. -/
structure Agrees (m r : Result) : Prop where
  res : m.res = r.res
  cf : ∀ p, r.cf = some p → m.cf = some p
  pf : ∀ p, r.pf = some p → m.pf = some p
  af : ∀ p, r.af = some p → m.af = some p
  zf : ∀ p, r.zf = some p → m.zf = some p
  sf : ∀ p, r.sf = some p → m.sf = some p
  of : ∀ p, r.of = some p → m.of = some p

structure Total (m : Result) : Prop where
  cf : m.cf.isSome
  pf : m.pf.isSome
  af : m.af.isSome
  zf : m.zf.isSome
  sf : m.sf.isSome
  of : m.of.isSome

theorem leaves_iff_agrees {cfg : Config} {s : State} {o : Operand} {m r : Result}
    (hm : s.Leaves cfg o m) (ht : Total m) : s.Leaves cfg o r ↔ Agrees m r := by
  have hflag : ∀ k, (flagOf m k).isSome → ∀ p,
      s.loc (.flag k) = ofBool p → flagOf m k = some p := by
    intro k hsome p hp
    obtain ⟨q, hq⟩ := Option.isSome_iff_exists.mp hsome
    rw [hm.2 k q hq, ofBool_inj] at hp
    rw [hq, hp]
  constructor
  · rintro ⟨hres, hs⟩
    exact ⟨hm.1.symm.trans hres, fun p hp => hflag .cf ht.cf p (hs .cf p hp),
      fun p hp => hflag .pf ht.pf p (hs .pf p hp), fun p hp => hflag .af ht.af p (hs .af p hp),
      fun p hp => hflag .zf ht.zf p (hs .zf p hp), fun p hp => hflag .sf ht.sf p (hs .sf p hp),
      fun p hp => hflag .of ht.of p (hs .of p hp)⟩
  · intro h
    refine ⟨hm.1.trans h.res, fun k p hp => ?_⟩
    cases k with
    | df => cases hp
    | cf => exact hm.2 .cf p (h.cf p hp)
    | pf => exact hm.2 .pf p (h.pf p hp)
    | af => exact hm.2 .af p (h.af p hp)
    | zf => exact hm.2 .zf p (h.zf p hp)
    | sf => exact hm.2 .sf p (h.sf p hp)
    | of => exact hm.2 .of p (h.of p hp)

theorem total_keep (f : Flags) (r : ℕ) : Total (f.keep r) := ⟨rfl, rfl, rfl, rfl, rfl, rfl⟩

theorem total_shifted (w : Width) (f : Flags) (r : ℕ) (cf : Bool) : Total (shifted w f r cf) :=
  ⟨rfl, rfl, rfl, rfl, rfl, rfl⟩

theorem total_carry (f : Flags) (r : ℕ) (cf : Bool) : Total { f.keep r with cf := some cf } :=
  ⟨rfl, rfl, rfl, rfl, rfl, rfl⟩

theorem total_made {w : Width} {a b n : ℕ} {f : Flags} {op : Shift} {m : Result}
    (h : op.made w a b n f = some m) : Total m := by
  cases op with
  | shl =>
      simp only [Shift.made] at h
      split at h
      · cases h
        exact total_keep f a
      split at h
      · cases h
      · cases h
        exact total_shifted ..
  | shr | sar =>
      simp only [Shift.made, Option.some.injEq] at h
      subst h
      split
      · exact total_keep f a
      · exact total_shifted ..
  | rol | ror =>
      simp only [Shift.made, Option.some.injEq, madeRotate] at h
      subst h
      split
      · exact total_keep f a
      · exact total_carry ..
  | rcl | rcr =>
      simp only [Shift.made, Option.some.injEq, madeRotateCarry] at h
      subst h
      split
      · exact total_keep f a
      · exact total_carry ..
  | shld | shrd =>
      simp only [Shift.made, Option.some.injEq, madeDouble] at h
      subst h
      split
      · exact total_keep f a
      · exact total_shifted ..

/-- What has to hold for the statements to do what the processor does.  The overflow flag is never
set.  A shift left by more than the width has no end; a shift right with the sign shifts zeros out
from the width on; whole turns, and every double shift, leave the carry; a rotation through the
carry counts too far; and a double shift by the width does nothing. -/
def Shift.Meets (w : Width) (a b n : ℕ) (f : Flags) (op : Shift) : Prop :=
  let c := n % w.counts
  let double (cf : Bool) : Prop := c ≠ 0 → c ≤ w.bits → f.cf = cf ∧
    (c = w.bits → a = b ∧ f.zf = decide (a = 0) ∧ f.sf = msb w a ∧ f.pf = parity a)
  (c = 1 → ∀ r, op.exec w a b n f = some r → r.of = some f.of) ∧
  match op with
  | .shl => c ≤ w.bits
  | .shr => True
  | .sar => w.bits < c → msb w a = false
  | .rol => c ≠ 0 → c % w.bits = 0 → f.cf = a.testBit 0
  | .ror => c ≠ 0 → c % w.bits = 0 → f.cf = msb w a
  | .rcl | .rcr => ∀ i < w.bits + 1,
      (withCarry w a f.cf).testBit ((i + 32 * (n / 32)) % (w.bits + 1)) =
        (withCarry w a f.cf).testBit i
  | .shld => double (a.testBit (w.bits - c))
  | .shrd => double (a.testBit (c - 1))

def Shift.Right (w : Width) (a b n : ℕ) (f : Flags) (op : Shift) : Prop :=
  ∃ m, op.made w a b n f = some m ∧ ∀ r, op.exec w a b n f = some r → Agrees m r

section
variable {w : Width} {a b n : ℕ} {f : Flags}

theorem agrees_refl (m : Result) : Agrees m m :=
  ⟨rfl, fun _ h => h, fun _ h => h, fun _ h => h, fun _ h => h, fun _ h => h, fun _ h => h⟩

theorem agrees_shifted {r r' : ℕ} {q : Bool} {cf of : Option Bool} :
    Agrees (shifted w f r q) (result w r' cf of none) ↔
      r = r' ∧ (∀ p, cf = some p → q = p) ∧ ∀ p, of = some p → f.of = p := by
  constructor
  · intro h
    exact ⟨h.res, fun p hp => Option.some.inj (h.cf p hp), fun p hp => Option.some.inj (h.of p hp)⟩
  · rintro ⟨rfl, hcf, hof⟩
    exact ⟨rfl, fun p hp => congrArg some (hcf p hp), fun _ h => h, nofun, fun _ h => h,
      fun _ h => h, fun p hp => congrArg some (hof p hp)⟩

@[simp] theorem result_of (r : ℕ) (cf of af : Option Bool) : (result w r cf of af).of = of := rfl

theorem overflow_iff {c : ℕ} {q : Bool} :
    (∀ p, (if c = 1 then some q else none) = some p → f.of = p) ↔
      (c = 1 → (if c = 1 then some q else none) = some f.of) := by
  by_cases h : c = 1
  · rw [if_pos h]
    constructor
    · intro hp _
      exact congrArg some (hp q rfl).symm
    · intro hq p hp
      exact Option.some.inj ((hq h).symm.trans hp)
  · rw [if_neg h]
    exact ⟨fun _ h1 => absurd h1 h, fun _ p hp => nomatch hp⟩

theorem eq_of_ite_some {c : Prop} [Decidable c] {p q : Bool}
    (h : (if c then some q else none) = some p) : q = p := by
  split at h
  · exact Option.some.inj h
  · cases h

theorem shl_right : Shift.shl.Right w a b n f ↔ Shift.shl.Meets w a b n f := by
  unfold Shift.Right Shift.Meets
  simp only [Shift.made, Shift.exec, Option.some.injEq, forall_eq', Alu.shl]
  obtain ⟨c, hc⟩ : ∃ c, c = n % w.counts := ⟨_, rfl⟩
  rw [← hc]
  by_cases h0 : c = 0
  · subst h0
    simp only [if_true, Option.some.injEq, exists_eq_left', agrees_refl, Nat.zero_le, and_true,
      zero_ne_one, false_implies]
  · simp only [if_neg h0]
    by_cases hw : w.bits < c
    · simp only [if_pos hw, reduceCtorEq, false_and, exists_false, Nat.not_le_of_lt hw, and_false]
    · simp only [if_neg hw, Option.some.injEq, exists_eq_left', agrees_shifted, true_and,
        Nat.le_of_not_lt hw, and_true, result_of]
      exact (and_iff_right fun _ => eq_of_ite_some).trans overflow_iff

theorem shr_right : Shift.shr.Right w a b n f ↔ Shift.shr.Meets w a b n f := by
  unfold Shift.Right Shift.Meets
  simp only [Shift.made, Shift.exec, Option.some.injEq, forall_eq', Alu.shr, exists_eq_left']
  obtain ⟨c, hc⟩ : ∃ c, c = n % w.counts := ⟨_, rfl⟩
  rw [← hc]
  by_cases h0 : c = 0
  · subst h0
    simp only [if_true, agrees_refl, zero_ne_one, false_implies, and_true]
  · simp only [if_neg h0, agrees_shifted, true_and, and_true, result_of]
    exact (and_iff_right fun _ => eq_of_ite_some).trans overflow_iff

theorem msb_testBit {a : ℕ} (ha : a < w.size) : msb w a = a.testBit (w.bits - 1) := by
  rw [msb_of_lt w ha, Nat.testBit_eq_decide_div_mod_eq]
  rfl

theorem sar_right (ha : a < w.size) : Shift.sar.Right w a b n f ↔ Shift.sar.Meets w a b n f := by
  unfold Shift.Right Shift.Meets
  simp only [Shift.made, Shift.exec, Option.some.injEq, forall_eq', Alu.sar, exists_eq_left']
  obtain ⟨c, hc⟩ : ∃ c, c = n % w.counts := ⟨_, rfl⟩
  rw [← hc]
  by_cases h0 : c = 0
  · subst h0
    simp only [if_true, agrees_refl, zero_ne_one, false_implies, Nat.not_lt_zero, and_true]
  · have hcf : (a.testBit (c - 1) = if c < w.bits then a.testBit (c - 1) else msb w a) ↔
        (w.bits < c → msb w a = false) := by
      rcases Nat.lt_trichotomy c w.bits with hlt | heq | hgt
      · simp only [if_pos hlt, Nat.not_lt_of_lt hlt, false_implies]
      · simp only [heq, lt_irrefl, if_false, false_implies, iff_true]
        exact (msb_testBit ha).symm
      · have hout : a.testBit (c - 1) = false :=
          Nat.testBit_lt_two_pow (lt_of_lt_of_le ha
            (Nat.pow_le_pow_right (by decide) (Nat.le_sub_one_of_lt hgt)))
        simp only [if_neg (Nat.not_lt_of_lt hgt), hgt, true_implies, hout, eq_comm]
    simp only [if_neg h0, agrees_shifted, true_and, result_of, Option.some.injEq, forall_eq', hcf]
    rw [and_comm, overflow_iff]

theorem agrees_carry {r r' : ℕ} {q p : Bool} {of : Option Bool} :
    Agrees { f.keep r with cf := some q } { f.keep r' with cf := some p, of := of } ↔
      r = r' ∧ q = p ∧ ∀ v, of = some v → f.of = v := by
  constructor
  · intro h
    exact ⟨h.res, Option.some.inj (h.cf p rfl), fun v hv => Option.some.inj (h.of v hv)⟩
  · rintro ⟨rfl, rfl, hof⟩
    exact ⟨rfl, fun _ h => h, fun _ h => h, fun _ h => h, fun _ h => h, fun _ h => h,
      fun v hv => congrArg some (hof v hv)⟩

theorem rotate_agrees (left : Bool) (ha : a < w.size) :
    Agrees (madeRotate w left a n f) (rotate w left a n f) ↔
      (n % w.counts = 1 → (rotate w left a n f).of = some f.of) ∧
      (n % w.counts ≠ 0 → n % w.counts % w.bits = 0 →
        f.cf = if left then a.testBit 0 else msb w a) := by
  have hdvd : w.bits ∣ w.counts := by cases w <;> decide
  have hbits : 1 < w.bits := by cases w <;> decide
  unfold madeRotate rotate
  rw [← Nat.mod_mod_of_dvd n hdvd]
  obtain ⟨c, hc⟩ : ∃ c, c = n % w.counts := ⟨_, rfl⟩
  rw [← hc]
  by_cases h0 : c = 0
  · subst h0
    simp only [Nat.zero_mod, if_true, agrees_refl, zero_ne_one, false_implies, ne_eq,
      not_true_eq_false, and_true]
  by_cases hk : c % w.bits = 0
  · have h1 : c ≠ 1 := by
      rintro rfl
      rw [Nat.mod_eq_of_lt hbits] at hk
      cases hk
    have hkeep : f.keep a = { f.keep a with cf := some f.cf } := rfl
    simp only [hk, if_true, if_neg h0, funnel_zero ha ha, if_neg h1]
    rw [hkeep, agrees_carry]
    simp only [true_and, reduceCtorEq, false_implies, implies_true, and_true, h1, ne_eq, h0,
      not_false_eq_true, true_implies]
  · have hlast : (if left then (funnel w.bits left a a (c % w.bits)).testBit 0
        else (funnel w.bits left a a (c % w.bits)).testBit (w.bits - 1)) =
        if left then (funnel w.bits left a a (c % w.bits)).testBit 0
        else msb w (funnel w.bits left a a (c % w.bits)) := by
      rw [msb_testBit (show _ < w.size from funnel_lt)]
    simp only [hk, if_false, if_neg h0]
    rw [agrees_carry, hlast, overflow_iff]
    simp only [true_and, false_implies, implies_true, and_true]

theorem testBit_withCarry (ha : a < w.size) (cf : Bool) :
    (withCarry w a cf).testBit w.bits = cf := by
  have hout : a.testBit w.bits = false := Nat.testBit_lt_two_pow ha
  rw [withCarry, Nat.testBit_or, hout, Bool.or_false, Nat.testBit_shiftLeft, Nat.sub_self]
  cases cf <;> simp

theorem withCarry_mod (ha : a < w.size) (cf : Bool) : withCarry w a cf % w.size = a := by
  show (cf.toNat <<< w.bits ||| a) % 2 ^ w.bits = a
  rw [Nat.or_mod_two_pow, Nat.shiftLeft_eq, Nat.mul_mod_left, Nat.zero_or]
  exact Nat.mod_eq_of_lt ha

theorem eq_of_carry {x y : ℕ} (hx : x < 2 ^ (w.bits + 1)) (hy : y < 2 ^ (w.bits + 1))
    (hmod : x % w.size = y % w.size) (hbit : x.testBit w.bits = y.testBit w.bits) : x = y := by
  apply Nat.eq_of_testBit_eq
  intro i
  rcases Nat.lt_trichotomy i w.bits with hlt | rfl | hgt
  · have h := congrArg (fun v => v.testBit i) hmod
    simp only [Width.size, Nat.testBit_mod_two_pow, hlt, decide_true, Bool.true_and] at h
    exact h
  · exact hbit
  · have hle : 2 ^ (w.bits + 1) ≤ 2 ^ i := Nat.pow_le_pow_right (by decide) hgt
    rw [Nat.testBit_lt_two_pow (lt_of_lt_of_le hx hle),
      Nat.testBit_lt_two_pow (lt_of_lt_of_le hy hle)]

theorem rotateCarry_agrees (left : Bool) (ha : a < w.size) (hw : w ≠ .b64) :
    Agrees (madeRotateCarry w left a n f) (rotateCarry w left a n f) ↔
      (n % w.counts = 1 → (rotateCarry w left a n f).of = some f.of) ∧
      ∀ i < w.bits + 1, (withCarry w a f.cf).testBit ((i + 32 * (n / 32)) % (w.bits + 1)) =
        (withCarry w a f.cf).testBit i := by
  have hcounts : w.counts = 32 := if_neg hw
  have hX : withCarry w a f.cf < 2 ^ (w.bits + 1) := withCarry_lt ha
  have hsame := rotate_eq_iff left (n % 32) (32 * (n / 32)) (Nat.succ_pos w.bits) hX
  rw [Nat.mod_add_div] at hsame
  rw [← hsame]
  -- both are rotations with a carry, whether the count is zero or not
  have hmade : madeRotateCarry w left a n f =
      { f.keep (funnel (w.bits + 1) left (withCarry w a f.cf) (withCarry w a f.cf)
          (n % (w.bits + 1)) % w.size) with
        cf := some ((funnel (w.bits + 1) left (withCarry w a f.cf) (withCarry w a f.cf)
          (n % (w.bits + 1))).testBit w.bits) } := by
    unfold madeRotateCarry
    dsimp only
    split
    · rename_i h0
      rw [h0, funnel_zero hX hX, testBit_withCarry ha, withCarry_mod ha]
      rfl
    · rfl
  unfold rotateCarry
  rw [hmade, hcounts]
  obtain ⟨c, hc⟩ : ∃ c, c = n % 32 := ⟨_, rfl⟩
  rw [← hc]
  generalize hF : funnel (w.bits + 1) left (withCarry w a f.cf) (withCarry w a f.cf)
    (n % (w.bits + 1)) = F
  have hFlt : F < 2 ^ (w.bits + 1) := hF ▸ funnel_lt
  by_cases h0 : c = 0
  · subst h0
    have hkeep : f.keep a = { f.keep a with cf := some f.cf, of := some f.of } := rfl
    rw [if_pos rfl, Nat.zero_mod, funnel_zero hX hX, hkeep, agrees_carry]
    constructor
    · rintro ⟨hmod, hbit, -⟩
      refine ⟨fun h => absurd h zero_ne_one, eq_of_carry hFlt hX ?_ ?_⟩
      · rw [hmod, withCarry_mod ha]
      · rw [hbit, testBit_withCarry ha]
    · rintro ⟨-, rfl⟩
      exact ⟨withCarry_mod ha _, testBit_withCarry ha _, fun v hv => Option.some.inj hv⟩
  · rw [if_neg h0, agrees_carry, overflow_iff]
    constructor
    · rintro ⟨hmod, hbit, hof⟩
      exact ⟨hof, eq_of_carry hFlt funnel_lt hmod hbit⟩
    · rintro ⟨hof, rfl⟩
      exact ⟨rfl, rfl, hof⟩

theorem funnel_bits {n : ℕ} {left : Bool} (ha : a < 2 ^ n) (hb : b < 2 ^ n) :
    funnel n left a b n = b := by
  unfold funnel
  cases left with
  | true =>
      rw [if_pos rfl, Nat.sub_self, Nat.shiftRight_zero, Nat.or_mod_two_pow, Nat.shiftLeft_eq,
        Nat.mul_mod_left, Nat.zero_or, Nat.mod_eq_of_lt hb]
  | false =>
      rw [if_neg Bool.false_ne_true, Nat.sub_self, Nat.shiftLeft_zero, Nat.shiftRight_eq_div_pow,
        Nat.div_eq_of_lt ha, Nat.zero_or, Nat.mod_eq_of_lt hb]

theorem agrees_keep {r : ℕ} {cf : Bool} :
    Agrees (f.keep a) (result w r (some cf) none none) ↔
      a = r ∧ f.cf = cf ∧ f.zf = decide (r = 0) ∧ f.sf = msb w r ∧ f.pf = parity r := by
  constructor
  · intro h
    exact ⟨h.res, Option.some.inj (h.cf _ rfl), Option.some.inj (h.zf _ rfl),
      Option.some.inj (h.sf _ rfl), Option.some.inj (h.pf _ rfl)⟩
  · rintro ⟨hr, hcf, hzf, hsf, hpf⟩
    refine ⟨hr, fun p hp => ?_, fun p hp => ?_, nofun, fun p hp => ?_, fun p hp => ?_, nofun⟩
    · exact (congrArg some hcf).trans hp
    · exact (congrArg some hpf).trans hp
    · exact (congrArg some hzf).trans hp
    · exact (congrArg some hsf).trans hp

theorem double_agrees (left : Bool) (ha : a < w.size) (hb : b < w.size) :
    (∀ r, double w left a b n f = some r → Agrees (madeDouble w left a b n f) r) ↔
      (n % w.counts = 1 → ∀ r, double w left a b n f = some r → r.of = some f.of) ∧
      (n % w.counts ≠ 0 → n % w.counts ≤ w.bits →
        (f.cf = if left then a.testBit (w.bits - n % w.counts)
          else a.testBit (n % w.counts - 1)) ∧
        (n % w.counts = w.bits →
          a = b ∧ f.zf = decide (a = 0) ∧ f.sf = msb w a ∧ f.pf = parity a)) := by
  have hdvd : w.bits ∣ w.counts := by cases w <;> decide
  have hbits : 1 < w.bits := by cases w <;> decide
  unfold madeDouble double
  rw [← Nat.mod_mod_of_dvd n hdvd]
  obtain ⟨c, hc⟩ : ∃ c, c = n % w.counts := ⟨_, rfl⟩
  rw [← hc]
  by_cases h0 : c = 0
  · subst h0
    simp only [Nat.zero_mod, if_true, Option.some.injEq, forall_eq', agrees_refl, zero_ne_one,
      false_implies, ne_eq, not_true_eq_false, and_true]
  rw [if_neg h0]
  rcases Nat.lt_trichotomy c w.bits with hlt | heq | hgt
  · have hk : c % w.bits = c := Nat.mod_eq_of_lt hlt
    simp only [hk, if_false, if_neg (Nat.not_lt_of_lt hlt), Option.some.injEq, forall_eq',
      agrees_shifted, true_and, result_of, Nat.ne_of_lt hlt, false_implies, and_true,
      Nat.le_of_lt hlt, true_implies, ne_eq, h0, not_false_eq_true]
    rw [and_comm, overflow_iff]
  · have h1 : w.bits ≠ 1 := Nat.ne_of_gt hbits
    subst heq
    simp only [Nat.mod_self, if_true, lt_irrefl, if_false, Option.some.injEq, forall_eq',
      funnel_bits ha hb, agrees_keep, h1, false_implies, true_and, ne_eq, h0,
      not_false_eq_true, le_refl, true_implies]
    constructor
    · rintro ⟨rfl, hcf, hrest⟩
      exact ⟨hcf, rfl, hrest⟩
    · rintro ⟨hcf, rfl, hrest⟩
      exact ⟨rfl, hcf, hrest⟩
  · simp only [if_pos hgt, reduceCtorEq, false_implies, implies_true, Nat.not_le_of_lt hgt,
      and_true]

theorem Shift.right_iff_meets (ha : a < w.size) (hb : b < w.size) {op : Shift}
    (hcarry : op = .rcl ∨ op = .rcr → w ≠ .b64) : op.Right w a b n f ↔ op.Meets w a b n f := by
  cases op with
  | shl => exact shl_right
  | shr => exact shr_right
  | sar => exact sar_right ha
  | rol =>
      have h := rotate_agrees (n := n) (f := f) true ha
      simpa only [Shift.Right, Shift.Meets, Shift.made, Shift.exec, Option.some.injEq, forall_eq',
        exists_eq_left', if_true] using h
  | ror =>
      have h := rotate_agrees (n := n) (f := f) false ha
      simpa only [Shift.Right, Shift.Meets, Shift.made, Shift.exec, Option.some.injEq, forall_eq',
        exists_eq_left', if_false, Bool.false_eq_true] using h
  | rcl =>
      have h := rotateCarry_agrees (n := n) (f := f) true ha (hcarry (.inl rfl))
      simpa only [Shift.Right, Shift.Meets, Shift.made, Shift.exec, Option.some.injEq, forall_eq',
        exists_eq_left'] using h
  | rcr =>
      have h := rotateCarry_agrees (n := n) (f := f) false ha (hcarry (.inr rfl))
      simpa only [Shift.Right, Shift.Meets, Shift.made, Shift.exec, Option.some.injEq, forall_eq',
        exists_eq_left'] using h
  | shld =>
      have h := double_agrees (n := n) (f := f) true ha hb
      simpa only [Shift.Right, Shift.Meets, Shift.made, Shift.exec, Option.some.injEq,
        exists_eq_left', if_true] using h
  | shrd =>
      have h := double_agrees (n := n) (f := f) false ha hb
      simpa only [Shift.Right, Shift.Meets, Shift.made, Shift.exec, Option.some.injEq,
        exists_eq_left', if_false, Bool.false_eq_true] using h

end

def ShiftInsn.Exact (i : ShiftInsn) (cfg : Config) (s : State) (f : Flags) : Prop :=
  ∃ s', run (i.insn.lift cfg) s = .ok s' ∧
    ∀ r, i.op.exec i.dst.width (s.operand cfg i.dst) (s.operand cfg (.reg i.src))
      (s.operand cfg i.count) f = some r → s'.Leaves cfg i.dst r

/-- The statements are exact where the condition is met, and nowhere else. -/
theorem liftShift_exact_iff (i : ShiftInsn) (cfg : Config) (s : State) (f : Flags)
    (hf : s.Has f) :
    i.Exact cfg s f ↔ i.op.Meets i.dst.width (s.operand cfg i.dst) (s.operand cfg (.reg i.src))
      (s.operand cfg i.count) f := by
  obtain ⟨x, y, n, h⟩ := i.words cfg s
  have hdst : s.operand cfg i.dst = x.toNat := operand_of_value (h.dst s (.refl s))
  have hsrc : s.operand cfg (.reg i.src) = y.toNat := operand_of_value (h.src s (.refl s))
  have hcount : s.operand cfg i.count = n := by
    rw [operand_of_value (h.count s (.refl s)), BitVec.toNat_ofNat]
    have hlt := h.count_lt
    exact Nat.mod_eq_of_lt (by omega)
  have hcarry : i.op = .rcl ∨ i.op = .rcr → i.dst.width ≠ .b64 := by
    have haccepted := i.accepted
    rintro (hop | hop) <;> rw [hop] at haccepted <;> exact haccepted.1
  obtain ⟨hends, hstops⟩ := i.run_lift h hf
  rw [ShiftInsn.Exact, hdst, hsrc, hcount, ← Shift.right_iff_meets h.dst_lt h.src_lt hcarry]
  constructor
  · rintro ⟨s', hrun, hleaves⟩
    cases hmade : i.op.made i.dst.width x.toNat y.toNat n f with
    | none => exact nomatch (hstops hmade).symm.trans hrun
    | some m =>
        obtain ⟨s₁, hrun₁, hm⟩ := hends m hmade
        have hsame : s₁ = s' := Except.ok.inj (hrun₁.symm.trans hrun)
        subst hsame
        exact ⟨m, hmade, fun r hr => (leaves_iff_agrees hm (total_made hmade)).mp (hleaves r hr)⟩
  · rintro ⟨m, hmade, hagrees⟩
    obtain ⟨s₁, hrun, hm⟩ := hends m hmade
    exact ⟨s₁, hrun, fun r hr => (leaves_iff_agrees hm (total_made hmade)).mpr (hagrees r hr)⟩

/-- `op eax, v`, for a shift that takes every width. -/
def shiftEax (op : Shift) (v : ℕ) (hv : v < 256) (haccepted : op.Accepts .b32 (.imm v))
    (hops : op.operands (.reg (.gpr 0 .b32)) (.reg (.gpr 0 .b32)) (.imm v) =
      [.reg (.gpr 0 .b32), .imm v]) : ShiftInsn where
  insn := ⟨op.mnemonic, [.reg (.gpr 0 .b32), .imm v], 0x401000, "eax, imm8", [], []⟩
  op := op
  dst := .reg (.gpr 0 .b32)
  src := .gpr 0 .b32
  count := .imm v
  place := trivial
  source := rfl
  counted := .inr ⟨v, hv, rfl⟩
  accepted := haccepted
  mnemonic := rfl
  ops := hops.symm

def noFlags : Flags := ⟨false, false, false, false, false, false⟩

/-- A state with the largest power of two that is not negative in `eax`, and no flags. -/
def bigEax : State := ⟨fun l => if l = .reg 0 then 0x40000000 else 0, fun _ => 0⟩

theorem bigEax_has : bigEax.Has noFlags := by
  intro k p hk
  cases k <;> cases hk <;> rfl

theorem liftShift_exact_shrFour :
    (shiftEax .shr 4 (by decide) trivial rfl).Exact ⟨64, false⟩ bigEax noFlags :=
  (liftShift_exact_iff (shiftEax .shr 4 (by decide) trivial rfl) ⟨64, false⟩ bigEax noFlags
    bigEax_has).mpr ⟨fun h => absurd h (by decide), trivial⟩

/-- A shift left by one changes the sign, and leaves the overflow flag clear. -/
theorem not_exact_shlOne :
    ¬ (shiftEax .shl 1 (by decide) trivial rfl).Exact ⟨64, false⟩ bigEax noFlags := by
  rintro ⟨s', hrun, hleaves⟩
  have hspec : s'.loc (.flag .of) = ofBool true := (hleaves _ rfl).2 .of true (by decide +kernel)
  have hmade : ((run ((shiftEax .shl 1 (by decide) trivial rfl).insn.lift ⟨64, false⟩) bigEax).map
      fun s => s.loc (.flag .of)) = .ok 0 := by decide +kernel
  rw [hrun] at hmade
  have hzero : s'.loc (.flag .of) = 0 := Except.ok.inj hmade
  exact absurd (hspec.symm.trans hzero) (by decide)

end Aret.Lift
