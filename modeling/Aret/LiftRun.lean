/-
Values of lifted expressions, and runs of lifted statements.
-/
import Aret.Lift

namespace Aret.Lift

open Alu

/-! ### Words -/

@[simp] theorem ofBool_toNat (b : Bool) : (ofBool b).toNat = b.toNat := by
  cases b <;> rfl

theorem ofBool_inj {p q : Bool} : ofBool p = ofBool q ↔ p = q := by
  cases p <;> cases q <;> decide

theorem ofBool_and (p q : Bool) : ofBool p &&& ofBool q = ofBool (p && q) := by
  cases p <;> cases q <;> decide

theorem ofBool_or (p q : Bool) : ofBool p ||| ofBool q = ofBool (p || q) := by
  cases p <;> cases q <;> decide

theorem ofInt_nat (n : ℕ) : BitVec.ofInt 64 (n : ℤ) = BitVec.ofNat 64 n := BitVec.ofInt_natCast ..

theorem toNat_mask (w : Width) : (BitVec.ofInt 64 (mask w.bits)).toNat = w.size - 1 := by
  cases w <;> decide

theorem toNat_and_mask (w : Width) (x : Word) :
    (x &&& BitVec.ofInt 64 (mask w.bits)).toNat = x.toNat % w.size := by
  rw [BitVec.toNat_and, toNat_mask]
  exact Nat.and_two_pow_sub_one_eq_mod x.toNat w.bits

theorem and_mask (w : Width) (x : Word) :
    x &&& BitVec.ofInt 64 (mask w.bits) = BitVec.ofNat 64 (x.toNat % w.size) := by
  apply BitVec.eq_of_toNat_eq
  have hlt : x.toNat % w.size < 2 ^ 64 := lt_of_lt_of_le (Nat.mod_lt _ w.size_pos) w.size_le
  rw [toNat_and_mask, BitVec.toNat_ofNat, Nat.mod_eq_of_lt hlt]

theorem shiftRight_and_one (x : Word) (k : ℕ) :
    x >>> k &&& 1#64 = ofBool (x.toNat / 2 ^ k % 2 = 1) := by
  apply BitVec.eq_of_toNat_eq
  rw [BitVec.toNat_and, BitVec.toNat_ushiftRight, Nat.shiftRight_eq_div_pow, ofBool_toNat]
  show x.toNat / 2 ^ k &&& 1 = _
  rw [Nat.and_one_is_mod]
  rcases Nat.mod_two_eq_zero_or_one (x.toNat / 2 ^ k) with h | h <;> rw [h] <;> rfl

theorem and_one (x : Word) : x &&& 1#64 = ofBool (x.toNat % 2 = 1) := by
  have h := shiftRight_and_one x 0
  rw [BitVec.ushiftRight_zero, pow_zero, Nat.div_one] at h
  exact h

theorem maskW_of_lt {k : ℕ} {v : Word} (h : v.toNat < 2 ^ k) : maskW k v = v := by
  unfold maskW
  split
  · rename_i hk
    apply BitVec.eq_of_toNat_eq
    have hpow : 2 ^ k - 1 < 2 ^ 64 :=
      lt_of_lt_of_le (Nat.sub_lt (Nat.two_pow_pos k) Nat.one_pos)
        (Nat.pow_le_pow_right (by decide) hk.2.le)
    rw [BitVec.toNat_and, BitVec.toNat_ofNat, Nat.mod_eq_of_lt hpow,
      Nat.and_two_pow_sub_one_eq_mod, Nat.mod_eq_of_lt h]
  · rfl

@[simp] theorem maskW_zero (k : ℕ) : maskW k 0 = 0 := maskW_of_lt (Nat.two_pow_pos k)

@[simp] theorem maskW_64 (v : Word) : maskW 64 v = v := if_neg (by decide)

/-! ### Expressions -/

section
variable {s : State} {a b e r : Expr} {x y z : Word}

theorem value_bin {op : BinOp} (ha : value s a = .ok x) (hb : value s b = .ok y) :
    value s (bin op a b) = binary op a b x y := by
  simp only [bin, value, ha, hb]
  rfl

@[simp] theorem value_konst (v : ℤ) : value s (konst v) = .ok (BitVec.ofInt 64 v) := rfl

theorem value_konst_nat (n : ℕ) : value s (konst n) = .ok (BitVec.ofNat 64 n) := by
  rw [value_konst, ofInt_nat]

@[simp] theorem value_readFlag (k : FlagKind) : value s (readFlag k) = .ok (s.loc (.flag k)) := rfl

@[simp] theorem value_read (l : Location) : value s (.read l) = .ok (s.loc l) := rfl

theorem value_select {c t : Expr} {p : Bool} (hc : value s c = .ok (ofBool p)) :
    value s (.select c t e) = if p then value s t else value s e := by
  simp only [value, hc]
  cases p <;> rfl

theorem value_pf (h : value s r = .ok x) :
    value s (fcall "__ix_pf" [r]) = .ok (ofBool (parity (x.toNat % 256))) := by
  simp only [fcall, value, values, h]
  rfl

theorem value_shr {k : ℕ} (hk : k < 64) (h : value s e = .ok x) :
    value s (bin .shr e (konst k)) = .ok (x >>> k) := by
  rw [value_bin h (value_konst_nat k)]
  have hnat : (BitVec.ofNat 64 k).toNat = k := by
    rw [BitVec.toNat_ofNat, Nat.mod_eq_of_lt (by omega)]
  show (if _ then _ else _) = _
  rw [hnat, if_pos hk]

theorem value_bit {k : ℕ} (hk : k < 64) (h : value s e = .ok x) :
    value s (bin .and (bin .shr e (konst k)) (konst 1)) =
      .ok (ofBool (x.toNat / 2 ^ k % 2 = 1)) := by
  rw [value_bin (value_shr hk h) (value_konst 1)]
  exact congrArg Except.ok (shiftRight_and_one x k)

theorem value_signBit (w : Width) (h : value s e = .ok x) :
    value s (signBit e w.bits) = .ok (ofBool (x.toNat / w.half % 2 = 1)) :=
  value_bit (by have := w.bits_le; have := w.bits_pos; omega) h

theorem value_mask (w : Width) (h : value s e = .ok x) :
    value s (bin .and e (konst (mask w.bits))) = .ok (BitVec.ofNat 64 (x.toNat % w.size)) := by
  rw [value_bin h (value_konst _), ← and_mask]
  rfl

theorem value_reduced (w : Width) (h : value s e = .ok x) :
    value s (reduced e w.bits) = .ok (BitVec.ofNat 64 (x.toNat % w.size)) := by
  unfold reduced
  split
  · rename_i hw
    have h64 : w = .b64 := by cases w <;> first | rfl | exact absurd hw (by decide)
    rw [h, h64]
    refine congrArg Except.ok (BitVec.eq_of_toNat_eq ?_)
    have hlt : x.toNat < Width.b64.size := x.isLt
    rw [BitVec.toNat_ofNat, Nat.mod_eq_of_lt hlt, Nat.mod_eq_of_lt x.isLt]
  · exact value_mask w h

theorem value_and (ha : value s a = .ok x) (hb : value s b = .ok y) :
    value s (bin .and a b) = .ok (x &&& y) := value_bin ha hb

theorem value_and_bool {p q : Bool} (ha : value s a = .ok (ofBool p))
    (hb : value s b = .ok (ofBool q)) : value s (bin .and a b) = .ok (ofBool (p && q)) := by
  rw [value_and ha hb, ofBool_and]

theorem value_or_bool {p q : Bool} (ha : value s a = .ok (ofBool p))
    (hb : value s b = .ok (ofBool q)) : value s (bin .or a b) = .ok (ofBool (p || q)) := by
  rw [value_bin ha hb]
  exact congrArg Except.ok (ofBool_or p q)

def Fits (e : Expr) (x : Word) : Prop := ∀ k, signedWidth e = some k → x.toNat < 2 ^ k

theorem fits_of_none (h : signedWidth e = none) : Fits e x := by
  intro k hk
  rw [h] at hk
  cases hk

theorem fits_and (hb : value s b = .ok y) : Fits (bin .and a b) (x &&& y) := by
  intro k hk
  have hle : (x &&& y).toNat ≤ y.toNat := by
    rw [BitVec.toNat_and]
    exact Nat.and_le_right
  cases b with
  | const m ty =>
      have hy : y = BitVec.ofInt 64 m := (Except.ok.inj hb).symm
      have hm : m = 0xff ∧ k = 8 ∨ m = 0xffff ∧ k = 16 ∨ m = 0xffffffff ∧ k = 32 := by
        simp only [bin, signedWidth] at hk
        grind
      rcases hm with ⟨rfl, rfl⟩ | ⟨rfl, rfl⟩ | ⟨rfl, rfl⟩ <;> subst hy <;>
        exact lt_of_le_of_lt hle (by decide)
  | _ => cases hk

theorem value_eq (ha : value s a = .ok x) (hb : value s b = .ok y) (hx : signedWidth a = none)
    (hy : signedWidth b = none) : value s (bin .eq a b) = .ok (ofBool (x = y)) := by
  rw [value_bin ha hb]
  simp only [binary, hx, hy, Option.or_none, Option.getD_none, maskW_64]

theorem value_ne (ha : value s a = .ok x) (hb : value s b = .ok y) (hx : signedWidth a = none)
    (hy : signedWidth b = none) : value s (bin .ne a b) = .ok (ofBool (x ≠ y)) := by
  rw [value_bin ha hb]
  simp only [binary, hx, hy, Option.or_none, Option.getD_none, maskW_64]

theorem value_eqZero (h : value s e = .ok x) (hf : Fits e x) :
    value s (bin .eq e (konst 0)) = .ok (ofBool (x = 0)) := by
  rw [value_bin h (value_konst 0)]
  have hzero : BitVec.ofInt 64 0 = (0 : Word) := rfl
  have hnone : signedWidth (konst 0) = none := rfl
  simp only [binary, hnone, Option.or_none, hzero, maskW_zero]
  cases hw : signedWidth e with
  | none => rw [Option.getD_none, maskW_64]
  | some k => rw [Option.getD_some, maskW_of_lt (hf k hw)]

theorem value_ne_bits {p q : Bool} {w : ℕ} (ha : value s (signBit a w) = .ok (ofBool p))
    (hb : value s (signBit b w) = .ok (ofBool q)) :
    value s (bin .ne (signBit a w) (signBit b w)) = .ok (ofBool (p != q)) := by
  rw [value_ne ha hb rfl rfl]
  cases p <;> cases q <;> decide

theorem value_eq_bits {p q : Bool} {w : ℕ} (ha : value s (signBit a w) = .ok (ofBool p))
    (hb : value s (signBit b w) = .ok (ofBool q)) :
    value s (bin .eq (signBit a w) (signBit b w)) = .ok (ofBool (p == q)) := by
  rw [value_eq ha hb rfl rfl]
  cases p <;> cases q <;> decide

theorem value_lnot {p : Bool} (h : value s e = .ok (ofBool p)) (hf : signedWidth e = none) :
    value s (lnot e) = .ok (ofBool (!p)) := by
  rw [lnot, value_eqZero h (fits_of_none hf)]
  cases p <;> decide

theorem value_ult (ha : value s a = .ok x) (hb : value s b = .ok y) :
    value s (bin .ult a b) = .ok (ofBool (x.toNat < y.toNat)) := by
  rw [value_bin ha hb]
  simp only [binary, BitVec.lt_def]

theorem value_af (ha : value s a = .ok x) (hb : value s b = .ok y) (hr : value s r = .ok z) :
    value s (bin .and (bin .shr (bin .xor (bin .xor a b) r) (konst 4)) (konst 1)) =
      .ok (ofBool ((x ^^^ y ^^^ z).toNat / 2 ^ 4 % 2 = 1)) := by
  have hxor : value s (bin .xor (bin .xor a b) r) = .ok (x ^^^ y ^^^ z) := by
    rw [value_bin (value_bin ha hb) hr]
    rfl
  exact value_bit (by decide) hxor

end

/-! ### Operands -/

/-- Two states with the same registers, frame slots and memory. -/
structure Same (s s' : State) : Prop where
  mem : s'.mem = s.mem
  reg : ∀ r, s'.loc (.reg r) = s.loc (.reg r)
  frame : ∀ d, s'.loc (.frame d) = s.loc (.frame d)

theorem Same.refl (s : State) : Same s s := ⟨rfl, fun _ => rfl, fun _ => rfl⟩

theorem Same.trans {s₁ s₂ s₃ : State} (h : Same s₁ s₂) (h' : Same s₂ s₃) : Same s₁ s₃ :=
  ⟨h'.mem.trans h.mem, fun r => (h'.reg r).trans (h.reg r),
    fun d => (h'.frame d).trans (h.frame d)⟩

def SameRegs (s s' : State) : Prop := ∀ r, s'.loc (.reg r) = s.loc (.reg r)

def State.regVal (s : State) : Register → ℕ
  | .high f => (s.loc (.reg f)).toNat / 2 ^ 8 % 2 ^ 8
  | .gpr f w => (s.loc (.reg f)).toNat % w.size

theorem value_readReg (s : State) (r : Register) :
    value s (readReg r) = .ok (BitVec.ofNat 64 (s.regVal r)) := by
  cases r with
  | high f =>
      have h8 : value s (bin .shr (.read (.reg f)) (konst 8)) = .ok (s.loc (.reg f) >>> 8) :=
        value_shr (k := 8) (by decide) (value_read (.reg f))
      have h := value_mask .b8 h8
      rw [BitVec.toNat_ushiftRight, Nat.shiftRight_eq_div_pow] at h
      exact h
  | gpr f w =>
      have h := value_reduced (s := s) w (value_read (.reg f))
      cases w <;> exact h

theorem regVal_lt (s : State) (r : Register) : s.regVal r < r.width.size := by
  cases r with
  | high f => exact Nat.mod_lt _ (by decide)
  | gpr f w => exact Nat.mod_lt _ w.size_pos

theorem regVal_congr {s s' : State} (h : SameRegs s s') (r : Register) :
    s'.regVal r = s.regVal r := by
  cases r <;> simp only [State.regVal, h _]

theorem fits_readReg (s : State) (r : Register) :
    Fits (readReg r) (BitVec.ofNat 64 (s.regVal r)) := by
  intro k hk
  have hw : k = r.width.bits := by
    cases r with
    | high f => exact (Option.some.inj hk).symm
    | gpr f w =>
        cases w with
        | b64 => cases hk
        | _ => exact (Option.some.inj hk).symm
  rw [hw, BitVec.toNat_ofNat]
  exact lt_of_le_of_lt (Nat.mod_le _ _) (regVal_lt s r)

theorem addr_fixed (m : Memory) (s : State) :
    ∃ p, ∀ s', SameRegs s s' → value s' m.addr = .ok p := by
  have hreg : ∀ r, ∃ p, ∀ s', SameRegs s s' → value s' (readReg r) = .ok p := fun r =>
    ⟨_, fun s' h => by rw [value_readReg, regVal_congr h]⟩
  have hop : ∀ (op : BinOp) (a b : Expr), (∀ x y, ∃ z, binary op a b x y = .ok z) →
      (∃ p, ∀ s', SameRegs s s' → value s' a = .ok p) →
      (∃ p, ∀ s', SameRegs s s' → value s' b = .ok p) →
      ∃ p, ∀ s', SameRegs s s' → value s' (bin op a b) = .ok p := by
    intro op a b hz ⟨x, hx⟩ ⟨y, hy⟩
    obtain ⟨z, hz⟩ := hz x y
    exact ⟨z, fun s' h => (value_bin (hx s' h) (hy s' h)).trans hz⟩
  have hk : ∀ v : ℤ, ∃ p, ∀ s', SameRegs s s' → value s' (konst v) = .ok p := fun v =>
    ⟨_, fun s' _ => value_konst v⟩
  have hscaled : ∀ i, ∃ p, ∀ s', SameRegs s s' →
      value s' (if m.scale = 1 then readReg i else bin .mul (readReg i) (konst m.scale)) =
        .ok p := by
    intro i
    split
    · exact hreg i
    · exact hop _ _ _ (fun x y => ⟨_, rfl⟩) (hreg i) (hk _)
  have hdisp : ∀ e : Expr, (∃ p, ∀ s', SameRegs s s' → value s' e = .ok p) →
      ∃ p, ∀ s', SameRegs s s' →
        value s' (if m.disp ≠ 0 then bin .add e (konst m.disp) else e) = .ok p := by
    intro e he
    split
    · exact hop _ _ _ (fun x y => ⟨_, rfl⟩) he (hk _)
    · exact he
  unfold Memory.addr
  cases m.ripAddress with
  | some a => exact hk a
  | none =>
      dsimp only
      cases m.base with
      | none =>
          cases m.index with
          | none => exact hk m.disp
          | some i => exact hdisp _ (hscaled i)
      | some b =>
          cases m.index with
          | none => exact hdisp _ (hreg b)
          | some i => exact hdisp _ (hop _ _ _ (fun x y => ⟨_, rfl⟩) (hreg b) (hscaled i))

theorem readBytes_lt (mem : Word → BitVec 8) (a : Word) (n : ℕ) :
    readBytes mem a n < 2 ^ (8 * n) := by
  induction n generalizing a with
  | zero => exact Nat.one_pos
  | succ n ih =>
      have hbyte := (mem a).isLt
      have hrest := ih (a + 1)
      have hpow : 2 ^ (8 * (n + 1)) = 256 * 2 ^ (8 * n) := by
        rw [Nat.mul_succ, pow_add]
        ring
      rw [hpow]
      unfold readBytes
      omega

theorem ctypeBytes_width (w : Width) : 8 * ctypeBytes (intBits (.ofBits w.bits)) = w.bits := by
  cases w <;> rfl

def Operand.isPlace : Operand → Prop
  | .imm _ => False
  | _ => True

def Operand.width : Operand → Width
  | .reg r => r.width
  | .mem m => m.width
  | .imm _ => .b64

theorem opValue_fixed (cfg : Config) (o : Operand) (s : State) :
    ∃ x, (∀ s', Same s s' → value s' (opValue cfg o) = .ok x) ∧
      (o.isPlace → x.toNat < o.width.size) ∧ Fits (opValue cfg o) x := by
  cases o with
  | reg r =>
      refine ⟨BitVec.ofNat 64 (s.regVal r), fun s' h => ?_, fun _ => ?_, ?_⟩
      · show value s' (readReg r) = _
        rw [value_readReg, regVal_congr h.reg]
      · have hlt := regVal_lt s r
        rw [BitVec.toNat_ofNat, Nat.mod_eq_of_lt (lt_of_lt_of_le hlt r.width.size_le)]
        exact hlt
      · exact fits_readReg s r
  | imm v =>
      refine ⟨v, fun s' _ => ?_, nofun, fits_of_none rfl⟩
      show value s' (konst v.toNat) = _
      rw [value_konst_nat, BitVec.ofNat_toNat, BitVec.setWidth_eq]
  | mem m =>
      unfold opValue
      dsimp only
      cases hd : m.frameDisp cfg with
      | some d =>
          dsimp only
          split
          · rename_i hw
            refine ⟨s.loc (.frame d), fun s' h => congrArg Except.ok (h.frame d), fun _ => ?_,
              fits_of_none rfl⟩
            show _ < m.width.size
            rw [hw]
            exact (s.loc (.frame d)).isLt
          · have hx : ∀ s', Same s s' →
                value s' (bin .and (.read (.frame d)) (konst (mask m.width.bits))) =
                  .ok (s.loc (.frame d) &&& BitVec.ofInt 64 (mask m.width.bits)) := by
              intro s' h
              rw [value_and (value_read _) (value_konst _), h.frame]
            refine ⟨_, hx, fun _ => ?_, fits_and (value_konst (s := s) _)⟩
            rw [toNat_and_mask]
            exact Nat.mod_lt _ m.width.size_pos
      | none =>
          obtain ⟨p, hp⟩ := addr_fixed m s
          have hlt := readBytes_lt s.mem p (ctypeBytes (intBits (.ofBits m.width.bits)))
          rw [ctypeBytes_width] at hlt
          have hnat : (BitVec.ofNat 64 (readBytes s.mem p
              (ctypeBytes (intBits (.ofBits m.width.bits))))).toNat < 2 ^ m.width.bits := by
            rw [BitVec.toNat_ofNat]
            exact lt_of_le_of_lt (Nat.mod_le _ _) hlt
          refine ⟨_, fun s' h => ?_, fun _ => hnat, fun k hk => ?_⟩
          · simp only [value, hp s' h.reg, h.mem]
            rfl
          · have hwk : k = m.width.bits := by
              have hk' : (if intBits (.ofBits m.width.bits) < 64
                  then some (intBits (.ofBits m.width.bits)) else none) = some k := hk
              split at hk'
              · exact (Option.some.inj hk').symm
              · cases hk'
            exact hwk ▸ hnat

/-! ### Flags -/

/-- States that differ in flags only. -/
structure OffFlags (s s' : State) : Prop where
  mem : s'.mem = s.mem
  loc : ∀ l, (∀ k, l ≠ .flag k) → s'.loc l = s.loc l

theorem OffFlags.refl (s : State) : OffFlags s s := ⟨rfl, fun _ _ => rfl⟩

theorem OffFlags.same {s s' : State} (h : OffFlags s s') : Same s s' :=
  ⟨h.mem, fun _ => h.loc _ nofun, fun _ => h.loc _ nofun⟩

theorem set_loc_of_ne {s : State} {l l' : Location} {v : Word} (h : l' ≠ l) :
    (s.set l v).loc l' = s.loc l' := Function.update_of_ne h ..

@[simp] theorem set_loc_self {s : State} {l : Location} {v : Word} : (s.set l v).loc l = v :=
  Function.update_self ..

@[simp] theorem run_set {s : State} {l : Location} {e : Expr} {v : Word} {rest : List Stmt}
    (h : value s e = .ok v) : run (.set l e :: rest) s = run rest (s.set l v) := by
  simp only [run, h]
  rfl

theorem run_append (L L' : List Stmt) (s : State) :
    run (L ++ L') s = (run L s).bind (run L') := by
  induction L generalizing s with
  | nil => rfl
  | cons st L ih =>
      cases st with
      | set l e =>
          simp only [List.cons_append, run]
          cases value s e with
          | error _ => rfl
          | ok v => exact ih _
      | store a e ty =>
          simp only [List.cons_append, run]
          cases value s a with
          | error _ => rfl
          | ok p =>
              cases value s e with
              | error _ => rfl
              | ok v => exact ih _
      | callStmt e =>
          simp only [List.cons_append, run]
          cases value s e with
          | error _ => rfl
          | ok v => exact ih _
      | nop => exact ih s
      | _ => rfl

theorem run_append_ok {L L' : List Stmt} {s s' : State} (h : run L s = .ok s') :
    run (L ++ L') s = run L' s' := by
  rw [run_append, h]
  rfl

/-- The flags `ks` are set one after another. The value of each may depend on the flag itself and
on the flags that are not set. -/
theorem run_flags {s : State} (v : FlagKind → Word) {ks : List FlagKind}
    {L : List (FlagKind × Expr)} (hd : (L.map Prod.fst).Nodup) (hks : ∀ p ∈ L, p.1 ∈ ks)
    (hL : ∀ p ∈ L, ∀ s', OffFlags s s' →
      (∀ k, k = p.1 ∨ k ∉ ks → s'.loc (.flag k) = s.loc (.flag k)) → value s' p.2 = .ok (v p.1)) :
    ∃ s', run (L.map fun p => setFlag p.1 p.2) s = .ok s' ∧ OffFlags s s' ∧
      ∀ k, s'.loc (.flag k) = if k ∈ L.map Prod.fst then v k else s.loc (.flag k) := by
  induction L generalizing s with
  | nil => exact ⟨s, rfl, .refl s, fun _ => (if_neg List.not_mem_nil).symm⟩
  | cons p L ih =>
      obtain ⟨hp, hd⟩ := List.nodup_cons.mp hd
      obtain ⟨hpk, hks⟩ := List.forall_mem_cons.mp hks
      have hval := hL p List.mem_cons_self s (.refl s) fun _ _ => rfl
      have hother : ∀ k, k ≠ p.1 →
          (s.set (.flag p.1) (v p.1)).loc (.flag k) = s.loc (.flag k) :=
        fun k hk => set_loc_of_ne fun h => hk (Location.flag.inj h)
      have hoff : ∀ s', OffFlags (s.set (.flag p.1) (v p.1)) s' → OffFlags s s' :=
        fun s' h => ⟨h.mem, fun l hl => (h.loc l hl).trans (set_loc_of_ne (hl p.1))⟩
      obtain ⟨s', hrun, h, hflag⟩ := ih (s := s.set (.flag p.1) (v p.1)) hd hks
        fun q hq s' h hk => by
          refine hL q (List.mem_cons_of_mem p hq) s' (hoff s' h) fun k hkq => ?_
          refine (hk k hkq).trans (hother k ?_)
          rintro rfl
          rcases hkq with heq | hno
          · exact hp (heq ▸ List.mem_map_of_mem hq)
          · exact hno hpk
      refine ⟨s', (run_set hval).trans hrun, hoff s' h, fun k => (hflag k).trans ?_⟩
      by_cases hk : k = p.1
      · simp only [hk, if_neg hp, set_loc_self, List.map_cons, List.mem_cons_self, if_true]
      · simp only [hother k hk, List.map_cons, List.mem_cons, or_iff_right hk]

/-! ### Writes -/

theorem readBytes_update {mem : Word → BitVec 8} {b : Word} {v : BitVec 8} (n : ℕ) (a : Word)
    (h : ∀ j < n, a + BitVec.ofNat 64 j ≠ b) :
    readBytes (Function.update mem b v) a n = readBytes mem a n := by
  induction n generalizing a with
  | zero => rfl
  | succ n ih =>
      have h0 : a ≠ b := by
        have := h 0 (Nat.succ_pos n)
        rwa [BitVec.add_zero] at this
      have hrest : ∀ j < n, a + 1 + BitVec.ofNat 64 j ≠ b := by
        intro j hj
        have := h (j + 1) (Nat.succ_lt_succ hj)
        rwa [BitVec.ofNat_add, BitVec.add_comm (BitVec.ofNat 64 j), ← BitVec.add_assoc] at this
      rw [readBytes, readBytes, ih _ hrest, Function.update_of_ne h0]

theorem readBytes_writeBytes (mem : Word → BitVec 8) (a : Word) (n v : ℕ) (hn : n ≤ 8) :
    readBytes (writeBytes mem a n v) a n = v % 2 ^ (8 * n) := by
  induction n generalizing a v with
  | zero => exact (Nat.mod_one v).symm
  | succ n ih =>
      have hapart : ∀ j < n, a + 1 + BitVec.ofNat 64 j ≠ a := by
        intro j hj h
        have hnat := congrArg BitVec.toNat h
        rw [BitVec.toNat_add, BitVec.toNat_add, BitVec.toNat_ofNat,
          show (1 : Word).toNat = 1 from rfl] at hnat
        omega
      have hpow : 2 ^ (8 * (n + 1)) = 256 * 2 ^ (8 * n) := by
        rw [Nat.mul_succ, pow_add]
        ring
      rw [readBytes, writeBytes, Function.update_self, readBytes_update n _ hapart,
        ih _ _ (by omega), hpow, Nat.mod_mul, BitVec.toNat_ofNat]

def State.operand (s : State) (cfg : Config) (o : Operand) : ℕ :=
  match value s (opValue cfg o) with
  | .ok x => x.toNat
  | .error _ => 0

theorem operand_of_value {s : State} {cfg : Config} {o : Operand} {x : Word}
    (h : value s (opValue cfg o) = .ok x) : s.operand cfg o = x.toNat := by
  rw [State.operand, h]

theorem merge_toNat (w : Width) (old v : Word) :
    (old &&& BitVec.ofInt 64 (mask 64 - mask w.bits) |||
      v &&& BitVec.ofInt 64 (mask w.bits)).toNat % w.size = v.toNat % w.size := by
  have hmask : (BitVec.ofInt 64 (mask 64 - mask w.bits)).toNat % w.size = 0 := by
    cases w <;> decide
  have hor : ∀ p q : ℕ, (p ||| q) % w.size = p % w.size ||| q % w.size := fun p q =>
    Nat.or_mod_two_pow
  have hand : ∀ p q : ℕ, (p &&& q) % w.size = p % w.size &&& q % w.size := fun p q =>
    Nat.and_mod_two_pow
  rw [BitVec.toNat_or, hor, BitVec.toNat_and, hand, hmask, Nat.and_zero, Nat.zero_or,
    toNat_and_mask, Nat.mod_mod]

theorem value_combineWrite {s : State} {e : Expr} {v : Word} (cfg : Config) (l : Location)
    (w : Width) (h : value s e = .ok v) :
    ∃ u, value s (combineWrite cfg l w.bits e) = .ok u ∧ u.toNat % w.size = v.toNat % w.size := by
  unfold combineWrite
  split
  · exact ⟨v, h, rfl⟩
  split
  · rename_i h32
    have hw : w = .b32 := by cases w <;> first | rfl | exact absurd h32 (by decide)
    subst hw
    refine ⟨_, value_and h (value_konst _), ?_⟩
    rw [show mask 32 = mask Width.b32.bits from rfl, toNat_and_mask, Nat.mod_mod]
  · refine ⟨_, ?_, merge_toNat w (s.loc l) v⟩
    rw [value_bin (value_and (value_read l) (value_konst _)) (value_and h (value_konst _))]
    rfl

@[simp] theorem set_mem {s : State} {l : Location} {v : Word} : (s.set l v).mem = s.mem := rfl

theorem high_toNat (old v : Word) :
    (old &&& BitVec.ofInt 64 (mask 64 - 0xff00) ||| (v &&& 0xff#64) <<< 8).toNat / 2 ^ 8 % 2 ^ 8 =
      v.toNat % 2 ^ 8 := by
  have hbits : ∀ i < 8, (old &&& BitVec.ofInt 64 (mask 64 - 0xff00) |||
      (v &&& 0xff#64) <<< 8).toNat.testBit (i + 8) = v.toNat.testBit i := by
    intro i hi
    rw [BitVec.testBit_toNat, BitVec.testBit_toNat]
    have hmask : ∀ i < 8, (BitVec.ofInt 64 (mask 64 - 0xff00)).getLsbD (i + 8) = false := by decide
    have hff : ∀ i < 8, (0xff#64).getLsbD i = true := by decide
    rw [BitVec.getLsbD_or, BitVec.getLsbD_and, hmask i hi, BitVec.getLsbD_shiftLeft,
      Nat.add_sub_cancel, BitVec.getLsbD_and, hff i hi]
    simp only [Bool.and_false, Bool.false_or, Bool.and_true]
    have h64 : i + 8 < 64 := by omega
    have h8 : ¬ i + 8 < 8 := by omega
    simp only [h64, h8, decide_true, decide_false, Bool.not_false, Bool.true_and]
  apply Nat.eq_of_testBit_eq
  intro i
  rw [Nat.testBit_mod_two_pow, Nat.testBit_mod_two_pow, Nat.testBit_div_two_pow]
  by_cases hi : i < 8
  · rw [hbits i hi]
  · simp only [hi, decide_false, Bool.false_and]

theorem run_write {s : State} {e : Expr} {v : Word} (cfg : Config) {o : Operand} (ho : o.isPlace)
    (h : value s e = .ok v) :
    ∃ ws s', writeOp cfg o e = some ws ∧ run ws s = .ok s' ∧
      (∀ k, s'.loc (.flag k) = s.loc (.flag k)) ∧
      s'.operand cfg o = v.toNat % o.width.size := by
  cases o with
  | imm u => exact ho.elim
  | reg r =>
      cases r with
      | high f =>
          have hv : value s (bin .or (bin .and (.read (.reg f)) (konst (mask 64 - 0xff00)))
              (bin .shl (bin .and e (konst 0xff)) (konst 8))) =
              .ok (s.loc (.reg f) &&& BitVec.ofInt 64 (mask 64 - 0xff00) |||
                (v &&& 0xff#64) <<< 8) := by
            rw [value_bin (value_and (value_read _) (value_konst _))
              (value_bin (value_and h (value_konst _)) (value_konst _))]
            rfl
          refine ⟨_, s.set (.reg f) _, rfl, run_set hv, fun k => set_loc_of_ne nofun, ?_⟩
          have hread := value_readReg (s.set (.reg f) (s.loc (.reg f) &&&
            BitVec.ofInt 64 (mask 64 - 0xff00) ||| (v &&& 0xff#64) <<< 8)) (.high f)
          rw [operand_of_value hread]
          simp only [State.regVal, set_loc_self, high_toNat]
          exact Nat.mod_eq_of_lt (lt_of_lt_of_le (Nat.mod_lt _ (by decide)) (by decide))
      | gpr f w =>
          obtain ⟨u, hu, hmod⟩ := value_combineWrite cfg (.reg f) w h
          refine ⟨_, s.set (.reg f) u, rfl, run_set hu, fun k => set_loc_of_ne nofun, ?_⟩
          rw [operand_of_value (value_readReg _ (.gpr f w))]
          simp only [State.regVal, set_loc_self, BitVec.toNat_ofNat, hmod]
          exact Nat.mod_eq_of_lt (lt_of_lt_of_le (Nat.mod_lt _ w.size_pos) w.size_le)
  | mem m =>
      cases hd : m.frameDisp cfg with
      | some d =>
          obtain ⟨u, hu, hmod⟩ := value_combineWrite cfg (.frame d) m.width h
          refine ⟨[.set (.frame d) (combineWrite cfg (.frame d) m.width.bits e)],
            s.set (.frame d) u, by simp only [writeOp, hd], run_set hu,
            fun k => set_loc_of_ne nofun, ?_⟩
          have hval : value (s.set (.frame d) u) (opValue cfg (.mem m)) =
              .ok (BitVec.ofNat 64 (u.toNat % m.width.size)) := by
            have hr := value_reduced (s := s.set (.frame d) u) m.width (value_read (.frame d))
            rw [set_loc_self] at hr
            rw [← hr]
            simp only [opValue, hd]
            cases m.width <;> rfl
          rw [operand_of_value hval, BitVec.toNat_ofNat, hmod]
          exact Nat.mod_eq_of_lt (lt_of_lt_of_le (Nat.mod_lt _ m.width.size_pos) m.width.size_le)
      | none =>
          obtain ⟨p, hp⟩ := addr_fixed m s
          refine ⟨[.store m.addr e (.ofBits m.width.bits)],
            ⟨s.loc, writeBytes s.mem p (ctypeBytes (intBits (.ofBits m.width.bits))) v.toNat⟩,
            by simp only [writeOp, hd], ?_, fun k => rfl, ?_⟩
          · simp only [run, hp s (fun _ => rfl), h]
            rfl
          · have hval : value ⟨s.loc, writeBytes s.mem p
                (ctypeBytes (intBits (.ofBits m.width.bits))) v.toNat⟩ (opValue cfg (.mem m)) =
                .ok (BitVec.ofNat 64 (v.toNat % m.width.size)) := by
              have hread := readBytes_writeBytes s.mem p
                (ctypeBytes (intBits (.ofBits m.width.bits))) v.toNat (by cases m.width <;> decide)
              rw [ctypeBytes_width] at hread
              have haddr := hp ⟨s.loc, writeBytes s.mem p
                (ctypeBytes (intBits (.ofBits m.width.bits))) v.toNat⟩ (fun _ => rfl)
              simp only [opValue, hd, value, haddr]
              exact congrArg (fun n => Except.ok (BitVec.ofNat 64 n)) hread
            rw [operand_of_value hval, BitVec.toNat_ofNat]
            exact Nat.mod_eq_of_lt
              (lt_of_lt_of_le (Nat.mod_lt _ m.width.size_pos) m.width.size_le)

/-! ### Signs -/

theorem sext_64 (x : Word) : sext 64 x = x := by
  rw [sext, BitVec.setWidth_eq, BitVec.signExtend_eq]

theorem signedCast_place (cfg : Config) {o : Operand} (ho : o.isPlace) (x : Word) :
    signedCast (opValue cfg o) x = sext o.width.bits x := by
  cases o with
  | imm v => exact ho.elim
  | reg r =>
      cases r with
      | high f => rfl
      | gpr f w =>
          cases w with
          | b64 => exact (sext_64 x).symm
          | _ => rfl
  | mem m =>
      obtain ⟨rip, base, index, scale, disp, w⟩ := m
      simp only [opValue, Operand.width]
      cases Memory.frameDisp cfg ⟨rip, base, index, scale, disp, w⟩ with
      | some d =>
          cases w with
          | b64 => exact (sext_64 x).symm
          | _ => rfl
      | none =>
          cases w with
          | b64 => exact (sext_64 x).symm
          | _ => rfl

theorem toInt_sext (w : Width) {x : Word} (hx : x.toNat < w.size) :
    (sext w.bits x).toInt = toSigned w x.toNat := by
  rw [sext, BitVec.toInt_signExtend_of_le w.bits_le, BitVec.toInt_eq_toNat_cond,
    BitVec.toNat_setWidth]
  have hmod : x.toNat % 2 ^ w.bits = x.toNat := Nat.mod_eq_of_lt hx
  have hsize := w.size_eq
  rw [hmod, toSigned]
  by_cases h : x.toNat < w.half
  · rw [if_pos h]
    exact if_pos (show 2 * x.toNat < w.size by omega)
  · rw [if_neg h]
    exact if_neg (show ¬ 2 * x.toNat < w.size by omega)

theorem toNat_mod_of_toInt (w : Width) (z : Word) :
    z.toNat % w.size = (z.toInt % w.size).toNat := by
  rw [BitVec.toInt_eq_toNat_cond]
  cases w <;> simp only [Width.size, Width.bits] <;> split <;> omega

end Aret.Lift
