/-
The results of lifted multiplications and divisions.

* `liftMul_computes` — every form leaves the words of the processor, or traps as
  it does, but for the forms of 8 and 16 bits with one operand, which fall back
  to an opaque call.
-/
import Aret.LiftArith

namespace Aret.Lift

open Alu

/-! ### The instructions -/

/-- The operands of an instruction: one, with the registers that it implies, or two or three. -/
inductive MulForm
  | one (op : MulOp) (x : Operand)
  | two (x y : Operand)
  | three (x y z : Operand)

namespace MulForm

def mnemonic : MulForm → Mnemonic
  | one .mul _ => .mul
  | one .imul _ => .imul
  | one .div _ => .div
  | one .idiv _ => .idiv
  | two .. | three .. => .imul

def operands : MulForm → List Operand
  | one _ x => [x]
  | two x y => [x, y]
  | three x y z => [x, y, z]

def Valid : MulForm → Prop
  | one _ x => x.isPlace
  | two x y => x.isPlace ∧ y.Reads x.width
  | three x y z => x.isPlace ∧ y.Reads x.width ∧ z.Reads x.width

def Narrow : MulForm → Prop
  | one _ x => x.width = .b8 ∨ x.width = .b16
  | _ => False

instance : DecidablePred Narrow
  | one _ x => inferInstanceAs (Decidable (x.width = .b8 ∨ x.width = .b16))
  | two .. | three .. => inferInstanceAs (Decidable False)

end MulForm

/-- A multiplication or division, as a decoder gives it. -/
structure MulInsn where
  insn : Insn
  form : MulForm
  valid : form.Valid
  mnemonic : insn.mnemonic = form.mnemonic
  ops : insn.ops = form.operands

/-- The low word of a product or dividend, and then of a product or the quotient. -/
def lowReg (w : Width) : Register := .gpr 0 w

/-- The high word, and then the high word of a product or the remainder; of 8 bits it is `ah`. -/
def highReg (w : Width) : Register := if w = .b8 then .high 0 else .gpr 2 w

def product (w : Width) (a b : ℕ) : ℕ := (toSigned w a * toSigned w b % w.size).toNat

/-- The statements leave the words that the processor leaves, and trap when it does. -/
def MulInsn.Computes (i : MulInsn) (cfg : Config) (s : State) : Prop :=
  match i.form with
  | .one op x =>
    let w := x.width
    match op.exec w (s.regVal (highReg w)) (s.regVal (lowReg w)) (s.operand cfg x) with
    | none => run (i.insn.lift cfg) s = .error .trap
    | some (lo, hi) => ∃ s', run (i.insn.lift cfg) s = .ok s' ∧ s'.regVal (lowReg w) = lo ∧
        s'.regVal (highReg w) = hi
  | .two x y =>
    let w := x.width
    ∃ s', run (i.insn.lift cfg) s = .ok s' ∧
      s'.operand cfg x = product w (s.operand cfg x) (s.operand cfg y % w.size)
  | .three x y z =>
    let w := x.width
    ∃ s', run (i.insn.lift cfg) s = .ok s' ∧
      s'.operand cfg x = product w (s.operand cfg y % w.size) (s.operand cfg z % w.size)

def MulInsn.Extreme (i : MulInsn) (cfg : Config) (s : State) : Prop :=
  ∃ x, i.form = .one .idiv x ∧ x.width = .b64 ∧
    doubleWord .b64 (s.regVal (highReg .b64)) (s.regVal (lowReg .b64)) = -2 ^ 127 ∧
    toSigned .b64 (s.operand cfg x) = -1

/-! ### Results in two registers -/

theorem temp_ne_temp (i : Insn) : i.temp' ≠ i.temp := by
  intro h
  have h' := Location.temp.inj h
  omega

section
variable {s : State} {cfg : Config} {e₁ e₂ o₁ o₂ : Expr} {p q : Word} {w : Width}

theorem run_results (i : Insn) (h₁ : value s e₁ = .ok p)
    (h₂ : ∀ s', Same s s' → value s' e₂ = .ok q)
    (ho₁ : ∀ s', s'.loc i.temp = p → ∃ u, value s' o₁ = .ok u ∧ u.toNat % w.size = p.toNat % w.size)
    (ho₂ : ∀ s', s'.loc i.temp' = q →
      ∃ u, value s' o₂ = .ok u ∧ u.toNat % w.size = q.toNat % w.size) :
    ∃ s', run [.set i.temp e₁, .set i.temp' e₂, .set (.reg 0) o₁, .set (.reg 2) o₂] s = .ok s' ∧
      s'.regVal (.gpr 0 w) = p.toNat % w.size ∧ s'.regVal (.gpr 2 w) = q.toNat % w.size := by
  have hsame : Same s (s.set i.temp p) :=
    ⟨rfl, fun _ => set_loc_of_ne nofun, fun _ => set_loc_of_ne nofun⟩
  have hv₂ := h₂ _ hsame
  have htemp : ((s.set i.temp p).set i.temp' q).loc i.temp = p := by
    rw [set_loc_of_ne (temp_ne_temp i).symm, set_loc_self]
  obtain ⟨u, hu, hup⟩ := ho₁ _ htemp
  have htemp' : (((s.set i.temp p).set i.temp' q).set (.reg 0) u).loc i.temp' = q := by
    rw [set_loc_of_ne (by nofun), set_loc_self]
  obtain ⟨v, hv, hvq⟩ := ho₂ _ htemp'
  refine ⟨(((s.set i.temp p).set i.temp' q).set (.reg 0) u).set (.reg 2) v, ?_, ?_, ?_⟩
  · rw [run_set h₁, run_set hv₂, run_set hu, run_set hv]
    rfl
  · simp only [State.regVal]
    rw [set_loc_of_ne (by decide), set_loc_self, hup]
  · simp only [State.regVal]
    rw [set_loc_self, hvq]

theorem run_trap {l : Location} {e : Expr} {f : Fault} {rest : List Stmt}
    (h : value s e = .error f) : run (.set l e :: rest) s = .error f := by
  simp only [run, h]
  rfl

def Pair (w : Width) (s : State) (r : Option (ℕ × ℕ)) (e₁ e₂ : Expr) : Prop :=
  match r with
  | none => value s e₁ = .error .trap
  | some (lo, hi) => ∃ p q, value s e₁ = .ok p ∧ (∀ s', Same s s' → value s' e₂ = .ok q) ∧
      p.toNat % w.size = lo ∧ q.toNat % w.size = hi

theorem run_pair (i : Insn) {r : Option (ℕ × ℕ)} (h : Pair w s r e₁ e₂)
    (ho₁ : ∀ s' p, s'.loc i.temp = p →
      ∃ u, value s' o₁ = .ok u ∧ u.toNat % w.size = p.toNat % w.size)
    (ho₂ : ∀ s' q, s'.loc i.temp' = q →
      ∃ u, value s' o₂ = .ok u ∧ u.toNat % w.size = q.toNat % w.size) :
    match r with
    | none => run [.set i.temp e₁, .set i.temp' e₂, .set (.reg 0) o₁, .set (.reg 2) o₂] s =
        .error .trap
    | some (lo, hi) => ∃ s',
        run [.set i.temp e₁, .set i.temp' e₂, .set (.reg 0) o₁, .set (.reg 2) o₂] s = .ok s' ∧
        s'.regVal (.gpr 0 w) = lo ∧ s'.regVal (.gpr 2 w) = hi := by
  cases r with
  | none => exact run_trap h
  | some r =>
      obtain ⟨p, q, hp, hq, hlo, hhi⟩ := h
      obtain ⟨s', hrun, h₀, h₂⟩ := run_results (w := w) i hp hq (fun s' => ho₁ s' p)
        (fun s' => ho₂ s' q)
      exact ⟨s', hrun, h₀.trans hlo, h₂.trans hhi⟩

end

/-! ### Values of products and quotients -/

theorem toInt_word (x : Word) : x.toInt = toSigned .b64 x.toNat := by
  have h := toInt_sext .b64 (show x.toNat < Width.b64.size from x.isLt)
  rwa [show Width.b64.bits = 64 from rfl, sext_64] at h

theorem toSigned_emod (w : Width) (a : ℕ) : toSigned w a % w.size = (a : ℤ) % w.size := by
  rcases toSigned_cases w a with ⟨-, h⟩ | ⟨-, h⟩ <;> rw [h]
  exact Int.sub_emod_right ..

theorem product_eq (w : Width) (a b : ℕ) : product w a b = a * b % w.size := by
  have h : toSigned w a * toSigned w b % w.size = ((a * b % w.size : ℕ) : ℤ) := by
    rw [Int.mul_emod, toSigned_emod, toSigned_emod, ← Int.mul_emod]
    norm_cast
  rw [product, h, Int.toNat_natCast]

theorem mul_toNat (w : Width) (x y : Word) :
    (x * y).toNat % w.size = product w (x.toNat % w.size) (y.toNat % w.size) := by
  rw [product_eq, BitVec.toNat_mul, mod_mod_size, Nat.mul_mod]

theorem toNat_ofInt_mod (w : Width) (v : ℤ) :
    (BitVec.ofInt 64 v).toNat % w.size = (v % w.size).toNat := by
  rw [BitVec.toNat_ofInt]
  cases w <;> simp only [Width.size, Width.bits] <;> omega

section
variable {s : State} {a b c : Expr} {x y z : Word}

theorem value_fcall2 {name : String} (ha : value s a = .ok x) (hb : value s b = .ok y) :
    value s (fcall name [a, b]) = helper name [x, y] := by
  simp only [fcall, value, values, ha, hb]
  rfl

theorem value_fcall3 {name : String} (ha : value s a = .ok x) (hb : value s b = .ok y)
    (hc : value s c = .ok z) : value s (fcall name [a, b, c]) = helper name [x, y, z] := by
  simp only [fcall, value, values, ha, hb, hc]
  rfl

end

theorem udiv64_eq (rem : Bool) (hi lo d : Word) :
    udiv64 rem hi lo d = match MulOp.div.exec .b64 hi.toNat lo.toNat d.toNat with
      | none => .error .trap
      | some (q, r) => .ok (BitVec.ofNat 64 (if rem then r else q)) := by
  have hzero : d = 0 ↔ d.toNat = 0 := (BitVec.toNat_inj (x := d) (y := 0)).symm
  unfold udiv64
  simp only [MulOp.exec]
  by_cases h0 : d = 0
  · rw [if_pos h0, if_pos (.inl (hzero.mp h0))]
  · rw [if_neg h0]
    by_cases hover : 2 ^ 64 - 1 < wide hi lo / d.toNat
    · rw [if_pos hover, if_pos (.inr (show Width.b64.size ≤ wide hi lo / d.toNat by
        show 2 ^ 64 ≤ _
        omega))]
    · have hnot : ¬ (d.toNat = 0 ∨
          Width.b64.size ≤ (hi.toNat * Width.b64.size + lo.toNat) / d.toNat) := by
        rintro (h | h)
        · exact h0 (hzero.mpr h)
        · have h' : 2 ^ 64 ≤ wide hi lo / d.toNat := h
          omega
      rw [if_neg hover, if_neg hnot]
      rfl

theorem idiv64_eq (rem : Bool) (hi lo d : Word)
    (hextreme : ¬ (doubleWord .b64 hi.toNat lo.toNat = -2 ^ 127 ∧ toSigned .b64 d.toNat = -1)) :
    ∃ v, (idiv64 rem hi lo d = match MulOp.idiv.exec .b64 hi.toNat lo.toNat d.toNat with
        | none => .error .trap
        | some _ => .ok v) ∧
      ∀ q r, MulOp.idiv.exec .b64 hi.toNat lo.toNat d.toNat = some (q, r) →
        v.toNat % Width.b64.size = if rem then r else q := by
  have hn : wideSigned hi lo = doubleWord .b64 hi.toNat lo.toNat := by
    rw [wideSigned, doubleWord, toInt_word]
    rfl
  have hd : d.toInt = toSigned .b64 d.toNat := toInt_word d
  have hzero : d = 0 ↔ toSigned .b64 d.toNat = 0 := by
    rw [← hd, ← BitVec.toInt_inj]
    rfl
  unfold idiv64
  rw [hn, hd]
  simp only [MulOp.exec]
  generalize doubleWord .b64 hi.toNat lo.toNat = n at *
  generalize toSigned .b64 d.toNat = e at *
  have hover : 2 ^ 63 - 1 < n.tdiv e ∨ n.tdiv e < -2 ^ 63 ↔ Overflows .b64 (n.tdiv e) := by
    show _ ↔ n.tdiv e < -((2 ^ 63 : ℕ) : ℤ) ∨ ((2 ^ 63 : ℕ) : ℤ) ≤ n.tdiv e
    omega
  by_cases h0 : d = 0
  · refine ⟨0, ?_, fun q r h => ?_⟩
    · rw [if_pos h0, if_pos (.inl (hzero.mp h0))]
    · rw [if_pos (.inl (hzero.mp h0))] at h
      cases h
  · rw [if_neg h0, if_neg hextreme]
    by_cases hov : Overflows .b64 (n.tdiv e)
    · refine ⟨0, ?_, fun q r h => ?_⟩
      · rw [if_pos (hover.mpr hov), if_pos (.inr hov)]
      · rw [if_pos (.inr hov)] at h
        cases h
    · have hnot : ¬ (e = 0 ∨ Overflows .b64 (n.tdiv e)) := by
        rintro (h | h)
        · exact h0 (hzero.mpr h)
        · exact hov h
      refine ⟨BitVec.ofInt 64 (if rem then n.tmod e else n.tdiv e), ?_, fun q r h => ?_⟩
      · rw [if_neg (fun h => hov (hover.mp h)), if_neg hnot]
      · rw [if_neg hnot] at h
        cases h
        rw [toNat_ofInt_mod]
        cases rem <;> rfl

theorem udiv32_eq (rem : Bool) {n y : Word} {hi lo : ℕ} (hn : n.toNat = hi * Width.b32.size + lo)
    (hy : y.toNat < Width.b32.size) :
    udiv32 rem n (y.setWidth 32) = match MulOp.div.exec .b32 hi lo y.toNat with
      | none => .error .trap
      | some (q, r) => .ok (BitVec.ofNat 64 (if rem then r else q)) := by
  have hd : (y.setWidth 32).toNat = y.toNat := by
    rw [BitVec.toNat_setWidth]
    exact Nat.mod_eq_of_lt hy
  have hzero : y.setWidth 32 = 0 ↔ y.toNat = 0 := by
    rw [← hd]
    exact (BitVec.toNat_inj (x := y.setWidth 32) (y := 0)).symm
  unfold udiv32
  simp only [MulOp.exec, hn, hd]
  by_cases h0 : y.setWidth 32 = 0
  · rw [if_pos h0, if_pos (.inl (hzero.mp h0))]
  · rw [if_neg h0]
    have hover : 0xffffffff < (hi * Width.b32.size + lo) / y.toNat ↔
        Width.b32.size ≤ (hi * Width.b32.size + lo) / y.toNat := by
      show _ ↔ 2 ^ 32 ≤ _
      omega
    by_cases hov : Width.b32.size ≤ (hi * Width.b32.size + lo) / y.toNat
    · rw [if_pos (hover.mpr hov), if_pos (.inr hov)]
    · have hnot : ¬ (y.toNat = 0 ∨ Width.b32.size ≤ (hi * Width.b32.size + lo) / y.toNat) := by
        rintro (h | h)
        · exact h0 (hzero.mpr h)
        · exact hov h
      rw [if_neg (fun h => hov (hover.mp h)), if_neg hnot]

theorem idiv32_eq (rem : Bool) {n y : Word} {hi lo : ℕ} (hn : n.toNat = hi * Width.b32.size + lo)
    (hhi : hi < Width.b32.size) (hlo : lo < Width.b32.size) (hy : y.toNat < Width.b32.size) :
    ∃ v, (idiv32 rem n (y.setWidth 32) = match MulOp.idiv.exec .b32 hi lo y.toNat with
        | none => .error .trap
        | some _ => .ok v) ∧
      ∀ q r, MulOp.idiv.exec .b32 hi lo y.toNat = some (q, r) →
        v.toNat % Width.b32.size = if rem then r else q := by
  have hint : n.toInt = doubleWord .b32 hi lo := by
    have hsize : Width.b32.size = 2 ^ 32 := rfl
    have hhalf : Width.b32.half = 2 ^ 31 := rfl
    rw [BitVec.toInt_eq_toNat_cond, hn, doubleWord]
    rcases toSigned_cases .b32 hi with ⟨h, hs⟩ | ⟨h, hs⟩ <;> rw [hs, hsize] <;> rw [hsize] at hlo hhi <;>
      rw [hhalf] at h
    · rw [if_pos (by omega)]
      norm_cast
    · rw [if_neg (by omega)]
      push_cast
      ring
  have hd : (y.setWidth 32).toInt = toSigned .b32 y.toNat := by
    rw [← toInt_sext .b32 hy, sext]
    exact (BitVec.toInt_signExtend_of_le (by decide)).symm
  have hzero : y.setWidth 32 = 0 ↔ toSigned .b32 y.toNat = 0 := by
    rw [← hd, ← BitVec.toInt_inj]
    rfl
  have hextreme : n.toNat = 0x8000000000000000 ↔ doubleWord .b32 hi lo = -2 ^ 63 := by
    rw [← hint, BitVec.toInt_eq_toNat_cond]
    have := n.isLt
    split <;> omega
  unfold idiv32
  rw [hint, hd]
  simp only [MulOp.exec]
  generalize doubleWord .b32 hi lo = m at *
  generalize toSigned .b32 y.toNat = e at *
  have hover : 2147483647 < m.tdiv e ∨ m.tdiv e < -2147483648 ↔ Overflows .b32 (m.tdiv e) := by
    show _ ↔ m.tdiv e < -((2 ^ 31 : ℕ) : ℤ) ∨ ((2 ^ 31 : ℕ) : ℤ) ≤ m.tdiv e
    omega
  by_cases h0 : y.setWidth 32 = 0
  · refine ⟨0, ?_, fun q r h => ?_⟩
    · rw [if_pos h0, if_pos (.inl (hzero.mp h0))]
    · rw [if_pos (.inl (hzero.mp h0))] at h
      cases h
  rw [if_neg h0]
  by_cases hov : Overflows .b32 (m.tdiv e)
  · have hyes : e = 0 ∨ Overflows .b32 (m.tdiv e) := .inr hov
    refine ⟨0, ?_, fun q r h => ?_⟩
    · rw [if_pos hyes]
      split
      · rfl
      · exact if_pos (hover.mpr hov)
    · rw [if_pos hyes] at h
      cases h
  · have hnot : ¬ (e = 0 ∨ Overflows .b32 (m.tdiv e)) := by
      rintro (h | h)
      · exact h0 (hzero.mpr h)
      · exact hov h
    have hsmall : ¬ (e = -1 ∧ n.toNat = 0x8000000000000000) := by
      rintro ⟨rfl, hmin⟩
      rw [hextreme.mp hmin] at hov
      exact hov (by decide)
    refine ⟨BitVec.ofInt 64 (if rem then m.tmod e else m.tdiv e), ?_, fun q r h => ?_⟩
    · rw [if_neg hsmall, if_neg (fun h => hov (hover.mp h)), if_neg hnot]
    · rw [if_neg hnot] at h
      cases h
      rw [toNat_ofInt_mod]
      cases rem <;> rfl

/-! ### The two arms -/

section
variable {i : Insn} {cfg : Config} {s : State} {src : Expr} {y : Word} {op : MulOp} {x : Operand}

theorem div_exec_lt {w : Width} {hi lo d q r : ℕ} (hd : d < w.size)
    (h : MulOp.div.exec w hi lo d = some (q, r)) : q < w.size ∧ r < w.size := by
  simp only [MulOp.exec] at h
  split at h
  · cases h
  · rename_i hnot
    cases h
    rw [not_or, Nat.not_le] at hnot
    exact ⟨hnot.2, (Nat.mod_lt _ (Nat.pos_of_ne_zero hnot.1)).trans hd⟩

theorem toNat_ofNat_size {w : Width} {n : ℕ} (h : n < w.size) :
    (BitVec.ofNat 64 n).toNat % w.size = n := by
  rw [BitVec.toNat_ofNat, mod_mod_size, Nat.mod_eq_of_lt h]

theorem pair_div {w : Width} {e₁ e₂ : Expr} {hi lo d : ℕ} (hd : d < w.size)
    (h : ∀ (rem : Bool) s', Same s s' → value s' (if rem then e₂ else e₁) =
      match MulOp.div.exec w hi lo d with
      | none => .error .trap
      | some (q, r) => .ok (BitVec.ofNat 64 (if rem then r else q))) :
    Pair w s (MulOp.div.exec w hi lo d) e₁ e₂ := by
  have h₁ := h false s (.refl s)
  have h₂ := h true
  cases hex : MulOp.div.exec w hi lo d with
  | none =>
      rw [hex] at h₁
      exact h₁
  | some r =>
      obtain ⟨hq, hr⟩ := div_exec_lt hd hex
      rw [hex] at h₁
      refine ⟨_, _, h₁, fun s' hs => ?_, toNat_ofNat_size hq, toNat_ofNat_size hr⟩
      have hv := h₂ s' hs
      rw [hex] at hv
      exact hv

theorem pair_idiv {w : Width} {e₁ e₂ : Expr} {hi lo d : ℕ}
    (h : ∀ rem : Bool, ∃ v, (∀ s', Same s s' → value s' (if rem then e₂ else e₁) =
        match MulOp.idiv.exec w hi lo d with
        | none => .error .trap
        | some _ => .ok v) ∧
      ∀ q r, MulOp.idiv.exec w hi lo d = some (q, r) → v.toNat % w.size = if rem then r else q) :
    Pair w s (MulOp.idiv.exec w hi lo d) e₁ e₂ := by
  obtain ⟨v₁, hv₁, hq⟩ := h false
  obtain ⟨v₂, hv₂, hr⟩ := h true
  cases hex : MulOp.idiv.exec w hi lo d with
  | none =>
      have := hv₁ s (.refl s)
      rw [hex] at this
      exact this
  | some r =>
      rw [hex] at hv₁ hv₂
      exact ⟨v₁, v₂, hv₁ s (.refl s), hv₂, hq _ _ hex, hr _ _ hex⟩

theorem pair_wide (hm : i.mnemonic = (MulForm.one op x).mnemonic)
    (hy : ∀ s', Same s s' → value s' src = .ok y)
    (hextreme : op = .idiv → ¬ (doubleWord .b64 (s.loc (.reg 2)).toNat (s.loc (.reg 0)).toNat =
      -2 ^ 127 ∧ toSigned .b64 y.toNat = -1)) :
    Pair .b64 s (op.exec .b64 (s.loc (.reg 2)).toNat (s.loc (.reg 0)).toNat y.toNat)
      (i.liftMulWide src).1 (i.liftMulWide src).2 := by
  have hra : ∀ s', Same s s' → value s' (.read (.reg 0)) = .ok (s.loc (.reg 0)) := fun s' h =>
    congrArg Except.ok (h.reg 0)
  have hrd : ∀ s', Same s s' → value s' (.read (.reg 2)) = .ok (s.loc (.reg 2)) := fun s' h =>
    congrArg Except.ok (h.reg 2)
  have halt := (s.loc (.reg 0)).isLt
  have hylt := y.isLt
  unfold Insn.liftMulWide
  rw [hm]
  cases op with
  | mul =>
      refine ⟨_, _, value_bin (hra s (.refl s)) (hy s (.refl s)), fun s' h =>
        value_fcall2 (hra s' h) (hy s' h), ?_, ?_⟩
      · rw [BitVec.toNat_mul, mod_mod_size]
      · refine toNat_ofNat_size (Nat.div_lt_of_lt_mul ?_)
        exact Nat.mul_lt_mul'' halt hylt
  | imul =>
      refine ⟨_, _, value_bin (hra s (.refl s)) (hy s (.refl s)), fun s' h =>
        value_fcall2 (hra s' h) (hy s' h), ?_, ?_⟩
      · rw [mul_toNat, Nat.mod_eq_of_lt (show _ < Width.b64.size from halt),
          Nat.mod_eq_of_lt (show _ < Width.b64.size from hylt)]
        rfl
      · rw [toNat_ofInt_mod, toInt_word, toInt_word]
        rfl
  | div =>
      refine pair_div hylt fun rem s' h => ?_
      have hv : ∀ name, value s' (fcall name [.read (.reg 2), .read (.reg 0), src]) =
          helper name [s.loc (.reg 2), s.loc (.reg 0), y] := fun name =>
        value_fcall3 (hrd s' h) (hra s' h) (hy s' h)
      rw [← udiv64_eq rem]
      cases rem with
      | false => exact hv _
      | true => exact hv _
  | idiv =>
      refine pair_idiv fun rem => ?_
      obtain ⟨v, hv, hres⟩ := idiv64_eq rem (s.loc (.reg 2)) (s.loc (.reg 0)) y (hextreme rfl)
      refine ⟨v, fun s' h => ?_, hres⟩
      rw [← hv]
      cases rem with
      | false => exact value_fcall3 (hrd s' h) (hra s' h) (hy s' h)
      | true => exact value_fcall3 (hrd s' h) (hra s' h) (hy s' h)

theorem pair_narrow {o : Operand} (hm : i.mnemonic = (MulForm.one op x).mnemonic)
    (ho : o.isPlace) (hw : o.width = .b32)
    (hy : ∀ s', Same s s' → value s' (opValue cfg o) = .ok y) (hylt : y.toNat < Width.b32.size) :
    Pair .b32 s (op.exec .b32 (s.regVal (.gpr 2 .b32)) (s.regVal (.gpr 0 .b32)) y.toNat)
      (i.liftMulNarrow (opValue cfg o)).1 (i.liftMulNarrow (opValue cfg o)).2 := by
  obtain ⟨lo, hlo⟩ : ∃ lo, lo = s.regVal (.gpr 0 .b32) := ⟨_, rfl⟩
  obtain ⟨hi, hhi⟩ : ∃ hi, hi = s.regVal (.gpr 2 .b32) := ⟨_, rfl⟩
  have hlolt : lo < 2 ^ 32 := hlo ▸ regVal_lt s (.gpr 0 .b32)
  have hhilt : hi < 2 ^ 32 := hhi ▸ regVal_lt s (.gpr 2 .b32)
  replace hylt : y.toNat < 2 ^ 32 := hylt
  have heax : ∀ s', Same s s' →
      value s' (bin .and (.read (.reg 0)) (konst (mask 32))) = .ok (BitVec.ofNat 64 lo) := by
    intro s' h
    rw [hlo, ← regVal_congr h.reg]
    exact value_readReg s' (.gpr 0 .b32)
  have hedx : ∀ s', Same s s' →
      value s' (bin .and (.read (.reg 2)) (konst (mask 32))) = .ok (BitVec.ofNat 64 hi) := by
    intro s' h
    rw [hhi, ← regVal_congr h.reg]
    exact value_readReg s' (.gpr 2 .b32)
  have hlonat : (BitVec.ofNat 64 lo).toNat = lo := by
    rw [BitVec.toNat_ofNat, Nat.mod_eq_of_lt (by omega)]
  have hhinat : (BitVec.ofNat 64 hi).toNat = hi := by
    rw [BitVec.toNat_ofNat, Nat.mod_eq_of_lt (by omega)]
  rw [← hlo, ← hhi]
  -- the dividend
  have hwide : ∀ s', Same s s' → value s' (bin .or
      (bin .shl (bin .and (.read (.reg 2)) (konst (mask 32))) (konst 32))
      (bin .and (.read (.reg 0)) (konst (mask 32)))) =
      .ok (BitVec.ofNat 64 hi <<< 32 ||| BitVec.ofNat 64 lo) := by
    intro s' h
    have hshl : value s' (bin .shl (bin .and (.read (.reg 2)) (konst (mask 32))) (konst 32)) =
        .ok (BitVec.ofNat 64 hi <<< 32) := by
      rw [value_bin (hedx s' h) (value_konst 32)]
      rfl
    rw [value_bin hshl (heax s' h)]
    rfl
  have hn : (BitVec.ofNat 64 hi <<< 32 ||| BitVec.ofNat 64 lo).toNat =
      hi * Width.b32.size + lo := by
    rw [BitVec.toNat_or, BitVec.toNat_shiftLeft, hlonat, hhinat, Nat.shiftLeft_eq,
      Nat.mod_eq_of_lt (by omega), ← Nat.shiftLeft_eq, ← Nat.shiftLeft_add_eq_or_of_lt hlolt,
      Nat.shiftLeft_eq]
    rfl
  have hsrc : ∀ s', Same s s' → value s' (.unary .signExtend (opValue cfg o)) =
      .ok (sext 32 y) := by
    intro s' h
    have hcast : signedCast (opValue cfg o) y = sext 32 y := by
      rw [signedCast_place cfg ho, hw]
      rfl
    simp only [value, hy s' h, ← hcast]
    rfl
  have hext : ∀ s', Same s s' → value s' (.unary .signExtend
      (bin .and (.read (.reg 0)) (konst (mask 32)))) = .ok (sext 32 (BitVec.ofNat 64 lo)) := by
    intro s' h
    have heax' := heax s' h
    simp only [value, heax']
    rfl
  unfold Insn.liftMulNarrow
  rw [hm]
  cases op with
  | mul =>
      have hp : ∀ s', Same s s' → value s' (bin .mul (bin .and (.read (.reg 0)) (konst (mask 32)))
          (opValue cfg o)) = .ok (BitVec.ofNat 64 lo * y) := fun s' h =>
        value_bin (heax s' h) (hy s' h)
      have hnat : (BitVec.ofNat 64 lo * y).toNat = lo * y.toNat := by
        rw [BitVec.toNat_mul, hlonat]
        exact Nat.mod_eq_of_lt (lt_of_lt_of_le (Nat.mul_lt_mul'' hlolt hylt) (by decide))
      have hdiv : lo * y.toNat / 2 ^ 32 < 2 ^ 32 :=
        Nat.div_lt_of_lt_mul (Nat.mul_lt_mul'' hlolt hylt)
      refine ⟨_, _, hp s (.refl s), fun s' h => value_shr (k := 32) (by decide) (hp s' h), ?_, ?_⟩
      · rw [hnat]
      · rw [BitVec.toNat_ushiftRight, hnat, Nat.shiftRight_eq_div_pow]
        exact Nat.mod_eq_of_lt hdiv
  | imul =>
      have hP : sext 32 (BitVec.ofNat 64 lo) * sext 32 y =
          BitVec.ofInt 64 (toSigned .b32 lo * toSigned .b32 y.toNat) := by
        have h₁ := toInt_sext .b32 (x := BitVec.ofNat 64 lo) (by rw [hlonat]; exact hlolt)
        have h₂ := toInt_sext .b32 (x := y) hylt
        rw [hlonat] at h₁
        rw [← h₁, ← h₂, BitVec.ofInt_mul, BitVec.ofInt_toInt, BitVec.ofInt_toInt]
        rfl
      have hp : ∀ s', Same s s' → value s' (bin .mul
          (.unary .signExtend (bin .and (.read (.reg 0)) (konst (mask 32))))
          (.unary .signExtend (opValue cfg o))) =
          .ok (BitVec.ofInt 64 (toSigned .b32 lo * toSigned .b32 y.toNat)) := by
        intro s' h
        rw [value_bin (hext s' h) (hsrc s' h), ← hP]
        rfl
      refine ⟨_, _, value_mask .b32 (hp s (.refl s)),
        fun s' h => value_shr (k := 32) (by decide) (hp s' h), ?_, ?_⟩
      · rw [BitVec.toNat_ofNat, mod_mod_size, Nat.mod_mod, toNat_ofInt_mod]
      · rw [BitVec.toNat_ushiftRight, Nat.shiftRight_eq_div_pow, BitVec.toNat_ofInt]
        show _ % 2 ^ 32 = (_ / ((2 ^ 32 : ℕ) : ℤ) % ((2 ^ 32 : ℕ) : ℤ)).toNat
        omega
  | div =>
      refine pair_div hylt fun rem s' h => ?_
      rw [← udiv32_eq rem hn hylt]
      cases rem with
      | false => exact value_fcall2 (hwide s' h) (hy s' h)
      | true => exact value_fcall2 (hwide s' h) (hy s' h)
  | idiv =>
      refine pair_idiv fun rem => ?_
      obtain ⟨v, hv, hres⟩ := idiv32_eq rem hn hhilt hlolt hylt
      refine ⟨v, fun s' h => ?_, hres⟩
      rw [← hv]
      cases rem with
      | false => exact value_fcall2 (hwide s' h) (hy s' h)
      | true => exact value_fcall2 (hwide s' h) (hy s' h)

end

/-! ### Where the statements compute -/

section
variable (i : MulInsn) (cfg : Config)

theorem MulInsn.lift_eq : i.insn.lift cfg = match i.form with
    | .one _ x => i.insn.liftMulOne cfg x
    | .two x y => i.insn.finish cfg x [] (bin .mul (opValue cfg x) (opValue cfg y))
    | .three x y z => i.insn.finish cfg x [] (bin .mul (opValue cfg y) (opValue cfg z)) := by
  obtain ⟨⟨mn, ops, ad, tx, rd, wr⟩, form, valid, hm, ho⟩ := i
  dsimp only at hm ho
  subst hm ho
  cases form with
  | one op x => cases op <;> rfl
  | two x y => rfl
  | three x y z => rfl

theorem operand_lt {s : State} {o : Operand} (ho : o.isPlace) :
    s.operand cfg o < o.width.size := by
  obtain ⟨x, hx, hlt, -⟩ := opValue_fixed cfg o s
  rw [operand_of_value (hx s (.refl s))]
  exact hlt ho

theorem run_product {s : State} {x y z : Operand} (j : Insn) (hx : x.isPlace) :
    ∃ s', run (j.finish cfg x [] (bin .mul (opValue cfg y) (opValue cfg z))) s = .ok s' ∧
      s'.operand cfg x = product x.width (s.operand cfg y % x.width.size)
        (s.operand cfg z % x.width.size) := by
  obtain ⟨v, hv, -⟩ := opValue_fixed cfg y s
  obtain ⟨u, hu, -⟩ := opValue_fixed cfg z s
  have hval : value s (bin .mul (opValue cfg y) (opValue cfg z)) = .ok (v * u) :=
    value_bin (hv s (.refl s)) (hu s (.refl s))
  have hpre : run [] s = .ok s := rfl
  obtain ⟨s', hrun, -, hres⟩ := run_finish j hx hpre hval
  refine ⟨s', hrun, ?_⟩
  rw [hres, operand_of_value (hv s (.refl s)), operand_of_value (hu s (.refl s)), mul_toNat]

theorem MulInsn.computes_one {s : State} {op : MulOp} {x : Operand} (hform : i.form = .one op x)
    (hwide : x.width = .b32 ∨ x.width = .b64) (hextreme : ¬ i.Extreme cfg s) :
    i.Computes cfg s := by
  have hplace : x.isPlace := by
    have hvalid := i.valid
    rwa [hform] at hvalid
  have hm : i.insn.mnemonic = (MulForm.one op x).mnemonic := hform ▸ i.mnemonic
  obtain ⟨y, hy, hylt, -⟩ := opValue_fixed cfg x s
  have hval : s.operand cfg x = y.toNat := operand_of_value (hy s (.refl s))
  unfold MulInsn.Computes
  rw [i.lift_eq cfg, hform]
  dsimp only
  unfold Insn.liftMulOne
  rw [hval, opWidth_place hplace]
  rcases hwide with hw | hw
  · have hpair := pair_narrow (s := s) hm hplace hw hy (hw ▸ hylt hplace)
    have hlow : ∀ (s' : State) (l : Location) (r : Location) (p : Word), s'.loc l = p →
        ∃ u, value s' (combineWrite cfg r 32 (bin .and (.read l) (konst (mask 32)))) = .ok u ∧
          u.toNat % Width.b32.size = p.toNat % Width.b32.size := by
      rintro s' l r p rfl
      obtain ⟨u, hu, hmod⟩ := value_combineWrite cfg r .b32
        (value_mask .b32 (value_read (s := s') l))
      refine ⟨u, hu, hmod.trans ?_⟩
      rw [BitVec.toNat_ofNat, mod_mod_size, Nat.mod_mod]
    have hrun := run_pair i.insn hpair (fun s' p h => hlow s' _ (.reg 0) p h)
      (fun s' q h => hlow s' _ (.reg 2) q h)
    rw [hw]
    exact hrun
  · have hmod : ∀ f, s.regVal (.gpr f .b64) = (s.loc (.reg f)).toNat := fun f =>
      Nat.mod_eq_of_lt (s.loc (.reg f)).isLt
    have hsmall : op = .idiv → ¬ (doubleWord .b64 (s.loc (.reg 2)).toNat (s.loc (.reg 0)).toNat =
        -2 ^ 127 ∧ toSigned .b64 y.toNat = -1) := by
      rintro rfl hex
      refine hextreme ⟨x, hform, hw, ?_, ?_⟩
      · show doubleWord .b64 (s.regVal (.gpr 2 .b64)) (s.regVal (.gpr 0 .b64)) = _
        rw [hmod, hmod]
        exact hex.1
      · rw [hval]
        exact hex.2
    have hpair := pair_wide hm hy hsmall
    have hread : ∀ (s' : State) (l : Location) (p : Word), s'.loc l = p →
        ∃ u, value s' (.read l) = .ok u ∧ u.toNat % Width.b64.size = p.toNat % Width.b64.size := by
      rintro s' l p rfl
      exact ⟨_, rfl, rfl⟩
    have hrun := run_pair i.insn hpair (fun s' p h => hread s' _ p h)
      (fun s' q h => hread s' _ q h)
    rw [hw]
    rw [← hmod, ← hmod] at hrun
    exact hrun

/-- Every form leaves the words of the processor, or traps as it does; the forms of 8 and 16 bits
with one operand are left to the fallback. -/
theorem liftMul_computes (s : State) (hextreme : ¬ i.Extreme cfg s) :
    if i.form.Narrow then i.insn.lift cfg = i.insn.asm else i.Computes cfg s := by
  have hvalid := i.valid
  cases hform : i.form with
  | one op x =>
      rw [hform] at hvalid
      split
      · rename_i hnarrow
        rw [i.lift_eq cfg, hform]
        show i.insn.liftMulOne cfg x = _
        unfold Insn.liftMulOne
        rw [opWidth_place hvalid]
        rcases hnarrow with hw | hw <;> rw [hw] <;> rfl
      · rename_i hnarrow
        refine i.computes_one cfg hform ?_ hextreme
        have hnot : ¬ (x.width = .b8 ∨ x.width = .b16) := hnarrow
        revert hnot
        cases x.width <;> decide
  | two x y =>
      rw [hform] at hvalid
      rw [if_neg (show ¬ (MulForm.two x y).Narrow from id)]
      unfold MulInsn.Computes
      rw [i.lift_eq cfg, hform]
      have hrun := run_product cfg (s := s) (y := x) (z := y) i.insn hvalid.1
      rw [Nat.mod_eq_of_lt (operand_lt cfg hvalid.1)] at hrun
      exact hrun
  | three x y z =>
      rw [hform] at hvalid
      rw [if_neg (show ¬ (MulForm.three x y z).Narrow from id)]
      unfold MulInsn.Computes
      rw [i.lift_eq cfg, hform]
      exact run_product cfg i.insn hvalid.1

end

/-- `mul` of a part of `rbx`. -/
def mulBx (w : Width) : MulInsn where
  insn := ⟨.mul, [.reg (.gpr 3 w)], 0x401000, "mul", [.read (.reg 0), .read (.reg 3)],
    [.reg 0, .flag .cf, .flag .of]⟩
  form := .one .mul (.reg (.gpr 3 w))
  valid := trivial
  mnemonic := rfl
  ops := rfl

def twoThree : State := ⟨fun l => if l = .reg 0 then 2 else if l = .reg 3 then 3
  else if l = .flag .cf then 1 else 0, fun _ => 0⟩

theorem liftMul_computes_mulEbx : (mulBx .b32).Computes ⟨64, false⟩ twoThree := by
  have h := liftMul_computes (mulBx .b32) ⟨64, false⟩ twoThree fun ⟨_, h, _⟩ => nomatch h
  rwa [if_neg (by decide)] at h

/-- A product of 8 bits is not computed. -/
theorem not_liftMul_exact : ¬ (mulBx .b8).Computes ⟨64, false⟩ twoThree := by
  rintro ⟨s', hrun, -⟩
  have hfault : run ((mulBx .b8).insn.lift ⟨64, false⟩) twoThree = .error .unmodelled := rfl
  cases hfault.symm.trans hrun

end Aret.Lift
