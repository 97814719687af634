/-
Where an operand is, and what a write of it leaves.
-/
import Aret.SubReg

namespace Aret.Lift

open Alu

/-! ### Addresses -/

def Memory.effective (s : State) (m : Memory) : ℤ :=
  match m.ripAddress with
  | some a => a
  | none =>
    (match m.base with
      | some b => (s.regVal b : ℤ)
      | none => 0) +
    (match m.index with
      | some i => (s.regVal i : ℤ) * m.scale
      | none => 0) + m.disp

theorem value_addr (s : State) (m : Memory) :
    value s m.addr = .ok (BitVec.ofInt 64 (m.effective s)) := by
  obtain ⟨rip, base, index, scale, disp, w⟩ := m
  have hreg : ∀ r, value s (readReg r) = .ok (BitVec.ofInt 64 (s.regVal r)) := by
    intro r
    rw [value_readReg, ofInt_nat]
  have hadd : ∀ {a b : Expr} {x y : ℤ}, value s a = .ok (BitVec.ofInt 64 x) →
      value s b = .ok (BitVec.ofInt 64 y) →
      value s (bin .add a b) = .ok (BitVec.ofInt 64 (x + y)) := by
    intro a b x y ha hb
    rw [value_bin ha hb, BitVec.ofInt_add]
    rfl
  have hscaled : ∀ i, value s (if scale = 1 then readReg i
      else bin .mul (readReg i) (konst scale)) =
        .ok (BitVec.ofInt 64 (s.regVal i * scale)) := by
    intro i
    split
    · rename_i h
      rw [hreg, h, Nat.cast_one, mul_one]
    · rw [value_bin (hreg i) (value_konst _), BitVec.ofInt_mul]
      rfl
  have hdisp : ∀ {e : Expr} {x : ℤ}, value s e = .ok (BitVec.ofInt 64 x) →
      value s (if disp ≠ 0 then bin .add e (konst disp) else e) =
        .ok (BitVec.ofInt 64 (x + disp)) := by
    intro e x h
    split
    · exact hadd h (value_konst disp)
    · rename_i h0
      rw [h, not_not.mp h0, add_zero]
  unfold Memory.addr Memory.effective
  cases rip with
  | some a => rfl
  | none =>
      dsimp only
      cases base with
      | none =>
          cases index with
          | none =>
              dsimp only
              rw [value_konst, add_zero, zero_add]
          | some i =>
              dsimp only
              rw [zero_add]
              exact hdisp (hscaled i)
      | some b =>
          cases index with
          | none =>
              dsimp only
              rw [add_zero]
              exact hdisp (hreg b)
          | some i => exact hdisp (hadd (hreg b) (hscaled i))

def IsAt (cfg : Config) (a : Word) (p : ℤ) : Prop := (a.toNat : ℤ) % 2 ^ cfg.bits = p % 2 ^ cfg.bits

theorem isAt_ofInt {cfg : Config} (hcfg : cfg.bits = 32 ∨ cfg.bits = 64) (p : ℤ) :
    IsAt cfg (BitVec.ofInt 64 p) p := by
  have hpos : 0 ≤ p % 2 ^ 64 := Int.emod_nonneg _ (by decide)
  have hnat : ((BitVec.ofInt 64 p).toNat : ℤ) = p % 2 ^ 64 := by
    rw [BitVec.toNat_ofInt]
    exact Int.toNat_of_nonneg hpos
  have hdvd : (2 : ℤ) ^ cfg.bits ∣ 2 ^ 64 := pow_dvd_pow 2 (by omega)
  rw [IsAt, hnat, Int.emod_emod_of_dvd p hdvd]

/-! ### Writes -/

def Operand.bytes (o : Operand) : ℕ := o.width.bits / 8

def State.cpu (s : State) : Cpu := fun f => (s.loc (.reg f)).toNat

/-- The processor's write of a value to an operand, and nothing else but flags. -/
def Wrote (cfg : Config) (o : Operand) (v : ℕ) (s s' : State) : Prop :=
  match o with
  | .reg r =>
    (∀ f ≠ r.id, s'.loc (.reg f) = s.loc (.reg f)) ∧
      (∀ i < cfg.bits, (s'.loc (.reg r.id)).getLsbD i = (s.cpu.write r v r.id).testBit i) ∧
      (∀ d, s'.loc (.frame d) = s.loc (.frame d)) ∧ s'.mem = s.mem
  | .imm _ => False
  | .mem m =>
    match m.frameDisp cfg with
    | some d =>
      (s'.loc (.frame d)).toNat = Fields.put (s.loc (.frame d)).toNat 0 m.width.bits v ∧
        (∀ d' ≠ d, s'.loc (.frame d') = s.loc (.frame d')) ∧ SameRegs s s' ∧ s'.mem = s.mem
    | none =>
      SameRegs s s' ∧ (∀ d, s'.loc (.frame d) = s.loc (.frame d)) ∧
        ∃ a, IsAt cfg a (m.effective s) ∧ s'.mem = writeBytes s.mem a (m.width.bits / 8) v

def written (cfg : Config) (o : Operand) (v : Word) (s : State) : State :=
  match o with
  | .reg r => s.set (.reg r.id) (newReg cfg r (s.loc (.reg r.id)) v)
  | .imm _ => s
  | .mem m =>
    match m.frameDisp cfg with
    | some d => s.set (.frame d) (newReg cfg (.gpr 0 m.width) (s.loc (.frame d)) v)
    | none =>
      ⟨s.loc, writeBytes s.mem (BitVec.ofInt 64 (m.effective s)) (m.width.bits / 8) v.toNat⟩

theorem ctypeBytes_eq (w : Width) : ctypeBytes (intBits (.ofBits w.bits)) = w.bits / 8 := by
  cases w <;> rfl

theorem run_writeOp {s : State} {e : Expr} {v : Word} (cfg : Config) {o : Operand} (ho : o.isPlace)
    (h : value s e = .ok v) :
    ∃ ws, writeOp cfg o e = some ws ∧ run ws s = .ok (written cfg o v s) := by
  cases o with
  | imm u => exact ho.elim
  | reg r => exact ⟨_, rfl, run_writeReg cfg r h⟩
  | mem m =>
      cases hd : m.frameDisp cfg with
      | some d =>
          refine ⟨[.set (.frame d) (combineWrite cfg (.frame d) m.width.bits e)], ?_, ?_⟩
          · simp only [writeOp, hd]
          · rw [run_set (value_combine (.frame d) m.width 0 h)]
            simp only [written, hd]
            rfl
      | none =>
          refine ⟨[.store m.addr e (.ofBits m.width.bits)], ?_, ?_⟩
          · simp only [writeOp, hd]
          · simp only [run, value_addr, h, written, hd, ← ctypeBytes_eq]
            rfl

/-- The lifted write keeps what a named slot holds above 32 bits, where it writes so many. -/
def SlotKept (cfg : Config) (o : Operand) (v : Word) (s : State) : Prop :=
  match o with
  | .mem m =>
    match m.frameDisp cfg with
    | some d => m.width = .b32 →
      ∀ i < 64, 32 ≤ i → (newReg cfg (.gpr 0 .b32) (s.loc (.frame d)) v).getLsbD i =
        (s.loc (.frame d)).getLsbD i
    | none => True
  | _ => True

theorem getLsbD_newSlot {cfg : Config} (hcfg : cfg.bits = 32 ∨ cfg.bits = 64) {w : Width}
    (hw : w ≠ .b32) (old v : Word) {i : ℕ} (hi : i < 64) :
    (newReg cfg (.gpr 0 w) old v).getLsbD i =
      if i < w.bits then v.getLsbD i else old.getLsbD i := by
  have h64 : newReg cfg (.gpr 0 w) old v = newReg ⟨64, true⟩ (.gpr 0 w) old v := by
    cases w with
    | b32 => exact absurd rfl hw
    | b8 => rcases hcfg with h | h <;> simp [newReg, h, Width.bits]
    | b16 => rcases hcfg with h | h <;> simp [newReg, h, Width.bits]
    | b64 => simp [newReg, Width.bits]
  have hle : (Register.gpr 0 w).width.bits ≤ (⟨64, true⟩ : Config).bits := w.bits_le
  have hwidth : ¬ (Register.gpr 0 w).width = .b32 := hw
  rw [h64, getLsbD_newReg (.inr rfl) hle old v hi, if_neg hwidth]
  show (if 0 ≤ i ∧ i < 0 + w.bits then v.getLsbD (i - 0) else _) = _
  simp

theorem getLsbD_newSlot_b32 (cfg : Config) (hcfg : cfg.bits = 32 ∨ cfg.bits = 64) (old v : Word)
    {i : ℕ} (hi : i < 32) : (newReg cfg (.gpr 0 .b32) old v).getLsbD i = v.getLsbD i := by
  have hlt : i < cfg.bits := by omega
  have hle : (Register.gpr 0 .b32).width.bits ≤ cfg.bits := by
    show 32 ≤ cfg.bits
    omega
  have hin : 0 ≤ i ∧ i < 0 + 32 := by omega
  rw [getLsbD_newReg hcfg hle old v hlt]
  exact if_pos hin

theorem wrote_written_iff {cfg : Config} (hcfg : cfg.bits = 32 ∨ cfg.bits = 64) {o : Operand}
    (ho : o.isPlace) (hle : ∀ r, o = .reg r → r.width.bits ≤ cfg.bits) (v : Word) (s : State) :
    Wrote cfg o v.toNat s (written cfg o v s) ↔ SlotKept cfg o v s := by
  cases o with
  | imm u => exact ho.elim
  | reg r =>
      refine ⟨fun _ => trivial, fun _ => ⟨?_, ?_, ?_, rfl⟩⟩
      · intro f hf
        exact set_loc_of_ne (by simpa using hf)
      · intro i hi
        show ((s.set (.reg r.id) _).loc (.reg r.id)).getLsbD i = _
        rw [set_loc_self, getLsbD_newReg hcfg (hle r rfl) _ _ hi, Cpu.testBit_write,
          BitVec.testBit_toNat]
        rfl
      · intro d
        exact set_loc_of_ne nofun
  | mem m =>
      cases hd : m.frameDisp cfg with
      | none =>
          simp only [Wrote, written, SlotKept, hd]
          refine ⟨fun _ => trivial, fun _ => ⟨fun _ => rfl, fun _ => trivial, ?_⟩⟩
          exact ⟨_, isAt_ofInt hcfg _, rfl⟩
      | some d =>
          simp only [Wrote, written, SlotKept, hd, set_loc_self, set_mem]
          have hrest : (∀ d' ≠ d, (s.set (.frame d)
              (newReg cfg (.gpr 0 m.width) (s.loc (.frame d)) v)).loc (.frame d') =
                s.loc (.frame d')) ∧
              SameRegs s (s.set (.frame d) (newReg cfg (.gpr 0 m.width) (s.loc (.frame d)) v)) ∧
              True :=
            ⟨fun d' h => set_loc_of_ne (by simpa using h), fun r => set_loc_of_ne nofun, trivial⟩
          -- Both sides compare the slot bit by bit.
          have hbits : (newReg cfg (.gpr 0 m.width) (s.loc (.frame d)) v).toNat =
              Fields.put (s.loc (.frame d)).toNat 0 m.width.bits v.toNat ↔
              ∀ i < 64, (newReg cfg (.gpr 0 m.width) (s.loc (.frame d)) v).getLsbD i =
                if i < m.width.bits then v.getLsbD i else (s.loc (.frame d)).getLsbD i := by
            have hput : ∀ i, (Fields.put (s.loc (.frame d)).toNat 0 m.width.bits v.toNat).testBit i =
                if i < m.width.bits then v.getLsbD i else (s.loc (.frame d)).getLsbD i := by
              intro i
              rw [Fields.testBit_put]
              simp [BitVec.testBit_toNat]
            constructor
            · intro h i _
              rw [← BitVec.testBit_toNat, h, hput]
            · intro h
              apply Nat.eq_of_testBit_eq
              intro i
              rw [BitVec.testBit_toNat, hput]
              by_cases hi : i < 64
              · exact h i hi
              · have hw := m.width.bits_le
                rw [BitVec.getLsbD_of_ge _ _ (by omega), if_neg (by omega),
                  BitVec.getLsbD_of_ge _ _ (by omega)]
          rw [hbits]
          refine ⟨fun h hw i hi h32 => ?_, fun h => ⟨fun i hi => ?_, hrest⟩⟩
          · have hbit := h.1 i hi
            rw [hw, if_neg (show ¬ i < Width.b32.bits from Nat.not_lt.mpr h32)] at hbit
            exact hbit
          · by_cases hw : m.width = .b32
            · rw [hw]
              by_cases h32 : i < 32
              · rw [if_pos (show i < Width.b32.bits from h32), getLsbD_newSlot_b32 cfg hcfg _ _ h32]
              · rw [if_neg (show ¬ i < Width.b32.bits from h32)]
                exact h hw i hi (by omega)
            · exact getLsbD_newSlot hcfg hw _ _ hi

/-! ### A write after statements that change neither registers nor memory -/

section
variable {cfg : Config} {o : Operand} {s s₁ s' : State}

theorem effective_congr (h : SameRegs s s₁) (m : Memory) : m.effective s₁ = m.effective s := by
  obtain ⟨rip, base, index, scale, disp, w⟩ := m
  cases rip <;> cases base <;> cases index <;> simp only [Memory.effective, regVal_congr h]

theorem cpu_congr (h : SameRegs s s₁) : s₁.cpu = s.cpu := by
  funext f
  exact congrArg BitVec.toNat (h f)

theorem wrote_congr (h : Same s s₁) {v : ℕ} : Wrote cfg o v s₁ s' ↔ Wrote cfg o v s s' := by
  cases o with
  | imm u => exact Iff.rfl
  | reg r => simp only [Wrote, h.reg, h.frame, h.mem, cpu_congr h.reg]
  | mem m =>
      simp only [Wrote, SameRegs, h.reg, h.frame, h.mem, effective_congr h.reg]

theorem slotKept_congr (h : Same s s₁) {v : Word} : SlotKept cfg o v s₁ ↔ SlotKept cfg o v s := by
  cases o with
  | mem m => simp only [SlotKept, h.frame]
  | _ => exact Iff.rfl

theorem written_flag {v : Word} (k : FlagKind) :
    (written cfg o v s).loc (.flag k) = s.loc (.flag k) := by
  cases o with
  | imm u => rfl
  | reg r => exact set_reg_flag
  | mem m =>
      simp only [written]
      cases m.frameDisp cfg with
      | some d => exact set_loc_of_ne (by rintro ⟨⟩)
      | none => rfl

theorem run_finish_written {i : Insn} {pre : List Stmt} {e : Expr} {v : Word} (ho : o.isPlace)
    (hpre : run pre s = .ok s₁) (hv : value s₁ e = .ok v) :
    run (i.finish cfg o pre e) s = .ok (written cfg o v s₁) := by
  obtain ⟨ws, hws, hrun⟩ := run_writeOp cfg ho hv
  rw [Insn.finish, hws]
  exact (run_append_ok hpre).trans hrun

end

end Aret.Lift
