/-
The names of parts of a register.
-/
import Aret.Fields
import Aret.LiftRun

namespace Aret.Lift

open Alu

/-! ### The processor -/

def Register.pos : Register → ℕ
  | .gpr .. => 0
  | .high _ => 8

abbrev Cpu := ℕ → ℕ

def Cpu.read (c : Cpu) (r : Register) : ℕ := Fields.get (c r.id) r.pos r.width.bits

def Cpu.write (c : Cpu) (r : Register) (v : ℕ) : Cpu :=
  Function.update c r.id
    (if r.width = .b32 then v % 2 ^ 32 else Fields.put (c r.id) r.pos r.width.bits v)

theorem Cpu.testBit_write (c : Cpu) (r : Register) (v i : ℕ) :
    (c.write r v r.id).testBit i =
      if r.pos ≤ i ∧ i < r.pos + r.width.bits then v.testBit (i - r.pos)
      else if r.width = .b32 then false else (c r.id).testBit i := by
  rw [Cpu.write, Function.update_self]
  by_cases hw : r.width = .b32
  · have hpos : r.pos = 0 := by
      cases r with
      | gpr f w => rfl
      | high f => exact absurd hw nofun
    have h32 : r.width.bits = 32 := by rw [hw]; rfl
    rw [if_pos hw, Nat.testBit_mod_two_pow, hpos, h32, if_pos hw]
    by_cases hi : i < 32
    · rw [if_pos ⟨Nat.zero_le i, by omega⟩]
      simp only [hi, decide_true, Bool.true_and, Nat.sub_zero]
    · rw [if_neg (by omega)]
      simp only [hi, decide_false, Bool.false_and]
  · rw [if_neg hw, Fields.testBit_put, if_neg hw]

/-! ### Locations that are not assigned -/

section
variable {s : State} {v : Word} {r t : ℕ} {k : FlagKind} {d : ℤ}

@[simp] theorem set_reg_flag : (s.set (.reg r) v).loc (.flag k) = s.loc (.flag k) :=
  set_loc_of_ne nofun

@[simp] theorem set_temp_reg : (s.set (.temp t) v).loc (.reg r) = s.loc (.reg r) :=
  set_loc_of_ne nofun

@[simp] theorem set_temp_flag : (s.set (.temp t) v).loc (.flag k) = s.loc (.flag k) :=
  set_loc_of_ne nofun

@[simp] theorem set_flag_reg : (s.set (.flag k) v).loc (.reg r) = s.loc (.reg r) :=
  set_loc_of_ne nofun

@[simp] theorem set_flag_temp : (s.set (.flag k) v).loc (.temp t) = s.loc (.temp t) :=
  set_loc_of_ne nofun

@[simp] theorem set_flag_frame : (s.set (.flag k) v).loc (.frame d) = s.loc (.frame d) :=
  set_loc_of_ne nofun

@[simp] theorem set_temp_frame : (s.set (.temp t) v).loc (.frame d) = s.loc (.frame d) :=
  set_loc_of_ne nofun

@[simp] theorem set_reg_frame : (s.set (.reg r) v).loc (.frame d) = s.loc (.frame d) :=
  set_loc_of_ne nofun

end

/-! ### The location that is written -/

/-- What `write_reg` makes of the location of a register. -/
def newReg (cfg : Config) (r : Register) (old v : Word) : Word :=
  match r with
  | .high _ => old &&& BitVec.ofInt 64 (mask 64 - 0xff00) ||| (v &&& 0xff#64) <<< 8
  | .gpr _ w =>
    if 64 ≤ w.bits ∨ cfg.bits ≤ w.bits then v
    else if w.bits = 32 then v &&& BitVec.ofInt 64 (mask 32)
    else old &&& BitVec.ofInt 64 (mask 64 - mask w.bits) ||| v &&& BitVec.ofInt 64 (mask w.bits)

section
variable {cfg : Config} {s : State} {e : Expr} {v : Word} {r : Register}

theorem value_combine (l : Location) (w : Width) (f : ℕ) (h : value s e = .ok v) :
    value s (combineWrite cfg l w.bits e) = .ok (newReg cfg (.gpr f w) (s.loc l) v) := by
  unfold combineWrite newReg
  dsimp only
  split
  · exact h
  split
  · rw [value_and h (value_konst _)]
  · rw [value_bin (value_and (value_read l) (value_konst _)) (value_and h (value_konst _))]
    rfl

theorem run_writeReg (cfg : Config) (r : Register) (h : value s e = .ok v) :
    run (writeReg cfg r e) s = .ok (s.set (.reg r.id) (newReg cfg r (s.loc (.reg r.id)) v)) := by
  cases r with
  | high f =>
      apply run_set
      rw [value_bin (value_and (value_read _) (value_konst _))
        (value_bin (value_and h (value_konst _)) (value_konst _))]
      rfl
  | gpr f w => exact run_set (value_combine (.reg f) w f h)

end

theorem getLsbD_mask (w : Width) {i : ℕ} :
    (BitVec.ofInt 64 (mask w.bits)).getLsbD i = decide (i < w.bits) := by
  rw [← BitVec.testBit_toNat, toNat_mask, Width.size, Nat.testBit_two_pow_sub_one]

theorem getLsbD_keep (w : Width) {i : ℕ} (hi : i < 64) :
    (BitVec.ofInt 64 (mask 64 - mask w.bits)).getLsbD i = !decide (i < w.bits) := by
  have hnot : BitVec.ofInt 64 (mask 64 - mask w.bits) = ~~~BitVec.ofInt 64 (mask w.bits) := by
    cases w <;> decide
  rw [hnot, BitVec.getLsbD_not, getLsbD_mask]
  simp only [hi, decide_true, Bool.true_and]

theorem getLsbD_newReg {cfg : Config} (hcfg : cfg.bits = 32 ∨ cfg.bits = 64) {r : Register}
    (hr : r.width.bits ≤ cfg.bits) (old v : Word) {i : ℕ} (hi : i < cfg.bits) :
    (newReg cfg r old v).getLsbD i =
      if r.pos ≤ i ∧ i < r.pos + r.width.bits then v.getLsbD (i - r.pos)
      else if r.width = .b32 then false else old.getLsbD i := by
  have h64 : i < 64 := by omega
  cases r with
  | high f =>
      have hbyte : ∀ j, (0xff#64).getLsbD j = decide (j < 8) := by
        intro j
        exact getLsbD_mask .b8
      have hkeep : BitVec.ofInt 64 (mask 64 - 0xff00) = ~~~((0xff#64) <<< 8) := by decide
      show BitVec.getLsbD (_ ||| _ : Word) i = if 8 ≤ i ∧ i < 8 + 8 then _ else if Width.b8 = .b32 then _ else _
      rw [hkeep, BitVec.getLsbD_or, BitVec.getLsbD_and, BitVec.getLsbD_not,
        BitVec.getLsbD_shiftLeft, BitVec.getLsbD_shiftLeft, BitVec.getLsbD_and, hbyte,
        if_neg (show ¬ Width.b8 = .b32 by decide)]
      show _ = if _ then v.getLsbD (i - 8) else _
      -- Below the byte, in it, and above.
      by_cases hlow : i < 8
      · rw [if_neg (by omega)]
        simp [h64, hlow]
      by_cases hmid : i < 16
      · have hlt : i - 8 < 8 := by omega
        rw [if_pos (by omega)]
        simp [h64, hlow, hlt]
      · have hge : ¬ i - 8 < 8 := by omega
        rw [if_neg (by omega)]
        simp [h64, hge]
  | gpr f w =>
      show BitVec.getLsbD (if 64 ≤ w.bits ∨ cfg.bits ≤ w.bits then v else _ : Word) i =
        if 0 ≤ i ∧ i < 0 + w.bits then v.getLsbD (i - 0) else if w = .b32 then _ else _
      rw [Nat.zero_add, Nat.sub_zero]
      by_cases hfull : 64 ≤ w.bits ∨ cfg.bits ≤ w.bits
      · rw [if_pos hfull, if_pos (by omega)]
      rw [if_neg hfull]
      by_cases h32 : w.bits = 32
      · have hw : w = .b32 := by cases w <;> first | rfl | exact absurd h32 (by decide)
        rw [if_pos h32, if_pos hw, BitVec.getLsbD_and, show mask 32 = mask Width.b32.bits from rfl,
          getLsbD_mask, h32]
        by_cases hlt : i < 32
        · rw [if_pos (by omega)]
          simp [hlt, Width.bits]
        · rw [if_neg (by omega)]
          simp [hlt, Width.bits]
      · have hw : ¬ w = .b32 := fun h => h32 (by rw [h]; rfl)
        rw [if_neg h32, if_neg hw, BitVec.getLsbD_or, BitVec.getLsbD_and, BitVec.getLsbD_and,
          getLsbD_mask, getLsbD_keep w h64]
        by_cases hlt : i < w.bits
        · rw [if_pos (by omega)]
          simp [hlt]
        · rw [if_neg (by omega)]
          simp [hlt]

/-! ### Sequences of writes -/

def Holds (cfg : Config) (s : State) (c : Cpu) : Prop :=
  ∀ f, ∀ i < cfg.bits, (s.loc (.reg f)).getLsbD i = (c f).testBit i

theorem Holds.write {cfg : Config} (hcfg : cfg.bits = 32 ∨ cfg.bits = 64) {s : State} {c : Cpu}
    (h : Holds cfg s c) {r : Register} (hr : r.width.bits ≤ cfg.bits) (v : Word) :
    Holds cfg (s.set (.reg r.id) (newReg cfg r (s.loc (.reg r.id)) v)) (c.write r v.toNat) := by
  intro f i hi
  by_cases hf : f = r.id
  · subst hf
    rw [set_loc_self, getLsbD_newReg hcfg hr _ _ hi, Cpu.testBit_write, h _ i hi,
      BitVec.testBit_toNat]
  · rw [set_loc_of_ne (by simpa using hf), h f i hi, Cpu.write, Function.update_of_ne hf]

theorem Holds.read {cfg : Config} {s : State} {c : Cpu} (h : Holds cfg s c) {r : Register}
    (hr : r.pos + r.width.bits ≤ cfg.bits) :
    value s (readReg r) = .ok (BitVec.ofNat 64 (c.read r)) := by
  rw [value_readReg]
  have hget : s.regVal r = Fields.get (s.loc (.reg r.id)).toNat r.pos r.width.bits := by
    cases r with
    | gpr f w =>
        show _ = _ / 2 ^ 0 % _
        rw [pow_zero, Nat.div_one]
        rfl
    | high f => rfl
  rw [hget, Cpu.read]
  congr 2
  apply Fields.get_congr
  intro i hi
  rw [BitVec.testBit_toNat, h _ _ (by omega)]

/-- Writes through names, one after the other, of the values that the expressions have by then: as
lifted, and by the processor. -/
def writeAll (cfg : Config) : List (Register × Expr) → State → Cpu → Except Fault (State × Cpu)
  | [], s, c => .ok (s, c)
  | (r, e) :: ws, s, c => do
    let v ← value s e
    let s' ← run (writeReg cfg r e) s
    writeAll cfg ws s' (c.write r v.toNat)

theorem writeAll_cons {cfg : Config} {r : Register} {e : Expr} {ws : List (Register × Expr)}
    {s : State} {c : Cpu} {v : Word} (h : value s e = .ok v) :
    writeAll cfg ((r, e) :: ws) s c =
      writeAll cfg ws (s.set (.reg r.id) (newReg cfg r (s.loc (.reg r.id)) v))
        (c.write r v.toNat) := by
  simp only [writeAll, h, run_writeReg cfg r h]
  rfl

theorem holds_writeAll {cfg : Config} (hcfg : cfg.bits = 32 ∨ cfg.bits = 64)
    (ws : List (Register × Expr)) {s s' : State} {c c' : Cpu} (h : Holds cfg s c)
    (hws : ∀ p ∈ ws, p.1.width.bits ≤ cfg.bits) (hrun : writeAll cfg ws s c = .ok (s', c')) :
    Holds cfg s' c' := by
  induction ws generalizing s c with
  | nil =>
      cases hrun
      exact h
  | cons p ws ih =>
      obtain ⟨r, e⟩ := p
      have hr : r.width.bits ≤ cfg.bits := hws (r, e) List.mem_cons_self
      cases he : value s e with
      | error f =>
          simp only [writeAll, he] at hrun
          cases hrun
      | ok v =>
          rw [writeAll_cons he] at hrun
          exact ih (h.write hcfg hr v) (fun p hp => hws p (List.mem_cons_of_mem _ hp)) hrun

end Aret.Lift
