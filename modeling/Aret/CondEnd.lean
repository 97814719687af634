/-
The end of a block that a conditional jump ends.

The disassembler takes every conditional branch for a conditional jump: besides the
jumps on flags also `loop`, `loope` and `loopne`, which count a register down, and
`jcxz` with its wider forms, which test it.  `build_ir` branches on the condition
code of the instruction, and does not lift the instruction itself.

* `condJump_exact_iff` — the jumps for which this is what the processor does.

Design notes: the condition code of an instruction is what the decoder says it is;
of it only the documented codes of jumps on flags and of `jcxz` are used.
-/
import Aret.BuildIrShape
import Aret.SubReg

namespace Aret.Lift

open Alu

/-! ### The processor -/

inductive LoopKind
  | loop | loope | loopne
  deriving DecidableEq, Repr

/-- A conditional branch; a width is that of its addresses, hence of the register that counts. -/
inductive CondJump
  | jcc (c : ConditionCode) (h : c ≠ .none)
  | loop (kind : LoopKind) (w : Width)
  | jcxz (w : Width)

/-- `cx`, `ecx` or `rcx`. -/
abbrev counter (w : Width) : Register := .gpr 1 w

def ConditionCode.met (fl : FlagKind → Bool) : ConditionCode → Bool
  | .none => true
  | .o => fl .of
  | .no => !fl .of
  | .b => fl .cf
  | .ae => !fl .cf
  | .e => fl .zf
  | .ne => !fl .zf
  | .be => fl .cf || fl .zf
  | .a => !(fl .cf || fl .zf)
  | .s => fl .sf
  | .ns => !fl .sf
  | .p => fl .pf
  | .np => !fl .pf
  | .l => fl .sf != fl .of
  | .ge => fl .sf == fl .of
  | .le => fl .zf || (fl .sf != fl .of)
  | .g => !fl .zf && (fl .sf == fl .of)

def LoopKind.met (fl : FlagKind → Bool) : LoopKind → Bool
  | .loop => true
  | .loope => fl .zf
  | .loopne => !fl .zf

namespace CondJump

/-- The registers after the branch: the count goes down by one, and wraps at zero. -/
def regs (c : Cpu) : CondJump → Cpu
  | .loop _ w => c.write (counter w) (c.read (counter w) + (w.size - 1))
  | _ => c

def taken (c : Cpu) (fl : FlagKind → Bool) : CondJump → Bool
  | .jcc cc _ => cc.met fl
  | .loop kind w => decide (((loop kind w).regs c).read (counter w) ≠ 0) && kind.met fl
  | .jcxz w => decide (c.read (counter w) = 0)

end CondJump

/-- What the decoder documents of `condition_code`. -/
structure Documented (conditionCode : CondJump → ConditionCode) : Prop where
  jcc : ∀ c h, conditionCode (.jcc c h) = c
  jcxz : ∀ w, conditionCode (.jcxz w) = .none

/-! ### The block -/

/-- The instructions of a block that are lifted: all but a control transfer at its end. -/
def bodyInsns (b : BasicBlock) : List Aret.Insn :=
  if b.terminator.terminates then b.insns.dropLast else b.insns

structure RowLifter where
  fullRegister : ℕ → ℕ
  regValue : ℕ → Option Expr
  row : Program → Function → ℕ → List Aret.Insn → List Stmt
  fpReturn : Function → List Stmt
  row_not_control : ∀ p f a is, ∀ s ∈ row p f a is, s.isControl = false
  fpReturn_not_control : ∀ f, ∀ s ∈ fpReturn f, s.isControl = false

def RowLifter.lifter (l : RowLifter) : Lifter where
  fullRegister := l.fullRegister
  regValue := l.regValue
  body p f b := l.row p f b.start (bodyInsns b)
  fpReturn := l.fpReturn
  body_not_control p f b := l.row_not_control p f b.start (bodyInsns b)
  fpReturn_not_control := l.fpReturn_not_control

section
variable (l : RowLifter) (prog : Program) (f : Function)

/-- The statements of the body of block `k` in the IR. -/
def bodyStmts (k : ℕ) (b : BasicBlock) : List Stmt :=
  nameBlock prog ((entryImports l.lifter prog f).getD k []) (l.row prog f b.start (bodyInsns b))

/-- The statements that the last instruction of block `k` adds. -/
def terminatorStmts (k : ℕ) (b : BasicBlock) : List Stmt :=
  ((buildIr l.lifter prog f).blocks.getD k default).stmts.drop (bodyStmts l prog f k b).length

end

def runBranch : List Stmt → State → Except Fault (State × Bool)
  | [.branch c _ _], s => do
    let v ← value s c
    .ok (s, decide (v ≠ 0))
  | st :: rest, s => do
    let s' ← run [st] s
    runBranch rest s'
  | [], _ => .error .unmodelled

/-- The locations hold the processor's registers and flags. -/
structure HoldsAll (cfg : Config) (s : State) (c : Cpu) (fl : FlagKind → Bool) : Prop where
  regs : Holds cfg s c
  flags : ∀ k, s.loc (.flag k) = ofBool (fl k)

/-- Run from a state that holds the processor's, the statements branch when it does, and leave its
registers. -/
def CondJump.ExactIn (i : CondJump) (cfg : Config) (stmts : List Stmt) (s : State) (c : Cpu)
    (fl : FlagKind → Bool) : Prop :=
  ∃ s', runBranch stmts s = .ok (s', i.taken c fl) ∧ HoldsAll cfg s' (i.regs c) fl ∧
    s'.mem = s.mem

/-- The conditional jumps that a branch on their condition code does justice to. -/
def CondJump.OnFlags (i : CondJump) (c : Cpu) : Prop :=
  match i with
  | .jcc .. => True
  | .loop .. => False
  | .jcxz w => c.read (counter w) = 0

/-! ### The branch -/

section
variable {prog : Program} {held : HeldImports}

theorem nameCallsInExpr_ccToCond (c : ConditionCode) :
    nameCallsInExpr prog held false (ccToCond c) = ccToCond c := by
  cases c <;> simp [ccToCond, lnot, bin, readFlag, konst, nameCallsInExpr, Expr.konst]

theorem popAfter_ccToCond (c : ConditionCode) (t fall : ℕ) :
    popAfter prog held (.branch (ccToCond c) t fall) = none := by
  have hnone : regcallPop prog held (ccToCond c) = none := by
    cases c <;> simp [ccToCond, lnot, bin, readFlag, konst, regcallPop, Expr.konst]
  rw [popAfter, stdcallPopForRegcall, hnone, ite_self]

end

theorem terminatorStmts_eq {l : RowLifter} {prog : Program} {f : Function} {k : ℕ}
    {b : BasicBlock} {last : Aret.Insn} {cc : ConditionCode} (hb : f.blocks[k]? = some b)
    (hterm : b.terminator = .condJump) (hlast : b.insns.getLast? = some last)
    (hcond : last.raw.cond = ccToCond cc)
    (hbranch : ∃ e t fall, (terminatorStmts l prog f k b).getLast? = some (.branch e t fall)) :
    ∃ t fall, terminatorStmts l prog f k b = [.branch (ccToCond cc) t fall] := by
  have hend : endOf l.lifter prog f k = condJumpEnd prog f
      (f.blocks.length + (tailTargets prog f (f.blocks.take k)).length) b last := by
    rw [endOf_eq hb hlast, blockEnd, hterm]
  -- A conditional jump adds no statement before its terminator, which is a branch or an abort.
  have hcases : ∃ st, (endOf l.lifter prog f k).before = [] ∧
      (endOf l.lifter prog f k).last = some st ∧
      ((∃ t fall, st = .branch (ccToCond cc) t fall) ∨ ∃ text, st = .asm text) := by
    rw [hend, condJumpEnd, hcond]
    split
    · exact ⟨_, rfl, rfl, .inl ⟨_, _, rfl⟩⟩
    · split
      · exact ⟨_, rfl, rfl, .inl ⟨_, _, rfl⟩⟩
      · exact ⟨_, rfl, rfl, .inr ⟨_, rfl⟩⟩
    · exact ⟨_, rfl, rfl, .inr ⟨_, rfl⟩⟩
  obtain ⟨st, hbefore, hst, hkind⟩ := hcases
  have hbody : bodyOf l.lifter prog f k = l.row prog f b.start (bodyInsns b) := by
    rw [bodyOf_eq hb, hbefore, List.append_nil]
    rfl
  have hstmts : terminatorStmts l prog f k b =
      nameCallsInStmt prog (heldAtEnd l.lifter prog f k) st ::
        ((popAfter prog (heldAtEnd l.lifter prog f k) st).map addEsp).toList := by
    rw [terminatorStmts, List.getD_eq_getElem?_getD, buildIr_getElem?, rawBlocks_real hb]
    show List.drop _ (nameBlock prog _ (bodyOf l.lifter prog f k ++ _)) = _
    rw [hst, Option.toList_some, nameBlock_snoc, heldAtEnd, hbody]
    exact List.drop_left
  rw [hstmts] at hbranch ⊢
  rcases hkind with ⟨t, fall, rfl⟩ | ⟨text, rfl⟩
  · rw [popAfter_ccToCond, nameCallsInStmt, nameCallsInExpr_ccToCond]
    exact ⟨t, fall, rfl⟩
  · obtain ⟨e, t, fall, h⟩ := hbranch
    rw [popAfter_of_isAsm _ _ rfl] at h
    cases h

theorem value_ccToCond {s : State} {fl : FlagKind → Bool}
    (h : ∀ k, s.loc (.flag k) = ofBool (fl k)) (c : ConditionCode) :
    value s (ccToCond c) = .ok (ofBool (c.met fl)) := by
  have hfl : ∀ k, value s (readFlag k) = .ok (ofBool (fl k)) := fun k => by
    rw [value_readFlag, h]
  have hne : value s (bin .ne (readFlag .sf) (readFlag .of)) = .ok (ofBool (fl .sf != fl .of)) := by
    rw [value_ne (hfl .sf) (hfl .of) rfl rfl]
    cases fl .sf <;> cases fl .of <;> decide
  cases c with
  | none => rfl
  | o => exact hfl .of
  | no => exact value_lnot (hfl .of) rfl
  | b => exact hfl .cf
  | ae => exact value_lnot (hfl .cf) rfl
  | e => exact hfl .zf
  | ne => exact value_lnot (hfl .zf) rfl
  | be => exact value_or_bool (hfl .cf) (hfl .zf)
  | a => exact value_lnot (value_or_bool (hfl .cf) (hfl .zf)) rfl
  | s => exact hfl .sf
  | ns => exact value_lnot (hfl .sf) rfl
  | p => exact hfl .pf
  | np => exact value_lnot (hfl .pf) rfl
  | l => exact hne
  | ge =>
      rw [ccToCond, value_lnot hne rfl, ConditionCode.met]
      cases fl .sf <;> cases fl .of <;> rfl
  | le => exact value_or_bool (hfl .zf) hne
  | g =>
      rw [ccToCond, value_lnot (value_or_bool (hfl .zf) hne) rfl, ConditionCode.met]
      cases fl .zf <;> cases fl .sf <;> cases fl .of <;> rfl

theorem testBit_countdown (c : Cpu) (w : Width) :
    (c.write (counter w) (c.read (counter w) + (w.size - 1)) 1).testBit 0 = !(c 1).testBit 0 := by
  have hpos : 0 < w.bits := w.bits_pos
  have hsize : w.size = 2 * 2 ^ (w.bits - 1) := by
    rw [← pow_succ', Nat.sub_add_cancel hpos]
    rfl
  have hhalf : 0 < 2 ^ (w.bits - 1) := Nat.two_pow_pos _
  have hread : c.read (counter w) % 2 = c 1 % 2 := by
    show c 1 / 2 ^ 0 % w.size % 2 = _
    rw [pow_zero, Nat.div_one, hsize, Nat.mod_mul_right_mod]
  have hwrite := c.testBit_write (counter w) (c.read (counter w) + (w.size - 1)) 0
  have hin : (counter w).pos ≤ 0 ∧ 0 < (counter w).pos + (counter w).width.bits := by
    constructor
    · exact le_refl 0
    · show 0 < 0 + w.bits
      omega
  rw [if_pos hin] at hwrite
  refine hwrite.trans ?_
  rw [Nat.zero_sub, Nat.testBit_zero, Nat.testBit_zero, ← decide_not]
  apply decide_eq_decide.mpr
  omega

theorem exactIn_branch_iff {conditionCode : CondJump → ConditionCode}
    (hdoc : Documented conditionCode) {cfg : Config} (hbits : 0 < cfg.bits) {s : State} {c : Cpu}
    {fl : FlagKind → Bool} (h : HoldsAll cfg s c fl) (i : CondJump) (t fall : ℕ) :
    i.ExactIn cfg [.branch (ccToCond (conditionCode i)) t fall] s c fl ↔ i.OnFlags c := by
  have hrun : runBranch [.branch (ccToCond (conditionCode i)) t fall] s =
      .ok (s, (conditionCode i).met fl) := by
    simp only [runBranch, value_ccToCond h.flags]
    cases (conditionCode i).met fl <;> rfl
  -- The state that is left is the one that was entered.
  have hexact : i.ExactIn cfg [.branch (ccToCond (conditionCode i)) t fall] s c fl ↔
      (conditionCode i).met fl = i.taken c fl ∧ Holds cfg s (i.regs c) := by
    constructor
    · rintro ⟨s', hs', hholds, -⟩
      rw [hrun] at hs'
      obtain ⟨rfl, htaken⟩ := Prod.mk.inj (Except.ok.inj hs')
      exact ⟨htaken, hholds.regs⟩
    · rintro ⟨htaken, hregs⟩
      exact ⟨s, by rw [hrun, htaken], ⟨hregs, h.flags⟩, rfl⟩
  rw [hexact]
  cases i with
  | jcc cc hcc =>
      rw [hdoc.jcc]
      exact iff_of_true ⟨rfl, h.regs⟩ trivial
  | loop kind w =>
      refine iff_of_false ?_ id
      rintro ⟨-, hregs⟩
      -- The count that the block leaves is the one before the instruction.
      have hold := h.regs 1 0 hbits
      have hnew := hregs 1 0 hbits
      rw [CondJump.regs, testBit_countdown, hold] at hnew
      cases hbit : (c 1).testBit 0 <;> simp [hbit] at hnew
  | jcxz w =>
      rw [hdoc.jcxz]
      constructor
      · rintro ⟨htaken, -⟩
        exact of_decide_eq_true (p := c.read (counter w) = 0) htaken.symm
      · intro hzero
        exact ⟨(decide_eq_true (p := c.read (counter w) = 0) hzero).symm, h.regs⟩

/-- **When the branch is the instruction's**: the branch that ends a block is taken when the
processor branches, and the block leaves the registers that it leaves, exactly for the jumps on
flags, and for a jump on a register that is zero. -/
theorem condJump_exact_iff {conditionCode : CondJump → ConditionCode}
    (hdoc : Documented conditionCode) {l : RowLifter} {prog : Program} {f : Function} {k : ℕ}
    {b : BasicBlock} {last : Aret.Insn} {i : CondJump}
    (hbits : prog.bits = 32 ∨ prog.bits = 64) (hb : f.blocks[k]? = some b)
    (hterm : b.terminator = .condJump) (hlast : b.insns.getLast? = some last)
    (hcond : last.raw.cond = ccToCond (conditionCode i))
    (hbranch : ∃ e t fall, (terminatorStmts l prog f k b).getLast? = some (.branch e t fall))
    {s : State} {c : Cpu} {fl : FlagKind → Bool} (h : HoldsAll ⟨prog.bits, false⟩ s c fl) :
    i.ExactIn ⟨prog.bits, false⟩ (terminatorStmts l prog f k b) s c fl ↔ i.OnFlags c := by
  obtain ⟨t, fall, hstmts⟩ := terminatorStmts_eq hb hterm hlast hcond hbranch
  rw [hstmts]
  exact exactIn_branch_iff hdoc (by show 0 < prog.bits; omega) h i t fall

/-! ### A block that counts down -/

def decodedCode : CondJump → ConditionCode
  | .jcc c _ => c
  | .loop .loope _ => .e
  | .loop .loopne _ => .ne
  | .loop .loop _ => .none
  | .jcxz _ => .none

theorem documented_decodedCode : Documented decodedCode := ⟨fun _ _ => rfl, fun _ => rfl⟩

/-- The conditional branch `i` to itself. -/
def selfBranch (i : CondJump) : Aret.Insn :=
  { plainInsn 0 .condJump (some 0) with
    raw := ⟨false, ccToCond (decodedCode i), none, none, none, none, false, none, 0⟩ }

def selfFunction (i : CondJump) : Function where
  entry := 0
  name := "sub_0"
  blocks := [⟨0, [selfBranch i], [0, 2], .condJump⟩, ⟨2, [plainInsn 2 .ret none], [], .ret⟩]
  callees := []

theorem nopRow_fpReturn (_ : Function) : ∀ s ∈ ([] : List Stmt), s.isControl = false := by simp

def nopRow : RowLifter where
  fullRegister r := r
  regValue r := some (.read (.reg r))
  row _ _ _ _ := []
  fpReturn _ := []
  row_not_control := by simp
  fpReturn_not_control := nopRow_fpReturn

theorem holdsAll_zero (cfg : Config) : HoldsAll cfg ⟨fun _ => 0, fun _ => 0⟩ (fun _ => 0)
    fun _ => false :=
  ⟨fun f i _ => by simp, fun k => rfl⟩

theorem condJump_exact_iff_jecxz :
    (CondJump.jcxz .b32).ExactIn ⟨64, false⟩
        (terminatorStmts nopRow plainProgram (selfFunction (.jcxz .b32)) 0
          ⟨0, [selfBranch (.jcxz .b32)], [0, 2], .condJump⟩)
        ⟨fun _ => 0, fun _ => 0⟩ (fun _ => 0) (fun _ => false) ↔
      (CondJump.jcxz .b32).OnFlags fun _ => 0 :=
  condJump_exact_iff documented_decodedCode (.inr rfl) rfl rfl rfl rfl
    ⟨_, _, _, rfl⟩ (holdsAll_zero _)

/-- `loop` to itself, from a count of zero: the block does not count. -/
theorem condJump_not_exact :
    ¬ ∀ (conditionCode : CondJump → ConditionCode), Documented conditionCode →
      ∀ (l : RowLifter) (prog : Program) (f : Function) (k : ℕ) (b : BasicBlock)
        (last : Aret.Insn) (i : CondJump), prog.bits = 32 ∨ prog.bits = 64 →
        f.blocks[k]? = some b → b.terminator = .condJump → b.insns.getLast? = some last →
        last.raw.cond = ccToCond (conditionCode i) →
        (∃ e t fall, (terminatorStmts l prog f k b).getLast? = some (.branch e t fall)) →
        ∀ (s : State) (c : Cpu) (fl : FlagKind → Bool), HoldsAll ⟨prog.bits, false⟩ s c fl →
          i.ExactIn ⟨prog.bits, false⟩ (terminatorStmts l prog f k b) s c fl := by
  intro hall
  have hexact := hall decodedCode documented_decodedCode nopRow plainProgram
    (selfFunction (.loop .loop .b32)) 0 _ _ (.loop .loop .b32) (.inr rfl) rfl rfl rfl rfl
    ⟨_, _, _, rfl⟩ _ _ _ (holdsAll_zero ⟨64, false⟩)
  have hstmts : ∃ t fall, terminatorStmts nopRow plainProgram (selfFunction (.loop .loop .b32)) 0
      ⟨0, [selfBranch (.loop .loop .b32)], [0, 2], .condJump⟩ =
        [.branch (ccToCond (decodedCode (.loop .loop .b32))) t fall] :=
    terminatorStmts_eq rfl rfl rfl rfl ⟨_, _, _, rfl⟩
  obtain ⟨t, fall, hstmts⟩ := hstmts
  rw [hstmts] at hexact
  exact (exactIn_branch_iff documented_decodedCode (by decide) (holdsAll_zero _)
    (.loop .loop .b32) t fall).mp hexact

end Aret.Lift
