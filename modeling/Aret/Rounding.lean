/-
The rounding mode of the x87 unit that is in force at an instruction.

`rounding_mode_active` goes back over the instructions before it to the `fldcw` that set
the control word, and takes the mode from what the stores to its slot install.

* `roundingModeActive_sound` — then the mode is the one in force;
* `not_roundingModeActive_sound` — an `fldcw` before a join is not seen.
-/
import Aret.Analysis
import Aret.Lift

namespace Aret.Rounding

open Lift (Word)

/-! ### The analysis -/

inductive RoundMode
  | nearest | down | up | trunc
  deriving DecidableEq, Repr

inductive Mnemonic
  | fldcw | mov | movzx | movsx | or | and | other
  deriving DecidableEq, Repr

inductive Op0
  | register (r : Lift.Register)
  | memory
  | other
  deriving DecidableEq

/-- The second operand; an immediate of 64 bits, and one of 32 or 8 bits that is extended
to 64, is another operand. -/
inductive Op1
  | imm (v : Word)
  | register (r : Lift.Register)
  | other
  deriving DecidableEq

/-- What the analysis asks of a raw instruction; the slot is the base register and the
displacement of its memory operand. -/
structure CwView where
  mnemonic : Mnemonic
  op0 : Op0
  op1 : Op1
  slot : Option ℕ × ℤ
  deriving DecidableEq

def low : Lift.Register → ℕ
  | .gpr _ _ => 0
  | .high _ => 8

/-- Whether a register has bit `b` of its family. -/
def covers (r : Lift.Register) (b : ℕ) : Bool := low r ≤ b && b < low r + r.width.bits

/-- Bit `b` of an immediate as applied through `r`. -/
def immBit (r : Lift.Register) (imm : Word) (b : ℕ) : Option Bool :=
  if covers r b then some (imm.getLsbD (b - low r)) else none

def rcFrom (b10 b11 : Bool) : RoundMode :=
  match b11, b10 with
  | false, true => .down
  | true, false => .up
  | true, true => .trunc
  | false, false => .nearest

/-- The register of the given family that an instruction has as its first operand. -/
def CwView.writes (v : CwView) (target : ℕ) : Option Lift.Register :=
  match v.op0 with
  | .register r => if r.id = target then some r else none
  | _ => none

/-- A definite initialiser of the family `target`. -/
def CwView.isInit (v : CwView) (target : ℕ) : Bool :=
  (v.writes target).any fun r =>
    (v.mnemonic = .mov || v.mnemonic = .movzx || v.mnemonic = .movsx) && covers r 10 && covers r 11

/-- What the initialiser makes known of bit `b`. -/
def CwView.initBit (v : CwView) (r : Lift.Register) (b : ℕ) : Option Bool :=
  match v.mnemonic, v.op1 with
  | .mov, .imm x => immBit r x b
  | _, _ => none

/-- What is known of bit `b` after an instruction that has the register `r` as its first
operand; `none` on an instruction outside the idiom. -/
def CwView.traceBit (v : CwView) (r : Lift.Register) (b : ℕ) (s : Option Bool) :
    Option (Option Bool) :=
  match v.mnemonic, v.op1 with
  | .or, .imm x => some (if immBit r x b = some true then some true else s)
  | .and, .imm x => some (if immBit r x b = some false then some false else s)
  | .or, _ => some (if covers r b ∧ s ≠ some true then none else s)
  | .and, _ => some (if covers r b ∧ s ≠ some false then none else s)
  | .mov, .imm x => some (if covers r b then immBit r x b else s)
  | .mov, _ | .movzx, _ | .movsx, _ => some (if covers r b then none else s)
  | _, _ => none

section
variable (view : Insn → CwView) (flat : List Insn)

def viewAt (k : ℕ) : Option CwView := flat[k]?.map view

/-- The initialiser nearest before the store at `j`, at most 24 instructions away. -/
def initialiser (target j : ℕ) : Option ℕ :=
  (List.range' (j - 24) (j - (j - 24))).reverse.find? fun k =>
    (viewAt view flat k).any (·.isInit target)

/-- Bit `b` of the family `target` after the `n` instructions that follow the initialiser
at `k`. -/
def traceFrom (target k b : ℕ) : ℕ → Option (Option Bool)
  | 0 =>
    match viewAt view flat k with
    | some v => (v.writes target).map fun r => v.initBit r b
    | none => none
  | n + 1 =>
    match traceFrom target k b n, viewAt view flat (k + 1 + n) with
    | some s, some v =>
      match v.writes target with
      | some r => v.traceBit r b s
      | none => some s
    | _, _ => none

def rcInstalledByStore (j : ℕ) : Option RoundMode :=
  match (viewAt view flat j).map CwView.op1 with
  | some (.imm x) => some (rcFrom (x.getLsbD 10) (x.getLsbD 11))
  | some (.register r) =>
    match initialiser view flat r.id j with
    | none => none
    | some k =>
      match traceFrom view flat r.id k 10 (j - (k + 1)),
        traceFrom view flat r.id k 11 (j - (k + 1)) with
      | some (some x), some (some y) => some (rcFrom x y)
      | _, _ => none
  | _ => none

/-- A store to the slot by `mov`. -/
def CwView.storesTo (v : CwView) (slot : Option ℕ × ℤ) : Bool :=
  v.mnemonic = .mov && v.op0 = .memory && v.slot = slot

/-- The mode that all of the stores at the listed positions install; the outer `none` is a
store that cannot be classified, or one that disagrees with another. -/
def agree (slot : Option ℕ × ℤ) : List ℕ → Option RoundMode → Option (Option RoundMode)
  | [], agreed => some agreed
  | j :: js, agreed =>
    if (viewAt view flat j).any (·.storesTo slot) then
      match rcInstalledByStore view flat j, agreed with
      | none, _ => none
      | some md, none => agree slot js (some md)
      | some md, some prev => if prev ≠ md then none else agree slot js (some prev)
    else agree slot js agreed

variable (joins : ℕ → Bool)

def windowStart : ℕ → ℕ
  | 0 => 0
  | lo + 1 =>
    if flat[lo + 1]?.any fun i => joins i.address then lo + 1
    else
      match flat[lo]?.map Insn.flow with
      | some .fallthrough | some .call | some .condJump => windowStart lo
      | _ => lo + 1

/-- The `fldcw` nearest before a position, in its window. -/
def governing (idx : ℕ) : Option ℕ :=
  let lo := windowStart flat joins idx
  (List.range' lo (idx - lo)).reverse.find? fun j =>
    (viewAt view flat j).any (·.mnemonic = .fldcw)

def roundingModeActive (idx : ℕ) : Option RoundMode :=
  match governing view flat joins idx with
  | none => some .nearest
  | some fj =>
    match viewAt view flat fj with
    | none => none
    | some v => (agree view flat v.slot (List.range flat.length) none).join

end

def flatOf (f : Function) : List Insn :=
  (f.blocks.flatMap (·.insns)).insertionSort fun i j => i.address ≤ j.address

def joinsOf (f : Function) (a : ℕ) : Bool := 1 < (f.blocks.flatMap (·.successors)).count a

/-! ### Runs -/

/-- A processor: the families of its registers, memory, and the x87 control word. -/
structure Cpu where
  reg : ℕ → Word
  mem : ℕ → BitVec 8
  cw : BitVec 16

def modeOf (cw : BitVec 16) : RoundMode := rcFrom (cw.getLsbD 10) (cw.getLsbD 11)

namespace Cpu

variable (c : Cpu)

def word (a : ℕ) : BitVec 16 := c.mem (a + 1) ++ c.mem a

/-- Memory after a store of the `n` low bytes of a word. -/
def stored (a n : ℕ) (v : Word) (x : ℕ) : BitVec 8 :=
  if a ≤ x ∧ x < a + n then (v >>> (8 * (x - a))).setWidth 8 else c.mem x

/-- The low 32 bits of a family after a write of the register `r`: from its lowest bit on,
each bit is a function of its number and of the bit there was. -/
def Written (c' : Cpu) (r : Lift.Register) (f : ℕ → Bool → Bool) : Prop :=
  ∀ b < 32, (c'.reg r.id).getLsbD b =
    if covers r b then f (b - low r) ((c.reg r.id).getLsbD b) else (c.reg r.id).getLsbD b

end Cpu

/-- What the processor does on an instruction, as far as the analysis knows it: `a` is the
address of its memory operand, and `n` the size in bytes. -/
def Effect (v : CwView) (a n : ℕ) (c c' : Cpu) : Prop :=
  match v.mnemonic, v.op0, v.op1 with
  | .fldcw, _, _ => c'.cw = c.word a
  | .mov, .memory, .imm x => c'.mem = c.stored a n x
  | .mov, .memory, .register r =>
    n = r.width.bits / 8 ∧ c'.mem = c.stored a n (c.reg r.id >>> low r)
  | .mov, .register r, .imm x => c.Written c' r fun b _ => x.getLsbD b
  | .or, .register r, .imm x => c.Written c' r fun b old => old || x.getLsbD b
  | .and, .register r, .imm x => c.Written c' r fun b old => old && x.getLsbD b
  | .mov, .register r, _ | .movzx, .register r, _ | .movsx, .register r, _ =>
    ∃ x : Word, c.Written c' r fun b _ => x.getLsbD b
  | .or, .register r, _ => ∃ x : Word, c.Written c' r fun b old => old || x.getLsbD b
  | .and, .register r, _ => ∃ x : Word, c.Written c' r fun b old => old && x.getLsbD b
  | _, _, _ => True

/-- A processor model: where a memory operand is, how large it is, and what an
instruction does. -/
structure Processor where
  ea : Insn → Cpu → ℕ
  size : Insn → ℕ
  exec : Insn → Cpu → Cpu → Prop

/-- An edge of the control flow graph: to the next instruction of a block, or to the first
one of a successor. -/
def Edge (f : Function) (i j : Insn) : Prop :=
  (∃ b ∈ f.blocks, ∃ pre post, b.insns = pre ++ i :: j :: post) ∨
  ∃ b ∈ f.blocks, ∃ b' ∈ f.blocks, b.insns.getLast? = some i ∧ b'.start ∈ b.successors ∧
    b'.insns.head? = some j

/-- A path of `n` steps from the function's entry, with the states along it. -/
structure Run (p : Processor) (f : Function) (n : ℕ) where
  insn : ℕ → Insn
  cpu : ℕ → Cpu
  entry : (insn 0).address = f.entry
  start : modeOf (cpu 0).cw = .nearest
  step : ∀ t < n, Edge f (insn t) (insn (t + 1)) ∧ p.exec (insn t) (cpu t) (cpu (t + 1))

namespace Run

variable (view : Insn → CwView) {p : Processor} {f : Function} {n : ℕ} (run : Run p f n)

/-- At time `t` the run is at position `j`. -/
def IsAt (t j : ℕ) : Prop := (flatOf f)[j]? = some (run.insn t)

/-- The run came to the position `j`, where it is at time `t`, from position `k` on
instruction by instruction. -/
def Straight (t k j : ℕ) : Prop :=
  k ≤ j ∧ j - k ≤ t ∧ ∀ e ≤ j - k, run.IsAt (t - (j - k) + e) (k + e)

/-- The step at time `t` leaves bits 10 and 11 of a family alone. -/
def Keeps (target t : ℕ) : Prop :=
  ∀ b ∈ [10, 11], ((run.cpu (t + 1)).reg target).getLsbD b = ((run.cpu t).reg target).getLsbD b

/-- At time `t` a `mov` to the slot stores a whole control word at `a`.  If it stores a
register, the run came straight from the initialiser, and the instructions in between whose
first operand is another leave the two bits alone. -/
structure Installs (slot : Option ℕ × ℤ) (a t j : ℕ) : Prop where
  isAt : run.IsAt t j
  store : (view (run.insn t)).storesTo slot
  address : p.ea (run.insn t) (run.cpu t) = a
  size : 2 ≤ p.size (run.insn t)
  straight : ∀ r, (view (run.insn t)).op1 = .register r →
    ∀ k, initialiser view (flatOf f) r.id j = some k → run.Straight t k j ∧
      ∀ e < t, t - (j - k) < e → (view (run.insn e)).writes r.id = none → run.Keeps r.id e

/-- The word at `a` at time `t` was stored by a `mov` to the slot, and not changed since. -/
def Holds (slot : Option ℕ × ℤ) (a t : ℕ) : Prop :=
  ∃ s j, s < t ∧ run.Installs view slot a s j ∧
    ∀ u ≤ t, s < u → (run.cpu u).word a = (run.cpu (s + 1)).word a

/-- From time `t` on the run loads no control word. -/
def Quiet (t : ℕ) : Prop := ∀ u < n, t ≤ u → (view (run.insn u)).mnemonic ≠ .fldcw

/-- What the analysis relies on, for the position `idx` at the end of the run. -/
structure Governed (idx : ℕ) : Prop where
  /-- What comes after the last `fldcw` leaves the mode as it is. -/
  keeps : ∀ t < n, run.Quiet view t → modeOf (run.cpu (t + 1)).cw = modeOf (run.cpu t).cw
  /-- Where the window has no `fldcw`, the last one loads a word that rounds to nearest. -/
  nearest : governing view (flatOf f) (joinsOf f) idx = none → ∀ t < n,
    (view (run.insn t)).mnemonic = .fldcw → run.Quiet view (t + 1) →
    modeOf ((run.cpu t).word (p.ea (run.insn t) (run.cpu t))) = .nearest
  /-- The run comes straight from an `fldcw` in the window, and that loads a word which a
  store to its slot left there. -/
  loaded : ∀ fj, governing view (flatOf f) (joinsOf f) idx = some fj →
    run.Straight n fj idx ∧
    run.Holds view (view (run.insn (n - (idx - fj)))).slot
      (p.ea (run.insn (n - (idx - fj))) (run.cpu (n - (idx - fj)))) (n - (idx - fj))

end Run

/-! ### One bit of a register -/

def Knows (s : Option Bool) (b : Bool) : Prop := ∀ x, s = some x → b = x

theorem CwView.writes_eq_some {v : CwView} {target : ℕ} {r : Lift.Register} :
    v.writes target = some r ↔ v.op0 = .register r ∧ r.id = target := by
  rw [writes]
  cases v.op0 with
  | register r' =>
    by_cases h : r'.id = target
    · simp only [h, if_true, Option.some.injEq, Op0.register.injEq]
      refine ⟨fun heq => ⟨heq, heq ▸ h⟩, fun heq => heq.1⟩
    · simp only [h, if_false, reduceCtorEq, Op0.register.injEq, false_iff]
      rintro ⟨rfl, hid⟩
      exact h hid
  | memory => simp
  | other => simp

theorem Knows.written {c c' : Cpu} {r : Lift.Register} {f : ℕ → Bool → Bool} {b : ℕ}
    {s s' : Option Bool} (hw : c.Written c' r f) (hb : b < 32)
    (hs : Knows s ((c.reg r.id).getLsbD b))
    (hin : covers r b = true → Knows s' (f (b - low r) ((c.reg r.id).getLsbD b)))
    (hout : covers r b = false → s' = s) : Knows s' ((c'.reg r.id).getLsbD b) := by
  rw [hw b hb]
  split_ifs with hcov
  · exact hin hcov
  · rw [hout (by simpa using hcov)]
    exact hs

theorem immBit_eq_some {r : Lift.Register} {imm : Word} {b : ℕ} {x : Bool} :
    immBit r imm b = some x ↔ covers r b = true ∧ imm.getLsbD (b - low r) = x := by
  rw [immBit]
  split_ifs with h <;> simp [h]

/-- An operator that one value of an operand decides, and the other leaves to the second. -/
structure Decides (op : Bool → Bool → Bool) (z : Bool) : Prop where
  left : ∀ y, op z y = z
  right : ∀ y, op y z = z
  other : ∀ y, op y (!z) = y

theorem decides_or : Decides or true := ⟨Bool.true_or, Bool.or_true, Bool.or_false⟩

theorem decides_and : Decides and false := ⟨Bool.false_and, Bool.and_false, Bool.and_true⟩

section
variable {c c' : Cpu} {r : Lift.Register} {op : Bool → Bool → Bool} {z : Bool} {x : Word} {b : ℕ}
  {s : Option Bool}

theorem Knows.immediate (hop : Decides op z) (hb : b < 32)
    (hw : c.Written c' r fun b old => op old (x.getLsbD b))
    (hs : Knows s ((c.reg r.id).getLsbD b)) :
    Knows (if immBit r x b = some z then some z else s) ((c'.reg r.id).getLsbD b) := by
  refine hs.written hw hb (fun hcov y hy => ?_) (fun hcov => by simp [immBit, hcov])
  simp only [immBit, hcov, if_true, Option.some.injEq] at hy
  split_ifs at hy with hx
  · rw [hx, hop.right]
    exact Option.some.inj hy
  · rw [Bool.eq_not_of_ne hx, hop.other]
    exact hs y hy

theorem Knows.operand (hop : Decides op z) (hb : b < 32)
    (hw : c.Written c' r fun b old => op old (x.getLsbD b))
    (hs : Knows s ((c.reg r.id).getLsbD b)) :
    Knows (if covers r b ∧ s ≠ some z then none else s) ((c'.reg r.id).getLsbD b) := by
  refine hs.written hw hb (fun hcov y hy => ?_) (fun hcov => by simp [hcov])
  split_ifs at hy with hc
  have hknown : s = some z := by simpa [hcov] using hc
  obtain rfl : z = y := Option.some.inj (hknown.symm.trans hy)
  rw [hs z hknown, hop.left]

theorem Knows.overwritten (hb : b < 32) (hw : c.Written c' r fun b _ => x.getLsbD b)
    (hs : Knows s ((c.reg r.id).getLsbD b)) :
    Knows (if covers r b then none else s) ((c'.reg r.id).getLsbD b) :=
  hs.written hw hb (fun hcov y hy => by simp [hcov] at hy) (fun hcov => by simp [hcov])

end

theorem Knows.step {v : CwView} {a n target b : ℕ} {c c' : Cpu} {r : Lift.Register}
    {s s' : Option Bool} (heff : Effect v a n c c') (hw : v.writes target = some r) (hb : b < 32)
    (hs : Knows s ((c.reg target).getLsbD b)) (h : v.traceBit r b s = some s') :
    Knows s' ((c'.reg target).getLsbD b) := by
  obtain ⟨hop0, rfl⟩ := CwView.writes_eq_some.mp hw
  obtain ⟨mnemonic, op0, op1, slot⟩ := v
  obtain rfl : op0 = .register r := hop0
  cases mnemonic with
  | fldcw => simp [CwView.traceBit] at h
  | other => simp [CwView.traceBit] at h
  | or =>
    cases op1 with
    | imm x =>
      obtain rfl := Option.some.inj h
      exact hs.immediate decides_or hb heff
    | register _ | other =>
      obtain rfl := Option.some.inj h
      obtain ⟨x, heff⟩ := heff
      exact hs.operand decides_or hb heff
  | and =>
    cases op1 with
    | imm x =>
      obtain rfl := Option.some.inj h
      exact hs.immediate decides_and hb heff
    | register _ | other =>
      obtain rfl := Option.some.inj h
      obtain ⟨x, heff⟩ := heff
      exact hs.operand decides_and hb heff
  | mov =>
    cases op1 with
    | imm x =>
      -- The bit is the one of the immediate, if the register has it.
      obtain rfl := Option.some.inj h
      have hwritten : c.Written c' r fun b _ => x.getLsbD b := heff
      refine hs.written hwritten hb (fun hcov y hy => ?_) (fun hcov => by simp [hcov])
      rw [if_pos hcov] at hy
      exact (immBit_eq_some.mp hy).2
    | register _ | other =>
      obtain rfl := Option.some.inj h
      obtain ⟨x, heff⟩ := heff
      exact hs.overwritten hb heff
  | movzx | movsx =>
    obtain rfl := Option.some.inj h
    obtain ⟨x, heff⟩ := heff
    exact hs.overwritten hb heff

theorem Knows.init {v : CwView} {a n target b : ℕ} {c c' : Cpu} {r : Lift.Register}
    (heff : Effect v a n c c') (hw : v.writes target = some r) (hb : b < 32) :
    Knows (v.initBit r b) ((c'.reg target).getLsbD b) := by
  obtain ⟨hop0, rfl⟩ := CwView.writes_eq_some.mp hw
  obtain ⟨mnemonic, op0, op1, slot⟩ := v
  obtain rfl : op0 = .register r := hop0
  intro x hx
  rw [CwView.initBit] at hx
  split at hx
  · rename_i y hmov himm
    obtain rfl : mnemonic = .mov := hmov
    obtain rfl : op1 = .imm y := himm
    obtain ⟨hcov, hbit⟩ := immBit_eq_some.mp hx
    have hwritten : c.Written c' r fun b _ => y.getLsbD b := heff
    rw [hwritten b hb, if_pos hcov]
    exact hbit
  · simp at hx

/-! ### Stores of a control word -/

theorem Cpu.word_stored {c c' : Cpu} {a n b : ℕ} {v : Word} (hmem : c'.mem = c.stored a n v)
    (hn : 2 ≤ n) (hlo : 8 ≤ b) (hhi : b < 16) : (c'.word a).getLsbD b = v.getLsbD b := by
  have hbyte : c'.mem (a + 1) = (v >>> 8).setWidth 8 := by
    rw [hmem, Cpu.stored, if_pos (by omega)]
    simp
  rw [Cpu.word, BitVec.getLsbD_append, if_neg (by omega), hbyte, BitVec.getLsbD_setWidth,
    BitVec.getLsbD_ushiftRight]
  have hlt : b - 8 < 8 := by omega
  simp [hlt, show 8 + (b - 8) = b by omega]

theorem CwView.storesTo_iff {v : CwView} {slot : Option ℕ × ℤ} :
    v.storesTo slot = true ↔ v.mnemonic = .mov ∧ v.op0 = .memory ∧ v.slot = slot := by
  simp [storesTo, and_assoc]

section
variable {view : Insn → CwView} {p : Processor} {f : Function} {n : ℕ} {run : Run p f n}

theorem viewAt_of_isAt {t j : ℕ} (h : run.IsAt t j) :
    viewAt view (flatOf f) j = some (view (run.insn t)) := by
  rw [viewAt, show (flatOf f)[j]? = _ from h, Option.map_some]

variable (hexec : ∀ i c c', p.exec i c c' → Effect (view i) (p.ea i c) (p.size i) c c')

include hexec

theorem effect_of_step (run : Run p f n) {t : ℕ} (ht : t < n) : Effect (view (run.insn t))
    (p.ea (run.insn t) (run.cpu t)) (p.size (run.insn t)) (run.cpu t) (run.cpu (t + 1)) :=
  hexec _ _ _ (run.step t ht).2

theorem knows_traceFrom {target k j t b : ℕ} (hb : b ∈ [10, 11]) (ht : t ≤ n)
    (hstraight : run.Straight t k j)
    (hkeeps : ∀ e < t, t - (j - k) < e → (view (run.insn e)).writes target = none →
      run.Keeps target e) {d : ℕ} (hd : d < j - k) {s : Option Bool}
    (h : traceFrom view (flatOf f) target k b d = some s) :
    Knows s (((run.cpu (t - (j - k) + d + 1)).reg target).getLsbD b) := by
  obtain ⟨hkj, hjt, hat⟩ := hstraight
  have hb32 : b < 32 := by
    simp only [List.mem_cons, List.not_mem_nil, or_false] at hb
    omega
  induction d generalizing s with
  | zero =>
    have hk : viewAt view (flatOf f) k = some (view (run.insn (t - (j - k)))) :=
      viewAt_of_isAt (hat 0 (by omega))
    rw [traceFrom, hk] at h
    obtain ⟨r, hw, rfl⟩ := Option.map_eq_some_iff.mp h
    exact Knows.init (effect_of_step hexec run (by omega)) hw hb32
  | succ d ih =>
    have hpos : viewAt view (flatOf f) (k + 1 + d) =
        some (view (run.insn (t - (j - k) + d + 1))) := by
      have hnext := hat (d + 1) (by omega)
      rw [show k + 1 + d = k + (d + 1) by omega]
      exact viewAt_of_isAt hnext
    rw [traceFrom, hpos] at h
    rcases hs : traceFrom view (flatOf f) target k b d with _ | s₀
    · simp [hs] at h
    · have hknows := ih (by omega) hs
      simp only [hs] at h
      rcases hw : (view (run.insn (t - (j - k) + d + 1))).writes target with _ | r
      · -- The instruction has another operand, and the bit is as it was.
        simp only [hw] at h
        obtain rfl := Option.some.inj h
        have hkept := hkeeps (t - (j - k) + d + 1) (by omega) (by omega) hw b hb
        rw [show t - (j - k) + (d + 1) + 1 = t - (j - k) + d + 1 + 1 by omega, hkept]
        exact hknows
      · simp only [hw] at h
        exact hknows.step (effect_of_step hexec run (by omega)) hw hb32 h

theorem mode_of_installs {slot : Option ℕ × ℤ} {a t j : ℕ} {m : RoundMode}
    (h : run.Installs view slot a t j) (ht : t < n)
    (hrc : rcInstalledByStore view (flatOf f) j = some m) :
    modeOf ((run.cpu (t + 1)).word a) = m := by
  obtain ⟨hmov, hmemory, -⟩ := CwView.storesTo_iff.mp h.store
  have heff := effect_of_step hexec run ht
  rw [rcInstalledByStore, viewAt_of_isAt h.isAt, Option.map_some] at hrc
  rw [Effect, hmov, hmemory, h.address] at heff
  split at hrc
  · rename_i x himm
    rw [Option.some.inj himm] at heff
    rw [modeOf, Cpu.word_stored heff h.size (by decide) (by decide),
      Cpu.word_stored heff h.size (by decide) (by decide)]
    exact Option.some.inj hrc
  · rename_i r hreg
    have hop1 := Option.some.inj hreg
    rw [hop1] at heff
    obtain ⟨hsize, hmem⟩ := heff
    -- A register of two bytes or more starts at bit 0.
    have hlow : low r = 0 := by
      cases r with
      | gpr _ _ => rfl
      | high _ =>
        have htwo := h.size
        rw [hsize] at htwo
        exact absurd htwo (show ¬ 2 ≤ 8 / 8 by decide)
    rw [hlow, BitVec.ushiftRight_zero] at hmem
    split at hrc
    · simp at hrc
    · rename_i k hk
      obtain ⟨hstraight, hkeeps⟩ := h.straight r hop1 k hk
      split at hrc
      · rename_i x y hx hy
        have hlt : k < j := by
          have hmemk := List.mem_of_find?_eq_some hk
          simp only [List.mem_reverse, List.mem_range'_1] at hmemk
          omega
        have hend : t - (j - k) + (j - (k + 1)) + 1 = t := by
          have hjt := hstraight.2.1
          omega
        have h10 := knows_traceFrom hexec (by simp) ht.le hstraight hkeeps (by omega) hx x rfl
        have h11 := knows_traceFrom hexec (by simp) ht.le hstraight hkeeps (by omega) hy y rfl
        rw [hend] at h10 h11
        rw [modeOf, Cpu.word_stored hmem h.size (by decide) (by decide),
          Cpu.word_stored hmem h.size (by decide) (by decide), h10, h11]
        exact Option.some.inj hrc
      · simp at hrc
  · simp at hrc

end

/-! ### The mode in force -/

section
variable {view : Insn → CwView} {flat : List Insn}

theorem rc_of_agree {slot : Option ℕ × ℤ} {js : List ℕ} {agreed : Option RoundMode}
    {m : RoundMode} (h : agree view flat slot js agreed = some (some m)) :
    (∀ m', agreed = some m' → m' = m) ∧
      ∀ j ∈ js, (viewAt view flat j).any (·.storesTo slot) = true →
        rcInstalledByStore view flat j = some m := by
  induction js generalizing agreed with
  | nil =>
    obtain rfl := Option.some.inj h
    exact ⟨fun m' hm' => (Option.some.inj hm').symm, by simp⟩
  | cons j js ih =>
    unfold agree at h
    -- a store that installs no mode ends the search, and each further one has to agree
    by_cases hstore : (viewAt view flat j).any (·.storesTo slot) = true
    · rw [if_pos hstore] at h
      split at h
      · simp at h
      · rename_i md hmd
        obtain ⟨hm, hjs⟩ := ih h
        refine ⟨by simp, fun j' hj' hs => ?_⟩
        rcases List.mem_cons.mp hj' with rfl | hj'
        · rw [hmd, hm md rfl]
        · exact hjs j' hj' hs
      · rename_i md prev hmd
        split_ifs at h with hne
        obtain ⟨hm, hjs⟩ := ih h
        have hprev := hm prev rfl
        refine ⟨fun m' hm' => (Option.some.inj hm').symm.trans hprev, fun j' hj' hs => ?_⟩
        rcases List.mem_cons.mp hj' with rfl | hj'
        · rw [hmd, ← not_ne_iff.mp hne, hprev]
        · exact hjs j' hj' hs
    · rw [if_neg hstore] at h
      obtain ⟨hm, hjs⟩ := ih h
      refine ⟨hm, fun j' hj' hs => ?_⟩
      rcases List.mem_cons.mp hj' with rfl | hj'
      · exact absurd hs hstore
      · exact hjs j' hj' hs

theorem last_of_find?_reverse {xs : List ℕ} {q : ℕ → Bool} {k : ℕ} (hxs : xs.Pairwise (· < ·))
    (h : xs.reverse.find? q = some k) : k ∈ xs ∧ q k = true ∧ ∀ j ∈ xs, k < j → q j = false := by
  obtain ⟨hk, before, after, heq, hbefore⟩ := List.find?_eq_some_iff_append.mp h
  have hmem : k ∈ xs := List.mem_reverse.mp (heq ▸ by simp)
  refine ⟨hmem, hk, fun j hj hlt => ?_⟩
  have hj' : j ∈ before ++ k :: after := heq ▸ List.mem_reverse.mpr hj
  have hpair : (before ++ k :: after).Pairwise (· > ·) := heq ▸ List.pairwise_reverse.mpr hxs
  rcases List.mem_append.mp hj' with hj' | hj'
  · simpa using hbefore j hj'
  · -- What comes later in the reversed list is smaller.
    rcases List.mem_cons.mp hj' with rfl | hj'
    · exact absurd hlt (lt_irrefl _)
    · have hgt := List.rel_of_pairwise_cons (List.pairwise_append.mp hpair).2.1 hj'
      omega

theorem governing_spec {joins : ℕ → Bool} {idx fj : ℕ}
    (h : governing view flat joins idx = some fj) :
    fj < idx ∧ (∃ v, viewAt view flat fj = some v ∧ v.mnemonic = .fldcw) ∧
      ∀ j v, fj < j → j < idx → viewAt view flat j = some v → v.mnemonic ≠ .fldcw := by
  obtain ⟨hmem, hfldcw, hlast⟩ := last_of_find?_reverse List.pairwise_lt_range' h
  obtain ⟨hlo, hhi⟩ := List.mem_range'_1.mp hmem
  refine ⟨by omega, ?_, fun j v hj hidx hv hm => ?_⟩
  · obtain ⟨v, hv, hm⟩ := (Option.any_eq_true _ _).mp hfldcw
    exact ⟨v, hv, by simpa using hm⟩
  · have hnot := hlast j (List.mem_range'_1.mpr (by omega)) hj
    simp [hv, hm] at hnot

end

section
variable {view : Insn → CwView} {p : Processor} {f : Function} {n : ℕ} {run : Run p f n}

theorem mode_eq_of_no_fldcw {idx t : ℕ} (h : run.Governed view idx)
    (hno : run.Quiet view t) {u : ℕ} (htu : t ≤ u) (hu : u ≤ n) :
    modeOf (run.cpu u).cw = modeOf (run.cpu t).cw := by
  induction u, htu using Nat.le_induction with
  | base => rfl
  | succ u htu ih =>
    rw [h.keeps u (by omega) fun v hv huv => hno v hv (by omega)]
    exact ih (by omega)

/-- **The mode that is computed is the one in force**, at the end of every run on which
what the analysis relies on holds. -/
theorem roundingModeActive_sound (view : Insn → CwView) (p : Processor)
    (hexec : ∀ i c c', p.exec i c c' → Effect (view i) (p.ea i c) (p.size i) c c') (f : Function)
    (idx : ℕ) (m : RoundMode)
    (hm : roundingModeActive view (flatOf f) (joinsOf f) idx = some m) (n : ℕ) (run : Run p f n)
    (hidx : run.IsAt n idx) (h : run.Governed view idx) : modeOf (run.cpu n).cw = m := by
  rw [roundingModeActive] at hm
  split at hm
  · -- The last control word that the run loads rounds to nearest, as the first one does.
    rename_i hnone
    obtain rfl := Option.some.inj hm
    have hall : ∀ t ≤ n, run.Quiet view t → modeOf (run.cpu t).cw = .nearest := by
      intro t ht hno
      induction t with
      | zero => exact run.start
      | succ t ih =>
        by_cases hfldcw : (view (run.insn t)).mnemonic = .fldcw
        · have heff := effect_of_step hexec run (show t < n by omega)
          rw [Effect, hfldcw] at heff
          rw [show (run.cpu (t + 1)).cw = _ from heff]
          exact h.nearest hnone t (by omega) hfldcw hno
        · have hquiet : run.Quiet view t := by
            intro u hu htu
            rcases htu.eq_or_lt with rfl | hlt
            · exact hfldcw
            · exact hno u hu hlt
          rw [h.keeps t (by omega) hquiet]
          exact ih (by omega) hquiet
    exact hall n le_rfl fun u hu hnu => absurd hu (Nat.not_lt_of_le hnu)
  · rename_i fj hfj
    obtain ⟨hlt, ⟨v, hv, hfldcw⟩, hlast⟩ := governing_spec hfj
    simp only [hv] at hm
    obtain ⟨⟨-, hle, hat⟩, s, j, hs, hinstalls, hkept⟩ := h.loaded fj hfj
    -- At time `t` the run is at the `fldcw` of the window.
    obtain ⟨t, rfl⟩ : ∃ t, n = t + (idx - fj) := ⟨n - (idx - fj), by omega⟩
    rw [Nat.add_sub_cancel] at hs hinstalls hkept hat
    have hpos : ∀ e ≤ idx - fj, viewAt view (flatOf f) (fj + e) = some (view (run.insn (t + e))) :=
      fun e he => viewAt_of_isAt (hat e he)
    obtain rfl : view (run.insn t) = v :=
      Option.some.inj ((hpos 0 (Nat.zero_le _)).symm.trans hv)
    have heff := effect_of_step hexec run (show t < t + (idx - fj) by omega)
    rw [Effect, hfldcw] at heff
    have hload : (run.cpu (t + 1)).cw = (run.cpu t).word (p.ea (run.insn t) (run.cpu t)) := heff
    -- The word that it loads is the one that the store installed.
    have hrc : rcInstalledByStore view (flatOf f) j = some m := by
      have hj : j < (flatOf f).length := (List.getElem?_eq_some_iff.mp hinstalls.isAt).1
      refine (rc_of_agree (Option.join_eq_some_iff.mp hm)).2 j (List.mem_range.mpr hj) ?_
      rw [viewAt_of_isAt hinstalls.isAt]
      exact hinstalls.store
    have hmode : modeOf (run.cpu (t + 1)).cw = m := by
      rw [hload, hkept t le_rfl hs]
      exact mode_of_installs hexec hinstalls (by omega) hrc
    rw [← hmode]
    refine mode_eq_of_no_fldcw h (fun u hu htu => ?_) (by omega) le_rfl
    have hview := hpos (u - t) (by omega)
    rw [show t + (u - t) = u by omega] at hview
    exact hlast (fj + (u - t)) _ (by omega) (by omega) hview

end

/-! ### Two functions -/

def plainInsn (address len : ℕ) (text : String) (flow : Flow) (target : Option ℕ) : Insn where
  address := address
  len := len
  text := text
  flow := flow
  target := target
  callName := none
  raw := ⟨flow == .ret, .konst 0 32, none, none, none, none, false, none, 0⟩

def movCw : Insn := plainInsn 0x1000 6 "mov word [ebp-4], 0f7fh" .fallthrough none

def fldcw : Insn := plainInsn 0x1006 3 "fldcw [ebp-4]" .fallthrough none

def frndint (address : ℕ) : Insn := plainInsn address 2 "frndint" .fallthrough none

def jz : Insn := plainInsn 0x1009 2 "jz 100ch" .condJump (some 0x100c)

def cwView (i : Insn) : CwView :=
  if i = movCw then ⟨.mov, .memory, .imm 0xf7f, some 5, 0xfffffffc⟩
  else if i = fldcw then ⟨.fldcw, .memory, .other, some 5, 0xfffffffc⟩
  else ⟨.other, .other, .other, none, 0⟩

/-- The address of `[ebp-4]`. -/
def localWord (c : Cpu) : ℕ := ((c.reg 5).toNat + 0xfffffffc) % 2 ^ 32

def cwEffect (i : Insn) (c : Cpu) : Cpu :=
  if i = movCw then { c with mem := c.stored (localWord c) 2 0xf7f }
  else if i = fldcw then { c with cw := c.word (localWord c) }
  else c

def cwProcessor : Processor where
  ea _ := localWord
  size _ := 2
  exec i c c' := c' = cwEffect i c

theorem effect_cwProcessor (i : Insn) (c c' : Cpu) (h : cwProcessor.exec i c c') :
    Effect (cwView i) (cwProcessor.ea i c) (cwProcessor.size i) c c' := by
  obtain rfl : c' = cwEffect i c := h
  rw [cwView, cwEffect]
  split_ifs <;> simp only [Effect, cwProcessor]

def entryCpu : Cpu where
  reg r := if r = 5 then 0x10000 else 0
  mem _ := 0
  cw := 0x37f

/-- The states after the store and after the `fldcw`. -/
def cwStates : ℕ → Cpu
  | 0 => entryCpu
  | 1 => cwEffect movCw entryCpu
  | _ => cwEffect fldcw (cwEffect movCw entryCpu)

/-- `mov word [ebp-4], 0f7fh; fldcw [ebp-4]; frndint; ret`. -/
def roundToZero : Function where
  entry := 0x1000
  name := "round_to_zero"
  blocks := [⟨0x1000, [movCw, fldcw, frndint 0x1009, plainInsn 0x100b 1 "ret" .ret none], [], .ret⟩]
  callees := []

def roundToZeroRun : Run cwProcessor roundToZero 2 where
  insn t := match t with
    | 0 => movCw
    | 1 => fldcw
    | _ => frndint 0x1009
  cpu := cwStates
  entry := rfl
  start := by decide
  step t ht := by
    interval_cases t
    · exact ⟨.inl ⟨_, List.mem_singleton_self _, [], _, rfl⟩, rfl⟩
    · exact ⟨.inl ⟨_, List.mem_singleton_self _, [movCw], _, rfl⟩, rfl⟩

theorem roundingModeActive_sound_trunc : modeOf (roundToZeroRun.cpu 2).cw = .trunc := by
  refine roundingModeActive_sound cwView cwProcessor effect_cwProcessor roundToZero 2 .trunc
    (by decide +kernel) 2 roundToZeroRun
    (show (flatOf roundToZero)[2]? = some (frndint 0x1009) by decide +kernel) ?_
  have hgoverning : governing cwView (flatOf roundToZero) (joinsOf roundToZero) 2 = some 1 := by
    decide +kernel
  constructor
  · intro t ht hno
    exact absurd rfl (hno 1 (by decide) (by omega))
  · intro hnone
    simp [hgoverning] at hnone
  · intro fj hfj
    obtain rfl := Option.some.inj (hgoverning.symm.trans hfj)
    refine ⟨⟨by decide, by decide, fun e he => ?_⟩, 0, 0, by decide, ?_, fun u hu hlt => ?_⟩
    · interval_cases e
      · show (flatOf roundToZero)[1]? = some fldcw
        decide +kernel
      · show (flatOf roundToZero)[2]? = some (frndint 0x1009)
        decide +kernel
    · refine ⟨?_, by decide +kernel, by decide +kernel, le_rfl, fun r hr => ?_⟩
      · show (flatOf roundToZero)[0]? = some movCw
        decide +kernel
      · exact absurd hr (by simp [roundToZeroRun, cwView, movCw, plainInsn])
    · obtain rfl : u = 1 := by omega
      rfl

/-- The `fldcw` stands before a join, and `frndint` after it. -/
def roundJoined : Function where
  entry := 0x1000
  name := "round_joined"
  blocks :=
    [⟨0x1000, [movCw, fldcw, jz], [0x100c, 0x100b], .condJump⟩,
      ⟨0x100b, [plainInsn 0x100b 1 "nop" .fallthrough none], [0x100c], .fallthrough⟩,
      ⟨0x100c, [frndint 0x100c, plainInsn 0x100e 1 "ret" .ret none], [], .ret⟩]
  callees := []

def roundJoinedRun : Run cwProcessor roundJoined 3 where
  insn t := match t with
    | 0 => movCw
    | 1 => fldcw
    | 2 => jz
    | _ => frndint 0x100c
  cpu := cwStates
  entry := rfl
  start := by decide
  step t ht := by
    interval_cases t
    · exact ⟨.inl ⟨_, List.mem_cons_self, [], _, rfl⟩, rfl⟩
    · exact ⟨.inl ⟨_, List.mem_cons_self, [movCw], _, rfl⟩, rfl⟩
    · refine ⟨.inr ⟨_, List.mem_cons_self,
        ⟨0x100c, [frndint 0x100c, plainInsn 0x100e 1 "ret" .ret none], [], .ret⟩,
        ?_, rfl, ?_, rfl⟩, rfl⟩
      · exact List.mem_cons_of_mem _ (List.mem_cons_of_mem _ List.mem_cons_self)
      · exact List.mem_cons_self

/-- **The mode that is computed is not the one in force**: at the join the window ends, and
without an `fldcw` in it the mode is taken for the default. -/
theorem not_roundingModeActive_sound :
    ¬ ∀ (view : Insn → CwView) (p : Processor),
      (∀ i c c', p.exec i c c' → Effect (view i) (p.ea i c) (p.size i) c c') →
      (∀ i c c', i.flow = .call → p.exec i c c' → modeOf c'.cw = modeOf c.cw) →
      ∀ (f : Function) (idx : ℕ) (m : RoundMode),
        roundingModeActive view (flatOf f) (joinsOf f) idx = some m →
        ∀ (n : ℕ) (run : Run p f n), run.IsAt n idx → modeOf (run.cpu n).cw = m := by
  intro h
  have hcall : ∀ i c c', i.flow = .call → cwProcessor.exec i c c' →
      modeOf c'.cw = modeOf c.cw := by
    rintro i c c' hflow hexec
    obtain rfl : c' = cwEffect i c := hexec
    rw [cwEffect]
    split_ifs with hmov hfldcw
    · rfl
    · rw [hfldcw] at hflow
      exact absurd hflow (by decide)
    · rfl
  have hmode := h cwView cwProcessor effect_cwProcessor hcall roundJoined 4 .nearest
    (by decide +kernel) 3 roundJoinedRun
    (show (flatOf roundJoined)[4]? = some (frndint 0x100c) by decide +kernel)
  revert hmode
  decide

end Aret.Rounding
