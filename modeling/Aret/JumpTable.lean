/-
The tables that indirect jumps go through.

A table is found by the instructions before the jump in address order, as far as they
are decoded, and read from the image.
-/
import Aret.Analysis
import Aret.Image

namespace Aret.JumpTable

open Image

/-! ### Instructions -/

inductive Mnemonic
  | cmp | mov | add | lea | movsxd | other
  deriving DecidableEq

inductive ImmKind
  | imm8 | imm8to16 | imm8to32 | imm8to64 | imm16 | imm32 | imm32to64
  deriving DecidableEq

/-- A register is the number of the full register it is part of. -/
inductive OpKind
  | register (r : ℕ)
  | memory
  | immediate (kind : ImmKind)
  | other
  deriving DecidableEq

/-- What is asked of a raw instruction: its memory operand, and `immediate(1)`. -/
structure View where
  mnemonic : Mnemonic
  isReturn : Bool
  op0 : OpKind
  op1 : OpKind
  memBase : Option ℕ
  memIndex : Option ℕ
  memScale : ℕ
  memDisp : ℕ
  ipRel : Option ℕ
  imm : ℕ
  deriving DecidableEq

/-- An immediate that `jump_index_bound` knows. -/
def OpKind.isBound : OpKind → Bool
  | .immediate .imm8 | .immediate .imm8to16 | .immediate .imm8to32 | .immediate .imm16
  | .immediate .imm32 => true
  | _ => false

def OpKind.isImmediate : OpKind → Bool
  | .immediate _ => true
  | _ => false

def OpKind.isTable : OpKind → Bool
  | .immediate .imm8 | .immediate .imm8to32 | .immediate .imm16 | .immediate .imm32 => true
  | _ => false

/-! ### Reading a table -/

section
variable (ss : List Section) (ptr : ℕ)

def readEntry (ea : ℕ) : Option ℕ := if ptr = 8 then (readN ss ea 8).map leNat else readU32 ss ea

/-- The words from `ea` on, as long as they are addresses of code, at most `n`. -/
def readTargets (ea : ℕ) : ℕ → List ℕ
  | 0 => []
  | n + 1 =>
    match readEntry ss ptr ea with
    | none => []
    | some t => if isExecutable ss t then t :: readTargets (ea + ptr) n else []

def readJumpTable (table : ℕ) (bound : Option ℕ) : Option (List ℕ) :=
  let targets := readTargets ss ptr table (min (bound.getD 1024) 1024)
  if 2 ≤ targets.dedup.length then some targets else none

/-- The targets at the offsets from `ea` on, as long as they are code, at most `n`. -/
def readOffsets (table ea : ℕ) : ℕ → List ℕ
  | 0 => []
  | n + 1 =>
    match readU32 ss ea with
    | none => []
    | some off =>
      let t := (((table : ℤ) + (BitVec.ofNat 32 off).toInt) % 2 ^ 64).toNat
      if isExecutable ss t then t :: readOffsets table (ea + 4) n else []

/-! ### The idioms -/

/-- `jump_index_bound`, of the instructions before the jump, the last one first. -/
def jumpIndexBound (before : List View) (idx : ℕ) : Option ℕ :=
  ((before.take 8).find? fun r => r.mnemonic == .cmp && r.op0 == .register idx && r.op1.isBound).map
    fun r => (r.imm + 1) % 2 ^ 64

def tableBase (v : View) : Option ℕ :=
  match v.ipRel with
  | some a => some a
  | none => if v.memBase = none then some v.memDisp else none

def resolveJumpTable (before : List View) (jmp : View) : Option (List ℕ) := do
  let idx ← jmp.memIndex
  let table ← tableBase jmp
  if jmp.op0 = .memory ∧ jmp.memScale = ptr then
    readJumpTable ss ptr table (jumpIndexBound before idx)
  else none

/-- The last of the `n` instructions that has the register `r` as first operand, and those
before it. -/
def lastWriter (r : ℕ) : ℕ → List View → Option (View × List View)
  | 0, _ => none
  | _, [] => none
  | n + 1, v :: before => if v.op0 = .register r then some (v, before) else lastWriter r n before

def indexedTable (before : List View) (r : View) : Option (List ℕ) := do
  let idx ← r.memIndex
  let table ← tableBase r
  readJumpTable ss ptr table (jumpIndexBound before idx)

def addedTable (r : View) (before : List View) : Option (List ℕ) := do
  let base ← r.memBase
  let (a, _) ← lastWriter base 6 before
  if a.mnemonic = .add ∧ a.op1.isTable = true then readJumpTable ss ptr a.imm none else none

def resolveAbsJumpTable (before : List View) (jmp : View) : Option (List ℕ) :=
  match jmp.op0 with
  | .register tgt =>
    match lastWriter tgt 8 before with
    | none => none
    | some (r, rest) =>
      if r.mnemonic = .mov ∧ r.op1 = .memory ∧ r.memIndex.isSome = true ∧ r.memScale = ptr then
        indexedTable ss ptr before r
      else if r.mnemonic = .mov ∧ r.op1 = .memory ∧ r.memIndex = none ∧ r.memDisp = 0 then
        addedTable ss ptr r rest
      else none
  | _ => none

/-- Where `base` was set, if that was to an address relative to the instruction. -/
def baseTable (base : ℕ) : ℕ → List View → Option ℕ
  | 0, _ => none
  | _, [] => none
  | n + 1, v :: before =>
    if v.isReturn then none
    else if v.op0 = .register base then (if v.mnemonic = .lea then v.ipRel else none)
    else baseTable base n before

def caseCount (before : List View) : ℕ :=
  match before.find? fun r => r.mnemonic == .cmp && r.op1.isImmediate with
  | some r => min (min (r.imm + 1) (2 ^ 64 - 1)) 256
  | none => 256

def addedTo (tgt : ℕ) (before : List View) : Option ℕ :=
  (before.take 10).findSome? fun r =>
    match r.op1 with
    | .register base => if r.mnemonic = .add ∧ r.op0 = .register tgt then some base else none
    | _ => none

def resolvePieJumpTable (before : List View) (jmp : View) : Option (List ℕ) :=
  match jmp.op0 with
  | .register tgt => do
    let base ← addedTo tgt before
    let table ← baseTable base 2000 before
    let targets := readOffsets ss table table (caseCount before)
    if ((before.take 10).any fun r => r.mnemonic == .movsxd && r.op0 == .register tgt &&
        r.memBase == some base && r.memIndex.isSome && r.memScale == 4) ∧ 2 ≤ targets.length then
      some targets
    else none
  | _ => none

def resolveTable (before : List View) (jmp : View) : Option (List ℕ) :=
  ((resolveJumpTable ss ptr before jmp).or (resolvePieJumpTable ss before jmp)).or
    (resolveAbsJumpTable ss ptr before jmp)

end

end Aret.JumpTable
