/-
Instructions that test, scan and count bits.
-/
import Aret.Place

namespace Aret.Lift

open Alu

inductive BitTest
  | bt | btc | bts | btr
  deriving DecidableEq, Repr

inductive BitOp
  | test (op : BitTest)
  | bsf | bsr | tzcnt | lzcnt | popcnt
  deriving DecidableEq, Repr

/-! ### Lifting -/

def BitTest.combine (op : BitTest) (dst m : Expr) : Expr :=
  match op with
  | .bts => bin .or dst m
  | .btr => bin .and dst (.unary .not m)
  | _ => bin .xor dst m

/-- The arm for a base in memory and an index in a register: the index moves the address. -/
def liftBitString (op : BitTest) (i : Insn) (m : Memory) (r : Register) : List Stmt :=
  match m.width with
  | .b16 => string 16 4 2
  | .b32 => string 32 5 4
  | .b64 => string 64 6 8
  | .b8 => i.asm
where
  string (w log2w bytes : ℕ) : List Stmt :=
    let idx := readReg r
    let s := konst (64 - w : ℕ)
    let idxS := bin .sar (bin .shl idx s) s
    let byteoff := bin .mul (bin .sar idxS (konst log2w)) (konst bytes)
    let load := .load (.read i.temp) (.ofBits w)
    let pos := bin .and idx (konst (w - 1 : ℕ))
    let bit := bin .and (bin .shr load pos) (konst 1)
    let out := [.set i.temp (bin .add m.addr byteoff), setFlag .cf bit]
    if op = .bt then out
    else out ++ [.store (.read i.temp) (op.combine load (bin .shl (konst 1) pos)) (.ofBits w)]

def liftBitPlace (cfg : Config) (op : BitTest) (i : Insn) (x y : Operand) : List Stmt :=
  let w := opWidth cfg x
  let dst := opValue cfg x
  let pos := bin .and (opValue cfg y) (konst (w - 1 : ℕ))
  let bit := bin .and (bin .shr dst pos) (konst 1)
  if op = .bt then [setFlag .cf bit]
  else i.finish cfg x [setFlag .cf bit] (op.combine dst (bin .shl (konst 1) pos))

/-- The arms for the scans and the counts, which set one flag: the helper for words of 64 bits, or
the one for narrower words. -/
def liftBitCount (cfg : Config) (i : Insn) (flag : FlagKind) (h64 h32 : String) : List Stmt :=
  match i.ops with
  | [x, y] =>
    let src := opValue cfg y
    i.finish cfg x [setFlag flag (bin .eq src (konst 0))]
      (fcall (if opWidth cfg x = 64 then h64 else h32) [src])
  | _ => i.asm

/-- `lift`, for these instructions. -/
def BitOp.lift (cfg : Config) (i : Insn) : BitOp → List Stmt
  | .test op =>
    match i.ops with
    | [.mem m, .reg r] => liftBitString op i m r
    | [.reg x, y] => liftBitPlace cfg op i (.reg x) y
    | [x, .imm v] => liftBitPlace cfg op i x (.imm v)
    | _ => i.asm
  | .bsf => liftBitCount cfg i .zf "__ix_bsf64" "__ix_bsf32"
  | .bsr => liftBitCount cfg i .zf "__ix_bsr64" "__ix_bsr32"
  | .tzcnt => liftBitCount cfg i .cf "__ix_tzcnt64" "__ix_tzcnt32"
  | .lzcnt => liftBitCount cfg i .cf "__ix_lzcnt64" "__ix_lzcnt32"
  | .popcnt => liftBitCount cfg i .zf "__ix_popcnt64" "__ix_popcnt32"

def Operand.Native (cfg : Config) (o : Operand) : Prop :=
  ∀ m, o = .mem m → ∀ r, m.base = some r ∨ m.index = some r → r.width.bits = cfg.bits

/-- The operands that the encodings of these instructions have, without a prefix for addresses. -/
def BitOp.Encodable (cfg : Config) (op : BitOp) (x y : Operand) : Prop :=
  (x.Native cfg ∧ y.Native cfg) ∧ x.width ≠ .b8 ∧ x.width.bits ≤ cfg.bits ∧
    match op with
    | .test _ => x.isPlace ∧ ((∃ r, y = .reg r ∧ r.width = x.width) ∨ ∃ v, y = .imm v)
    | _ => (∃ r, x = .reg r) ∧ y.isPlace ∧ y.width = x.width

/-! ### The processor -/

def BitTest.update : BitTest → Bool → Bool
  | .bt, b => b
  | .btc, b => !b
  | .bts, _ => true
  | .btr, _ => false

def BitTest.result (op : BitTest) (x p : ℕ) : ℕ :=
  Fields.put x p 1 (op.update (x.testBit p)).toNat

/-- The instruction acts on bit `p` of an operand. -/
def BitTest.PlaceLaw (cfg : Config) (op : BitTest) (x : Operand) (p : ℕ) (s s' : State) : Prop :=
  s'.loc (.flag .cf) = ofBool ((s.operand cfg x).testBit p) ∧
    if op = .bt then Same s s' else Wrote cfg x (op.result (s.operand cfg x) p) s s'

/-- The instruction acts on bit `k` of the string that starts at an operand. -/
def BitTest.StringLaw (cfg : Config) (op : BitTest) (m : Memory) (k : ℤ) (s s' : State) : Prop :=
  ∃ a, IsAt cfg a (m.effective s + k / m.width.bits * (m.width.bits / 8 : ℕ)) ∧
    let x := readBytes s.mem a (m.width.bits / 8)
    let p := (k % m.width.bits).toNat
    s'.loc (.flag .cf) = ofBool (x.testBit p) ∧ SameRegs s s' ∧
      (∀ d, s'.loc (.frame d) = s.loc (.frame d)) ∧
      s'.mem =
        if op = .bt then s.mem else writeBytes s.mem a (m.width.bits / 8) (op.result x p)

/-- What a test leaves: the index of a bit in memory that is given in a register is signed and not
cut to the operand; a named slot holds the bits at its own address. -/
def BitTest.Law (cfg : Config) (op : BitTest) (x y : Operand) (s s' : State) : Prop :=
  s'.loc (.flag .zf) = s.loc (.flag .zf) ∧ s'.loc (.flag .df) = s.loc (.flag .df) ∧
    match x, y with
    | .mem m, .reg r =>
      let k := toSigned m.width (s.regVal r)
      if (m.frameDisp cfg).isSome ∧ 0 ≤ k ∧ k < m.width.bits then
        op.PlaceLaw cfg (.mem m) k.toNat s s'
      else op.StringLaw cfg m k s s'
    | x, y => op.PlaceLaw cfg x (s.operand cfg y % x.width.bits) s s'

def BitOp.Law (cfg : Config) (op : BitOp) (x y : Operand) (s s' : State) : Prop :=
  let src := s.operand cfg y
  let n := x.width.bits
  let flag k := s'.loc (.flag k)
  match op with
  | .test op => op.Law cfg x y s s'
  -- The destination is undefined where no bit is set.
  | .bsf => flag .df = s.loc (.flag .df) ∧ flag .zf = ofBool (src = 0) ∧
      ∃ v, Wrote cfg x v s s' ∧ (src ≠ 0 → v = BitScan.low n src)
  | .bsr => flag .df = s.loc (.flag .df) ∧ flag .zf = ofBool (src = 0) ∧
      ∃ v, Wrote cfg x v s s' ∧ (src ≠ 0 → v = n - 1 - BitScan.high n src)
  | .tzcnt => flag .df = s.loc (.flag .df) ∧ flag .cf = ofBool (src = 0) ∧
      flag .zf = ofBool (BitScan.low n src = 0) ∧ Wrote cfg x (BitScan.low n src) s s'
  | .lzcnt => flag .df = s.loc (.flag .df) ∧ flag .cf = ofBool (src = 0) ∧
      flag .zf = ofBool (BitScan.high n src = 0) ∧ Wrote cfg x (BitScan.high n src) s s'
  | .popcnt => flag .df = s.loc (.flag .df) ∧ flag .zf = ofBool (src = 0) ∧
      (flag .cf = 0 ∧ flag .of = 0 ∧ flag .sf = 0 ∧ flag .pf = 0 ∧ flag .af = 0) ∧
      Wrote cfg x (BitScan.ones n src) s s'

/-! ### Where the lifted statements are right -/

def SlotFits (cfg : Config) (o : Operand) (s : State) : Prop :=
  match o with
  | .mem m =>
    match m.frameDisp cfg with
    | some d => m.width = .b32 → (s.loc (.frame d)).toNat < 2 ^ 32
    | none => True
  | _ => True

def BitTest.Sound (cfg : Config) (op : BitTest) (x y : Operand) (s : State) : Prop :=
  match x, y with
  | .mem m, .reg r =>
    match m.frameDisp cfg with
    | none => True
    | some d =>
      -- The statements act on memory, and the bit is in the slot.
      let k := toSigned m.width (s.regVal r)
      0 ≤ k → k < m.width.bits →
        let a := BitVec.ofInt 64 (m.effective s)
        let b := (s.loc (.frame d)).getLsbD k.toNat
        (readBytes s.mem a (m.width.bits / 8)).testBit k.toNat = b ∧ op.update b = b
  | x, _ => op = .bt ∨ SlotFits cfg x s

/-- The helpers for narrow words count 32 bits, and no statement sets `zf` for a count of zeros or
clears a flag for a count of ones. -/
def BitOp.Sound (cfg : Config) (op : BitOp) (x y : Operand) (s : State) : Prop :=
  let src := s.operand cfg y
  let flag k := s.loc (.flag k)
  match op with
  | .test op => op.Sound cfg x y s
  | .bsf | .bsr => True
  | .tzcnt => flag .zf = ofBool (src.testBit 0) ∧ (x.width = .b16 → src ≠ 0)
  | .lzcnt => flag .zf = ofBool (src.testBit (x.width.bits - 1)) ∧ x.width ≠ .b16
  | .popcnt => flag .cf = 0 ∧ flag .of = 0 ∧ flag .sf = 0 ∧ flag .pf = 0 ∧ flag .af = 0

end Aret.Lift
