/-
The lifter's integer instructions, and what the statements that it makes of an
instruction do.

Operands with a segment override are left out: the lifter takes them for thread
local storage and models them apart.
-/
import Aret.Alu
import Aret.BitScan
import Aret.Ir

namespace Aret.Lift

open Alu

abbrev Word := BitVec 64

/-! ### Instructions -/

/-- A general register: its family, and the bits of it that are meant; `high` is one of `ah`, `bh`,
`ch`, `dh`. -/
inductive Register
  | gpr (family : ℕ) (w : Width)
  | high (family : ℕ)
  deriving DecidableEq, Repr

def Register.width : Register → Width
  | gpr _ w => w
  | high _ => .b8

/-- `reg_id`. -/
def Register.id : Register → ℕ
  | gpr f _ => f
  | high f => f

structure Memory where
  ripAddress : Option ℤ
  base : Option Register
  index : Option Register
  scale : ℕ
  disp : ℤ
  width : Width
  deriving DecidableEq

/-- An operand; an immediate is the word that the decoder extended it to. -/
inductive Operand
  | reg (r : Register)
  | imm (v : Word)
  | mem (m : Memory)
  deriving DecidableEq

inductive Mnemonic
  | add | sub | and | or | xor | sbb | adc | cmp | test | inc | dec | neg
  | shld | shrd | shl | shr | sar | rol | ror | rcl | rcr
  | mul | imul | div | idiv
  deriving DecidableEq, Repr

structure Insn where
  mnemonic : Mnemonic
  ops : List Operand
  address : ℕ
  text : String
  reads : List Expr
  writes : List Location

/-- The width of the code, and whether frame slots are named. -/
structure Config where
  bits : ℕ
  framesOff : Bool

/-! ### Expressions of operands -/

def bin (op : BinOp) (a b : Expr) : Expr := .binary op a b

def konst (v : ℤ) : Expr := .konst v 64

def mask (w : ℕ) : ℤ := 2 ^ w - 1

def fcall (name : String) (args : List Expr) : Expr := .call (.named name) args (.ofBits 64)

def readFlag (k : FlagKind) : Expr := .read (.flag k)

def setFlag (k : FlagKind) (e : Expr) : Stmt := .set (.flag k) e

def readReg : Register → Expr
  | .high f => bin .and (bin .shr (.read (.reg f)) (konst 8)) (konst 0xff)
  | .gpr f .b64 => .read (.reg f)
  | .gpr f w => bin .and (.read (.reg f)) (konst (mask w.bits))

def Memory.frameDisp (cfg : Config) (m : Memory) : Option ℤ :=
  if cfg.framesOff then none
  else if m.ripAddress.isSome then none
  else if (m.base = some (.gpr 5 .b64) ∨ m.base = some (.gpr 5 .b32)) ∧ m.index = none then
    some m.disp
  else none

/-- `mem_addr_raw`. -/
def Memory.addr (m : Memory) : Expr :=
  match m.ripAddress with
  | some a => konst a
  | none =>
    let scaled (i : Register) : Expr :=
      if m.scale = 1 then readReg i else bin .mul (readReg i) (konst m.scale)
    let acc : Option Expr :=
      match m.base, m.index with
      | none, none => none
      | some b, none => some (readReg b)
      | none, some i => some (scaled i)
      | some b, some i => some (bin .add (readReg b) (scaled i))
    match acc with
    | none => konst m.disp
    | some e => if m.disp ≠ 0 then bin .add e (konst m.disp) else e

def opValue (cfg : Config) : Operand → Expr
  | .reg r => readReg r
  | .imm v => konst v.toNat
  | .mem m =>
    match m.frameDisp cfg with
    | some d =>
      if m.width = .b64 then .read (.frame d)
      else bin .and (.read (.frame d)) (konst (mask m.width.bits))
    | none => .load m.addr (.ofBits m.width.bits)

/-- `op0_width`. -/
def opWidth (cfg : Config) : Operand → ℕ
  | .reg r => r.width.bits
  | .mem m => m.width.bits
  | .imm _ => cfg.bits

def combineWrite (cfg : Config) (dst : Location) (w : ℕ) (v : Expr) : Expr :=
  if 64 ≤ w ∨ cfg.bits ≤ w then v
  else if w = 32 then bin .and v (konst (mask 32))
  else
    bin .or (bin .and (.read dst) (konst (mask 64 - mask w))) (bin .and v (konst (mask w)))

def writeReg (cfg : Config) (r : Register) (v : Expr) : List Stmt :=
  match r with
  | .high f =>
    [.set (.reg f) (bin .or (bin .and (.read (.reg f)) (konst (mask 64 - 0xff00)))
      (bin .shl (bin .and v (konst 0xff)) (konst 8)))]
  | .gpr f w => [.set (.reg f) (combineWrite cfg (.reg f) w.bits v)]

/-- `write_op0`; an immediate is not a destination. -/
def writeOp (cfg : Config) (o : Operand) (v : Expr) : Option (List Stmt) :=
  match o with
  | .reg r => some (writeReg cfg r v)
  | .imm _ => none
  | .mem m =>
    match m.frameDisp cfg with
    | some d => some [.set (.frame d) (combineWrite cfg (.frame d) m.width.bits v)]
    | none => some [.store m.addr v (.ofBits m.width.bits)]

/-- `asm_fallback`: an opaque call, and every written location unknown. -/
def Insn.asm (i : Insn) : List Stmt :=
  .callStmt (.call (.named ("asm:" ++ i.text)) i.reads .unknown) ::
    i.writes.map fun l => .set l Expr.undef

def Insn.finish (i : Insn) (cfg : Config) (o : Operand) (pre : List Stmt) (v : Expr) : List Stmt :=
  match writeOp cfg o v with
  | some ws => pre ++ ws
  | none => i.asm

def Insn.temp (i : Insn) : Location := .temp (i.address % 2 ^ 32 * 2 % 2 ^ 32)

def Insn.temp' (i : Insn) : Location := .temp ((i.address % 2 ^ 32 * 2 + 1) % 2 ^ 32)

/-! ### Flags -/

def signBit (x : Expr) (w : ℕ) : Expr := bin .and (bin .shr x (konst (w - 1 : ℕ))) (konst 1)

def pfFlag (r : Expr) : Stmt := setFlag .pf (fcall "__ix_pf" [r])

def afFlag (a b r : Expr) : Stmt :=
  setFlag .af (bin .and (bin .shr (bin .xor (bin .xor a b) r) (konst 4)) (konst 1))

def reduced (e : Expr) (w : ℕ) : Expr := if 64 ≤ w then e else bin .and e (konst (mask w))

def subFlagsCin (a b cin r : Expr) (w : ℕ) : List Stmt :=
  [setFlag .zf (bin .eq (reduced r w) (konst 0)),
    setFlag .sf (signBit r w),
    setFlag .cf (bin .ult (reduced a w) (bin .add (reduced b w) cin)),
    setFlag .of (bin .and (bin .ne (signBit a w) (signBit b w))
      (bin .ne (signBit r w) (signBit a w))),
    pfFlag r,
    afFlag a b r]

def subFlags (a b r : Expr) (w : ℕ) : List Stmt := subFlagsCin a b (konst 0) r w

def addFlagsCin (a b cin r : Expr) (w : ℕ) : List Stmt :=
  let m := reduced r w
  let cf :=
    if 64 ≤ w then bin .or (bin .ult r a) (bin .and (bin .eq r a) cin)
    else
      let sum := bin .add (bin .add (bin .and a (konst (mask w))) (bin .and b (konst (mask w)))) cin
      bin .and (bin .shr sum (konst w)) (konst 1)
  [setFlag .zf (bin .eq m (konst 0)),
    setFlag .sf (signBit m w),
    setFlag .cf cf,
    setFlag .of (bin .and (bin .eq (signBit a w) (signBit b w))
      (bin .ne (signBit m w) (signBit a w))),
    pfFlag r,
    afFlag a b r]

def addFlags (a b r : Expr) (w : ℕ) : List Stmt := addFlagsCin a b (konst 0) r w

def logicFlags (r : Expr) (w : ℕ) : List Stmt :=
  [setFlag .zf (bin .eq r (konst 0)),
    setFlag .sf (signBit r w),
    setFlag .cf (konst 0),
    setFlag .of (konst 0),
    pfFlag r]

def unlessZero (c : Expr) (k : FlagKind) (v : Expr) : Expr :=
  .select (bin .eq c (konst 0)) (readFlag k) v

def flagUnlessZero (c : Expr) (k : FlagKind) (v : Expr) : Stmt := setFlag k (unlessZero c k v)

inductive ConditionCode
  | none | o | no | b | ae | e | ne | be | a | s | ns | p | np | l | ge | le | g
  deriving DecidableEq, Repr

def lnot (e : Expr) : Expr := bin .eq e (konst 0)

def ccToCond : ConditionCode → Expr
  | .e => readFlag .zf
  | .ne => lnot (readFlag .zf)
  | .b => readFlag .cf
  | .ae => lnot (readFlag .cf)
  | .be => bin .or (readFlag .cf) (readFlag .zf)
  | .a => lnot (bin .or (readFlag .cf) (readFlag .zf))
  | .s => readFlag .sf
  | .ns => lnot (readFlag .sf)
  | .o => readFlag .of
  | .no => lnot (readFlag .of)
  | .p => readFlag .pf
  | .np => lnot (readFlag .pf)
  | .l => bin .ne (readFlag .sf) (readFlag .of)
  | .ge => lnot (bin .ne (readFlag .sf) (readFlag .of))
  | .le => bin .or (readFlag .zf) (bin .ne (readFlag .sf) (readFlag .of))
  | .g => lnot (bin .or (readFlag .zf) (bin .ne (readFlag .sf) (readFlag .of)))
  | .none => konst 1

/-! ### Lifting -/

namespace Insn

variable (cfg : Config) (i : Insn)

/-- The arms of `lift` for addition and subtraction, with a carry in or without, and for bitwise
operations. -/
def liftArith : List Stmt :=
  match i.mnemonic, i.ops with
  | .add, [x, y] =>
    let a := opValue cfg x
    let b := opValue cfg y
    let r := bin .add a b
    i.finish cfg x (addFlags a b r (opWidth cfg x)) r
  | .sub, [x, y] =>
    let a := opValue cfg x
    let b := opValue cfg y
    let r := bin .sub a b
    i.finish cfg x (subFlags a b r (opWidth cfg x)) r
  | .and, [x, y] =>
    let r := bin .and (opValue cfg x) (opValue cfg y)
    i.finish cfg x (logicFlags r (opWidth cfg x)) r
  | .or, [x, y] =>
    let r := bin .or (opValue cfg x) (opValue cfg y)
    i.finish cfg x (logicFlags r (opWidth cfg x)) r
  | .xor, [x, y] =>
    let r := bin .xor (opValue cfg x) (opValue cfg y)
    i.finish cfg x (logicFlags r (opWidth cfg x)) r
  | .sbb, [x, y] =>
    let a := opValue cfg x
    let b := opValue cfg y
    let cin := .read i.temp
    let r := bin .sub a (bin .add b cin)
    i.finish cfg x (.set i.temp (readFlag .cf) :: subFlagsCin a b cin r (opWidth cfg x)) r
  | .adc, [x, y] =>
    let a := opValue cfg x
    let b := opValue cfg y
    let cin := .read i.temp
    let r := bin .add a (bin .add b cin)
    i.finish cfg x (.set i.temp (readFlag .cf) :: addFlagsCin a b cin r (opWidth cfg x)) r
  | .cmp, [x, y] =>
    let a := opValue cfg x
    let b := opValue cfg y
    subFlags a b (bin .sub a b) (opWidth cfg x)
  | .test, [x, y] => logicFlags (bin .and (opValue cfg x) (opValue cfg y)) (opWidth cfg x)
  | .inc, [x] =>
    let w := opWidth cfg x
    let a := opValue cfg x
    let r := bin .add a (konst 1)
    let m := bin .and r (konst (mask w))
    i.finish cfg x
      [setFlag .zf (bin .eq m (konst 0)),
        setFlag .sf (signBit m w),
        setFlag .of (bin .and (bin .eq (signBit a w) (konst 0)) (bin .eq (signBit m w) (konst 1))),
        pfFlag r,
        afFlag a (konst 1) r] r
  | .dec, [x] =>
    let w := opWidth cfg x
    let a := opValue cfg x
    let r := bin .sub a (konst 1)
    let m := bin .and r (konst (mask w))
    i.finish cfg x
      [setFlag .zf (bin .eq m (konst 0)),
        setFlag .sf (signBit m w),
        setFlag .of (bin .and (bin .eq (signBit a w) (konst 1)) (bin .eq (signBit m w) (konst 0))),
        pfFlag r,
        afFlag a (konst 1) r] r
  | .neg, [x] =>
    let a := opValue cfg x
    let r := bin .sub (konst 0) a
    i.finish cfg x (subFlags (konst 0) a r (opWidth cfg x)) r
  | _, _ => i.asm

/-- The arms for `shl`, `shr` and `sar`. -/
def liftShift : List Stmt :=
  match i.mnemonic, i.ops with
  | .shl, [x, y] =>
    let w := opWidth cfg x
    let a := opValue cfg x
    let c := bin .and (opValue cfg y) (konst (if w = 64 then 63 else 31))
    let r := bin .shl a c
    i.finish cfg x
      [setFlag .zf (unlessZero c .zf (bin .eq (bin .and r (konst (mask w))) (konst 0))),
        setFlag .cf (unlessZero c .cf (bin .and (bin .shr a (bin .sub (konst w) c)) (konst 1))),
        flagUnlessZero c .sf (signBit r w),
        flagUnlessZero c .pf (fcall "__ix_pf" [r])] r
  | .shr, [x, y] => shiftRight .shr x y
  | .sar, [x, y] => shiftRight .sar x y
  | _, _ => i.asm
where
  /-- `shr` and `sar` share an arm. -/
  shiftRight (op : BinOp) (x y : Operand) : List Stmt :=
    let w := opWidth cfg x
    let a := opValue cfg x
    let c := bin .and (opValue cfg y) (konst (if w = 64 then 63 else 31))
    let r := bin op a c
    i.finish cfg x
      [setFlag .zf (unlessZero c .zf (bin .eq r (konst 0))),
        setFlag .cf (unlessZero c .cf (bin .and (bin .shr a (bin .sub c (konst 1))) (konst 1))),
        flagUnlessZero c .sf (signBit r w),
        flagUnlessZero c .pf (fcall "__ix_pf" [r])] r

/-- The two directions of a double shift or of a rotation by a count and its complement. -/
def shifted (left : Bool) (dst src c wc : Expr) : Expr :=
  if left then bin .or (bin .shl dst c) (bin .shr src wc)
  else bin .or (bin .shr dst c) (bin .shl src wc)

/-- The arms for `shld` and `shrd`: an immediate count, and another one. -/
def liftDouble (left : Bool) (x y z : Operand) : List Stmt :=
  let w := opWidth cfg x
  if ¬ (w = 16 ∨ w = 32 ∨ w = 64) then i.asm
  else
    match z with
    | .imm v =>
      let cnt : ℕ := v.toNat % 2 ^ 32 % w
      let dst := opValue cfg x
      if cnt = 0 then i.finish cfg x [] dst
      else
        let val := bin .and (shifted left dst (opValue cfg y) (konst cnt) (konst (w - cnt : ℕ)))
          (konst (mask w))
        i.finish cfg x
          [setFlag .zf (bin .eq val (konst 0)), setFlag .sf (signBit val w), pfFlag val] val
    | _ =>
      let dst := opValue cfg x
      let c := bin .and (opValue cfg z) (konst (w - 1 : ℕ))
      let wc := bin .and (bin .sub (konst w) c) (konst (w - 1 : ℕ))
      let val := .select (bin .eq c (konst 0)) (bin .and dst (konst (mask w)))
        (bin .and (shifted left dst (opValue cfg y) c wc) (konst (mask w)))
      i.finish cfg x
        [setFlag .zf (unlessZero c .zf (bin .eq val (konst 0))),
          flagUnlessZero c .sf (signBit val w),
          flagUnlessZero c .pf (fcall "__ix_pf" [val])] val

/-- The arm for `rol` and `ror`. -/
def liftRotate (left : Bool) (x y : Operand) : List Stmt :=
  let w := opWidth cfg x
  let a := bin .and (opValue cfg x) (konst (mask w))
  let c := bin .and (opValue cfg y) (konst (w - 1 : ℕ))
  let wc := bin .and (bin .sub (konst w) c) (konst (w - 1 : ℕ))
  let val := bin .and (shifted left a a c wc) (konst (mask w))
  let cfBit :=
    if left then bin .and val (konst 1)
    else bin .and (bin .shr val (konst (w - 1 : ℕ))) (konst 1)
  i.finish cfg x [setFlag .cf (unlessZero c .cf cfBit)] val

/-- The arm for `rcl` and `rcr`, which takes an immediate count only. -/
def liftRotateCarry (left : Bool) (x y : Operand) : List Stmt :=
  let w := opWidth cfg x
  match y with
  | .imm v =>
    if ¬ (w = 8 ∨ w = 16 ∨ w = 32) then i.asm
    else
      let c : ℕ := v.toNat % 2 ^ 32 % (w + 1)
      let dst := bin .and (opValue cfg x) (konst (mask w))
      if c = 0 then i.finish cfg x [] dst
      else
        let v := bin .or (bin .shl (.read i.temp) (konst w)) dst
        let rot := bin .and (shifted left v v (konst c) (konst (w + 1 - c : ℕ)))
          (konst (mask (w + 1)))
        let cf := bin .and (bin .shr rot (konst w)) (konst 1)
        i.finish cfg x [.set i.temp (readFlag .cf), setFlag .cf cf]
          (bin .and rot (konst (mask w)))
  | _ => i.asm

/-- The two results of an operation on `rdx:rax`. -/
def liftMulWide (src : Expr) : Expr × Expr :=
  let ra := .read (.reg 0)
  let rd := .read (.reg 2)
  match i.mnemonic with
  | .mul => (bin .mul ra src, fcall "__ix_mul64hi" [ra, src])
  | .imul => (bin .mul ra src, fcall "__ix_imul64hi" [ra, src])
  | .div => (fcall "__ix_udiv" [rd, ra, src], fcall "__ix_umod" [rd, ra, src])
  | _ => (fcall "__ix_idiv" [rd, ra, src], fcall "__ix_imod" [rd, ra, src])

/-- The two results of an operation on `edx:eax`. -/
def liftMulNarrow (src : Expr) : Expr × Expr :=
  let eax := bin .and (.read (.reg 0)) (konst (mask 32))
  let edx := bin .and (.read (.reg 2)) (konst (mask 32))
  let d := bin .or (bin .shl edx (konst 32)) eax
  match i.mnemonic with
  | .mul =>
    let p := bin .mul eax src
    (p, bin .shr p (konst 32))
  | .imul =>
    let p := bin .mul (.unary .signExtend eax) (.unary .signExtend src)
    (bin .and p (konst (mask 32)), bin .shr p (konst 32))
  | .div => (fcall "__ix_udiv32" [d, src], fcall "__ix_umod32" [d, src])
  | _ => (fcall "__ix_idiv32" [d, src], fcall "__ix_imod32" [d, src])

/-- The arm for one operand: both results are computed before a register is written. -/
def liftMulOne (x : Operand) : List Stmt :=
  let w := opWidth cfg x
  if w = 64 then
    let e := i.liftMulWide (opValue cfg x)
    [.set i.temp e.1, .set i.temp' e.2, .set (.reg 0) (.read i.temp),
      .set (.reg 2) (.read i.temp')]
  else if w ≠ 32 then i.asm
  else
    let e := i.liftMulNarrow (opValue cfg x)
    let low (t : Location) : Expr := bin .and (.read t) (konst (mask 32))
    [.set i.temp e.1, .set i.temp' e.2,
      .set (.reg 0) (combineWrite cfg (.reg 0) 32 (low i.temp)),
      .set (.reg 2) (combineWrite cfg (.reg 2) 32 (low i.temp'))]

def liftMul : List Stmt :=
  match i.mnemonic, i.ops with
  | .imul, [x, y] => i.finish cfg x [] (bin .mul (opValue cfg x) (opValue cfg y))
  | .imul, [x, y, z] => i.finish cfg x [] (bin .mul (opValue cfg y) (opValue cfg z))
  | .mul, [x] | .imul, [x] | .div, [x] | .idiv, [x] => i.liftMulOne cfg x
  | _, _ => i.asm

/-- `lift`, for these instructions. -/
def lift : List Stmt :=
  match i.mnemonic, i.ops with
  | .shl, _ | .shr, _ | .sar, _ => i.liftShift cfg
  | .shld, [x, y, z] => i.liftDouble cfg true x y z
  | .shrd, [x, y, z] => i.liftDouble cfg false x y z
  | .rol, [x, y] => i.liftRotate cfg true x y
  | .ror, [x, y] => i.liftRotate cfg false x y
  | .rcl, [x, y] => i.liftRotateCarry cfg true x y
  | .rcr, [x, y] => i.liftRotateCarry cfg false x y
  | .mul, _ | .imul, _ | .div, _ | .idiv, _ => i.liftMul cfg
  | _, _ => i.liftArith cfg

end Insn

/-! ### Running statements -/

/-- Why a statement does not end: undefined behaviour of C, the trap of a division, and what is not
modelled. -/
inductive Fault
  | undefined | trap | unmodelled
  deriving DecidableEq, Repr

structure State where
  loc : Location → Word
  mem : Word → BitVec 8

def readBytes (mem : Word → BitVec 8) (a : Word) : ℕ → ℕ
  | 0 => 0
  | n + 1 => (mem a).toNat + 256 * readBytes mem (a + 1) n

def writeBytes (mem : Word → BitVec 8) (a : Word) : ℕ → ℕ → Word → BitVec 8
  | 0, _ => mem
  | n + 1, v => Function.update (writeBytes mem (a + 1) n (v / 256)) a (BitVec.ofNat 8 v)

def intBits : Ty → ℕ
  | .int bits _ => bits
  | _ => 64

/-- The bytes of the C type that `ctype` names. -/
def ctypeBytes (bits : ℕ) : ℕ :=
  if bits = 8 then 1 else if bits = 16 then 2 else if bits = 32 then 4 else 8

/-- A word taken for a signed one of `k` bits. -/
def sext (k : ℕ) (v : Word) : Word := (v.setWidth k).signExtend 64

/-- `signed_width`: the width that an expression shows. -/
def signedWidth : Expr → Option ℕ
  | .binary .and _ (.const m _) =>
    if m = 0xff then some 8 else if m = 0xffff then some 16 else if m = 0xffffffff then some 32
    else none
  | .load _ ty => if intBits ty < 64 then some (intBits ty) else none
  | _ => none

/-- `signed_cast`, on the value of the expression. -/
def signedCast (e : Expr) (v : Word) : Word :=
  match e with
  | .const _ ty => if 1 ≤ intBits ty ∧ intBits ty < 64 then sext (intBits ty) v else v
  | _ =>
    match signedWidth e with
    | some k => sext k v
    | none => v

def signedCastW (e : Expr) (k : ℕ) (v : Word) : Word :=
  match e with
  | .const .. => if 1 ≤ k ∧ k < 64 then sext k v else signedCast e v
  | _ => signedCast e v

def maskW (k : ℕ) (v : Word) : Word := if 1 ≤ k ∧ k < 64 then v &&& BitVec.ofNat 64 (2 ^ k - 1) else v

def ofBool (b : Bool) : Word := if b then 1 else 0

/-- `binary_c`. -/
def binary (op : BinOp) (a b : Expr) (x y : Word) : Except Fault Word :=
  let k := ((signedWidth a).or (signedWidth b)).getD 64
  let sx := signedCastW a k x
  let sy := signedCastW b k y
  match op with
  | .add => .ok (x + y)
  | .sub => .ok (x - y)
  | .mul => .ok (x * y)
  | .and => .ok (x &&& y)
  | .or => .ok (x ||| y)
  | .xor => .ok (x ^^^ y)
  | .shl => if y.toNat < 64 then .ok (x <<< y.toNat) else .error .undefined
  | .shr => if y.toNat < 64 then .ok (x >>> y.toNat) else .error .undefined
  | .sar => if y.toNat < 64 then .ok ((signedCast a x).sshiftRight y.toNat) else .error .undefined
  | .udiv => if y = 0 then .error .undefined else .ok (x / y)
  | .umod => if y = 0 then .error .undefined else .ok (x % y)
  | .sdiv =>
    if sy = 0 ∨ sx = BitVec.intMin 64 ∧ sy = -1 then .error .undefined else .ok (sx.sdiv sy)
  | .smod =>
    if sy = 0 ∨ sx = BitVec.intMin 64 ∧ sy = -1 then .error .undefined else .ok (sx.srem sy)
  | .eq => .ok (ofBool (maskW k x = maskW k y))
  | .ne => .ok (ofBool (maskW k x ≠ maskW k y))
  | .ult => .ok (ofBool (x < y))
  | .ule => .ok (ofBool (x ≤ y))
  | .ugt => .ok (ofBool (y < x))
  | .uge => .ok (ofBool (y ≤ x))
  | .slt => .ok (ofBool (sx.slt sy))
  | .sle => .ok (ofBool (sx.sle sy))
  | .sgt => .ok (ofBool (sy.slt sx))
  | .sge => .ok (ofBool (sy.sle sx))

/-- `__ix_pf`. -/
def pf (x : Word) : Word := ofBool (parity (x.toNat % 256))

/-- The two helpers for a division of 64 bits by 32 without signs; `rem` is the second. -/
def udiv32 (rem : Bool) (n : Word) (d : BitVec 32) : Except Fault Word :=
  if d = 0 then .error .trap
  else if 0xffffffff < n.toNat / d.toNat then .error .trap
  else .ok (BitVec.ofNat 64 (if rem then n.toNat % d.toNat else n.toNat / d.toNat))

/-- `__ix_idiv32` and `__ix_imod32`. -/
def idiv32 (rem : Bool) (n : Word) (d : BitVec 32) : Except Fault Word :=
  if d = 0 then .error .trap
  else if d.toInt = -1 ∧ n.toNat = 0x8000000000000000 then .error .trap
  else
    let q := n.toInt.tdiv d.toInt
    if 2147483647 < q ∨ q < -2147483648 then .error .trap
    else .ok (BitVec.ofInt 64 (if rem then n.toInt.tmod d.toInt else q))

def wide (hi lo : Word) : ℕ := hi.toNat * 2 ^ 64 + lo.toNat

def wideSigned (hi lo : Word) : ℤ := hi.toInt * 2 ^ 64 + lo.toNat

/-- `__ix_udiv` and `__ix_umod` on a host with integers of 128 bits. -/
def udiv64 (rem : Bool) (hi lo d : Word) : Except Fault Word :=
  if d = 0 then .error .trap
  else if 2 ^ 64 - 1 < wide hi lo / d.toNat then .error .trap
  else .ok (BitVec.ofNat 64 (if rem then wide hi lo % d.toNat else wide hi lo / d.toNat))

/-- `__ix_idiv` and `__ix_imod` on a host with integers of 128 bits; the one quotient that these do
not hold is undefined in C. -/
def idiv64 (rem : Bool) (hi lo d : Word) : Except Fault Word :=
  if d = 0 then .error .trap
  else if wideSigned hi lo = -2 ^ 127 ∧ d.toInt = -1 then .error .undefined
  else
    let q := (wideSigned hi lo).tdiv d.toInt
    if 2 ^ 63 - 1 < q ∨ q < -2 ^ 63 then .error .trap
    else .ok (BitVec.ofInt 64 (if rem then (wideSigned hi lo).tmod d.toInt else q))

/-- The helpers that scan or count bits; the C builtins for the zeros below and above are not called
on zero. -/
def bitHelper (name : String) (args : List Word) : Except Fault Word :=
  let scan (n : ℕ) (x : Word) (f : ℕ → ℕ) (none : ℕ) : Except Fault Word :=
    let x := x.toNat % 2 ^ n
    .ok (BitVec.ofNat 64 (if x ≠ 0 then f x else none))
  match name, args with
  | "__ix_bsf32", [x] => scan 32 x (BitScan.low 32) 0
  | "__ix_bsr32", [x] => scan 32 x (fun x => 31 - BitScan.high 32 x) 0
  | "__ix_bsf64", [x] => scan 64 x (BitScan.low 64) 0
  | "__ix_bsr64", [x] => scan 64 x (fun x => 63 - BitScan.high 64 x) 0
  | "__ix_tzcnt32", [x] => scan 32 x (BitScan.low 32) 32
  | "__ix_lzcnt32", [x] => scan 32 x (BitScan.high 32) 32
  | "__ix_tzcnt64", [x] => scan 64 x (BitScan.low 64) 64
  | "__ix_lzcnt64", [x] => scan 64 x (BitScan.high 64) 64
  | "__ix_popcnt32", [x] => .ok (BitVec.ofNat 64 (BitScan.ones 32 (x.toNat % 2 ^ 32)))
  | "__ix_popcnt64", [x] => .ok (BitVec.ofNat 64 (BitScan.ones 64 x.toNat))
  | _, _ => .error .unmodelled

def helper (name : String) (args : List Word) : Except Fault Word :=
  match name, args with
  | "__ix_pf", [x] => .ok (pf x)
  | "__ix_udiv32", [n, d] => udiv32 false n (d.setWidth 32)
  | "__ix_umod32", [n, d] => udiv32 true n (d.setWidth 32)
  | "__ix_idiv32", [n, d] => idiv32 false n (d.setWidth 32)
  | "__ix_imod32", [n, d] => idiv32 true n (d.setWidth 32)
  | "__ix_mul64hi", [a, b] => .ok (BitVec.ofNat 64 (a.toNat * b.toNat / 2 ^ 64))
  | "__ix_imul64hi", [a, b] => .ok (BitVec.ofInt 64 (a.toInt * b.toInt / 2 ^ 64))
  | "__ix_udiv", [hi, lo, d] => udiv64 false hi lo d
  | "__ix_umod", [hi, lo, d] => udiv64 true hi lo d
  | "__ix_idiv", [hi, lo, d] => idiv64 false hi lo d
  | "__ix_imod", [hi, lo, d] => idiv64 true hi lo d
  | _, _ => bitHelper name args

mutual

def value (s : State) : Expr → Except Fault Word
  | .const v _ => .ok (BitVec.ofInt 64 v)
  | .read l => .ok (s.loc l)
  | .load a ty => do
    let p ← value s a
    .ok (BitVec.ofNat 64 (readBytes s.mem p (ctypeBytes (intBits ty))))
  | .unary op x => do
    let v ← value s x
    match op with
    | .neg => .ok (-v)
    | .not => .ok (~~~v)
    | .signExtend => .ok (signedCast x v)
    | _ => .ok v
  | .binary op a b => do
    let x ← value s a
    let y ← value s b
    binary op a b x y
  | .cast ty x => do
    let v ← value s x
    .ok (BitVec.ofNat 64 (v.toNat % 2 ^ (8 * ctypeBytes (intBits ty))))
  | .select c t e => do
    let b ← value s c
    if b ≠ 0 then value s t else value s e
  | .call (.named n) args _ => do
    let vs ← values s args
    helper n vs
  | Expr.undef => .ok 0
  | .phi _ => .ok 0
  | _ => .error .unmodelled

def values (s : State) : List Expr → Except Fault (List Word)
  | [] => .ok []
  | e :: es => do
    let v ← value s e
    let vs ← values s es
    .ok (v :: vs)

end

def State.set (s : State) (l : Location) (v : Word) : State :=
  { s with loc := Function.update s.loc l v }

def run : List Stmt → State → Except Fault State
  | [], s => .ok s
  | .set l e :: rest, s => do
    let v ← value s e
    run rest (s.set l v)
  | .store a e ty :: rest, s => do
    let p ← value s a
    let v ← value s e
    run rest { s with mem := writeBytes s.mem p (ctypeBytes (intBits ty)) v.toNat }
  | .callStmt e :: rest, s => do
    let _ ← value s e
    run rest s
  | .nop :: rest, s => run rest s
  | _ :: _, _ => .error .unmodelled

end Aret.Lift
