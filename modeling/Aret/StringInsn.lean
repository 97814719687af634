/-
String instructions.
-/
import Aret.LiftArith
import Aret.Rounds

namespace Aret.Lift

open Alu

inductive StringOp
  | movs | stos | lods | scas | cmps
  deriving DecidableEq, Repr

/-- The prefix: `rep` is F3, also read as `repe`; `repne` is F2. -/
inductive RepPrefix
  | none | rep | repne
  deriving DecidableEq, Repr

/-- A string instruction; registers and text are for the fallback. -/
structure StringInsn where
  op : StringOp
  width : Width
  rep : RepPrefix
  address : ℕ
  text : String
  reads : List Expr
  writes : List Location

def StringOp.compares : StringOp → Bool
  | .scas | .cmps => true
  | _ => false

abbrev rax : Location := .reg 0

abbrev rcx : Location := .reg 1

abbrev rsi : Location := .reg 6

abbrev rdi : Location := .reg 7

/-! ### Lifting -/

def repCount (cfg : Config) : Expr :=
  if cfg.bits = 32 then bin .and (.read rcx) (konst 0xffffffff) else .read rcx

namespace StringInsn

variable (cfg : Config) (i : StringInsn)

def size : ℕ := i.width.bits / 8

def step : Expr := bin .sub (konst i.size) (bin .mul (konst (2 * i.size : ℕ)) (readFlag .df))

def elem (a : Expr) : Expr := .load a (.ofBits i.width.bits)

def acc : Expr := reduced (.read rax) i.width.bits

def adv (l : Location) : Stmt := .set l (bin .add (.read l) i.step)

def compare (a b : Expr) : List Stmt := subFlags a b (bin .sub a b) i.width.bits

def asm : List Stmt :=
  .callStmt (.call (.named ("asm:" ++ i.text)) i.reads .unknown) ::
    i.writes.map fun l => .set l Expr.undef

def single : List Stmt :=
  match i.op with
  | .movs =>
    [.store (.read rdi) (i.elem (.read rsi)) (.ofBits i.width.bits), i.adv rsi, i.adv rdi]
  | .stos => [.store (.read rdi) i.acc (.ofBits i.width.bits), i.adv rdi]
  | .lods => [.set rax (combineWrite cfg rax i.width.bits (i.elem (.read rsi))), i.adv rsi]
  | .scas => i.compare i.acc (i.elem (.read rdi)) ++ [i.adv rdi]
  | .cmps => i.compare (i.elem (.read rsi)) (i.elem (.read rdi)) ++ [i.adv rsi, i.adv rdi]

def helperName : String :=
  match i.op, i.width with
  | .movs, .b8 => "__rep_movs8"
  | .movs, .b16 => "__rep_movs16"
  | .movs, .b32 => "__rep_movs32"
  | .movs, .b64 => "__rep_movs64"
  | .stos, .b8 => "__rep_stos8"
  | .stos, .b16 => "__rep_stos16"
  | .stos, .b32 => "__rep_stos32"
  | .stos, .b64 => "__rep_stos64"
  | .scas, .b8 => "__rep_scas8"
  | .scas, .b16 => "__rep_scas16"
  | .scas, .b32 => "__rep_scas32"
  | .cmps, .b8 => "__rep_cmps8"
  | .cmps, .b16 => "__rep_cmps16"
  | .cmps, .b32 => "__rep_cmps32"
  | _, _ => ""

/-- A register moved by all the elements: `bytes`, or that much back. -/
def advAll (l : Location) : Stmt :=
  let bytes := bin .mul (repCount cfg) (konst i.size)
  .set l (bin .add (.read l) (bin .sub bytes (bin .mul (bin .mul (konst 2) (readFlag .df)) bytes)))

/-- `rep movs` and `rep stos`. -/
def block : List Stmt :=
  let df := readFlag .df
  match i.op with
  | .movs =>
    [.callStmt (fcall i.helperName [.read rdi, .read rsi, repCount cfg, df]), i.advAll cfg rdi,
      i.advAll cfg rsi, .set rcx (konst 0)]
  | _ =>
    [.callStmt (fcall i.helperName [.read rdi, .read rax, repCount cfg, df]), i.advAll cfg rdi,
      .set rcx (konst 0)]

def kt : Location := .temp ((i.address % 2 ^ 32 * 2 + 1) % 2 ^ 32)

def advScan (l : Location) : Stmt := .set l (bin .add (.read l) (bin .mul (.read i.kt) i.step))

/-- `repe` and `repne scas` and `cmps`: the flags are those of the last element. -/
def scan : List Stmt :=
  let df := readFlag .df
  let repe := konst (if i.rep = .repne then 0 else 1)
  let last (l : Location) : Expr := i.elem (bin .sub (.read l) i.step)
  let count := .set rcx (bin .sub (repCount cfg) (.read i.kt))
  match i.op with
  | .scas =>
    let al := bin .and (.read rax) (konst (mask i.width.bits))
    [.set i.kt (fcall i.helperName [.read rdi, al, repCount cfg, repe, df]), i.advScan rdi,
      count] ++ i.compare al (last rdi)
  | _ =>
    [.set i.kt (fcall i.helperName [.read rsi, .read rdi, repCount cfg, repe, df]),
      i.advScan rsi, i.advScan rdi, count] ++ i.compare (last rsi) (last rdi)

/-- `lift`, for string instructions. -/
def lift : List Stmt :=
  if i.rep = .rep ∧ (i.op = .movs ∨ i.op = .stos) then i.block cfg
  else if i.rep ≠ .none ∧ i.op.compares ∧ i.width ≠ .b64 then i.scan cfg
  -- F2 is no repeat prefix for the decoder
  else if i.rep ≠ .rep then i.single cfg
  else i.asm

end StringInsn

/-! ### The helpers -/

/-- The pointer after `k` steps, backward where `back` is not zero. -/
def pointer (bytes : ℕ) (p back : Word) (k : ℕ) : Word :=
  p + BitVec.ofNat 64 k * (if back ≠ 0 then -BitVec.ofNat 64 bytes else BitVec.ofNat 64 bytes)

def repMovs (bytes : ℕ) (d s n back : Word) (mem : Word → BitVec 8) : Word → BitVec 8 :=
  Rounds.fill (fun k m => writeBytes m (pointer bytes d back k) bytes
    (readBytes m (pointer bytes s back k) bytes)) n.toNat 0 mem

def repStos (bytes : ℕ) (d v n back : Word) (mem : Word → BitVec 8) : Word → BitVec 8 :=
  Rounds.fill (fun k m => writeBytes m (pointer bytes d back k) bytes v.toNat) n.toNat 0 mem

/-- A scan goes on after an element that compares as `repe` says. -/
def scanGoes (repe : Word) (equal : Bool) : Bool := if repe ≠ 0 then equal else !equal

def repScas (bytes : ℕ) (d v n repe back : Word) (mem : Word → BitVec 8) : Word :=
  BitVec.ofNat 64 (Rounds.scan (fun k => scanGoes repe
    (readBytes mem (pointer bytes d back k) bytes = v.toNat % 2 ^ (8 * bytes))) n.toNat 0)

def repCmps (bytes : ℕ) (s d n repe back : Word) (mem : Word → BitVec 8) : Word :=
  BitVec.ofNat 64 (Rounds.scan (fun k => scanGoes repe
    (readBytes mem (pointer bytes s back k) bytes = readBytes mem (pointer bytes d back k) bytes))
      n.toNat 0)

/-- A call of a helper: the memory that it leaves and the value that it returns. -/
def repHelper (name : String) (args : List Word) (mem : Word → BitVec 8) :
    Option ((Word → BitVec 8) × Word) :=
  match name, args with
  | "__rep_movs8", [d, s, n, back] => some (repMovs 1 d s n back mem, 0)
  | "__rep_movs16", [d, s, n, back] => some (repMovs 2 d s n back mem, 0)
  | "__rep_movs32", [d, s, n, back] => some (repMovs 4 d s n back mem, 0)
  | "__rep_movs64", [d, s, n, back] => some (repMovs 8 d s n back mem, 0)
  | "__rep_stos8", [d, v, n, back] => some (repStos 1 d v n back mem, 0)
  | "__rep_stos16", [d, v, n, back] => some (repStos 2 d v n back mem, 0)
  | "__rep_stos32", [d, v, n, back] => some (repStos 4 d v n back mem, 0)
  | "__rep_stos64", [d, v, n, back] => some (repStos 8 d v n back mem, 0)
  | "__rep_scas8", [d, v, n, repe, back] => some (mem, repScas 1 d v n repe back mem)
  | "__rep_scas16", [d, v, n, repe, back] => some (mem, repScas 2 d v n repe back mem)
  | "__rep_scas32", [d, v, n, repe, back] => some (mem, repScas 4 d v n repe back mem)
  | "__rep_cmps8", [s, d, n, repe, back] => some (mem, repCmps 1 s d n repe back mem)
  | "__rep_cmps16", [s, d, n, repe, back] => some (mem, repCmps 2 s d n repe back mem)
  | "__rep_cmps32", [s, d, n, repe, back] => some (mem, repCmps 4 s d n repe back mem)
  | _, _ => none

/-! ### Running -/

def stepString (st : Stmt) (s : State) : Except Fault State :=
  match st with
  | .callStmt (.call (.named n) args ret) => do
    let vs ← values s args
    match repHelper n vs s.mem with
    | some r => .ok ⟨s.loc, r.1⟩
    | none => run [.callStmt (.call (.named n) args ret)] s
  | .set l (.call (.named n) args ret) => do
    let vs ← values s args
    match repHelper n vs s.mem with
    | some r => .ok ((⟨s.loc, r.1⟩ : State).set l r.2)
    | none => run [.set l (.call (.named n) args ret)] s
  | st => run [st] s

def runString : List Stmt → State → Except Fault State
  | [], s => .ok s
  | st :: rest, s => do
    let s' ← stepString st s
    runString rest s'

namespace StringInsn

variable (cfg : Config) (i : StringInsn)

def count (s : State) : ℕ := (s.loc rcx).toNat % 2 ^ cfg.bits

def round (s : State) : Except Fault State := do
  let s' ← run (i.single cfg) s
  .ok (s'.set rcx (s'.loc rcx - 1))

/-- Whether the repeat condition holds after a step: a comparison tells by the zero flag. -/
def again (s : State) : Bool :=
  if i.op.compares then decide (s.loc (.flag .zf) = ofBool (i.rep ≠ .repne)) else true

def iterate (s : State) : Except Fault State :=
  Rounds.repeatWhile (i.round cfg) i.again (count cfg s) s

end StringInsn

end Aret.Lift
