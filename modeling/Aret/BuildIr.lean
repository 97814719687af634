/-
From a recovered function to its IR: `build_ir`.

Each basic block becomes an IR block: the statements of its instructions, then a
terminator that depends on how the block ends and on which of its successors are
blocks of the function.  Conditional jumps that leave the function go to synthetic
blocks appended after the real ones.  A last pass names the calls of imports and
pops the arguments of those made through a register.

Design notes: lifting the instructions before a terminator is a parameter
(`Lifter`), of which only that it yields no control statement is used.  A map from
registers to import names is an association list.
-/
import Aret.Analysis

namespace Aret

/-- What the builder asks of the program image. -/
structure Program where
  /-- Target pointer width, 32 or 64. -/
  bits : ℕ
  isExecutable : ℕ → Bool
  importName : ℕ → Option String
  importThunk : ℕ → Option String
  crtSymbol : ℕ → Option String
  isStartupGlue : ℕ → Bool
  sharedStack : Bool
  /-- `stdcall_pop_bytes`: what a `__stdcall` import pops on return. -/
  stdcallPopBytes : String → Option ℕ

/-- The instruction lifter, as far as the builder relies on it. -/
structure Lifter where
  /-- `full_register`, on register numbers. -/
  fullRegister : ℕ → ℕ
  /-- `reg_value`: a read of a register. -/
  regValue : ℕ → Option Expr
  /-- The statements of a block's instructions before its terminator. -/
  body : Program → Function → BasicBlock → List Stmt
  /-- The store of `st(0)` before a return, in functions that return one. -/
  fpReturn : Function → List Stmt
  body_not_control : ∀ p f b, ∀ s ∈ body p f b, s.isControl = false
  fpReturn_not_control : ∀ f, ∀ s ∈ fpReturn f, s.isControl = false

/-! ### Calls -/

def sanitizeImport (name : String) : String :=
  let stem := (name.toList.dropWhile (· == '_')).takeWhile fun c => c ≠ '@' ∧ c ≠ '+'
  "aret_".append
    (String.ofList (stem.map fun c => if c.isAlphanum ∨ c = '_' then c else '_'))

inductive CallBinding where
  | shim (name : String) (threadEsp : Bool)
  | internal
  deriving DecidableEq

def resolveCall (prog : Program) (addr : ℕ) : CallBinding :=
  match prog.importName addr with
  | some name => .shim (sanitizeImport name) false
  | none =>
    match prog.importThunk addr with
    | some name => .shim (sanitizeImport name) true
    | none =>
      if prog.sharedStack then
        match prog.crtSymbol addr with
        | some name => .shim (sanitizeImport name) true
        | none => if prog.isStartupGlue addr then .shim "aret_noop" true else .internal
      else .internal

abbrev espLoc : Location := .reg 4

/-- `esp += n`. -/
def addEsp (n : ℕ) : Stmt :=
  .set espLoc (.binary .add (.read espLoc) (.konst n 32))

def tailCall (target : CallTarget Expr) (bits : ℕ) : Expr :=
  .call target (if bits = 64 then [7, 6, 2, 1, 8, 9].map fun r => .read (.reg r) else [])
    (.ofBits bits)

/-- `const_load_addr`: the slot of a load from a fixed address. -/
def constLoadAddr : Expr → Option ℕ
  | .load (.const a _) _ => some (a % 2 ^ 64).toNat
  | _ => none

/-- `peeled_reg`: the register a masked or cast read resolves to. -/
def peeledReg : Expr → Option Location
  | .read loc => some loc
  | .cast _ e => peeledReg e
  | .binary .and a (.const m _) =>
    if (m % 2 ^ 64).toNat ∈ [0xff, 0xffff, 0xffffffff, 0xffffffffffffffff] then peeledReg a
    else none
  | _ => none

abbrev HeldImports := List (Location × String)

def updateImportRegs (prog : Program) (held : HeldImports) : Stmt → HeldImports
  | .set dst expr =>
    let rest := held.filter (·.1 ≠ dst)
    match (constLoadAddr expr).bind prog.importName with
    | some name => (dst, sanitizeImport name) :: rest
    | none => rest
  | .asm _ => []
  | _ => held

/-- The import an indirect call through `inner` reaches. -/
def indirectImport (prog : Program) (held : HeldImports) (inner : Expr) : Option String :=
  match constLoadAddr inner with
  | some a => (prog.importName a).map sanitizeImport
  | none => (peeledReg inner).bind fun loc => held.lookup loc

/-- The stack pointer an import shim is handed: past the return address in a tail
call. -/
def shimEsp (isTail : Bool) : Expr :=
  if isTail then .binary .add (.read espLoc) (.konst 4 32) else .read espLoc

section
variable (prog : Program) (held : HeldImports)

mutual

def nameCallsInExpr (isTail : Bool) : Expr → Expr
  | .call (.direct a) args ret =>
    match resolveCall prog a with
    | .shim name threadEsp =>
      .call (.named name)
        (if threadEsp && prog.bits == 32 && args.isEmpty then [shimEsp isTail]
          else nameCallsInArgs args) ret
    | .internal => .call (.direct a) (nameCallsInArgs args) ret
  | .call (.named n) args ret => .call (.named n) (nameCallsInArgs args) ret
  | .call (.indirect x) args ret =>
    match indirectImport prog held x with
    | some name =>
      .call (.named name)
        (if prog.bits == 32 && args.isEmpty then [shimEsp isTail] else nameCallsInArgs args) ret
    | none => .call (.indirect (nameCallsInExpr false x)) (nameCallsInArgs args) ret
  | .load a ty => .load (nameCallsInExpr false a) ty
  | .unary op x => .unary op (nameCallsInExpr false x)
  | .cast ty x => .cast ty (nameCallsInExpr false x)
  | .binary op a b => .binary op (nameCallsInExpr false a) (nameCallsInExpr false b)
  | .select c t e =>
    .select (nameCallsInExpr false c) (nameCallsInExpr false t) (nameCallsInExpr false e)
  | .const v ty => .const v ty
  | .read l => .read l
  | .use v => .use v
  | .addr l => .addr l
  | .phi args => .phi args
  | .undef => .undef

def nameCallsInArgs : List Expr → List Expr
  | [] => []
  | a :: args => nameCallsInExpr false a :: nameCallsInArgs args

end

def nameCallsInStmt : Stmt → Stmt
  | .set dst e => .set dst (nameCallsInExpr prog held false e)
  | .assign dst e => .assign dst (nameCallsInExpr prog held false e)
  | .callStmt e => .callStmt (nameCallsInExpr prog held false e)
  | .store a v ty =>
    .store (nameCallsInExpr prog held false a) (nameCallsInExpr prog held false v) ty
  | .branch c t f => .branch (nameCallsInExpr prog held false c) t f
  | .ret (some e) => .ret (some (nameCallsInExpr prog held true e))
  | s => s

/-- What the import held by `inner`'s register pops. -/
def heldPop (inner : Expr) : Option ℕ := do
  if (constLoadAddr inner).isSome then none
  let loc ← peeledReg inner
  let name ← held.lookup loc
  let raw := if "aret_".toList <+: name.toList then String.ofList (name.toList.drop 5) else name
  (prog.stdcallPopBytes raw).filter (0 < ·)

mutual

/-- `stdcall_pop_for_regcall`, in an expression. -/
def regcallPop : Expr → Option ℕ
  | .call (.indirect inner) args _ =>
    (heldPop prog held inner <|> regcallPop inner) <|> regcallPopArgs args
  | .call (.direct _) args _ => regcallPopArgs args
  | .call (.named _) args _ => regcallPopArgs args
  | .load a _ => regcallPop a
  | .unary _ x => regcallPop x
  | .cast _ x => regcallPop x
  | .binary _ a b => regcallPop a <|> regcallPop b
  | .select c t e => (regcallPop c <|> regcallPop t) <|> regcallPop e
  | .const .. => none
  | .read _ => none
  | .use _ => none
  | .addr _ => none
  | .phi _ => none
  | .undef => none

def regcallPopArgs : List Expr → Option ℕ
  | [] => none
  | a :: args => regcallPop a <|> regcallPopArgs args

end

def stdcallPopForRegcall : Stmt → Option ℕ
  | .set _ e => regcallPop prog held e
  | .callStmt e => regcallPop prog held e
  | .ret (some e) => regcallPop prog held e
  | .store a v _ => regcallPop prog held a <|> regcallPop prog held v
  | .branch c _ _ => regcallPop prog held c
  | .switch v _ _ => regcallPop prog held v
  | _ => none

def popAfter (s : Stmt) : Option ℕ :=
  if prog.bits = 32 then stdcallPopForRegcall prog held s else none

end

def nameBlock (prog : Program) (held : HeldImports) : List Stmt → List Stmt
  | [] => []
  | s :: stmts =>
    nameCallsInStmt prog held s
      :: ((popAfter prog held s).map addEsp).toList
      ++ nameBlock prog (updateImportRegs prog held (nameCallsInStmt prog held s)) stmts

def heldAfter (prog : Program) (held : HeldImports) : List Stmt → HeldImports
  | [] => held
  | s :: stmts =>
    heldAfter prog (updateImportRegs prog held (nameCallsInStmt prog held s)) stmts

/-! ### Imports held on entry to a block -/

def sameHeld (a b : HeldImports) : Bool :=
  a.all (fun kv => b.lookup kv.1 == some kv.2) && b.all fun kv => a.lookup kv.1 == some kv.2

/-- The state of the fixpoint: what holds after each block computed so far, and on
entry to it, and whether the round changed anything. -/
structure HeldState where
  outs : List (Option HeldImports)
  ins : List HeldImports
  changed : Bool

def meetHeld (outs : List (Option HeldImports)) (acc : Option HeldImports) :
    List ℕ → Option HeldImports
  | [] => acc
  | p :: preds =>
    match outs.getD p none, acc with
    | none, _ => meetHeld outs acc preds
    | some po, none => meetHeld outs (some po) preds
    | some po, some a =>
      meetHeld outs (some (a.filter fun kv => po.lookup kv.1 == some kv.2)) preds

def heldStep (prog : Program) (blocks : List Block) (root : ℕ) (st : HeldState) (i : ℕ) :
    HeldState :=
  let b := blocks.getD i default
  let acc := if i = root then some [] else
    meetHeld st.outs (if b.pred.isEmpty then some [] else none) b.pred
  match acc with
  | none => st
  | some curIn =>
    let m := b.stmts.foldl (updateImportRegs prog) curIn
    let st := { st with ins := st.ins.set i curIn }
    if (st.outs.getD i none).any (sameHeld m) then st
    else { st with outs := st.outs.set i (some m), changed := true }

/-- At most `cap` rounds over all blocks, until one changes nothing. -/
def heldRounds (prog : Program) (blocks : List Block) (root : ℕ) :
    ℕ → HeldState → Option (List HeldImports)
  | 0, _ => none
  | cap + 1, st =>
    let st := (List.range blocks.length).foldl (heldStep prog blocks root)
      { st with changed := false }
    if st.changed then heldRounds prog blocks root cap st else some st.ins

def blockEntryImports (prog : Program) (blocks : List Block) (entry : ℕ) : List HeldImports :=
  let n := blocks.length
  let root := (blocks.findIdx? fun b => b.addr == entry).getD 0
  (heldRounds prog blocks root (4 * n + 16)
    ⟨List.replicate n none, List.replicate n [], false⟩).getD (List.replicate n [])

/-! ### Terminators -/

def Function.idx (f : Function) (a : ℕ) : Option ℕ := f.blocks.findIdx? fun b => b.start == a

/-- `pie_switch_index`: the index register of the `movsxd` that loads the jump's
register, among the ten instructions before the jump. -/
def pieSwitchIndex (lift : Lifter) (f : Function) (jmp : Insn) : Option Expr := do
  let tgt ← jmp.raw.op0Register.map lift.fullRegister
  let window := ((f.blocks.flatMap BasicBlock.insns).filter fun i =>
    decide (i.address < jmp.address)).insertionSort fun i j => i.address ≤ j.address
  let mov ← (window.reverse.take 10).find? fun i =>
    i.raw.isMovsxd && i.raw.memIndex.isSome && i.raw.memScale == 4 &&
      i.raw.op0Register.map lift.fullRegister == some tgt
  mov.raw.memIndex.bind lift.regValue

/-- How a block ends: statements before the terminator, the terminator, and the
successor list. -/
structure BlockEnd where
  before : List Stmt
  last : Option Stmt
  succ : List ℕ

/-- The value a resolved jump table switches on, and whether the cases are keyed by
address. -/
def switchValue (lift : Lifter) (f : Function) (last : Insn) : Option (Expr × Bool) :=
  match last.raw.switchIndex <|> pieSwitchIndex lift f last with
  | some v => some (v, false)
  | none => last.raw.op0Register.bind fun r =>
      (lift.regValue (lift.fullRegister r)).map (·, true)

section
variable (lift : Lifter) (prog : Program) (f : Function)

/-- A taken edge that leaves the function for executable code, while the
fallthrough stays inside. -/
def tailTarget (b : BasicBlock) : Option (ℕ × ℕ) :=
  match b.terminator, b.successors with
  | .condJump, t :: fall :: _ =>
    if (f.idx t).isNone && (f.idx fall).isSome && prog.isExecutable t then some (t, b.start)
    else none
  | _, _ => none

def tailTargets (blocks : List BasicBlock) : List (ℕ × ℕ) := blocks.filterMap (tailTarget prog f)

/-- The terminator of a conditional jump; `synth` is the index of the next synthetic
block. -/
def condJumpEnd (synth : ℕ) (b : BasicBlock) (last : Insn) : BlockEnd :=
  let succ := b.successors.filterMap f.idx
  match b.successors.head?.bind f.idx, (b.successors[1]?).bind f.idx with
  | some t, some fall => ⟨[], some (.branch last.raw.cond t fall), succ⟩
  | _, some fall =>
    match tailTarget prog f b with
    | some _ => ⟨[], some (.branch last.raw.cond synth fall), succ ++ [synth]⟩
    | none => ⟨[], some (.asm last.text), succ⟩
  | _, _ => ⟨[], some (.asm last.text), succ⟩

def jumpCallTarget (last : Insn) : Option (CallTarget Expr) :=
  match last.target, last.callName with
  | some target, name =>
    if prog.isExecutable target then some (.direct target) else name.map .named
  | none, name => name.map .named

/-- The tail call a jump makes, with the stack pointer past the return address for
an import shim. -/
def jumpTailCall (ct : CallTarget Expr) : Expr :=
  match ct with
  | .direct t =>
    match resolveCall prog t with
    | .shim _ true =>
      if prog.bits = 32 then
        .call ct [.binary .add (.read espLoc) (.konst 4 32)] (.ofBits prog.bits)
      else tailCall ct prog.bits
    | _ => tailCall ct prog.bits
  | _ => tailCall ct prog.bits

def tailEnd (last : Insn) (before : List Stmt) (succ : List ℕ) : BlockEnd :=
  match jumpCallTarget prog last with
  | some ct => ⟨before, some (.ret (some (jumpTailCall prog ct))), succ⟩
  | none => ⟨before, some (.asm last.text), succ⟩

def jumpEnd (b : BasicBlock) (last : Insn) : BlockEnd :=
  let succ := b.successors.filterMap f.idx
  -- a `ret` rewritten into a jump still pops the address it jumps to
  let before := if last.raw.isRet then [addEsp 4] else []
  match b.successors.head?.bind f.idx with
  | some t =>
    -- a jump to the function's own entry is a self tail call
    if b.successors.head? = some f.entry then tailEnd prog last before succ
    else ⟨before, some (.jump t), succ⟩
  | none => tailEnd prog last before succ

def returnValue : Expr :=
  let eax := Expr.read (.reg 0)
  if prog.bits = 32 then
    .binary .or (.binary .shl (.read (.reg 2)) (.konst 32 64))
      (.binary .and eax (.konst 0xffffffff 64))
  else eax

/-- What an indirect jump without resolved successors tail-calls: an import, the
pointer in its register when it is no jump table, or a pointer in memory. -/
def indirectTarget (last : Insn) : Option (CallTarget Expr) :=
  match last.raw.ipRelMemory.bind prog.importName with
  | some name => some (.named name)
  | none =>
    if last.raw.op0Register.isSome && last.raw.switchIndex.isNone &&
        (pieSwitchIndex lift f last).isNone then
      (last.raw.op0Register.bind lift.regValue).map .indirect
    else last.raw.memIndirectTarget.map .indirect

def indirectEnd (b : BasicBlock) (last : Insn) : BlockEnd :=
  let succ := b.successors.filterMap f.idx
  if succ ≠ [] then
    match switchValue lift f last with
    | some (value, addrKeyed) =>
      let cases := succ.mapIdx fun i s =>
        ((if addrKeyed then ((f.blocks.map BasicBlock.start).getD s 0 : ℤ) else (i : ℤ)), s)
      ⟨[], some (.switch value cases (succ.headD 0)), succ⟩
    | none => ⟨[], some (.asm last.text), succ⟩
  else
    match indirectTarget lift prog f last with
    | some ct => ⟨[], some (.ret (some (tailCall ct prog.bits))), succ⟩
    | none => ⟨[], some (.asm last.text), succ⟩

/-- The end of a block whose last instruction is `last`. -/
def blockEnd (synth : ℕ) (b : BasicBlock) (last : Insn) : BlockEnd :=
  match b.terminator with
  | .condJump => condJumpEnd prog f synth b last
  | .jump => jumpEnd prog f b last
  | .ret =>
    ⟨lift.fpReturn f, some (.ret (some (returnValue prog))), b.successors.filterMap f.idx⟩
  | .indirect => indirectEnd lift prog f b last
  | .interrupt => ⟨[], some (.asm last.text), b.successors.filterMap f.idx⟩
  | .fallthrough | .call =>
    let succ := b.successors.filterMap f.idx
    ⟨[], succ.head?.map .jump, succ⟩

/-! ### The translation -/

instance : Inhabited Insn :=
  ⟨⟨0, 0, "", .interrupt, none, none,
    ⟨false, .undef, none, none, none, none, false, none, 0⟩⟩⟩

instance : Inhabited BasicBlock := ⟨⟨0, [], [], .interrupt⟩⟩

/-- The end of block `i`. -/
def endOf (i : ℕ) : BlockEnd :=
  let b := f.blocks.getD i default
  blockEnd lift prog f (f.blocks.length + (tailTargets prog f (f.blocks.take i)).length) b
    (b.insns.getLast?.getD default)

/-- The statements of block `i` before its terminator. -/
def bodyOf (i : ℕ) : List Stmt :=
  lift.body prog f (f.blocks.getD i default) ++ (endOf lift prog f i).before

def rawBlocks : List Block :=
  f.blocks.mapIdx (fun i b =>
      ⟨i, b.start, bodyOf lift prog f i ++ (endOf lift prog f i).last.toList,
        (endOf lift prog f i).succ, []⟩) ++
    (tailTargets prog f f.blocks).mapIdx fun n t =>
      ⟨f.blocks.length + n, t.2, [.ret (some (tailCall (.direct t.1) prog.bits))], [], []⟩

def fillPreds (blocks : List Block) : List Block :=
  blocks.map fun b =>
    { b with pred := blocks.flatMap fun p => (p.succ.filter (· == b.id)).map fun _ => p.id }

def entryImports : List HeldImports :=
  blockEntryImports prog (fillPreds (rawBlocks lift prog f)) f.entry

def buildIr : IrFunction where
  entry := f.entry
  name := f.name
  bits := prog.bits
  regParams := []
  frameBaseValues := []
  fp80Values := []
  entryValues := []
  blocks := (fillPreds (rawBlocks lift prog f)).mapIdx fun i b =>
    { b with stmts := nameBlock prog ((entryImports lift prog f).getD i []) b.stmts }
  nextValue := 0
  nextTemp := 0

end

end Aret
