/-
SSA construction.

The model of `to_ssa`: an entry block with predecessors gets a pre-header, phis
are placed at the iterated dominance frontiers of the definition sites, and a
walk over the dominator tree gives every definition a fresh value and every read
the value on top of its location's stack.

Design notes: stack and phi lists are functions of their keys, the insertion
ordered maps (and the map of entry versions, whose order the code leaves open)
are association lists, and loops over worklists take a bound on their rounds.
-/
import Aret.Dom
import Aret.IrSem
import Mathlib.Data.List.Sort

namespace Aret

structure Phi where
  var : Location
  dst : ValueId
  args : List ValueId

/-- `is_fp80_loc`: an x87 stack slot or swap scratch. -/
def isFp80Loc : Location → Bool
  | .reg r => decide (96 ≤ r ∧ r < 112)
  | _ => false

/-! ### The pre-header -/

/-- `synth`: an address past those of all blocks. -/
def IrFunction.synthAddr (f : IrFunction) : ℕ := (f.blocks.map Block.addr).foldr max 0 + 1

/-- The header moves to the fresh address, and gets the pre-header as its last
predecessor. -/
def splitEntry (f : IrFunction) : IrFunction :=
  let entry0 := f.entryIndex
  if (f.block entry0).pred.isEmpty then f
  else
    let ph := f.blocks.length
    let header :=
      { f.block entry0 with addr := f.synthAddr, pred := (f.block entry0).pred ++ [ph] }
    { f with
      blocks := f.blocks.set entry0 header ++ [⟨ph, f.entry, [.jump entry0], [entry0], []⟩] }

/-! ### Phi placement -/

/-- `defsites`: for each versioned location set somewhere, in the order of first
definitions, the blocks that set it (once for each statement). -/
def addSite (b : ℕ) : List (Location × List ℕ) → Location → List (Location × List ℕ)
  | [], l => [(l, [b])]
  | (l', sites) :: rest, l =>
    if l' = l then (l', sites ++ [b]) :: rest else (l', sites) :: addSite b rest l

def versionedSets (stmts : List Stmt) : List Location :=
  stmts.filterMap fun
    | .set l _ => if l.isVersioned then some l else none
    | _ => none

def defsites (blocks : List Block) : List (Location × List ℕ) :=
  (blocks.zipIdx).foldl
    (fun sites p => (versionedSets p.1.stmts).foldl (addSite p.2) sites) []

/-- One block off the worklist: every block of its frontier gets a phi, and is
put on the worklist unless it is a definition site itself. -/
def placeAt (sites : List ℕ) (st : List ℕ × List ℕ) (d : ℕ) : List ℕ × List ℕ :=
  if d ∈ st.1 then st else (st.1 ++ [d], if d ∈ sites then st.2 else d :: st.2)

def placeLoop (df : ℕ → List ℕ) (sites : List ℕ) : ℕ → List ℕ → List ℕ → List ℕ
  | 0, hasPhi, _ => hasPhi
  | _ + 1, hasPhi, [] => hasPhi
  | fuel + 1, hasPhi, b :: work =>
    let st := (df b).foldl (placeAt sites) (hasPhi, work)
    placeLoop df sites fuel st.1 st.2

/-- The blocks that get a phi for a location set in `sites`; the worklist is a
stack, last site first. -/
def placePhis (n : ℕ) (df : ℕ → List ℕ) (sites : List ℕ) : List ℕ :=
  placeLoop df sites (sites.length + n + 1) [] sites.reverse

/-- The phis of block `d`, by location in the order of `defsites`. -/
def initPhis (n : ℕ) (df preds : ℕ → List ℕ) (sites : List (Location × List ℕ)) (d : ℕ) :
    List Phi :=
  sites.filterMap fun s =>
    if d ∈ placePhis n df s.2 then
      some ⟨s.1, 0, List.replicate (preds d).length 4294967295⟩
    else none

/-! ### Versions -/

structure Versions where
  counter : ℕ
  stack : Location → List ValueId
  undef : List (Location × ValueId)
  fp80 : List ValueId

namespace Versions

/-- `top`: the version in force; a location with none gets its entry version. -/
def top (vs : Versions) (l : Location) : ValueId × Versions :=
  match vs.stack l with
  | x :: _ => (x, vs)
  | [] =>
    match vs.undef.lookup l with
    | some x => (x, vs)
    | none =>
      (vs.counter, { vs with counter := vs.counter + 1, undef := vs.undef ++ [(l, vs.counter)] })

def define (vs : Versions) (l : Location) : ValueId × Versions :=
  (vs.counter,
    { vs with
      counter := vs.counter + 1
      stack := Function.update vs.stack l (vs.counter :: vs.stack l)
      fp80 := if isFp80Loc l then vs.fp80 ++ [vs.counter] else vs.fp80 })

@[simp] theorem define_stack (vs : Versions) (l : Location) :
    (vs.define l).2.stack = Function.update vs.stack l ((vs.define l).1 :: vs.stack l) := rfl

def pop (vs : Versions) (vars : List Location) : Versions :=
  vars.foldl (fun vs l => { vs with stack := Function.update vs.stack l (vs.stack l).tail }) vs

end Versions

mutual

/-- `rewrite_reads`: every read of a versioned location becomes a use. -/
def rewriteReads : Expr → Versions → Expr × Versions
  | .read l, vs =>
    if l.isVersioned then
      let r := vs.top l
      (.use r.1, r.2)
    else (.read l, vs)
  | .load a ty, vs =>
    let r := rewriteReads a vs
    (.load r.1 ty, r.2)
  | .unary op x, vs =>
    let r := rewriteReads x vs
    (.unary op r.1, r.2)
  | .binary op a b, vs =>
    let r := rewriteReads a vs
    let q := rewriteReads b r.2
    (.binary op r.1 q.1, q.2)
  | .cast ty x, vs =>
    let r := rewriteReads x vs
    (.cast ty r.1, r.2)
  | .select c t e, vs =>
    let r := rewriteReads c vs
    let q := rewriteReads t r.2
    let s := rewriteReads e q.2
    (.select r.1 q.1 s.1, s.2)
  | .call (.indirect x) args ret, vs =>
    let r := rewriteReads x vs
    let q := rewriteArgs args r.2
    (.call (.indirect r.1) q.1 ret, q.2)
  | .call (.direct a) args ret, vs =>
    let q := rewriteArgs args vs
    (.call (.direct a) q.1 ret, q.2)
  | .call (.named n) args ret, vs =>
    let q := rewriteArgs args vs
    (.call (.named n) q.1 ret, q.2)
  | .const v ty, vs => (.const v ty, vs)
  | .use x, vs => (.use x, vs)
  | .addr l, vs => (.addr l, vs)
  | .phi args, vs => (.phi args, vs)
  | .undef, vs => (.undef, vs)

def rewriteArgs : List Expr → Versions → List Expr × Versions
  | [], vs => ([], vs)
  | e :: es, vs =>
    let r := rewriteReads e vs
    let q := rewriteArgs es r.2
    (r.1 :: q.1, q.2)

end

def rewriteStmt : Stmt → Versions → Stmt × Versions
  | .store a v ty, vs =>
    let r := rewriteReads a vs
    let q := rewriteReads v r.2
    (.store r.1 q.1 ty, q.2)
  | .branch c t f, vs =>
    let r := rewriteReads c vs
    (.branch r.1 t f, r.2)
  | .switch v cases d, vs =>
    let r := rewriteReads v vs
    (.switch r.1 cases d, r.2)
  | .ret (some e), vs =>
    let r := rewriteReads e vs
    (.ret (some r.1), r.2)
  | .callStmt e, vs =>
    let r := rewriteReads e vs
    (.callStmt r.1, r.2)
  | .set l e, vs =>
    let r := rewriteReads e vs
    (.set l r.1, r.2)
  | s, vs => (s, vs)

def renameStmts : List Stmt → Versions → List Stmt × Versions × List Location
  | [], vs => ([], vs, [])
  | .set l e :: rest, vs =>
    if l.isVersioned then
      let r := rewriteReads e vs
      let d := r.2.define l
      let q := renameStmts rest d.2
      (.assign d.1 r.1 :: q.1, q.2.1, l :: q.2.2)
    else
      let r := rewriteStmt (.set l e) vs
      let q := renameStmts rest r.2
      (r.1 :: q.1, q.2)
  | s :: rest, vs =>
    let r := rewriteStmt s vs
    let q := renameStmts rest r.2
    (r.1 :: q.1, q.2)

def namePhis : List Phi → Versions → List Phi × Versions
  | [], vs => ([], vs)
  | φ :: rest, vs =>
    let d := vs.define φ.var
    let q := namePhis rest d.2
    ({ φ with dst := d.1 } :: q.1, q.2)

/-- The phis of a successor get the versions in force as arguments at slot `j`. -/
def fillPhis (j : ℕ) : List Phi → Versions → List Phi × Versions
  | [], vs => ([], vs)
  | φ :: rest, vs =>
    let t := vs.top φ.var
    let q := fillPhis j rest t.2
    ({ φ with args := φ.args.set j t.1 } :: q.1, q.2)

/-- The phis of all successors of `b`. -/
def fillSuccs (preds : ℕ → List ℕ) (b : ℕ) :
    List ℕ → (ℕ → List Phi) → Versions → (ℕ → List Phi) × Versions
  | [], phis, vs => (phis, vs)
  | s :: rest, phis, vs =>
    let q := fillPhis ((preds s).idxOf b) (phis s) vs
    fillSuccs preds b rest (Function.update phis s q.1) q.2

/-! ### The walk over the dominator tree -/

inductive RenameStep where
  | enter (b : ℕ)
  | pop (vars : List Location)

structure Renaming where
  vers : Versions
  phis : ℕ → List Phi
  stmts : ℕ → List Stmt

section
variable (succ preds children : ℕ → List ℕ)

/-- `Step::Enter`, without the steps it schedules: the renaming, and the
locations the block has defined. -/
def Renaming.enter (st : Renaming) (b : ℕ) : Renaming × List Location :=
  let p := namePhis (st.phis b) st.vers
  let q := renameStmts (st.stmts b) p.2
  let r := fillSuccs preds b (succ b) (Function.update st.phis b p.1) q.2.1
  (⟨r.2, r.1, Function.update st.stmts b q.1⟩, p.1.map Phi.var ++ q.2.2)

/-- The loop; `work` is a stack, so the last child is entered first. -/
def renameLoop : ℕ → List RenameStep → Renaming → Renaming
  | 0, _, st => st
  | _ + 1, [], st => st
  | fuel + 1, .pop vars :: work, st => renameLoop fuel work { st with vers := st.vers.pop vars }
  | fuel + 1, .enter b :: work, st =>
    let r := st.enter succ preds b
    renameLoop fuel (((children b).reverse.map .enter) ++ .pop r.2 :: work) r.1

end

/-! ### The pass -/

/-- The registers passed to the function, and the values made up for those that
are not read before they are written. -/
def passRegParams (undef : List (Location × ValueId)) (regs : List ℕ) (next : ℕ) :
    List ValueId × ℕ :=
  regs.foldl (fun st r =>
    match undef.lookup (.reg r) with
    | some v => (st.1 ++ [v], st.2)
    | none => (st.1 ++ [st.2], st.2 + 1)) ([], next)

namespace IrFunction

variable (f : IrFunction)

def succOf (i : ℕ) : List ℕ := (f.block i).succ

def predOf (i : ℕ) : List ℕ := (f.block i).pred

def idom : ℕ → Option ℕ := dominators f.blocks.length f.entryIndex f.succOf f.predOf

/-- `df`. -/
def frontier : ℕ → List ℕ := dominanceFrontiers f.blocks.length f.predOf f.idom

def children (p : ℕ) : List ℕ :=
  (List.range f.blocks.length).filter fun i => decide (i ≠ f.entryIndex ∧ f.idom i = some p ∧ p ≠ i)

def blankPhis : ℕ → List Phi := initPhis f.blocks.length f.frontier f.predOf (defsites f.blocks)

def renamed : Renaming :=
  renameLoop f.succOf f.predOf f.children (2 * f.blocks.length) [.enter f.entryIndex]
    ⟨⟨0, fun _ => [], [], []⟩, f.blankPhis, fun i => (f.block i).stmts⟩

end IrFunction

def Renaming.block (st : Renaming) (f : IrFunction) (i : ℕ) : Block :=
  { f.block i with
    stmts := (st.phis i).map (fun φ => .assign φ.dst (.phi φ.args)) ++ st.stmts i }

/-- Everything after the pre-header: placement, renaming, and the lists of entry
values. -/
def constructSsa (sharedStack : Bool) (f : IrFunction) : IrFunction :=
  let vers := f.renamed.vers
  let params :=
    if f.bits = 64 then
      ([7, 6, 2, 1, 8, 9].filterMap fun r => vers.undef.lookup (.reg r), vers.counter)
    else if sharedStack then passRegParams vers.undef [0, 1, 2, 5, 6, 7, 3] vers.counter
    else ([], vers.counter)
  let frameRegs := if sharedStack then [4] else [4, 5]
  let fp80 := vers.fp80 ++ (vers.undef.filter fun p => isFp80Loc p.1).map Prod.snd
  { f with
    blocks := (List.range f.blocks.length).map (f.renamed.block f)
    nextValue := params.2
    regParams := f.regParams ++ params.1
    frameBaseValues :=
      f.frameBaseValues ++ frameRegs.filterMap fun r => vers.undef.lookup (.reg r)
    fp80Values := (fp80.insertionSort (· ≤ ·)).dedup
    entryValues := vers.undef }

/-- `to_ssa`; `sharedStack` is the emitter's mode. -/
def toSsa (sharedStack : Bool) (f : IrFunction) : IrFunction :=
  if f.blocks.isEmpty then f else constructSsa sharedStack (splitEntry f)

end Aret
