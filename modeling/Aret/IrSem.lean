/-
What a function of the IR does when it runs.

The meaning follows the code's own interpreters: the statements of a block run
in order, a jump, branch or switch only settles where the block goes next, a
return ends the run, and control moves along the edges of the graph.  The phis
of a block are read at once, at the slot of the predecessor control came from.

Design notes: a run shows its stores, calls, decisions and return values, and
which of the first `watched` blocks it visits (blocks a pass adds come later).
The widths of operands are recovered from their syntax further on, so an
operator may look at the shape of its operands: the trees with names erased.
-/
import Aret.Ir
import Aret.Simulation

namespace Aret

/-- `is_versioned`: the locations that SSA form renames. -/
def Location.isVersioned : Location → Bool
  | .reg _ | .flag _ | .temp _ => true
  | _ => false

mutual

/-- An expression with the names of versioned locations and of values erased. -/
def Expr.shape : Expr → Expr
  | .const v ty => .const v ty
  | .read l => if l.isVersioned then .use 0 else .read l
  | .use _ => .use 0
  | .load a ty => .load a.shape ty
  | .unary op x => .unary op x.shape
  | .binary op a b => .binary op a.shape b.shape
  | .cast ty x => .cast ty x.shape
  | .addr l => .addr l
  | .call (.direct a) args ret => .call (.direct a) (shapes args) ret
  | .call (.indirect e) args ret => .call (.indirect e.shape) (shapes args) ret
  | .call (.named n) args ret => .call (.named n) (shapes args) ret
  | .select c t e => .select c.shape t.shape e.shape
  | .phi _ => .phi []
  | .undef => .undef

def Expr.shapes : List Expr → List Expr
  | [] => []
  | e :: es => e.shape :: shapes es

end

structure Interp where
  Val : Type
  Mem : Type
  const : ℤ → Ty → Val
  addr : Location → Val
  undef : Val
  load : Mem → Val → Ty → Val
  store : Mem → Val → Val → Ty → Mem
  unary : UnOp → Expr → Val → Val
  binary : BinOp → Expr → Expr → Val → Val → Val
  cast : Ty → Expr → Val → Val
  call : CallTarget Val → List Val → Ty → Mem → Val × Mem
  /-- The effect of an unmodelled instruction; none when it aborts. -/
  asm : String → Mem → Option Mem
  truth : Val → Bool
  isCase : Val → ℤ → Bool

inductive Event (V : Type) where
  | visit (b : ℕ)
  | store (addr value : V) (ty : Ty)
  | call (target : CallTarget V) (args : List V)
  | branch (taken : Bool)
  | switch (case : Option ℤ)
  | ret (value : Option V)
  | asm (text : String)
  /-- A transfer along no edge, or a phi with no slot for it. -/
  | stuck

namespace Interp

variable (I : Interp)

structure Store where
  loc : Location → I.Val
  val : ValueId → I.Val

/-- Memory, and what has been seen so far. -/
structure World where
  mem : I.Mem
  trace : List (Event I.Val)

variable {I}

def Store.setLoc (ρ : I.Store) (l : Location) (v : I.Val) : I.Store :=
  { ρ with loc := Function.update ρ.loc l v }

def Store.setVal (ρ : I.Store) (x : ValueId) (v : I.Val) : I.Store :=
  { ρ with val := Function.update ρ.val x v }

@[simp] theorem Store.setLoc_loc (ρ : I.Store) (l : Location) (v : I.Val) :
    (ρ.setLoc l v).loc = Function.update ρ.loc l v := rfl

@[simp] theorem Store.setVal_val (ρ : I.Store) (x : ValueId) (v : I.Val) :
    (ρ.setVal x v).val = Function.update ρ.val x v := rfl

def World.emit (w : I.World) (e : Event I.Val) : I.World := { w with trace := w.trace ++ [e] }

variable (I)

def runCall (target : CallTarget I.Val) (args : List I.Val) (ret : Ty) (w : I.World) :
    I.Val × I.World :=
  let r := I.call target args ret w.mem
  (r.1, ({ w with mem := r.2 } : I.World).emit (.call target args))

mutual

def eval (ρ : I.Store) : Expr → I.World → I.Val × I.World
  | .const v ty, w => (I.const v ty, w)
  | .read l, w => (ρ.loc l, w)
  | .use x, w => (ρ.val x, w)
  | .load a ty, w =>
    let r := eval ρ a w
    (I.load r.2.mem r.1 ty, r.2)
  | .unary op x, w =>
    let r := eval ρ x w
    (I.unary op x.shape r.1, r.2)
  | .binary op a b, w =>
    let r := eval ρ a w
    let q := eval ρ b r.2
    (I.binary op a.shape b.shape r.1 q.1, q.2)
  | .cast ty x, w =>
    let r := eval ρ x w
    (I.cast ty x.shape r.1, r.2)
  | .addr l, w => (I.addr l, w)
  | .call (.direct a) args ret, w =>
    let r := evalArgs ρ args w
    I.runCall (.direct a) r.1 ret r.2
  | .call (.indirect e) args ret, w =>
    let t := eval ρ e w
    let r := evalArgs ρ args t.2
    I.runCall (.indirect t.1) r.1 ret r.2
  | .call (.named n) args ret, w =>
    let r := evalArgs ρ args w
    I.runCall (.named n) r.1 ret r.2
  | .select c t e, w =>
    let r := eval ρ c w
    if I.truth r.1 then eval ρ t r.2 else eval ρ e r.2
  | .phi _, w => (I.undef, w)
  | .undef, w => (I.undef, w)

def evalArgs (ρ : I.Store) : List Expr → I.World → List I.Val × I.World
  | [], w => ([], w)
  | e :: es, w =>
    let r := eval ρ e w
    let q := evalArgs ρ es r.2
    (r.1 :: q.1, q.2)

end

inductive Exit where
  | next (target : Option ℕ) (ρ : I.Store) (w : I.World)
  | halt (ρ : I.Store) (w : I.World)

def selectCase (v : I.Val) (cases : List (ℤ × ℕ)) : Option (ℤ × ℕ) :=
  cases.find? fun c => I.isCase v c.1

/-- The statements of a block from the first on; `next` is where control goes
after them, as settled so far. -/
def exec : List Stmt → Option ℕ → I.Store → I.World → I.Exit
  | [], next, ρ, w => .next next ρ w
  | .set l e :: rest, next, ρ, w =>
    let r := I.eval ρ e w
    exec rest next (ρ.setLoc l r.1) r.2
  | .assign x e :: rest, next, ρ, w =>
    let r := I.eval ρ e w
    exec rest next (ρ.setVal x r.1) r.2
  | .store a v ty :: rest, next, ρ, w =>
    let r := I.eval ρ a w
    let q := I.eval ρ v r.2
    exec rest next ρ
      (({ q.2 with mem := I.store q.2.mem r.1 q.1 ty } : I.World).emit (.store r.1 q.1 ty))
  | .branch c t f :: rest, _, ρ, w =>
    let r := I.eval ρ c w
    exec rest (some (if I.truth r.1 then t else f)) ρ (r.2.emit (.branch (I.truth r.1)))
  | .jump t :: rest, _, ρ, w => exec rest (some t) ρ w
  | .switch v cases d :: rest, _, ρ, w =>
    let r := I.eval ρ v w
    let c := I.selectCase r.1 cases
    exec rest (some ((c.map Prod.snd).getD d)) ρ (r.2.emit (.switch (c.map Prod.fst)))
  | .ret none :: _, _, ρ, w => .halt ρ (w.emit (.ret none))
  | .ret (some e) :: _, _, ρ, w =>
    let r := I.eval ρ e w
    .halt ρ (r.2.emit (.ret (some r.1)))
  | .callStmt e :: rest, next, ρ, w => exec rest next ρ (I.eval ρ e w).2
  | .asm text :: rest, next, ρ, w =>
    match I.asm text w.mem with
    | none => .halt ρ (w.emit (.asm text))
    | some mem => exec rest next ρ (({ w with mem := mem } : I.World).emit (.asm text))
  | .nop :: rest, next, ρ, w => exec rest next ρ w

end Interp

/-! ### Blocks and runs -/

def Stmt.phi? : Stmt → Option (ValueId × List ValueId)
  | .assign x (.phi args) => some (x, args)
  | _ => none

def Block.phis (b : Block) : List (ValueId × List ValueId) := b.stmts.filterMap Stmt.phi?

def Block.body (b : Block) : List Stmt := b.stmts.filter fun s => s.phi?.isNone

namespace Interp

variable (I : Interp)

/-- A point of a run: before the body of a block, or at its end. -/
structure Config where
  pc : Option ℕ
  ρ : I.Store
  w : I.World

variable {I} in
/-- The values phis take, each from its argument at `slot`. -/
def readPhis (ρ : I.Store) (slot : Option ℕ) (phis : List (ValueId × List ValueId)) :
    Option (List (ValueId × I.Val)) :=
  phis.mapM fun φ => do
    let j ← slot
    let a ← φ.2[j]?
    return (φ.1, ρ.val a)

variable {I} in
def Store.setVals (ρ : I.Store) (xs : List (ValueId × I.Val)) : I.Store :=
  xs.foldl (fun ρ x => ρ.setVal x.1 x.2) ρ

section
variable {I}

@[simp] theorem Store.setVals_loc (ρ : I.Store) (xs : List (ValueId × I.Val)) :
    (ρ.setVals xs).loc = ρ.loc := by
  induction xs generalizing ρ with
  | nil => rfl
  | cons y xs ih => exact ih (ρ.setVal y.1 y.2)

theorem Store.setVals_of_not_mem {ρ : I.Store} {xs : List (ValueId × I.Val)} {x : ValueId}
    (hx : x ∉ xs.map Prod.fst) : (ρ.setVals xs).val x = ρ.val x := by
  induction xs generalizing ρ with
  | nil => rfl
  | cons y xs ih =>
    rw [List.map_cons, List.mem_cons, not_or] at hx
    have hrest : ((ρ.setVal y.1 y.2).setVals xs).val x = (ρ.setVal y.1 y.2).val x := ih hx.2
    rw [Store.setVal_val, Function.update_of_ne hx.1] at hrest
    exact hrest

theorem Store.setVals_of_mem {ρ : I.Store} {xs : List (ValueId × I.Val)}
    (hnodup : (xs.map Prod.fst).Nodup) {x : ValueId × I.Val} (hx : x ∈ xs) :
    (ρ.setVals xs).val x.1 = x.2 := by
  induction xs generalizing ρ with
  | nil => cases hx
  | cons y xs ih =>
    obtain ⟨hy, hnodup⟩ := List.nodup_cons.mp hnodup
    rcases List.mem_cons.mp hx with rfl | hx
    · have hrest : ((ρ.setVal x.1 x.2).setVals xs).val x.1 = (ρ.setVal x.1 x.2).val x.1 :=
        Store.setVals_of_not_mem hy
      rw [Store.setVal_val, Function.update_self] at hrest
      exact hrest
    · exact ih hnodup hx

theorem readPhis_of_slot {ρ : I.Store} {j : ℕ} {phis : List (ValueId × List ValueId)}
    {arg : ValueId × List ValueId → ValueId} (h : ∀ φ ∈ phis, φ.2[j]? = some (arg φ)) :
    readPhis ρ (some j) phis = some (phis.map fun φ => (φ.1, ρ.val (arg φ))) := by
  induction phis with
  | nil => rfl
  | cons φ phis ih =>
    obtain ⟨hφ, hphis⟩ := List.forall_mem_cons.mp h
    have hrest := ih hphis
    rw [readPhis] at hrest ⊢
    rw [List.mapM_cons, hrest]
    simp [hφ]

theorem readPhis_nil (ρ : I.Store) (slot : Option ℕ) : readPhis ρ slot [] = some [] := rfl

end

variable {I} in
def Config.stuck (ρ : I.Store) (w : I.World) : I.Config := ⟨none, ρ, w.emit .stuck⟩

variable (watched : ℕ) (f : IrFunction)

variable {I} in
/-- Control arrives at block `t`, from block `p` or at the start of the run. -/
def enter (p : Option ℕ) (t : ℕ) (ρ : I.Store) (w : I.World) : I.Config :=
  match f.blocks[t]? with
  | none => .stuck ρ w
  | some b =>
    match readPhis ρ (p.bind fun p => b.pred.idxOf? p) b.phis with
    | none => .stuck ρ w
    | some xs => ⟨some t, ρ.setVals xs, if t < watched then w.emit (.visit t) else w⟩

variable {I} in
/-- Control leaves block `p`. -/
def leave (p : ℕ) : I.Exit → I.Config
  | .halt ρ w => ⟨none, ρ, w⟩
  | .next none ρ w => .stuck ρ w
  | .next (some t) ρ w =>
    if t ∈ (f.block p).succ then enter watched f (some p) t ρ w else .stuck ρ w

def step (c : I.Config) : Option I.Config :=
  c.pc.map fun p => leave watched f p (I.exec (f.block p).body none c.ρ c.w)

variable {I watched f} in
theorem step_of_pc {c : I.Config} {p : ℕ} (h : c.pc = some p) :
    I.step watched f c = some (leave watched f p (I.exec (f.block p).body none c.ρ c.w)) := by
  rw [step, h, Option.map_some]

variable {I watched f} in
theorem step_eq_none {c : I.Config} : I.step watched f c = none ↔ c.pc = none := by
  rw [step, Option.map_eq_none_iff]

variable {I} in
def start (ρ : I.Store) (mem : I.Mem) : I.Config := enter watched f none f.entryIndex ρ ⟨mem, []⟩

/-! ### What has been seen stays -/

section
variable {I}

theorem World.trace_emit (w : I.World) (e : Event I.Val) : w.trace <+: (w.emit e).trace :=
  List.prefix_append w.trace [e]

theorem World.trace_emit_mem (w : I.World) (mem : I.Mem) (e : Event I.Val) :
    w.trace <+: (({ w with mem := mem } : I.World).emit e).trace :=
  List.prefix_append w.trace [e]

theorem trace_runCall (t : CallTarget I.Val) (args : List I.Val) (ret : Ty) (w : I.World) :
    w.trace <+: (I.runCall t args ret w).2.trace :=
  List.prefix_append w.trace _

mutual

theorem trace_eval (ρ : I.Store) : ∀ (e : Expr) (w : I.World), w.trace <+: (I.eval ρ e w).2.trace
  | .load a _, w | .unary _ a, w | .cast _ a, w => trace_eval ρ a w
  | .binary _ a b, w => (trace_eval ρ a w).trans (trace_eval ρ b _)
  | .call (.direct _) args _, w | .call (.named _) args _, w =>
    (trace_evalArgs ρ args w).trans (trace_runCall _ _ _ _)
  | .call (.indirect e) args _, w =>
    ((trace_eval ρ e w).trans (trace_evalArgs ρ args _)).trans (trace_runCall _ _ _ _)
  | .select c t e, w => by
    rw [eval]
    split_ifs
    · exact (trace_eval ρ c w).trans (trace_eval ρ t _)
    · exact (trace_eval ρ c w).trans (trace_eval ρ e _)
  | .const _ _, w | .read _, w | .use _, w | .addr _, w | .phi _, w | .undef, w =>
    List.prefix_refl w.trace

theorem trace_evalArgs (ρ : I.Store) : ∀ (es : List Expr) (w : I.World),
    w.trace <+: (I.evalArgs ρ es w).2.trace
  | [], w => List.prefix_refl w.trace
  | e :: es, w => (trace_eval ρ e w).trans (trace_evalArgs ρ es _)

end

def Exit.world : I.Exit → I.World
  | .next _ _ w | .halt _ w => w

theorem trace_exec (ss : List Stmt) (next : Option ℕ) (ρ : I.Store) (w : I.World) :
    w.trace <+: (I.exec ss next ρ w).world.trace := by
  induction ss generalizing next ρ w with
  | nil => exact List.prefix_refl w.trace
  | cons s ss ih =>
    cases s with
    | set l e => exact (trace_eval ρ e w).trans (ih _ _ _)
    | assign x e => exact (trace_eval ρ e w).trans (ih _ _ _)
    | store a v ty =>
      exact (((trace_eval ρ a w).trans (trace_eval ρ v _)).trans
        (World.trace_emit_mem _ _ _)).trans (ih _ _ _)
    | branch c t f =>
      exact ((trace_eval ρ c w).trans (World.trace_emit _ _)).trans (ih _ _ _)
    | jump t => exact ih _ _ _
    | switch v cases d =>
      exact ((trace_eval ρ v w).trans (World.trace_emit _ _)).trans (ih _ _ _)
    | ret e =>
      cases e with
      | none => exact World.trace_emit _ _
      | some e => exact (trace_eval ρ e w).trans (World.trace_emit _ _)
    | callStmt e => exact (trace_eval ρ e w).trans (ih _ _ _)
    | asm t =>
      rw [exec]
      cases I.asm t w.mem with
      | none => exact World.trace_emit _ _
      | some mem => exact (World.trace_emit_mem _ _ _).trans (ih _ _ _)
    | nop => exact ih _ _ _

variable {watched f}

theorem trace_enter (p : Option ℕ) (t : ℕ) (ρ : I.Store) (w : I.World) :
    w.trace <+: (enter watched f p t ρ w).w.trace := by
  rw [enter]
  split
  · exact World.trace_emit _ _
  · split
    · exact World.trace_emit _ _
    · show w.trace <+: (if t < watched then w.emit (.visit t) else w).trace
      split_ifs
      · exact World.trace_emit _ _
      · exact List.prefix_refl _

theorem trace_leave (p : ℕ) (e : I.Exit) : e.world.trace <+: (leave watched f p e).w.trace := by
  rcases e with ⟨_ | t, ρ, w⟩ | ⟨ρ, w⟩
  · exact World.trace_emit _ _
  · rw [leave]
    split_ifs
    · exact trace_enter _ _ _ _
    · exact World.trace_emit _ _
  · exact List.prefix_refl _

theorem trace_runN (n : ℕ) (c : I.Config) :
    c.w.trace <+: (Sim.runN (I.step watched f) n c).w.trace := by
  induction n generalizing c with
  | zero => exact List.prefix_refl _
  | succ n ih =>
    cases hpc : c.pc with
    | none => rw [Sim.runN_of_end (step_eq_none.mpr hpc)]
    | some p =>
      rw [Sim.runN_of_step (step_of_pc hpc)]
      exact ((trace_exec _ _ _ _).trans (trace_leave _ _)).trans (ih _)

end

end Interp

/-- `g` from `ρ'` runs as `f` from `ρ` does: the memory and everything seen are
the same, at every stage and at the end. -/
def RunsLike (I : Interp) (watched : ℕ) (f g : IrFunction) (ρ ρ' : I.Store) (mem : I.Mem) : Prop :=
  Sim.SameRuns (I.step watched f) Interp.Config.w (I.step watched g) Interp.Config.w
    (Interp.start watched f ρ mem) (Interp.start watched g ρ' mem)

/-! ### Functions before SSA -/

mutual

def Expr.preSsa : Expr → Bool
  | .use _ | .phi _ => false
  | .const _ _ | .read _ | .addr _ | .undef => true
  | .load a _ => a.preSsa
  | .unary _ x | .cast _ x => x.preSsa
  | .binary _ a b => a.preSsa && b.preSsa
  | .call (.indirect e) args _ => e.preSsa && preSsas args
  | .call (.direct _) args _ | .call (.named _) args _ => preSsas args
  | .select c t e => c.preSsa && t.preSsa && e.preSsa

def Expr.preSsas : List Expr → Bool
  | [] => true
  | e :: es => e.preSsa && preSsas es

end

def Stmt.preSsa : Stmt → Bool
  | .set _ e | .callStmt e | .ret (some e) | .branch e _ _ | .switch e _ _ => e.preSsa
  | .store a v _ => a.preSsa && v.preSsa
  | .assign .. => false
  | .jump _ | .ret none | .asm _ | .nop => true

/-- The graph of a function is in order: ids are indices, and predecessor and
successor lists are each other's transpose (a block past the end has neither). -/
structure IrFunction.GraphOk (f : IrFunction) : Prop where
  id : ∀ (i : ℕ) (b : Block), f.blocks[i]? = some b → b.id = i
  transpose : ∀ i j, j ∈ (f.block i).succ ↔ i ∈ (f.block j).pred

def IrFunction.PreSsa (f : IrFunction) : Prop := ∀ b ∈ f.blocks, ∀ s ∈ b.stmts, s.preSsa = true

end Aret
