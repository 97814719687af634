/-
Propagation and dead-code elimination.

The model of the two passes that the optimiser repeats on SSA form.  The code
follows a chain of definitions to its end, and the model follows at most a given
number of them.
-/
import Aret.SsaPlace

namespace Aret

/-! ### What an expression may do -/

/-- `contains_side_effect`: it cannot be moved or copied. -/
def Expr.containsSideEffect : Expr → Bool
  | .load .. | .call .. | .read _ => true
  | .unary _ x | .cast _ x => x.containsSideEffect
  | .binary _ a b => a.containsSideEffect || b.containsSideEffect
  | .select c t e => c.containsSideEffect || t.containsSideEffect || e.containsSideEffect
  | .const .. | .use _ | .addr _ | .phi _ | .undef => false

/-- `is_pure_helper`: runtime helpers whose dead calls may go. -/
def isPureHelper (name : String) : Bool :=
  ["__ix_pf", "__ix_cpuid", "__ix_xgetbv"].contains name ||
    ["__fp_", "__pi_", "__ps_", "__x87_"].any
      fun p => p.toList.isPrefixOf name.toList

mutual

/-- `has_impure_call`: it cannot be dropped. -/
def Expr.hasImpureCall : Expr → Bool
  | .call (.named n) args _ => !isPureHelper n || anyImpureCall args
  | .call (.direct _) _ _ | .call (.indirect _) _ _ => true
  | .load a _ => a.hasImpureCall
  | .unary _ x | .cast _ x => x.hasImpureCall
  | .binary _ a b => a.hasImpureCall || b.hasImpureCall
  | .select c t e => c.hasImpureCall || t.hasImpureCall || e.hasImpureCall
  | .const .. | .read _ | .use _ | .addr _ | .phi _ | .undef => false

def Expr.anyImpureCall : List Expr → Bool
  | [] => false
  | e :: es => e.hasImpureCall || anyImpureCall es

end

mutual

def Expr.uses : Expr → List ValueId
  | .use v => [v]
  | .phi args => args
  | .load a _ => a.uses
  | .unary _ x | .cast _ x => x.uses
  | .binary _ a b => a.uses ++ b.uses
  | .call (.indirect x) args _ => x.uses ++ usesOfArgs args
  | .call (.direct _) args _ | .call (.named _) args _ => usesOfArgs args
  | .select c t e => c.uses ++ t.uses ++ e.uses
  | .const .. | .read _ | .addr _ | .undef => []

def Expr.usesOfArgs : List Expr → List ValueId
  | [] => []
  | e :: es => e.uses ++ usesOfArgs es

end

namespace Stmt

def exprs : Stmt → List Expr
  | .set _ e | .assign _ e | .callStmt e | .branch e _ _ | .switch e _ _ | .ret (some e) => [e]
  | .store a v _ => [a, v]
  | .jump _ | .ret none | .asm _ | .nop => []

def mapExprs (g : Expr → Expr) : Stmt → Stmt
  | .set l e => .set l (g e)
  | .assign x e => .assign x (g e)
  | .callStmt e => .callStmt (g e)
  | .store a v ty => .store (g a) (g v) ty
  | .branch c t f => .branch (g c) t f
  | .switch v cases d => .switch (g v) cases d
  | .ret (some e) => .ret (some (g e))
  | s => s

/-- `for_each_use`. -/
def uses (s : Stmt) : List ValueId := s.exprs.flatMap Expr.uses

def assigned? : Stmt → Option (ValueId × Expr)
  | .assign x e => some (x, e)
  | _ => none

end Stmt

namespace IrFunction

def stmts (f : IrFunction) : List Stmt := f.blocks.flatMap Block.stmts

/-- `defs`: the definition of a value, the last one if there are several. -/
def defOf (f : IrFunction) (v : ValueId) : Option Expr :=
  (f.stmts.filterMap Stmt.assigned?).reverse.lookup v

/-- `uses`: how often a value is used. -/
def useCount (f : IrFunction) (v : ValueId) : ℕ := (f.stmts.flatMap Stmt.uses).count v

end IrFunction

/-! ### Propagation -/

section
variable (look : ValueId → Expr)

mutual

/-- `subst`, given what becomes of a use. -/
def substWith : Expr → Expr
  | .use v => look v
  | .load a ty => .load (substWith a) ty
  | .unary op x => .unary op (substWith x)
  | .binary op a b => .binary op (substWith a) (substWith b)
  | .cast ty x => .cast ty (substWith x)
  | .call (.indirect x) args ret => .call (.indirect (substWith x)) (substArgs args) ret
  | .call (.direct a) args ret => .call (.direct a) (substArgs args) ret
  | .call (.named n) args ret => .call (.named n) (substArgs args) ret
  | .select c t e => .select (substWith c) (substWith t) (substWith e)
  | .const v ty => .const v ty
  | .read l => .read l
  | .addr l => .addr l
  | .phi args => .phi args
  | .undef => .undef

def substArgs : List Expr → List Expr
  | [] => []
  | e :: es => substWith e :: substArgs es

end

end

/-- `subst` at a use: constants and copies always, other definitions that have no
side effect at their only use. -/
def resolve (defs : ValueId → Option Expr) (uses : ValueId → ℕ) : ℕ → ValueId → Expr
  | 0, v => .use v
  | fuel + 1, v =>
    match defs v with
    | none | some (.phi _) => .use v
    | some (.const c ty) => .const c ty
    | some (.use w) => resolve defs uses fuel w
    | some d =>
      if !d.containsSideEffect && uses v == 1 then substWith (resolve defs uses fuel) d
      else .use v

/-- `propagate`, along at most `fuel` definitions. -/
def propagate (fuel : ℕ) (f : IrFunction) : IrFunction :=
  { f with
    blocks := f.blocks.map fun b =>
      { b with
        stmts := b.stmts.map (Stmt.mapExprs (substWith (resolve f.defOf f.useCount fuel))) } }

/-! ### Dead-code elimination -/

/-- Whether `dce` keeps a statement. -/
def Stmt.isLive (uses : ValueId → ℕ) : Stmt → Bool
  | .assign x e => decide (0 < uses x) || e.hasImpureCall
  | _ => true

def dce (f : IrFunction) : IrFunction :=
  { f with
    blocks := f.blocks.map fun b => { b with stmts := b.stmts.filter (Stmt.isLive f.useCount) } }

def rounds (fuel : ℕ) : ℕ → IrFunction → IrFunction
  | 0, f => f
  | k + 1, f => rounds fuel k (dce (propagate fuel f))

/-! ### What the passes leave alone -/

def Stmt.gotos : Stmt → List ℕ
  | .branch _ t f => [t, f]
  | .jump t => [t]
  | .switch _ cases d => cases.map Prod.snd ++ [d]
  | _ => []

def Stmt.kind (s : Stmt) : Bool × Option (ValueId × List ValueId) × List ℕ :=
  (s.isControl, s.phi?, s.gotos)

/-- `g` has the graph of `f`, and each block some of the statements of `f`, with
other expressions; phis are as they were. -/
structure Trims (f g : IrFunction) : Prop where
  entry : g.entry = f.entry
  length : g.blocks.length = f.blocks.length
  edges : ∀ i, (g.block i).id = (f.block i).id ∧ (g.block i).addr = (f.block i).addr ∧
    (g.block i).succ = (f.block i).succ ∧ (g.block i).pred = (f.block i).pred
  kinds : ∀ i, ((g.block i).stmts.map Stmt.kind).Sublist ((f.block i).stmts.map Stmt.kind)

namespace Trims

variable {f g h : IrFunction}

theorem refl : Trims f f := ⟨rfl, rfl, fun _ => ⟨rfl, rfl, rfl, rfl⟩, fun _ => .refl _⟩

theorem trans (hfg : Trims f g) (hgh : Trims g h) : Trims f h where
  entry := hgh.entry.trans hfg.entry
  length := hgh.length.trans hfg.length
  edges := fun i => by
    obtain ⟨hid, haddr, hsucc, hpred⟩ := hfg.edges i
    obtain ⟨hid', haddr', hsucc', hpred'⟩ := hgh.edges i
    exact ⟨hid'.trans hid, haddr'.trans haddr, hsucc'.trans hsucc, hpred'.trans hpred⟩
  kinds := fun i => (hgh.kinds i).trans (hfg.kinds i)

theorem of_map {change : List Stmt → List Stmt} (h : ∀ ss,
    ((change ss).map Stmt.kind).Sublist (ss.map Stmt.kind)) :
    Trims f { f with blocks := f.blocks.map fun b => { b with stmts := change b.stmts } } := by
  have hblock : ∀ i, ({ f with blocks := f.blocks.map fun b =>
      { b with stmts := change b.stmts } } : IrFunction).block i
        = { f.block i with stmts := change (f.block i).stmts } ∨
      f.blocks.length ≤ i := by
    intro i
    by_cases hi : i < f.blocks.length
    · refine .inl ?_
      simp [IrFunction.block, List.getD_eq_getElem?_getD, List.getElem?_eq_getElem hi]
    · exact .inr (Nat.le_of_not_lt hi)
  have hdefault : ∀ i, f.blocks.length ≤ i → ({ f with blocks := f.blocks.map fun b =>
      { b with stmts := change b.stmts } } : IrFunction).block i = f.block i := by
    intro i hi
    simp [IrFunction.block, List.getD_eq_getElem?_getD, hi]
  refine ⟨rfl, by simp, fun i => ?_, fun i => ?_⟩
  · rcases hblock i with hb | hi
    · rw [hb]
      exact ⟨rfl, rfl, rfl, rfl⟩
    · rw [hdefault i hi]
      exact ⟨rfl, rfl, rfl, rfl⟩
  · rcases hblock i with hb | hi
    · rw [hb]
      exact h _
    · rw [hdefault i hi]

end Trims

theorem Trims.phis {f g : IrFunction} (h : Trims f g) (q : ℕ) :
    ((g.block q).phis).Sublist (f.block q).phis := by
  have hkinds : ∀ b : Block, b.phis = (b.stmts.map Stmt.kind).filterMap fun k => k.2.1 := by
    intro b
    rw [List.filterMap_map]
    rfl
  rw [hkinds, hkinds]
  exact (h.kinds q).filterMap _

theorem Trims.entryIndex {f g : IrFunction} (h : Trims f g) : g.entryIndex = f.entryIndex := by
  refine IrFunction.entryIndex_congr ?_ h.entry
  refine List.ext_getElem? fun q => ?_
  by_cases hq : q < f.blocks.length
  · rw [List.getElem?_map, List.getElem?_map, IrFunction.getElem?_block hq,
      IrFunction.getElem?_block (h.length ▸ hq), Option.map_some, Option.map_some, (h.edges q).2.1]
  · rw [List.getElem?_eq_none (by simp [h.length]; omega), List.getElem?_eq_none (by simp; omega)]

theorem substWith_eq_phi {look : ValueId → Expr} (hlook : ∀ v args, look v ≠ .phi args)
    {e : Expr} {args : List ValueId} : substWith look e = .phi args ↔ e = .phi args := by
  cases e with
  | use v => simp [substWith, hlook]
  | call t es ty => cases t <;> simp [substWith]
  | _ => simp [substWith]

theorem resolve_ne_phi (defs : ValueId → Option Expr) (uses : ValueId → ℕ) (fuel : ℕ)
    (v : ValueId) (args : List ValueId) : resolve defs uses fuel v ≠ .phi args := by
  induction fuel generalizing v args with
  | zero => simp [resolve]
  | succ fuel ih =>
    rw [resolve]
    split
    · simp
    · simp
    · simp
    · exact ih _ _
    · rename_i hphi _ _ _
      split_ifs
      · rw [Ne, substWith_eq_phi ih]
        rintro rfl
        exact hphi args rfl
      · simp

theorem kind_mapExprs {look : ValueId → Expr} (hlook : ∀ v args, look v ≠ .phi args) (s : Stmt) :
    (s.mapExprs (substWith look)).kind = s.kind := by
  cases s with
  | ret e => cases e <;> rfl
  | assign x e =>
    have hphi : (Stmt.assign x (substWith look e)).phi? = (Stmt.assign x e).phi? := by
      by_cases he : ∃ args, e = .phi args
      · obtain ⟨args, rfl⟩ := he
        rfl
      · have hnone : ∀ e : Expr, (∀ args, e ≠ .phi args) → (Stmt.assign x e).phi? = none := by
          intro e he
          cases e with
          | phi args => exact absurd rfl (he args)
          | _ => rfl
        rw [hnone e fun args h => he ⟨args, h⟩, hnone _ fun args h =>
          he ⟨args, (substWith_eq_phi hlook).mp h⟩]
    rw [Stmt.kind, Stmt.kind, Stmt.mapExprs, hphi]
    rfl
  | _ => rfl

theorem propagate_trims (fuel : ℕ) (f : IrFunction) : Trims f (propagate fuel f) := by
  refine Trims.of_map fun ss => ?_
  rw [List.map_map]
  have hkinds : ss.map (Stmt.kind ∘ Stmt.mapExprs (substWith (resolve f.defOf f.useCount fuel)))
      = ss.map Stmt.kind :=
    List.map_congr_left fun s _ => kind_mapExprs (resolve_ne_phi _ _ _) s
  rw [hkinds]

theorem dce_trims (f : IrFunction) : Trims f (dce f) :=
  Trims.of_map fun _ => List.filter_sublist.map Stmt.kind

theorem rounds_trims (fuel k : ℕ) (f : IrFunction) : Trims f (rounds fuel k f) := by
  induction k generalizing f with
  | zero => exact .refl
  | succ k ih => exact ((propagate_trims fuel f).trans (dce_trims _)).trans (ih _)

end Aret
