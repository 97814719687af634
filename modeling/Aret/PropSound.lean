/-
Propagation keeps what a function does.

* `propagate_preserves` — in strict SSA form the pass ends, and nothing that a run
  shows changes.

Design notes: an operator looks at the values of its operands only.  The emitter and the
interpreter of `cpudiff` take the width of a signed operation from how the operand is
written; what propagation does to such a width is not about values and not in here.
-/
import Aret.StrictSsa

namespace Aret

/-- What the IR leaves open, where operators look at values only. -/
structure Meaning where
  Val : Type
  Mem : Type
  const : ℤ → Ty → Val
  addr : Location → Val
  undef : Val
  load : Mem → Val → Ty → Val
  store : Mem → Val → Val → Ty → Mem
  unary : UnOp → Val → Val
  binary : BinOp → Val → Val → Val
  cast : Ty → Val → Val
  call : CallTarget Val → List Val → Ty → Mem → Val × Mem
  asm : String → Mem → Option Mem
  truth : Val → Bool
  isCase : Val → ℤ → Bool

abbrev Meaning.interp (M : Meaning) : Interp where
  Val := M.Val
  Mem := M.Mem
  const := M.const
  addr := M.addr
  undef := M.undef
  load := M.load
  store := M.store
  unary op _ x := M.unary op x
  binary op _ _ x y := M.binary op x y
  cast ty _ x := M.cast ty x
  call := M.call
  asm := M.asm
  truth := M.truth
  isCase := M.isCase

/-! ### The pass, by rounds -/

section
variable (look : ValueId → Option Expr)

mutual

/-- `substWith`, where a use may not come out. -/
def substWith? : Expr → Option Expr
  | .use v => look v
  | .load a ty => (substWith? a).map (.load · ty)
  | .unary op x => (substWith? x).map (.unary op)
  | .binary op a b => do
    let a ← substWith? a
    let b ← substWith? b
    some (.binary op a b)
  | .cast ty x => (substWith? x).map (.cast ty)
  | .call (.indirect x) args ret => do
    let x ← substWith? x
    let args ← substArgs? args
    some (.call (.indirect x) args ret)
  | .call (.direct a) args ret => (substArgs? args).map (.call (.direct a) · ret)
  | .call (.named n) args ret => (substArgs? args).map (.call (.named n) · ret)
  | .select c t e => do
    let c ← substWith? c
    let t ← substWith? t
    let e ← substWith? e
    some (.select c t e)
  | .const v ty => some (.const v ty)
  | .read l => some (.read l)
  | .addr l => some (.addr l)
  | .phi args => some (.phi args)
  | .undef => some .undef

def substArgs? : List Expr → Option (List Expr)
  | [] => some []
  | e :: es => do
    let e ← substWith? e
    let es ← substArgs? es
    some (e :: es)

end

end

/-- `subst` at a use, following at most so many definitions. -/
def resolve? (defs : ValueId → Option Expr) (uses : ValueId → ℕ) : ℕ → ValueId → Option Expr
  | 0, _ => none
  | fuel + 1, v =>
    match defs v with
    | none | some (.phi _) => some (.use v)
    | some (.const c ty) => some (.const c ty)
    | some (.use w) => resolve? defs uses fuel w
    | some d =>
      if !d.containsSideEffect && uses v == 1 then substWith? (resolve? defs uses fuel) d
      else some (.use v)

def Stmt.mapExprs? (g : Expr → Option Expr) : Stmt → Option Stmt
  | .set l e => (g e).map (.set l)
  | .assign x e => (g e).map (.assign x)
  | .callStmt e => (g e).map .callStmt
  | .store a v ty => do
    let a ← g a
    let v ← g v
    some (.store a v ty)
  | .branch c t f => (g c).map (.branch · t f)
  | .switch v cases d => (g v).map (.switch · cases d)
  | .ret (some e) => (g e).map fun e => .ret (some e)
  | s => some s

/-- `propagate`, following at most so many definitions at a use. -/
def propagate? (fuel : ℕ) (f : IrFunction) : Option IrFunction := do
  let blocks ← f.blocks.mapM fun b => do
    let stmts ← b.stmts.mapM (Stmt.mapExprs? (substWith? (resolve? f.defOf f.useCount fuel)))
    some { b with stmts := stmts }
  some { f with blocks := blocks }

section
variable {look? : ValueId → Option Expr} {look : ValueId → Expr}

mutual

theorem substWith?_eq : ∀ e : Expr, (∀ u ∈ e.uses, look? u = some (look u)) →
    substWith? look? e = some (substWith look e)
  | .use v, h => h v (List.mem_singleton_self v)
  | .load a ty, h => by rw [substWith?, substWith?_eq a h]; rfl
  | .unary op x, h => by rw [substWith?, substWith?_eq x h]; rfl
  | .cast ty x, h => by rw [substWith?, substWith?_eq x h]; rfl
  | .binary op a b, h => by
    have ha := substWith?_eq a fun u hu => h u (List.mem_append_left _ hu)
    have hb := substWith?_eq b fun u hu => h u (List.mem_append_right _ hu)
    rw [substWith?, ha, hb]
    rfl
  | .call (.indirect x) args ret, h => by
    have hx := substWith?_eq x fun u hu => h u (List.mem_append_left _ hu)
    have hargs := substArgs?_eq args fun u hu => h u (List.mem_append_right _ hu)
    rw [substWith?, hx, hargs]
    rfl
  | .call (.direct a) args ret, h => by rw [substWith?, substArgs?_eq args h]; rfl
  | .call (.named n) args ret, h => by rw [substWith?, substArgs?_eq args h]; rfl
  | .select c t e, h => by
    have hc := substWith?_eq c fun u hu => h u (List.mem_append_left _ (List.mem_append_left _ hu))
    have ht := substWith?_eq t fun u hu => h u (List.mem_append_left _ (List.mem_append_right _ hu))
    have he := substWith?_eq e fun u hu => h u (List.mem_append_right _ hu)
    rw [substWith?, hc, ht, he]
    rfl
  | .const .., _ | .read _, _ | .addr _, _ | .phi _, _ | .undef, _ => rfl

theorem substArgs?_eq : ∀ es : List Expr, (∀ u ∈ Expr.usesOfArgs es, look? u = some (look u)) →
    substArgs? look? es = some (substArgs look es)
  | [], _ => rfl
  | e :: es, h => by
    have he := substWith?_eq e fun u hu => h u (List.mem_append_left _ hu)
    have hes := substArgs?_eq es fun u hu => h u (List.mem_append_right _ hu)
    rw [substArgs?, he, hes]
    rfl

end

theorem mapExprs?_eq {s : Stmt} (h : ∀ u ∈ s.uses, look? u = some (look u)) :
    s.mapExprs? (substWith? look?) = some (s.mapExprs (substWith look)) := by
  have hexpr : ∀ e ∈ s.exprs, substWith? look? e = some (substWith look e) := fun e he =>
    substWith?_eq e fun u hu => h u (List.mem_flatMap.mpr ⟨e, he, hu⟩)
  cases s with
  | set l e => simp [Stmt.mapExprs?, hexpr e (List.mem_singleton_self e), Stmt.mapExprs]
  | assign x e => simp [Stmt.mapExprs?, hexpr e (List.mem_singleton_self e), Stmt.mapExprs]
  | callStmt e => simp [Stmt.mapExprs?, hexpr e (List.mem_singleton_self e), Stmt.mapExprs]
  | branch e t f => simp [Stmt.mapExprs?, hexpr e (List.mem_singleton_self e), Stmt.mapExprs]
  | switch e cs d => simp [Stmt.mapExprs?, hexpr e (List.mem_singleton_self e), Stmt.mapExprs]
  | ret e =>
    cases e with
    | none => rfl
    | some e => simp [Stmt.mapExprs?, hexpr e (List.mem_singleton_self e), Stmt.mapExprs]
  | store a v ty =>
    have ha := hexpr a List.mem_cons_self
    have hv := hexpr v (List.mem_cons_of_mem _ (List.mem_singleton_self v))
    simp [Stmt.mapExprs?, ha, hv, Stmt.mapExprs]
  | _ => rfl

theorem substWith_congr {look look' : ValueId → Expr} {e : Expr}
    (h : ∀ u ∈ e.uses, look u = look' u) : substWith look e = substWith look' e := by
  have h1 : substWith? (fun u => some (look' u)) e = some (substWith look' e) :=
    substWith?_eq e fun u _ => rfl
  have h2 : substWith? (fun u => some (look' u)) e = some (substWith look e) :=
    substWith?_eq e fun u hu => congrArg some (h u hu).symm
  exact Option.some.inj (h2.symm.trans h1)

theorem mapM_eq_some {α β : Type} {g : α → Option β} {k : α → β} {l : List α}
    (h : ∀ x ∈ l, g x = some (k x)) : l.mapM g = some (l.map k) := by
  induction l with
  | nil => rfl
  | cons x l ih =>
    obtain ⟨hx, hl⟩ := List.forall_mem_cons.mp h
    rw [List.mapM_cons, hx, ih hl]
    rfl

theorem propagate?_eq {f : IrFunction} {fuel n : ℕ}
    (h : ∀ u ∈ f.stmts.flatMap Stmt.uses,
      resolve? f.defOf f.useCount fuel u = some (resolve f.defOf f.useCount n u)) :
    propagate? fuel f = some (propagate n f) := by
  have hblocks : ∀ b ∈ f.blocks, (do
      let stmts ← b.stmts.mapM (Stmt.mapExprs? (substWith? (resolve? f.defOf f.useCount fuel)))
      some { b with stmts := stmts }) = some { b with
        stmts := b.stmts.map (Stmt.mapExprs (substWith (resolve f.defOf f.useCount n))) } := by
    intro b hb
    rw [mapM_eq_some fun s hs => mapExprs?_eq fun u hu =>
      h u (List.mem_flatMap.mpr ⟨s, List.mem_flatMap.mpr ⟨b, hb, hs⟩, hu⟩)]
    rfl
  rw [propagate?, mapM_eq_some hblocks]
  rfl

end

/-! ### The pass ends -/

/-- With `n` rounds or more `v` becomes `e`. -/
def IrFunction.Becomes (f : IrFunction) (n : ℕ) (v : ValueId) (e : Expr) : Prop :=
  ∀ fuel, n ≤ fuel → resolve? f.defOf f.useCount fuel v = some e ∧
    resolve f.defOf f.useCount fuel v = e

theorem IrFunction.exists_rounds {f : IrFunction} {l : List ValueId}
    (h : ∀ u ∈ l, ∃ n e, f.Becomes n u e) : ∃ n, ∀ u ∈ l, ∃ e, f.Becomes n u e := by
  induction l with
  | nil => exact ⟨0, nofun⟩
  | cons u l ih =>
    obtain ⟨hu, hl⟩ := List.forall_mem_cons.mp h
    obtain ⟨n, e, he⟩ := hu
    obtain ⟨m, hm⟩ := ih hl
    refine ⟨max n m, List.forall_mem_cons.mpr ⟨⟨e, fun fuel hf => he fuel (by omega)⟩, ?_⟩⟩
    intro u' hu'
    obtain ⟨e', he'⟩ := hm u' hu'
    exact ⟨e', fun fuel hf => he' fuel (by omega)⟩

theorem IrFunction.StrictSsa.becomes {f : IrFunction} (h : f.StrictSsa) (v : ValueId) :
    ∃ n e, f.Becomes n v e := by
  refine h.induct (P := fun v => ∃ n e, f.Becomes n v e) (fun v ih => ?_) v
  have hround : ∀ {n fuel : ℕ}, n + 1 ≤ fuel → ∃ k, fuel = k + 1 ∧ n ≤ k := fun {n fuel} hle =>
    ⟨fuel - 1, by omega, by omega⟩
  by_cases hphi : ∃ args, f.defOf v = some (.phi args)
  · obtain ⟨args, hdef⟩ := hphi
    refine ⟨1, .use v, fun fuel hfuel => ?_⟩
    obtain ⟨k, rfl, -⟩ := hround hfuel
    rw [resolve?, resolve, hdef]
    exact ⟨rfl, rfl⟩
  cases hdef : f.defOf v with
  | none =>
    refine ⟨1, .use v, fun fuel hfuel => ?_⟩
    obtain ⟨k, rfl, -⟩ := hround hfuel
    rw [resolve?, resolve, hdef]
    exact ⟨rfl, rfl⟩
  | some d =>
    obtain ⟨q, j, hj⟩ := IrFunction.definedAt_of_defOf hdef fun args hd => hphi ⟨args, hd ▸ hdef⟩
    have hops := ih d q j hj
    obtain ⟨N, hN⟩ := IrFunction.exists_rounds hops
    have hinline : ∃ n e, ∀ fuel, n ≤ fuel →
        (if !d.containsSideEffect && f.useCount v == 1 then
            substWith? (resolve? f.defOf f.useCount fuel) d else some (.use v)) = some e ∧
          (if !d.containsSideEffect && f.useCount v == 1 then
            substWith (resolve f.defOf f.useCount fuel) d else .use v) = e := by
      by_cases hcond : (!d.containsSideEffect && f.useCount v == 1) = true
      · refine ⟨N, substWith (resolve f.defOf f.useCount N) d, fun fuel hfuel => ?_⟩
        have hsame : ∀ u ∈ d.uses, resolve? f.defOf f.useCount fuel u =
            some (resolve f.defOf f.useCount N u) ∧
              resolve f.defOf f.useCount fuel u = resolve f.defOf f.useCount N u := by
          intro u hu
          obtain ⟨e, he⟩ := hN u hu
          rw [(he fuel hfuel).1, (he fuel hfuel).2, (he N le_rfl).2]
          exact ⟨rfl, rfl⟩
        rw [if_pos hcond, if_pos hcond]
        exact ⟨substWith?_eq d fun u hu => (hsame u hu).1,
          substWith_congr fun u hu => (hsame u hu).2⟩
      · refine ⟨0, .use v, fun fuel _ => ?_⟩
        rw [if_neg hcond, if_neg hcond]
        exact ⟨rfl, rfl⟩
    obtain ⟨n, e, he⟩ := hinline
    cases d with
    | phi args => exact absurd ⟨args, hdef⟩ hphi
    | const c ty =>
      refine ⟨1, .const c ty, fun fuel hfuel => ?_⟩
      obtain ⟨k, rfl, -⟩ := hround hfuel
      rw [resolve?, resolve, hdef]
      exact ⟨rfl, rfl⟩
    | use u =>
      obtain ⟨n, e, he⟩ := hops u (List.mem_singleton_self u)
      refine ⟨n + 1, e, fun fuel hfuel => ?_⟩
      obtain ⟨k, rfl, hk⟩ := hround hfuel
      rw [resolve?, resolve, hdef]
      exact he k hk
    | _ =>
      refine ⟨n + 1, e, fun fuel hfuel => ?_⟩
      obtain ⟨k, rfl, hk⟩ := hround hfuel
      rw [resolve?, resolve, hdef]
      exact he k hk

theorem IrFunction.StrictSsa.propagate?_ends {f : IrFunction} (h : f.StrictSsa) :
    ∃ n, ∀ fuel, n ≤ fuel → propagate? fuel f = some (propagate n f) := by
  have hall : ∀ u ∈ f.stmts.flatMap Stmt.uses, ∃ n e, f.Becomes n u e := fun u _ => h.becomes u
  obtain ⟨n, hn⟩ := IrFunction.exists_rounds hall
  refine ⟨n, fun fuel hfuel => propagate?_eq fun u hu => ?_⟩
  obtain ⟨e, he⟩ := hn u hu
  rw [(he fuel hfuel).1, (he n le_rfl).2]

/-! ### What a substitution means -/

section
variable {I : Interp} {ρ ρ' : I.Store}

mutual

theorem eval_pure : ∀ (e : Expr), e.containsSideEffect = false →
    (∀ u ∈ e.uses, ρ.val u = ρ'.val u) → ∀ w w', I.eval ρ e w = ((I.eval ρ' e w').1, w)
  | .const _ _, _, _, _, _ | .addr _, _, _, _, _ | .phi _, _, _, _, _ | .undef, _, _, _, _ => rfl
  | .use v, _, h, w, w' => by
    rw [Interp.eval, Interp.eval, h v (List.mem_singleton_self v)]
  | .unary op x, hpure, h, w, w' => by
    rw [Interp.eval, eval_pure x hpure h w w']
    rfl
  | .cast ty x, hpure, h, w, w' => by
    rw [Interp.eval, eval_pure x hpure h w w']
    rfl
  | .binary op a b, hpure, h, w, w' => by
    obtain ⟨ha, hb⟩ := Bool.or_eq_false_iff.mp hpure
    rw [Interp.eval, eval_pure a ha (fun u hu => h u (List.mem_append_left _ hu)) w w',
      eval_pure b hb (fun u hu => h u (List.mem_append_right _ hu)) w (I.eval ρ' a w').2]
    rfl
  | .select c t e, hpure, h, w, w' => by
    obtain ⟨hct, he⟩ := Bool.or_eq_false_iff.mp hpure
    obtain ⟨hc, ht⟩ := Bool.or_eq_false_iff.mp hct
    have husec : ∀ u ∈ c.uses, ρ.val u = ρ'.val u := fun u hu =>
      h u (List.mem_append_left _ (List.mem_append_left _ hu))
    have huset : ∀ u ∈ t.uses, ρ.val u = ρ'.val u := fun u hu =>
      h u (List.mem_append_left _ (List.mem_append_right _ hu))
    have husee : ∀ u ∈ e.uses, ρ.val u = ρ'.val u := fun u hu =>
      h u (List.mem_append_right _ hu)
    rw [Interp.eval, Interp.eval, eval_pure c hc husec w w']
    dsimp only
    split_ifs
    · exact eval_pure t ht huset w _
    · exact eval_pure e he husee w _
  | .load .., hpure, _, _, _ | .call .., hpure, _, _, _ | .read _, hpure, _, _, _ => nomatch hpure

end

end

section
variable {M : Meaning} {ρ : M.interp.Store} {look : ValueId → Expr}

mutual

theorem eval_substWith : ∀ e : Expr,
    (∀ u ∈ e.uses, ∀ w, M.interp.eval ρ (look u) w = (ρ.val u, w)) →
    ∀ w, M.interp.eval ρ (substWith look e) w = M.interp.eval ρ e w
  | .use v, h, w => h v (List.mem_singleton_self v) w
  | .load a ty, h, w => by rw [substWith, Interp.eval, Interp.eval, eval_substWith a h]
  | .unary op x, h, w => by
    rw [substWith, Interp.eval, Interp.eval, eval_substWith x h]
  | .cast ty x, h, w => by
    rw [substWith, Interp.eval, Interp.eval, eval_substWith x h]
  | .binary op a b, h, w => by
    have ha := eval_substWith a fun u hu => h u (List.mem_append_left _ hu)
    have hb := eval_substWith b fun u hu => h u (List.mem_append_right _ hu)
    rw [substWith, Interp.eval, Interp.eval, ha, hb]
  | .call (.indirect x) args ret, h, w => by
    have hx := eval_substWith x fun u hu => h u (List.mem_append_left _ hu)
    have hargs := eval_substArgs args fun u hu => h u (List.mem_append_right _ hu)
    rw [substWith, Interp.eval, Interp.eval, hx, hargs]
  | .call (.direct a) args ret, h, w => by
    rw [substWith, Interp.eval, Interp.eval, eval_substArgs args h]
  | .call (.named n) args ret, h, w => by
    rw [substWith, Interp.eval, Interp.eval, eval_substArgs args h]
  | .select c t e, h, w => by
    have hc := eval_substWith c fun u hu =>
      h u (List.mem_append_left _ (List.mem_append_left _ hu))
    have ht := eval_substWith t fun u hu =>
      h u (List.mem_append_left _ (List.mem_append_right _ hu))
    have he := eval_substWith e fun u hu => h u (List.mem_append_right _ hu)
    rw [substWith, Interp.eval, Interp.eval, hc]
    dsimp only
    rw [ht, he]
  | .const .., _, _ | .read _, _, _ | .addr _, _, _ | .phi _, _, _ | .undef, _, _ => rfl

theorem eval_substArgs : ∀ es : List Expr,
    (∀ u ∈ Expr.usesOfArgs es, ∀ w, M.interp.eval ρ (look u) w = (ρ.val u, w)) →
    ∀ w, M.interp.evalArgs ρ (substArgs look es) w = M.interp.evalArgs ρ es w
  | [], _, _ => rfl
  | e :: es, h, w => by
    have he := eval_substWith e fun u hu => h u (List.mem_append_left _ hu)
    have hes := eval_substArgs es fun u hu => h u (List.mem_append_right _ hu)
    rw [substArgs, Interp.evalArgs, Interp.evalArgs, he]
    dsimp only
    rw [hes]

end

end

/-! ### The invariant of a run -/

/-- A value whose definition comes before and has no side effect is what the definition,
evaluated now, gives. -/
def IrFunction.Holds (f : IrFunction) {I : Interp} (p k : ℕ) (ρ : I.Store) : Prop :=
  ∀ v d q (j : ℕ), (f.block q).body[j]? = some (.assign v d) → d.containsSideEffect = false →
    f.Before q (j + 1) p k → ∀ w, ρ.val v = (I.eval ρ d w).1

namespace IrFunction

variable {f : IrFunction} {I : Interp} {ρ : I.Store} {p k : ℕ}

theorem Before.of_succ {q j : ℕ} (h : f.Before q (j + 1) p (k + 1)) :
    (q = p ∧ j = k) ∨ f.Before q (j + 1) p k := by
  rcases h with ⟨rfl, hle⟩ | h
  · by_cases hjk : j = k
    · exact .inl ⟨rfl, hjk⟩
    · exact .inr (.inl ⟨rfl, by omega⟩)
  · exact .inr (.inr h)

theorem Before.self_succ : f.Before p k p (k + 1) := .inl ⟨rfl, Nat.le_succ k⟩

theorem Holds.entry : f.Holds f.entryIndex 0 ρ := by
  intro v d q j hdef hpure hbefore w
  rcases hbefore with ⟨-, hle⟩ | hdom
  · omega
  · exact absurd hdom.dominates.eq_root hdom.ne

theorem Holds.skip {s : Stmt} {ρ' : I.Store} (h : f.Holds p k ρ)
    (hs : (f.block p).body[k]? = some s) (hassign : ∀ x e, s ≠ .assign x e)
    (hval : ρ'.val = ρ.val) : f.Holds p (k + 1) ρ' := by
  intro v d q j hdef hpure hbefore w
  rcases hbefore.of_succ with ⟨rfl, rfl⟩ | hbefore
  · rw [hs] at hdef
    exact absurd (Option.some.inj hdef) (hassign v d)
  · rw [eval_pure d hpure (fun u _ => congrFun hval u) w w, hval]
    exact h v d q j hdef hpure hbefore w

theorem Holds.assign (hf : f.StrictSsa) {x : ValueId} {e : Expr} (h : f.Holds p k ρ)
    (hs : (f.block p).body[k]? = some (.assign x e)) (w : I.World) :
    f.Holds p (k + 1) (ρ.setVal x (I.eval ρ e w).1) := by
  have hx : f.DefinedAt x p (k + 1) := .inr ⟨k, e, rfl, hs⟩
  have hother : ∀ {d : Expr}, x ∉ d.uses → ∀ u ∈ d.uses,
      (ρ.setVal x (I.eval ρ e w).1).val u = ρ.val u := by
    intro d hd u hu
    rw [Interp.Store.setVal_val, Function.update_of_ne]
    rintro rfl
    exact hd hu
  intro v d q j hdef hpure hbefore w'
  rcases hbefore.of_succ with ⟨rfl, rfl⟩ | hbefore
  · obtain ⟨rfl, rfl⟩ := Stmt.assign.inj (Option.some.inj (hs.symm.trans hdef))
    have hself : f.Before q (j + 1) q (j + 1) := .inl ⟨rfl, le_rfl⟩
    rw [eval_pure e hpure (hother (hf.defines_after hs hself hx hself)) w' w,
      Interp.Store.setVal_val, Function.update_self]
  · have hne : v ≠ x := by
      rintro rfl
      obtain ⟨rfl, hjk⟩ := hf.single (.inr ⟨j, d, rfl, hdef⟩) hx
      rcases hbefore with ⟨-, hle⟩ | hdom
      · omega
      · exact hdom.ne rfl
    have huses : x ∉ d.uses := hf.defines_after hdef hbefore hx .self_succ
    rw [eval_pure d hpure (hother huses) w' w', Interp.Store.setVal_val,
      Function.update_of_ne hne]
    exact h v d q j hdef hpure hbefore w'

theorem Holds.enter (hf : f.StrictSsa) {t : ℕ} {xs : List (ValueId × I.Val)}
    (h : f.Holds p (f.block p).body.length ρ) (hp : f.ReachesBlock p) (hpt : f.FlowsTo p t)
    (hxs : xs.map Prod.fst = (f.block t).phis.map Prod.fst) : f.Holds t 0 (ρ.setVals xs) := by
  intro v d q j hdef hpure hbefore w
  have hlen : j + 1 ≤ (f.block q).body.length := (List.getElem?_eq_some_iff.mp hdef).1
  have hphi : ∀ {u}, u ∈ xs.map Prod.fst → f.DefinedAt u t 0 := fun hu => .inl ⟨rfl, hxs ▸ hu⟩
  have hv : v ∉ xs.map Prod.fst := by
    intro hmem
    have hplace := (hf.single (.inr ⟨j, d, rfl, hdef⟩) (hphi hmem)).2
    omega
  have huses : ∀ u ∈ d.uses, (ρ.setVals xs).val u = ρ.val u := by
    intro u hu
    refine Interp.Store.setVals_of_not_mem fun hmem => ?_
    exact hf.defines_after hdef hbefore (hphi hmem) (.inl ⟨rfl, le_rfl⟩) hu
  rw [Interp.Store.setVals_of_not_mem hv, eval_pure d hpure huses w w]
  exact h v d q j hdef hpure (hbefore.leave (Nat.succ_pos j) hlen hp hpt) w

end IrFunction

theorem eval_resolve {f : IrFunction} (hf : f.StrictSsa) {M : Meaning} {ρ : M.interp.Store}
    {p k : ℕ} (h : f.Holds p k ρ) (fuel : ℕ) : ∀ v, f.AvailableAt v p k → ∀ w,
    M.interp.eval ρ (resolve f.defOf f.useCount fuel v) w = (ρ.val v, w) := by
  induction fuel with
  | zero => intro v _ w; rfl
  | succ fuel ih =>
    intro v hv w
    rw [resolve]
    -- What a definition that is not a phi says of the value.
    have hdef : ∀ {d}, f.defOf v = some d → (∀ args, d ≠ .phi args) →
        (∀ u ∈ d.uses, f.AvailableAt u p k) ∧
          (d.containsSideEffect = false → ∀ w, ρ.val v = (M.interp.eval ρ d w).1) := by
      intro d hd hphi
      obtain ⟨q, j, hj⟩ := IrFunction.definedAt_of_defOf hd hphi
      exact ⟨fun u hu => hf.operand hj hv hu,
        fun hpure => h v d q j hj hpure (hv q (j + 1) (.inr ⟨j, d, rfl, hj⟩))⟩
    split
    · rfl
    · rfl
    · rename_i c ty hd
      rw [(hdef hd (by rintro _ ⟨⟩)).2 rfl w]
      rfl
    · rename_i u hd
      obtain ⟨huses, hval⟩ := hdef hd (by rintro _ ⟨⟩)
      rw [ih u (huses u (List.mem_singleton_self u)) w, hval rfl w]
      rfl
    · rename_i d hphi _ _ hd
      obtain ⟨huses, hval⟩ := hdef hd hphi
      split_ifs with hcond
      · have hpure : d.containsSideEffect = false := by
          rw [Bool.and_eq_true, Bool.not_eq_true'] at hcond
          exact hcond.1
        rw [eval_substWith d (fun u hu w => ih u (huses u hu) w) w,
          eval_pure d hpure (fun u _ => (rfl : ρ.val u = ρ.val u)) w w, hval hpure w]
      · rfl

/-! ### Blocks and runs -/

def Block.substWith (look : ValueId → Expr) (b : Block) : Block :=
  { b with stmts := b.stmts.map (Stmt.mapExprs (Aret.substWith look)) }

section
variable {look : ValueId → Expr} (hlook : ∀ v args, look v ≠ .phi args)
include hlook

theorem phi?_mapExprs (s : Stmt) : (s.mapExprs (substWith look)).phi? = s.phi? :=
  congrArg (fun k => k.2.1) (kind_mapExprs hlook s)

theorem Block.phis_substWith (b : Block) : (b.substWith look).phis = b.phis := by
  rw [Block.phis, Block.substWith, List.filterMap_map]
  exact List.filterMap_congr fun s _ => phi?_mapExprs hlook s

theorem Block.body_substWith (b : Block) :
    (b.substWith look).body = b.body.map (Stmt.mapExprs (Aret.substWith look)) := by
  rw [Block.body, Block.substWith, List.filter_map]
  refine congrArg _ (List.filter_congr fun s _ => ?_)
  rw [Function.comp_apply, phi?_mapExprs hlook s]

end

section
variable {f : IrFunction} {n : ℕ}

theorem getElem?_propagate (t : ℕ) : (propagate n f).blocks[t]? =
    f.blocks[t]?.map (Block.substWith (resolve f.defOf f.useCount n)) :=
  List.getElem?_map

theorem block_propagate (p : ℕ) :
    (propagate n f).block p = (f.block p).substWith (resolve f.defOf f.useCount n) := by
  rw [IrFunction.block, IrFunction.block, List.getD_eq_getElem?_getD, List.getD_eq_getElem?_getD,
    getElem?_propagate]
  cases f.blocks[p]? with
  | none => rfl
  | some b => rfl

variable {I : Interp} {watched : ℕ}

theorem enter_propagate (p : Option ℕ) (t : ℕ) (ρ : I.Store) (w : I.World) :
    Interp.enter watched (propagate n f) p t ρ w = Interp.enter watched f p t ρ w := by
  rw [Interp.enter, Interp.enter, getElem?_propagate]
  cases f.blocks[t]? with
  | none => rfl
  | some b =>
    have hphis := Block.phis_substWith (resolve_ne_phi f.defOf f.useCount n) b
    dsimp only [Option.map_some]
    rw [hphis]
    rfl

theorem leave_propagate (p : ℕ) (e : I.Exit) :
    Interp.leave watched (propagate n f) p e = Interp.leave watched f p e := by
  rcases e with ⟨_ | t, ρ, w⟩ | ⟨ρ, w⟩
  · rfl
  · rw [Interp.leave, Interp.leave, enter_propagate, block_propagate]
    rfl
  · rfl

end

section
variable {f : IrFunction} (hf : f.StrictSsa) (n : ℕ) {M : Meaning} {p : ℕ}
include hf

/-- From a place where the invariant holds, the rest of a block does what it did, and where
it ends the invariant holds again. -/
theorem exec_propagate (rest : List Stmt) (k : ℕ) (hrest : (f.block p).body.drop k = rest)
    (next : Option ℕ) (ρ : M.interp.Store) (w : M.interp.World) (h : f.Holds p k ρ) :
    M.interp.exec (rest.map (Stmt.mapExprs (substWith (resolve f.defOf f.useCount n)))) next ρ w =
        M.interp.exec rest next ρ w ∧
      ∀ t ρ' w', M.interp.exec rest next ρ w = .next t ρ' w' →
        f.Holds p (f.block p).body.length ρ' := by
  induction rest generalizing k next ρ w with
  | nil =>
    refine ⟨rfl, fun t ρ' w' hend => ?_⟩
    obtain ⟨rfl, rfl, rfl⟩ := Interp.Exit.next.inj hend
    -- Nothing is left, and what comes before the end of the block came before.
    have hlen : (f.block p).body.length ≤ k := List.drop_eq_nil_iff.mp hrest
    intro v d q j hdef hpure hbefore w
    refine h v d q j hdef hpure ?_ w
    rcases hbefore with ⟨rfl, hle⟩ | hdom
    · exact .inl ⟨rfl, hle.trans hlen⟩
    · exact .inr hdom
  | cons s rest ih =>
    have hs : (f.block p).body[k]? = some s := by
      have hhead := congrArg List.head? hrest
      rwa [List.head?_drop] at hhead
    have htail : (f.block p).body.drop (k + 1) = rest := by
      rw [← List.tail_drop, hrest]
      rfl
    have hexpr : ∀ e ∈ s.exprs, ∀ w, M.interp.eval ρ
        (substWith (resolve f.defOf f.useCount n) e) w = M.interp.eval ρ e w := by
      intro e he w
      refine eval_substWith e (fun u hu w => ?_) w
      exact eval_resolve hf h n u (hf.uses hs (List.mem_flatMap.mpr ⟨e, he, hu⟩)) w
    cases s with
    | set l e =>
      have he := hexpr e (List.mem_singleton_self e) w
      rw [List.map_cons, Stmt.mapExprs, Interp.exec, Interp.exec, he]
      exact ih (k + 1) htail _ _ _ (h.skip hs (by rintro _ _ ⟨⟩) rfl)
    | assign x e =>
      have he := hexpr e (List.mem_singleton_self e) w
      rw [List.map_cons, Stmt.mapExprs, Interp.exec, Interp.exec, he]
      exact ih (k + 1) htail _ _ _ (h.assign hf hs w)
    | store a v ty =>
      have ha := hexpr a List.mem_cons_self w
      have hv := hexpr v (List.mem_cons_of_mem _ (List.mem_singleton_self v))
      rw [List.map_cons, Stmt.mapExprs, Interp.exec, Interp.exec, ha]
      dsimp only
      rw [hv]
      exact ih (k + 1) htail _ _ _ (h.skip hs (by rintro _ _ ⟨⟩) rfl)
    | branch c t e =>
      have hc := hexpr c (List.mem_singleton_self c) w
      rw [List.map_cons, Stmt.mapExprs, Interp.exec, Interp.exec, hc]
      exact ih (k + 1) htail _ _ _ (h.skip hs (by rintro _ _ ⟨⟩) rfl)
    | switch v cases d =>
      have hv := hexpr v (List.mem_singleton_self v) w
      rw [List.map_cons, Stmt.mapExprs, Interp.exec, Interp.exec, hv]
      exact ih (k + 1) htail _ _ _ (h.skip hs (by rintro _ _ ⟨⟩) rfl)
    | callStmt e =>
      have he := hexpr e (List.mem_singleton_self e) w
      rw [List.map_cons, Stmt.mapExprs, Interp.exec, Interp.exec, he]
      exact ih (k + 1) htail _ _ _ (h.skip hs (by rintro _ _ ⟨⟩) rfl)
    | ret e =>
      cases e with
      | none => exact ⟨rfl, by rintro _ _ _ ⟨⟩⟩
      | some e =>
        have he := hexpr e (List.mem_singleton_self e) w
        rw [List.map_cons, Stmt.mapExprs, Interp.exec, Interp.exec, he]
        exact ⟨rfl, by rintro _ _ _ ⟨⟩⟩
    | asm text =>
      rw [List.map_cons, Stmt.mapExprs, Interp.exec, Interp.exec]
      · cases M.interp.asm text w.mem with
        | none => exact ⟨rfl, by rintro _ _ _ ⟨⟩⟩
        | some mem => exact ih (k + 1) htail _ _ _ (h.skip hs (by rintro _ _ ⟨⟩) rfl)
      all_goals intros; contradiction
    | jump t => exact ih (k + 1) htail _ _ _ (h.skip hs (by rintro _ _ ⟨⟩) rfl)
    | nop => exact ih (k + 1) htail _ _ _ (h.skip hs (by rintro _ _ ⟨⟩) rfl)

omit hf in
theorem readPhis_fst {I : Interp} {ρ : I.Store} {slot : Option ℕ}
    {phis : List (ValueId × List ValueId)} {xs : List (ValueId × I.Val)}
    (h : Interp.readPhis ρ slot phis = some xs) : xs.map Prod.fst = phis.map Prod.fst := by
  induction phis generalizing xs with
  | nil =>
    obtain rfl := Option.some.inj h
    rfl
  | cons φ phis ih =>
    rw [Interp.readPhis, List.mapM_cons] at h
    obtain ⟨y, hy, h⟩ := Option.bind_eq_some_iff.mp h
    obtain ⟨ys, hys, h⟩ := Option.bind_eq_some_iff.mp h
    obtain rfl := Option.some.inj h
    obtain ⟨j, -, hy⟩ := Option.bind_eq_some_iff.mp hy
    obtain ⟨a, -, hy⟩ := Option.bind_eq_some_iff.mp hy
    obtain rfl := Option.some.inj hy
    rw [List.map_cons, List.map_cons, ih hys]

def BetweenBlocks (f : IrFunction) {I : Interp} (c : I.Config) : Prop :=
  ∀ p, c.pc = some p → f.ReachesBlock p ∧ f.Holds p 0 c.ρ

omit hf in
theorem BetweenBlocks.of_enter {I : Interp} {watched : ℕ} {q : Option ℕ} {t : ℕ} {ρ : I.Store}
    {w : I.World} (ht : t < f.blocks.length → f.ReachesBlock t ∧ ∀ xs : List (ValueId × I.Val),
      xs.map Prod.fst = (f.block t).phis.map Prod.fst → f.Holds t 0 (ρ.setVals xs)) :
    BetweenBlocks f (Interp.enter watched f q t ρ w) := by
  intro p hp
  by_cases hlt : t < f.blocks.length
  · rw [Interp.enter, IrFunction.getElem?_block hlt] at hp ⊢
    dsimp only at hp ⊢
    cases hread : Interp.readPhis ρ (q.bind fun p => (f.block t).pred.idxOf? p)
        (f.block t).phis with
    | none =>
      rw [hread] at hp
      cases hp
    | some xs =>
      rw [hread] at hp
      obtain rfl := Option.some.inj hp
      exact ⟨(ht hlt).1, (ht hlt).2 xs (readPhis_fst hread)⟩
  · rw [Interp.enter, List.getElem?_eq_none (Nat.le_of_not_lt hlt)] at hp
    cases hp

theorem step_propagate (watched : ℕ) {c : M.interp.Config} (h : BetweenBlocks f c) :
    M.interp.step watched (propagate n f) c = M.interp.step watched f c ∧
      ∀ c', M.interp.step watched f c = some c' → BetweenBlocks f c' := by
  cases hpc : c.pc with
  | none =>
    rw [Interp.step_eq_none.mpr hpc, Interp.step_eq_none.mpr hpc]
    exact ⟨rfl, by rintro _ ⟨⟩⟩
  | some p =>
    obtain ⟨hp, hholds⟩ := h p hpc
    obtain ⟨hexec, hafter⟩ := exec_propagate hf n (f.block p).body 0 rfl none c.ρ c.w hholds
    rw [Interp.step_of_pc hpc, Interp.step_of_pc hpc, block_propagate,
      Block.body_substWith (resolve_ne_phi f.defOf f.useCount n), hexec, leave_propagate]
    refine ⟨rfl, fun c' hc' => ?_⟩
    obtain rfl := Option.some.inj hc'
    cases hend : M.interp.exec (f.block p).body none c.ρ c.w with
    | halt ρ w => rintro _ ⟨⟩
    | next t ρ w =>
      cases t with
      | none => rintro _ ⟨⟩
      | some t =>
        rw [Interp.leave]
        split_ifs with ht
        · refine BetweenBlocks.of_enter fun hlt => ?_
          have hpt : f.FlowsTo p t := ⟨ht, hlt⟩
          obtain ⟨l, hl⟩ := hp
          refine ⟨⟨t :: l, hl.step hpt⟩, fun xs hxs => ?_⟩
          exact (hafter _ _ _ hend).enter hf ⟨l, hl⟩ hpt hxs
        · rintro _ ⟨⟩

end

theorem propagate_runsLike {f : IrFunction} (hf : f.StrictSsa) (n : ℕ) (M : Meaning) (watched : ℕ)
    (ρ : M.interp.Store) (mem : M.Mem) : RunsLike M.interp watched f (propagate n f) ρ ρ mem := by
  have hsim : Sim.IsSimulation (M.interp.step watched f) Interp.Config.w
      (M.interp.step watched (propagate n f)) Interp.Config.w
      (fun c c' => c' = c ∧ BetweenBlocks f c) := by
    refine ⟨?_, ?_, ?_⟩
    · rintro _ c ⟨rfl, -⟩
      rfl
    · rintro _ c c₁ ⟨rfl, hc⟩ hstep
      obtain ⟨hsame, hafter⟩ := step_propagate hf n watched hc
      refine ⟨0, c₁, ?_, rfl, hafter c₁ hstep⟩
      rw [Sim.stepN, hsame, hstep]
      rfl
    · rintro _ c ⟨rfl, hc⟩ hstep
      have hsame := (step_propagate hf n watched hc).1
      exact ⟨0, c, rfl, hsame.trans hstep, rfl⟩
  refine Sim.SameRuns.of_simulation hsim ⟨?_, ?_⟩
  · have hentry : (propagate n f).entryIndex = f.entryIndex := (propagate_trims n f).entryIndex
    rw [Interp.start, Interp.start, hentry, enter_propagate]
  · refine BetweenBlocks.of_enter fun _ => ⟨⟨[f.entryIndex], .root⟩, fun xs _ => ?_⟩
    exact IrFunction.Holds.entry

/-- In strict SSA form propagation ends, however long the chains of definitions are, and
no store, call, decision or return value of a run changes. -/
theorem propagate_preserves {f : IrFunction} (hf : f.StrictSsa) :
    ∃ rounds, (∀ fuel, rounds ≤ fuel → propagate? fuel f = some (propagate rounds f)) ∧
      ∀ (M : Meaning) (watched : ℕ) (ρ : M.interp.Store) (mem : M.Mem),
        RunsLike M.interp watched f (propagate rounds f) ρ ρ mem := by
  obtain ⟨rounds, hends⟩ := hf.propagate?_ends
  exact ⟨rounds, hends, fun M watched ρ mem => propagate_runsLike hf rounds M watched ρ mem⟩

def storeNext : IrFunction where
  entry := 0
  name := "store_next"
  bits := 32
  regParams := [0]
  frameBaseValues := []
  fp80Values := []
  entryValues := [(.reg 0, 0)]
  blocks := [
    ⟨0, 0, [.assign 1 (.use 0), .assign 2 (.binary .add (.use 1) (.konst 1 32)), .jump 1], [1], []⟩,
    ⟨1, 16, [.store (.addr (.frame 4)) (.use 2) (.ofBits 32), .ret (some (.use 1))], [], [0]⟩]
  nextValue := 3
  nextTemp := 0

example : (propagate 4 storeNext).blocks.map Block.stmts = [
    [.assign 1 (.use 0), .assign 2 (.binary .add (.use 0) (.konst 1 32)), .jump 1],
    [.store (.addr (.frame 4)) (.binary .add (.use 0) (.konst 1 32)) (.ofBits 32),
      .ret (some (.use 0))]] := by
  decide

theorem storeNext_definedAt {v : ValueId} {q i : ℕ} (h : storeNext.DefinedAt v q i) :
    q = 0 ∧ i = v ∧ (v = 1 ∨ v = 2) := by
  have hblock : ∀ q, storeNext.block (q + 2) = default := fun q => rfl
  rcases h with ⟨-, hphi⟩ | ⟨k, e, rfl, hk⟩
  · rcases q with _ | _ | q
    · cases hphi
    · cases hphi
    · rw [hblock] at hphi
      cases hphi
  · rcases q with _ | _ | q
    · rcases k with _ | _ | _ | k
      · obtain ⟨rfl, -⟩ := Stmt.assign.inj (Option.some.inj hk)
        exact ⟨rfl, rfl, .inl rfl⟩
      · obtain ⟨rfl, -⟩ := Stmt.assign.inj (Option.some.inj hk)
        exact ⟨rfl, rfl, .inr rfl⟩
      · cases hk
      · cases hk
    · rcases k with _ | _ | k
      · cases hk
      · cases hk
      · cases hk
    · rw [hblock] at hk
      cases hk

theorem storeNext_strictSsa : storeNext.StrictSsa := by
  have hdom : storeNext.StrictlyDominates 0 1 := by
    have hentry : storeNext.entryIndex = 0 := by decide
    have hedge : storeNext.FlowsTo 0 1 := by
      constructor <;> decide
    refine ⟨by decide, ⟨[1, 0], ?_⟩, fun l hl => ?_⟩
    · rw [hentry]
      exact .step .root hedge
    · rw [hentry] at hl
      exact hl.root_mem
  refine ⟨?_, ?_, ?_, ?_⟩
  · intro v q i q' i' h h'
    have hplace := storeNext_definedAt h
    have hplace' := storeNext_definedAt h'
    omega
  · intro q
    rcases q with _ | _ | q
    · exact .nil
    · exact .nil
    · exact .nil
  · intro p k s v hs hv q i hdef
    obtain ⟨rfl, rfl, hi⟩ := storeNext_definedAt hdef
    rcases p with _ | _ | p
    · rcases k with _ | _ | _ | k
      · obtain rfl := Option.some.inj hs
        obtain rfl : i = 0 := List.mem_singleton.mp hv
        rcases hi with hi | hi <;> cases hi
      · obtain rfl := Option.some.inj hs
        obtain rfl : i = 1 := List.mem_singleton.mp hv
        exact .inl ⟨rfl, le_rfl⟩
      · obtain rfl := Option.some.inj hs
        cases hv
      · cases hs
    · exact .inr hdom
    · cases hs
  · intro p x as j a q hphi
    rcases p with _ | _ | p
    · cases hphi
    · cases hphi
    · cases hphi

theorem propagate_preserves_storeNext :
    ∃ rounds, (∀ fuel, rounds ≤ fuel →
        propagate? fuel storeNext = some (propagate rounds storeNext)) ∧
      ∀ (M : Meaning) (watched : ℕ) (ρ : M.interp.Store) (mem : M.Mem),
        RunsLike M.interp watched storeNext (propagate rounds storeNext) ρ ρ mem :=
  propagate_preserves storeNext_strictSsa

end Aret
