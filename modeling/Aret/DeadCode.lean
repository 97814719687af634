/-
Dead-code elimination and what a run shows.

Design notes: a helper that traps is a call that is seen, with what memory the trap
leaves; two runs that show the same calls from the same memory trap alike.
-/
import Aret.PropSound

namespace Aret

/-! ### Helpers -/

/-- Of the helpers that `isPureHelper` lets go, those that write memory, or change the channel
that x87 results are returned in. -/
def effectfulHelpers : List String :=
  ["__x87_st32", "__x87_st64", "__x87_st80", "__x87_ist16", "__x87_ist32", "__x87_ist64",
    "__x87_retstore", "__x87_retload"]

def isQuietHelper (name : String) : Bool :=
  isPureHelper name && !effectfulHelpers.contains name

mutual

def Expr.quiet : Expr → Bool
  | .call (.named n) args _ => isQuietHelper n && allQuiet args
  | .call (.direct _) _ _ | .call (.indirect _) _ _ => false
  | .load a _ => a.quiet
  | .unary _ x | .cast _ x => x.quiet
  | .binary _ a b => a.quiet && b.quiet
  | .select c t e => c.quiet && t.quiet && e.quiet
  | .const .. | .read _ | .use _ | .addr _ | .phi _ | .undef => true

def Expr.allQuiet : List Expr → Bool
  | [] => true
  | e :: es => e.quiet && allQuiet es

end

mutual

def Expr.callsEffectful : Expr → Bool
  | .call (.named n) args _ => effectfulHelpers.contains n || anyEffectful args
  | .call (.direct _) args _ => anyEffectful args
  | .call (.indirect x) args _ => x.callsEffectful || anyEffectful args
  | .load a _ => a.callsEffectful
  | .unary _ x | .cast _ x => x.callsEffectful
  | .binary _ a b => a.callsEffectful || b.callsEffectful
  | .select c t e => c.callsEffectful || t.callsEffectful || e.callsEffectful
  | .const .. | .read _ | .use _ | .addr _ | .phi _ | .undef => false

def Expr.anyEffectful : List Expr → Bool
  | [] => false
  | e :: es => e.callsEffectful || anyEffectful es

end

mutual

theorem Expr.quiet_iff : ∀ e : Expr, e.hasImpureCall = false →
    (e.quiet = true ↔ e.callsEffectful = false)
  | .call (.named n) args _, h => by
    simp only [hasImpureCall, Bool.or_eq_false_iff, Bool.not_eq_false'] at h
    have hargs := allQuiet_iff args h.2
    simp only [quiet, callsEffectful, isQuietHelper, h.1, Bool.true_and, Bool.and_eq_true,
      Bool.not_eq_true', Bool.or_eq_false_iff, hargs]
  | .load a _, h => quiet_iff a h
  | .unary _ x, h | .cast _ x, h => quiet_iff x h
  | .binary _ a b, h => by
    simp only [hasImpureCall, Bool.or_eq_false_iff] at h
    simp only [quiet, callsEffectful, Bool.and_eq_true, Bool.or_eq_false_iff, quiet_iff a h.1,
      quiet_iff b h.2]
  | .select c t e, h => by
    simp only [hasImpureCall, Bool.or_eq_false_iff] at h
    simp only [quiet, callsEffectful, Bool.and_eq_true, Bool.or_eq_false_iff, quiet_iff c h.1.1,
      quiet_iff t h.1.2, quiet_iff e h.2]
  | .const .., _ | .read _, _ | .use _, _ | .addr _, _ | .phi _, _ | .undef, _ => by
    simp only [quiet, callsEffectful]

theorem Expr.allQuiet_iff : ∀ es : List Expr, anyImpureCall es = false →
    (allQuiet es = true ↔ anyEffectful es = false)
  | [], _ => by simp only [allQuiet, anyEffectful]
  | e :: es, h => by
    simp only [anyImpureCall, Bool.or_eq_false_iff] at h
    simp only [allQuiet, anyEffectful, Bool.and_eq_true, Bool.or_eq_false_iff, quiet_iff e h.1,
      allQuiet_iff es h.2]

end

/-! ### What is shown -/

def Event.shows {V : Type} : Event V → Bool
  | .call (.named n) _ => !isQuietHelper n
  | _ => true

namespace Interp

variable {I : Interp}

def World.shown (w : I.World) : I.Mem × List (Event I.Val) := (w.mem, w.trace.filter Event.shows)

variable (I) in
def QuietHelpers : Prop :=
  ∀ n args ret mem, isQuietHelper n = true → (I.call (.named n) args ret mem).2 = mem

section
variable {w w' : I.World}

theorem World.mem_of_shown (h : w.shown = w'.shown) : w.mem = w'.mem := congrArg Prod.fst h

theorem World.shown_emit (h : w.shown = w'.shown) (e : Event I.Val) :
    (w.emit e).shown = (w'.emit e).shown := by
  obtain ⟨hmem, htrace⟩ := Prod.mk.inj h
  refine Prod.ext hmem ?_
  show (w.trace ++ [e]).filter _ = (w'.trace ++ [e]).filter _
  rw [List.filter_append, List.filter_append, htrace]

theorem World.shown_withMem (h : w.shown = w'.shown) (mem : I.Mem) :
    ({ w with mem := mem } : I.World).shown = ({ w' with mem := mem } : I.World).shown :=
  Prod.ext rfl (Prod.mk.inj h).2

theorem runCall_shown (t : CallTarget I.Val) (args : List I.Val) (ret : Ty)
    (h : w.shown = w'.shown) : (I.runCall t args ret w).1 = (I.runCall t args ret w').1 ∧
      (I.runCall t args ret w).2.shown = (I.runCall t args ret w').2.shown := by
  rw [runCall, runCall, World.mem_of_shown h]
  exact ⟨rfl, World.shown_emit (World.shown_withMem h _) _⟩

theorem runCall_quiet (hI : I.QuietHelpers) {n : String} (hn : isQuietHelper n = true)
    (args : List I.Val) (ret : Ty) (w : I.World) :
    (I.runCall (.named n) args ret w).2.shown = w.shown := by
  refine Prod.ext (hI n args ret w.mem hn) ?_
  show (w.trace ++ [_]).filter _ = _
  rw [List.filter_append, List.filter_cons_of_neg (by simp [Event.shows, hn])]
  exact List.append_nil _

end

section
variable {ρ ρ' : I.Store}

mutual

theorem eval_shown (hloc : ρ.loc = ρ'.loc) : ∀ (e : Expr), (∀ u ∈ e.uses, ρ.val u = ρ'.val u) →
    ∀ {w w' : I.World}, w.shown = w'.shown →
      (I.eval ρ e w).1 = (I.eval ρ' e w').1 ∧ (I.eval ρ e w).2.shown = (I.eval ρ' e w').2.shown
  | .const .., _, _, _, hw | .addr _, _, _, _, hw | .phi _, _, _, _, hw | .undef, _, _, _, hw =>
    ⟨rfl, hw⟩
  | .read l, _, _, _, hw => ⟨congrFun hloc l, hw⟩
  | .use v, h, _, _, hw => ⟨h v (List.mem_singleton_self v), hw⟩
  | .load a ty, h, w, w', hw => by
    obtain ⟨ha, hshown⟩ := eval_shown hloc a h hw
    rw [eval, eval, ha, World.mem_of_shown hshown]
    exact ⟨rfl, hshown⟩
  | .unary op x, h, w, w', hw => by
    obtain ⟨hx, hshown⟩ := eval_shown hloc x h hw
    rw [eval, eval, hx]
    exact ⟨rfl, hshown⟩
  | .cast ty x, h, w, w', hw => by
    obtain ⟨hx, hshown⟩ := eval_shown hloc x h hw
    rw [eval, eval, hx]
    exact ⟨rfl, hshown⟩
  | .binary op a b, h, w, w', hw => by
    obtain ⟨ha, hshown⟩ := eval_shown hloc a (fun u hu => h u (List.mem_append_left _ hu)) hw
    obtain ⟨hb, hshown⟩ := eval_shown hloc b (fun u hu => h u (List.mem_append_right _ hu)) hshown
    rw [eval, eval, ha, hb]
    exact ⟨rfl, hshown⟩
  | .call (.direct a) args ret, h, w, w', hw => by
    obtain ⟨hargs, hshown⟩ := evalArgs_shown hloc args h hw
    rw [eval, eval, hargs]
    exact runCall_shown _ _ ret hshown
  | .call (.named n) args ret, h, w, w', hw => by
    obtain ⟨hargs, hshown⟩ := evalArgs_shown hloc args h hw
    rw [eval, eval, hargs]
    exact runCall_shown _ _ ret hshown
  | .call (.indirect x) args ret, h, w, w', hw => by
    obtain ⟨hx, hshown⟩ := eval_shown hloc x (fun u hu => h u (List.mem_append_left _ hu)) hw
    obtain ⟨hargs, hshown⟩ :=
      evalArgs_shown hloc args (fun u hu => h u (List.mem_append_right _ hu)) hshown
    rw [eval, eval, hx, hargs]
    exact runCall_shown _ _ ret hshown
  | .select c t e, h, w, w', hw => by
    obtain ⟨hc, hshown⟩ := eval_shown hloc c
      (fun u hu => h u (List.mem_append_left _ (List.mem_append_left _ hu))) hw
    rw [eval, eval, hc]
    split_ifs
    · exact eval_shown hloc t
        (fun u hu => h u (List.mem_append_left _ (List.mem_append_right _ hu))) hshown
    · exact eval_shown hloc e (fun u hu => h u (List.mem_append_right _ hu)) hshown

theorem evalArgs_shown (hloc : ρ.loc = ρ'.loc) : ∀ (es : List Expr),
    (∀ u ∈ Expr.usesOfArgs es, ρ.val u = ρ'.val u) → ∀ {w w' : I.World}, w.shown = w'.shown →
      (I.evalArgs ρ es w).1 = (I.evalArgs ρ' es w').1 ∧
        (I.evalArgs ρ es w).2.shown = (I.evalArgs ρ' es w').2.shown
  | [], _, _, _, hw => ⟨rfl, hw⟩
  | e :: es, h, w, w', hw => by
    obtain ⟨he, hshown⟩ := eval_shown hloc e (fun u hu => h u (List.mem_append_left _ hu)) hw
    obtain ⟨hes, hshown⟩ := evalArgs_shown hloc es (fun u hu => h u (List.mem_append_right _ hu)) hshown
    rw [evalArgs, evalArgs, he, hes]
    exact ⟨rfl, hshown⟩

end

end

section
variable (ρ : I.Store)

mutual

theorem eval_quiet (hI : I.QuietHelpers) : ∀ (e : Expr), e.quiet = true → ∀ w : I.World,
    (I.eval ρ e w).2.shown = w.shown
  | .const .., _, _ | .read _, _, _ | .use _, _, _ | .addr _, _, _ | .phi _, _, _ | .undef, _, _ =>
    rfl
  | .load a _, h, w | .unary _ a, h, w | .cast _ a, h, w => eval_quiet hI a h w
  | .binary _ a b, h, w => by
    obtain ⟨ha, hb⟩ := Bool.and_eq_true_iff.mp h
    exact (eval_quiet hI b hb _).trans (eval_quiet hI a ha w)
  | .call (.named n) args ret, h, w => by
    obtain ⟨hn, hargs⟩ := Bool.and_eq_true_iff.mp h
    exact (runCall_quiet hI hn _ ret _).trans (evalArgs_quiet hI args hargs w)
  | .call (.direct _) _ _, h, _ | .call (.indirect _) _ _, h, _ => nomatch h
  | .select c t e, h, w => by
    obtain ⟨hct, he⟩ := Bool.and_eq_true_iff.mp h
    obtain ⟨hc, ht⟩ := Bool.and_eq_true_iff.mp hct
    rw [eval]
    split_ifs
    · exact (eval_quiet hI t ht _).trans (eval_quiet hI c hc w)
    · exact (eval_quiet hI e he _).trans (eval_quiet hI c hc w)

theorem evalArgs_quiet (hI : I.QuietHelpers) : ∀ (es : List Expr), Expr.allQuiet es = true →
    ∀ w : I.World, (I.evalArgs ρ es w).2.shown = w.shown
  | [], _, _ => rfl
  | e :: es, h, w => by
    obtain ⟨he, hes⟩ := Bool.and_eq_true_iff.mp h
    exact (evalArgs_quiet hI es hes _).trans (eval_quiet hI e he w)

end

end

section
variable (R : I.Store → I.Store → Prop)

def EndsAlike : I.Exit → I.Exit → Prop
  | .next t ρ w, .next t' ρ' w' => t = t' ∧ R ρ ρ' ∧ w.shown = w'.shown
  | .halt ρ w, .halt ρ' w' => R ρ ρ' ∧ w.shown = w'.shown
  | _, _ => False

def RunsAlike (c c' : I.Config) : Prop := c.pc = c'.pc ∧ R c.ρ c'.ρ ∧ c.w.shown = c'.w.shown

end

end Interp

/-! ### Dead definitions -/

namespace IrFunction

variable (f : IrFunction)

def DropsQuietly : Prop :=
  ∀ x e, Stmt.assign x e ∈ f.stmts → (Stmt.assign x e).isLive f.useCount = false →
    e.callsEffectful = false

/-- A phi has an argument for each edge that leads to it, and none stands at the entry. -/
structure PhisFit : Prop where
  entry : (f.block f.entryIndex).phis = []
  edge : ∀ {p t}, t ∈ (f.block p).succ → ∃ j, (f.block t).pred.idxOf? p = some j ∧
    ∀ φ ∈ (f.block t).phis, j < φ.2.length

def usedPhi (φ : ValueId × List ValueId) : Bool := decide (0 < f.useCount φ.1)

variable {f}

theorem mem_stmts_of_block {p : ℕ} {s : Stmt} (h : s ∈ (f.block p).stmts) : s ∈ f.stmts := by
  by_cases hp : p < f.blocks.length
  · refine List.mem_flatMap.mpr ⟨f.block p, ?_, h⟩
    rw [block, List.getD_eq_getElem?_getD, List.getElem?_eq_getElem hp]
    exact List.getElem_mem hp
  · rw [block, List.getD_eq_getElem?_getD, List.getElem?_eq_none (Nat.le_of_not_lt hp)] at h
    cases h

theorem useCount_pos {s : Stmt} {u : ValueId} (hs : s ∈ f.stmts) (hu : u ∈ s.uses) :
    0 < f.useCount u :=
  List.count_pos_iff.mpr (List.mem_flatMap.mpr ⟨s, hs, hu⟩)

def Alike (f : IrFunction) {I : Interp} (ρ ρ' : I.Store) : Prop :=
  ρ.loc = ρ'.loc ∧ ∀ v, 0 < f.useCount v → ρ.val v = ρ'.val v

section
variable {I : Interp} {ρ ρ' : I.Store} {w w' : I.World}

theorem Alike.setVal (h : f.Alike ρ ρ') (x : ValueId) (v : I.Val) :
    f.Alike (ρ.setVal x v) (ρ'.setVal x v) := by
  refine ⟨h.1, fun u hu => ?_⟩
  rw [Interp.Store.setVal_val, Interp.Store.setVal_val]
  by_cases hux : u = x
  · rw [hux, Function.update_self, Function.update_self]
  · rw [Function.update_of_ne hux, Function.update_of_ne hux]
    exact h.2 u hu

theorem Alike.setDead (h : f.Alike ρ ρ') {x : ValueId} (hx : f.useCount x = 0) (v : I.Val) :
    f.Alike (ρ.setVal x v) ρ' := by
  refine ⟨h.1, fun u hu => ?_⟩
  have hux : u ≠ x := by
    rintro rfl
    omega
  rw [Interp.Store.setVal_val, Function.update_of_ne hux]
  exact h.2 u hu

theorem Alike.setLoc (h : f.Alike ρ ρ') (l : Location) (v : I.Val) :
    f.Alike (ρ.setLoc l v) (ρ'.setLoc l v) := by
  refine ⟨?_, h.2⟩
  rw [Interp.Store.setLoc_loc, Interp.Store.setLoc_loc, h.1]

theorem Alike.eval (h : f.Alike ρ ρ') {s : Stmt} (hs : s ∈ f.stmts) {e : Expr} (he : e ∈ s.exprs)
    (hw : w.shown = w'.shown) : (I.eval ρ e w).1 = (I.eval ρ' e w').1 ∧
      (I.eval ρ e w).2.shown = (I.eval ρ' e w').2.shown :=
  Interp.eval_shown h.1 e (fun u hu =>
    h.2 u (useCount_pos hs (List.mem_flatMap.mpr ⟨e, he, hu⟩))) hw

theorem DropsQuietly.dead (hf : f.DropsQuietly) (hI : I.QuietHelpers) {x : ValueId} {e : Expr}
    (hs : Stmt.assign x e ∈ f.stmts) (hdead : (Stmt.assign x e).isLive f.useCount = false)
    (ρ : I.Store) (w : I.World) : f.useCount x = 0 ∧ (I.eval ρ e w).2.shown = w.shown := by
  obtain ⟨hcount, hpure⟩ := Bool.or_eq_false_iff.mp hdead
  have hzero : f.useCount x = 0 := Nat.eq_zero_of_not_pos (of_decide_eq_false hcount)
  exact ⟨hzero, Interp.eval_quiet ρ hI e ((e.quiet_iff hpure).mpr (hf x e hs hdead)) w⟩

theorem exec_dce (hf : f.DropsQuietly) (hI : I.QuietHelpers) (rest : List Stmt)
    (hrest : ∀ s ∈ rest, s ∈ f.stmts) (next : Option ℕ) (hρ : f.Alike ρ ρ')
    (hw : w.shown = w'.shown) : Interp.EndsAlike f.Alike (I.exec rest next ρ w)
      (I.exec (rest.filter (Stmt.isLive f.useCount)) next ρ' w') := by
  induction rest generalizing next ρ ρ' w w' with
  | nil => exact ⟨rfl, hρ, hw⟩
  | cons s rest ih =>
    obtain ⟨hs, htail⟩ := List.forall_mem_cons.mp hrest
    cases hlive : s.isLive f.useCount with
    | false =>
      rw [List.filter_cons_of_neg (by simp [hlive])]
      -- Only definitions go.
      cases s with
      | assign x e =>
        obtain ⟨hx, hquiet⟩ := hf.dead hI hs hlive ρ w
        exact ih htail next (hρ.setDead hx _) (hquiet.trans hw)
      | _ => cases hlive
    | true =>
      rw [List.filter_cons_of_pos hlive]
      cases s with
      | set l e =>
        obtain ⟨he, hshown⟩ := hρ.eval hs (List.mem_singleton_self e) hw
        rw [Interp.exec, Interp.exec, he]
        exact ih htail next (hρ.setLoc l _) hshown
      | assign x e =>
        obtain ⟨he, hshown⟩ := hρ.eval hs (List.mem_singleton_self e) hw
        rw [Interp.exec, Interp.exec, he]
        exact ih htail next (hρ.setVal x _) hshown
      | store a v ty =>
        obtain ⟨ha, hshown⟩ := hρ.eval hs List.mem_cons_self hw
        obtain ⟨hv, hshown⟩ := hρ.eval hs
          (List.mem_cons_of_mem _ (List.mem_singleton_self v)) hshown
        rw [Interp.exec, Interp.exec, ha, hv, Interp.World.mem_of_shown hshown]
        exact ih htail next hρ (Interp.World.shown_emit (Interp.World.shown_withMem hshown _) _)
      | branch c t e =>
        obtain ⟨hc, hshown⟩ := hρ.eval hs (List.mem_singleton_self c) hw
        rw [Interp.exec, Interp.exec, hc]
        exact ih htail _ hρ (Interp.World.shown_emit hshown _)
      | switch v cases d =>
        obtain ⟨hv, hshown⟩ := hρ.eval hs (List.mem_singleton_self v) hw
        rw [Interp.exec, Interp.exec, hv]
        exact ih htail _ hρ (Interp.World.shown_emit hshown _)
      | callStmt e =>
        obtain ⟨he, hshown⟩ := hρ.eval hs (List.mem_singleton_self e) hw
        exact ih htail next hρ hshown
      | ret e =>
        cases e with
        | none => exact ⟨hρ, Interp.World.shown_emit hw _⟩
        | some e =>
          obtain ⟨he, hshown⟩ := hρ.eval hs (List.mem_singleton_self e) hw
          rw [Interp.exec, Interp.exec, he]
          exact ⟨hρ, Interp.World.shown_emit hshown _⟩
      | asm text =>
        rw [Interp.exec, Interp.exec, Interp.World.mem_of_shown hw]
        cases I.asm text w'.mem with
        | none => exact ⟨hρ, Interp.World.shown_emit hw _⟩
        | some mem =>
          exact ih htail next hρ
            (Interp.World.shown_emit (Interp.World.shown_withMem hw mem) _)
      | jump t => exact ih htail _ hρ hw
      | nop => exact ih htail next hρ hw

/-! ### Blocks and runs -/

theorem getElem?_dce (t : ℕ) : (dce f).blocks[t]? =
    f.blocks[t]?.map fun b => { b with stmts := b.stmts.filter (Stmt.isLive f.useCount) } :=
  List.getElem?_map

theorem block_dce (p : ℕ) : (dce f).block p =
    { f.block p with stmts := (f.block p).stmts.filter (Stmt.isLive f.useCount) } := by
  rw [block, block, List.getD_eq_getElem?_getD, List.getD_eq_getElem?_getD, getElem?_dce]
  cases f.blocks[p]? with
  | none => rfl
  | some b => rfl

theorem body_dce (p : ℕ) :
    ((dce f).block p).body = (f.block p).body.filter (Stmt.isLive f.useCount) := by
  rw [block_dce, Block.body, Block.body, List.filter_filter, List.filter_filter]
  exact List.filter_congr fun s _ => Bool.and_comm _ _

theorem phis_dce (p : ℕ) : ((dce f).block p).phis =
    (f.block p).phis.filter f.usedPhi := by
  have hall : ∀ ss : List Stmt, (ss.filter (Stmt.isLive f.useCount)).filterMap Stmt.phi? =
      (ss.filterMap Stmt.phi?).filter f.usedPhi := by
    intro ss
    induction ss with
    | nil => rfl
    | cons s ss ih =>
      cases hphi : s.phi? with
      | none =>
        rw [List.filterMap_cons_none hphi]
        cases hlive : s.isLive f.useCount with
        | false => rwa [List.filter_cons_of_neg (by simp [hlive])]
        | true => rwa [List.filter_cons_of_pos hlive, List.filterMap_cons_none hphi]
      | some φ =>
        rw [List.filterMap_cons_some hphi]
        have hlive : s.isLive f.useCount = f.usedPhi φ := by
          cases s with
          | assign x e =>
            cases e with
            | phi args =>
              obtain rfl := Option.some.inj hphi
              exact Bool.or_false _
            | _ => cases hphi
          | _ => cases hphi
        cases hused : f.usedPhi φ with
        | true =>
          rw [List.filter_cons_of_pos (hlive.trans hused), List.filterMap_cons_some hphi, ih,
            List.filter_cons_of_pos hused]
        | false =>
          rw [List.filter_cons_of_neg (by simp [hlive, hused]), ih,
            List.filter_cons_of_neg (by simp [hused])]
  rw [block_dce]
  exact hall _

theorem mem_args_used {p : ℕ} {φ : ValueId × List ValueId} (hφ : φ ∈ (f.block p).phis)
    {a : ValueId} (ha : a ∈ φ.2) : 0 < f.useCount a := by
  obtain ⟨s, hs, hphi⟩ := List.mem_filterMap.mp hφ
  refine useCount_pos (mem_stmts_of_block hs) ?_
  cases s with
  | assign x e =>
    cases e with
    | phi args =>
      obtain rfl := Option.some.inj hphi
      exact List.mem_append_left _ ha
    | _ => cases hphi
  | _ => cases hphi

theorem Alike.setVals {φs : List (ValueId × List ValueId)} {g g' : ValueId × List ValueId → I.Val}
    (hg : ∀ φ ∈ φs, g φ = g' φ) (h : f.Alike ρ ρ') :
    f.Alike (ρ.setVals (φs.map fun φ => (φ.1, g φ))) (ρ'.setVals
      ((φs.filter f.usedPhi).map fun φ => (φ.1, g' φ))) := by
  induction φs generalizing ρ ρ' with
  | nil => exact h
  | cons φ φs ih =>
    obtain ⟨hφ, hφs⟩ := List.forall_mem_cons.mp hg
    cases hused : f.usedPhi φ with
    | true =>
      rw [List.filter_cons_of_pos hused, List.map_cons, List.map_cons, hφ]
      exact ih hφs (h.setVal φ.1 _)
    | false =>
      have hzero : f.useCount φ.1 = 0 := Nat.eq_zero_of_not_pos (of_decide_eq_false hused)
      rw [List.filter_cons_of_neg (by simp [hused]), List.map_cons]
      exact ih hφs (h.setDead hzero _)

theorem enter_dce (watched : ℕ) {p : Option ℕ} {t : ℕ}
    (hslot : (f.block t).phis = [] ∨ ∃ j, (p.bind fun p => (f.block t).pred.idxOf? p) = some j ∧
      ∀ φ ∈ (f.block t).phis, j < φ.2.length)
    (hρ : f.Alike ρ ρ') (hw : w.shown = w'.shown) :
    Interp.RunsAlike f.Alike (Interp.enter watched f p t ρ w)
      (Interp.enter watched (dce f) p t ρ' w') := by
  rw [Interp.enter, Interp.enter]
  by_cases ht : t < f.blocks.length
  · have ht' : t < (dce f).blocks.length := by
      rw [(dce_trims f).length]
      exact ht
    rw [getElem?_block ht, getElem?_block ht']
    dsimp only
    have hpred : ((dce f).block t).pred = (f.block t).pred := by rw [block_dce]
    have hvisit : (if t < watched then w.emit (.visit t) else w).shown =
        (if t < watched then w'.emit (.visit t) else w').shown := by
      split_ifs
      · exact Interp.World.shown_emit hw _
      · exact hw
    rw [phis_dce, hpred]
    rcases hslot with hnone | ⟨j, hj, hlen⟩
    · rw [hnone]
      exact ⟨rfl, hρ, hvisit⟩
    · have hget : ∀ φ ∈ (f.block t).phis, φ.2[j]? = some (φ.2.getD j 0) := by
        intro φ hφ
        rw [List.getD_eq_getElem?_getD, List.getElem?_eq_getElem (hlen φ hφ), Option.getD_some]
      rw [hj, Interp.readPhis_of_slot hget,
        Interp.readPhis_of_slot fun φ hφ => hget φ (List.mem_filter.mp hφ).1]
      refine ⟨rfl, hρ.setVals fun φ hφ => hρ.2 _ (mem_args_used hφ ?_), hvisit⟩
      exact List.mem_of_getElem? (hget φ hφ)
  · have ht' : ¬t < (dce f).blocks.length := by
      rw [(dce_trims f).length]
      exact ht
    rw [List.getElem?_eq_none (Nat.le_of_not_lt ht), List.getElem?_eq_none (Nat.le_of_not_lt ht')]
    exact ⟨rfl, hρ, Interp.World.shown_emit hw _⟩

theorem leave_dce (hfit : f.PhisFit) (watched p : ℕ) {e e' : I.Exit}
    (h : Interp.EndsAlike f.Alike e e') :
    Interp.RunsAlike f.Alike (Interp.leave watched f p e)
      (Interp.leave watched (dce f) p e') := by
  match e, e', h with
  | .halt ρ w, .halt ρ' w', ⟨hρ, hw⟩ => exact ⟨rfl, hρ, hw⟩
  | .next none ρ w, .next _ ρ' w', ⟨rfl, hρ, hw⟩ =>
    exact ⟨rfl, hρ, Interp.World.shown_emit hw _⟩
  | .next (some t) ρ w, .next _ ρ' w', ⟨rfl, hρ, hw⟩ =>
    have hsucc : ((dce f).block p).succ = (f.block p).succ := by rw [block_dce]
    rw [Interp.leave, Interp.leave, hsucc]
    split_ifs with ht
    · obtain ⟨j, hj, hlen⟩ := hfit.edge ht
      exact enter_dce watched (.inr ⟨j, hj, hlen⟩) hρ hw
    · exact ⟨rfl, hρ, Interp.World.shown_emit hw _⟩

end

end IrFunction

/-- `g` runs as `f` does, as far as a run shows. -/
def ShowsLike (I : Interp) (watched : ℕ) (f g : IrFunction) (ρ ρ' : I.Store) (mem : I.Mem) :
    Prop :=
  Sim.SameRuns (I.step watched f) (fun c => c.w.shown) (I.step watched g) (fun c => c.w.shown)
    (Interp.start watched f ρ mem) (Interp.start watched g ρ' mem)

theorem dce_shows {f : IrFunction} (hfit : f.PhisFit) (hdrop : f.DropsQuietly) {I : Interp}
    (hI : I.QuietHelpers) (watched : ℕ) (ρ : I.Store) (mem : I.Mem) :
    ShowsLike I watched f (dce f) ρ ρ mem := by
  have hsim : Sim.IsSimulation (I.step watched f) (fun c => c.w.shown) (I.step watched (dce f))
      (fun c => c.w.shown) (Interp.RunsAlike f.Alike) := by
    refine ⟨fun h => h.2.2, ?_, ?_⟩
    · intro c c' c₁ h hstep
      obtain ⟨hpc, hρ, hw⟩ := h
      cases hc : c.pc with
      | none =>
        rw [Interp.step_eq_none.mpr hc] at hstep
        cases hstep
      | some p =>
        rw [Interp.step_of_pc hc] at hstep
        obtain rfl := Option.some.inj hstep
        refine ⟨0, _, ?_, IrFunction.leave_dce hfit watched p (IrFunction.exec_dce hdrop hI
          (f.block p).body (fun s hs => IrFunction.mem_stmts_of_block (List.mem_filter.mp hs).1) none hρ hw)⟩
        rw [Sim.stepN, Interp.step_of_pc (hpc.symm.trans hc), IrFunction.body_dce]
        rfl
    · intro c c' h hstep
      have hend : c'.pc = none := h.1.symm.trans (Interp.step_eq_none.mp hstep)
      exact ⟨0, c', rfl, Interp.step_eq_none.mpr hend, h.2.2⟩
  refine Sim.SameRuns.of_simulation hsim ?_
  rw [Interp.start, Interp.start, (dce_trims f).entryIndex]
  exact IrFunction.enter_dce watched (.inl hfit.entry) ⟨rfl, fun _ _ => rfl⟩ rfl

end Aret
