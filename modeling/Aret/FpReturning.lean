/-
The functions that return a floating-point value in `st(0)`.

`compute_fp_returning` starts from the library functions that are known to, and adds
functions whose x87 stack has one value on it at every return, as long as it finds one:
the depth pass counts a push for a call of a function that is in the set so far.

* `computeFpReturning_consistent` — where no function passes without its callees, it consists
  of the functions that pass by the final set, whatever the order of the list;
* `not_computeFpReturning_consistent` — a function that was added stays, though a callee
  that is added later makes the pass fail.
-/
import Aret.BuildIr
import Aret.Growing
import Aret.Rounding

namespace Aret.FpReturning

open Rounding (RoundMode roundingModeActive flatOf joinsOf)

/-! ### Instructions -/

/-- The mnemonics that `is_x87` and `x87_delta` list. -/
inductive Mnemonic
  | fabs | fadd | faddp | fiadd | fbld | fbstp | fchs | fnclex | fclex | fcom | fcomp | fcompp
  | fcomi | fcomip | fcos | fdecstp | fdiv | fdivp | fidiv | fdivr | fdivrp | fidivr | ffree
  | ffreep | ficom | ficomp | fild | fincstp | finit | fninit | fist | fistp | fisttp | fisub
  | fisubr | fimul | fld | fld1 | fldcw | fldenv | fldl2e | fldl2t | fldlg2 | fldln2 | fldpi
  | fldz | fmul | fmulp | fnop | fpatan | fprem | fprem1 | fptan | frndint | frstor | fnsave
  | fsave | fscale | fsin | fsincos | fsqrt | fst | fstp | fnstcw | fstcw | fnstenv | fstenv
  | fnstsw | fstsw | fsub | fsubp | fsubr | fsubrp | ftst | fucom | fucomp | fucompp | fucomi
  | fucomip | fxam | fxch | fxtract | fyl2x | fyl2xp1 | f2xm1 | wait | fcmovb | fcmovbe | fcmove
  | fcmovu | fcmovnb | fcmovnbe | fcmovne | fcmovnu | other
  deriving DecidableEq

/-- `x87_delta`: the net change of the depth; `none` if the instruction is not modelled. -/
def x87Delta : Mnemonic → Option ℤ
  | .fld | .fild | .fld1 | .fldz => some 1
  | .fstp | .fistp | .fisttp => some (-1)
  | .faddp | .fsubp | .fsubrp | .fmulp | .fdivp | .fdivrp => some (-1)
  | .fcomip | .fucomip => some (-1)
  | .fst | .fist => some 0
  | .fadd | .fsub | .fsubr | .fmul | .fdiv | .fdivr => some 0
  | .fiadd | .fisub | .fisubr | .fimul | .fidiv | .fidivr => some 0
  | .fabs | .fchs | .fsqrt | .fxch | .frndint => some 0
  | .fprem | .fprem1 => some 0
  | .fcomi | .fucomi => some 0
  | .fcom | .fucom | .ficom | .ftst => some 0
  | .fcomp | .fucomp | .ficomp => some (-1)
  | .fcompp | .fucompp => some (-2)
  | .fnstsw | .fstsw => some 0
  | .fxam => some 0
  | .fcmovb | .fcmovbe | .fcmove | .fcmovu | .fcmovnb | .fcmovnbe | .fcmovne | .fcmovnu => some 0
  | .finit | .fninit => some 0
  | .fldcw | .fnstcw | .fstcw | .fnclex | .fclex | .fnop | .wait => some 0
  | _ => none

/-- The mnemonics that `is_x87` lists. -/
def Mnemonic.isFpu : Mnemonic → Bool
  | .fcmovb | .fcmovbe | .fcmove | .fcmovu | .fcmovnb | .fcmovnbe | .fcmovne | .fcmovnu => false
  | .other => false
  | _ => true

/-- `FlowControl`, as far as calls go: a near call of an address, and an indirect one, of
whose operand the displacement counts if it is all there is to it. -/
inductive FlowControl
  | call (target : ℕ)
  | indirectCall (slot : Option ℕ)
  | other
  deriving DecidableEq

structure X87View where
  mnemonic : Mnemonic
  /-- One of the operands is a register of the x87 stack. -/
  stOperand : Bool
  flowControl : FlowControl

/-- `is_x87`. -/
def X87View.isX87 (v : X87View) : Bool := v.mnemonic.isFpu || v.stOperand

/-- The program, with the functions that do not return and the views of its
instructions. -/
structure FpProgram where
  prog : Program
  noreturn : ℕ → Bool
  x87 : Insn → X87View
  cw : Insn → Rounding.CwView

def fpLibNames : List String :=
  ["pow", "sqrt", "exp", "exp2", "expm1", "log", "log2", "log10", "log1p",
    "sin", "cos", "tan", "asin", "acos", "atan", "atan2",
    "sinh", "cosh", "tanh", "asinh", "acosh", "atanh",
    "fmod", "modf", "ldexp", "frexp", "hypot", "cbrt",
    "ceil", "floor", "round", "trunc", "rint", "nearbyint",
    "fabs", "copysign", "fmin", "fmax", "fdim", "remainder",
    "nextafter", "scalbn", "scalbln", "tgamma", "lgamma",
    "erf", "erfc", "fma", "drem", "significand", "logb",
    "strtod", "atof", "strtold", "difftime"]

def isFpReturningLib (name : String) : Bool :=
  let n := name.toList.dropWhile (· == '_')
  let n := if n.getLast? = some 'l' then n.dropLast else n
  fpLibNames.contains (String.ofList n)

/-! ### The depth pass -/

/-- What the pass finds: the depth and the mode at each x87 instruction, the depth at each
call that returns a value, and the depths at the returns. -/
structure X87Info where
  ops : List (ℕ × ℕ × RoundMode)
  fpCalls : List (ℕ × ℕ)
  retDepths : List ℤ

/-- The depth at the entry of each block that was reached, and the blocks to go on with. -/
structure Walk where
  entrySp : ℕ → Option ℤ
  work : List ℕ

def inRange (sp : ℤ) : Bool := 0 ≤ sp && sp ≤ 8

section
variable (p : FpProgram) (f : Function) (fp : Finset ℕ)

def callReturnsFp (i : Insn) : Bool :=
  match (p.x87 i).flowControl with
  | .call t =>
    t ∈ fp || (t ≠ 0 && (p.prog.importThunk t).any isFpReturningLib) ||
      (t ≠ 0 && (p.prog.crtSymbol t).any isFpReturningLib)
  | .indirectCall (some slot) => (p.prog.importName slot).any isFpReturningLib
  | _ => false

def provenMode (i : Insn) : Option RoundMode :=
  ((List.range (flatOf f).length).reverse.find? fun k =>
    (flatOf f)[k]?.any (·.address = i.address)).bind
      (roundingModeActive p.cw (flatOf f) (joinsOf f))

/-- One instruction at depth `sp`. -/
def depthInsn (i : Insn) (sp : ℤ) (info : X87Info) : Option (ℤ × X87Info) :=
  if callReturnsFp p fp i then
    if sp < 0 then none
    else if inRange (sp + 1) then
      some (sp + 1, { info with fpCalls := (i.address, sp.toNat) :: info.fpCalls })
    else none
  else if 0 < sp ∧ (p.x87 i).flowControl ≠ .other then none
  else if !(p.x87 i).isX87 then some (sp, info)
  else
    match x87Delta (p.x87 i).mnemonic with
    | none => none
    | some delta =>
      let proven := provenMode p f i
      let m := (p.x87 i).mnemonic
      if m = .frndint ∧ proven = none then none
      else if (m = .fist ∨ m = .fistp) ∧ proven ≠ some .trunc then none
      else if !inRange sp then none
      else
        let sp' := if m = .finit ∨ m = .fninit then 0 else sp + delta
        if inRange sp' then
          some (sp', { info with
            ops := (i.address, sp.toNat, proven.getD .nearest) :: info.ops })
        else none

def depthInsns : List Insn → ℤ → X87Info → Option (ℤ × Bool × X87Info)
  | [], sp, info => some (sp, false, info)
  | i :: insns, sp, info =>
    if i.flow = .call ∧ i.target.any p.noreturn then some (sp, true, info)
    else
      match depthInsn p f fp i sp info with
      | none => none
      | some (sp', info') => depthInsns insns sp' info'

def pushSuccs (sp : ℤ) : List ℕ → Walk → Option Walk
  | [], w => some w
  | s :: ss, w =>
    match f.idx s with
    | none => pushSuccs sp ss w
    | some si =>
      match w.entrySp si with
      | none => pushSuccs sp ss ⟨Function.update w.entrySp si (some sp), si :: w.work⟩
      | some sp' => if sp' = sp then pushSuccs sp ss w else none

/-- The propagation over at most `fuel` blocks; the outer `none` is for more. -/
def depthWalk : ℕ → Walk → X87Info → Option (Option (Walk × X87Info))
  | _, ⟨entrySp, []⟩, info => some (some (⟨entrySp, []⟩, info))
  | 0, ⟨_, _ :: _⟩, _ => none
  | fuel + 1, ⟨entrySp, bi :: work⟩, info =>
    match f.blocks[bi]? with
    | none => some none
    | some blk =>
      match depthInsns p f fp blk.insns ((entrySp bi).getD (-1)) info with
      | none => some none
      | some (sp, noreturnHit, info) =>
        let info := if blk.terminator = .ret then
          { info with retDepths := info.retDepths ++ [sp] } else info
        if noreturnHit then depthWalk fuel ⟨entrySp, work⟩ info
        else
          match pushSuccs f sp blk.successors ⟨entrySp, work⟩ with
          | none => some none
          | some w => depthWalk fuel w info

def entryWalk : Walk :=
  let entry := (f.idx f.entry).getD 0
  ⟨Function.update (fun _ => none) entry (some 0), [entry]⟩

def hasX87 (b : BasicBlock) : Bool := b.insns.any fun i => (p.x87 i).isX87

def x87DepthPass : Option X87Info :=
  if f.blocks.any (hasX87 p) then
    match depthWalk p f fp (f.blocks.length + 1) (entryWalk f) ⟨[], [], []⟩ with
    | some (some (w, info)) =>
      if (List.range f.blocks.length).any fun i =>
          (w.entrySp i).isNone && f.blocks[i]?.any (hasX87 p) then none
      else some info
    | _ => none
  else none

def funcReturnsFp : Bool :=
  match x87DepthPass p f fp with
  | some info => !info.retDepths.isEmpty && info.retDepths.all (· = 1)
  | none => false

/-- The functions that `compute_fp_returning` starts from. -/
def isFpLib : Bool :=
  isFpReturningLib f.name || (p.prog.crtSymbol f.entry).any isFpReturningLib

end

/-- What makes a function return a value: a known name, or the depth pass by the set so
far. -/
def fpRule (p : FpProgram) : Growing.Rule Function ℕ where
  key := Function.entry
  base := isFpLib p
  admits := funcReturnsFp p

def computeFpReturning (p : FpProgram) (funcs : List Function) : Finset ℕ :=
  Growing.grow (fpRule p) funcs

/-! ### The pass ends -/

def unreached (f : Function) (w : Walk) : Finset ℕ :=
  (Finset.range f.blocks.length).filter fun i => w.entrySp i = none

/-- What is left to do: a block is listed when it is reached, and it is reached once. -/
def Walk.left (f : Function) (w : Walk) : ℕ := w.work.length + (unreached f w).card

section
variable {p : FpProgram} {f : Function} {fp : Finset ℕ}

theorem idx_lt {a i : ℕ} (h : f.idx a = some i) : i < f.blocks.length :=
  (List.findIdx?_eq_some_iff_getElem.mp h).1

theorem unreached_update {w : Walk} {i : ℕ} {sp : ℤ} {work : List ℕ} :
    unreached f ⟨Function.update w.entrySp i (some sp), work⟩ = (unreached f w).erase i := by
  ext k
  by_cases hk : k = i
  · subst hk
    simp [unreached]
  · simp [unreached, Function.update, hk]

theorem pushSuccs_left {sp : ℤ} {ss : List ℕ} {w w' : Walk} (h : pushSuccs f sp ss w = some w') :
    w'.left f = w.left f := by
  induction ss generalizing w with
  | nil => rw [Option.some.inj h]
  | cons s ss ih =>
    rw [pushSuccs] at h
    rcases hs : f.idx s with _ | si
    · simp only [hs] at h
      exact ih h
    · simp only [hs] at h
      rcases hsi : w.entrySp si with _ | sp'
      · -- One more block is listed, and one less is left to be reached.
        simp only [hsi] at h
        have hmem : si ∈ unreached f w := by
          simp [unreached, hsi, idx_lt hs]
        rw [ih h, Walk.left, Walk.left, unreached_update, Finset.card_erase_of_mem hmem]
        have hpos : 0 < (unreached f w).card := Finset.card_pos.mpr ⟨si, hmem⟩
        simp only [List.length_cons]
        omega
      · simp only [hsi] at h
        split_ifs at h
        exact ih h

theorem depthWalk_isSome {fuel : ℕ} {w : Walk} {info : X87Info} (h : w.left f ≤ fuel) :
    (depthWalk p f fp fuel w info).isSome := by
  induction fuel generalizing w info with
  | zero =>
    obtain ⟨entrySp, work⟩ := w
    cases work with
    | nil => simp [depthWalk]
    | cons bi work => simp [Walk.left] at h
  | succ fuel ih =>
    obtain ⟨entrySp, work⟩ := w
    cases work with
    | nil => simp [depthWalk]
    | cons bi work =>
      have hrest : (Walk.left f ⟨entrySp, work⟩) ≤ fuel := by
        simp only [Walk.left, unreached, List.length_cons] at h ⊢
        omega
      rw [depthWalk]
      split
      · rfl
      · split
        · rfl
        · dsimp only
          split_ifs
          · exact ih hrest
          · exact ih hrest
          all_goals
            split
            · rfl
            · rename_i w hpush
              exact ih ((pushSuccs_left hpush).le.trans hrest)

theorem x87DepthPass_walk_isSome (info : X87Info) :
    (depthWalk p f fp (f.blocks.length + 1) (entryWalk f) info).isSome := by
  apply depthWalk_isSome
  have hcard : (unreached f (entryWalk f)).card ≤ f.blocks.length := by
    refine (Finset.card_filter_le _ _).trans ?_
    rw [Finset.card_range]
  have hwork : (entryWalk f).work.length = 1 := rfl
  rw [Walk.left, hwork]
  omega

end

/-! ### Callees -/

def noreturnCall (p : FpProgram) (i : Insn) : Bool := i.flow == .call && i.target.any p.noreturn

/-- The blocks that the pass comes to. -/
inductive Reached (p : FpProgram) (f : Function) : ℕ → Prop
  | entry : Reached p f ((f.idx f.entry).getD 0)
  | next {bi si s : ℕ} {blk : BasicBlock} (h : Reached p f bi) (hblk : f.blocks[bi]? = some blk)
    (hreturns : ∀ i ∈ blk.insns, noreturnCall p i = false) (hs : s ∈ blk.successors)
    (hsi : f.idx s = some si) : Reached p f si

/-- The functions called before a return, other than library functions. -/
def Calls (p : FpProgram) (f : Function) (t : ℕ) : Prop :=
  ∃ bi blk, Reached p f bi ∧ f.blocks[bi]? = some blk ∧
    ∃ i ∈ blk.insns.takeWhile fun i => !noreturnCall p i,
      (p.x87 i).flowControl = .call t ∧ callReturnsFp p ∅ i = false

section
variable {p : FpProgram} {f : Function} {fp fp' : Finset ℕ}

theorem callReturnsFp_congr {i : Insn}
    (h : ∀ t, (p.x87 i).flowControl = .call t → callReturnsFp p ∅ i = false →
      (t ∈ fp ↔ t ∈ fp')) : callReturnsFp p fp i = callReturnsFp p fp' i := by
  cases hflow : (p.x87 i).flowControl with
  | call t =>
    cases hlib : callReturnsFp p ∅ i with
    | false =>
      have hiff := h t hflow hlib
      simp [callReturnsFp, hflow, hiff]
    | true =>
      have hname : (t ≠ 0 && (p.prog.importThunk t).any isFpReturningLib ||
          t ≠ 0 && (p.prog.crtSymbol t).any isFpReturningLib) = true := by
        simpa [callReturnsFp, hflow] using hlib
      simp only [callReturnsFp, hflow, Bool.or_assoc, hname, Bool.or_true]
  | indirectCall slot => cases slot <;> simp [callReturnsFp, hflow]
  | other => simp [callReturnsFp, hflow]

theorem depthInsns_congr {insns : List Insn} {sp : ℤ} {info : X87Info}
    (h : ∀ i ∈ insns.takeWhile fun i => !noreturnCall p i,
      callReturnsFp p fp i = callReturnsFp p fp' i) :
    depthInsns p f fp insns sp info = depthInsns p f fp' insns sp info := by
  induction insns generalizing sp info with
  | nil => rfl
  | cons i insns ih =>
    rw [depthInsns, depthInsns]
    split_ifs with hno
    · rfl
    · have hgoes : noreturnCall p i = false := by
        simpa [noreturnCall] using hno
      rw [List.takeWhile_cons, if_pos (by simp [hgoes])] at h
      have hinsn : depthInsn p f fp i sp info = depthInsn p f fp' i sp info := by
        rw [depthInsn, depthInsn, h i List.mem_cons_self]
      rw [hinsn]
      cases depthInsn p f fp' i sp info with
      | none => rfl
      | some r => exact ih fun j hj => h j (List.mem_cons_of_mem _ hj)

theorem depthInsns_returns {insns : List Insn} {sp sp' : ℤ} {info info' : X87Info}
    (h : depthInsns p f fp insns sp info = some (sp', false, info')) :
    ∀ i ∈ insns, noreturnCall p i = false := by
  induction insns generalizing sp info with
  | nil => simp
  | cons i insns ih =>
    rw [depthInsns] at h
    split_ifs at h with hno
    · simp at h
    · split at h
      · cases h
      · intro j hj
        rcases List.mem_cons.mp hj with rfl | hj
        · simpa [noreturnCall] using hno
        · exact ih h j hj

theorem pushSuccs_work {sp : ℤ} {ss : List ℕ} {w w' : Walk} (h : pushSuccs f sp ss w = some w') :
    ∀ b ∈ w'.work, b ∈ w.work ∨ ∃ s ∈ ss, f.idx s = some b := by
  induction ss generalizing w with
  | nil =>
    cases h
    exact fun b hb => .inl hb
  | cons s ss ih =>
    intro b hb
    have hrest : ∀ {w₁ : Walk}, pushSuccs f sp ss w₁ = some w' →
        (b ∈ w₁.work → b ∈ w.work ∨ f.idx s = some b) →
        b ∈ w.work ∨ ∃ s' ∈ s :: ss, f.idx s' = some b := by
      intro w₁ h₁ hfirst
      rcases ih h₁ b hb with hmem | ⟨s', hs', hidx⟩
      · exact (hfirst hmem).imp_right fun hidx => ⟨s, List.mem_cons_self, hidx⟩
      · exact .inr ⟨s', List.mem_cons_of_mem _ hs', hidx⟩
    rw [pushSuccs] at h
    cases hs : f.idx s with
    | none =>
      simp only [hs] at h
      exact hrest h .inl
    | some si =>
      simp only [hs] at h
      cases hsi : w.entrySp si with
      | none =>
        simp only [hsi] at h
        refine hrest h fun hmem => ?_
        rcases List.mem_cons.mp hmem with rfl | hmem
        · exact .inr hs
        · exact .inl hmem
      | some sp' =>
        simp only [hsi] at h
        split_ifs at h
        exact hrest h .inl

theorem depthWalk_congr (h : ∀ t, Calls p f t → (t ∈ fp ↔ t ∈ fp')) {fuel : ℕ} {w : Walk}
    {info : X87Info} (hw : ∀ b ∈ w.work, Reached p f b) :
    depthWalk p f fp fuel w info = depthWalk p f fp' fuel w info := by
  induction fuel generalizing w info with
  | zero => obtain ⟨entrySp, _ | _⟩ := w <;> rfl
  | succ fuel ih =>
    obtain ⟨entrySp, _ | ⟨bi, work⟩⟩ := w
    · rfl
    · obtain ⟨hbi, hrest⟩ := List.forall_mem_cons.mp hw
      rw [depthWalk, depthWalk]
      cases hblk : f.blocks[bi]? with
      | none => rfl
      | some blk =>
        have hinsns : depthInsns p f fp blk.insns ((entrySp bi).getD (-1)) info =
            depthInsns p f fp' blk.insns ((entrySp bi).getD (-1)) info :=
          depthInsns_congr fun i hi => callReturnsFp_congr fun t hflow hlib =>
            h t ⟨bi, blk, hbi, hblk, i, hi, hflow, hlib⟩
        simp only [hinsns]
        rcases hres : depthInsns p f fp' blk.insns ((entrySp bi).getD (-1)) info with
          _ | ⟨sp, _ | _, info'⟩
        · rfl
        · dsimp only
          cases hpush : pushSuccs f sp blk.successors ⟨entrySp, work⟩ with
          | none => rfl
          | some w' =>
            refine ih fun b hb => ?_
            rcases pushSuccs_work hpush b hb with hb | ⟨s, hs, hidx⟩
            · exact hrest b hb
            · exact .next hbi hblk (depthInsns_returns hres) hs hidx
        · exact ih hrest

/-- **The pass looks at the set for the callees only.** -/
theorem funcReturnsFp_congr (h : ∀ t, Calls p f t → (t ∈ fp ↔ t ∈ fp')) :
    funcReturnsFp p f fp = funcReturnsFp p f fp' := by
  have hwalk : ∀ fuel info, depthWalk p f fp fuel (entryWalk f) info =
      depthWalk p f fp' fuel (entryWalk f) info := by
    refine fun fuel info => depthWalk_congr h fun b hb => ?_
    rw [List.mem_singleton.mp hb]
    exact .entry
  rw [funcReturnsFp, funcReturnsFp, x87DepthPass, x87DepthPass, hwalk]

end

/-! ### The set -/

/-- The library functions, and those that pass by a set of such functions that has the library
functions. -/
inductive MayReturn (p : FpProgram) (funcs : List Function) : ℕ → Prop
  | lib {f : Function} (hf : f ∈ funcs) (hlib : isFpLib p f = true) : MayReturn p funcs f.entry
  | pass {f : Function} {fp : Finset ℕ} (hf : f ∈ funcs)
    (hlib : ∀ g ∈ funcs, isFpLib p g = true → g.entry ∈ fp)
    (hfp : ∀ t ∈ fp, MayReturn p funcs t) (hpass : funcReturnsFp p f fp = true) :
    MayReturn p funcs f.entry

/-- A function passes by a set only if the set has all its callees that may return a
value. -/
def CalleesFirst (p : FpProgram) (funcs : List Function) : Prop :=
  ∀ f ∈ funcs, isFpLib p f = false → ∀ fp : Finset ℕ,
    (∀ g ∈ funcs, isFpLib p g = true → g.entry ∈ fp) → (∀ t ∈ fp, MayReturn p funcs t) →
    funcReturnsFp p f fp = true → ∀ t, Calls p f t → MayReturn p funcs t → t ∈ fp

section
variable {p : FpProgram} {funcs : List Function} {fp : Finset ℕ}

theorem lib_of_grown (h : Growing.Grown (fpRule p) funcs fp) :
    ∀ g ∈ funcs, isFpLib p g = true → g.entry ∈ fp :=
  fun _ hg hlib => h.seed_subset (Growing.key_mem_seed hg hlib)

theorem mayReturn_of_grown (h : Growing.Grown (fpRule p) funcs fp) :
    ∀ t ∈ fp, MayReturn p funcs t := by
  induction h with
  | seed =>
    intro t ht
    obtain ⟨g, hg, rfl⟩ := List.mem_map.mp (List.mem_toFinset.mp ht)
    obtain ⟨hg, hlib⟩ := List.mem_filter.mp hg
    exact .lib hg hlib
  | add h hf hpass ih =>
    intro t ht
    rcases Finset.mem_insert.mp ht with rfl | ht
    · exact .pass hf (lib_of_grown h) ih hpass
    · exact ih t ht

/-- What is added later is no callee of what has passed. -/
theorem CalleesFirst.persists (h : CalleesFirst p funcs) :
    Growing.Persists (fpRule p) funcs := by
  intro f hf hlib S T hS hT hsub hpass
  have hcallees := h f hf hlib S (lib_of_grown hS) (mayReturn_of_grown hS) hpass
  have hcongr : funcReturnsFp p f S = funcReturnsFp p f T :=
    funcReturnsFp_congr fun t ht =>
      ⟨fun hmem => hsub hmem, fun hmem => hcallees t ht (mayReturn_of_grown hT t hmem)⟩
  exact hcongr.symm.trans hpass

end

/-- An instruction of one block, from address `a` on. -/
def plainInsn (a : ℕ) (text : String) (flow : Flow) (target : Option ℕ) : Insn where
  address := a
  len := 1
  text := text
  flow := flow
  target := target
  callName := none
  raw := ⟨flow == .ret, .konst 0 32, none, none, none, none, false, none, 0⟩

/-- `fld1; ret`. -/
def one : Function where
  entry := 0x2000
  name := "one"
  blocks := [⟨0x2000, [plainInsn 0x2000 "fld1" .fallthrough none,
    plainInsn 0x2001 "ret" .ret none], [], .ret⟩]
  callees := []

/-- `call one`, an instruction on the x87 stack, and `ret`. -/
def calling (name text : String) : Function where
  entry := 0x1000
  name := name
  blocks := [⟨0x1000, [plainInsn 0x1000 "call one" .call (some 0x2000),
    plainInsn 0x1001 text .fallthrough none, plainInsn 0x1002 "ret" .ret none], [], .ret⟩]
  callees := [0x2000]

def doubled : Function := calling "doubled" "fadd st0, st0"

def another : Function := calling "another" "fld1"

def fpProgram : FpProgram where
  prog :=
    { bits := 32
      isExecutable := fun _ => true
      importName := fun _ => none
      importThunk := fun _ => none
      crtSymbol := fun _ => none
      isStartupGlue := fun _ => false
      sharedStack := true
      stdcallPopBytes := fun _ => none }
  noreturn _ := false
  x87 i :=
    match i.flow, i.target with
    | .call, some t => ⟨.other, false, .call t⟩
    | .fallthrough, _ => ⟨if i.text = "fld1" then .fld1 else .fadd, false, .other⟩
    | _, _ => ⟨.other, false, .other⟩
  cw _ := ⟨.other, .other, .other, none, 0⟩

theorem reached_eq_zero {f : Function} {bi : ℕ} (h : Reached fpProgram f bi)
    (hf : f = doubled ∨ f = one) : bi = 0 := by
  induction h with
  | entry => rcases hf with rfl | rfl <;> rfl
  | next _ hblk _ hs hsi ih =>
    subst ih
    rcases hf with rfl | rfl <;> cases hblk <;> simp at hs

theorem calls_doubled {t : ℕ} (h : Calls fpProgram doubled t) : t = 0x2000 := by
  obtain ⟨bi, blk, hbi, hblk, i, hi, hflow, -⟩ := h
  rw [reached_eq_zero hbi (.inl rfl)] at hblk
  cases hblk
  have hin := (List.takeWhile_sublist _).subset hi
  simp only [List.mem_cons, List.not_mem_nil, or_false] at hin
  rcases hin with rfl | rfl | rfl <;> cases hflow
  rfl

theorem not_calls_one {t : ℕ} : ¬ Calls fpProgram one t := by
  rintro ⟨bi, blk, hbi, hblk, i, hi, hflow, -⟩
  rw [reached_eq_zero hbi (.inr rfl)] at hblk
  cases hblk
  have hin := (List.takeWhile_sublist _).subset hi
  simp only [List.mem_cons, List.not_mem_nil, or_false] at hin
  rcases hin with rfl | rfl <;> cases hflow

/-- `doubled` does not pass without its callee. -/
theorem calleesFirst_doubled : CalleesFirst fpProgram [doubled, one] := by
  intro f hf _ fp _ _ hpass t ht _
  rcases List.mem_cons.mp hf with rfl | hf
  · rw [calls_doubled ht]
    by_contra hno
    have hcongr : funcReturnsFp fpProgram doubled fp = funcReturnsFp fpProgram doubled ∅ :=
      funcReturnsFp_congr fun t ht => by simp [calls_doubled ht, hno]
    rw [hcongr] at hpass
    revert hpass
    decide +kernel
  · rw [List.mem_singleton.mp hf] at ht
    exact absurd ht not_calls_one

end Aret.FpReturning
