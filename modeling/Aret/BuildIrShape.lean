/-
The shape of the IR that `buildIr` yields.

The passes after it read the successor list of a block and its terminator
independently, so the two have to agree.  They do not always: a conditional tail
call lists its synthetic block last where the branch takes it first, and several
other ends drop or keep an edge that the terminator does not have.

* `buildIr_wellFormed_iff` — the IR is well formed exactly when every block ends so.
-/
import Aret.BuildIr

namespace Aret

/-- An aborting `Asm`. -/
def Stmt.isAsm : Stmt → Bool
  | .asm _ => true
  | _ => false

/-- One terminator, at the end, whose targets are the successors in order. -/
def Block.WellTerminated (b : Block) : Prop :=
  ∃ body t, b.stmts = body ++ [t] ∧ (∀ s ∈ body, s.isControl = false) ∧
    (t.isControl = true ∨ t.isAsm = true) ∧ b.succ = t.targets

/-- What the consumers of the IR assume of it. -/
structure IrFunction.WellFormed (ir : IrFunction) : Prop where
  ids : ∀ (i : ℕ) (b : Block), ir.blocks[i]? = some b → b.id = i
  terminated : ∀ b ∈ ir.blocks, b.WellTerminated
  targets : ∀ b ∈ ir.blocks, ∀ t ∈ b.succ, t < ir.blocks.length
  preds : ∀ (i j : ℕ) (bi bj : Block), ir.blocks[i]? = some bi → ir.blocks[j]? = some bj →
    bj.pred.count i = bi.succ.count j

/-! ### The naming pass keeps terminators -/

section
variable (prog : Program) (held : HeldImports)

@[simp] theorem nameCallsInStmt_isControl (s : Stmt) :
    (nameCallsInStmt prog held s).isControl = s.isControl := by
  cases s with
  | ret e => cases e <;> rfl
  | _ => rfl

@[simp] theorem nameCallsInStmt_isAsm (s : Stmt) :
    (nameCallsInStmt prog held s).isAsm = s.isAsm := by
  cases s with
  | ret e => cases e <;> rfl
  | _ => rfl

@[simp] theorem nameCallsInStmt_targets (s : Stmt) :
    (nameCallsInStmt prog held s).targets = s.targets := by
  cases s with
  | ret e => cases e <;> rfl
  | _ => rfl

theorem popAfter_of_isAsm {s : Stmt} (h : s.isAsm = true) : popAfter prog held s = none := by
  cases s with
  | asm t => simp [popAfter, stdcallPopForRegcall]
  | _ => cases h

variable {prog held}

theorem nameBlock_append (xs ys : List Stmt) :
    nameBlock prog held (xs ++ ys)
      = nameBlock prog held xs ++ nameBlock prog (heldAfter prog held xs) ys := by
  induction xs generalizing held with
  | nil => rfl
  | cons x xs ih => simp [nameBlock, heldAfter, ih]

theorem nameBlock_not_control {stmts : List Stmt} (h : ∀ s ∈ stmts, s.isControl = false) :
    ∀ s ∈ nameBlock prog held stmts, s.isControl = false := by
  induction stmts generalizing held with
  | nil => simp [nameBlock]
  | cons x xs ih =>
    intro s hs
    rw [nameBlock, List.cons_append] at hs
    rcases List.mem_cons.mp hs with rfl | hs
    · simpa using h x List.mem_cons_self
    · rcases List.mem_append.mp hs with hs | hs
      · obtain ⟨n, -, rfl⟩ := by simpa using hs
        rfl
      · exact ih (fun s hs => h s (List.mem_cons_of_mem x hs)) s hs

theorem nameBlock_snoc (xs : List Stmt) (t : Stmt) :
    nameBlock prog held (xs ++ [t])
      = nameBlock prog held xs ++ nameCallsInStmt prog (heldAfter prog held xs) t
          :: ((popAfter prog (heldAfter prog held xs) t).map addEsp).toList := by
  rw [nameBlock_append]
  simp [nameBlock]

private theorem wellTerminated_snoc {b : Block} {xs : List Stmt} {t : Stmt}
    (hstmts : b.stmts = xs ++ [t]) (hxs : ∀ s ∈ xs, s.isControl = false) :
    b.WellTerminated ↔ (t.isControl = true ∨ t.isAsm = true) ∧ b.succ = t.targets := by
  constructor
  · rintro ⟨body, t', hbody, -, hterm, hsucc⟩
    obtain ⟨rfl, ht⟩ := List.append_inj' (hstmts.symm.trans hbody) rfl
    obtain rfl := List.singleton_inj.mp ht
    exact ⟨hterm, hsucc⟩
  · rintro ⟨hterm, hsucc⟩
    exact ⟨xs, t, hstmts, hxs, hterm, hsucc⟩

def EndOk (prog : Program) (held : HeldImports) (body : List Stmt) (e : BlockEnd) : Prop :=
  match e.last with
  | some t => popAfter prog held t = none ∧ (t.isControl = true ∨ t.isAsm = true) ∧
      e.succ = t.targets
  | none => (body.getLast?.any Stmt.isAsm) = true ∧ e.succ = []

theorem wellTerminated_nameBlock {b : Block} {body : List Stmt} {e : BlockEnd}
    (hstmts : b.stmts = nameBlock prog held (body ++ e.last.toList)) (hsucc : b.succ = e.succ)
    (hbody : ∀ s ∈ body, s.isControl = false) :
    b.WellTerminated ↔ EndOk prog (heldAfter prog held body) body e := by
  obtain ⟨before, last, succ⟩ := e
  -- a statement followed by a pop is not the last one, and the pop is no terminator
  have hsnoc : ∀ (xs : List Stmt) (t : Stmt), b.stmts = nameBlock prog held (xs ++ [t]) →
      (∀ s ∈ xs, s.isControl = false) →
      (b.WellTerminated ↔ popAfter prog (heldAfter prog held xs) t = none ∧
        (t.isControl = true ∨ t.isAsm = true) ∧ b.succ = t.targets) := by
    intro xs t hst hxs
    rw [nameBlock_snoc] at hst
    have hxs' : ∀ s ∈ nameBlock prog held xs, s.isControl = false := nameBlock_not_control hxs
    rcases hpop : popAfter prog (heldAfter prog held xs) t with _ | n
    · rw [hpop] at hst
      rw [wellTerminated_snoc hst hxs']
      simp
    · rw [hpop] at hst
      have hst' : b.stmts = (nameBlock prog held xs
          ++ [nameCallsInStmt prog (heldAfter prog held xs) t]) ++ [addEsp n] := by
        simpa using hst
      constructor
      · rintro ⟨pre, t', hpre, -, hterm, -⟩
        obtain ⟨-, ht⟩ := List.append_inj' (hst'.symm.trans hpre) rfl
        rw [← List.singleton_inj.mp ht] at hterm
        simp [addEsp, Stmt.isControl, Stmt.isAsm] at hterm
      · rintro ⟨hnone, -⟩
        cases hnone
  obtain rfl : b.succ = succ := hsucc
  cases last with
  | some t => exact hsnoc _ _ hstmts hbody
  | none =>
    rcases List.eq_nil_or_concat body with rfl | ⟨xs, t, rfl⟩
    · constructor
      · rintro ⟨pre, t, hpre, -⟩
        rw [hstmts] at hpre
        simp [nameBlock] at hpre
      · rintro ⟨h, -⟩
        simp at h
    · have ht : t.isControl = false := hbody t (by simp)
      have hlast : (xs.concat t).getLast? = some t := by simp
      rw [hsnoc xs t (by simpa using hstmts) fun s hs => hbody s (by simp [hs]),
        EndOk, hlast, Option.any_some]
      constructor
      · rintro ⟨-, hterm, hsucc⟩
        have hasm : t.isAsm = true := by simpa [ht] using hterm
        refine ⟨hasm, hsucc.trans ?_⟩
        cases t <;> first | rfl | cases hasm
      · rintro ⟨hasm, hsucc⟩
        refine ⟨popAfter_of_isAsm prog _ hasm, .inr hasm, hsucc.trans ?_⟩
        cases t <;> first | rfl | cases hasm

end

/-! ### Which ends keep the lists in step -/

/-- A call in `e` through a register that holds an import owes a pop. -/
def OwesPop (prog : Program) (held : HeldImports) (e : Expr) : Prop :=
  prog.bits = 32 ∧ (regcallPop prog held e).isSome = true

/-- Whether a block of the function starts at `a`. -/
def Function.Starts (f : Function) (a : ℕ) : Prop := ∃ b ∈ f.blocks, b.start = a

theorem Function.idx_isSome {f : Function} {a : ℕ} : (f.idx a).isSome = true ↔ f.Starts a := by
  simp [idx, Starts, List.findIdx?_isSome]

theorem Function.idx_eq_none {f : Function} {a : ℕ} : f.idx a = none ↔ ¬f.Starts a := by
  rw [← Function.idx_isSome]
  cases f.idx a <;> simp

theorem Function.idx_lt {f : Function} {a i : ℕ} (h : f.idx a = some i) :
    i < f.blocks.length ∧ ∃ b, f.blocks[i]? = some b ∧ b.start = a := by
  obtain ⟨hlt, hb, -⟩ := List.findIdx?_eq_some_iff_getElem.mp h
  exact ⟨hlt, f.blocks[i], List.getElem?_eq_getElem hlt, by simpa using hb⟩

section
variable (lift : Lifter) (prog : Program) (f : Function) (held : HeldImports)

/-- The ends of a block after which its terminator and its successor list agree.
`held` are the imports held in registers at the end of the block. -/
def Function.EndsWell (b : BasicBlock) (last : Insn) : Prop :=
  match b.terminator with
  -- both sides are in the function, or neither is
  | .condJump =>
    (∀ t, last.target = some t → ¬f.Starts t) ∧ ¬f.Starts last.nextAddr ∨
      (∃ t, last.target = some t ∧ f.Starts t) ∧ f.Starts last.nextAddr ∧
        ¬OwesPop prog held last.raw.cond
  -- no jump to the function's own entry
  | .jump => last.target = some f.entry → ¬f.Starts f.entry
  -- a resolved table has a value to switch on, a tail call owes no pop
  | .indirect =>
    ((∃ t ∈ b.successors, f.Starts t) ∧
        ∃ v, switchValue lift f last = some v ∧ ¬OwesPop prog held v.1) ∨
      (∀ t ∈ b.successors, ¬f.Starts t) ∧
        ∀ ct, indirectTarget lift prog f last = some ct →
          ¬OwesPop prog held (tailCall ct prog.bits)
  -- the next instruction is in the function, or the block ends in an abort
  | .fallthrough | .call =>
    f.Starts last.nextAddr ∨
      ((lift.body prog f b).getLast?.any Stmt.isAsm) = true
  | .ret | .interrupt => True

variable {lift prog f held}

theorem popAfter_eq_none {s : Stmt} {e : Expr}
    (h : stdcallPopForRegcall prog held s = regcallPop prog held e) :
    popAfter prog held s = none ↔ ¬OwesPop prog held e := by
  rw [popAfter, h, OwesPop]
  split_ifs with hbits
  · cases regcallPop prog held e <;> simp [hbits]
  · simp [hbits]

theorem not_owesPop_jumpTailCall {last : Insn} {ct : CallTarget Expr}
    (h : jumpCallTarget prog last = some ct) :
    ¬OwesPop prog held (jumpTailCall prog ct) := by
  have hct : (∃ a, ct = .direct a) ∨ ∃ n, ct = .named n := by
    rw [jumpCallTarget] at h
    split at h
    · split_ifs at h
      · exact .inl ⟨_, (Option.some.inj h).symm⟩
      · obtain ⟨n, -, rfl⟩ := Option.map_eq_some_iff.mp h
        exact .inr ⟨n, rfl⟩
    · obtain ⟨n, -, rfl⟩ := Option.map_eq_some_iff.mp h
      exact .inr ⟨n, rfl⟩
  rintro ⟨hbits, hpop⟩
  rcases hct with ⟨a, rfl⟩ | ⟨n, rfl⟩
  · rw [jumpTailCall] at hpop
    split at hpop <;> simp [tailCall, hbits, regcallPop, regcallPopArgs] at hpop
  · simp [jumpTailCall, tailCall, hbits, regcallPop, regcallPopArgs] at hpop

theorem not_owesPop_returnValue : ¬OwesPop prog held (returnValue prog) := by
  rintro ⟨hbits, hpop⟩
  simp [returnValue, hbits, regcallPop] at hpop

theorem endOk_asm {body before : List Stmt} {text : String} {succ : List ℕ} :
    EndOk prog held body ⟨before, some (.asm text), succ⟩ ↔ succ = [] := by
  have hpop : popAfter prog held (.asm text) = none := popAfter_of_isAsm prog held rfl
  simp [EndOk, hpop, Stmt.isAsm]

theorem endOk_ret {body before : List Stmt} {e : Expr} {succ : List ℕ} :
    EndOk prog held body ⟨before, some (.ret (some e)), succ⟩
      ↔ ¬OwesPop prog held e ∧ succ = [] := by
  simp [EndOk, popAfter_eq_none (s := .ret (some e)) (e := e) rfl,
    Stmt.isControl]

theorem endOk_branch {body before : List Stmt} {c : Expr} {t e : ℕ} {succ : List ℕ} :
    EndOk prog held body ⟨before, some (.branch c t e), succ⟩
      ↔ ¬OwesPop prog held c ∧ succ = [t, e] := by
  simp [EndOk, popAfter_eq_none (s := .branch c t e) (e := c) rfl,
    Stmt.isControl]

theorem endOk_jump {body before : List Stmt} {t : ℕ} {succ : List ℕ} :
    EndOk prog held body ⟨before, some (.jump t), succ⟩ ↔ succ = [t] := by
  simp [EndOk, popAfter, stdcallPopForRegcall, Stmt.isControl]

theorem endOk_switch {body before : List Stmt} {v : Expr} {cases : List (ℤ × ℕ)} {d : ℕ}
    {succ : List ℕ} :
    EndOk prog held body ⟨before, some (.switch v cases d), succ⟩
      ↔ ¬OwesPop prog held v ∧ succ = cases.map Prod.snd := by
  simp [EndOk, popAfter_eq_none (s := .switch v cases d) (e := v) rfl,
    Stmt.isControl]

theorem endOk_condJumpEnd {b : BasicBlock} {last : Insn} {synth : ℕ} {body : List Stmt}
    (hterm : b.terminator = .condJump) (hflow : b.terminator = last.flow)
    (hsucc : b.successors = flowSuccessors last) (hsynth : f.blocks.length ≤ synth) :
    EndOk prog held body (condJumpEnd prog f synth b last)
      ↔ f.EndsWell lift prog held b last := by
  have hs : b.successors = last.target.toList ++ [last.nextAddr] := by
    rw [hsucc, flowSuccessors, ← hflow, hterm]
  rw [Function.EndsWell, hterm]
  dsimp only
  rcases htgt : last.target with _ | t
  · -- without a target the jump becomes an abort
    have hs' : b.successors = [last.nextAddr] := by simpa [htgt] using hs
    have hend : condJumpEnd prog f synth b last
        = ⟨[], some (.asm last.text), [last.nextAddr].filterMap f.idx⟩ := by
      simp [condJumpEnd, hs']
    rw [hend, endOk_asm, ← Function.idx_eq_none]
    cases hn : f.idx last.nextAddr <;> simp [hn]
  · have hs' : b.successors = [t, last.nextAddr] := by simpa [htgt] using hs
    rcases ht : f.idx t with _ | i <;> rcases hn : f.idx last.nextAddr with _ | k
    · have hend : condJumpEnd prog f synth b last = ⟨[], some (.asm last.text), []⟩ := by
        simp [condJumpEnd, hs', ht, hn]
      rw [hend, endOk_asm]
      simp [Function.idx_eq_none.mp ht, Function.idx_eq_none.mp hn]
    · have hstart : f.Starts last.nextAddr := Function.idx_isSome.mp (by simp [hn])
      have hno : ¬f.Starts t := Function.idx_eq_none.mp ht
      have hfalse : ¬EndOk prog held body (condJumpEnd prog f synth b last) := by
        rw [condJumpEnd]
        simp only [hs', List.head?_cons, Option.bind_some, ht, hn, List.getElem?_cons_succ,
          List.getElem?_cons_zero, List.filterMap_cons, List.filterMap_nil]
        split
        · -- the synthetic block comes last in the list and first in the branch
          rw [endOk_branch]
          rintro ⟨-, heq⟩
          have hk := (Function.idx_lt hn).1
          have hks : k = synth := by simpa using (List.cons.inj heq).1
          omega
        · rw [endOk_asm]
          simp
      simp [hfalse, hstart, hno]
    · have hstart : f.Starts t := Function.idx_isSome.mp (by simp [ht])
      have hno : ¬f.Starts last.nextAddr := Function.idx_eq_none.mp hn
      have hend : condJumpEnd prog f synth b last = ⟨[], some (.asm last.text), [i]⟩ := by
        simp [condJumpEnd, hs', ht, hn]
      rw [hend, endOk_asm]
      simp [hstart, hno]
    · have hstart : f.Starts t := Function.idx_isSome.mp (by simp [ht])
      have hstart' : f.Starts last.nextAddr := Function.idx_isSome.mp (by simp [hn])
      have hend : condJumpEnd prog f synth b last
          = ⟨[], some (.branch last.raw.cond i k), [i, k]⟩ := by
        simp [condJumpEnd, hs', ht, hn]
      rw [hend, endOk_branch]
      simp [hstart, hstart']

theorem endOk_jumpEnd {b : BasicBlock} {last : Insn} {body : List Stmt}
    (hterm : b.terminator = .jump) (hflow : b.terminator = last.flow)
    (hsucc : b.successors = flowSuccessors last) :
    EndOk prog held body (jumpEnd prog f b last) ↔ f.EndsWell lift prog held b last := by
  have hs : b.successors = last.target.toList := by
    rw [hsucc, flowSuccessors, ← hflow, hterm]
  -- the tail call and the abort are fine exactly when no edge is left over
  have htail : ∀ (before : List Stmt) (succ : List ℕ),
      EndOk prog held body (tailEnd prog last before succ) ↔ succ = [] := by
    intro before succ
    rw [tailEnd]
    rcases hct : jumpCallTarget prog last with _ | ct
    · exact endOk_asm
    · simp [endOk_ret, not_owesPop_jumpTailCall hct]
  rw [Function.EndsWell, hterm, jumpEnd]
  dsimp only
  rcases htgt : last.target with _ | t
  · have hs' : b.successors = [] := by simpa [htgt] using hs
    rw [hs']
    simp [htail]
  · have hs' : b.successors = [t] := by simpa [htgt] using hs
    rw [hs']
    rcases ht : f.idx t with _ | i
    · simp only [List.head?_cons, Option.bind_some, ht, List.filterMap_cons, List.filterMap_nil]
      rw [htail]
      have hno := Function.idx_eq_none.mp ht
      simp only [true_iff, Option.some.injEq]
      rintro rfl
      exact hno
    · have hstart : f.Starts t := Function.idx_isSome.mp (by simp [ht])
      simp only [List.head?_cons, Option.bind_some, ht, List.filterMap_cons, List.filterMap_nil,
        Option.some.injEq]
      by_cases hself : t = f.entry
      · rw [if_pos hself, htail]
        simp [hself, hself ▸ hstart]
      · rw [if_neg hself, endOk_jump]
        simp [hself]

theorem map_snd_mapIdx (succ : List ℕ) (key : ℕ → ℕ → ℤ) :
    (succ.mapIdx fun i s => (key i s, s)).map Prod.snd = succ := by
  refine List.ext_getElem? fun i => ?_
  simp [Function.comp_def]

theorem endOk_indirectEnd {b : BasicBlock} {last : Insn} {body : List Stmt}
    (hterm : b.terminator = .indirect) :
    EndOk prog held body (indirectEnd lift prog f b last) ↔ f.EndsWell lift prog held b last := by
  rw [Function.EndsWell, hterm, indirectEnd]
  dsimp only
  have hempty : b.successors.filterMap f.idx = [] ↔ ∀ t ∈ b.successors, ¬f.Starts t := by
    rw [List.filterMap_eq_nil_iff]
    exact forall₂_congr fun t _ => Function.idx_eq_none
  by_cases hs : b.successors.filterMap f.idx = []
  · have hnone := hempty.mp hs
    have hno : ¬∃ t ∈ b.successors, f.Starts t := by
      rintro ⟨t, ht, hst⟩
      exact hnone t ht hst
    rw [if_neg (not_not.mpr hs), hs]
    rcases hct : indirectTarget lift prog f last with _ | ct
    · rw [endOk_asm]
      exact ⟨fun _ => .inr ⟨hnone, by simp⟩, fun _ => rfl⟩
    · rw [endOk_ret]
      constructor
      · rintro ⟨hpop, -⟩
        exact .inr ⟨hnone, fun ct' hct' => Option.some.inj hct' ▸ hpop⟩
      · rintro (⟨hsome, -⟩ | ⟨-, hpop⟩)
        · exact absurd hsome hno
        · exact ⟨hpop ct rfl, rfl⟩
  · have hsome : ∃ t ∈ b.successors, f.Starts t := by
      by_contra hno
      exact hs (hempty.mpr fun t ht hst => hno ⟨t, ht, hst⟩)
    have hnot : ¬∀ t ∈ b.successors, ¬f.Starts t := fun h => hs (hempty.mpr h)
    rw [if_pos hs]
    rcases hv : switchValue lift f last with _ | ⟨v, keyed⟩
    · simp [endOk_asm, hs, hnot]
    · simp only [endOk_switch]
      simp only [hsome, hnot, true_and, false_and, or_false, Option.some.injEq, exists_eq_left']
      exact and_iff_left (map_snd_mapIdx _ _).symm

theorem endOk_fallEnd {b : BasicBlock} {last : Insn} (hsucc : b.successors = [last.nextAddr])
    {body : List Stmt} :
    EndOk prog held body
        ⟨[], (b.successors.filterMap f.idx).head?.map .jump, b.successors.filterMap f.idx⟩
      ↔ f.Starts last.nextAddr ∨ (body.getLast?.any Stmt.isAsm) = true := by
  rw [hsucc]
  rcases hn : f.idx last.nextAddr with _ | k
  · have hno := Function.idx_eq_none.mp hn
    simp [EndOk, hn, hno]
  · have hstart : f.Starts last.nextAddr := Function.idx_isSome.mp (by simp [hn])
    simp only [List.filterMap_cons, hn, List.filterMap_nil, List.head?_cons, Option.map_some,
      endOk_jump, hstart, true_or]

theorem endOk_blockEnd {b : BasicBlock} {last : Insn} {synth : ℕ}
    (hflow : b.terminator = last.flow)
    (hsucc : b.terminator ≠ .indirect → b.successors = flowSuccessors last)
    (hsynth : f.blocks.length ≤ synth) :
    EndOk prog held (lift.body prog f b ++ (blockEnd lift prog f synth b last).before)
        (blockEnd lift prog f synth b last)
      ↔ f.EndsWell lift prog held b last := by
  have hfall : b.terminator = .fallthrough ∨ b.terminator = .call →
      (EndOk prog held (lift.body prog f b)
          ⟨[], (b.successors.filterMap f.idx).head?.map .jump, b.successors.filterMap f.idx⟩
        ↔ f.EndsWell lift prog held b last) := by
    intro hterm
    have hs : b.successors = [last.nextAddr] := by
      rw [hsucc (by rcases hterm with h | h <;> simp [h]), flowSuccessors, ← hflow]
      rcases hterm with h | h <;> simp [h]
    rw [endOk_fallEnd hs, Function.EndsWell]
    rcases hterm with h | h <;> rw [h]
  rw [blockEnd]
  rcases hterm : b.terminator with _ | _ | _ | _ | _ | _ | _
  · simpa using hfall (.inl hterm)
  · exact endOk_jumpEnd hterm hflow (hsucc (by simp [hterm]))
  · exact endOk_condJumpEnd hterm hflow (hsucc (by simp [hterm])) hsynth
  · simpa using hfall (.inr hterm)
  · exact endOk_indirectEnd hterm
  · have hs : b.successors = [] := by
      rw [hsucc (by simp [hterm]), flowSuccessors, ← hflow, hterm]
    simp [endOk_ret, hs, not_owesPop_returnValue, Function.EndsWell, hterm]
  · have hs : b.successors = [] := by
      rw [hsucc (by simp [hterm]), flowSuccessors, ← hflow, hterm]
    simp [endOk_asm, hs, Function.EndsWell, hterm]

/-! ### The blocks of the IR -/

/-- The imports held in registers at the end of block `i`. -/
def heldAtEnd (lift : Lifter) (prog : Program) (f : Function) (i : ℕ) : HeldImports :=
  heldAfter prog ((entryImports lift prog f).getD i []) (bodyOf lift prog f i)

theorem buildIr_getElem? (i : ℕ) :
    (buildIr lift prog f).blocks[i]? = ((rawBlocks lift prog f)[i]?).map fun b =>
      { b with
        stmts := nameBlock prog ((entryImports lift prog f).getD i []) b.stmts
        pred := (rawBlocks lift prog f).flatMap fun p =>
          (p.succ.filter (· == b.id)).map fun _ => p.id } := by
  simp only [buildIr, fillPreds, List.getElem?_mapIdx, List.getElem?_map, Option.map_map]
  rfl

theorem buildIr_length :
    (buildIr lift prog f).blocks.length
      = f.blocks.length + (tailTargets prog f f.blocks).length := by
  simp [buildIr, fillPreds, rawBlocks]

theorem rawBlocks_real {i : ℕ} {b : BasicBlock} (hb : f.blocks[i]? = some b) :
    (rawBlocks lift prog f)[i]? = some ⟨i, b.start,
      bodyOf lift prog f i ++ (endOf lift prog f i).last.toList,
      (endOf lift prog f i).succ, []⟩ := by
  have hlt : i < f.blocks.length := (List.getElem?_eq_some_iff.mp hb).1
  rw [rawBlocks, List.getElem?_append_left (by simpa using hlt)]
  simp [hb]

theorem rawBlocks_synth (n : ℕ) :
    (rawBlocks lift prog f)[f.blocks.length + n]? = ((tailTargets prog f f.blocks)[n]?).map
      fun t => ⟨f.blocks.length + n, t.2,
        [.ret (some (tailCall (.direct t.1) prog.bits))], [], []⟩ := by
  rw [rawBlocks, List.getElem?_append_right (by simp)]
  simp

theorem rawBlocks_cases {i : ℕ} {r : Block} (hr : (rawBlocks lift prog f)[i]? = some r) :
    (∃ b, f.blocks[i]? = some b ∧ r = ⟨i, b.start,
      bodyOf lift prog f i ++ (endOf lift prog f i).last.toList,
      (endOf lift prog f i).succ, []⟩) ∨
    ∃ t : ℕ × ℕ, r = ⟨i, t.2, [.ret (some (tailCall (.direct t.1) prog.bits))], [], []⟩ := by
  rcases hb : f.blocks[i]? with _ | b
  · obtain ⟨n, rfl⟩ := Nat.exists_eq_add_of_le (List.getElem?_eq_none_iff.mp hb)
    rw [rawBlocks_synth] at hr
    obtain ⟨t, -, rfl⟩ := Option.map_eq_some_iff.mp hr
    exact .inr ⟨t, rfl⟩
  · rw [rawBlocks_real hb] at hr
    exact .inl ⟨b, rfl, (Option.some.inj hr).symm⟩

theorem rawBlocks_id {i : ℕ} {r : Block} (hr : (rawBlocks lift prog f)[i]? = some r) :
    r.id = i := by
  rcases rawBlocks_cases hr with ⟨b, -, rfl⟩ | ⟨t, rfl⟩ <;> rfl

theorem endOf_eq {i : ℕ} {b : BasicBlock} {last : Insn} (hb : f.blocks[i]? = some b)
    (hlast : b.insns.getLast? = some last) :
    endOf lift prog f i = blockEnd lift prog f
      (f.blocks.length + (tailTargets prog f (f.blocks.take i)).length) b last := by
  simp [endOf, List.getD_eq_getElem?_getD, hb, hlast]

theorem bodyOf_eq {i : ℕ} {b : BasicBlock} (hb : f.blocks[i]? = some b) :
    bodyOf lift prog f i = lift.body prog f b ++ (endOf lift prog f i).before := by
  simp [bodyOf, List.getD_eq_getElem?_getD, hb]

private theorem before_not_control {b : BasicBlock} {last : Insn} {synth : ℕ} :
    ∀ s ∈ (blockEnd lift prog f synth b last).before, s.isControl = false := by
  have hcond : (condJumpEnd prog f synth b last).before = [] := by
    rw [condJumpEnd]
    split
    · rfl
    · split <;> rfl
    · rfl
  have hind : (indirectEnd lift prog f b last).before = [] := by
    rw [indirectEnd]
    split_ifs <;> split <;> rfl
  have hjump : ∀ s ∈ (jumpEnd prog f b last).before, s.isControl = false := by
    have hpop : ∀ s ∈ (if last.raw.isRet then [addEsp 4] else [] : List Stmt),
        s.isControl = false := by
      split_ifs <;> simp [addEsp, Stmt.isControl]
    have htail : ∀ before succ, (tailEnd prog last before succ).before = before := by
      intro before succ
      rw [tailEnd]
      split <;> rfl
    rw [jumpEnd]
    split
    · split_ifs <;> simp [htail, addEsp, Stmt.isControl]
    · simpa [htail] using hpop
  rw [blockEnd]
  rcases b.terminator with _ | _ | _ | _ | _ | _ | _
  · simp
  · exact hjump
  · simp [hcond]
  · simp
  · simp [hind]
  · exact lift.fpReturn_not_control f
  · simp

theorem bodyOf_not_control {i : ℕ} : ∀ s ∈ bodyOf lift prog f i, s.isControl = false := by
  intro s hs
  rcases List.mem_append.mp hs with hs | hs
  · exact lift.body_not_control _ _ _ s hs
  · exact before_not_control s hs

theorem wellTerminated_iff (hf : f.Recovered) {i : ℕ} {b : BasicBlock} {last : Insn} {r : Block}
    (hb : f.blocks[i]? = some b) (hlast : b.insns.getLast? = some last)
    (hr : (buildIr lift prog f).blocks[i]? = some r) :
    r.WellTerminated ↔ f.EndsWell lift prog (heldAtEnd lift prog f i) b last := by
  obtain ⟨last', hlast', hflow, hsucc⟩ := hf.ends b (List.mem_of_getElem? hb)
  obtain rfl : last' = last := Option.some.inj (hlast'.symm.trans hlast)
  rw [buildIr_getElem?, rawBlocks_real hb] at hr
  have hr' := Option.some.inj hr
  have hsynth : f.blocks.length
      ≤ f.blocks.length + (tailTargets prog f (f.blocks.take i)).length := Nat.le_add_right _ _
  have hend : _ ↔ f.EndsWell lift prog (heldAtEnd lift prog f i) b last' :=
    endOk_blockEnd hflow hsucc hsynth
  rw [← endOf_eq hb hlast, ← bodyOf_eq hb] at hend
  rw [← hend]
  exact wellTerminated_nameBlock (by rw [← hr']) (by rw [← hr']) bodyOf_not_control

/-! ### Synthetic blocks, targets and predecessors -/

theorem wellTerminated_synth {i : ℕ} {t : ℕ × ℕ} {r : Block}
    (ht : (rawBlocks lift prog f)[i]?
      = some ⟨i, t.2, [.ret (some (tailCall (.direct t.1) prog.bits))], [], []⟩)
    (hr : (buildIr lift prog f).blocks[i]? = some r) : r.WellTerminated := by
  rw [buildIr_getElem?, ht] at hr
  have hr' := Option.some.inj hr
  have hstmts : r.stmts = nameBlock prog ((entryImports lift prog f).getD i [])
      ([] ++ [.ret (some (tailCall (.direct t.1) prog.bits))]) := by rw [← hr']; rfl
  refine (wellTerminated_nameBlock
    (e := ⟨[], some (.ret (some (tailCall (.direct t.1) prog.bits))), []⟩)
    hstmts (by rw [← hr']) (by simp)).mpr (endOk_ret.mpr ⟨?_, rfl⟩)
  rintro ⟨hbits, hpop⟩
  simp [tailCall, hbits, regcallPop, regcallPopArgs] at hpop

theorem tailTargets_getElem? {i : ℕ} {b : BasicBlock} {t : ℕ × ℕ} (hb : f.blocks[i]? = some b)
    (ht : tailTarget prog f b = some t) :
    (tailTargets prog f f.blocks)[(tailTargets prog f (f.blocks.take i)).length]? = some t := by
  have hlt : i < f.blocks.length := (List.getElem?_eq_some_iff.mp hb).1
  have hdrop : f.blocks.drop i = b :: f.blocks.drop (i + 1) := by
    rw [List.drop_eq_getElem_cons hlt, (List.getElem?_eq_some_iff.mp hb).2]
  have hsplit : tailTargets prog f f.blocks = tailTargets prog f (f.blocks.take i)
      ++ t :: tailTargets prog f (f.blocks.drop (i + 1)) := by
    conv_lhs => rw [← List.take_append_drop i f.blocks, tailTargets, List.filterMap_append,
      hdrop, List.filterMap_cons, ht]
    rfl
  rw [hsplit]
  simp

theorem succ_lt {i : ℕ} {b : BasicBlock} {last : Insn} (hb : f.blocks[i]? = some b)
    (hlast : b.insns.getLast? = some last) :
    ∀ s ∈ (endOf lift prog f i).succ,
      s < f.blocks.length + (tailTargets prog f f.blocks).length := by
  have hidx : ∀ s ∈ b.successors.filterMap f.idx,
      s < f.blocks.length + (tailTargets prog f f.blocks).length := by
    intro s hs
    obtain ⟨a, -, ha⟩ := List.mem_filterMap.mp hs
    exact Nat.lt_add_right _ (Function.idx_lt ha).1
  have hcond : ∀ s ∈ (condJumpEnd prog f (f.blocks.length
        + (tailTargets prog f (f.blocks.take i)).length) b last).succ,
      s < f.blocks.length + (tailTargets prog f f.blocks).length := by
    rw [condJumpEnd]
    split
    · exact hidx
    · split
      · rename_i ht
        intro s hs
        rcases List.mem_append.mp hs with hs | hs
        · exact hidx s hs
        · have hlt := (List.getElem?_eq_some_iff.mp (tailTargets_getElem? hb ht)).1
          rw [List.mem_singleton.mp hs]
          omega
      · exact hidx
    · exact hidx
  have hjump : (jumpEnd prog f b last).succ = b.successors.filterMap f.idx := by
    have htail : ∀ before succ, (tailEnd prog last before succ).succ = succ := by
      intro before succ
      rw [tailEnd]
      split <;> rfl
    rw [jumpEnd]
    split
    · split_ifs <;> simp [htail]
    · simp [htail]
  have hind : (indirectEnd lift prog f b last).succ = b.successors.filterMap f.idx := by
    rw [indirectEnd]
    split_ifs <;> split <;> rfl
  rw [endOf_eq hb hlast, blockEnd]
  rcases b.terminator with _ | _ | _ | _ | _ | _ | _
  · exact hidx
  · exact hjump ▸ hidx
  · exact hcond
  · exact hidx
  · exact hind ▸ hidx
  · exact hidx
  · exact hidx

private theorem count_preds {blocks : List Block} {off : ℕ}
    (hid : ∀ (k : ℕ) (b : Block), blocks[k]? = some b → b.id = off + k) (i j : ℕ) :
    (blocks.flatMap fun p => (p.succ.filter (· == j)).map fun _ => p.id).count (off + i)
      = ((blocks[i]?).map fun b => b.succ.count j).getD 0 := by
  have hone : ∀ (p : Block) (x : ℕ), ((p.succ.filter (· == j)).map fun _ => p.id).count x
      = if p.id = x then p.succ.count j else 0 := by
    intro p x
    rw [List.map_const', List.count_replicate]
    simp [List.count_eq_length_filter]
  induction blocks generalizing off i with
  | nil => simp
  | cons b blocks ih =>
    have hb : b.id = off := hid 0 b rfl
    have hid' : ∀ (k : ℕ) (c : Block), blocks[k]? = some c → c.id = off + 1 + k := by
      intro k c hc
      rw [hid (k + 1) c (by simpa using hc)]
      omega
    rw [List.flatMap_cons, List.count_append, hone, hb]
    cases i with
    | zero =>
      have hzero : (blocks.flatMap fun p =>
          (p.succ.filter (· == j)).map fun _ => p.id).count (off + 0) = 0 := by
        rw [List.count_eq_zero]
        intro hmem
        obtain ⟨c, hc, hcid⟩ := List.mem_flatMap.mp hmem
        obtain ⟨k, hk⟩ := List.mem_iff_getElem?.mp hc
        obtain ⟨-, -, hoff⟩ := List.mem_map.mp hcid
        have hck := hid' k c hk
        omega
      rw [hzero]
      simp
    | succ i =>
      have hrec := ih hid' i
      rw [show off + 1 + i = off + (i + 1) by omega] at hrec
      rw [hrec]
      simp

/-- **The IR is well formed exactly when every block ends well.** -/
theorem buildIr_wellFormed_iff (hf : f.Recovered) :
    (buildIr lift prog f).WellFormed ↔ ∀ (i : ℕ) (b : BasicBlock) (last : Insn),
      f.blocks[i]? = some b → b.insns.getLast? = some last →
        f.EndsWell lift prog (heldAtEnd lift prog f i) b last := by
  constructor
  · intro h i b last hb hlast
    obtain ⟨r, hr⟩ : ∃ r, (buildIr lift prog f).blocks[i]? = some r := by
      rw [buildIr_getElem?, rawBlocks_real hb]
      exact ⟨_, rfl⟩
    exact (wellTerminated_iff hf hb hlast hr).mp (h.terminated _ (List.mem_of_getElem? hr))
  · intro h
    -- every block of the IR comes from a raw block at the same index
    have hraw : ∀ (i : ℕ) (r : Block), (buildIr lift prog f).blocks[i]? = some r →
        ∃ w, (rawBlocks lift prog f)[i]? = some w ∧ r.id = i ∧ r.succ = w.succ ∧
          r.pred = (rawBlocks lift prog f).flatMap fun p =>
            (p.succ.filter (· == i)).map fun _ => p.id := by
      intro i r hr
      rw [buildIr_getElem?] at hr
      obtain ⟨w, hw, rfl⟩ := Option.map_eq_some_iff.mp hr
      have hid := rawBlocks_id hw
      exact ⟨w, hw, hid, rfl, by rw [← hid]⟩
    have hcase : ∀ (i : ℕ) (r : Block), (buildIr lift prog f).blocks[i]? = some r →
        r.WellTerminated ∧ ∀ t ∈ r.succ, t < (buildIr lift prog f).blocks.length := by
      intro i r hr
      obtain ⟨w, hw, -, hsucc, -⟩ := hraw i r hr
      rcases rawBlocks_cases hw with ⟨b, hb, rfl⟩ | ⟨t, rfl⟩
      · obtain ⟨last, hlast, -⟩ := hf.ends b (List.mem_of_getElem? hb)
        rw [hsucc, buildIr_length]
        exact ⟨(wellTerminated_iff hf hb hlast hr).mpr (h i b last hb hlast), succ_lt hb hlast⟩
      · refine ⟨wellTerminated_synth hw hr, ?_⟩
        rw [hsucc]
        simp
    refine ⟨fun i r hr => (hraw i r hr).choose_spec.2.1, fun r hr => ?_, fun r hr => ?_, ?_⟩
    · obtain ⟨i, hi⟩ := List.mem_iff_getElem?.mp hr
      exact (hcase i r hi).1
    · obtain ⟨i, hi⟩ := List.mem_iff_getElem?.mp hr
      exact (hcase i r hi).2
    · intro i j bi bj hbi hbj
      obtain ⟨wi, hwi, -, hsucc, -⟩ := hraw i bi hbi
      obtain ⟨-, -, -, -, hpred⟩ := hraw j bj hbj
      have hid : ∀ (k : ℕ) (b : Block), (rawBlocks lift prog f)[k]? = some b → b.id = 0 + k :=
        fun k b hb => by rw [rawBlocks_id hb, Nat.zero_add]
      have hcount := count_preds hid i j
      rw [Nat.zero_add, hwi] at hcount
      rw [hpred, hcount, hsucc]
      rfl

end

/-! ### A conditional tail call -/

section

def plainInsn (address : ℕ) (flow : Flow) (target : Option ℕ) : Insn where
  address := address
  len := 2
  text := ""
  flow := flow
  target := target
  callName := none
  raw := ⟨false, .read (.flag .zf), none, none, none, none, false, none, 0⟩

/-- A conditional jump to `0x40`, then a return. -/
def tailJccInsns : InsnMap where
  insns := [plainInsn 0x10 .condJump (some 0x40), plainInsn 0x12 .ret none]
  sorted := by decide

/-- A program whose only functions start at `0x10` and `0x40`, without imports. -/
def plainProgram : Program where
  bits := 64
  isExecutable a := a == 0x10 || a == 0x40
  importName _ := none
  importThunk _ := none
  crtSymbol _ := none
  isStartupGlue _ := false
  sharedStack := false
  stdcallPopBytes _ := none

def nopLifter : Lifter where
  fullRegister r := r
  regValue r := some (.read (.reg r))
  body _ _ _ := []
  fpReturn _ := []
  body_not_control := by simp
  fpReturn_not_control := by simp

/-- The function recovered at `0x10`. -/
def tailJccFunction : Function where
  entry := 0x10
  name := "sub_10"
  blocks := [⟨0x10, [plainInsn 0x10 .condJump (some 0x40)], [0x40, 0x12], .condJump⟩,
    ⟨0x12, [plainInsn 0x12 .ret none], [], .ret⟩]
  callees := []

theorem buildFunction_tailJcc :
    buildFunction (fun _ => some "sub_10") (fun _ _ _ => []) tailJccInsns 0x10
      (fun a => a == 0x10 || a == 0x40) (fun _ => none) (fun _ => false)
      = some tailJccFunction := by
  rfl

/-- **A conditional tail call inverts its branch**: the successor list of the block
that jumps to `0x40` under a condition is `[1, 2]`, its branch goes to `2` when the
condition holds. -/
theorem buildIr_not_wellFormed :
    ¬ ∀ (lift : Lifter) (prog : Program) (symbolName : ℕ → Option String)
        (findRetJumps : List Insn → InsnMap → ℕ → List (ℕ × ℕ)) (global : InsnMap) (entry : ℕ)
        (allEntries : ℕ → Bool) (jumpTables : JumpTables) (prologueOnly : ℕ → Bool)
        (f : Function),
      buildFunction symbolName findRetJumps global entry allEntries jumpTables prologueOnly
          = some f →
        (buildIr lift prog f).WellFormed := by
  intro h
  have hwf := h nopLifter plainProgram _ _ _ _ _ _ _ _ buildFunction_tailJcc
  have hblock : (buildIr nopLifter plainProgram tailJccFunction).blocks[0]?.map
      (fun b => (b.stmts.getLast?.map Stmt.targets, b.succ)) = some (some [2, 1], [1, 2]) := by
    decide
  obtain ⟨b, hb, hlists⟩ := Option.map_eq_some_iff.mp hblock
  obtain ⟨body, t, hstmts, -, -, hsucc⟩ := hwf.terminated b (List.mem_of_getElem? hb)
  obtain ⟨htgt, hs⟩ := Prod.mk.inj hlists
  rw [hstmts, List.getLast?_concat, Option.map_some, ← hsucc, hs] at htgt
  exact absurd htgt (by decide)

/-- The criterion at that function. -/
theorem buildIr_wellFormed_iff_tailJcc :
    (buildIr nopLifter plainProgram tailJccFunction).WellFormed
      ↔ ∀ (i : ℕ) (b : BasicBlock) (last : Insn), tailJccFunction.blocks[i]? = some b →
          b.insns.getLast? = some last → tailJccFunction.EndsWell nopLifter plainProgram
            (heldAtEnd nopLifter plainProgram tailJccFunction i) b last :=
  buildIr_wellFormed_iff (buildFunction_recovered buildFunction_tailJcc)

end

end Aret
