/-
Where the control transfers of the machine code go in the IR.

Every transfer the last instruction of a block can perform should be an edge of the
IR, a tail call, or an abort.  The ones that are lost are those into code outside the
function: a block whose next instruction belongs to another function ends without a
terminator, and a jump table that is only partly inside loses the other entries.

* `buildIr_controlKept_iff` — the two agree, for every block of a recovered function.
-/
import Aret.BuildIrShape

namespace Aret

def Insn.transfers (jumpTables : JumpTables) (i : Insn) : List ℕ :=
  match i.flow with
  | .condJump => i.target.toList ++ [i.nextAddr]
  | .jump => i.target.toList
  | .fallthrough | .call => [i.nextAddr]
  | .indirect => (jumpTables i.address).getD []
  | .ret | .interrupt => []

section
variable (prog : Program) (f : Function) (ir : IrFunction) (last : Insn) (a : ℕ)

/-- A call target that stands for the transfer of `last` to `a`: the address, the
shim it is bound to, the symbol of the relocation, or what an indirect jump goes
through. -/
def Names : CallTarget Expr → Prop
  | .direct b => b = a
  | .named n =>
    (∃ threadEsp, resolveCall prog a = .shim n threadEsp) ∨ last.callName = some n ∨
      last.flow = .indirect
  | .indirect _ => last.flow = .indirect

/-- A tail call to `a`. -/
def TailCalls (t : Stmt) : Prop :=
  ∃ tgt args ty, t = .ret (some (.call tgt args ty)) ∧ Names prog last a tgt

/-- The transfer to `a` is represented in the terminator `t`: by an abort, an edge to
the block that starts there, an edge to a synthetic tail call, or a tail call. -/
def Represented (t : Stmt) : Prop :=
  t.isAsm = true ∨
    (∃ s ∈ t.targets, ∃ b, f.blocks[s]? = some b ∧ b.start = a) ∨
    (∃ s ∈ t.targets, f.blocks.length ≤ s ∧
      ∃ r t', ir.blocks[s]? = some r ∧ r.stmts = [t'] ∧ TailCalls prog last a t') ∨
    TailCalls prog last a t

end

/-- An IR block that ends in a terminator which represents every transfer of the last
instruction. -/
def ControlKept (prog : Program) (f : Function) (ir : IrFunction) (jumpTables : JumpTables)
    (last : Insn) (r : Block) : Prop :=
  ∃ t, r.stmts.getLast? = some t ∧ (t.isControl = true ∨ t.isAsm = true) ∧
    ∀ a ∈ last.transfers jumpTables, Represented prog f ir last a t

section
variable (lift : Lifter) (prog : Program) (f : Function) (jumpTables : JumpTables)
  (held : HeldImports)

/-- The ends of a block that keep its control transfers.  `held` are the imports held
in registers at the end of the block. -/
def Function.KeepsControl (b : BasicBlock) (last : Insn) : Prop :=
  match last.flow with
  -- a branch makes no call that owes a pop
  | .condJump =>
    f.Starts last.nextAddr ∧
        (∃ t, last.target = some t ∧ (f.Starts t ∨ prog.isExecutable t = true)) →
      ¬OwesPop prog held last.raw.cond
  -- a resolved table is in the function with all its entries or has no value to
  -- switch on, and a tail call owes no pop
  | .indirect =>
    if ∃ t ∈ last.transfers jumpTables, f.hasInsn t = true then
      ∀ v, switchValue lift f last = some v →
        (∀ t ∈ last.transfers jumpTables, f.hasInsn t = true) ∧ ¬OwesPop prog held v.1
    else
      ∀ ct, indirectTarget lift prog f last = some ct → ¬OwesPop prog held (tailCall ct prog.bits)
  -- a block starts at the next instruction, or this one ends in an abort
  | .fallthrough | .call =>
    f.Starts last.nextAddr ∨ ((lift.body prog f b).getLast?.any Stmt.isAsm) = true
  | .jump | .ret | .interrupt => True

end

section
variable {lift : Lifter} {prog : Program} {f : Function} {jumpTables : JumpTables}
  {held : HeldImports} {ir : IrFunction} {last : Insn} {a : ℕ}

/-! ### The naming pass keeps what a terminator represents -/

theorem tailCalls_nameCalls {t : Stmt} (h : TailCalls prog last a t) :
    TailCalls prog last a (nameCallsInStmt prog held t) := by
  obtain ⟨tgt, args, ty, rfl, hnames⟩ := h
  rw [nameCallsInStmt]
  cases tgt with
  | direct b =>
    obtain rfl : b = a := hnames
    rw [nameCallsInExpr]
    rcases hres : resolveCall prog b with ⟨n, threadEsp⟩ | _
    · exact ⟨_, _, _, rfl, .inl ⟨threadEsp, hres⟩⟩
    · exact ⟨_, _, _, rfl, rfl⟩
  | named n =>
    rw [nameCallsInExpr]
    exact ⟨_, _, _, rfl, hnames⟩
  | indirect x =>
    rw [nameCallsInExpr]
    rcases indirectImport prog held x with _ | n
    · exact ⟨_, _, _, rfl, hnames⟩
    · exact ⟨_, _, _, rfl, .inr (.inr hnames)⟩

theorem tailCalls_of_nameCalls {t : Stmt}
    (h : TailCalls prog last a (nameCallsInStmt prog held t)) : ∃ e, t = .ret (some e) := by
  obtain ⟨tgt, args, ty, heq, -⟩ := h
  cases t with
  | ret e =>
    cases e with
    | none => cases heq
    | some e => exact ⟨e, rfl⟩
  | _ => cases heq

theorem represented_of_target {t : Stmt} {s : ℕ} {c : BasicBlock} (hs : s ∈ t.targets)
    (hc : f.blocks[s]? = some c) (ha : c.start = a) : Represented prog f ir last a t :=
  .inr (.inl ⟨s, hs, c, hc, ha⟩)

/-- Whether the end of a block keeps the transfers of its last instruction, once the
naming pass has been over it. -/
def EndKeeps (prog : Program) (f : Function) (ir : IrFunction) (jumpTables : JumpTables)
    (held : HeldImports) (last : Insn) (body : List Stmt) (e : BlockEnd) : Prop :=
  match e.last with
  | some t => popAfter prog held t = none ∧ (t.isControl = true ∨ t.isAsm = true) ∧
      ∀ a ∈ last.transfers jumpTables,
        Represented prog f ir last a (nameCallsInStmt prog held t)
  | none => (body.getLast?.any Stmt.isAsm) = true

theorem controlKept_nameBlock {r : Block} {body : List Stmt} {e : BlockEnd}
    (hstmts : r.stmts = nameBlock prog held (body ++ e.last.toList))
    (hbody : ∀ s ∈ body, s.isControl = false) :
    ControlKept prog f ir jumpTables last r
      ↔ EndKeeps prog f ir jumpTables (heldAfter prog held body) last body e := by
  obtain ⟨before, end_, succ⟩ := e
  -- a pop after the last statement is no terminator
  have hsnoc : ∀ (xs : List Stmt) (t : Stmt), r.stmts = nameBlock prog held (xs ++ [t]) →
      (ControlKept prog f ir jumpTables last r ↔
        popAfter prog (heldAfter prog held xs) t = none ∧ (t.isControl = true ∨ t.isAsm = true) ∧
          ∀ a ∈ last.transfers jumpTables, Represented prog f ir last a
            (nameCallsInStmt prog (heldAfter prog held xs) t)) := by
    intro xs t hst
    rw [nameBlock_snoc] at hst
    rcases hpop : popAfter prog (heldAfter prog held xs) t with _ | n
    · rw [hpop, Option.map_none, Option.toList_none] at hst
      simp [ControlKept, hst]
    · rw [hpop] at hst
      have hlast : r.stmts.getLast? = some (addEsp n) := by simp [hst]
      simp [ControlKept, hlast, addEsp, Stmt.isControl, Stmt.isAsm]
  cases end_ with
  | some t => exact hsnoc _ _ hstmts
  | none =>
    rcases List.eq_nil_or_concat body with rfl | ⟨xs, t, rfl⟩
    · have hnil : r.stmts = [] := hstmts
      simp [ControlKept, EndKeeps, hnil]
    · have ht : t.isControl = false := hbody t (by simp)
      have hlast : (xs.concat t).getLast? = some t := by simp
      rw [hsnoc xs t (by simpa using hstmts), EndKeeps, hlast, Option.any_some]
      constructor
      · rintro ⟨-, hterm, -⟩
        simpa [ht] using hterm
      · intro hasm
        exact ⟨popAfter_of_isAsm prog _ hasm, .inr hasm, fun a _ => .inl (by simpa using hasm)⟩

/-! ### Which ends keep the transfers -/

theorem endKeeps_asm {body before : List Stmt} {text : String} {succ : List ℕ} :
    EndKeeps prog f ir jumpTables held last body ⟨before, some (.asm text), succ⟩ := by
  refine ⟨popAfter_of_isAsm prog held rfl, .inr rfl, fun a _ => .inl rfl⟩

theorem endKeeps_ret {body before : List Stmt} {e : Expr} {succ : List ℕ}
    (h : ∀ a ∈ last.transfers jumpTables, TailCalls prog last a (.ret (some e))) :
    EndKeeps prog f ir jumpTables held last body ⟨before, some (.ret (some e)), succ⟩
      ↔ ¬OwesPop prog held e := by
  rw [EndKeeps]
  dsimp only
  rw [popAfter_eq_none (e := e) rfl]
  exact and_iff_left ⟨.inl rfl, fun a ha => .inr (.inr (.inr (tailCalls_nameCalls (h a ha))))⟩

theorem endKeeps_branch {body before : List Stmt} {c : Expr} {t k : ℕ} {succ : List ℕ}
    (h : ∀ a ∈ last.transfers jumpTables, Represented prog f ir last a
      (nameCallsInStmt prog held (.branch c t k))) :
    EndKeeps prog f ir jumpTables held last body ⟨before, some (.branch c t k), succ⟩
      ↔ ¬OwesPop prog held c := by
  rw [EndKeeps]
  dsimp only
  rw [popAfter_eq_none (e := c) rfl]
  exact and_iff_left ⟨.inl rfl, h⟩

theorem endKeeps_jump {body before : List Stmt} {t : ℕ} {succ : List ℕ}
    (h : ∀ a ∈ last.transfers jumpTables, Represented prog f ir last a (.jump t)) :
    EndKeeps prog f ir jumpTables held last body ⟨before, some (.jump t), succ⟩ :=
  ⟨by simp [popAfter, stdcallPopForRegcall], .inl rfl, h⟩

theorem tailCalls_synth {i : ℕ} {t : ℕ × ℕ} (ht : (tailTargets prog f f.blocks)[i]? = some t) :
    ∃ r t', (buildIr lift prog f).blocks[f.blocks.length + i]? = some r ∧ r.stmts = [t'] ∧
      TailCalls prog last t.1 t' := by
  have hpop : ∀ held, popAfter prog held (.ret (some (tailCall (.direct t.1) prog.bits)))
      = none := by
    intro held
    refine (popAfter_eq_none (e := tailCall (.direct t.1) prog.bits) rfl).mpr ?_
    rintro ⟨hbits, hpop⟩
    simp [tailCall, hbits, regcallPop, regcallPopArgs] at hpop
  rw [buildIr_getElem?, rawBlocks_synth, ht]
  refine ⟨_, _, rfl, by simp [nameBlock, hpop]; rfl, ?_⟩
  exact tailCalls_nameCalls ⟨_, _, _, rfl, rfl⟩

theorem endKeeps_condJumpEnd {i : ℕ} {b : BasicBlock} {body : List Stmt}
    (hb : f.blocks[i]? = some b) (hterm : b.terminator = .condJump)
    (hflow : b.terminator = last.flow) (hsucc : b.successors = flowSuccessors last) :
    EndKeeps prog f (buildIr lift prog f) jumpTables held last body
        (condJumpEnd prog f
          (f.blocks.length + (tailTargets prog f (f.blocks.take i)).length) b last)
      ↔ f.KeepsControl lift prog jumpTables held b last := by
  have hcond : last.flow = .condJump := hflow ▸ hterm
  have hs : b.successors = last.target.toList ++ [last.nextAddr] := by
    rw [hsucc, flowSuccessors, hcond]
  have htrans : last.transfers jumpTables = last.target.toList ++ [last.nextAddr] := by
    rw [Insn.transfers, hcond]
  rw [Function.KeepsControl, hcond]
  dsimp only
  rcases htgt : last.target with _ | t
  · have hend : ∀ synth, condJumpEnd prog f synth b last
        = ⟨[], some (.asm last.text), b.successors.filterMap f.idx⟩ := by
      intro synth
      simp [condJumpEnd, hs, htgt]
    rw [hend]
    simp [endKeeps_asm]
  · have hs' : b.successors = [t, last.nextAddr] := by simpa [htgt] using hs
    have htrans' : last.transfers jumpTables = [t, last.nextAddr] := by simpa [htgt] using htrans
    rcases hn : f.idx last.nextAddr with _ | k
    · -- the fallthrough is outside: the jump becomes an abort
      have hend : ∀ synth, condJumpEnd prog f synth b last
          = ⟨[], some (.asm last.text), b.successors.filterMap f.idx⟩ := by
        intro synth
        rw [condJumpEnd]
        simp only [hs', List.head?_cons, Option.bind_some, hn, List.getElem?_cons_succ,
          List.getElem?_cons_zero]
        cases f.idx t <;> rfl
      rw [hend]
      simp [endKeeps_asm, Function.idx_eq_none.mp hn]
    · obtain ⟨-, c, hc, hcn⟩ := Function.idx_lt hn
      have hstart : f.Starts last.nextAddr := Function.idx_isSome.mp (by simp [hn])
      have hnext : ∀ cond u, Represented prog f (buildIr lift prog f) last last.nextAddr
          (nameCallsInStmt prog held (.branch cond u k)) := fun cond u =>
        represented_of_target (s := k) (by simp) hc hcn
      rcases ht : f.idx t with _ | u
      · have hno : ¬f.Starts t := Function.idx_eq_none.mp ht
        by_cases hexec : prog.isExecutable t = true
        · -- a conditional tail call goes through its synthetic block
          have htail : tailTarget prog f b = some (t, b.start) := by
            simp [tailTarget, hterm, hs', ht, hn, hexec]
          have hend : ∀ synth, condJumpEnd prog f synth b last
              = ⟨[], some (.branch last.raw.cond synth k),
                  b.successors.filterMap f.idx ++ [synth]⟩ := by
            intro synth
            simp [condJumpEnd, hs', ht, hn, htail]
          rw [hend, endKeeps_branch]
          · simp [hstart, hexec]
          · intro a ha
            rw [htrans'] at ha
            rcases List.mem_cons.mp ha with rfl | ha
            · obtain ⟨r, t', hr, hrs, htc⟩ := tailCalls_synth
                (tailTargets_getElem? hb htail)
              exact .inr (.inr (.inl ⟨_, by simp, Nat.le_add_right _ _, r, t', hr,
                hrs, htc⟩))
            · rw [List.mem_singleton.mp ha]
              exact hnext _ _
        · have htail : tailTarget prog f b = none := by
            simp [tailTarget, hterm, hs', hexec]
          have hend : ∀ synth, condJumpEnd prog f synth b last
              = ⟨[], some (.asm last.text), b.successors.filterMap f.idx⟩ := by
            intro synth
            simp [condJumpEnd, hs', ht, hn, htail]
          rw [hend]
          simp [endKeeps_asm, hno, hexec]
      · obtain ⟨-, d, hd, hdt⟩ := Function.idx_lt ht
        have hstart' : f.Starts t := Function.idx_isSome.mp (by simp [ht])
        have hend : ∀ synth, condJumpEnd prog f synth b last
            = ⟨[], some (.branch last.raw.cond u k), b.successors.filterMap f.idx⟩ := by
          intro synth
          simp [condJumpEnd, hs', ht, hn]
        rw [hend, endKeeps_branch]
        · simp [hstart, hstart']
        · intro a ha
          rw [htrans'] at ha
          rcases List.mem_cons.mp ha with rfl | ha
          · exact represented_of_target (s := u) (by simp) hd hdt
          · rw [List.mem_singleton.mp ha]
            exact hnext _ _

theorem endKeeps_jumpEnd {b : BasicBlock} {body : List Stmt} (hflow : last.flow = .jump)
    (hsucc : b.successors = flowSuccessors last) :
    EndKeeps prog f ir jumpTables held last body (jumpEnd prog f b last) := by
  have hs : b.successors = last.target.toList := by rw [hsucc, flowSuccessors, hflow]
  have htrans : last.transfers jumpTables = last.target.toList := by rw [Insn.transfers, hflow]
  have htail : ∀ before succ,
      EndKeeps prog f ir jumpTables held last body (tailEnd prog last before succ) := by
    intro before succ
    rw [tailEnd]
    rcases hct : jumpCallTarget prog last with _ | ct
    · exact endKeeps_asm
    · refine (endKeeps_ret fun a ha => ?_).mpr (not_owesPop_jumpTailCall hct)
      have ha' : last.target = some a := by simpa [htrans] using ha
      -- the call is to the target itself, or to the symbol the jump is relocated to
      have hnames : Names prog last a ct := by
        rw [jumpCallTarget, ha'] at hct
        dsimp only at hct
        split_ifs at hct
        · rw [← Option.some.inj hct]
          rfl
        · obtain ⟨n, hn, rfl⟩ := Option.map_eq_some_iff.mp hct
          exact .inr (.inl hn)
      have hcall : ∃ args ty, jumpTailCall prog ct = .call ct args ty := by
        cases ct with
        | direct t =>
          rw [jumpTailCall]
          split
          · split_ifs
            · exact ⟨_, _, rfl⟩
            · exact ⟨_, _, rfl⟩
          · exact ⟨_, _, rfl⟩
        | _ => exact ⟨_, _, rfl⟩
      obtain ⟨args, ty, hcall⟩ := hcall
      exact ⟨ct, args, ty, by rw [hcall], hnames⟩
  rw [jumpEnd]
  split
  · rename_i k hk
    obtain ⟨t, ht, hidx⟩ := Option.bind_eq_some_iff.mp hk
    obtain ⟨-, c, hc, hct⟩ := Function.idx_lt hidx
    by_cases hself : b.successors.head? = some f.entry
    · rw [if_pos hself]
      exact htail _ _
    · rw [if_neg hself]
      refine endKeeps_jump fun a ha => ?_
      have hta : t = a := by
        have ha' : last.target = some a := by simpa [htrans] using ha
        simpa [hs, ha'] using ht.symm
      exact represented_of_target (s := k) (by simp) hc (hct.trans hta)
  · exact htail _ _

/-- An indirect jump keeps the entries of its table when they are all inside, or it
has no value to switch on; when none is, unless its tail call owes a pop. -/
theorem endKeeps_indirectEnd {b : BasicBlock} {body : List Stmt}
    (hflow : last.flow = .indirect)
    (hsucc : b.successors = (last.transfers jumpTables).filter f.hasInsn)
    (hstarts : ∀ t ∈ b.successors, f.Starts t) :
    EndKeeps prog f ir jumpTables held last body (indirectEnd lift prog f b last)
      ↔ f.KeepsControl lift prog jumpTables held b last := by
  have hempty : b.successors.filterMap f.idx = []
      ↔ ¬∃ t ∈ last.transfers jumpTables, f.hasInsn t = true := by
    rw [List.filterMap_eq_nil_iff, hsucc]
    constructor
    · rintro h ⟨t, ht, hin⟩
      have hmem := List.mem_filter.mpr ⟨ht, hin⟩
      exact Function.idx_eq_none.mp (h t hmem) (hstarts t (hsucc ▸ hmem))
    · intro h t ht
      obtain ⟨htab, hin⟩ := List.mem_filter.mp ht
      exact absurd ⟨t, htab, hin⟩ h
  rw [Function.KeepsControl, hflow, indirectEnd]
  dsimp only
  by_cases hs : b.successors.filterMap f.idx = []
  · rw [if_neg (not_not.mpr hs), if_neg (hempty.mp hs)]
    rcases hct : indirectTarget lift prog f last with _ | ct
    · simp [endKeeps_asm]
    · dsimp only
      rw [endKeeps_ret]
      · simp
      · intro a _
        refine ⟨ct, _, _, rfl, ?_⟩
        -- whatever the jump goes through is what it tail-calls
        rw [indirectTarget] at hct
        split at hct
        · rw [← Option.some.inj hct]
          exact .inr (.inr hflow)
        · split_ifs at hct
          · obtain ⟨e, -, rfl⟩ := Option.map_eq_some_iff.mp hct
            exact hflow
          · obtain ⟨e, -, rfl⟩ := Option.map_eq_some_iff.mp hct
            exact hflow
  · rw [if_pos hs, if_pos (by_contra fun h => hs (hempty.mpr h))]
    rcases hv : switchValue lift f last with _ | ⟨v, keyed⟩
    · simp [endKeeps_asm]
    · -- the switch has an edge to each successor, and nothing else
      have hrep : ∀ (cases : List (ℤ × ℕ)) (d : ℕ),
          cases.map Prod.snd = b.successors.filterMap f.idx →
          ∀ a ∈ last.transfers jumpTables, (Represented prog f ir last a
            (nameCallsInStmt prog held (.switch v cases d)) ↔ f.hasInsn a = true) := by
        intro cases d hcases a ha
        constructor
        · rintro (hasm | ⟨s, hs, c, hc, hca⟩ | ⟨s, hs, hlen, -⟩ | htc)
          · cases hasm
          · rw [nameCallsInStmt_targets, Stmt.targets_switch, hcases] at hs
            obtain ⟨t, ht, hidx⟩ := List.mem_filterMap.mp hs
            obtain ⟨-, c', hc', hct⟩ := Function.idx_lt hidx
            obtain rfl : c' = c := Option.some.inj (hc'.symm.trans hc)
            rw [hsucc] at ht
            rw [← hca, hct]
            exact (List.mem_filter.mp ht).2
          · rw [nameCallsInStmt_targets, Stmt.targets_switch, hcases] at hs
            obtain ⟨t, -, hidx⟩ := List.mem_filterMap.mp hs
            have hlt := (Function.idx_lt hidx).1
            omega
          · obtain ⟨e, he⟩ := tailCalls_of_nameCalls htc
            cases he
        · intro hin
          have hmem : a ∈ b.successors := hsucc ▸ List.mem_filter.mpr ⟨ha, hin⟩
          obtain ⟨k, hk⟩ := Option.isSome_iff_exists.mp (Function.idx_isSome.mpr (hstarts a hmem))
          obtain ⟨-, c, hc, hca⟩ := Function.idx_lt hk
          refine represented_of_target (s := k) ?_ hc hca
          rw [nameCallsInStmt_targets, Stmt.targets_switch, hcases]
          exact List.mem_filterMap.mpr ⟨a, hmem, hk⟩
      rw [EndKeeps]
      dsimp only
      rw [popAfter_eq_none (e := v) rfl, forall₂_congr (hrep _ _ (map_snd_mapIdx _ _))]
      simp [Stmt.isControl, and_comm]

theorem endKeeps_fallEnd {b : BasicBlock} {body : List Stmt}
    (htrans : last.transfers jumpTables = [last.nextAddr])
    (hsucc : b.successors = [last.nextAddr]) :
    EndKeeps prog f ir jumpTables held last body
        ⟨[], (b.successors.filterMap f.idx).head?.map .jump, b.successors.filterMap f.idx⟩
      ↔ f.Starts last.nextAddr ∨ (body.getLast?.any Stmt.isAsm) = true := by
  rw [hsucc]
  rcases hn : f.idx last.nextAddr with _ | k
  · simp [EndKeeps, hn, Function.idx_eq_none.mp hn]
  · have hstart : f.Starts last.nextAddr := Function.idx_isSome.mp (by simp [hn])
    obtain ⟨-, c, hc, hcn⟩ := Function.idx_lt hn
    simp only [List.filterMap_cons, hn, List.filterMap_nil, List.head?_cons, Option.map_some,
      hstart, true_or, iff_true]
    refine endKeeps_jump fun a ha => ?_
    rw [htrans] at ha
    rw [List.mem_singleton.mp ha]
    exact represented_of_target (s := k) (by simp) hc hcn

end

/-- **Every control transfer of the machine code is in the IR exactly when every block
ends in a way that keeps it.** -/
theorem buildIr_controlKept_iff {symbolName : ℕ → Option String}
    {findRetJumps : List Insn → InsnMap → ℕ → List (ℕ × ℕ)} {global : InsnMap} {entry : ℕ}
    {allEntries : ℕ → Bool} {jumpTables : JumpTables} {prologueOnly : ℕ → Bool} {f : Function}
    (hf : buildFunction symbolName findRetJumps global entry allEntries jumpTables prologueOnly
      = some f) (lift : Lifter) (prog : Program) {i : ℕ} {b : BasicBlock} {last : Insn}
    {r : Block} (hb : f.blocks[i]? = some b) (hlast : b.insns.getLast? = some last)
    (hr : (buildIr lift prog f).blocks[i]? = some r) :
    ControlKept prog f (buildIr lift prog f) jumpTables last r
      ↔ f.KeepsControl lift prog jumpTables (heldAtEnd lift prog f i) b last := by
  have hmem := List.mem_of_getElem? hb
  obtain ⟨last', hlast', hflow, hsucc⟩ := (buildFunction_recovered hf).ends b hmem
  obtain rfl : last' = last := Option.some.inj (hlast'.symm.trans hlast)
  rw [buildIr_getElem?, rawBlocks_real hb] at hr
  have hr' := Option.some.inj hr
  rw [controlKept_nameBlock (e := endOf lift prog f i) (by rw [← hr']) bodyOf_not_control]
  change EndKeeps prog f (buildIr lift prog f) jumpTables (heldAtEnd lift prog f i) last'
    (bodyOf lift prog f i) (endOf lift prog f i) ↔ _
  generalize heldAtEnd lift prog f i = held
  rw [bodyOf_eq hb, endOf_eq hb hlast]
  have hfall : last'.flow = .fallthrough ∨ last'.flow = .call →
      (EndKeeps prog f (buildIr lift prog f) jumpTables held last' (lift.body prog f b)
          ⟨[], (b.successors.filterMap f.idx).head?.map .jump, b.successors.filterMap f.idx⟩
        ↔ f.KeepsControl lift prog jumpTables held b last') := by
    intro hfl
    have hs : b.successors = [last'.nextAddr] := by
      rw [hsucc (by rcases hfl with h | h <;> simp [hflow, h]), flowSuccessors]
      rcases hfl with h | h <;> rw [h]
    have ht : last'.transfers jumpTables = [last'.nextAddr] := by
      rw [Insn.transfers]
      rcases hfl with h | h <;> rw [h]
    rw [endKeeps_fallEnd ht hs, Function.KeepsControl]
    rcases hfl with h | h <;> rw [h]
  rw [blockEnd, hflow]
  rcases hfl : last'.flow with _ | _ | _ | _ | _ | _ | _
  · simpa using hfall (.inl hfl)
  · have hkeep : EndKeeps prog f (buildIr lift prog f) jumpTables held last'
        (lift.body prog f b ++ (jumpEnd prog f b last').before) (jumpEnd prog f b last') :=
      endKeeps_jumpEnd hfl (hsucc (by simp [hflow, hfl]))
    simp [hkeep, Function.KeepsControl, hfl]
  · exact endKeeps_condJumpEnd hb (hflow.trans hfl) hflow (hsucc (by simp [hflow, hfl]))
  · simpa using hfall (.inr hfl)
  · obtain ⟨hs, hstarts⟩ := buildFunction_indirect hf hmem (hflow.trans hfl) hlast
    refine endKeeps_indirectEnd hfl ?_ hstarts
    rw [hs, Insn.transfers, hfl]
  · have ht : last'.transfers jumpTables = [] := by rw [Insn.transfers, hfl]
    rw [endKeeps_ret (by simp [ht])]
    simp [not_owesPop_returnValue, Function.KeepsControl, hfl]
  · simp [endKeeps_asm, Function.KeepsControl, hfl]

/-! ### A call before another function -/

section

def callInsns : InsnMap where
  insns := [plainInsn 0x10 .call (some 0x40), plainInsn 0x12 .fallthrough none]
  sorted := by decide

/-- The function recovered at `0x10`. -/
def callFunction : Function where
  entry := 0x10
  name := "sub_10"
  blocks := [⟨0x10, [plainInsn 0x10 .call (some 0x40)], [0x12], .call⟩]
  callees := [0x40]

theorem buildFunction_call :
    buildFunction (fun _ => some "sub_10") (fun _ _ _ => []) callInsns 0x10
      (fun a => a == 0x10 || a == 0x12) (fun _ => none) (fun _ => false)
      = some callFunction := by
  rfl

/-- **A block can end without a terminator**: the continuation of a call at the end of
a function is dropped. -/
theorem buildIr_drops_continuation :
    ¬ ∀ (lift : Lifter) (prog : Program) (symbolName : ℕ → Option String)
        (findRetJumps : List Insn → InsnMap → ℕ → List (ℕ × ℕ)) (global : InsnMap) (entry : ℕ)
        (allEntries : ℕ → Bool) (jumpTables : JumpTables) (prologueOnly : ℕ → Bool)
        (f : Function) (i : ℕ) (b : BasicBlock) (last : Insn) (r : Block),
      buildFunction symbolName findRetJumps global entry allEntries jumpTables prologueOnly
          = some f →
        f.blocks[i]? = some b → b.insns.getLast? = some last →
        (buildIr lift prog f).blocks[i]? = some r →
        ControlKept prog f (buildIr lift prog f) jumpTables last r := by
  intro h
  have hempty : (buildIr nopLifter plainProgram callFunction).blocks[0]?.map Block.stmts
      = some [] := by
    decide
  obtain ⟨r, hr, hstmts⟩ := Option.map_eq_some_iff.mp hempty
  obtain ⟨t, ht, -⟩ := h nopLifter plainProgram _ _ _ _ _ _ _ _ 0 _ _ r buildFunction_call
    rfl rfl hr
  rw [hstmts] at ht
  cases ht

/-- The criterion at the block of a conditional tail call, which keeps its transfers. -/
theorem buildIr_controlKept_iff_tailJcc :
    ∃ r, (buildIr nopLifter plainProgram tailJccFunction).blocks[0]? = some r ∧
      (ControlKept plainProgram tailJccFunction
          (buildIr nopLifter plainProgram tailJccFunction) (fun _ => none)
          (plainInsn 0x10 .condJump (some 0x40)) r
        ↔ tailJccFunction.KeepsControl nopLifter plainProgram (fun _ => none)
          (heldAtEnd nopLifter plainProgram tailJccFunction 0)
          ⟨0x10, [plainInsn 0x10 .condJump (some 0x40)], [0x40, 0x12], .condJump⟩
          (plainInsn 0x10 .condJump (some 0x40))) :=
  ⟨_, rfl, buildIr_controlKept_iff buildFunction_tailJcc nopLifter plainProgram rfl rfl rfl⟩

end

end Aret
