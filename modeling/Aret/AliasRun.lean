/-
The memory accesses of a run, and the named slots of its function.

* `alias_exact_iff` — the verdicts, and when they are right.
-/
import Aret.Alias

namespace Aret.Alias

open Lift (Word)

/-- A machine on words of 64 bits, whose sums and differences are those of words. -/
structure Machine where
  Mem : Type
  place : Location → Word
  undef : Word
  load : Mem → Word → Ty → Word
  store : Mem → Word → Word → Ty → Mem
  unary : UnOp → Expr → Word → Word
  binary : BinOp → Expr → Expr → Word → Word → Word
  cast : Ty → Expr → Word → Word
  call : CallTarget Word → List Word → Ty → Mem → Word × Mem
  asm : String → Mem → Option Mem
  truth : Word → Bool
  isCase : Word → ℤ → Bool

namespace Machine

variable (M : Machine)

abbrev interp : Interp where
  Val := Word
  Mem := M.Mem
  const c _ := BitVec.ofInt 64 c
  addr := M.place
  undef := M.undef
  load := M.load
  store := M.store
  unary := M.unary
  binary
    | .add, _, _, x, y => x + y
    | .sub, _, _, x, y => x - y
    | op, a, b, x, y => M.binary op a b x y
  cast := M.cast
  call := M.call
  asm := M.asm
  truth := M.truth
  isCase := M.isCase

def regState (ρ : M.interp.Store) (frame : Word → Prop) : RegState where
  reg r := ρ.loc (.reg r)
  place := M.place
  other := fun _ => 0
  frame := frame

/-- An executed load or store: the registers, the address and its value, and the type. -/
structure Access where
  ρ : M.interp.Store
  addr : Expr
  value : Word
  ty : Ty

mutual

def accesses (ρ : M.interp.Store) : Expr → M.interp.World → List M.Access
  | .load a ty, w => accesses ρ a w ++ [⟨ρ, a, (M.interp.eval ρ a w).1, ty⟩]
  | .unary _ x, w | .cast _ x, w => accesses ρ x w
  | .binary _ a b, w => accesses ρ a w ++ accesses ρ b (M.interp.eval ρ a w).2
  | .call (.indirect x) args _, w =>
    accesses ρ x w ++ accessesOfArgs ρ args (M.interp.eval ρ x w).2
  | .call (.direct _) args _, w | .call (.named _) args _, w => accessesOfArgs ρ args w
  | .select c t e, w =>
    accesses ρ c w ++
      if M.truth (M.interp.eval ρ c w).1 then accesses ρ t (M.interp.eval ρ c w).2
      else accesses ρ e (M.interp.eval ρ c w).2
  | .const .., _ | .read _, _ | .use _, _ | .addr _, _ | .phi _, _ | .undef, _ => []

def accessesOfArgs (ρ : M.interp.Store) : List Expr → M.interp.World → List M.Access
  | [], _ => []
  | e :: es, w => accesses ρ e w ++ accessesOfArgs ρ es (M.interp.eval ρ e w).2

end

def stmtAccesses (ρ : M.interp.Store) (w : M.interp.World) : Stmt → List M.Access
  | .set _ e | .assign _ e | .callStmt e | .branch e _ _ | .switch e _ _ | .ret (some e) =>
    M.accesses ρ e w
  | .store a v ty =>
    M.accesses ρ a w ++ M.accesses ρ v (M.interp.eval ρ a w).2 ++
      [⟨ρ, a, (M.interp.eval ρ a w).1, ty⟩]
  | .jump _ | .ret none | .asm _ | .nop => []

def stmtsAccesses : List Stmt → M.interp.Store → M.interp.World → List M.Access
  | [], _, _ => []
  | s :: rest, ρ, w =>
    M.stmtAccesses ρ w s ++
      match M.interp.exec [s] none ρ w with
      | .next _ ρ w => stmtsAccesses rest ρ w
      | .halt _ _ => []

def blockAccesses (f : IrFunction) (c : M.interp.Config) : List M.Access :=
  match c.pc with
  | none => []
  | some p => M.stmtsAccesses (f.block p).body c.ρ c.w

end Machine

def namedSlots (f : IrFunction) : List ℤ :=
  ((walkExprs f).filterMap fun
    | .read (.frame d) | .addr (.frame d) => some d
    | _ => none) ++
  f.stmts.filterMap fun
    | .set (.frame d) _ => some d
    | _ => none

def slotBytes (f : IrFunction) : ℕ := f.bits / 8

/-! ### Executed accesses are accesses of the function -/

section
variable {M : Machine} {ρ : M.interp.Store}

def IsLoadOf (ρ : M.interp.Store) (x : M.Access) (ns : List Expr) : Prop :=
  x.ρ = ρ ∧ (∃ w, x.value = (M.interp.eval ρ x.addr w).1) ∧ .load x.addr x.ty ∈ ns ∧
    nodes x.addr ⊆ ns

theorem IsLoadOf.mono {x : M.Access} {ns ns' : List Expr} (h : IsLoadOf ρ x ns) (hsub : ns ⊆ ns') :
    IsLoadOf ρ x ns' :=
  ⟨h.1, h.2.1, hsub h.2.2.1, fun _ he => hsub (h.2.2.2 he)⟩

theorem IsLoadOf.left {x : M.Access} {ns ns' : List Expr} (h : IsLoadOf ρ x ns) :
    IsLoadOf ρ x (ns ++ ns') :=
  h.mono (List.subset_append_left _ _)

theorem IsLoadOf.right {x : M.Access} {ns ns' : List Expr} (h : IsLoadOf ρ x ns') :
    IsLoadOf ρ x (ns ++ ns') :=
  h.mono (List.subset_append_right _ _)

theorem IsLoadOf.below {x : M.Access} {e : Expr} {ns : List Expr} (h : IsLoadOf ρ x ns) :
    IsLoadOf ρ x (e :: ns) :=
  h.mono (List.subset_cons_self _ _)

mutual

theorem accesses_spec {x : M.Access} : ∀ (e : Expr) (w : M.interp.World), x ∈ M.accesses ρ e w →
    IsLoadOf ρ x (nodes e)
  | .load a ty, w, h => by
    rcases List.mem_append.mp h with h | h
    · exact (accesses_spec a w h).below
    · obtain rfl := List.mem_singleton.mp h
      exact ⟨rfl, ⟨w, rfl⟩, List.mem_cons_self, List.subset_cons_self _ _⟩
  | .unary _ y, w, h | .cast _ y, w, h => (accesses_spec y w h).below
  | .binary _ a b, w, h => by
    rcases List.mem_append.mp h with h | h
    · exact (accesses_spec a w h).left.below
    · exact (accesses_spec b _ h).right.below
  | .call (.indirect y) args _, w, h => by
    rcases List.mem_append.mp h with h | h
    · exact (accesses_spec y w h).left.below
    · exact (accessesOfArgs_spec args _ h).right.below
  | .call (.direct _) args _, w, h | .call (.named _) args _, w, h =>
    (accessesOfArgs_spec args w h).below
  | .select c t e, w, h => by
    rcases List.mem_append.mp h with h | h
    · exact (accesses_spec c w h).left.left.below
    · split at h
      · exact (accesses_spec t _ h).right.left.below
      · exact (accesses_spec e _ h).right.below
  | .const .., _, h | .read _, _, h | .use _, _, h | .addr _, _, h | .phi _, _, h
  | .undef, _, h => by cases h

theorem accessesOfArgs_spec {x : M.Access} : ∀ (es : List Expr) (w : M.interp.World),
    x ∈ M.accessesOfArgs ρ es w → IsLoadOf ρ x (nodesOfArgs es)
  | [], _, h => by cases h
  | e :: es, w, h => by
    rcases List.mem_append.mp h with h | h
    · exact (accesses_spec e w h).left
    · exact (accessesOfArgs_spec es _ h).right

end

/-- An access that statements execute: its address has its value at some moment, it is a
load or a store of theirs, and the nodes of the address are theirs. -/
def IsAccessOf (x : M.Access) (ss : List Stmt) : Prop :=
  (∃ w, x.value = (M.interp.eval x.ρ x.addr w).1) ∧
    (∀ e ∈ nodes x.addr, e ∈ (ss.flatMap Stmt.exprs).flatMap nodes) ∧
    (.load x.addr x.ty ∈ (ss.flatMap Stmt.exprs).flatMap nodes ∨
      ∃ v, .store x.addr v x.ty ∈ ss)

theorem IsAccessOf.mono {x : M.Access} {ss ss' : List Stmt} (h : IsAccessOf x ss)
    (hsub : ss ⊆ ss') : IsAccessOf x ss' := by
  have hnodes : (ss.flatMap Stmt.exprs).flatMap nodes ⊆ (ss'.flatMap Stmt.exprs).flatMap nodes := by
    intro e he
    simp only [List.mem_flatMap] at he ⊢
    obtain ⟨t, ⟨s, hs, ht⟩, he⟩ := he
    exact ⟨t, ⟨s, hsub hs, ht⟩, he⟩
  refine ⟨h.1, fun e he => hnodes (h.2.1 e he), h.2.2.imp (fun hl => hnodes hl) ?_⟩
  rintro ⟨v, hv⟩
  exact ⟨v, hsub hv⟩

theorem IsLoadOf.isAccessOf {x : M.Access} {e : Expr} {s : Stmt} (h : IsLoadOf ρ x (nodes e))
    (he : e ∈ s.exprs) : IsAccessOf x [s] := by
  obtain ⟨rfl, hv, hmem, hsub⟩ := h
  have hnodes : ∀ t ∈ nodes e, t ∈ ([s].flatMap Stmt.exprs).flatMap nodes := by
    intro t ht
    simp only [List.mem_flatMap, List.mem_singleton]
    exact ⟨e, ⟨s, rfl, he⟩, ht⟩
  exact ⟨hv, fun t ht => hnodes t (hsub ht), .inl (hnodes _ hmem)⟩

theorem stmtAccesses_spec {x : M.Access} {s : Stmt} {w : M.interp.World}
    (h : x ∈ M.stmtAccesses ρ w s) : IsAccessOf x [s] := by
  cases s with
  | set l e => exact (accesses_spec e w h).isAccessOf (List.mem_singleton_self e)
  | assign y e => exact (accesses_spec e w h).isAccessOf (List.mem_singleton_self e)
  | callStmt e => exact (accesses_spec e w h).isAccessOf (List.mem_singleton_self e)
  | branch e t f => exact (accesses_spec e w h).isAccessOf (List.mem_singleton_self e)
  | switch e cs d => exact (accesses_spec e w h).isAccessOf (List.mem_singleton_self e)
  | ret e =>
    cases e with
    | none => cases h
    | some e => exact (accesses_spec e w h).isAccessOf (List.mem_singleton_self e)
  | store a v ty =>
    rcases List.mem_append.mp h with h | h
    · rcases List.mem_append.mp h with h | h
      · exact (accesses_spec a w h).isAccessOf (List.mem_cons_self)
      · exact (accesses_spec v _ h).isAccessOf (List.mem_cons_of_mem _ (List.mem_singleton_self v))
    · -- The store itself.
      obtain rfl := List.mem_singleton.mp h
      refine ⟨⟨w, rfl⟩, fun e he => ?_, .inr ⟨v, List.mem_singleton_self _⟩⟩
      simp only [List.mem_flatMap, List.mem_singleton]
      exact ⟨a, ⟨_, rfl, List.mem_cons_self⟩, he⟩
  | _ => cases h

theorem stmtsAccesses_spec {x : M.Access} {ss : List Stmt} {w : M.interp.World}
    (h : x ∈ M.stmtsAccesses ss ρ w) : IsAccessOf x ss := by
  induction ss generalizing ρ w with
  | nil => cases h
  | cons s ss ih =>
    rcases List.mem_append.mp h with h | h
    · exact (stmtAccesses_spec h).mono (by simp)
    · split at h
      · exact (ih h).mono (List.subset_cons_self _ _)
      · cases h

theorem blockAccesses_spec {f : IrFunction} {c : M.interp.Config} {x : M.Access}
    (h : x ∈ M.blockAccesses f c) :
    (∃ w, x.value = (M.interp.eval x.ρ x.addr w).1) ∧ (∀ e ∈ nodes x.addr, e ∈ walkExprs f) ∧
      (x.addr, x.ty) ∈ genericAccesses f := by
  rw [Machine.blockAccesses] at h
  split at h
  · cases h
  · rename_i p hp
    have hsub : (f.block p).body ⊆ f.stmts := by
      intro s hs
      have hs' := List.mem_of_mem_filter hs
      by_cases hlt : p < f.blocks.length
      · rw [IrFunction.block, List.getD_eq_getElem?_getD, List.getElem?_eq_getElem hlt] at hs'
        exact List.mem_flatMap.mpr ⟨_, List.getElem_mem hlt, hs'⟩
      · rw [IrFunction.block, List.getD_eq_getElem?_getD,
          List.getElem?_eq_none (Nat.le_of_not_lt hlt)] at hs'
        cases hs'
    obtain ⟨hv, hnodes, hacc⟩ := (stmtsAccesses_spec h).mono hsub
    refine ⟨hv, hnodes, ?_⟩
    rw [genericAccesses, List.mem_append, List.mem_filterMap, List.mem_filterMap]
    rcases hacc with hload | ⟨v, hstore⟩
    · exact .inl ⟨_, hload, rfl⟩
    · exact .inr ⟨_, hstore, rfl⟩

end

/-! ### Named slots -/

section
variable {M : Machine} {f : IrFunction} {x : M.Access} {frame : Word → Prop}

theorem eval_classified {ρ : M.interp.Store} {e : Expr} {wd : ℕ} {off : ℤ} {r : MemRef}
    (h : classifyOff? wd e off = some r) (hr : r ≠ .unknown)
    (hno : ∀ d, .addr (.frame d) ∉ nodes e) (w : M.interp.World) :
    (M.interp.eval ρ e w).1 = (M.regState ρ frame).address e := by
  fun_induction classifyOff? wd e off generalizing w with
  | case1 => rfl
  | case2 d off => exact absurd List.mem_cons_self (hno d)
  | case3 l off hl =>
    cases l with
    | frame d => exact absurd rfl (hl d)
    | _ => rfl
  | case4 => rfl
  | case5 a k ty off ih =>
    have ha := ih h (fun d hd => hno d (List.mem_cons_of_mem _ (List.mem_append_left _ hd))) w
    exact congrArg (· + BitVec.ofInt 64 k) ha
  | case6 k ty b off hb ih =>
    have hb' := ih h (fun d hd => hno d (List.mem_cons_of_mem _ (List.mem_append_right _ hd))) w
    exact congrArg (BitVec.ofInt 64 k + ·) hb'
  | case7 a k ty off ih =>
    have ha := ih h (fun d hd => hno d (List.mem_cons_of_mem _ (List.mem_append_left _ hd))) w
    exact congrArg (· - BitVec.ofInt 64 k) ha
  | case8 => exact absurd (Option.some.inj h).symm hr

theorem framePromotable?_true (h : framePromotable? f = some true) :
    (∀ d, .addr (.frame d) ∉ walkExprs f) ∧ ∀ p ∈ genericAccesses f, ∃ r,
      classify? p.1 (intBits p.2) = some r ∧ r ≠ .unknown := by
  rw [framePromotable?] at h
  by_cases htaken : frameAddressTaken f = true
  · rw [if_pos htaken] at h
    cases h
  rw [if_neg htaken] at h
  obtain ⟨found, hfound, hnot⟩ := Option.map_eq_some_iff.mp h
  obtain rfl : found = false := by simpa using hnot
  refine ⟨fun d hd => htaken ?_, ?_⟩
  · exact List.any_eq_true.mpr ⟨_, hd, rfl⟩
  · -- The flag only ever rises.
    have hfold : ∀ (ps : List (Expr × Ty)) (start : Bool), ps.foldlM (fun found p => do
        let r ← classify? p.1 (intBits p.2)
        some (found || r == .unknown)) start = some false →
        start = false ∧ ∀ p ∈ ps, ∃ r, classify? p.1 (intBits p.2) = some r ∧ r ≠ .unknown := by
      intro ps
      induction ps with
      | nil => exact fun start hs => ⟨Option.some.inj hs, nofun⟩
      | cons p ps ih =>
        intro start hs
        rw [List.foldlM_cons] at hs
        obtain ⟨next, hnext, hs⟩ := Option.bind_eq_some_iff.mp hs
        obtain ⟨r, hr, hor⟩ := Option.bind_eq_some_iff.mp hnext
        obtain ⟨hfalse, hrest⟩ := ih next hs
        rw [← Option.some.inj hor, Bool.or_eq_false_iff, beq_eq_false_iff_ne] at hfalse
        exact ⟨hfalse.1, List.forall_mem_cons.mpr ⟨⟨r, hr, hfalse.2⟩, hrest⟩⟩
    exact (hfold _ _ hfound).2

/-- Byte `j` of a slot at the moment of an access. -/
def Machine.Access.slotByte (x : M.Access) (d : ℤ) (j : ℕ) : Word :=
  x.ρ.loc (.reg 5) + BitVec.ofInt 64 d + BitVec.ofNat 64 j

def Machine.Access.Misses (x : M.Access) (f : IrFunction) : Prop :=
  ∀ d ∈ namedSlots f, ∀ j < slotBytes f, ∀ i < byteCount (intBits x.ty),
    x.value + BitVec.ofNat 64 i ≠ x.slotByte d j

def Machine.Access.Clear (x : M.Access) (f : IrFunction) : Prop :=
  ∀ o v r, classify? x.addr (intBits x.ty) = some (.frame o v) → root x.addr = some r →
    ∀ d ∈ namedSlots f, ∀ j < slotBytes f, ∀ i < byteCount (intBits x.ty),
      r.reg (M.regState x.ρ fun _ => True) + BitVec.ofInt 64 o + BitVec.ofNat 64 i ≠ x.slotByte d j

def Machine.Access.InFrame (x : M.Access) (f : IrFunction) (frame : Word → Prop) : Prop :=
  (M.regState x.ρ frame).Apart x.addr (intBits x.ty) ∧
    ∀ d ∈ namedSlots f, ∀ j < slotBytes f, frame (x.slotByte d j)

theorem misses_iff_clear (h : framePromotable? f = some true) {c : M.interp.Config}
    (hx : x ∈ M.blockAccesses f c) (hin : x.InFrame f frame) : x.Misses f ↔ x.Clear f := by
  obtain ⟨⟨w, hvalue⟩, hnodes, hacc⟩ := blockAccesses_spec hx
  obtain ⟨hno, hclass⟩ := framePromotable?_true h
  obtain ⟨r, hr, hne⟩ := hclass _ hacc
  have hno' : ∀ d, .addr (.frame d) ∉ nodes x.addr := fun d hd => hno d (hnodes _ hd)
  have haddr : ∀ F, x.value = (M.regState x.ρ F).address x.addr := fun F =>
    hvalue.trans (eval_classified hr hne hno' w)
  cases r with
  | unknown => exact absurd rfl hne
  | global v =>
    -- An absolute address is out of the frame, where the slots are.
    refine iff_of_true (fun d hd j hj i hi heq => ?_) fun o v' r' hc => ?_
    · have hout := hin.1 i hi
      rw [classifyOff?_global hr] at hout
      refine hout ?_
      rw [RegState.byte, ← haddr, heq]
      exact hin.2 d hd j hj
    · cases hr.symm.trans hc
  | frame o v =>
    have hzero : InRange 0 := by
      rw [InRange]
      omega
    obtain ⟨-, -, r, hroot, -, hsum⟩ := classifyOff?_frame hr hzero
    have hplace : x.value = r.reg (M.regState x.ρ fun _ => True) + BitVec.ofInt 64 o := by
      rw [haddr fun _ => True, ← hsum]
      exact (BitVec.add_zero _).symm
    constructor
    · intro hmiss o' v' r' hc hr' d hd j hj i hi
      obtain ⟨rfl, rfl⟩ := MemRef.frame.inj (Option.some.inj (hr.symm.trans hc))
      obtain rfl := Option.some.inj (hroot.symm.trans hr')
      rw [← hplace]
      exact hmiss d hd j hj i hi
    · intro hclear d hd j hj i hi
      rw [hplace]
      exact hclear o v r hr hroot d hd j hj i hi

end

def Machine.RunAccess (M : Machine) (f : IrFunction) (watched : ℕ) (ρ : M.interp.Store)
    (mem : M.Mem) (x : M.Access) : Prop :=
  ∃ n, x ∈ M.blockAccesses f
    (Sim.runN (M.interp.step watched f) n (Interp.start watched f ρ mem))

def SlotsMissed (M : Machine) (f : IrFunction) (watched : ℕ) (ρ : M.interp.Store) (mem : M.Mem)
    (frame : Word → Prop) : Prop :=
  ∀ x : M.Access, M.RunAccess f watched ρ mem x → x.InFrame f frame → x.Misses f

/-- The verdict on two addresses is right where they are comparable; the verdict on the slots
of a function is right in the runs whose accesses through the frame are beside the slots. -/
theorem alias_exact_iff (a1 a2 : Expr) (w1 w2 : ℕ) (hw1 : w1 < 2 ^ 32) (hw2 : w2 < 2 ^ 32)
    (M : Machine) (f : IrFunction) (watched : ℕ) (ρ : M.interp.Store) (mem : M.Mem)
    (frame : Word → Prop) :
    (VerdictSound a1 w1 a2 w2 ↔ Comparable a1 w1 a2 w2) ∧
      (framePromotable? f = some true →
        (SlotsMissed M f watched ρ mem frame ↔
          ∀ x : M.Access, M.RunAccess f watched ρ mem x → x.InFrame f frame → x.Clear f)) := by
  refine ⟨verdictSound_iff a1 w1 a2 w2 hw1 hw2, fun h => ⟨fun hmiss x hx hin => ?_,
    fun hclear x hx hin => ?_⟩⟩
  · obtain ⟨n, hn⟩ := hx
    exact (misses_iff_clear h hn hin).mp (hmiss x ⟨n, hn⟩ hin)
  · obtain ⟨n, hn⟩ := hx
    exact (misses_iff_clear h hn hin).mpr (hclear x ⟨n, hn⟩ hin)

/-- A named slot at `rbp - 8`, and a store there that does not name it. -/
def promotedStore : IrFunction where
  entry := 0
  name := "f"
  bits := 64
  regParams := []
  frameBaseValues := []
  fp80Values := []
  entryValues := []
  blocks :=
    [⟨0, 0,
      [.set (.frame (-8)) (.konst 1 64),
        .store (.binary .sub (.read (.reg 5)) (.konst 8 64)) (.konst 2 64) (.ofBits 64),
        .ret none],
      [], []⟩]
  nextValue := 0
  nextTemp := 0

def still : Machine where
  Mem := Unit
  place := fun _ => 0
  undef := 0
  load := fun _ _ _ => 0
  store := fun m _ _ _ => m
  unary := fun _ _ _ => 0
  binary := fun _ _ _ _ _ => 0
  cast := fun _ _ _ => 0
  call := fun _ _ _ m => (0, m)
  asm := fun _ m => some m
  truth := fun _ => false
  isCase := fun _ _ => false

/-- Two slots beside each other, and a promoted slot with a store through `rbp`. -/
theorem alias_exact_iff_slots :
    VerdictSound (.read (.reg 5)) 64 (.binary .add (.read (.reg 5)) (.konst 8 64)) 64 ∧
      (SlotsMissed still promotedStore 1 ⟨fun _ => (0 : Word), fun _ => (0 : Word)⟩ ()
          (fun _ => True) ↔
        ∀ x : still.Access, still.RunAccess promotedStore 1
          ⟨fun _ => (0 : Word), fun _ => (0 : Word)⟩ () x → x.InFrame promotedStore (fun _ => True) →
            x.Clear promotedStore) := by
  obtain ⟨hverdict, hslots⟩ := alias_exact_iff (.read (.reg 5))
    (.binary .add (.read (.reg 5)) (.konst 8 64)) 64 64 (by omega) (by omega) still promotedStore 1
    ⟨fun _ => (0 : Word), fun _ => (0 : Word)⟩ () fun _ => True
  refine ⟨hverdict.mpr ?_, hslots (by decide)⟩
  intro o1 v1 o2 v2 hc1 hc2 _
  obtain ⟨rfl, -⟩ := MemRef.frame.inj (Option.some.inj hc1)
  obtain ⟨rfl, -⟩ := MemRef.frame.inj (Option.some.inj hc2)
  exact ⟨rfl, by decide⟩

/-- With `rsp` at `rbp - 8` the top of the stack is the slot that the verdict tells apart from
it, and a slot is promoted that a store through `rbp` writes. -/
theorem alias_exact_not :
    ¬VerdictSound (.read (.reg 4)) 64 (.binary .sub (.read (.reg 5)) (.konst 8 64)) 64 ∧
      framePromotable? promotedStore = some true ∧
      ¬SlotsMissed still promotedStore 1 ⟨fun _ => (0 : Word), fun _ => (0 : Word)⟩ ()
        fun _ => True := by
  refine ⟨fun h => ?_, by decide, fun h => ?_⟩
  · refine h (allFrame (BitVec.ofInt 64 (-8))) (fun i _ => trivial) (fun i _ => trivial) rfl 0
      (byteCount_pos 64) 0 (byteCount_pos 64) ?_
    decide
  · -- The second statement of the block is the access.
    refine h ⟨⟨Function.update (fun _ => (0 : Word)) (.frame (-8)) (BitVec.ofInt 64 1),
      fun _ => (0 : Word)⟩, .binary .sub (.read (.reg 5)) (.konst 8 64),
      (0 : Word) - BitVec.ofInt 64 8, .ofBits 64⟩ ⟨0, ?_⟩
      ⟨fun i _ => trivial, fun _ _ _ _ => trivial⟩ (-8) ?_ 0 (by decide) 0 (by decide) ?_
    · exact List.Mem.head []
    · decide
    · decide

end Aret.Alias
