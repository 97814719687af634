/-
The pre-header, and SSA construction as a whole.

A function whose entry block has predecessors gets a pre-header that takes the
entry address over.  The pass then looks for the entry by address once more, and
finds the pre-header only if no other block has that address.

* `toSsa_preserves_iff` — `to_ssa` preserves the runs of a function exactly when
  the entry block has no predecessors or no other block has the entry address.
-/
import Aret.SsaSound

namespace Aret

section
variable {f : IrFunction}

/-! ### The entry block -/

namespace IrFunction

theorem entryIndex_lt (hne : f.blocks ≠ []) : f.entryIndex < f.blocks.length := by
  rw [entryIndex]
  cases hfind : f.blocks.findIdx? fun b => b.addr == f.entry with
  | none => exact List.length_pos_iff.mpr hne
  | some i => exact (List.findIdx?_eq_some_iff_getElem.mp hfind).1

theorem entryIndex_le {i : ℕ} (hi : i < f.blocks.length) (haddr : (f.block i).addr = f.entry) :
    f.entryIndex ≤ i ∧ (f.block f.entryIndex).addr = f.entry := by
  rw [entryIndex]
  have hget := List.getElem_of_getElem? (f.getElem?_block hi)
  obtain ⟨hi', hget⟩ := hget
  cases hfind : f.blocks.findIdx? fun b => b.addr == f.entry with
  | none =>
    have hall := List.findIdx?_eq_none_iff.mp hfind (f.block i) (List.mem_of_getElem? (f.getElem?_block hi))
    simp [haddr] at hall
  | some j =>
    obtain ⟨hj, haddrj, hmin⟩ := List.findIdx?_eq_some_iff_getElem.mp hfind
    refine ⟨?_, ?_⟩
    · by_contra hlt
      have := hmin i (by simpa using hlt)
      rw [hget] at this
      simp [haddr] at this
    · have hblock : f.block j = f.blocks[j] :=
        block_of_getElem? (List.getElem?_eq_getElem hj)
      rw [Option.getD_some, hblock]
      simpa using haddrj

theorem addr_lt_synthAddr {i : ℕ} (hi : i < f.blocks.length) : (f.block i).addr < f.synthAddr := by
  have hle : ∀ (l : List ℕ) (a : ℕ), a ∈ l → a ≤ l.foldr max 0 := by
    intro l a ha
    induction l with
    | nil => cases ha
    | cons b l ih =>
      rcases List.mem_cons.mp ha with rfl | ha
      · exact le_max_left _ _
      · exact (ih ha).trans (le_max_right _ _)
  refine Nat.lt_succ_of_le (hle _ _ (List.mem_map.mpr ⟨f.block i, ?_, rfl⟩))
  exact List.mem_of_getElem? (f.getElem?_block hi)

def PreheaderFound (f : IrFunction) : Prop :=
  (f.block f.entryIndex).pred = [] ∨
    ∀ i < f.blocks.length, i ≠ f.entryIndex → (f.block i).addr ≠ f.entry

end IrFunction

/-! ### The function with its pre-header -/

open IrFunction

theorem splitEntry_of_pred_nil (h : (f.block f.entryIndex).pred = []) : splitEntry f = f := by
  rw [splitEntry, h]
  rfl

section
variable (hpred : (f.block f.entryIndex).pred ≠ [])
include hpred

private theorem splitEntry_eq : splitEntry f = { f with
    blocks := f.blocks.set f.entryIndex
        { f.block f.entryIndex with
          addr := f.synthAddr
          pred := (f.block f.entryIndex).pred ++ [f.blocks.length] }
      ++ [⟨f.blocks.length, f.entry, [.jump f.entryIndex], [f.entryIndex], []⟩] } := by
  have hempty : (f.block f.entryIndex).pred.isEmpty = false := by simpa using hpred
  rw [splitEntry, hempty]
  rfl

theorem splitEntry_getElem? {i : ℕ} (hi : i < f.blocks.length) :
    (splitEntry f).blocks[i]? = some (if i = f.entryIndex then
      { f.block i with addr := f.synthAddr, pred := (f.block i).pred ++ [f.blocks.length] }
      else f.block i) := by
  rw [splitEntry_eq hpred]
  dsimp only
  rw [List.getElem?_append_left (by simpa using hi)]
  by_cases hie : i = f.entryIndex
  · rw [if_pos hie, hie, List.getElem?_set_self (hie ▸ hi)]
  · rw [if_neg hie, List.getElem?_set_ne fun h => hie h.symm, f.getElem?_block hi]

theorem splitEntry_getElem?_last : (splitEntry f).blocks[f.blocks.length]?
    = some ⟨f.blocks.length, f.entry, [.jump f.entryIndex], [f.entryIndex], []⟩ := by
  rw [splitEntry_eq hpred]
  simp

theorem splitEntry_length : (splitEntry f).blocks.length = f.blocks.length + 1 := by
  rw [splitEntry_eq hpred]
  simp

theorem splitEntry_entry : (splitEntry f).entry = f.entry := by
  rw [splitEntry_eq hpred]

theorem splitEntry_block (hne : f.blocks ≠ []) (i : ℕ) :
    (splitEntry f).block i = if i = f.blocks.length then
      ⟨f.blocks.length, f.entry, [.jump f.entryIndex], [f.entryIndex], []⟩
      else if i = f.entryIndex then
        { f.block i with addr := f.synthAddr, pred := (f.block i).pred ++ [f.blocks.length] }
      else f.block i := by
  have hlt := f.entryIndex_lt hne
  rcases lt_trichotomy i f.blocks.length with hi | rfl | hi
  · rw [if_neg hi.ne, block_of_getElem? (splitEntry_getElem? hpred hi)]
  · rw [if_pos rfl, block_of_getElem? (splitEntry_getElem?_last hpred)]
  · rw [if_neg hi.ne', if_neg (by omega), block_of_le (by rw [splitEntry_length hpred]; omega),
      block_of_le hi.le]

theorem splitEntry_entryIndex_ne (hne : f.blocks ≠ []) (hsynth : f.entry ≠ f.synthAddr) {i : ℕ}
    (hi : i ≤ f.blocks.length) (haddr : ((splitEntry f).block i).addr = f.entry) :
    (splitEntry f).entryIndex ≤ i ∧ (splitEntry f).entryIndex ≠ f.entryIndex ∧
      ((splitEntry f).block (splitEntry f).entryIndex).addr = f.entry := by
  obtain ⟨hle, haddr'⟩ := entryIndex_le (f := splitEntry f) (i := i)
    (by rw [splitEntry_length hpred]; omega) (by rw [haddr, splitEntry_entry hpred])
  rw [splitEntry_entry hpred] at haddr'
  refine ⟨hle, fun heq => ?_, haddr'⟩
  have hlt := f.entryIndex_lt hne
  rw [splitEntry_block hpred hne, heq, if_neg hlt.ne, if_pos rfl] at haddr'
  exact hsynth haddr'.symm

theorem splitEntry_entryIndex (hne : f.blocks ≠ [])
    (hfound : ∀ i < f.blocks.length, i ≠ f.entryIndex → (f.block i).addr ≠ f.entry)
    (hsynth : f.entry ≠ f.synthAddr) : (splitEntry f).entryIndex = f.blocks.length := by
  obtain ⟨hle, hnot, haddr⟩ := splitEntry_entryIndex_ne hpred hne hsynth le_rfl
    (by rw [splitEntry_block hpred hne, if_pos rfl])
  by_contra hne'
  have hlt : (splitEntry f).entryIndex < f.blocks.length := by omega
  rw [splitEntry_block hpred hne, if_neg hlt.ne, if_neg hnot] at haddr
  exact hfound _ hlt hnot haddr

theorem splitEntry_graphOk (hgraph : f.GraphOk) (hne : f.blocks ≠ []) :
    (splitEntry f).GraphOk := by
  have hblock := splitEntry_block hpred hne
  refine ⟨?_, ?_⟩
  · intro i b hb
    have hi := (List.getElem?_eq_some_iff.mp hb).1
    rw [splitEntry_length hpred] at hi
    rcases (Nat.lt_succ_iff_lt_or_eq.mp hi) with hi | rfl
    · rw [splitEntry_getElem? hpred hi] at hb
      have hid := hgraph.id i _ (f.getElem?_block hi)
      rw [← Option.some.inj hb]
      split_ifs
      · exact hid
      · exact hid
    · rw [splitEntry_getElem?_last hpred] at hb
      rw [← Option.some.inj hb]
  · intro i j
    have hdefault : f.block f.blocks.length = default := block_of_le le_rfl
    have hsucc : j ∈ ((splitEntry f).block i).succ
        ↔ (i = f.blocks.length ∧ j = f.entryIndex) ∨ j ∈ (f.block i).succ := by
      rw [hblock]
      split_ifs with h1 h2
      · have hnil : (f.block i).succ = [] := by rw [h1, hdefault]; rfl
        simp [h1, h1 ▸ hnil]
      · simp [h1]
      · simp [h1]
    have hpreds : i ∈ ((splitEntry f).block j).pred
        ↔ (i = f.blocks.length ∧ j = f.entryIndex) ∨ i ∈ (f.block j).pred := by
      rw [hblock]
      split_ifs with h1 h2
      · have hje : j ≠ f.entryIndex := by
          have := f.entryIndex_lt hne
          omega
        have hnil : (f.block j).pred = [] := by rw [h1, hdefault]; rfl
        simp [hje, hnil]
      · simp [h2, or_comm]
      · simp [h2]
    rw [hsucc, hpreds, hgraph.transpose i j]

theorem splitEntry_entryOk (hgraph : f.GraphOk) (hne : f.blocks ≠ [])
    (hentry : (splitEntry f).entryIndex = f.blocks.length) : (splitEntry f).EntryOk := by
  refine ⟨⟨splitEntry_graphOk hpred hgraph hne, ?_⟩, ?_⟩
  · rw [hentry, splitEntry_length hpred]
    omega
  · rw [hentry, predOf, splitEntry_block hpred hne, if_pos rfl]

theorem splitEntry_sameRuns (hpre : f.PreSsa) (hgraph : f.GraphOk) (hne : f.blocks ≠ [])
    (hentry : (splitEntry f).entryIndex = f.blocks.length) {I : Interp} (ρ : I.Store)
    (mem : I.Mem) : RunsLike I f.blocks.length f (splitEntry f) ρ ρ mem := by
  set f' := splitEntry f with hf'
  have hlt := f.entryIndex_lt hne
  have hsame : ∀ i < f.blocks.length, (f'.block i).stmts = (f.block i).stmts ∧
      (f'.block i).succ = (f.block i).succ := by
    intro i hi
    rw [hf', block_of_getElem? (splitEntry_getElem? hpred hi)]
    split_ifs <;> exact ⟨rfl, rfl⟩
  have hphis : ∀ i < f.blocks.length, (f.block i).phis = [] ∧ (f'.block i).phis = [] ∧
      (f'.block i).body = (f.block i).body := by
    intro i hi
    have hnone := (body_of_preSsa (hpre _ (List.mem_of_getElem? (f.getElem?_block hi)))).1
    refine ⟨hnone, ?_, ?_⟩
    · rw [Block.phis, (hsame i hi).1]
      exact hnone
    · rw [Block.body, Block.body, (hsame i hi).1]
  have henter : ∀ (p p' : Option ℕ) (t : ℕ) (ρ : I.Store) (w : I.World), t < f.blocks.length →
      Interp.enter f.blocks.length f p t ρ w = ⟨some t, ρ, w.emit (.visit t)⟩ ∧
        Interp.enter f.blocks.length f' p' t ρ w = ⟨some t, ρ, w.emit (.visit t)⟩ := by
    intro p p' t ρ w ht
    have hget' : f'.blocks[t]? = some (f'.block t) := by
      refine f'.getElem?_block ?_
      rw [hf', splitEntry_length hpred]
      omega
    rw [Interp.enter, Interp.enter, f.getElem?_block ht, hget']
    dsimp only
    rw [(hphis t ht).1, (hphis t ht).2.1, Interp.readPhis_nil, Interp.readPhis_nil]
    simp [ht, Interp.Store.setVals]
  -- the start: the pre-header is entered unseen, and jumps to the old entry
  have hlast : f'.block f.blocks.length
      = ⟨f.blocks.length, f.entry, [.jump f.entryIndex], [f.entryIndex], []⟩ :=
    block_of_getElem? (splitEntry_getElem?_last hpred)
  have hstart : Sim.stepN (I.step f.blocks.length f') 1
      (Interp.start f.blocks.length f' ρ mem) = some (Interp.start f.blocks.length f ρ mem) := by
    have hpre' : Interp.start f.blocks.length f' ρ mem = ⟨some f.blocks.length, ρ, ⟨mem, []⟩⟩ := by
      rw [Interp.start, hentry, Interp.enter, hf', splitEntry_getElem?_last hpred]
      have hphi : (Block.mk f.blocks.length f.entry [.jump f.entryIndex] [f.entryIndex] []).phis =
        [] := rfl
      simp only [hphi, Interp.readPhis_nil]
      simp [Interp.Store.setVals]
    have hbody : (f'.block f.blocks.length).body = [.jump f.entryIndex] := by
      rw [hlast]
      rfl
    rw [hpre', Sim.stepN, Interp.step_of_pc rfl, hbody]
    show some (Interp.leave f.blocks.length f' f.blocks.length
      (.next (some f.entryIndex) ρ ⟨mem, []⟩)) = _
    rw [Interp.leave, hlast, if_pos List.mem_cons_self, Interp.start,
      (henter none (some f.blocks.length) f.entryIndex ρ ⟨mem, []⟩ hlt).1,
      (henter none (some f.blocks.length) f.entryIndex ρ ⟨mem, []⟩ hlt).2]
  refine Sim.SameRuns.after ?_ hstart
  refine Sim.SameRuns.of_simulation
    (R := fun c c' => c = c' ∧ ∀ p, c.pc = some p → p < f.blocks.length) ⟨?_, ?_, ?_⟩ ⟨rfl, ?_⟩
  · rintro c _ ⟨rfl, -⟩
    rfl
  · rintro c _ c₁ ⟨rfl, hpc⟩ hstep
    cases hp : c.pc with
    | none =>
      rw [Interp.step_eq_none.mpr hp] at hstep
      cases hstep
    | some p =>
      have hplt := hpc p hp
      have hstep' : I.step f.blocks.length f' c = some (Interp.leave f.blocks.length f' p
          (I.exec (f'.block p).body none c.ρ c.w)) := Interp.step_of_pc hp
      rw [Interp.step_of_pc hp] at hstep
      obtain rfl := Option.some.inj hstep
      rw [(hphis p hplt).2.2] at hstep'
      have hleave : ∀ e : I.Exit, Interp.leave f.blocks.length f' p e
          = Interp.leave f.blocks.length f p e ∧
          ∀ q, (Interp.leave f.blocks.length f p e).pc = some q → q < f.blocks.length := by
        rintro (⟨_ | t, ρ, w⟩ | ⟨ρ, w⟩)
        · exact ⟨rfl, by rintro _ ⟨⟩⟩
        · rw [Interp.leave, Interp.leave, (hsame p hplt).2]
          split_ifs with ht
          · have htlt : t < f.blocks.length := by
              by_contra hge
              have hmem := (hgraph.transpose p t).mp ht
              rw [block_of_le (Nat.le_of_not_lt hge)] at hmem
              cases hmem
            rw [(henter (some p) (some p) t ρ w htlt).1, (henter (some p) (some p) t ρ w htlt).2]
            exact ⟨rfl, fun q hq => Option.some.inj hq ▸ htlt⟩
          · exact ⟨rfl, by rintro _ ⟨⟩⟩
        · exact ⟨rfl, by rintro _ ⟨⟩⟩
      refine ⟨0, _, ?_, rfl, (hleave _).2⟩
      rw [Sim.stepN, hstep', (hleave _).1]
      rfl
  · rintro c _ ⟨rfl, -⟩ hstep
    exact ⟨0, c, rfl, Interp.step_eq_none.mpr (Interp.step_eq_none.mp hstep), rfl⟩
  · intro p hp
    rw [Interp.start, (henter none none f.entryIndex ρ ⟨mem, []⟩ hlt).1] at hp
    exact Option.some.inj hp ▸ hlt

end

/-! ### The pass -/

/-- `to_ssa` preserves the runs of `f`: its blocks are visited in the same order
(the pre-header apart), with the same stores, calls, decisions and results, from
all initial values. -/
def IrFunction.SsaPreserved (f : IrFunction) (sharedStack : Bool) : Prop :=
  ∀ (I : Interp) (ρ ρ' : I.Store) (mem : I.Mem), Seeded (toSsa sharedStack f) ρ ρ' →
    RunsLike I f.blocks.length f (toSsa sharedStack f) ρ ρ' mem

theorem splitEntry_preSsa (hpre : f.PreSsa) (hne : f.blocks ≠ []) : (splitEntry f).PreSsa := by
  by_cases hpred : (f.block f.entryIndex).pred = []
  · rwa [splitEntry_of_pred_nil hpred]
  · intro b hb s hs
    obtain ⟨i, hi⟩ := List.mem_iff_getElem?.mp hb
    rw [← block_of_getElem? hi, splitEntry_block hpred hne] at hs
    split_ifs at hs with h1 h2
    · rw [List.mem_singleton.mp hs]
      rfl
    all_goals
      have hlen := (List.getElem?_eq_some_iff.mp hi).1
      rw [splitEntry_length hpred] at hlen
      have hmem : f.block i ∈ f.blocks :=
        List.mem_of_getElem? (getElem?_block (f := f) (i := i) (by omega))
      exact hpre _ hmem s hs

theorem ssaPreserved_of_found (hgraph : f.GraphOk) (hpre : f.PreSsa)
    (hsynth : f.entry ≠ f.synthAddr) (sharedStack : Bool) (hfound : f.PreheaderFound) :
    f.SsaPreserved sharedStack := by
  intro I ρ ρ' mem hseed
  by_cases hne : f.blocks = []
  · -- with no block, both runs are stuck at once
    have hssa : toSsa sharedStack f = f := by rw [toSsa, hne]; rfl
    have hget : ∀ i : ℕ, f.blocks[i]? = none := by simp [hne]
    have hstart : ∀ ρ : I.Store, Interp.start f.blocks.length f ρ mem = .stuck ρ ⟨mem, []⟩ := by
      intro ρ
      rw [Interp.start, Interp.enter, hget]
    rw [hssa]
    refine Sim.SameRuns.of_simulation (R := fun c c' => c.w = c'.w ∧ c.pc = none ∧ c'.pc = none)
      ⟨fun h => h.1, ?_, ?_⟩ ?_
    · rintro c c' c₁ ⟨-, hpc, -⟩ hstep
      rw [Interp.step_eq_none.mpr hpc] at hstep
      cases hstep
    · rintro c c' ⟨hw, -, hpc⟩ -
      exact ⟨0, c', rfl, Interp.step_eq_none.mpr hpc, hw⟩
    · rw [hstart, hstart]
      exact ⟨rfl, rfl, rfl⟩
  · have hssa : toSsa sharedStack f = constructSsa sharedStack (splitEntry f) := by
      rw [toSsa, if_neg (by simpa using hne)]
    rw [hssa] at hseed ⊢
    by_cases hpred : (f.block f.entryIndex).pred = []
    · rw [splitEntry_of_pred_nil hpred] at hseed ⊢
      exact EntryOk.sameRuns ⟨⟨hgraph, f.entryIndex_lt hne⟩, hpred⟩ hpre hseed mem
    · have hentry := splitEntry_entryIndex hpred hne (hfound.resolve_left hpred) hsynth
      exact (splitEntry_sameRuns hpred hpre hgraph hne hentry ρ mem).trans
        ((splitEntry_entryOk hpred hgraph hne hentry).sameRuns (splitEntry_preSsa hpre hne)
          hseed mem)

def Interp.trivial : Interp where
  Val := Unit
  Mem := Unit
  const _ _ := ()
  addr _ := ()
  undef := ()
  load _ _ _ := ()
  store _ _ _ _ := ()
  unary _ _ _ := ()
  binary _ _ _ _ _ := ()
  cast _ _ _ := ()
  call _ _ _ _ := ((), ())
  asm _ _ := none
  truth _ := false
  isCase _ _ := false

theorem not_ssaPreserved (hpre : f.PreSsa) (hsynth : f.entry ≠ f.synthAddr) (sharedStack : Bool)
    (hnot : ¬f.PreheaderFound) : ¬f.SsaPreserved sharedStack := by
  rw [PreheaderFound, not_or] at hnot
  obtain ⟨hpred, hother⟩ := hnot
  push Not at hother
  obtain ⟨i, hi, hie, haddr⟩ := hother
  have hne : f.blocks ≠ [] := by
    rintro hnil
    simp [hnil] at hi
  intro hall
  set ρ : Interp.trivial.Store := ⟨fun _ => (), fun _ => ()⟩
  obtain ⟨m, -, hview, -⟩ := hall Interp.trivial ρ ρ () ⟨fun _ _ => rfl, fun _ _ => rfl⟩ 0
  have hlt := f.entryIndex_lt hne
  -- the run of `f` shows its entry block first
  have hstart : Interp.start f.blocks.length f ρ ()
      = ⟨some f.entryIndex, ρ, ⟨(), [.visit f.entryIndex]⟩⟩ := by
    show Interp.enter f.blocks.length f none f.entryIndex ρ ⟨(), []⟩ = _
    rw [Interp.enter, f.getElem?_block hlt]
    have hphis := (body_of_preSsa (hpre _ (List.mem_of_getElem? (f.getElem?_block hlt)))).1
    dsimp only
    rw [Block.phis, hphis, Interp.readPhis_nil]
    simp [hlt, Interp.Store.setVals, Interp.World.emit]
  -- the other one shows the block it finds instead, or that it is stuck
  have hssa : toSsa sharedStack f = constructSsa sharedStack (splitEntry f) := by
    rw [toSsa, if_neg (by simpa using hne)]
  obtain ⟨hle, hentry, -⟩ := splitEntry_entryIndex_ne hpred hne hsynth hi.le
    (by rw [splitEntry_block hpred hne, if_neg hi.ne, if_neg hie, haddr])
  set e := (splitEntry f).entryIndex
  have hother : ∃ x, x ≠ Event.visit f.entryIndex ∧
      (Interp.start f.blocks.length (toSsa sharedStack f) ρ ()).w.trace = [x] := by
    have helt : e < (splitEntry f).blocks.length := by
      rw [splitEntry_length hpred]
      omega
    have henter : Interp.start f.blocks.length (toSsa sharedStack f) ρ ()
        = Interp.enter f.blocks.length (constructSsa sharedStack (splitEntry f)) none e ρ
          ⟨(), []⟩ := by
      rw [hssa]
      show Interp.enter _ _ none (constructSsa sharedStack (splitEntry f)).entryIndex _ _ = _
      rw [constructSsa_entryIndex]
    rw [henter, Interp.enter, constructSsa_getElem? helt]
    dsimp only
    split
    · exact ⟨.stuck, by simp, rfl⟩
    · refine ⟨.visit e, ?_, ?_⟩
      · intro heq
        exact hentry (Event.visit.inj heq)
      · show (if e < f.blocks.length then _ else _ : Interp.trivial.World).trace = _
        rw [if_pos (by omega)]
        rfl
  obtain ⟨x, hx, htrace⟩ := hother
  have hprefix : (Interp.start f.blocks.length (toSsa sharedStack f) ρ ()).w.trace <+:
      (Sim.runN (Interp.trivial.step f.blocks.length (toSsa sharedStack f)) m
        (Interp.start f.blocks.length (toSsa sharedStack f) ρ ())).w.trace :=
    Interp.trace_runN m _
  rw [← hview, htrace, Sim.runN, hstart] at hprefix
  exact hx (by simpa using hprefix)

/-- `to_ssa` preserves the runs of a function exactly when its entry block has no
predecessors, or no other block has the entry address. -/
theorem toSsa_preserves_iff (hgraph : f.GraphOk) (hpre : f.PreSsa)
    (hsynth : f.entry ≠ f.synthAddr) (sharedStack : Bool) :
    f.SsaPreserved sharedStack ↔ f.PreheaderFound := by
  constructor
  · intro h
    by_contra hnot
    exact not_ssaPreserved hpre hsynth sharedStack hnot h
  · exact ssaPreserved_of_found hgraph hpre hsynth sharedStack

end

/-! ### A tail call from the entry block -/

def plainFunction (blocks : List Block) : IrFunction where
  entry := 0x10
  name := "sub_10"
  bits := 64
  regParams := []
  frameBaseValues := []
  fp80Values := []
  entryValues := []
  blocks := blocks
  nextValue := 0
  nextTemp := 0

def countdown : IrFunction := plainFunction
  [⟨0, 0x10, [.set (.reg 1) (.binary .sub (.read (.reg 1)) (.konst 1 64)),
      .branch (.read (.reg 1)) 0 1], [0, 1], [0]⟩,
    ⟨1, 0x14, [.ret (some (.read (.reg 0)))], [], [0]⟩]

/-- The criterion at a loop in the entry block. -/
theorem toSsa_preserves_iff_countdown :
    countdown.SsaPreserved false ↔ countdown.PreheaderFound :=
  toSsa_preserves_iff (by decide) (by decide) (by decide) false

/-- A loop whose header `0x10` leaves by a conditional jump to the function at `0x40`:
the block that does the tail call carries the address of the header. -/
def headerTailCall : IrFunction := plainFunction
  [⟨0, 0x10, [.branch (.read (.flag .zf)) 3 1], [1, 3], [1]⟩,
    ⟨1, 0x12, [.branch (.read (.flag .cf)) 0 2], [0, 2], [0]⟩,
    ⟨2, 0x14, [.ret (some (.read (.reg 0)))], [], [1]⟩,
    ⟨3, 0x10, [.ret (some (.call (.direct 0x40) [.read (.reg 7)] (.ofBits 64)))], [], [0]⟩]

/-- **The pre-header is not found**: in SSA form the function starts with the tail call. -/
theorem not_ssaPreserved_headerTailCall : headerTailCall.GraphOk ∧ headerTailCall.PreSsa ∧
    ¬headerTailCall.SsaPreserved false := by
  have hpre : headerTailCall.PreSsa := by decide
  refine ⟨by decide, hpre, not_ssaPreserved hpre (by decide) false ?_⟩
  rintro (hpred | hother)
  · exact absurd hpred (by decide)
  · exact hother 3 (by decide) (by decide) rfl

end Aret
