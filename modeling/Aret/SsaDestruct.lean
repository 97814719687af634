/-
From SSA construction to SSA destruction.

What SSA construction yields is a web of phis as the destruction needs it, whatever
the optimiser does in between: the labels are the locations that values are versions
of, and the blocks a run may reach are those the construction has renamed.

* `destructSsa_preserves` — destruction after any rounds of the optimiser preserves
  the runs of the SSA form.
-/
import Aret.DestructSound

namespace Aret

/-- A function before SSA: its graph is in order and names no value, control
statements come last and lead to blocks there are, and one of them is the entry. -/
structure IrFunction.Lowerable (f : IrFunction) : Prop where
  graph : f.GraphOk
  preSsa : f.PreSsa
  ends : ∀ b ∈ f.blocks, EndsLast b.stmts
  targets : ∀ b ∈ f.blocks, ∀ s ∈ b.stmts, ∀ t ∈ s.gotos, t < f.blocks.length
  entry : ∃ b ∈ f.blocks, b.addr = f.entry

theorem StmtsRenamed.kinds {lab : ValueId → Location} {bound : ℕ}
    {σ σ' : Location → Option ValueId} {ss ss' : List Stmt}
    (h : StmtsRenamed lab bound σ ss ss' σ') (hpre : ∀ s ∈ ss, s.preSsa = true) :
    ss'.map Stmt.kind = ss.map Stmt.kind := by
  induction h with
  | nil σ => rfl
  | @define σ σ' l e e' x ss ss' hl he hlt hlab rest ih =>
    have hnone := (StmtsRenamed.define hl he hlt hlab rest).phi?_isNone hpre
    obtain ⟨hphi, -⟩ := List.forall_mem_cons.mp hnone
    have hkind : (Stmt.assign x e').kind = (Stmt.set l e).kind := by
      rw [Stmt.kind, Option.isNone_iff_eq_none.mp hphi]
      rfl
    rw [List.map_cons, List.map_cons, hkind, ih (List.forall_mem_cons.mp hpre).2]
  | @keep σ σ' s s' ss ss' hs hset rest ih =>
    obtain ⟨hpres, hprest⟩ := List.forall_mem_cons.mp hpre
    have hkind : s'.kind = s.kind := by
      cases s with
      | store _ _ _ =>
        obtain ⟨_, _, _, _, rfl⟩ := hs
        rfl
      | branch _ _ _ | switch _ _ _ | callStmt _ =>
        obtain ⟨_, _, rfl⟩ := hs
        rfl
      | ret e =>
        cases e with
        | some _ =>
          obtain ⟨_, _, rfl⟩ := hs
          rfl
        | none => rw [hs]
      | set _ _ =>
        obtain ⟨-, _, _, rfl⟩ := hs
        rfl
      | assign _ _ => cases hpres
      | jump _ | asm _ | nop => rw [hs]
    rw [List.map_cons, List.map_cons, hkind, ih hprest]

theorem StmtsRenamed.labelled {lab : ValueId → Location} {bound : ℕ}
    {σ σ' : Location → Option ValueId} {ss ss' : List Stmt}
    (h : StmtsRenamed lab bound σ ss ss' σ') (hσ : ∀ l x, σ l = some x → lab x = l) :
    ∀ l x, σ' l = some x → lab x = l := by
  induction h with
  | nil σ => exact hσ
  | @define σ σ' k e e' y ss ss' _ _ _ hlab _ ih =>
    refine ih fun l x hx => ?_
    by_cases hlk : l = k
    · rw [hlk, Function.update_self] at hx
      rw [hlk, ← Option.some.inj hx]
      exact hlab
    · rw [Function.update_of_ne hlk] at hx
      exact hσ l x hx
  | keep _ _ _ ih => exact ih hσ

section
variable {f : IrFunction}

theorem Versioning.kinds {lab : ValueId → Location} {inn mid out : ℕ → Location → Option ValueId}
    (h : Versioning f lab inn mid out) (hpre : f.PreSsa) (q : ℕ) :
    (f.renamed.stmts q).map Stmt.kind = (f.block q).stmts.map Stmt.kind := by
  rcases h.stmts q with heq | ⟨σ, σ', hren⟩
  · rw [heq]
  · exact hren.kinds (hpre.block q)

theorem constructSsa_web (h : f.Rooted) (hpre : f.PreSsa)
    (hends : ∀ q, EndsLast (f.block q).stmts)
    (htargets : ∀ q, ∀ s ∈ (f.block q).stmts, ∀ t ∈ s.gotos, t < f.blocks.length)
    (hentry : ∃ q < f.blocks.length, (f.block q).addr = f.entry) (sharedStack : Bool) :
    ∃ lab : ValueId → Location, PhiWeb f.blocks.length lab (· ∈ f.order)
        (constructSsa sharedStack f) ∧
      ∀ q < f.blocks.length, f.phiVars q = [] →
        ((constructSsa sharedStack f).block q).phis = [] := by
  obtain ⟨lab, inn, mid, out, hvers⟩ := h.versioning
  set g := constructSsa sharedStack f with hg
  have hlen : g.blocks.length = f.blocks.length := by simp [hg, constructSsa]
  have hblock : ∀ q < f.blocks.length, g.block q = f.renamed.block f q := fun q hq =>
    constructSsa_block hq
  have hdefault : ∀ q, f.blocks.length ≤ q → g.block q = default := fun q hq =>
    IrFunction.block_of_le (hlen ▸ hq)
  have hphis : ∀ q < f.blocks.length,
      (g.block q).phis = (f.renamed.phis q).map fun φ => (φ.dst, φ.args) := fun q hq =>
    (hvers.constructSsa_parts hpre hq).1
  have hedges : ∀ q, (g.block q).succ = f.succOf q ∧ (g.block q).pred = f.predOf q :=
    constructSsa_edges
  have hout : ∀ p ∈ f.order, ∀ l x, out p l = some x → lab x = l := fun p hp =>
    (hvers.body p hp).labelled (hvers.labelled p hp)
  refine ⟨lab, ⟨?_, hlen.ge, ?_, ?_, ?_, ?_, ?_, ?_, ?_, ?_⟩, fun q hq hnil => ?_⟩
  · intro q hq
    rw [hlen] at hq
    rw [hblock q hq, Renaming.block]
    exact h.graph.id q (f.block q) (IrFunction.getElem?_block hq)
  · obtain ⟨q, hq, haddr⟩ := hentry
    exact ⟨q, hlen ▸ hq, by rw [hblock q hq]; exact haddr⟩
  · intro p hp
    refine ⟨hlen ▸ h.isOrder.lt p hp, fun t ht => ?_⟩
    rw [(hedges p).1] at ht
    rw [(hedges t).2]
    exact ⟨h.mem_order_of_succ hp ht, (h.graph.transpose p t).mp ht⟩
  · intro p hp t ht φ hφ
    rw [(hedges p).1] at ht
    have htr := h.mem_order_of_succ hp ht
    rw [hphis t (h.isOrder.lt t htr)] at hφ
    obtain ⟨ψ, hψ, rfl⟩ := List.mem_map.mp hφ
    obtain ⟨y, hy, hyout⟩ := hvers.slot p hp t ht ψ hψ
    rw [(hedges t).2]
    exact ⟨y, hy, (hout p hp _ _ hyout).trans (hvers.phi t htr ψ hψ).2.symm⟩
  · intro q hq
    have hlab : ((g.block q).phis.map fun φ => lab φ.1) = f.phiVars q := by
      rw [hphis q (h.isOrder.lt q hq), List.map_map, ← hvers.vars q]
      exact List.map_congr_left fun ψ hψ => (hvers.phi q hq ψ hψ).2
    rw [hlab]
    exact f.phiVars_nodup q
  · intro q
    by_cases hq : q < f.blocks.length
    · have hrest : EndsLast (f.renamed.stmts q) := by
        have hkinds := hvers.kinds hpre q
        have hiff : ∀ ss : List Stmt,
            EndsLast ss ↔ (ss.map Stmt.kind).Pairwise fun k _ => k.1 = false := by
          intro ss
          rw [List.pairwise_map]
          rfl
        rw [hiff, hkinds, ← hiff]
        exact hends q
      rw [hblock q hq, Renaming.block, EndsLast, List.pairwise_append]
      refine ⟨?_, hrest, ?_⟩
      · rw [List.pairwise_map]
        exact List.pairwise_of_forall fun _ _ => rfl
      · intro x hx _ _
        obtain ⟨φ, -, rfl⟩ := List.mem_map.mp hx
        rfl
    · rw [hdefault q (Nat.le_of_not_lt hq)]
      exact List.Pairwise.nil
  · intro q x hx t ht
    rw [hlen]
    by_cases hq : q < f.blocks.length
    · rw [hblock q hq, Renaming.block] at hx
      rcases List.mem_append.mp hx with hx | hx
      · obtain ⟨φ, -, rfl⟩ := List.mem_map.mp hx
        cases ht
      · have hkind : x.kind ∈ (f.block q).stmts.map Stmt.kind :=
          hvers.kinds hpre q ▸ List.mem_map_of_mem hx
        obtain ⟨y, hy, hyx⟩ := List.mem_map.mp hkind
        have hgotos : y.gotos = x.gotos := congrArg (fun k => k.2.2) hyx
        exact htargets q y hy t (hgotos ▸ ht)
    · rw [hdefault q (Nat.le_of_not_lt hq)] at hx
      cases hx
  · intro q hq hne
    rw [(hedges q).2]
    refine ⟨fun p hp => ?_, fun φ hφ => ?_⟩
    · by_contra hge
      have hsucc := (h.graph.transpose p q).mpr hp
      rw [IrFunction.block_of_le (Nat.le_of_not_lt hge)] at hsucc
      cases hsucc
    · rw [hphis q hq] at hφ
      obtain ⟨ψ, hψ, rfl⟩ := List.mem_map.mp hφ
      exact hvers.lengths q ψ hψ
  · intro q hq
    rw [hdefault q hq]
    rfl
  · rw [hphis q hq, List.map_eq_nil_iff]
    exact List.map_eq_nil_iff.mp ((hvers.vars q).trans hnil)

/-! ### The pre-header -/

theorem IrFunction.Lowerable.split (h : f.Lowerable) :
    (splitEntry f).Rooted ∧ (splitEntry f).PreSsa ∧
      (∀ q, EndsLast ((splitEntry f).block q).stmts) ∧
      (∀ q, ∀ s ∈ ((splitEntry f).block q).stmts, ∀ t ∈ s.gotos,
        t < (splitEntry f).blocks.length) ∧
      ∃ q < (splitEntry f).blocks.length, ((splitEntry f).block q).addr = (splitEntry f).entry := by
  obtain ⟨b, hb, haddr⟩ := h.entry
  have hne : f.blocks ≠ [] := List.ne_nil_of_mem hb
  have hends : ∀ q, EndsLast (f.block q).stmts := by
    intro q
    by_cases hq : q < f.blocks.length
    · exact h.ends _ (List.mem_of_getElem? (IrFunction.getElem?_block hq))
    · rw [IrFunction.block_of_le (Nat.le_of_not_lt hq)]
      exact List.Pairwise.nil
  have htargets : ∀ q, ∀ s ∈ (f.block q).stmts, ∀ t ∈ s.gotos, t < f.blocks.length := by
    intro q
    by_cases hq : q < f.blocks.length
    · exact h.targets _ (List.mem_of_getElem? (IrFunction.getElem?_block hq))
    · rw [IrFunction.block_of_le (Nat.le_of_not_lt hq)]
      intro s hs
      cases hs
  by_cases hpred : (f.block f.entryIndex).pred = []
  · rw [splitEntry_of_pred_nil hpred]
    obtain ⟨q, hq⟩ := List.mem_iff_getElem?.mp hb
    refine ⟨⟨h.graph, f.entryIndex_lt hne⟩, h.preSsa, hends, htargets, q,
      (List.getElem?_eq_some_iff.mp hq).1, ?_⟩
    rw [IrFunction.block_of_getElem? hq, haddr]
  · have hblock := splitEntry_block hpred hne
    have hlen := splitEntry_length hpred
    have hstmts : ∀ q, ((splitEntry f).block q).stmts = [.jump f.entryIndex] ∨
        ((splitEntry f).block q).stmts = (f.block q).stmts := by
      intro q
      rw [hblock]
      split_ifs
      · exact .inl rfl
      · exact .inr rfl
      · exact .inr rfl
    refine ⟨⟨splitEntry_graphOk hpred h.graph hne, IrFunction.entryIndex_lt ?_⟩,
      splitEntry_preSsa h.preSsa hne, ?_, ?_, f.blocks.length, ?_, ?_⟩
    · intro hnil
      rw [hnil] at hlen
      cases hlen
    · intro q
      rcases hstmts q with hq | hq
      · rw [hq]
        exact List.pairwise_singleton _ _
      · rw [hq]
        exact hends q
    · intro q s hs t ht
      rw [hlen]
      rcases hstmts q with hq | hq
      · rw [hq, List.mem_singleton] at hs
        rw [hs, Stmt.gotos, List.mem_singleton] at ht
        have := f.entryIndex_lt hne
        omega
      · rw [hq] at hs
        have := htargets q s hs t ht
        omega
    · omega
    · rw [hblock, if_pos rfl, splitEntry_entry hpred]

end

theorem IrFunction.Lowerable.ne_nil {f : IrFunction} (h : f.Lowerable) : f.blocks ≠ [] := by
  obtain ⟨b, hb, -⟩ := h.entry
  exact List.ne_nil_of_mem hb

theorem IrFunction.Lowerable.entry_ne_synthAddr {f : IrFunction} (h : f.Lowerable) :
    f.entry ≠ f.synthAddr := by
  obtain ⟨b, hb, haddr⟩ := h.entry
  obtain ⟨q, hq⟩ := List.mem_iff_getElem?.mp hb
  have hlt := f.addr_lt_synthAddr (List.getElem?_eq_some_iff.mp hq).1
  rw [IrFunction.block_of_getElem? hq, haddr] at hlt
  exact hlt.ne

theorem IrFunction.Lowerable.entryOk {f : IrFunction} (h : f.Lowerable) (hfound : f.PreheaderFound) :
    (splitEntry f).EntryOk := by
  by_cases hpred : (f.block f.entryIndex).pred = []
  · rw [splitEntry_of_pred_nil hpred]
    exact ⟨⟨h.graph, f.entryIndex_lt h.ne_nil⟩, hpred⟩
  · exact splitEntry_entryOk hpred h.graph h.ne_nil
      (splitEntry_entryIndex hpred h.ne_nil (hfound.resolve_left hpred) h.entry_ne_synthAddr)

theorem IrFunction.Lowerable.toSsa_eq {f : IrFunction} (h : f.Lowerable) (sharedStack : Bool) :
    toSsa sharedStack f = constructSsa sharedStack (splitEntry f) := by
  rw [toSsa, if_neg (by simpa using h.ne_nil)]

theorem IrFunction.Lowerable.web_of_trims {f g : IrFunction} (h : f.Lowerable) {sharedStack : Bool}
    (htrims : Trims (toSsa sharedStack f) g) : ∃ (lab : ValueId → Location) (R : ℕ → Prop),
      PhiWeb g.blocks.length lab R g ∧ R g.entryIndex ∧ (f.PreheaderFound → CanStart R g) := by
  obtain ⟨hrooted, hpre, hends, htargets, hentry⟩ := h.split
  obtain ⟨lab, hweb, hnone⟩ := constructSsa_web hrooted hpre hends htargets hentry sharedStack
  rw [h.toSsa_eq] at htrims
  have hlen : g.blocks.length = (splitEntry f).blocks.length := by
    rw [htrims.length]
    simp [constructSsa]
  have hindex : g.entryIndex = (splitEntry f).entryIndex := by
    rw [htrims.entryIndex, constructSsa_entryIndex]
  have hmem := hrooted.isOrder.entry_mem
  refine ⟨lab, (· ∈ (splitEntry f).order), hlen ▸ hweb.trims htrims, hindex ▸ hmem,
    fun hfound => ⟨hindex ▸ hmem, ?_⟩⟩
  -- with the pre-header found, nothing leads to the entry, which then has no phi
  have hok := h.entryOk hfound
  rw [hindex]
  exact List.sublist_nil.mp (hnone _ hok.entry_lt hok.phiVars_entry ▸ htrims.phis _)

theorem IrFunction.Lowerable.web {f : IrFunction} (h : f.Lowerable) (sharedStack : Bool)
    (fuel k : ℕ) : ∃ (lab : ValueId → Location) (R : ℕ → Prop),
      PhiWeb (rounds fuel k (toSsa sharedStack f)).blocks.length lab R
        (rounds fuel k (toSsa sharedStack f)) ∧
      R (rounds fuel k (toSsa sharedStack f)).entryIndex ∧
      (f.PreheaderFound → CanStart R (rounds fuel k (toSsa sharedStack f))) :=
  h.web_of_trims (rounds_trims fuel k (toSsa sharedStack f))

theorem phis_eq_nil_of_start {g : IrFunction} {watched : ℕ} {I : Interp} {ρ : I.Store}
    {mem : I.Mem} (hlt : g.entryIndex < g.blocks.length)
    (h : (Interp.start watched g ρ mem).pc.isSome) : (g.block g.entryIndex).phis = [] := by
  rw [Interp.start, Interp.enter, IrFunction.getElem?_block hlt] at h
  dsimp only at h
  cases hphis : (g.block g.entryIndex).phis with
  | nil => rfl
  | cons φ φs =>
    rw [hphis] at h
    cases h

/-- Destruction succeeds on what the optimiser makes of the SSA form, leaves no phi,
and preserves every run that gets into the entry block (as all do when the pre-header
is found). -/
theorem destructSsa_preserves {f : IrFunction} (h : f.Lowerable) (sharedStack : Bool)
    (fuel k : ℕ) :
    ∃ g', destructSsa (rounds fuel k (toSsa sharedStack f)) = some g' ∧
      (∀ b ∈ g'.blocks, b.phis = []) ∧
      ∀ (I : Interp) (ρ : I.Store) (mem : I.Mem),
        f.PreheaderFound ∨ (Interp.start (rounds fuel k (toSsa sharedStack f)).blocks.length
          (rounds fuel k (toSsa sharedStack f)) ρ mem).pc.isSome →
        RunsLike I (rounds fuel k (toSsa sharedStack f)).blocks.length
          (rounds fuel k (toSsa sharedStack f)) g' ρ ρ mem := by
  obtain ⟨lab, R, hweb, hR, hfound⟩ := h.web sharedStack fuel k
  set g := rounds fuel k (toSsa sharedStack f)
  obtain ⟨g', hdestruct, hphis, hsame⟩ := hweb.destruct
  refine ⟨g', hdestruct, hphis, fun I ρ mem hstart => hsame ?_ I ρ mem⟩
  rcases hstart with hheader | hstart
  · exact hfound hheader
  · exact ⟨hR, phis_eq_nil_of_start (hweb.reached _ hR).1 hstart⟩

def swapLoop : IrFunction := plainFunction
  [⟨0, 0x10, [.jump 1], [1], []⟩,
    ⟨1, 0x12, [.set (.temp 0) (.read (.reg 1)), .set (.reg 1) (.read (.reg 2)),
      .set (.reg 2) (.read (.temp 0)), .branch (.read (.reg 0)) 1 2], [1, 2], [0, 1]⟩,
    ⟨2, 0x14, [.ret (some (.read (.reg 1)))], [], [1]⟩]

instance : DecidablePred EndsLast := fun ss =>
  inferInstanceAs (Decidable (ss.Pairwise fun s _ => s.isControl = false))

theorem destructSsa_preserves_swapLoop :
    ∃ g', destructSsa (rounds 8 2 (toSsa false swapLoop)) = some g' ∧
      (∀ b ∈ g'.blocks, b.phis = []) ∧
      ∀ (I : Interp) (ρ : I.Store) (mem : I.Mem),
        swapLoop.PreheaderFound ∨ (Interp.start (rounds 8 2 (toSsa false swapLoop)).blocks.length
          (rounds 8 2 (toSsa false swapLoop)) ρ mem).pc.isSome →
        RunsLike I (rounds 8 2 (toSsa false swapLoop)).blocks.length
          (rounds 8 2 (toSsa false swapLoop)) g' ρ ρ mem :=
  destructSsa_preserves ⟨by decide, by decide, by decide, by decide,
    ⟨_, List.mem_cons_self, rfl⟩⟩ false 8 2

end Aret
