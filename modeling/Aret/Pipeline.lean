/-
The passes in a row: into SSA form, through the optimiser, and out of SSA form again.

Each pass preserves what a run shows of the function it is given, provided that the
function has the form the pass relies on; the form is what the pass before leaves.

* `buildIr_lowerable_iff` — when the builder leaves the form that SSA construction relies on.
* `lowered_shows` — the passes in a row.
-/
import Aret.BuildIrShape
import Aret.StrictForm

namespace Aret

/-! ### From a recovered function -/

section
variable {lift : Lifter} {prog : Program} {f : Function} {held : HeldImports}

theorem gotos_nameCallsInStmt (s : Stmt) : (nameCallsInStmt prog held s).gotos = s.gotos := by
  cases s with
  | ret e => cases e <;> rfl
  | _ => rfl

theorem gotos_nameBlock (stmts : List Stmt) :
    (nameBlock prog held stmts).flatMap Stmt.gotos = stmts.flatMap Stmt.gotos := by
  induction stmts generalizing held with
  | nil => rfl
  | cons x xs ih =>
    have hpop : ((popAfter prog held x).map addEsp).toList.flatMap Stmt.gotos = [] := by
      cases popAfter prog held x <;> rfl
    rw [nameBlock, List.cons_append, List.flatMap_cons, List.flatMap_append, hpop, ih,
      gotos_nameCallsInStmt, List.nil_append, List.flatMap_cons]

/-- The terminator leads to successors only. -/
def BlockEnd.LeadsIn (e : BlockEnd) : Prop := ∀ t ∈ e.last, ∀ q ∈ t.gotos, q ∈ e.succ

theorem leadsIn_some {before : List Stmt} {t : Stmt} {succ : List ℕ} (h : ∀ q ∈ t.gotos, q ∈ succ) :
    BlockEnd.LeadsIn ⟨before, some t, succ⟩ := fun _ hs => Option.some.inj hs ▸ h

theorem leadsIn_blockEnd {b : BasicBlock} {last : Insn} {synth : ℕ} :
    (blockEnd lift prog f synth b last).LeadsIn := by
  -- the targets that are looked up are successors of the block
  have hidx : ∀ {o : Option ℕ} {i : ℕ}, (∀ a ∈ o, a ∈ b.successors) → o.bind f.idx = some i →
      i ∈ b.successors.filterMap f.idx := by
    intro o i ho hi
    obtain ⟨a, ha, hai⟩ := Option.bind_eq_some_iff.mp hi
    exact List.mem_filterMap.mpr ⟨a, ho a ha, hai⟩
  have hhead : ∀ a ∈ b.successors.head?, a ∈ b.successors := fun a => List.mem_of_mem_head?
  have hnext : ∀ a ∈ b.successors[1]?, a ∈ b.successors := fun a => List.mem_of_getElem?
  have htail : ∀ before succ, (tailEnd prog last before succ).LeadsIn := by
    intro before succ
    rw [tailEnd]
    split <;> exact leadsIn_some (by simp [Stmt.gotos])
  have hfall : BlockEnd.LeadsIn ⟨[], (b.successors.filterMap f.idx).head?.map .jump,
      b.successors.filterMap f.idx⟩ := by
    intro t ht q hq
    obtain ⟨x, hx, rfl⟩ := Option.map_eq_some_iff.mp ht
    exact List.mem_singleton.mp hq ▸ List.mem_of_mem_head? hx
  have hbranch : ∀ {t e : ℕ} {succ : List ℕ}, t ∈ succ → e ∈ succ →
      BlockEnd.LeadsIn ⟨[], some (.branch last.raw.cond t e), succ⟩ := fun ht he =>
    leadsIn_some (List.forall_mem_cons.mpr ⟨ht, List.forall_mem_singleton.mpr he⟩)
  have hcond : (condJumpEnd prog f synth b last).LeadsIn := by
    rw [condJumpEnd]
    split
    · exact hbranch (hidx hhead ‹_›) (hidx hnext ‹_›)
    · split
      · exact hbranch (by simp) (List.mem_append_left _ (hidx hnext ‹_›))
      · exact leadsIn_some (by simp [Stmt.gotos])
    · exact leadsIn_some (by simp [Stmt.gotos])
  have hjump : (jumpEnd prog f b last).LeadsIn := by
    rw [jumpEnd]
    split
    · by_cases hself : b.successors.head? = some f.entry
      · rw [if_pos hself]
        exact htail _ _
      · rw [if_neg hself]
        exact leadsIn_some (List.forall_mem_singleton.mpr (hidx hhead ‹_›))
    · exact htail _ _
  have hind : (indirectEnd lift prog f b last).LeadsIn := by
    rw [indirectEnd]
    split_ifs with hnil
    · split
      · refine leadsIn_some fun q hq => ?_
        rw [Stmt.gotos, map_snd_mapIdx, List.mem_append, List.mem_singleton] at hq
        rcases hq with hq | rfl
        · exact hq
        · obtain ⟨x, xs, hx⟩ := List.exists_cons_of_ne_nil hnil
          rw [hx]
          exact List.mem_cons_self
      · exact leadsIn_some (by simp [Stmt.gotos])
    · split <;> exact leadsIn_some (by simp [Stmt.gotos])
  rw [blockEnd]
  rcases b.terminator with _ | _ | _ | _ | _ | _ | _
  · exact hfall
  · exact hjump
  · exact hcond
  · exact hfall
  · exact hind
  · exact leadsIn_some (by simp [Stmt.gotos])
  · exact leadsIn_some (by simp [Stmt.gotos])

theorem endsLast_nameBlock {body : List Stmt} {last : Option Stmt}
    (hbody : ∀ s ∈ body, s.isControl = false) :
    EndsLast (nameBlock prog held (body ++ last.toList)) ↔
      ∀ t ∈ last, t.isControl = true → popAfter prog (heldAfter prog held body) t = none := by
  have hnamed : ∀ s ∈ nameBlock prog held body, s.isControl = false := nameBlock_not_control hbody
  have happend : ∀ ys, EndsLast (nameBlock prog held body ++ ys) ↔ EndsLast ys := by
    intro ys
    rw [EndsLast, EndsLast, List.pairwise_append]
    exact ⟨fun h => h.2.1, fun h => ⟨List.pairwise_of_forall_mem_list fun s hs _ _ => hnamed s hs,
      h, fun s hs _ _ => hnamed s hs⟩⟩
  cases last with
  | none =>
    have hall := (happend []).mpr List.Pairwise.nil
    rw [List.append_nil] at hall
    simpa using hall
  | some t =>
    rw [Option.toList_some, nameBlock_snoc, happend]
    cases hpop : popAfter prog (heldAfter prog held body) t with
    | none => simp [EndsLast, hpop]
    | some n => simp [EndsLast, hpop]

/-! ### The graph of the IR -/

theorem buildIr_block {i : ℕ} {r : Block} (hr : (buildIr lift prog f).blocks[i]? = some r) :
    ∃ w, (rawBlocks lift prog f)[i]? = some w ∧ r.id = i ∧
      r.stmts = nameBlock prog ((entryImports lift prog f).getD i []) w.stmts ∧
      ∀ p, p ∈ r.pred ↔ ∃ v, (rawBlocks lift prog f)[p]? = some v ∧ i ∈ v.succ := by
  rw [buildIr_getElem?] at hr
  obtain ⟨w, hw, rfl⟩ := Option.map_eq_some_iff.mp hr
  have hid := rawBlocks_id hw
  refine ⟨w, hw, hid, rfl, fun p => ?_⟩
  dsimp only
  rw [hid]
  constructor
  · intro hp
    obtain ⟨v, hv, hmem⟩ := List.mem_flatMap.mp hp
    obtain ⟨x, hx, rfl⟩ := List.mem_map.mp hmem
    obtain ⟨hx, hxi⟩ := List.mem_filter.mp hx
    obtain ⟨q, hq⟩ := List.mem_iff_getElem?.mp hv
    exact ⟨v, by rwa [rawBlocks_id hq], beq_iff_eq.mp hxi ▸ hx⟩
  · rintro ⟨v, hv, hiv⟩
    have hi : i ∈ v.succ.filter (· == i) := List.mem_filter.mpr ⟨hiv, beq_self_eq_true i⟩
    exact List.mem_flatMap.mpr ⟨v, List.mem_of_getElem? hv,
      List.mem_map.mpr ⟨i, hi, rawBlocks_id hv⟩⟩

/-- Of a recovered function the builder yields what the passes after it rely on, exactly when
no statement names a value and no pop is owed after the terminator of a block. -/
theorem buildIr_lowerable_iff (hf : f.Recovered) (hentry : f.Starts f.entry) :
    (buildIr lift prog f).Lowerable ↔ (buildIr lift prog f).PreSsa ∧
      ∀ (i : ℕ) (b : BasicBlock), f.blocks[i]? = some b →
        ∀ t ∈ (endOf lift prog f i).last, t.isControl = true →
          popAfter prog (heldAtEnd lift prog f i) t = none := by
  set ir := buildIr lift prog f with hir
  -- of the conditions only the last one on the blocks depends on the pops
  have hreal : ∀ {i : ℕ} {b : BasicBlock}, f.blocks[i]? = some b →
      ∃ r, ir.blocks[i]? = some r ∧ r.addr = b.start ∧ (EndsLast r.stmts ↔
        ∀ t ∈ (endOf lift prog f i).last, t.isControl = true →
          popAfter prog (heldAtEnd lift prog f i) t = none) := by
    intro i b hb
    refine ⟨_, by rw [hir, buildIr_getElem?, rawBlocks_real hb]; rfl, rfl, ?_⟩
    exact endsLast_nameBlock bodyOf_not_control
  constructor
  · intro h
    refine ⟨h.preSsa, fun i b hb => ?_⟩
    obtain ⟨r, hr, -, hends⟩ := hreal hb
    exact hends.mp (h.ends r (List.mem_of_getElem? hr))
  · rintro ⟨hpre, hpops⟩
    have hlt : ∀ {i : ℕ} {w : Block}, (rawBlocks lift prog f)[i]? = some w →
        (∀ q ∈ w.succ, q < ir.blocks.length) ∧ ∀ s ∈ w.stmts, ∀ q ∈ s.gotos, q ∈ w.succ := by
      intro i w hw
      rcases rawBlocks_cases hw with ⟨b, hb, rfl⟩ | ⟨t, rfl⟩
      · obtain ⟨last, hlast, -⟩ := hf.ends b (List.mem_of_getElem? hb)
        refine ⟨fun q hq => buildIr_length ▸ succ_lt hb hlast q hq, fun s hs q hq => ?_⟩
        rcases List.mem_append.mp hs with hs | hs
        · have hnot := bodyOf_not_control s hs
          have hnil : s.gotos = [] := by cases s <;> first | rfl | cases hnot
          rw [hnil] at hq
          cases hq
        · rw [endOf_eq hb hlast] at hs ⊢
          exact leadsIn_blockEnd s (Option.mem_toList.mp hs) q hq
      · simp [Stmt.gotos]
    have hsucc : ∀ i j, j ∈ (ir.block i).succ ↔
        ∃ v, (rawBlocks lift prog f)[i]? = some v ∧ j ∈ v.succ := by
      intro i j
      rw [IrFunction.block, List.getD_eq_getElem?_getD, hir, buildIr_getElem?]
      cases (rawBlocks lift prog f)[i]? <;> simp [show (default : Block).succ = [] from rfl]
    refine ⟨⟨fun i r hr => ?_, fun i j => ?_⟩, hpre, ?_, ?_, ?_⟩
    · obtain ⟨w, -, hid, -⟩ := buildIr_block hr
      exact hid
    · rw [hsucc]
      by_cases hj : j < ir.blocks.length
      · obtain ⟨-, -, -, -, hpred⟩ := buildIr_block (IrFunction.getElem?_block hj)
        exact (hpred i).symm
      · rw [IrFunction.block_of_le (Nat.le_of_not_lt hj)]
        refine iff_of_false ?_ List.not_mem_nil
        rintro ⟨v, hv, hjv⟩
        exact hj ((hlt hv).1 j hjv)
    · intro r hr
      obtain ⟨i, hi⟩ := List.mem_iff_getElem?.mp hr
      obtain ⟨w, hw, -, hstmts, -⟩ := buildIr_block hi
      rcases rawBlocks_cases hw with ⟨b, hb, rfl⟩ | ⟨t, rfl⟩
      · rw [hstmts]
        exact (endsLast_nameBlock bodyOf_not_control).mpr (hpops i b hb)
      · obtain ⟨body, t, heq, hbody, -⟩ := wellTerminated_synth hw hi
        rw [heq, EndsLast, List.pairwise_append]
        exact ⟨List.pairwise_of_forall_mem_list fun s hs _ _ => hbody s hs,
          List.pairwise_singleton _ _, fun s hs _ _ => hbody s hs⟩
    · intro r hr s hs q hq
      obtain ⟨i, hi⟩ := List.mem_iff_getElem?.mp hr
      obtain ⟨w, hw, -, hstmts, -⟩ := buildIr_block hi
      have hmem : q ∈ w.stmts.flatMap Stmt.gotos := by
        rw [← gotos_nameBlock, ← hstmts]
        exact List.mem_flatMap_of_mem hs hq
      obtain ⟨t, ht, hqt⟩ := List.mem_flatMap.mp hmem
      exact (hlt hw).1 q ((hlt hw).2 t ht q hqt)
    · obtain ⟨b, hb, haddr⟩ := hentry
      obtain ⟨i, hi⟩ := List.mem_iff_getElem?.mp hb
      obtain ⟨r, hr, hstart, -⟩ := hreal hi
      exact ⟨r, List.mem_of_getElem? hr, hstart.trans haddr⟩

theorem buildIr_lowerable_tailJcc :
    (buildIr nopLifter plainProgram tailJccFunction).Lowerable :=
  (buildIr_lowerable_iff (buildFunction_recovered buildFunction_tailJcc)
    ⟨_, List.mem_cons_self, rfl⟩).mpr ⟨by decide, fun _ _ _ _ _ _ => rfl⟩

end

/-! ### The passes in a row -/

theorem length_le_toSsa {f : IrFunction} (h : f.Lowerable) (sharedStack : Bool) :
    f.blocks.length ≤ (toSsa sharedStack f).blocks.length := by
  have hlen : (toSsa sharedStack f).blocks.length = (splitEntry f).blocks.length := by
    rw [h.toSsa_eq]
    simp [constructSsa]
  rw [hlen]
  by_cases hpred : (f.block f.entryIndex).pred = []
  · rw [splitEntry_of_pred_nil hpred]
  · rw [splitEntry_length hpred]
    exact Nat.le_succ _

/-- The optimiser ends on the SSA form of `f`, what it ends with can be taken out of SSA form,
no phi is left, and the outcome shows what `f` shows: the same blocks of `f` in the same order,
the same stores, calls and decisions, and the same end. -/
theorem lowered_shows {f : IrFunction} (h : f.Lowerable) (hfound : f.PreheaderFound)
    (sharedStack : Bool) (hid : (toSsa sharedStack f).nextValue ≤ 4294967295) :
    ∃ rounds g g', (∀ fuel, rounds ≤ fuel → optimizeLoop? fuel 8 (toSsa sharedStack f) = some g) ∧
      destructSsa g = some g' ∧ (∀ b ∈ g'.blocks, b.phis = []) ∧
      ∀ fuel, rounds ≤ fuel → ∀ (W : WordMeaning) (ρ ρ' : W.interp.Store) (mem : W.Mem),
        W.interp.QuietHelpers → Seeded (toSsa sharedStack f) ρ ρ' →
        LoopKept W f.blocks.length ρ' mem fuel 8 (toSsa sharedStack f) →
          ShowsLike W.interp f.blocks.length f g' ρ ρ' mem := by
  have hform : (toSsa sharedStack f).SsaForm := by
    rw [h.toSsa_eq] at hid ⊢
    exact (h.entryOk hfound).ssaForm (splitEntry_preSsa h.preSsa h.ne_nil)
      (counter_le_nextValue.trans hid)
  obtain ⟨n, g, hloop⟩ := optimizeLoop_shows 8 hform
  obtain ⟨m, htrims⟩ := optimizeLoop_trims 8 hform
  have ht : Trims (toSsa sharedStack f) g :=
    htrims (max n m) (le_max_right n m) g (hloop (max n m) (le_max_left n m)).1
  obtain ⟨lab, R, hweb, -, hcan⟩ := h.web_of_trims ht
  obtain ⟨g', hdestruct, hphis, hsame⟩ := hweb.destruct_le
  refine ⟨n, g, g', fun fuel hfuel => (hloop fuel hfuel).1, hdestruct, hphis, ?_⟩
  intro fuel hfuel W ρ ρ' mem hquiet hseed hkept
  have hssa : ShowsLike W.interp f.blocks.length f (toSsa sharedStack f) ρ ρ' mem :=
    (ssaPreserved_of_found h.graph h.preSsa h.entry_ne_synthAddr sharedStack hfound W.interp ρ ρ'
      mem hseed).map_view Interp.World.shown
  have hopt := (hloop fuel hfuel).2 W f.blocks.length ρ' mem hquiet hkept
  have hle : f.blocks.length ≤ g.blocks.length := ht.length ▸ length_le_toSsa h sharedStack
  have hout : ShowsLike W.interp f.blocks.length g g' ρ' ρ' mem :=
    (hsame (hcan hfound) _ hle W.interp ρ' mem).map_view Interp.World.shown
  exact (hssa.trans hopt).trans hout

/-- The entry values of the SSA form of `swapLoop`, which holds them in the values 0, 1, 2 and 9. -/
def swapStore (ρ : resultChannel.interp.Store) : resultChannel.interp.Store where
  val v := ρ.loc (if v = 0 then .temp 0 else if v = 1 then .reg 1 else if v = 2 then .reg 2
    else .reg 0)
  loc := ρ.loc

theorem lowered_shows_swapLoop :
    ∃ g g' fuel, optimizeLoop? fuel 8 (toSsa false swapLoop) = some g ∧ destructSsa g = some g' ∧
      (∀ b ∈ g'.blocks, b.phis = []) ∧ ∀ (ρ : resultChannel.interp.Store) (mem : Bool),
        ShowsLike resultChannel.interp swapLoop.blocks.length swapLoop g' ρ (swapStore ρ) mem := by
  obtain ⟨rounds, g, g', hloop, hdestruct, hphis, hshows⟩ := lowered_shows (f := swapLoop)
    ⟨by decide, by decide, by decide, by decide, ⟨_, List.mem_cons_self, rfl⟩⟩ (.inl rfl) false
    (by decide)
  have hfuel := Nat.le_add_right rounds 8
  refine ⟨g, g', rounds + 8, hloop _ hfuel, hdestruct, hphis, fun ρ mem => ?_⟩
  refine hshows _ hfuel _ ρ (swapStore ρ) mem resultChannel_quiet ⟨?_, fun _ _ => rfl⟩ ?_
  · have hentry : (toSsa false swapLoop).entryValues =
        [(.temp 0, 0), (.reg 1, 1), (.reg 2, 2), (.reg 0, 9)] := by decide
    rw [hentry]
    simp [swapStore]
  · -- copies go in two rounds, and the third one changes nothing
    refine loopKept_succ rfl (by decide) fun _ => loopKept_succ rfl (by decide) fun _ => ?_
    exact loopKept_succ rfl (by decide) fun hmore => absurd hmore (by decide)

end Aret
