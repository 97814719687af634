/-
Where phis are placed.
-/
import Aret.Ssa

namespace Aret

private theorem nodup_snoc {α : Type} {xs : List α} {x : α} (h : xs.Nodup) (hx : x ∉ xs) :
    (xs ++ [x]).Nodup := by
  rw [← List.concat_eq_append]
  exact h.concat hx

/-! ### The worklist -/

section
variable {n : ℕ} {df : ℕ → List ℕ} {sites : List ℕ}

/-- The blocks with a phi are distinct frontier nodes, and the frontier of a
definition site or of one of them has been seen to unless it is still on the
worklist. -/
private structure Placing (df : ℕ → List ℕ) (sites hasPhi work : List ℕ) : Prop where
  nodup : hasPhi.Nodup
  front : ∀ d ∈ hasPhi, ∃ b, d ∈ df b
  done : ∀ b, b ∈ sites ∨ b ∈ hasPhi → b ∈ work ∨ ∀ d ∈ df b, d ∈ hasPhi

private theorem Placing.length_le {hasPhi work : List ℕ} (h : Placing df sites hasPhi work)
    (hdf : ∀ b, ∀ d ∈ df b, d < n) : hasPhi.length ≤ n := by
  have hsub : hasPhi ⊆ List.range n := by
    intro d hd
    obtain ⟨b, hb⟩ := h.front d hd
    exact List.mem_range.mpr (hdf b d hb)
  simpa using (h.nodup.subperm hsub).length_le

private theorem Placing.at {b d : ℕ} {st : List ℕ × List ℕ}
    (h : Placing df sites st.1 (b :: st.2)) (hd : d ∈ df b) :
    Placing df sites (placeAt sites st d).1 (b :: (placeAt sites st d).2) ∧
      d ∈ (placeAt sites st d).1 ∧ (∀ c ∈ st.1, c ∈ (placeAt sites st d).1) ∧
      (placeAt sites st d).2.length + st.1.length ≤ st.2.length + (placeAt sites st d).1.length := by
  rw [placeAt]
  split_ifs with hmem hsite
  · exact ⟨h, hmem, fun c hc => hc, le_rfl⟩
  · refine ⟨⟨?_, ?_, ?_⟩, by simp, fun c hc => by simp [hc], by simp⟩
    · exact nodup_snoc h.nodup hmem
    · intro c hc
      rcases List.mem_append.mp hc with hc | hc
      · exact h.front c hc
      · exact ⟨b, List.mem_singleton.mp hc ▸ hd⟩
    · intro c hc
      -- `d` is a definition site, so it was on the worklist from the start
      have hc' : c ∈ sites ∨ c ∈ st.1 := by
        rcases hc with hc | hc
        · exact .inl hc
        · rcases List.mem_append.mp hc with hc | hc
          · exact .inr hc
          · exact .inl (List.mem_singleton.mp hc ▸ hsite)
      refine (h.done c hc').imp_right fun hdf e he => ?_
      exact List.mem_append_left _ (hdf e he)
  · refine ⟨⟨?_, ?_, ?_⟩, by simp, fun c hc => by simp [hc], by simp; omega⟩
    · exact nodup_snoc h.nodup hmem
    · intro c hc
      rcases List.mem_append.mp hc with hc | hc
      · exact h.front c hc
      · exact ⟨b, List.mem_singleton.mp hc ▸ hd⟩
    · intro c hc
      by_cases hcd : c = d
      · exact .inl (by simp [hcd])
      · have hc' : c ∈ sites ∨ c ∈ st.1 :=
          hc.imp_right fun hc => (List.mem_append.mp hc).resolve_right (by simpa using hcd)
        rcases h.done c hc' with hw | hdf
        · refine .inl ?_
          rcases List.mem_cons.mp hw with rfl | hw
          · exact List.mem_cons_self
          · exact List.mem_cons_of_mem _ (List.mem_cons_of_mem _ hw)
        · exact .inr fun e he => List.mem_append_left _ (hdf e he)

private theorem Placing.foldl {b : ℕ} {ds : List ℕ} {st : List ℕ × List ℕ}
    (h : Placing df sites st.1 (b :: st.2)) (hds : ∀ d ∈ ds, d ∈ df b) :
    Placing df sites (ds.foldl (placeAt sites) st).1 (b :: (ds.foldl (placeAt sites) st).2) ∧
      (∀ d ∈ ds, d ∈ (ds.foldl (placeAt sites) st).1) ∧
      (∀ c ∈ st.1, c ∈ (ds.foldl (placeAt sites) st).1) ∧
      (ds.foldl (placeAt sites) st).2.length + st.1.length
        ≤ st.2.length + (ds.foldl (placeAt sites) st).1.length := by
  induction ds generalizing st with
  | nil => exact ⟨h, by simp, fun c hc => hc, le_rfl⟩
  | cons d ds ih =>
    obtain ⟨hat, hd, hmono, hlen⟩ := h.at (hds d List.mem_cons_self)
    obtain ⟨hfold, hall, hmono', hlen'⟩ := ih hat fun e he => hds e (List.mem_cons_of_mem _ he)
    rw [List.foldl_cons]
    refine ⟨hfold, fun e he => ?_, fun c hc => hmono' c (hmono c hc), by omega⟩
    rcases List.mem_cons.mp he with rfl | he
    · exact hmono' e hd
    · exact hall e he

private theorem Placing.loop (hdf : ∀ b, ∀ d ∈ df b, d < n) {fuel : ℕ} {hasPhi work : List ℕ}
    (h : Placing df sites hasPhi work) (hfuel : work.length + (n - hasPhi.length) ≤ fuel) :
    Placing df sites (placeLoop df sites fuel hasPhi work) [] := by
  induction fuel generalizing hasPhi work with
  | zero =>
    obtain rfl : work = [] := List.length_eq_zero_iff.mp (by omega)
    exact h
  | succ fuel ih =>
    cases work with
    | nil => exact h
    | cons b work =>
      have hpair : Placing df sites (hasPhi, work).1 (b :: (hasPhi, work).2) := h
      obtain ⟨hfold, hall, -, hlen⟩ := hpair.foldl fun d hd => hd
      rw [placeLoop]
      refine ih ⟨hfold.nodup, hfold.front, fun c hc => ?_⟩ ?_
      · rcases hfold.done c hc with hw | hdf
        · rcases List.mem_cons.mp hw with rfl | hw
          · exact .inr hall
          · exact .inl hw
        · exact .inr hdf
      · have h1 := hfold.length_le hdf
        have h2 := h.length_le hdf
        simp only [List.length_cons] at hfuel
        dsimp only at hlen
        omega

private theorem placing_placePhis (hdf : ∀ b, ∀ d ∈ df b, d < n) :
    Placing df sites (placePhis n df sites) [] := by
  have hstart : Placing df sites [] sites.reverse :=
    ⟨List.nodup_nil, by simp, fun b hb => .inl (by simpa using hb)⟩
  exact hstart.loop hdf (by simp)

theorem placePhis_spec (hdf : ∀ b, ∀ d ∈ df b, d < n) :
    ∀ b, b ∈ sites ∨ b ∈ placePhis n df sites → ∀ d ∈ df b, d ∈ placePhis n df sites :=
  fun b hb => ((placing_placePhis hdf).done b hb).resolve_left (by simp)

theorem mem_frontier_of_placePhis (hdf : ∀ b, ∀ d ∈ df b, d < n) {d : ℕ}
    (hd : d ∈ placePhis n df sites) : ∃ b, d ∈ df b :=
  (placing_placePhis hdf).front d hd

end

/-! ### Definition sites -/

section
variable {l l' : Location} {b : ℕ} {S : List (Location × List ℕ)}

private theorem addSite_keys (b : ℕ) (S : List (Location × List ℕ)) (l : Location) :
    (addSite b S l).map Prod.fst
      = if l ∈ S.map Prod.fst then S.map Prod.fst else S.map Prod.fst ++ [l] := by
  induction S with
  | nil => rfl
  | cons p S ih =>
    obtain ⟨k, sites⟩ := p
    rw [addSite]
    by_cases hk : k = l
    · simp [hk]
    · rw [if_neg hk, List.map_cons, ih]
      by_cases hl : l ∈ S.map Prod.fst
      · simp [hl]
      · rw [if_neg hl, if_neg]
        · rfl
        · simpa [hl] using fun h => hk h.symm

private theorem addSite_mem : ∃ sites, (l, sites) ∈ addSite b S l ∧ b ∈ sites := by
  induction S with
  | nil => exact ⟨[b], by simp [addSite], by simp⟩
  | cons p S ih =>
    obtain ⟨k, sites⟩ := p
    rw [addSite]
    split_ifs with hk
    · exact ⟨sites ++ [b], by simp [hk], by simp⟩
    · obtain ⟨sites', hmem, hb⟩ := ih
      exact ⟨sites', List.mem_cons_of_mem _ hmem, hb⟩

private theorem addSite_mono {c : ℕ} {sites : List ℕ} (h : (l', sites) ∈ S) (hc : c ∈ sites) :
    ∃ sites', (l', sites') ∈ addSite b S l ∧ c ∈ sites' := by
  induction S with
  | nil => cases h
  | cons p S ih =>
    obtain ⟨k, ks⟩ := p
    rw [addSite]
    split_ifs with hk
    · rcases List.mem_cons.mp h with heq | h
      · obtain ⟨rfl, rfl⟩ := Prod.mk.inj heq
        exact ⟨sites ++ [b], List.mem_cons_self, List.mem_append_left _ hc⟩
      · exact ⟨sites, List.mem_cons_of_mem _ h, hc⟩
    · rcases List.mem_cons.mp h with heq | h
      · exact ⟨sites, heq ▸ List.mem_cons_self, hc⟩
      · obtain ⟨sites', hmem, hc'⟩ := ih h
        exact ⟨sites', List.mem_cons_of_mem _ hmem, hc'⟩

private theorem foldl_addSite_keys (ls : List Location) (h : (S.map Prod.fst).Nodup) :
    ((ls.foldl (addSite b) S).map Prod.fst).Nodup := by
  induction ls generalizing S with
  | nil => exact h
  | cons l ls ih =>
    refine ih ?_
    rw [addSite_keys]
    split_ifs with hl
    · exact h
    · exact nodup_snoc h hl

private theorem foldl_addSite_mono {c : ℕ} {sites : List ℕ} (ls : List Location)
    (h : (l', sites) ∈ S) (hc : c ∈ sites) :
    ∃ sites', (l', sites') ∈ ls.foldl (addSite b) S ∧ c ∈ sites' := by
  induction ls generalizing S sites with
  | nil => exact ⟨sites, h, hc⟩
  | cons l ls ih =>
    obtain ⟨sites', hmem, hc'⟩ := addSite_mono (b := b) (l := l) h hc
    exact ih hmem hc'

private theorem foldl_addSite_mem {ls : List Location} (hl : l ∈ ls) :
    ∃ sites, (l, sites) ∈ ls.foldl (addSite b) S ∧ b ∈ sites := by
  induction ls generalizing S with
  | nil => cases hl
  | cons k ls ih =>
    rcases List.mem_cons.mp hl with rfl | hl
    · obtain ⟨sites, hmem, hb⟩ := addSite_mem (l := l) (b := b) (S := S)
      exact foldl_addSite_mono ls hmem hb
    · exact ih hl

theorem defsites_nodup (blocks : List Block) : ((defsites blocks).map Prod.fst).Nodup := by
  rw [defsites]
  have hfold : ∀ (bs : List (Block × ℕ)) (S : List (Location × List ℕ)),
      (S.map Prod.fst).Nodup → ((bs.foldl (fun sites p =>
        (versionedSets p.1.stmts).foldl (addSite p.2) sites) S).map Prod.fst).Nodup := by
    intro bs
    induction bs with
    | nil => exact fun S hS => hS
    | cons p bs ih => exact fun S hS => ih _ (foldl_addSite_keys _ hS)
  exact hfold _ [] List.nodup_nil

theorem mem_defsites {blocks : List Block} {i : ℕ} {blk : Block} (hi : blocks[i]? = some blk)
    (hl : l ∈ versionedSets blk.stmts) : ∃ sites, (l, sites) ∈ defsites blocks ∧ i ∈ sites := by
  rw [defsites]
  have hfold : ∀ (bs : List (Block × ℕ)) (S : List (Location × List ℕ)),
      ((blk, i) ∈ bs ∨ ∃ sites, (l, sites) ∈ S ∧ i ∈ sites) →
      ∃ sites, (l, sites) ∈ bs.foldl (fun sites p =>
        (versionedSets p.1.stmts).foldl (addSite p.2) sites) S ∧ i ∈ sites := by
    intro bs
    induction bs with
    | nil => exact fun S hS => hS.resolve_left (by simp)
    | cons p bs ih =>
      intro S hS
      refine ih _ ?_
      rcases hS with hmem | ⟨sites, hmem, hc⟩
      · rcases List.mem_cons.mp hmem with rfl | hmem
        · exact .inr (foldl_addSite_mem hl)
        · exact .inl hmem
      · exact .inr (foldl_addSite_mono _ hmem hc)
  exact hfold _ [] (.inl (List.mem_zipIdx_iff_getElem?.mpr hi))

end

/-! ### Phis and definitions -/

namespace IrFunction

variable {f : IrFunction} {l : Location}

theorem block_of_getElem? {i : ℕ} {b : Block} (h : f.blocks[i]? = some b) : f.block i = b := by
  rw [block, List.getD_eq_getElem?_getD, h, Option.getD_some]

theorem block_of_le {i : ℕ} (h : f.blocks.length ≤ i) : f.block i = default := by
  rw [block, List.getD_eq_getElem?_getD, List.getElem?_eq_none h, Option.getD_none]

theorem getElem?_block {i : ℕ} (h : i < f.blocks.length) : f.blocks[i]? = some (f.block i) := by
  rw [block, List.getD_eq_getElem?_getD, List.getElem?_eq_getElem h, Option.getD_some]

theorem entryIndex_congr {g : IrFunction}
    (haddr : g.blocks.map Block.addr = f.blocks.map Block.addr) (hentry : g.entry = f.entry) :
    g.entryIndex = f.entryIndex := by
  have hfind : ∀ (bs : List Block) (a : ℕ), (bs.findIdx? fun b => b.addr == a)
      = (bs.map Block.addr).findIdx? (· == a) := by
    intro bs a
    rw [List.findIdx?_map]
    rfl
  rw [entryIndex, entryIndex, hfind, hfind, haddr, hentry]

theorem graphOk_iff : f.GraphOk ↔ ∀ i < f.blocks.length, (f.block i).id = i ∧
    (∀ j ∈ (f.block i).succ, i ∈ (f.block j).pred) ∧
    ∀ j ∈ (f.block i).pred, i ∈ (f.block j).succ := by
  constructor
  · intro h i hi
    exact ⟨h.id i _ (getElem?_block hi), fun j => (h.transpose i j).mp,
      fun j => (h.transpose j i).mpr⟩
  · intro h
    have hlt : ∀ {i j : ℕ}, j ∈ (f.block i).succ ∨ j ∈ (f.block i).pred → i < f.blocks.length := by
      intro i j hj
      by_contra hle
      rw [block_of_le (Nat.le_of_not_lt hle)] at hj
      rcases hj with hj | hj <;> cases hj
    refine ⟨?_, ?_⟩
    · intro i b hb
      rw [← block_of_getElem? hb]
      exact (h i (List.getElem?_eq_some_iff.mp hb).1).1
    · intro i j
      exact ⟨fun hj => (h i (hlt (.inl hj))).2.1 j hj, fun hi => (h j (hlt (.inr hi))).2.2 i hi⟩

instance : Decidable f.GraphOk := decidable_of_iff _ graphOk_iff.symm

instance : Decidable f.PreSsa :=
  inferInstanceAs (Decidable (∀ b ∈ f.blocks, ∀ s ∈ b.stmts, s.preSsa = true))

theorem frontier_lt (b d : ℕ) (hd : d ∈ f.frontier b) : d < f.blocks.length := by
  rw [frontier, dominanceFrontiers] at hd
  exact List.mem_range.mp (List.mem_filter.mp hd).1

/-- The locations with a phi in block `d`. -/
def phiVars (f : IrFunction) (d : ℕ) : List Location := (f.blankPhis d).map Phi.var

theorem mem_phiVars {d : ℕ} : l ∈ f.phiVars d ↔
    ∃ sites, (l, sites) ∈ defsites f.blocks ∧ d ∈ placePhis f.blocks.length f.frontier sites := by
  simp only [phiVars, blankPhis, initPhis, List.mem_map, List.mem_filterMap, Prod.exists]
  constructor
  · rintro ⟨φ, ⟨k, sites, hmem, hφ⟩, rfl⟩
    split_ifs at hφ with hd
    obtain rfl := Option.some.inj hφ
    exact ⟨sites, hmem, hd⟩
  · rintro ⟨sites, hmem, hd⟩
    exact ⟨_, ⟨l, sites, hmem, if_pos hd⟩, rfl⟩

theorem phiVars_nodup (d : ℕ) : (f.phiVars d).Nodup := by
  have hsub : ∀ S : List (Location × List ℕ),
      ((initPhis f.blocks.length f.frontier f.predOf S d).map Phi.var).Sublist
        (S.map Prod.fst) := by
    intro S
    induction S with
    | nil => exact List.Sublist.slnil
    | cons p S ih =>
      rw [initPhis, List.filterMap_cons]
      split_ifs
      · exact ih.cons_cons p.1
      · exact ih.cons p.1
  exact (hsub _).nodup (defsites_nodup f.blocks)

theorem blankPhis_length {d : ℕ} {φ : Phi} (h : φ ∈ f.blankPhis d) :
    φ.args.length = (f.predOf d).length := by
  rw [blankPhis, initPhis] at h
  obtain ⟨s, -, hφ⟩ := List.mem_filterMap.mp h
  split_ifs at hφ
  obtain rfl := Option.some.inj hφ
  simp

theorem two_le_of_mem_phiVars {d : ℕ} (h : l ∈ f.phiVars d) : 2 ≤ (f.predOf d).length := by
  obtain ⟨sites, -, hd⟩ := mem_phiVars.mp h
  obtain ⟨b, hb⟩ := mem_frontier_of_placePhis frontier_lt hd
  rw [frontier, dominanceFrontiers] at hb
  have hcond := (List.mem_filter.mp hb).2
  rw [Bool.and_eq_true, decide_eq_true_eq] at hcond
  exact hcond.1

/-- The graph facts the pass relies on: ids are indices, edges are listed at both
ends, and there is an entry block. -/
structure Rooted (f : IrFunction) : Prop where
  graph : f.GraphOk
  entry_lt : f.entryIndex < f.blocks.length

/-- Moreover, nothing leads back to the entry. -/
structure EntryOk (f : IrFunction) : Prop extends Rooted f where
  entry_pred : f.predOf f.entryIndex = []

def order (f : IrFunction) : List ℕ := reversePostorder f.blocks.length f.succOf f.entryIndex

theorem Rooted.isOrder (h : f.Rooted) :
    IsOrder f.blocks.length f.succOf f.entryIndex f.order :=
  reversePostorder_spec h.entry_lt

theorem Rooted.isDominators (h : f.Rooted) :
    IsDominators f.predOf f.entryIndex f.order f.idom :=
  dominators_isDominators h.entry_lt fun p v _ _ hv => (h.graph.transpose p v).mp hv

theorem Rooted.lt_of_mem_succ (h : f.Rooted) {p s : ℕ} (hs : s ∈ f.succOf p) :
    s < f.blocks.length := by
  by_contra hlt
  have hp := (h.graph.transpose p s).mp hs
  rw [block_of_le (Nat.le_of_not_lt hlt)] at hp
  cases hp

theorem EntryOk.ne_entry_of_mem_succ (h : f.EntryOk) {p s : ℕ} (hs : s ∈ f.succOf p) :
    s ≠ f.entryIndex := by
  rintro rfl
  have hp : p ∈ f.predOf f.entryIndex := (h.graph.transpose p _).mp hs
  rw [h.entry_pred] at hp
  cases hp

theorem Rooted.mem_order_of_succ (h : f.Rooted) {p s : ℕ} (hp : p ∈ f.order)
    (hs : s ∈ f.succOf p) : s ∈ f.order :=
  h.isOrder.closed p hp s hs (h.lt_of_mem_succ hs)

theorem EntryOk.phiVars_entry (h : f.EntryOk) : f.phiVars f.entryIndex = [] := by
  refine List.eq_nil_iff_forall_not_mem.mpr fun l hl => ?_
  have htwo := two_le_of_mem_phiVars hl
  rw [h.entry_pred] at htwo
  simp at htwo

theorem EntryOk.noPhi_between (h : f.EntryOk) {p s v stop : ℕ} (hp : p ∈ f.order)
    (hs : s ∈ f.succOf p) (hl : l ∉ f.phiVars s) (hstop : f.idom s = some stop)
    (hpv : ParentMap.Up f.idom p v) (hvs : ParentMap.Up f.idom v stop) (hne : v ≠ stop) :
    l ∉ versionedSets (f.block v).stmts ∧ l ∉ f.phiVars v := by
  have hdom := h.isDominators
  have hps : p ∈ f.predOf s := (h.graph.transpose p s).mp hs
  have hsr := h.mem_order_of_succ hp hs
  have hse := h.ne_entry_of_mem_succ hs
  have htwo : 2 ≤ (f.predOf s).length := by
    by_contra hlt
    -- with a single predecessor there is nothing in between
    have hone : f.predOf s = [p] := by
      obtain ⟨q, hq⟩ := List.length_eq_one_iff.mp
        (by have := List.length_pos_of_mem hps; omega : (f.predOf s).length = 1)
      rw [hq] at hps
      rw [hq, List.mem_singleton.mp hps]
    have hsp := hdom.idom_eq_of_single hsr hse hone hp
    obtain rfl : stop = p := Option.some.inj (hstop.symm.trans hsp)
    exact hne (hdom.tree.antisymm hvs hpv)
  have hfront : s ∈ f.frontier v :=
    mem_dominanceFrontiers hdom h.isOrder.lt h.isOrder.nodup htwo hstop hps hp hpv hvs hne
  constructor
  · intro hset
    have hv : v < f.blocks.length := by
      by_contra hlt
      rw [block_of_le (Nat.le_of_not_lt hlt)] at hset
      cases hset
    obtain ⟨sites, hmem, hvsites⟩ := mem_defsites (getElem?_block hv) hset
    exact hl (mem_phiVars.mpr ⟨sites, hmem, placePhis_spec frontier_lt v (.inl hvsites) s hfront⟩)
  · intro hphi
    obtain ⟨sites, hmem, hv⟩ := mem_phiVars.mp hphi
    exact hl (mem_phiVars.mpr ⟨sites, hmem, placePhis_spec frontier_lt v (.inr hv) s hfront⟩)

end IrFunction

end Aret
