/-
Liveness ends at a fixpoint.
-/
import Aret.Dataflow

namespace Aret
namespace Dataflow

section
variable (useDefs : List (Finset RegFamily × Finset RegFamily)) (succ : List (List ℕ))

def liveOutOf (ins : List (Finset RegFamily)) (i : ℕ) : Finset RegFamily :=
  (succ.getD i []).foldl (fun acc s => acc ∪ ins.getD s ∅) ∅

def liveInOf (out : Finset RegFamily) (i : ℕ) : Finset RegFamily :=
  (useDefs.getD i (∅, ∅)).1 ∪ (out \ (useDefs.getD i (∅, ∅)).2)

structure LiveFixed (st : Liveness) : Prop where
  outs : ∀ i < useDefs.length, st.outs.getD i ∅ = liveOutOf succ st.ins i
  ins : ∀ i < useDefs.length, st.ins.getD i ∅ = liveInOf useDefs (st.outs.getD i ∅) i

/-- No set is larger than the equations give. -/
structure LiveBelow (st : Liveness) : Prop where
  insLength : st.ins.length = useDefs.length
  outsLength : st.outs.length = useDefs.length
  outs : ∀ i, st.outs.getD i ∅ ⊆ liveOutOf succ st.ins i
  ins : ∀ i, st.ins.getD i ∅ ⊆ liveInOf useDefs (liveOutOf succ st.ins i) i

end

def Liveness.size (st : Liveness) : ℕ :=
  (st.ins.map Finset.card).sum + (st.outs.map Finset.card).sum

section
variable {useDefs : List (Finset RegFamily × Finset RegFamily)} {succ : List (List ℕ)}

theorem mem_liveOutOf {ins : List (Finset RegFamily)} {i : ℕ} {r : RegFamily} :
    r ∈ liveOutOf succ ins i ↔ ∃ s ∈ succ.getD i [], r ∈ ins.getD s ∅ := by
  have hfold : ∀ (l : List ℕ) (acc : Finset RegFamily),
      r ∈ l.foldl (fun acc s => acc ∪ ins.getD s ∅) acc ↔
        r ∈ acc ∨ ∃ s ∈ l, r ∈ ins.getD s ∅ := by
    intro l
    induction l with
    | nil => simp
    | cons s l ih =>
      intro acc
      rw [List.foldl_cons, ih, Finset.mem_union, List.exists_mem_cons_iff, or_assoc]
  rw [liveOutOf, hfold]
  simp

theorem liveOutOf_mono {ins ins' : List (Finset RegFamily)}
    (h : ∀ i, ins.getD i ∅ ⊆ ins'.getD i ∅) (i : ℕ) :
    liveOutOf succ ins i ⊆ liveOutOf succ ins' i := by
  intro r hr
  obtain ⟨s, hs, hrs⟩ := mem_liveOutOf.mp hr
  exact mem_liveOutOf.mpr ⟨s, hs, h s hrs⟩

theorem liveInOf_mono {out out' : Finset RegFamily} (h : out ⊆ out') (i : ℕ) :
    liveInOf useDefs out i ⊆ liveInOf useDefs out' i :=
  Finset.union_subset_union (Finset.Subset.refl _) (Finset.sdiff_subset_sdiff h
    (Finset.Subset.refl _))

theorem sum_card_set {l : List (Finset RegFamily)} {i : ℕ} {s : Finset RegFamily}
    (hi : i < l.length) : ((l.set i s).map Finset.card).sum + (l.getD i ∅).card
      = (l.map Finset.card).sum + s.card := by
  induction l generalizing i with
  | nil => cases hi
  | cons t l ih =>
    cases i with
    | zero =>
      simp only [List.set_cons_zero, List.map_cons, List.sum_cons, List.getD_cons_zero]
      omega
    | succ i =>
      have hrest := ih (Nat.lt_of_succ_lt_succ hi)
      simp only [List.set_cons_succ, List.map_cons, List.sum_cons, List.getD_cons_succ]
      omega

theorem getD_set {l : List (Finset RegFamily)} {i j : ℕ} {s : Finset RegFamily}
    (hi : i < l.length) : (l.set i s).getD j ∅ = if j = i then s else l.getD j ∅ := by
  rw [List.getD_eq_getElem?_getD, List.getD_eq_getElem?_getD, List.getElem?_set]
  by_cases hji : j = i
  · subst hji
    simp [hi]
  · rw [if_neg (Ne.symm hji), if_neg hji]

theorem LiveBelow.block {st : Liveness} (h : LiveBelow useDefs succ st) (changed : Bool) {i : ℕ}
    (hi : i < useDefs.length) :
    (liveBlock useDefs succ (st, changed) i = (st, changed) ∧
        st.outs.getD i ∅ = liveOutOf succ st.ins i ∧
        st.ins.getD i ∅ = liveInOf useDefs (st.outs.getD i ∅) i) ∨
      ∃ st', liveBlock useDefs succ (st, changed) i = (st', true) ∧ LiveBelow useDefs succ st' ∧
        st.size < st'.size := by
  set out := liveOutOf succ st.ins i with hout
  set lin := liveInOf useDefs out i with hlin
  have hstep : liveBlock useDefs succ (st, changed) i =
      if out ≠ st.outs.getD i ∅ ∨ lin ≠ st.ins.getD i ∅ then
        (⟨st.ins.set i lin, st.outs.set i out⟩, true)
      else (st, changed) := rfl
  by_cases hchange : out ≠ st.outs.getD i ∅ ∨ lin ≠ st.ins.getD i ∅
  · right
    have hiIns : i < st.ins.length := h.insLength ▸ hi
    have hiOuts : i < st.outs.length := h.outsLength ▸ hi
    have hgrows : ∀ j, st.ins.getD j ∅ ⊆ (st.ins.set i lin).getD j ∅ := by
      intro j
      rw [getD_set hiIns]
      split_ifs with hji
      · subst hji
        exact h.ins j
      · exact Finset.Subset.refl _
    refine ⟨⟨st.ins.set i lin, st.outs.set i out⟩, hstep.trans (if_pos hchange), ?_, ?_⟩
    · refine ⟨?_, ?_, fun j => ?_, fun j => ?_⟩
      · rw [List.length_set]
        exact h.insLength
      · rw [List.length_set]
        exact h.outsLength
      · refine Finset.Subset.trans ?_ (liveOutOf_mono hgrows j)
        show (st.outs.set i out).getD j ∅ ⊆ _
        rw [getD_set hiOuts]
        split_ifs with hji
        · subst hji
          exact Finset.Subset.refl _
        · exact h.outs j
      · refine Finset.Subset.trans ?_ (liveInOf_mono (liveOutOf_mono hgrows j) j)
        show (st.ins.set i lin).getD j ∅ ⊆ _
        rw [getD_set hiIns]
        split_ifs with hji
        · subst hji
          exact Finset.Subset.refl _
        · exact h.ins j
    · -- One of the two sets has a new element.
      have hins := sum_card_set (s := lin) hiIns
      have houts := sum_card_set (s := out) hiOuts
      have hle : (st.ins.getD i ∅).card ≤ lin.card := Finset.card_le_card (h.ins i)
      have hle' : (st.outs.getD i ∅).card ≤ out.card := Finset.card_le_card (h.outs i)
      have hlt : (st.ins.getD i ∅).card < lin.card ∨ (st.outs.getD i ∅).card < out.card := by
        rcases hchange with hne | hne
        · exact .inr (Finset.card_lt_card ⟨h.outs i, fun hsub =>
            hne (Finset.Subset.antisymm hsub (h.outs i))⟩)
        · exact .inl (Finset.card_lt_card ⟨h.ins i, fun hsub =>
            hne (Finset.Subset.antisymm hsub (h.ins i))⟩)
      show (st.ins.map Finset.card).sum + (st.outs.map Finset.card).sum <
        ((st.ins.set i lin).map Finset.card).sum + ((st.outs.set i out).map Finset.card).sum
      omega
  · left
    refine ⟨hstep.trans (if_neg hchange), ?_⟩
    rw [not_or, not_not, not_not] at hchange
    refine ⟨hchange.1.symm, ?_⟩
    rw [← hchange.1]
    exact hchange.2.symm

theorem LiveBelow.sweep {blocks : List ℕ} (hblocks : ∀ i ∈ blocks, i < useDefs.length)
    {st : Liveness} (h : LiveBelow useDefs succ st) (changed : Bool) :
    (blocks.foldl (liveBlock useDefs succ) (st, changed) = (st, changed) ∧
        ∀ i ∈ blocks, st.outs.getD i ∅ = liveOutOf succ st.ins i ∧
          st.ins.getD i ∅ = liveInOf useDefs (st.outs.getD i ∅) i) ∨
      ∃ st', blocks.foldl (liveBlock useDefs succ) (st, changed) = (st', true) ∧
        LiveBelow useDefs succ st' ∧ st.size < st'.size := by
  induction blocks generalizing st changed with
  | nil => exact .inl ⟨rfl, nofun⟩
  | cons i blocks ih =>
    obtain ⟨hi, hblocks⟩ := List.forall_mem_cons.mp hblocks
    rw [List.foldl_cons]
    rcases h.block changed hi with ⟨hsame, heqs⟩ | ⟨st₁, hstep, hbelow, hlt⟩
    · rw [hsame]
      rcases ih hblocks h changed with ⟨hrest, hall⟩ | hgrown
      · exact .inl ⟨hrest, List.forall_mem_cons.mpr ⟨heqs, hall⟩⟩
      · exact .inr hgrown
    · right
      rw [hstep]
      rcases ih hblocks hbelow true with ⟨hrest, -⟩ | ⟨st₂, hrest, hbelow₂, hlt₂⟩
      · exact ⟨st₁, hrest, hbelow, hlt⟩
      · exact ⟨st₂, hrest, hbelow₂, hlt.trans hlt₂⟩

theorem LiveBelow.size_le {st : Liveness} (h : LiveBelow useDefs succ st) :
    st.size ≤ 2 * (useDefs.length * Fintype.card RegFamily) := by
  have hsum : ∀ l : List (Finset RegFamily),
      (l.map Finset.card).sum ≤ l.length * Fintype.card RegFamily := by
    intro l
    have hle := List.sum_le_card_nsmul (l.map Finset.card) (Fintype.card RegFamily) fun c hc => by
      obtain ⟨s, -, rfl⟩ := List.mem_map.mp hc
      exact Finset.card_le_univ s
    rwa [List.length_map, smul_eq_mul] at hle
  have hins := hsum st.ins
  have houts := hsum st.outs
  rw [h.insLength] at hins
  rw [h.outsLength] at houts
  rw [Liveness.size]
  omega

theorem LiveBelow.ends {st : Liveness} (h : LiveBelow useDefs succ st) :
    ∃ rounds st', (∀ fuel, rounds ≤ fuel → liveSweeps? useDefs succ fuel st = some st') ∧
      LiveFixed useDefs succ st' := by
  induction hk : 2 * (useDefs.length * Fintype.card RegFamily) - st.size
    using Nat.strong_induction_on generalizing st with
  | _ k ih =>
    have hround : ∀ {fuel : ℕ}, 1 ≤ fuel → ∃ n, fuel = n + 1 := fun hle =>
      ⟨_, (Nat.sub_add_cancel hle).symm⟩
    have hrange : ∀ i ∈ (List.range useDefs.length).reverse, i < useDefs.length := fun i hi =>
      List.mem_range.mp (List.mem_reverse.mp hi)
    rcases h.sweep hrange false with ⟨hsame, hall⟩ | ⟨st₁, hstep, hbelow, hlt⟩
    · refine ⟨1, st, fun fuel hfuel => ?_, fun i hi => ?_, fun i hi => ?_⟩
      · obtain ⟨n, rfl⟩ := hround hfuel
        rw [liveSweeps?, liveSweep, hsame]
        rfl
      · exact (hall i (List.mem_reverse.mpr (List.mem_range.mpr hi))).1
      · exact (hall i (List.mem_reverse.mpr (List.mem_range.mpr hi))).2
    · have hle := hbelow.size_le
      obtain ⟨rounds, st', hends, hfixed⟩ := ih _ (by omega) hbelow rfl
      refine ⟨rounds + 1, st', fun fuel hfuel => ?_, hfixed⟩
      obtain ⟨n, rfl⟩ := hround (Nat.le_trans (Nat.le_add_left 1 rounds) hfuel)
      rw [liveSweeps?, liveSweep, hstep]
      exact hends n (by omega)

variable (useDefs succ) in
theorem liveness?_ends : ∃ rounds live,
    (∀ fuel, rounds ≤ fuel → liveness? useDefs succ fuel = some live) ∧
      LiveFixed useDefs succ live := by
  have hempty : ∀ i, (List.replicate useDefs.length (∅ : Finset RegFamily)).getD i ∅ = ∅ := by
    intro i
    rw [List.getD_eq_getElem?_getD, List.getElem?_replicate]
    split_ifs <;> rfl
  have hstart : LiveBelow useDefs succ
      ⟨List.replicate useDefs.length ∅, List.replicate useDefs.length ∅⟩ := by
    refine ⟨List.length_replicate, List.length_replicate, fun i => ?_, fun i => ?_⟩
    · rw [hempty i]
      exact Finset.empty_subset _
    · rw [hempty i]
      exact Finset.empty_subset _
  exact hstart.ends

end

end Dataflow
end Aret
