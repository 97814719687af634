/-
The chains cover every block once.
-/
import Aret.Dataflow

namespace Aret
namespace Dataflow

section
variable {succ : List (List ℕ)} {keepAll : ℕ → Bool}

/-! ### Lone edges -/

theorem mergeable_some {b u : ℕ} (h : mergeable succ keepAll b = some u) :
    keepAll b = false ∧ keepAll u = false ∧ succ.getD b [] = [u] ∧ u ≠ b ∧
      succ.flatten.count u = 1 := by
  rw [mergeable] at h
  split_ifs at h with hb
  split at h
  · rename_i w hw
    split_ifs at h with hcond
    obtain rfl := Option.some.inj h
    simp only [Bool.and_eq_true, decide_eq_true_eq, beq_iff_eq, Bool.not_eq_true'] at hcond
    exact ⟨Bool.eq_false_iff.mpr hb, hcond.2, hw, hcond.1.1, hcond.1.2⟩
  · cases h

theorem mem_predsOf {b u : ℕ} : b ∈ predsOf succ u ↔ u ∈ succ.getD b [] := by
  rw [predsOf]
  simp only [List.mem_flatMap, List.mem_range, List.mem_map, List.mem_filter, beq_iff_eq]
  constructor
  · rintro ⟨i, hi, t, ⟨ht, rfl⟩, rfl⟩
    exact ht
  · intro hu
    refine ⟨b, ?_, u, ⟨hu, rfl⟩, rfl⟩
    by_contra hlt
    rw [List.getD_eq_getElem?_getD, List.getElem?_eq_none (Nat.le_of_not_lt hlt)] at hu
    cases hu

theorem length_predsOf (u : ℕ) : (predsOf succ u).length = succ.flatten.count u := by
  have hrange : (List.range succ.length).map (fun i => succ.getD i []) = succ := by
    refine List.ext_getElem (by simp) fun i hi hi' => ?_
    simp [List.getElem?_eq_getElem hi']
  rw [predsOf, List.length_flatMap, List.count_flatten]
  conv_rhs => rw [← hrange]
  rw [List.map_map]
  refine congrArg List.sum (List.map_congr_left fun i _ => ?_)
  rw [List.length_map, Function.comp_apply, List.count_eq_length_filter]

theorem mergeable_edge {b u : ℕ} (h : mergeable succ keepAll b = some u) :
    succ.getD b [] = [u] ∧ predsOf succ u = [b] := by
  obtain ⟨-, -, hsucc, -, hcount⟩ := mergeable_some h
  have hmem : b ∈ predsOf succ u := mem_predsOf.mpr (hsucc ▸ List.mem_singleton_self u)
  have hlen : (predsOf succ u).length = 1 := (length_predsOf u).trans hcount
  obtain ⟨p, hp⟩ := List.length_eq_one_iff.mp hlen
  rw [hp] at hmem
  refine ⟨hsucc, ?_⟩
  rw [hp, List.mem_singleton.mp hmem]

/-! ### One chain -/

abbrev Joined (succ : List (List ℕ)) (keepAll : ℕ → Bool) (b u : ℕ) : Prop :=
  mergeable succ keepAll b = some u

theorem growFrom_covered (fuel cur : ℕ) (covered : List ℕ) :
    (growFrom succ keepAll fuel cur covered).2
      = (growFrom succ keepAll fuel cur covered).1.reverse ++ covered := by
  induction fuel generalizing cur covered with
  | zero => rfl
  | succ fuel ih =>
    rw [growFrom]
    split
    · rfl
    · rename_i u _
      split_ifs
      · rfl
      · dsimp only
        rw [ih u (u :: covered), List.reverse_cons, List.append_assoc]
        rfl

theorem growFrom_joined (fuel cur : ℕ) (covered : List ℕ) :
    List.IsChain (Joined succ keepAll) (cur :: (growFrom succ keepAll fuel cur covered).1) := by
  induction fuel generalizing cur covered with
  | zero => exact .singleton cur
  | succ fuel ih =>
    rw [growFrom]
    split
    · exact .singleton cur
    · rename_i u hu
      split_ifs
      · exact .singleton cur
      · exact .cons_cons hu (ih u (u :: covered))

theorem growFrom_nodup (fuel cur : ℕ) {covered : List ℕ} (h : covered.Nodup) :
    (growFrom succ keepAll fuel cur covered).2.Nodup := by
  induction fuel generalizing cur covered with
  | zero => exact h
  | succ fuel ih =>
    rw [growFrom]
    split
    · exact h
    · rename_i u _
      split_ifs with hu
      · exact h
      · exact ih u (List.nodup_cons.mpr ⟨hu, h⟩)

theorem growFrom_lt (hsucc : ∀ b, ∀ u ∈ succ.getD b [], u < succ.length) (fuel cur : ℕ)
    {covered : List ℕ} (h : ∀ v ∈ covered, v < succ.length) :
    ∀ v ∈ (growFrom succ keepAll fuel cur covered).2, v < succ.length := by
  induction fuel generalizing cur covered with
  | zero => exact h
  | succ fuel ih =>
    rw [growFrom]
    split
    · exact h
    · rename_i u hu
      split_ifs
      · exact h
      · have hlt : u < succ.length := by
          refine hsucc cur u ?_
          rw [(mergeable_some hu).2.2.1]
          exact List.mem_singleton_self u
        exact ih u (List.forall_mem_cons.mpr ⟨hlt, h⟩)

/-! ### All chains -/

/-- What holds while chains are built, of the chains so far and the blocks covered. -/
structure Seeded (succ : List (List ℕ)) (keepAll : ℕ → Bool) (st : List (List ℕ) × List ℕ) :
    Prop where
  perm : st.1.flatten.Perm st.2
  nodup : st.2.Nodup
  lt : ∀ v ∈ st.2, v < succ.length
  joined : ∀ c ∈ st.1, List.IsChain (Joined succ keepAll) c

theorem Seeded.start : Seeded succ keepAll ([], []) :=
  ⟨.refl [], .nil, nofun, nofun⟩

theorem Seeded.seed (hsucc : ∀ b, ∀ u ∈ succ.getD b [], u < succ.length)
    {st : List (List ℕ) × List ℕ} (h : Seeded succ keepAll st) (heads : ℕ → Bool) {i : ℕ}
    (hi : i < succ.length) : Seeded succ keepAll (seed succ keepAll heads st i) := by
  rw [Dataflow.seed]
  split_ifs with hcond
  · have hnew : i ∉ st.2 := by
      rw [Bool.and_eq_true, decide_eq_true_eq] at hcond
      exact hcond.2
    have hcov : (growFrom succ keepAll succ.length i (i :: st.2)).2
        = (growFrom succ keepAll succ.length i (i :: st.2)).1.reverse ++ (i :: st.2) :=
      growFrom_covered _ _ _
    have hnodup : (growFrom succ keepAll succ.length i (i :: st.2)).2.Nodup :=
      growFrom_nodup _ _ (List.nodup_cons.mpr ⟨hnew, h.nodup⟩)
    have hlt : ∀ v ∈ (growFrom succ keepAll succ.length i (i :: st.2)).2, v < succ.length :=
      growFrom_lt hsucc _ _ (List.forall_mem_cons.mpr ⟨hi, h.lt⟩)
    refine ⟨?_, hnodup, hlt, ?_⟩
    · show (st.1 ++ [i :: (growFrom succ keepAll succ.length i (i :: st.2)).1]).flatten.Perm
        (growFrom succ keepAll succ.length i (i :: st.2)).2
      rw [hcov, List.flatten_append, List.flatten_singleton]
      have hback := (List.reverse_perm (growFrom succ keepAll succ.length i (i :: st.2)).1).symm
      -- Both hold the new chain and what was covered.
      exact (List.perm_append_comm.trans (List.perm_middle.symm.trans (hback.append
        (h.perm.cons i))))
    · intro c hc
      rcases List.mem_append.mp hc with hc | hc
      · exact h.joined c hc
      · obtain rfl := List.mem_singleton.mp hc
        exact growFrom_joined _ _ _
  · exact h

theorem subset_seed (heads : ℕ → Bool) (st : List (List ℕ) × List ℕ) (i : ℕ) :
    st.2 ⊆ (seed succ keepAll heads st i).2 := by
  rw [seed]
  split_ifs
  · intro v hv
    rw [grow, growFrom_covered]
    exact List.mem_append_right _ (List.mem_cons_of_mem _ hv)
  · exact fun v hv => hv

theorem mem_seed {heads : ℕ → Bool} (st : List (List ℕ) × List ℕ) {i : ℕ} (hi : heads i = true) :
    i ∈ (seed succ keepAll heads st i).2 := by
  rw [seed]
  split_ifs with hcond
  · rw [grow, growFrom_covered]
    exact List.mem_append_right _ List.mem_cons_self
  · rw [hi, Bool.true_and, decide_eq_true_eq, not_not] at hcond
    exact hcond

theorem Seeded.foldl (hsucc : ∀ b, ∀ u ∈ succ.getD b [], u < succ.length) (heads : ℕ → Bool)
    {blocks : List ℕ} (hblocks : ∀ i ∈ blocks, i < succ.length) {st : List (List ℕ) × List ℕ}
    (h : Seeded succ keepAll st) :
    Seeded succ keepAll (blocks.foldl (Dataflow.seed succ keepAll heads) st) ∧
      st.2 ⊆ (blocks.foldl (Dataflow.seed succ keepAll heads) st).2 ∧
      ∀ i ∈ blocks, heads i = true →
        i ∈ (blocks.foldl (Dataflow.seed succ keepAll heads) st).2 := by
  induction blocks generalizing st with
  | nil => exact ⟨h, fun v hv => hv, nofun⟩
  | cons i blocks ih =>
    obtain ⟨hi, hblocks⟩ := List.forall_mem_cons.mp hblocks
    obtain ⟨hseeded, hsub, hheads⟩ := ih hblocks (h.seed hsucc heads hi)
    refine ⟨hseeded, fun v hv => hsub (subset_seed heads st i hv), ?_⟩
    refine List.forall_mem_cons.mpr ⟨fun hhead => hsub (mem_seed st hhead), hheads⟩

variable (keepAll) in
theorem chains_seeded (hsucc : ∀ b, ∀ u ∈ succ.getD b [], u < succ.length) :
    ∃ covered, Seeded succ keepAll (chains succ keepAll, covered) ∧
      ∀ i < succ.length, i ∈ covered := by
  have hrange : ∀ i ∈ List.range succ.length, i < succ.length := fun i => List.mem_range.mp
  have hstart : Seeded succ keepAll ([], []) := .start
  have hfirst := Seeded.foldl hsucc (fun i => !isContinuation succ keepAll i) hrange hstart
  have hsecond := Seeded.foldl hsucc (fun _ => true) hrange hfirst.1
  exact ⟨_, hsecond.1, fun i hi => hsecond.2.2 i (List.mem_range.mpr hi) rfl⟩

theorem chains_perm (hsucc : ∀ b, ∀ u ∈ succ.getD b [], u < succ.length) :
    (chains succ keepAll).flatten.Perm (List.range succ.length) := by
  obtain ⟨covered, h, hall⟩ := chains_seeded keepAll hsucc
  refine h.perm.trans ?_
  refine (List.perm_ext_iff_of_nodup h.nodup List.nodup_range).mpr fun v => ?_
  rw [List.mem_range]
  exact ⟨h.lt v, hall v⟩

theorem chains_joined (hsucc : ∀ b, ∀ u ∈ succ.getD b [], u < succ.length) :
    ∀ c ∈ chains succ keepAll,
      List.IsChain (fun b u => succ.getD b [] = [u] ∧ predsOf succ u = [b]) c := by
  intro c hc
  obtain ⟨covered, h, -⟩ := chains_seeded keepAll hsucc
  exact (h.joined c hc).imp fun b u hbu => mergeable_edge hbu

end

end Dataflow
end Aret
