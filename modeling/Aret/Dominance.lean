/-
Dominance by paths, and parent maps that know it.

A node dominates another if every path from the root to that one passes through
it.  The iteration over a parent map starts with less than all dominators on no
chain: each move may only take nodes off a chain, and takes off none that
dominates.
-/
import Aret.ParentMap

namespace ParentMap

variable {α : Type} {E : α → α → Prop} {d : α → Option α} {r : α} {rank : α → ℕ}

/-- A path from `r`, with the nodes passed (the last one first). -/
inductive Path (E : α → α → Prop) (r : α) : List α → α → Prop
  | root : Path E r [r] r
  | step {l : List α} {u v : α} : Path E r l u → E u v → Path E r (v :: l) v

/-- Every path from `r` to `b` passes through `a`. -/
def Dominates (E : α → α → Prop) (r a b : α) : Prop := ∀ l, Path E r l b → a ∈ l

theorem Path.mem_last {l : List α} {v : α} (h : Path E r l v) : v ∈ l := by
  cases h <;> exact List.mem_cons_self

theorem Path.root_mem {l : List α} {v : α} (h : Path E r l v) : r ∈ l := by
  induction h with
  | root => exact List.mem_cons_self
  | step _ _ ih => exact List.mem_cons_of_mem _ ih

theorem Dominates.refl (a : α) : Dominates E r a a := fun _ h => h.mem_last

theorem Dominates.eq_root {a : α} (h : Dominates E r a r) : a = r :=
  List.mem_singleton.mp (h [r] .root)

theorem Dominates.before {a u v : α} (h : Dominates E r a v) (hne : a ≠ v) (huv : E u v) :
    Dominates E r a u := by
  intro l hl
  exact (List.mem_cons.mp (h (v :: l) (hl.step huv))).resolve_left hne

theorem Path.upTo {l : List α} {a v : α} (h : Path E r l v) (ha : a ∈ l) :
    ∃ l', Path E r l' a ∧ l' <:+ l ∧ (a ≠ v → l'.length < l.length) := by
  induction h with
  | root =>
    obtain rfl := List.mem_singleton.mp ha
    exact ⟨_, .root, List.suffix_refl _, fun hne => absurd rfl hne⟩
  | @step l u v hl huv ih =>
    rcases List.mem_cons.mp ha with rfl | ha
    · exact ⟨_, hl.step huv, List.suffix_refl _, fun hne => absurd rfl hne⟩
    · obtain ⟨l', hl', hsuffix, -⟩ := ih ha
      refine ⟨l', hl', hsuffix.trans (List.suffix_cons _ _), fun _ => ?_⟩
      exact Nat.lt_succ_of_le hsuffix.length_le

theorem Dominates.trans {a b c : α} (hab : Dominates E r a b) (hbc : Dominates E r b c) :
    Dominates E r a c := by
  intro l hl
  obtain ⟨l', hl', hsuffix, -⟩ := hl.upTo (hbc l hl)
  exact hsuffix.subset (hab l' hl')

theorem Dominates.antisymm {a b : α} {l : List α} (hab : Dominates E r a b)
    (hba : Dominates E r b a) (hl : Path E r l a) : a = b := by
  by_contra hne
  induction hn : l.length using Nat.strong_induction_on generalizing l with
  | _ n ih =>
    -- A shorter path to `a`, by way of `b`.
    obtain ⟨l', hl', -, hlt⟩ := hl.upTo (hba l hl)
    obtain ⟨l'', hl'', hsuffix, -⟩ := hl'.upTo (hab l' hl')
    have hle := hsuffix.length_le
    have hlt' := hlt fun hba' => hne hba'.symm
    exact ih l''.length (by omega) hl'' rfl

/-- What the chains of a parent map know of dominance. -/
structure Kept (E : α → α → Prop) (r : α) (d : α → Option α) : Prop where
  /-- A node that dominates is on the chain. -/
  complete : ∀ {v a}, (d v).isSome → Dominates E r a v → Up d v a
  /-- A node above the parent dominates the parent if it dominates the child. -/
  between : ∀ {v u a}, v ≠ r → d v = some u → Up d u a → Dominates E r a v → Dominates E r a u

theorem Kept.along (h : Kept E r d) (htree : IsTree d r rank) {v x a : α} (hvx : Up d v x)
    (hxa : Up d x a) (ha : Dominates E r a v) : Dominates E r a x := by
  induction hvx using Relation.ReflTransGen.head_induction_on with
  | refl => exact ha
  | @head v p hp hpx ih =>
    by_cases hvr : v = r
    · obtain rfl : p = v := by
        rw [hvr, htree.root] at hp
        rw [hvr, ← Option.some.inj hp]
      exact ih ha
    · exact ih (h.between hvr hp (Up.trans hpx hxa) ha)

theorem Kept.start [DecidableEq α] : Kept E r (Function.update (fun _ => none) r (some r)) := by
  refine ⟨fun {v a} hv ha => ?_, fun {v u a} hvr hv _ _ => ?_⟩
  · by_cases hvr : v = r
    · subst hvr
      rw [ha.eq_root]
      exact .refl v
    · rw [Function.update_of_ne hvr] at hv
      cases hv
  · rw [Function.update_of_ne hvr] at hv
    cases hv

theorem Kept.update [DecidableEq α] {preds : α → List α} {x e p₀ : α} (h : Kept E r d)
    (htree : IsTree d r rank) (hedge : ∀ p ∈ preds x, E p x) (hp₀ : Placed d preds x p₀)
    (he : IsMeet d (Placed d preds x) e) (hlt : rank e < rank x)
    (hup : ∀ o, d x = some o → Up d o e) :
    Kept E r (Function.update d x (some e)) := by
  have hex : ¬Up d e x := fun hex => by
    have := htree.rank_le hex
    omega
  -- What dominates the node moved is above the meet.
  have hself : ∀ {a}, Dominates E r a x → Up (Function.update d x (some e)) x a := by
    intro a ha
    by_cases hax : a = x
    · subst hax
      exact .refl a
    · refine .head (Function.update_self ..) ((up_update_of_not hex).mpr (he.nearest a ?_))
      exact fun p hp => h.complete hp.2 (ha.before hax (hedge p hp.1))
  have hplaced : ∀ {v}, (d v).isSome → Up d v x → (d x).isSome := fun hv hvx =>
    htree.isSome_of_up hvx hv
  refine ⟨fun {v a} hv ha => ?_, fun {v u a} hvr hv hua ha => ?_⟩
  · by_cases hvx : v = x
    · subst hvx
      exact hself ha
    · rw [Function.update_of_ne hvx] at hv
      have hva := h.complete hv ha
      by_cases hbelow : Up d v x
      · rcases hbelow.total hva with hxa | hax
        · have hvx' := up_update_of_below (e := e) htree hbelow (.refl x)
          exact hvx'.trans (hself (h.along htree hbelow hxa ha))
        · exact up_update_of_below htree hva hax
      · exact (up_update_of_not hbelow).mpr hva
  · by_cases hvx : v = x
    · subst hvx
      rw [Function.update_self] at hv
      obtain rfl := Option.some.inj hv
      have hea := (up_update_of_not hex).mp hua
      have hne : a ≠ v := fun hav => hex (hav ▸ hea)
      -- Along the chain of a predecessor, which comes by the meet.
      exact h.along htree (he.up p₀ hp₀) hea (ha.before hne (hedge p₀ hp₀.1))
    · rw [Function.update_of_ne hvx] at hv
      refine h.between hvr hv ?_ ha
      cases hx : d x with
      | none =>
        have hux : ¬Up d u x := fun hux => by
          have hsome := hplaced (htree.closed hv) hux
          rw [hx] at hsome
          cases hsome
        exact (up_update_of_not hux).mp hua
      | some o => exact up_of_update (.head hx (hup o hx)) hua

theorem Kept.up_iff_dominates (h : Kept E r d) (htree : IsTree d r rank) {preds : α → List α}
    (hmeet : ∀ v, (d v).isSome → v ≠ r → ∃ e, d v = some e ∧ IsMeet d (Placed d preds v) e)
    (hedge : ∀ u v, (d u).isSome → E u v → (d v).isSome ∧ u ∈ preds v) {b a : α}
    (hb : (d b).isSome) : Up d b a ↔ Dominates E r a b := by
  refine ⟨fun hba l hl => ?_, h.complete hb⟩
  have hroot : (d r).isSome := by
    rw [htree.root]
    rfl
  -- Every node of a path from the root has a parent.
  have hall : ∀ {l v}, Path E r l v → (d v).isSome := by
    intro l v hl
    induction hl with
    | root => exact hroot
    | step _ huv ih => exact (hedge _ _ ih huv).1
  induction hl with
  | root =>
    rw [htree.eq_of_up_root hba]
    exact List.mem_cons_self
  | @step l u v hl huv ih =>
    by_cases hvr : v = r
    · rw [hvr] at hba
      rw [htree.eq_of_up_root hba]
      exact List.mem_cons_of_mem _ hl.root_mem
    · obtain ⟨e, he, hm⟩ := hmeet v hb hvr
      rcases hba.cases with rfl | ⟨e', he', hea⟩
      · exact List.mem_cons_self
      · obtain rfl : e = e' := Option.some.inj (he.symm.trans he')
        have hu := hall hl
        have hue : Up d u e := hm.up u ⟨(hedge u v hu huv).2, hu⟩
        exact List.mem_cons_of_mem _ (ih hu (hue.trans hea))

end ParentMap
