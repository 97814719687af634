/-
Parent maps and nearest common ancestors.

A partial map `d : α → Option α` that gives nodes their parents, with a rank
that drops along it, is a tree under its root.  The iterative computation of
dominators keeps such a map and moves one node at a time up to the nearest
common ancestor of its predecessors.
-/
import Mathlib.Logic.Relation
import Mathlib.Logic.Function.Basic
import Mathlib.Tactic

namespace ParentMap

variable {α : Type} {d : α → Option α} {r : α} {rank : α → ℕ}

/-- `a` is `v` or is reached from it by following parents. -/
def Up (d : α → Option α) (v a : α) : Prop :=
  Relation.ReflTransGen (fun x y => d x = some y) v a

theorem Up.refl (v : α) : Up d v v := Relation.ReflTransGen.refl

theorem Up.trans {u v w : α} (h : Up d u v) (h' : Up d v w) : Up d u w :=
  Relation.ReflTransGen.trans h h'

theorem Up.head {v p a : α} (hp : d v = some p) (h : Up d p a) : Up d v a :=
  Relation.ReflTransGen.head hp h

theorem Up.cases {v a : α} (h : Up d v a) : v = a ∨ ∃ p, d v = some p ∧ Up d p a :=
  (Relation.ReflTransGen.cases_head h).imp_left id

theorem Up.total {v a b : α} (ha : Up d v a) (hb : Up d v b) : Up d a b ∨ Up d b a :=
  Relation.ReflTransGen.total_of_right_unique
    (fun _ _ _ h h' => Option.some.inj (h.symm.trans h')) ha hb

/-- A parent map that is a tree: the root is its own parent, and every other
parent has a smaller rank and a parent itself. -/
structure IsTree (d : α → Option α) (r : α) (rank : α → ℕ) : Prop where
  root : d r = some r
  ranked : ∀ {v p}, v ≠ r → d v = some p → rank p < rank v
  closed : ∀ {v p}, d v = some p → (d p).isSome

namespace IsTree

theorem rank_lt (h : IsTree d r rank) {v a : α} (hva : Up d v a) : v = a ∨ rank a < rank v := by
  induction hva using Relation.ReflTransGen.head_induction_on with
  | refl => exact .inl rfl
  | @head v p hp _ ih =>
    by_cases hv : v = r
    · subst hv
      obtain rfl : p = v := Option.some.inj (hp.symm.trans h.root)
      exact ih
    · have hlt := h.ranked hv hp
      rcases ih with rfl | ih
      · exact .inr hlt
      · exact .inr (by omega)

theorem rank_le (h : IsTree d r rank) {v a : α} (hva : Up d v a) : rank a ≤ rank v := by
  rcases h.rank_lt hva with rfl | hlt
  · exact le_rfl
  · exact hlt.le

theorem antisymm (h : IsTree d r rank) {v a : α} (hva : Up d v a) (hav : Up d a v) : v = a := by
  rcases h.rank_lt hva with rfl | hlt
  · rfl
  · have := h.rank_le hav
    omega

theorem isSome_of_up (h : IsTree d r rank) {v a : α} (hva : Up d v a) (hv : (d v).isSome) :
    (d a).isSome := by
  induction hva using Relation.ReflTransGen.head_induction_on with
  | refl => exact hv
  | head hp _ ih => exact ih (h.closed hp)

theorem up_root (h : IsTree d r rank) {v : α} (hv : (d v).isSome) : Up d v r := by
  induction hk : rank v using Nat.strong_induction_on generalizing v with
  | _ k ih =>
    by_cases hvr : v = r
    · subst hvr
      exact .refl v
    · obtain ⟨p, hp⟩ := Option.isSome_iff_exists.mp hv
      have hlt := h.ranked hvr hp
      exact .head hp (ih (rank p) (by omega) (h.closed hp) rfl)

theorem eq_of_up_root (h : IsTree d r rank) {a : α} (hra : Up d r a) : a = r := by
  induction hra with
  | refl => rfl
  | tail _ hp ih =>
    subst ih
    exact Option.some.inj (hp.symm.trans h.root)

end IsTree

/-- `c` is the nearest common ancestor of the nodes in `s`. -/
structure IsMeet (d : α → Option α) (s : α → Prop) (c : α) : Prop where
  up : ∀ p, s p → Up d p c
  nearest : ∀ z, (∀ p, s p → Up d p z) → Up d c z

theorem IsMeet.unique (h : IsTree d r rank) {s : α → Prop} {c c' : α} (hc : IsMeet d s c)
    (hc' : IsMeet d s c') : c = c' :=
  h.antisymm (hc.nearest c' hc'.up) (hc'.nearest c hc.up)

theorem isMeet_single (p : α) : IsMeet d (· = p) p where
  up := by
    rintro q rfl
    exact .refl q
  nearest := fun _ hz => hz p rfl

theorem IsMeet.insert {s : α → Prop} {c p e : α} (hc : IsMeet d s c)
    (he : IsMeet d (fun q => q = p ∨ q = c) e) : IsMeet d (fun q => s q ∨ q = p) e where
  up := by
    rintro q (hq | rfl)
    · exact (hc.up q hq).trans (he.up c (.inr rfl))
    · exact he.up q (.inl rfl)
  nearest := by
    intro z hz
    refine he.nearest z ?_
    rintro q (rfl | rfl)
    · exact hz q (.inr rfl)
    · exact hc.nearest z fun p hp => hz p (.inl hp)

/-! ### Moving one node -/

section Update

variable [DecidableEq α] {x e : α}

theorem up_update_of_not {v a : α} (hvx : ¬Up d v x) :
    Up (Function.update d x (some e)) v a ↔ Up d v a := by
  constructor
  · intro h
    induction h using Relation.ReflTransGen.head_induction_on with
    | refl => exact .refl a
    | @head v p hp _ ih =>
      have hne : v ≠ x := fun hv => hvx (hv ▸ .refl v)
      rw [Function.update_of_ne hne] at hp
      exact .head hp (ih fun hpx => hvx (.head hp hpx))
  · intro h
    induction h using Relation.ReflTransGen.head_induction_on with
    | refl => exact .refl a
    | @head v p hp _ ih =>
      have hne : v ≠ x := fun hv => hvx (hv ▸ .refl v)
      refine .head ?_ (ih fun hpx => hvx (.head hp hpx))
      rw [Function.update_of_ne hne, hp]

theorem up_update_of_below (h : IsTree d r rank) {v a : α} (hva : Up d v a) (hax : Up d a x) :
    Up (Function.update d x (some e)) v a := by
  induction hva using Relation.ReflTransGen.head_induction_on with
  | refl => exact .refl a
  | @head v p hp hpa ih =>
    by_cases hne : v = x
    · subst hne
      rw [h.antisymm (.head hp hpa) hax]
      exact .refl a
    · refine .head ?_ ih
      rw [Function.update_of_ne hne, hp]

theorem up_of_update (hxe : Up d x e) {v a : α} (hva : Up (Function.update d x (some e)) v a) :
    Up d v a := by
  induction hva using Relation.ReflTransGen.head_induction_on with
  | refl => exact .refl a
  | @head v p hp _ ih =>
    by_cases hne : v = x
    · subst hne
      rw [Function.update_self] at hp
      obtain rfl := Option.some.inj hp
      exact hxe.trans ih
    · rw [Function.update_of_ne hne] at hp
      exact .head hp ih

theorem IsTree.update (h : IsTree d r rank) (hxr : x ≠ r) (hlt : rank e < rank x)
    (he : (d e).isSome) : IsTree (Function.update d x (some e)) r rank where
  root := by rw [Function.update_of_ne hxr.symm, h.root]
  ranked := by
    intro v p hvr hp
    by_cases hvx : v = x
    · subst hvx
      rw [Function.update_self] at hp
      exact Option.some.inj hp ▸ hlt
    · rw [Function.update_of_ne hvx] at hp
      exact h.ranked hvr hp
  closed := by
    intro v p hp
    by_cases hpx : p = x
    · rw [hpx, Function.update_self]
      rfl
    · rw [Function.update_of_ne hpx]
      by_cases hvx : v = x
      · subst hvx
        rw [Function.update_self] at hp
        exact Option.some.inj hp ▸ he
      · rw [Function.update_of_ne hvx] at hp
        exact h.closed hp

end Update

/-! ### The iteration -/

section Settling

variable {preds : α → List α} {i : ℕ}

/-- The predecessors of `v` that have a parent. -/
def Placed (d : α → Option α) (preds : α → List α) (v p : α) : Prop :=
  p ∈ preds v ∧ (d p).isSome

/-- The state of the iteration when, in the pass under way, the nodes of rank
below `i` have been moved. -/
structure Settling (d : α → Option α) (r : α) (rank : α → ℕ) (preds : α → List α) (i : ℕ) :
    Prop where
  tree : IsTree d r rank
  /-- Every node before one that has a parent has one. -/
  downward : ∀ {v p}, (d v).isSome → p ∈ preds v → rank p < rank v → (d p).isSome
  /-- The parent of a node is below every common ancestor of its predecessors. -/
  below : ∀ {v e}, v ≠ r → d v = some e → ∀ z, (∀ p, Placed d preds v p → Up d p z) → Up d e z
  /-- The parent of a node is on the chain of each earlier predecessor, unless
  that predecessor has moved in this pass and the node has not. -/
  fresh : ∀ {v e p}, v ≠ r → d v = some e → p ∈ preds v → rank p < rank v →
    rank v < i ∨ i ≤ rank e → Up d p e

theorem Settling.up_meet (h : Settling d r rank preds i) {x e o : α} (hxr : x ≠ r)
    (he : IsMeet d (Placed d preds x) e) (ho : d x = some o) : Up d o e :=
  h.below hxr ho e he.up

theorem Settling.rank_le (h : Settling d r rank preds i) {x e o : α} (hxr : x ≠ r)
    (he : IsMeet d (Placed d preds x) e) (ho : d x = some o) : o = e ∨ rank e < rank o :=
  h.tree.rank_lt (h.up_meet hxr he ho)

theorem Settling.nextPass (h : Settling d r rank preds i) (hi : ∀ v, (d v).isSome → rank v < i) :
    Settling d r rank preds 0 where
  tree := h.tree
  downward := h.downward
  below := h.below
  fresh := fun hvr hv hp hpv _ => h.fresh hvr hv hp hpv (.inl (hi _ (by rw [hv]; rfl)))

theorem Settling.skipRoot (h : Settling d r rank preds 0) : Settling d r rank preds 1 where
  tree := h.tree
  downward := h.downward
  below := h.below
  fresh := fun hvr hv hp hpv _ => h.fresh hvr hv hp hpv (.inr (Nat.zero_le _))

theorem Settling.start [DecidableEq α] (hr : rank r = 0) :
    Settling (Function.update (fun _ => none) r (some r)) r rank preds 0 := by
  have hroot : ∀ {v : α} {e}, Function.update (fun _ => none) r (some r) v = some e → v = r := by
    intro v e hv
    by_contra hvr
    rw [Function.update_of_ne hvr] at hv
    cases hv
  refine ⟨⟨Function.update_self .., fun hvr hv => absurd (hroot hv) hvr, ?_⟩, ?_, ?_, ?_⟩
  · intro v p hv
    obtain rfl := hroot hv
    rw [Function.update_self] at hv
    obtain rfl := Option.some.inj hv
    rw [Function.update_self]
    rfl
  · intro v p hv hp hpv
    obtain ⟨e, he⟩ := Option.isSome_iff_exists.mp hv
    obtain rfl := hroot he
    omega
  · exact fun hvr hv => absurd (hroot hv) hvr
  · exact fun hvr hv => absurd (hroot hv) hvr

/-- The node at rank `i` is moved to the meet of its predecessors. -/
theorem Settling.update [DecidableEq α] (h : Settling d r rank preds i) {x e : α} (hxr : x ≠ r)
    (hi : rank x = i) (hinj : ∀ v, (d v).isSome → rank v = i → v = x)
    (hfirst : ∀ p ∈ preds x, rank p < rank x → (d p).isSome)
    (hpred : ∀ v, v ≠ r → (d v).isSome ∨ v = x → ∃ p ∈ preds v, rank p < rank v)
    (he : IsMeet d (Placed d preds x) e) :
    Settling (Function.update d x (some e)) r rank preds (i + 1) := by
  obtain ⟨p₀, hp₀, hlt₀⟩ := hpred x hxr (.inr rfl)
  have hup₀ : Up d p₀ e := he.up p₀ ⟨hp₀, hfirst p₀ hp₀ hlt₀⟩
  have hlt : rank e < rank x := by
    have := h.tree.rank_le hup₀
    omega
  have hesome : (d e).isSome := h.tree.isSome_of_up hup₀ (hfirst p₀ hp₀ hlt₀)
  -- chains of placed nodes are shortened only
  have hshort : ∀ {v a}, (d v).isSome → Up (Function.update d x (some e)) v a → Up d v a := by
    intro v a hv hva
    cases hdx : d x with
    | none =>
      have hvx : ¬Up d v x := fun hvx => by
        have hx := h.tree.isSome_of_up hvx hv
        rw [hdx] at hx
        cases hx
      exact (up_update_of_not hvx).mp hva
    | some o => exact up_of_update (.head hdx (h.up_meet hxr he hdx)) hva
  have hsome : ∀ {v}, (d v).isSome → (Function.update d x (some e) v).isSome := by
    intro v hv
    by_cases hvx : v = x
    · rw [hvx, Function.update_self]
      rfl
    · rwa [Function.update_of_ne hvx]
  have hex : ¬Up d e x := fun hex => by
    have := h.tree.rank_le hex
    omega
  refine ⟨h.tree.update hxr hlt hesome, ?_, ?_, ?_⟩
  · intro v p hv hp hpv
    by_cases hvx : v = x
    · subst hvx
      exact hsome (hfirst p hp hpv)
    · rw [Function.update_of_ne hvx] at hv
      exact hsome (h.downward hv hp hpv)
  · intro v e' hvr hv z hz
    have hz' : ∀ p, Placed d preds v p → Up d p z := fun p hp =>
      hshort hp.2 (hz p ⟨hp.1, hsome hp.2⟩)
    by_cases hvx : v = x
    · subst hvx
      rw [Function.update_self] at hv
      obtain rfl := Option.some.inj hv
      exact (up_update_of_not hex).mpr (he.nearest z hz')
    · rw [Function.update_of_ne hvx] at hv
      have hz'' := h.below hvr hv z hz'
      by_cases he'x : Up d e' x
      · -- `x` is above the parent of `v`, so no predecessor of `v` has left `x` yet
        obtain ⟨p, hp, hpv⟩ := hpred v hvr (.inl (by rw [hv]; rfl))
        have hps : (d p).isSome := h.downward (by rw [hv]; rfl) hp hpv
        have hpe' : Up d p e' := h.fresh hvr hv hp hpv (.inr (hi ▸ h.tree.rank_le he'x))
        have hpz := hz p ⟨hp, hsome hps⟩
        have hpx := up_update_of_below (e := e) h.tree (hpe'.trans he'x) (.refl x)
        have he'x' := up_update_of_below (e := e) h.tree he'x (.refl x)
        rcases hpx.total hpz with hxz | hzx
        · exact he'x'.trans hxz
        · have hzs := h.tree.isSome_of_up (hz' p ⟨hp, hps⟩) hps
          exact up_update_of_below h.tree hz'' (hshort hzs hzx)
      · exact (up_update_of_not he'x).mpr hz''
  · intro v e' p hvr hv hp hpv hcase
    by_cases hvx : v = x
    · subst hvx
      rw [Function.update_self] at hv
      obtain rfl := Option.some.inj hv
      have hpx : ¬Up d p v := fun hpx => by
        have := h.tree.rank_le hpx
        omega
      exact (up_update_of_not hpx).mpr (he.up p ⟨hp, hfirst p hp hpv⟩)
    · rw [Function.update_of_ne hvx] at hv
      have hne : rank v ≠ i := fun hvi => hvx (hinj v (by rw [hv]; rfl) hvi)
      have hpe' := h.fresh hvr hv hp hpv (by omega)
      by_cases hpx : Up d p x
      · rcases hpe'.total hpx with hex' | hxe'
        · exact up_update_of_below h.tree hpe' hex'
        · have h1 := h.tree.rank_le hpx
          rcases h.tree.rank_lt hxe' with rfl | h2
          · exact up_update_of_below h.tree hpe' (.refl _)
          · omega
      · exact (up_update_of_not hpx).mpr hpe'

end Settling

end ParentMap
