/-
Disjoint sets as a forest of parent pointers with ranks.
-/
import Mathlib.Logic.Function.Basic
import Mathlib.Logic.Relation
import Mathlib.Tactic

structure Forest where
  parent : ℕ → ℕ
  rank : ℕ → ℕ
  rank_lt : ∀ x, parent x ≠ x → rank x < rank (parent x)
  bounded : ∃ b, ∀ x, rank x ≤ b

namespace Forest

def singletons : Forest where
  parent := id
  rank _ := 0
  rank_lt _ h := absurd rfl h
  bounded := ⟨0, fun _ => le_rfl⟩

variable (F : Forest) {x y a b : ℕ}

def IsRoot (x : ℕ) : Prop := F.parent x = x

instance : DecidablePred F.IsRoot := fun x => inferInstanceAs (Decidable (F.parent x = x))

/-- A bound of the ranks, which makes climbing end. -/
noncomputable def bound : ℕ := F.bounded.choose

theorem rank_le_bound (x : ℕ) : F.rank x ≤ F.bound := F.bounded.choose_spec x

theorem rank_le_parent (x : ℕ) : F.rank x ≤ F.rank (F.parent x) := by
  by_cases h : F.parent x = x
  · rw [h]
  · exact (F.rank_lt x h).le

theorem rank_lt_grandparent (h : ¬F.IsRoot x) : F.rank x < F.rank (F.parent (F.parent x)) :=
  (F.rank_lt x h).trans_le (F.rank_le_parent _)

/-- The representative of the set of `x`. -/
def root (x : ℕ) : ℕ := if F.IsRoot x then x else root (F.parent x)
  termination_by F.bound - F.rank x
  decreasing_by
    have hlt := F.rank_lt x ‹_›
    have hle := F.rank_le_bound (F.parent x)
    omega

theorem climb {P : ℕ → Prop} (hroot : ∀ x, F.IsRoot x → P x)
    (hstep : ∀ x, ¬F.IsRoot x → P (F.parent x) → P x) (x : ℕ) : P x := by
  induction x using root.induct F with
  | case1 x h => exact hroot x h
  | case2 x h ih => exact hstep x h ih

variable {F}

theorem root_of_isRoot (h : F.IsRoot x) : F.root x = x := by rw [root, if_pos h]

theorem root_parent (x : ℕ) : F.root (F.parent x) = F.root x := by
  by_cases h : F.IsRoot x
  · rw [show F.parent x = x from h]
  · conv_rhs => rw [root, if_neg h]

theorem isRoot_root (x : ℕ) : F.IsRoot (F.root x) := by
  induction x using F.climb with
  | hroot x h => rwa [root_of_isRoot h]
  | hstep x _ ih => rwa [root_parent] at ih

@[simp] theorem root_singletons (x : ℕ) : singletons.root x = x := root_of_isRoot rfl

variable (F)

def halve (x : ℕ) : Forest where
  parent := Function.update F.parent x (F.parent (F.parent x))
  rank := F.rank
  rank_lt y h := by
    by_cases hy : y = x
    · subst hy
      rw [Function.update_self] at h ⊢
      refine F.rank_lt_grandparent fun hroot => h ?_
      rw [show F.parent y = y from hroot, hroot]
    · rw [Function.update_of_ne hy] at h ⊢
      exact F.rank_lt y h
  bounded := F.bounded

/-- The representative of the set of `x`, with path halving. -/
def find (F : Forest) (x : ℕ) : Forest × ℕ :=
  if F.IsRoot x then (F, x) else find (F.halve x) (F.parent (F.parent x))
  termination_by F.bound - F.rank x
  decreasing_by
    have hlt := F.rank_lt_grandparent ‹_›
    have hle := F.rank_le_bound (F.parent (F.parent x))
    show F.bound - F.rank (F.parent (F.parent x)) < F.bound - F.rank x
    omega

variable {F}

theorem isRoot_halve : (F.halve x).IsRoot y ↔ F.IsRoot y := by
  show Function.update F.parent x (F.parent (F.parent x)) y = y ↔ _
  by_cases hy : y = x
  · subst hy
    rw [Function.update_self]
    constructor
    · intro h
      by_contra hroot
      have hlt := F.rank_lt_grandparent hroot
      rw [h] at hlt
      exact absurd hlt (lt_irrefl _)
    · intro h
      rw [show F.parent y = y from h, h]
  · rw [Function.update_of_ne hy]
    rfl

@[simp] theorem root_halve (x y : ℕ) : (F.halve x).root y = F.root y := by
  induction y using (F.halve x).climb with
  | hroot y h => rw [root_of_isRoot h, root_of_isRoot (isRoot_halve.mp h)]
  | hstep y _ ih =>
    rw [root_parent] at ih
    rw [ih]
    show F.root (Function.update F.parent x (F.parent (F.parent x)) y) = _
    by_cases hy : y = x
    · subst hy
      rw [Function.update_self, root_parent, root_parent]
    · rw [Function.update_of_ne hy, root_parent]

theorem find_spec (F : Forest) (x : ℕ) : (F.find x).2 = F.root x ∧
    (∀ y, (F.find x).1.root y = F.root y) ∧ (F.find x).1.rank = F.rank := by
  induction F, x using find.induct with
  | case1 F x h =>
    rw [find, if_pos h]
    exact ⟨(root_of_isRoot h).symm, fun _ => rfl, rfl⟩
  | case2 F x h ih =>
    obtain ⟨hfind, hroot, hrank⟩ := ih
    rw [find, if_neg h]
    refine ⟨?_, fun y => ?_, hrank⟩
    · rw [hfind, root_halve, root_parent, root_parent]
    · rw [hroot, root_halve]

theorem find_snd (F : Forest) (x : ℕ) : (F.find x).2 = F.root x := (find_spec F x).1

@[simp] theorem root_find (F : Forest) (x y : ℕ) : (F.find x).1.root y = F.root y :=
  (find_spec F x).2.1 y

@[simp] theorem rank_find (F : Forest) (x : ℕ) : (F.find x).1.rank = F.rank := (find_spec F x).2.2

theorem isRoot_iff : F.IsRoot x ↔ F.root x = x :=
  ⟨root_of_isRoot, fun h => h ▸ isRoot_root x⟩

theorem isRoot_find (F : Forest) (x y : ℕ) : (F.find x).1.IsRoot y ↔ F.IsRoot y := by
  rw [isRoot_iff, isRoot_iff, root_find]

/-! ### Union -/

variable (F) in
/-- The tree of `lo` is put under `hi`. -/
def link (lo hi : ℕ) (hlo : F.IsRoot lo) (hhi : F.IsRoot hi) (hne : lo ≠ hi)
    (hrank : F.rank lo ≤ F.rank hi) : Forest where
  parent := Function.update F.parent lo hi
  rank := if F.rank lo = F.rank hi then Function.update F.rank hi (F.rank hi + 1) else F.rank
  rank_lt x h := by
    by_cases hx : x = lo
    · subst hx
      rw [Function.update_self]
      split_ifs with heq
      · rw [Function.update_of_ne hne, Function.update_self]
        omega
      · omega
    · rw [Function.update_of_ne hx] at h ⊢
      have hlt := F.rank_lt x h
      -- a root is nobody's child but its own
      have hxhi : x ≠ hi := by
        rintro rfl
        exact h hhi
      split_ifs with heq
      · rw [Function.update_of_ne hxhi]
        by_cases hp : F.parent x = hi
        · rw [hp, Function.update_self]
          rw [hp] at hlt
          omega
        · rwa [Function.update_of_ne hp]
      · exact hlt
  bounded := by
    obtain ⟨b, hb⟩ := F.bounded
    refine ⟨b + 1, fun x => ?_⟩
    have hx := hb x
    have hhi' := hb hi
    split_ifs with heq
    · by_cases hx' : x = hi
      · subst hx'
        rw [Function.update_self]
        omega
      · rw [Function.update_of_ne hx']
        omega
    · omega

theorem root_link {lo hi : ℕ} {hlo : F.IsRoot lo} {hhi : F.IsRoot hi} {hne : lo ≠ hi}
    {hrank : F.rank lo ≤ F.rank hi} (x : ℕ) :
    (F.link lo hi hlo hhi hne hrank).root x = if F.root x = lo then hi else F.root x := by
  have hparent : ∀ y, (F.link lo hi hlo hhi hne hrank).parent y =
      Function.update F.parent lo hi y := fun _ => rfl
  have htop : (F.link lo hi hlo hhi hne hrank).root hi = hi := by
    refine root_of_isRoot ?_
    rw [IsRoot, hparent, Function.update_of_ne hne.symm, hhi]
  induction x using F.climb with
  | hroot x h =>
    rw [root_of_isRoot h]
    split_ifs with hx
    · subst hx
      rw [← root_parent, hparent, Function.update_self, htop]
    · refine root_of_isRoot ?_
      rw [IsRoot, hparent, Function.update_of_ne hx, h]
  | hstep x h ih =>
    have hx : x ≠ lo := by
      rintro rfl
      exact h hlo
    rw [← root_parent, hparent, Function.update_of_ne hx, ih, root_parent]

variable (F) in
/-- `find` of both, and the tree of lower rank put under the other. -/
def union (a b : ℕ) : Forest :=
  let p := F.find a
  let q := p.1.find b
  have hp : q.1.IsRoot p.2 := by
    rw [isRoot_find, isRoot_find, find_snd]
    exact isRoot_root a
  have hq : q.1.IsRoot q.2 := by
    rw [isRoot_find, find_snd]
    exact isRoot_root b
  if h : p.2 = q.2 then q.1
  else if hr : q.1.rank p.2 < q.1.rank q.2 then q.1.link p.2 q.2 hp hq h hr.le
  else q.1.link q.2 p.2 hq hp (Ne.symm h) (not_lt.mp hr)

variable (F) in
def top (a b : ℕ) : ℕ := if F.rank (F.root a) < F.rank (F.root b) then F.root b else F.root a

theorem root_union (x : ℕ) : (F.union a b).root x =
    if F.root x = F.root a ∨ F.root x = F.root b then F.top a b else F.root x := by
  have ha : (F.find a).2 = F.root a := find_snd F a
  have hb : ((F.find a).1.find b).2 = F.root b := by rw [find_snd, root_find]
  have hrank : ((F.find a).1.find b).1.rank = F.rank := by rw [rank_find, rank_find]
  have hroot : ∀ y, ((F.find a).1.find b).1.root y = F.root y := fun y => by
    rw [root_find, root_find]
  rw [union, top]
  by_cases hab : F.root a = F.root b
  · -- one set already
    rw [dif_pos (ha.trans (hab.trans hb.symm)), hroot, ← hab, ite_self]
    split_ifs with hx
    · exact hx.elim id id
    · rfl
  · rw [dif_neg fun h => hab (ha.symm.trans (h.trans hb))]
    by_cases hlt : F.rank (F.root a) < F.rank (F.root b)
    · rw [dif_pos (by rwa [hrank, ha, hb]), root_link, hroot, ha, hb, if_pos hlt]
      split_ifs with h₁ h₂ h₂
      · rfl
      · exact absurd (.inl h₁) h₂
      · exact h₂.resolve_left h₁
      · rfl
    · rw [dif_neg (by rwa [hrank, ha, hb]), root_link, hroot, ha, hb, if_neg hlt]
      split_ifs with h₁ h₂ h₂
      · rfl
      · exact absurd (.inr h₁) h₂
      · exact h₂.resolve_right h₁
      · rfl

theorem top_eq (a b : ℕ) : F.top a b = F.root a ∨ F.top a b = F.root b := by
  rw [top]
  split_ifs
  · exact .inr rfl
  · exact .inl rfl

theorem root_union_eq_iff : (F.union a b).root x = (F.union a b).root y ↔ F.root x = F.root y ∨
    (F.root x = F.root a ∨ F.root x = F.root b) ∧ (F.root y = F.root a ∨ F.root y = F.root b) := by
  have htop := @top_eq F a b
  rw [root_union, root_union]
  split_ifs with hx hy hy
  · exact iff_of_true rfl (.inr ⟨hx, hy⟩)
  · refine iff_of_false (fun h => hy ?_) ?_
    · rw [← h]
      exact htop
    · rintro (h | ⟨-, h⟩)
      · exact hy (h ▸ hx)
      · exact hy h
  · refine iff_of_false (fun h => hx ?_) ?_
    · rw [h]
      exact htop
    · rintro (h | ⟨h, -⟩)
      · exact hx (h ▸ hy)
      · exact hx h
  · exact ⟨.inl, fun h => h.resolve_right fun h => hx h.1⟩

/-! ### What is connected -/

variable (F) in
def Represents (r : ℕ → ℕ → Prop) : Prop := ∀ x y, F.root x = F.root y ↔ Relation.EqvGen r x y

variable {r : ℕ → ℕ → Prop}

theorem represents_singletons : singletons.Represents fun _ _ => False := by
  intro x y
  rw [root_singletons, root_singletons]
  constructor
  · rintro rfl
    exact .refl x
  · intro h
    induction h with
    | rel _ _ h => exact h.elim
    | refl _ => rfl
    | symm _ _ _ ih => exact ih.symm
    | trans _ _ _ _ _ ih ih' => exact ih.trans ih'

theorem Represents.union (h : F.Represents r) (a b : ℕ) :
    (F.union a b).Represents fun x y => r x y ∨ x = a ∧ y = b := by
  have hmono : ∀ x y, Relation.EqvGen r x y →
      Relation.EqvGen (fun x y => r x y ∨ x = a ∧ y = b) x y :=
    fun x y hxy => hxy.mono fun _ _ => .inl
  have hab : Relation.EqvGen (fun x y => r x y ∨ x = a ∧ y = b) a b := .rel _ _ (.inr ⟨rfl, rfl⟩)
  intro x y
  rw [root_union_eq_iff, h, h, h, h, h]
  constructor
  · rintro (hxy | ⟨hx | hx, hy | hy⟩)
    · exact hmono _ _ hxy
    · exact (hmono _ _ hx).trans _ _ _ (hmono _ _ hy).symm
    · exact (hmono _ _ hx).trans _ _ _ (hab.trans _ _ _ (hmono _ _ hy).symm)
    · exact (hmono _ _ hx).trans _ _ _ (hab.symm.trans _ _ _ (hmono _ _ hy).symm)
    · exact (hmono _ _ hx).trans _ _ _ (hmono _ _ hy).symm
  · intro hxy
    rw [← h, ← h, ← h, ← h, ← h, ← root_union_eq_iff]
    induction hxy with
    | rel x y hxy =>
      rw [root_union_eq_iff]
      rcases hxy with hxy | ⟨rfl, rfl⟩
      · exact .inl ((h x y).mpr (.rel _ _ hxy))
      · exact .inr ⟨.inl rfl, .inr rfl⟩
    | refl _ => rfl
    | symm _ _ _ ih => exact ih.symm
    | trans _ _ _ _ _ ih ih' => exact ih.trans ih'

end Forest
