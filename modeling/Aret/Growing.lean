/-
Sets that grow by a test over what they hold so far.

The items of a list are swept again and again, and the key of an item is added where the
test admits the item, until a sweep adds nothing.  A key that is in the set is not
tested again.
-/
import Mathlib.Data.Finset.Card

namespace Growing

variable {α β : Type}

/-- Items with keys: those that are in from the start, and those that a set admits. -/
structure Rule (α β : Type) where
  key : α → β
  base : α → Bool
  admits : α → Finset β → Bool

section
variable [DecidableEq β] (r : Rule α β)

def seed (items : List α) : Finset β := ((items.filter r.base).map r.key).toFinset

def visit (S : Finset β) (a : α) : Finset β :=
  if r.key a ∉ S ∧ r.admits a S = true then insert (r.key a) S else S

def sweep (items : List α) (S : Finset β) : Finset β := items.foldl (visit r) S

/-- Sweep until nothing changes, at most `n` times. -/
def sweeps (items : List α) : ℕ → Finset β → Finset β
  | 0, S => S
  | n + 1, S => if sweep r items S = S then S else sweeps items n (sweep r items S)

def grow (items : List α) : Finset β := sweeps r items (items.length + 1) (seed r items)

/-- The sets that can be grown one item at a time, in any order. -/
inductive Grown (items : List α) : Finset β → Prop
  | seed : Grown items (seed r items)
  | add {S : Finset β} {a : α} : Grown items S → a ∈ items → r.admits a S = true →
      Grown items (insert (r.key a) S)

def Stable (items : List α) (S : Finset β) : Prop :=
  ∀ a ∈ items, r.admits a S = true → r.key a ∈ S

def Fixed (items : List α) (S : Finset β) : Prop :=
  ∀ a ∈ items, r.key a ∈ S ↔ r.base a = true ∨ r.admits a S = true

/-- A set that admits an item goes on to when it grows; those that are in from the start are
not asked. -/
def Persists (items : List α) : Prop :=
  ∀ a ∈ items, r.base a = false → ∀ S T, Grown r items S → Grown r items T → S ⊆ T →
    r.admits a S = true → r.admits a T = true

end

section
variable [DecidableEq β] {r : Rule α β} {items items' : List α} {S T : Finset β}

/-! ### One sweep -/

theorem subset_visit (S : Finset β) (a : α) : S ⊆ visit r S a := by
  rw [visit]
  split_ifs
  · exact Finset.subset_insert _ _
  · exact subset_rfl

theorem visit_eq_self {a : α} : visit r S a = S ↔ (r.admits a S = true → r.key a ∈ S) := by
  rw [visit]
  split_ifs with h
  · rw [Finset.insert_eq_self]
    exact ⟨fun hmem => absurd hmem h.1, fun himp => absurd (himp h.2) h.1⟩
  · simp only [true_iff]
    intro hadmits
    by_contra hno
    exact h ⟨hno, hadmits⟩

theorem subset_sweep (items : List α) (S : Finset β) : S ⊆ sweep r items S := by
  induction items generalizing S with
  | nil => exact subset_rfl
  | cons a items ih => exact (subset_visit S a).trans (ih (visit r S a))

theorem sweep_eq_self : sweep r items S = S ↔ Stable r items S := by
  induction items with
  | nil => simp [sweep, Stable]
  | cons a items ih =>
    have hcons : sweep r (a :: items) S = sweep r items (visit r S a) := rfl
    rw [hcons, Stable, List.forall_mem_cons, ← visit_eq_self]
    constructor
    · intro h
      -- A set that comes back the same was the same after the first item.
      have hfirst : visit r S a = S :=
        ((subset_sweep items (visit r S a)).trans h.le).antisymm (subset_visit S a)
      rw [hfirst] at h
      exact ⟨hfirst, ih.mp h⟩
    · rintro ⟨hfirst, hrest⟩
      rw [hfirst]
      exact ih.mpr hrest

theorem Grown.visit (h : Grown r items S) {a : α} (ha : a ∈ items) :
    Grown r items (visit r S a) := by
  rw [Growing.visit]
  split_ifs with hc
  · exact h.add ha hc.2
  · exact h

theorem Grown.sweep {part : List α} (h : Grown r items S) (hpart : part ⊆ items) :
    Grown r items (sweep r part S) := by
  induction part generalizing S with
  | nil => exact h
  | cons a part ih =>
    obtain ⟨ha, hpart⟩ := List.cons_subset.mp hpart
    exact ih (h.visit ha) hpart

/-! ### Sweeps -/

def keys (r : Rule α β) (items : List α) : Finset β := (items.map r.key).toFinset

theorem key_mem_keys {a : α} (ha : a ∈ items) : r.key a ∈ keys r items :=
  List.mem_toFinset.mpr (List.mem_map_of_mem ha)

theorem sweep_subset (part : List α) (hpart : part ⊆ items) (S : Finset β) :
    sweep r part S ⊆ S ∪ keys r items := by
  induction part generalizing S with
  | nil => exact Finset.subset_union_left
  | cons a part ih =>
    obtain ⟨ha, hpart⟩ := List.cons_subset.mp hpart
    have hvisit : visit r S a ⊆ S ∪ keys r items := by
      rw [visit]
      split_ifs
      · exact Finset.insert_subset (Finset.mem_union_right _ (key_mem_keys ha))
          Finset.subset_union_left
      · exact Finset.subset_union_left
    exact (ih hpart (visit r S a)).trans
      (Finset.union_subset hvisit Finset.subset_union_right)

theorem card_sweep_lt (h : sweep r items S ≠ S) :
    (keys r items \ sweep r items S).card < (keys r items \ S).card := by
  have hsub : S ⊆ sweep r items S := subset_sweep items S
  obtain ⟨b, hb, hnot⟩ := Finset.exists_of_ssubset (hsub.ssubset_of_ne h.symm)
  refine Finset.card_lt_card ⟨Finset.sdiff_subset_sdiff subset_rfl hsub, fun hback => ?_⟩
  have hkey : b ∈ keys r items := by
    rcases Finset.mem_union.mp (sweep_subset items (List.Subset.refl _) S hb) with hS | hkey
    · exact absurd hS hnot
    · exact hkey
  exact (Finset.mem_sdiff.mp (hback (Finset.mem_sdiff.mpr ⟨hkey, hnot⟩))).2 hb

theorem sweeps_stable {n : ℕ} (hn : (keys r items \ S).card < n) :
    Stable r items (sweeps r items n S) := by
  induction n generalizing S with
  | zero => omega
  | succ n ih =>
    rw [sweeps]
    split_ifs with h
    · exact sweep_eq_self.mp h
    · have hlt := card_sweep_lt h
      exact ih (by omega)

theorem Grown.sweeps (h : Grown r items S) (n : ℕ) : Grown r items (sweeps r items n S) := by
  induction n generalizing S with
  | zero => exact h
  | succ n ih =>
    rw [Growing.sweeps]
    split_ifs
    · exact h
    · exact ih (h.sweep (List.Subset.refl _))

theorem card_keys_lt (items : List α) (S : Finset β) :
    (keys r items \ S).card < items.length + 1 := by
  have hkeys : (keys r items).card ≤ (items.map r.key).length := List.toFinset_card_le _
  have hsub : (keys r items \ S).card ≤ (keys r items).card :=
    Finset.card_le_card Finset.sdiff_subset
  rw [List.length_map] at hkeys
  omega

theorem grow_stable (items : List α) : Stable r items (grow r items) :=
  sweeps_stable (card_keys_lt items _)

theorem grow_grown (items : List α) : Grown r items (grow r items) := Grown.seed.sweeps _

/-! ### Orders of the list -/

theorem seed_perm (h : items'.Perm items) : seed r items' = seed r items :=
  List.toFinset_eq_of_perm _ _ ((h.filter r.base).map r.key)

theorem Grown.perm (h : items'.Perm items) (hS : Grown r items' S) : Grown r items S := by
  induction hS with
  | seed =>
    rw [seed_perm h]
    exact .seed
  | add _ ha hadmits ih => exact ih.add (h.subset ha) hadmits

/-! ### Rules that persist -/

theorem key_mem_seed {a : α} (ha : a ∈ items) (hbase : r.base a = true) :
    r.key a ∈ seed r items :=
  List.mem_toFinset.mpr (List.mem_map_of_mem (List.mem_filter.mpr ⟨ha, hbase⟩))

theorem Grown.seed_subset (h : Grown r items S) : Growing.seed r items ⊆ S := by
  induction h with
  | seed => exact subset_rfl
  | add _ _ _ ih => exact ih.trans (Finset.subset_insert _ _)

/-- Whatever is grown stays below what nothing can be added to. -/
theorem Persists.subset (h : Persists r items) (hS : Grown r items S) (hT : Grown r items T)
    (hstable : Stable r items T) : S ⊆ T := by
  induction hS with
  | seed => exact hT.seed_subset
  | @add S a hS ha hadmits ih =>
    refine Finset.insert_subset ?_ ih
    cases hbase : r.base a with
    | true => exact hT.seed_subset (key_mem_seed ha hbase)
    | false => exact hstable a ha (h a ha hbase S T hS hT ih hadmits)

theorem Persists.grow_perm (h : Persists r items) (hperm : items'.Perm items) :
    grow r items' = grow r items := by
  have hgrown : Grown r items (grow r items') := (grow_grown items').perm hperm
  have hstable : Stable r items (grow r items') := fun a ha =>
    grow_stable items' a (hperm.symm.subset ha)
  exact (h.subset hgrown (grow_grown items) (grow_stable items)).antisymm
    (h.subset (grow_grown items) hgrown hstable)

theorem Persists.admits_of_mem (h : Persists r items)
    (hkey : ∀ a ∈ items, ∀ b ∈ items, r.key a = r.key b → a = b) (hS : Grown r items S)
    (hT : Grown r items T) (hsub : S ⊆ T) {a : α} (ha : a ∈ items) (hmem : r.key a ∈ S)
    (hbase : r.base a = false) : r.admits a T = true := by
  induction hS with
  | seed =>
    obtain ⟨b, hb, hkb⟩ := List.mem_map.mp (List.mem_toFinset.mp hmem)
    obtain ⟨hb, hin⟩ := List.mem_filter.mp hb
    rw [hkey b hb a ha hkb, hbase] at hin
    cases hin
  | @add S b hS hb hadmits ih =>
    rw [Finset.insert_subset_iff] at hsub
    rcases Finset.mem_insert.mp hmem with hab | hmem
    · obtain rfl := hkey a ha b hb hab
      exact h a ha hbase S T hS hT hsub.2 hadmits
    · exact ih hsub.2 hmem

theorem Persists.fixed_grow (h : Persists r items)
    (hkey : ∀ a ∈ items, ∀ b ∈ items, r.key a = r.key b → a = b) :
    Fixed r items (grow r items) := by
  intro a ha
  constructor
  · intro hmem
    cases hbase : r.base a with
    | true => exact .inl rfl
    | false =>
      have hgrown := grow_grown (r := r) items
      exact .inr (h.admits_of_mem hkey hgrown hgrown subset_rfl ha hmem hbase)
  · rintro (hbase | hadmits)
    · exact (grow_grown items).seed_subset (key_mem_seed ha hbase)
    · exact grow_stable items a ha hadmits

end

end Growing
