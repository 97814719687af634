/-
Tables of numbered slots.
-/
import Mathlib.Tactic

abbrev Slots (α : Type*) := List (Option α)

namespace Slots

variable {α : Type*}

def get (t : Slots α) (i : ℕ) : Option α := t[i]?.join

def free (t : Slots α) : ℕ := t.findIdx Option.isNone

def add (t : Slots α) (x : α) : Slots α :=
  if t.free < t.length then t.set t.free (some x) else t ++ [some x]

def find (t : Slots α) (p : α → Bool) : Option ℕ := t.findIdx? fun o => o.any p

variable {t : Slots α} {i j : ℕ} {x : α} {p : α → Bool}

theorem get_of_length_le (h : t.length ≤ i) : get t i = none := by
  rw [get, List.getElem?_eq_none h]
  rfl

theorem lt_length_of_get (h : get t i = some x) : i < t.length := by
  by_contra hno
  rw [get_of_length_le (Nat.le_of_not_lt hno)] at h
  exact nomatch h

theorem get_set {o : Option α} (hi : i < t.length) :
    get (t.set i o) j = if j = i then o else get t j := by
  rw [get, List.getElem?_set, get]
  by_cases h : i = j
  · rw [if_pos h, if_pos h.symm, if_pos hi]
    rfl
  · rw [if_neg h, if_neg (Ne.symm h)]

theorem get_set_none : get (t.set i none) j = if j = i then none else get t j := by
  by_cases hi : i < t.length
  · exact get_set hi
  · rw [List.set_eq_of_length_le (Nat.le_of_not_lt hi)]
    split
    · rename_i h
      exact get_of_length_le (h ▸ Nat.le_of_not_lt hi)
    · rfl

theorem get_free (t : Slots α) : get t (free t) = none := by
  by_cases h : free t < t.length
  · have hnone : (t[free t]).isNone = true := List.findIdx_getElem (w := h)
    rw [get, List.getElem?_eq_getElem h, Option.isNone_iff_eq_none.mp hnone]
    rfl
  · exact get_of_length_le (Nat.le_of_not_lt h)

theorem free_le : free t ≤ t.length := List.findIdx_le_length

theorem get_add : get (t.add x) j = if j = free t then some x else get t j := by
  rw [add]
  split
  · rename_i h
    exact get_set h
  · rename_i h
    have hfree : free t = t.length := le_antisymm free_le (Nat.le_of_not_lt h)
    rw [hfree, get]
    rcases lt_trichotomy j t.length with hj | rfl | hj
    · rw [List.getElem?_append_left hj, if_neg hj.ne]
      rfl
    · rw [List.getElem?_append_right le_rfl, Nat.sub_self, if_pos rfl]
      rfl
    · rw [if_neg hj.ne', get_of_length_le hj.le, List.getElem?_eq_none]
      · rfl
      · rw [List.length_append, List.length_singleton]
        omega

theorem find_eq_some (h : t.find p = some i) : ∃ x, get t i = some x ∧ p x = true := by
  obtain ⟨hi, hp, _⟩ := List.findIdx?_eq_some_iff_getElem.mp h
  obtain ⟨x, hx, hpx⟩ := (Option.any_eq_true _ _).mp hp
  refine ⟨x, ?_, hpx⟩
  rw [get, List.getElem?_eq_getElem hi, Option.join_some, hx]

theorem find_eq_none (h : t.find p = none) (hx : get t i = some x) : p x = false := by
  have hi := lt_length_of_get hx
  rw [get, List.getElem?_eq_getElem hi, Option.join_some] at hx
  have hno := List.findIdx?_eq_none_iff.mp h _ (List.getElem_mem hi)
  rwa [hx] at hno

end Slots
