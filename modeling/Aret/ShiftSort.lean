/-
Insertion sort, as loops over an array do it: each element goes to the left past the
greater ones in front of it.
-/
import Mathlib.Data.List.DropRight
import Mathlib.Order.Defs.LinearOrder
import Mathlib.Tactic

namespace ShiftSort

variable {α β : Type*} (gt : α → α → Bool)

def insert (xs : List α) (t : α) : List α :=
  xs.rdropWhile (gt · t) ++ t :: xs.rtakeWhile (gt · t)

def shiftSort (xs : List α) : List α := xs.foldl (insert gt) []

variable {gt} {xs : List α} {t : α}

theorem perm_insert : (insert gt xs t).Perm (t :: xs) := by
  rw [insert]
  refine List.perm_middle.trans (List.Perm.cons t ?_)
  rw [List.rdropWhile_append_rtakeWhile]

theorem perm_foldl {ys : List α} : (xs.foldl (insert gt) ys).Perm (ys ++ xs) := by
  induction xs generalizing ys with
  | nil => rw [List.foldl_nil, List.append_nil]
  | cons x xs ih =>
    rw [List.foldl_cons]
    refine ih.trans ((perm_insert.append_right xs).trans ?_)
    rw [List.cons_append]
    exact List.perm_middle.symm

theorem perm_shiftSort : (shiftSort gt xs).Perm xs := by
  have h := @perm_foldl α gt xs []
  rwa [List.nil_append] at h

variable [LinearOrder β] {key : α → β}

theorem pairwise_insert (hkey : ∀ x t, gt x t = true ↔ key t < key x)
    (h : xs.Pairwise fun x y => key x ≤ key y) :
    (insert gt xs t).Pairwise fun x y => key x ≤ key y := by
  have hsplit : xs.rdropWhile (gt · t) ++ xs.rtakeWhile (gt · t) = xs :=
    List.rdropWhile_append_rtakeWhile
  rw [← hsplit, List.pairwise_append] at h
  obtain ⟨hleft, hright, hcross⟩ := h
  have hgreater : ∀ y ∈ xs.rtakeWhile (gt · t), key t ≤ key y := by
    intro y hy
    have hgt := List.mem_rtakeWhile_imp hy
    exact ((hkey y t).mp hgt).le
  -- the last element on the left is not greater, and so none of them is
  have hless : ∀ x ∈ xs.rdropWhile (gt · t), key x ≤ key t := by
    intro x hx
    have hlast := @List.rdropWhile_last_not _ (gt · t) xs
    rcases List.eq_nil_or_concat (xs.rdropWhile (gt · t)) with hnil | ⟨front, last, heq⟩
    · rw [hnil] at hx
      exact absurd hx List.not_mem_nil
    · rw [List.concat_eq_append] at heq
      simp only [heq] at hlast hx hleft
      have hle : key last ≤ key t := by
        have h := hlast (by simp)
        rw [List.getLast_append_singleton, hkey] at h
        exact not_lt.mp h
      rw [List.pairwise_append] at hleft
      rcases List.mem_append.mp hx with hx | hx
      · exact (hleft.2.2 x hx last (List.mem_singleton_self _)).trans hle
      · rwa [List.mem_singleton.mp hx]
  rw [insert, List.pairwise_append, List.pairwise_cons]
  refine ⟨hleft, ⟨hgreater, hright⟩, fun x hx y hy => ?_⟩
  rcases List.mem_cons.mp hy with rfl | hy
  · exact hless x hx
  · exact hcross x hx y hy

theorem pairwise_shiftSort (hkey : ∀ x t, gt x t = true ↔ key t < key x) (xs : List α) :
    (shiftSort gt xs).Pairwise fun x y => key x ≤ key y := by
  have h : ∀ (xs ys : List α), ys.Pairwise (fun x y => key x ≤ key y) →
      (xs.foldl (insert gt) ys).Pairwise fun x y => key x ≤ key y := by
    intro xs
    induction xs with
    | nil => exact fun _ h => h
    | cons x xs ih => exact fun ys h => ih _ (pairwise_insert hkey h)
  exact h xs [] List.Pairwise.nil

end ShiftSort
