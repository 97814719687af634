/-
Scans: steps that each write a cell, from it and from another one.
-/
import Mathlib.Data.List.Induction
import Mathlib.Logic.Function.Basic

namespace Scan

/-- A step writes `dst`, and reads `src` if there is one. -/
structure Move (κ : Type*) where
  dst : κ
  src : Option κ
deriving DecidableEq

variable {κ α : Type*} (f : Option α → α → α) (m : κ → α)

/-- The value that a step writes, where the cells are `m`. -/
def Move.value (v : Move κ) : α := f (v.src.map m) (m v.dst)

structure Simultaneous (m' : κ → α) (vs : List (Move κ)) : Prop where
  moved : ∀ v ∈ vs, m' v.dst = v.value f m
  kept : ∀ k, (∀ v ∈ vs, v.dst ≠ k) → m' k = m k

/-- If step `v` reads the cell of step `u`, it writes the same for the new value of that cell. -/
def Unseen (u v : Move κ) : Prop :=
  v.src = some u.dst → f (some (u.value f m)) (m v.dst) = v.value f m

variable [DecidableEq κ]

def scan (vs : List (Move κ)) : κ → α :=
  vs.foldl (fun m v => Function.update m v.dst (v.value f m)) m

variable {f m} {vs : List (Move κ)} {v : Move κ} {k : κ}

theorem scan_concat : scan f m (vs ++ [v]) =
    Function.update (scan f m vs) v.dst (v.value f (scan f m vs)) := List.foldl_append ..

theorem scan_of_ne (h : ∀ v ∈ vs, v.dst ≠ k) : scan f m vs k = m k := by
  induction vs using List.reverseRecOn with
  | nil => rfl
  | append_singleton vs v ih =>
    have hv := h v (List.mem_append_right _ List.mem_cons_self)
    rw [scan_concat, Function.update_of_ne hv.symm]
    exact ih fun u hu => h u (List.mem_append_left _ hu)

theorem simultaneous_concat (hne : ∀ u ∈ vs, u.dst ≠ v.dst) :
    Simultaneous f m (scan f m (vs ++ [v])) (vs ++ [v]) ↔
      Simultaneous f m (scan f m vs) vs ∧ ∀ u ∈ vs, Unseen f m u v := by
  have hself : scan f m (vs ++ [v]) v.dst = f (v.src.map (scan f m vs)) (m v.dst) := by
    rw [scan_concat, Function.update_self, Move.value, scan_of_ne hne]
  have hother : ∀ k ≠ v.dst, scan f m (vs ++ [v]) k = scan f m vs k := fun k hk => by
    rw [scan_concat, Function.update_of_ne hk]
  constructor
  · intro h
    have hs : Simultaneous f m (scan f m vs) vs := by
      refine ⟨fun u hu => ?_, fun k => scan_of_ne⟩
      rw [← hother u.dst (hne u hu)]
      exact h.moved u (List.mem_append_left _ hu)
    refine ⟨hs, fun u hu hsrc => ?_⟩
    have hlast := h.moved v (List.mem_append_right _ List.mem_cons_self)
    rwa [hself, hsrc, Option.map_some, hs.moved u hu] at hlast
  · rintro ⟨hs, hunseen⟩
    refine ⟨fun w hw => ?_, fun k hk => ?_⟩
    · rcases List.mem_append.mp hw with hw | hw
      · rw [hother w.dst (hne w hw)]
        exact hs.moved w hw
      · obtain rfl := List.mem_singleton.mp hw
        rw [hself]
        cases hsrc : w.src with
        | none => rw [Move.value, hsrc, Option.map_none, Option.map_none]
        | some q =>
          by_cases hq : ∃ u ∈ vs, u.dst = q
          · obtain ⟨u, hu, rfl⟩ := hq
            rw [Option.map_some, hs.moved u hu]
            exact hunseen u hu hsrc
          · have hold : scan f m vs q = m q := scan_of_ne fun u hu huq => hq ⟨u, hu, huq⟩
            rw [Move.value, hsrc, Option.map_some, Option.map_some, hold]
    · have hkv := hk v (List.mem_append_right _ List.mem_cons_self)
      rw [hother k hkv.symm]
      exact hs.kept k fun u hu => hk u (List.mem_append_left _ hu)

theorem simultaneous_iff (h : vs.Pairwise fun u v => u.dst ≠ v.dst) :
    Simultaneous f m (scan f m vs) vs ↔ vs.Pairwise (Unseen f m) := by
  induction vs using List.reverseRecOn with
  | nil => exact ⟨fun _ => .nil, fun _ => ⟨fun v hv => absurd hv List.not_mem_nil, fun k _ => rfl⟩⟩
  | append_singleton vs v ih =>
    obtain ⟨hvs, -, hne⟩ := List.pairwise_append.mp h
    have hlast : ∀ u ∈ vs, u.dst ≠ v.dst := fun u hu => hne u hu v List.mem_cons_self
    rw [simultaneous_concat hlast, ih hvs, List.pairwise_append]
    simp only [List.pairwise_singleton, List.mem_singleton, forall_eq, true_and]

end Scan
