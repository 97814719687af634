/-
Computations that read a keyed store.

A `ReadTree` is a computation that looks keys up one after the other, where
what it looks at next may depend on what it found (or failed to find) so far.
It is the general form of a program that reads files: the tree shows every
lookup, including those of absent keys.
-/
import Mathlib.Data.List.Basic
import Mathlib.Tactic

namespace Aret

/-- A computation with result in `α` that looks up keys in a store `κ → Option β`. -/
inductive ReadTree (κ β α : Type) where
  | done (a : α)
  | look (p : κ) (next : Option β → ReadTree κ β α)

namespace ReadTree

variable {κ β α : Type}

/-- The result on the store `fs`. -/
def run (fs : κ → Option β) : ReadTree κ β α → α
  | .done a => a
  | .look p next => run fs (next (fs p))

/-- The keys looked up on the store `fs`, in order. -/
def looked (fs : κ → Option β) : ReadTree κ β α → List κ
  | .done _ => []
  | .look p next => p :: looked fs (next (fs p))

def found (fs : κ → Option β) (t : ReadTree κ β α) : List κ :=
  (t.looked fs).filter fun p => (fs p).isSome

def missed (fs : κ → Option β) (t : ReadTree κ β α) : List κ :=
  (t.looked fs).filter fun p => (fs p).isNone

theorem mem_found {fs : κ → Option β} {t : ReadTree κ β α} {p : κ} :
    p ∈ t.found fs ↔ p ∈ t.looked fs ∧ (fs p).isSome := by
  simp [found, List.mem_filter]

theorem mem_missed {fs : κ → Option β} {t : ReadTree κ β α} {p : κ} :
    p ∈ t.missed fs ↔ p ∈ t.looked fs ∧ fs p = none := by
  simp [missed, List.mem_filter]

theorem run_congr {fs fs' : κ → Option β} {t : ReadTree κ β α}
    (h : ∀ p ∈ t.looked fs, fs' p = fs p) : t.run fs' = t.run fs := by
  induction t with
  | done a => rfl
  | look p next ih =>
    have hp : fs' p = fs p := h p (by simp [looked])
    rw [run, run, hp]
    exact ih (fs p) fun q hq => h q (by simp [looked, hq])

theorem run_of_found_missed {fs fs' : κ → Option β} {t : ReadTree κ β α}
    (hf : ∀ p ∈ t.found fs, fs' p = fs p) (hm : ∀ p ∈ t.missed fs, fs' p = none) :
    t.run fs' = t.run fs := by
  refine run_congr fun p hp => ?_
  rcases hv : fs p with _ | v
  · exact hm p (mem_missed.mpr ⟨hp, hv⟩)
  · rw [← hv]
    exact hf p (mem_found.mpr ⟨hp, by simp [hv]⟩)

end ReadTree

end Aret
