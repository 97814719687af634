/-
Deterministic systems and forward simulations.

A system is a partial step function on states with a view of each state.  Two
systems have the same runs from two states when every stage of the one is seen
at a stage of the other at least as late, and they end together.
-/
import Mathlib.Tactic

namespace Sim

section
variable {σ τ ω : Type} {step : σ → Option σ}

/-- Exactly `k` steps, if there are that many. -/
def stepN (step : σ → Option σ) : ℕ → σ → Option σ
  | 0, s => some s
  | k + 1, s => (step s).bind (stepN step k)

/-- At most `n` steps: the state where the system is after `n` steps or has ended. -/
def runN (step : σ → Option σ) : ℕ → σ → σ
  | 0, s => s
  | n + 1, s =>
    match step s with
    | none => s
    | some s' => runN step n s'

theorem runN_of_step {s s' : σ} (h : step s = some s') (n : ℕ) :
    runN step (n + 1) s = runN step n s' := by
  rw [runN, h]

theorem runN_of_end {s : σ} (h : step s = none) (n : ℕ) : runN step n s = s := by
  cases n with
  | zero => rfl
  | succ n => rw [runN, h]

theorem runN_of_stepN {k : ℕ} {s s' : σ} (h : stepN step k s = some s') (n : ℕ) :
    runN step (k + n) s = runN step n s' := by
  induction k generalizing s with
  | zero =>
    obtain rfl := Option.some.inj h
    rw [Nat.zero_add]
  | succ k ih =>
    obtain ⟨t, ht, hts⟩ := Option.bind_eq_some_iff.mp h
    rw [Nat.succ_add, runN_of_step ht, ih hts]

theorem runN_next {n : ℕ} {s s' : σ} (h : step (runN step n s) = some s') :
    runN step (n + 1) s = s' := by
  induction n generalizing s with
  | zero => exact runN_of_step h 0
  | succ n ih =>
    cases hs : step s with
    | none =>
      rw [runN_of_end hs, hs] at h
      cases h
    | some t =>
      rw [runN_of_step hs] at h ⊢
      exact ih h

/-- Every stage of the first run is seen at a stage of the second at least as
late, and where the one has ended so has the other. -/
def SameRuns (step₁ : σ → Option σ) (view₁ : σ → ω) (step₂ : τ → Option τ) (view₂ : τ → ω)
    (s : σ) (t : τ) : Prop :=
  ∀ n, ∃ m, n ≤ m ∧ view₁ (runN step₁ n s) = view₂ (runN step₂ m t) ∧
    (step₁ (runN step₁ n s) = none ↔ step₂ (runN step₂ m t) = none)

end

section
variable {σ τ ω : Type} {step₁ : σ → Option σ} {view₁ : σ → ω} {step₂ : τ → Option τ}
  {view₂ : τ → ω}

/-- One step of the first system is matched by one or more of the second, and the
end of the first by the end of the second, perhaps some steps later. -/
structure IsSimulation (step₁ : σ → Option σ) (view₁ : σ → ω) (step₂ : τ → Option τ)
    (view₂ : τ → ω) (R : σ → τ → Prop) : Prop where
  view : ∀ {s t}, R s t → view₁ s = view₂ t
  step : ∀ {s t s'}, R s t → step₁ s = some s' →
    ∃ k t', stepN step₂ (k + 1) t = some t' ∧ R s' t'
  stop : ∀ {s t}, R s t → step₁ s = none →
    ∃ k t', stepN step₂ k t = some t' ∧ step₂ t' = none ∧ view₁ s = view₂ t'

theorem SameRuns.of_simulation {R : σ → τ → Prop}
    (h : IsSimulation step₁ view₁ step₂ view₂ R) {s : σ} {t : τ} (hR : R s t) :
    SameRuns step₁ view₁ step₂ view₂ s t := by
  intro n
  induction n generalizing s t with
  | zero =>
    cases hs : step₁ s with
    | none =>
      obtain ⟨k, t', hk, hend, hview⟩ := h.stop hR hs
      refine ⟨k, Nat.zero_le _, ?_⟩
      have hrun := runN_of_stepN hk 0
      rw [Nat.add_zero] at hrun
      rw [hrun]
      exact ⟨hview, by simp [runN, hs, hend]⟩
    | some s' =>
      obtain ⟨k, t', hk, -⟩ := h.step hR hs
      obtain ⟨t₁, ht₁, -⟩ := Option.bind_eq_some_iff.mp hk
      exact ⟨0, le_rfl, h.view hR, by simp [runN, hs, ht₁]⟩
  | succ n ih =>
    cases hs : step₁ s with
    | none =>
      obtain ⟨k, t', hk, hend, hview⟩ := h.stop hR hs
      refine ⟨k + (n + 1), Nat.le_add_left _ _, ?_⟩
      rw [runN_of_stepN hk, runN_of_end hend, runN_of_end hs]
      exact ⟨hview, by simp [hs, hend]⟩
    | some s' =>
      obtain ⟨k, t', hk, hR'⟩ := h.step hR hs
      obtain ⟨m, hm, hview, hend⟩ := ih hR'
      refine ⟨k + 1 + m, by omega, ?_⟩
      rw [runN_of_step hs, runN_of_stepN hk]
      exact ⟨hview, hend⟩

theorem SameRuns.trans {υ : Type} {step₃ : υ → Option υ} {view₃ : υ → ω} {s : σ} {t : τ} {u : υ}
    (h : SameRuns step₁ view₁ step₂ view₂ s t) (h' : SameRuns step₂ view₂ step₃ view₃ t u) :
    SameRuns step₁ view₁ step₃ view₃ s u := by
  intro n
  obtain ⟨m, hm, hview, hend⟩ := h n
  obtain ⟨k, hk, hview', hend'⟩ := h' m
  exact ⟨k, hm.trans hk, hview.trans hview', hend.trans hend'⟩

theorem SameRuns.map_view {υ : Type} {s : σ} {t : τ} (h : SameRuns step₁ view₁ step₂ view₂ s t)
    (g : ω → υ) : SameRuns step₁ (fun s => g (view₁ s)) step₂ (fun t => g (view₂ t)) s t := by
  intro n
  obtain ⟨m, hm, hview, hend⟩ := h n
  exact ⟨m, hm, congrArg g hview, hend⟩

theorem SameRuns.after {s : σ} {t t' : τ} {k : ℕ} (h : SameRuns step₁ view₁ step₂ view₂ s t')
    (hk : stepN step₂ k t = some t') : SameRuns step₁ view₁ step₂ view₂ s t := by
  intro n
  obtain ⟨m, hm, hview, hend⟩ := h n
  refine ⟨k + m, by omega, ?_⟩
  rw [runN_of_stepN hk]
  exact ⟨hview, hend⟩

end

end Sim
