/-
Loops that count rounds.
-/
import Mathlib.Data.Nat.Notation

namespace Rounds

variable {α σ ε : Type}

/-- `n` updates, the first of which is number `i`. -/
def fill (put : ℕ → α → α) : ℕ → ℕ → α → α
  | 0, _, a => a
  | n + 1, i, a => fill put n (i + 1) (put i a)

/-- How many rounds have been made when a loop ends that has made `i` and makes at most `n` more: it
ends after a round that does not go on. -/
def scan (goes : ℕ → Bool) : ℕ → ℕ → ℕ
  | 0, i => i
  | n + 1, i => if goes i then scan goes n (i + 1) else i + 1

/-- At most `n` steps, the last of which is the first one that does not go on. -/
def repeatWhile (step : σ → Except ε σ) (again : σ → Bool) : ℕ → σ → Except ε σ
  | 0, s => .ok s
  | n + 1, s => do
    let s' ← step s
    if again s' then repeatWhile step again n s' else .ok s'

theorem fill_succ (put : ℕ → α → α) (n i : ℕ) (a : α) :
    fill put (n + 1) i a = put (i + n) (fill put n i a) := by
  induction n generalizing i a with
  | zero => rfl
  | succ n ih =>
      have hsucc : i + 1 + n = i + (n + 1) := by omega
      rw [fill, ih, hsucc]
      rfl

theorem fill_id {put : ℕ → α → α} (h : ∀ i a, put i a = a) (n i : ℕ) (a : α) :
    fill put n i a = a := by
  induction n generalizing i with
  | zero => rfl
  | succ n ih => rw [fill, h, ih]

variable {goes : ℕ → Bool}

theorem scan_always (h : ∀ i, goes i = true) (n i : ℕ) : scan goes n i = i + n := by
  induction n generalizing i with
  | zero => rfl
  | succ n ih =>
      rw [scan, if_pos (h i), ih]
      omega

theorem lt_scan {n i : ℕ} (hn : n ≠ 0) : i < scan goes n i := by
  induction n generalizing i with
  | zero => exact absurd rfl hn
  | succ n ih =>
      rw [scan]
      split
      · by_cases hzero : n = 0
        · subst hzero
          exact Nat.lt_succ_self i
        · have hrest := ih (i := i + 1) hzero
          omega
      · exact Nat.lt_succ_self i

/-- **The rule for loops of rounds**: `P i` holds after `i` rounds. -/
theorem repeatWhile_scan {step : σ → Except ε σ} {again : σ → Bool} {P : ℕ → σ → Prop}
    (hstep : ∀ i s, P i s → ∃ s', step s = .ok s' ∧ P (i + 1) s' ∧ again s' = goes i)
    (n : ℕ) {i : ℕ} {s : σ} (h : P i s) :
    ∃ s', repeatWhile step again n s = .ok s' ∧ P (scan goes n i) s' := by
  induction n generalizing i s with
  | zero => exact ⟨s, rfl, h⟩
  | succ n ih =>
      obtain ⟨s', hs', hP, hagain⟩ := hstep i s h
      have hrun : repeatWhile step again (n + 1) s =
          if again s' then repeatWhile step again n s' else .ok s' := by
        simp only [repeatWhile, hs']
        rfl
      rw [hrun, hagain, scan]
      split
      · exact ih hP
      · exact ⟨s', rfl, hP⟩

end Rounds
