/-
Computations that may give up and that must not go wrong.

A computation of a language with checked arithmetic and checked slices ends in
one of three ways: with a result, without one (it gives up, as its type says),
or in a fault, which stops the program.
-/
import Mathlib

/-- What stops a program: an index outside a slice, arithmetic outside its type, or a loop that
makes more rounds than it has been given. -/
inductive Fault
  | bounds
  | overflow
  | rounds
  deriving DecidableEq

abbrev Checked (α : Type) := OptionT (Except Fault) α

namespace Checked

variable {α β : Type}

def lift (o : Option α) : Checked α := OptionT.mk (.ok o)

def fault (e : Fault) : Checked α := OptionT.mk (.error e)

def provided (p : Prop) [Decidable p] (e : Fault) (a : α) : Checked α :=
  if p then pure a else fault e

def attempt (m : Checked α) : Checked (Option α) := OptionT.mk (m.run.map some)

def Safe (m : Checked α) : Prop := ∃ r, m.run = .ok r

def Yields (m : Checked α) (a : α) : Prop := m.run = .ok (some a)

theorem Yields.safe {m : Checked α} {a : α} (h : m.Yields a) : m.Safe := ⟨_, h⟩

theorem Yields.inj {m : Checked α} {a b : α} (ha : m.Yields a) (hb : m.Yields b) : a = b := by
  have heq : some a = some b := Except.ok.inj (ha.symm.trans hb)
  exact Option.some.inj heq

@[simp] theorem safe_pure (a : α) : (pure a : Checked α).Safe := ⟨some a, rfl⟩

@[simp] theorem safe_lift (o : Option α) : (lift o).Safe := ⟨o, rfl⟩

@[simp] theorem not_safe_fault (e : Fault) : ¬(fault e : Checked α).Safe := nofun

@[simp] theorem safe_provided {p : Prop} [Decidable p] {e : Fault} {a : α} :
    (provided p e a).Safe ↔ p := by
  by_cases hp : p
  · simp [provided, hp]
  · simp [provided, hp]

@[simp] theorem safe_attempt {m : Checked α} : (attempt m).Safe ↔ m.Safe := by
  constructor
  · rintro ⟨r, h⟩
    cases hm : m.run with
    | error e =>
      have hrun : (attempt m).run = .error e := by rw [attempt, OptionT.run_mk, hm]; rfl
      exact absurd (hrun.symm.trans h) nofun
    | ok o => exact ⟨o, hm⟩
  · rintro ⟨r, h⟩
    exact ⟨some r, by rw [attempt, OptionT.run_mk, h]; rfl⟩

theorem yields_attempt {m : Checked α} {o : Option α} :
    (attempt m).Yields o ↔ m.run = .ok o := by
  rw [Yields, attempt, OptionT.run_mk]
  cases m.run with
  | error e => exact ⟨nofun, nofun⟩
  | ok o' =>
    show Except.ok (some o') = Except.ok (some o) ↔ Except.ok o' = Except.ok o
    simp

@[simp] theorem yields_pure {a b : α} : (pure a : Checked α).Yields b ↔ a = b := by
  constructor
  · intro h
    exact Option.some.inj (Except.ok.inj h)
  · rintro rfl
    rfl

@[simp] theorem yields_lift {o : Option α} {a : α} : (lift o).Yields a ↔ o = some a := by
  constructor
  · intro h
    exact Except.ok.inj h
  · rintro rfl
    rfl

@[simp] theorem yields_provided {p : Prop} [Decidable p] {e : Fault} {a b : α} :
    (provided p e a).Yields b ↔ p ∧ a = b := by
  by_cases hp : p
  · simp [provided, hp]
  · simp only [provided, hp, if_false, false_and, iff_false]
    exact nofun

theorem run_bind_cases (m : Checked α) (f : α → Checked β) :
    (∃ e, m.run = .error e ∧ (m >>= f).run = .error e) ∨
      (m.run = .ok none ∧ (m >>= f).run = .ok none) ∨
      ∃ a, m.Yields a ∧ (m >>= f).run = (f a).run := by
  cases hm : m.run with
  | error e => exact .inl ⟨e, rfl, by rw [OptionT.run_bind, hm]; rfl⟩
  | ok o =>
    cases o with
    | none => exact .inr (.inl ⟨rfl, by rw [OptionT.run_bind, hm]; rfl⟩)
    | some a => exact .inr (.inr ⟨a, hm, by rw [OptionT.run_bind, hm]; rfl⟩)

@[simp] theorem safe_bind {m : Checked α} {f : α → Checked β} :
    (m >>= f).Safe ↔ m.Safe ∧ ∀ a, m.Yields a → (f a).Safe := by
  rcases run_bind_cases m f with ⟨e, hm, hr⟩ | ⟨hm, hr⟩ | ⟨a, hm, hr⟩
  · simp [Safe, hm, hr]
  · simp [Safe, Yields, hm, hr]
  · simp only [Safe, hr]
    constructor
    · intro h
      exact ⟨hm.safe, fun b hb => hm.inj hb ▸ h⟩
    · intro h
      exact h.2 a hm

@[simp] theorem yields_bind {m : Checked α} {f : α → Checked β} {b : β} :
    (m >>= f).Yields b ↔ ∃ a, m.Yields a ∧ (f a).Yields b := by
  rcases run_bind_cases m f with ⟨e, hm, hr⟩ | ⟨hm, hr⟩ | ⟨a, hm, hr⟩
  · simp [Yields, hm, hr]
  · simp [Yields, hm, hr]
  · constructor
    · intro h
      exact ⟨a, hm, hr.symm.trans h⟩
    · rintro ⟨a', ha', hb⟩
      obtain rfl := hm.inj ha'
      exact hr.trans hb

@[simp] theorem safe_map {m : Checked α} {f : α → β} : (f <$> m).Safe ↔ m.Safe := by
  rw [← bind_pure_comp, safe_bind]
  exact and_iff_left fun a _ => safe_pure (f a)

/-! ### Machine words -/

/-- `a + b` of two `u64` or `usize` values. -/
def addU64 (a b : ℕ) : Checked ℕ := provided (a + b < 2 ^ 64) .overflow (a + b)

/-- `a * b` of two `u64` or `usize` values. -/
def mulU64 (a b : ℕ) : Checked ℕ := provided (a * b < 2 ^ 64) .overflow (a * b)

/-- `a + b` of two `i64` values. -/
def addI64 (a b : ℤ) : Checked ℤ :=
  provided (-2 ^ 63 ≤ a + b ∧ a + b < 2 ^ 63) .overflow (a + b)

/-- `as i64`. -/
def toI64 (v : ℕ) : ℤ := (v : ℤ).bmod (2 ^ 64)

/-- `as u64`. -/
def toU64 (v : ℤ) : ℕ := (v % 2 ^ 64).toNat

end Checked
