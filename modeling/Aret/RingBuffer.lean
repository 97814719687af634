/-
A ring of `n` slots between two indices, empty when these are equal, and the list
of what it holds.
-/
import Mathlib.Data.List.Basic
import Mathlib.Logic.Function.Basic

/-- Slots `head`, `head + 1`, … up to `tail`, modulo `n`, are in use. -/
structure RingBuffer (n : ℕ) (α : Type*) where
  slot : ℕ → α
  head : ℕ
  tail : ℕ
  head_lt : head < n
  tail_lt : tail < n

namespace RingBuffer

variable {n : ℕ} {α : Type*} (r : RingBuffer n α) (a : α)

def empty (h : 0 < n) : RingBuffer n α := ⟨fun _ => a, 0, 0, h, h⟩

def isEmpty : Bool := r.head = r.tail

def front : α := r.slot r.head

def push : Option (RingBuffer n α) :=
  if (r.tail + 1) % n = r.head then none
  else
    some { r with
      slot := Function.update r.slot r.tail a
      tail := (r.tail + 1) % n
      tail_lt := Nat.mod_lt _ (Nat.zero_lt_of_lt r.head_lt) }

def pop : RingBuffer n α :=
  { r with head := (r.head + 1) % n, head_lt := Nat.mod_lt _ (Nat.zero_lt_of_lt r.head_lt) }

def length : ℕ := if r.head ≤ r.tail then r.tail - r.head else r.tail + n - r.head

/-- The `i`-th slot in use. -/
def nth (i : ℕ) : ℕ := (r.head + i) % n

def toList : List α := (List.range r.length).map fun i => r.slot (r.nth i)

/-! ### Indices -/

theorem succ_mod {i : ℕ} (h : i < n) : (i + 1) % n = if i + 1 = n then 0 else i + 1 := by
  split
  · rename_i he
    rw [he, Nat.mod_self]
  · rename_i he
    exact Nat.mod_eq_of_lt (by omega)

theorem length_cases :
    r.head ≤ r.tail ∧ r.length = r.tail - r.head ∨
      r.tail < r.head ∧ r.length = r.tail + n - r.head := by
  rcases Nat.lt_or_ge r.tail r.head with h | h
  · exact .inr ⟨h, if_neg (by omega)⟩
  · exact .inl ⟨h, if_pos h⟩

theorem length_lt : r.length < n := by
  have h := r.head_lt
  have t := r.tail_lt
  rcases r.length_cases with ⟨_, hl⟩ | ⟨_, hl⟩ <;> omega

theorem length_toList : r.toList.length = r.length := by
  simp [toList]

theorem nth_length : r.nth r.length = r.tail := by
  have h := r.head_lt
  have t := r.tail_lt
  show (r.head + r.length) % n = r.tail
  rcases r.length_cases with ⟨_, hl⟩ | ⟨_, hl⟩
  · rw [show r.head + r.length = r.tail by omega, Nat.mod_eq_of_lt t]
  · rw [show r.head + r.length = r.tail + n by omega, Nat.add_mod_right, Nat.mod_eq_of_lt t]

theorem nth_ne_tail {i : ℕ} (hi : i < r.length) : r.nth i ≠ r.tail := by
  have h := r.head_lt
  have hl := r.length_lt
  show (r.head + i) % n ≠ r.tail
  intro he
  have hd := Nat.div_add_mod (r.head + i) n
  rw [he] at hd
  -- The quotient is 0 before the wrap and 1 after it.
  rcases Nat.lt_or_ge (r.head + i) n with hs | hs
  · rw [Nat.div_eq_of_lt hs] at hd
    rcases r.length_cases with ⟨_, hc⟩ | ⟨_, hc⟩ <;> omega
  · have hq : (r.head + i) / n = 1 := Nat.div_eq_of_lt_le (by omega) (by omega)
    rw [hq] at hd
    rcases r.length_cases with ⟨_, hc⟩ | ⟨_, hc⟩ <;> omega

theorem isEmpty_iff : r.isEmpty = true ↔ r.toList = [] := by
  have h := r.head_lt
  rw [← List.length_eq_zero_iff, length_toList, isEmpty, decide_eq_true_iff]
  rcases r.length_cases with ⟨_, hl⟩ | ⟨_, hl⟩
  · constructor <;> intro _ <;> omega
  · constructor <;> intro _ <;> omega

/-! ### The operations on the list -/

@[simp] theorem toList_empty (h : 0 < n) : (empty a h).toList = [] := rfl

theorem push_eq_none_iff : r.push a = none ↔ r.toList.length = n - 1 := by
  have h := r.head_lt
  have t := r.tail_lt
  have hf : r.push a = none ↔ (r.tail + 1) % n = r.head := by
    unfold push
    split <;> simp [*]
  rw [hf, succ_mod t, length_toList]
  constructor
  · intro he
    rcases r.length_cases with ⟨_, hl⟩ | ⟨_, hl⟩ <;> split at he <;> omega
  · intro he
    rcases r.length_cases with ⟨_, hl⟩ | ⟨_, hl⟩ <;> split <;> omega

variable {r a}

theorem push_some {r' : RingBuffer n α} (hp : r.push a = some r') :
    (r.tail + 1) % n ≠ r.head ∧ r'.slot = Function.update r.slot r.tail a ∧
      r'.head = r.head ∧ r'.tail = (r.tail + 1) % n := by
  unfold push at hp
  split at hp
  · exact nomatch hp
  · rename_i hf
    obtain rfl := Option.some.inj hp
    exact ⟨hf, rfl, rfl, rfl⟩

theorem length_push {r' : RingBuffer n α} (hp : r.push a = some r') :
    r'.length = r.length + 1 := by
  have h := r.head_lt
  have t := r.tail_lt
  obtain ⟨hf, _, hh, ht⟩ := push_some hp
  rw [succ_mod t] at hf ht
  rcases r.length_cases with ⟨_, hl⟩ | ⟨_, hl⟩ <;>
    rcases r'.length_cases with ⟨_, hl'⟩ | ⟨_, hl'⟩ <;> split at hf <;> split at ht <;> omega

theorem toList_push {r' : RingBuffer n α} (hp : r.push a = some r') :
    r'.toList = r.toList ++ [a] := by
  have hl := length_push hp
  obtain ⟨_, hs, hh, _⟩ := push_some hp
  have hn : r'.nth = r.nth := by
    funext i
    show (r'.head + i) % n = (r.head + i) % n
    rw [hh]
  show (List.range r'.length).map (fun i => r'.slot (r'.nth i)) = r.toList ++ [a]
  rw [hl, List.range_succ, List.map_append, hn, hs]
  congr 1
  · apply List.map_congr_left
    intro i hi
    exact Function.update_of_ne (r.nth_ne_tail (List.mem_range.mp hi)) a r.slot
  · show [Function.update r.slot r.tail a (r.nth r.length)] = [a]
    rw [nth_length, Function.update_self]

theorem toList_pop (he : r.isEmpty = false) : r.toList = r.front :: r.pop.toList := by
  have h := r.head_lt
  have t := r.tail_lt
  have hne : r.head ≠ r.tail := of_decide_eq_false he
  have hp : r.pop.head = if r.head + 1 = n then 0 else r.head + 1 := succ_mod h
  have ht : r.pop.tail = r.tail := rfl
  have hl : r.length = r.pop.length + 1 := by
    rcases r.length_cases with ⟨_, hl⟩ | ⟨_, hl⟩ <;>
      rcases r.pop.length_cases with ⟨_, hl'⟩ | ⟨_, hl'⟩ <;> split at hp <;> omega
  show (List.range r.length).map (fun i => r.slot (r.nth i)) = _
  rw [hl, List.range_succ_eq_map, List.map_cons, List.map_map]
  congr 1
  · show r.slot ((r.head + 0) % n) = r.slot r.head
    rw [Nat.add_zero, Nat.mod_eq_of_lt h]
  · apply List.map_congr_left
    intro i _
    show r.slot ((r.head + (i + 1)) % n) = r.slot (((r.head + 1) % n + i) % n)
    rw [Nat.mod_add_mod, Nat.add_assoc, Nat.add_comm 1 i]

end RingBuffer
