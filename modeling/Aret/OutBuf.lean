/-
Output buffers of C programs: an array and the index of the next element.
-/
import Mathlib.Data.List.TakeWhile
import Mathlib.Tactic

/-- The text that a `char *` points to. -/
structure CStr where
  bytes : List UInt8
  noNul : 0 ∉ bytes

def cstr (cells : List UInt8) : List UInt8 := cells.takeWhile (· ≠ 0)

theorem cstr_append {bs : List UInt8} (h : 0 ∉ bs) (rest : List UInt8) :
    cstr (bs ++ 0 :: rest) = bs := by
  have hall : ∀ b ∈ bs, decide (b ≠ 0) = true :=
    fun b hb => decide_eq_true fun h0 => h (h0 ▸ hb)
  rw [cstr, List.takeWhile_append_of_pos hall, List.takeWhile_cons_of_neg (by simp),
    List.append_nil]

structure OutBuf (α : Type*) where
  cells : List α
  pos : ℕ

namespace OutBuf

variable {α : Type*}

/-- Elements are stored from `i` on; none of them may lie outside the array. -/
def blit (cells : List α) (i : ℕ) (xs : List α) : Option (List α) :=
  if i + xs.length ≤ cells.length then
    some (cells.take i ++ (xs ++ cells.drop (i + xs.length)))
  else none

theorem length_blit {cells cells' xs : List α} {i : ℕ} (h : blit cells i xs = some cells') :
    cells'.length = cells.length := by
  rw [blit] at h
  split at h
  · rename_i hle
    rw [← Option.some.inj h, List.length_append, List.length_append, List.length_take,
      List.length_drop]
    omega
  · exact nomatch h

variable (b : OutBuf α)

/-- `memcpy(out + o, xs, n); o += n`. -/
def append (xs : List α) : Option (OutBuf α) :=
  (blit b.cells b.pos xs).map fun cells => ⟨cells, b.pos + xs.length⟩

/-- `o += snprintf(out + o, n, "%s", xs)`: the text is cut so that its terminator fits, and its
whole length is returned. -/
def print (nul : α) (n : ℕ) (xs : List α) : Option (OutBuf α) :=
  if n = 0 then some ⟨b.cells, b.pos + xs.length⟩
  else
    (blit b.cells b.pos (xs.take (n - 1) ++ [nul])).map fun cells => ⟨cells, b.pos + xs.length⟩

/-- `o < cap - 1`, where `cap - 1` wraps for an array without elements. -/
def Room : Prop := b.cells = [] ∨ b.pos + 1 < b.cells.length

instance : Decidable b.Room := by
  have : Decidable (b.cells = []) := decidable_of_iff _ List.isEmpty_iff
  exact inferInstanceAs (Decidable (_ ∨ _))

/-- `for (; o < cap - 1; ) out[o++] = x`, over some elements. -/
def fill : List α → OutBuf α → Option (OutBuf α)
  | [], b => some b
  | x :: xs, b => if b.Room then (b.append [x]).bind (fill xs) else some b

/-- `out[o] = 0`. -/
def close (nul : α) : Option (List α) := blit b.cells b.pos [nul]

/-- The array starts with a text, and the next element comes behind it. -/
structure Shows (text : List α) (n : ℕ) (b : OutBuf α) : Prop where
  pos : b.pos = text.length
  cells : ∃ rest, b.cells = text ++ rest
  length : b.cells.length = n

variable {b} {text xs : List α} {n : ℕ} {nul : α}

theorem Shows.le (h : Shows text n b) : text.length ≤ n := by
  obtain ⟨rest, hrest⟩ := h.cells
  rw [← h.length, hrest, List.length_append]
  exact Nat.le_add_right _ _

theorem shows_start (cells : List α) : Shows [] cells.length ⟨cells, 0⟩ :=
  ⟨rfl, ⟨cells, rfl⟩, rfl⟩

theorem Shows.stored (h : Shows text n b) (hfit : text.length + xs.length ≤ n) :
    ∃ rest, blit b.cells b.pos xs = some (text ++ (xs ++ rest)) ∧
      (text ++ (xs ++ rest)).length = n := by
  obtain ⟨rest, hrest⟩ := h.cells
  have hle : b.pos + xs.length ≤ b.cells.length := by
    rw [h.pos, h.length]
    exact hfit
  refine ⟨b.cells.drop (b.pos + xs.length), ?_, ?_⟩
  · rw [blit, if_pos hle, h.pos, hrest, List.take_left']
    rfl
  · rw [List.length_append, List.length_append, List.length_drop, h.pos, h.length]
    omega

theorem Shows.append (h : Shows text n b) (hfit : text.length + xs.length ≤ n) :
    ∃ b', b.append xs = some b' ∧ Shows (text ++ xs) n b' := by
  obtain ⟨rest, hblit, hlen⟩ := h.stored hfit
  refine ⟨_, by rw [OutBuf.append, hblit]; rfl, ?_, ⟨rest, (List.append_assoc ..).symm⟩, hlen⟩
  rw [h.pos, List.length_append]

theorem Shows.print (h : Shows text n b) {k : ℕ} (hk : xs.length < k)
    (hfit : text.length + xs.length < n) :
    ∃ b', b.print nul k xs = some b' ∧ Shows (text ++ xs) n b' := by
  have hcut : xs.take (k - 1) = xs := List.take_of_length_le (by omega)
  have hfit' : text.length + (xs ++ [nul]).length ≤ n := by
    rw [List.length_append, List.length_singleton]
    omega
  obtain ⟨rest, hblit, hlen⟩ := h.stored hfit'
  refine ⟨⟨text ++ (xs ++ [nul] ++ rest), b.pos + xs.length⟩, ?_, ?_,
    ⟨nul :: rest, by simp only [List.append_assoc, List.singleton_append]⟩, hlen⟩
  · rw [OutBuf.print, if_neg (by omega), hcut, hblit]
    rfl
  · rw [h.pos, List.length_append]

theorem Shows.fill (h : Shows text n b) (hroom : text.length < n) :
    ∃ b', fill xs b = some b' ∧ Shows (text ++ xs.take (n - 1 - text.length)) n b' := by
  induction xs generalizing text b with
  | nil => exact ⟨b, rfl, by rwa [List.take_nil, List.append_nil]⟩
  | cons x xs ih =>
    by_cases hr : text.length + 1 < n
    · have hone : text.length + [x].length ≤ n := by rw [List.length_singleton]; omega
      obtain ⟨b₁, hb₁, h₁⟩ := h.append hone
      have hlen : (text ++ [x]).length = text.length + 1 := List.length_append
      obtain ⟨b₂, hb₂, h₂⟩ := ih h₁ (by omega)
      refine ⟨b₂, ?_, ?_⟩
      · have hroom : b.Room := Or.inr (by rw [h.pos, h.length]; exact hr)
        rw [OutBuf.fill, if_pos hroom, hb₁]
        exact hb₂
      · obtain ⟨k, hk⟩ : ∃ k, n - 1 - text.length = k + 1 := ⟨n - 2 - text.length, by omega⟩
        rw [hlen, show n - 1 - (text.length + 1) = k by omega] at h₂
        rwa [hk, List.take_succ_cons, ← List.singleton_append, ← List.append_assoc]
    · have hno : ¬ b.Room := by
        rintro (hnil | hlt)
        · have := h.length
          rw [hnil, List.length_nil] at this
          omega
        · rw [h.pos, h.length] at hlt
          exact hr hlt
      refine ⟨b, by rw [OutBuf.fill, if_neg hno], ?_⟩
      rwa [show n - 1 - text.length = 0 by omega, List.take_zero, List.append_nil]

theorem Shows.close (h : Shows text n b) (hroom : text.length < n) :
    ∃ rest, b.close nul = some (text ++ nul :: rest) ∧ (text ++ nul :: rest).length = n := by
  have hfit : text.length + [nul].length ≤ n := hroom
  obtain ⟨rest, hblit, hlen⟩ := h.stored hfit
  exact ⟨rest, hblit, hlen⟩

end OutBuf
