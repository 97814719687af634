/-
Texts copied one after another into a memory that is not mapped everywhere.
-/
import Mathlib.Data.List.Basic
import Mathlib.Tactic

namespace Overlay

variable {β : Type*}

abbrev Mem (β : Type*) := ℕ → Option β

abbrev Piece (β : Type*) := ℕ × List β

def Covers (a : ℕ) (r : Piece β) : Prop := r.1 ≤ a ∧ a < r.1 + r.2.length

instance (a : ℕ) (r : Piece β) : Decidable (Covers a r) := inferInstanceAs (Decidable (_ ∧ _))

def overlay (m : Mem β) (r : Piece β) : Mem β :=
  fun a => if Covers a r then r.2[a - r.1]? else m a

def copyTo (m : Mem β) (r : Piece β) : Option (Mem β) :=
  if ∀ i < r.2.length, (m (r.1 + i)).isSome then some (overlay m r) else none

def copyAll (m : Mem β) : List (Piece β) → Option (Mem β)
  | [] => some m
  | r :: rs => (copyTo m r).bind fun m' => copyAll m' rs

def lastCover (rs : List (Piece β)) (a : ℕ) : Option (Piece β) :=
  rs.reverse.find? fun r => Covers a r

def overlaid (m : Mem β) (rs : List (Piece β)) (a : ℕ) : Option β :=
  match lastCover rs a with
  | some r => r.2[a - r.1]?
  | none => m a

variable {m m' : Mem β} {r : Piece β} {rs : List (Piece β)} {a : ℕ}

theorem isSome_getElem?_of_covers (h : Covers a r) : (r.2[a - r.1]?).isSome := by
  obtain ⟨hlo, hhi⟩ := h
  rw [List.getElem?_eq_getElem (by omega)]
  rfl

theorem isSome_overlay (h : (m a).isSome) : (overlay m r a).isSome := by
  unfold overlay
  split_ifs with hc
  · exact isSome_getElem?_of_covers hc
  · exact h

theorem covers_of_lastCover (h : lastCover rs a = some r) : Covers a r :=
  of_decide_eq_true (List.find?_some (p := fun r => decide (Covers a r)) h)

theorem isSome_overlaid (h : (m a).isSome) : (overlaid m rs a).isSome := by
  unfold overlaid
  cases hlast : lastCover rs a with
  | some r => exact isSome_getElem?_of_covers (covers_of_lastCover hlast)
  | none => exact h

theorem overlaid_of_lastCover (h : lastCover rs a = some r) :
    overlaid m rs a = r.2[a - r.1]? := by
  rw [overlaid, h]

theorem copyTo_eq_some (h : ∀ a, Covers a r → (m a).isSome) :
    copyTo m r = some (overlay m r) :=
  if_pos fun i hi => h _ ⟨Nat.le_add_right _ _, by omega⟩

theorem eq_overlay_of_copyTo (h : copyTo m r = some m') : m' = overlay m r := by
  unfold copyTo at h
  split_ifs at h
  exact (Option.some.inj h).symm

theorem lastCover_cons (r : Piece β) (rs : List (Piece β)) (a : ℕ) :
    lastCover (r :: rs) a = (lastCover rs a).or (if Covers a r then some r else none) := by
  rw [lastCover, lastCover, List.reverse_cons, List.find?_append, List.find?_singleton]
  simp only [decide_eq_true_eq]

theorem overlaid_cons (m : Mem β) (r : Piece β) (rs : List (Piece β)) (a : ℕ) :
    overlaid m (r :: rs) a = overlaid (overlay m r) rs a := by
  unfold overlaid
  rw [lastCover_cons]
  cases lastCover rs a with
  | some last => rfl
  | none =>
    rw [Option.none_or, overlay]
    split_ifs <;> rfl

theorem copyAll_total (h : ∀ r ∈ rs, ∀ a, Covers a r → (m a).isSome) :
    ∃ m', copyAll m rs = some m' := by
  induction rs generalizing m with
  | nil => exact ⟨m, rfl⟩
  | cons r rs ih =>
    have hhead := copyTo_eq_some (h r List.mem_cons_self)
    obtain ⟨m', hm'⟩ := ih (m := overlay m r) fun s hs a hc =>
      isSome_overlay (h s (List.mem_cons_of_mem r hs) a hc)
    exact ⟨m', by rw [copyAll, hhead, Option.bind_some, hm']⟩

theorem copyAll_apply (h : copyAll m rs = some m') (a : ℕ) : m' a = overlaid m rs a := by
  induction rs generalizing m with
  | nil =>
    rw [← Option.some.inj h]
    rfl
  | cons r rs ih =>
    obtain ⟨m₁, h₁, hrest⟩ := Option.bind_eq_some_iff.mp h
    rw [ih hrest, overlaid_cons, eq_overlay_of_copyTo h₁]

end Overlay
