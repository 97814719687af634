/-
LZSS with a window.

A text is built from literals and from copies of what lies a fixed distance back;
in front of the text lie blanks.  Places are counted modulo `w` from `s` on, the
text's first place, and a copy names the place where it starts: of the elements
with this place it means the last one.
-/
import Mathlib.Data.List.Basic
import Mathlib.Logic.Function.Basic
import Mathlib.Tactic

namespace Lzss

variable {α : Type*} (blank : α)

/-- The element that lies `d` back, at least one. -/
def back (text : List α) (d : ℕ) : α := text.reverse.getD (d - 1) blank

/-- `n` elements, each of which lies `d` back when it is appended. -/
def copy (d : ℕ) : ℕ → List α → List α
  | 0, text => text
  | n + 1, text => copy d n (text ++ [back blank text d])

def distance (w s length q : ℕ) : ℕ := (s + length + w - q - 1) % w + 1

inductive Item (α : Type*)
  | literal (a : α)
  | reference (q n : ℕ)

variable (w s : ℕ)

def Item.apply (text : List α) : Item α → List α
  | .literal a => text ++ [a]
  | .reference q n => copy blank (distance w s text.length q) n text

def expand (text : List α) (items : List (Item α)) : List α :=
  items.foldl (Item.apply blank w s) text

theorem prefix_copy (d n : ℕ) (text : List α) : text <+: copy blank d n text := by
  induction n generalizing text with
  | zero => exact List.prefix_rfl
  | succ n ih => exact (List.prefix_append _ _).trans (ih _)

theorem prefix_apply (text : List α) (item : Item α) : text <+: item.apply blank w s text := by
  cases item with
  | literal a => exact List.prefix_append _ _
  | reference q n => exact prefix_copy blank _ n text

theorem prefix_expand (text : List α) (items : List (Item α)) :
    text <+: expand blank w s text items := by
  induction items generalizing text with
  | nil => exact List.prefix_rfl
  | cons item items ih => exact (prefix_apply blank w s text item).trans (ih _)

theorem take_of_prefix {text longer : List α} (h : text <+: longer) :
    longer.take text.length = text := by
  obtain ⟨rest, rfl⟩ := h
  exact List.take_left

/-! ### The ring -/

/-- The cells, and the place to write next. -/
structure Window (α : Type*) where
  cell : ℕ → α
  pos : ℕ

namespace Window

variable (r : Window α)

def write (a : α) : Window α := ⟨Function.update r.cell r.pos a, (r.pos + 1) % w⟩

structure Mirrors (text : List α) : Prop where
  pos_lt : r.pos < w
  pos : r.pos = (s + text.length) % w
  cell : ∀ d, 1 ≤ d → d ≤ w → r.cell ((r.pos + w - d) % w) = back blank text d

variable {blank w s r} {text : List α}

theorem back_append_one (a : α) : back blank (text ++ [a]) 1 = a := by
  rw [back, List.reverse_append]
  rfl

theorem back_append_succ (a : α) {d : ℕ} (hd : 1 ≤ d) :
    back blank (text ++ [a]) (d + 1) = back blank text d := by
  obtain ⟨d, rfl⟩ := Nat.exists_eq_add_of_le' hd
  rw [back, List.reverse_append]
  rfl

theorem mirrors_start (hs : s < w) (hr : r.pos = s) (hblank : ∀ q, q < w → r.cell q = blank) :
    r.Mirrors blank w s [] := by
  refine ⟨hr ▸ hs, by rw [hr, List.length_nil, Nat.add_zero, Nat.mod_eq_of_lt hs], fun d _ _ => ?_⟩
  rw [hblank _ (Nat.mod_lt _ (Nat.zero_lt_of_lt hs)), back]
  rfl

theorem add_sub_mod {p d : ℕ} (hp : p < w) (hd1 : 1 ≤ d) (hd : d ≤ w) :
    (p + w - d) % w = if d ≤ p then p - d else p + w - d := by
  split
  · rw [show p + w - d = p - d + w by omega, Nat.add_mod_right, Nat.mod_eq_of_lt (by omega)]
  · exact Nat.mod_eq_of_lt (by omega)

theorem Mirrors.write (h : r.Mirrors blank w s text) (a : α) :
    (r.write w a).Mirrors blank w s (text ++ [a]) := by
  have hw : 0 < w := Nat.zero_lt_of_lt h.pos_lt
  refine ⟨Nat.mod_lt _ hw, ?_, fun d hd1 hd => ?_⟩
  · show (r.pos + 1) % w = _
    rw [h.pos, List.length_append, List.length_singleton, Nat.mod_add_mod, Nat.add_assoc]
  show Function.update r.cell r.pos a (((r.pos + 1) % w + w - d) % w) = _
  have hpos := h.pos_lt
  have hnext : (r.pos + 1) % w = if r.pos + 1 = w then 0 else r.pos + 1 := by
    split
    · rename_i heq
      rw [heq, Nat.mod_self]
    · exact Nat.mod_eq_of_lt (by omega)
  have hplace : ((r.pos + 1) % w + w - d) % w =
      if d = 1 then r.pos else (r.pos + w - (d - 1)) % w := by
    rw [add_sub_mod (Nat.mod_lt _ hw) hd1 hd, hnext]
    by_cases hone : d = 1
    · rw [if_pos hone]
      split_ifs <;> omega
    · rw [if_neg hone, add_sub_mod hpos (by omega) (by omega)]
      split_ifs <;> omega
  rw [hplace]
  by_cases hone : d = 1
  · rw [if_pos hone, hone, Function.update_self, back_append_one]
  · obtain ⟨d, rfl⟩ := Nat.exists_eq_add_of_le' hd1
    have hne : (r.pos + w - d) % w ≠ r.pos := by
      rw [add_sub_mod hpos (by omega) (by omega)]
      split_ifs <;> omega
    rw [if_neg hone, Nat.add_sub_cancel, Function.update_of_ne hne, back_append_succ a (by omega)]
    exact h.cell d (by omega) (by omega)

theorem distance_eq (h : r.Mirrors blank w s text) {q : ℕ} (hq : q < w) :
    distance w s text.length q = if r.pos ≤ q then r.pos + w - q else r.pos - q := by
  have hpos := h.pos_lt
  have hmod : distance w s text.length q = (r.pos + w - q - 1) % w + 1 := by
    have hsplit := Nat.div_add_mod (s + text.length) w
    rw [← h.pos] at hsplit
    rw [distance, show s + text.length + w - q - 1 =
      r.pos + w - q - 1 + w * ((s + text.length) / w) by omega, Nat.add_mul_mod_self_left]
  rw [hmod]
  split
  · rw [Nat.mod_eq_of_lt (by omega)]
    omega
  · rw [show r.pos + w - q - 1 = r.pos - q - 1 + w by omega, Nat.add_mod_right,
      Nat.mod_eq_of_lt (by omega)]
    omega

theorem Mirrors.read (h : r.Mirrors blank w s text) {q : ℕ} (hq : q < w) :
    r.cell q = back blank text (distance w s text.length q) := by
  have hpos := h.pos_lt
  have hd := distance_eq h hq
  have hrange : 1 ≤ distance w s text.length q ∧ distance w s text.length q ≤ w := by
    rw [hd]
    split <;> omega
  rw [← h.cell _ hrange.1 hrange.2]
  congr 1
  rw [add_sub_mod hpos hrange.1 hrange.2, hd]
  split_ifs <;> omega

theorem distance_succ (h : r.Mirrors blank w s text) (a : α) {q : ℕ} (hq : q < w) :
    distance w s (text ++ [a]).length ((q + 1) % w) = distance w s text.length q := by
  have hw : 0 < w := Nat.zero_lt_of_lt hq
  have hpos := h.pos_lt
  have hnext : ∀ {p}, p < w → (p + 1) % w = if p + 1 = w then 0 else p + 1 := by
    intro p hp
    split
    · rename_i heq
      rw [heq, Nat.mod_self]
    · exact Nat.mod_eq_of_lt (by omega)
  have hpos' : (r.write w a).pos = if r.pos + 1 = w then 0 else r.pos + 1 := hnext hpos
  rw [distance_eq (h.write a) (Nat.mod_lt _ hw), distance_eq h hq, hpos', hnext hq]
  split_ifs <;> omega

end Window

end Lzss
