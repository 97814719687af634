/-
Byte buffers with numbers and texts at positions.
-/
import Mathlib.Data.List.Basic
import Mathlib.Data.List.TakeWhile
import Mathlib.Tactic

namespace ByteBuf

abbrev Buf := List UInt8

def le32 (v : ℕ) : Buf :=
  [UInt8.ofNat v, UInt8.ofNat (v / 2 ^ 8), UInt8.ofNat (v / 2 ^ 16), UInt8.ofNat (v / 2 ^ 24)]

def le64 (v : ℕ) : Buf := le32 v ++ le32 (v / 2 ^ 32)

/-- Bytes written over those at `off`. -/
def put (f : Buf) (off : ℕ) (bs : Buf) : Buf := f.take off ++ (bs ++ f.drop (off + bs.length))

def byteAt (f : Buf) (off : ℕ) : ℕ := (f.getD off 0).toNat

def rd16 (f : Buf) (off : ℕ) : ℕ := byteAt f off + byteAt f (off + 1) * 2 ^ 8

def rd32 (f : Buf) (off : ℕ) : ℕ :=
  byteAt f off + byteAt f (off + 1) * 2 ^ 8 + byteAt f (off + 2) * 2 ^ 16 +
    byteAt f (off + 3) * 2 ^ 24

def rd64 (f : Buf) (off : ℕ) : ℕ := rd32 f off + rd32 f (off + 4) * 2 ^ 32

/-- The text at `off`, up to a NUL. -/
def cstr (f : Buf) (off : ℕ) : Buf := (f.drop off).takeWhile (· ≠ 0)

/-- The bytes at `off`. -/
def Holds (f : Buf) (off : ℕ) (bs : Buf) : Prop :=
  ∀ i, i < bs.length → f[off + i]? = bs[i]?

variable {f g bs cs : Buf} {off o v : ℕ}

@[simp] theorem length_le32 (v : ℕ) : (le32 v).length = 4 := rfl

theorem length_put (h : off + bs.length ≤ f.length) : (put f off bs).length = f.length := by
  rw [put, List.length_append, List.length_append, List.length_take, List.length_drop]
  omega

theorem getElem?_put (h : off + bs.length ≤ f.length) (i : ℕ) :
    (put f off bs)[i]? = if off ≤ i ∧ i < off + bs.length then bs[i - off]? else f[i]? := by
  have htake : (f.take off).length = off := by
    rw [List.length_take]
    omega
  rw [put]
  by_cases hlo : i < off
  · rw [List.getElem?_append_left (by omega), if_neg (by omega), List.getElem?_take_of_lt hlo]
  · rw [List.getElem?_append_right (by omega), htake]
    by_cases hhi : i < off + bs.length
    · rw [List.getElem?_append_left (by omega), if_pos ⟨by omega, hhi⟩]
    · rw [List.getElem?_append_right (by omega), List.getElem?_drop, if_neg (by omega)]
      congr 1
      omega

theorem Holds.length_le (h : Holds f off bs) (hne : bs ≠ []) : off + bs.length ≤ f.length := by
  have hpos : 0 < bs.length := List.length_pos_iff.mpr hne
  have hlast := h (bs.length - 1) (by omega)
  rw [List.getElem?_eq_getElem (l := bs) (by omega)] at hlast
  have hin := (List.getElem?_eq_some_iff.mp hlast).1
  omega

theorem Holds.append (h : Holds f off bs) (g : Buf) : Holds (f ++ g) off bs := by
  intro i hi
  have hin := h.length_le (by rintro rfl; exact absurd hi (Nat.not_lt_zero i))
  rw [List.getElem?_append_left (by omega)]
  exact h i hi

theorem holds_append_self (f bs g : Buf) : Holds (f ++ (bs ++ g)) f.length bs := by
  intro i hi
  rw [List.getElem?_append_right (by omega), Nat.add_sub_cancel_left,
    List.getElem?_append_left hi]

theorem Holds.shift (h : Holds f off bs) (pre : Buf) : Holds (pre ++ f) (pre.length + off) bs := by
  intro i hi
  rw [Nat.add_assoc, List.getElem?_append_right (by omega), Nat.add_sub_cancel_left]
  exact h i hi

theorem Holds.left (h : Holds f off (bs ++ cs)) : Holds f off bs := by
  intro i hi
  rw [h i (by rw [List.length_append]; omega), List.getElem?_append_left hi]

theorem Holds.right (h : Holds f off (bs ++ cs)) : Holds f (off + bs.length) cs := by
  intro i hi
  rw [Nat.add_assoc, h _ (by rw [List.length_append]; omega),
    List.getElem?_append_right (by omega), Nat.add_sub_cancel_left]

theorem Holds.put_self (h : off + bs.length ≤ f.length) : Holds (put f off bs) off bs := by
  intro i hi
  rw [getElem?_put h, if_pos ⟨by omega, by omega⟩, Nat.add_sub_cancel_left]

theorem Holds.put_disjoint (hc : Holds f o cs) (h : off + bs.length ≤ f.length)
    (hdis : o + cs.length ≤ off ∨ off + bs.length ≤ o) : Holds (put f off bs) o cs := by
  intro i hi
  rw [getElem?_put h, if_neg (by omega)]
  exact hc i hi

theorem rd32_mod_of_holds (h : Holds f off (le32 v)) : rd32 f off = v % 2 ^ 32 := by
  have hbyte : ∀ i b, (le32 v)[i]? = some b → byteAt f (off + i) = b.toNat := by
    intro i b hb
    have hi := (List.getElem?_eq_some_iff.mp hb).1
    rw [byteAt, List.getD_eq_getElem?_getD, h i hi, hb]
    rfl
  rw [rd32, hbyte 1 _ rfl, hbyte 2 _ rfl, hbyte 3 _ rfl]
  have h0 := hbyte 0 _ rfl
  rw [Nat.add_zero] at h0
  rw [h0]
  simp only [UInt8.toNat_ofNat']
  omega

theorem rd32_of_holds (h : Holds f off (le32 v)) (hv : v < 2 ^ 32) : rd32 f off = v := by
  rw [rd32_mod_of_holds h, Nat.mod_eq_of_lt hv]

@[simp] theorem length_le64 (v : ℕ) : (le64 v).length = 8 := rfl

theorem rd64_of_holds (h : Holds f off (le64 v)) (hv : v < 2 ^ 64) : rd64 f off = v := by
  have hhigh : Holds f (off + 4) (le32 (v / 2 ^ 32)) := h.right
  rw [rd64, rd32_mod_of_holds h.left, rd32_mod_of_holds hhigh]
  omega

theorem byteAt_lt (f : Buf) (off : ℕ) : byteAt f off < 2 ^ 8 := UInt8.toNat_lt _

theorem rd32_lt (f : Buf) (off : ℕ) : rd32 f off < 2 ^ 32 := by
  have h0 := byteAt_lt f off
  have h1 := byteAt_lt f (off + 1)
  have h2 := byteAt_lt f (off + 2)
  have h3 := byteAt_lt f (off + 3)
  rw [rd32]
  omega

theorem rd64_lt (f : Buf) (off : ℕ) : rd64 f off < 2 ^ 64 := by
  have h0 := rd32_lt f off
  have h1 := rd32_lt f (off + 4)
  rw [rd64]
  omega

theorem uint8_ofNat_congr {m n : ℕ} (h : m % 2 ^ 8 = n % 2 ^ 8) :
    UInt8.ofNat m = UInt8.ofNat n := by
  rw [← UInt8.toNat_inj, UInt8.toNat_ofNat', UInt8.toNat_ofNat', h]

theorem le32_mod (v : ℕ) : le32 v = le32 (v % 2 ^ 32) := by
  have h0 : v % 2 ^ 8 = v % 2 ^ 32 % 2 ^ 8 := by omega
  have h1 : v / 2 ^ 8 % 2 ^ 8 = v % 2 ^ 32 / 2 ^ 8 % 2 ^ 8 := by omega
  have h2 : v / 2 ^ 16 % 2 ^ 8 = v % 2 ^ 32 / 2 ^ 16 % 2 ^ 8 := by omega
  have h3 : v / 2 ^ 24 % 2 ^ 8 = v % 2 ^ 32 / 2 ^ 24 % 2 ^ 8 := by omega
  rw [le32, le32, uint8_ofNat_congr h0, uint8_ofNat_congr h1, uint8_ofNat_congr h2,
    uint8_ofNat_congr h3]

theorem holds_le32 (h : off + 4 ≤ f.length) : Holds f off (le32 (rd32 f off)) := by
  have hbyte : ∀ i, i < 4 → f[off + i]? = some (UInt8.ofNat (byteAt f (off + i))) := by
    intro i hi
    rw [byteAt, List.getD_eq_getElem?_getD, List.getElem?_eq_getElem (by omega), Option.getD_some,
      UInt8.ofNat_toNat]
  have h0 := byteAt_lt f off
  have h1 := byteAt_lt f (off + 1)
  have h2 := byteAt_lt f (off + 2)
  intro i hi
  rw [hbyte i hi]
  unfold rd32
  match i, hi with
  | 0, _ => exact congrArg some (uint8_ofNat_congr (by rw [Nat.add_zero]; omega))
  | 1, _ => exact congrArg some (uint8_ofNat_congr (by omega))
  | 2, _ => exact congrArg some (uint8_ofNat_congr (by omega))
  | 3, _ => exact congrArg some (uint8_ofNat_congr (by omega))

theorem Holds.isPrefix (h : Holds f off bs) : bs <+: f.drop off := by
  rw [List.prefix_iff_getElem?]
  intro i hi
  rw [List.getElem?_drop, h i hi, List.getElem?_eq_getElem hi]

theorem Holds.concat (h : Holds f off bs) (h' : Holds f (off + bs.length) cs) :
    Holds f off (bs ++ cs) := by
  intro i hi
  by_cases hlt : i < bs.length
  · rw [List.getElem?_append_left hlt]
    exact h i hlt
  · rw [List.length_append] at hi
    rw [List.getElem?_append_right (by omega), ← h' (i - bs.length) (by omega)]
    congr 1
    omega

theorem holds_le64 (h : off + 8 ≤ f.length) : Holds f off (le64 (rd64 f off)) := by
  have hlt := rd32_lt f off
  have hlow : le32 (rd64 f off) = le32 (rd32 f off) := by
    rw [le32_mod (rd64 f off), rd64, Nat.add_mul_mod_self_right, Nat.mod_eq_of_lt hlt]
  have hhigh : rd64 f off / 2 ^ 32 = rd32 f (off + 4) := by
    rw [rd64]
    omega
  rw [le64, hlow, hhigh]
  exact (holds_le32 (by omega)).concat (holds_le32 (by rw [length_le32]; omega))

theorem byteAt_append_right (f g : Buf) (o : ℕ) : byteAt (f ++ g) (f.length + o) = byteAt g o := by
  rw [byteAt, byteAt, List.getD_eq_getElem?_getD, List.getD_eq_getElem?_getD,
    List.getElem?_append_right (Nat.le_add_right _ _), Nat.add_sub_cancel_left]

theorem rd32_append_right (f g : Buf) (o : ℕ) : rd32 (f ++ g) (f.length + o) = rd32 g o := by
  simp only [rd32, Nat.add_assoc, byteAt_append_right]

theorem rd64_append_right (f g : Buf) (o : ℕ) : rd64 (f ++ g) (f.length + o) = rd64 g o := by
  simp only [rd64, Nat.add_assoc, rd32_append_right]

/-- Two buffers have the same bytes from `lo` up to `hi`. -/
def Agree (f g : Buf) (lo hi : ℕ) : Prop := ∀ i, lo ≤ i → i < hi → g[i]? = f[i]?

theorem Agree.trans {lo hi : ℕ} {h : Buf} (hfg : Agree f g lo hi) (hgh : Agree g h lo hi) :
    Agree f h lo hi :=
  fun i hlo hhi => (hgh i hlo hhi).trans (hfg i hlo hhi)

theorem agree_put {lo hi : ℕ} (h : off + bs.length ≤ f.length)
    (hdis : hi ≤ off ∨ off + bs.length ≤ lo) : Agree f (put f off bs) lo hi := by
  intro i hlo hhi
  rw [getElem?_put h, if_neg (by omega)]

theorem agree_append {lo hi : ℕ} (h : hi ≤ f.length) (g : Buf) : Agree f (f ++ g) lo hi := by
  intro i hlo hhi
  rw [List.getElem?_append_left (by omega)]

theorem Agree.byteAt {lo hi : ℕ} (h : Agree f g lo hi) (hlo : lo ≤ o) (hhi : o < hi) :
    byteAt g o = byteAt f o := by
  rw [ByteBuf.byteAt, ByteBuf.byteAt, List.getD_eq_getElem?_getD, List.getD_eq_getElem?_getD,
    h o hlo hhi]

theorem Agree.rd32 (h : Agree f g o (o + 4)) : rd32 g o = rd32 f o := by
  rw [ByteBuf.rd32, ByteBuf.rd32, h.byteAt le_rfl (by omega), h.byteAt (by omega) (by omega),
    h.byteAt (by omega) (by omega), h.byteAt (by omega) (by omega)]

theorem Agree.holds (h : Agree f g o (o + bs.length)) (hold : Holds f o bs) : Holds g o bs := by
  intro i hi
  rw [h _ (by omega) (by omega)]
  exact hold i hi

/-! ### Words written one after another -/

section

variable {ws : List (ℕ × ℕ)}

def writes (f : Buf) (ws : List (ℕ × ℕ)) : Buf := ws.foldl (fun f w => put f w.1 (le32 w.2)) f

theorem writes_spec (h : ∀ w ∈ ws, w.1 + 4 ≤ f.length) : (writes f ws).length = f.length ∧
    ∀ lo hi, (∀ w ∈ ws, hi ≤ w.1 ∨ w.1 + 4 ≤ lo) → Agree f (writes f ws) lo hi := by
  induction ws generalizing f with
  | nil => exact ⟨rfl, fun _ _ _ _ _ _ => rfl⟩
  | cons w ws ih =>
    obtain ⟨hw, hws⟩ := List.forall_mem_cons.mp h
    have hroom : w.1 + (le32 w.2).length ≤ f.length := by rwa [length_le32]
    have hlen := length_put hroom
    obtain ⟨hsame, hagree⟩ := ih fun w hw => hlen.symm ▸ hws w hw
    refine ⟨hsame.trans hlen, fun lo hi hdis => ?_⟩
    obtain ⟨hd, hds⟩ := List.forall_mem_cons.mp hdis
    exact (agree_put hroom (by rwa [length_le32])).trans (hagree lo hi hds)

/-- A word stays where none of the later ones is written over it. -/
theorem holds_writes (before : List (ℕ × ℕ))
    (h : ∀ w ∈ before ++ (o, v) :: ws, w.1 + 4 ≤ f.length)
    (hdis : ∀ w ∈ ws, o + 4 ≤ w.1 ∨ w.1 + 4 ≤ o) :
    Holds (writes f (before ++ (o, v) :: ws)) o (le32 v) := by
  obtain ⟨hbefore, hlater⟩ := List.forall_mem_append.mp h
  obtain ⟨ho, hws⟩ := List.forall_mem_cons.mp hlater
  have hlen := (writes_spec hbefore).1
  have hroom : o + (le32 v).length ≤ (writes f before).length := by rwa [length_le32, hlen]
  have hsame := (length_put hroom).trans hlen
  have hagree := (writes_spec fun w hw => hsame.symm ▸ hws w hw).2 o _ hdis
  rw [writes, List.foldl_append, List.foldl_cons]
  exact hagree.holds (Holds.put_self hroom)

end

theorem cstr_of_holds (h : Holds f off (bs ++ [0])) : cstr f off = bs.takeWhile (· ≠ 0) := by
  obtain ⟨rest, hrest⟩ := h.isPrefix
  rw [cstr, ← hrest, List.append_assoc, List.takeWhile_append]
  split_ifs with hall
  · have heq : bs.takeWhile (· ≠ 0) = bs :=
      (List.takeWhile_prefix _).eq_of_length hall
    rw [heq]
    simp
  · rfl

end ByteBuf
