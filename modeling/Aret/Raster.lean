/-
The lines that the runtime draws on its surfaces.

A line goes one pixel at a time along its longer side, and an error term decides when to move
along the other one.  Signed arithmetic that leaves the range of an `int` is undefined, so a
computation with it has no result here.

* `lines_exact` — the line that is drawn, and that the three calls draw the same.
-/
import Mathlib.Algebra.Order.Floor.Ring
import Mathlib.Data.Rat.Floor
import Mathlib.Tactic.Linarith
import Mathlib.Tactic.Ring

namespace Aret.Gdi

/-! ### Integers and surfaces -/

/-- A value of the type `int`. -/
def IsInt (x : ℤ) : Prop := -2 ^ 31 ≤ x ∧ x < 2 ^ 31

instance (x : ℤ) : Decidable (IsInt x) := inferInstanceAs (Decidable (_ ∧ _))

/-- The result of an operation on `int`s. -/
def int (x : ℤ) : Option ℤ := if IsInt x then some x else none

/-- A 32-bit bitmap: `bits` is the byte at an offset from its start. -/
structure Bitmap where
  w : ℤ
  h : ℤ
  topdown : Bool
  bpp : ℤ
  bits : ℕ → UInt8

namespace Bitmap
variable (bm : Bitmap)

/-- `gdi_px`: the offset of a pixel. -/
def px (x y : ℤ) : Option ℕ :=
  if x < 0 ∨ y < 0 ∨ x ≥ bm.w ∨ y ≥ bm.h then none
  else
    let row := if bm.topdown then y else bm.h - 1 - y
    some ((row * bm.w + x).toNat * 4)

/-- `gdi_put`. -/
def put (x y : ℤ) (c : UInt32) : Bitmap :=
  match bm.px x y with
  | none => bm
  | some p =>
    { bm with
      bits := fun o =>
        if o = p then (c >>> 16).toUInt8
        else if o = p + 1 then (c >>> 8).toUInt8
        else if o = p + 2 then c.toUInt8
        else if o = p + 3 then 0
        else bm.bits o }

def pixel (x y : ℤ) : Option (List UInt8) :=
  (bm.px x y).map fun p => [bm.bits p, bm.bits (p + 1), bm.bits (p + 2), bm.bits (p + 3)]

end Bitmap

/-- The bytes of a colour. -/
def dib (c : UInt32) : List UInt8 := [(c >>> 16).toUInt8, (c >>> 8).toUInt8, c.toUInt8, 0]

/-! ### The rasteriser -/

section
variable {σ : Type} (visit : ℤ → ℤ → σ → σ)

/-- The loop of `gdi_bres` along the longer side, of which `n` rounds are left. -/
def bresLoop (sM sm aM am : ℤ) : ℕ → ℤ → ℤ → ℤ → σ → Option σ
  | 0, _, _, _, s => some s
  | n + 1, M, m, err, s => do
    let s := visit M m s
    let (m, err) ←
      if err > 0 then do
        let m ← int (m + sm)
        let d ← int (2 * aM)
        let err ← int (err - d)
        pure (m, err)
      else pure (m, err)
    let d ← int (2 * am)
    let err ← int (err + d)
    let M ← int (M + sM)
    bresLoop sM sm aM am n M m err s

/-- The direction along a side, `sx` or `sy`. -/
def dir (d : ℤ) : ℤ := if d < 0 then -1 else 1

/-- The length of a side, `adx` or `ady`. -/
def side (d : ℤ) : Option ℤ := if d < 0 then int (-d) else some d

/-- `gdi_bres`, where `visit` is what it does at a pixel. -/
def bres (x0 y0 x1 y1 : ℤ) (s : σ) : Option σ := do
  let dx ← int (x1 - x0)
  let dy ← int (y1 - y0)
  let sx := dir dx
  let sy := dir dy
  let adx ← side dx
  let ady ← side dy
  if adx ≥ ady then
    let d ← int (2 * ady)
    let err ← int (d - adx)
    bresLoop visit sx sy adx ady adx.toNat x0 y0 err s
  else
    let d ← int (2 * adx)
    let err ← int (d - ady)
    bresLoop (fun y x => visit x y) sy sx ady adx ady.toNat y0 x0 err s

end

/-- The pixels that `gdi_bres` goes through. -/
def visited (x0 y0 x1 y1 : ℤ) : Option (List (ℤ × ℤ)) :=
  bres (fun x y l => l ++ [(x, y)]) x0 y0 x1 y1 []

/-- `gdi_bres`: a pixel is set where there is one. -/
def gdiBres (bm : Bitmap) (x0 y0 x1 y1 : ℤ) (c : UInt32) : Option Bitmap :=
  bres (fun x y bm => if (bm.px x y).isSome then bm.put x y c else bm) x0 y0 x1 y1 bm

/-! ### Device contexts -/

structure Pen where
  nullObj : Bool
  stock : Bool
  style : ℤ
  width : ℤ
  color : UInt32

/-- A device context: its pen, the bitmap it draws on, its mapping and its position. -/
structure Dc where
  selPen : Option Pen
  surface : Option Bitmap
  vpOx : ℤ
  vpOy : ℤ
  winOx : ℤ
  winOy : ℤ
  vpEx : ℤ
  vpEy : ℤ
  winEx : ℤ
  winEy : ℤ
  curX : ℤ
  curY : ℤ

/-- `gdi_muldiv`: to the nearest, ties away from zero. -/
def gdiMuldiv (a b c : ℤ) : ℤ :=
  if c = 0 then 0
  else
    let num := if c < 0 then -(a * b) else a * b
    let c := if c < 0 then -c else c
    let half := c / 2
    Int.bmod (if num ≥ 0 then (num + half) / c else -((-num + half) / c)) (2 ^ 32)

namespace Dc
variable (d : Dc)

/-- `gdi_pen`: no result where the pen is not modelled, and no colour where it draws nothing. -/
def pen : Option (Option UInt32) :=
  match d.selPen with
  | none => some (some 0)
  | some p =>
    if p.nullObj then some none
    else if p.stock = false ∧ (p.style ≠ 0 ∨ p.width > 1) then none
    else some (some p.color)

/-- `dc_l2d`. -/
def l2d (lx ly : ℤ) : Option (ℤ × ℤ) := do
  let x ← int (lx - d.winOx)
  let x ← int (gdiMuldiv x d.vpEx d.winEx + d.vpOx)
  let y ← int (ly - d.winOy)
  let y ← int (gdiMuldiv y d.vpEy d.winEy + d.vpOy)
  pure (x, y)

/-- `dc_map_identity`. -/
def mapIdentity : Bool :=
  d.vpOx = 0 ∧ d.vpOy = 0 ∧ d.winOx = 0 ∧ d.winOy = 0 ∧ d.vpEx = d.winEx ∧ d.vpEy = d.winEy

/-- The bitmap and the colour to draw with, if there is something to draw. -/
def canvas (pr : Option UInt32) : Option (Bitmap × UInt32) :=
  match pr, d.surface with
  | some c, some bm => if bm.bpp = 32 then some (bm, c) else none
  | _, _ => none

def moveTo (x y : ℤ) : Dc := { d with curX := x, curY := y }

def lineTo (x y : ℤ) : Option Dc :=
  match d.pen with
  | none => some d
  | some pr =>
    match d.canvas pr with
    | none => some (d.moveTo x y)
    | some (bm, c) => do
      let (x0, y0) ← d.l2d d.curX d.curY
      let (x1, y1) ← d.l2d x y
      let bm ← gdiBres bm x0 y0 x1 y1 c
      pure ({ d with surface := some bm }.moveTo x y)

/-- The loop of `aret_Polyline` from segment `i` on. -/
def polylineLoop (pts : ℕ → ℤ) (c : UInt32) : ℕ → ℕ → Bitmap → Option Bitmap
  | 0, _, bm => some bm
  | n + 1, i, bm => do
    let (x0, y0) ← d.l2d (pts (2 * i)) (pts (2 * i + 1))
    let (x1, y1) ← d.l2d (pts (2 * i + 2)) (pts (2 * i + 3))
    let bm ← gdiBres bm x0 y0 x1 y1 c
    polylineLoop pts c n (i + 1) bm

/-- `aret_Polyline`; `pts` may be NULL. -/
def polyline (pts : Option (ℕ → ℤ)) (n : ℤ) : Option Dc :=
  match d.pen with
  | none => some d
  | some pr =>
    match d.canvas pr, pts with
    | some (bm, c), some pts =>
      if n ≥ 2 then do
        let bm ← d.polylineLoop pts c (n - 1).toNat 0 bm
        pure { d with surface := some bm }
      else some d
    | _, _ => some d

/-- The loop of `aret_PolylineTo` from point `i` on. -/
def polylineToLoop (pts : ℕ → ℤ) (c : UInt32) : ℕ → ℕ → ℤ → ℤ → Bitmap → Option Bitmap
  | 0, _, _, _, bm => some bm
  | n + 1, i, cx, cy, bm => do
    let bm ← gdiBres bm cx cy (pts (2 * i)) (pts (2 * i + 1)) c
    polylineToLoop pts c n (i + 1) (pts (2 * i)) (pts (2 * i + 1)) bm

/-- `aret_PolylineTo`; under a mapping other than the identity it does nothing. -/
def polylineTo (pts : Option (ℕ → ℤ)) (n : ℤ) : Option Dc :=
  if d.mapIdentity = false then some d
  else
    match d.pen, pts with
    | some pr, some pts =>
      if n ≥ 1 then
        let d' := d.moveTo (pts (2 * (n - 1).toNat)) (pts (2 * (n - 1).toNat + 1))
        match d.canvas pr with
        | none => some d'
        | some (bm, c) => do
          let bm ← polylineToLoop pts c n.toNat 0 d.curX d.curY bm
          pure { d' with surface := some bm }
      else some d
    | _, _ => some d

/-- The mapping takes every point to itself: there are no origins, and the extents are equal and
not zero, as they are in a new context and in `MM_TEXT`. -/
structure Identity : Prop where
  guard : d.mapIdentity = true
  extent : d.winEx ≠ 0 ∧ d.winEy ≠ 0

end Dc

/-! ### The pixels nearest to a line -/

/-- The minor offset of pixel `k` of a line with the given sides. -/
def offset (aM am : ℤ) (k : ℕ) : ℤ := ⌈(k * am : ℚ) / aM - 1 / 2⌉

/-- Pixel `k` of the line between two points. -/
def linePoint (x0 y0 x1 y1 : ℤ) (k : ℕ) : ℤ × ℤ :=
  let adx := |x1 - x0|
  let ady := |y1 - y0|
  if adx ≥ ady then
    (x0 + (x1 - x0).sign * k, y0 + (y1 - y0).sign * offset adx ady k)
  else (x0 + (x1 - x0).sign * offset ady adx k, y0 + (y1 - y0).sign * k)

def linePoints (x0 y0 x1 y1 : ℤ) : List (ℤ × ℤ) :=
  (List.range (max |x1 - x0| |y1 - y0|).toNat).map (linePoint x0 y0 x1 y1)

theorem offset_eq_iff {aM am : ℤ} (hM : 0 < aM) (k : ℕ) (o : ℤ) :
    offset aM am k = o ↔ (2 * o - 1) * aM < 2 * (k * am) ∧ 2 * (k * am) ≤ (2 * o + 1) * aM := by
  have hpos : (0 : ℚ) < aM := by exact_mod_cast hM
  rw [offset, Int.ceil_eq_iff]
  -- both bounds, multiplied by twice the longer side
  have hlo : (o : ℚ) - 1 < k * am / aM - 1 / 2 ↔ ((2 * o - 1) * aM : ℚ) < 2 * (k * am) := by
    rw [lt_sub_iff_add_lt, lt_div_iff₀ hpos]
    constructor <;> intro h <;> linarith
  have hhi : (k * am : ℚ) / aM - 1 / 2 ≤ o ↔ (2 * (k * am) : ℚ) ≤ (2 * o + 1) * aM := by
    rw [sub_le_iff_le_add, div_le_iff₀ hpos]
    constructor <;> intro h <;> linarith
  rw [hlo, hhi]
  norm_cast

section
variable {aM am : ℤ} (hM : 0 < aM) (hm : 0 ≤ am) (hle : am ≤ aM)
include hM

theorem offset_zero : offset aM am 0 = 0 := by
  rw [offset_eq_iff hM]
  constructor <;> push_cast <;> linarith

variable (am) in
theorem offset_bounds (k : ℕ) : (2 * offset aM am k - 1) * aM < 2 * (k * am) ∧
    2 * (k * am) ≤ (2 * offset aM am k + 1) * aM :=
  (offset_eq_iff hM k _).mp rfl

include hm

theorem offset_nonneg (k : ℕ) : 0 ≤ offset aM am k := by
  have h := (offset_bounds am hM k).2
  by_contra hneg
  have hk : 0 ≤ (k : ℤ) * am := by positivity
  have : (2 * offset aM am k + 1) * aM < 0 := mul_neg_of_neg_of_pos (by omega) hM
  linarith

theorem offset_le {k : ℕ} (hk : (k : ℤ) ≤ aM) : offset aM am k ≤ am := by
  have h := (offset_bounds am hM k).1
  by_contra hgt
  have hprod : (k : ℤ) * am ≤ aM * am := mul_le_mul_of_nonneg_right hk hm
  have : (2 * am + 1) * aM ≤ (2 * offset aM am k - 1) * aM :=
    mul_le_mul_of_nonneg_right (by omega) hM.le
  linarith

include hle

/-- The line moves along its shorter side where the error term is positive. -/
theorem offset_succ (k : ℕ) : offset aM am (k + 1) =
    offset aM am k +
      if 2 * ((k + 1) * am) - (2 * offset aM am k + 1) * aM > 0 then 1 else 0 := by
  obtain ⟨hlo, hhi⟩ := offset_bounds am hM k
  rw [offset_eq_iff hM]
  push_cast
  split
  · constructor <;> linarith
  · constructor <;> linarith

end

theorem int_eq {x : ℤ} (h : IsInt x) : int x = some x := if_pos h

/-! ### The invariant of the loop -/

section
variable {σ : Type} {visit : ℤ → ℤ → σ → σ} {sM sm aM am M0 m0 : ℤ}

/-- The error term at pixel `k`: how far the line is past the next tie there. -/
def errAt (aM am : ℤ) (k : ℕ) : ℤ := 2 * ((k + 1) * am) - (2 * offset aM am k + 1) * aM

theorem errAt_bounds (hM : 0 < aM) (hm : 0 ≤ am) (hlt : aM < 2 ^ 29) (hle : am ≤ aM) (k : ℕ) :
    -2 ^ 30 < errAt aM am k ∧ errAt aM am k < 2 ^ 30 := by
  obtain ⟨hlo, hhi⟩ := offset_bounds am hM k
  unfold errAt
  constructor <;> linarith

/-- A round of the loop at pixel `k` leads to pixel `k + 1`. -/
theorem bresLoop_round (hM : 0 < aM) (hm : 0 ≤ am) (hle : am ≤ aM) (hlt : aM < 2 ^ 29)
    (hrM : ∀ j : ℤ, 0 ≤ j → j ≤ aM → IsInt (M0 + sM * j))
    (hrm : ∀ j : ℤ, 0 ≤ j → j ≤ am → IsInt (m0 + sm * j)) (n : ℕ) {k : ℕ}
    (hk : (k : ℤ) + 1 ≤ aM) (s : σ) :
    bresLoop visit sM sm aM am (n + 1) (M0 + sM * k) (m0 + sm * offset aM am k)
        (errAt aM am k) s =
      bresLoop visit sM sm aM am n (M0 + sM * (k + 1 : ℕ)) (m0 + sm * offset aM am (k + 1))
        (errAt aM am (k + 1)) (visit (M0 + sM * k) (m0 + sm * offset aM am k) s) := by
  have hnext := offset_succ hM hm hle k
  have herr := errAt_bounds hM hm hlt hle k
  have herr' := errAt_bounds hM hm hlt hle (k + 1)
  have hM' : M0 + sM * k + sM = M0 + sM * (k + 1 : ℕ) := by
    push_cast
    ring
  have hmajor : IsInt (M0 + sM * (k + 1 : ℕ)) := by
    refine hrM _ (by positivity) ?_
    push_cast
    exact hk
  have hminor : IsInt (m0 + sm * offset aM am (k + 1)) := by
    refine hrm _ (offset_nonneg hM hm _) (offset_le hM hm ?_)
    push_cast
    exact hk
  rw [bresLoop]
  by_cases hpos : errAt aM am k > 0
  · -- the tie is passed, so that the line moves along its shorter side
    have hone : offset aM am (k + 1) = offset aM am k + 1 := by
      rw [hnext]
      exact congrArg _ (if_pos hpos)
    have hstep : m0 + sm * offset aM am k + sm = m0 + sm * offset aM am (k + 1) := by
      rw [hone]
      ring
    have herrEq : errAt aM am k - 2 * aM + 2 * am = errAt aM am (k + 1) := by
      unfold errAt
      rw [hone]
      push_cast
      ring
    have h2M : IsInt (2 * aM) := ⟨by linarith, by linarith⟩
    have h2m : IsInt (2 * am) := ⟨by linarith, by linarith⟩
    have hsub : IsInt (errAt aM am k - 2 * aM) := ⟨by linarith, by linarith⟩
    have hnew : IsInt (errAt aM am (k + 1)) := ⟨by linarith, by linarith⟩
    simp only [hpos, if_true, hstep, hM', int_eq hminor, int_eq h2M, int_eq h2m, int_eq hsub,
      herrEq, int_eq hnew, int_eq hmajor, Option.bind_eq_bind, Option.bind_some,
      Option.pure_def]
  · have hsame : offset aM am (k + 1) = offset aM am k := by
      rw [hnext]
      exact (congrArg _ (if_neg hpos)).trans (add_zero _)
    have herrEq : errAt aM am k + 2 * am = errAt aM am (k + 1) := by
      unfold errAt
      rw [hsame]
      push_cast
      ring
    have h2m : IsInt (2 * am) := ⟨by linarith, by linarith⟩
    have hnew : IsInt (errAt aM am (k + 1)) := ⟨by linarith, by linarith⟩
    simp only [hpos, if_false, hsame, hM', int_eq h2m, herrEq, int_eq hnew, int_eq hmajor,
      Option.bind_eq_bind, Option.bind_some, Option.pure_def]

variable (visit) in
/-- The loop goes through the pixels nearest to the line, from pixel `k` on. -/
theorem bresLoop_eq (hM : 0 < aM) (hm : 0 ≤ am) (hle : am ≤ aM) (hlt : aM < 2 ^ 29)
    (hrM : ∀ j : ℤ, 0 ≤ j → j ≤ aM → IsInt (M0 + sM * j))
    (hrm : ∀ j : ℤ, 0 ≤ j → j ≤ am → IsInt (m0 + sm * j)) (n k : ℕ) (s : σ)
    (hn : (k + n : ℤ) ≤ aM) :
    bresLoop visit sM sm aM am n (M0 + sM * k) (m0 + sm * offset aM am k) (errAt aM am k) s =
      some ((List.range' k n).foldl
        (fun s (i : ℕ) => visit (M0 + sM * i) (m0 + sm * offset aM am i) s) s) := by
  induction n generalizing k s with
  | zero => rfl
  | succ n ih =>
    push_cast at hn
    rw [bresLoop_round hM hm hle hlt hrM hrm n (by omega), ih (k + 1) _ (by push_cast; omega)]
    rfl

end

theorem bresLoop_keeps {P : σ → Prop} (hvisit : ∀ x y s, P s → P (visit x y s)) {n : ℕ}
    {M m err : ℤ} {s s' : σ} (h : bresLoop visit sM sm aM am n M m err s = some s')
    (hs : P s) : P s' := by
  induction n generalizing M m err s with
  | zero =>
    cases h
    exact hs
  | succ n ih =>
    simp only [bresLoop, Option.bind_eq_bind] at h
    split at h
    · simp only [Option.bind_eq_some_iff, Option.pure_def] at h
      obtain ⟨m, -, d, -, e, -, r, -, d', -, e', -, M, -, h⟩ := h
      exact ih h (hvisit _ _ _ hs)
    · simp only [Option.bind_eq_some_iff, Option.pure_def] at h
      obtain ⟨r, -, d', -, e', -, M, -, h⟩ := h
      exact ih h (hvisit _ _ _ hs)

/-! ### The line -/

theorem dir_mul {d j : ℤ} (h0 : 0 ≤ j) (h : j ≤ |d|) : dir d * j = d.sign * j := by
  unfold dir
  rcases lt_trichotomy d 0 with hd | rfl | hd
  · rw [if_pos hd, Int.sign_eq_neg_one_of_neg hd]
  · rw [abs_zero] at h
    rw [le_antisymm h h0]
    rfl
  · rw [if_neg hd.not_gt, Int.sign_eq_one_of_pos hd]

/-- Between two `int`s there are `int`s only. -/
theorem isInt_between {a d j : ℤ} (ha : IsInt a) (hb : IsInt (a + d)) (h0 : 0 ≤ j)
    (h : j ≤ |d|) : IsInt (a + dir d * j) := by
  unfold IsInt at *
  unfold dir
  rcases lt_or_ge d 0 with hd | hd
  · rw [abs_of_neg hd] at h
    rw [if_pos hd]
    omega
  · rw [abs_of_nonneg hd] at h
    rw [if_neg hd.not_gt]
    omega

theorem side_eq {d : ℤ} (h : |d| < 2 ^ 29) : side d = some |d| := by
  unfold side
  split
  · rename_i hd
    rw [abs_of_neg hd] at h ⊢
    exact int_eq ⟨by linarith, by linarith⟩
  · rename_i hd
    rw [abs_of_nonneg (not_lt.mp hd)]

section
variable {σ : Type} (visit : ℤ → ℤ → σ → σ) (s : σ)

/-- The loop along a longer side `dM`. -/
theorem bresLoop_side {M0 m0 dM dm : ℤ} (hne : dM ≠ 0) (hle : |dm| ≤ |dM|) (hlt : |dM| < 2 ^ 29)
    (hM0 : IsInt M0) (hM1 : IsInt (M0 + dM)) (hm0 : IsInt m0) (hm1 : IsInt (m0 + dm)) :
    bresLoop visit (dir dM) (dir dm) |dM| |dm| |dM|.toNat M0 m0 (2 * |dm| - |dM|) s =
      some ((List.range |dM|.toNat).foldl
        (fun s (i : ℕ) => visit (M0 + dM.sign * i) (m0 + dm.sign * offset |dM| |dm| i) s) s) := by
  have hpos : 0 < |dM| := abs_pos.mpr hne
  have hm : 0 ≤ |dm| := abs_nonneg dm
  have hloop := bresLoop_eq visit hpos hm hle hlt
    (fun j h0 h => isInt_between hM0 hM1 h0 h) (fun j h0 h => isInt_between hm0 hm1 h0 h)
    |dM|.toNat 0 s (by omega)
  have herr : errAt |dM| |dm| 0 = 2 * |dm| - |dM| := by
    rw [errAt, offset_zero hpos]
    push_cast
    ring
  rw [herr, offset_zero hpos, Nat.cast_zero, mul_zero, mul_zero, add_zero, add_zero] at hloop
  rw [hloop, ← List.range_eq_range']
  refine congrArg some (List.foldl_ext _ _ _ fun s i hi => ?_)
  have hi' : (i : ℤ) ≤ |dM| := by
    have := List.mem_range.mp hi
    omega
  rw [dir_mul (by positivity) hi', dir_mul (offset_nonneg hpos hm i) (offset_le hpos hm hi')]

/-- `gdi_bres` goes through the pixels nearest to the line, and no signed arithmetic overflows. -/
theorem bres_eq {x0 y0 x1 y1 : ℤ} (hx0 : IsInt x0) (hy0 : IsInt y0) (hx1 : IsInt x1)
    (hy1 : IsInt y1) (hdx : |x1 - x0| < 2 ^ 29) (hdy : |y1 - y0| < 2 ^ 29) :
    bres visit x0 y0 x1 y1 s =
      some ((linePoints x0 y0 x1 y1).foldl (fun s p => visit p.1 p.2 s) s) := by
  have hx : x0 + (x1 - x0) = x1 := by ring
  have hy : y0 + (y1 - y0) = y1 := by ring
  have hsub : ∀ d : ℤ, |d| < 2 ^ 29 → int d = some d := by
    intro d hd
    have := abs_lt.mp hd
    exact int_eq ⟨by linarith, by linarith⟩
  have hdbl : ∀ a b : ℤ, |a| < 2 ^ 29 → |b| < 2 ^ 29 → int (2 * |a|) = some (2 * |a|) ∧
      int (2 * |a| - |b|) = some (2 * |a| - |b|) := by
    intro a b ha hb
    have := abs_nonneg a
    have := abs_nonneg b
    exact ⟨int_eq ⟨by linarith, by linarith⟩, int_eq ⟨by linarith, by linarith⟩⟩
  unfold bres
  rw [hsub _ hdx, hsub _ hdy]
  simp only [Option.bind_eq_bind, Option.bind_some, side_eq hdx, side_eq hdy]
  rw [linePoints, List.foldl_map]
  by_cases hle : |x1 - x0| ≥ |y1 - y0|
  · rw [if_pos hle, (hdbl _ _ hdy hdx).1, Option.bind_some, (hdbl _ _ hdy hdx).2,
      Option.bind_some, max_eq_left hle]
    simp only [linePoint, if_pos hle]
    by_cases hne : x1 - x0 = 0
    · rw [hne]
      rfl
    · exact bresLoop_side visit s hne hle hdx hx0 (hx.symm ▸ hx1) hy0 (hy.symm ▸ hy1)
  · have hlt := not_le.mp hle
    have hne : y1 - y0 ≠ 0 := by
      intro h
      rw [h, abs_zero] at hlt
      exact absurd (abs_nonneg _) hlt.not_ge
    rw [if_neg hle, (hdbl _ _ hdx hdy).1, Option.bind_some, (hdbl _ _ hdx hdy).2,
      Option.bind_some, max_eq_right hlt.le]
    simp only [linePoint, if_neg hle]
    exact bresLoop_side (fun y x => visit x y) s hne hlt.le hdy hy0 (hy.symm ▸ hy1) hx0
      (hx.symm ▸ hx1)

end

/-! ### What is drawn -/

/-- The pixels of a bitmap that are on the line `l` have the colour, and no other byte changes. -/
structure Drawn (bm : Bitmap) (l : List (ℤ × ℤ)) (c : UInt32) (bm' : Bitmap) : Prop where
  same : bm' = { bm with bits := bm'.bits }
  pixel : ∀ x y, (bm.px x y).isSome →
    bm'.pixel x y = if (x, y) ∈ l then some (dib c) else bm.pixel x y
  rest : ∀ o, (∀ x y p, bm.px x y = some p → o < p ∨ p + 4 ≤ o) → bm'.bits o = bm.bits o

/-- A row and a column are found again from their place in the bitmap. -/
theorem place_inj {w r r' x x' : ℤ} (hx : 0 ≤ x ∧ x < w) (hx' : 0 ≤ x' ∧ x' < w)
    (h : r * w + x = r' * w + x') : r = r' ∧ x = x' := by
  have hr : r = r' := by
    by_contra hne
    rcases lt_or_gt_of_ne hne with hlt | hlt
    · have := mul_le_mul_of_nonneg_right (show r + 1 ≤ r' by omega) (show 0 ≤ w by omega)
      linarith
    · have := mul_le_mul_of_nonneg_right (show r' + 1 ≤ r by omega) (show 0 ≤ w by omega)
      linarith
  subst hr
  exact ⟨rfl, by linarith⟩

/-- Two pixels with a byte in common are one pixel. -/
theorem Bitmap.px_inj {bm : Bitmap} {x y x' y' : ℤ} {p p' : ℕ} (h : bm.px x y = some p)
    (h' : bm.px x' y' = some p') (hlt : p < p' + 4) (hlt' : p' < p + 4) :
    x = x' ∧ y = y' ∧ p = p' := by
  unfold Bitmap.px at h h'
  split at h
  · cases h
  rename_i hin
  split at h'
  · cases h'
  rename_i hin'
  push Not at hin hin'
  have hp := Option.some.inj h
  have hp' := Option.some.inj h'
  obtain ⟨r, hr⟩ : ∃ r, r = if bm.topdown then y else bm.h - 1 - y := ⟨_, rfl⟩
  obtain ⟨r', hr'⟩ : ∃ r', r' = if bm.topdown then y' else bm.h - 1 - y' := ⟨_, rfl⟩
  have hr0 : 0 ≤ r := by
    rw [hr]
    split <;> omega
  have hr0' : 0 ≤ r' := by
    rw [hr']
    split <;> omega
  rw [← hr] at hp
  rw [← hr'] at hp'
  have h0 : 0 ≤ r * bm.w + x := add_nonneg (mul_nonneg hr0 (by omega)) hin.1
  have h0' : 0 ≤ r' * bm.w + x' := add_nonneg (mul_nonneg hr0' (by omega)) hin'.1
  obtain ⟨hrow, hx⟩ := place_inj ⟨hin.1, hin.2.2.1⟩ ⟨hin'.1, hin'.2.2.1⟩
    (show r * bm.w + x = r' * bm.w + x' by omega)
  refine ⟨hx, ?_, by rw [← hp, ← hp', hrow, hx]⟩
  rw [hr, hr'] at hrow
  split at hrow <;> omega

namespace Drawn
variable {bm bm' : Bitmap} {l : List (ℤ × ℤ)} {c : UInt32}

theorem nil : Drawn bm [] c bm := ⟨rfl, fun _ _ _ => rfl, fun _ _ => rfl⟩

theorem px_eq (h : Drawn bm l c bm') (x y : ℤ) : bm'.px x y = bm.px x y := by
  rw [h.same]
  rfl

theorem put (h : Drawn bm l c bm') (x y : ℤ) : Drawn bm (l ++ [(x, y)]) c
    (if (bm'.px x y).isSome then bm'.put x y c else bm') := by
  rw [h.px_eq]
  cases hp : bm.px x y with
  | none =>
    refine ⟨h.same, fun x' y' hs => ?_, h.rest⟩
    have hne : (x', y') ≠ (x, y) := by
      rintro ⟨⟩
      rw [hp] at hs
      cases hs
    simpa [hne] using h.pixel x' y' hs
  | some p =>
    have hput : bm'.put x y c = { bm' with bits := (bm'.put x y c).bits } := by
      unfold Bitmap.put
      rw [h.px_eq, hp]
    have hbits : ∀ o, (bm'.put x y c).bits o = if o = p then (c >>> 16).toUInt8
        else if o = p + 1 then (c >>> 8).toUInt8 else if o = p + 2 then c.toUInt8
        else if o = p + 3 then 0 else bm'.bits o := by
      intro o
      unfold Bitmap.put
      rw [h.px_eq, hp]
    refine ⟨?_, fun x' y' hs => ?_, fun o ho => ?_⟩
    · show bm'.put x y c = { bm with bits := (bm'.put x y c).bits }
      exact hput.trans (congrArg (fun b : Bitmap => { b with bits := (bm'.put x y c).bits }) h.same)
    · obtain ⟨p', hp'⟩ := Option.isSome_iff_exists.mp hs
      have hpx : (bm'.put x y c).px x' y' = some p' := by
        rw [hput, h.same]
        exact hp'
      show (bm'.put x y c).pixel x' y' = _
      rw [Bitmap.pixel, hpx]
      by_cases he : p' = p
      · obtain ⟨rfl, rfl, -⟩ := Bitmap.px_inj hp' hp (by omega) (by omega)
        rw [if_pos (by simp), he]
        simp [hbits, dib]
      · -- another pixel has none of these bytes
        have hfar : p' + 4 ≤ p ∨ p + 4 ≤ p' := by
          by_contra hcon
          exact he (Bitmap.px_inj hp' hp (by omega) (by omega)).2.2
        have hne : (x', y') ≠ (x, y) := by
          rintro ⟨⟩
          exact he (Option.some.inj (hp'.symm.trans hp))
        have hold : ∀ j < 4, (bm'.put x y c).bits (p' + j) = bm'.bits (p' + j) := by
          intro j hj
          rw [hbits, if_neg (by omega), if_neg (by omega), if_neg (by omega), if_neg (by omega)]
        have hpix := h.pixel x' y' hs
        rw [Bitmap.pixel, h.px_eq, hp', Option.map_some] at hpix
        have h0 := hold 0 (by omega)
        rw [Nat.add_zero] at h0
        rw [Option.map_some, h0, hold 1 (by omega), hold 2 (by omega), hold 3 (by omega), hpix]
        simp [hne]
    · show (bm'.put x y c).bits o = _
      have := ho x y p hp
      rw [hbits, if_neg (by omega), if_neg (by omega), if_neg (by omega), if_neg (by omega)]
      exact h.rest o ho

/-- All the pixels of a line, one after the other. -/
theorem foldl (h : Drawn bm l c bm') (l' : List (ℤ × ℤ)) : Drawn bm (l ++ l') c
    (l'.foldl (fun bm p => if (bm.px p.1 p.2).isSome then bm.put p.1 p.2 c else bm) bm') := by
  induction l' generalizing l bm' with
  | nil =>
    rw [List.append_nil]
    exact h
  | cons p l' ih =>
    have := ih (h.put p.1 p.2)
    rwa [List.append_assoc] at this

end Drawn

/-! ### The calls -/

namespace Dc
variable {d : Dc}

theorem muldiv_self {a e : ℤ} (he : e ≠ 0) (ha : IsInt a) : gdiMuldiv a e e = a := by
  have hround : ∀ b c : ℤ, 0 < c → (b * c + c / 2) / c = b := by
    intro b c hc
    rw [add_comm, Int.add_mul_ediv_right _ _ hc.ne',
      Int.ediv_eq_zero_of_lt (by omega) (by omega), zero_add]
  have hnearest : ∀ c : ℤ, 0 < c →
      (if a * c ≥ 0 then (a * c + c / 2) / c else -((-(a * c) + c / 2) / c)) = a := by
    intro c hc
    split
    · exact hround a c hc
    · rw [← neg_mul, hround _ c hc, neg_neg]
  have hsmall : Int.bmod a (2 ^ 32) = a := by
    unfold IsInt at ha
    exact Int.bmod_eq_of_le (by omega) (by omega)
  unfold gdiMuldiv
  rw [if_neg he]
  rcases lt_or_gt_of_ne he with hneg | hpos
  · simp only [if_pos hneg]
    rw [show -(a * e) = a * -e from (mul_neg a e).symm, hnearest (-e) (by omega), hsmall]
  · simp only [if_neg hpos.not_gt]
    rw [hnearest _ hpos, hsmall]

theorem Identity.l2d (h : d.Identity) {x y : ℤ} (hx : IsInt x) (hy : IsInt y) :
    d.l2d x y = some (x, y) := by
  obtain ⟨hvx, hvy, hwx, hwy, hex, hey⟩ := of_decide_eq_true h.guard
  unfold Dc.l2d
  rw [hvx, hvy, hwx, hwy, hex, hey, sub_zero, sub_zero, int_eq hx, int_eq hy]
  simp only [Option.bind_eq_bind, Option.bind_some, muldiv_self h.extent.1 hx,
    muldiv_self h.extent.2 hy, add_zero, int_eq hx, int_eq hy]
  rfl

end Dc

/-- The coordinates of a list of points, as they stand in memory. -/
def coords : List (ℤ × ℤ) → ℕ → ℤ
  | [], _ => 0
  | p :: _, 0 => p.1
  | p :: _, 1 => p.2
  | _ :: ps, i + 2 => coords ps i

/-- The lines from a point through the others, one after the other. -/
def strokes (c : UInt32) : ℤ × ℤ → List (ℤ × ℤ) → Bitmap → Option Bitmap
  | _, [], bm => some bm
  | p, q :: ps, bm => (gdiBres bm p.1 p.2 q.1 q.2 c).bind (strokes c q ps)

/-- Points of `int`s. -/
def Points (ps : List (ℤ × ℤ)) : Prop := ∀ p ∈ ps, IsInt p.1 ∧ IsInt p.2

namespace Dc
variable {d : Dc} {c : UInt32}

theorem coords_add (ps qs : List (ℤ × ℤ)) (i : ℕ) :
    coords (ps ++ qs) (2 * ps.length + i) = coords qs i := by
  induction ps with
  | nil => simp
  | cons p ps ih =>
    rw [List.length_cons, show 2 * (ps.length + 1) + i = 2 * ps.length + i + 2 by ring]
    exact ih

theorem polylineLoop_eq (h : d.Identity) (pre : List (ℤ × ℤ)) (p : ℤ × ℤ) (ps : List (ℤ × ℤ))
    (hps : Points (p :: ps)) (bm : Bitmap) :
    d.polylineLoop (coords (pre ++ p :: ps)) c ps.length pre.length bm = strokes c p ps bm := by
  induction ps generalizing pre p bm with
  | nil => rfl
  | cons q ps ih =>
    obtain ⟨hp, hq⟩ : (IsInt p.1 ∧ IsInt p.2) ∧ IsInt q.1 ∧ IsInt q.2 :=
      ⟨hps p (by simp), hps q (by simp)⟩
    have hat : ∀ i, coords (pre ++ p :: q :: ps) (2 * pre.length + i) = coords (p :: q :: ps) i :=
      coords_add pre _
    rw [List.length_cons, polylineLoop, strokes, ← Nat.add_zero (2 * pre.length)]
    simp only [Nat.add_assoc, Nat.zero_add, hat]
    simp only [coords, h.l2d hp.1 hp.2, h.l2d hq.1 hq.2, Option.bind_eq_bind, Option.bind_some]
    refine congrArg _ (funext fun bm => ?_)
    have := ih (pre ++ [p]) q (fun r hr => hps r (List.mem_cons_of_mem p hr)) bm
    rwa [List.append_assoc, List.length_append] at this

theorem polylineToLoop_eq (pre : List (ℤ × ℤ)) (p : ℤ × ℤ) (ps : List (ℤ × ℤ)) (bm : Bitmap) :
    polylineToLoop (coords (pre ++ ps)) c ps.length pre.length p.1 p.2 bm = strokes c p ps bm := by
  induction ps generalizing pre p bm with
  | nil => rfl
  | cons q ps ih =>
    have hat : ∀ i, coords (pre ++ q :: ps) (2 * pre.length + i) = coords (q :: ps) i :=
      coords_add pre _
    rw [List.length_cons, polylineToLoop, strokes, ← Nat.add_zero (2 * pre.length)]
    simp only [Nat.add_assoc, Nat.zero_add, hat]
    refine congrArg _ (funext fun bm => ?_)
    have := ih (pre ++ [q]) q bm
    rwa [List.append_assoc, List.length_append] at this

/-- What a call with a bitmap and a colour leaves, where there are such. -/
def onCanvas (d : Dc) (f : UInt32 → Bitmap → Option Bitmap) : Option (Option Bitmap) :=
  match d.pen with
  | none => some d.surface
  | some pr =>
    match d.canvas pr with
    | none => some d.surface
    | some (bm, c) => (f c bm).map some

theorem gdiBres_bpp {bm bm' : Bitmap} {x0 y0 x1 y1 : ℤ}
    (h : gdiBres bm x0 y0 x1 y1 c = some bm') : bm'.bpp = bm.bpp := by
  have hvisit : ∀ x y (b : Bitmap), b.bpp = bm.bpp →
      (if (b.px x y).isSome then b.put x y c else b).bpp = bm.bpp := by
    intro x y b hb
    split
    · unfold Bitmap.put
      split <;> exact hb
    · exact hb
  simp only [gdiBres, bres, Option.bind_eq_bind, Option.bind_eq_some_iff] at h
  obtain ⟨dx, -, dy, -, adx, -, ady, -, h⟩ := h
  split at h
  · simp only [Option.bind_eq_some_iff] at h
    obtain ⟨d, -, e, -, h⟩ := h
    exact bresLoop_keeps (P := fun b => b.bpp = bm.bpp) hvisit h rfl
  · simp only [Option.bind_eq_some_iff] at h
    obtain ⟨d, -, e, -, h⟩ := h
    exact bresLoop_keeps (P := fun b => b.bpp = bm.bpp) (fun y x => hvisit x y) h rfl

theorem canvas_eq {pr : Option UInt32} {bm : Bitmap} (h : d.canvas pr = some (bm, c)) :
    pr = some c ∧ d.surface = some bm ∧ bm.bpp = 32 := by
  unfold canvas at h
  split at h
  · rename_i hs
    split at h
    · rename_i hbpp
      cases h
      exact ⟨rfl, hs, hbpp⟩
    · cases h
  · cases h

theorem polyline_surface (h : d.Identity) {p : ℤ × ℤ} {ps : List (ℤ × ℤ)}
    (hps : Points (p :: ps)) :
    (d.polyline (some (coords (p :: ps))) (ps.length + 1)).map Dc.surface =
      d.onCanvas fun c => strokes c p ps := by
  unfold polyline onCanvas
  cases hpen : d.pen with
  | none => rfl
  | some pr =>
    cases hcan : d.canvas pr with
    | none => simp [hcan]
    | some bc =>
      obtain ⟨bm, c⟩ := bc
      simp only [hcan]
      cases ps with
      | nil =>
        rw [if_neg (by simp), strokes, Option.map_some, Option.map_some, (canvas_eq hcan).2.1]
      | cons q ps =>
        rw [if_pos (by simp; omega)]
        have hn : (((q :: ps).length : ℤ) + 1 - 1).toNat = (q :: ps).length := by simp
        have hloop := polylineLoop_eq (c := c) h [] p (q :: ps) hps bm
        rw [List.nil_append, List.length_nil] at hloop
        rw [hn, ← hloop]
        cases d.polylineLoop (coords (p :: q :: ps)) c (q :: ps).length 0 bm with
        | none => rfl
        | some bm => rfl

theorem Identity.moveTo (h : d.Identity) (x y : ℤ) : (d.moveTo x y).Identity := ⟨h.guard, h.extent⟩

theorem polylineTo_surface (h : d.Identity) (p : ℤ × ℤ) (ps : List (ℤ × ℤ)) :
    ((d.moveTo p.1 p.2).polylineTo (some (coords ps)) ps.length).map Dc.surface =
      d.onCanvas fun c => strokes c p ps := by
  have hpen : (d.moveTo p.1 p.2).pen = d.pen := rfl
  have hcan : ∀ pr, (d.moveTo p.1 p.2).canvas pr = d.canvas pr := fun _ => rfl
  unfold polylineTo onCanvas
  rw [if_neg (by rw [(h.moveTo ..).guard]; simp), hpen]
  cases d.pen with
  | none => rfl
  | some pr =>
    simp only [hcan]
    cases ps with
    | nil =>
      rw [if_neg (by simp)]
      cases hc : d.canvas pr with
      | none => rfl
      | some bc =>
        obtain ⟨bm, c⟩ := bc
        exact congrArg some (canvas_eq hc).2.1
    | cons q ps =>
      rw [if_pos (by simp)]
      cases hc : d.canvas pr with
      | none => rfl
      | some bc =>
        have hloop := polylineToLoop_eq (c := bc.2) [] p (q :: ps) bc.1
        rw [List.nil_append, List.length_nil] at hloop
        simp only [Int.toNat_natCast, ← hloop]
        show (Option.bind (polylineToLoop _ _ _ 0 p.1 p.2 bc.1) _).map _ = _
        cases polylineToLoop (coords (q :: ps)) bc.2 (q :: ps).length 0 p.1 p.2 bc.1 with
        | none => rfl
        | some bm => rfl

/-- A sequence of `LineTo` with a bitmap and a colour. -/
theorem lineTo_strokes {bm : Bitmap} {p : ℤ × ℤ} {ps : List (ℤ × ℤ)} (h : d.Identity)
    (hpen : d.pen = some (some c)) (hs : d.surface = some bm) (hbpp : bm.bpp = 32)
    (hx : d.curX = p.1) (hy : d.curY = p.2) (hps : Points (p :: ps)) :
    (ps.foldlM (fun (d : Dc) q => d.lineTo q.1 q.2) d).map Dc.surface =
      (strokes c p ps bm).map some := by
  induction ps generalizing d p bm with
  | nil => exact congrArg some hs
  | cons q ps ih =>
    obtain ⟨hp, hq⟩ : (IsInt p.1 ∧ IsInt p.2) ∧ IsInt q.1 ∧ IsInt q.2 :=
      ⟨hps p (by simp), hps q (by simp)⟩
    have hcan : d.canvas (some c) = some (bm, c) := by
      unfold canvas
      rw [hs]
      exact if_pos hbpp
    have hline : d.lineTo q.1 q.2 = (gdiBres bm p.1 p.2 q.1 q.2 c).map fun bm =>
        { d with surface := some bm }.moveTo q.1 q.2 := by
      unfold lineTo
      rw [hpen]
      simp only [hcan, hx, hy, h.l2d hp.1 hp.2, h.l2d hq.1 hq.2, Option.bind_eq_bind,
        Option.bind_some, Option.pure_def, Option.map_eq_bind]
      rfl
    rw [List.foldlM_cons, hline, strokes]
    cases hbm : gdiBres bm p.1 p.2 q.1 q.2 c with
    | none => rfl
    | some bm' =>
      exact ih (d := { d with surface := some bm' }.moveTo q.1 q.2) ⟨h.guard, h.extent⟩ hpen rfl
        ((gdiBres_bpp hbm).trans hbpp) rfl rfl fun r hr => hps r (List.mem_cons_of_mem p hr)

theorem foldlM_idle {f : Dc → ℤ × ℤ → Option Dc}
    (hf : ∀ e q, e.selPen = d.selPen → e.surface = d.surface →
      ∃ e', f e q = some e' ∧ e'.selPen = d.selPen ∧ e'.surface = d.surface)
    (ps : List (ℤ × ℤ)) {e : Dc} (hp : e.selPen = d.selPen) (hs : e.surface = d.surface) :
    (ps.foldlM f e).map Dc.surface = some d.surface := by
  induction ps generalizing e with
  | nil => exact congrArg some hs
  | cons q ps ih =>
    obtain ⟨e', he', hp', hs'⟩ := hf e q hp hs
    rw [List.foldlM_cons, he']
    exact ih hp' hs'

theorem lineTo_surface (h : d.Identity) {p : ℤ × ℤ} {ps : List (ℤ × ℤ)}
    (hps : Points (p :: ps)) :
    (ps.foldlM (fun (d : Dc) q => d.lineTo q.1 q.2) (d.moveTo p.1 p.2)).map Dc.surface =
      d.onCanvas fun c => strokes c p ps := by
  have hpens : ∀ e : Dc, e.selPen = d.selPen → e.pen = d.pen := by
    intro e he
    unfold pen
    rw [he]
  have hcans : ∀ (e : Dc) pr, e.surface = d.surface → e.canvas pr = d.canvas pr := by
    intro e pr he
    unfold canvas
    rw [he]
  unfold onCanvas
  cases hpen : d.pen with
  | none =>
    refine foldlM_idle (fun e q hp hs => ⟨e, ?_, hp, hs⟩) ps rfl rfl
    unfold lineTo
    rw [hpens e hp, hpen]
  | some pr =>
    cases hc : d.canvas pr with
    | none =>
      simp only [hc]
      refine foldlM_idle (fun e q hp hs => ⟨e.moveTo q.1 q.2, ?_, hp, hs⟩) ps rfl rfl
      unfold lineTo
      rw [hpens e hp, hpen]
      simp only [hcans e pr hs, hc]
    | some bc =>
      obtain ⟨rfl, hs, hbpp⟩ := canvas_eq hc
      simp only [hc]
      exact lineTo_strokes (h.moveTo ..) hpen hs hbpp rfl rfl hps

end Dc

/-! ### The result -/

/-- `gdi_bres` draws the pixels nearest to the line, all of them visited once in the order of the
longer side, and without overflow; and the three calls that draw lines through a list of points
draw the same. -/
theorem lines_exact :
    (∀ x0 y0 x1 y1, IsInt x0 → IsInt y0 → IsInt x1 → IsInt y1 → |x1 - x0| < 2 ^ 29 →
      |y1 - y0| < 2 ^ 29 →
      visited x0 y0 x1 y1 = some (linePoints x0 y0 x1 y1) ∧
      ∀ bm c, ∃ bm', gdiBres bm x0 y0 x1 y1 c = some bm' ∧
        Drawn bm (linePoints x0 y0 x1 y1) c bm') ∧
    ∀ d : Dc, d.Identity → ∀ p ps, Points (p :: ps) →
      (d.polyline (some (coords (p :: ps))) (ps.length + 1)).map Dc.surface =
        ((d.moveTo p.1 p.2).polylineTo (some (coords ps)) ps.length).map Dc.surface ∧
      (d.polyline (some (coords (p :: ps))) (ps.length + 1)).map Dc.surface =
        (ps.foldlM (fun (d : Dc) q => d.lineTo q.1 q.2) (d.moveTo p.1 p.2)).map Dc.surface := by
  constructor
  · intro x0 y0 x1 y1 hx0 hy0 hx1 hy1 hdx hdy
    constructor
    · rw [visited, bres_eq _ _ hx0 hy0 hx1 hy1 hdx hdy]
      refine congrArg some ?_
      have hlist : ∀ l l' : List (ℤ × ℤ), l.foldl (fun s p => s ++ [(p.1, p.2)]) l' = l' ++ l := by
        intro l
        induction l with
        | nil => simp
        | cons p l ih =>
          intro l'
          rw [List.foldl_cons, ih, List.append_assoc]
          rfl
      exact hlist _ []
    · intro bm c
      refine ⟨_, bres_eq _ _ hx0 hy0 hx1 hy1 hdx hdy, ?_⟩
      exact Drawn.nil.foldl _
  · intro d hd p ps hps
    rw [Dc.polyline_surface hd hps]
    exact ⟨(Dc.polylineTo_surface hd p ps).symm, (Dc.lineTo_surface hd hps).symm⟩

/-- A context with a black pen, a bitmap of 8 by 8 pixels and the mapping of `MM_TEXT`. -/
def plainDc : Dc :=
  { selPen := none, surface := some ⟨8, 8, true, 32, fun _ => 255⟩, vpOx := 0, vpOy := 0,
    winOx := 0, winOy := 0, vpEx := 1, vpEy := 1, winEx := 1, winEy := 1, curX := 0, curY := 0 }

theorem lines_exact_short :
    visited 0 0 3 (-2) = some (linePoints 0 0 3 (-2)) ∧
    (plainDc.polyline (some (coords [(0, 0), (3, 2), (1, 5)])) 3).map Dc.surface =
      ((plainDc.moveTo 0 0).polylineTo (some (coords [(3, 2), (1, 5)])) 2).map Dc.surface :=
  ⟨(lines_exact.1 0 0 3 (-2) (by decide) (by decide) (by decide) (by decide) (by decide)
      (by decide)).1,
    (lines_exact.2 plainDc ⟨by decide, by decide⟩ (0, 0) [(3, 2), (1, 5)]
      (by unfold Points; decide)).1⟩

end Aret.Gdi
