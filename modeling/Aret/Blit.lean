/-
Block transfers between the surfaces of the runtime.

`BitBlt`, `StretchBlt` and `GdiAlphaBlend` go over the destination row by row, and read and write one
pixel after the other.

* `transfers_iff` — the calls meet this exactly where they are safe.
-/
import Aret.Raster
import Aret.Scan
import Mathlib.Data.List.Nodup
import Mathlib.Data.List.ProdSigma

namespace Aret.Gdi

open Scan

/-! ### Pixels -/

/-- The four bytes of a pixel. -/
abbrev Pixel := Fin 4 → UInt8

namespace Bitmap
variable (bm : Bitmap)

def word (n : ℕ) : Pixel := fun c => bm.bits (4 * n + c)

def setWord (n : ℕ) (v : Pixel) : Bitmap :=
  { bm with bits := fun o => if o / 4 = n then v (Fin.ofNat 4 o) else bm.bits o }

theorem word_setWord (n k : ℕ) (v : Pixel) :
    (bm.setWord n v).word k = if k = n then v else bm.word k := by
  funext c
  have hdiv : (4 * k + (c : ℕ)) / 4 = k := by omega
  have hmod : Fin.ofNat 4 (4 * k + c) = c := Fin.ext (by rw [Fin.val_ofNat]; omega)
  rw [word, setWord]
  dsimp only
  rw [hdiv, hmod]
  split
  · rfl
  · rfl

end Bitmap

/-- The bitmaps, by their indices. -/
abbrev Bitmaps := ℕ → Bitmap

/-- A bitmap, and the number of a pixel there. -/
abbrev Place := ℕ × ℕ

def view (g : Bitmaps) (k : Place) : Pixel := (g k.1).word k.2

def write (g : Bitmaps) (k : Place) (v : Pixel) : Bitmaps :=
  Function.update g k.1 ((g k.1).setWord k.2 v)

theorem view_write (g : Bitmaps) (k : Place) (v : Pixel) :
    view (write g k v) = Function.update (view g) k v := by
  funext l
  by_cases hb : l.1 = k.1
  · rw [view, write, hb, Function.update_self, Bitmap.word_setWord]
    by_cases hn : l.2 = k.2
    · obtain rfl : l = k := Prod.ext hb hn
      rw [if_pos rfl, Function.update_self]
    · rw [if_neg hn, Function.update_of_ne (fun h => hn (congrArg Prod.snd h)), view, hb]
  · rw [view, write, Function.update_of_ne hb,
      Function.update_of_ne (fun h => hb (congrArg Prod.fst h)), view]

/-- `gdi_px`. -/
def place (g : Bitmaps) (b : ℕ) (x y : ℤ) : Option Place :=
  ((g b).px x y).map fun p => (b, p / 4)

/-- The bitmaps differ at most in their pixels. -/
def SameShape (g g' : Bitmaps) : Prop := ∀ b, { g' b with bits := (g b).bits } = g b

theorem sameShape_write (g : Bitmaps) (k : Place) (v : Pixel) : SameShape g (write g k v) := by
  intro b
  by_cases hb : b = k.1
  · rw [write, hb, Function.update_self]
    rfl
  · rw [write, Function.update_of_ne hb]

theorem SameShape.trans {g g' g'' : Bitmaps} (h : SameShape g g') (h' : SameShape g' g'') :
    SameShape g g'' := by
  intro b
  rw [← h b, ← h' b]

theorem SameShape.place_eq {g g' : Bitmaps} (h : SameShape g g') : place g' = place g := by
  funext b x y
  rw [place, place, ← h b]
  rfl

/-! ### What becomes of a pixel -/

/-- `gdi_rop_needs_src`. -/
def ropNeedsSrc (rop : UInt32) : Bool :=
  !(rop = 0x00550009 || rop = 0x00000042 || rop = 0x00FF0062)

/-- `gdi_rop_apply`. -/
def ropApply (rop s d : UInt32) : Option UInt32 :=
  if rop = 0x00CC0020 then some s
  else if rop = 0x008800C6 then some (s &&& d)
  else if rop = 0x00EE0086 then some (s ||| d)
  else if rop = 0x00660046 then some (s ^^^ d)
  else if rop = 0x00330008 then some (~~~s)
  else if rop = 0x00440328 then some (s &&& ~~~d)
  else if rop = 0x001100A6 then some (~~~(s ||| d))
  else if rop = 0x00BB0226 then some (~~~s ||| d)
  else if rop = 0x00550009 then some (~~~d)
  else if rop = 0x00000042 then some 0
  else if rop = 0x00FF0062 then some (~~~0)
  else none

def load (p : Pixel) : UInt32 :=
  (p 0).toUInt32 ||| (p 1).toUInt32 <<< 8 ||| (p 2).toUInt32 <<< 16 ||| (p 3).toUInt32 <<< 24

def store (r : UInt32) : Pixel := fun c => (r >>> UInt32.ofNat (8 * c)).toUInt8

def ropPixel (rop : UInt32) (s : Option Pixel) (d : Pixel) : Pixel :=
  store ((ropApply rop ((s.map load).getD 0) (load d)).getD 0)

/-- The blend of two colours; `a` is the alpha of a source that has one. -/
def blendByte (premultiplied : Bool) (ca a s d : ℕ) : ℕ :=
  if premultiplied then s * ca / 255 + d * (255 - a * ca / 255) / 255
  else (s * ca + d * (255 - ca)) / 255

/-- The constant alpha of a `BLENDFUNCTION`. -/
def constAlpha (bf : UInt32) : ℕ := ((bf >>> 16) &&& 0xFF).toNat

/-- `AC_SRC_ALPHA`. -/
def srcAlpha (bf : UInt32) : Bool := (bf >>> 24) &&& 1 ≠ 0

def blend (bf : UInt32) (s : Option Pixel) (d : Pixel) : Pixel :=
  match s with
  | none => d
  | some s => fun c =>
    if c = 3 then d 3
    else UInt8.ofNat
      (blendByte (srcAlpha bf) (constAlpha bf) (s 3).toNat (s c).toNat (d c).toNat)

/-! ### The calls -/

/-- The arguments, with the surfaces of the two contexts, and whether the mapping of the
destination is the identity. -/
structure Call where
  identity : Bool
  dst : Option ℕ
  src : Option ℕ
  dx : ℤ
  dy : ℤ
  dw : ℤ
  dh : ℤ
  sx : ℤ
  sy : ℤ
  sw : ℤ
  sh : ℤ
  rop : UInt32
  bf : UInt32

/-- The rounds of the loops: `(j, i)`. -/
def rounds (w h : ℤ) : List (ℕ × ℕ) := (List.range h.toNat).product (List.range w.toNat)

/-- The loops over the rounds, where `move` has no result if an `int` overflows. -/
def loop (f : Option Pixel → Pixel → Pixel)
    (move : Bitmaps → ℕ × ℕ → Option (Option (Move Place))) :
    List (ℕ × ℕ) → Bitmaps → Option Bitmaps
  | [], g => some g
  | r :: rs, g =>
    match move g r with
    | none => none
    | some none => loop f move rs g
    | some (some v) => loop f move rs (write g v.dst (v.value f (view g)))

namespace Call
variable (c : Call)

/-- The pixel of `BitBlt`'s source. -/
def shifted (r : ℕ × ℕ) : Option (ℤ × ℤ) := do
  let x ← int (c.sx + r.2)
  let y ← int (c.sy + r.1)
  pure (x, y)

/-- The pixel of a stretched source. -/
def stretched (r : ℕ × ℕ) : Option (ℤ × ℤ) := do
  let u ← int (r.2 * c.sw)
  let x ← int (c.sx + u.tdiv c.dw)
  let v ← int (r.1 * c.sh)
  let y ← int (c.sy + v.tdiv c.dh)
  pure (x, y)

/-- A round of `BitBlt` and of `StretchBlt`, which read a source if there is one. -/
def bltMove (dst : ℕ) (src : Option ℕ) (coord : ℕ × ℕ → Option (ℤ × ℤ)) (g : Bitmaps)
    (r : ℕ × ℕ) : Option (Option (Move Place)) := do
  let x ← int (c.dx + r.2)
  let y ← int (c.dy + r.1)
  match place g dst x y, src with
  | none, _ => pure none
  | some d, none => pure (some ⟨d, none⟩)
  | some d, some b => do
    let s ← coord r
    pure ((place g b s.1 s.2).map fun s => ⟨d, some s⟩)

/-- A round of `GdiAlphaBlend`, which looks for the pixel of the source first. -/
def alphaMove (dst src : ℕ) (g : Bitmaps) (r : ℕ × ℕ) : Option (Option (Move Place)) := do
  let s ← c.stretched r
  let x ← int (c.dx + r.2)
  let y ← int (c.dy + r.1)
  pure (do
    let s ← place g src s.1 s.2
    let d ← place g dst x y
    pure ⟨d, some s⟩)

/-- The surfaces of a raster operation that is modelled. -/
def ropSurfaces : Option (ℕ × Option ℕ) :=
  if c.identity = false ∨ ropApply c.rop 0 0 = none then none
  else
    match c.dst, ropNeedsSrc c.rop, c.src with
    | some d, true, some s => some (d, some s)
    | some d, false, _ => some (d, none)
    | _, _, _ => none

/-- The surfaces of a `StretchBlt` that is taken. -/
def stretchSurfaces : Option (ℕ × Option ℕ) :=
  if c.dw ≤ 0 ∨ c.dh ≤ 0 ∨ (ropNeedsSrc c.rop ∧ (c.sw ≤ 0 ∨ c.sh ≤ 0)) then none
  else c.ropSurfaces

/-- The surfaces of a `GdiAlphaBlend` that is taken. -/
def alphaSurfaces : Option (ℕ × ℕ) :=
  if c.dw ≤ 0 ∨ c.dh ≤ 0 ∨ c.sw ≤ 0 ∨ c.sh ≤ 0 then none
  else
    match c.dst, c.src with
    | some d, some s => some (d, s)
    | _, _ => none

/-- `aret_BitBlt`: the result and the bitmaps; it has none where an `int` overflows. -/
def bitBlt (g : Bitmaps) : Option (ℕ × Bitmaps) :=
  match c.ropSurfaces with
  | none => some (0, g)
  | some (d, s) =>
    (loop (ropPixel c.rop) (c.bltMove d s c.shifted) (rounds c.dw c.dh) g).map (1, ·)

def stretchBlt (g : Bitmaps) : Option (ℕ × Bitmaps) :=
  match c.stretchSurfaces with
  | none => some (0, g)
  | some (d, s) =>
    (loop (ropPixel c.rop) (c.bltMove d s c.stretched) (rounds c.dw c.dh) g).map (1, ·)

def gdiAlphaBlend (g : Bitmaps) : Option (ℕ × Bitmaps) :=
  match c.alphaSurfaces with
  | none => some (0, g)
  | some (d, s) => (loop (blend c.bf) (c.alphaMove d s) (rounds c.dw c.dh) g).map (1, ·)

/-! ### The transfer at once -/

/-- The pixel of `BitBlt`'s source. -/
def shiftPoint (r : ℕ × ℕ) : ℤ × ℤ := (c.sx + r.2, c.sy + r.1)

/-- The pixel of a stretched source; the quotients are rounded down. -/
def stretchPoint (r : ℕ × ℕ) : ℤ × ℤ :=
  (c.sx + (r.2 * c.sw).fdiv c.dw, c.sy + (r.1 * c.sh).fdiv c.dh)

/-- The pixels of a round, if they exist. -/
def move (dst : ℕ) (src : Option ℕ) (point : ℕ × ℕ → ℤ × ℤ) (g : Bitmaps) (r : ℕ × ℕ) :
    Option (Move Place) :=
  match place g dst (c.dx + r.2) (c.dy + r.1), src with
  | none, _ => none
  | some d, none => some ⟨d, none⟩
  | some d, some b => (place g b (point r).1 (point r).2).map fun s => ⟨d, some s⟩

def moves (dst : ℕ) (src : Option ℕ) (point : ℕ × ℕ → ℤ × ℤ) (g : Bitmaps) : List (Move Place) :=
  (rounds c.dw c.dh).filterMap (c.move dst src point g)

end Call

/-- A call that is not taken changes nothing; one that is makes its moves at once. -/
def Meets (f : Option Pixel → Pixel → Pixel) (g : Bitmaps) (vs : Option (List (Move Place)))
    (r : Option (ℕ × Bitmaps)) : Prop :=
  match vs with
  | none => r = some (0, g)
  | some vs => ∃ g', r = some (1, g') ∧ SameShape g g' ∧ Simultaneous f (view g) (view g') vs

/-- No `int` overflows in a round, and no move sees what an earlier one has written. -/
def Safe (f : Option Pixel → Pixel → Pixel) (g : Bitmaps) (rs : List (ℕ × ℕ))
    (move : Bitmaps → ℕ × ℕ → Option (Option (Move Place))) (vs : List (Move Place)) : Prop :=
  (∀ r ∈ rs, (move g r).isSome) ∧ vs.Pairwise (Unseen f (view g))

/-! ### The loops -/

section
variable {f : Option Pixel → Pixel → Pixel} {g : Bitmaps} {rs : List (ℕ × ℕ)}
  {move : Bitmaps → ℕ × ℕ → Option (Option (Move Place))}
  (hm : ∀ g g', SameShape g g' → move g' = move g)
include hm

theorem loop_defined (h : ∀ r ∈ rs, (move g r).isSome) :
    ∃ g', loop f move rs g = some g' ∧ SameShape g g' ∧
      view g' = scan f (view g) (rs.filterMap fun r => (move g r).join) := by
  induction rs generalizing g with
  | nil => exact ⟨g, rfl, fun b => rfl, rfl⟩
  | cons r rs ih =>
    have hr := h r List.mem_cons_self
    have hrs : ∀ r ∈ rs, (move g r).isSome := fun r hr => h r (List.mem_cons_of_mem _ hr)
    rw [loop]
    cases hmove : move g r with
    | none =>
      rw [hmove] at hr
      exact absurd hr (by decide)
    | some v =>
      cases v with
      | none =>
        rw [List.filterMap_cons_none (by rw [hmove]; rfl)]
        exact ih hrs
      | some v =>
        -- The bitmaps have the same shape, and so the other rounds are as they were.
        have hshape := sameShape_write g v.dst (v.value f (view g))
        have hsame := hm _ _ hshape
        obtain ⟨g', hloop, hshape', hview⟩ := ih (by rwa [hsame])
        refine ⟨g', hloop, hshape.trans hshape', ?_⟩
        rw [hview, hsame, view_write, List.filterMap_cons_some (by rw [hmove]; rfl)]
        rfl

theorem loop_undefined (h : ∃ r ∈ rs, move g r = none) : loop f move rs g = none := by
  induction rs generalizing g with
  | nil =>
    obtain ⟨r, hr, -⟩ := h
    exact absurd hr List.not_mem_nil
  | cons r rs ih =>
    rw [loop]
    cases hmove : move g r with
    | none => rfl
    | some v =>
      have hrest : ∃ r ∈ rs, move g r = none := by
        obtain ⟨r', hr', hnone⟩ := h
        rcases List.mem_cons.mp hr' with rfl | hmem
        · rw [hmove] at hnone
          cases hnone
        · exact ⟨r', hmem, hnone⟩
      cases v with
      | none => exact ih hrest
      | some v =>
        refine ih ?_
        rwa [hm _ _ (sameShape_write g v.dst _)]

/-- The loops make the moves at once exactly where they are safe. -/
theorem loop_iff {ideal : ℕ × ℕ → Option (Move Place)}
    (hideal : ∀ r ∈ rs, ∀ v, move g r = some v → v = ideal r)
    (hne : (rs.filterMap ideal).Pairwise fun u v => u.dst ≠ v.dst) :
    Meets f g (some (rs.filterMap ideal)) ((loop f move rs g).map (1, ·)) ↔
      Safe f g rs move (rs.filterMap ideal) := by
  by_cases hdef : ∀ r ∈ rs, (move g r).isSome
  · obtain ⟨g', hloop, hshape, hview⟩ := loop_defined (f := f) hm hdef
    have hmoves : (rs.filterMap fun r => (move g r).join) = rs.filterMap ideal := by
      refine List.filterMap_congr fun r hr => ?_
      obtain ⟨v, hv⟩ := Option.isSome_iff_exists.mp (hdef r hr)
      rw [hv, hideal r hr v hv]
      rfl
    rw [hmoves] at hview
    rw [Safe, ← simultaneous_iff hne, ← hview, Meets, hloop]
    constructor
    · rintro ⟨g'', heq, -, hsim⟩
      obtain rfl := (Prod.mk.inj (Option.some.inj heq)).2
      exact ⟨hdef, hsim⟩
    · rintro ⟨-, hsim⟩
      exact ⟨g', rfl, hshape, hsim⟩
  · have hnone : ∃ r ∈ rs, move g r = none := by
      push Not at hdef
      obtain ⟨r, hr, hmove⟩ := hdef
      exact ⟨r, hr, by simpa using hmove⟩
    rw [loop_undefined hm hnone]
    constructor
    · rintro ⟨g', heq, -⟩
      cases heq
    · rintro ⟨hall, -⟩
      exact absurd hall hdef

end

/-! ### The rounds -/

theorem eq_of_place {g : Bitmaps} {b : ℕ} {x y x' y' : ℤ} {k : Place} (h : place g b x y = some k)
    (h' : place g b x' y' = some k) : x = x' ∧ y = y' := by
  obtain ⟨p, hp, rfl⟩ := Option.map_eq_some_iff.mp h
  obtain ⟨p', hp', hk⟩ := Option.map_eq_some_iff.mp h'
  have hdiv : p' / 4 = p / 4 := congrArg Prod.snd hk
  obtain ⟨hx, hy, -⟩ := Bitmap.px_inj hp hp' (by omega) (by omega)
  exact ⟨hx, hy⟩

theorem eq_of_int {x v : ℤ} (h : int x = some v) : v = x := by
  unfold int at h
  split_ifs at h
  exact (Option.some.inj h).symm

namespace Call
variable {c : Call} {g : Bitmaps} {dst : ℕ} {src : Option ℕ} {r : ℕ × ℕ}
  {coord : ℕ × ℕ → Option (ℤ × ℤ)} {point : ℕ × ℕ → ℤ × ℤ}

theorem move_dst {v : Move Place} (h : c.move dst src point g r = some v) :
    place g dst (c.dx + r.2) (c.dy + r.1) = some v.dst := by
  unfold move at h
  split at h
  · cases h
  · rename_i d hd
    cases h
    exact hd
  · rename_i d b hd
    obtain ⟨s, -, rfl⟩ := Option.map_eq_some_iff.mp h
    exact hd

/-- No pixel is written in two rounds. -/
theorem moves_pairwise : (c.moves dst src point g).Pairwise fun u v => u.dst ≠ v.dst := by
  have hrounds : (rounds c.dw c.dh).Nodup := List.nodup_range.product List.nodup_range
  refine List.Pairwise.filterMap _ (fun r r' hne u hu v hv heq => hne ?_) hrounds
  have hu' := move_dst hu
  rw [heq] at hu'
  obtain ⟨hx, hy⟩ := eq_of_place hu' (move_dst hv)
  exact Prod.ext (by omega) (by omega)

theorem bltMove_congr {g' : Bitmaps} (h : SameShape g g') :
    c.bltMove dst src coord g' = c.bltMove dst src coord g := by
  funext r
  simp only [bltMove, h.place_eq]

theorem alphaMove_congr {g' : Bitmaps} {b : ℕ} (h : SameShape g g') :
    c.alphaMove dst b g' = c.alphaMove dst b g := by
  funext r
  simp only [alphaMove, h.place_eq]

theorem eq_shiftPoint {q : ℤ × ℤ} (h : c.shifted r = some q) : q = c.shiftPoint r := by
  obtain ⟨x, hx, h⟩ := Option.bind_eq_some_iff.mp h
  obtain ⟨y, hy, h⟩ := Option.bind_eq_some_iff.mp h
  obtain rfl := Option.some.inj h
  rw [eq_of_int hx, eq_of_int hy, shiftPoint]

theorem eq_stretchPoint {q : ℤ × ℤ} (hdw : 0 < c.dw) (hdh : 0 < c.dh) (hsw : 0 < c.sw)
    (hsh : 0 < c.sh) (h : c.stretched r = some q) : q = c.stretchPoint r := by
  obtain ⟨u, hu, h⟩ := Option.bind_eq_some_iff.mp h
  obtain ⟨x, hx, h⟩ := Option.bind_eq_some_iff.mp h
  obtain ⟨v, hv, h⟩ := Option.bind_eq_some_iff.mp h
  obtain ⟨y, hy, h⟩ := Option.bind_eq_some_iff.mp h
  obtain rfl := Option.some.inj h
  rw [eq_of_int hx, eq_of_int hy, eq_of_int hu, eq_of_int hv, stretchPoint,
    Int.fdiv_eq_tdiv_of_nonneg (mul_nonneg r.2.cast_nonneg hsw.le) hdw.le,
    Int.fdiv_eq_tdiv_of_nonneg (mul_nonneg r.1.cast_nonneg hsh.le) hdh.le]

theorem bltMove_eq (hpoint : ∀ b, src = some b → ∀ q, coord r = some q → q = point r)
    {v : Option (Move Place)} (h : c.bltMove dst src coord g r = some v) :
    v = c.move dst src point g r := by
  obtain ⟨x, hx, h⟩ := Option.bind_eq_some_iff.mp h
  obtain ⟨y, hy, h⟩ := Option.bind_eq_some_iff.mp h
  obtain rfl := eq_of_int hx
  obtain rfl := eq_of_int hy
  unfold move
  cases hd : place g dst (c.dx + r.2) (c.dy + r.1) with
  | none =>
    rw [hd] at h
    exact (Option.some.inj h).symm
  | some d =>
    rw [hd] at h
    cases src with
    | none => exact (Option.some.inj h).symm
    | some b =>
      obtain ⟨q, hq, h⟩ := Option.bind_eq_some_iff.mp h
      obtain rfl := hpoint b rfl q hq
      exact (Option.some.inj h).symm

theorem alphaMove_eq {b : ℕ} (hpoint : ∀ q, c.stretched r = some q → q = point r)
    {v : Option (Move Place)} (h : c.alphaMove dst b g r = some v) :
    v = c.move dst (some b) point g r := by
  obtain ⟨q, hq, h⟩ := Option.bind_eq_some_iff.mp h
  obtain ⟨x, hx, h⟩ := Option.bind_eq_some_iff.mp h
  obtain ⟨y, hy, h⟩ := Option.bind_eq_some_iff.mp h
  obtain rfl := eq_of_int hx
  obtain rfl := eq_of_int hy
  obtain rfl := hpoint q hq
  obtain rfl := Option.some.inj h
  unfold move
  cases place g dst (c.dx + r.2) (c.dy + r.1) with
  | none => cases place g b (point r).1 (point r).2 <;> rfl
  | some d =>
    dsimp only
    cases place g b (point r).1 (point r).2 <;> rfl

/-- A raster operation that needs no source gets none. -/
theorem needs_of_ropSurfaces {b : ℕ} (h : c.ropSurfaces = some (dst, some b)) :
    ropNeedsSrc c.rop = true := by
  unfold ropSurfaces at h
  split_ifs at h
  split at h
  · assumption
  · cases h
  · cases h

theorem stretchSurfaces_some (h : c.stretchSurfaces = some (dst, src)) :
    0 < c.dw ∧ 0 < c.dh ∧ ∀ b, src = some b → 0 < c.sw ∧ 0 < c.sh := by
  unfold stretchSurfaces at h
  split_ifs at h with hsize
  push Not at hsize
  obtain ⟨hdw, hdh, hsrc⟩ := hsize
  refine ⟨hdw, hdh, ?_⟩
  rintro b rfl
  exact hsrc (needs_of_ropSurfaces h)

theorem alphaSurfaces_some {s : ℕ × ℕ} (h : c.alphaSurfaces = some s) :
    0 < c.dw ∧ 0 < c.dh ∧ 0 < c.sw ∧ 0 < c.sh := by
  unfold alphaSurfaces at h
  split_ifs at h with hsize
  push Not at hsize
  exact hsize

end Call

/-! ### Blends -/

/-- The blend of a source whose colours do not exceed its alpha is a byte. -/
theorem blendByte_lt {premultiplied : Bool} {ca a s d : ℕ} (hca : ca ≤ 255) (ha : a ≤ 255)
    (hs : s ≤ 255) (hd : d ≤ 255) (hsa : premultiplied → s ≤ a) :
    blendByte premultiplied ca a s d < 256 := by
  unfold blendByte
  split_ifs with halpha
  · have hsca : s * ca / 255 ≤ a * ca / 255 :=
      Nat.div_le_div_right (Nat.mul_le_mul_right ca (hsa halpha))
    have haca : a * ca / 255 ≤ 255 := by
      have hprod : a * ca ≤ 255 * 255 := Nat.mul_le_mul ha hca
      omega
    have hrest : d * (255 - a * ca / 255) / 255 ≤ 255 - a * ca / 255 := by
      have hprod : d * (255 - a * ca / 255) ≤ 255 * (255 - a * ca / 255) :=
        Nat.mul_le_mul_right _ hd
      omega
    omega
  · have hsrc : s * ca ≤ 255 * ca := Nat.mul_le_mul_right ca hs
    have hdst : d * (255 - ca) ≤ 255 * (255 - ca) := Nat.mul_le_mul_right _ hd
    omega

/-- The blend of a premultiplied source does not wrap around. -/
theorem blend_toNat (bf : UInt32) (s d : Pixel) {c : Fin 4} (hc : c ≠ 3)
    (hs : srcAlpha bf → s c ≤ s 3) : (blend bf (some s) d c).toNat =
      blendByte (srcAlpha bf) (constAlpha bf) (s 3).toNat (s c).toNat (d c).toNat := by
  have hbyte : ∀ b : UInt8, b.toNat ≤ 255 := fun b => Nat.le_of_lt_succ b.toNat_lt
  have hca : constAlpha bf ≤ 255 := by
    rw [constAlpha, UInt32.toNat_and]
    exact Nat.and_le_right
  rw [blend]
  dsimp only
  rw [if_neg hc, UInt8.toNat_ofNat']
  exact Nat.mod_eq_of_lt (blendByte_lt hca (hbyte _) (hbyte _) (hbyte _) fun h => hs h)

/-! ### The calls -/

/-- The three calls make their moves at once exactly where they are safe, and the blend of a
premultiplied source is the value of its formula. -/
theorem transfers_iff (c : Call) (g : Bitmaps) :
    (Meets (ropPixel c.rop) g (c.ropSurfaces.map fun s => c.moves s.1 s.2 c.shiftPoint g)
        (c.bitBlt g) ↔
      ∀ s ∈ c.ropSurfaces, Safe (ropPixel c.rop) g (rounds c.dw c.dh)
        (c.bltMove s.1 s.2 c.shifted) (c.moves s.1 s.2 c.shiftPoint g)) ∧
    (Meets (ropPixel c.rop) g (c.stretchSurfaces.map fun s => c.moves s.1 s.2 c.stretchPoint g)
        (c.stretchBlt g) ↔
      ∀ s ∈ c.stretchSurfaces, Safe (ropPixel c.rop) g (rounds c.dw c.dh)
        (c.bltMove s.1 s.2 c.stretched) (c.moves s.1 s.2 c.stretchPoint g)) ∧
    (Meets (blend c.bf) g (c.alphaSurfaces.map fun s => c.moves s.1 (some s.2) c.stretchPoint g)
        (c.gdiAlphaBlend g) ↔
      ∀ s ∈ c.alphaSurfaces, Safe (blend c.bf) g (rounds c.dw c.dh)
        (c.alphaMove s.1 s.2) (c.moves s.1 (some s.2) c.stretchPoint g)) ∧
    ∀ (s d : Pixel) (k : Fin 4), k ≠ 3 → (srcAlpha c.bf → s k ≤ s 3) →
      (blend c.bf (some s) d k).toNat =
        blendByte (srcAlpha c.bf) (constAlpha c.bf) (s 3).toNat (s k).toNat (d k).toNat := by
  refine ⟨?_, ?_, ?_, fun s d k hk hs => blend_toNat c.bf s d hk hs⟩
  · rw [Call.bitBlt]
    cases c.ropSurfaces with
    | none => exact ⟨fun _ s hs => (nomatch hs), fun _ => rfl⟩
    | some s =>
      rw [Option.map_some, Call.moves, loop_iff (fun _ _ => Call.bltMove_congr)
        (fun r _ v => Call.bltMove_eq fun b _ q => Call.eq_shiftPoint) Call.moves_pairwise]
      simp only [Option.mem_def, Option.some.injEq, forall_eq']
      rfl
  · rw [Call.stretchBlt]
    cases hs : c.stretchSurfaces with
    | none => exact ⟨fun _ s hs => (nomatch hs), fun _ => rfl⟩
    | some s =>
      obtain ⟨hdw, hdh, hsrc⟩ := Call.stretchSurfaces_some hs
      have hpoint : ∀ r b, s.2 = some b → ∀ q, c.stretched r = some q → q = c.stretchPoint r :=
        fun r b hb q hq => Call.eq_stretchPoint hdw hdh (hsrc b hb).1 (hsrc b hb).2 hq
      rw [Option.map_some, Call.moves, loop_iff (fun _ _ => Call.bltMove_congr)
        (fun r _ v => Call.bltMove_eq (hpoint r)) Call.moves_pairwise]
      simp only [Option.mem_def, Option.some.injEq, forall_eq']
      rfl
  · rw [Call.gdiAlphaBlend]
    cases hs : c.alphaSurfaces with
    | none => exact ⟨fun _ s hs => (nomatch hs), fun _ => rfl⟩
    | some s =>
      obtain ⟨hdw, hdh, hsw, hsh⟩ := Call.alphaSurfaces_some hs
      rw [Option.map_some, Call.moves, loop_iff (fun _ _ => Call.alphaMove_congr)
        (fun r _ v => Call.alphaMove_eq fun q => Call.eq_stretchPoint hdw hdh hsw hsh)
        Call.moves_pairwise]
      simp only [Option.mem_def, Option.some.injEq, forall_eq']
      rfl

/-- `SRCCOPY` by one pixel to the right, on a bitmap of three pixels. -/
def shiftRight : Call where
  identity := true
  dst := some 0
  src := some 0
  dx := 1
  dy := 0
  dw := 2
  dh := 1
  sx := 0
  sy := 0
  sw := 0
  sh := 0
  rop := 0x00CC0020
  bf := 0

/-- The last pixel gets the first one, and not the second one. -/
theorem not_meets : ¬ ∀ (c : Call) (g : Bitmaps), Meets (ropPixel c.rop) g
    (c.ropSurfaces.map fun s => c.moves s.1 s.2 c.shiftPoint g) (c.bitBlt g) := by
  intro h
  obtain ⟨g', hg', -, hsim⟩ := h shiftRight fun _ => ⟨3, 1, true, 32, fun o => UInt8.ofNat (o / 4)⟩
  obtain rfl := (Prod.mk.inj (Option.some.inj hg')).2
  have hmoved := hsim.moved ⟨(0, 2), some (0, 1)⟩ (by decide)
  exact absurd (congrFun hmoved 0) (by decide)

end Aret.Gdi
