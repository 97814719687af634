/-
Regions and clips, as the runtime keeps them.

A region is a rectangle around it, with a flag for a region that is not this rectangle.

* `regions_sound` — after every careful run the rectangles cover the sets, `FillRgn` paints the
  region, and `RectVisible` finds what can be seen.
-/
import Aret.Raster
import Aret.Runs
import Mathlib.Data.Option.Basic
import Mathlib.Data.Set.Basic

namespace Aret.Gdi.Regions

open Runs

abbrev Point := ℤ × ℤ

structure Area where
  l : ℤ
  t : ℤ
  r : ℤ
  b : ℤ
  complex : Bool

namespace Area

def rect (a : Area) : Set Point := {p | a.l ≤ p.1 ∧ p.1 < a.r ∧ a.t ≤ p.2 ∧ p.2 < a.b}

/-- `u32_rect_contains`. -/
def contains (a b : Area) : Bool := a.l ≤ b.l ∧ a.t ≤ b.t ∧ a.r ≥ b.r ∧ a.b ≥ b.b

/-- The rectangle around both. -/
def join (a b : Area) (complex : Bool) : Area :=
  ⟨min a.l b.l, min a.t b.t, max a.r b.r, max a.b b.b, complex⟩

def meet (a b : Area) : Area := ⟨max a.l b.l, max a.t b.t, min a.r b.r, min a.b b.b, false⟩

def Covers (a : Area) (s : Set Point) : Prop :=
  (∀ p ∈ s, p ∈ a.rect) ∧ (a.complex = false → ∀ p ∈ a.rect, p ∈ s)

end Area

/-- `u32_make_rgn`: the bounds are put in order. -/
def area (l t r b : ℤ) : Area := ⟨min l r, min t b, max l r, max t b, false⟩

def Area.grow (a : Area) (q : Point) : Area :=
  ⟨min a.l q.1, min a.t q.2, max a.r q.1, max a.b q.2, true⟩

/-- The rectangle of `CreatePolygonRgn`. -/
def bounds : List Point → Area
  | [] => area 0 0 0 0
  | p :: ps =>
    let a := ps.foldl Area.grow ⟨p.1, p.2, p.1, p.2, true⟩
    { area a.l a.t a.r a.b with complex := true }

inductive Mode
  | and
  | or
  | xor
  | diff
  | copy
deriving DecidableEq

/-- `aret_CombineRgn`; a second region that is not there is `none`. -/
def combine (a : Area) (b : Option Area) (mode : Mode) : Area :=
  match mode, b with
  | .and, some b =>
    let m := a.meet b
    ⟨m.l, m.t, max m.l m.r, max m.t m.b, false⟩
  | .or, some b => a.join b (!(a.contains b || b.contains a))
  | .xor, some _ => { a with complex := true }
  | .diff, some _ => { a with complex := true }
  | _, _ => a

/-- The clip of a device context; it keeps its rectangle when it is taken away. -/
structure Clip where
  set : Bool
  area : Area

def Clip.current (c : Clip) : Option Area := if c.set then some c.area else none

/-- `aret_SelectClipRgn`. -/
def select (c : Clip) : Option Area → Clip
  | none => { c with set := false }
  | some r => ⟨true, r⟩

/-- `aret_ExtSelectClipRgn`. -/
def extSelect (c : Clip) (mode : Mode) : Option Area → Clip
  | none => if mode = .copy then { c with set := false } else c
  | some r =>
    if c.set = false ∨ mode = .copy then ⟨true, r⟩
    else if mode = .and then ⟨true, c.area.meet r⟩
    else ⟨true, c.area.join r true⟩

/-- `aret_IntersectClipRect`. -/
def intersect (c : Clip) (a : Area) : Clip := ⟨true, if c.set then c.area.meet a else a⟩

/-- `aret_ExcludeClipRect` where a clip is set. -/
def cut (k a : Area) : Area :=
  if a.r ≤ k.l ∨ a.l ≥ k.r ∨ a.b ≤ k.t ∨ a.t ≥ k.b then k
  else if a.l ≤ k.l ∧ a.r ≥ k.r ∧ a.t ≤ k.t ∧ a.b ≥ k.b then { k with r := k.l, b := k.t }
  else if a.l ≤ k.l ∧ a.r ≥ k.r then
    if a.t ≤ k.t then { k with t := min a.b k.b, complex := false }
    else if a.b ≥ k.b then { k with b := max a.t k.t, complex := false }
    else { k with complex := true }
  else if a.t ≤ k.t ∧ a.b ≥ k.b then
    if a.l ≤ k.l then { k with l := min a.r k.r, complex := false }
    else if a.r ≥ k.r then { k with r := max a.l k.l, complex := false }
    else { k with complex := true }
  else { k with complex := true }

/-- `aret_ExcludeClipRect`. -/
def exclude (c : Clip) (a : Area) : Clip :=
  ⟨true, if c.set then cut c.area a else { c.area with complex := true }⟩

def rectVisible (c : Clip) (l t r b : ℤ) : Bool :=
  !c.set || !(r ≤ c.area.l || l ≥ c.area.r || b ≤ c.area.t || t ≥ c.area.b)

/-- The pixels of the loops of `FillRgn`. -/
def points (a : Area) : List Point :=
  (List.range (a.b - a.t).toNat).flatMap fun j : ℕ =>
    (List.range (a.r - a.l).toNat).map fun i : ℕ => (a.l + i, a.t + j)

/-- `aret_FillRgn`, with a brush that has a colour; it gives up on a region that is no
rectangle. -/
def fillRgn (a : Area) (bm : Bitmap) (c : UInt32) : Option Bitmap :=
  if a.complex then none else some ((points a).foldl (fun bm p => bm.put p.1 p.2 c) bm)

/-! ### Calls -/

/-- The regions by their handles, the clips of the contexts and the regions of the windows. -/
structure State where
  rgn : ℕ → Area
  clip : ℕ → Clip
  wnd : ℕ → Option Area

/-- The sets of pixels; no clip is `none`. -/
structure Ideal where
  rgn : ℕ → Set Point
  clip : ℕ → Option (Set Point)
  wnd : ℕ → Option (Set Point)

/-- The pixels of a rectangle, by two of its corners. -/
def box (l t r b : ℤ) : Set Point :=
  {p | (l ≤ p.1 ∧ p.1 < r ∨ r ≤ p.1 ∧ p.1 < l) ∧ (t ≤ p.2 ∧ p.2 < b ∨ b ≤ p.2 ∧ p.2 < t)}

/-- A pixel has vertices on both sides, and above and below it. -/
def Among (ps : List Point) (p : Point) : Prop :=
  ((∃ q ∈ ps, q.1 ≤ p.1) ∧ ∃ q ∈ ps, p.1 < q.1) ∧ (∃ q ∈ ps, q.2 ≤ p.2) ∧ ∃ q ∈ ps, p.2 < q.2

/-- A region that is made gets the handle `i`; the pixels of a rounded rectangle are some of those
of the rectangle, and the pixels of a polygon lie among its vertices. -/
inductive Call
  | rect (i : ℕ) (l t r b : ℤ)
  | roundRect (i : ℕ) (l t r b : ℤ) (s : Set Point) (hs : s ⊆ box l t r b)
  | polygon (i : ℕ) (ps : List Point) (s : Set Point) (hs : ∀ p ∈ s, Among ps p)
  | combine (d a : ℕ) (b : Option ℕ) (mode : Mode)
  | selectClip (dc : ℕ) (r : Option ℕ)
  | extSelectClip (dc : ℕ) (r : Option ℕ) (mode : Mode)
  | intersectClip (dc : ℕ) (l t r b : ℤ)
  | excludeClip (dc : ℕ) (l t r b : ℤ)
  | getClip (dc r : ℕ)
  | setWindow (w : ℕ) (r : Option ℕ)
  | getWindow (w r : ℕ)

def step (s : State) : Call → State
  | .rect i l t r b => { s with rgn := Function.update s.rgn i (area l t r b) }
  | .roundRect i l t r b _ _ =>
    { s with rgn := Function.update s.rgn i { area l t r b with complex := true } }
  | .polygon i ps _ _ => { s with rgn := Function.update s.rgn i (bounds ps) }
  | .combine d a b mode =>
    { s with rgn := Function.update s.rgn d (combine (s.rgn a) (b.map s.rgn) mode) }
  | .selectClip dc r =>
    { s with clip := Function.update s.clip dc (select (s.clip dc) (r.map s.rgn)) }
  | .extSelectClip dc r mode =>
    { s with clip := Function.update s.clip dc (extSelect (s.clip dc) mode (r.map s.rgn)) }
  | .intersectClip dc l t r b =>
    { s with clip := Function.update s.clip dc (intersect (s.clip dc) (area l t r b)) }
  | .excludeClip dc l t r b =>
    { s with clip := Function.update s.clip dc (exclude (s.clip dc) (area l t r b)) }
  | .getClip dc r => { s with rgn := Function.update s.rgn r ((s.clip dc).current.getD (s.rgn r)) }
  | .setWindow w r => { s with wnd := Function.update s.wnd w (r.map s.rgn) }
  | .getWindow w r => { s with rgn := Function.update s.rgn r ((s.wnd w).getD (s.rgn r)) }

def Mode.sets : Mode → Set Point → Set Point → Set Point
  | .and, s, t => s ∩ t
  | .or, s, t => s ∪ t
  | .xor, s, t => (s \ t) ∪ (t \ s)
  | .diff, s, t => s \ t
  | .copy, s, _ => s

/-- What the calls do to the sets; a missing clip is everything, and a call that lacks a region
does nothing. -/
def ideal (s : Ideal) : Call → Ideal
  | .rect i l t r b => { s with rgn := Function.update s.rgn i (box l t r b) }
  | .roundRect i _ _ _ _ p _ | .polygon i _ p _ => { s with rgn := Function.update s.rgn i p }
  | .combine d a b mode =>
    match b, mode with
    | some b, mode => { s with rgn := Function.update s.rgn d (mode.sets (s.rgn a) (s.rgn b)) }
    | none, .copy => { s with rgn := Function.update s.rgn d (s.rgn a) }
    | none, _ => s
  | .selectClip dc r => { s with clip := Function.update s.clip dc (r.map s.rgn) }
  | .extSelectClip dc r mode =>
    match r, mode with
    | r, .copy => { s with clip := Function.update s.clip dc (r.map s.rgn) }
    | some r, mode =>
      let t := mode.sets ((s.clip dc).getD Set.univ) (s.rgn r)
      { s with clip := Function.update s.clip dc (some t) }
    | none, _ => s
  | .intersectClip dc l t r b =>
    let u := (s.clip dc).getD Set.univ ∩ box l t r b
    { s with clip := Function.update s.clip dc (some u) }
  | .excludeClip dc l t r b =>
    let u := (s.clip dc).getD Set.univ \ box l t r b
    { s with clip := Function.update s.clip dc (some u) }
  | .getClip dc r => { s with rgn := Function.update s.rgn r ((s.clip dc).getD (s.rgn r)) }
  | .setWindow w r => { s with wnd := Function.update s.wnd w (r.map s.rgn) }
  | .getWindow w r => { s with rgn := Function.update s.rgn r ((s.wnd w).getD (s.rgn r)) }

def next (h : State × Ideal) (c : Call) : State × Ideal := (step h.1 c, ideal h.2 c)

def start : State × Ideal :=
  (⟨fun _ => area 0 0 0 0, fun _ => ⟨false, area 0 0 0 0⟩, fun _ => none⟩,
    ⟨fun _ => ∅, fun _ => none, fun _ => none⟩)

/-- Rectangle `a` takes a whole band away from `k`, but not all of it. -/
def Band (a k : Area) : Prop :=
  (a.l < k.r ∧ k.l < a.r ∧ a.t < k.b ∧ k.t < a.b) ∧ a.contains k = false ∧
    (a.l ≤ k.l ∧ a.r ≥ k.r ∧ (a.t ≤ k.t ∨ a.b ≥ k.b) ∨
      a.t ≤ k.t ∧ a.b ≥ k.b ∧ (a.l ≤ k.l ∨ a.r ≥ k.r))

def Careful (h : State × Ideal) : Call → Prop
  | .combine _ a b mode =>
    match b, mode with
    | _, .copy => True
    | none, _ => False
    | some _, .diff => True
    | some b, .xor => (h.1.rgn b).rect ⊆ (h.1.rgn a).rect
    | some b, .and => (h.1.rgn a).complex = false ∧ (h.1.rgn b).complex = false
    | some b, .or => ((h.1.rgn a).contains (h.1.rgn b) → (h.1.rgn a).complex = false) ∧
        ((h.1.rgn b).contains (h.1.rgn a) → (h.1.rgn b).complex = false)
  | .extSelectClip dc (some r) mode =>
    ((h.1.clip dc).set = false → mode = .and ∨ mode = .copy) ∧
      ((h.1.clip dc).set → mode = .and →
        (h.1.clip dc).area.complex = false ∧ (h.1.rgn r).complex = false)
  | .intersectClip dc _ _ _ _ => (h.1.clip dc).set → (h.1.clip dc).area.complex = false
  | .excludeClip dc l t r b => (h.1.clip dc).set ∧
      (Band (area l t r b) (h.1.clip dc).area → (h.1.clip dc).area.complex = false)
  | _ => True

/-! ### Rectangles and sets -/

section
variable {a b k : Area} {s u : Set Point}

theorem covers_rect : a.Covers a.rect := ⟨fun _ hp => hp, fun _ _ hp => hp⟩

theorem covers_complex (hc : a.complex = true) (hs : s ⊆ a.rect) : a.Covers s :=
  ⟨hs, fun hfalse => absurd (hc.symm.trans hfalse) (by decide)⟩

theorem rect_area (l t r b : ℤ) : (area l t r b).rect = box l t r b := by
  ext p
  simp only [Area.rect, area, box, Set.mem_ofPred_eq]
  omega

theorem covers_area (l t r b : ℤ) : (area l t r b).Covers (box l t r b) :=
  rect_area l t r b ▸ covers_rect

theorem foldl_grow (ps : List Point) (a : Area) {z : Area} (hz : ps.foldl Area.grow a = z) :
    (z.l ≤ a.l ∧ z.t ≤ a.t ∧ a.r ≤ z.r ∧ a.b ≤ z.b) ∧
    ∀ q ∈ ps, z.l ≤ q.1 ∧ z.t ≤ q.2 ∧ q.1 ≤ z.r ∧ q.2 ≤ z.b := by
  induction ps generalizing a with
  | nil =>
    subst hz
    exact ⟨⟨le_rfl, le_rfl, le_rfl, le_rfl⟩, nofun⟩
  | cons q ps ih =>
    have hgrow : (a.grow q).l = min a.l q.1 ∧ (a.grow q).t = min a.t q.2 ∧
        (a.grow q).r = max a.r q.1 ∧ (a.grow q).b = max a.b q.2 := ⟨rfl, rfl, rfl, rfl⟩
    obtain ⟨hz, hps⟩ := ih (a.grow q) hz
    rw [List.forall_mem_cons]
    exact ⟨by omega, by omega, hps⟩

theorem bounds_spec {ps : List Point} {q : Point} (hq : q ∈ ps) :
    ((bounds ps).l ≤ q.1 ∧ (bounds ps).t ≤ q.2) ∧ q.1 ≤ (bounds ps).r ∧ q.2 ≤ (bounds ps).b := by
  obtain _ | ⟨p, ps⟩ := ps
  · exact absurd hq List.not_mem_nil
  · have hgrow := foldl_grow ps ⟨p.1, p.2, p.1, p.2, true⟩ rfl
    simp only [bounds, area]
    rcases List.mem_cons.mp hq with rfl | hq
    · dsimp only at hgrow
      omega
    · have hmem := hgrow.2 q hq
      omega

theorem mem_bounds {ps : List Point} {p : Point} (h : Among ps p) : p ∈ (bounds ps).rect := by
  obtain ⟨⟨⟨q₁, hq₁, h₁⟩, q₂, hq₂, h₂⟩, ⟨q₃, hq₃, h₃⟩, q₄, hq₄, h₄⟩ := h
  have hl := bounds_spec hq₁
  have hr := bounds_spec hq₂
  have ht := bounds_spec hq₃
  have hb := bounds_spec hq₄
  exact ⟨by omega, by omega, by omega, by omega⟩

theorem rect_meet : (a.meet b).rect = a.rect ∩ b.rect := by
  ext p
  simp only [Area.rect, Area.meet, Set.mem_inter_iff, Set.mem_ofPred_eq]
  omega

theorem covers_meet (ha : a.Covers s) (hb : b.Covers u) (hac : a.complex = false)
    (hbc : b.complex = false) : (a.meet b).Covers (s ∩ u) := by
  rw [Area.Covers, rect_meet]
  exact ⟨fun p hp => ⟨ha.1 p hp.1, hb.1 p hp.2⟩, fun _ p hp => ⟨ha.2 hac p hp.1, hb.2 hbc p hp.2⟩⟩

theorem mem_join {c : Bool} {p : Point} (h : p ∈ a.rect ∨ p ∈ b.rect) : p ∈ (a.join b c).rect := by
  simp only [Area.rect, Area.join, Set.mem_ofPred_eq] at *
  omega

/-- If one rectangle contains the other one, it is the rectangle around both. -/
theorem mem_of_join {c : Bool} {p : Point} (h : a.contains b) (hp : p ∈ (a.join b c).rect) :
    p ∈ a.rect := by
  simp only [Area.contains, Area.rect, Area.join, Set.mem_ofPred_eq, decide_eq_true_eq] at *
  omega

theorem mem_join_comm {c : Bool} {p : Point} (hp : p ∈ (a.join b c).rect) :
    p ∈ (b.join a c).rect := by
  simp only [Area.rect, Area.join, Set.mem_ofPred_eq] at *
  omega

theorem covers_join (ha : a.Covers s) (hb : b.Covers u)
    (hab : a.contains b → a.complex = false) (hba : b.contains a → b.complex = false) :
    (a.join b (!(a.contains b || b.contains a))).Covers (s ∪ u) := by
  refine ⟨fun p hp => mem_join (hp.imp (ha.1 p) (hb.1 p)), fun hc p hp => ?_⟩
  have hone : (a.contains b || b.contains a) = true := Bool.not_eq_eq_eq_not.mp hc
  rcases Bool.or_eq_true_iff.mp hone with h | h
  · exact .inl (ha.2 (hab h) p (mem_of_join h hp))
  · exact .inr (hb.2 (hba h) p (mem_of_join h (mem_join_comm hp)))

theorem covers_combine (ha : a.Covers s) (hb : b.Covers u) {mode : Mode}
    (hand : mode = .and → a.complex = false ∧ b.complex = false)
    (hor : mode = .or → (a.contains b → a.complex = false) ∧ (b.contains a → b.complex = false))
    (hxor : mode = .xor → b.rect ⊆ a.rect) :
    (combine a (some b) mode).Covers (mode.sets s u) := by
  cases mode with
  | and =>
    obtain ⟨hac, hbc⟩ := hand rfl
    obtain ⟨hin, hout⟩ := covers_meet ha hb hac hbc
    refine ⟨fun p hp => ?_, fun _ p hp => hout rfl p ?_⟩
    · have hmem := hin p hp
      simp only [Area.rect, Set.mem_ofPred_eq, combine] at hmem ⊢
      omega
    · simp only [Area.rect, Set.mem_ofPred_eq, combine] at hp ⊢
      omega
  | or => exact covers_join ha hb (hor rfl).1 (hor rfl).2
  | xor =>
    refine covers_complex rfl fun p hp => ?_
    rcases hp with hp | hp
    · exact ha.1 p hp.1
    · exact hxor rfl (hb.1 p hp.1)
  | diff => exact covers_complex rfl fun p hp => ha.1 p hp.1
  | copy => exact ha

theorem mem_cut {p : Point} (hk : p ∈ k.rect) (ha : p ∉ a.rect) : p ∈ (cut k a).rect := by
  unfold cut
  split_ifs
  all_goals
    simp only [Area.rect, Set.mem_ofPred_eq] at *
    omega

/-- Where the flag is not set, what the runtime keeps is what is left. -/
theorem of_cut (hband : Band a k → k.complex = false) (hc : (cut k a).complex = false) :
    k.complex = false ∧ ∀ p ∈ (cut k a).rect, p ∈ k.rect ∧ p ∉ a.rect := by
  have hbool : a.contains k = false ↔ ¬ (a.l ≤ k.l ∧ a.t ≤ k.t ∧ a.r ≥ k.r ∧ a.b ≥ k.b) := by
    rw [Area.contains, decide_eq_false_iff_not]
  simp only [Band, hbool] at hband
  unfold cut at hc ⊢
  simp only [Area.rect, Set.mem_ofPred_eq] at *
  split_ifs at hc ⊢ with hfar hall hwide htop hbot htall hleft hright
  · exact ⟨hc, fun p hp => by omega⟩
  · exact ⟨hc, fun p hp => by dsimp only at hp; omega⟩
  all_goals
    refine ⟨hband (by omega), fun p hp => ?_⟩
    dsimp only at hp
    omega

theorem covers_cut (hk : k.Covers s) (hband : Band a k → k.complex = false) :
    (cut k a).Covers (s \ a.rect) := by
  refine ⟨fun p hp => mem_cut (hk.1 p hp.1) hp.2, fun hc p hp => ?_⟩
  obtain ⟨hkc, hleft⟩ := of_cut hband hc
  exact ⟨hk.2 hkc p (hleft p hp).1, (hleft p hp).2⟩

end

/-! ### Runs -/

structure Inv (h : State × Ideal) : Prop where
  rgn : ∀ i, (h.1.rgn i).Covers (h.2.rgn i)
  clip : ∀ dc, Option.Rel Area.Covers (h.1.clip dc).current (h.2.clip dc)
  wnd : ∀ w, Option.Rel Area.Covers (h.1.wnd w) (h.2.wnd w)

theorem inv_start : Inv start := by
  refine ⟨fun i => ⟨fun p hp => absurd hp (Set.notMem_empty p), fun _ p hp => ?_⟩,
    fun _ => .none, fun _ => .none⟩
  obtain ⟨hl, hr, -⟩ := hp
  exact absurd (lt_of_le_of_lt hl hr) (lt_irrefl _)

theorem forall_update {α β : Type} {P : α → β → Prop} {f : ℕ → α} {g : ℕ → β}
    (h : ∀ j, P (f j) (g j)) (i : ℕ) {x : α} {y : β} (hxy : P x y) (j : ℕ) :
    P (Function.update f i x j) (Function.update g i y j) := by
  by_cases hj : j = i
  · subst hj
    rwa [Function.update_self, Function.update_self]
  · rw [Function.update_of_ne hj, Function.update_of_ne hj]
    exact h j

theorem covers_getD {x : Option Area} {y : Option (Set Point)} {a : Area} {u : Set Point}
    (h : Option.Rel Area.Covers x y) (ha : a.Covers u) : (x.getD a).Covers (y.getD u) := by
  cases h with
  | none => exact ha
  | some hcov => exact hcov

section
variable {h : State × Ideal} (hinv : Inv h)
include hinv

theorem Inv.set_rgn (i : ℕ) {a : Area} {u : Set Point} (ha : a.Covers u) :
    Inv ({ h.1 with rgn := Function.update h.1.rgn i a },
      { h.2 with rgn := Function.update h.2.rgn i u }) :=
  ⟨forall_update hinv.rgn i ha, hinv.clip, hinv.wnd⟩

theorem Inv.set_clip (i : ℕ) {c : Clip} {u : Option (Set Point)}
    (hc : Option.Rel Area.Covers c.current u) :
    Inv ({ h.1 with clip := Function.update h.1.clip i c },
      { h.2 with clip := Function.update h.2.clip i u }) :=
  ⟨hinv.rgn, forall_update (P := fun c u => Option.Rel Area.Covers (Clip.current c) u)
    hinv.clip i hc, hinv.wnd⟩

theorem Inv.clip_cases (dc : ℕ) : ((h.1.clip dc).set = false ∧ h.2.clip dc = none) ∨
    ∃ u, (h.1.clip dc).set = true ∧ h.2.clip dc = some u ∧ (h.1.clip dc).area.Covers u := by
  have hrel := hinv.clip dc
  rw [Clip.current] at hrel
  cases hset : (h.1.clip dc).set with
  | false =>
    rw [hset, if_neg Bool.false_ne_true] at hrel
    cases hu : h.2.clip dc with
    | none => exact .inl ⟨rfl, rfl⟩
    | some u =>
      rw [hu] at hrel
      cases hrel
  | true =>
    rw [hset, if_pos rfl] at hrel
    cases hu : h.2.clip dc with
    | none =>
      rw [hu] at hrel
      cases hrel
    | some u =>
      rw [hu] at hrel
      cases hrel with
      | some hcov => exact .inr ⟨u, rfl, rfl, hcov⟩

theorem Inv.rel_map (r : Option ℕ) :
    Option.Rel Area.Covers (r.map h.1.rgn) (r.map h.2.rgn) := by
  cases r with
  | none => exact .none
  | some r => exact .some (hinv.rgn r)

theorem Inv.ext_select (dc : ℕ) (r : Option ℕ) (mode : Mode)
    (hc : Careful h (.extSelectClip dc r mode)) : Inv (next h (.extSelectClip dc r mode)) := by
  cases r with
  | none =>
    cases mode with
    | copy => exact hinv.set_clip dc .none
    | _ =>
      show Inv ({ h.1 with clip := Function.update h.1.clip dc (h.1.clip dc) }, h.2)
      rw [Function.update_eq_self]
      exact hinv
  | some r =>
    have hr := hinv.rgn r
    rcases hinv.clip_cases dc with ⟨hset, hnone⟩ | ⟨u, hset, hsome, hcov⟩
    · -- without a clip the region is taken as it is, whatever the mode
      have hext : extSelect (h.1.clip dc) mode (some (h.1.rgn r)) = ⟨true, h.1.rgn r⟩ :=
        if_pos (.inl hset)
      rw [next, step, Option.map_some, hext]
      rcases hc.1 hset with rfl | rfl
      · refine hinv.set_clip dc (.some ?_)
        rwa [hnone, Option.getD_none, Mode.sets, Set.univ_inter]
      · exact hinv.set_clip dc (.some hr)
    · -- the joined rectangle is marked complex, so that it may be larger than the set
      have hjoin : ∀ v : Set Point, v ⊆ u ∪ h.2.rgn r →
          ((h.1.clip dc).area.join (h.1.rgn r) true).Covers v := by
        intro v hv
        refine covers_complex rfl fun p hp => mem_join ?_
        exact (hv hp).imp (hcov.1 p) (hr.1 p)
      rw [next, step, Option.map_some, extSelect, hset]
      cases mode with
      | and =>
        obtain ⟨hac, hbc⟩ := hc.2 hset rfl
        refine hinv.set_clip dc (.some ?_)
        rw [hsome]
        exact covers_meet hcov hr hac hbc
      | copy => exact hinv.set_clip dc (.some hr)
      | or =>
        refine hinv.set_clip dc (.some ?_)
        rw [hsome]
        exact hjoin _ fun p hp => hp
      | xor =>
        refine hinv.set_clip dc (.some ?_)
        rw [hsome]
        exact hjoin _ fun p hp => hp.imp And.left And.left
      | diff =>
        refine hinv.set_clip dc (.some ?_)
        rw [hsome]
        exact hjoin _ fun p hp => .inl hp.1

theorem Inv.next {c : Call} (hc : Careful h c) : Inv (next h c) := by
  cases c with
  | rect i l t r b => exact hinv.set_rgn i (covers_area l t r b)
  | roundRect i l t r b u hu =>
    exact hinv.set_rgn i (covers_complex rfl fun p hp => (covers_area l t r b).1 p (hu hp))
  | polygon i ps u hu =>
    refine hinv.set_rgn i ⟨fun p hp => mem_bounds (hu p hp), fun hfalse p hp => ?_⟩
    cases ps with
    | nil =>
      -- without vertices the bounds are empty
      obtain ⟨hl, hr, -⟩ := hp
      exact absurd (lt_of_le_of_lt hl hr) (lt_irrefl _)
    | cons q ps => exact absurd (show true = false from hfalse) (by decide)
  | combine d a b mode =>
    cases b with
    | none =>
      cases mode with
      | copy => exact hinv.set_rgn d (hinv.rgn a)
      | _ => exact absurd hc id
    | some b =>
      refine hinv.set_rgn d (covers_combine (hinv.rgn a) (hinv.rgn b) ?_ ?_ ?_)
      all_goals
        rintro rfl
        exact hc
  | selectClip dc r =>
    refine hinv.set_clip dc ?_
    cases r with
    | none => exact .none
    | some r => exact .some (hinv.rgn r)
  | extSelectClip dc r mode => exact hinv.ext_select dc r mode hc
  | intersectClip dc l t r b =>
    refine hinv.set_clip dc (.some ?_)
    rcases hinv.clip_cases dc with ⟨hset, hnone⟩ | ⟨u, hset, hsome, hcov⟩
    · rw [hnone, Option.getD_none, Set.univ_inter, intersect, hset]
      exact covers_area l t r b
    · rw [hsome, Option.getD_some, intersect, hset]
      exact covers_meet hcov (covers_area l t r b) (hc hset) rfl
  | excludeClip dc l t r b =>
    refine hinv.set_clip dc (.some ?_)
    rcases hinv.clip_cases dc with ⟨hset, -⟩ | ⟨u, hset, hsome, hcov⟩
    · exact absurd (hset.symm.trans hc.1) Bool.false_ne_true
    · rw [hsome, Option.getD_some, exclude, hset, ← rect_area]
      exact covers_cut hcov hc.2
  | getClip dc r => exact hinv.set_rgn r (covers_getD (hinv.clip dc) (hinv.rgn r))
  | setWindow w r => exact ⟨hinv.rgn, hinv.clip, forall_update hinv.wnd w (hinv.rel_map r)⟩
  | getWindow w r => exact hinv.set_rgn r (covers_getD (hinv.wnd w) (hinv.rgn r))

end

/-! ### What is painted and what is seen -/

theorem mem_points {a : Area} {p : Point} : p ∈ points a ↔ p ∈ a.rect := by
  simp only [points, List.mem_flatMap, List.mem_map, List.mem_range, Area.rect, Set.mem_ofPred_eq]
  constructor
  · rintro ⟨j, hj, i, hi, rfl⟩
    dsimp only
    omega
  · intro hp
    refine ⟨(p.2 - a.t).toNat, by omega, (p.1 - a.l).toNat, by omega, Prod.ext ?_ ?_⟩
    · dsimp only
      omega
    · dsimp only
      omega

/-- The loops of `FillRgn` paint the rectangle. -/
theorem drawn_fill (a : Area) (bm : Bitmap) (c : UInt32) :
    Drawn bm (points a) c ((points a).foldl (fun bm p => bm.put p.1 p.2 c) bm) := by
  have hput : (fun (bm : Bitmap) (p : Point) =>
      if (bm.px p.1 p.2).isSome then bm.put p.1 p.2 c else bm) =
      fun bm p => bm.put p.1 p.2 c := by
    funext bm p
    cases hpx : bm.px p.1 p.2 with
    | none =>
      rw [Bitmap.put, hpx]
      rfl
    | some o => rfl
  have hdrawn := (Drawn.nil : Drawn bm [] c bm).foldl (points a)
  rwa [hput, List.nil_append] at hdrawn

structure Sound (h : State × Ideal) : Prop extends Inv h where
  /-- `FillRgn` gives up, or paints the region. -/
  fill : ∀ i bm c bm', fillRgn (h.1.rgn i) bm c = some bm' →
    ∃ ps, (∀ p, p ∈ ps ↔ p ∈ h.2.rgn i) ∧ Drawn bm ps c bm'
  /-- `RectVisible` does not miss a pixel of the clip. -/
  visible : ∀ dc (a : Area), (∃ p ∈ (h.2.clip dc).getD Set.univ, p ∈ a.rect) →
    rectVisible (h.1.clip dc) a.l a.t a.r a.b = true

theorem Inv.sound {h : State × Ideal} (hinv : Inv h) : Sound h := by
  refine { hinv with fill := fun i bm c bm' hfill => ?_, visible := fun dc a hsome => ?_ }
  · unfold fillRgn at hfill
    split_ifs at hfill with hcomplex
    obtain rfl := Option.some.inj hfill
    refine ⟨points (h.1.rgn i), fun p => ?_, drawn_fill _ bm c⟩
    rw [mem_points]
    exact ⟨(hinv.rgn i).2 (Bool.eq_false_iff.mpr hcomplex) p, (hinv.rgn i).1 p⟩
  · obtain ⟨p, hp, hl, hr, ht, hb⟩ := hsome
    rw [rectVisible]
    rcases hinv.clip_cases dc with ⟨hset, -⟩ | ⟨u, hset, heq, hcov⟩
    · rw [hset]
      rfl
    · rw [heq] at hp
      obtain ⟨hkl, hkr, hkt, hkb⟩ := hcov.1 p hp
      simp only [hset, Bool.not_true, Bool.false_or, Bool.not_eq_true', Bool.or_eq_false_iff,
        decide_eq_false_iff_not]
      omega

theorem among_corner (p : Point) (h : 0 ≤ p.1 ∧ 0 ≤ p.2 ∧ p.1 + p.2 < 8) :
    Among [(0, 0), (8, 0), (0, 8)] p := by
  refine ⟨⟨⟨(0, 0), by simp, h.1⟩, (8, 0), by simp, ?_⟩, ⟨(0, 0), by simp, h.2.1⟩,
    (0, 8), by simp, ?_⟩
  all_goals
    dsimp only
    omega

/-- Two rectangles and what they have in common, as a clip from which a band is taken, and what a
triangle leaves of one of them. -/
def sample : List Call :=
  [.rect 1 0 0 9 9, .rect 2 12 12 4 4, .combine 3 1 (some 2) .and, .selectClip 0 (some 3),
    .excludeClip 0 4 4 9 6, .polygon 4 [(0, 0), (8, 0), (0, 8)] _ among_corner,
    .combine 5 1 (some 4) .diff]

end Aret.Gdi.Regions
