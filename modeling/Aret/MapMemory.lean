/-
The memory layout mapper: the table and the blob that are generated from regions, and
`__aret_map_memory`, which puts the regions' bytes at their addresses when the program
starts.

* `snapshot_load_place` — snapshots are loaded and placed.

Design notes: `mmap` is a parameter that says which requests succeed; one that does gives
zeroed pages.  A WASM module's memory is mapped at least up to where its own data starts.
-/
import Aret.Overlay
import Aret.Snapshot

namespace Aret.MapMemory

open ByteBuf Overlay Snapshot

/-! ### The generated files -/

/-- `struct aret_sec`. -/
structure Sec where
  va : UInt32
  off : UInt32
  len : UInt32

structure Layout where
  blob : Buf
  secs : List Sec
  maxVa : ℕ

def regions (sections : List Region) (snapshot : Option (List Region)) : List Region :=
  (snapshot.getD sections).filter fun r => r.va ≠ 0 ∧ r.bytes ≠ []

/-- `(va, off, len)` of each region, from the blob's length `off` on. -/
def table (off : ℕ) : List Region → List (UInt64 × ℕ × ℕ)
  | [] => []
  | r :: rs => (r.va, off, r.bytes.length) :: table (off + r.bytes.length) rs

/-- A row of the table as its `uint32_t` initializers leave it. -/
def sec (row : UInt64 × ℕ × ℕ) : Sec :=
  ⟨row.1.toUInt32, UInt32.ofNat row.2.1, UInt32.ofNat row.2.2⟩

def emitLayout (sections : List Region) (snapshot : Option (List Region)) : Option Layout :=
  let rs := regions sections snapshot
  if rs = [] then none
  else
    let rows := table 0 rs
    some ⟨rs.flatMap Region.bytes, rows.map sec,
      (rows.map fun row => (row.1.toNat + row.2.2) % 2 ^ 64).foldl max 0⟩

def wasmGlobalBase (l : Layout) : ℕ := max ((l.maxVa + 0xffff) / 0x10000 * 0x10000) 0x100000

/-! ### `__aret_map_memory` -/

inductive Mapped
  | ran (imageLo imageHi : UInt32) (mem : Mem UInt8)
  | exits (code : ℕ)
  | faults

def page : UInt32 := 0x1000

/-- `a & ~(uint64_t)(PAGE - 1)`. -/
def roundDown (a : ℕ) : ℕ := a / 0x1000 * 0x1000

def Sec.pageLo (s : Sec) : ℕ := roundDown s.va.toNat

/-- The sum is one of `uint32_t`s; only then it is widened. -/
def Sec.pageHi (s : Sec) : ℕ := roundDown (s.va + s.len + page - 1).toNat

/-- The bounds `lo` and `hi` after one more section. -/
def widen (bounds : ℕ × ℕ) (s : Sec) : ℕ × ℕ :=
  (if s.pageLo < bounds.1 then s.pageLo else bounds.1,
    if bounds.2 < s.pageHi then s.pageHi else bounds.2)

def span (secs : List Sec) : ℕ × ℕ := secs.foldl widen (0xffffffff, 0)

/-- The source of a `memcpy`, where it is inside the blob. -/
def slice (blob : Buf) (s : Sec) : Option (Piece UInt8) :=
  if s.off.toNat + s.len.toNat ≤ blob.length then
    some (s.va.toNat, (blob.drop s.off.toNat).take s.len.toNat)
  else none

def copySecs (blob : Buf) (secs : List Sec) (m : Mem UInt8) : Option (Mem UInt8) :=
  (secs.mapM (slice blob)).bind (copyAll m)

/-- Fresh pages from `lo` on. -/
def mapFixed (m : Mem UInt8) (lo size : ℕ) : Mem UInt8 :=
  fun a => if lo ≤ a ∧ a < lo + roundDown (size + 0xfff) then some 0 else m a

/-- `size_t` has `bits` bits. -/
def mapMemory (bits : ℕ) (mmap : ℕ → ℕ → Bool) (l : Layout) (m : Mem UInt8) : Mapped :=
  let (lo, hi) := span l.secs
  let size := (hi + 2 ^ 64 - lo) % 2 ^ 64 % 2 ^ bits
  if mmap lo size then
    match copySecs l.blob l.secs (mapFixed m lo size) with
    | some m' => .ran (UInt32.ofNat lo) (UInt32.ofNat hi) m'
    | none => .faults
  else .exits 70

def mapMemoryWasm (l : Layout) (m : Mem UInt8) : Option (Mem UInt8) := copySecs l.blob l.secs m

/-! ### What is placed -/

def piece (r : Region) : Piece UInt8 := (r.va.toNat, r.bytes)

def Touches (r : Region) (a : ℕ) : Prop := ∃ b, Covers b (piece r) ∧ b / 0x1000 = a / 0x1000

def HoldsLast (rs : List Region) (m : Mem UInt8) : Prop :=
  ∀ a r, lastCover (rs.map piece) a = some r → m a = r.2[a - r.1]?

variable {rs : List Region} {r : Region} {m m' : Mem UInt8} {l : Layout}

theorem va_ne_zero_of_mem {sections : List Region} {snapshot : Option (List Region)}
    (h : r ∈ regions sections snapshot) : 0 < r.va.toNat ∧ 0 < r.bytes.length := by
  obtain ⟨-, hkept⟩ := List.mem_filter.mp h
  obtain ⟨hva, hne⟩ := of_decide_eq_true hkept
  refine ⟨Nat.pos_of_ne_zero fun hzero => hva ?_, List.length_pos_iff.mpr hne⟩
  exact UInt64.toNat_inj.mp hzero

theorem mapM_slice_table (pre : Buf) (htotal : (pre ++ rs.flatMap Region.bytes).length < 2 ^ 32)
    (hva : ∀ r ∈ rs, r.va.toNat < 2 ^ 32) :
    ((table pre.length rs).map sec).mapM (slice (pre ++ rs.flatMap Region.bytes)) =
      some (rs.map piece) := by
  induction rs generalizing pre with
  | nil => rfl
  | cons r rs ih =>
    have hva' := hva r List.mem_cons_self
    have hlen : pre.length + (r.bytes.length + (rs.flatMap Region.bytes).length) < 2 ^ 32 := by
      rwa [List.flatMap_cons, List.length_append, List.length_append] at htotal
    have hsec : slice (pre ++ (r.bytes ++ rs.flatMap Region.bytes))
        (sec (r.va, pre.length, r.bytes.length)) = some (piece r) := by
      have hva32 : r.va.toUInt32.toNat = r.va.toNat := Nat.mod_eq_of_lt hva'
      have hoff : (UInt32.ofNat pre.length).toNat = pre.length := Nat.mod_eq_of_lt (by omega)
      have hlen32 : (UInt32.ofNat r.bytes.length).toNat = r.bytes.length :=
        Nat.mod_eq_of_lt (by omega)
      simp only [slice, sec, hva32, hoff, hlen32, List.length_append]
      rw [if_pos (by omega), List.drop_left, List.take_left, piece]
    have hrest := ih (pre ++ r.bytes)
      (by rw [List.append_assoc]; exact htotal) fun r' hr' => hva r' (List.mem_cons_of_mem r hr')
    rw [List.length_append, List.append_assoc] at hrest
    rw [table, List.map_cons, List.mapM_cons, List.flatMap_cons, hsec, hrest]
    rfl

theorem emitLayout_eq {sections : List Region} {snapshot : Option (List Region)}
    (h : emitLayout sections snapshot = some l) :
    regions sections snapshot ≠ [] ∧
    l.blob = (regions sections snapshot).flatMap Region.bytes ∧
      l.secs = (table 0 (regions sections snapshot)).map sec := by
  unfold emitLayout at h
  dsimp only at h
  split_ifs at h with hnone
  rw [← Option.some.inj h]
  exact ⟨hnone, rfl, rfl⟩

/-! ### The pages -/

theorem roundDown_le (a : ℕ) : roundDown a ≤ a := Nat.div_mul_le_self a 0x1000

theorem le_roundDown_add (a : ℕ) : a ≤ roundDown (a + 0xfff) := by
  rw [roundDown]
  omega

theorem widen_eq (bounds : ℕ × ℕ) (s : Sec) :
    widen bounds s = (min bounds.1 s.pageLo, max bounds.2 s.pageHi) := by
  rw [widen, Prod.mk.injEq, min_def, max_def]
  constructor <;> split_ifs <;> omega

theorem foldl_widen_le (secs : List Sec) (bounds : ℕ × ℕ) :
    (secs.foldl widen bounds).1 ≤ bounds.1 ∧ bounds.2 ≤ (secs.foldl widen bounds).2 := by
  induction secs generalizing bounds with
  | nil => exact ⟨le_rfl, le_rfl⟩
  | cons s secs ih =>
    obtain ⟨hlo, hhi⟩ := ih (widen bounds s)
    rw [widen_eq] at hlo hhi
    rw [List.foldl_cons, widen_eq]
    exact ⟨hlo.trans (min_le_left _ _), (le_max_left _ _).trans hhi⟩

theorem foldl_widen_of_mem {secs : List Sec} {s : Sec} (h : s ∈ secs) (bounds : ℕ × ℕ) :
    (secs.foldl widen bounds).1 ≤ s.pageLo ∧ s.pageHi ≤ (secs.foldl widen bounds).2 := by
  induction secs generalizing bounds with
  | nil => cases h
  | cons s' secs ih =>
    rcases List.mem_cons.mp h with rfl | hmem
    · obtain ⟨hlo, hhi⟩ := foldl_widen_le secs (widen bounds s)
      rw [widen_eq] at hlo hhi
      rw [List.foldl_cons, widen_eq]
      exact ⟨hlo.trans (min_le_right _ _), (le_max_right _ _).trans hhi⟩
    · exact ih hmem (widen bounds s')

theorem foldl_widen_hi (secs : List Sec) (bounds : ℕ × ℕ) (h : bounds.2 < 2 ^ 32) :
    (secs.foldl widen bounds).2 < 2 ^ 32 := by
  induction secs generalizing bounds with
  | nil => exact h
  | cons s secs ih =>
    have hpage : s.pageHi < 2 ^ 32 := (roundDown_le _).trans_lt (UInt32.toNat_lt _)
    refine ih (widen bounds s) ?_
    rw [widen_eq]
    exact max_lt h hpage

theorem pages_sec (off : ℕ) (h : r.va.toNat + r.bytes.length ≤ 2 ^ 32 - 0x1000) :
    (sec (r.va, off, r.bytes.length)).pageLo = roundDown r.va.toNat ∧
      (sec (r.va, off, r.bytes.length)).pageHi =
        roundDown (r.va.toNat + r.bytes.length + 0xfff) := by
  have hva : r.va.toUInt32.toNat = r.va.toNat := Nat.mod_eq_of_lt (by omega)
  have hlen : (UInt32.ofNat r.bytes.length).toNat = r.bytes.length := Nat.mod_eq_of_lt (by omega)
  refine ⟨by rw [Sec.pageLo, sec, hva], ?_⟩
  have hsum : (r.va.toUInt32 + UInt32.ofNat r.bytes.length + page - 1).toNat =
      r.va.toNat + r.bytes.length + 0xfff := by
    have hone : (1 : UInt32).toNat = 1 := rfl
    have hpage : page.toNat = 0x1000 := rfl
    rw [UInt32.toNat_sub, UInt32.toNat_add, UInt32.toNat_add, hva, hlen, hone, hpage]
    omega
  rw [Sec.pageHi, sec, hsum]

theorem row_mem_table (off : ℕ) (h : r ∈ rs) : ∃ o, (r.va, o, r.bytes.length) ∈ table off rs := by
  induction rs generalizing off with
  | nil => cases h
  | cons r' rs ih =>
    rcases List.mem_cons.mp h with rfl | hmem
    · exact ⟨off, List.mem_cons_self⟩
    · obtain ⟨o, ho⟩ := ih (off + r'.bytes.length) hmem
      exact ⟨o, List.mem_cons_of_mem _ ho⟩

theorem isSome_mapFixed {lo size a : ℕ} (hlo : lo ≤ a) (hhi : a < lo + size) :
    (mapFixed m lo size a).isSome := by
  have hround := le_roundDown_add size
  rw [mapFixed, if_pos ⟨hlo, by omega⟩]
  rfl

theorem span_of_touches (hmem : r ∈ rs) (hroom : r.va.toNat + r.bytes.length ≤ 2 ^ 32 - 0x1000)
    {a : ℕ} (h : Touches r a) :
    (span ((table 0 rs).map sec)).1 ≤ a ∧ a < (span ((table 0 rs).map sec)).2 := by
  obtain ⟨o, ho⟩ := row_mem_table 0 hmem
  obtain ⟨hlo, hhi⟩ := foldl_widen_of_mem (List.mem_map_of_mem (f := sec) ho) (0xffffffff, 0)
  obtain ⟨hpageLo, hpageHi⟩ := pages_sec o hroom
  obtain ⟨b, ⟨hb, hb'⟩, hpage⟩ := h
  rw [hpageLo, roundDown] at hlo
  rw [hpageHi, roundDown] at hhi
  rw [piece] at hb hb'
  dsimp only at hb hb'
  rw [span]
  omega

/-! ### What the memory holds -/

theorem copySecs_regions {sections : List Region} {snapshot : Option (List Region)}
    (h : emitLayout sections snapshot = some l) (htotal : l.blob.length < 2 ^ 32)
    (hspace : ∀ r ∈ regions sections snapshot, r.va.toNat + r.bytes.length ≤ 2 ^ 32)
    (hmapped : ∀ r ∈ regions sections snapshot, ∀ a, Covers a (piece r) → (m a).isSome) :
    ∃ m', copySecs l.blob l.secs m = some m' ∧ HoldsLast (regions sections snapshot) m' ∧
      ∀ a, (m a).isSome → (m' a).isSome := by
  obtain ⟨-, hblob, hsecs⟩ := emitLayout_eq h
  have hva : ∀ r ∈ regions sections snapshot, r.va.toNat < 2 ^ 32 := by
    intro r hr
    have hsome := (va_ne_zero_of_mem hr).2
    have hend := hspace r hr
    omega
  have hslices : l.secs.mapM (slice l.blob) = some ((regions sections snapshot).map piece) := by
    rw [hsecs, hblob]
    exact mapM_slice_table [] (by rw [List.nil_append, ← hblob]; exact htotal) hva
  have hall : ∀ p ∈ (regions sections snapshot).map piece, ∀ a, Covers a p → (m a).isSome := by
    intro p hp a hc
    obtain ⟨r, hr, rfl⟩ := List.mem_map.mp hp
    exact hmapped r hr a hc
  obtain ⟨m', hm'⟩ := copyAll_total hall
  refine ⟨m', by rw [copySecs, hslices, Option.bind_some, hm'], ?_, ?_⟩
  · intro a r hlast
    rw [copyAll_apply hm', overlaid_of_lastCover hlast]
  · intro a ha
    rw [copyAll_apply hm']
    exact isSome_overlaid ha

/-- The request that `__aret_map_memory` makes. -/
def request (l : Layout) : ℕ × ℕ := ((span l.secs).1, (span l.secs).2 - (span l.secs).1)

theorem mapMemory_placed {sections : List Region} {snapshot : Option (List Region)}
    (h : emitLayout sections snapshot = some l) (htotal : l.blob.length < 2 ^ 32)
    (hroom : ∀ r ∈ regions sections snapshot, r.va.toNat + r.bytes.length ≤ 2 ^ 32 - 0x1000)
    {bits : ℕ} (hbits : 32 ≤ bits) (mmap : ℕ → ℕ → Bool) (m : Mem UInt8) :
    (mmap (request l).1 (request l).2 = false ∧ mapMemory bits mmap l m = .exits 70) ∨
      (mmap (request l).1 (request l).2 = true ∧
        ∃ m', mapMemory bits mmap l m =
            .ran (UInt32.ofNat (span l.secs).1) (UInt32.ofNat (span l.secs).2) m' ∧
          HoldsLast (regions sections snapshot) m' ∧
          ∀ r ∈ regions sections snapshot, ∀ a, Touches r a → (m' a).isSome) := by
  obtain ⟨hne, -, hsecs⟩ := emitLayout_eq h
  have htouch : ∀ r ∈ regions sections snapshot, ∀ a, Touches r a →
      (span l.secs).1 ≤ a ∧ a < (span l.secs).2 := by
    intro r hr a ha
    rw [hsecs]
    exact span_of_touches hr (hroom r hr) ha
  -- some region is kept, so the bounds are in order
  obtain ⟨r₀, hr₀⟩ := List.exists_mem_of_ne_nil _ hne
  have hcover₀ : Covers r₀.va.toNat (piece r₀) :=
    ⟨le_rfl, Nat.lt_add_of_pos_right (va_ne_zero_of_mem hr₀).2⟩
  obtain ⟨hlo, hhi⟩ := htouch r₀ hr₀ _ ⟨_, hcover₀, rfl⟩
  have hspan : (span l.secs).2 < 2 ^ 32 := foldl_widen_hi l.secs (0xffffffff, 0) (by decide)
  have hbits : 2 ^ 32 ≤ 2 ^ bits := Nat.pow_le_pow_right (by decide) hbits
  have hsize : ((span l.secs).2 + 2 ^ 64 - (span l.secs).1) % 2 ^ 64 % 2 ^ bits =
      (request l).2 := by
    rw [request, Nat.mod_eq_of_lt (b := 2 ^ bits) (by omega)]
    omega
  have hfresh : ∀ r ∈ regions sections snapshot, ∀ a, Touches r a →
      (mapFixed m (request l).1 (request l).2 a).isSome := by
    intro r hr a ha
    obtain ⟨halo, hahi⟩ := htouch r hr a ha
    exact isSome_mapFixed halo (by rw [request]; dsimp only; omega)
  have hmap : mapMemory bits mmap l m =
      if mmap (request l).1 (request l).2 then
        match copySecs l.blob l.secs (mapFixed m (request l).1 (request l).2) with
        | some m' => .ran (UInt32.ofNat (span l.secs).1) (UInt32.ofNat (span l.secs).2) m'
        | none => .faults
      else .exits 70 := by
    unfold mapMemory
    dsimp only
    rw [hsize]
    rfl
  cases hreq : mmap (request l).1 (request l).2 with
  | false =>
    rw [hreq] at hmap
    exact .inl ⟨rfl, hmap⟩
  | true =>
    obtain ⟨m', hm', hlast, hkept⟩ := copySecs_regions h htotal
      (fun r hr => (hroom r hr).trans (by decide)) fun r hr a ha => hfresh r hr a ⟨a, ha, rfl⟩
    rw [hreq, hm'] at hmap
    exact .inr ⟨rfl, m', hmap, hlast, fun r hr a ha => hkept a (hfresh r hr a ha)⟩

/-! ### WASM -/

theorem le_foldl_max {b : ℕ} (bs : List ℕ) (top : ℕ) (h : b ∈ bs ∨ b ≤ top) :
    b ≤ bs.foldl max top := by
  induction bs generalizing top with
  | nil => exact h.resolve_left List.not_mem_nil
  | cons c bs ih =>
    refine ih (max top c) ?_
    rcases h with hmem | htop
    · rcases List.mem_cons.mp hmem with rfl | hin
      · exact .inr (le_max_right _ _)
      · exact .inl hin
    · exact .inr (htop.trans (le_max_left _ _))

theorem le_wasmGlobalBase {sections : List Region} {snapshot : Option (List Region)}
    (h : emitLayout sections snapshot = some l) (hr : r ∈ regions sections snapshot)
    (hend : r.va.toNat + r.bytes.length ≤ 2 ^ 32) :
    r.va.toNat + r.bytes.length ≤ wasmGlobalBase l := by
  obtain ⟨o, ho⟩ := row_mem_table 0 hr
  have hmax : l.maxVa = ((table 0 (regions sections snapshot)).map fun row =>
      (row.1.toNat + row.2.2) % 2 ^ 64).foldl max 0 := by
    unfold emitLayout at h
    dsimp only at h
    split_ifs at h
    rw [← Option.some.inj h]
  have hend64 : (r.va.toNat + r.bytes.length) % 2 ^ 64 = r.va.toNat + r.bytes.length :=
    Nat.mod_eq_of_lt (by omega)
  have hle : r.va.toNat + r.bytes.length ≤ l.maxVa := by
    rw [hmax, ← hend64]
    exact le_foldl_max _ 0 (.inl (List.mem_map_of_mem
      (f := fun row : UInt64 × ℕ × ℕ => (row.1.toNat + row.2.2) % 2 ^ 64) ho))
  rw [wasmGlobalBase]
  refine le_trans ?_ (le_max_left _ _)
  omega

theorem mapMemoryWasm_placed {sections : List Region} {snapshot : Option (List Region)}
    (h : emitLayout sections snapshot = some l) (htotal : l.blob.length < 2 ^ 32)
    (hspace : ∀ r ∈ regions sections snapshot, r.va.toNat + r.bytes.length ≤ 2 ^ 32)
    (hlinear : ∀ a, a < wasmGlobalBase l → (m a).isSome) :
    ∃ m', mapMemoryWasm l m = some m' ∧ HoldsLast (regions sections snapshot) m' := by
  obtain ⟨m', hm', hlast, -⟩ := copySecs_regions h htotal hspace (by
    intro r hr a hc
    exact hlinear a (hc.2.trans_le (le_wasmGlobalBase h hr (hspace r hr))))
  exact ⟨m', hm', hlast⟩

/-! ### Loading and placing -/

/-- Snapshots are loaded and placed.  Of a list of regions the snapshot loads to the list, or
to an error when there are none; a file that is not cut short in a header and overflows no
index is a snapshot, or an error; and the regions that `emitLayout` keeps are placed by both
variants, by `mmap` when they end before the last page. -/
theorem snapshot_load_place :
    (∀ rs, (encode rs).length < 2 ^ 64 →
      loadSnapshot (some (encode rs)) = if rs = [] then .error .noRegions else .ok rs) ∧
    (∀ data, ¬CutShort data → ¬Overflows data →
      (∃ e, loadSnapshot (some data) = .error e) ∨
        ∃ rs, rs ≠ [] ∧ loadSnapshot (some data) = .ok rs ∧ data = encode rs) ∧
    ∀ sections snapshot l, emitLayout sections snapshot = some l → l.blob.length < 2 ^ 32 →
      ((∀ r ∈ regions sections snapshot, r.va.toNat + r.bytes.length ≤ 2 ^ 32) →
        ∀ m, (∀ a, a < wasmGlobalBase l → (m a).isSome) →
          ∃ m', mapMemoryWasm l m = some m' ∧ HoldsLast (regions sections snapshot) m') ∧
      ((∀ r ∈ regions sections snapshot, r.va.toNat + r.bytes.length ≤ 2 ^ 32 - 0x1000) →
        ∀ bits mmap m, 32 ≤ bits →
          (mmap (request l).1 (request l).2 = false ∧ mapMemory bits mmap l m = .exits 70) ∨
          (mmap (request l).1 (request l).2 = true ∧
            ∃ m', mapMemory bits mmap l m =
                .ran (UInt32.ofNat (span l.secs).1) (UInt32.ofNat (span l.secs).2) m' ∧
              HoldsLast (regions sections snapshot) m' ∧
              ∀ r ∈ regions sections snapshot, ∀ a, Touches r a → (m' a).isSome)) := by
  refine ⟨loadSnapshot_encode, loadSnapshot_exact, ?_⟩
  intro sections snapshot l hemit htotal
  constructor
  · intro hspace m hlinear
    exact mapMemoryWasm_placed hemit htotal hspace hlinear
  · intro hroom bits mmap m hbits
    exact mapMemory_placed hemit htotal hroom hbits mmap m

/-- Of two regions that overlap the second one is on top. -/
theorem snapshot_load_place_overlap :
    ∃ l m', emitLayout [] (some [⟨0x2000, [7, 8, 9]⟩, ⟨0x2001, [5]⟩]) = some l ∧
      mapMemoryWasm l (fun _ => some 0) = some m' ∧
      m' 0x2000 = some 7 ∧ m' 0x2001 = some 5 ∧ m' 0x2002 = some 9 := by
  obtain ⟨l, hl, hsmall⟩ :
      ∃ l, emitLayout [] (some [⟨0x2000, [7, 8, 9]⟩, ⟨0x2001, [5]⟩]) = some l ∧
        l.blob.length < 2 ^ 32 := ⟨_, rfl, by decide⟩
  obtain ⟨m', hm', hlast⟩ := (snapshot_load_place.2.2 _ _ l hl hsmall).1 (by decide)
    (fun _ => some 0) fun _ _ => rfl
  exact ⟨l, m', hl, hm', hlast 0x2000 (0x2000, [7, 8, 9]) rfl, hlast 0x2001 (0x2001, [5]) rfl,
    hlast 0x2002 (0x2000, [7, 8, 9]) rfl⟩

/-- No regions are no snapshot. -/
theorem not_loadSnapshot_encode :
    ¬∀ rs, (encode rs).length < 2 ^ 64 → loadSnapshot (some (encode rs)) = .ok rs := by
  intro h
  have hnil := h [] (by decide)
  rw [loadSnapshot_encode [] (by decide), if_pos rfl] at hnil
  cases hnil

end Aret.MapMemory
