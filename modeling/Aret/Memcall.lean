/-
Block copies and fills: the helpers of the emitted C, and the models of them in
the interpreter that is compared with an emulator.
-/
import Aret.Overlap
import Mathlib.Data.List.Basic

namespace Aret.Cpudiff

abbrev Word := BitVec 64
abbrev Byte := BitVec 8

/-! ### The interpreter's memory -/

structure Region where
  base : Word
  data : List Byte
  writable : Bool

/-- The region holds `n` bytes from the address on. -/
def Region.Covers (r : Region) (addr : Word) (n : ℕ) : Prop :=
  r.base ≤ addr ∧ (addr - r.base).toNat + n ≤ r.data.length

instance (r : Region) (addr : Word) (n : ℕ) : Decidable (r.Covers addr n) :=
  inferInstanceAs (Decidable (_ ∧ _))

def dataAddr : Word := 0x300000
def dataSize : ℕ := 0x1000

scoped instance neZeroRegs : NeZero 8 := ⟨by decide⟩

/-- The interpreter's state, as far as memory calls are concerned. Of the memory that its callers map,
a page or an image of at most 64 MiB with a stack, neither fills the addresses there are. -/
structure Interp where
  regs : Fin 8 → Word
  mem : List Byte
  regions : List Region
  retSlots : List Word
  mem_length : mem.length ≤ dataSize
  gap : ∃ a : BitVec 32, ∀ r ∈ regions, ¬ r.Covers (a.setWidth 64) 1

def getBytes (data : List Byte) : ℕ → ℕ → Word
  | _, 0 => 0
  | off, n + 1 => (data.getD off 0).setWidth 64 ||| getBytes data (off + 1) n <<< 8

def putBytes : List Byte → ℕ → ℕ → Word → List Byte
  | data, _, 0, _ => data
  | data, off, n + 1, val => putBytes (data.set off (val.setWidth 8)) (off + 1) n (val >>> 8)

def getRegions (addr : Word) (n : ℕ) : List Region → Option Word
  | [] => none
  | r :: rs =>
    if r.Covers addr n then some (getBytes r.data (addr - r.base).toNat n)
    else getRegions addr n rs

def putRegions (addr : Word) (n : ℕ) (val : Word) : List Region → Option (List Region)
  | [] => none
  | r :: rs =>
    if r.Covers addr n then
      if r.writable then
        some ({ r with data := putBytes r.data (addr - r.base).toNat n val } :: rs)
      else none
    else (putRegions addr n val rs).map (r :: ·)

theorem putBytes_length (data : List Byte) (off n : ℕ) (val : Word) :
    (putBytes data off n val).length = data.length := by
  induction n generalizing data off val with
  | zero => rfl
  | succ n ih => rw [putBytes, ih, List.length_set]

theorem putRegions_covers {addr : Word} {n : ℕ} {val : Word} {rs rs' : List Region}
    (h : putRegions addr n val rs = some rs') {a : Word} {k : ℕ}
    (hfree : ∀ r ∈ rs, ¬ r.Covers a k) : ∀ r ∈ rs', ¬ r.Covers a k := by
  induction rs generalizing rs' with
  | nil => exact nomatch h
  | cons r rs ih =>
    rw [putRegions] at h
    have hr := hfree r List.mem_cons_self
    have hrest : ∀ r ∈ rs, ¬ r.Covers a k := fun r hr => hfree r (List.mem_cons_of_mem _ hr)
    split at h
    · split at h
      · obtain rfl := Option.some.inj h
        intro r' hr'
        rcases List.mem_cons.mp hr' with rfl | hr'
        · rw [Region.Covers, putBytes_length]
          exact hr
        · exact hrest r' hr'
      · exact nomatch h
    · obtain ⟨rs₁, hrs₁, rfl⟩ := Option.map_eq_some_iff.mp h
      intro r' hr'
      rcases List.mem_cons.mp hr' with rfl | hr'
      · exact hr
      · exact ih hrs₁ hrest r' hr'

namespace Interp

/-- The page holds `n` bytes from the address on. -/
def InPage (s : Interp) (addr : Word) (n : ℕ) : Prop :=
  dataAddr ≤ addr ∧ (addr - dataAddr).toNat + n ≤ s.mem.length

instance (s : Interp) (addr : Word) (n : ℕ) : Decidable (s.InPage addr n) :=
  inferInstanceAs (Decidable (_ ∧ _))

/-- `mem_read`. Addresses of a mapped program wrap at 32 bits. -/
def memRead (s : Interp) (addr : Word) (n : ℕ) : Option Word :=
  if s.regions ≠ [] then getRegions (addr &&& 0xffffffff) n s.regions
  else if s.InPage addr n then some (getBytes s.mem (addr - dataAddr).toNat n)
  else none

def memWrite (s : Interp) (addr : Word) (n : ℕ) (val : Word) : Option Interp :=
  if s.regions ≠ [] then
    match h : putRegions (addr &&& 0xffffffff) n val s.regions with
    | some rs => some { s with
        regions := rs
        gap := s.gap.imp fun _ => putRegions_covers h }
    | none => none
  else if s.InPage addr n then some { s with
    mem := putBytes s.mem (addr - dataAddr).toNat n val
    mem_length := (putBytes_length ..).trans_le s.mem_length }
  else none

/-! ### Memory calls -/

def cap : ℕ := 0x100000

def copyBytes (s : Interp) (dst src : Word) (n : ℕ) : Option Interp :=
  (List.range n).foldlM (fun s i => do
    let b ← s.memRead (src + BitVec.ofNat 64 i) 1
    s.memWrite (dst + BitVec.ofNat 64 i) 1 b) s

def writeBytes (s : Interp) (dst : Word) (n : ℕ) (f : ℕ → Word) : Option Interp :=
  (List.range n).foldlM (fun s i => s.memWrite (dst + BitVec.ofNat 64 i) 1 (f i)) s

def memcpyCall (s : Interp) (dst src n : Word) : Option Interp :=
  let n := n &&& 0xffffffff
  if cap < n.toNat then none else s.copyBytes dst src n.toNat

def movsCall (s : Interp) (elem : ℕ) (dst src count back : Word) : Option Interp :=
  let count := count &&& 0xffffffff
  if back ≠ 0 then none
  else if cap < count.toNat * elem then none
  else s.copyBytes dst src (count.toNat * elem)

def stosCall (s : Interp) (elem : ℕ) (dst val count back : Word) : Option Interp :=
  let count := count &&& 0xffffffff
  if back ≠ 0 then none
  else if cap < count.toNat * elem then none
  else s.writeBytes dst (count.toNat * elem) fun i => (val >>> (8 * (i % elem))) &&& 0xff

end Interp

def movsElem : String → Option ℕ
  | "__rep_movs8" => some 1
  | "__rep_movs16" => some 2
  | "__rep_movs32" => some 4
  | "__rep_movs64" => some 8
  | _ => none

def stosElem : String → Option ℕ
  | "__rep_stos8" => some 1
  | "__rep_stos16" => some 2
  | "__rep_stos32" => some 4
  | "__rep_stos64" => some 8
  | _ => none

namespace Interp

section
variable {ε : Type} (eval : Interp → ε → Option Word)

/-- `do_memcall`: the arguments are evaluated before anything is written. -/
def doMemcall (s : Interp) (name : String) (args : List ε) : Option Interp :=
  match args with
  | [a, b, c] =>
    if name = "memcpy" ∨ name = "memmove" then do
      s.memcpyCall (← eval s a) (← eval s b) (← eval s c)
    else none
  | [a, b, c, d] =>
    match movsElem name, stosElem name with
    | some elem, _ => do s.movsCall elem (← eval s a) (← eval s b) (← eval s c) (← eval s d)
    | none, some elem => do s.stosCall elem (← eval s a) (← eval s b) (← eval s c) (← eval s d)
    | none, none => none
  | _ => none

end

inductive MemIntrin
  | memmove | memcpy
  deriving DecidableEq

def retSentinel : Word := 0xdead1000

/-- Two ranges of `n` bytes have a byte in common. -/
def Overlapping (dst src n : Word) : Prop := dst < src + n ∧ src < dst + n ∧ n ≠ 0

instance (dst src n : Word) : Decidable (Overlapping dst src n) :=
  inferInstanceAs (Decidable (_ ∧ _ ∧ _))

def readBuf (s : Interp) (src : Word) (n : ℕ) : Option (List Byte) :=
  (List.range n).foldlM (fun buf i => do
    let b ← s.memRead (src + BitVec.ofNat 64 i) 1
    some (buf ++ [b.setWidth 8])) []

/-- `call_mem_intrinsic`: the arguments are on the stack, and the slot of the return address below it
is marked. -/
def callMemIntrinsic (s : Interp) (kind : MemIntrin) : Option (Word × Interp) := do
  let sp := s.regs 4
  let dst ← s.memRead sp 4
  let src ← s.memRead (sp + 4) 4
  let n := (← s.memRead (sp + 8) 4) &&& 0xffffffff
  if cap < n.toNat then none
  else if kind = .memcpy ∧ Overlapping dst src n then none
  else do
    let buf ← s.readBuf src n.toNat
    let s ← s.writeBytes dst buf.length fun i => (buf.getD i 0).setWidth 64
    let s := { s with regs := Function.update s.regs 0 dst }
    let slot := sp - 4
    let s ← s.memWrite slot 4 retSentinel
    some (dst, { s with retSlots := s.retSlots ++ [slot] })

end Interp

/-! ### The helpers of the emitted C -/

/-- A memory with addresses of `w` bits: what its bytes are, and which may be read and written. -/
structure View (w : ℕ) where
  byte : BitVec w → Byte
  readable : BitVec w → Bool
  writable : BitVec w → Bool

namespace View

variable {w : ℕ}

def withBytes (v : View w) (byte : BitVec w → Byte) : View w := { v with byte := byte }

def load (v : View w) (p : BitVec w) (elem : ℕ) : Option (List Byte) :=
  if ∀ i < elem, v.readable (p + BitVec.ofNat w i) then
    some ((List.range elem).map fun i => v.byte (p + BitVec.ofNat w i))
  else none

def store (v : View w) (p : BitVec w) (bytes : List Byte) : Option (View w) :=
  if ∀ i < bytes.length, v.writable (p + BitVec.ofNat w i) then
    some (v.withBytes (Overlap.fill v.byte p bytes.length fun i => bytes.getD i 0))
  else none

/-- The loop of the `__rep_movs` helpers, with pointers that advance by `st` bytes. -/
def moveLoop (elem : ℕ) (st : BitVec w) : ℕ → View w → BitVec w → BitVec w → Option (View w)
  | 0, v, _, _ => some v
  | n + 1, v, p, q => do
    let x ← v.load q elem
    let v ← v.store p x
    moveLoop elem st n v (p + st) (q + st)

/-- The loop of the `__rep_stos` helpers. -/
def fillLoop (bytes : List Byte) (st : BitVec w) : ℕ → View w → BitVec w → Option (View w)
  | 0, v, _ => some v
  | n + 1, v, p => do
    let v ← v.store p bytes
    fillLoop bytes st n v (p + st)

end View

def stride (w elem : ℕ) (back : Word) : BitVec w :=
  if back ≠ 0 then -BitVec.ofNat w elem else BitVec.ofNat w elem

section
variable {w : ℕ}

/-- `__rep_movs8` and its siblings. A pointer keeps the low bits of a word. -/
def repMovs (elem : ℕ) (d s n back : Word) (v : View w) : Option (View w) :=
  v.moveLoop elem (stride w elem back) n.toNat (d.setWidth w) (s.setWidth w)

def lowBytes (elem : ℕ) (v : Word) : List Byte :=
  (List.range elem).map fun i => (v >>> (8 * i)).setWidth 8

/-- `__rep_stos8` and its siblings. -/
def repStos (elem : ℕ) (d x n back : Word) (v : View w) : Option (View w) :=
  v.fillLoop (lowBytes elem x) (stride w elem back) n.toNat (d.setWidth w)

end

namespace Interp

def width (s : Interp) : ℕ := if s.regions = [] then 64 else 32

def view (s : Interp) (w : ℕ) : View w where
  byte a := ((s.memRead (a.setWidth 64) 1).getD 0).setWidth 8
  readable a := (s.memRead (a.setWidth 64) 1).isSome
  writable a := (s.memWrite (a.setWidth 64) 1 0).isSome

end Interp

end Aret.Cpudiff
