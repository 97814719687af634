/-
The memory image of a loaded program: sections of bytes at addresses.
-/
import Aret.ByteBuf

namespace Aret.Image

/-! ### Numbers as bytes -/

def leNat : List UInt8 → ℕ
  | [] => 0
  | b :: bs => b.toNat + 256 * leNat bs

/-- The `n` low bytes of a number, the lowest first. -/
def leBytes : ℕ → ℕ → List UInt8
  | 0, _ => []
  | n + 1, v => UInt8.ofNat v :: leBytes n (v / 256)

@[simp] theorem length_leBytes (n v : ℕ) : (leBytes n v).length = n := by
  induction n generalizing v with
  | zero => rfl
  | succ n ih => rw [leBytes, List.length_cons, ih]

theorem leNat_lt (bs : List UInt8) : leNat bs < 256 ^ bs.length := by
  induction bs with
  | nil => simp [leNat]
  | cons b bs ih =>
    have hb : b.toNat < 256 := UInt8.toNat_lt b
    rw [leNat, List.length_cons, pow_succ']
    omega

theorem leBytes_leNat (bs : List UInt8) : leBytes bs.length (leNat bs) = bs := by
  induction bs with
  | nil => rfl
  | cons b bs ih =>
    have hb : b.toNat < 256 := UInt8.toNat_lt b
    have hhigh : (b.toNat + 256 * leNat bs) / 256 = leNat bs := by omega
    rw [List.length_cons, leBytes, leNat, hhigh, ih]
    congr 1
    apply UInt8.toNat_inj.mp
    simp

/-! ### Sections -/

structure Section where
  name : String
  address : ℕ
  data : List UInt8
  executable : Bool
  deriving DecidableEq

namespace Section

variable (s : Section)

def stop : ℕ := s.address + s.data.length

def contains (a : ℕ) : Bool := s.address ≤ a && a < s.stop

/-- The section has the `n` bytes at `a`. -/
def covers (a n : ℕ) : Bool := s.address ≤ a && a + n ≤ s.stop

/-- The `n` bytes at `a`. -/
def slice (a n : ℕ) : List UInt8 := (s.data.drop (a - s.address)).take n

/-- The section with `bs` at `a`. -/
def put (a : ℕ) (bs : List UInt8) : Section :=
  { s with data := ByteBuf.put s.data (a - s.address) bs }

def frame : String × ℕ × ℕ × Bool := (s.name, s.address, s.data.length, s.executable)

variable {s} {a b n : ℕ} {bs : List UInt8}

theorem contains_iff : s.contains a = true ↔ s.address ≤ a ∧ a < s.address + s.data.length := by
  rw [contains, Bool.and_eq_true, decide_eq_true_eq, decide_eq_true_eq, stop]

theorem covers_iff :
    s.covers a n = true ↔ s.address ≤ a ∧ a + n ≤ s.address + s.data.length := by
  rw [covers, Bool.and_eq_true, decide_eq_true_eq, decide_eq_true_eq, stop]

theorem length_data_put (h : s.covers b bs.length) : (s.put b bs).data.length = s.data.length := by
  rw [covers_iff] at h
  exact ByteBuf.length_put (by omega)

theorem stop_put (h : s.covers b bs.length) : (s.put b bs).stop = s.stop := by
  rw [stop, length_data_put h]
  rfl

theorem frame_put (h : s.covers b bs.length) : (s.put b bs).frame = s.frame := by
  rw [frame, length_data_put h]
  rfl

theorem slice_put (h : s.covers b bs.length) : (s.put b bs).slice b bs.length = bs := by
  rw [covers_iff] at h
  have hlen : (s.data.take (b - s.address)).length = b - s.address := by
    rw [List.length_take]
    omega
  rw [slice, put, ByteBuf.put, List.drop_left' hlen, List.take_left' rfl]

theorem slice_put_apart (h : s.covers b bs.length) (ha : s.address ≤ a)
    (hap : a + n ≤ b ∨ b + bs.length ≤ a) : (s.put b bs).slice a n = s.slice a n := by
  rw [covers_iff] at h
  have hfits : b - s.address + bs.length ≤ s.data.length := by omega
  apply List.ext_getElem?
  intro i
  by_cases hi : i < n
  · rw [slice, slice, List.getElem?_take_of_lt hi, List.getElem?_take_of_lt hi,
      List.getElem?_drop, List.getElem?_drop]
    show (ByteBuf.put s.data (b - s.address) bs)[a - s.address + i]? = _
    rw [ByteBuf.getElem?_put hfits, if_neg (by omega)]
  · simp [slice, hi]

end Section

/-! ### Reading and writing -/

variable {ss : List Section} {a b n : ℕ} {bs : List UInt8}

def sectionAt (ss : List Section) (a : ℕ) : Option Section := ss.find? (·.contains a)

def readFrom (ss : List Section) (a : ℕ) : Option (List UInt8) :=
  (sectionAt ss a).map fun s => s.data.drop (a - s.address)

def isExecutable (ss : List Section) (a : ℕ) : Bool :=
  (sectionAt ss a).any (·.executable)

/-- `read_from`, with at least `n` bytes. -/
def readN (ss : List Section) (a n : ℕ) : Option (List UInt8) :=
  (readFrom ss a).bind fun b => if n ≤ b.length then some (b.take n) else none

def readU32 (ss : List Section) (a : ℕ) : Option ℕ := (readN ss a 4).map leNat

def write : List Section → ℕ → List UInt8 → List Section
  | [], _, _ => []
  | s :: ss, a, bs => if s.covers a bs.length then s.put a bs :: ss else s :: write ss a bs

theorem readN_cons (s : Section) : readN (s :: ss) a n =
    if s.contains a then if a + n ≤ s.stop then some (s.slice a n) else none
    else readN ss a n := by
  by_cases h : s.contains a = true
  · have hfind : readFrom (s :: ss) a = some (s.data.drop (a - s.address)) := by
      simp [readFrom, sectionAt, h]
    rw [readN, hfind, if_pos h]
    rw [Section.contains_iff] at h
    have hlen : n ≤ (s.data.drop (a - s.address)).length ↔ a + n ≤ s.address + s.data.length := by
      rw [List.length_drop]
      omega
    simp only [Option.bind_some, hlen]
    rfl
  · have hfind : readFrom (s :: ss) a = readFrom ss a := by
      simp [readFrom, sectionAt, h]
    rw [readN, hfind, if_neg h, readN]

theorem write_frame (ss : List Section) (b : ℕ) (bs : List UInt8) :
    (write ss b bs).map Section.frame = ss.map Section.frame := by
  induction ss with
  | nil => rfl
  | cons s ss ih =>
    rw [write]
    split_ifs with h
    · rw [List.map_cons, List.map_cons, Section.frame_put h]
    · rw [List.map_cons, List.map_cons, ih]

theorem readN_write (hne : bs ≠ []) (h : (readN ss a bs.length).isSome) :
    readN (write ss a bs) a bs.length = some bs := by
  have hpos : 0 < bs.length := List.length_pos_iff.mpr hne
  induction ss with
  | nil => simp [readN, readFrom, sectionAt] at h
  | cons s ss ih =>
    rw [readN_cons] at h
    rw [write]
    by_cases hc : s.contains a = true
    · rw [if_pos hc] at h
      have hstop : a + bs.length ≤ s.stop := by
        by_contra hno
        simp [hno] at h
      have hcov : s.covers a bs.length = true := by
        rw [Section.contains_iff] at hc
        rw [Section.covers_iff]
        rw [Section.stop] at hstop
        omega
      have hc' : (s.put a bs).contains a = true := by
        rw [Section.contains, Section.stop_put hcov]
        exact hc
      rw [if_pos hcov, readN_cons, if_pos hc', Section.stop_put hcov, if_pos hstop,
        Section.slice_put hcov]
    · have hcov : ¬ s.covers a bs.length = true := by
        rw [Section.contains_iff] at hc
        rw [Section.covers_iff]
        omega
      rw [if_neg hc] at h
      rw [if_neg hcov, readN_cons, if_neg hc]
      exact ih h

theorem readN_write_apart (hap : a + n ≤ b ∨ b + bs.length ≤ a) :
    readN (write ss b bs) a n = readN ss a n := by
  induction ss with
  | nil => rfl
  | cons s ss ih =>
    rw [write]
    by_cases hcov : s.covers b bs.length = true
    · rw [if_pos hcov, readN_cons, readN_cons, Section.stop_put hcov]
      have hc : (s.put b bs).contains a = s.contains a := by
        rw [Section.contains, Section.stop_put hcov]
        rfl
      rw [hc]
      by_cases hin : s.contains a = true
      · have ha : s.address ≤ a := by
          simp only [Section.contains, Bool.and_eq_true, decide_eq_true_eq] at hin
          exact hin.1
        rw [Section.slice_put_apart hcov ha hap]
      · rw [if_neg hin, if_neg hin]
    · rw [if_neg hcov, readN_cons, readN_cons, ih]

end Aret.Image
