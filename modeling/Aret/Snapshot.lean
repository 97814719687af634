/-
Memory snapshots: the magic, then records of an address, a length and as many
bytes.
-/
import Aret.ByteBuf

namespace Aret.Snapshot

open ByteBuf

/-- `(va, bytes)`. -/
structure Region where
  va : UInt64
  bytes : Buf
deriving DecidableEq

inductive LoadError
  | read
  | badMagic
  | truncatedRegion (va : UInt64)
  | noRegions
deriving DecidableEq

/-- The text of an error about the file at `path`. -/
def LoadError.text (path : String) : LoadError → String
  | .read => "failed to read " ++ path
  | .badMagic => path ++ ": not an ARET snapshot (bad magic)"
  | .truncatedRegion va =>
    path ++ ": truncated region at va 0x" ++ String.ofList (Nat.toDigits 16 va.toNat)
  | .noRegions => path ++ ": no regions"

inductive Loaded
  | ok (regions : List Region)
  | error (e : LoadError)
  | panics
deriving DecidableEq

/-- `ARETSNP1`. -/
def magic : Buf := [0x41, 0x52, 0x45, 0x54, 0x53, 0x4E, 0x50, 0x31]

/-- The loop over the records, from `i` on. -/
def loadRecords (data : Buf) (i : ℕ) (regions : List Region) : Loaded :=
  if _hi : i + 16 ≤ data.length then
    let va := UInt64.ofNat (rd64 data i)
    let len := rd64 data (i + 8)
    -- `i + len` overflows: the sum panics, or wraps and the slice below it does
    if 2 ^ 64 ≤ i + 16 + len then .panics
    else if data.length < i + 16 + len then .error (.truncatedRegion va)
    else loadRecords data (i + 16 + len) (regions ++ [⟨va, (data.drop (i + 16)).take len⟩])
  else if regions = [] then .error .noRegions else .ok regions
termination_by data.length - i

/-- `file` is what `std::fs::read` gives for the path. -/
def loadSnapshot (file : Option Buf) : Loaded :=
  match file with
  | none => .error .read
  | some data =>
    if data.length < 8 ∨ data.take 8 ≠ magic then .error .badMagic else loadRecords data 8 []

def record (r : Region) : Buf := le64 r.va.toNat ++ (le64 r.bytes.length ++ r.bytes)

def encode (regions : List Region) : Buf := magic ++ regions.flatMap record

def CutShort (data : Buf) : Prop :=
  ∃ rs rest, data = encode rs ++ rest ∧ 0 < rest.length ∧ rest.length < 16

def Overflows (data : Buf) : Prop :=
  ∃ rs rest, data = encode rs ++ rest ∧ 16 ≤ rest.length ∧
    2 ^ 64 ≤ (encode rs).length + 16 + rd64 rest 8

variable {data rest : Buf} {r : Region} {rs out : List Region}

theorem length_record (r : Region) : (record r).length = 16 + r.bytes.length := by
  rw [record, List.length_append, List.length_append, length_le64, length_le64, ← Nat.add_assoc]

theorem encode_concat (rs : List Region) (r : Region) :
    encode (rs ++ [r]) = encode rs ++ record r := by
  rw [encode, encode, List.flatMap_append, List.flatMap_singleton, List.append_assoc]

theorem length_encode_concat (rs : List Region) (r : Region) :
    (encode (rs ++ [r])).length = (encode rs).length + 16 + r.bytes.length := by
  rw [encode_concat, List.length_append, length_record, Nat.add_assoc]

def recordAt (rest : Buf) : Region :=
  ⟨UInt64.ofNat (rd64 rest 0), (rest.drop 16).take (rd64 rest 8)⟩

theorem recordAt_record_append (r : Region) (rest : Buf) (hlen : r.bytes.length < 2 ^ 64) :
    rd64 (record r ++ rest) 8 = r.bytes.length ∧ recordAt (record r ++ rest) = r := by
  have hva : rd64 (record r ++ rest) 0 = r.va.toNat := by
    refine rd64_of_holds ?_ (UInt64.toNat_lt _)
    rw [record, List.append_assoc]
    exact holds_append_self [] _ _
  have hsize : rd64 (record r ++ rest) 8 = r.bytes.length := by
    refine rd64_of_holds ?_ hlen
    rw [record, List.append_assoc, List.append_assoc]
    exact holds_append_self (le64 r.va.toNat) _ _
  refine ⟨hsize, ?_⟩
  have hbytes : (record r ++ rest).drop 16 = r.bytes ++ rest := by
    rw [record, List.append_assoc, List.append_assoc, ← List.append_assoc]
    exact List.drop_left' rfl
  rw [recordAt, hva, hsize, hbytes, List.take_left, UInt64.ofNat_toNat]

theorem record_recordAt (h : 16 + rd64 rest 8 ≤ rest.length) :
    record (recordAt rest) ++ rest.drop (16 + rd64 rest 8) = rest := by
  have hva : (UInt64.ofNat (rd64 rest 0)).toNat = rd64 rest 0 := by
    rw [UInt64.toNat_ofNat', Nat.mod_eq_of_lt (rd64_lt rest 0)]
  have hlen : ((rest.drop 16).take (rd64 rest 8)).length = rd64 rest 8 := by
    rw [List.length_take, List.length_drop]
    omega
  have hheader : Holds rest 0 (le64 (rd64 rest 0) ++ le64 (rd64 rest 8)) :=
    (holds_le64 (by omega)).concat (holds_le64 (by rw [length_le64]; omega))
  obtain ⟨body, hbody⟩ := hheader.isPrefix
  rw [List.drop_zero] at hbody
  have hdrop : rest.drop 16 = body := by
    rw [← hbody]
    exact List.drop_left' rfl
  rw [record, recordAt, hva, hlen, ← List.drop_drop, hdrop, List.append_assoc, List.append_assoc,
    List.take_append_drop, ← List.append_assoc, hbody]

/-! ### One record -/

theorem loadRecords_step (rs : List Region) (h : 16 ≤ rest.length) :
    loadRecords (encode rs ++ rest) (encode rs).length rs =
      if 2 ^ 64 ≤ (encode rs).length + 16 + rd64 rest 8 then .panics
      else if rest.length < 16 + rd64 rest 8 then .error (.truncatedRegion (recordAt rest).va)
      else loadRecords (encode (rs ++ [recordAt rest]) ++ rest.drop (16 + rd64 rest 8))
        (encode (rs ++ [recordAt rest])).length (rs ++ [recordAt rest]) := by
  have hva : rd64 (encode rs ++ rest) (encode rs).length = rd64 rest 0 :=
    rd64_append_right (encode rs) rest 0
  have hdrop : (encode rs ++ rest).drop ((encode rs).length + 16) = rest.drop 16 := by
    rw [← List.drop_drop, List.drop_left]
  rw [loadRecords, dif_pos (by rw [List.length_append]; omega), hva, rd64_append_right, hdrop,
    List.length_append]
  dsimp only
  split_ifs with hover hcut hshort hshort
  · rfl
  · rfl
  · omega
  · omega
  · have hlen : (recordAt rest).bytes.length = rd64 rest 8 := by
      rw [recordAt, List.length_take, List.length_drop]
      omega
    rw [encode_concat, List.append_assoc, record_recordAt (by omega), ← encode_concat,
      length_encode_concat, hlen]
    rfl

theorem loadRecords_end (rs : List Region) (h : rest.length < 16) :
    loadRecords (encode rs ++ rest) (encode rs).length rs =
      if rs = [] then .error .noRegions else .ok rs := by
  rw [loadRecords, dif_neg (by rw [List.length_append]; omega)]

/-! ### The whole file -/

def Explains (data : Buf) : Loaded → Prop
  | .ok rs => rs ≠ [] ∧ ∃ rest, data = encode rs ++ rest ∧ rest.length < 16
  | .error _ => True
  | .panics => Overflows data

theorem loadRecords_explains (rs : List Region) (rest : Buf) :
    Explains (encode rs ++ rest) (loadRecords (encode rs ++ rest) (encode rs).length rs) := by
  induction hn : rest.length using Nat.strong_induction_on generalizing rs rest with
  | _ n ih =>
    by_cases hlen : 16 ≤ rest.length
    · rw [loadRecords_step rs hlen]
      split_ifs with hover hcut
      · exact ⟨rs, rest, rfl, hlen, hover⟩
      · trivial
      · have hshort : (rest.drop (16 + rd64 rest 8)).length < n := by
          rw [List.length_drop]
          omega
        have hsame : encode (rs ++ [recordAt rest]) ++ rest.drop (16 + rd64 rest 8) =
            encode rs ++ rest := by
          rw [encode_concat, List.append_assoc, record_recordAt (by omega)]
        have hnext := ih _ hshort (rs ++ [recordAt rest]) (rest.drop (16 + rd64 rest 8)) rfl
        rw [hsame] at hnext ⊢
        exact hnext
    · rw [loadRecords_end rs (by omega)]
      split_ifs with hnone
      · trivial
      · exact ⟨hnone, rest, rfl, by omega⟩

theorem loadRecords_records (rs new : List Region) (hlen : (encode (rs ++ new)).length < 2 ^ 64) :
    loadRecords (encode (rs ++ new)) (encode rs).length rs =
      if rs ++ new = [] then .error .noRegions else .ok (rs ++ new) := by
  induction new generalizing rs with
  | nil =>
    have hend : loadRecords (encode rs ++ []) (encode rs).length rs = _ :=
      loadRecords_end rs (by decide)
    rwa [List.append_nil] at hend ⊢
  | cons r new ih =>
    have hsplit : encode (rs ++ r :: new) = encode rs ++ (record r ++ new.flatMap record) := by
      rw [encode, encode, List.flatMap_append, List.flatMap_cons, List.append_assoc]
    have hassoc : rs ++ r :: new = rs ++ [r] ++ new := (List.append_cons rs r new)
    have htotal : (encode (rs ++ r :: new)).length =
        (encode rs).length + (16 + r.bytes.length + (new.flatMap record).length) := by
      rw [hsplit, List.length_append, List.length_append, length_record]
    obtain ⟨hsize, hrec⟩ := recordAt_record_append r (new.flatMap record) (by omega)
    have hrest : (record r ++ new.flatMap record).length =
        16 + r.bytes.length + (new.flatMap record).length := by
      rw [List.length_append, length_record]
    have hback : encode (rs ++ [r]) ++ (record r ++ new.flatMap record).drop
        (16 + r.bytes.length) = encode (rs ++ r :: new) := by
      rw [← length_record, List.drop_left, encode_concat, hsplit, List.append_assoc]
    have hlen16 : 16 ≤ (record r ++ new.flatMap record).length := by omega
    have hstep := loadRecords_step rs hlen16
    rw [hrec, hsize, if_neg (by omega), if_neg (by omega), hback, ← hsplit] at hstep
    rw [hstep, hassoc]
    exact ih (rs ++ [r]) (by rw [← hassoc]; exact hlen)

theorem loadSnapshot_eq_loadRecords (rest : Buf) :
    loadSnapshot (some (magic ++ rest)) =
      loadRecords (encode [] ++ rest) (encode []).length [] := by
  have hhead : (magic ++ rest).take 8 = magic := List.take_left' rfl
  have hlen : ¬(magic ++ rest).length < 8 := by
    rw [List.length_append]
    exact Nat.not_lt.mpr (Nat.le_add_right 8 _)
  rw [loadSnapshot, if_neg (not_or.mpr ⟨hlen, not_not.mpr hhead⟩)]
  rfl

theorem loadSnapshot_encode (rs : List Region) (hlen : (encode rs).length < 2 ^ 64) :
    loadSnapshot (some (encode rs)) = if rs = [] then .error .noRegions else .ok rs := by
  have hwhole := loadRecords_records [] rs hlen
  rw [encode, loadSnapshot_eq_loadRecords]
  exact hwhole

theorem loadSnapshot_explains (data : Buf) : Explains data (loadSnapshot (some data)) := by
  by_cases hmagic : data.length < 8 ∨ data.take 8 ≠ magic
  · rw [show loadSnapshot (some data) = .error .badMagic from if_pos hmagic]
    trivial
  · obtain ⟨-, hhead⟩ := not_or.mp hmagic
    have hsplit : data = magic ++ data.drop 8 := by
      rw [← not_not.mp hhead, List.take_append_drop]
    have hloop := loadRecords_explains [] (data.drop 8)
    rw [hsplit, loadSnapshot_eq_loadRecords]
    exact hloop

theorem loadSnapshot_exact (data : Buf) (hshort : ¬CutShort data) (hover : ¬Overflows data) :
    (∃ e, loadSnapshot (some data) = .error e) ∨
      ∃ rs, rs ≠ [] ∧ loadSnapshot (some data) = .ok rs ∧ data = encode rs := by
  have hends := loadSnapshot_explains data
  cases hout : loadSnapshot (some data) with
  | ok rs =>
    rw [hout] at hends
    obtain ⟨hne, rest, hdata, hrest⟩ := hends
    have hnone : rest = [] := by
      by_contra hsome
      exact hshort ⟨rs, rest, hdata, List.length_pos_iff.mpr hsome, hrest⟩
    rw [hnone, List.append_nil] at hdata
    exact .inr ⟨rs, hne, rfl, hdata⟩
  | error e => exact .inl ⟨e, rfl⟩
  | panics =>
    rw [hout] at hends
    exact absurd hends hover

end Aret.Snapshot
