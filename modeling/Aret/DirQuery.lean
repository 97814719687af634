/-
The enumeration of a directory by `NtQueryDirectoryFile`.

* `query_enumerates_iff` — the calls after a restart deliver every entry once and in
  order, and the dot entries first exactly where no name comes before `..`.
-/
import Aret.OffsetChain
import Aret.OutBuf
import Aret.ShiftSort
import Mathlib.Data.List.Lex

namespace Aret.DirQuery

open ByteBuf

def upcase (c : UInt8) : ℕ := if 97 ≤ c ∧ c ≤ 122 then c.toNat - 32 else c.toNat

/-- `u32_ci_cmp`; behind the end of a name stands its NUL. -/
def ciCmp : List UInt8 → List UInt8 → ℤ
  | [], [] => 0
  | [], b :: _ => 0 - upcase b
  | a :: _, [] => upcase a
  | a :: as, b :: bs => if upcase a = upcase b then ciCmp as bs else upcase a - upcase b

def sortNames (names : List CStr) : List CStr :=
  ShiftSort.shiftSort (fun a t => 0 < ciCmp a.bytes t.bytes) names

/-- What `stat` says of an entry. -/
structure Stat where
  mtime : ℤ
  atime : ℤ
  size : ℤ
  blocks : ℤ
  isDir : Bool

/-- `u32_unix_to_filetime`. -/
def unixToFiletime (t : ℤ) : ℤ := (t + 11644473600) * 10000000

def le64 (v : ℤ) : Buf :=
  let n := (v % 2 ^ 64).toNat
  le32 n ++ le32 (n / 2 ^ 32)

/-- The size of the fixed part of an entry: `FileNamesInformation` or
`FileBothDirectoryInformation`. -/
def fixedSize (cls : ℕ) : ℕ := if cls = 12 then 12 else 94

/-- The fixed part of an entry, with `NextEntryOffset` 0. -/
def entryHeader (cls namelen : ℕ) (stat : Option Stat) : Buf :=
  if cls = 12 then List.replicate 8 0 ++ le32 namelen
  else
    let times : Buf :=
      match stat with
      | some st =>
        le64 (unixToFiletime st.mtime) ++ le64 (unixToFiletime st.atime) ++
          le64 (unixToFiletime st.mtime) ++ le64 (unixToFiletime st.mtime) ++
          le64 (if st.isDir then 0 else st.size) ++
          le64 (if st.isDir then 0 else st.blocks * 512) ++ le32 (if st.isDir then 0x10 else 0x20)
      | none => List.replicate 52 0
    List.replicate 8 0 ++ times ++ le32 namelen ++ List.replicate 30 0

def wide (name : CStr) : Buf := name.bytes.flatMap fun c => [c, 0]

def store (f : Buf) (off : ℕ) (bs : Buf) : Option Buf :=
  if off + bs.length ≤ f.length then some (put f off bs) else none

/-- The variables of the loop over the entries. -/
structure Fill where
  buf : Buf
  off : ℕ
  prevHdr : ℕ
  emitted : ℕ

/-- `off - prev_hdr`, in 32 bits. -/
def Fill.link (w : Fill) : ℕ := (w.off + 2 ^ 32 - w.prevHdr) % 2 ^ 32

/-- The loop over the entries that are left, for a buffer of some length: `none` is a store outside
of the buffer. -/
def fill (cls length : ℕ) (single : Bool) (stat : CStr → Option Stat) :
    List CStr → Fill → Option Fill
  | [], w => some w
  | name :: rest, w =>
    let namelen := 2 * name.bytes.length
    let entry := fixedSize cls + namelen
    if length < (w.off + entry) % 2 ^ 32 then some w
    else
      (store w.buf w.off (entryHeader cls namelen (stat name))).bind fun f =>
      (store f (w.off + fixedSize cls) (wide name)).bind fun f =>
      -- the previous entry is linked to this one
      (if 0 < w.emitted then store f w.prevHdr (le32 w.link) else some f).bind fun f =>
        if single then some ⟨f, w.off, w.off, w.emitted + 1⟩
        else
          fill cls length single stat rest
            ⟨f, (w.off + entry + 7) % 2 ^ 32 / 8 * 8, w.off, w.emitted + 1⟩

/-- A call on a handle that is in the table.  `listing` is what `opendir` and `readdir` yield where a
snapshot is taken, `pattern` the length and the units of the search pattern, if there is one. -/
structure Call where
  cls : ℕ
  pattern : Option (ℕ × Option (List UInt16))
  single : Bool
  restart : Bool
  listing : Option (List CStr)
  stat : CStr → Option Stat
  buf : Buf

/-- No pattern, an empty one, `*` or `*.*`. -/
def Call.matchAll (c : Call) : Bool :=
  match c.pattern with
  | none => true
  | some (len, units) =>
    len = 0 ||
      match units with
      | none => false
      | some units =>
        (len = 2 && (units.take 1).map (· % 256) = [42]) ||
          (len = 6 && (units.take 3).map (· % 256) = [42, 46, 42])

abbrev Scan := Option (List CStr × ℕ)

inductive Reply
  | success (info : ℕ) (buf : Buf)
  | overflow
  | noMoreFiles
  | invalidHandle
  | invalidParameter

def Call.begun (c : Call) (s : Scan) : Scan :=
  if c.restart then c.listing.map fun names => (sortNames names, 0)
  else
    match s with
    | some scan => some scan
    | none => c.listing.map fun names => (sortNames names, 0)

/-- `aret_NtQueryDirectoryFile` on a handle that is in the table. -/
def query (s : Scan) (c : Call) : Option (Scan × Reply) :=
  if (c.cls ≠ 12 ∧ c.cls ≠ 3) ∨ c.matchAll = false then some (s, .invalidParameter)
  else
    match c.begun s with
    | none => some (none, .invalidHandle)
    | some (names, cur) =>
      if names.length ≤ cur then some (some (names, cur), .noMoreFiles)
      else
        (fill c.cls c.buf.length c.single c.stat (names.drop cur) ⟨c.buf, 0, 0, 0⟩).map fun w =>
          if w.emitted = 0 then (some (names, cur), .overflow)
          else
            let last := names[cur + w.emitted - 1]?.elim [] (·.bytes)
            (some (names, cur + w.emitted),
              .success ((w.prevHdr + fixedSize c.cls + 2 * last.length) % 2 ^ 32) w.buf)

/-! ### The order -/

theorem upcase_pos {c : UInt8} (h : c ≠ 0) : 0 < upcase c := by
  have hc : c.toNat ≠ 0 := fun h0 => h (UInt8.toNat_inj.mp h0)
  unfold upcase
  split
  · rename_i hle
    have := UInt8.le_iff_toNat_le.mp hle.1
    have h97 : (97 : UInt8).toNat = 97 := rfl
    omega
  · omega

def sortKey (name : CStr) : List ℕ := name.bytes.map upcase

theorem ciCmp_lt_iff {a b : List UInt8} (hb : 0 ∉ b) :
    ciCmp a b < 0 ↔ a.map upcase < b.map upcase := by
  induction a generalizing b with
  | nil =>
    cases b with
    | nil => simp [ciCmp]
    | cons d b =>
      have hd := upcase_pos fun h0 => hb (h0 ▸ List.mem_cons_self)
      simp [ciCmp, hd]
  | cons c a ih =>
    cases b with
    | nil => simp [ciCmp]
    | cons d b =>
      have hb' : 0 ∉ b := fun h => hb (List.mem_cons_of_mem _ h)
      rw [ciCmp, List.map_cons, List.map_cons, List.cons_lt_cons_iff]
      by_cases heq : upcase c = upcase d
      · rw [if_pos heq, ih hb']
        constructor
        · exact fun h => Or.inr ⟨heq, h⟩
        · rintro (h | ⟨_, h⟩)
          · omega
          · exact h
      · rw [if_neg heq]
        constructor
        · intro h
          exact Or.inl (by omega)
        · rintro (h | ⟨h, _⟩)
          · omega
          · exact absurd h heq

theorem ciCmp_neg (a b : List UInt8) : ciCmp b a = -ciCmp a b := by
  induction a generalizing b with
  | nil => cases b <;> simp [ciCmp]
  | cons c a ih =>
    cases b with
    | nil => simp [ciCmp]
    | cons d b =>
      rw [ciCmp, ciCmp]
      by_cases heq : upcase c = upcase d
      · rw [if_pos heq, if_pos heq.symm, ih]
      · rw [if_neg heq, if_neg (Ne.symm heq)]
        omega

theorem lt_iff_ciCmp (a b : CStr) : ciCmp a.bytes b.bytes < 0 ↔ sortKey a < sortKey b :=
  ciCmp_lt_iff b.noNul

theorem gt_iff_ciCmp (a t : CStr) :
    decide (0 < ciCmp a.bytes t.bytes) = true ↔ sortKey t < sortKey a := by
  rw [decide_eq_true_iff, ← lt_iff_ciCmp, ciCmp_neg a.bytes]
  omega

theorem perm_sortNames (names : List CStr) : (sortNames names).Perm names :=
  ShiftSort.perm_shiftSort

theorem pairwise_sortNames (names : List CStr) :
    (sortNames names).Pairwise fun a b => sortKey a ≤ sortKey b :=
  ShiftSort.pairwise_shiftSort gt_iff_ciCmp names

def dot : CStr := ⟨[46], by decide⟩

def dotdot : CStr := ⟨[46, 46], by decide⟩

/-- What `readdir` lists: every name once, and the dot entries among them. -/
structure Directory where
  names : List CStr
  nodup : names.Nodup
  dot_mem : dot ∈ names
  dotdot_mem : dotdot ∈ names

/-- No name but `.` comes before `..`. -/
def DotsLeast (d : Directory) : Prop :=
  ∀ name ∈ d.names, ciCmp name.bytes dotdot.bytes < 0 → name = dot

theorem eq_of_bytes {a b : CStr} (h : a.bytes = b.bytes) : a = b := by
  obtain ⟨as, _⟩ := a
  obtain ⟨bs, _⟩ := b
  obtain rfl : as = bs := h
  rfl

theorem upcase_eq_dot {c : UInt8} (h : upcase c = 46) : c = 46 := by
  unfold upcase at h
  split at h
  · rename_i hle
    have := UInt8.le_iff_toNat_le.mp hle.1
    have h97 : (97 : UInt8).toNat = 97 := rfl
    omega
  · exact UInt8.toNat_inj.mp h

theorem eq_dotdot {a : CStr} (h : sortKey a = sortKey dotdot) : a = dotdot := by
  refine eq_of_bytes ?_
  have hmap : a.bytes.map upcase = [46, 46] := h
  rcases hb : a.bytes with _ | ⟨c, _ | ⟨d, _ | ⟨e, rest⟩⟩⟩ <;>
    simp only [hb, List.map_cons, List.map_nil, List.cons.injEq, reduceCtorEq, and_false,
      and_true] at hmap
  rw [upcase_eq_dot hmap.1, upcase_eq_dot hmap.2]
  rfl

theorem dots_first_iff (d : Directory) :
    (∃ tail, sortNames d.names = dot :: dotdot :: tail) ↔ DotsLeast d := by
  have hperm := perm_sortNames d.names
  have hsorted := pairwise_sortNames d.names
  have hnodup : (sortNames d.names).Nodup := hperm.nodup_iff.mpr d.nodup
  constructor
  · rintro ⟨tail, htail⟩ name hmem hlt
    rw [lt_iff_ciCmp] at hlt
    rw [htail] at hperm hsorted
    rcases List.mem_cons.mp (hperm.mem_iff.mpr hmem) with rfl | hmem
    · rfl
    · rw [List.pairwise_cons, List.pairwise_cons] at hsorted
      rcases List.mem_cons.mp hmem with rfl | hmem
      · exact absurd hlt (lt_irrefl _)
      · exact absurd hlt (not_lt.mpr (hsorted.2.1 name hmem))
  · intro hleast
    have hdots : sortKey dot < sortKey dotdot := by decide
    have hbefore : ∀ name ∈ d.names, sortKey name < sortKey dotdot → name = dot :=
      fun name hmem hlt => hleast name hmem ((lt_iff_ciCmp _ _).mpr hlt)
    -- nothing stands before `.`
    obtain ⟨xs, ys, heq⟩ := List.append_of_mem (hperm.mem_iff.mpr d.dot_mem)
    rw [heq] at hsorted hnodup hperm
    have hxs : xs = [] := by
      refine List.eq_nil_iff_forall_not_mem.mpr fun name hname => ?_
      have hle := (List.pairwise_append.mp hsorted).2.2 name hname dot List.mem_cons_self
      have hmem : name ∈ d.names := hperm.mem_iff.mp (List.mem_append_left _ hname)
      obtain rfl := hbefore name hmem (lt_of_le_of_lt hle hdots)
      exact (List.nodup_append.mp hnodup).2.2 dot hname dot List.mem_cons_self rfl
    rw [hxs, List.nil_append] at heq hsorted hnodup hperm
    -- and nothing between `.` and `..`
    have hne : dotdot ≠ dot := fun h => absurd (congrArg CStr.bytes h) (by decide)
    have hmem : dotdot ∈ ys :=
      (List.mem_cons.mp (hperm.mem_iff.mpr d.dotdot_mem)).resolve_left hne
    obtain ⟨zs, tail, htail⟩ := List.append_of_mem hmem
    rw [List.nodup_cons] at hnodup
    rw [List.pairwise_cons] at hsorted
    rw [htail] at hsorted hnodup
    have hzs : zs = [] := by
      refine List.eq_nil_iff_forall_not_mem.mpr fun name hname => ?_
      have hle := (List.pairwise_append.mp hsorted.2).2.2 name hname dotdot List.mem_cons_self
      have hname' : name ∈ d.names := by
        refine hperm.mem_iff.mp (List.mem_cons_of_mem _ ?_)
        rw [htail]
        exact List.mem_append_left _ hname
      rcases hle.lt_or_eq with hlt | hkey
      · obtain rfl := hbefore name hname' hlt
        exact hnodup.1 (List.mem_append_left _ hname)
      · obtain rfl := eq_dotdot hkey
        exact (List.nodup_append.mp hnodup.2).2.2 dotdot hname dotdot List.mem_cons_self rfl
    exact ⟨tail, by rw [heq, htail, hzs, List.nil_append]⟩

/-! ### The buffer -/

open OffsetChain (Chain Record)

def format (cls : ℕ) : OffsetChain.Format where
  fixed := fixedSize cls
  lenPos := if cls = 12 then 8 else 60
  next_le := by split <;> decide
  len_le := by
    unfold fixedSize
    split <;> decide

variable {cls namelen length : ℕ} {stat : CStr → Option Stat} {single : Bool}

theorem length_wide (name : CStr) : (wide name).length = 2 * name.bytes.length := by
  rw [wide, List.length_flatMap]
  simp [Nat.mul_comm]

theorem length_entryHeader (st : Option Stat) :
    (entryHeader cls namelen st).length = fixedSize cls := by
  unfold entryHeader fixedSize
  split
  · rfl
  · cases st <;> rfl

theorem holds_le32_zero (st : Option Stat) : Holds (entryHeader cls namelen st) 0 (le32 0) := by
  have hzero : ∀ rest : Buf, Holds (List.replicate 8 0 ++ rest) 0 (le32 0) := by
    intro rest i hi
    match i, hi with
    | 0, _ => rfl
    | 1, _ => rfl
    | 2, _ => rfl
    | 3, _ => rfl
  unfold entryHeader
  split
  · exact hzero _
  · simp only [List.append_assoc]
    exact hzero _

theorem holds_namelen (st : Option Stat) :
    Holds (entryHeader cls namelen st) (format cls).lenPos (le32 namelen) := by
  unfold entryHeader format
  by_cases hcls : cls = 12
  · simp only [if_pos hcls]
    have h := holds_append_self (List.replicate 8 0) (le32 namelen) []
    rwa [List.append_nil] at h
  · have htimes : ∀ times : Buf, times.length = 52 →
        Holds (List.replicate 8 0 ++ times ++ le32 namelen ++ List.replicate 30 0) 60
          (le32 namelen) := by
      intro times h52
      have h := holds_append_self (List.replicate 8 0 ++ times) (le32 namelen) (List.replicate 30 0)
      rwa [List.length_append, h52, ← List.append_assoc] at h
    simp only [if_neg hcls]
    cases st <;> exact htimes _ rfl

theorem stored_entry {f : Buf} {off : ℕ} {name : CStr} (st : Option Stat)
    (hroom : off + fixedSize cls + 2 * name.bytes.length ≤ f.length)
    (hlen : 2 * name.bytes.length < 2 ^ 32) :
    ∃ f₁ f₂, store f off (entryHeader cls (2 * name.bytes.length) st) = some f₁ ∧
      store f₁ (off + fixedSize cls) (wide name) = some f₂ ∧ f₂.length = f.length ∧
      Record (format cls) f₂ off (wide name) ∧ rd32 f₂ off = 0 ∧
      ∀ i, i < off → f₂[i]? = f[i]? := by
  have hheader := @length_entryHeader cls (2 * name.bytes.length) st
  have hwide := length_wide name
  have hfixed := (format cls).len_le
  have hfmt : (format cls).fixed = fixedSize cls := rfl
  have hin : off + (entryHeader cls (2 * name.bytes.length) st).length ≤ f.length := by omega
  have hlen₁ := length_put hin
  set f₁ := put f off (entryHeader cls (2 * name.bytes.length) st)
  have hin₂ : off + fixedSize cls + (wide name).length ≤ f₁.length := by omega
  have hlen₂ := length_put hin₂
  set f₂ := put f₁ (off + fixedSize cls) (wide name)
  -- the name is written behind the header and leaves it as it is
  have hself : Holds f₂ off (entryHeader cls (2 * name.bytes.length) st) := by
    refine (Holds.put_self hin).put_disjoint hin₂ (Or.inl ?_)
    rw [hheader]
  have hpart : ∀ {bs : Buf} {o : ℕ}, Holds (entryHeader cls (2 * name.bytes.length) st) o bs →
      o + bs.length ≤ fixedSize cls → Holds f₂ (off + o) bs := by
    intro bs o h hle i hi
    rw [Nat.add_assoc, hself _ (by omega)]
    exact h i hi
  refine ⟨f₁, f₂, if_pos hin, if_pos hin₂, hlen₂.trans hlen₁, ⟨?_, ?_, ?_⟩, ?_, ?_⟩
  · rw [hwide]
    exact rd32_of_holds (hpart (holds_namelen st) (by rw [length_le32]; omega)) hlen
  · exact Holds.put_self hin₂
  · rw [hwide, hlen₂, hlen₁]
    exact hroom
  · have h := rd32_of_holds (hpart (holds_le32_zero st) (by rw [length_le32]; omega)) (by decide)
    rwa [Nat.add_zero] at h
  · intro i hi
    rw [getElem?_put hin₂, if_neg (by omega), getElem?_put hin, if_neg (by omega)]

/-- The entries that the loop has put into the buffer. -/
structure Done (cls length : ℕ) (done : List CStr) (w : Fill) : Prop where
  emitted : w.emitted = done.length
  length_eq : w.buf.length = length
  chain : done ≠ [] → ∃ fin, Chain (format cls) w.buf 0 (done.map wide) w.prevHdr fin

structure Going (cls length : ℕ) (done : List CStr) (w : Fill) : Prop extends
    Done cls length done w where
  first : done = [] → w.off = 0
  behind : ∀ fin, Chain (format cls) w.buf 0 (done.map wide) w.prevHdr fin →
    fin ≤ w.off ∧ w.off ≤ fin + 7

theorem Going.entry {done : List CStr} {w : Fill} (h : Going cls length done w) {name : CStr}
    (st : Option Stat) (hroom : w.off + fixedSize cls + 2 * name.bytes.length ≤ length)
    (hlen : length < 2 ^ 32) :
    ∃ f, ((store w.buf w.off (entryHeader cls (2 * name.bytes.length) st)).bind fun f =>
        (store f (w.off + fixedSize cls) (wide name)).bind fun f =>
          if 0 < w.emitted then store f w.prevHdr (le32 w.link) else some f) =
        some f ∧ f.length = length ∧
      Chain (format cls) f 0 ((done ++ [name]).map wide) w.off
        (w.off + fixedSize cls + 2 * name.bytes.length) := by
  have hroom' : w.off + fixedSize cls + 2 * name.bytes.length ≤ w.buf.length := by
    rw [h.length_eq]
    exact hroom
  obtain ⟨f₁, f₂, h₁, h₂, hlen₂, hrec, hzero, hsame⟩ :=
    @stored_entry cls w.buf w.off name st hroom' (by omega)
  have hfixed := (format cls).len_le
  have hnext := (format cls).next_le
  have hfmt : (format cls).fixed = fixedSize cls := rfl
  rw [h₁, Option.bind_some, h₂, Option.bind_some, List.map_append, List.map_singleton]
  rcases eq_or_ne done [] with rfl | hne
  · -- the first entry
    have hoff := h.first rfl
    have hemitted : w.emitted = 0 := h.emitted
    refine ⟨f₂, if_neg (by omega), hlen₂.trans h.length_eq, ?_⟩
    have hlast := Chain.last hrec hzero
    rw [hfmt, length_wide] at hlast
    rw [hoff] at hlast ⊢
    exact hlast
  · obtain ⟨fin, hchain⟩ := h.chain hne
    obtain ⟨hfin, _⟩ := h.behind fin hchain
    obtain ⟨_, hlast⟩ := hchain.le
    have hoff : w.link = w.off - w.prevHdr := by
      rw [Fill.link]
      omega
    have hpos : 0 < w.emitted := by
      rw [h.emitted]
      exact List.length_pos_iff.mpr hne
    have hle : w.prevHdr + (le32 w.link).length ≤ f₂.length := by
      rw [length_le32]
      omega
    refine ⟨put f₂ w.prevHdr (le32 w.link), ?_, ?_, ?_⟩
    · rw [if_pos hpos]
      exact if_pos hle
    · rw [length_put hle]
      exact hlen₂.trans h.length_eq
    · have hget : ∀ i, i < w.prevHdr ∨ w.prevHdr + 4 ≤ i →
          (put f₂ w.prevHdr (le32 w.link))[i]? = f₂[i]? := by
        intro i hi
        rw [getElem?_put hle, length_le32, if_neg (by omega)]
      have hrec' := hrec.keep (length_put hle) fun i hlo _ => hget i (Or.inr (by omega))
      have hzero' : rd32 (put f₂ w.prevHdr (le32 w.link)) w.off = 0 := by
        rw [← hzero]
        exact Agree.rd32 fun i hlo _ => hget i (Or.inr (by omega))
      have hlink : rd32 (put f₂ w.prevHdr (le32 w.link)) w.prevHdr =
          w.off - w.prevHdr := by
        rw [← hoff]
        exact rd32_of_holds (Holds.put_self hle) (Nat.mod_lt _ (by decide))
      have hsnoc := hchain.snoc ((length_put hle).trans hlen₂)
        (fun i hi hor => (hget i hor).trans (hsame i (by omega))) hfin hlink hrec' hzero'
      rwa [hfmt, length_wide] at hsnoc

/-- What the loop puts into the buffer: entries that are left, in order, at most one where one is
asked for, and none only if the first of them does not fit. -/
theorem fill_spec : ∀ {names done : List CStr} {w : Fill}, Going cls length done w →
    (∀ name ∈ names, length + 7 + fixedSize cls + 2 * name.bytes.length < 2 ^ 32) →
    ∃ w' taken left, fill cls length single stat names w = some w' ∧ names = taken ++ left ∧
      Done cls length (done ++ taken) w' ∧ (single = true → taken.length ≤ 1) ∧
      ∀ name ∈ names.head?,
        (taken = [] ↔ length < w.off + fixedSize cls + 2 * name.bytes.length) := by
  intro names
  induction names with
  | nil =>
    intro done w h _
    exact ⟨w, [], [], rfl, rfl, (List.append_nil done).symm ▸ h.toDone, fun _ => Nat.zero_le _,
      fun _ hname => nomatch hname⟩
  | cons name names ih =>
    intro done w h hsmall
    have hname := hsmall name List.mem_cons_self
    have hoff : w.off ≤ length + 7 := by
      rcases eq_or_ne done [] with hnil | hne
      · rw [h.first hnil]
        exact Nat.zero_le _
      · obtain ⟨fin, hchain⟩ := h.chain hne
        have hin := hchain.inside
        have hbehind := (h.behind fin hchain).2
        rw [h.length_eq] at hin
        omega
    have hmod : (w.off + (fixedSize cls + 2 * name.bytes.length)) % 2 ^ 32 =
        w.off + (fixedSize cls + 2 * name.bytes.length) := Nat.mod_eq_of_lt (by omega)
    by_cases hroom : length < w.off + (fixedSize cls + 2 * name.bytes.length)
    · refine ⟨w, [], name :: names, ?_, rfl, (List.append_nil done).symm ▸ h.toDone,
        fun _ => Nat.zero_le _, fun name' hname' => ?_⟩
      · rw [fill]
        exact if_pos (by rw [hmod]; exact hroom)
      · obtain rfl := Option.some.inj hname'
        rw [Nat.add_assoc]
        exact iff_of_true rfl hroom
    have hfirst : ∀ taken : List CStr, ∀ name' ∈ (name :: names).head?, (name :: taken = [] ↔
        length < w.off + fixedSize cls + 2 * name'.bytes.length) := by
      intro taken name' hname'
      obtain rfl := Option.some.inj hname'
      rw [Nat.add_assoc]
      exact iff_of_false (List.cons_ne_nil _ _) hroom
    obtain ⟨f, hf, hlen, hchain⟩ := h.entry (stat name)
      (by rw [Nat.add_assoc]; exact Nat.le_of_not_lt hroom) (by omega)
    have hdone : ∀ off, Done cls length (done ++ [name]) ⟨f, off, w.off, w.emitted + 1⟩ := by
      intro off
      refine ⟨?_, hlen, fun _ => ⟨_, hchain⟩⟩
      rw [List.length_append, List.length_singleton]
      exact congrArg (· + 1) h.emitted
    have hstep : fill cls length single stat (name :: names) w =
        if single = true then some ⟨f, w.off, w.off, w.emitted + 1⟩
        else fill cls length single stat names
          ⟨f, (w.off + (fixedSize cls + 2 * name.bytes.length) + 7) % 2 ^ 32 / 8 * 8, w.off,
            w.emitted + 1⟩ := by
      rw [fill, if_neg (by rw [hmod]; exact hroom)]
      simp only [← Option.bind_assoc] at hf ⊢
      rw [hf, Option.bind_some]
    by_cases hsingle : single = true
    · exact ⟨_, [name], names, by rw [hstep, if_pos hsingle], rfl, hdone _, fun _ => le_rfl,
        hfirst []⟩
    · -- the next entry starts at a multiple of 8 behind this one
      have halign : (w.off + (fixedSize cls + 2 * name.bytes.length) + 7) % 2 ^ 32 / 8 * 8 =
          (w.off + (fixedSize cls + 2 * name.bytes.length) + 7) / 8 * 8 := by
        rw [Nat.mod_eq_of_lt (by omega)]
      have hgoing : Going cls length (done ++ [name])
          ⟨f, (w.off + (fixedSize cls + 2 * name.bytes.length) + 7) % 2 ^ 32 / 8 * 8, w.off,
            w.emitted + 1⟩ := by
        refine ⟨hdone _, fun hnil => absurd hnil (by simp), fun fin hfin => ?_⟩
        obtain ⟨p, hp, heq⟩ := hfin.fin_eq
        rw [List.map_append, List.map_singleton, List.getLast?_concat] at hp
        obtain rfl := Option.some.inj hp
        have hfmt : (format cls).fixed = fixedSize cls := rfl
        rw [length_wide, hfmt] at heq
        have heq' : fin = w.off + fixedSize cls + 2 * name.bytes.length := heq
        have hbehind : fin ≤ (w.off + (fixedSize cls + 2 * name.bytes.length) + 7) / 8 * 8 ∧
            (w.off + (fixedSize cls + 2 * name.bytes.length) + 7) / 8 * 8 ≤ fin + 7 := by
          omega
        rwa [← halign] at hbehind
      obtain ⟨w', taken, left, hfill, hsplit, hdone', _, _⟩ :=
        ih hgoing fun n hn => hsmall n (List.mem_cons_of_mem _ hn)
      refine ⟨w', name :: taken, left, ?_, by rw [hsplit, List.cons_append], ?_,
        fun hs => absurd hs hsingle, hfirst taken⟩
      · rw [hstep, if_neg hsingle, hfill]
      · rwa [List.append_assoc, List.singleton_append] at hdone'

/-! ### Calls -/

def Call.Valid (c : Call) : Prop := (c.cls = 12 ∨ c.cls = 3) ∧ c.matchAll = true

/-- The length of the buffer leaves room for an entry below `2 ^ 32`. -/
def Call.Fits (c : Call) (names : List CStr) : Prop :=
  ∀ name ∈ names, c.buf.length + 7 + fixedSize c.cls + 2 * name.bytes.length < 2 ^ 32

def delivered : Call × Reply → List Buf
  | (c, .success _ buf) => OffsetChain.walk (format c.cls) buf buf.length 0
  | _ => []

/-- A successful reply is a chain of entries in the buffer of the caller, which ends where the last
entry does, and has one entry where one is asked for. -/
def WellFormed : Call × Reply → Prop
  | (c, .success info buf) => buf.length = c.buf.length ∧
      ∃ ps last, Chain (format c.cls) buf 0 ps last info ∧ (c.single = true → ps.length = 1)
  | _ => True

/-- A reply with the cursor at `cur`: at the end there are no more files; before it at least the
next entry is delivered where the buffer has room for it, and else that is what the reply says. -/
def Progresses (order : List CStr) (cur : ℕ) (x : Call × Reply) : Prop :=
  x.1.Valid → (order.length ≤ cur → x.2 = .noMoreFiles) ∧
    ∀ name, order[cur]? = some name →
      if fixedSize x.1.cls + 2 * name.bytes.length ≤ x.1.buf.length then delivered x ≠ []
      else x.2 = .overflow

/-- What a call does where there is a snapshot: it delivers some of the entries that are left, or it
fails and leaves the cursor. -/
theorem query_spec {c : Call} {order : List CStr} {cur : ℕ} {s : Scan}
    (hbegun : c.begun s = some (order, cur)) (hv : c.Valid) (hfits : c.Fits order) :
    ∃ taken r, query s c = some (some (order, cur + taken.length), r) ∧
      taken <+: order.drop cur ∧ delivered (c, r) = taken.map wide ∧ WellFormed (c, r) ∧
      (r = .noMoreFiles → order.length ≤ cur) ∧ Progresses order cur (c, r) := by
  have hvalid : ¬ ((c.cls ≠ 12 ∧ c.cls ≠ 3) ∨ c.matchAll = false) := by
    rintro (⟨h12, h3⟩ | hno)
    · exact hv.1.elim h12 h3
    · rw [hv.2] at hno
      exact nomatch hno
  rw [query, if_neg hvalid, hbegun]
  by_cases hend : order.length ≤ cur
  · refine ⟨[], .noMoreFiles, if_pos hend, List.nil_prefix, rfl, trivial, fun _ => hend,
      fun _ => ⟨fun _ => rfl, fun name hname => ?_⟩⟩
    rw [List.getElem?_eq_none hend] at hname
    exact nomatch hname
  have hstart : Going c.cls c.buf.length [] ⟨c.buf, 0, 0, 0⟩ := by
    refine ⟨⟨rfl, rfl, fun h => absurd rfl h⟩, fun _ => rfl, fun fin hfin => ?_⟩
    obtain ⟨p, hp, _⟩ := hfin.fin_eq
    exact nomatch hp
  obtain ⟨w, taken, left, hfill, hsplit, hdone, hsingle, hnone⟩ :=
    @fill_spec c.cls c.buf.length c.stat c.single (order.drop cur) [] ⟨c.buf, 0, 0, 0⟩ hstart
      fun name hname => hfits name (List.mem_of_mem_drop hname)
  simp only [if_neg hend, hfill, Option.map_some]
  rw [List.nil_append] at hdone
  have hinit : taken <+: order.drop cur := ⟨left, hsplit.symm⟩
  rcases eq_or_ne taken [] with rfl | hne
  · have hzero : w.emitted = 0 := hdone.emitted
    refine ⟨[], .overflow, by rw [if_pos hzero]; rfl, hinit, rfl, trivial, (nofun),
      fun _ => ⟨fun hle => absurd hle hend, fun name hname => ?_⟩⟩
    -- the first entry that is left does not fit
    have hroom := (hnone name (by rw [List.head?_drop]; exact hname)).mp rfl
    dsimp only at hroom ⊢
    rw [if_neg (by omega)]
  · obtain ⟨fin, hchain⟩ := hdone.chain hne
    obtain ⟨p, hp, hfin⟩ := hchain.fin_eq
    have hpos : 0 < taken.length := List.length_pos_iff.mpr hne
    have hemitted : w.emitted = taken.length := hdone.emitted
    -- the last name that was delivered is the one in front of the cursor
    have hlast : order[cur + w.emitted - 1]?.elim [] (·.bytes.flatMap fun c => [c, 0]) = p := by
      have hget : order[cur + w.emitted - 1]? = taken.getLast? := by
        rw [List.getLast?_eq_getElem?, hemitted, show cur + taken.length - 1 =
          cur + (taken.length - 1) by omega, ← List.getElem?_drop, hsplit,
          List.getElem?_append_left (by omega)]
      rw [List.getLast?_map] at hp
      obtain ⟨name, hname, rfl⟩ := Option.map_eq_some_iff.mp hp
      rw [hget, hname]
      rfl
    have hinfo : (w.prevHdr + fixedSize c.cls +
        2 * (order[cur + w.emitted - 1]?.elim [] (·.bytes)).length) % 2 ^ 32 = fin := by
      have hplen : p.length = 2 * (order[cur + w.emitted - 1]?.elim [] (·.bytes)).length := by
        rw [← hlast]
        cases order[cur + w.emitted - 1]? with
        | none => rfl
        | some name => exact length_wide name
      have hin := hchain.inside
      rw [hdone.length_eq] at hin
      have hmem : ∃ name, name ∈ order := by
        obtain ⟨name, rest, rfl⟩ := List.exists_cons_of_ne_nil hne
        exact ⟨name, List.mem_of_mem_drop (hinit.subset List.mem_cons_self)⟩
      obtain ⟨name, hmem⟩ := hmem
      have hsmall := hfits name hmem
      have hfmt : (format c.cls).fixed = fixedSize c.cls := rfl
      rw [hfmt] at hfin
      rw [← hplen, ← hfin]
      exact Nat.mod_eq_of_lt (by omega)
    have hwalk : delivered (c, .success fin w.buf) = taken.map wide := by
      refine hchain.walk_eq ?_
      have hle := hchain.length_le
      have hin := hchain.inside
      have hfixed := (format c.cls).len_le
      have hpos : 0 < (format c.cls).fixed := by omega
      have hsize := Nat.le_mul_of_pos_right (taken.map wide).length hpos
      omega
    refine ⟨taken, .success fin w.buf, ?_, hinit, hwalk, ⟨hdone.length_eq, _, _, hchain, ?_⟩,
      (nofun), fun _ => ⟨fun hle => absurd hle hend, fun name hname => ?_⟩⟩
    · rw [if_neg (by omega), hinfo, hemitted]
    · intro hs
      have := hsingle hs
      rw [List.length_map]
      omega
    · have hroom := mt (hnone name (by rw [List.head?_drop]; exact hname)).mpr hne
      dsimp only at hroom ⊢
      rw [if_pos (by omega), hwalk]
      exact List.map_eq_nil_iff.not.mpr hne

def run : Scan → List Call → Option (Scan × List (Call × Reply))
  | s, [] => some (s, [])
  | s, c :: cs =>
    (query s c).bind fun (s', r) => (run s' cs).map fun (s'', log) => (s'', (c, r) :: log)

/-- The order of the snapshot is that of the directory, with the dot entries first and the others in
the order of their names; what the calls have delivered is what stands in front of the cursor, all
of it where a reply says that there are no more files; and every reply is well formed and goes on
from what the ones before it have delivered. -/
def Enumerates (d : Directory) (outcome : Option (Scan × List (Call × Reply))) : Prop :=
  ∃ order cur log, outcome = some (some (order, cur), log) ∧ order.Perm d.names ∧
    (∃ tail, order = dot :: dotdot :: tail ∧
      tail.Pairwise fun a b => ciCmp a.bytes b.bytes ≤ 0) ∧
    log.flatMap delivered = (order.take cur).map wide ∧
    ((∃ c, (c, .noMoreFiles) ∈ log) → order.length ≤ cur) ∧ (∀ x ∈ log, WellFormed x) ∧
    ∀ before x behind, log = before ++ x :: behind →
      Progresses order (before.flatMap delivered).length x

structure Restarted (d : Directory) (first : Call) (calls : List Call) : Prop where
  valid : first.Valid
  restart : first.restart = true
  listing : first.listing = some d.names
  goesOn : ∀ c ∈ calls, c.restart = false
  fits : ∀ c ∈ first :: calls, c.Fits d.names

theorem query_goes_on {c : Call} {order : List CStr} {cur : ℕ} (hr : c.restart = false)
    (hfits : c.Fits order) :
    ∃ taken r, query (some (order, cur)) c = some (some (order, cur + taken.length), r) ∧
      taken <+: order.drop cur ∧ delivered (c, r) = taken.map wide ∧ WellFormed (c, r) ∧
      (r = .noMoreFiles → order.length ≤ cur) ∧ Progresses order cur (c, r) := by
  by_cases hv : c.Valid
  · refine query_spec ?_ hv hfits
    rw [Call.begun, hr]
    rfl
  · have hinvalid : (c.cls ≠ 12 ∧ c.cls ≠ 3) ∨ c.matchAll = false := by
      by_contra hno
      rw [not_or, not_and_or, not_not, not_not, Bool.not_eq_false] at hno
      exact hv hno
    exact ⟨[], .invalidParameter, if_pos hinvalid, List.nil_prefix, rfl, trivial,
      (nofun), fun hv' => absurd hv' hv⟩

theorem take_append_prefix {α : Type*} {xs ys : List α} {n : ℕ} (h : ys <+: xs.drop n) :
    xs.take n ++ ys = xs.take (n + ys.length) := by
  obtain ⟨rest, hrest⟩ := h
  rw [List.take_add, ← hrest, List.take_left']
  rfl

theorem progresses_cons {order taken : List CStr} {cur : ℕ} {x : Call × Reply}
    {log : List (Call × Reply)} (hx : delivered x = taken.map wide) (h : Progresses order cur x)
    (hlog : ∀ before y behind, log = before ++ y :: behind →
      Progresses order (cur + taken.length + (before.flatMap delivered).length) y) :
    ∀ before y behind, x :: log = before ++ y :: behind →
      Progresses order (cur + (before.flatMap delivered).length) y := by
  intro before y behind heq
  cases before with
  | nil =>
    obtain ⟨rfl, -⟩ := List.cons.inj heq
    exact h
  | cons z before =>
    obtain ⟨rfl, hrest⟩ := List.cons.inj heq
    have hy := hlog before y behind hrest
    rwa [List.flatMap_cons, List.length_append, hx, List.length_map, ← Nat.add_assoc]

theorem run_goes_on {order : List CStr} : ∀ {calls : List Call} {cur : ℕ},
    (∀ c ∈ calls, c.restart = false) → (∀ c ∈ calls, c.Fits order) →
    ∃ taken log, run (some (order, cur)) calls = some (some (order, cur + taken.length), log) ∧
      taken <+: order.drop cur ∧ log.flatMap delivered = taken.map wide ∧
      (∀ x ∈ log, WellFormed x) ∧
      ((∃ c, (c, .noMoreFiles) ∈ log) → order.length ≤ cur + taken.length) ∧
      ∀ before x behind, log = before ++ x :: behind →
        Progresses order (cur + (before.flatMap delivered).length) x := by
  intro calls
  induction calls with
  | nil =>
    intro cur _ _
    refine ⟨[], [], rfl, List.nil_prefix, rfl, fun _ hx => absurd hx List.not_mem_nil,
      fun ⟨_, hx⟩ => absurd hx List.not_mem_nil, fun before x behind h => ?_⟩
    exact absurd h.symm (List.append_ne_nil_of_right_ne_nil _ (List.cons_ne_nil _ _))
  | cons c calls ih =>
    intro cur hr hfits
    obtain ⟨taken, r, hquery, hinit, hdeliver, hwell, hmore, hgoes⟩ :=
      @query_goes_on c order cur (hr c List.mem_cons_self) (hfits c List.mem_cons_self)
    obtain ⟨taken', log, hrun, hinit', hdeliver', hwell', hmore', hgoes'⟩ :=
      @ih (cur + taken.length) (fun c' hc' => hr c' (List.mem_cons_of_mem _ hc'))
        fun c' hc' => hfits c' (List.mem_cons_of_mem _ hc')
    refine ⟨taken ++ taken', (c, r) :: log, ?_, ?_, ?_, ?_, ?_,
      progresses_cons hdeliver hgoes hgoes'⟩
    · simp only [run, hquery, Option.bind_some, hrun, Option.map_some, List.length_append,
        Nat.add_assoc]
    · obtain ⟨left, hleft⟩ := hinit
      have hdrop : order.drop (cur + taken.length) = left := by
        rw [← List.drop_drop, ← hleft, List.drop_left']
        rfl
      rw [hdrop] at hinit'
      rw [← hleft]
      exact (List.prefix_append_right_inj taken).mpr hinit'
    · rw [List.flatMap_cons, hdeliver, hdeliver', List.map_append]
    · intro x hx
      rcases List.mem_cons.mp hx with rfl | hx
      · exact hwell
      · exact hwell' x hx
    · rintro ⟨c', hc'⟩
      rw [List.length_append]
      rcases List.mem_cons.mp hc' with heq | hc'
      · have := hmore (Prod.mk.inj heq).2.symm
        omega
      · have := hmore' ⟨c', hc'⟩
        omega

theorem query_failed {c : Call} {scan : List CStr × ℕ} {s' : Scan} {r : Reply}
    (hr : c.restart = false) (h : query (some scan) c = some (s', r))
    (hfail : ∀ info buf, r ≠ .success info buf) : s' = some scan := by
  have hbegun : c.begun (some scan) = some scan := by
    rw [Call.begun, hr]
    rfl
  rw [query, hbegun] at h
  split at h
  · exact (Prod.mk.inj (Option.some.inj h)).1.symm
  obtain ⟨names, cur⟩ := scan
  simp only at h
  split at h
  · exact (Prod.mk.inj (Option.some.inj h)).1.symm
  · obtain ⟨w, _, hw⟩ := Option.map_eq_some_iff.mp h
    split at hw
    · exact (Prod.mk.inj hw).1.symm
    · exact absurd (Prod.mk.inj hw).2.symm (hfail _ _)

theorem run_restarted {d : Directory} {first : Call} {calls : List Call}
    (h : Restarted d first calls) (s : Scan) :
    ∃ cur log, run s (first :: calls) = some (some (sortNames d.names, cur), log) ∧
      log.flatMap delivered = ((sortNames d.names).take cur).map wide ∧
      ((∃ c, (c, .noMoreFiles) ∈ log) → (sortNames d.names).length ≤ cur) ∧
      (∀ x ∈ log, WellFormed x) ∧ ∀ before x behind, log = before ++ x :: behind →
        Progresses (sortNames d.names) (before.flatMap delivered).length x := by
  have hbegun : first.begun s = some (sortNames d.names, 0) := by
    unfold Call.begun
    rw [h.restart, h.listing]
    rfl
  have hfits : ∀ c ∈ first :: calls, c.Fits (sortNames d.names) :=
    fun c hc name hname => h.fits c hc name ((perm_sortNames _).mem_iff.mp hname)
  obtain ⟨taken, r, hquery, hinit, hdeliver, hwell, hmore, hgoes⟩ :=
    query_spec hbegun h.valid (hfits first List.mem_cons_self)
  obtain ⟨taken', log, hrun, hinit', hdeliver', hwell', hmore', hgoes'⟩ :=
    @run_goes_on (sortNames d.names) calls (0 + taken.length) h.goesOn
      fun c hc => hfits c (List.mem_cons_of_mem _ hc)
  have hall := progresses_cons hdeliver hgoes hgoes'
  simp only [Nat.zero_add] at hall
  refine ⟨0 + taken.length + taken'.length, (first, r) :: log, ?_, ?_, ?_, ?_, hall⟩
  · simp only [run, hquery, Option.bind_some, hrun, Option.map_some]
  · rw [List.flatMap_cons, hdeliver, hdeliver', ← List.map_append,
      ← take_append_prefix hinit', ← take_append_prefix hinit, List.take_zero,
      List.nil_append]
  · rintro ⟨c, hc⟩
    rcases List.mem_cons.mp hc with heq | hc
    · have := hmore (Prod.mk.inj heq).2.symm
      omega
    · exact hmore' ⟨c, hc⟩
  · intro x hx
    rcases List.mem_cons.mp hx with rfl | hx
    · exact hwell
    · exact hwell' x hx

/-- The calls after a restart enumerate the directory exactly if no name but `.` comes before `..`;
and a call that goes on with a snapshot and fails leaves it as it is. -/
theorem query_enumerates_iff (d : Directory) (s : Scan) (first : Call) (calls : List Call)
    (h : Restarted d first calls) :
    (Enumerates d (run s (first :: calls)) ↔ DotsLeast d) ∧
    ∀ (c : Call) (scan : List CStr × ℕ) (s' : Scan) (r : Reply), c.restart = false →
      query (some scan) c = some (s', r) → (∀ info buf, r ≠ .success info buf) →
        s' = some scan := by
  refine ⟨?_, fun _ _ _ _ hr hquery hfail => query_failed hr hquery hfail⟩
  obtain ⟨cur, log, hrun, hdeliver, hmore, hwell, hgoes⟩ := run_restarted h s
  rw [hrun, ← dots_first_iff]
  constructor
  · rintro ⟨order, _, _, heq, _, ⟨tail, htail, _⟩, _⟩
    have horder := (Prod.mk.inj (Option.some.inj (Prod.mk.inj (Option.some.inj heq)).1)).1
    exact ⟨tail, horder.trans htail⟩
  · rintro ⟨tail, htail⟩
    have hsorted := pairwise_sortNames d.names
    rw [htail, List.pairwise_cons, List.pairwise_cons] at hsorted
    refine ⟨_, cur, log, rfl, perm_sortNames _, ⟨tail, htail, hsorted.2.2.imp ?_⟩, hdeliver, hmore,
      hwell, hgoes⟩
    intro a b hle
    rw [← not_lt, ciCmp_neg b.bytes, neg_pos, lt_iff_ciCmp]
    exact not_lt.mpr hle

def oneFile (name : CStr) (h : name.bytes ≠ dot.bytes ∧ name.bytes ≠ dotdot.bytes) : Directory where
  names := [name, dotdot, dot]
  nodup := by
    have hne : dotdot ≠ dot := fun heq => absurd (congrArg CStr.bytes heq) (by decide)
    have h₁ : name ≠ dot := fun heq => h.1 (congrArg CStr.bytes heq)
    have h₂ : name ≠ dotdot := fun heq => h.2 (congrArg CStr.bytes heq)
    simp [h₁, h₂, hne]
  dot_mem := by simp
  dotdot_mem := by simp

def oneCall (d : Directory) : Call :=
  ⟨12, none, false, true, some d.names, fun _ => none, List.replicate 64 0⟩

theorem restarted_oneCall {name : CStr} {h : name.bytes ≠ dot.bytes ∧ name.bytes ≠ dotdot.bytes}
    (hlen : name.bytes.length ≤ 2) : Restarted (oneFile name h) (oneCall (oneFile name h)) [] where
  valid := ⟨Or.inl rfl, rfl⟩
  restart := rfl
  listing := rfl
  goesOn c hc := absurd hc List.not_mem_nil
  fits c hc n hn := by
    obtain rfl := List.mem_singleton.mp hc
    have hsize : n.bytes.length ≤ 2 := by
      simp only [oneFile, List.mem_cons, List.not_mem_nil, or_false] at hn
      rcases hn with rfl | rfl | rfl
      · exact hlen
      · exact le_rfl
      · exact Nat.le_succ 1
    have h12 : fixedSize (oneCall (oneFile name h)).cls = 12 := rfl
    have h64 : (oneCall (oneFile name h)).buf.length = 64 := rfl
    omega

/-- The file `a` comes behind the dot entries. -/
theorem query_enumerates_iff_file :
    Enumerates (oneFile ⟨[97], by decide⟩ (by decide))
      (run none [oneCall (oneFile ⟨[97], by decide⟩ (by decide))]) := by
  refine ((query_enumerates_iff _ none _ [] (restarted_oneCall (by decide))).1).mpr ?_
  intro name hname hlt
  simp only [oneFile, List.mem_cons, List.not_mem_nil, or_false] at hname
  rcases hname with rfl | rfl | rfl
  · exact absurd hlt (by decide)
  · exact absurd hlt (by decide)
  · rfl

/-- The file `!` comes before them. -/
theorem not_query_enumerates : ¬ ∀ (d : Directory) (s : Scan) (first : Call) (calls : List Call),
    Restarted d first calls → Enumerates d (run s (first :: calls)) := by
  intro h
  obtain ⟨order, cur, log, hrun, _, ⟨tail, htail, _⟩, _⟩ :=
    h (oneFile ⟨[33], by decide⟩ (by decide)) none _ [] (restarted_oneCall (by decide))
  have hfirst : ((run none [oneCall (oneFile ⟨[33], by decide⟩ (by decide))]).map fun o =>
      o.1.map fun p => p.1.map (·.bytes)) = some (some [[33], [46], [46, 46]]) := by
    decide +kernel
  rw [hrun, htail] at hfirst
  exact absurd (Option.some.inj (Option.some.inj hfirst)) (by simp [dot])

end Aret.DirQuery
