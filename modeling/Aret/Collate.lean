/-
Linguistic comparison of strings.

Strings are compared by their sort keys: the primary weights, the cases and the punctuation that
is ignored at first, each with two separators after it.
-/
import Aret.SortKey
import Aret.Wcsto
import Mathlib

namespace Aret.Collate

open SortKey

/-! ### Keys -/

/-- `u32_pri`. -/
def priTable : List ℕ :=
  [0x0000, 0x0000, 0x0000, 0x0000, 0x0000, 0x0000, 0x0000, 0x0000,
   0x0000, 0x0000, 0x0000, 0x0000, 0x0000, 0x0000, 0x0000, 0x0000,
   0x0000, 0x0000, 0x0000, 0x0000, 0x0000, 0x0000, 0x0000, 0x0000,
   0x0000, 0x0000, 0x0000, 0x0000, 0x0000, 0x0000, 0x0000, 0x0000,
   0x0702, 0x071c, 0x071d, 0x071f, 0x0721, 0x0723, 0x0725, 0x0000,
   0x0727, 0x072a, 0x072d, 0x0803, 0x072f, 0x0000, 0x0733, 0x0735,
   0x0d03, 0x0d1a, 0x0d1c, 0x0d1e, 0x0d20, 0x0d22, 0x0d24, 0x0d26,
   0x0d28, 0x0d2a, 0x0737, 0x073a, 0x080e, 0x0812, 0x0814, 0x073c,
   0x073e, 0x0e02, 0x0e09, 0x0e0a, 0x0e1a, 0x0e21, 0x0e23, 0x0e25,
   0x0e2c, 0x0e32, 0x0e35, 0x0e36, 0x0e48, 0x0e51, 0x0e70, 0x0e7c,
   0x0e7e, 0x0e89, 0x0e8a, 0x0e91, 0x0e99, 0x0e9f, 0x0ea2, 0x0ea4,
   0x0ea6, 0x0ea7, 0x0ea9, 0x073f, 0x0741, 0x0742, 0x0743, 0x0744,
   0x0748, 0x0e02, 0x0e09, 0x0e0a, 0x0e1a, 0x0e21, 0x0e23, 0x0e25,
   0x0e2c, 0x0e32, 0x0e35, 0x0e36, 0x0e48, 0x0e51, 0x0e70, 0x0e7c,
   0x0e7e, 0x0e89, 0x0e8a, 0x0e91, 0x0e99, 0x0e9f, 0x0ea2, 0x0ea4,
   0x0ea6, 0x0ea7, 0x0ea9, 0x074a, 0x074c, 0x074e, 0x0750, 0x0000]

def pri (c : UInt16) : ℕ := if 128 ≤ c.toNat then 0 else priTable.getD c.toNat 0

/-- `u32_ign`: the weight of the apostrophe and of the hyphen; 0 is not ignored. -/
def ign (c : UInt16) : ℕ := if c = 39 then 0x80 else if c = 45 then 0x82 else 0

def cas (c : UInt16) : ℕ := if 65 ≤ c ∧ c ≤ 90 then 0x12 else 0x02

/-- The buffers of `u32_sortkey` up to `np`, `nc` and `ns`. -/
structure Acc where
  pri : List ℕ
  cas : List ℕ
  spc : List ℕ
  nbefore : ℕ

def priBytes (w : ℕ) : List ℕ := [w / 256 % 256, w % 256]

def spcBytes (p : ℕ × ℕ) : List ℕ := [0xff, (0xff - p.1) % 256, p.2, 0x12]

/-- One unit; `none` is a unit outside the subset, or one too many. -/
def put (r : Acc) (c : UInt16) : Option Acc :=
  if ign c ≠ 0 then
    if 1018 < r.spc.length ∨ 0x80 ≤ r.nbefore then none
    else some { r with spc := r.spc ++ spcBytes (r.nbefore, ign c) }
  else if pri c = 0 then none
  else if 1020 < r.pri.length ∨ 508 < r.cas.length then none
  else some ⟨r.pri ++ priBytes (pri c), r.cas ++ [cas c], r.spc, r.nbefore + 1⟩

def scan (s : List UInt16) : Option Acc := s.foldlM put ⟨[], [], [], 0⟩

def Acc.key (r : Acc) (ignoreCase : Bool) : List ℕ :=
  let cas := if ignoreCase then [] else trim 0x02 r.cas
  r.pri ++ [0x01, 0x01] ++ cas ++ [0x01, 0x01] ++ r.spc ++ [0x00]

/-- `u32_sortkey` of the units before the first NUL. -/
def sortkey (s : List UInt16) (ignoreCase : Bool) : Option (List ℕ) :=
  (scan s).map fun r => r.key ignoreCase

def sign : Ordering → ℤ
  | .lt => -1
  | .eq => 0
  | .gt => 1

def memcmp (a b : List ℕ) (m : ℕ) : ℤ := sign (lex compare (a.take m) (b.take m))

/-- A string: the units in front of a NUL, or as many as the caller says. -/
structure Arg (α : Type) where
  units : List α
  counted : Bool

def Arg.text (a : Arg UInt16) : List UInt16 := a.units.takeWhile (· ≠ 0)

/-- `u32_collate`; -2 is a string without a key. -/
def collate (a b : Arg UInt16) (ignoreCase : Bool) : ℤ :=
  match sortkey a.text ignoreCase, sortkey b.text ignoreCase with
  | some ka, some kb =>
    let m := min ka.length kb.length
    let c := memcmp ka kb m
    let c := if c = 0 then (ka.length : ℤ) - kb.length else c
    if c < 0 then -1 else if c > 0 then 1 else 0
  | _, _ => -2

/-! ### Calls -/

/-- `u32_wstr_eq`. -/
def wstrEq (a b : Arg UInt16) : Bool := a.text == b.text

/-- `aret_lstrcmpW`, and `aret_lstrcmpiW` when the case is ignored; `none` is
`aret_unmodelled`. -/
def lstrcmp (ignoreCase : Bool) (a b : Option (List UInt16)) : Option ℤ :=
  match a, b with
  | some a, some b =>
    if wstrEq ⟨a, false⟩ ⟨b, false⟩ then some 0
    else
      let r := collate ⟨a, false⟩ ⟨b, false⟩ ignoreCase
      if r = -2 then none else some r
  | none, none => some 0
  | some _, none => some 1
  | none, some _ => some (-1)

/-- `CSTR_LESS_THAN`, `CSTR_EQUAL` or `CSTR_GREATER_THAN`. -/
def cstr (r : ℤ) : Option ℕ :=
  if r = -2 then none else some (if r < 0 then 1 else if r > 0 then 3 else 2)

/-- `aret_CompareStringW`; `none` is `aret_unmodelled`. -/
def compareStringW (flags : UInt32) (s1 s2 : Option (Arg UInt16)) : Option ℕ :=
  if flags &&& ~~~1 ≠ 0 then none
  else match s1, s2 with
    | some a, some b =>
      if !a.counted && !b.counted && flags &&& 1 == 0 && wstrEq a b then some 2
      else cstr (collate a b (flags &&& 1 != 0))
    | _, _ => some 0

/-- The bytes that the loops of `aret_CompareStringA` take. -/
def Arg.bytes (a : Arg UInt8) : List UInt8 :=
  if a.counted then a.units else a.units.takeWhile (· ≠ 0)

/-- The buffer `w1`, or `w2`. -/
def widen (s : List UInt8) : Option (List UInt16) :=
  s.foldlM (fun w b => if 0x80 ≤ b ∨ 1199 ≤ w.length then none else some (w ++ [b.toUInt16])) []

/-- `aret_CompareStringA`; `none` is `aret_unmodelled`. -/
def compareStringA (flags : UInt32) (s1 s2 : Option (Arg UInt8)) : Option ℕ :=
  if flags &&& ~~~1 ≠ 0 then none
  else match s1, s2 with
    | some a, some b =>
      match widen a.bytes, widen b.bytes with
      | some w1, some w2 => cstr (collate ⟨w1, true⟩ ⟨w2, true⟩ (flags &&& 1 != 0))
      | _, _ => none
    | _, _ => some 0

/-! ### Levels -/

def letters (s : List UInt16) : List UInt16 := s.filter fun c => ign c = 0

def primary (s : List UInt16) : List ℕ := (letters s).map pri

def cases (s : List UInt16) : List ℕ := (letters s).map cas

/-- The last level: what is ignored, with the number of other characters before it. -/
def ignorables (n : ℕ) : List UInt16 → List (ℕ × ℕ)
  | [] => []
  | c :: s => if ign c ≠ 0 then (n, ign c) :: ignorables n s else ignorables (n + 1) s

def ignOrder (p q : ℕ × ℕ) : Ordering := (compare q.1 p.1).then (compare p.2 q.2)

def levelOrder (ignoreCase : Bool) (s t : List UInt16) : Ordering :=
  (lex compare (primary s) (primary t)).then
    ((if ignoreCase then .eq else lexPad compare 0x02 (cases s) (cases t)).then
      (lex ignOrder (ignorables 0 s) (ignorables 0 t)))

def Supported (s : List UInt16) : Prop := ∀ c ∈ s, ign c ≠ 0 ∨ pri c ≠ 0

structure Fits (s : List UInt16) : Prop where
  short : (letters s).length ≤ 509
  few : (ignorables 0 s).length ≤ 255
  early : ∀ p ∈ ignorables 0 s, p.1 < 128

/-! ### What is in a key -/

variable {s t : List UInt16} {c : UInt16}

theorem letters_cons_pos (hc : ign c = 0) : letters (c :: s) = c :: letters s :=
  List.filter_cons_of_pos (decide_eq_true hc)

theorem letters_cons_neg (hc : ign c ≠ 0) : letters (c :: s) = letters s :=
  List.filter_cons_of_neg (by rwa [decide_eq_true_eq])

theorem letters_append : letters (s ++ t) = letters s ++ letters t := List.filter_append s t

theorem ignorables_append (n : ℕ) (s t : List UInt16) :
    ignorables n (s ++ t) = ignorables n s ++ ignorables (n + (letters s).length) t := by
  induction s generalizing n with
  | nil => rfl
  | cons c s ih =>
    rw [List.cons_append, ignorables, ignorables]
    by_cases hc : ign c = 0
    · rw [if_neg (not_not.mpr hc), if_neg (not_not.mpr hc), ih, letters_cons_pos hc,
        List.length_cons, Nat.add_assoc, Nat.add_comm 1]
    · rw [if_pos hc, if_pos hc, ih, letters_cons_neg hc, List.cons_append]

theorem letters_concat_pos (hc : ign c = 0) : letters (s ++ [c]) = letters s ++ [c] := by
  rw [letters_append, letters_cons_pos hc]
  rfl

theorem letters_concat_neg (hc : ign c ≠ 0) : letters (s ++ [c]) = letters s := by
  rw [letters_append, letters_cons_neg hc]
  exact List.append_nil _

theorem ignorables_concat_pos (hc : ign c = 0) : ignorables 0 (s ++ [c]) = ignorables 0 s := by
  rw [ignorables_append, ignorables, if_neg (not_not.mpr hc)]
  exact List.append_nil _

theorem ignorables_concat_neg (hc : ign c ≠ 0) :
    ignorables 0 (s ++ [c]) = ignorables 0 s ++ [((letters s).length, ign c)] := by
  rw [ignorables_append, ignorables, if_pos hc, Nat.zero_add]
  rfl

theorem supported_concat :
    Supported (s ++ [c]) ↔ Supported s ∧ (ign c ≠ 0 ∨ pri c ≠ 0) := by
  rw [Supported, List.forall_mem_append, List.forall_mem_singleton]
  rfl

theorem fits_concat_pos (hc : ign c = 0) :
    Fits (s ++ [c]) ↔ Fits s ∧ (letters s).length ≤ 508 := by
  have hlen : (letters (s ++ [c])).length = (letters s).length + 1 := by
    rw [letters_concat_pos hc, List.length_append, List.length_singleton]
  constructor
  · rintro ⟨hshort, hfew, hearly⟩
    rw [ignorables_concat_pos hc] at hfew hearly
    exact ⟨⟨by omega, hfew, hearly⟩, by omega⟩
  · rintro ⟨⟨-, hfew, hearly⟩, hle⟩
    rw [← ignorables_concat_pos hc] at hfew hearly
    exact ⟨by omega, hfew, hearly⟩

theorem fits_concat_neg (hc : ign c ≠ 0) :
    Fits (s ++ [c]) ↔
      Fits s ∧ (ignorables 0 s).length ≤ 254 ∧ (letters s).length < 128 := by
  have hlen : (ignorables 0 (s ++ [c])).length = (ignorables 0 s).length + 1 := by
    rw [ignorables_concat_neg hc, List.length_append, List.length_singleton]
  have hall : (∀ p ∈ ignorables 0 (s ++ [c]), p.1 < 128) ↔
      (∀ p ∈ ignorables 0 s, p.1 < 128) ∧ (letters s).length < 128 := by
    rw [ignorables_concat_neg hc, List.forall_mem_append, List.forall_mem_singleton]
  constructor
  · rintro ⟨hshort, hfew, hearly⟩
    rw [letters_concat_neg hc] at hshort
    obtain ⟨hold, hnew⟩ := hall.mp hearly
    exact ⟨⟨hshort, by omega, hold⟩, by omega, hnew⟩
  · rintro ⟨⟨hshort, -, hold⟩, hle, hnew⟩
    rw [← letters_concat_neg hc] at hshort
    exact ⟨hshort, by omega, hall.mpr ⟨hold, hnew⟩⟩

def acc (s : List UInt16) : Acc :=
  ⟨(primary s).flatMap priBytes, cases s, (ignorables 0 s).flatMap spcBytes, (letters s).length⟩

theorem length_acc_pri : (acc s).pri.length = 2 * (letters s).length := by
  rw [acc, List.length_flatMap]
  simp only [priBytes, List.length_cons, List.length_nil, List.map_const', List.sum_replicate,
    smul_eq_mul, primary, List.length_map]
  omega

theorem length_acc_cas : (acc s).cas.length = (letters s).length := List.length_map ..

theorem length_acc_spc : (acc s).spc.length = 4 * (ignorables 0 s).length := by
  rw [acc, List.length_flatMap]
  simp only [spcBytes, List.length_cons, List.length_nil, List.map_const', List.sum_replicate,
    smul_eq_mul]
  omega

theorem acc_concat_pos (hc : ign c = 0) : acc (s ++ [c]) =
    ⟨(acc s).pri ++ priBytes (pri c), (acc s).cas ++ [cas c], (acc s).spc,
      (acc s).nbefore + 1⟩ := by
  rw [acc, acc, primary, cases, letters_concat_pos hc, ignorables_concat_pos hc, List.map_append,
    List.map_append, List.flatMap_append, List.length_append]
  simp only [List.map_cons, List.map_nil, List.flatMap_cons, List.flatMap_nil, List.append_nil]
  rfl

theorem acc_concat_neg (hc : ign c ≠ 0) : acc (s ++ [c]) =
    { acc s with spc := (acc s).spc ++ spcBytes ((acc s).nbefore, ign c) } := by
  rw [acc, acc, primary, cases, letters_concat_neg hc, ignorables_concat_neg hc,
    List.flatMap_append, List.flatMap_cons, List.flatMap_nil, List.append_nil]
  rfl

open Classical in
theorem scan_eq (s : List UInt16) :
    scan s = if Supported s ∧ Fits s then some (acc s) else none := by
  induction s using List.reverseRecOn with
  | nil =>
    have hfits : Fits [] := ⟨Nat.zero_le _, Nat.zero_le _, fun p hp => absurd hp List.not_mem_nil⟩
    rw [if_pos ⟨fun c hc => absurd hc List.not_mem_nil, hfits⟩]
    rfl
  | append_singleton s c ih =>
    have hstep : scan (s ++ [c]) = scan s >>= fun r => put r c := by
      rw [scan, List.foldlM_append]
      simp only [List.foldlM_cons, List.foldlM_nil, bind_pure]
      rfl
    rw [hstep, ih, supported_concat]
    by_cases hs : Supported s ∧ Fits s
    · rw [if_pos hs, Option.bind_eq_bind, Option.bind_some, put, length_acc_pri, length_acc_cas,
        length_acc_spc]
      by_cases hc : ign c = 0
      · -- a character that is not ignored
        rw [if_neg (not_not.mpr hc), fits_concat_pos hc]
        by_cases hpri : pri c = 0
        · rw [if_pos hpri, if_neg fun h => h.1.2.elim (absurd hc) (absurd hpri)]
        · rw [if_neg hpri]
          by_cases hle : (letters s).length ≤ 508
          · rw [if_neg (by omega), if_pos ⟨⟨hs.1, .inr hpri⟩, hs.2, hle⟩, acc_concat_pos hc]
          · rw [if_pos (by omega), if_neg fun h => hle h.2.2]
      · rw [if_pos hc, fits_concat_neg hc]
        by_cases hle : (ignorables 0 s).length ≤ 254 ∧ (letters s).length < 128
        · have hroom : ¬(1018 < 4 * (ignorables 0 s).length ∨ 0x80 ≤ (acc s).nbefore) := by
            have hn : (acc s).nbefore = (letters s).length := rfl
            omega
          rw [if_neg hroom, if_pos ⟨⟨hs.1, .inl hc⟩, hs.2, hle⟩, acc_concat_neg hc]
        · have hfull : 1018 < 4 * (ignorables 0 s).length ∨ 0x80 ≤ (acc s).nbefore := by
            have hn : (acc s).nbefore = (letters s).length := rfl
            omega
          rw [if_pos hfull, if_neg fun h => hle h.2.2]
    · -- the loop has ended before
      rw [if_neg hs, Option.bind_eq_bind, Option.bind_none, if_neg]
      rintro ⟨⟨hsup, -⟩, hfits⟩
      refine hs ⟨hsup, ?_⟩
      by_cases hc : ign c = 0
      · exact ((fits_concat_pos hc).mp hfits).1
      · exact ((fits_concat_neg hc).mp hfits).1

/-! ### The order of the keys -/

def Sortable (s : List UInt16) : Prop := Supported s ∧ Fits s

theorem sortkey_of_sortable (h : Sortable s) (ic : Bool) :
    sortkey s ic = some ((acc s).key ic) := by
  rw [sortkey, scan_eq, if_pos ⟨h.1, h.2⟩]
  rfl

theorem sortkey_of_not (h : ¬Sortable s) (ic : Bool) : sortkey s ic = none := by
  have hnot : ¬(Supported s ∧ Fits s) := h
  rw [sortkey, scan_eq, if_neg hnot]
  rfl

theorem pri_bytes (hc : pri c ≠ 0) :
    1 < pri c / 256 ∧ 1 < pri c % 256 ∧ pri c < 65536 := by
  have htable : ∀ w ∈ priTable, w ≠ 0 → 1 < w / 256 ∧ 1 < w % 256 ∧ w < 65536 := by
    decide +kernel
  refine htable (pri c) ?_ hc
  rw [pri] at hc ⊢
  split_ifs at hc with hlt
  · exact absurd rfl hc
  · rw [if_neg hlt]
    rw [List.getD_eq_getElem?_getD] at hc ⊢
    cases hget : priTable[c.toNat]? with
    | none =>
      rw [hget] at hc
      exact absurd rfl hc
    | some w => exact List.mem_of_getElem? hget

theorem compare_bytes (w w' : ℕ) :
    compare w w' = (compare (w / 256) (w' / 256)).then (compare (w % 256) (w' % 256)) := by
  rcases lt_trichotomy (w / 256) (w' / 256) with hlt | heq | hgt
  · rw [Nat.compare_eq_lt.mpr hlt, Nat.compare_eq_lt.mpr (by omega), Ordering.lt_then]
  · rw [Nat.compare_eq_eq.mpr heq, Ordering.eq_then]
    simp only [Nat.compare_eq_ite_lt]
    split_ifs <;> first | rfl | omega
  · rw [Nat.compare_eq_gt.mpr hgt, Nat.compare_eq_gt.mpr (by omega), Ordering.gt_then]

theorem lex_priBytes {w w' : ℕ} (hw : w < 65536) (hw' : w' < 65536) (a b : List ℕ) :
    lex compare (priBytes w ++ a) (priBytes w' ++ b) =
      (compare w w').then (lex compare a b) := by
  have hmod : w / 256 % 256 = w / 256 := Nat.mod_eq_of_lt (by omega)
  have hmod' : w' / 256 % 256 = w' / 256 := Nat.mod_eq_of_lt (by omega)
  rw [priBytes, priBytes, hmod, hmod', compare_bytes w w', Ordering.then_assoc]
  simp only [List.cons_append, List.nil_append, lex_cons]

theorem lex_spcBytes {p q : ℕ × ℕ} (hp : p.1 < 128) (hq : q.1 < 128) (a b : List ℕ) :
    lex compare (spcBytes p ++ a) (spcBytes q ++ b) = (ignOrder p q).then (lex compare a b) := by
  have hpos : compare ((0xff - p.1) % 256) ((0xff - q.1) % 256) = compare q.1 p.1 := by
    rw [Nat.compare_eq_ite_lt, Nat.compare_eq_ite_lt]
    split_ifs <;> first | rfl | omega
  rw [spcBytes, spcBytes]
  simp only [List.cons_append, List.nil_append, lex_cons_self]
  rw [lex_cons, lex_cons, lex_cons_self, hpos, ignOrder, Ordering.then_assoc]

theorem mem_primary {w : ℕ} (h : Supported s) (hw : w ∈ primary s) :
    1 < w / 256 ∧ 1 < w % 256 ∧ w < 65536 := by
  obtain ⟨c, hc, rfl⟩ := List.mem_map.mp hw
  obtain ⟨hmem, hign⟩ := List.mem_filter.mp hc
  exact pri_bytes ((h c hmem).resolve_left (not_not.mpr (of_decide_eq_true hign)))

theorem mem_flatMap_priBytes (h : Supported s) : ∀ b ∈ (acc s).pri, compare 1 b = .lt := by
  intro b hb
  obtain ⟨w, hw, hbw⟩ := List.mem_flatMap.mp hb
  obtain ⟨hhigh, hlow, hlt⟩ := mem_primary h hw
  rw [Nat.compare_eq_lt]
  rcases List.mem_cons.mp hbw with rfl | hbw
  · omega
  · rwa [List.mem_singleton.mp hbw]

theorem mem_cases {b : ℕ} (hb : b ∈ cases s) : b = 2 ∨ compare 2 b = .lt := by
  obtain ⟨c, -, rfl⟩ := List.mem_map.mp hb
  rw [cas]
  split_ifs
  · exact .inr rfl
  · exact .inl rfl

theorem mem_trim_cases : ∀ b ∈ trim 2 (acc s).cas, compare 1 b = .lt := by
  intro b hb
  have hmem : b ∈ cases s := (List.rdropWhile_prefix _ _).subset hb
  rcases mem_cases hmem with rfl | hlt
  · rfl
  · exact Nat.compare_eq_lt.mpr (lt_trans one_lt_two (Nat.compare_eq_lt.mp hlt))

theorem mem_ignorables {p : ℕ × ℕ} {n : ℕ} (hp : p ∈ ignorables n s) : p.2 ≠ 0 := by
  induction s generalizing n with
  | nil => exact absurd hp List.not_mem_nil
  | cons c s ih =>
    rw [ignorables] at hp
    split_ifs at hp with hc
    · rcases List.mem_cons.mp hp with rfl | hp
      · exact hc
      · exact ih hp
    · exact ih hp

theorem mem_flatMap_spcBytes (h : Fits s) : ∀ b ∈ (acc s).spc, compare 0 b = .lt := by
  intro b hb
  obtain ⟨p, hp, hbp⟩ := List.mem_flatMap.mp hb
  have hearly := h.early p hp
  have hign := mem_ignorables hp
  rw [Nat.compare_eq_lt]
  simp only [spcBytes, List.mem_cons, List.not_mem_nil, or_false] at hbp
  omega

theorem lex_key (hs : Sortable s) (ht : Sortable t) (ic : Bool) :
    lex compare ((acc s).key ic) ((acc t).key ic) = levelOrder ic s t := by
  have hpri : lex compare (acc s).pri (acc t).pri = lex compare (primary s) (primary t) :=
    lex_flatMap (fun w => List.cons_ne_nil _ _) fun w hw w' hw' =>
      lex_priBytes (mem_primary hs.1 hw).2.2 (mem_primary ht.1 hw').2.2
  have hspc : lex compare (acc s).spc (acc t).spc =
      lex ignOrder (ignorables 0 s) (ignorables 0 t) :=
    lex_flatMap (fun p => List.cons_ne_nil _ _) fun p hp q hq =>
      lex_spcBytes (hs.2.early p hp) (ht.2.early q hq)
  have hcas : lex compare (trim 2 (acc s).cas) (trim 2 (acc t).cas) =
      lexPad compare 2 (cases s) (cases t) :=
    lex_trim (fun b hb => mem_cases hb) fun b hb => mem_cases hb
  have hlast : lex compare ((acc s).spc ++ [0]) ((acc t).spc ++ [0]) =
      lex ignOrder (ignorables 0 s) (ignorables 0 t) := by
    rw [lex_sep (mem_flatMap_spcBytes hs.2) (mem_flatMap_spcBytes ht.2), lex_nil, Ordering.then_eq,
      hspc]
  rw [Acc.key, Acc.key, levelOrder]
  cases ic with
  | true =>
    simp only [List.append_assoc, List.cons_append, List.nil_append, if_true]
    rw [lex_sep (mem_flatMap_priBytes hs.1) (mem_flatMap_priBytes ht.1), lex_cons_self,
      lex_cons_self, lex_cons_self, hlast, hpri, Ordering.eq_then]
  | false =>
    simp only [List.append_assoc, List.cons_append, List.nil_append, Bool.false_eq_true, if_false]
    rw [lex_sep (mem_flatMap_priBytes hs.1) (mem_flatMap_priBytes ht.1), lex_cons_self,
      lex_sep mem_trim_cases mem_trim_cases, lex_cons_self, hlast, hpri, hcas]

/-! ### The comparison -/

variable {a b : Arg UInt16} {ic : Bool}

theorem sign_memcmp {ka kb : List ℕ} :
    (let m := min ka.length kb.length
     let c := memcmp ka kb m
     let c := if c = 0 then (ka.length : ℤ) - kb.length else c
     if c < 0 then -1 else if c > 0 then 1 else 0) = sign (lex compare ka kb) := by
  dsimp only
  rw [lex_take, memcmp]
  cases lex compare (ka.take (min ka.length kb.length)) (kb.take (min ka.length kb.length)) with
  | lt => rfl
  | gt => rfl
  | eq =>
    -- the keys agree, and the lengths decide
    rw [Ordering.eq_then, sign, if_pos rfl]
    rcases lt_trichotomy ka.length kb.length with hlt | heq | hgt
    · rw [Nat.compare_eq_lt.mpr hlt, if_pos (by omega)]
      rfl
    · rw [Nat.compare_eq_eq.mpr heq, if_neg (by omega), if_neg (by omega)]
      rfl
    · rw [Nat.compare_eq_gt.mpr hgt, if_neg (by omega), if_pos (by omega)]
      rfl

theorem collate_eq (ha : Sortable a.text) (hb : Sortable b.text) :
    collate a b ic = sign (levelOrder ic a.text b.text) := by
  rw [collate, sortkey_of_sortable ha, sortkey_of_sortable hb, ← lex_key ha hb]
  exact sign_memcmp

theorem collate_of_not (h : ¬(Sortable a.text ∧ Sortable b.text)) : collate a b ic = -2 := by
  by_cases ha : Sortable a.text
  · rw [collate, sortkey_of_not fun hb => h ⟨ha, hb⟩]
    cases sortkey a.text ic with
    | none => rfl
    | some ka => rfl
  · rw [collate, sortkey_of_not ha]

theorem sign_inj {o o' : Ordering} (h : sign o = sign o') : o = o' := by
  cases o <;> cases o' <;> first | rfl | exact absurd h (by decide)

theorem sign_swap (o : Ordering) : sign o.swap = -sign o := by
  cases o with
  | lt => rfl
  | eq => rfl
  | gt => rfl

theorem sign_le {o : Ordering} : sign o ≤ 0 ↔ o.isLE := by
  cases o with
  | lt => exact ⟨fun _ => rfl, fun _ => by decide⟩
  | eq => exact ⟨fun _ => rfl, fun _ => le_refl 0⟩
  | gt => exact ⟨fun h => absurd h (by decide), fun h => absurd h (by decide)⟩

theorem sortable_of_collate (h : collate a b ic ≠ -2) : Sortable a.text ∧ Sortable b.text := by
  by_contra hnot
  exact h (collate_of_not hnot)

theorem primary_of_collate (h : collate a b ic = 0) : primary a.text = primary b.text := by
  have hne : collate a b ic ≠ -2 := by
    rw [h]
    decide
  obtain ⟨ha, hb⟩ := sortable_of_collate hne
  rw [collate_eq ha hb] at h
  have horder : levelOrder ic a.text b.text = .eq := sign_inj h
  rw [levelOrder, Ordering.then_eq_eq] at horder
  exact Std.LawfulEqCmp.compare_eq_iff_eq.mp horder.1

theorem levelOrder_self (hs : Sortable s) : levelOrder ic s s = .eq := by
  rw [← lex_key hs hs]
  exact Std.ReflCmp.compare_self

theorem levelOrder_swap (hs : Sortable s) (ht : Sortable t) :
    levelOrder ic t s = (levelOrder ic s t).swap := by
  rw [← lex_key hs ht, ← lex_key ht hs]
  exact Std.OrientedCmp.eq_swap

theorem levelOrder_trans {u : List UInt16} (hs : Sortable s) (ht : Sortable t) (hu : Sortable u)
    (hst : (levelOrder ic s t).isLE) (htu : (levelOrder ic t u).isLE) :
    (levelOrder ic s u).isLE := by
  rw [← lex_key hs ht] at hst
  rw [← lex_key ht hu] at htu
  rw [← lex_key hs hu]
  exact Std.TransCmp.isLE_trans hst htu

/-! ### Narrow strings -/

theorem widen_eq (s : List UInt8) :
    widen s = if (∀ b ∈ s, b < 0x80) ∧ s.length ≤ 1199 then some (s.map UInt8.toUInt16)
      else none := by
  induction s using List.reverseRecOn with
  | nil =>
    rw [if_pos ⟨fun b hb => absurd hb List.not_mem_nil, Nat.zero_le _⟩]
    rfl
  | append_singleton s b ih =>
    have hstep : widen (s ++ [b]) = widen s >>= fun w =>
        if 0x80 ≤ b ∨ 1199 ≤ w.length then none else some (w ++ [b.toUInt16]) := by
      rw [widen, List.foldlM_append]
      simp only [List.foldlM_cons, List.foldlM_nil, bind_pure]
      rfl
    have hiff : ((∀ x ∈ s ++ [b], x < 0x80) ∧ (s ++ [b]).length ≤ 1199) ↔
        ((∀ x ∈ s, x < 0x80) ∧ b < 0x80) ∧ s.length < 1199 := by
      rw [List.forall_mem_append, List.forall_mem_singleton, List.length_append,
        List.length_singleton]
      rfl
    rw [hstep, ih]
    by_cases hs : (∀ x ∈ s, x < 0x80) ∧ s.length ≤ 1199
    · rw [if_pos hs, Option.bind_eq_bind, Option.bind_some, List.length_map]
      by_cases hb : b < 0x80 ∧ s.length < 1199
      · have hok : ¬(0x80 ≤ b ∨ 1199 ≤ s.length) :=
          fun h => h.elim (UInt8.not_le.mpr hb.1) (Nat.not_le.mpr hb.2)
        rw [if_neg hok, if_pos (hiff.mpr ⟨⟨hs.1, hb.1⟩, hb.2⟩), List.map_append]
        rfl
      · have hbad : 0x80 ≤ b ∨ 1199 ≤ s.length := by
          by_contra hno
          rw [not_or, UInt8.not_le, Nat.not_le] at hno
          exact hb hno
        rw [if_pos hbad, if_neg fun h => hb ⟨(hiff.mp h).1.2, (hiff.mp h).2⟩]
    · rw [if_neg hs, Option.bind_eq_bind, Option.bind_none, if_neg]
      exact fun h => hs ⟨(hiff.mp h).1.1, (hiff.mp h).2.le⟩

def Arg.widened (a : Arg UInt8) : Arg UInt16 := ⟨a.units.map UInt8.toUInt16, a.counted⟩

theorem text_widened (a : Arg UInt8) :
    Arg.text ⟨a.bytes.map UInt8.toUInt16, true⟩ = a.widened.text := by
  have hzero : ((fun u : UInt16 => decide (u ≠ 0)) ∘ UInt8.toUInt16) =
      fun b : UInt8 => decide (b ≠ 0) := by
    funext b
    have hiff : b.toUInt16 = 0 ↔ b = 0 := by
      rw [← UInt16.toNat_inj, ← UInt8.toNat_inj, UInt8.toNat_toUInt16]
      rfl
    exact decide_eq_decide.mpr (not_congr hiff)
  rw [Arg.text, Arg.text, Arg.widened, List.takeWhile_map, List.takeWhile_map, hzero, Arg.bytes]
  split_ifs
  · rfl
  · rw [List.takeWhile_takeWhile]
    simp only [decide_eq_true_eq, and_self]

theorem collate_congr {a' b' : Arg UInt16} (ha : a.text = a'.text) (hb : b.text = b'.text) :
    collate a b ic = collate a' b' ic := by
  rw [collate, collate, ha, hb]

theorem collate_widened {a b : Arg UInt8} {w w' : List UInt16} (ha : widen a.bytes = some w)
    (hb : widen b.bytes = some w') :
    collate ⟨w, true⟩ ⟨w', true⟩ ic = collate a.widened b.widened ic := by
  rw [widen_eq] at ha hb
  split_ifs at ha hb
  obtain rfl := Option.some.inj ha
  obtain rfl := Option.some.inj hb
  exact collate_congr (text_widened a) (text_widened b)

/-- A narrow string that `aret_CompareStringA` compares. -/
structure Narrow (a : Arg UInt8) : Prop where
  ascii : ∀ b ∈ a.bytes, b < 0x80
  short : a.bytes.length ≤ 1199

theorem compareStringA_of_narrow {flags : UInt32} {a b : Arg UInt8} (hflags : flags &&& ~~~1 = 0)
    (ha : Narrow a) (hb : Narrow b) :
    compareStringA flags (some a) (some b) =
      cstr (collate a.widened b.widened (flags &&& 1 != 0)) := by
  rw [compareStringA, if_neg (not_not.mpr hflags)]
  simp only [widen_eq]
  rw [if_pos ⟨ha.ascii, ha.short⟩, if_pos ⟨hb.ascii, hb.short⟩]
  exact congrArg cstr (collate_congr (text_widened a) (text_widened b))

theorem compareStringW_of_A {flags : UInt32} {a b : Option (Arg UInt8)} {r : ℕ}
    (h : compareStringA flags a b = some r) :
    compareStringW flags (a.map Arg.widened) (b.map Arg.widened) = some r := by
  unfold compareStringA at h
  unfold compareStringW
  split_ifs at h ⊢ with hflags
  rcases a with - | a
  · exact h
  rcases b with - | b
  · exact h
  dsimp only [Option.map_some] at h ⊢
  cases ha : widen a.bytes with
  | none =>
    rw [ha] at h
    cases h
  | some w =>
    cases hb : widen b.bytes with
    | none =>
      rw [ha, hb] at h
      cases h
    | some w' =>
      rw [ha, hb] at h
      dsimp only at h
      rw [collate_widened ha hb] at h
      split_ifs with hfast
      · -- equal texts that have keys compare as equal
        obtain ⟨-, htext⟩ := Bool.and_eq_true_iff.mp hfast
        have heq : a.widened.text = b.widened.text := beq_iff_eq.mp htext
        rw [cstr] at h
        split_ifs at h with hnot hlt hgt
        · obtain ⟨hsa, hsb⟩ := sortable_of_collate hnot
          rw [collate_eq hsa hsb, heq, levelOrder_self hsb] at hlt
          exact absurd hlt (lt_irrefl 0)
        · obtain ⟨hsa, hsb⟩ := sortable_of_collate hnot
          rw [collate_eq hsa hsb, heq, levelOrder_self hsb] at hgt
          exact absurd hgt (lt_irrefl 0)
        · exact h
      · exact h

/-! ### The law -/

theorem scan_within {r : Acc} (h : scan s = some r) (ic : Bool) :
    r.pri.length ≤ 1024 ∧ r.cas.length ≤ 512 ∧ r.spc.length ≤ 1024 ∧
      (r.key ic).length ≤ 2600 := by
  classical
  rw [scan_eq] at h
  split_ifs at h with hsort
  obtain rfl := Option.some.inj h
  have hshort := hsort.2.short
  have hfew := hsort.2.few
  have hpri := length_acc_pri (s := s)
  have hcas := length_acc_cas (s := s)
  have hspc := length_acc_spc (s := s)
  have htrim : (if ic then [] else trim 2 (acc s).cas).length ≤ (acc s).cas.length := by
    split_ifs
    · exact Nat.zero_le _
    · exact (List.rdropWhile_prefix _ _).length_le
  have hkey : ((acc s).key ic).length = (acc s).pri.length +
      (if ic then [] else trim 2 (acc s).cas).length + (acc s).spc.length + 5 := by
    rw [Acc.key]
    simp only [List.length_append, List.length_cons, List.length_nil]
    omega
  omega

theorem lstrcmp_eq (hs : Sortable s) (ht : Sortable t) (hzs : 0 ∉ s) (hzt : 0 ∉ t) :
    lstrcmp ic (some s) (some t) = some (sign (levelOrder ic s t)) := by
  have htext : ∀ u : List UInt16, 0 ∉ u → Arg.text ⟨u, false⟩ = u := fun u hu =>
    List.takeWhile_eq_self_iff.mpr fun c hc => decide_eq_true fun h0 => hu (h0 ▸ hc)
  have hne : ∀ o, sign o ≠ -2 := by
    intro o
    cases o <;> decide
  have hcollate : collate ⟨s, false⟩ ⟨t, false⟩ ic = sign (levelOrder ic s t) := by
    have hs' : Sortable (Arg.text ⟨s, false⟩) := (htext s hzs).symm ▸ hs
    have ht' : Sortable (Arg.text ⟨t, false⟩) := (htext t hzt).symm ▸ ht
    rw [collate_eq hs' ht', htext s hzs, htext t hzt]
  rw [lstrcmp]
  split_ifs with heq
  · rw [wstrEq, htext s hzs, htext t hzt, beq_iff_eq] at heq
    rw [heq, levelOrder_self ht]
    rfl
  · dsimp only
    rw [hcollate, if_neg (hne _)]

structure LevelWise : Prop where
  /-- A comparison has the sign of the order of the levels. -/
  levels : ∀ (a b : Arg UInt16) (ic : Bool), Sortable a.text → Sortable b.text →
    collate a b ic = sign (levelOrder ic a.text b.text)
  /-- All other strings are refused. -/
  refused : ∀ (a b : Arg UInt16) (ic : Bool), ¬(Sortable a.text ∧ Sortable b.text) →
    collate a b ic = -2
  refl : ∀ (a : Arg UInt16) (ic : Bool), Sortable a.text → collate a a ic = 0
  swap : ∀ (a b : Arg UInt16) (ic : Bool), Sortable a.text → Sortable b.text →
    collate b a ic = -collate a b ic
  trans : ∀ (a b c : Arg UInt16) (ic : Bool), Sortable a.text → Sortable b.text →
    Sortable c.text → collate a b ic ≤ 0 → collate b c ic ≤ 0 → collate a c ic ≤ 0
  primary : ∀ (a b : Arg UInt16) (ic : Bool), collate a b ic = 0 →
    primary a.text = primary b.text
  strings : ∀ (s t : List UInt16) (ic : Bool), Sortable s → Sortable t → 0 ∉ s → 0 ∉ t →
    lstrcmp ic (some s) (some t) = some (sign (levelOrder ic s t))
  /-- The narrow comparison of a string within the limits, and of no more than 1199 bytes, gives a
  result. -/
  narrow : ∀ (flags : UInt32) (a b : Arg UInt8), flags &&& ~~~1 = 0 → Narrow a → Narrow b →
    Sortable a.widened.text → Sortable b.widened.text →
    compareStringA flags (some a) (some b) =
      cstr (sign (levelOrder (flags &&& 1 != 0) a.widened.text b.widened.text))
  /-- Each result of the narrow comparison is that of the wide one. -/
  agree : ∀ (flags : UInt32) (a b : Option (Arg UInt8)) (r : ℕ),
    compareStringA flags a b = some r →
    compareStringW flags (a.map Arg.widened) (b.map Arg.widened) = some r
  /-- No buffer and no key is exceeded, after any units of a string. -/
  within : ∀ (s : List UInt16) (r : Acc) (ic : Bool), scan s = some r →
    r.pri.length ≤ 1024 ∧ r.cas.length ≤ 512 ∧ r.spc.length ≤ 1024 ∧ (r.key ic).length ≤ 2600

theorem collate_levelWise : LevelWise where
  levels _ _ _ ha hb := collate_eq ha hb
  refused _ _ _ h := collate_of_not h
  refl a ic ha := by
    rw [collate_eq ha ha, levelOrder_self ha]
    rfl
  swap a b ic ha hb := by
    rw [collate_eq hb ha, collate_eq ha hb, levelOrder_swap ha hb, sign_swap]
  trans a b c ic ha hb hc hab hbc := by
    rw [collate_eq ha hb, sign_le] at hab
    rw [collate_eq hb hc, sign_le] at hbc
    rw [collate_eq ha hc, sign_le]
    exact levelOrder_trans ha hb hc hab hbc
  primary _ _ _ h := primary_of_collate h
  strings _ _ _ hs ht hzs hzt := lstrcmp_eq hs ht hzs hzt
  narrow flags a b hflags ha hb hsa hsb := by
    rw [compareStringA_of_narrow hflags ha hb, collate_eq hsa hsb]
  agree _ _ _ _ h := compareStringW_of_A h
  within _ _ ic h := scan_within h ic

/-- A text of 510 letters has no key. -/
theorem not_collate_levels :
    ¬∀ (a b : Arg UInt16) (ic : Bool), Supported a.text → Supported b.text →
      collate a b ic = sign (levelOrder ic a.text b.text) := by
  intro h
  let a : Arg UInt16 := ⟨List.replicate 510 97, false⟩
  have htext : a.text = List.replicate 510 97 :=
    List.takeWhile_eq_self_iff.mpr fun c hc => by
      rw [List.eq_of_mem_replicate hc]
      decide
  have hsup : Supported a.text := by
    intro c hc
    rw [htext] at hc
    rw [List.eq_of_mem_replicate hc]
    exact .inr (by decide)
  have hlong : ¬(Sortable a.text ∧ Sortable a.text) := by
    rintro ⟨⟨-, hfits⟩, -⟩
    have hshort := hfits.short
    rw [htext, letters, List.filter_replicate_of_pos (by decide), List.length_replicate] at hshort
    omega
  have hcollate := h a a false hsup hsup
  rw [collate_of_not hlong] at hcollate
  cases horder : levelOrder false a.text a.text <;> rw [horder] at hcollate <;>
    exact absurd hcollate (by decide)

end Aret.Collate
