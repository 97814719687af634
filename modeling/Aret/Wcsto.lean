/-
`wcstol` and `wcstoul`, which narrow a wide text and read the copy.

* `wcsto_exact_iff` — the copy is read like the text itself exactly where it has the same
  numbers and the library knows the base.
-/
import Aret.Strto

namespace Aret.Wcsto

open Strto (Text Supported Form scan scanEnd)

/-- The units of a wide text before its terminator. -/
structure WStr where
  units : List UInt16
  noNul : 0 ∉ units

/-- The buffer `nb`, up to its first NUL. -/
def narrowed (s : WStr) : Text :=
  ((s.units.take 127).map fun u => u.toNat % 2 ^ 8).takeWhile (· ≠ 0)

/-- The conversions of the library for a text of the host, where a `long` has 32 bits. -/
def convert (sign : Bool) (base : ℤ) (t : Text) : UInt32 × Option ℕ :=
  if sign then
    (UInt32.ofNat ((Strto.strtol 32 base t).1 % 2 ^ 32).toNat, (Strto.strtol 32 base t).2)
  else (UInt32.ofNat (Strto.strtoul 32 base t).1, (Strto.strtoul 32 base t).2)

/-- `aret_wcsto_impl`: the value, and the unit that the end pointer is set to, if there is one.
`stale` is what `end` holds before the library sets it, which for some bases it does not. -/
def wcstoImpl (sign : Bool) (base : ℤ) (pend : Bool) (stale : ℤ) (s : WStr) :
    UInt32 × Option ℤ :=
  let v := convert sign base (narrowed s)
  (v.1, if pend then some (v.2.elim stale (↑)) else none)

/-- The text itself, where a unit of 128 and more is no digit, letter or blank. -/
def parsed (sign : Bool) (base : ℤ) (pend : Bool) (s : WStr) : UInt32 × Option ℤ :=
  let v := convert sign base (s.units.map UInt16.toNat)
  (v.1, if pend then v.2.map (↑) else none)

def isNumber (base : ℕ) (t : Text) : Bool := (scan base t).any fun n => n.length = t.length

/-- A number that the narrowed units start with has no unit of 128 or more, and a number that the
units themselves start with has at most 127 of them. -/
def Narrowable (base : ℕ) (s : WStr) : Prop :=
  ∀ v, v <+: s.units →
    (v.length ≤ 127 → isNumber base (v.map fun u => u.toNat % 2 ^ 8) → ∀ u ∈ v, u.toNat < 128) ∧
      (isNumber base (v.map UInt16.toNat) → v.length ≤ 127)

variable {base : ℕ} {s : WStr} {t u : Text}

theorem isNumber_iff (hb : base ≤ 36) : isNumber base t ↔ ∃ n, Form base t n := by
  rw [isNumber, Option.any_eq_true]
  constructor
  · rintro ⟨n, hn, hlen⟩
    obtain ⟨u, hu, hform⟩ := Strto.form_of_scan hn
    have hsame : u = t := hu.eq_of_length (hform.length_eq.symm.trans (of_decide_eq_true hlen))
    exact ⟨n, hsame ▸ hform⟩
  · rintro ⟨n, hform⟩
    exact ⟨n, Strto.scan_form hform hb, decide_eq_true hform.length_eq⟩

theorem prefix_narrowed_iff (h0 : 0 ∉ u) :
    u <+: narrowed s ↔
      ∃ v, v <+: s.units ∧ v.length ≤ 127 ∧ v.map (fun u => u.toNat % 2 ^ 8) = u := by
  constructor
  · intro h
    have hcopy : u <+: (s.units.take 127).map fun u => u.toNat % 2 ^ 8 :=
      h.trans (List.takeWhile_prefix _)
    refine ⟨(s.units.take 127).take u.length, ?_, ?_, ?_⟩
    · exact (List.take_prefix _ _).trans (List.take_prefix _ _)
    · rw [List.length_take, List.length_take]
      omega
    · rw [List.map_take]
      exact (List.prefix_iff_eq_take.mp hcopy).symm
  · rintro ⟨v, hv, hlen, rfl⟩
    obtain ⟨rest, hrest⟩ := (List.prefix_take_iff.mpr ⟨hv, hlen⟩).map fun u => u.toNat % 2 ^ 8
    have hpos : ∀ c ∈ v.map (fun u => u.toNat % 2 ^ 8), decide (c ≠ 0) = true := by
      intro c hc
      refine decide_eq_true ?_
      rintro rfl
      exact h0 hc
    rw [narrowed, ← hrest, List.takeWhile_append_of_pos hpos]
    exact List.prefix_append _ _

theorem convert_snd {base : ℤ} (hbase : Supported base) (sign : Bool) (t : Text) :
    (convert sign base t).2 = some (scanEnd base.toNat t) := by
  have hlong : (Strto.strtol 32 base t).2 =
      some (scanEnd base.toNat t) := by
    rw [Strto.strtol, if_pos hbase, scanEnd]
    cases scan base.toNat t <;> rfl
  have hulong : (Strto.strtoul 32 base t).2 =
      some (scanEnd base.toNat t) := by
    rw [Strto.strtoul, if_pos hbase, scanEnd]
    cases scan base.toNat t <;> rfl
  cases sign
  · exact hulong
  · exact hlong

theorem convert_congr {base : ℤ} {t t' : Text} (sign : Bool)
    (h : scan base.toNat t = scan base.toNat t') : convert sign base t = convert sign base t' := by
  rw [convert, convert, Strto.strtol, Strto.strtol, Strto.strtoul, Strto.strtoul, h]

theorem map_eq_of_lt {v : List UInt16} (h : ∀ u ∈ v, u.toNat < 128) :
    v.map (fun u => u.toNat % 2 ^ 8) = v.map UInt16.toNat := by
  refine List.map_congr_left fun u hu => ?_
  have hlt := h u hu
  exact Nat.mod_eq_of_lt (by omega)

theorem scan_narrowed (hb : base ≤ 36) (h : Narrowable base s) :
    scan base (narrowed s) = scan base (s.units.map UInt16.toNat) := by
  refine Strto.scan_congr hb fun u n hform => ?_
  have hchars := hform.lt hb
  rw [prefix_narrowed_iff fun h0 => (hchars 0 h0).2 rfl]
  constructor
  · rintro ⟨v, hv, hlen, rfl⟩
    have hsmall := (h v hv).1 hlen ((isNumber_iff hb).mpr ⟨n, hform⟩)
    rw [map_eq_of_lt hsmall]
    exact hv.map _
  · intro hu
    obtain ⟨v, hv, rfl⟩ : ∃ v, v <+: s.units ∧ v.map UInt16.toNat = u := by
      refine ⟨s.units.take u.length, List.take_prefix _ _, ?_⟩
      rw [List.map_take]
      exact (List.prefix_iff_eq_take.mp hu).symm
    refine ⟨v, hv, (h v hv).2 ((isNumber_iff hb).mpr ⟨n, hform⟩), map_eq_of_lt fun u hu => ?_⟩
    exact (hchars _ (List.mem_map_of_mem hu)).1

theorem narrowable_of_end (hb : base ≤ 36)
    (h : scanEnd base (narrowed s) = scanEnd base (s.units.map UInt16.toNat)) :
    Narrowable base s := by
  intro v hv
  have htext : v.map UInt16.toNat <+: s.units.map UInt16.toNat := hv.map _
  constructor
  · intro hlen hnum
    obtain ⟨n, hform⟩ := (isNumber_iff hb).mp hnum
    have hprefix : v.map (fun u => u.toNat % 2 ^ 8) <+: narrowed s := by
      refine (prefix_narrowed_iff fun h0 => ?_).mpr ⟨v, hv, hlen, rfl⟩
      exact (hform.lt hb 0 h0).2 rfl
    have hle := Strto.length_le_scanEnd hb hform hprefix
    have hpos := hform.length_pos
    -- the text itself has a number that is as long, and all units of `v` are in it
    obtain ⟨u, m, hu, hform', hend⟩ :=
      Strto.exists_form_of_scanEnd (h ▸ hpos.trans_le hle)
    rw [List.length_map, h, ← hend] at hle
    have hin : v.map UInt16.toNat <+: u :=
      List.prefix_of_prefix_length_le htext hu (by rwa [List.length_map])
    intro c hc
    exact (hform'.lt hb _ (hin.subset (List.mem_map_of_mem hc))).1
  · intro hnum
    obtain ⟨n, hform⟩ := (isNumber_iff hb).mp hnum
    have hle := Strto.length_le_scanEnd hb hform htext
    have hpos := hform.length_pos
    rw [← h] at hle
    -- the copy has a number that is as long, and it has at most 127 characters
    obtain ⟨u, m, hu, -, hend⟩ := Strto.exists_form_of_scanEnd (hpos.trans_le hle)
    have hcopy : (narrowed s).length ≤ 127 := by
      refine (List.takeWhile_prefix _).length_le.trans ?_
      rw [List.length_map]
      exact List.length_take_le _ _
    rw [List.length_map, ← hend] at hle
    exact hle.trans (hu.length_le.trans hcopy)

theorem convert_of_not_supported {base : ℤ} (hbase : ¬Supported base) (sign : Bool) (t : Text) :
    convert sign base t = (0, none) := by
  rw [convert, Strto.strtol, Strto.strtoul, if_neg hbase, if_neg hbase]
  cases sign <;> rfl

/-- With an end pointer, the value and the unit it is set to are those of the text itself exactly
where the library knows the base and the copy has the same numbers.  Without one the value is, where
the copy has the same numbers, and for a base that the library does not know. -/
theorem wcsto_exact_iff (sign : Bool) (base stale : ℤ) (s : WStr) :
    (wcstoImpl sign base true stale s = parsed sign base true s ↔
        Supported base ∧ Narrowable base.toNat s) ∧
      ((Supported base → Narrowable base.toNat s) →
        wcstoImpl sign base false stale s = parsed sign base false s) := by
  have hsame : Supported base → Narrowable base.toNat s →
      convert sign base (narrowed s) = convert sign base (s.units.map UInt16.toNat) :=
    fun hbase h => convert_congr sign (scan_narrowed hbase.le h)
  refine ⟨⟨fun h => ?_, fun ⟨hbase, h⟩ => ?_⟩, fun h => ?_⟩
  · have hend := congrArg Prod.snd h
    rw [wcstoImpl, parsed] at hend
    by_cases hbase : Supported base
    · rw [convert_snd hbase, convert_snd hbase] at hend
      exact ⟨hbase, narrowable_of_end hbase.le (Int.ofNat_inj.mp (Option.some.inj hend))⟩
    · rw [convert_of_not_supported hbase, convert_of_not_supported hbase] at hend
      exact nomatch hend
  · rw [wcstoImpl, parsed, hsame hbase h, convert_snd hbase]
    rfl
  · rw [wcstoImpl, parsed]
    by_cases hbase : Supported base
    · rw [hsame hbase (h hbase)]
      rfl
    · rw [convert_of_not_supported hbase, convert_of_not_supported hbase]
      rfl

/-- A unit of 0x132 is narrowed to the digit 2. -/
theorem not_wcsto_exact :
    ¬∀ (sign : Bool) (base stale : ℤ) (s : WStr),
      wcstoImpl sign base true stale s = parsed sign base true s := by
  intro h
  exact absurd (h true 10 0 ⟨[0x31, 0x132], by decide⟩) (by decide)

end Aret.Wcsto
