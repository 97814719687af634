/-
The bounded `printf` family.

Each function formats into a scratch buffer and copies what is there to its destination.

* `printf_exact_iff` — for which texts and sizes they are honoured.

Design notes: a buffer is the list of its units, and a store or a read outside it fails.
-/
import Aret.OutBuf
import Aret.VformatExact

namespace Aret.Printf

open Vformat OutBuf

/-! ### Capacities -/

variable {libc : Snprintf} {e : Args} {v : Version}

theorem copyOut_take {cap cap' : ℕ} {out out' : Units} {text : Option Units} (hcap : cap ≤ cap')
    (hout : out.length ≤ cap - 1) (h : copyOut v cap' out text = some out') :
    copyOut v cap out text = some (out'.take (cap - 1)) := by
  rw [copyOut] at h ⊢
  generalize text.getD [] = t at h ⊢
  generalize t.take (v.tmpSize - 1) ++ [0] = tmp at h ⊢
  split_ifs at h with hread
  obtain rfl := Option.some.inj h
  have hroom : cap - 1 - out.length ≤ cap' - 1 - out.length := by omega
  have hmin : min (cap - 1 - out.length) (min t.length (cap' - 1 - out.length)) =
      min t.length (cap - 1 - out.length) := by omega
  rw [if_pos ((min_le_min_left _ hroom).trans hread), List.take_append,
    List.take_of_length_le hout, List.take_take, hmin]

theorem write_take {cap cap' : ℕ} {out out' : Units} {x : Emit} (hcap : cap ≤ cap')
    (hout : out.length < cap - 1) (h : x.write libc v cap' out = some out') :
    x.write libc v cap out = some (out'.take (cap - 1)) := by
  cases x with
  | formatted spec arg => exact copyOut_take hcap hout.le h
  | copied s => exact copyOut_take hcap hout.le h
  | unit u =>
    obtain rfl := Option.some.inj h
    rw [Emit.write, List.take_of_length_le]
    rw [List.length_append, List.length_singleton]
    exact hout

theorem prefix_write {cap : ℕ} {out out' : Units} {x : Emit}
    (h : x.write libc v cap out = some out') : out <+: out' := by
  have hcopy : ∀ text, copyOut v cap out text = some out' → out <+: out' := by
    intro text h
    rw [copyOut] at h
    split_ifs at h
    rw [← Option.some.inj h]
    exact List.prefix_append _ _
  cases x with
  | formatted spec arg => exact hcopy _ h
  | copied s => exact hcopy _ h
  | unit u =>
    rw [← Option.some.inj h]
    exact List.prefix_append _ _

theorem prefix_formatLoop {cap : ℕ} {out t : Units} (p : Units) (ai : ℕ)
    (h : formatLoop v libc e cap p ai out = some t) : out <+: t := by
  induction hn : p.length using Nat.strong_induction_on generalizing p ai out with
  | _ n ih =>
    cases p with
    | nil =>
      rw [formatLoop] at h
      rw [Option.some.inj h]
    | cons c p =>
      rw [List.length_cons] at hn
      rw [formatLoop] at h
      split_ifs at h with hfull hc hpercent
      · rw [Option.some.inj h]
      · exact (List.prefix_append _ _).trans (ih _ (by omega) p ai h rfl)
      · refine (List.prefix_append _ _).trans (ih _ ?_ p.tail ai h rfl)
        rw [List.length_tail]
        omega
      · split at h
        · rw [Option.some.inj h]
        · rename_i d hparse
          obtain ⟨out', hwrite, hrest⟩ := Option.bind_eq_some_iff.mp h
          have hlt := length_parseSpec_lt hparse
          exact (prefix_write hwrite).trans (ih _ (by omega) d.rest _ hrest rfl)

theorem formatLoop_take {cap cap' : ℕ} {out t : Units} (p : Units) (ai : ℕ) (hcap : cap ≤ cap')
    (hout : out.length ≤ cap - 1) (h : formatLoop v libc e cap' p ai out = some t) :
    formatLoop v libc e cap p ai out = some (t.take (cap - 1)) := by
  induction hn : p.length using Nat.strong_induction_on generalizing p ai out with
  | _ n ih =>
    have hwhole := prefix_formatLoop p ai h
    by_cases hfull : cap - 1 ≤ out.length
    · -- no room is left, and what is there is the beginning of the text
      have hlen : out.length = cap - 1 := le_antisymm hout hfull
      rw [formatLoop_full hfull, ← hlen, ← List.prefix_iff_eq_take.mp hwhole]
    · have hlt := Nat.lt_of_not_le hfull
      have hfull' : ¬cap' - 1 ≤ out.length := by omega
      have hone : ∀ u, (out ++ [u]).length ≤ cap - 1 := by
        intro u
        rw [List.length_append, List.length_singleton]
        exact hlt
      cases p with
      | nil =>
        rw [formatLoop] at h ⊢
        rw [← Option.some.inj h, List.take_of_length_le hout]
      | cons c p =>
        rw [List.length_cons] at hn
        rw [formatLoop, if_neg hfull'] at h
        rw [formatLoop, if_neg hfull]
        split_ifs at h ⊢ with hc hpercent
        · exact ih _ (by omega) p ai (hone _) h rfl
        · refine ih _ ?_ p.tail ai (hone _) h rfl
          rw [List.length_tail]
          omega
        · split at h
          · obtain rfl := Option.some.inj h
            rw [List.take_of_length_le hout]
          · rename_i d hparse
            obtain ⟨out', hwrite, hrest⟩ := Option.bind_eq_some_iff.mp h
            have hrest_lt := length_parseSpec_lt hparse
            rw [write_take hcap hlt hwrite, Option.bind_some]
            by_cases hshort : out'.length ≤ cap - 1
            · rw [List.take_of_length_le hshort]
              exact ih _ (by omega) d.rest _ hshort hrest rfl
            · -- the conversion has filled the output
              have hlen : (out'.take (cap - 1)).length = cap - 1 := by
                rw [List.length_take]
                omega
              have htake := List.prefix_iff_eq_take.mp (prefix_formatLoop d.rest _ hrest)
              have hmin : min (cap - 1) out'.length = cap - 1 := by omega
              rw [formatLoop_full hlen.ge, htake, List.take_take, hmin]

/-- The text of a format string: where there is room for it, it is what the formatter writes. -/
def Formatted (libc : Snprintf) (e : Args) (v : Version) (p t : Units) : Prop :=
  ∀ cap, t.length < cap → formatLoop v libc e cap p 0 [] = some t

theorem Formatted.take {p t : Units} (h : Formatted libc e v p t) {cap : ℕ} (hcap : 0 < cap) :
    formatLoop v libc e cap p 0 [] = some (t.take (cap - 1)) := by
  by_cases hlt : t.length < cap
  · rw [h cap hlt, List.take_of_length_le (by omega)]
  · exact formatLoop_take p 0 (by omega) (Nat.zero_le _) (h (t.length + 1) (Nat.lt_succ_self _))

theorem formatted_literal {p : Units} (h : unit '%' ∉ p) : Formatted libc e v p p := by
  have hloop : ∀ (out : Units) (cap : ℕ), out.length + p.length < cap →
      formatLoop v libc e cap p 0 out = some (out ++ p) := by
    induction p with
    | nil =>
      intro out cap _
      rw [formatLoop, List.append_nil]
    | cons c p ih =>
      intro out cap hcap
      rw [List.length_cons] at hcap
      have hc : c ≠ unit '%' := fun hc => h (hc ▸ List.mem_cons_self)
      rw [formatLoop, if_neg (by omega), if_pos hc,
        ih (fun hp => h (List.mem_cons_of_mem c hp)) _ _ ?_, List.append_assoc]
      · rfl
      · rw [List.length_append, List.length_singleton]
        omega
  intro cap hcap
  exact hloop [] cap (by rw [List.length_nil, Nat.zero_add]; exact hcap)

/-! ### The functions -/

def scratch : ℕ := 8192

/-- The stack of a call, the words at an address, and the strings that addresses point to. -/
structure Call where
  stack : ℕ → UInt32
  words : UInt32 → ℕ → UInt32
  narrow : UInt32 → List UInt8
  wide : UInt32 → List UInt16

namespace Call

variable (c : Call) (i : ℕ)

def args : Args := ⟨fun k => c.stack (i + k), c.narrow, c.wide⟩

def vaList : Args := ⟨c.words (c.stack i), c.narrow, c.wide⟩

def narrowFormat : Option (List UInt8) :=
  if c.stack i = 0 then none else some (c.narrow (c.stack i))

def wideFormat : Option (List UInt16) :=
  if c.stack i = 0 then none else some (c.wide (c.stack i))

end Call

def store (tmp : Units) (text : Option Units) : Option (Units × ℕ) :=
  text.bind fun s => (blit tmp 0 (s ++ [0])).map fun tmp => (tmp, s.length)

/-- `aret_vformat(tmp, sizeof tmp, fmt, va)`; without a format string nothing is written. -/
def vformatTo (libc : Snprintf) (e : Args) (tmp : Units) : Option (List UInt8) →
    Option (Units × ℕ)
  | none => some (tmp, 0)
  | some fmt => store tmp (vformat libc e scratch fmt)

/-- `aret_wvformat(tmp, 8192, fmt, va)`. -/
def wvformatTo (libc : Snprintf) (e : Args) (tmp : Units) : Option (List UInt16) →
    Option (Units × ℕ)
  | none => store tmp (some [])
  | some fmt => store tmp (wvformat libc e scratch fmt)

/-- The first units are copied, as by `memcpy` or by a loop. -/
def memcpy (dst src : Units) (count : ℕ) : Option Units :=
  if count ≤ src.length then blit dst 0 (src.take count) else none

/-- `memcpy(dst, tmp, count)`, then `dst[count] = 0`. -/
def copyText (dst tmp : Units) (count : ℕ) : Option Units :=
  (memcpy dst tmp count).bind fun dst => blit dst count [0]

abbrev Result := Option (UInt32 × Units)

def minusOne : UInt32 := 0xffffffff

def copyMeasured (dst : Units) (cap : ℕ) (tmp : Units) (n : ℕ) : Result :=
  if cap ≠ 0 then
    (copyText dst tmp (if n < cap - 1 then n else cap - 1)).map fun dst => (UInt32.ofNat n, dst)
  else some (UInt32.ofNat n, dst)

def snprintf (libc : Snprintf) (c : Call) (tmp dst : Units) : Result :=
  (vformatTo libc (c.args 3) tmp (c.narrowFormat 2)).bind fun r =>
    copyMeasured dst (c.stack 1).toNat r.1 r.2

def vsnprintf (libc : Snprintf) (c : Call) (tmp dst : Units) : Result :=
  (vformatTo libc (c.vaList 3) tmp (c.narrowFormat 2)).bind fun r =>
    copyMeasured dst (c.stack 1).toNat r.1 r.2

/-- `aret_stdio_common_vsprintf`: there may be no destination. -/
def stdioCommonVsprintf (libc : Snprintf) (c : Call) (tmp dst : Units) : Result :=
  (vformatTo libc (c.vaList 6) tmp (c.narrowFormat 4)).bind fun r =>
    if c.stack 2 ≠ 0 then copyMeasured dst (c.stack 3).toNat r.1 r.2
    else some (UInt32.ofNat r.2, dst)

def wsnFinish (dst : Units) (cap : ℕ) (tmp : Units) (n : ℕ) : Result :=
  if cap = 0 then some (minusOne, dst)
  else if n < cap then (copyText dst tmp n).map fun dst => (UInt32.ofNat n, dst)
  else (memcpy dst tmp cap).map fun dst => (minusOne, dst)

def snwprintf (libc : Snprintf) (c : Call) (tmp dst : Units) : Result :=
  (wvformatTo libc (c.args 3) tmp (c.wideFormat 2)).bind fun r =>
    wsnFinish dst (c.stack 1).toNat r.1 r.2

def vsnwprintf (libc : Snprintf) (c : Call) (tmp dst : Units) : Result :=
  (wvformatTo libc (c.vaList 3) tmp (c.wideFormat 2)).bind fun r =>
    wsnFinish dst (c.stack 1).toNat r.1 r.2

def wsprintfSFinish (there : Bool) (dst : Units) (cap : ℕ) (tmp : Units) (n : ℕ) : Result :=
  if there = false ∨ cap = 0 then some (minusOne, dst)
  else if n < cap then (copyText dst tmp n).map fun dst => (UInt32.ofNat n, dst)
  else (blit dst 0 (List.replicate cap 0)).map fun dst => (minusOne, dst)

/-- The body of `aret_swprintf_s` and of `aret_vswprintf_s`. -/
def wsprintfS (libc : Snprintf) (c : Call) (e : Args) (tmp dst : Units) : Result :=
  if c.wideFormat 2 = none then some (minusOne, dst)
  else (wvformatTo libc e tmp (c.wideFormat 2)).bind fun r =>
    wsprintfSFinish (c.stack 0 != 0) dst (c.stack 1).toNat r.1 r.2

def swprintfS (libc : Snprintf) (c : Call) (tmp dst : Units) : Result :=
  wsprintfS libc c (c.args 3) tmp dst

def vswprintfS (libc : Snprintf) (c : Call) (tmp dst : Units) : Result :=
  wsprintfS libc c (c.vaList 3) tmp dst

/-- What `aret_snwprintf_s` does with a text, where there is a destination. -/
def snwprintfSFinish (dst : Units) (size : ℕ) (count : UInt32) (tmp : Units) (n : ℕ) : Result :=
  if size = 0 then some (minusOne, dst)
  else
    let limit := if count ≠ minusOne ∧ count.toNat < size - 1 then count.toNat else size - 1
    if n ≤ limit then (copyText dst tmp n).map fun dst => (UInt32.ofNat n, dst)
    else if count ≠ minusOne ∧ size ≤ count.toNat then
      (blit dst 0 (List.replicate size 0)).map fun dst => (minusOne, dst)
    else (copyText dst tmp limit).map fun dst => (minusOne, dst)

def snwprintfS (libc : Snprintf) (c : Call) (tmp dst : Units) : Result :=
  if c.wideFormat 3 = none then
    if c.stack 0 ≠ 0 ∧ c.stack 1 ≠ 0 then (blit dst 0 [0]).map fun dst => (minusOne, dst)
    else some (minusOne, dst)
  else (wvformatTo libc (c.args 4) tmp (c.wideFormat 3)).bind fun r =>
    if c.stack 0 = 0 then some (UInt32.ofNat r.2, dst)
    else snwprintfSFinish dst (c.stack 1).toNat (c.stack 2) r.1 r.2

/-! ### The contracts -/

def terminated (t dst : Units) : Units := t ++ 0 :: dst.drop (t.length + 1)

def measured (t dst : Units) : ℕ × Units :=
  (t.length, if dst = [] then [] else terminated (t.take (dst.length - 1)) dst)

def filled (t dst : Units) : ℕ × Units :=
  if t.length < dst.length then (t.length, terminated t dst)
  else (minusOne.toNat, t.take dst.length)

def zeroed (t dst : Units) : ℕ × Units :=
  if t.length < dst.length then (t.length, terminated t dst)
  else (minusOne.toNat, List.replicate dst.length 0)

/-- The four regimes: a text that fits; one that is cut, to the size as asked for or to the count;
and one for which the destination is too small. -/
def secure (count : UInt32) (t dst : Units) : ℕ × Units :=
  if dst = [] then (minusOne.toNat, [])
  else if t.length < dst.length ∧ (count = minusOne ∨ t.length ≤ count.toNat) then
    (t.length, terminated t dst)
  else if count = minusOne then (minusOne.toNat, terminated (t.take (dst.length - 1)) dst)
  else if count.toNat < dst.length then
    (minusOne.toNat, terminated (t.take count.toNat) dst)
  else (minusOne.toNat, List.replicate dst.length 0)

def HonoursIff (call : Result) (contract : ℕ × Units) (condition : Prop) : Prop :=
  ∃ r, call = some r ∧ ((r.1.toNat, r.2) = contract ↔ condition)

/-! ### What the functions do with the text in their scratch buffers -/

variable {t tmp dst : Units}

theorem blit_zero {xs cells : Units} (h : xs.length ≤ cells.length) :
    blit cells 0 xs = some (xs ++ cells.drop xs.length) := by
  rw [blit, Nat.zero_add, if_pos h, List.take_zero, List.nil_append]

theorem length_terminated (h : t.length < dst.length) :
    (terminated t dst).length = dst.length := by
  rw [terminated, List.length_append, List.length_cons, List.length_drop]
  omega

theorem copyText_eq {n : ℕ} (hn : n ≤ t.length) (hlt : n < dst.length)
    (htmp : t.length < tmp.length) :
    copyText dst (terminated t tmp) n = some (terminated (t.take n) dst) := by
  have hlen : (t.take n).length = n := List.length_take_of_le hn
  have htake : (terminated t tmp).take n = t.take n := List.take_append_of_le_length hn
  have hsrc : n ≤ (terminated t tmp).length := by
    rw [length_terminated htmp]
    omega
  have hfit : n + [0].length ≤ (t.take n ++ dst.drop n).length := by
    rw [List.length_append, hlen, List.length_drop, List.length_singleton]
    omega
  rw [copyText, memcpy, if_pos hsrc, htake, blit_zero (by rw [hlen]; exact hlt.le), hlen,
    Option.bind_some, blit, if_pos hfit, List.take_left' hlen, terminated, hlen,
    List.length_singleton, ← List.drop_drop, List.drop_left' hlen, List.drop_drop]
  rfl

theorem store_eq (ht : t.length < tmp.length) :
    store tmp (some t) = some (terminated t tmp, t.length) := by
  have hfit : (t ++ [0]).length ≤ tmp.length := by
    rw [List.length_append, List.length_singleton]
    exact ht
  rw [store, Option.bind_some, blit_zero hfit, terminated, List.length_append,
    List.length_singleton, List.append_assoc]
  rfl

theorem toNat_length {n : ℕ} (h : n < scratch) : (UInt32.ofNat n).toNat = n :=
  Nat.mod_eq_of_lt (h.trans (by decide))

variable (dst) in
theorem copyMeasured_eq (htmp : tmp.length = scratch) (ht : t.length < scratch) :
    ∃ r, copyMeasured dst dst.length (terminated t tmp) t.length = some r ∧
      (r.1.toNat, r.2) = measured t dst := by
  rw [copyMeasured, measured]
  by_cases hdst : dst = []
  · subst hdst
    rw [if_neg (not_not.mpr List.length_nil)]
    exact ⟨_, rfl, Prod.ext (toNat_length ht) rfl⟩
  · have hpos := List.length_pos_iff.mpr hdst
    have hcount : (if t.length < dst.length - 1 then t.length else dst.length - 1) =
        min (dst.length - 1) t.length := by
      split_ifs
      · omega
      · omega
    rw [if_pos hpos.ne', hcount, copyText_eq (min_le_right _ _) (by omega) (by omega), if_neg hdst,
      ← List.take_eq_take_min]
    exact ⟨_, rfl, Prod.ext (toNat_length ht) rfl⟩

theorem copyWhole_eq (htmp : t.length < tmp.length) (hdst : t.length < dst.length) :
    copyText dst (terminated t tmp) t.length = some (terminated t dst) := by
  rw [copyText_eq le_rfl hdst htmp, List.take_length]

theorem blit_whole {xs : Units} (h : xs.length = dst.length) : blit dst 0 xs = some xs := by
  rw [blit_zero h.le, h, List.drop_length, List.append_nil]

theorem wsnFinish_eq (htmp : tmp.length = scratch) (ht : t.length < scratch) :
    ∃ r, wsnFinish dst dst.length (terminated t tmp) t.length = some r ∧
      (r.1.toNat, r.2) = filled t dst := by
  rw [wsnFinish, filled]
  by_cases hdst : dst.length = 0
  · obtain rfl := List.eq_nil_of_length_eq_zero hdst
    exact ⟨_, rfl, rfl⟩
  · rw [if_neg hdst]
    split_ifs with hlt
    · rw [copyWhole_eq (by omega) hlt]
      exact ⟨_, rfl, Prod.ext (toNat_length ht) rfl⟩
    · -- the destination is filled, without a terminator
      have hle := Nat.le_of_not_lt hlt
      have hsrc : dst.length ≤ (terminated t tmp).length := by
        rw [length_terminated (by omega)]
        omega
      have htake : (terminated t tmp).take dst.length = t.take dst.length :=
        List.take_append_of_le_length hle
      rw [memcpy, if_pos hsrc, htake, blit_whole (List.length_take_of_le hle)]
      exact ⟨_, rfl, rfl⟩

theorem wsprintfSFinish_eq {there : Bool} (hthere : there = false → dst = [])
    (htmp : tmp.length = scratch) (ht : t.length < scratch) :
    ∃ r, wsprintfSFinish there dst dst.length (terminated t tmp) t.length = some r ∧
      (r.1.toNat, r.2) = zeroed t dst := by
  rw [wsprintfSFinish, zeroed]
  by_cases hdst : dst.length = 0
  · obtain rfl := List.eq_nil_of_length_eq_zero hdst
    rw [if_pos (.inr rfl)]
    exact ⟨_, rfl, rfl⟩
  · have hnot : ¬(there = false ∨ dst.length = 0) := by
      rintro (hfalse | hzero)
      · exact hdst (congrArg List.length (hthere hfalse))
      · exact hdst hzero
    rw [if_neg hnot]
    split_ifs with hlt
    · rw [copyWhole_eq (by omega) hlt]
      exact ⟨_, rfl, Prod.ext (toNat_length ht) rfl⟩
    · rw [blit_whole List.length_replicate]
      exact ⟨_, rfl, rfl⟩

theorem snwprintfSFinish_eq (count : UInt32) (htmp : tmp.length = scratch)
    (ht : t.length < scratch) :
    ∃ r, snwprintfSFinish dst dst.length count (terminated t tmp) t.length = some r ∧
      (r.1.toNat, r.2) = secure count t dst := by
  rw [snwprintfSFinish, secure]
  by_cases hdst : dst = []
  · subst hdst
    exact ⟨_, rfl, rfl⟩
  · have hpos := List.length_pos_iff.mpr hdst
    rw [if_neg hpos.ne', if_neg hdst]
    dsimp only
    by_cases hcount : count = minusOne
    · -- the size alone is the limit
      have hlimit : (if count ≠ minusOne ∧ count.toNat < dst.length - 1 then count.toNat
          else dst.length - 1) = dst.length - 1 := if_neg fun h => h.1 hcount
      have hzero : ¬(count ≠ minusOne ∧ dst.length ≤ count.toNat) := fun h => h.1 hcount
      rw [hlimit, if_neg hzero, if_pos hcount]
      by_cases hlt : t.length < dst.length
      · rw [if_pos (by omega), if_pos ⟨hlt, .inl hcount⟩, copyWhole_eq (by omega) hlt]
        exact ⟨_, rfl, Prod.ext (toNat_length ht) rfl⟩
      · rw [if_neg (by omega), if_neg fun h => hlt h.1,
          copyText_eq (by omega) (by omega) (by omega)]
        exact ⟨_, rfl, rfl⟩
    · rw [if_neg hcount]
      by_cases hless : count.toNat < dst.length
      · -- the count is the limit, where it leaves room for the terminator
        have hlimit : (if count ≠ minusOne ∧ count.toNat < dst.length - 1 then count.toNat
            else dst.length - 1) = count.toNat := by
          split_ifs with h
          · rfl
          · have : ¬count.toNat < dst.length - 1 := fun hlt => h ⟨hcount, hlt⟩
            omega
        have hzero : ¬(count ≠ minusOne ∧ dst.length ≤ count.toNat) :=
          fun h => Nat.not_le_of_lt hless h.2
        rw [hlimit, if_neg hzero, if_pos hless]
        by_cases hle : t.length ≤ count.toNat
        · rw [if_pos hle, if_pos ⟨by omega, .inr hle⟩, copyWhole_eq (by omega) (by omega)]
          exact ⟨_, rfl, Prod.ext (toNat_length ht) rfl⟩
        · rw [if_neg hle, if_neg fun h => hle (h.2.resolve_left hcount),
            copyText_eq (by omega) hless (by omega)]
          exact ⟨_, rfl, rfl⟩
      · have hge := Nat.le_of_not_lt hless
        have hlimit : (if count ≠ minusOne ∧ count.toNat < dst.length - 1 then count.toNat
            else dst.length - 1) = dst.length - 1 := if_neg fun h => absurd h.2 (by omega)
        rw [hlimit, if_neg hless]
        by_cases hlt : t.length < dst.length
        · rw [if_pos (by omega), if_pos ⟨hlt, .inr (by omega)⟩, copyWhole_eq (by omega) hlt]
          exact ⟨_, rfl, Prod.ext (toNat_length ht) rfl⟩
        · rw [if_neg (by omega), if_pos ⟨hcount, hge⟩, if_neg fun h => hlt h.1,
            blit_whole List.length_replicate]
          exact ⟨_, rfl, rfl⟩

/-! ### Texts that the scratch buffer cuts -/

theorem length_cut (h : ¬t.length < scratch) : (t.take (scratch - 1)).length = scratch - 1 := by
  rw [List.length_take]
  omega

theorem cut_eq (h : t.length < scratch) : t.take (scratch - 1) = t :=
  List.take_of_length_le (by omega)

theorem take_cut {n : ℕ} (h : n < scratch) : (t.take (scratch - 1)).take n = t.take n := by
  rw [List.take_take, min_eq_left (by omega)]

theorem cut_ne {a : Units} {x : ℕ × Units} (hlong : ¬t.length < scratch)
    (hx : x.1 = t.length ∨ x.1 = minusOne.toNat) : ((t.take (scratch - 1)).length, a) ≠ x := by
  rintro rfl
  have hpos : 0 < scratch := by decide
  rcases hx with hx | hx
  · rw [length_cut hlong] at hx
    omega
  · have hne : scratch - 1 ≠ minusOne.toNat := by decide
    rw [length_cut hlong] at hx
    exact hne hx

theorem measured_cut :
    measured (t.take (scratch - 1)) dst = measured t dst ↔ t.length < scratch := by
  constructor
  · intro h
    by_contra hlong
    exact cut_ne hlong (.inl rfl) h
  · intro h
    rw [cut_eq h]

theorem filled_cut : filled (t.take (scratch - 1)) dst = filled t dst ↔
    t.length < scratch ∨ dst.length < scratch := by
  by_cases hshort : t.length < scratch
  · rw [cut_eq hshort]
    exact iff_of_true rfl (.inl hshort)
  · have hpos : 0 < scratch := by decide
    by_cases hsize : dst.length < scratch
    · refine iff_of_true ?_ (.inr hsize)
      rw [filled, filled, length_cut hshort, if_neg (by omega), if_neg (by omega), take_cut hsize]
    · refine iff_of_false ?_ fun h => h.elim hshort hsize
      rw [filled, length_cut hshort, if_pos (by omega), ← length_cut hshort]
      refine cut_ne hshort ?_
      rw [filled]
      split_ifs
      · exact .inl rfl
      · exact .inr rfl

theorem zeroed_cut : zeroed (t.take (scratch - 1)) dst = zeroed t dst ↔
    t.length < scratch ∨ dst.length < scratch := by
  by_cases hshort : t.length < scratch
  · rw [cut_eq hshort]
    exact iff_of_true rfl (.inl hshort)
  · have hpos : 0 < scratch := by decide
    by_cases hsize : dst.length < scratch
    · refine iff_of_true ?_ (.inr hsize)
      rw [zeroed, zeroed, length_cut hshort, if_neg (by omega), if_neg (by omega)]
    · refine iff_of_false ?_ fun h => h.elim hshort hsize
      rw [zeroed, length_cut hshort, if_pos (by omega), ← length_cut hshort]
      refine cut_ne hshort ?_
      rw [zeroed]
      split_ifs
      · exact .inl rfl
      · exact .inr rfl

theorem secure_fst (count : UInt32) (t dst : Units) :
    (secure count t dst).1 = t.length ∨ (secure count t dst).1 = minusOne.toNat := by
  rw [secure]
  split_ifs
  · exact .inr rfl
  · exact .inl rfl
  · exact .inr rfl
  · exact .inr rfl
  · exact .inr rfl

theorem secure_cut {count : UInt32} : secure count (t.take (scratch - 1)) dst = secure count t dst ↔
    t.length < scratch ∨ dst.length < scratch ∨ count ≠ minusOne ∧ count.toNat < scratch - 1 := by
  by_cases hshort : t.length < scratch
  · rw [cut_eq hshort]
    exact iff_of_true rfl (.inl hshort)
  · have hpos : 0 < scratch := by decide
    have hlen := length_cut hshort
    by_cases hcond : dst.length < scratch ∨ count ≠ minusOne ∧ count.toNat < scratch - 1
    · refine iff_of_true ?_ (.inr hcond)
      -- neither text fits, and what is kept of them is the same
      have hfit : ¬((t.take (scratch - 1)).length < dst.length ∧
          (count = minusOne ∨ (t.take (scratch - 1)).length ≤ count.toNat)) := by
        rintro ⟨hlt, hcount⟩
        rw [hlen] at hlt hcount
        rcases hcond with hsize | ⟨hne, hless⟩
        · omega
        · exact hcount.elim hne fun h => by omega
      have hfit' : ¬(t.length < dst.length ∧ (count = minusOne ∨ t.length ≤ count.toNat)) := by
        rintro ⟨hlt, hcount⟩
        rcases hcond with hsize | ⟨hne, hless⟩
        · omega
        · exact hcount.elim hne fun h => by omega
      rw [secure, secure, if_neg hfit, if_neg hfit']
      split_ifs with hdst hall hless
      · rfl
      · have hsize : dst.length < scratch := hcond.resolve_right fun h => h.1 hall
        rw [take_cut (by omega)]
      · rw [take_cut (hcond.elim (fun h => hless.trans h) fun h => h.2.trans (by omega))]
      · rfl
    · refine iff_of_false ?_ fun h => h.elim hshort hcond
      rw [not_or] at hcond
      obtain ⟨hsize, hcount⟩ := hcond
      have hdst : dst ≠ [] := by
        rintro rfl
        exact hsize hpos
      have hfit : (t.take (scratch - 1)).length < dst.length ∧
          (count = minusOne ∨ (t.take (scratch - 1)).length ≤ count.toNat) := by
        rw [hlen]
        refine ⟨by omega, ?_⟩
        by_cases hall : count = minusOne
        · exact .inl hall
        · exact .inr (Nat.le_of_not_lt fun hless => hcount ⟨hall, hless⟩)
      rw [secure, if_neg hdst, if_pos hfit]
      exact cut_ne hshort (secure_fst count t dst)

/-! ### The family -/

theorem length_cut_lt (t : Units) : (t.take (scratch - 1)).length < scratch := by
  have hpos : 0 < scratch := by decide
  rw [List.length_take]
  omega

theorem vformatTo_eq {fmt : List UInt8} (htmp : tmp.length = scratch)
    (ht : Formatted libc e .narrow (fmt.map UInt8.toNat) t) :
    vformatTo libc e tmp (some fmt) =
      some (terminated (t.take (scratch - 1)) tmp, (t.take (scratch - 1)).length) := by
  rw [vformatTo, vformat, ht.take (by decide), store_eq]
  rw [htmp]
  exact length_cut_lt t

theorem wvformatTo_eq {fmt : List UInt16} (htmp : tmp.length = scratch)
    (ht : Formatted libc e .wide (fmt.map UInt16.toNat) t) :
    wvformatTo libc e tmp (some fmt) =
      some (terminated (t.take (scratch - 1)) tmp, (t.take (scratch - 1)).length) := by
  rw [wvformatTo, wvformat, if_neg (by decide), ht.take (by decide), store_eq]
  rw [htmp]
  exact length_cut_lt t

theorem honoursIff_of_cut (contract : Units → ℕ × Units) {call : Result} {condition : Prop}
    (h : ∃ r, call = some r ∧ (r.1.toNat, r.2) = contract (t.take (scratch - 1)))
    (hcut : contract (t.take (scratch - 1)) = contract t ↔ condition) :
    HonoursIff call (contract t) condition := by
  obtain ⟨r, hr, hcontract⟩ := h
  refine ⟨r, hr, ?_⟩
  rw [hcontract]
  exact hcut

/-- For a text of any length and a destination of any size every function of the family stays inside
its buffers.  It honours its contract exactly if the text, or what is asked of it, is shorter than
the scratch buffer. -/
theorem printf_exact_iff (libc : Snprintf) (c : Call) {tmp : Units} (htmp : tmp.length = scratch)
    (dst t : Units) :
    (∀ fmt, c.narrowFormat 2 = some fmt → dst.length = (c.stack 1).toNat →
      (Formatted libc (c.args 3) .narrow (fmt.map UInt8.toNat) t →
        HonoursIff (snprintf libc c tmp dst) (measured t dst) (t.length < scratch)) ∧
      (Formatted libc (c.vaList 3) .narrow (fmt.map UInt8.toNat) t →
        HonoursIff (vsnprintf libc c tmp dst) (measured t dst) (t.length < scratch))) ∧
    (∀ fmt, c.narrowFormat 4 = some fmt →
      dst.length = (if c.stack 2 = 0 then 0 else (c.stack 3).toNat) →
      Formatted libc (c.vaList 6) .narrow (fmt.map UInt8.toNat) t →
        HonoursIff (stdioCommonVsprintf libc c tmp dst) (measured t dst) (t.length < scratch)) ∧
    (∀ fmt, c.wideFormat 2 = some fmt → dst.length = (c.stack 1).toNat →
      (Formatted libc (c.args 3) .wide (fmt.map UInt16.toNat) t →
        HonoursIff (snwprintf libc c tmp dst) (filled t dst)
          (t.length < scratch ∨ dst.length < scratch)) ∧
      (Formatted libc (c.vaList 3) .wide (fmt.map UInt16.toNat) t →
        HonoursIff (vsnwprintf libc c tmp dst) (filled t dst)
          (t.length < scratch ∨ dst.length < scratch))) ∧
    (∀ fmt, c.wideFormat 2 = some fmt → dst.length = (c.stack 1).toNat →
      (c.stack 0 = 0 → dst = []) →
      (Formatted libc (c.args 3) .wide (fmt.map UInt16.toNat) t →
        HonoursIff (swprintfS libc c tmp dst) (zeroed t dst)
          (t.length < scratch ∨ dst.length < scratch)) ∧
      (Formatted libc (c.vaList 3) .wide (fmt.map UInt16.toNat) t →
        HonoursIff (vswprintfS libc c tmp dst) (zeroed t dst)
          (t.length < scratch ∨ dst.length < scratch))) ∧
    (∀ fmt, c.wideFormat 3 = some fmt →
      Formatted libc (c.args 4) .wide (fmt.map UInt16.toNat) t →
      (c.stack 0 = 0 → HonoursIff (snwprintfS libc c tmp dst) (t.length, dst)
        (t.length < scratch)) ∧
      (c.stack 0 ≠ 0 → dst.length = (c.stack 1).toNat →
        HonoursIff (snwprintfS libc c tmp dst) (secure (c.stack 2) t dst)
          (t.length < scratch ∨ dst.length < scratch ∨
            c.stack 2 ≠ minusOne ∧ (c.stack 2).toNat < scratch - 1))) := by
  have hlt := length_cut_lt t
  refine ⟨?_, ?_, ?_, ?_, ?_⟩
  · intro fmt hfmt hdst
    constructor
    · intro ht
      refine honoursIff_of_cut (fun t => measured t dst) ?_ measured_cut
      rw [snprintf, hfmt, vformatTo_eq htmp ht, Option.bind_some, ← hdst]
      exact copyMeasured_eq dst htmp hlt
    · intro ht
      refine honoursIff_of_cut (fun t => measured t dst) ?_ measured_cut
      rw [vsnprintf, hfmt, vformatTo_eq htmp ht, Option.bind_some, ← hdst]
      exact copyMeasured_eq dst htmp hlt
  · intro fmt hfmt hdst ht
    refine honoursIff_of_cut (fun t => measured t dst) ?_ measured_cut
    rw [stdioCommonVsprintf, hfmt, vformatTo_eq htmp ht, Option.bind_some]
    by_cases hnull : c.stack 2 = 0
    · -- without a destination only the length is reported
      rw [if_pos hnull] at hdst
      obtain rfl := List.eq_nil_of_length_eq_zero hdst
      rw [if_neg (not_not.mpr hnull)]
      exact ⟨_, rfl, Prod.ext (toNat_length hlt) rfl⟩
    · rw [if_neg hnull] at hdst
      rw [if_pos hnull, ← hdst]
      exact copyMeasured_eq dst htmp hlt
  · intro fmt hfmt hdst
    constructor
    · intro ht
      refine honoursIff_of_cut (fun t => filled t dst) ?_ filled_cut
      rw [snwprintf, hfmt, wvformatTo_eq htmp ht, Option.bind_some, ← hdst]
      exact wsnFinish_eq htmp hlt
    · intro ht
      refine honoursIff_of_cut (fun t => filled t dst) ?_ filled_cut
      rw [vsnwprintf, hfmt, wvformatTo_eq htmp ht, Option.bind_some, ← hdst]
      exact wsnFinish_eq htmp hlt
  · intro fmt hfmt hdst hnull
    have hthere : (c.stack 0 != 0) = false → dst = [] :=
      fun h => hnull (bne_eq_false_iff_eq.mp h)
    constructor
    · intro ht
      refine honoursIff_of_cut (fun t => zeroed t dst) ?_ zeroed_cut
      rw [swprintfS, wsprintfS, hfmt, if_neg (Option.some_ne_none _), wvformatTo_eq htmp ht,
        Option.bind_some, ← hdst]
      exact wsprintfSFinish_eq hthere htmp hlt
    · intro ht
      refine honoursIff_of_cut (fun t => zeroed t dst) ?_ zeroed_cut
      rw [vswprintfS, wsprintfS, hfmt, if_neg (Option.some_ne_none _), wvformatTo_eq htmp ht,
        Option.bind_some, ← hdst]
      exact wsprintfSFinish_eq hthere htmp hlt
  · intro fmt hfmt ht
    rw [snwprintfS, hfmt, if_neg (Option.some_ne_none _), wvformatTo_eq htmp ht, Option.bind_some]
    constructor
    · intro hnull
      rw [if_pos hnull]
      refine ⟨_, rfl, ?_⟩
      rw [toNat_length hlt, Prod.mk.injEq]
      refine (and_iff_left rfl).trans ⟨fun h => ?_, fun h => by rw [cut_eq h]⟩
      rw [← h]
      exact hlt
    · intro hnull hdst
      rw [if_neg hnull, ← hdst]
      exact honoursIff_of_cut (fun t => secure (c.stack 2) t dst)
        (snwprintfSFinish_eq _ htmp hlt) secure_cut

/-- A call of any of the functions for a text without conversions, with the count 1. -/
def literalCall (size : UInt32) (fmt : List UInt8) : Call where
  stack i := if i = 1 ∨ i = 3 then size else 1
  words _ _ := 0
  narrow _ := fmt
  wide _ := fmt.map UInt8.toUInt16

theorem HonoursIff.honours {call : Result} {contract : ℕ × Units} {condition : Prop}
    (h : HonoursIff call contract condition) (hc : condition) : HonoursIff call contract True := by
  obtain ⟨r, hr, hiff⟩ := h
  exact ⟨r, hr, hiff.trans (iff_of_true hc trivial)⟩

/-- `abcd`, for a destination of three units. -/
theorem printf_exact_iff_short :
    let c := literalCall 3 [0x61, 0x62, 0x63, 0x64]
    let tmp := List.replicate scratch 0
    HonoursIff (snprintf host c tmp [9, 9, 9]) (4, [0x61, 0x62, 0]) True ∧
      HonoursIff (stdioCommonVsprintf host c tmp [9, 9, 9]) (4, [0x61, 0x62, 0]) True ∧
      HonoursIff (snwprintf host c tmp [9, 9, 9]) (0xffffffff, [0x61, 0x62, 0x63]) True ∧
      HonoursIff (swprintfS host c tmp [9, 9, 9]) (0xffffffff, [0, 0, 0]) True ∧
      HonoursIff (snwprintfS host c tmp [9, 9, 9]) (0xffffffff, [0x61, 0, 9]) True := by
  intro c tmp
  obtain ⟨hmeasured, hcommon, hfilled, hzeroed, hsecure⟩ := printf_exact_iff host c
    (List.length_replicate (n := scratch) (a := 0)) [9, 9, 9] [0x61, 0x62, 0x63, 0x64]
  have htext : ∀ e v, Formatted host e v [0x61, 0x62, 0x63, 0x64] [0x61, 0x62, 0x63, 0x64] :=
    fun _ _ => formatted_literal (by decide)
  have hshort : [0x61, 0x62, 0x63, 0x64].length < scratch := by decide
  refine ⟨?_, ?_, ?_, ?_, ?_⟩
  · exact ((hmeasured _ rfl rfl).1 (htext _ _)).honours hshort
  · exact (hcommon _ rfl rfl (htext _ _)).honours hshort
  · exact ((hfilled _ rfl rfl).1 (htext _ _)).honours (.inl hshort)
  · exact ((hzeroed _ rfl rfl nofun).1 (htext _ _)).honours (.inl hshort)
  · exact ((hsecure _ rfl (htext _ _)).2 (by decide) rfl).honours (.inl hshort)

/-- `snprintf(NULL, 0, fmt)` measures a text of 8192 characters as 8191. -/
theorem not_printf_exact : ¬∀ (c : Call) (tmp dst t : Units) (fmt : List UInt8),
    tmp.length = scratch → c.narrowFormat 2 = some fmt → dst.length = (c.stack 1).toNat →
      Formatted host (c.args 3) .narrow (fmt.map UInt8.toNat) t →
        ∃ r, snprintf host c tmp dst = some r ∧ (r.1.toNat, r.2) = measured t dst := by
  intro h
  let fmt : List UInt8 := List.replicate 8192 0x61
  have hfmt : fmt.map UInt8.toNat = List.replicate 8192 0x61 := List.map_replicate
  have htext : Formatted host ((literalCall 0 fmt).args 3) .narrow (fmt.map UInt8.toNat)
      (List.replicate 8192 0x61) := by
    rw [hfmt]
    refine formatted_literal fun hmem => ?_
    exact absurd (List.eq_of_mem_replicate hmem) (by decide)
  have htmp : (List.replicate scratch 0).length = scratch := List.length_replicate
  obtain ⟨r, hr, hreport⟩ := h (literalCall 0 fmt) (List.replicate scratch 0) []
    (List.replicate 8192 0x61) fmt htmp rfl rfl htext
  obtain ⟨r', hr', hcut⟩ := copyMeasured_eq [] htmp
    (length_cut_lt (List.replicate 8192 0x61))
  have hsame : snprintf host (literalCall 0 fmt) (List.replicate scratch 0) [] = some r' := by
    rw [snprintf, show (literalCall 0 fmt).narrowFormat 2 = some fmt from rfl,
      vformatTo_eq htmp htext, Option.bind_some]
    exact hr'
  rw [hr] at hsame
  obtain rfl := Option.some.inj hsame
  have hlen := measured_cut.mp (hcut.symm.trans hreport)
  rw [List.length_replicate] at hlen
  exact lt_irrefl _ hlen

end Aret.Printf
