/-
The LSDA of a function, encoded and parsed.

`Encodes` is the layout of the exception ABI: numbers in groups of seven bits,
a table of call sites, chains of actions that point to one another, and a type
table that is read backwards from its end.

* `parseLsda_encodes` — parsing gives the call sites back, in order;
* `not_parseLsda_encodes` — their regions do not start from the function where
  the landing pads have a base of their own.
-/
import Aret.EhFrameSafe
import Mathlib.Tactic

namespace Aret.EhFrame

open Checked

/-! ### Numbers -/

/-- Groups of seven bits, the lowest first: all but the last have the high bit. -/
inductive Groups : List UInt8 → ℕ → UInt8 → Prop
  | last (b : UInt8) (h : b.toNat < 128) : Groups [b] b.toNat b
  | more (b : UInt8) {bs n l} (h : 128 ≤ b.toNat) (hbs : Groups bs n l) :
      Groups (b :: bs) (b.toNat - 128 + 128 * n) l

def UlebBytes (bs : List UInt8) (n : ℕ) : Prop :=
  (∃ l, Groups bs n l) ∧ bs.length ≤ 10 ∧ n < 2 ^ 64

def SlebBytes (bs : List UInt8) (v : ℤ) : Prop :=
  (∃ n l, Groups bs n l ∧ v = if l.toNat < 64 then (n : ℤ) else n - 2 ^ (7 * bs.length)) ∧
    bs.length ≤ 10 ∧ -2 ^ 63 ≤ v ∧ v < 2 ^ 63

theorem Groups.length_pos {bs : List UInt8} {n : ℕ} {l : UInt8} (h : Groups bs n l) :
    0 < bs.length := by
  cases h <;> simp

theorem Groups.lt {bs : List UInt8} {n : ℕ} {l : UInt8} (h : Groups bs n l) :
    n < 2 ^ (7 * bs.length) := by
  induction h with
  | last b h => simpa using h
  | more b h hbs ih =>
    have hb := b.toNat_lt
    rw [List.length_cons, Nat.mul_succ, Nat.pow_add]
    omega

theorem or_shiftLeft_mod {r sh g : ℕ} (hr : r < 2 ^ sh) (hsh : sh < 64) :
    r ||| g <<< sh % 2 ^ 64 = (r + g * 2 ^ sh) % 2 ^ 64 := by
  have hsplit : 2 ^ 64 = 2 ^ sh * 2 ^ (64 - sh) := by
    rw [← Nat.pow_add]
    congr 1
    omega
  have hmod : g <<< sh % 2 ^ 64 = 2 ^ sh * (g % 2 ^ (64 - sh)) := by
    rw [Nat.shiftLeft_eq, Nat.mul_comm, hsplit, Nat.mul_mod_mul_left]
  have hlt : g % 2 ^ (64 - sh) + 1 ≤ 2 ^ (64 - sh) := Nat.mod_lt _ (Nat.two_pow_pos _)
  have hbound : 2 ^ sh * (g % 2 ^ (64 - sh)) + 2 ^ sh ≤ 2 ^ 64 := by
    rw [hsplit, ← Nat.mul_succ]
    exact Nat.mul_le_mul_left _ hlt
  have hsum : (r + g * 2 ^ sh) % 2 ^ 64 = (r + g <<< sh % 2 ^ 64) % 2 ^ 64 := by
    rw [Nat.add_mod_mod, Nat.shiftLeft_eq]
  have hor : r ||| 2 ^ sh * (g % 2 ^ (64 - sh)) = r + 2 ^ sh * (g % 2 ^ (64 - sh)) := by
    rw [Nat.or_comm, ← Nat.two_pow_add_eq_or_of_lt hr, Nat.add_comm]
  rw [hsum, hmod, hor]
  exact (Nat.mod_eq_of_lt (by omega)).symm

theorem Groups.leb {bs : List UInt8} {n : ℕ} {l : UInt8} (h : Groups bs n l)
    (rest : List UInt8) : ∀ p r sh, sh + 7 * bs.length < 71 → r < 2 ^ sh →
    leb (bs ++ rest) p r sh =
      (some ((r + n * 2 ^ sh) % 2 ^ 64, sh + 7 * bs.length, l), p + bs.length) := by
  induction h with
  | last b h =>
    intro p r sh hsh hr
    rw [List.length_singleton] at hsh
    rw [List.cons_append, EhFrame.leb, if_pos h, or_shiftLeft_mod hr (by omega),
      Nat.mod_eq_of_lt h]
    rfl
  | @more b bs n l h hbs ih =>
    intro p r sh hsh hr
    have hb := b.toNat_lt
    have hpos := hbs.length_pos
    rw [List.length_cons] at hsh
    have hmod : b.toNat % 128 = b.toNat - 128 := by omega
    have hpow : 2 ^ (sh + 7) = 2 ^ sh * 128 := Nat.pow_add 2 sh 7
    have hle : (b.toNat - 128 + 1) * 2 ^ sh ≤ 128 * 2 ^ sh := Nat.mul_le_mul_right _ (by omega)
    rw [Nat.succ_mul] at hle
    have hlt : r + (b.toNat - 128) * 2 ^ sh < 2 ^ (sh + 7) := by omega
    have hsmall : 2 ^ (sh + 7) ≤ 2 ^ 64 := Nat.pow_le_pow_right (by omega) (by omega)
    rw [List.cons_append, EhFrame.leb, if_neg (by omega), if_neg (by omega),
      or_shiftLeft_mod hr (by omega), hmod, Nat.mod_eq_of_lt (by omega), ih _ _ _ (by omega) hlt]
    refine Prod.ext (congrArg some (Prod.ext ?_ (Prod.ext ?_ rfl))) ?_
    · dsimp only
      congr 1
      rw [hpow]
      ring
    · rw [List.length_cons]
      dsimp only
      omega
    · rw [List.length_cons]
      dsimp only
      omega

/-- The bytes at position `p`. -/
def BytesAt (d : List UInt8) (p : ℕ) (bs : List UInt8) : Prop := bs <+: d.drop p

theorem bytesAt_append (pre bs post : List UInt8) :
    BytesAt (pre ++ (bs ++ post)) pre.length bs := by
  rw [BytesAt, List.drop_left]
  exact List.prefix_append bs post

theorem Groups.leb_at {d bs : List UInt8} {p n : ℕ} {l : UInt8} (h : Groups bs n l)
    (hlen : bs.length ≤ 10) (hat : BytesAt d p bs) :
    EhFrame.leb (d.drop p) p 0 0 =
      (some (n % 2 ^ 64, 7 * bs.length, l), p + bs.length) := by
  obtain ⟨rest, hrest⟩ := hat
  rw [← hrest, h.leb rest p 0 0 (by omega) (by norm_num)]
  simp

theorem UlebBytes.uleb {d bs : List UInt8} {p n : ℕ} (h : UlebBytes bs n)
    (hat : BytesAt d p bs) : EhFrame.uleb d p = (some n, p + bs.length) := by
  obtain ⟨⟨l, hg⟩, hlen, hn⟩ := h
  rw [EhFrame.uleb, hg.leb_at hlen hat]
  exact Prod.ext (congrArg some (Nat.mod_eq_of_lt hn)) rfl

theorem toI64_eq {u : ℕ} {v : ℤ} (hmod : (u : ℤ) % 2 ^ 64 = v % 2 ^ 64) (hlo : -2 ^ 63 ≤ v)
    (hhi : v < 2 ^ 63) : toI64 u = v := by
  have hrange := toI64_range u
  have hself : toI64 u % 2 ^ 64 = (u : ℤ) % 2 ^ 64 := by
    have h := Int.bmod_emod (x := (u : ℤ)) (m := 2 ^ 64)
    exact_mod_cast h
  omega

theorem and_bit_six {b : UInt8} (hb : b.toNat < 128) : b &&& 0x40 ≠ 0 ↔ 64 ≤ b.toNat := by
  have hall : ∀ n : Fin 128, n.val &&& 64 ≠ 0 ↔ 64 ≤ n.val := by decide
  have hand : (b &&& 0x40).toNat = b.toNat &&& 64 := UInt8.toNat_and b 0x40
  rw [Ne, ← UInt8.toNat_inj, hand]
  exact hall ⟨b.toNat, hb⟩

theorem Groups.last_lt {bs : List UInt8} {n : ℕ} {l : UInt8} (h : Groups bs n l) :
    l.toNat < 128 := by
  induction h with
  | last _ h => exact h
  | more _ _ _ ih => exact ih

theorem SlebBytes.sleb {d bs : List UInt8} {p : ℕ} {v : ℤ} (h : SlebBytes bs v)
    (hat : BytesAt d p bs) : EhFrame.sleb d p = (some v, p + bs.length) := by
  obtain ⟨⟨n, l, hg, rfl⟩, hlen, hlo, hhi⟩ := h
  rw [EhFrame.sleb, hg.leb_at hlen hat]
  refine Prod.ext (congrArg some (toI64_eq ?_ hlo hhi)) rfl
  have hsign := and_bit_six hg.last_lt
  have hlt := hg.lt
  rcases Nat.lt_or_ge (7 * bs.length) 64 with hshort | hlong
  · -- the sign is put above the groups
    have hpow : 2 ^ (7 * bs.length) ≤ 2 ^ 63 := Nat.pow_le_pow_right (by omega) (by omega)
    rw [Nat.mod_eq_of_lt (by omega)]
    by_cases hneg : l.toNat < 64
    · have hzero : ¬(7 * bs.length < 64 ∧ l &&& 0x40 ≠ 0) := fun h => by
        have := hsign.mp h.2
        omega
      rw [if_pos hneg, if_neg hzero]
    · have hone : 7 * bs.length < 64 ∧ l &&& 0x40 ≠ 0 := ⟨hshort, hsign.mpr (by omega)⟩
      have hsplit : 2 ^ 64 - 2 ^ (7 * bs.length) =
          2 ^ (7 * bs.length) * (2 ^ (64 - 7 * bs.length) - 1) := by
        rw [Nat.mul_sub_one, ← Nat.pow_add]
        congr 2
        omega
      have hor : n ||| (2 ^ 64 - 2 ^ (7 * bs.length)) = n + (2 ^ 64 - 2 ^ (7 * bs.length)) := by
        rw [hsplit, Nat.or_comm, ← Nat.two_pow_add_eq_or_of_lt hlt, Nat.add_comm]
      have hcast : ((n + (2 ^ 64 - 2 ^ (7 * bs.length)) : ℕ) : ℤ) =
          (n - 2 ^ (7 * bs.length) : ℤ) + 2 ^ 64 := by
        rw [Nat.cast_add, Nat.cast_sub (by omega)]
        push_cast
        ring
      rw [if_neg hneg, if_pos hone, hor, hcast, Int.add_emod_right]
  · -- ten groups have all the bits
    obtain hten : bs.length = 10 := by omega
    rw [if_neg (by omega), hten]
    split_ifs
    · omega
    · push_cast
      omega

/-! ### The layout -/

/-- Four bytes of a number, the lowest first. -/
inductive Le32 : List UInt8 → ℕ → Prop
  | intro (a b c e : UInt8) :
      Le32 [a, b, c, e] (a.toNat + b.toNat * 2 ^ 8 + c.toNat * 2 ^ 16 + e.toNat * 2 ^ 24)

/-- The base of the landing pads, for a header at `address`: the start of the function where it is
left out, else an absolute number or one that is relative to where it stands. -/
inductive BaseBytes (address pcStart : ℕ) : ℕ → List UInt8 → Prop
  | omitted : BaseBytes address pcStart pcStart [peOmit]
  | uleb {bs v} (h : UlebBytes bs v) : BaseBytes address pcStart v (0x01 :: bs)
  | absolute {bs v} (h : Le32 bs v) : BaseBytes address pcStart v (0x00 :: bs)
  | pcrel {bs v} {lp : ℕ} (h : Le32 bs v) (hne : v ≠ 0) (hlt : lp < 2 ^ 64)
      (hlp : (lp : ℤ) = (address + 1 : ℕ) + (v : ℤ).bmod (2 ^ 32)) :
      BaseBytes address pcStart lp (0x1b :: bs)

/-- What four bytes of the type table at `va` stand for: nothing, an address, or one that lies
after the entry. -/
inductive TypeEntry (enc : UInt8) (va : ℕ) : ℕ → ℕ → Prop
  | null : TypeEntry enc va 0 0
  | absolute {v} (henc : enc &&& 0x70 = 0x00) : TypeEntry enc va v v
  | pcrel {v} (henc : enc &&& 0x70 = 0x10) (hv : 0 < v ∧ v < 2 ^ 31) (hlt : va + v < 2 ^ 64) :
      TypeEntry enc va v (va + v)

/-- The field of the type table at `pos`, and the table of `count` types in memory, which is
indexed backwards from its end. -/
inductive TypeBytes (address pos : ℕ) (readU32 : ℕ → Option ℕ) (types : ℕ → ℕ) :
    ℕ → List UInt8 → Prop
  | omitted : TypeBytes address pos readU32 types 0 [peOmit]
  | table {enc bs off count stop} (hne : enc ≠ peOmit) (henc : fourByte enc = true)
      (hoff : UlebBytes bs off) (hstop : stop = address + (pos + 1 + bs.length) + off)
      (hlt : stop < 2 ^ 64) (hcount : 4 * count ≤ stop)
      (hentries : ∀ k, 0 < k → k ≤ count → ∃ v, readU32 (stop - 4 * k) = some v ∧
        TypeEntry enc (stop - 4 * k) v (types k)) :
      TypeBytes address pos readU32 types count (enc :: bs)

/-- A chain of actions: each has a filter and tells how far from its second number the next one is;
0 ends the chain. -/
inductive ChainAt (d : List UInt8) : ℕ → List ℤ → Prop
  | last {ap fb nb f} (hf : SlebBytes fb f) (hfat : BytesAt d ap fb) (hn : SlebBytes nb 0)
      (hnat : BytesAt d (ap + fb.length) nb) : ChainAt d ap [f]
  | more {ap fb nb f next fs} {dst : ℕ} (hf : SlebBytes fb f) (hfat : BytesAt d ap fb)
      (hn : SlebBytes nb next) (hnat : BytesAt d (ap + fb.length) nb) (hne : next ≠ 0)
      (hdst : (dst : ℤ) = (ap + fb.length : ℕ) + next) (hin : dst < d.length)
      (hc : ChainAt d dst fs) : ChainAt d ap (f :: fs)

/-- A call site: its region, its landing pad and the filters of its actions. -/
structure SiteSpec where
  start : ℕ
  len : ℕ
  lp : ℕ
  chain : List ℤ

/-- The call-site table, with the actions after it at `stop`. -/
inductive SiteBytes (d : List UInt8) (stop : ℕ) : List UInt8 → List SiteSpec → Prop
  | nil : SiteBytes d stop [] []
  | cons {b₁ b₂ b₃ b₄ bs s ss action} (hstart : UlebBytes b₁ s.start) (hlen : UlebBytes b₂ s.len)
      (hlp : UlebBytes b₃ s.lp) (haction : UlebBytes b₄ action)
      (hchain : action = 0 ∧ s.chain = [] ∨ 0 < action ∧ ChainAt d (stop + (action - 1)) s.chain)
      (h : SiteBytes d stop bs ss) : SiteBytes d stop (b₁ ++ (b₂ ++ (b₃ ++ (b₄ ++ bs)))) (s :: ss)

structure Lsda where
  lpStart : ℕ
  /-- The number of types, and the slot of each by its index from 1. -/
  count : ℕ
  types : ℕ → ℕ
  sites : List SiteSpec

/-- The bytes of an LSDA of the function at `pcStart`. -/
inductive Encodes (m : Memory) (readU32 : ℕ → Option ℕ) (pcStart : ℕ) (l : Lsda) : Prop
  | intro {lpBytes ttBytes lenBytes siteBytes tail}
      (hdata : m.data =
        lpBytes ++ (ttBytes ++ ([0x01] ++ (lenBytes ++ (siteBytes ++ tail)))))
      (hlp : BaseBytes m.address pcStart l.lpStart lpBytes)
      (htt : TypeBytes m.address lpBytes.length readU32 l.types l.count ttBytes)
      (hlen : UlebBytes lenBytes siteBytes.length)
      (hsites : SiteBytes m.data (lpBytes.length + ttBytes.length + 1 + lenBytes.length +
        siteBytes.length) siteBytes l.sites)
      (hfilters : ∀ s ∈ l.sites, ∀ f ∈ s.chain, f ≤ l.count)

def catchesOf (types : ℕ → ℕ) (fs : List ℤ) : List GnuCatch :=
  (fs.filter (0 < ·)).map fun f => ⟨f, types f.toNat⟩

/-! ### Parsing the header -/

theorem BytesAt.inside {d bs : List UInt8} {p : ℕ} (h : BytesAt d p bs) (hbs : 0 < bs.length) :
    p < d.length ∧ p + bs.length ≤ d.length := by
  have hle := h.length_le
  rw [List.length_drop] at hle
  omega

theorem le32?_at {d bs : List UInt8} {p v : ℕ} (h : Le32 bs v) (hat : BytesAt d p bs) :
    le32? d p = some v ∧ bs.length = 4 := by
  obtain ⟨rest, hrest⟩ := hat
  cases h with
  | intro a b c e => exact ⟨by rw [le32?, ← hrest]; rfl, rfl⟩

theorem Le32.lt {bs : List UInt8} {v : ℕ} (h : Le32 bs v) : v < 2 ^ 32 := by
  cases h with
  | intro a b c e =>
    have ha := a.toNat_lt
    have hb := b.toNat_lt
    have hc := c.toNat_lt
    have he := e.toNat_lt
    omega

theorem toU64_toI64 {v : ℕ} (h : v < 2 ^ 64) : toU64 (toI64 v) = v := by
  have hself : toI64 v % 2 ^ 64 = (v : ℤ) % 2 ^ 64 := by
    have hmod := Int.bmod_emod (x := (v : ℤ)) (m := 2 ^ 64)
    exact_mod_cast hmod
  rw [toU64, hself, Int.emod_eq_of_lt (Int.natCast_nonneg v) (by exact_mod_cast h),
    Int.toNat_natCast]

theorem readEncoded_eq {d : List UInt8} {p pc q : ℕ} {enc : UInt8} {raw : ℤ} (hne : enc ≠ peOmit)
    (hraw : readRaw d p enc = (some raw, q)) :
    readEncoded d p enc pc = (based enc pc raw, q) := by
  rw [readEncoded, if_neg hne, hraw]
  rfl

theorem toU64_zero : toU64 0 = 0 := by rw [toU64, Int.zero_emod, Int.toNat_zero]

theorem based_absolute {enc : UInt8} {pc : ℕ} {raw : ℤ} (henc : enc &&& 0x70 = 0x00) :
    based enc pc raw = some (toU64 raw) := by
  rw [based]
  split_ifs with hzero
  · rw [hzero.1, toU64_zero]
  · rfl

theorem based_pcrel {enc : UInt8} {pc : ℕ} {raw : ℤ} (henc : enc &&& 0x70 = 0x10)
    (hne : raw ≠ 0) : based enc pc raw = some (toU64 (toI64 pc + raw)) := by
  rw [based, if_neg (fun hz => hne hz.1), if_neg (by rw [henc]; decide), if_pos henc]

theorem readEncoded_uleb {d bs : List UInt8} {p pc v : ℕ} (h : UlebBytes bs v)
    (hat : BytesAt d p bs) : readEncoded d p 0x01 pc = (some v, p + bs.length) := by
  have hraw : readRaw d p 0x01 = (some (toI64 v), p + bs.length) := by
    rw [readRaw, if_neg (by decide), if_neg (by decide), if_neg (by decide), if_pos (by decide),
      h.uleb hat]
    rfl
  rw [readEncoded_eq (by decide) hraw, based_absolute (by decide), toU64_toI64 h.2.2]

theorem readEncoded_absolute {d bs : List UInt8} {p pc v : ℕ} (h : Le32 bs v)
    (hat : BytesAt d p bs) : readEncoded d p 0x00 pc = (some v, p + 4) := by
  have hraw : readRaw d p 0x00 = (some (v : ℤ), p + 4) := by
    rw [readRaw, if_pos (by decide), (le32?_at h hat).1]
    rfl
  have hlt := h.lt
  rw [readEncoded_eq (by decide) hraw, based_absolute (by decide), toU64,
    Int.emod_eq_of_lt (Int.natCast_nonneg v) (by omega), Int.toNat_natCast]

theorem readEncoded_pcrel {d bs : List UInt8} {p pc v dst : ℕ} (h : Le32 bs v) (hne : v ≠ 0)
    (hat : BytesAt d p bs) (hlt : dst < 2 ^ 64)
    (hdst : (dst : ℤ) = pc + (v : ℤ).bmod (2 ^ 32)) :
    readEncoded d p 0x1b pc = (some dst, p + 4) := by
  have hraw : readRaw d p 0x1b = (some ((v : ℤ).bmod (2 ^ 32)), p + 4) := by
    rw [readRaw, if_neg (by decide), if_pos (by decide), (le32?_at h hat).1]
    rfl
  have hv := h.lt
  have hmod : (v : ℤ).bmod (2 ^ 32) % 2 ^ 32 = (v : ℤ) % 2 ^ 32 := by
    have hbmod := Int.bmod_emod (x := (v : ℤ)) (m := 2 ^ 32)
    exact_mod_cast hbmod
  have hpc : toI64 pc % 2 ^ 64 = (pc : ℤ) % 2 ^ 64 := by
    have hbmod := Int.bmod_emod (x := (pc : ℤ)) (m := 2 ^ 64)
    exact_mod_cast hbmod
  have hdst' : (toI64 pc + (v : ℤ).bmod (2 ^ 32)) % 2 ^ 64 = dst := by omega
  rw [readEncoded_eq (by decide) hraw, based_pcrel (by decide) (by omega), toU64, hdst',
    Int.toNat_natCast]

theorem BaseBytes.landingBase {m : Memory} {pcStart lp : ℕ} {bs rest : List UInt8}
    (h : BaseBytes m.address pcStart lp bs) (hdata : m.data = bs ++ rest) :
    (EhFrame.landingBase m pcStart).Yields (lp, bs.length) := by
  have hpointer : ∀ enc bs' v, bs = enc :: bs' → enc ≠ peOmit →
      readEncoded m.data 1 enc (m.address + 1) = (some v, 1 + bs'.length) →
      (EhFrame.landingBase m pcStart).Yields (v, bs.length) := by
    rintro enc bs' v rfl hne hread
    have hfits := m.fits
    rw [hdata, List.length_append, List.length_cons] at hfits
    rw [EhFrame.landingBase]
    refine yields_bind.mpr ⟨enc, yields_lift.mpr (by rw [hdata]; rfl), ?_⟩
    rw [if_neg hne]
    refine yields_bind.mpr ⟨m.address + 1, yields_provided.mpr ⟨by omega, rfl⟩, ?_⟩
    rw [hread, List.length_cons, Nat.add_comm]
    exact yields_bind.mpr ⟨v, rfl, rfl⟩
  have hat : ∀ enc bs', bs = enc :: bs' → BytesAt m.data 1 bs' := by
    rintro enc bs' rfl
    rw [hdata]
    exact List.prefix_append bs' rest
  cases h with
  | omitted =>
    rw [EhFrame.landingBase]
    exact yields_bind.mpr ⟨peOmit, yields_lift.mpr (by rw [hdata]; rfl), rfl⟩
  | uleb h =>
    exact hpointer _ _ _ rfl (by decide) (readEncoded_uleb h (hat _ _ rfl))
  | absolute h =>
    refine hpointer _ _ _ rfl (by decide) ?_
    rw [(le32?_at h (hat _ _ rfl)).2]
    exact readEncoded_absolute h (hat _ _ rfl)
  | pcrel h hne hlt hlp =>
    refine hpointer _ _ _ rfl (by decide) ?_
    rw [(le32?_at h (hat _ _ rfl)).2]
    exact readEncoded_pcrel h hne (hat _ _ rfl) hlt hlp

theorem toU64_natCast {v : ℕ} (h : v < 2 ^ 64) : toU64 v = v := by
  rw [toU64, Int.emod_eq_of_lt (Int.natCast_nonneg v) (by exact_mod_cast h), Int.toNat_natCast]

theorem TypeBytes.typeTable {m : Memory} {pre bs rest : List UInt8} {readU32 : ℕ → Option ℕ}
    {types : ℕ → ℕ} {count : ℕ} (h : TypeBytes m.address pre.length readU32 types count bs)
    (hdata : m.data = pre ++ (bs ++ rest)) :
    ∃ enc stop, (EhFrame.typeTable m pre.length).Yields (enc, stop, pre.length + bs.length) ∧
      ∀ lpStart siteEnc siteStop k, 0 < k → k ≤ count →
        (readType ⟨lpStart, enc, stop, siteEnc, siteStop⟩ readU32 k).Yields (types k) := by
  have hhead : ∀ enc bs', bs = enc :: bs' → m.data[pre.length]? = some enc := by
    rintro enc bs' rfl
    rw [hdata, List.getElem?_append_right le_rfl, Nat.sub_self]
    rfl
  cases h with
  | omitted =>
    refine ⟨peOmit, 0, ?_, fun _ _ _ k hpos hle => absurd hpos (by omega)⟩
    rw [EhFrame.typeTable]
    exact yields_bind.mpr ⟨peOmit, yields_lift.mpr (hhead _ _ rfl), rfl⟩
  | @table enc bs' off _ stop hne henc hoff hstop hlt hcount hentries =>
    refine ⟨enc, stop, ?_, fun lpStart siteEnc siteStop k hpos hle => ?_⟩
    · have hat : BytesAt m.data (pre.length + 1) bs' := by
        have happ := bytesAt_append (pre ++ [enc]) bs' rest
        rw [List.length_append, List.length_singleton] at happ
        rw [hdata]
        simpa using happ
      rw [EhFrame.typeTable]
      refine yields_bind.mpr ⟨enc, yields_lift.mpr (hhead _ _ rfl), ?_⟩
      rw [if_neg hne, hoff.uleb hat]
      refine yields_bind.mpr ⟨off, rfl, ?_⟩
      refine yields_bind.mpr ⟨_, yields_provided.mpr ⟨by omega, rfl⟩, ?_⟩
      refine yields_bind.mpr ⟨_, yields_provided.mpr ⟨by omega, rfl⟩, ?_⟩
      rw [yields_pure, hstop, List.length_cons]
      refine Prod.ext rfl (Prod.ext rfl ?_)
      dsimp only
      omega
    · obtain ⟨v, hv, hentry⟩ := hentries k hpos hle
      have hslot : toU64 ((stop : ℤ) - (k * 4 : ℕ)) = stop - 4 * k := by
        have hcast : (stop : ℤ) - (k * 4 : ℕ) = (stop - 4 * k : ℕ) := by omega
        rw [hcast, toU64_natCast (by omega)]
      have htype : typeSlotAt enc readU32 (stop - 4 * k) = types k := by
        rw [typeSlotAt, hv]
        generalize types k = slot at hentry
        cases hentry with
        | null => rfl
        | absolute hrel =>
          have hrel' : enc &&& 0x70 ≠ 0x10 := by rw [hrel]; decide
          dsimp only [Option.getD_some]
          rw [if_neg hrel']
          split_ifs with hzero
          · exact hzero.symm
          · rfl
        | pcrel hrel hdisp hend =>
          dsimp only [Option.getD_some]
          rw [if_neg (by omega), if_pos hrel, ← Nat.cast_add, toU64_natCast hend]
      rw [readType, if_neg (by simp only; omega), if_neg (by simp [henc])]
      refine yields_bind.mpr ⟨k * 4, yields_provided.mpr ⟨by omega, rfl⟩, ?_⟩
      dsimp only
      rw [hslot, htype]
      rfl

theorem siteTable_yields {m : Memory} {pre bs rest : List UInt8} {len : ℕ}
    (h : UlebBytes bs len) (hdata : m.data = pre ++ ([0x01] ++ (bs ++ rest)))
    (hlen : len ≤ rest.length) :
    (EhFrame.siteTable m pre.length).Yields
      (0x01, pre.length + 1 + bs.length, pre.length + 1 + bs.length + len) := by
  have hat : BytesAt m.data (pre.length + 1) bs := by
    have happ := bytesAt_append (pre ++ [0x01]) bs rest
    rw [List.length_append, List.length_singleton] at happ
    rw [hdata]
    simpa using happ
  have hfits := m.fits
  have htotal : m.data.length = pre.length + (1 + (bs.length + rest.length)) := by
    rw [hdata, List.length_append, List.length_append, List.length_append, List.length_singleton]
  rw [EhFrame.siteTable]
  refine yields_bind.mpr ⟨0x01, yields_lift.mpr ?_, ?_⟩
  · rw [hdata, List.getElem?_append_right le_rfl, Nat.sub_self]
    rfl
  · rw [h.uleb hat]
    refine yields_bind.mpr ⟨len, rfl, ?_⟩
    refine yields_bind.mpr ⟨_, yields_provided.mpr ⟨by omega, rfl⟩, ?_⟩
    rw [if_neg (by omega)]
    rfl

/-! ### Parsing the actions and the call sites -/

theorem catchOf_yields {t : Tables} {readU32 : ℕ → Option ℕ} {types : ℕ → ℕ} {f : ℤ}
    (h : 0 < f → (readType t readU32 f.toNat).Yields (types f.toNat)) :
    (catchOf t readU32 f).Yields (catchesOf types [f]) := by
  rw [catchOf]
  by_cases hpos : 0 < f
  · rw [if_pos hpos]
    refine yields_bind.mpr ⟨_, h hpos, ?_⟩
    simp [catchesOf, hpos]
  · rw [if_neg hpos]
    simp [catchesOf, hpos]

theorem catchesOf_cons (types : ℕ → ℕ) (f : ℤ) (fs : List ℤ) :
    catchesOf types (f :: fs) = catchesOf types [f] ++ catchesOf types fs := by
  simp only [catchesOf, List.filter_cons, List.filter_nil]
  split <;> rfl

theorem SlebBytes.inside {d bs : List UInt8} {p : ℕ} {v : ℤ} (h : SlebBytes bs v)
    (hat : BytesAt d p bs) : p < d.length := by
  obtain ⟨⟨n, l, hg, -⟩, -⟩ := h
  exact (hat.inside hg.length_pos).1

theorem ChainAt.inside {d : List UInt8} {ap : ℕ} {fs : List ℤ} (h : ChainAt d ap fs) :
    ap < d.length := by
  cases h with
  | last hf hfat => exact hf.inside hfat
  | more hf hfat => exact hf.inside hfat

theorem ChainAt.catchesFrom {d : List UInt8} {t : Tables} {readU32 : ℕ → Option ℕ}
    {types : ℕ → ℕ} {ap : ℕ} {fs : List ℤ} (h : ChainAt d ap fs) (hd : d.length < 2 ^ 63)
    (htypes : ∀ f ∈ fs, 0 < f → (readType t readU32 f.toNat).Yields (types f.toNat)) :
    ∀ k, (EhFrame.catchesFrom d t readU32 k ap).Yields (catchesOf types (fs.take k)) := by
  have haction : ∀ {ap fb nb f next}, SlebBytes fb f → BytesAt d ap fb → SlebBytes nb next →
      BytesAt d (ap + fb.length) nb → action? d ap = some (f, ap + fb.length, next) := by
    intro ap fb nb f next hf hfat hn hnat
    rw [action?, hf.sleb hfat]
    dsimp only [Option.bind_some]
    rw [hn.sleb hnat]
    rfl
  induction h with
  | last hf hfat hn hnat =>
    intro k
    cases k with
    | zero => rfl
    | succ k =>
      rw [EhFrame.catchesFrom, haction hf hfat hn hnat]
      refine yields_bind.mpr ⟨_, rfl, ?_⟩
      refine yields_bind.mpr ⟨_, catchOf_yields (htypes _ List.mem_cons_self), ?_⟩
      rw [if_pos rfl, List.take_succ_cons, List.take_nil]
      rfl
  | @more ap fb nb f next fs dst hf hfat hn hnat hne hdst hin hc ih =>
    intro k
    cases k with
    | zero => rfl
    | succ k =>
      rw [EhFrame.catchesFrom, haction hf hfat hn hnat]
      refine yields_bind.mpr ⟨_, rfl, ?_⟩
      refine yields_bind.mpr ⟨_, catchOf_yields (htypes _ List.mem_cons_self), ?_⟩
      rw [if_neg hne]
      refine yields_bind.mpr ⟨dst, yields_provided.mpr ⟨by omega, hdst.symm⟩, ?_⟩
      rw [toU64_natCast (by omega), if_neg (by omega)]
      refine yields_bind.mpr ⟨_, ih (fun f hf => htypes f (List.mem_cons_of_mem _ hf)) k, ?_⟩
      rw [yields_pure, List.take_succ_cons]
      exact (catchesOf_cons types f _).symm

theorem UlebBytes.length_pos {bs : List UInt8} {n : ℕ} (h : UlebBytes bs n) : 0 < bs.length := by
  obtain ⟨⟨l, hg⟩, -⟩ := h
  exact hg.length_pos

theorem siteRecord_yields {m : Memory} {pre b₁ b₂ b₃ b₄ rest : List UInt8}
    {start len lp action : ℕ} (h₁ : UlebBytes b₁ start) (h₂ : UlebBytes b₂ len)
    (h₃ : UlebBytes b₃ lp) (h₄ : UlebBytes b₄ action)
    (hdata : m.data = pre ++ (b₁ ++ (b₂ ++ (b₃ ++ (b₄ ++ rest))))) :
    (siteRecord m 0x01 pre.length).Yields ⟨start, len, lp, action,
      pre.length + b₁.length + b₂.length + b₃.length + b₄.length⟩ := by
  have hfits := m.fits
  have htotal : m.data.length = pre.length + (b₁.length + (b₂.length + (b₃.length +
      (b₄.length + rest.length)))) := by
    simp only [hdata, List.length_append]
  have hat₁ : BytesAt m.data pre.length b₁ := hdata ▸ bytesAt_append _ _ _
  have hat₂ : BytesAt m.data (pre.length + b₁.length) b₂ := by
    have happ := bytesAt_append (pre ++ b₁) b₂ (b₃ ++ (b₄ ++ rest))
    rw [List.length_append, List.append_assoc] at happ
    exact hdata ▸ happ
  have hat₃ : BytesAt m.data (pre.length + b₁.length + b₂.length) b₃ := by
    have happ := bytesAt_append (pre ++ (b₁ ++ b₂)) b₃ (b₄ ++ rest)
    rw [List.length_append, List.length_append, ← Nat.add_assoc, List.append_assoc,
      List.append_assoc] at happ
    exact hdata ▸ happ
  have hat₄ : BytesAt m.data (pre.length + b₁.length + b₂.length + b₃.length) b₄ := by
    have happ := bytesAt_append (pre ++ (b₁ ++ (b₂ ++ b₃))) b₄ rest
    rw [List.length_append, List.length_append, List.length_append, ← Nat.add_assoc,
      ← Nat.add_assoc, List.append_assoc, List.append_assoc, List.append_assoc] at happ
    exact hdata ▸ happ
  have henc : (0x01 : UInt8) &&& 0x0f = 0x01 := by decide
  rw [siteRecord, henc]
  refine yields_bind.mpr ⟨_, yields_provided.mpr ⟨by omega, rfl⟩, ?_⟩
  rw [readEncoded_uleb h₁ hat₁]
  refine yields_bind.mpr ⟨start, rfl, ?_⟩
  refine yields_bind.mpr ⟨_, yields_provided.mpr ⟨by dsimp only; omega, rfl⟩, ?_⟩
  rw [readEncoded_uleb h₂ hat₂]
  refine yields_bind.mpr ⟨len, rfl, ?_⟩
  refine yields_bind.mpr ⟨_, yields_provided.mpr ⟨by dsimp only; omega, rfl⟩, ?_⟩
  rw [readEncoded_uleb h₃ hat₃]
  refine yields_bind.mpr ⟨lp, rfl, ?_⟩
  dsimp only
  rw [h₄.uleb hat₄]
  exact yields_bind.mpr ⟨action, rfl, rfl⟩

/-- What a call site is parsed to: its region starts from `base`, and so does its landing pad if
there is one. -/
def SiteSpec.site (s : SiteSpec) (regions base : ℕ) (catches : List GnuCatch) : GnuCallSite where
  start := wrapAdd s.start regions
  stop := wrapAdd (wrapAdd s.start regions) s.len
  landingPad := if s.lp = 0 then 0 else wrapAdd base s.lp
  catches := catches

theorem SiteBytes.callSitesFrom {m : Memory} {t : Tables} {readU32 : ℕ → Option ℕ}
    {types : ℕ → ℕ} {stop : ℕ} {bs : List UInt8} {ss : List SiteSpec}
    (h : SiteBytes m.data stop bs ss) (henc : t.siteEnc = 0x01) (hstop : t.siteStop = stop)
    (htypes : ∀ s ∈ ss, ∀ f ∈ s.chain, 0 < f →
      (readType t readU32 f.toNat).Yields (types f.toNat)) :
    ∀ k pre rest, m.data = pre ++ (bs ++ rest) → pre.length + bs.length = stop →
      bs.length < k → (EhFrame.callSitesFrom m t readU32 k pre.length).Yields
        (ss.map fun s => s.site t.lpStart t.lpStart (catchesOf types (s.chain.take 64))) := by
  induction h with
  | nil =>
    intro k pre rest hdata hend hk
    obtain ⟨k, rfl⟩ : ∃ k', k = k' + 1 := ⟨k - 1, by omega⟩
    rw [EhFrame.callSitesFrom, if_pos (by simp at hend; omega)]
    rfl
  | @cons b₁ b₂ b₃ b₄ bs s ss action h₁ h₂ h₃ h₄ hchain h ih =>
    intro k pre rest hdata hend hk
    have hpos := h₁.length_pos
    simp only [List.length_append] at hend hk
    obtain ⟨k, rfl⟩ : ∃ k', k = k' + 1 := ⟨k - 1, by omega⟩
    have hdata' : m.data = pre ++ (b₁ ++ (b₂ ++ (b₃ ++ (b₄ ++ (bs ++ rest))))) := by
      simpa only [List.append_assoc] using hdata
    have hcatches : (siteCatches m t readU32 action).Yields
        (catchesOf types (s.chain.take 64)) := by
      rw [siteCatches]
      rcases hchain with ⟨rfl, hnil⟩ | ⟨hact, hc⟩
      · rw [if_pos rfl, hnil]
        rfl
      · have hin := hc.inside
        have hfits := m.fits
        rw [if_neg (by omega)]
        refine yields_bind.mpr ⟨stop + (action - 1), yields_provided.mpr ⟨by omega, by rw [hstop]⟩,
          ?_⟩
        exact hc.catchesFrom m.small (htypes s List.mem_cons_self) 64
    have hnext : (pre ++ (b₁ ++ (b₂ ++ (b₃ ++ b₄)))).length =
        pre.length + b₁.length + b₂.length + b₃.length + b₄.length := by
      simp only [List.length_append]
      omega
    have hrest := ih (fun s' hs' => htypes s' (List.mem_cons_of_mem _ hs')) k
      (pre ++ (b₁ ++ (b₂ ++ (b₃ ++ b₄)))) rest
      (by simpa only [List.append_assoc] using hdata') (by omega) (by omega)
    rw [hnext] at hrest
    rw [EhFrame.callSitesFrom, if_neg (by omega), henc]
    refine yields_bind.mpr ⟨_, siteRecord_yields h₁ h₂ h₃ h₄ hdata', ?_⟩
    refine yields_bind.mpr ⟨_, hcatches, ?_⟩
    exact yields_bind.mpr ⟨_, hrest, rfl⟩

theorem parseLsda_parts {m : Memory} {readU32 : ℕ → Option ℕ} {pcStart : ℕ} {l : Lsda}
    {lpBytes ttBytes lenBytes siteBytes tail : List UInt8}
    (hdata : m.data = lpBytes ++ (ttBytes ++ ([0x01] ++ (lenBytes ++ (siteBytes ++ tail)))))
    (hlp : BaseBytes m.address pcStart l.lpStart lpBytes)
    (htt : TypeBytes m.address lpBytes.length readU32 l.types l.count ttBytes)
    (hlen : UlebBytes lenBytes siteBytes.length)
    (hsites : SiteBytes m.data (lpBytes.length + ttBytes.length + 1 + lenBytes.length +
      siteBytes.length) siteBytes l.sites)
    (hfilters : ∀ s ∈ l.sites, ∀ f ∈ s.chain, f ≤ l.count) (pcEnd : ℕ) :
    (parseLsda m readU32 pcStart pcEnd).Yields ⟨pcStart, pcEnd, l.sites.map fun s =>
      s.site l.lpStart l.lpStart (catchesOf l.types (s.chain.take 64))⟩ := by
  obtain ⟨enc, stop, htable, hread⟩ := htt.typeTable hdata
  have hsite := @siteTable_yields m (lpBytes ++ ttBytes) lenBytes (siteBytes ++ tail) _ hlen
    (by simpa only [List.append_assoc] using hdata) (by rw [List.length_append]; omega)
  have hpre : (lpBytes ++ (ttBytes ++ ([0x01] ++ lenBytes))).length =
      lpBytes.length + ttBytes.length + 1 + lenBytes.length := by
    simp only [List.length_append, List.length_singleton]
    omega
  have hloop := @SiteBytes.callSitesFrom m ⟨l.lpStart, enc, stop, 0x01, _⟩ readU32 l.types _ _ _
    hsites rfl rfl (fun s hs f hf hpos => hread _ _ _ _ (by omega) (by have := hfilters s hs f hf; omega))
    (m.data.length + 1) (lpBytes ++ (ttBytes ++ ([0x01] ++ lenBytes))) tail
    (by simpa only [List.append_assoc] using hdata) (by omega)
    (by simp only [hdata, List.length_append]; omega)
  rw [hpre] at hloop
  rw [List.length_append] at hsite
  rw [parseLsda]
  refine yields_bind.mpr ⟨_, hlp.landingBase hdata, ?_⟩
  refine yields_bind.mpr ⟨_, htable, ?_⟩
  refine yields_bind.mpr ⟨_, hsite, ?_⟩
  exact yields_bind.mpr ⟨_, hloop, rfl⟩

/-- The call sites of an LSDA are read back in order; the regions are relative to the base of the
landing pads, and of a chain the first 64 actions count. -/
theorem parseLsda_encodes (m : Memory) (readU32 : ℕ → Option ℕ) (pcStart pcEnd : ℕ) (l : Lsda)
    (h : Encodes m readU32 pcStart l) :
    (parseLsda m readU32 pcStart pcEnd).Yields ⟨pcStart, pcEnd, l.sites.map fun s =>
      s.site l.lpStart l.lpStart (catchesOf l.types (s.chain.take 64))⟩ := by
  obtain ⟨hdata, hlp, htt, hlen, hsites, hfilters⟩ := h
  exact parseLsda_parts hdata hlp htt hlen hsites hfilters pcEnd

theorem ulebBytes_byte {b : UInt8} (h : b.toNat < 128) : UlebBytes [b] b.toNat :=
  ⟨⟨b, .last b h⟩, by simp, by omega⟩

theorem slebBytes_byte {b : UInt8} (h : b.toNat < 64) : SlebBytes [b] b.toNat :=
  ⟨⟨b.toNat, b, .last b (by omega), by rw [if_pos h]⟩, by simp, by omega, by omega⟩

theorem siteBytes_cons {d : List UInt8} {stop : ℕ} {b₁ b₂ b₃ b₄ : UInt8} {bs : List UInt8}
    {chain : List ℤ} {ss : List SiteSpec} (h₁ : b₁.toNat < 128) (h₂ : b₂.toNat < 128)
    (h₃ : b₃.toNat < 128) (h₄ : b₄.toNat < 128)
    (hchain : b₄.toNat = 0 ∧ chain = [] ∨
      0 < b₄.toNat ∧ ChainAt d (stop + (b₄.toNat - 1)) chain)
    (h : SiteBytes d stop bs ss) : SiteBytes d stop (b₁ :: b₂ :: b₃ :: b₄ :: bs)
      (⟨b₁.toNat, b₂.toNat, b₃.toNat, chain⟩ :: ss) :=
  @SiteBytes.cons d stop [b₁] [b₂] [b₃] [b₄] bs ⟨_, _, _, chain⟩ ss _ (ulebBytes_byte h₁)
    (ulebBytes_byte h₂) (ulebBytes_byte h₃) (ulebBytes_byte h₄) hchain h

/-- A region without a handler, and one with a catch of the only type. -/
theorem parseLsda_encodes_two :
    let readU32 : ℕ → Option ℕ := fun a => if a = 0x40800f then some 0xff5 else none
    (parseLsda ⟨0x408000, [0xff, 0x9b, 0x10, 0x01, 0x08, 0x10, 0x05, 0x00, 0x00, 0x20, 0x05, 0x40,
      0x01, 0x01, 0x00, 0xf5, 0x0f, 0x00, 0x00], by norm_num, by norm_num⟩ readU32
      0x401000 0x401100).Yields
      ⟨0x401000, 0x401100, [⟨0x401010, 0x401015, 0, []⟩,
        ⟨0x401020, 0x401025, 0x401040, [⟨1, 0x409004⟩]⟩]⟩ := by
  intro readU32
  refine parseLsda_encodes _ readU32 0x401000 0x401100 ⟨0x401000, 1, fun _ => 0x409004,
    [⟨0x10, 5, 0, []⟩, ⟨0x20, 5, 0x40, [1]⟩]⟩ ?_
  refine @Encodes.intro _ _ _ _ [0xff] [0x9b, 0x10] [0x08]
    [0x10, 0x05, 0x00, 0x00, 0x20, 0x05, 0x40, 0x01] _ rfl .omitted ?_
    (ulebBytes_byte (by decide)) ?_ ?_
  · have hstop : 0x408013 = 0x408000 + (1 + 1 + 1) + 16 := rfl
    refine .table (by decide) (by decide) (ulebBytes_byte (by decide)) hstop (by norm_num)
      (by norm_num) fun k hpos hle => ?_
    have hone : k ≤ 1 := hle
    obtain rfl : k = 1 := by omega
    exact ⟨0xff5, rfl, .pcrel (by decide) (by norm_num) (by norm_num)⟩
  · have hone : SlebBytes [1] 1 := slebBytes_byte (by decide)
    have hzero : SlebBytes [0] 0 := slebBytes_byte (by decide)
    refine siteBytes_cons (by decide) (by decide) (by decide) (by decide) (.inl ⟨rfl, rfl⟩) ?_
    refine siteBytes_cons (by decide) (by decide) (by decide) (by decide)
      (.inr ⟨by decide, ?_⟩) .nil
    exact .last hone ⟨_, rfl⟩ hzero ⟨_, rfl⟩
  · simp

/-- With a base of their own at 0x402000, a region that is 0x10 after the start of the function is
taken for one 0x10 after the base. -/
theorem not_parseLsda_encodes :
    ¬∀ (m : Memory) (readU32 : ℕ → Option ℕ) (pcStart pcEnd : ℕ) (l : Lsda),
      Encodes m readU32 pcStart l →
      (parseLsda m readU32 pcStart pcEnd).Yields ⟨pcStart, pcEnd, l.sites.map fun s =>
        s.site pcStart l.lpStart (catchesOf l.types s.chain)⟩ := by
  intro h
  let m : Memory := ⟨0x408000, [0x00, 0x00, 0x20, 0x40, 0x00, 0xff, 0x01, 0x04, 0x10, 0x05, 0x40,
    0x00], by norm_num, by norm_num⟩
  let l : Lsda := ⟨0x402000, 0, fun _ => 0, [⟨0x10, 5, 0x40, []⟩]⟩
  have hlp : BaseBytes m.address 0x401000 l.lpStart [0x00, 0x00, 0x20, 0x40, 0x00] :=
    .absolute (.intro 0x00 0x20 0x40 0x00)
  have htt : TypeBytes m.address 5 (fun _ => none) l.types l.count [0xff] := .omitted
  have hlen : UlebBytes [0x04] 4 := ulebBytes_byte (by decide)
  have hsites : SiteBytes m.data 12 [0x10, 0x05, 0x40, 0x00] l.sites :=
    siteBytes_cons (by decide) (by decide) (by decide) (by decide) (.inl ⟨rfl, rfl⟩) .nil
  have hfilters : ∀ s ∈ l.sites, ∀ f ∈ s.chain, f ≤ l.count := by simp [l]
  have hdata : m.data = [0x00, 0x00, 0x20, 0x40, 0x00] ++ ([0xff] ++ ([0x01] ++ ([0x04] ++
    ([0x10, 0x05, 0x40, 0x00] ++ [])))) := rfl
  have hcode := parseLsda_parts hdata hlp htt hlen hsites hfilters 0x401100
  have hclaim := h m _ 0x401000 0x401100 l (.intro hdata hlp htt hlen hsites hfilters)
  exact absurd (hcode.inj hclaim) (by decide)

end Aret.EhFrame
