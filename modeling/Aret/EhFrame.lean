/-
Recovery of the GNU exception metadata: the entries of `.eh_frame` and the LSDA
of each function that has one.

Positions in a slice are natural numbers.  Where one advances by a constant past
bytes of the slice there is nothing to check; the sums and products that take a
number from the bytes or from the map of the program are checked (`addU64`,
`mulU64`, `addI64`), and so are the slices that the code takes without `get`.
-/
import Aret.Checked
import Mathlib.Tactic.Common

namespace Aret.EhFrame

open Checked

/-! ### Memory -/

/-- Bytes that are mapped at an address: they lie in the address space, and no slice has more than
`isize::MAX` of them. -/
structure Memory where
  address : ℕ
  data : List UInt8
  fits : address + data.length < 2 ^ 64
  small : data.length < 2 ^ 63

/-- A `Section` of the loaded program. -/
structure Section extends Memory where
  name : String

def Section.contains (s : Section) (addr : ℕ) : Bool :=
  s.address ≤ addr && addr < s.address + s.data.length

def Section.suffix (s : Section) (addr : ℕ) (h : s.contains addr = true) : Memory where
  address := addr
  data := s.data.drop (addr - s.address)
  fits := by
    have hfits := s.fits
    have hin : s.address ≤ addr ∧ addr < s.address + s.data.length := by
      simpa [Section.contains] using h
    rw [List.length_drop]
    omega
  small := by
    have hsmall := s.small
    rw [List.length_drop]
    omega

structure Program where
  sections : List Section

/-- Four bytes, the lowest first; `get(p..p + 4)`. -/
def le32? (d : List UInt8) (p : ℕ) : Option ℕ :=
  match d.drop p with
  | a :: b :: c :: e :: _ =>
    some (a.toNat + b.toNat * 2 ^ 8 + c.toNat * 2 ^ 16 + e.toNat * 2 ^ 24)
  | _ => none

def le16? (d : List UInt8) (p : ℕ) : Option ℕ :=
  match d.drop p with
  | a :: b :: _ => some (a.toNat + b.toNat * 2 ^ 8)
  | _ => none

namespace Program

def readFrom (prog : Program) (addr : ℕ) : Option Memory :=
  match h : prog.sections.find? fun s : Section => s.contains addr with
  | none => none
  | some s => some (s.suffix addr (List.find?_some (p := fun s : Section => s.contains addr) h))

def readU32 (prog : Program) (addr : ℕ) : Option ℕ :=
  (prog.readFrom addr).bind fun m => le32? m.data 0

end Program

/-! ### Numbers and pointers -/

/-- The loop of `uleb` and `sleb`: the bits that the groups of seven make up, the next shift and
the last byte, with the position after what was read. A number ends within ten bytes. -/
def leb : List UInt8 → ℕ → ℕ → ℕ → Option (ℕ × ℕ × UInt8) × ℕ
  | [], p, _, _ => (none, p)
  | b :: rest, p, r, sh =>
    let r := r ||| (b.toNat % 128) <<< sh % 2 ^ 64
    if b.toNat < 128 then (some (r, sh + 7, b), p + 1)
    else if 64 ≤ sh + 7 then (none, p + 1)
    else leb rest (p + 1) r (sh + 7)

def uleb (d : List UInt8) (p : ℕ) : Option ℕ × ℕ :=
  ((leb (d.drop p) p 0 0).1.map fun (r, _, _) => r, (leb (d.drop p) p 0 0).2)

def sleb (d : List UInt8) (p : ℕ) : Option ℤ × ℕ :=
  ((leb (d.drop p) p 0 0).1.map fun (r, sh, b) =>
      toI64 (if sh < 64 ∧ b &&& 0x40 ≠ 0 then r ||| (2 ^ 64 - 2 ^ sh) else r),
    (leb (d.drop p) p 0 0).2)

def peOmit : UInt8 := 0xff

/-- The kinds of value that take four bytes: `absptr`, `udata4` and `sdata4`. -/
def fourByte (enc : UInt8) : Bool :=
  enc &&& 0x0f == 0x00 || enc &&& 0x0f == 0x03 || enc &&& 0x0f == 0x0b

/-- A value of `n` bytes at `p`, which are passed over if they are there. -/
def fixed (v : Option ℤ) (p n : ℕ) : Option ℤ × ℕ :=
  match v with
  | some v => (some v, p + n)
  | none => (none, p)

def readRaw (d : List UInt8) (p : ℕ) (enc : UInt8) : Option ℤ × ℕ :=
  if enc &&& 0x0f = 0x00 ∨ enc &&& 0x0f = 0x03 then fixed ((le32? d p).map Int.ofNat) p 4
  else if enc &&& 0x0f = 0x0b then fixed ((le32? d p).map fun v : ℕ => (v : ℤ).bmod (2 ^ 32)) p 4
  else if enc &&& 0x0f = 0x02 then fixed ((le16? d p).map Int.ofNat) p 2
  else if enc &&& 0x0f = 0x01 then ((uleb d p).1.map toI64, (uleb d p).2)
  else if enc &&& 0x0f = 0x09 then sleb d p
  else (none, p)

/-- The pointer that a value stands for: absolute or relative to its own address `pc`. An offset of
0 is no pointer. -/
def based (enc : UInt8) (pc : ℕ) (raw : ℤ) : Option ℕ :=
  if raw = 0 ∧ enc &&& 0x0f ≠ 0 then some 0
  else if enc &&& 0x70 = 0x00 then some (toU64 raw)
  else if enc &&& 0x70 = 0x10 then some (toU64 (toI64 pc + raw))
  else none

def readEncoded (d : List UInt8) (p : ℕ) (enc : UInt8) (pc : ℕ) : Option ℕ × ℕ :=
  if enc = peOmit then (none, p)
  else ((readRaw d p enc).1.bind (based enc pc), (readRaw d p enc).2)

/-! ### The LSDA of a function -/

structure GnuCatch where
  filter : ℤ
  typeSlot : ℕ
  deriving DecidableEq

structure GnuCallSite where
  start : ℕ
  stop : ℕ
  landingPad : ℕ
  catches : List GnuCatch
  deriving DecidableEq

structure GnuEhFunc where
  pcStart : ℕ
  pcEnd : ℕ
  callSites : List GnuCallSite
  deriving DecidableEq

def vaof (m : Memory) (p : ℕ) : Checked ℕ := addU64 m.address p

def landingBase (m : Memory) (pcStart : ℕ) : Checked (ℕ × ℕ) := do
  let enc ← lift m.data[0]?
  if enc = peOmit then pure (pcStart, 1)
  else
    let va ← vaof m 1
    let v ← lift (readEncoded m.data 1 enc va).1
    pure (v, (readEncoded m.data 1 enc va).2)

def typeTable (m : Memory) (p : ℕ) : Checked (UInt8 × ℕ × ℕ) := do
  let enc ← lift m.data[p]?
  if enc = peOmit then pure (enc, 0, p + 1)
  else
    let off ← lift (uleb m.data (p + 1)).1
    let va ← vaof m (uleb m.data (p + 1)).2
    let base ← addU64 va off
    pure (enc, base, (uleb m.data (p + 1)).2)

def siteTable (m : Memory) (p : ℕ) : Checked (UInt8 × ℕ × ℕ) := do
  let enc ← lift m.data[p]?
  let len ← lift (uleb m.data (p + 1)).1
  let stop ← addU64 (uleb m.data (p + 1)).2 len
  if m.data.length < stop then lift none
  else pure (enc, (uleb m.data (p + 1)).2, stop)

structure Tables where
  lpStart : ℕ
  ttypeEnc : UInt8
  ttypeBase : ℕ
  siteEnc : UInt8
  siteStop : ℕ
  deriving DecidableEq

/-- What the entry of the type table at `slot` resolves to: without the dereference, which is made
when an exception is thrown. -/
def typeSlotAt (enc : UInt8) (readU32 : ℕ → Option ℕ) (slot : ℕ) : ℕ :=
  let raw := (readU32 slot).getD 0
  if raw = 0 then 0
  else if enc &&& 0x70 = 0x10 then toU64 (slot + raw)
  else raw

/-- `read_type`: the address of the slot that entry `idx` of the type table tells, or 0. -/
def readType (t : Tables) (readU32 : ℕ → Option ℕ) (idx : ℕ) : Checked ℕ :=
  if idx = 0 ∨ t.ttypeBase = 0 then pure 0
  else if fourByte t.ttypeEnc = false then pure 0
  else do
    let back ← mulU64 idx 4
    pure (typeSlotAt t.ttypeEnc readU32 (toU64 (t.ttypeBase - back)))

def catchOf (t : Tables) (readU32 : ℕ → Option ℕ) (filter : ℤ) : Checked (List GnuCatch) :=
  if 0 < filter then do
    let slot ← readType t readU32 filter.toNat
    pure [⟨filter, slot⟩]
  else pure []

def action? (d : List UInt8) (ap : ℕ) : Option (ℤ × ℕ × ℤ) :=
  (sleb d ap).1.bind fun filter =>
    (sleb d (sleb d ap).2).1.map fun next => (filter, (sleb d ap).2, next)

/-- The walk over a chain of at most `k` actions: its catches. -/
def catchesFrom (d : List UInt8) (t : Tables) (readU32 : ℕ → Option ℕ) :
    ℕ → ℕ → Checked (List GnuCatch)
  | 0, _ => pure []
  | k + 1, ap => do
    let (filter, disp, next) ← lift (action? d ap)
    let catches ← catchOf t readU32 filter
    if next = 0 then pure catches
    else
      let ap ← addI64 disp next
      if d.length ≤ toU64 ap then pure catches
      else
        let rest ← catchesFrom d t readU32 k (toU64 ap)
        pure (catches ++ rest)

/-- The numbers of a call-site record, and the position after it. -/
structure SiteRecord where
  start : ℕ
  len : ℕ
  lp : ℕ
  action : ℕ
  next : ℕ
  deriving DecidableEq

def siteRecord (m : Memory) (enc : UInt8) (p : ℕ) : Checked SiteRecord := do
  let va ← vaof m p
  let start ← lift (readEncoded m.data p enc va).1
  let p := (readEncoded m.data p enc va).2
  let va ← vaof m p
  let len ← lift (readEncoded m.data p (enc &&& 0x0f) va).1
  let p := (readEncoded m.data p (enc &&& 0x0f) va).2
  let va ← vaof m p
  let lp ← lift (readEncoded m.data p (enc &&& 0x0f) va).1
  let p := (readEncoded m.data p (enc &&& 0x0f) va).2
  let action ← lift (uleb m.data p).1
  pure ⟨start, len, lp, action, (uleb m.data p).2⟩

def siteCatches (m : Memory) (t : Tables) (readU32 : ℕ → Option ℕ) (action : ℕ) :
    Checked (List GnuCatch) :=
  if action = 0 then pure []
  else do
    let ap ← addU64 t.siteStop (action - 1)
    catchesFrom m.data t readU32 64 ap

/-- `wrapping_add` of two `u64` values. -/
def wrapAdd (a b : ℕ) : ℕ := (a + b) % 2 ^ 64

def SiteRecord.site (r : SiteRecord) (lpStart : ℕ) (catches : List GnuCatch) : GnuCallSite where
  start := wrapAdd r.start lpStart
  stop := wrapAdd (wrapAdd r.start lpStart) r.len
  landingPad := if r.lp = 0 then 0 else wrapAdd lpStart r.lp
  catches := catches

/-- The loop over the call-site table, for at most `k` records. -/
def callSitesFrom (m : Memory) (t : Tables) (readU32 : ℕ → Option ℕ) :
    ℕ → ℕ → Checked (List GnuCallSite)
  | 0, _ => fault .rounds
  | k + 1, p =>
    if t.siteStop ≤ p then pure []
    else do
      let r ← siteRecord m t.siteEnc p
      let catches ← siteCatches m t readU32 r.action
      let rest ← callSitesFrom m t readU32 k r.next
      pure (r.site t.lpStart catches :: rest)

/-- `parse_lsda`, for the LSDA that is mapped at `m.address`. -/
def parseLsda (m : Memory) (readU32 : ℕ → Option ℕ) (pcStart pcEnd : ℕ) : Checked GnuEhFunc := do
  let (lpStart, p) ← landingBase m pcStart
  let (ttypeEnc, ttypeBase, p) ← typeTable m p
  let (siteEnc, p, siteStop) ← siteTable m p
  let sites ← callSitesFrom m ⟨lpStart, ttypeEnc, ttypeBase, siteEnc, siteStop⟩ readU32
    (m.data.length + 1) p
  pure ⟨pcStart, pcEnd, sites⟩

/-! ### The entries of `.eh_frame` -/

structure Cie where
  fdeEnc : UInt8
  lsdaEnc : UInt8
  hasLsda : Bool
  deriving DecidableEq

def Cie.absent : Cie := ⟨0x00, peOmit, false⟩

/-- The letters of an augmentation after the `z`, read at `p`. -/
def readLetters (m : Memory) : List UInt8 → ℕ → Cie → Checked Cie
  | [], _, c => pure c
  | l :: letters, p, c =>
    if l = 0x52 then readLetters m letters (p + 1) { c with fdeEnc := m.data[p]?.getD 0x00 }
    else if l = 0x50 then do
      -- the personality: an encoded pointer after its encoding
      let va ← addU64 m.address (p + 1)
      readLetters m letters (readEncoded m.data (p + 1) (m.data[p]?.getD 0) va).2 c
    else if l = 0x4c then
      readLetters m letters (p + 1) { c with lsdaEnc := m.data[p]?.getD peOmit, hasLsda := true }
    else readLetters m letters p c

/-- The text at `p`, up to a NUL or to `stop`. -/
def textAt (d : List UInt8) (p stop : ℕ) : List UInt8 :=
  ((d.take stop).drop p).takeWhile (· ≠ 0)

/-- Where the augmentation data starts, for a text at `p`: after the text, the two factors, the
register and the length. -/
def augData (d : List UInt8) (p : ℕ) (aug : List UInt8) : ℕ :=
  (uleb d (uleb d (sleb d (uleb d (p + aug.length + 1)).2).2).2).2

/-- The branch of a CIE, whose identifier is at `p` and followed by the version. -/
def parseCie (m : Memory) (p stop : ℕ) : Checked Cie := do
  let aug ← provided (p + 5 ≤ m.data.length) .bounds (textAt m.data (p + 5) stop)
  match aug with
  | [] => pure .absent
  | z :: letters =>
    if z = 0x7a then readLetters m letters (augData m.data (p + 5) aug) .absent
    else pure .absent

/-- The length of the code of an FDE, which is never relative, and the position after it. -/
def pcRange (d : List UInt8) (enc : UInt8) (p : ℕ) : ℕ × ℕ :=
  if fourByte enc then ((le32? d p).getD 0, p + 4) else (0, p)

/-- What an FDE tells of the LSDA: its position with the start and the length of the code; only
where there is one. -/
def fdeLsda (m : Memory) (c : Cie) (p : ℕ) : Checked (Option (ℕ × ℕ × ℕ)) := do
  let va ← addU64 m.address (p + 4)
  let (start, q) := readEncoded m.data (p + 4) c.fdeEnc va
  let (range, q) := pcRange m.data c.fdeEnc q
  match start with
  | none => pure none
  | some start =>
    if c.hasLsda = true ∧ range ≠ 0 then pure (some (start, range, (uleb m.data q).2))
    else pure none

def parseFde (prog : Program) (m : Memory) (c : Cie) (p : ℕ) : Checked GnuEhFunc := do
  let some (start, range, q) ← fdeLsda m c p | lift none
  let va ← addU64 m.address q
  let lsda ← lift (readEncoded m.data q c.lsdaEnc va).1
  if lsda = 0 then lift none
  else
    let mem ← lift (prog.readFrom lsda)
    let stop ← addU64 start range
    parseLsda mem prog.readU32 start stop

/-- The length of the entry at `off`, where the loop has one to read. -/
def entryLength? (d : List UInt8) (off : ℕ) : Option ℕ :=
  (le32? d off).bind fun len =>
    if len = 0 ∨ len = 0xffffffff ∨ d.length < off + 4 + len then none else some len

/-- `d[p..p + 4]`. -/
def slice32 (d : List UInt8) (p : ℕ) : Checked ℕ :=
  match le32? d p with
  | some v => pure v
  | none => fault .bounds

/-- The `cies` that an FDE finds: the one filed at the position that lies `id` bytes back. -/
def findCie (cies : List (ℕ × Cie)) (p id : ℕ) : Cie :=
  ((cies.find? fun e => e.1 + id == p).map Prod.snd).getD .absent

def entriesFrom (prog : Program) (m : Memory) :
    ℕ → List (ℕ × Cie) → ℕ → Checked (List GnuEhFunc)
  | 0, _, _ => fault .rounds
  | k + 1, cies, off =>
    match entryLength? m.data off with
    | none => pure []
    | some len => do
      let id ← slice32 m.data (off + 4)
      if id = 0 then
        let c ← parseCie m (off + 4) (off + 4 + len)
        entriesFrom prog m k ((off, c) :: cies) (off + 4 + len)
      else
        -- an FDE that does not parse is skipped
        let f ← attempt (parseFde prog m (findCie cies (off + 4) id) (off + 4))
        let rest ← entriesFrom prog m k cies (off + 4 + len)
        pure (f.toList ++ rest)

/-- The section `.eh_frame`. -/
def Program.ehFrame (prog : Program) : Option Section :=
  prog.sections.find? fun s => s.name == ".eh_frame"

def gnuEhEntries (prog : Program) : Checked (List GnuEhFunc) :=
  match prog.ehFrame with
  | none => pure []
  | some sec => entriesFrom prog sec.toMemory (sec.data.length + 1) [] 0

end Aret.EhFrame
