/-
The formatters of the runtime.

Design notes: the buffer for the specification is the list of the bytes in it.  The
formatters differ in the size of the scratch buffer and in characters and strings, so
that one definition has both.
-/
import Aret.FormatRef

namespace Aret.Vformat

/-! ### The specification -/

/-- `sizeof(spec)`. -/
def specSize : ℕ := 80

def flagLoop (a : ℕ → UInt32) : Units → Units → ℕ → Units × Units × ℕ
  | [], spec, ai => (spec, [], ai)
  | c :: p, spec, ai =>
    if isFlag c ∧ spec.length < specSize - 16 then
      if c = unit '*' then flagLoop a p (spec ++ intText (a ai)) (ai + 1)
      else flagLoop a p (spec ++ [c]) ai
    else (spec, c :: p, ai)

def sizeStep (spec : Units) : Units → Units × Bool × Units
  | 0x49 :: 0x36 :: 0x34 :: p =>
    (if spec.length < specSize - 3 then spec ++ [unit 'l', unit 'l'] else spec, true, p)
  | 0x49 :: 0x33 :: 0x32 :: p => (spec, false, p)
  | 0x49 :: p => (spec, false, p)
  | p => (spec, false, p)

def push (spec : Units) (c : ℕ) : Units :=
  if spec.length < specSize - 2 then spec ++ [c] else spec

structure Mods where
  spec : Units
  longlong : Bool
  seenL : Bool
  seenH : Bool

def Mods.see (m : Mods) (c : ℕ) : Mods where
  spec := push m.spec c
  longlong := m.longlong || (c == unit 'l' && m.seenL) || c == unit 'L' || c == unit 'j'
  seenL := m.seenL || c == unit 'l'
  seenH := m.seenH || c == unit 'h'

def modLoop : Units → Mods → Mods × Units
  | [], m => (m, [])
  | c :: p, m => if isModifier c then modLoop p (m.see c) else (m, c :: p)

/-- A conversion as it was read, what is behind it and the next argument. -/
structure Parsed where
  mods : Mods
  conv : ℕ
  rest : Units
  ai : ℕ

def specMods (a : ℕ → UInt32) (p : Units) (ai : ℕ) : Mods × Units :=
  let flags := flagLoop a p [unit '%'] ai
  let size := sizeStep flags.1 flags.2.1
  modLoop size.2.2 ⟨size.1, size.2.1, false, false⟩

/-- The parser of a conversion, from behind its `%`.  A unit is cut to a `char`. -/
def parseSpec (a : ℕ → UInt32) (p : Units) (ai : ℕ) : Option Parsed :=
  let mods := specMods a p ai
  match mods.2 with
  | [] => none
  | c :: rest =>
    let conv := c % 2 ^ 8
    if conv = 0 then none
    else
      some ⟨{ mods.1 with spec := push mods.1.spec conv }, conv, rest,
        (flagLoop a p [unit '%'] ai).2.2⟩

/-! ### The conversions -/

/-- A call of `snprintf`, a text that it copies, or a unit that is written. -/
inductive Emit
  | formatted (spec : Units) (arg : Arg)
  | copied (s : Units)
  | unit (u : ℕ)

/-- The specification without length modifiers, for `%s`. -/
def plainSpec (spec : Units) : Units :=
  ((spec.filter fun c => !isModifier c).map fun c =>
    if c = unit 'S' then unit 's' else c).take (specSize - 2)

/-- A wide string copied into `nb`. -/
def narrowCopy (s : Units) : Units := (s.take 2047).map narrowUnit

def emit (v : Version) (e : Args) (d : Parsed) : Emit × ℕ :=
  let m := d.mods
  let w := e.words d.ai
  match kind d.conv with
  | .int =>
    if m.longlong then (.formatted m.spec (.dword (e.dword d.ai)), 2)
    else (.formatted m.spec (.word w.toNat), 1)
  | .ptr => (.formatted m.spec (.ptr w.toNat), 1)
  | .double => (.formatted m.spec (.double (e.dword d.ai)), 2)
  | .char =>
    match v with
    | .narrow =>
      if d.conv = unit 'C' ∨ m.seenL then
        (.formatted [unit '%', unit 'c'] (.word (narrowed w)), 1)
      else (.formatted m.spec (.word w.toNat), 1)
    | .wide =>
      let wc := w.toNat % 2 ^ 16
      (.unit (if d.conv ≠ unit 'C' ∧ m.seenH then wc % 2 ^ 8 else wc), 1)
  | .string =>
    match v with
    | .narrow =>
      if d.conv = unit 'S' ∨ m.seenL then
        (.formatted (plainSpec m.spec) (.str (narrowCopy (e.wideAt w))), 1)
      else (.formatted m.spec (.str (e.narrowAt w)), 1)
    | .wide =>
      if d.conv = unit 'S' ∨ m.seenH then
        (.formatted (plainSpec m.spec) (.str ((e.narrowAt w).take 2047)), 1)
      else (.formatted (plainSpec m.spec) (.str (narrowCopy (e.wideAt w))), 1)
  | .other => (.copied m.spec, 0)

/-- `sizeof(tmp)`. -/
def Version.tmpSize : Version → ℕ
  | .narrow => 1024
  | .wide => 2048

/-- The copy of a text from `tmp`, where `snprintf` left what fits and a NUL; by the length of the
whole text.  It fails when it reads behind `tmp`. -/
def copyOut (v : Version) (cap : ℕ) (out : Units) (text : Option Units) : Option Units :=
  let t := text.getD []
  let tmp := t.take (v.tmpSize - 1) ++ [0]
  let count := min t.length (cap - 1 - out.length)
  if count ≤ tmp.length then some (out ++ tmp.take count) else none

def Emit.write (libc : Snprintf) (v : Version) (cap : ℕ) (out : Units) : Emit → Option Units
  | .formatted spec arg => copyOut v cap out (libc.text spec arg)
  | .copied s => copyOut v cap out (some s)
  | .unit u => some (out ++ [u])

/-! ### The formatters -/

theorem length_flagLoop_le (a : ℕ → UInt32) (p spec : Units) (ai : ℕ) :
    (flagLoop a p spec ai).2.1.length ≤ p.length := by
  induction p generalizing spec ai with
  | nil => exact le_rfl
  | cons c p ih =>
    rw [flagLoop]
    split_ifs
    · exact (ih _ _).trans (Nat.le_succ _)
    · exact (ih _ _).trans (Nat.le_succ _)
    · exact le_rfl

theorem length_sizeStep_le (spec p : Units) : (sizeStep spec p).2.2.length ≤ p.length := by
  unfold sizeStep
  split <;> simp only [List.length_cons] <;> omega

theorem length_modLoop_le (p : Units) (m : Mods) : (modLoop p m).2.length ≤ p.length := by
  induction p generalizing m with
  | nil => exact le_rfl
  | cons c p ih =>
    rw [modLoop]
    split_ifs
    · exact (ih _).trans (Nat.le_succ _)
    · exact le_rfl

theorem length_specMods_le (a : ℕ → UInt32) (p : Units) (ai : ℕ) :
    (specMods a p ai).2.length ≤ p.length :=
  (length_modLoop_le _ _).trans ((length_sizeStep_le _ _).trans (length_flagLoop_le _ _ _ _))

theorem length_parseSpec_lt {a : ℕ → UInt32} {p : Units} {ai : ℕ} {d : Parsed}
    (h : parseSpec a p ai = some d) : d.rest.length < p.length := by
  have hmods := length_specMods_le a p ai
  unfold parseSpec at h
  dsimp only at h
  split at h
  · cases h
  · rename_i c rest heq
    rw [heq, List.length_cons] at hmods
    split_ifs at h
    rw [← Option.some.inj h]
    exact hmods

def formatLoop (v : Version) (libc : Snprintf) (e : Args) (cap : ℕ) (p : Units) (ai : ℕ)
    (out : Units) : Option Units :=
  match p with
  | [] => some out
  | c :: p =>
    if cap - 1 ≤ out.length then some out
    else if c ≠ unit '%' then formatLoop v libc e cap p ai (out ++ [c])
    else if p.head? = some (unit '%') then
      formatLoop v libc e cap p.tail ai (out ++ [unit '%'])
    else
      match _h : parseSpec e.words p ai with
      | none => some out
      | some d =>
        ((emit v e d).1.write libc v cap out).bind fun out' =>
          formatLoop v libc e cap d.rest (d.ai + (emit v e d).2) out'
termination_by p.length
decreasing_by
  · exact Nat.lt_succ_self _
  · rw [List.length_tail, List.length_cons]
    omega
  · exact (length_parseSpec_lt _h).trans (Nat.lt_succ_self _)

/-- `aret_vformat`, for a capacity of at least 1: what is written before the terminator, whose
length is returned. -/
def vformat (libc : Snprintf) (e : Args) (cap : ℕ) (fmt : List UInt8) : Option Units :=
  formatLoop .narrow libc e cap (fmt.map UInt8.toNat) 0 []

def wvformat (libc : Snprintf) (e : Args) (cap : ℕ) (fmt : List UInt16) : Option Units :=
  if cap = 0 then some [] else formatLoop .wide libc e cap (fmt.map UInt16.toNat) 0 []

/-- `aret_printf`: what is written to the standard output. -/
def printf (libc : Snprintf) (e : Args) (fmt : List UInt8) : Option Units :=
  vformat libc e 8192 fmt

end Aret.Vformat
