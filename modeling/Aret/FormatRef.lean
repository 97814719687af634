/-
What a format string says.

A format string is literal units and conversions.  Each conversion is formatted by
itself, as the C library formats it, with the words that its type takes.

Design notes: strings are lists of their units before the terminator.  The text of a
wide character is that of a `?`, with the character in its place.
-/
import Mathlib.Data.List.TakeWhile
import Mathlib.Data.Nat.Digits.Lemmas
import Mathlib.Tactic

namespace Aret.Vformat

abbrev Units := List ℕ

def unit (c : Char) : ℕ := c.toNat

/-- What `snprintf` is given for a conversion. -/
inductive Arg
  | word (w : ℕ)
  | dword (w : ℕ)
  | ptr (w : ℕ)
  | double (bits : ℕ)
  | str (s : Units)
deriving DecidableEq

/-- `snprintf`, by the whole text for a specification; it may also fail. -/
structure Snprintf where
  text : Units → Arg → Option Units

/-- The words behind the format string, and the strings that words point to. -/
structure Args where
  words : ℕ → UInt32
  narrow : UInt32 → List UInt8
  wide : UInt32 → List UInt16

inductive Version
  | narrow
  | wide
deriving DecidableEq

def null : Units := ['(', 'n', 'u', 'l', 'l', ')'].map unit

namespace Args

def dword (e : Args) (ai : ℕ) : ℕ := (e.words (ai + 1)).toNat * 2 ^ 32 + (e.words ai).toNat

def narrowAt (e : Args) (q : UInt32) : Units :=
  if q = 0 then null else (e.narrow q).map UInt8.toNat

def wideAt (e : Args) (q : UInt32) : Units :=
  if q = 0 then null else (e.wide q).map UInt16.toNat

end Args

/-! ### The parts of a conversion -/

def isFlag (c : ℕ) : Bool :=
  c ∈ ['-', '+', ' ', '#', '0', '1', '2', '3', '4', '5', '6', '7', '8', '9', '.', '*'].map unit

def isModifier (c : ℕ) : Bool := c ∈ ['l', 'h', 'L', 'z', 'j', 't'].map unit

inductive Kind
  | int
  | ptr
  | double
  | char
  | string
  | other
deriving DecidableEq

def kind (c : ℕ) : Kind :=
  if c ∈ ['d', 'i', 'u', 'x', 'X', 'o'].map unit then .int
  else if c = unit 'p' then .ptr
  else if c ∈ ['e', 'E', 'f', 'F', 'g', 'G', 'a', 'A'].map unit then .double
  else if c ∈ ['c', 'C'].map unit then .char
  else if c ∈ ['s', 'S'].map unit then .string
  else .other

def numeral (n : ℕ) : Units :=
  if n = 0 then [unit '0'] else (Nat.digits 10 n).reverse.map (· + unit '0')

def isNegative (w : UInt32) : Bool := 2 ^ 31 ≤ w.toNat

/-- A word as `%d`. -/
def intText (w : UInt32) : Units :=
  if isNegative w then unit '-' :: numeral (2 ^ 32 - w.toNat) else numeral w.toNat

/-- The flags, the width and the precision, then what is behind them and the next argument.  A
negative precision is none. -/
def flagPart (a : ℕ → UInt32) : Units → Units → ℕ → Units × Units × ℕ
  | [], flags, ai => (flags, [], ai)
  | c :: p, flags, ai =>
    if isFlag c then
      if c = unit '*' then
        if flags.getLast? = some (unit '.') ∧ isNegative (a ai) then
          flagPart a p flags.dropLast (ai + 1)
        else flagPart a p (flags ++ intText (a ai)) (ai + 1)
      else flagPart a p (flags ++ [c]) ai
    else (flags, c :: p, ai)

/-- `I64`, `I32` and `I`: the modifiers that they are, and whether the argument has 64 bits. -/
def sizePrefix : Units → Units × Bool × Units
  | 0x49 :: 0x36 :: 0x34 :: p => ([unit 'l', unit 'l'], true, p)
  | 0x49 :: 0x33 :: 0x32 :: p => ([], false, p)
  | 0x49 :: p => ([], false, p)
  | p => ([], false, p)

structure Conversion where
  flags : Units
  mods : Units
  conv : ℕ
  longlong : Bool
  seenL : Bool
  seenH : Bool

/-- What stands behind a `%`, then what is behind it and the next argument. -/
def conversion (a : ℕ → UInt32) (p : Units) (ai : ℕ) : Option (Conversion × Units × ℕ) :=
  let part := flagPart a p [] ai
  let size := sizePrefix part.2.1
  let mods := size.2.2.takeWhile isModifier
  match size.2.2.dropWhile isModifier with
  | [] => none
  | c :: rest =>
    some (⟨part.1, size.1 ++ mods, c,
      size.2.1 || decide (1 < mods.count (unit 'l')) || mods.contains (unit 'L') ||
        mods.contains (unit 'j'), mods.contains (unit 'l'), mods.contains (unit 'h')⟩,
      rest, part.2.2)

namespace Conversion

def specWith (d : Conversion) (mods : Units) (conv : ℕ) : Units :=
  unit '%' :: (d.flags ++ mods ++ [conv])

def spec (d : Conversion) : Units := d.specWith d.mods d.conv

def words (d : Conversion) : ℕ :=
  match kind d.conv with
  | .int => if d.longlong then 2 else 1
  | .double => 2
  | .ptr | .char | .string => 1
  | .other => 0

/-- The argument of a character conversion has 16 bits in the narrow formatter, and 8 bits in the
wide one. -/
def wideChar (d : Conversion) : Bool := d.conv = unit 'C' || d.seenL

def narrowChar (d : Conversion) : Bool := d.conv ≠ unit 'C' && d.seenH

def wideString (d : Conversion) : Version → Bool
  | .narrow => d.conv = unit 'S' || d.seenL
  | .wide => !(d.conv = unit 'S' || d.seenH)

end Conversion

def narrowUnit (u : ℕ) : ℕ := if u < 0x100 then u else unit '?'

def narrowed (w : UInt32) : ℕ :=
  let wc := w.toNat % 2 ^ 16
  if wc ≠ 0 ∧ wc < 0x100 then wc else unit '?'

def Conversion.string (d : Conversion) (e : Args) (v : Version) (ai : ℕ) : Units :=
  if d.wideString v then
    match v with
    | .narrow => (e.wideAt (e.words ai)).map narrowUnit
    | .wide => e.wideAt (e.words ai)
  else e.narrowAt (e.words ai)

def Conversion.text (d : Conversion) (libc : Snprintf) (e : Args) (v : Version) (ai : ℕ) : Units :=
  match kind d.conv with
  | .int =>
    (libc.text d.spec
      (if d.longlong then .dword (e.dword ai) else .word (e.words ai).toNat)).getD []
  | .ptr => (libc.text d.spec (.ptr (e.words ai).toNat)).getD []
  -- a `long double` is a `double`
  | .double =>
    (libc.text (if d.longlong then d.specWith [] d.conv else d.spec) (.double (e.dword ai))).getD []
  | .char =>
    match v with
    | .narrow =>
      if d.wideChar then
        (libc.text (d.specWith [] (unit 'c')) (.word (narrowed (e.words ai)))).getD []
      else (libc.text d.spec (.word (e.words ai).toNat)).getD []
    | .wide =>
      let wc := (e.words ai).toNat % (if d.narrowChar then 2 ^ 8 else 2 ^ 16)
      ((libc.text (d.specWith [] (unit 'c')) (.word (unit '?'))).getD []).map fun u =>
        if u = unit '?' then wc else u
  | .string =>
    (libc.text (if v = .narrow ∧ d.wideString v = false then d.spec else d.specWith [] (unit 's'))
      (.str (d.string e v ai))).getD []
  | .other => d.spec

/-! ### The format string -/

/-- A literal unit; a conversion with what stands behind its `%`, the argument there and the
argument of the conversion itself; or a conversion that is cut short. -/
inductive Token
  | literal (u : ℕ)
  | conv (d : Conversion) (raw : Units) (start ai : ℕ)
  | cut (raw : Units) (start : ℕ)

def Token.text (libc : Snprintf) (e : Args) (v : Version) : Token → Units
  | .literal u => [u]
  | .conv d _ _ ai => d.text libc e v ai
  | .cut _ _ => []

variable {a : ℕ → UInt32} {p flags : Units} {ai : ℕ}

theorem length_flagPart_le (a : ℕ → UInt32) (p flags : Units) (ai : ℕ) :
    (flagPart a p flags ai).2.1.length ≤ p.length := by
  induction p generalizing flags ai with
  | nil => exact le_rfl
  | cons c p ih =>
    rw [flagPart]
    split_ifs
    · exact (ih _ _).trans (Nat.le_succ _)
    · exact (ih _ _).trans (Nat.le_succ _)
    · exact (ih _ _).trans (Nat.le_succ _)
    · exact le_rfl

theorem length_sizePrefix_le (p : Units) : (sizePrefix p).2.2.length ≤ p.length := by
  unfold sizePrefix
  split <;> simp only [List.length_cons] <;> omega

theorem length_conversion_lt {d : Conversion} {rest : Units} {ai' : ℕ}
    (h : conversion a p ai = some (d, rest, ai')) : rest.length < p.length := by
  have hpart := length_flagPart_le a p [] ai
  have hsize := length_sizePrefix_le (flagPart a p [] ai).2.1
  have hdrop := List.length_dropWhile_le isModifier (sizePrefix (flagPart a p [] ai).2.1).2.2
  unfold conversion at h
  dsimp only at h
  split at h
  · cases h
  · rename_i c rest' heq
    obtain ⟨-, rfl, -⟩ := Option.some.inj h
    rw [heq, List.length_cons] at hdrop
    omega

def tokens (a : ℕ → UInt32) (p : Units) (ai : ℕ) : List Token :=
  match p with
  | [] => []
  | c :: p =>
    if c ≠ unit '%' then .literal c :: tokens a p ai
    else if p.head? = some (unit '%') then .literal c :: tokens a p.tail ai
    else
      match _h : conversion a p ai with
      | none => [.cut p ai]
      | some (d, rest, ai') => .conv d p ai ai' :: tokens a rest (ai' + d.words)
termination_by p.length
decreasing_by
  · exact Nat.lt_succ_self _
  · rw [List.length_tail, List.length_cons]
    omega
  · exact (length_conversion_lt _h).trans (Nat.lt_succ_self _)

theorem tokens_conv {d : Conversion} {rest : Units} {ai' : ℕ} (hp : p.head? ≠ some (unit '%'))
    (h : conversion a p ai = some (d, rest, ai')) :
    tokens a (unit '%' :: p) ai = .conv d p ai ai' :: tokens a rest (ai' + d.words) := by
  rw [tokens, if_neg (not_not.mpr rfl), if_neg hp]
  split
  · rename_i heq
    rw [h] at heq
    cases heq
  · rename_i d' rest' ai'' heq
    rw [h] at heq
    obtain ⟨rfl, rfl, rfl⟩ := Option.some.inj heq
    rfl

theorem tokens_cut (hp : p.head? ≠ some (unit '%')) (h : conversion a p ai = none) :
    tokens a (unit '%' :: p) ai = [.cut p ai] := by
  rw [tokens, if_neg (not_not.mpr rfl), if_neg hp]
  split
  · rfl
  · rename_i d rest ai' heq
    rw [h] at heq
    cases heq

def reference (libc : Snprintf) (e : Args) (v : Version) (p : Units) : Units :=
  (tokens e.words p 0).flatMap (Token.text libc e v)

end Aret.Vformat
