/-
Percent-encoding of text: every byte of its UTF-8 that is not safe is written as a percent sign and
two hexadecimal digits.
-/
import Mathlib.Data.List.Basic

namespace Percent

/-- The digit as `quote` writes it. -/
def hexDigit (n : ℕ) : Char := if n < 10 then Char.ofNat (48 + n) else Char.ofNat (55 + n)

def hexValue (c : Char) : Option ℕ :=
  if 48 ≤ c.toNat ∧ c.toNat ≤ 57 then some (c.toNat - 48)
  else if 65 ≤ c.toNat ∧ c.toNat ≤ 70 then some (c.toNat - 55)
  else if 97 ≤ c.toNat ∧ c.toNat ≤ 102 then some (c.toNat - 87)
  else none

variable (safe : Char → Bool) (replace : List UInt8 → String)

def quoteByte (b : UInt8) : List Char :=
  if b.toNat < 128 ∧ safe (Char.ofNat b.toNat) = true then [Char.ofNat b.toNat]
  else ['%', hexDigit (b.toNat / 16), hexDigit (b.toNat % 16)]

def bytes (s : String) : List UInt8 := s.toByteArray.data.toList

def quote (s : String) : String := String.ofList ((bytes s).flatMap (quoteByte safe))

/-- The bytes of an ASCII text; a percent sign without two digits stands for itself. -/
def unescape : List Char → List UInt8
  | '%' :: h :: l :: cs =>
    match hexValue h, hexValue l with
    | some a, some b => UInt8.ofNat (16 * a + b) :: unescape cs
    | _, _ => 37 :: unescape (h :: l :: cs)
  | c :: cs => UInt8.ofNat c.toNat :: unescape cs
  | [] => []

/-- Ill-formed UTF-8 decodes to what `replace` puts in its place. -/
def decode (bs : List UInt8) : String := (String.fromUTF8? ⟨bs.toArray⟩).getD (replace bs)

def unquoteFrom (run : List Char) : List Char → String
  | [] => decode replace (unescape run)
  | c :: cs =>
    if c.toNat < 128 then unquoteFrom (run ++ [c]) cs
    else decode replace (unescape run) ++ String.singleton c ++ unquoteFrom [] cs

def unquote (s : String) : String := unquoteFrom replace [] s.toList

/-! ### The round trip -/

theorem hexValue_hexDigit {n : ℕ} (hn : n < 16) : hexValue (hexDigit n) = some n := by
  have h : ∀ m : Fin 16, hexValue (hexDigit m) = some m.1 := by decide
  exact h ⟨n, hn⟩

theorem hexDigit_ascii {n : ℕ} (hn : n < 16) : (hexDigit n).toNat < 128 := by
  have h : ∀ m : Fin 16, (hexDigit m).toNat < 128 := by decide
  exact h ⟨n, hn⟩

theorem toNat_ofNat {n : ℕ} (hn : n < 128) : (Char.ofNat n).toNat = n := by
  have h : n.isValidChar := Or.inl (by omega)
  rw [Char.ofNat, dif_pos h]
  rfl

theorem unescape_cons {c : Char} (hc : c ≠ '%') (cs : List Char) :
    unescape (c :: cs) = UInt8.ofNat c.toNat :: unescape cs := by
  rw [unescape]
  rintro h l cs' rfl
  exact absurd rfl hc

theorem unescape_quoteByte (hs : safe '%' = false) (b : UInt8) (cs : List Char) :
    unescape (quoteByte safe b ++ cs) = b :: unescape cs := by
  have hb : b.toNat < 256 := b.toNat_lt
  rw [quoteByte]
  split
  · rename_i hsafe
    have hne : Char.ofNat b.toNat ≠ '%' := by
      intro h
      rw [h, hs] at hsafe
      exact Bool.false_ne_true hsafe.2
    have hto : (Char.ofNat b.toNat).toNat = b.toNat :=
      toNat_ofNat hsafe.1
    rw [List.singleton_append, unescape_cons hne, hto, UInt8.ofNat_toNat]
  · have hval : UInt8.ofNat (16 * (b.toNat / 16) + b.toNat % 16) = b := by
      rw [Nat.div_add_mod, UInt8.ofNat_toNat]
    show unescape ('%' :: hexDigit _ :: hexDigit _ :: cs) = _
    rw [unescape, hexValue_hexDigit (by omega), hexValue_hexDigit (by omega)]
    exact congrArg (· :: unescape cs) hval

theorem unescape_flatMap (hs : safe '%' = false) (bs : List UInt8) :
    unescape (bs.flatMap (quoteByte safe)) = bs := by
  induction bs with
  | nil => rfl
  | cons b bs ih => rw [List.flatMap_cons, unescape_quoteByte safe hs, ih]

theorem ascii_of_mem_quoteByte {b : UInt8} {c : Char} (h : c ∈ quoteByte safe b) :
    c.toNat < 128 := by
  have hb : b.toNat < 256 := b.toNat_lt
  rw [quoteByte] at h
  split at h
  · rename_i hsafe
    obtain rfl := List.mem_singleton.mp h
    exact (toNat_ofNat hsafe.1).symm ▸ hsafe.1
  · simp only [List.mem_cons, List.not_mem_nil, or_false] at h
    rcases h with rfl | rfl | rfl
    · decide
    · exact hexDigit_ascii (by omega)
    · exact hexDigit_ascii (by omega)

theorem unquoteFrom_ascii {cs : List Char} (h : ∀ c ∈ cs, c.toNat < 128) (run : List Char) :
    unquoteFrom replace run cs = decode replace (unescape (run ++ cs)) := by
  induction cs generalizing run with
  | nil => rw [unquoteFrom, List.append_nil]
  | cons c cs ih =>
    rw [unquoteFrom, if_pos (h c List.mem_cons_self), ih fun d hd => h d (List.mem_cons_of_mem c hd),
      List.append_assoc, List.singleton_append]

theorem decode_bytes (s : String) : decode replace (bytes s) = s := by
  have h : (⟨(bytes s).toArray⟩ : ByteArray) = s.toByteArray := rfl
  rw [decode, h, String.fromUTF8?, dif_pos s.isValidUTF8]
  rfl

theorem unquote_quote (hs : safe '%' = false) (s : String) :
    unquote replace (quote safe s) = s := by
  rw [unquote, quote, String.toList_ofList, unquoteFrom_ascii, List.nil_append,
    unescape_flatMap safe hs, decode_bytes]
  intro c hc
  obtain ⟨b, _, hb⟩ := List.mem_flatMap.mp hc
  exact ascii_of_mem_quoteByte safe hb

end Percent
