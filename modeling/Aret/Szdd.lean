/-
The LZ32 files: decompression of the SZDD format.
-/
import Aret.Lzss
import Aret.PathBytes

namespace Aret.Szdd

open Lzss (Item Window expand)

/-- The state of the decoder: the next byte of the input, what is in the output, and the ring. -/
structure Decoder where
  ip : ℕ
  out : Bytes
  ring : Window UInt8

namespace Decoder

variable (inp : Bytes) (osize : ℕ)

/-- `o[op++] = b; ring[rp] = b; rp = (rp + 1) & 0xFFF`; `none` outside of the output. -/
def emit (z : Decoder) (b : UInt8) : Option Decoder :=
  if z.out.length < osize then some { z with out := z.out ++ [b], ring := z.ring.write 4096 b }
  else none

/-- The loop of a back-reference, when `n` bytes are left of it. -/
def copyRef : ℕ → ℕ → Decoder → Option Decoder
  | _, 0, z => some z
  | q, n + 1, z =>
    if z.out.length < osize then
      (z.emit osize (z.ring.cell q)).bind (copyRef ((q + 1) % 4096) n)
    else some z

/-- `control & (1u << bit)`, when `n` bits are left. -/
def isLiteral (control : UInt8) (n : ℕ) : Bool := control.toNat.testBit (8 - n)

/-- The loop over the bits of a control byte, when `n` of them are left. -/
def bits (control : UInt8) : ℕ → Decoder → Option Decoder
  | 0, z => some z
  | n + 1, z =>
    if z.out.length < osize then
      if isLiteral control (n + 1) then
        if inp.length ≤ z.ip then some z
        else
          inp[z.ip]?.bind fun b => (emit osize { z with ip := z.ip + 1 } b).bind (bits control n)
      else if inp.length ≤ z.ip + 1 then some z
      else
        inp[z.ip]?.bind fun lo => inp[z.ip + 1]?.bind fun hi =>
          let mpos := lo.toNat + hi.toNat / 16 * 256
          let mlen := hi.toNat % 16 + 3
          (copyRef osize mpos mlen { z with ip := z.ip + 2 }).bind (bits control n)
    else some z

def groups : ℕ → Decoder → Option Decoder
  | 0, _ => none
  | fuel + 1, z =>
    if z.ip < inp.length ∧ z.out.length < osize then
      inp[z.ip]?.bind fun control =>
        (bits inp osize control 8 { z with ip := z.ip + 1 }).bind (groups fuel)
    else some z

end Decoder

/-- `SZDD\\x88\\xF0\\x27\\x33`. -/
def magic : Bytes := [0x53, 0x5A, 0x44, 0x44, 0x88, 0xF0, 0x27, 0x33]

def blankRing : Window UInt8 := ⟨fun _ => 0x20, 4096 - 16⟩

def byte (inp : Bytes) (i : ℕ) : ℕ := (inp.getD i 0).toNat

def declaredSize (inp : Bytes) : ℕ :=
  byte inp 10 + byte inp 11 * 2 ^ 8 + byte inp 12 * 2 ^ 16 + byte inp 13 * 2 ^ 24

/-- `inlen >= 14 && memcmp(in, magic, 8) == 0`. -/
def isSzdd (inp : Bytes) : Bool := 14 ≤ inp.length ∧ inp.take 8 = magic

/-- `lz_szdd_decompress`, where `malloc` says which sizes are granted: no result is a return of 0.
`none` is an access outside of the input or the output, or a decoder that goes on for longer than the
input. -/
def lzSzddDecompress (malloc : ℕ → Bool) (inp : Bytes) : Option (Option Bytes) :=
  if isSzdd inp then
    let osize := declaredSize inp
    if malloc (if osize = 0 then 1 else osize) then
      (Decoder.groups inp osize (inp.length + 1) ⟨14, [], blankRing⟩).map fun z => some z.out
    else some none
  else some none

/-! ### The items of a stream -/

/-- A literal, or a reference to a place of the ring; what is written as `n` copies `n + 3` bytes. -/
inductive Code
  | literal (b : UInt8)
  | reference (q : Fin 4096) (n : Fin 16)

def Code.item : Code → Item UInt8
  | .literal b => .literal b
  | .reference q n => .reference q (n + 3)

def extend (text : Bytes) (codes : List Code) : Bytes :=
  expand 0x20 4096 (4096 - 16) text (codes.map Code.item)

/-- The codes that lie wholly in a stream, when `n` bits of a control byte are left. -/
def codesFrom (control : UInt8) : ℕ → Bytes → List Code
  | _, [] => []
  | 0, c :: rest => codesFrom c 8 rest
  | n + 1, b :: rest =>
    if Decoder.isLiteral control (n + 1) then .literal b :: codesFrom control n rest
    else
      match rest with
      | [] => []
      | hi :: rest =>
        .reference ⟨b.toNat + hi.toNat / 16 * 256, by
            have := b.toNat_lt; have := hi.toNat_lt; omega⟩ ⟨hi.toNat % 16, by omega⟩ ::
          codesFrom control n rest

def codes (stream : Bytes) : List Code := codesFrom 0 0 stream

/-! ### The decoder -/

theorem take_extend {text : Bytes} {size : ℕ} (h : text.length = size) (cs : List Code) :
    (extend text cs).take size = text := by
  rw [← h]
  exact Lzss.take_of_prefix (Lzss.prefix_expand ..)

theorem take_extend_take (text : Bytes) (size : ℕ) (cs : List Code) :
    (extend (text.take size) cs).take size = (extend text cs).take size := by
  by_cases hle : text.length ≤ size
  · rw [List.take_of_length_le hle]
  · have hcut : (text.take size).length = size := List.length_take_of_le (by omega)
    obtain ⟨rest, hrest⟩ : text <+: extend text cs := Lzss.prefix_expand ..
    rw [take_extend hcut, ← hrest, List.take_append_of_le_length (by omega)]

@[simp] theorem codesFrom_nil (control : UInt8) (n : ℕ) : codesFrom control n [] = [] := by
  cases n <;> rfl

theorem codesFrom_literal {control : UInt8} {n : ℕ} (h : Decoder.isLiteral control (n + 1) = true)
    (b : UInt8) (rest : Bytes) :
    codesFrom control (n + 1) (b :: rest) = .literal b :: codesFrom control n rest := by
  rw [codesFrom.eq_def]
  exact if_pos h

theorem codesFrom_short {control : UInt8} {n : ℕ} (h : ¬ Decoder.isLiteral control (n + 1) = true)
    (b : UInt8) : codesFrom control (n + 1) [b] = [] := by
  rw [codesFrom.eq_def]
  exact if_neg h

theorem codesFrom_reference {control : UInt8} {n : ℕ}
    (h : ¬ Decoder.isLiteral control (n + 1) = true) {lo hi : UInt8} {q : Fin 4096} {k : Fin 16}
    (hq : lo.toNat + hi.toNat / 16 * 256 = q) (hk : hi.toNat % 16 = k) (rest : Bytes) :
    codesFrom control (n + 1) (lo :: hi :: rest) = .reference q k :: codesFrom control n rest := by
  obtain ⟨q, hq'⟩ := q
  obtain ⟨k, hk'⟩ := k
  subst hq hk
  rw [codesFrom.eq_def]
  exact if_neg h

theorem codesFrom_zero (c : UInt8) (stream : Bytes) : codesFrom c 0 stream = codes stream := by
  cases stream <;> rfl

/-! ### The decoder -/

namespace Decoder

variable {inp : Bytes} {osize : ℕ} {z : Decoder}

/-- The output does not exceed its size, and the ring shows the end of it. -/
structure Good (osize : ℕ) (z : Decoder) : Prop where
  le : z.out.length ≤ osize
  mirrors : z.ring.Mirrors 0x20 4096 (4096 - 16) z.out

theorem Good.skip (h : Good osize z) (ip : ℕ) : Good osize { z with ip := ip } := ⟨h.le, h.mirrors⟩

theorem Good.emit (h : Good osize z) (hlt : z.out.length < osize) (b : UInt8) :
    ∃ z', z.emit osize b = some z' ∧ Good osize z' ∧ z'.ip = z.ip ∧ z'.out = z.out ++ [b] ∧
      z'.ring = z.ring.write 4096 b := by
  refine ⟨_, if_pos hlt, ⟨?_, h.mirrors.write b⟩, rfl, rfl, rfl⟩
  rw [List.length_append, List.length_singleton]
  exact hlt

theorem copyRef_spec {n : ℕ} : ∀ {z : Decoder} {q : ℕ}, Good osize z → q < 4096 →
    ∃ z', copyRef osize q n z = some z' ∧ Good osize z' ∧ z'.ip = z.ip ∧ z'.out =
      (Lzss.copy 0x20 (Lzss.distance 4096 (4096 - 16) z.out.length q) n z.out).take osize := by
  induction n with
  | zero =>
    intro z q h _
    exact ⟨z, rfl, h, rfl, (List.take_of_length_le h.le).symm⟩
  | succ n ih =>
    intro z q h hq
    by_cases hlt : z.out.length < osize
    · obtain ⟨z₁, hz₁, h₁, hip, hout, hring⟩ := h.emit hlt (z.ring.cell q)
      obtain ⟨z₂, hz₂, h₂, hip₂, hout₂⟩ := ih h₁ (Nat.mod_lt (q + 1) (by decide))
      refine ⟨z₂, ?_, h₂, hip₂.trans hip, ?_⟩
      · rw [copyRef, if_pos hlt, hz₁]
        exact hz₂
      · rw [hout₂, hout, Lzss.Window.distance_succ h.mirrors _ hq, Lzss.copy,
          ← h.mirrors.read hq]
    · have hfull : z.out.length = osize := le_antisymm h.le (Nat.le_of_not_lt hlt)
      refine ⟨z, if_neg hlt, h, rfl, ?_⟩
      rw [← hfull, Lzss.take_of_prefix (Lzss.prefix_copy ..)]

def rest (inp : Bytes) (osize : ℕ) (control : UInt8) (n : ℕ) (z : Decoder) : Bytes :=
  (extend z.out (codesFrom control n (inp.drop z.ip))).take osize

theorem rest_full (hfull : z.out.length = osize) (control : UInt8) (n : ℕ) :
    rest inp osize control n z = z.out := take_extend hfull _

theorem bits_spec (control : UInt8) {n : ℕ} : ∀ {z : Decoder}, Good osize z →
    ∃ z', bits inp osize control n z = some z' ∧ Good osize z' ∧ z.ip ≤ z'.ip ∧
      rest inp osize control n z = rest inp osize 0 0 z' := by
  induction n with
  | zero =>
    intro z h
    refine ⟨z, rfl, h, le_rfl, ?_⟩
    rw [rest, rest, codesFrom_zero, codesFrom_zero]
  | succ n ih =>
    intro z h
    by_cases hlt : z.out.length < osize
    · by_cases hlit : isLiteral control (n + 1) = true
      · by_cases hend : inp.length ≤ z.ip
        · -- The stream ends before the literal.
          refine ⟨z, by rw [bits, if_pos hlt, if_pos hlit, if_pos hend], h, le_rfl, ?_⟩
          rw [rest, rest, List.drop_of_length_le hend, codesFrom_nil, codesFrom_nil]
        · have hin : z.ip < inp.length := Nat.lt_of_not_le hend
          obtain ⟨z₁, hz₁, h₁, hip, hout, _⟩ := (h.skip (z.ip + 1)).emit hlt inp[z.ip]
          obtain ⟨z₂, hz₂, h₂, hip₂, hrest⟩ := ih h₁
          refine ⟨z₂, ?_, h₂, ?_, ?_⟩
          · rw [bits, if_pos hlt, if_pos hlit, if_neg hend, List.getElem?_eq_getElem hin]
            simp only [Option.bind_some, hz₁, hz₂]
          · have hip' : z₁.ip = z.ip + 1 := hip
            omega
          · rw [← hrest, rest, rest, hip, hout, List.drop_eq_getElem_cons hin,
              codesFrom_literal hlit]
            rfl
      · by_cases hend : inp.length ≤ z.ip + 1
        · -- The stream ends in or before the reference; a byte that is left stands for nothing.
          refine ⟨z, by rw [bits, if_pos hlt, if_neg hlit, if_pos hend], h, le_rfl, ?_⟩
          have hshort : (inp.drop z.ip).length ≤ 1 := by
            rw [List.length_drop]
            omega
          rw [rest, rest]
          match inp.drop z.ip, hshort with
          | [], _ => rw [codesFrom_nil, codesFrom_nil]
          | [b], _ => rw [codesFrom_short hlit, codesFrom_zero, codes, codesFrom, codesFrom_nil]
        · have hin : z.ip + 1 < inp.length := Nat.lt_of_not_le hend
          have hin' : z.ip < inp.length := by omega
          set lo := inp[z.ip] with hlo
          set hi := inp[z.ip + 1] with hhi
          have hq : lo.toNat + hi.toNat / 16 * 256 < 4096 := by
            have := lo.toNat_lt
            have := hi.toNat_lt
            omega
          obtain ⟨z₁, hz₁, h₁, hip, hout⟩ :=
            copyRef_spec (n := hi.toNat % 16 + 3) (h.skip (z.ip + 2)) hq
          obtain ⟨z₂, hz₂, h₂, hip₂, hrest⟩ := ih h₁
          refine ⟨z₂, ?_, h₂, ?_, ?_⟩
          · rw [bits, if_pos hlt, if_neg hlit, if_neg hend, List.getElem?_eq_getElem hin',
              List.getElem?_eq_getElem hin]
            simp only [Option.bind_some, ← hlo, ← hhi, hz₁, hz₂]
          · have hip' : z₁.ip = z.ip + 2 := hip
            omega
          · rw [← hrest, rest, rest, hip, hout, take_extend_take, List.drop_eq_getElem_cons hin',
              List.drop_eq_getElem_cons hin, codesFrom_reference hlit (q := ⟨_, hq⟩)
                (k := ⟨hi.toNat % 16, Nat.mod_lt _ (by decide)⟩) rfl rfl]
            rfl
    · have hfull : z.out.length = osize := le_antisymm h.le (Nat.le_of_not_lt hlt)
      refine ⟨z, by rw [bits, if_neg hlt], h, le_rfl, ?_⟩
      rw [rest_full hfull, rest_full hfull]

theorem groups_spec {fuel : ℕ} : ∀ {z : Decoder}, Good osize z → inp.length ≤ z.ip + fuel →
    ∃ z', groups inp osize (fuel + 1) z = some z' ∧ z'.out = rest inp osize 0 0 z := by
  have hstop : ∀ {z : Decoder} (fuel : ℕ), Good osize z →
      ¬ (z.ip < inp.length ∧ z.out.length < osize) →
      ∃ z', groups inp osize (fuel + 1) z = some z' ∧ z'.out = rest inp osize 0 0 z := by
    intro z fuel h hno
    refine ⟨z, if_neg hno, ?_⟩
    by_cases hend : z.ip < inp.length
    · exact (rest_full (le_antisymm h.le (Nat.le_of_not_lt fun hlt => hno ⟨hend, hlt⟩)) 0 0).symm
    · rw [rest, List.drop_of_length_le (Nat.le_of_not_lt hend), codesFrom_nil]
      exact (List.take_of_length_le h.le).symm
  induction fuel with
  | zero => exact fun h hfuel => hstop 0 h fun hgo => absurd hgo.1 (Nat.not_lt.mpr hfuel)
  | succ fuel ih =>
    intro z h hfuel
    by_cases hgo : z.ip < inp.length ∧ z.out.length < osize
    · obtain ⟨z₁, hz₁, h₁, hip, hrest⟩ := @bits_spec inp osize inp[z.ip] 8 _ (h.skip (z.ip + 1))
      have hip' : z.ip + 1 ≤ z₁.ip := hip
      obtain ⟨z₂, hz₂, hout⟩ := ih h₁ (by omega)
      refine ⟨z₂, ?_, ?_⟩
      · rw [groups, if_pos hgo, List.getElem?_eq_getElem hgo.1]
        simp only [Option.bind_some, hz₁, hz₂]
      · rw [hout, ← hrest, rest, rest, List.drop_eq_getElem_cons hgo.1]
        rfl
    · exact hstop (fuel + 1) h hgo

end Decoder

theorem good_start (osize : ℕ) : Decoder.Good osize ⟨14, [], blankRing⟩ :=
  ⟨Nat.zero_le _, Lzss.Window.mirrors_start (by decide) rfl fun _ _ => rfl⟩

theorem lzSzddDecompress_eq (malloc : ℕ → Bool) (inp : Bytes) :
    lzSzddDecompress malloc inp = some
      (if isSzdd inp ∧ malloc (if declaredSize inp = 0 then 1 else declaredSize inp) then
        some ((extend [] (codes (inp.drop 14))).take (declaredSize inp))
      else none) := by
  have hfuel : inp.length ≤ 14 + inp.length := Nat.le_add_left _ _
  obtain ⟨z, hz, hout⟩ := Decoder.groups_spec (good_start (declaredSize inp)) hfuel
  rw [lzSzddDecompress]
  by_cases hmagic : isSzdd inp = true
  · rw [if_pos hmagic]
    by_cases halloc : malloc (if declaredSize inp = 0 then 1 else declaredSize inp) = true
    · simp only [if_pos halloc, hz, Option.map_some, hout, if_pos (And.intro hmagic halloc)]
      rfl
    · simp only [if_neg halloc]
      rw [if_neg fun h => halloc h.2]
  · rw [if_neg hmagic, if_neg fun h => hmagic h.1]

/-! ### Encodings -/

def Code.bytes : Code → Bytes
  | .literal b => [b]
  | .reference q n => [UInt8.ofNat (q % 256), UInt8.ofNat (q / 256 * 16 + n)]

def Code.isLiteral : Code → Bool
  | .literal _ => true
  | .reference _ _ => false

/-- Groups of eight codes behind a control byte each; the last one may be smaller, and its control
byte is free in the bits it does not need. -/
inductive Encodes : List Code → Bytes → Prop
  | nil : Encodes [] []
  | group {control : UInt8} {cs rest : List Code} {stream : Bytes} (hne : cs ≠ [])
      (hle : cs.length ≤ 8) (hlast : cs.length < 8 → rest = [])
      (hbits : ∀ i (h : i < cs.length), control.toNat.testBit i = cs[i].isLiteral)
      (h : Encodes rest stream) :
      Encodes (cs ++ rest) (control :: (cs.flatMap Code.bytes ++ stream))

def header (mode letter : UInt8) (size : ℕ) : Bytes :=
  magic ++ [mode, letter, UInt8.ofNat size, UInt8.ofNat (size / 2 ^ 8),
    UInt8.ofNat (size / 2 ^ 16), UInt8.ofNat (size / 2 ^ 24)]

def IsEncoding (text file : Bytes) : Prop :=
  text.length < 2 ^ 32 ∧ ∃ mode letter cs stream, Encodes cs stream ∧
    (extend [] cs).take text.length = text ∧ file = header mode letter text.length ++ stream

theorem codesFrom_bytes {control : UInt8} {cs : List Code} : ∀ {n : ℕ}, cs.length ≤ n → n ≤ 8 →
    (∀ i (h : i < cs.length), control.toNat.testBit (8 - n + i) = cs[i].isLiteral) →
    ∀ stream, codesFrom control n (cs.flatMap Code.bytes ++ stream) =
      cs ++ codesFrom control (n - cs.length) stream := by
  induction cs with
  | nil => exact fun _ _ _ _ => rfl
  | cons c cs ih =>
    intro n hle h8 hbits stream
    obtain ⟨n, rfl⟩ := Nat.exists_eq_add_of_le' (Nat.lt_of_lt_of_le (Nat.succ_pos _) hle)
    have hfirst := hbits 0 (Nat.succ_pos _)
    have hlater := ih (n := n) (Nat.le_of_succ_le_succ hle) (by omega) (fun i hi => by
      have := hbits (i + 1) (Nat.succ_lt_succ hi)
      rwa [show 8 - (n + 1) + (i + 1) = 8 - n + i by omega] at this) stream
    rw [Nat.add_zero, List.getElem_cons_zero] at hfirst
    rw [List.length_cons, Nat.add_sub_add_right, List.cons_append, ← hlater, List.flatMap_cons]
    cases c with
    | literal b => exact codesFrom_literal hfirst b _
    | reference q k =>
      obtain ⟨q, hq⟩ := q
      obtain ⟨k, hk⟩ := k
      refine codesFrom_reference
        (by rw [Decoder.isLiteral, hfirst]; exact Bool.false_ne_true) ?_ ?_ _
      · show (UInt8.ofNat (q % 256)).toNat + (UInt8.ofNat (q / 256 * 16 + k)).toNat / 16 * 256 = q
        rw [UInt8.toNat_ofNat', UInt8.toNat_ofNat']
        omega
      · show (UInt8.ofNat (q / 256 * 16 + k)).toNat % 16 = k
        rw [UInt8.toNat_ofNat']
        omega

theorem codes_encodes {cs : List Code} {stream : Bytes} (h : Encodes cs stream) :
    codes stream = cs := by
  induction h with
  | nil => rfl
  | @group control cs rest stream hne hle hlast hbits h ih =>
    show codesFrom control 8 _ = _
    rw [codesFrom_bytes hle le_rfl (by simpa using hbits)]
    congr 1
    by_cases hfull : cs.length < 8
    · have hrest := hlast hfull
      subst hrest
      have hstream : stream = [] := by
        generalize hnil : ([] : List Code) = nothing at h
        cases h with
        | nil => rfl
        | group hne => exact absurd (List.append_eq_nil_iff.mp hnil.symm).1 hne
      rw [hstream, codesFrom_nil]
    · rw [show 8 - cs.length = 0 by omega, codesFrom_zero, ih]

theorem declaredSize_header {mode letter : UInt8} {size : ℕ} (h : size < 2 ^ 32) (stream : Bytes) :
    declaredSize (header mode letter size ++ stream) = size := by
  show (UInt8.ofNat size).toNat + (UInt8.ofNat (size / 2 ^ 8)).toNat * 2 ^ 8 +
    (UInt8.ofNat (size / 2 ^ 16)).toNat * 2 ^ 16 +
      (UInt8.ofNat (size / 2 ^ 24)).toNat * 2 ^ 24 = size
  simp only [UInt8.toNat_ofNat']
  omega

theorem lzSzddDecompress_encoding {malloc : ℕ → Bool} {text file : Bytes} (h : IsEncoding text file)
    (halloc : malloc (if text.length = 0 then 1 else text.length) = true) :
    lzSzddDecompress malloc file = some (some text) := by
  obtain ⟨hsize, mode, letter, cs, stream, henc, htext, rfl⟩ := h
  have hmagic : isSzdd (header mode letter text.length ++ stream) = true := by
    refine decide_eq_true ⟨?_, rfl⟩
    rw [List.length_append]
    exact Nat.le_add_right 14 _
  have hdrop : (header mode letter text.length ++ stream).drop 14 = stream := rfl
  rw [lzSzddDecompress_eq, declaredSize_header hsize, if_pos ⟨hmagic, halloc⟩, hdrop,
    codes_encodes henc, htext]

end Aret.Szdd
