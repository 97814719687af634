/-
The LZ handles: reading and seeking in the content of a file.

* `szdd_exact` — decompression and reading together.
-/
import Aret.Szdd

namespace Aret.Szdd

/-! ### The handles -/

structure Block where
  bytes : Bytes
  short : bytes.length < 2 ^ 31

/-- An entry of `g_lz` that is in use. -/
structure LzFile where
  buf : Block
  pos : ℕ
  pos_le : pos ≤ buf.bytes.length

/-- `g_lz`; an entry that is not in use is `none`. -/
abbrev Table := ℕ → Option LzFile

def lzMax : ℕ := 32

/-- The high half of `ARET_LZ_BASE`. -/
def lzBase : ℕ := 0x4C5A

/-- `lz_alloc`: the first entry that is free. -/
def lzAlloc (t : Table) (buf : Block) : Option (ℕ × Table) :=
  ((List.range lzMax).find? fun i => (t i).isNone).map fun i =>
    (i, Function.update t i (some ⟨buf, 0, Nat.zero_le _⟩))

def lzIdx (t : Table) (h : ℕ) : Option ℕ :=
  if h / 2 ^ 16 = lzBase ∧ h % 2 ^ 16 < lzMax ∧ (t (h % 2 ^ 16)).isSome then some (h % 2 ^ 16)
  else none

/-- A signed word, as `long` is one. -/
def long (v : ℤ) : ℤ := v.bmod (2 ^ 32)

/-- What a call on an open file gives back. -/
inductive Reply
  | bytes (bs : Bytes)
  | position (p : ℤ)
  deriving DecidableEq

inductive Call
  | read (want : ℕ)
  | seek (off origin : ℤ)

namespace LzFile

variable (f : LzFile)

def len : ℕ := f.buf.bytes.length

/-- `aret_LZRead` of an LZ handle: how many bytes it copies. -/
def wanted (want : ℕ) : ℕ := if f.len - f.pos < want then f.len - f.pos else want

def base (origin : ℤ) : ℤ := if origin = 1 then f.pos else if origin = 2 then long f.len else 0

/-- `if (np < 0) np = 0; if (np > len) np = len`. -/
def clamp (len np : ℤ) : ℤ := if np < 0 then (if len < 0 then len else 0) else if len < np then len else np

/-- `aret_LZSeek` of an LZ handle: where it goes. -/
def np (off origin : ℤ) : ℤ := clamp (long f.len) (long (f.base origin + off))

theorem long_of_lt {v : ℤ} (h : -2 ^ 31 ≤ v) (h' : v < 2 ^ 31) : long v = v := by
  rw [long, Int.bmod_eq_of_le (by omega) (by omega)]

theorem long_len : long f.len = f.len := by
  have h : f.len < 2 ^ 31 := f.buf.short
  exact long_of_lt (by omega) (by omega)

theorem clamp_eq {len : ℤ} (h : 0 ≤ len) (v : ℤ) : clamp len v = max 0 (min v len) := by
  unfold clamp
  split_ifs <;> omega

theorem np_range (off origin : ℤ) : 0 ≤ f.np off origin ∧ f.np off origin ≤ f.len := by
  rw [np, long_len, clamp_eq (Int.natCast_nonneg _)]
  omega

def call : Call → LzFile × Reply
  | .read want =>
    ({ f with
        pos := f.pos + f.wanted want
        pos_le := by have := f.pos_le; unfold wanted len; split <;> omega },
      .bytes ((f.buf.bytes.drop f.pos).take (f.wanted want)))
  | .seek off origin =>
    ({ f with
        pos := (f.np off origin).toNat
        pos_le := by have := f.np_range off origin; unfold len at this; omega },
      .position (f.np off origin))

end LzFile

/-- A call of the program; a handle that is none of `lz_idx` is left to the host. -/
inductive Event
  | openFile (buf : Block)
  | call (h : ℕ) (c : Call)
  | close (h : ℕ)

def step (t : Table) : Event → Table × Option Reply
  | .openFile buf =>
    match lzAlloc t buf with
    | some (_, t) => (t, none)
    | none => (t, none)
  | .call h c =>
    match (lzIdx t h).bind t with
    | some f => (Function.update t (h % 2 ^ 16) (some (f.call c).1), some (f.call c).2)
    | none => (t, none)
  | .close h =>
    match lzIdx t h with
    | some i => (Function.update t i none, none)
    | none => (t, none)

def replies (h : ℕ) : Table → List Event → List (Option Reply)
  | _, [] => []
  | t, e :: es =>
    let rest := replies h (step t e).1 es
    match e with
    | .call h' _ => if h' = h then (step t e).2 :: rest else rest
    | _ => rest

def callsOn (h : ℕ) : List Event → List Call
  | [] => []
  | .call h' c :: es => if h' = h then c :: callsOn h es else callsOn h es
  | _ :: es => callsOn h es

/-! ### Plain files -/

/-- A file of the host, open for reading. -/
structure PlainFile where
  content : Bytes
  pos : ℕ

namespace PlainFile

variable (p : PlainFile)

/-- What `lseek` counts from. -/
def base (origin : ℤ) : ℕ := if origin = 1 then p.pos else if origin = 2 then p.content.length else 0

/-- `read` and `lseek`: a seek before the start fails, one behind the end does not. -/
def call : Call → PlainFile × Reply
  | .read want =>
    ({ p with pos := p.pos + ((p.content.drop p.pos).take want).length },
      .bytes ((p.content.drop p.pos).take want))
  | .seek off origin =>
    if (origin = 0 ∨ origin = 1 ∨ origin = 2) ∧ 0 ≤ p.base origin + off then
      ({ p with pos := (p.base origin + off).toNat }, .position (p.base origin + off))
    else (p, .position (-1))

def within : Call → Call
  | .read want => .read want
  | .seek off origin => .seek (max 0 (min (p.base origin + off) p.content.length)) 0

def replies : PlainFile → List Call → List (Option Reply)
  | _, [] => []
  | p, c :: cs => some (p.call (p.within c)).2 :: replies (p.call (p.within c)).1 cs

/-- No sum of a place and an offset leaves the range of `long`. -/
def Sums : PlainFile → List Call → Prop
  | _, [] => True
  | p, c :: cs => (∀ off origin, c = .seek off origin →
      (origin = 0 ∨ origin = 1 ∨ origin = 2) ∧ -2 ^ 31 ≤ off ∧ p.base origin + off < 2 ^ 31) ∧
    Sums (p.call (p.within c)).1 cs

end PlainFile

def LzFile.plain (f : LzFile) : PlainFile := ⟨f.buf.bytes, f.pos⟩

theorem LzFile.call_plain (f : LzFile) (c : Call) (hc : ∀ off origin, c = .seek off origin →
      (origin = 0 ∨ origin = 1 ∨ origin = 2) ∧ -2 ^ 31 ≤ off ∧ f.plain.base origin + off < 2 ^ 31) :
    (f.call c).2 = (f.plain.call (f.plain.within c)).2 ∧
      (f.call c).1.plain = (f.plain.call (f.plain.within c)).1 := by
  cases c with
  | read want =>
    have htake : (f.buf.bytes.drop f.pos).take (f.wanted want) =
        (f.buf.bytes.drop f.pos).take want := by
      unfold wanted len
      split
      · rw [List.take_of_length_le (by rw [List.length_drop]), List.take_of_length_le (by
          rw [List.length_drop]; omega)]
      · rfl
    have hcount : f.wanted want = ((f.buf.bytes.drop f.pos).take want).length := by
      rw [List.length_take, List.length_drop]
      unfold wanted len
      split <;> omega
    refine ⟨congrArg Reply.bytes htake, ?_⟩
    show PlainFile.mk f.buf.bytes (f.pos + f.wanted want) = ⟨f.buf.bytes, f.pos + _⟩
    rw [hcount]
    rfl
  | seek off origin =>
    obtain ⟨horigin, hoff, hsum⟩ := hc off origin rfl
    have hbase : f.base origin = f.plain.base origin := by
      unfold LzFile.base PlainFile.base
      rw [f.long_len]
      rcases horigin with rfl | rfl | rfl <;> rfl
    have hnp : f.np off origin =
        max 0 (min (f.plain.base origin + off) f.plain.content.length) := by
      rw [np, hbase, long_of_lt (by omega) hsum, f.long_len, clamp_eq (Int.natCast_nonneg _)]
      rfl
    have hcall : f.plain.call (f.plain.within (.seek off origin)) =
        (⟨f.buf.bytes, (f.np off origin).toNat⟩, .position (f.np off origin)) := by
      rw [PlainFile.within, ← hnp, PlainFile.call]
      have hzero : (f.plain.base 0 : ℤ) + f.np off origin = f.np off origin := Int.zero_add _
      rw [hzero, if_pos ⟨Or.inl rfl, (f.np_range off origin).1⟩]
      rfl
    rw [hcall]
    exact ⟨rfl, rfl⟩

/-! ### Calls on all handles -/

theorem lzIdx_some {t : Table} {h i : ℕ} (hi : lzIdx t h = some i) :
    i = h % 2 ^ 16 ∧ h / 2 ^ 16 = lzBase ∧ i < lzMax := by
  unfold lzIdx at hi
  split at hi
  · rename_i hh
    obtain rfl := Option.some.inj hi
    exact ⟨rfl, hh.1, hh.2.1⟩
  · exact nomatch hi

theorem lzIdx_eq {t : Table} {h : ℕ} {f : LzFile} (hbase : h / 2 ^ 16 = lzBase)
    (hmax : h % 2 ^ 16 < lzMax) (hf : t (h % 2 ^ 16) = some f) : lzIdx t h = some (h % 2 ^ 16) :=
  if_pos ⟨hbase, hmax, by rw [hf]; rfl⟩

theorem step_other {t : Table} {h : ℕ} {f : LzFile} (hbase : h / 2 ^ 16 = lzBase)
    (hf : t (h % 2 ^ 16) = some f) {e : Event} (hcall : ∀ c, e ≠ .call h c) (hclose : e ≠ .close h) :
    (step t e).1 (h % 2 ^ 16) = some f := by
  have hother : ∀ {h' i}, lzIdx t h' = some i → h' ≠ h → h % 2 ^ 16 ≠ h' % 2 ^ 16 := by
    intro h' i hi hne heq
    obtain ⟨_, hbase', _⟩ := lzIdx_some hi
    omega
  cases e with
  | openFile buf =>
    rw [step]
    cases halloc : lzAlloc t buf with
    | none => exact hf
    | some r =>
      obtain ⟨i, hfind, rfl⟩ := Option.map_eq_some_iff.mp halloc
      have hfree := List.find?_some hfind
      have hne : h % 2 ^ 16 ≠ i := by
        rintro heq
        rw [← heq, hf] at hfree
        exact nomatch hfree
      exact (Function.update_of_ne hne ..).trans hf
  | call h' c =>
    have hne : h' ≠ h := fun heq => hcall c (heq ▸ rfl)
    rw [step]
    cases hi : lzIdx t h' with
    | none => exact hf
    | some i =>
      obtain ⟨rfl, _, _⟩ := lzIdx_some hi
      cases hf' : t (h' % 2 ^ 16) with
      | none => simp only [Option.bind_some, hf', hf]
      | some f' =>
        simp only [Option.bind_some, hf']
        exact (Function.update_of_ne (hother hi hne) ..).trans hf
  | close h' =>
    have hne : h' ≠ h := fun heq => hclose (heq ▸ rfl)
    rw [step]
    cases hi : lzIdx t h' with
    | none => exact hf
    | some i =>
      obtain ⟨rfl, _, _⟩ := lzIdx_some hi
      exact (Function.update_of_ne (hother hi hne) ..).trans hf

theorem replies_eq {h : ℕ} (hbase : h / 2 ^ 16 = lzBase) (hmax : h % 2 ^ 16 < lzMax) :
    ∀ {t : Table} {f : LzFile} {es : List Event}, t (h % 2 ^ 16) = some f → .close h ∉ es →
      f.plain.Sums (callsOn h es) → replies h t es = f.plain.replies (callsOn h es) := by
  intro t f es
  induction es generalizing t f with
  | nil => exact fun _ _ _ => rfl
  | cons e es ih =>
    intro hf hopen hsums
    have hopen' : .close h ∉ es := fun hmem => hopen (List.mem_cons_of_mem _ hmem)
    by_cases hcall : ∃ c, e = .call h c
    · obtain ⟨c, rfl⟩ := hcall
      have hstep : step t (.call h c) =
          (Function.update t (h % 2 ^ 16) (some (f.call c).1), some (f.call c).2) := by
        rw [step, lzIdx_eq hbase hmax hf, Option.bind_some, hf]
      rw [callsOn, if_pos rfl] at hsums ⊢
      obtain ⟨hreply, hplain⟩ := f.call_plain c hsums.1
      have hrest := ih (t := (step t (.call h c)).1) (f := (f.call c).1)
        (by rw [hstep]; exact Function.update_self ..) hopen' (by rw [hplain]; exact hsums.2)
      simp only [replies, if_true, hrest]
      rw [hstep, PlainFile.replies, hplain, hreply]
    · have hno : ∀ c, e ≠ .call h c := fun c heq => hcall ⟨c, heq⟩
      have hf' := step_other hbase hf hno fun heq => hopen (heq ▸ List.mem_cons_self)
      have hcalls : callsOn h (e :: es) = callsOn h es := by
        cases e with
        | call h' c => exact if_neg fun (heq : h' = h) => hno c (heq ▸ rfl)
        | openFile buf => rfl
        | close h' => rfl
      have hreplies : replies h t (e :: es) = replies h (step t e).1 es := by
        cases e with
        | call h' c => exact if_neg fun (heq : h' = h) => hno c (heq ▸ rfl)
        | openFile buf => rfl
        | close h' => rfl
      rw [hcalls] at hsums ⊢
      rw [hreplies]
      exact ih hf' hopen' hsums

def handle (i : ℕ) : ℕ := lzBase * 2 ^ 16 + i

theorem lzAlloc_some {t t' : Table} {buf : Block} {i : ℕ} (h : lzAlloc t buf = some (i, t')) :
    handle i / 2 ^ 16 = lzBase ∧ handle i % 2 ^ 16 = i ∧ i < lzMax ∧
      t' i = some ⟨buf, 0, Nat.zero_le _⟩ := by
  obtain ⟨j, hfind, heq⟩ := Option.map_eq_some_iff.mp h
  obtain ⟨rfl, rfl⟩ := Prod.mk.inj heq
  have hlt : j < lzMax := List.mem_range.mp (List.mem_of_find?_eq_some hfind)
  have hmax : j < 32 := hlt
  unfold handle
  exact ⟨by omega, by omega, hlt, Function.update_self ..⟩

/-- Encodings are decompressed to their texts; every input is decompressed to what its whole items
stand for, as far as the declared size reaches; and a handle answers like a plain file with its
content, seeks kept inside the file. -/
theorem szdd_exact (malloc : ℕ → Bool) :
    (∀ text file, IsEncoding text file →
      malloc (if text.length = 0 then 1 else text.length) = true →
        lzSzddDecompress malloc file = some (some text)) ∧
    (∀ inp, ∃ r, lzSzddDecompress malloc inp = some r ∧ ∀ out, r = some out →
      out.length ≤ declaredSize inp ∧
        out = (extend [] (codes (inp.drop 14))).take (declaredSize inp)) ∧
    (∀ (t t' : Table) (buf : Block) (i : ℕ) (es : List Event), lzAlloc t buf = some (i, t') →
      .close (handle i) ∉ es → PlainFile.Sums ⟨buf.bytes, 0⟩ (callsOn (handle i) es) →
        replies (handle i) t' es = PlainFile.replies ⟨buf.bytes, 0⟩ (callsOn (handle i) es)) := by
  refine ⟨fun text file h halloc => lzSzddDecompress_encoding h halloc, fun inp => ?_, ?_⟩
  · refine ⟨_, lzSzddDecompress_eq malloc inp, fun out hout => ?_⟩
    by_cases hok : isSzdd inp ∧ malloc (if declaredSize inp = 0 then 1 else declaredSize inp)
    · rw [if_pos hok] at hout
      obtain rfl := Option.some.inj hout
      exact ⟨List.length_take_le _ _, rfl⟩
    · rw [if_neg hok] at hout
      exact nomatch hout
  · intro t t' buf i es halloc hopen hsums
    obtain ⟨hbase, hmod, hmax, hentry⟩ := lzAlloc_some halloc
    exact replies_eq (f := ⟨buf, 0, Nat.zero_le _⟩) hbase (hmod.symm ▸ hmax)
      (hmod.symm ▸ hentry) hopen hsums

/-- `aaaa`, as a literal and a reference to it that overlaps what it writes; and a handle on
`abc` that is read from its second byte. -/
theorem szdd_exact_overlapping : lzSzddDecompress (fun _ => true)
      (header 65 0 4 ++ [0b00000001, 97, 0xF0, 0xF0]) = some (some [97, 97, 97, 97]) ∧
    replies (handle 0)
        (Function.update (fun _ => none) 0 (some ⟨⟨[97, 98, 99], by decide⟩, 0, Nat.zero_le _⟩))
        [.call (handle 0) (.seek (-2) 2), .call (handle 1) (.read 1), .call (handle 0) (.read 9)] =
      PlainFile.replies ⟨[97, 98, 99], 0⟩ [.seek (-2) 2, .read 9] := by
  obtain ⟨hencoding, -, hhandle⟩ := szdd_exact fun _ => true
  refine ⟨hencoding [97, 97, 97, 97] _ ⟨by decide, 65, 0,
    [.literal 97, .reference 4080 0], _, ?_, by decide, rfl⟩ rfl, ?_⟩
  · refine @Encodes.group 1 [.literal 97, .reference 4080 0] [] [] (List.cons_ne_nil _ _)
      (by decide) (fun _ => rfl) ?_ .nil
    intro i hi
    match i, hi with
    | 0, _ => rfl
    | 1, _ => rfl
  · refine hhandle (fun _ => none) _ ⟨[97, 98, 99], by decide⟩ 0 _ rfl (by simp) ⟨?_, ?_, trivial⟩
    · rintro off origin ⟨⟩
      decide
    · nofun

def PlainFile.asked : PlainFile → List Call → List (Option Reply)
  | _, [] => []
  | p, c :: cs => some (p.call c).2 :: asked (p.call c).1 cs

def delivered (rs : List (Option Reply)) : List Bytes :=
  rs.filterMap fun
    | some (.bytes bs) => some bs
    | _ => none

/-- A seek to before the start fails on a file of the host and goes to the start of an LZ handle. -/
theorem not_szdd_exact : ¬ ∀ (t t' : Table) (buf : Block) (i : ℕ) (es : List Event),
    lzAlloc t buf = some (i, t') → .close (handle i) ∉ es →
      delivered (replies (handle i) t' es) =
        delivered (PlainFile.asked ⟨buf.bytes, 0⟩ (callsOn (handle i) es)) := by
  intro h
  have heq := h (fun _ => none) _ ⟨[7], by decide⟩ 0
    [.call (handle 0) (.read 1), .call (handle 0) (.seek (-5) 0), .call (handle 0) (.read 1)] rfl
    (by simp)
  exact absurd heq (by decide)

end Aret.Szdd
