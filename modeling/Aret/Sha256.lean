/-
The streaming digest of the object cache.

* `finish_chunks` — the digest of any chunks is that of what they make up.
-/
import Aret.ByteBuf
import Aret.Fips180
import Aret.ObjCache

namespace Aret.ObjCache

open ByteBuf (put)
open Fips180 (Hash Word absorb)

/-! ### The code -/

/-- `K`. -/
def K : List Word :=
  [0x428a2f98, 0x71374491, 0xb5c0fbcf, 0xe9b5dba5, 0x3956c25b, 0x59f111f1, 0x923f82a4, 0xab1c5ed5,
    0xd807aa98, 0x12835b01, 0x243185be, 0x550c7dc3, 0x72be5d74, 0x80deb1fe, 0x9bdc06a7, 0xc19bf174,
    0xe49b69c1, 0xefbe4786, 0x0fc19dc6, 0x240ca1cc, 0x2de92c6f, 0x4a7484aa, 0x5cb0a9dc, 0x76f988da,
    0x983e5152, 0xa831c66d, 0xb00327c8, 0xbf597fc7, 0xc6e00bf3, 0xd5a79147, 0x06ca6351, 0x14292967,
    0x27b70a85, 0x2e1b2138, 0x4d2c6dfc, 0x53380d13, 0x650a7354, 0x766a0abb, 0x81c2c92e, 0x92722c85,
    0xa2bfe8a1, 0xa81a664b, 0xc24b8b70, 0xc76c51a3, 0xd192e819, 0xd6990624, 0xf40e3585, 0x106aa070,
    0x19a4c116, 0x1e376c08, 0x2748774c, 0x34b0bcb5, 0x391c0cb3, 0x4ed8aa4a, 0x5b9cca4f, 0x682e6ff3,
    0x748f82ee, 0x78a5636f, 0x84c87814, 0x8cc70208, 0x90befffa, 0xa4506ceb, 0xbef9a3f7, 0xc67178f2]

def rotateRight (x n : Word) : Word := x >>> n ||| x <<< (32 - n)

/-- `u32::from_be_bytes` at `i`. -/
def fromBeBytes (block : Bytes) (i : ℕ) : Word :=
  (block.getD i 0).toUInt32 <<< 24 ||| (block.getD (i + 1) 0).toUInt32 <<< 16 |||
    (block.getD (i + 2) 0).toUInt32 <<< 8 ||| (block.getD (i + 3) 0).toUInt32

/-- The first loop of `compress`: the words of the block. -/
def loadWords (block : Bytes) (w : List Word) : List Word :=
  (List.range 16).foldl (fun w i => w.set i (fromBeBytes block (i * 4))) w

def nextWord (w : List Word) (i : ℕ) : List Word :=
  let w15 := w.getD (i - 15) 0
  let w2 := w.getD (i - 2) 0
  let s0 := rotateRight w15 7 ^^^ rotateRight w15 18 ^^^ w15 >>> 3
  let s1 := rotateRight w2 17 ^^^ rotateRight w2 19 ^^^ w2 >>> 10
  w.set i (w.getD (i - 16) 0 + s0 + w.getD (i - 7) 0 + s1)

def mixRound (w : List Word) (v : Hash) (i : ℕ) : Hash :=
  let s1 := rotateRight v.e 6 ^^^ rotateRight v.e 11 ^^^ rotateRight v.e 25
  let ch := v.e &&& v.f ^^^ ~~~v.e &&& v.g
  let t1 := v.h + s1 + ch + K.getD i 0 + w.getD i 0
  let s0 := rotateRight v.a 2 ^^^ rotateRight v.a 13 ^^^ rotateRight v.a 22
  let maj := v.a &&& v.b ^^^ v.a &&& v.c ^^^ v.b &&& v.c
  let t2 := s0 + maj
  ⟨t1 + t2, v.a, v.b, v.c, v.d + t1, v.e, v.f, v.g⟩

/-- `compress`, as a function of the hash value. -/
def compress (h : Hash) (block : Bytes) : Hash :=
  let w := (List.range' 16 48).foldl nextWord (loadWords block (List.replicate 64 0))
  let v := (List.range 64).foldl (mixRound w) h
  ⟨h.a + v.a, h.b + v.b, h.c + v.c, h.d + v.d, h.e + v.e, h.f + v.f, h.g + v.g, h.h + v.h⟩

structure Sha256 where
  h : Hash
  buf : Bytes
  /-- Bytes buffered. -/
  len : ℕ
  /-- Bytes fed. -/
  total : UInt64

namespace Sha256

def new : Sha256 where
  h := ⟨0x6a09e667, 0xbb67ae85, 0x3c6ef372, 0xa54ff53a, 0x510e527f, 0x9b05688c, 0x1f83d9ab,
    0x5be0cd19⟩
  buf := List.replicate 64 0
  len := 0
  total := 0

/-- The first part of `update`: the buffered block is filled up. -/
def fill (s : Sha256) (data : Bytes) : Sha256 × Bytes :=
  if 0 < s.len then
    let take := min (64 - s.len) data.length
    let s := { s with buf := put s.buf s.len (data.take take), len := s.len + take }
    let data := data.drop take
    if s.len = 64 then ({ s with h := compress s.h s.buf, len := 0 }, data) else (s, data)
  else (s, data)

/-- The loop of `update`: the whole blocks of the data. -/
def whole (h : Hash) (data : Bytes) : Hash × Bytes :=
  if 64 ≤ data.length then whole (compress h (data.take 64)) (data.drop 64) else (h, data)
  termination_by data.length
  decreasing_by
    rw [List.length_drop]
    omega

def update (s : Sha256) (data : Bytes) : Sha256 :=
  let s := { s with total := s.total + UInt64.ofNat data.length }
  let (s, data) := s.fill data
  let (h, data) := whole s.h data
  let s := { s with h := h }
  if data ≠ [] then { s with buf := put s.buf 0 data, len := data.length } else s

/-- The loop of `finish`, for so many updates at most. -/
def padTo56 : ℕ → Sha256 → Option Sha256
  | 0, s => if s.len = 56 then some s else none
  | fuel + 1, s => if s.len = 56 then some s else padTo56 fuel (s.update [0])

def finish (fuel : ℕ) (s : Sha256) : Option Bytes := do
  let bits := s.total * 8
  let s ← padTo56 fuel (s.update [0x80])
  let buf := put s.buf 56 (Fips180.be64 bits.toNat)
  let h := compress s.h buf
  return [h.a, h.b, h.c, h.d, h.e, h.f, h.g, h.h].flatMap Fips180.wordBytes

end Sha256

/-! ### Compression -/

section

variable {block : Bytes} {w : List Word}

theorem foldl_set (val : List Word → ℕ → Word) (good : ℕ → Word) (start n : ℕ)
    (hval : ∀ w i, start ≤ i → i < start + n → (∀ t, t < i → w.getD t 0 = good t) →
      val w i = good i)
    (hlen : start + n ≤ w.length) (hw : ∀ t, t < start → w.getD t 0 = good t) :
    ∀ t, t < start + n →
      ((List.range' start n).foldl (fun w i => w.set i (val w i)) w).getD t 0 = good t := by
  have hlength : ∀ l : List ℕ, (l.foldl (fun w i => w.set i (val w i)) w).length = w.length := by
    intro l
    induction l using List.reverseRecOn with
    | nil => rfl
    | append_singleton l i ih => rw [List.foldl_append, List.foldl_cons, List.foldl_nil,
        List.length_set, ih]
  induction n with
  | zero => exact hw
  | succ n ih =>
    have hprev := ih (fun w i hlo hhi => hval w i hlo (by omega)) (by omega)
    intro t ht
    rw [List.range'_1_concat, List.foldl_append, List.foldl_cons, List.foldl_nil,
      hval _ (start + n) (by omega) (by omega) hprev]
    have hlast : t < start + n ∨ t = start + n := by omega
    rcases hlast with hlt | rfl
    · rw [List.getD_eq_getElem?_getD, List.getElem?_set_ne (by omega),
        ← List.getD_eq_getElem?_getD, hprev t hlt]
    · rw [List.getD_eq_getElem?_getD, List.getElem?_set_self (by rw [hlength]; omega)]
      rfl

theorem loadWords_getD {t : ℕ} (ht : t < 16) :
    (loadWords block (List.replicate 64 0)).getD t 0 = Fips180.schedule block t := by
  have hset := foldl_set (w := List.replicate 64 0) (fun _ i => fromBeBytes block (i * 4))
    (Fips180.schedule block) 0 16 (fun _ i _ hi _ => ?_) (by simp) (fun t ht => by omega) t ht
  · rw [loadWords, List.range_eq_range']
    exact hset
  · rw [Fips180.schedule, if_pos (by omega)]
    rfl

theorem length_loadWords : (loadWords block w).length = w.length := by
  rw [loadWords]
  generalize List.range 16 = l
  induction l generalizing w with
  | nil => rfl
  | cons i l ih => rw [List.foldl_cons, ih, List.length_set]

theorem words_getD {t : ℕ} (ht : t < 64) :
    ((List.range' 16 48).foldl nextWord (loadWords block (List.replicate 64 0))).getD t 0 =
      Fips180.schedule block t := by
  refine foldl_set _ (Fips180.schedule block) 16 48 (fun w i hlo _ hprev => ?_) ?_
    (fun t ht => loadWords_getD ht) t ht
  · rw [hprev _ (by omega), hprev _ (by omega), hprev _ (by omega), hprev _ (by omega)]
    rw [Fips180.schedule.eq_def block i, if_neg (by omega)]
    -- the same four summands in another order
    show Fips180.schedule block (i - 16) + Fips180.smallSigma₀ (Fips180.schedule block (i - 15)) +
      Fips180.schedule block (i - 7) + Fips180.smallSigma₁ (Fips180.schedule block (i - 2)) = _
    ac_rfl
  · rw [length_loadWords, List.length_replicate]

theorem K_getD {t : ℕ} (ht : t < 64) : K.getD t 0 = Fips180.k t := by
  have hK : K = (List.range 64).map Fips180.k := by decide +kernel
  rw [hK, List.getD_eq_getElem?_getD, List.getElem?_map, List.getElem?_range ht]
  rfl

theorem foldl_mixRound (h : Hash) (n : ℕ) (hn : n ≤ 64)
    (hw : ∀ t, t < n → w.getD t 0 = Fips180.schedule block t) :
    (List.range n).foldl (mixRound w) h = Fips180.rounds block h n := by
  induction n with
  | zero => rfl
  | succ n ih =>
    rw [List.range_succ, List.foldl_append, ih (by omega) fun t ht => hw t (by omega),
      List.foldl_cons, List.foldl_nil, mixRound, K_getD (by omega), hw n (by omega)]
    rfl

theorem compress_eq (h : Hash) (block : Bytes) : compress h block = Fips180.compress h block := by
  rw [compress, foldl_mixRound h 64 le_rfl fun t ht => words_getD ht]
  rfl

end

/-! ### Streaming -/

namespace Sha256

/-- The hash value of the whole blocks of a message, and the rest in the buffer. -/
def Blocks (s : Sha256) (msg : Bytes) : Prop :=
  ∃ full, msg = full ++ s.buf.take s.len ∧ 64 ∣ full.length ∧ s.h = absorb Fips180.initial full

structure Streams (s : Sha256) (msg : Bytes) : Prop where
  buf : s.buf.length = 64
  len : s.len < 64
  blocks : Blocks s msg
  total : s.total = UInt64.ofNat msg.length

variable {s : Sha256} {msg data : Bytes}

theorem take_put {f bs : Bytes} {off : ℕ} (h : off + bs.length ≤ f.length) :
    (put f off bs).take (off + bs.length) = f.take off ++ bs := by
  rw [put, ← List.append_assoc]
  refine List.take_left' ?_
  rw [List.length_append, List.length_take]
  omega

theorem streams_new : Streams new [] where
  buf := rfl
  len := by decide
  blocks := ⟨[], rfl, Nat.dvd_zero _, by rw [Fips180.absorb_nil]; decide +kernel⟩
  total := rfl

theorem Streams.len_eq (h : Streams s msg) : s.len = msg.length % 64 := by
  obtain ⟨full, hmsg, hfull, -⟩ := h.blocks
  have hbuf := h.buf
  have hlen := h.len
  rw [hmsg, List.length_append, List.length_take]
  omega

theorem fill_spec (hbuf : s.buf.length = 64) (hlen : s.len < 64) (h : Blocks s msg) :
    ∃ s' taken rest, s.fill data = (s', rest) ∧ data = taken ++ rest ∧ s'.buf.length = 64 ∧
      s'.len < 64 ∧ Blocks s' (msg ++ taken) ∧ s'.total = s.total ∧ (s'.len = 0 ∨ rest = []) := by
  rw [fill]
  split_ifs with hpos
  swap
  · exact ⟨s, [], data, rfl, rfl, hbuf, hlen, by rwa [List.append_nil], rfl, .inl (by omega)⟩
  obtain ⟨full, hmsg, hfull, hh⟩ := h
  dsimp only
  generalize hn : min (64 - s.len) data.length = n
  have hdata := (List.take_append_drop n data).symm
  have htake : (data.take n).length = n := by
    rw [List.length_take]
    omega
  have hdrop := List.length_drop (i := n) (l := data)
  generalize data.take n = taken at hdata htake ⊢
  generalize data.drop n = rest at hdata hdrop ⊢
  have hroom : s.len + taken.length ≤ s.buf.length := by omega
  have hput := take_put hroom
  have hsame := ByteBuf.length_put hroom
  rw [htake] at hput
  split_ifs with hend
  · -- the block is full
    have hblock : put s.buf s.len taken = s.buf.take s.len ++ taken := by
      rw [← hput, List.take_of_length_le (by omega)]
    have hone : (s.buf.take s.len ++ taken).length = 64 := by
      rw [← hblock]
      omega
    refine ⟨_, taken, rest, rfl, hdata, hsame.trans hbuf, by norm_num, ?_, rfl, .inl rfl⟩
    refine ⟨full ++ (s.buf.take s.len ++ taken), by simp [hmsg], ?_, ?_⟩
    · rw [List.length_append, hone]
      exact Nat.dvd_add hfull (dvd_refl 64)
    · show compress s.h (put s.buf s.len taken) = _
      rw [compress_eq, hblock, hh, Fips180.absorb_append hfull, Fips180.absorb_one hone]
  · -- the data is used up
    obtain rfl : rest = [] := List.length_eq_zero_iff.mp (by omega)
    refine ⟨_, taken, [], rfl, hdata, hsame.trans hbuf, ?_, ?_, rfl, .inr rfl⟩
    · show s.len + n < 64
      omega
    · refine ⟨full, ?_, hfull, hh⟩
      show msg ++ taken = full ++ (put s.buf s.len taken).take (s.len + n)
      rw [hput, hmsg, List.append_assoc]

theorem whole_spec (h : Hash) (data : Bytes) : ∃ full rest, data = full ++ rest ∧
    64 ∣ full.length ∧ rest.length < 64 ∧ whole h data = (absorb h full, rest) := by
  induction h, data using whole.induct with
  | case1 h data hlen ih =>
    obtain ⟨full, rest, hdata, hfull, hrest, hwhole⟩ := ih
    have htake : (data.take 64).length = 64 := by
      rw [List.length_take]
      omega
    refine ⟨data.take 64 ++ full, rest, ?_, ?_, hrest, ?_⟩
    · rw [List.append_assoc, ← hdata, List.take_append_drop]
    · rw [List.length_append, htake]
      exact Nat.dvd_add (dvd_refl 64) hfull
    · rw [whole, if_pos hlen, hwhole, Fips180.absorb_block htake, compress_eq]
  | case2 h data hlen =>
    refine ⟨[], data, rfl, Nat.dvd_zero _, by omega, ?_⟩
    rw [whole, if_neg hlen, Fips180.absorb_nil]

theorem Streams.update (h : Streams s msg) (data : Bytes) :
    Streams (s.update data) (msg ++ data) := by
  obtain ⟨hbuf, hlen, hblocks, htotal⟩ := h
  obtain ⟨s', taken, data', hfill, hdata, hbuf', hlen', ⟨full, hmsg, hfull, hh⟩, htotal', hend⟩ :=
    @fill_spec { s with total := s.total + UInt64.ofNat data.length } msg data hbuf hlen hblocks
  obtain ⟨full', rest, hdata', hfull', hrest, hwhole⟩ := whole_spec s'.h data'
  have htotal'' : s'.total = UInt64.ofNat (msg ++ data).length := by
    rw [htotal', List.length_append, UInt64.ofNat_add, ← htotal]
  rw [Sha256.update]
  dsimp only
  rw [hfill]
  dsimp only
  rw [hwhole]
  dsimp only
  split_ifs with hne
  · -- a rest for the buffer, which was empty
    have hzero : s'.len = 0 := by
      rcases hend with hzero | rfl
      · exact hzero
      · obtain rfl := (List.append_eq_nil_iff.mp hdata'.symm).2
        exact absurd rfl hne
    have hroom : 0 + rest.length ≤ s'.buf.length := by omega
    refine ⟨by dsimp only; rw [ByteBuf.length_put hroom, hbuf'], hrest, ?_, htotal''⟩
    rw [hzero, List.take_zero, List.append_nil] at hmsg
    have hput := take_put hroom
    rw [List.take_zero, List.nil_append, Nat.zero_add] at hput
    refine ⟨full ++ full', ?_, ?_, ?_⟩
    · dsimp only
      rw [hput, ← hmsg, hdata, hdata']
      simp only [List.append_assoc]
    · rw [List.length_append]
      exact Nat.dvd_add hfull hfull'
    · dsimp only
      rw [hh, Fips180.absorb_append hfull]
  · obtain rfl := not_not.mp hne
    rw [List.append_nil] at hdata'
    subst hdata'
    refine ⟨hbuf', hlen', ?_, htotal''⟩
    rcases hend with hzero | rfl
    · -- nothing is buffered
      rw [hzero, List.take_zero, List.append_nil] at hmsg
      refine ⟨full ++ data', ?_, ?_, ?_⟩
      · rw [hzero, List.take_zero, List.append_nil, ← hmsg, hdata, List.append_assoc]
      · rw [List.length_append]
        exact Nat.dvd_add hfull hfull'
      · rw [hh, Fips180.absorb_append hfull]
    · -- no data was left
      rw [List.append_nil] at hdata
      subst hdata
      refine ⟨full, hmsg, hfull, ?_⟩
      rw [Fips180.absorb_nil, hh]

theorem Streams.chunks (chunks : List Bytes) (h : Streams s msg) :
    Streams (chunks.foldl Sha256.update s) (msg ++ chunks.flatten) := by
  induction chunks generalizing s msg with
  | nil => rwa [List.flatten_nil, List.append_nil]
  | cons data chunks ih =>
    rw [List.foldl_cons, List.flatten_cons, ← List.append_assoc]
    exact ih (h.update data)

end Sha256

/-! ### The digest -/

namespace Sha256

variable {s : Sha256} {msg : Bytes}

theorem padTo56_of_len (h : s.len = 56) (fuel : ℕ) : padTo56 fuel s = some s := by
  cases fuel with
  | zero => rw [padTo56, if_pos h]
  | succ fuel => rw [padTo56, if_pos h]

theorem padTo56_spec (h : Streams s msg) {n : ℕ} (hn : (msg.length + n) % 64 = 56) (hlt : n < 64)
    (fuel : ℕ) : ∃ s', padTo56 (fuel + n) s = some s' ∧ s'.len = 56 ∧
      Streams s' (msg ++ List.replicate n 0) := by
  induction n generalizing s msg with
  | zero =>
    have hlen := h.len_eq
    have h56 : s.len = 56 := by omega
    exact ⟨s, padTo56_of_len h56 _, h56, by rwa [List.replicate_zero, List.append_nil]⟩
  | succ n ih =>
    have hlen := h.len_eq
    obtain ⟨s', hpad, hlen', hs'⟩ := ih (h.update [0])
      (by rw [List.length_append, List.length_singleton]; omega) (by omega)
    refine ⟨s', ?_, hlen', ?_⟩
    · rw [← Nat.add_assoc, padTo56, if_neg (by omega)]
      exact hpad
    · rwa [List.append_assoc, List.singleton_append, ← List.replicate_succ] at hs'

theorem Streams.finish (h : Streams s msg) (fuel : ℕ) : ∃ full ext,
    Fips180.pad msg = full ++ ext ∧ 64 ∣ full.length ∧
      ext.length = (if msg.length % 64 < 56 then 64 else 128) ∧
      s.h = absorb Fips180.initial full ∧
      s.finish (fuel + 63) = some (absorb s.h ext).bytes := by
  obtain ⟨full, hmsg, hfull, hh⟩ := h.blocks
  have hlen := h.len_eq
  have hbuf := h.buf
  have hzeros : Fips180.zeros msg.length ≤ 63 := by
    rw [Fips180.zeros]
    omega
  obtain ⟨s', hpad, hlen', hs'⟩ := padTo56_spec (h.update [0x80]) (n := Fips180.zeros msg.length)
    (by rw [List.length_append, List.length_singleton, Fips180.zeros]; omega) (by omega)
    (fuel + (63 - Fips180.zeros msg.length))
  have hbits : Fips180.be64 (s.total * 8).toNat = Fips180.be64 (8 * msg.length) := by
    rw [← Fips180.be64_mod (8 * msg.length), UInt64.toNat_mul, h.total, UInt64.toNat_ofNat']
    congr 1
    show msg.length % 2 ^ 64 * 8 % 2 ^ 64 = _
    omega
  obtain ⟨full', hmsg', hfull', hh'⟩ := hs'.blocks
  rw [hlen'] at hmsg'
  have hbuf' := hs'.buf
  have hlast : put s'.buf 56 (Fips180.be64 (8 * msg.length)) =
      s'.buf.take 56 ++ Fips180.be64 (8 * msg.length) := by
    rw [put, List.drop_of_length_le (by simp [Fips180.be64, hbuf']), List.append_nil]
  have hone : (s'.buf.take 56 ++ Fips180.be64 (8 * msg.length)).length = 64 := by
    rw [List.length_append, List.length_take, hbuf']
    rfl
  have hpadded : Fips180.pad msg = full' ++ (s'.buf.take 56 ++ Fips180.be64 (8 * msg.length)) := by
    rw [Fips180.pad, Fips180.padding, ← List.append_assoc full', ← hmsg']
    simp only [List.append_assoc]
  -- the rest of the message with the padding
  have hext : Fips180.pad msg = full ++ (s.buf.take s.len ++ Fips180.padding msg.length) := by
    rw [Fips180.pad, ← List.append_assoc, ← hmsg]
  refine ⟨full, _, hext, hfull, ?_, hh, ?_⟩
  · have hpadding : (Fips180.padding msg.length).length = Fips180.zeros msg.length + 9 :=
      Fips180.length_padding _
    rw [List.length_append, List.length_take, hpadding, Fips180.zeros]
    split_ifs <;> omega
  · rw [Sha256.finish, show fuel + 63 = fuel + (63 - Fips180.zeros msg.length) +
      Fips180.zeros msg.length by omega, hpad, hh, ← Fips180.absorb_append hfull, ← hext, hpadded,
      Fips180.absorb_append hfull', Fips180.absorb_one hone, ← hh']
    dsimp only [Option.bind_eq_bind, Option.bind_some]
    rw [hbits, hlast, compress_eq]
    rfl

end Sha256

theorem finish_flatten (chunks : List Bytes) (fuel : ℕ) :
    (chunks.foldl Sha256.update Sha256.new).finish (fuel + 63) =
      some (Fips180.sha256 chunks.flatten) := by
  obtain ⟨full, ext, hpad, hfull, -, hh, hfinish⟩ :=
    (Sha256.streams_new.chunks chunks).finish fuel
  rw [List.nil_append] at hpad
  rw [hfinish, hh, ← Fips180.absorb_append hfull, ← hpad]
  rfl

/-- However a message is cut into chunks, feeding them gives the digest of the standard, within 63
turns of the loop; the state before it has taken all but the last block of the padded message, or
all but the last two. -/
theorem finish_chunks (chunks : List Bytes) (fuel : ℕ) :
    let s := chunks.foldl Sha256.update Sha256.new
    s.finish (fuel + 63) = some (Fips180.sha256 chunks.flatten) ∧
      ∃ full ext, Fips180.pad chunks.flatten = full ++ ext ∧ 64 ∣ full.length ∧
        ext.length = (if chunks.flatten.length % 64 < 56 then 64 else 128) ∧
        s.h = absorb Fips180.initial full ∧ s.finish (fuel + 63) = some (absorb s.h ext).bytes :=
  ⟨finish_flatten chunks fuel, (Sha256.streams_new.chunks chunks).finish fuel⟩

/-! ### The keys -/

def sha (data : Bytes) : Digest := ⟨Fips180.sha256 data, Fips180.length_bytes _⟩

/-- What `begin` feeds. -/
def keyChunks (ccId : Bytes) (args : List Bytes) (src outDir : Path) (srcBytes : Bytes) :
    List Bytes :=
  [ascii ['a', 'r', 'e', 't', '-', 'o', 'b', 'j', 'c', 'a', 'c', 'h', 'e', '-', 'v', '1'] ++ [0],
      ccId, [0] ++ ascii ['a', 'r', 'g', 's'] ++ [0]] ++
    args.flatMap (fun a => [keyArg src outDir a, [0]]) ++
    [[0] ++ ascii ['s', 'r', 'c'] ++ [0], srcBytes]

/-- What `dep_digest` feeds. -/
def depChunks (pairs : List (Bytes × Bytes)) : List Bytes :=
  (ascii ['d', 'e', 'p', 's', '-', 'v', '1'] ++ [0]) ::
    pairs.flatMap fun e => [e.1, [0], (sha e.2).val]

theorem begin_chunks (ccId : Bytes) (args : List Bytes) (src outDir : Path) (srcBytes : Bytes) :
    ((keyChunks ccId args src outDir srcBytes).foldl Sha256.update Sha256.new).finish 63 =
      some (sha (keyInput ccId args src outDir srcBytes)).val := by
  have hargs : (args.flatMap fun a => [keyArg src outDir a, [0]]).flatten =
      args.flatMap fun a => keyArg src outDir a ++ [0] := by
    induction args with
    | nil => rfl
    | cons a args ih =>
      rw [List.flatMap_cons, List.flatMap_cons, List.flatten_append, ih]
      simp
  have hfeed := finish_flatten (keyChunks ccId args src outDir srcBytes) 0
  rw [Nat.zero_add] at hfeed
  rw [hfeed, sha, keyChunks, keyInput, List.flatten_append, List.flatten_append, hargs]
  simp

theorem depDigest_chunks (pairs : List (Bytes × Bytes)) :
    ((depChunks pairs).foldl Sha256.update Sha256.new).finish 63 =
      some (sha (depInput sha pairs)).val := by
  have hpairs : (pairs.flatMap fun e => [e.1, [0], (sha e.2).val]).flatten =
      pairs.flatMap fun e => e.1 ++ [0] ++ (sha e.2).val := by
    induction pairs with
    | nil => rfl
    | cons e pairs ih =>
      rw [List.flatMap_cons, List.flatMap_cons, List.flatten_append, ih]
      simp
  have hfeed := finish_flatten (depChunks pairs) 0
  rw [Nat.zero_add] at hfeed
  rw [hfeed, sha, depChunks, depInput, List.flatten_cons, hpairs]

end Aret.ObjCache
