/-
Repeated string instructions.

The lifted statements of a repeated instruction call a helper that loops, and move
the registers by closed forms; the flags of a scan are read off the last element
once the registers have moved.

* `repeated_exact` — the repeated form leaves what the steps leave, except that a
  scan of no element compares the one behind its pointers.
-/
import Aret.StringInsn
import Aret.SubReg
import Mathlib.Data.BitVec

namespace Aret.Lift

open Alu

/-! ### Steps and pointers -/

namespace StringInsn

variable {cfg : Config} {i : StringInsn} {s s₀ s' : State} {b : Bool}

def stride (i : StringInsn) (b : Bool) : Word :=
  if b then -BitVec.ofNat 64 i.size else BitVec.ofNat 64 i.size

theorem value_step (hdf : s.loc (.flag .df) = ofBool b) : value s i.step = .ok (i.stride b) := by
  rw [step, value_bin (value_konst_nat _) (value_bin (value_konst_nat _) (value_readFlag .df)), hdf]
  refine congrArg Except.ok ?_
  show BitVec.ofNat 64 i.size - BitVec.ofNat 64 (2 * i.size) * ofBool b = _
  rw [size, stride, size]
  cases i.width <;> cases b <;> decide

theorem pointer_ofBool (p : Word) (k : ℕ) :
    pointer i.size p (ofBool b) k = p + BitVec.ofNat 64 k * i.stride b := by
  cases b <;> rfl

theorem eight_size (i : StringInsn) : 8 * i.size = i.width.bits := by
  rw [size]
  cases i.width <;> rfl

theorem ctypeBytes_size (i : StringInsn) : ctypeBytes (intBits (.ofBits i.width.bits)) = i.size := by
  rw [size]
  cases i.width <;> rfl

theorem value_elem {a : Expr} {p : Word} (h : value s a = .ok p) :
    value s (i.elem a) = .ok (BitVec.ofNat 64 (readBytes s.mem p i.size)) := by
  simp only [elem, value, h, ctypeBytes_size]
  rfl

theorem value_acc : value s i.acc = .ok (BitVec.ofNat 64 ((s.loc rax).toNat % i.width.size)) :=
  value_reduced i.width (value_read rax)

theorem readBytes_size (mem : Word → BitVec 8) (p : Word) : readBytes mem p i.size < i.width.size := by
  have h := readBytes_lt mem p i.size
  rwa [eight_size] at h

theorem run_adv (l : Location) (hdf : s.loc (.flag .df) = ofBool b) (rest : List Stmt) :
    run (i.adv l :: rest) s = run rest (s.set l (s.loc l + i.stride b)) :=
  run_set (value_bin (value_read l) (value_step hdf))

theorem run_store {a e : Expr} {p v : Word} (ha : value s a = .ok p) (he : value s e = .ok v)
    (rest : List Stmt) :
    run (.store a e (.ofBits i.width.bits) :: rest) s =
      run rest ⟨s.loc, writeBytes s.mem p i.size v.toNat⟩ := by
  simp only [run, ha, he, ctypeBytes_size]
  rfl

end StringInsn

theorem writeBytes_mod (mem : Word → BitVec 8) (a : Word) (n v : ℕ) :
    writeBytes mem a n (v % 2 ^ (8 * n)) = writeBytes mem a n v := by
  induction n generalizing a v with
  | zero => rfl
  | succ n ih =>
      have hpow : 2 ^ (8 * (n + 1)) = 256 * 2 ^ (8 * n) := by
        rw [Nat.mul_succ, pow_add]
        ring
      have hdiv : v % (256 * 2 ^ (8 * n)) / 256 = v / 256 % 2 ^ (8 * n) := Nat.mod_mul_right_div_self ..
      have hbyte : BitVec.ofNat 8 (v % (256 * 2 ^ (8 * n))) = BitVec.ofNat 8 v := by
        apply BitVec.eq_of_toNat_eq
        rw [BitVec.toNat_ofNat, BitVec.toNat_ofNat]
        exact Nat.mod_mul_right_mod v 256 _
      rw [writeBytes, writeBytes, hpow, hdiv, ih, hbyte]

/-! ### What steps leave -/

namespace StringInsn

variable (cfg : Config) (i : StringInsn) (s₀ : State) (b : Bool)

/-- The element `k` steps on, at a pointer. -/
def spot (l : Location) (k : Word) : Word := s₀.loc l + k * i.stride b

def movesSource : Bool := i.op == .movs || i.op == .cmps

/-- What step `k` does to memory. -/
def put (k : ℕ) (m : Word → BitVec 8) : Word → BitVec 8 :=
  match i.op with
  | .movs =>
    writeBytes m (i.spot s₀ b rdi (.ofNat 64 k)) i.size
      (readBytes m (i.spot s₀ b rsi (.ofNat 64 k)) i.size)
  | .stos => writeBytes m (i.spot s₀ b rdi (.ofNat 64 k)) i.size (s₀.loc rax).toNat
  | _ => m

/-- The first of the two values that are compared `k` steps on. -/
def left (k : Word) : ℕ :=
  if i.op = .cmps then readBytes s₀.mem (i.spot s₀ b rsi k) i.size
  else (s₀.loc rax).toNat % i.width.size

def right (k : Word) : ℕ := readBytes s₀.mem (i.spot s₀ b rdi k) i.size

/-- Whether the repeat condition holds after step `k`. -/
def goes (k : ℕ) : Bool :=
  if i.op.compares then
    decide (i.left s₀ b (.ofNat 64 k) = i.right s₀ b (.ofNat 64 k)) == decide (i.rep ≠ .repne)
  else true

/-- Memory and registers after `k` steps. -/
structure After (k : ℕ) (s : State) : Prop where
  mem : s.mem = Rounds.fill (i.put s₀ b) k 0 s₀.mem
  rdi : s.loc rdi = i.spot s₀ b rdi (.ofNat 64 k)
  rsi : s.loc rsi = if i.movesSource then i.spot s₀ b rsi (.ofNat 64 k) else s₀.loc rsi
  rcx : (s.loc rcx).toNat % 2 ^ cfg.bits = (s₀.loc rcx - .ofNat 64 k).toNat % 2 ^ cfg.bits
  df : s.loc (.flag .df) = s₀.loc (.flag .df)
  rest : ∀ l, l ≠ Lift.rdi → l ≠ Lift.rsi → l ≠ Lift.rcx → (∀ f, l ≠ .flag f) →
    (∀ t, l ≠ .temp t) → s.loc l = s₀.loc l

/-- The flags are those of the comparison `k` steps on. -/
def Compared (k : Word) (s : State) : Prop :=
  s.Shows (sub i.width (i.left s₀ b k) (i.right s₀ b k) 0)

/-- The flags after `k` steps. -/
def FlagsAfter (k : ℕ) (s : State) : Prop :=
  if i.op.compares ∧ k ≠ 0 then i.Compared s₀ b (.ofNat 64 k - 1) s
  else ∀ f, s.loc (.flag f) = s₀.loc (.flag f)

variable {cfg i s₀ b}

theorem spot_zero (l : Location) : i.spot s₀ b l (.ofNat 64 0) = s₀.loc l := by
  show s₀.loc l + 0 * i.stride b = _
  rw [zero_mul, add_zero]

theorem spot_succ (l : Location) (k : ℕ) :
    i.spot s₀ b l (.ofNat 64 k) + i.stride b = i.spot s₀ b l (.ofNat 64 (k + 1)) := by
  rw [spot, spot, BitVec.ofNat_add]
  show _ = s₀.loc l + (BitVec.ofNat 64 k + 1) * i.stride b
  ring

theorem left_lt (k : Word) : i.left s₀ b k < i.width.size := by
  rw [left]
  split
  · exact readBytes_size _ _
  · exact Nat.mod_lt _ i.width.size_pos

theorem right_lt (k : Word) : i.right s₀ b k < i.width.size := readBytes_size _ _

theorem run_compare {s : State} {e e' : Expr} {x y : ℕ} (hx : x < i.width.size)
    (hy : y < i.width.size) (he : StableDf s e (.ofNat 64 x)) (he' : StableDf s e' (.ofNat 64 y)) :
    ∃ s', run (i.compare e e') s = .ok s' ∧ OffFlags s s' ∧
      s'.loc (.flag .df) = s.loc (.flag .df) ∧ s'.Shows (sub i.width x y 0) := by
  have hnat : ∀ {n : ℕ}, n < i.width.size → (BitVec.ofNat 64 n).toNat % i.width.size = n := by
    intro n hn
    rw [BitVec.toNat_ofNat, Nat.mod_eq_of_lt (lt_of_lt_of_le hn i.width.size_le),
      Nat.mod_eq_of_lt hn]
  have hdiff : StableDf s (bin .sub e e') (.ofNat 64 x - (.ofNat 64 y + ofBool false)) := by
    intro s' hs' hd
    rw [sub_ofBool_false]
    exact value_bin (he s' hs' hd) (he' s' hs' hd)
  obtain ⟨s', hrun, hoff, hdf, hshows⟩ :=
    run_subFlagsDf i.width he he' (stable_konst s 0).df hdiff rfl
  rw [hnat hx, hnat hy] at hshows
  exact ⟨s', hrun, hoff, hdf, hshows.sub (borrow_false (lt_of_lt_of_le hy i.width.size_le))⟩

/-! ### One step -/

def effect (i : StringInsn) : List Stmt :=
  match i.op with
  | .movs => [.store (.read rdi) (i.elem (.read rsi)) (.ofBits i.width.bits)]
  | .stos => [.store (.read rdi) i.acc (.ofBits i.width.bits)]
  | .cmps => i.compare (i.elem (.read rsi)) (i.elem (.read rdi))
  | _ => i.compare i.acc (i.elem (.read rdi))

def moves (i : StringInsn) : List Stmt :=
  if i.movesSource then [i.adv rsi, i.adv rdi] else [i.adv rdi]

theorem single_eq (cfg : Config) (hop : i.op ≠ .lods) : i.single cfg = i.effect ++ i.moves := by
  rw [single, effect, moves, movesSource]
  cases h : i.op with
  | lods => exact absurd h hop
  | _ => rfl

/-- What they leave, `k` steps on. -/
structure Acted (i : StringInsn) (s₀ : State) (b : Bool) (k : ℕ) (s s' : State) : Prop where
  mem : s'.mem = i.put s₀ b k s.mem
  df : s'.loc (.flag .df) = s.loc (.flag .df)
  rest : ∀ l, (∀ f, l ≠ .flag f) → s'.loc l = s.loc l
  flags : if i.op.compares then i.Compared s₀ b (.ofNat 64 k) s'
    else ∀ f, s'.loc (.flag f) = s.loc (.flag f)

section
variable {k : ℕ}

theorem put_of_compares (hcmp : i.op.compares = true) (k : ℕ) (m : Word → BitVec 8) :
    i.put s₀ b k m = m := by
  rw [put]
  cases hi : i.op <;> rw [hi] at hcmp <;> first | rfl | cases hcmp

theorem After.mem_eq (h : After cfg i s₀ b k s) (hcmp : i.op.compares = true) : s.mem = s₀.mem := by
  rw [h.mem, Rounds.fill_id (put_of_compares hcmp)]

theorem After.stable_elem (h : After cfg i s₀ b k s) (hcmp : i.op.compares = true) {l : Location}
    {e : Expr} {p : Word} (hp : Stable s e p) (hl : p = i.spot s₀ b l (.ofNat 64 k)) :
    Stable s (i.elem e) (.ofNat 64 (readBytes s₀.mem (i.spot s₀ b l (.ofNat 64 k)) i.size)) := by
  intro s' hs'
  rw [value_elem (hp s' hs'), hs'.mem, h.mem_eq hcmp, hl]

theorem stable_read {s : State} (l : Location) (hl : ∀ f, l ≠ .flag f) : Stable s (.read l) (s.loc l) :=
  fun s' hs' => by rw [value_read, hs'.loc l hl]

theorem After.stable_acc (h : After cfg i s₀ b k s) :
    Stable s i.acc (.ofNat 64 ((s₀.loc rax).toNat % i.width.size)) := by
  intro s' hs'
  have hrax : s.loc rax = s₀.loc rax := by
    apply h.rest <;> simp
  rw [value_acc, hs'.loc rax (by simp), hrax]

theorem run_effect (hop : i.op ≠ .lods) (h : After cfg i s₀ b k s) :
    ∃ s', run i.effect s = .ok s' ∧ Acted i s₀ b k s s' := by
  have hrax : s.loc rax = s₀.loc rax := by
    apply h.rest <;> simp
  -- A comparison of two stable values.
  have hcompare : ∀ {e e' : Expr}, i.op.compares = true → i.effect = i.compare e e' →
      Stable s e (.ofNat 64 (i.left s₀ b (.ofNat 64 k))) →
      Stable s e' (.ofNat 64 (i.right s₀ b (.ofNat 64 k))) →
      ∃ s', run i.effect s = .ok s' ∧ Acted i s₀ b k s s' := by
    intro e e' hcmp heff he he'
    obtain ⟨s', hrun, hoff, hdf, hshows⟩ := run_compare (left_lt _) (right_lt _) he.df he'.df
    refine ⟨s', heff ▸ hrun, ?_, hdf, hoff.loc, ?_⟩
    · rw [hoff.mem, put_of_compares hcmp]
    · rw [if_pos hcmp]
      exact hshows
  have hdst : Stable s (.read rdi) (s.loc rdi) := stable_read rdi (by simp)
  have hsrc : Stable s (.read rsi) (s.loc rsi) := stable_read rsi (by simp)
  cases hi : i.op with
  | lods => exact absurd hi hop
  | movs =>
      have hrsi : s.loc rsi = i.spot s₀ b rsi (.ofNat 64 k) := by
        rw [h.rsi, movesSource, hi]
        rfl
      refine ⟨⟨s.loc, writeBytes s.mem (s.loc rdi) i.size
        (BitVec.ofNat 64 (readBytes s.mem (s.loc rsi) i.size)).toNat⟩, ?_, ?_, rfl,
        fun _ _ => rfl, ?_⟩
      · rw [effect, hi]
        exact run_store (value_read rdi) (value_elem (value_read rsi)) []
      · have hlt : readBytes s.mem (s.loc rsi) i.size < 2 ^ 64 :=
          lt_of_lt_of_le (readBytes_size _ _) i.width.size_le
        rw [put, hi, BitVec.toNat_ofNat, Nat.mod_eq_of_lt hlt, h.rdi, hrsi]
      · rw [hi]
        exact fun _ => rfl
  | stos =>
      refine ⟨⟨s.loc, writeBytes s.mem (s.loc rdi) i.size
        (BitVec.ofNat 64 ((s.loc rax).toNat % i.width.size)).toNat⟩, ?_, ?_, rfl,
        fun _ _ => rfl, ?_⟩
      · rw [effect, hi]
        exact run_store (value_read rdi) value_acc []
      · have hlt : (s.loc rax).toNat % i.width.size < 2 ^ 64 := reduced_lt i.width _
        have hsize : i.width.size = 2 ^ (8 * i.size) := by rw [eight_size, Width.size]
        rw [put, hi, BitVec.toNat_ofNat, Nat.mod_eq_of_lt hlt, h.rdi, hrax, hsize, writeBytes_mod]
      · rw [hi]
        exact fun _ => rfl
  | scas =>
      have hcmp : i.op.compares = true := by rw [hi]; rfl
      have hleft : i.left s₀ b (.ofNat 64 k) = (s₀.loc rax).toNat % i.width.size := by
        rw [left, hi]
        rfl
      refine hcompare hcmp (by rw [effect, hi]) ?_ (h.stable_elem hcmp hdst h.rdi)
      rw [hleft]
      exact h.stable_acc
  | cmps =>
      have hcmp : i.op.compares = true := by rw [hi]; rfl
      have hrsi : s.loc rsi = i.spot s₀ b rsi (.ofNat 64 k) := by
        rw [h.rsi, movesSource, hi]
        rfl
      have hleft : i.left s₀ b (.ofNat 64 k) =
          readBytes s₀.mem (i.spot s₀ b rsi (.ofNat 64 k)) i.size := by
        rw [left, if_pos hi]
      refine hcompare hcmp (by rw [effect, hi]) ?_ (h.stable_elem hcmp hdst h.rdi)
      rw [hleft]
      exact h.stable_elem hcmp hsrc hrsi

theorem run_moves {s : State} (hdf : s.loc (.flag .df) = ofBool b) :
    ∃ s', run i.moves s = .ok s' ∧ s'.mem = s.mem ∧ s'.loc rdi = s.loc rdi + i.stride b ∧
      (s'.loc rsi = if i.movesSource then s.loc rsi + i.stride b else s.loc rsi) ∧
      ∀ l, l ≠ rdi → l ≠ rsi → s'.loc l = s.loc l := by
  rw [moves]
  by_cases hsrc : i.movesSource = true
  · rw [if_pos hsrc, if_pos hsrc, run_adv rsi hdf, run_adv rdi (by rw [set_reg_flag, hdf])]
    refine ⟨_, rfl, rfl, ?_, ?_, ?_⟩
    · rw [set_loc_self, set_loc_of_ne (by decide)]
    · rw [set_loc_of_ne (by decide), set_loc_self]
    · intro l hdi hsi
      rw [set_loc_of_ne hdi, set_loc_of_ne hsi]
  · rw [if_neg hsrc, if_neg hsrc, run_adv rdi hdf]
    refine ⟨_, rfl, rfl, set_loc_self, set_loc_of_ne (by decide), ?_⟩
    intro l hdi _
    exact set_loc_of_ne hdi

theorem sub_succ_mod {x y : Word} {n : ℕ} (hbits : cfg.bits = 32 ∨ cfg.bits = 64)
    (h : x.toNat % 2 ^ cfg.bits = (y - .ofNat 64 n).toNat % 2 ^ cfg.bits) :
    (x - 1).toNat % 2 ^ cfg.bits = (y - .ofNat 64 (n + 1)).toNat % 2 ^ cfg.bits := by
  have hsplit : y - .ofNat 64 (n + 1) = y - .ofNat 64 n - 1 := by
    rw [BitVec.ofNat_add, sub_add_eq_sub_sub]
    rfl
  rw [hsplit, BitVec.toNat_sub, BitVec.toNat_sub, show (1 : Word).toNat = 1 from rfl]
  rcases hbits with hbits | hbits <;> rw [hbits] at h ⊢ <;> omega

/-- **A step**: it leaves what one more step leaves, and the repeat condition is the loop's. -/
theorem round_after (hop : i.op ≠ .lods) (hbits : cfg.bits = 32 ∨ cfg.bits = 64)
    (hdf : s₀.loc (.flag .df) = ofBool b) (h : After cfg i s₀ b k s)
    (hfl : i.FlagsAfter s₀ b k s) :
    ∃ s', i.round cfg s = .ok s' ∧ (After cfg i s₀ b (k + 1) s' ∧ i.FlagsAfter s₀ b (k + 1) s') ∧
      i.again s' = i.goes s₀ b k := by
  obtain ⟨s₁, hrun₁, hact⟩ := run_effect hop h
  obtain ⟨s₂, hrun₂, hmem, hrdi, hrsi, hrest⟩ :=
    run_moves (i := i) (hact.df.trans (h.df.trans hdf))
  -- The flags are those that the comparison leaves.
  have hflags : ∀ f, (s₂.set rcx (s₂.loc rcx - 1)).loc (.flag f) = s₁.loc (.flag f) := fun f => by
    rw [set_reg_flag]
    exact hrest _ (by simp) (by simp)
  have hloc : ∀ l, l ≠ rdi → l ≠ rsi → (∀ f, l ≠ .flag f) → s₂.loc l = s.loc l := by
    intro l hdi hsi hf
    rw [hrest l hdi hsi, hact.rest l hf]
  refine ⟨s₂.set rcx (s₂.loc rcx - 1), ?_, ⟨?_, ?_⟩, ?_⟩
  · rw [round, single_eq cfg hop, run_append_ok hrun₁, hrun₂]
    rfl
  · constructor
    · rw [set_mem, hmem, hact.mem, h.mem, Rounds.fill_succ, Nat.zero_add]
    · rw [set_loc_of_ne (by decide), hrdi, hact.rest rdi (by simp), h.rdi, spot_succ]
    · rw [set_loc_of_ne (by decide), hrsi, hact.rest rsi (by simp), h.rsi]
      split
      · exact spot_succ rsi k
      · rfl
    · rw [set_loc_self, hloc rcx (by decide) (by decide) (by simp)]
      exact sub_succ_mod hbits h.rcx
    · rw [hflags, hact.df, h.df]
    · intro l hdi hsi hcx hf ht
      rw [set_loc_of_ne hcx, hloc l hdi hsi hf, h.rest l hdi hsi hcx hf ht]
  · have hact' := hact.flags
    rw [FlagsAfter]
    by_cases hcmp : i.op.compares = true
    · have hpred : BitVec.ofNat 64 (k + 1) - 1 = .ofNat 64 k := by
        rw [BitVec.ofNat_add]
        exact add_sub_cancel_right _ _
      rw [if_pos hcmp] at hact'
      rw [if_pos ⟨hcmp, Nat.succ_ne_zero k⟩, hpred]
      exact hact'.congr hflags
    · rw [if_neg hcmp] at hact'
      rw [FlagsAfter, if_neg (fun hand => hcmp hand.1)] at hfl
      rw [if_neg (fun hand => hcmp hand.1)]
      intro f
      rw [hflags, hact' f, hfl f]
  · have hact' := hact.flags
    rw [again, goes]
    split
    · rename_i hcmp
      rw [if_pos hcmp] at hact'
      have hzf : s₁.loc (.flag .zf) =
          ofBool (decide (i.left s₀ b (.ofNat 64 k) = i.right s₀ b (.ofNat 64 k))) := by
        rw [hact' .zf _ rfl, ofBool_inj]
        exact decide_eq_decide.mpr (sub_eq_zero (left_lt _) (right_lt _))
      rw [hflags, hzf]
      simp only [ofBool_inj]
      exact (beq_eq_decide _ _).symm
    · rfl

end

theorem after_zero : After cfg i s₀ b 0 s₀ := by
  refine ⟨rfl, (spot_zero _).symm, ?_, ?_, rfl, fun _ _ _ _ _ _ => rfl⟩
  · split
    · exact (spot_zero _).symm
    · rfl
  · show _ = (s₀.loc rcx - 0).toNat % _
    rw [sub_zero]

def rounds (cfg : Config) (i : StringInsn) (s₀ : State) (b : Bool) : ℕ :=
  Rounds.scan (i.goes s₀ b) (count cfg s₀) 0

theorem iterate_after (hop : i.op ≠ .lods) (hbits : cfg.bits = 32 ∨ cfg.bits = 64)
    (hdf : s₀.loc (.flag .df) = ofBool b) :
    ∃ s', i.iterate cfg s₀ = .ok s' ∧ After cfg i s₀ b (i.rounds cfg s₀ b) s' ∧
      i.FlagsAfter s₀ b (i.rounds cfg s₀ b) s' := by
  have hstart : i.FlagsAfter s₀ b 0 s₀ := by
    rw [FlagsAfter, if_neg (fun hand => hand.2 rfl)]
    exact fun _ => rfl
  exact Rounds.repeatWhile_scan
    (P := fun k s => After cfg i s₀ b k s ∧ i.FlagsAfter s₀ b k s)
    (fun k s h => round_after hop hbits hdf h.1 h.2) _ ⟨after_zero, hstart⟩

/-! ### The repeated form -/

theorem value_repCount (hbits : cfg.bits = 32 ∨ cfg.bits = 64) :
    value s (repCount cfg) = .ok (.ofNat 64 (count cfg s)) := by
  rw [repCount, count]
  rcases hbits with hbits | hbits
  · rw [if_pos hbits, hbits]
    exact value_mask .b32 (value_read rcx)
  · rw [if_neg (by omega), hbits, Nat.mod_eq_of_lt (s.loc rcx).isLt, BitVec.ofNat_toNat,
      BitVec.setWidth_eq]
    rfl

theorem count_lt (cfg : Config) (s : State) : count cfg s < 2 ^ 64 :=
  lt_of_le_of_lt (Nat.mod_le _ _) (s.loc rcx).isLt

theorem stepString_call {n : String} {args : List Expr} {vs : List Word} {m : Word → BitVec 8}
    {v : Word} (hargs : values s args = .ok vs) (h : repHelper n vs s.mem = some (m, v)) :
    stepString (.callStmt (fcall n args)) s = .ok ⟨s.loc, m⟩ := by
  simp only [fcall, stepString, hargs, bind, Except.bind, h]

theorem stepString_set {n : String} {args : List Expr} {vs : List Word} {v : Word} {l : Location}
    (hargs : values s args = .ok vs) (h : repHelper n vs s.mem = some (s.mem, v)) :
    stepString (.set l (fcall n args)) s = .ok (s.set l v) := by
  simp only [fcall, stepString, hargs, bind, Except.bind, h]

theorem runString_eq_run {L : List Stmt} (h : ∀ st ∈ L, ∀ s, stepString st s = run [st] s)
    (s : State) : runString L s = run L s := by
  induction L generalizing s with
  | nil => rfl
  | cons st L ih =>
      have hL : ∀ st ∈ L, ∀ s, stepString st s = run [st] s := fun st' hst' =>
        h st' (List.mem_cons_of_mem _ hst')
      have hrun : run (st :: L) s = (run [st] s).bind (run L) := run_append [st] L s
      rw [runString, h st List.mem_cons_self, hrun]
      cases run [st] s with
      | error e => rfl
      | ok s' => exact ih hL s'

theorem stepString_pf (r : Expr) (s : State) : stepString (pfFlag r) s = run [pfFlag r] s := by
  have hnone : ∀ vs mem, repHelper "__ix_pf" vs mem = none := fun vs mem => by
    simp [repHelper]
  simp only [pfFlag, setFlag, fcall, stepString, hnone]
  cases hv : values s [r] with
  | ok vs => rfl
  | error e =>
      simp only [run, value, hv]
      rfl

theorem stepString_compare (e e' : Expr) :
    ∀ st ∈ i.compare e e', ∀ s, stepString st s = run [st] s := by
  intro st hst s
  simp only [compare, subFlags, subFlagsCin, List.mem_cons, List.not_mem_nil, or_false] at hst
  rcases hst with rfl | rfl | rfl | rfl | rfl | rfl
  all_goals first | rfl | exact stepString_pf _ s

theorem run_advAll (hbits : cfg.bits = 32 ∨ cfg.bits = 64) (hdf : s.loc (.flag .df) = ofBool b)
    (l : Location) (rest : List Stmt) :
    run (i.advAll cfg l :: rest) s =
      run rest (s.set l (s.loc l + .ofNat 64 (count cfg s) * i.stride b)) := by
  have hbytes : value s (bin .mul (repCount cfg) (konst i.size)) =
      .ok (.ofNat 64 (count cfg s) * .ofNat 64 i.size) :=
    value_bin (value_repCount hbits) (value_konst_nat _)
  have hback : value s (bin .mul (bin .mul (konst 2) (readFlag .df))
      (bin .mul (repCount cfg) (konst i.size))) =
      .ok (2 * ofBool b * (.ofNat 64 (count cfg s) * .ofNat 64 i.size)) := by
    rw [value_bin (value_bin (value_konst 2) (value_readFlag .df)) hbytes, hdf]
    rfl
  have hstride : BitVec.ofNat 64 (count cfg s) * BitVec.ofNat 64 i.size -
      2 * ofBool b * (.ofNat 64 (count cfg s) * .ofNat 64 i.size) =
        .ofNat 64 (count cfg s) * i.stride b := by
    cases b with
    | false =>
        show _ - 2 * 0 * _ = _ * BitVec.ofNat 64 i.size
        ring
    | true =>
        show _ - 2 * 1 * _ = _ * -BitVec.ofNat 64 i.size
        ring
  rw [advAll, run_set (value_bin (value_read l) (value_bin hbytes hback)), hstride]

theorem repHelper_block (hrep : i.op = .movs ∨ i.op = .stos) (hdf : s₀.loc (.flag .df) = ofBool b) :
    repHelper i.helperName [s₀.loc rdi, s₀.loc (if i.movesSource then rsi else rax),
        .ofNat 64 (count cfg s₀), s₀.loc (.flag .df)] s₀.mem =
      some (Rounds.fill (i.put s₀ b) (count cfg s₀) 0 s₀.mem, 0) := by
  have hnat : (BitVec.ofNat 64 (count cfg s₀)).toNat = count cfg s₀ := by
    rw [BitVec.toNat_ofNat, Nat.mod_eq_of_lt (count_lt cfg s₀)]
  rw [hdf]
  -- either helper makes the round that the single step makes, at the same pointers
  rcases hrep with hi | hi
  · have hmovs : repHelper i.helperName [s₀.loc rdi, s₀.loc rsi, .ofNat 64 (count cfg s₀),
        ofBool b] s₀.mem =
        some (repMovs i.size (s₀.loc rdi) (s₀.loc rsi) (.ofNat 64 (count cfg s₀)) (ofBool b)
          s₀.mem, 0) := by
      rw [helperName, hi, size]
      cases i.width <;> rfl
    have hsrc : i.movesSource = true := by
      rw [movesSource, hi]
      rfl
    have hput : i.put s₀ b = fun k m => writeBytes m (pointer i.size (s₀.loc rdi) (ofBool b) k)
        i.size (readBytes m (pointer i.size (s₀.loc rsi) (ofBool b) k) i.size) := by
      funext k m
      rw [put, hi, pointer_ofBool, pointer_ofBool]
      rfl
    rw [if_pos hsrc, hmovs, repMovs, hnat, hput]
  · have hstos : repHelper i.helperName [s₀.loc rdi, s₀.loc rax, .ofNat 64 (count cfg s₀),
        ofBool b] s₀.mem =
        some (repStos i.size (s₀.loc rdi) (s₀.loc rax) (.ofNat 64 (count cfg s₀)) (ofBool b)
          s₀.mem, 0) := by
      rw [helperName, hi, size]
      cases i.width <;> rfl
    have hsrc : ¬ i.movesSource = true := by
      rw [movesSource, hi]
      decide
    have hput : i.put s₀ b = fun k m => writeBytes m (pointer i.size (s₀.loc rdi) (ofBool b) k)
        i.size (s₀.loc rax).toNat := by
      funext k m
      rw [put, hi, pointer_ofBool]
      rfl
    rw [if_neg hsrc, hstos, repStos, hnat, hput]

def blockTail (cfg : Config) (i : StringInsn) : List Stmt :=
  i.advAll cfg rdi :: ((if i.movesSource then [i.advAll cfg rsi] else []) ++ [.set rcx (konst 0)])

theorem block_eq (hrep : i.op = .movs ∨ i.op = .stos) (cfg : Config) :
    i.block cfg = .callStmt (fcall i.helperName [.read rdi,
      .read (if i.movesSource then rsi else rax), repCount cfg, readFlag .df]) ::
        i.blockTail cfg := by
  rw [block, blockTail, movesSource]
  rcases hrep with hi | hi <;> rw [hi] <;> rfl

theorem stepString_blockTail : ∀ st ∈ i.blockTail cfg, ∀ s, stepString st s = run [st] s := by
  intro st hst s
  rw [blockTail, List.mem_cons, List.mem_append, List.mem_singleton] at hst
  rcases hst with rfl | hst | rfl
  · rfl
  · split at hst
    · rw [List.mem_singleton] at hst
      subst hst
      rfl
    · exact absurd hst List.not_mem_nil
  · rfl

theorem run_blockTail (i : StringInsn) {s : State} (hbits : cfg.bits = 32 ∨ cfg.bits = 64)
    (hdf : s.loc (.flag .df) = ofBool b) :
    ∃ s', run (i.blockTail cfg) s = .ok s' ∧ s'.mem = s.mem ∧
      s'.loc rdi = i.spot s b rdi (.ofNat 64 (count cfg s)) ∧
      (s'.loc rsi = if i.movesSource then i.spot s b rsi (.ofNat 64 (count cfg s))
        else s.loc rsi) ∧
      s'.loc rcx = 0 ∧ ∀ l, l ≠ rdi → l ≠ rsi → l ≠ rcx → s'.loc l = s.loc l := by
  have hzero : ∀ s : State, value s (konst 0) = .ok (0 : Word) := fun _ => rfl
  rw [blockTail, run_advAll hbits hdf]
  by_cases hsrc : i.movesSource = true
  · have hcount : ∀ v, count cfg (s.set rdi v) = count cfg s := fun v => by
      rw [count, count, set_loc_of_ne (by decide)]
    rw [if_pos hsrc, if_pos hsrc, List.singleton_append,
      run_advAll hbits (by rw [set_reg_flag, hdf]), hcount, run_set (hzero _)]
    refine ⟨_, rfl, rfl, ?_, ?_, set_loc_self, ?_⟩
    · rw [set_loc_of_ne (by decide), set_loc_of_ne (by decide), set_loc_self]
      rfl
    · rw [set_loc_of_ne (by decide), set_loc_self, set_loc_of_ne (by decide)]
      rfl
    · intro l hdi hsi hcx
      rw [set_loc_of_ne hcx, set_loc_of_ne hsi, set_loc_of_ne hdi]
  · rw [if_neg hsrc, if_neg hsrc, List.nil_append, run_set (hzero _)]
    refine ⟨_, rfl, rfl, ?_, ?_, set_loc_self, ?_⟩
    · rw [set_loc_of_ne (by decide), set_loc_self]
      rfl
    · rw [set_loc_of_ne (by decide), set_loc_of_ne (by decide)]
    · intro l hdi _ hcx
      rw [set_loc_of_ne hcx, set_loc_of_ne hdi]

theorem count_sub (hbits : cfg.bits = 32 ∨ cfg.bits = 64) (s : State) (k : ℕ) :
    (BitVec.ofNat 64 (count cfg s) - .ofNat 64 k).toNat % 2 ^ cfg.bits =
      (s.loc rcx - .ofNat 64 k).toNat % 2 ^ cfg.bits := by
  rw [BitVec.toNat_sub, BitVec.toNat_sub, BitVec.toNat_ofNat, BitVec.toNat_ofNat, count]
  rcases hbits with hbits | hbits <;> rw [hbits] <;> omega

/-- **Copies and fills**: the statements leave what all the steps leave. -/
theorem run_block (hrep : i.op = .movs ∨ i.op = .stos) (hbits : cfg.bits = 32 ∨ cfg.bits = 64)
    (hdf : s₀.loc (.flag .df) = ofBool b) :
    ∃ s', runString (i.block cfg) s₀ = .ok s' ∧ After cfg i s₀ b (count cfg s₀) s' ∧
      ∀ f, s'.loc (.flag f) = s₀.loc (.flag f) := by
  have hargs : ∀ l, values s₀ [.read rdi, .read l, repCount cfg, readFlag .df] =
      .ok [s₀.loc rdi, s₀.loc l, .ofNat 64 (count cfg s₀), s₀.loc (.flag .df)] := fun l => by
    simp only [values, value_repCount hbits, value_read, value_readFlag]
    rfl
  have hcall := stepString_call (hargs _) (repHelper_block hrep hdf)
  obtain ⟨s', hrun, hmem, hrdi, hrsi, hrcx, hrest⟩ := run_blockTail i
    (s := ⟨s₀.loc, Rounds.fill (i.put s₀ b) (count cfg s₀) 0 s₀.mem⟩) hbits hdf
  have hflags : ∀ f, s'.loc (.flag f) = s₀.loc (.flag f) := fun f =>
    hrest _ (by simp) (by simp) (by simp)
  refine ⟨s', ?_, ⟨hmem, hrdi, hrsi, ?_, hflags .df, ?_⟩, hflags⟩
  · rw [block_eq hrep, runString, hcall, ← hrun]
    exact runString_eq_run stepString_blockTail _
  · rw [hrcx, ← count_sub hbits, sub_self]
  · intro l hdi hsi hcx _ _
    exact hrest l hdi hsi hcx

def Scans (i : StringInsn) : Prop :=
  i.rep ≠ .none ∧ i.op.compares = true ∧ i.width ≠ .b64

def scanArgs (cfg : Config) (i : StringInsn) : List Expr :=
  let repe := konst (if i.rep = .repne then 0 else 1)
  if i.op = .cmps then [.read rsi, .read rdi, repCount cfg, repe, readFlag .df]
  else [.read rdi, bin .and (.read rax) (konst (mask i.width.bits)), repCount cfg, repe,
    readFlag .df]

def lastElem (i : StringInsn) (l : Location) : Expr := i.elem (bin .sub (.read l) i.step)

def scanLeft (i : StringInsn) : Expr :=
  if i.op = .cmps then i.lastElem rsi else bin .and (.read rax) (konst (mask i.width.bits))

def scanMoves (cfg : Config) (i : StringInsn) : List Stmt :=
  (if i.movesSource then [i.advScan rsi] else []) ++
    [i.advScan rdi, .set rcx (bin .sub (repCount cfg) (.read i.kt))]

theorem scan_eq (h : i.Scans) (cfg : Config) : i.scan cfg =
    .set i.kt (fcall i.helperName (i.scanArgs cfg)) ::
      (i.scanMoves cfg ++ i.compare i.scanLeft (i.lastElem rdi)) := by
  have hcmp := h.2.1
  rw [scan, scanMoves, scanArgs, scanLeft, movesSource]
  cases hi : i.op <;> rw [hi] at hcmp <;> first | rfl | cases hcmp

theorem repHelper_scan (h : i.Scans) (hbits : cfg.bits = 32 ∨ cfg.bits = 64)
    (hdf : s₀.loc (.flag .df) = ofBool b) :
    ∃ vs, values s₀ (i.scanArgs cfg) = .ok vs ∧
      repHelper i.helperName vs s₀.mem = some (s₀.mem, .ofNat 64 (i.rounds cfg s₀ b)) := by
  obtain ⟨-, hcmp, hw⟩ := h
  have hnat : (BitVec.ofNat 64 (count cfg s₀)).toNat = count cfg s₀ := by
    rw [BitVec.toNat_ofNat, Nat.mod_eq_of_lt (count_lt cfg s₀)]
  have hrepe : ∀ e : Bool, scanGoes (BitVec.ofInt 64 (if i.rep = .repne then 0 else 1)) e =
      (e == decide (i.rep ≠ .repne)) := by
    intro e
    by_cases hr : i.rep = .repne
    · simp [scanGoes, hr]
    · simp [scanGoes, hr]
  have hacc : value s₀ (bin .and (.read rax) (konst (mask i.width.bits))) =
      .ok (.ofNat 64 ((s₀.loc rax).toNat % i.width.size)) := value_mask i.width (value_read rax)
  cases hi : i.op with
  | cmps =>
      refine ⟨[s₀.loc rsi, s₀.loc rdi, .ofNat 64 (count cfg s₀),
        BitVec.ofInt 64 (if i.rep = .repne then 0 else 1), ofBool b], ?_, ?_⟩
      · rw [scanArgs, if_pos hi]
        simp only [values, value_repCount hbits, value_read, value_readFlag, value_konst, hdf]
        rfl
      · have hcall : ∀ d s n r k : Word, repHelper i.helperName [s, d, n, r, k] s₀.mem =
            some (s₀.mem, repCmps i.size s d n r k s₀.mem) := by
          intro d s n r k
          rw [helperName, hi, size]
          cases hwi : i.width <;> first | rfl | exact absurd hwi hw
        rw [hcall, repCmps, hnat, rounds]
        congr 4
        funext k
        rw [hrepe, goes, if_pos hcmp, left, if_pos hi, pointer_ofBool, pointer_ofBool]
        rfl
  | scas =>
      have hne : i.op ≠ .cmps := by
        rw [hi]
        decide
      refine ⟨[s₀.loc rdi, .ofNat 64 ((s₀.loc rax).toNat % i.width.size), .ofNat 64 (count cfg s₀),
        BitVec.ofInt 64 (if i.rep = .repne then 0 else 1), ofBool b], ?_, ?_⟩
      · rw [scanArgs, if_neg hne]
        simp only [values, value_repCount hbits, value_read, value_readFlag, value_konst, hacc, hdf]
        rfl
      · have hcall : ∀ d v n r k : Word, repHelper i.helperName [d, v, n, r, k] s₀.mem =
            some (s₀.mem, repScas i.size d v n r k s₀.mem) := by
          intro d v n r k
          rw [helperName, hi, size]
          cases hwi : i.width <;> first | rfl | exact absurd hwi hw
        have hmod : (BitVec.ofNat 64 ((s₀.loc rax).toNat % i.width.size)).toNat % 2 ^ (8 * i.size) =
            (s₀.loc rax).toNat % i.width.size := by
          rw [BitVec.toNat_ofNat, Nat.mod_eq_of_lt (reduced_lt i.width _), eight_size]
          exact Nat.mod_mod _ _
        rw [hcall, repScas, hnat, rounds]
        congr 4
        funext k
        rw [hrepe, goes, if_pos hcmp, left, if_neg hne, pointer_ofBool, hmod]
        congr 1
        exact decide_eq_decide.mpr eq_comm
  | _ =>
      rw [hi] at hcmp
      cases hcmp

theorem spot_pred (l : Location) (k : Word) :
    i.spot s₀ b l k - i.stride b = i.spot s₀ b l (k - 1) := by
  rw [spot, spot]
  ring

theorem run_advScan (hdf : s.loc (.flag .df) = ofBool b) (l : Location) (rest : List Stmt) :
    run (i.advScan l :: rest) s = run rest (s.set l (s.loc l + s.loc i.kt * i.stride b)) :=
  run_set (value_bin (value_read l) (value_bin (value_read i.kt) (value_step hdf)))

theorem run_scanMoves (hbits : cfg.bits = 32 ∨ cfg.bits = 64) (k : Word)
    (hdf : s.loc (.flag .df) = ofBool b) :
    ∃ s', run (i.scanMoves cfg) (s.set i.kt k) = .ok s' ∧ s'.mem = s.mem ∧
      s'.loc rdi = i.spot s b rdi k ∧
      (s'.loc rsi = if i.movesSource then i.spot s b rsi k else s.loc rsi) ∧
      s'.loc rcx = .ofNat 64 (count cfg s) - k ∧
      ∀ l, l ≠ rdi → l ≠ rsi → l ≠ rcx → (∀ t, l ≠ .temp t) → s'.loc l = s.loc l := by
  have hkt : ∀ r, Location.reg r ≠ i.kt := fun r => nofun
  -- the helper leaves its count of rounds in a temporary, which no register move touches
  have hcount : ∀ t : State, t.loc rcx = s.loc rcx → t.loc i.kt = k →
      value t (bin .sub (repCount cfg) (.read i.kt)) = .ok (.ofNat 64 (count cfg s) - k) := by
    intro t hcx hk
    have hc : count cfg t = count cfg s := by rw [count, count, hcx]
    rw [value_bin (value_repCount hbits) (value_read i.kt), hc, hk]
    rfl
  have hdf' : (s.set i.kt k).loc (.flag .df) = ofBool b := by rw [kt, set_temp_flag, hdf]
  rw [scanMoves]
  by_cases hsrc : i.movesSource = true
  · rw [if_pos hsrc, if_pos hsrc, List.singleton_append, run_advScan hdf',
      run_advScan (by rw [set_reg_flag, hdf'])]
    rw [run_set (hcount _ ?_ ?_)]
    · refine ⟨_, rfl, rfl, ?_, ?_, set_loc_self, ?_⟩
      · rw [set_loc_of_ne (by decide), set_loc_self, set_loc_of_ne (by decide),
          set_loc_of_ne (hkt 7), set_loc_of_ne (hkt 6).symm, set_loc_self]
        rfl
      · rw [set_loc_of_ne (by decide), set_loc_of_ne (by decide), set_loc_self,
          set_loc_of_ne (hkt 6), set_loc_self]
        rfl
      · intro l hdi hsi hcx ht
        rw [set_loc_of_ne hcx, set_loc_of_ne hdi, set_loc_of_ne hsi]
        exact set_loc_of_ne (ht _)
    · rw [set_loc_of_ne (by decide), set_loc_of_ne (by decide), set_loc_of_ne (hkt 1)]
    · rw [set_loc_of_ne (hkt 7).symm, set_loc_of_ne (hkt 6).symm, set_loc_self]
  · rw [if_neg hsrc, if_neg hsrc, List.nil_append, run_advScan hdf', run_set (hcount _ ?_ ?_)]
    · refine ⟨_, rfl, rfl, ?_, ?_, set_loc_self, ?_⟩
      · rw [set_loc_of_ne (by decide), set_loc_self, set_loc_of_ne (hkt 7), set_loc_self]
        rfl
      · rw [set_loc_of_ne (by decide), set_loc_of_ne (by decide), set_loc_of_ne (hkt 6)]
      · intro l hdi _ hcx ht
        rw [set_loc_of_ne hcx, set_loc_of_ne hdi]
        exact set_loc_of_ne (ht _)
    · rw [set_loc_of_ne (by decide), set_loc_of_ne (hkt 1)]
    · rw [set_loc_of_ne (hkt 7).symm, set_loc_self]

/-- **Scans**: the statements leave the registers that the steps leave, and the flags of the last
element behind the pointers. -/
theorem run_scan (h : i.Scans) (hbits : cfg.bits = 32 ∨ cfg.bits = 64)
    (hdf : s₀.loc (.flag .df) = ofBool b) :
    ∃ s', runString (i.scan cfg) s₀ = .ok s' ∧ After cfg i s₀ b (i.rounds cfg s₀ b) s' ∧
      i.Compared s₀ b (.ofNat 64 (i.rounds cfg s₀ b) - 1) s' := by
  obtain ⟨vs, hargs, hhelper⟩ := repHelper_scan h hbits hdf
  have hcall := stepString_set (l := i.kt) hargs hhelper
  obtain ⟨s₁, hrun₁, hmem, hrdi, hrsi, hrcx, hrest⟩ :=
    run_scanMoves (i := i) hbits (.ofNat 64 (i.rounds cfg s₀ b)) hdf
  have hflags : ∀ f, s₁.loc (.flag f) = s₀.loc (.flag f) := fun f =>
    hrest _ (by simp) (by simp) (by simp) (by simp)
  have hdf₁ : s₁.loc (.flag .df) = ofBool b := (hflags .df).trans hdf
  have hrax : s₁.loc rax = s₀.loc rax :=
    hrest _ (by simp) (by simp) (by simp) (by simp)
  -- The elements behind the pointers.
  have hlast : ∀ {l : Location}, (∀ f, l ≠ .flag f) →
      s₁.loc l = i.spot s₀ b l (.ofNat 64 (i.rounds cfg s₀ b)) → StableDf s₁ (i.lastElem l)
        (.ofNat 64 (readBytes s₀.mem (i.spot s₀ b l (.ofNat 64 (i.rounds cfg s₀ b) - 1))
          i.size)) := by
    intro l hl hspot s' hs' hd
    have haddr : value s' (bin .sub (.read l) i.step) =
        .ok (i.spot s₀ b l (.ofNat 64 (i.rounds cfg s₀ b) - 1)) := by
      rw [value_bin (value_read l) (value_step (hd.trans hdf₁)), hs'.loc l hl, hspot, ← spot_pred]
      rfl
    rw [lastElem, value_elem haddr, hs'.mem, hmem]
  have hleft : StableDf s₁ i.scanLeft
      (.ofNat 64 (i.left s₀ b (.ofNat 64 (i.rounds cfg s₀ b) - 1))) := by
    rw [scanLeft, left]
    split
    · rename_i hi
      refine hlast (by simp) ?_
      rw [hrsi, movesSource, hi]
      rfl
    · intro s' hs' _
      rw [value_mask i.width (value_read rax), hs'.loc rax (by simp), hrax]
  obtain ⟨s', hrun, hoff, hdf', hshows⟩ :=
    run_compare (left_lt _) (right_lt _) hleft (hlast (by simp) hrdi)
  refine ⟨s', ?_, ⟨?_, ?_, ?_, ?_, hdf'.trans (hflags .df), ?_⟩, hshows⟩
  · have hplain : ∀ st ∈ i.scanMoves cfg ++ i.compare i.scanLeft (i.lastElem rdi), ∀ s,
        stepString st s = run [st] s := by
      intro st hst s
      rcases List.mem_append.mp hst with hst | hst
      · rw [scanMoves] at hst
        rcases List.mem_append.mp hst with hst | hst
        · split at hst
          · rw [List.mem_singleton] at hst
            subst hst
            rfl
          · exact absurd hst List.not_mem_nil
        · rw [List.mem_cons, List.mem_singleton] at hst
          rcases hst with rfl | rfl <;> rfl
      · exact stepString_compare _ _ st hst s
    rw [scan_eq h, runString, hcall, ← hrun, ← run_append_ok hrun₁]
    exact runString_eq_run hplain _
  · rw [hoff.mem, hmem, Rounds.fill_id (put_of_compares h.2.1)]
  · rw [hoff.loc _ (by simp), hrdi]
  · rw [hoff.loc _ (by simp), hrsi]
  · rw [hoff.loc _ (by simp), hrcx, count_sub hbits]
  · intro l hdi hsi hcx hf ht
    rw [hoff.loc l hf, hrest l hdi hsi hcx ht]

/-! ### The two forms -/

def Repeated (i : StringInsn) : Prop :=
  i.rep = .rep ∧ (i.op = .movs ∨ i.op = .stos) ∨ i.Scans

end StringInsn

/-- Two states that agree on all that code of this width has, but for flags. -/
structure AgreeOffFlags (cfg : Config) (s s' : State) : Prop where
  mem : s'.mem = s.mem
  regs : ∀ r, (s'.loc (.reg r)).toNat % 2 ^ cfg.bits = (s.loc (.reg r)).toNat % 2 ^ cfg.bits
  frames : ∀ d, s'.loc (.frame d) = s.loc (.frame d)

structure Agree (cfg : Config) (s s' : State) : Prop extends AgreeOffFlags cfg s s' where
  flags : ∀ f, s'.loc (.flag f) = s.loc (.flag f)

namespace StringInsn

variable {cfg : Config} {i : StringInsn} {s s₀ s' : State} {b : Bool} {k : ℕ}

theorem After.agree (h : After cfg i s₀ b k s) (h' : After cfg i s₀ b k s') :
    AgreeOffFlags cfg s s' := by
  refine ⟨h'.mem.trans h.mem.symm, fun r => ?_, fun d => ?_⟩
  · by_cases hdi : Location.reg r = Lift.rdi
    · rw [hdi, h.rdi, h'.rdi]
    by_cases hsi : Location.reg r = Lift.rsi
    · rw [hsi, h.rsi, h'.rsi]
    by_cases hcx : Location.reg r = Lift.rcx
    · rw [hcx, h.rcx, h'.rcx]
    rw [h.rest _ hdi hsi hcx (by simp) (by simp), h'.rest _ hdi hsi hcx (by simp) (by simp)]
  · rw [h.rest _ (by simp) (by simp) (by simp) (by simp) (by simp),
      h'.rest _ (by simp) (by simp) (by simp) (by simp) (by simp)]

theorem Compared.flags {j : Word} (h : i.Compared s₀ b j s) (h' : i.Compared s₀ b j s')
    (hdf : s'.loc (.flag .df) = s.loc (.flag .df)) (f : FlagKind) :
    s'.loc (.flag f) = s.loc (.flag f) := by
  cases f with
  | df => exact hdf
  | zf => exact (h' .zf _ rfl).trans (h .zf _ rfl).symm
  | sf => exact (h' .sf _ rfl).trans (h .sf _ rfl).symm
  | cf => exact (h' .cf _ rfl).trans (h .cf _ rfl).symm
  | of => exact (h' .of _ rfl).trans (h .of _ rfl).symm
  | pf => exact (h' .pf _ rfl).trans (h .pf _ rfl).symm
  | af => exact (h' .af _ rfl).trans (h .af _ rfl).symm

theorem lift_of_scans (h : i.Scans) (cfg : Config) : i.lift cfg = i.scan cfg := by
  have hne : ¬ (i.rep = .rep ∧ (i.op = .movs ∨ i.op = .stos)) := by
    rintro ⟨-, hi | hi⟩
    all_goals
      have hcmp := h.2.1
      rw [hi] at hcmp
      cases hcmp
  rw [lift, if_neg hne]
  exact if_pos h

/-- **Repeated string instructions**: the lifted statements end as the single step does that is
repeated, whatever the elements, the direction and the overlap; a scan of no element sets the flags
from the elements behind the pointers, which the steps do not.  A scan of words of 64 bits is left
opaque under `repe`. -/
theorem repeated_exact (hbits : cfg.bits = 32 ∨ cfg.bits = 64)
    (hdf : s.loc (.flag .df) = ofBool b) :
    (i.Repeated → ∃ s₁ s₂, runString (i.lift cfg) s = .ok s₁ ∧ i.iterate cfg s = .ok s₂ ∧
      (count cfg s = 0 → s₂ = s) ∧
      if i.op.compares ∧ count cfg s = 0 then AgreeOffFlags cfg s₂ s₁ ∧ i.Compared s b (-1) s₁
      else Agree cfg s₂ s₁) ∧
    (i.rep = .rep → i.op.compares = true → i.width = .b64 → i.lift cfg = i.asm) := by
  have hzero : ∀ s₂, i.iterate cfg s = .ok s₂ → count cfg s = 0 → s₂ = s := by
    intro s₂ hs₂ hcount
    rw [iterate, hcount] at hs₂
    exact (Except.ok.inj hs₂).symm
  refine ⟨fun hrep => ?_, fun hrep hcmp hw => ?_⟩
  · rcases hrep with ⟨hrep, hi⟩ | hscan
    · -- A copy or a fill makes all the rounds.
      have hcmp : ¬ i.op.compares = true := by
        rcases hi with hi | hi <;> rw [hi] <;> decide
      have hlods : i.op ≠ .lods := by
        rcases hi with hi | hi <;> rw [hi] <;> decide
      have hall : i.rounds cfg s b = count cfg s := by
        have hgoes : ∀ k, i.goes s b k = true := fun k => by rw [goes, if_neg hcmp]
        rw [rounds, Rounds.scan_always hgoes, Nat.zero_add]
      obtain ⟨s₁, hrun₁, hafter₁, hfl₁⟩ := run_block hi hbits hdf
      obtain ⟨s₂, hrun₂, hafter₂, hfl₂⟩ := iterate_after hlods hbits hdf
      rw [hall] at hafter₂
      rw [FlagsAfter, if_neg (fun hand => hcmp hand.1)] at hfl₂
      refine ⟨s₁, s₂, ?_, hrun₂, hzero s₂ hrun₂, ?_⟩
      · rw [lift, if_pos ⟨hrep, hi⟩]
        exact hrun₁
      · rw [if_neg (fun hand => hcmp hand.1)]
        exact ⟨hafter₂.agree hafter₁, fun f => (hfl₁ f).trans (hfl₂ f).symm⟩
    · have hcmp := hscan.2.1
      have hlods : i.op ≠ .lods := by
        intro hi
        rw [hi] at hcmp
        cases hcmp
      obtain ⟨s₁, hrun₁, hafter₁, hfl₁⟩ := run_scan hscan hbits hdf
      obtain ⟨s₂, hrun₂, hafter₂, hfl₂⟩ := iterate_after hlods hbits hdf
      refine ⟨s₁, s₂, by rw [lift_of_scans hscan, hrun₁], hrun₂, hzero s₂ hrun₂, ?_⟩
      by_cases hcount : count cfg s = 0
      · have hnone : i.rounds cfg s b = 0 := by
          rw [rounds, hcount]
          rfl
        rw [hnone] at hfl₁
        rw [if_pos ⟨hcmp, hcount⟩]
        exact ⟨hafter₂.agree hafter₁, hfl₁⟩
      · have hsome : i.rounds cfg s b ≠ 0 := by
          have hlt : 0 < i.rounds cfg s b := Rounds.lt_scan hcount
          omega
        rw [FlagsAfter, if_pos ⟨hcmp, hsome⟩] at hfl₂
        rw [if_neg (fun hand => hcount hand.2)]
        exact ⟨hafter₂.agree hafter₁, hfl₂.flags hfl₁ (hafter₁.df.trans hafter₂.df.symm)⟩
  · have hne : ¬ (i.op = .movs ∨ i.op = .stos) := by
      rintro (hi | hi) <;> rw [hi] at hcmp <;> cases hcmp
    rw [lift, if_neg (fun hand => hne hand.2), if_neg (fun hand => hand.2.2 hw),
      if_neg (not_not.mpr hrep)]

/-- `rep movsw` and `repne cmpsb`. -/
def repMovsw : StringInsn := ⟨.movs, .b16, .rep, 0, "rep movsw", [], []⟩
def repneCmpsb : StringInsn := ⟨.cmps, .b8, .repne, 0, "repne cmpsb", [], []⟩

/-- Five elements downward, from places that overlap. -/
def downward : State where
  loc l :=
    if l = rcx then 5 else if l = rsi then 0x22 else if l = rdi then 0x21
    else if l = .flag .df then 1 else 0
  mem a := if a = 0x20 then 0x1f else a.setWidth 8

/-- A copy of five words, and a comparison that ends at the third of five bytes. -/
theorem repeated_exact_downward :
    (∃ s₁ s₂, runString (repMovsw.lift ⟨32, true⟩) downward = .ok s₁ ∧
      repMovsw.iterate ⟨32, true⟩ downward = .ok s₂ ∧ Agree ⟨32, true⟩ s₂ s₁) ∧
    ∃ s₁ s₂, runString (repneCmpsb.lift ⟨32, true⟩) downward = .ok s₁ ∧
      repneCmpsb.iterate ⟨32, true⟩ downward = .ok s₂ ∧ count ⟨32, true⟩ s₂ = 2 ∧
      Agree ⟨32, true⟩ s₂ s₁ := by
  have hdf : downward.loc (.flag .df) = ofBool true := rfl
  have hbits : (⟨32, true⟩ : Config).bits = 32 ∨ (⟨32, true⟩ : Config).bits = 64 := .inl rfl
  have hmany : ¬ count ⟨32, true⟩ downward = 0 := by decide
  constructor
  · obtain ⟨s₁, s₂, hrun, hiter, -, h⟩ :=
      (repeated_exact hbits hdf).1 (.inl ⟨rfl, .inl rfl⟩ : repMovsw.Repeated)
    rw [if_neg fun hand => hmany hand.2] at h
    exact ⟨s₁, s₂, hrun, hiter, h⟩
  · obtain ⟨s₁, s₂, hrun, hiter, -, h⟩ :=
      (repeated_exact hbits hdf).1 (.inr ⟨by decide, rfl, by decide⟩ : repneCmpsb.Repeated)
    rw [if_neg fun hand => hmany hand.2] at h
    have hleft : (repneCmpsb.iterate ⟨32, true⟩ downward).toOption.map (count ⟨32, true⟩) =
        some 2 := by decide +kernel
    rw [hiter] at hleft
    exact ⟨s₁, s₂, hrun, hiter, Option.some.inj hleft, h⟩

/-- `repe scasb`. -/
def repeScasb : StringInsn := ⟨.scas, .b8, .rep, 0, "repe scasb", [], []⟩

/-- **A scan of no element changes flags**: `repe scasb` with a count of zero compares the byte
before the pointer. -/
theorem repeated_not_exact :
    ¬ ∀ (cfg : Config) (i : StringInsn) (s : State) (b : Bool), cfg.bits = 32 ∨ cfg.bits = 64 →
      i.rep = .rep ∧ (i.op = .movs ∨ i.op = .stos) ∨ i.rep ≠ .none ∧ i.op.compares = true →
      s.loc (.flag .df) = ofBool b →
      ∃ s₁ s₂, runString (i.lift cfg) s = .ok s₁ ∧ i.iterate cfg s = .ok s₂ ∧ Agree cfg s₂ s₁ ∧
        (count cfg s = 0 → Agree cfg s s₁) := by
  intro hall
  have hscan : repeScasb.Scans := ⟨by decide, rfl, by decide⟩
  obtain ⟨s₁, s₂, hrun, -, -, hkeep⟩ := hall ⟨32, true⟩ repeScasb ⟨fun _ => 0, fun _ => 0⟩ false
    (.inl rfl) (.inr ⟨by decide, rfl⟩) rfl
  have hlifted : ∃ s', runString (repeScasb.scan ⟨32, true⟩) ⟨fun _ => 0, fun _ => 0⟩ = .ok s' ∧
      After ⟨32, true⟩ repeScasb ⟨fun _ => 0, fun _ => 0⟩ false _ s' ∧
      repeScasb.Compared ⟨fun _ => 0, fun _ => 0⟩ false _ s' := run_scan hscan (.inl rfl) rfl
  obtain ⟨s', hrun', -, hfl⟩ := hlifted
  rw [lift_of_scans hscan, hrun'] at hrun
  obtain rfl := Except.ok.inj hrun
  have hset : s'.loc (.flag .zf) = 1 := (hfl .zf _ rfl).trans (by decide +kernel)
  have hclear : s'.loc (.flag .zf) = 0 := (hkeep rfl).flags .zf
  rw [hset] at hclear
  exact absurd hclear (by decide)

end StringInsn

end Aret.Lift
