/-
The flags of lifted additions, subtractions and bitwise operations.

* `liftArith_exact_iff` — the statements of an instruction leave the result and
  the flags of the processor exactly when neither of two cases is met: an
  exclusive or with a sign-extended immediate that cancels the operand, and a
  subtraction of 64 bits with a borrow in from the largest word.
-/
import Aret.LiftRun

namespace Aret.Lift

open Alu

/-! ### Flags of a result -/

def flagOf (r : Result) : FlagKind → Option Bool
  | .zf => r.zf
  | .sf => r.sf
  | .of => r.of
  | .cf => r.cf
  | .pf => r.pf
  | .af => r.af
  | .df => none

def State.Shows (s : State) (r : Result) : Prop :=
  ∀ k p, flagOf r k = some p → s.loc (.flag k) = ofBool p

def Stable (s : State) (e : Expr) (v : Word) : Prop := ∀ s', OffFlags s s' → value s' e = .ok v

theorem stable_konst (s : State) (n : ℕ) : Stable s (konst n) (BitVec.ofNat 64 n) :=
  fun _ _ => value_konst_nat n

theorem Stable.bin {s : State} {op : BinOp} {a b : Expr} {x y z : Word} (ha : Stable s a x)
    (hb : Stable s b y) (h : binary op a b x y = .ok z) : Stable s (bin op a b) z :=
  fun s' hs => (value_bin (ha s' hs) (hb s' hs)).trans h

def StableDf (s : State) (e : Expr) (v : Word) : Prop :=
  ∀ s', OffFlags s s' → s'.loc (.flag .df) = s.loc (.flag .df) → value s' e = .ok v

theorem Stable.df {s : State} {e : Expr} {v : Word} (h : Stable s e v) : StableDf s e v :=
  fun s' hs' _ => h s' hs'

section
variable {s : State} {a b cin r : Expr} {x y z : Word} {c : Bool} {w : Width}

theorem ofBool_zero {n : ℕ} (h : n < 2 ^ 64) :
    ofBool (BitVec.ofNat 64 n = 0) = ofBool (n = 0) := by
  rw [ofBool_inj, decide_eq_decide]
  constructor
  · intro h0
    have := congrArg BitVec.toNat h0
    rwa [BitVec.toNat_ofNat, Nat.mod_eq_of_lt h] at this
  · rintro rfl
    rfl

theorem reduced_lt (w : Width) (n : ℕ) : n % w.size < 2 ^ 64 :=
  lt_of_lt_of_le (Nat.mod_lt _ w.size_pos) w.size_le

theorem fits_reduced (s : State) (h : signedWidth r = none) :
    Fits (reduced r w.bits) (BitVec.ofNat 64 (z.toNat % w.size)) := by
  unfold reduced
  split
  · exact fits_of_none h
  · rw [← and_mask]
    exact fits_and (value_konst (s := s) _)

theorem value_zf (h : value s r = .ok z) (hr : signedWidth r = none) :
    value s (bin .eq (reduced r w.bits) (konst 0)) = .ok (ofBool (z.toNat % w.size = 0)) := by
  rw [value_eqZero (value_reduced w h) (fits_reduced s hr), ofBool_zero (reduced_lt w _)]

theorem value_sf (h : value s r = .ok z) :
    value s (signBit r w.bits) = .ok (ofBool (msb w (z.toNat % w.size))) := by
  rw [value_signBit w h, msb_mod]

theorem value_sf_reduced (h : value s r = .ok z) :
    value s (signBit (reduced r w.bits) w.bits) = .ok (ofBool (msb w (z.toNat % w.size))) := by
  rw [value_sf (value_reduced w h), BitVec.toNat_ofNat, mod_mod_size, Nat.mod_mod]

theorem value_pf_of (h : value s r = .ok z) :
    value s (fcall "__ix_pf" [r]) = .ok (ofBool (parity (z.toNat % w.size))) := by
  rw [value_pf h, parity_mod w]

theorem value_af_of (ha : value s a = .ok x) (hb : value s b = .ok y) (hr : value s r = .ok z) :
    value s (bin .and (bin .shr (bin .xor (bin .xor a b) r) (konst 4)) (konst 1)) =
      .ok (ofBool ((x.toNat / 16 + y.toNat / 16 + z.toNat / 16) % 2 = 1)) := by
  rw [value_af ha hb hr, BitVec.toNat_xor, BitVec.toNat_xor, xor_bit_four]

/-! ### The three flag functions -/

/-- The flags `ks` are set to those of `r`, and the others of `r` are right before. -/
theorem run_shows {r : Result} (ks : List FlagKind) {L : List (FlagKind × Expr)}
    (hks : L.map Prod.fst = ks) (hd : ks.Nodup)
    (hrest : ∀ k ∉ ks, ∀ q, flagOf r k = some q → s.loc (.flag k) = ofBool q)
    (hL : ∀ p ∈ L, ∀ s', OffFlags s s' →
      (∀ k, k = p.1 ∨ k ∉ ks → s'.loc (.flag k) = s.loc (.flag k)) →
      value s' p.2 = .ok (ofBool ((flagOf r p.1).getD false))) :
    ∃ s', run (L.map fun p => setFlag p.1 p.2) s = .ok s' ∧ OffFlags s s' ∧
      (∀ k ∉ ks, s'.loc (.flag k) = s.loc (.flag k)) ∧ s'.Shows r := by
  subst hks
  obtain ⟨s', hrun, hoff, hflag⟩ :=
    run_flags (fun k => ofBool ((flagOf r k).getD false)) hd (fun _ => List.mem_map_of_mem) hL
  refine ⟨s', hrun, hoff, fun k hk => (hflag k).trans (if_neg hk), fun k q hq => ?_⟩
  rw [hflag k]
  split
  · rw [hq]
    rfl
  · exact hrest k ‹_› q hq

def borrow (a b : ℕ) (c : Bool) : Bool := a < (b + c.toNat) % 2 ^ 64

theorem sub_toNat (w : Width) (x y : Word) (c : Bool) :
    (x - (y + ofBool c)).toNat % w.size =
      (sub w (x.toNat % w.size) (y.toNat % w.size) c.toNat).res := by
  rw [BitVec.toNat_sub, BitVec.toNat_add, ofBool_toNat]
  exact sub_mod_size y.isLt

theorem add_toNat (w : Width) (x y : Word) (c : Bool) :
    (x + (y + ofBool c)).toNat % w.size =
      (add w (x.toNat % w.size) (y.toNat % w.size) c.toNat).res := by
  rw [← BitVec.add_assoc, BitVec.toNat_add, BitVec.toNat_add, ofBool_toNat, Nat.mod_add_mod]
  exact add_mod_size _ _ _

/-- The statements of `sub_flags_cin`, which keep the direction flag. -/
theorem run_subFlagsDf (w : Width) (ha : StableDf s a x) (hb : StableDf s b y)
    (hc : StableDf s cin (ofBool c)) (hr : StableDf s r (x - (y + ofBool c)))
    (hn : signedWidth r = none) :
    ∃ s', run (subFlagsCin a b cin r w.bits) s = .ok s' ∧ OffFlags s s' ∧
      s'.loc (.flag .df) = s.loc (.flag .df) ∧ s'.Shows { sub w (x.toNat % w.size) (y.toNat % w.size) c.toNat with
        cf := some (borrow (x.toNat % w.size) (y.toNat % w.size) c) } := by
  obtain ⟨z, hz⟩ : ∃ z, z = x - (y + ofBool c) := ⟨_, rfl⟩
  rw [← hz] at hr
  have hres : z.toNat % w.size = (sub w (x.toNat % w.size) (y.toNat % w.size) c.toNat).res :=
    hz ▸ sub_toNat w x y c
  have hcle : c.toNat ≤ 1 := Bool.toNat_le c
  have hover := decide_overflows_sub (Nat.mod_lt x.toNat w.size_pos)
    (Nat.mod_lt y.toNat w.size_pos) hcle
  rw [← hres] at hover
  have hborrow : (x.toNat / 16 + y.toNat / 16 + z.toNat / 16) % 2 = 1 ↔
      x.toNat % w.size % 16 < y.toNat % w.size % 16 + c.toNat := by
    rw [hz, BitVec.toNat_sub, BitVec.toNat_add, ofBool_toNat]
    exact bit_four_sub w x.toNat y.toNat hcle
  refine (run_shows (L := [(.zf, _), (.sf, _), (.cf, _), (.of, _), (.pf, _), (.af, _)])
    [.zf, .sf, .cf, .of, .pf, .af] rfl (by decide) ?_ ?_).imp
    fun s' h => ⟨h.1, h.2.1, h.2.2.1 .df (by decide), h.2.2.2⟩
  · intro k hk q hq
    cases k with
    | df => cases hq
    | _ => exact absurd (by decide) hk
  simp only [List.forall_mem_cons]
  refine ⟨fun s' h hk => ?_, fun s' h hk => ?_, fun s' h hk => ?_, fun s' h hk => ?_,
    fun s' h hk => ?_, fun s' h hk => ?_, nofun⟩ <;>
      replace hk := hk .df (.inr (by decide))
  · exact (value_zf (hr s' h hk) hn).trans (by rw [hres]; rfl)
  · exact (value_sf (hr s' h hk)).trans (by rw [hres]; rfl)
  · have hsum : value s' (bin .add (reduced b w.bits) cin) =
        .ok (BitVec.ofNat 64 (y.toNat % w.size) + ofBool c) :=
      value_bin (value_reduced w (hb s' h hk)) (hc s' h hk)
    refine (value_ult (value_reduced w (ha s' h hk)) hsum).trans ?_
    rw [BitVec.toNat_add, ofBool_toNat, BitVec.toNat_ofNat, BitVec.toNat_ofNat,
      Nat.mod_eq_of_lt (reduced_lt w x.toNat), Nat.mod_eq_of_lt (reduced_lt w y.toNat)]
    rfl
  · exact (value_and_bool (value_ne_bits (value_sf (ha s' h hk)) (value_sf (hb s' h hk)))
      (value_ne_bits (value_sf (hr s' h hk)) (value_sf (ha s' h hk)))).trans (by rw [← hover]; rfl)
  · exact (value_pf_of (hr s' h hk)).trans (by rw [hres]; rfl)
  · exact (value_af_of (ha s' h hk) (hb s' h hk) (hr s' h hk)).trans
      (by rw [decide_eq_decide.mpr hborrow]; rfl)

theorem run_subFlags (w : Width) (ha : Stable s a x) (hb : Stable s b y)
    (hc : Stable s cin (ofBool c)) (hr : Stable s r (x - (y + ofBool c)))
    (hn : signedWidth r = none) :
    ∃ s', run (subFlagsCin a b cin r w.bits) s = .ok s' ∧ OffFlags s s' ∧
      s'.Shows { sub w (x.toNat % w.size) (y.toNat % w.size) c.toNat with
        cf := some (borrow (x.toNat % w.size) (y.toNat % w.size) c) } := by
  obtain ⟨s', hrun, hoff, -, hshows⟩ := run_subFlagsDf w ha.df hb.df hc.df hr.df hn
  exact ⟨s', hrun, hoff, hshows⟩

theorem value_carry (w : Width) (ha : value s a = .ok x) (hb : value s b = .ok y)
    (hc : value s cin = .ok (ofBool c)) (hr : value s r = .ok (x + (y + ofBool c)))
    (hn : signedWidth r = none) (hna : w = .b64 → signedWidth a = none) :
    value s (if 64 ≤ w.bits then bin .or (bin .ult r a) (bin .and (bin .eq r a) cin)
      else bin .and (bin .shr (bin .add (bin .add (bin .and a (konst (mask w.bits)))
        (bin .and b (konst (mask w.bits)))) cin) (konst w.bits)) (konst 1)) =
      .ok (ofBool (w.size ≤ x.toNat % w.size + y.toNat % w.size + c.toNat)) := by
  have hcle : c.toNat ≤ 1 := Bool.toNat_le c
  have hx := x.isLt
  have hy := y.isLt
  split
  · rename_i h64
    have hw : w = .b64 := by cases w <;> first | rfl | exact absurd h64 (by decide)
    have heq : value s (bin .eq r a) = .ok (ofBool (x + (y + ofBool c) = x)) :=
      value_eq hr ha hn (hna hw)
    rw [value_or_bool (value_ult hr ha) (value_and_bool heq hc)]
    refine congrArg (fun p => Except.ok (ofBool p)) ?_
    have hsum : (x + (y + ofBool c)).toNat = (x.toNat + y.toNat + c.toNat) % 2 ^ 64 := by
      rw [← BitVec.add_assoc, BitVec.toNat_add, BitVec.toNat_add, ofBool_toNat, Nat.mod_add_mod]
    have hself : x + (y + ofBool c) = x ↔ (x.toNat + y.toNat + c.toNat) % 2 ^ 64 = x.toNat := by
      rw [← hsum, ← BitVec.toNat_inj]
    have hsize : w.size = 2 ^ 64 := hw ▸ rfl
    rw [hsize, Nat.mod_eq_of_lt hx, Nat.mod_eq_of_lt hy, hsum, Bool.eq_iff_iff]
    cases c <;> simp only [Bool.toNat_false, Bool.toNat_true, Bool.and_false, Bool.and_true,
      Bool.or_false, Bool.or_eq_true, decide_eq_true_iff, hself] at * <;> omega
  · rename_i h64
    have hmask : value s (bin .add (bin .add (bin .and a (konst (mask w.bits)))
        (bin .and b (konst (mask w.bits)))) cin) =
        .ok (BitVec.ofNat 64 (x.toNat % w.size) + BitVec.ofNat 64 (y.toNat % w.size) +
          ofBool c) :=
      value_bin (value_bin (value_mask w ha) (value_mask w hb)) hc
    rw [value_bit (Nat.lt_of_not_le h64) hmask]
    refine congrArg (fun p => Except.ok (ofBool p)) (decide_eq_decide.mpr ?_)
    rw [BitVec.toNat_add, BitVec.toNat_add, ofBool_toNat, BitVec.toNat_ofNat,
      BitVec.toNat_ofNat]
    show _ / w.size % 2 = 1 ↔ _
    cases w <;> simp only [Width.size, Width.bits] at h64 ⊢ <;> omega

theorem run_addFlags (w : Width) (ha : Stable s a x) (hb : Stable s b y)
    (hc : Stable s cin (ofBool c)) (hr : Stable s r (x + (y + ofBool c)))
    (hn : signedWidth r = none) (hna : w = .b64 → signedWidth a = none) :
    ∃ s', run (addFlagsCin a b cin r w.bits) s = .ok s' ∧ OffFlags s s' ∧
      s'.Shows (add w (x.toNat % w.size) (y.toNat % w.size) c.toNat) := by
  obtain ⟨z, hz⟩ : ∃ z, z = x + (y + ofBool c) := ⟨_, rfl⟩
  have hres : z.toNat % w.size = (add w (x.toNat % w.size) (y.toNat % w.size) c.toNat).res :=
    hz ▸ add_toNat w x y c
  have hcle : c.toNat ≤ 1 := Bool.toNat_le c
  have hover := decide_overflows_add (Nat.mod_lt x.toNat w.size_pos)
    (Nat.mod_lt y.toNat w.size_pos) hcle
  have hcarry : (x.toNat / 16 + y.toNat / 16 + z.toNat / 16) % 2 = 1 ↔
      16 ≤ x.toNat % w.size % 16 + y.toNat % w.size % 16 + c.toNat := by
    rw [hz, ← BitVec.add_assoc, BitVec.toNat_add, BitVec.toNat_add, ofBool_toNat, Nat.mod_add_mod]
    exact bit_four_add w x.toNat y.toNat hcle
  refine (run_shows (L := [(.zf, _), (.sf, _), (.cf, _), (.of, _), (.pf, _), (.af, _)])
    [.zf, .sf, .cf, .of, .pf, .af] rfl (by decide) ?_ ?_).imp fun s' h => ⟨h.1, h.2.1, h.2.2.2⟩
  · intro k hk q hq
    cases k with
    | df => cases hq
    | _ => exact absurd (by decide) hk
  simp only [List.forall_mem_cons]
  refine ⟨fun s' h _ => ?_, fun s' h _ => ?_, fun s' h _ => ?_, fun s' h _ => ?_,
    fun s' h _ => ?_, fun s' h _ => ?_, nofun⟩
  · exact (value_zf (hz ▸ hr s' h) hn).trans (by rw [hres]; rfl)
  · exact (value_sf_reduced (hz ▸ hr s' h)).trans (by rw [hres]; rfl)
  · exact value_carry w (ha s' h) (hb s' h) (hc s' h) (hr s' h) hn hna
  · exact (value_and_bool (value_eq_bits (value_sf (ha s' h)) (value_sf (hb s' h)))
      (value_ne_bits (value_sf_reduced (hz ▸ hr s' h)) (value_sf (ha s' h)))).trans
        (by rw [hres]; exact congrArg (fun p => Except.ok (ofBool p)) hover.symm)
  · exact (value_pf_of (hz ▸ hr s' h)).trans (by rw [hres]; rfl)
  · exact (value_af_of (ha s' h) (hb s' h) (hz ▸ hr s' h)).trans
      (by rw [decide_eq_decide.mpr hcarry]; rfl)

theorem run_logicFlags (w : Width) (hr : Stable s r z) (hf : Fits r z) :
    ∃ s', run (logicFlags r w.bits) s = .ok s' ∧ OffFlags s s' ∧
      s'.Shows { logic w (z.toNat % w.size) with zf := some (z = 0) } := by
  refine (run_shows (L := [(.zf, _), (.sf, _), (.cf, _), (.of, _), (.pf, _)])
    [.zf, .sf, .cf, .of, .pf] rfl (by decide) ?_ ?_).imp fun s' h => ⟨h.1, h.2.1, h.2.2.2⟩
  · intro k hk q hq
    cases k with
    | df | af => cases hq
    | _ => exact absurd (by decide) hk
  simp only [List.forall_mem_cons]
  exact ⟨fun s' h _ => value_eqZero (hr s' h) hf, fun s' h _ => value_sf (hr s' h),
    fun s' _ _ => value_konst 0, fun s' _ _ => value_konst 0,
    fun s' h _ => value_pf_of (hr s' h), nofun⟩

theorem value_eq_bit {p : Bool} (q : Bool) {n : ℕ} (ha : value s (signBit a n) = .ok (ofBool p)) :
    value s (bin .eq (signBit a n) (konst q.toNat)) = .ok (ofBool (p == q)) := by
  rw [value_eq ha (value_konst_nat _) rfl rfl]
  cases p <;> cases q <;> decide

theorem run_stepFlags (w : Width) (p cf : Bool) (ha : Stable s a x) (hr : Stable s r z)
    (hcf : s.loc (.flag .cf) = ofBool cf) :
    ∃ s', run [setFlag .zf (bin .eq (bin .and r (konst (mask w.bits))) (konst 0)),
        setFlag .sf (signBit (bin .and r (konst (mask w.bits))) w.bits),
        setFlag .of (bin .and (bin .eq (signBit a w.bits) (konst p.toNat))
          (bin .eq (signBit (bin .and r (konst (mask w.bits))) w.bits) (konst (!p).toNat))),
        pfFlag r, afFlag a (konst 1) r] s = .ok s' ∧ OffFlags s s' ∧
      s'.Shows (result w (z.toNat % w.size) (some cf)
        (some (msb w (x.toNat % w.size) == p && msb w (z.toNat % w.size) == !p))
        (some ((x.toNat / 16 + 1 / 16 + z.toNat / 16) % 2 = 1))) := by
  have hsf : ∀ s', OffFlags s s' → value s' (signBit (bin .and r (konst (mask w.bits))) w.bits) =
      .ok (ofBool (msb w (z.toNat % w.size))) := by
    intro s' h
    rw [value_sf (value_mask w (hr s' h)), BitVec.toNat_ofNat, mod_mod_size, Nat.mod_mod]
  refine (run_shows (L := [(.zf, _), (.sf, _), (.of, _), (.pf, _), (.af, _)])
    [.zf, .sf, .of, .pf, .af] rfl (by decide) ?_ ?_).imp fun s' h => ⟨h.1, h.2.1, h.2.2.2⟩
  · intro k hk q hq
    cases k with
    | df => cases hq
    | cf =>
        cases hq
        exact hcf
    | _ => exact absurd (by decide) hk
  simp only [List.forall_mem_cons]
  refine ⟨fun s' h _ => ?_, fun s' h _ => hsf s' h, fun s' h _ => ?_, fun s' h _ => ?_,
    fun s' h _ => ?_, nofun⟩
  · have hfits : Fits (bin .and r (konst (mask w.bits))) (BitVec.ofNat 64 (z.toNat % w.size)) := by
      rw [← and_mask]
      exact fits_and (value_konst (s := s) _)
    refine (value_eqZero (value_mask w (hr s' h)) hfits).trans ?_
    rw [ofBool_zero (reduced_lt w _)]
    rfl
  · exact value_and_bool (value_eq_bit p (value_sf (ha s' h))) (value_eq_bit (!p) (hsf s' h))
  · exact value_pf_of (hr s' h)
  · exact value_af_of (ha s' h) (value_konst_nat 1) (hr s' h)

end

theorem run_finish {cfg : Config} {s s₁ : State} {o : Operand} {pre : List Stmt} {e : Expr}
    {v : Word} (i : Insn) (ho : o.isPlace) (hpre : run pre s = .ok s₁) (hv : value s₁ e = .ok v) :
    ∃ s', run (i.finish cfg o pre e) s = .ok s' ∧
      (∀ k, s'.loc (.flag k) = s₁.loc (.flag k)) ∧
      s'.operand cfg o = v.toNat % o.width.size := by
  obtain ⟨ws, s', hws, hrun, hflag, hval⟩ := run_write cfg ho hv
  refine ⟨s', ?_, hflag, hval⟩
  rw [Insn.finish, hws]
  show run (pre ++ ws) s = _
  rw [run_append, hpre]
  exact hrun

/-! ### The instructions -/

/-- The group of arithmetic and bitwise instructions. -/
inductive Arith
  | add | sub | and | or | xor | sbb | adc | cmp | test | inc | dec | neg
  deriving DecidableEq, Repr

namespace Arith

def mnemonic : Arith → Mnemonic
  | add => .add
  | sub => .sub
  | and => .and
  | or => .or
  | xor => .xor
  | sbb => .sbb
  | adc => .adc
  | cmp => .cmp
  | test => .test
  | inc => .inc
  | dec => .dec
  | neg => .neg

def operands (x y : Operand) : Arith → List Operand
  | inc | dec | neg => [x]
  | _ => [x, y]

def exec (w : Width) (a b : ℕ) (cf : Bool) : Arith → Result
  | add => Alu.add w a b 0
  | adc => Alu.add w a b cf.toNat
  | sub => Alu.sub w a b 0
  | sbb => Alu.sub w a b cf.toNat
  | cmp => { Alu.sub w a b 0 with res := a }
  | neg => Alu.sub w 0 a 0
  | inc => Alu.inc w a cf
  | dec => Alu.dec w a cf
  | and => logic w (a &&& b)
  | or => logic w (a ||| b)
  | xor => logic w (a ^^^ b)
  | test => { logic w (a &&& b) with res := a }

end Arith

/-- An operand that an instruction of a width reads: a place of that width, or an immediate of that
width, extended with its sign or not. -/
def Operand.Reads (w : Width) : Operand → Prop
  | .reg r => r.width = w
  | .mem m => m.width = w
  | .imm v => v.toNat < w.size ∨ v = sext w.bits v

/-- An instruction of the group, as a decoder gives it. -/
structure ArithInsn where
  insn : Insn
  op : Arith
  dst : Operand
  src : Operand
  place : dst.isPlace
  source : src.Reads dst.width
  mnemonic : insn.mnemonic = op.mnemonic
  ops : insn.ops = op.operands dst src

def State.Leaves (s : State) (cfg : Config) (x : Operand) (r : Result) : Prop :=
  s.operand cfg x = r.res ∧ s.Shows r

/-- What the statements of an instruction make of the words of its operands: the zero flag of an
exclusive or is read from the whole word, and the borrow of a subtraction from words of 64 bits. -/
def Arith.made (w : Width) (x y : Word) (cf : Bool) (op : Arith) : Result :=
  let r := op.exec w (x.toNat % w.size) (y.toNat % w.size) cf
  match op with
  | .xor => { r with zf := some (x ^^^ y = 0) }
  | .sbb => { r with cf := some (borrow (x.toNat % w.size) (y.toNat % w.size) cf) }
  | _ => r

theorem opWidth_place {cfg : Config} {o : Operand} (ho : o.isPlace) :
    opWidth cfg o = o.width.bits := by
  cases o with
  | imm v => exact ho.elim
  | reg r => rfl
  | mem m => rfl

theorem signedWidth_opValue {cfg : Config} {o : Operand} (ho : o.isPlace) (hw : o.width = .b64) :
    signedWidth (opValue cfg o) = none := by
  cases o with
  | imm v => exact ho.elim
  | reg r =>
      cases r with
      | high f => cases hw
      | gpr f w =>
          cases hw
          rfl
  | mem m =>
      replace hw : m.width = .b64 := hw
      simp only [opValue]
      cases m.frameDisp cfg with
      | some d => simp only [hw, if_true, signedWidth]
      | none =>
          simp only [hw]
          rfl

section
variable {cfg : Config} {s : State} {o : Operand} {x y z : Word} {r : Result}

theorem State.Shows.congr {s s' : State} (h : s.Shows r)
    (hs : ∀ k, s'.loc (.flag k) = s.loc (.flag k)) : s'.Shows r :=
  fun k p hk => (hs k).trans (h k p hk)

theorem State.Shows.withRes (h : s.Shows r) (n : ℕ) : s.Shows { r with res := n } := by
  intro k p hk
  cases k <;> exact h _ p hk

theorem leaves_of_finish {pre : List Stmt} {e : Expr} {s s₁ : State} (i : Insn) (ho : o.isPlace)
    (hpre : run pre s = .ok s₁) (hs : s₁.Shows r) (hv : value s₁ e = .ok z)
    (hz : z.toNat % o.width.size = r.res) :
    ∃ s', run (i.finish cfg o pre e) s = .ok s' ∧ s'.Leaves cfg o r := by
  obtain ⟨s', hrun, hflag, hval⟩ := run_finish i ho hpre hv
  exact ⟨s', hrun, hval.trans hz, hs.congr hflag⟩

theorem and_eq_zero_iff (w : Width) (hx : x.toNat < w.size) :
    x &&& y = 0 ↔ (x &&& y).toNat % w.size = 0 := by
  have hlt : (x &&& y).toNat < w.size := by
    rw [BitVec.toNat_and]
    exact lt_of_le_of_lt Nat.and_le_left hx
  rw [Nat.mod_eq_of_lt hlt, ← BitVec.toNat_inj]
  rfl

theorem eq_zero_of_reads {w : Width} (h : y.toNat < w.size ∨ y = sext w.bits y)
    (h0 : y.toNat % w.size = 0) : y = 0 := by
  rcases h with h | h
  · rw [Nat.mod_eq_of_lt h] at h0
    exact BitVec.eq_of_toNat_eq h0
  · have hcut : y.setWidth w.bits = 0 := by
      apply BitVec.eq_of_toNat_eq
      rw [BitVec.toNat_setWidth]
      exact h0
    rw [h, sext, hcut]
    cases w <;> decide

theorem or_eq_zero_iff {w : Width} (hx : x.toNat < w.size)
    (hy : y.toNat < w.size ∨ y = sext w.bits y) :
    x ||| y = 0 ↔ (x ||| y).toNat % w.size = 0 := by
  constructor
  · intro h
    rw [h]
    exact Nat.zero_mod _
  · intro h
    have hmod : (x.toNat ||| y.toNat) % w.size = x.toNat % w.size ||| y.toNat % w.size :=
      Nat.or_mod_two_pow
    rw [BitVec.toNat_or, hmod, Nat.or_eq_zero_iff, Nat.mod_eq_of_lt hx] at h
    have hx0 : x = 0 := BitVec.eq_of_toNat_eq h.1
    rw [hx0, eq_zero_of_reads hy h.2]
    rfl

theorem reads_value {w : Width} (ho : o.Reads w) (hv : value s (opValue cfg o) = .ok y) :
    y.toNat < w.size ∨ y = sext w.bits y := by
  have hplace : o.isPlace → o.width = w → y.toNat < w.size := by
    intro hp hw
    obtain ⟨x, hx, hlt, -⟩ := opValue_fixed cfg o s
    have hxy : x = y := Except.ok.inj ((hx s (.refl s)).symm.trans hv)
    exact hxy ▸ hw ▸ hlt hp
  cases o with
  | reg r => exact .inl (hplace trivial ho)
  | mem m => exact .inl (hplace trivial ho)
  | imm v =>
      have hval : value s (opValue cfg (.imm v)) = .ok (BitVec.ofNat 64 v.toNat) :=
        value_konst_nat v.toNat
      rw [BitVec.ofNat_toNat, BitVec.setWidth_eq] at hval
      exact Except.ok.inj (hval.symm.trans hv) ▸ ho

theorem sub_ofBool_false (x y : Word) : x - (y + ofBool false) = x - y := by
  show x - (y + 0#64) = x - y
  rw [BitVec.add_zero]

theorem add_ofBool_false (x y : Word) : x + (y + ofBool false) = x + y := by
  show x + (y + 0#64) = x + y
  rw [BitVec.add_zero]

theorem borrow_false {a b : ℕ} (hb : b < 2 ^ 64) : borrow a b false = decide (a < b + 0) := by
  rw [borrow, Bool.toNat_false, Nat.add_zero, Nat.mod_eq_of_lt hb]

theorem State.Shows.sub {w : Width} {a b : ℕ} {c : Bool}
    (h : s.Shows { Alu.sub w a b c.toNat with cf := some (borrow a b c) })
    (hb : borrow a b c = decide (a < b + c.toNat)) : s.Shows (Alu.sub w a b c.toNat) := by
  rw [hb] at h
  exact h

theorem State.Shows.logic {w : Width} {n : ℕ}
    (h : s.Shows { Alu.logic w n with zf := some (x = 0) }) (h0 : x = 0 ↔ n = 0) :
    s.Shows (Alu.logic w n) := by
  rw [decide_eq_decide.mpr h0] at h
  exact h

theorem and_toNat (w : Width) (x y : Word) :
    (x &&& y).toNat % w.size = x.toNat % w.size &&& y.toNat % w.size := by
  rw [BitVec.toNat_and]
  exact Nat.and_mod_two_pow

theorem or_toNat (w : Width) (x y : Word) :
    (x ||| y).toNat % w.size = x.toNat % w.size ||| y.toNat % w.size := by
  rw [BitVec.toNat_or]
  exact Nat.or_mod_two_pow

theorem xor_toNat (w : Width) (x y : Word) :
    (x ^^^ y).toNat % w.size = x.toNat % w.size ^^^ y.toNat % w.size := by
  rw [BitVec.toNat_xor]
  exact Nat.xor_mod_two_pow

theorem add_one_toNat (w : Width) (x : Word) :
    (x + 1#64).toNat % w.size = (add w (x.toNat % w.size) 1 0).res := by
  have hone : (1#64).toNat % w.size = 1 := by cases w <;> rfl
  have h := add_toNat w x 1#64 false
  rwa [add_ofBool_false, hone] at h

theorem sub_one_toNat (w : Width) (x : Word) :
    (x - 1#64).toNat % w.size = (sub w (x.toNat % w.size) 1 0).res := by
  have hone : (1#64).toNat % w.size = 1 := by cases w <;> rfl
  have h := sub_toNat w x 1#64 false
  rwa [sub_ofBool_false, hone] at h

theorem inc_result (w : Width) (x : Word) (cf : Bool) :
    result w ((x + 1#64).toNat % w.size) (some cf)
        (some (msb w (x.toNat % w.size) == false && msb w ((x + 1#64).toNat % w.size) == !false))
        (some ((x.toNat / 16 + 1 / 16 + (x + 1#64).toNat / 16) % 2 = 1)) =
      inc w (x.toNat % w.size) cf := by
  have hlt : 1 < w.size := by cases w <;> decide
  have hmsb : msb w 1 = false := by cases w <;> rfl
  have hres := add_one_toNat w x
  have hover : decide (Overflows w (toSigned w (x.toNat % w.size) + toSigned w 1 + (0 : ℕ))) =
      (msb w (x.toNat % w.size) == false && msb w ((x + 1#64).toNat % w.size) == !false) := by
    rw [decide_overflows_add (Nat.mod_lt x.toNat w.size_pos) hlt (Nat.zero_le 1), hmsb, hres]
    show (_ && msb w (add w (x.toNat % w.size) 1 0).res != _) = _
    cases msb w (x.toNat % w.size) <;> cases msb w (add w (x.toNat % w.size) 1 0).res <;> rfl
  have haf : (x.toNat / 16 + 1 / 16 + (x + 1#64).toNat / 16) % 2 = 1 ↔
      16 ≤ x.toNat % w.size % 16 + 1 % 16 + 0 := by
    have h := bit_four_add w x.toNat 1 (Nat.zero_le 1)
    rwa [Nat.mod_eq_of_lt hlt] at h
  rw [← hover, hres, decide_eq_decide.mpr haf]
  rfl

theorem dec_result (w : Width) (x : Word) (cf : Bool) :
    result w ((x - 1#64).toNat % w.size) (some cf)
        (some (msb w (x.toNat % w.size) == true && msb w ((x - 1#64).toNat % w.size) == !true))
        (some ((x.toNat / 16 + 1 / 16 + (x - 1#64).toNat / 16) % 2 = 1)) =
      dec w (x.toNat % w.size) cf := by
  have hlt : 1 < w.size := by cases w <;> decide
  have hmsb : msb w 1 = false := by cases w <;> rfl
  have hres := sub_one_toNat w x
  have hover : decide (Overflows w (toSigned w (x.toNat % w.size) - toSigned w 1 - (0 : ℕ))) =
      (msb w (x.toNat % w.size) == true && msb w ((x - 1#64).toNat % w.size) == !true) := by
    rw [decide_overflows_sub (Nat.mod_lt x.toNat w.size_pos) hlt (Nat.zero_le 1), hmsb, hres]
    cases msb w (x.toNat % w.size) <;> cases msb w (sub w (x.toNat % w.size) 1 0).res <;> rfl
  have haf : (x.toNat / 16 + 1 / 16 + (x - 1#64).toNat / 16) % 2 = 1 ↔
      x.toNat % w.size % 16 < 1 % 16 + 0 := by
    have h := bit_four_sub w x.toNat 1 (Nat.zero_le 1)
    rw [Nat.mod_eq_of_lt hlt] at h
    rw [BitVec.toNat_sub]
    exact h
  rw [← hover, hres, decide_eq_decide.mpr haf]
  rfl

theorem ArithInsn.run_lift (i : ArithInsn) {cf : Bool} (hcf : s.loc (.flag .cf) = ofBool cf)
    (hx : ∀ s', Same s s' → value s' (opValue cfg i.dst) = .ok x)
    (hxlt : x.toNat < i.dst.width.size)
    (hy : ∀ s', Same s s' → value s' (opValue cfg i.src) = .ok y)
    (hfy : Fits (opValue cfg i.src) y) :
    ∃ s', run (i.insn.lift cfg) s = .ok s' ∧
      s'.Leaves cfg i.dst (i.op.made i.dst.width x y cf) := by
  obtain ⟨⟨mn, ops, ad, tx, rd, wr⟩, op, dst, src, place, source, hm, ho⟩ := i
  dsimp only at hm ho hx hxlt hy hfy ⊢
  have ha : Stable s (opValue cfg dst) x := fun s' h => hx s' h.same
  have hb : Stable s (opValue cfg src) y := fun s' h => hy s' h.same
  have hw : opWidth cfg dst = dst.width.bits := opWidth_place place
  have hna : dst.width = .b64 → signedWidth (opValue cfg dst) = none := signedWidth_opValue place
  have hkeep : ∀ s', OffFlags s s' → s'.operand cfg dst = x.toNat % dst.width.size := by
    intro s' h
    rw [operand_of_value (ha s' h), Nat.mod_eq_of_lt hxlt]
  have hzero : Stable s (konst 0) (ofBool false) := stable_konst s 0
  -- the carry in is saved before a flag is set
  have htemp : ∀ n : ℕ, (∀ rest, run (.set (.temp n) (readFlag .cf) :: rest) s =
        run rest (s.set (.temp n) (ofBool cf))) ∧
      Stable (s.set (.temp n) (ofBool cf)) (opValue cfg dst) x ∧
      Stable (s.set (.temp n) (ofBool cf)) (opValue cfg src) y ∧
      Stable (s.set (.temp n) (ofBool cf)) (.read (.temp n)) (ofBool cf) := by
    intro n
    have hsame : Same s (s.set (.temp n) (ofBool cf)) :=
      ⟨rfl, fun _ => set_loc_of_ne nofun, fun _ => set_loc_of_ne nofun⟩
    refine ⟨fun rest => run_set ?_, fun s' h => hx s' (hsame.trans h.same),
      fun s' h => hy s' (hsame.trans h.same), fun s' h => ?_⟩
    · rw [value_readFlag, hcf]
    · rw [value_read, h.loc (.temp n) nofun, set_loc_self]
  subst hm ho
  cases op with
  | add =>
      have hr : Stable s (bin .add (opValue cfg dst) (opValue cfg src)) (x + (y + ofBool false)) :=
        ha.bin hb (by rw [add_ofBool_false]; rfl)
      obtain ⟨s₁, hrun, hoff, hs⟩ := run_addFlags dst.width ha hb hzero hr rfl hna
      rw [← hw] at hrun
      exact leaves_of_finish _ place hrun hs (hr s₁ hoff) (add_toNat _ x y false)
  | sub =>
      have hr : Stable s (bin .sub (opValue cfg dst) (opValue cfg src)) (x - (y + ofBool false)) :=
        ha.bin hb (by rw [sub_ofBool_false]; rfl)
      obtain ⟨s₁, hrun, hoff, hs⟩ := run_subFlags dst.width ha hb hzero hr rfl
      rw [← hw] at hrun
      exact leaves_of_finish _ place hrun (hs.sub (borrow_false (reduced_lt _ _))) (hr s₁ hoff)
        (sub_toNat _ x y false)
  | cmp =>
      have hr : Stable s (bin .sub (opValue cfg dst) (opValue cfg src)) (x - (y + ofBool false)) :=
        ha.bin hb (by rw [sub_ofBool_false]; rfl)
      obtain ⟨s₁, hrun, hoff, hs⟩ := run_subFlags dst.width ha hb hzero hr rfl
      rw [← hw] at hrun
      exact ⟨s₁, hrun, hkeep s₁ hoff, (hs.sub (borrow_false (reduced_lt _ _))).withRes _⟩
  | neg =>
      have hr : Stable s (bin .sub (konst 0) (opValue cfg dst)) (0#64 - (x + ofBool false)) :=
        (stable_konst s 0).bin ha (by rw [sub_ofBool_false]; rfl)
      obtain ⟨s₁, hrun, hoff, hs⟩ := run_subFlags dst.width (stable_konst s 0) ha hzero hr rfl
      rw [← hw] at hrun
      have hs' := hs.sub (borrow_false (reduced_lt _ _))
      have hres := sub_toNat dst.width 0#64 x false
      have hzero' : (0#64).toNat % dst.width.size = 0 := Nat.zero_mod _
      rw [hzero'] at hres hs'
      exact leaves_of_finish _ place hrun hs' (hr s₁ hoff) hres
  | and =>
      have hr : Stable s (bin .and (opValue cfg dst) (opValue cfg src)) (x &&& y) := ha.bin hb rfl
      obtain ⟨s₁, hrun, hoff, hs⟩ := run_logicFlags dst.width hr (fits_and (hb s (.refl s)))
      rw [← hw] at hrun
      rw [and_toNat] at hs
      have h0 := and_eq_zero_iff (y := y) dst.width hxlt
      rw [and_toNat] at h0
      exact leaves_of_finish _ place hrun (hs.logic h0) (hr s₁ hoff) (and_toNat _ x y)
  | test =>
      have hr : Stable s (bin .and (opValue cfg dst) (opValue cfg src)) (x &&& y) := ha.bin hb rfl
      obtain ⟨s₁, hrun, hoff, hs⟩ := run_logicFlags dst.width hr (fits_and (hb s (.refl s)))
      rw [← hw] at hrun
      rw [and_toNat] at hs
      have h0 := and_eq_zero_iff (y := y) dst.width hxlt
      rw [and_toNat] at h0
      exact ⟨s₁, hrun, hkeep s₁ hoff, (hs.logic h0).withRes _⟩
  | or =>
      have hr : Stable s (bin .or (opValue cfg dst) (opValue cfg src)) (x ||| y) := ha.bin hb rfl
      obtain ⟨s₁, hrun, hoff, hs⟩ := run_logicFlags dst.width hr (fits_of_none rfl)
      rw [← hw] at hrun
      rw [or_toNat] at hs
      have h0 := or_eq_zero_iff hxlt (reads_value source (hy s (.refl s)))
      rw [or_toNat] at h0
      exact leaves_of_finish _ place hrun (hs.logic h0) (hr s₁ hoff) (or_toNat _ x y)
  | xor =>
      have hr : Stable s (bin .xor (opValue cfg dst) (opValue cfg src)) (x ^^^ y) := ha.bin hb rfl
      obtain ⟨s₁, hrun, hoff, hs⟩ := run_logicFlags dst.width hr (fits_of_none rfl)
      rw [← hw] at hrun
      rw [xor_toNat] at hs
      exact leaves_of_finish _ place hrun hs (hr s₁ hoff) (xor_toNat _ x y)
  | sbb =>
      obtain ⟨ht, ha₁, hb₁, hc₁⟩ := htemp (ad % 2 ^ 32 * 2 % 2 ^ 32)
      have hr : Stable _
          (bin .sub (opValue cfg dst) (bin .add (opValue cfg src) (.read (.temp _))))
          (x - (y + ofBool cf)) := ha₁.bin (hb₁.bin hc₁ rfl) rfl
      obtain ⟨s₁, hrun, hoff, hs⟩ := run_subFlags dst.width ha₁ hb₁ hc₁ hr rfl
      rw [← hw] at hrun
      exact leaves_of_finish _ place ((ht _).trans hrun) hs (hr s₁ hoff) (sub_toNat _ x y cf)
  | adc =>
      obtain ⟨ht, ha₁, hb₁, hc₁⟩ := htemp (ad % 2 ^ 32 * 2 % 2 ^ 32)
      have hr : Stable _
          (bin .add (opValue cfg dst) (bin .add (opValue cfg src) (.read (.temp _))))
          (x + (y + ofBool cf)) := ha₁.bin (hb₁.bin hc₁ rfl) rfl
      obtain ⟨s₁, hrun, hoff, hs⟩ := run_addFlags dst.width ha₁ hb₁ hc₁ hr rfl hna
      rw [← hw] at hrun
      exact leaves_of_finish _ place ((ht _).trans hrun) hs (hr s₁ hoff) (add_toNat _ x y cf)
  | inc =>
      have hr : Stable s (bin .add (opValue cfg dst) (konst 1)) (x + 1#64) :=
        ha.bin (stable_konst s 1) rfl
      obtain ⟨s₁, hrun, hoff, hs⟩ := run_stepFlags dst.width false cf ha hr hcf
      rw [← hw] at hrun
      rw [inc_result] at hs
      exact leaves_of_finish _ place hrun hs (hr s₁ hoff) (add_one_toNat _ x)
  | dec =>
      have hr : Stable s (bin .sub (opValue cfg dst) (konst 1)) (x - 1#64) :=
        ha.bin (stable_konst s 1) rfl
      obtain ⟨s₁, hrun, hoff, hs⟩ := run_stepFlags dst.width true cf ha hr hcf
      rw [← hw] at hrun
      rw [dec_result] at hs
      exact leaves_of_finish _ place hrun hs (hr s₁ hoff) (sub_one_toNat _ x)

end

/-! ### Conditions -/

def condCode : Cond → ConditionCode
  | .e => .e
  | .ne => .ne
  | .b => .b
  | .ae => .ae
  | .be => .be
  | .a => .a
  | .l => .l
  | .ge => .ge
  | .le => .le
  | .g => .g

def State.Tells (s : State) (w : Width) (a b : ℕ) : Prop :=
  ∀ c : Cond, ∃ p, value s (ccToCond (condCode c)) = .ok (ofBool p) ∧ (p = true ↔ c.holds w a b)

theorem tells_of_shows {s : State} {w : Width} {a b : ℕ} (ha : a < w.size) (hb : b < w.size)
    (h : s.Shows (sub w a b 0)) : s.Tells w a b := by
  have hzf : value s (readFlag .zf) = .ok (ofBool ((sub w a b 0).res = 0)) :=
    congrArg Except.ok (h .zf _ rfl)
  have hcf : value s (readFlag .cf) = .ok (ofBool (a < b + 0)) :=
    congrArg Except.ok (h .cf _ rfl)
  have hsf : value s (readFlag .sf) = .ok (ofBool (msb w (sub w a b 0).res)) :=
    congrArg Except.ok (h .sf _ rfl)
  have hof : value s (readFlag .of) =
      .ok (ofBool (Overflows w (toSigned w a - toSigned w b - (0 : ℕ)))) :=
    congrArg Except.ok (h .of _ rfl)
  have heq := sub_eq_zero ha hb
  have hlt := sub_signed_lt ha hb
  have hne : value s (bin .ne (readFlag .sf) (readFlag .of)) =
      .ok (ofBool (toSigned w a < toSigned w b)) := by
    rw [value_ne hsf hof rfl rfl, ofBool_inj.mpr (decide_eq_decide.mpr _)]
    rw [← hlt, ne_eq, ofBool_inj]
  have hsigned : toSigned w a = toSigned w b ↔ a = b := by
    have hsa := toSigned_cases w a
    have hsb := toSigned_cases w b
    omega
  intro c
  cases c with
  | e => exact ⟨_, hzf, decide_eq_true_iff.trans heq⟩
  | ne =>
      refine ⟨_, value_lnot hzf rfl, ?_⟩
      rw [Bool.not_eq_true', decide_eq_false_iff_not, heq]
      rfl
  | b => exact ⟨_, hcf, decide_eq_true_iff⟩
  | ae =>
      refine ⟨_, value_lnot hcf rfl, ?_⟩
      rw [Bool.not_eq_true', decide_eq_false_iff_not, Nat.not_lt]
      rfl
  | be =>
      refine ⟨_, value_or_bool hcf hzf, ?_⟩
      rw [Bool.or_eq_true, decide_eq_true_iff, decide_eq_true_iff, heq]
      exact Nat.le_iff_lt_or_eq.symm
  | a =>
      refine ⟨_, value_lnot (value_or_bool hcf hzf) rfl, ?_⟩
      rw [Bool.not_eq_true', Bool.or_eq_false_iff, decide_eq_false_iff_not,
        decide_eq_false_iff_not, heq]
      show _ ↔ b < a
      omega
  | l => exact ⟨_, hne, decide_eq_true_iff⟩
  | ge =>
      refine ⟨_, value_lnot hne rfl, ?_⟩
      rw [Bool.not_eq_true', decide_eq_false_iff_not, not_lt]
      rfl
  | le =>
      refine ⟨_, value_or_bool hzf hne, ?_⟩
      rw [Bool.or_eq_true, decide_eq_true_iff, decide_eq_true_iff, heq]
      show _ ↔ toSigned w a ≤ toSigned w b
      omega
  | g =>
      refine ⟨_, value_lnot (value_or_bool hzf hne) rfl, ?_⟩
      rw [Bool.not_eq_true', Bool.or_eq_false_iff, decide_eq_false_iff_not,
        decide_eq_false_iff_not, heq]
      show _ ↔ toSigned w b < toSigned w a
      omega

/-! ### Where the statements are exact -/

/-- An exclusive or whose operand equals the low bits of an immediate with more bits. -/
def ArithInsn.Cancels (i : ArithInsn) (a : ℕ) : Prop :=
  i.op = .xor ∧ ∃ v, i.src = .imm v ∧ i.dst.width.size ≤ v.toNat ∧
    a = v.toNat % i.dst.width.size

def ArithInsn.Wraps (i : ArithInsn) (b : ℕ) (cf : Bool) : Prop :=
  i.op = .sbb ∧ i.dst.width = .b64 ∧ b = 2 ^ 64 - 1 ∧ cf = true

/-- The statements of an instruction leave the result and the flags of the processor, and after
`cmp` every condition code tells its relation. -/
def ArithInsn.Exact (i : ArithInsn) (cfg : Config) (s : State) (cf : Bool) : Prop :=
  let w := i.dst.width
  let a := s.operand cfg i.dst
  let b := s.operand cfg i.src % w.size
  ∃ s', run (i.insn.lift cfg) s = .ok s' ∧ s'.Leaves cfg i.dst (i.op.exec w a b cf) ∧
    (i.op = .cmp → s'.Tells w a b)

theorem xor_zero_iff {w : Width} {x y : Word} (hx : x.toNat < w.size)
    (h : ¬ (w.size ≤ y.toNat ∧ x.toNat = y.toNat % w.size)) :
    x ^^^ y = 0 ↔ x.toNat % w.size ^^^ y.toNat % w.size = 0 := by
  have hnat : x.toNat % w.size ^^^ y.toNat % w.size = 0 ↔ x.toNat = y.toNat % w.size := by
    rw [Nat.xor_eq_zero_iff, Nat.mod_eq_of_lt hx]
  rw [hnat]
  refine BitVec.xor_eq_zero_iff.trans ⟨?_, fun he => BitVec.eq_of_toNat_eq ?_⟩
  · rintro rfl
    exact (Nat.mod_eq_of_lt hx).symm
  · have hlt : y.toNat < w.size := by
      by_contra hge
      exact h ⟨Nat.le_of_not_lt hge, he⟩
    rwa [Nat.mod_eq_of_lt hlt] at he

theorem borrow_eq {w : Width} {a b : ℕ} {c : Bool} (hb : b < w.size)
    (h : ¬ (w = .b64 ∧ b = 2 ^ 64 - 1 ∧ c = true)) : borrow a b c = decide (a < b + c.toNat) := by
  have hsum : b + c.toNat < 2 ^ 64 := by
    cases c with
    | false => exact lt_of_lt_of_le hb w.size_le
    | true => cases w <;> simp only [Width.size, Width.bits] at hb h <;> grind
  rw [borrow, Nat.mod_eq_of_lt hsum]

/-- The words of the two operands of an instruction, in every state with the same registers, frame
slots and memory. -/
structure ArithInsn.Words (i : ArithInsn) (cfg : Config) (s : State) (x y : Word) : Prop where
  dst : ∀ s', Same s s' → value s' (opValue cfg i.dst) = .ok x
  src : ∀ s', Same s s' → value s' (opValue cfg i.src) = .ok y
  dst_lt : x.toNat < i.dst.width.size
  src_lt : i.src.isPlace → y.toNat < i.dst.width.size
  src_imm : ∀ v, i.src = .imm v → y = v
  src_fits : Fits (opValue cfg i.src) y

theorem ArithInsn.words (i : ArithInsn) (cfg : Config) (s : State) : ∃ x y, i.Words cfg s x y := by
  obtain ⟨x, hx, hxlt, -⟩ := opValue_fixed cfg i.dst s
  obtain ⟨y, hy, hylt, hfits⟩ := opValue_fixed cfg i.src s
  refine ⟨x, y, hx, hy, hxlt i.place, fun hp => ?_, fun v hv => ?_, hfits⟩
  · have hwidth : i.src.width = i.dst.width := by
      have hreads := i.source
      revert hp hreads
      cases i.src with
      | imm v => exact fun hp => hp.elim
      | reg r => exact fun _ h => h
      | mem m => exact fun _ h => h
    exact hwidth ▸ hylt hp
  · have hval := hy s (.refl s)
    rw [hv] at hval
    have himm : value s (opValue cfg (.imm v)) = .ok (BitVec.ofNat 64 v.toNat) :=
      value_konst_nat v.toNat
    rw [BitVec.ofNat_toNat, BitVec.setWidth_eq] at himm
    exact Except.ok.inj (hval.symm.trans himm)

theorem ArithInsn.Words.made_eq {i : ArithInsn} {cfg : Config} {s : State} {x y : Word} {cf : Bool}
    (h : i.Words cfg s x y) (hc : ¬ i.Cancels x.toNat)
    (hw : ¬ i.Wraps (y.toNat % i.dst.width.size) cf) :
    i.op.made i.dst.width x y cf =
      i.op.exec i.dst.width (x.toNat % i.dst.width.size) (y.toNat % i.dst.width.size) cf := by
  cases hop : i.op with
  | xor =>
      have hzero : x ^^^ y = 0 ↔
          x.toNat % i.dst.width.size ^^^ y.toNat % i.dst.width.size = 0 := by
        refine xor_zero_iff h.dst_lt fun ⟨hge, he⟩ => ?_
        cases hsrc : i.src with
        | imm v =>
            have hv := h.src_imm v hsrc
            exact hc ⟨hop, v, hsrc, hv ▸ hge, hv ▸ he⟩
        | reg r => exact absurd (h.src_lt (hsrc ▸ trivial)) (Nat.not_lt_of_le hge)
        | mem m => exact absurd (h.src_lt (hsrc ▸ trivial)) (Nat.not_lt_of_le hge)
      simp only [Arith.made, decide_eq_decide.mpr hzero]
      rfl
  | sbb =>
      have hb := borrow_eq (a := x.toNat % i.dst.width.size) (Nat.mod_lt y.toNat
        i.dst.width.size_pos) fun ⟨h1, h2, h3⟩ => hw ⟨hop, h1, h2, h3⟩
      simp only [Arith.made, hb]
      rfl
  | _ => rfl

theorem ArithInsn.Words.made_ne {i : ArithInsn} {cfg : Config} {s s' : State} {x y : Word}
    {cf : Bool} (h : i.Words cfg s x y)
    (hcase : i.Cancels x.toNat ∨ i.Wraps (y.toNat % i.dst.width.size) cf)
    (hm : s'.Shows (i.op.made i.dst.width x y cf))
    (he : s'.Shows (i.op.exec i.dst.width (x.toNat % i.dst.width.size)
      (y.toNat % i.dst.width.size) cf)) : False := by
  rcases hcase with ⟨hop, v, hsrc, hge, heq⟩ | ⟨hop, hwidth, hb, hcf⟩
  · rw [hop] at hm he
    have hv := h.src_imm v hsrc
    subst hv
    have hzf := (hm .zf _ rfl).symm.trans (he .zf _ rfl)
    rw [ofBool_inj, decide_eq_decide] at hzf
    have hzero : x ^^^ y = 0 := by
      refine hzf.mpr ?_
      show x.toNat % _ ^^^ y.toNat % _ = 0
      rw [Nat.mod_eq_of_lt h.dst_lt, ← heq, Nat.xor_self]
    have hxy : x = y := BitVec.xor_eq_zero_iff.mp hzero
    exact absurd (hxy ▸ h.dst_lt) (Nat.not_lt_of_le hge)
  · rw [hop] at hm he
    have hne := (hm .cf _ rfl).symm.trans (he .cf _ rfl)
    rw [ofBool_inj, hb, hcf] at hne
    have hlt : x.toNat % i.dst.width.size < 2 ^ 64 := reduced_lt _ _
    have hfalse : borrow (x.toNat % i.dst.width.size) (2 ^ 64 - 1) true = false := rfl
    rw [hfalse, eq_comm, decide_eq_false_iff_not] at hne
    exact hne hlt

/-- The statements are exact but for the two cases. -/
theorem liftArith_exact_iff (i : ArithInsn) (cfg : Config) (s : State) (cf : Bool)
    (hcf : s.loc (.flag .cf) = ofBool cf) :
    i.Exact cfg s cf ↔ ¬ i.Cancels (s.operand cfg i.dst) ∧
      ¬ i.Wraps (s.operand cfg i.src % i.dst.width.size) cf := by
  obtain ⟨x, y, h⟩ := i.words cfg s
  have hdst : s.operand cfg i.dst = x.toNat := operand_of_value (h.dst s (.refl s))
  have hsrc : s.operand cfg i.src = y.toNat := operand_of_value (h.src s (.refl s))
  have hmod : x.toNat % i.dst.width.size = x.toNat := Nat.mod_eq_of_lt h.dst_lt
  obtain ⟨s₁, hrun, hres, hshows⟩ := i.run_lift hcf h.dst h.dst_lt h.src h.src_fits
  rw [ArithInsn.Exact, hdst, hsrc]
  constructor
  · rintro ⟨s', hrun', ⟨-, hexec⟩, -⟩
    have hsame : s' = s₁ := Except.ok.inj (hrun'.symm.trans hrun)
    subst hsame
    rw [← hmod] at hexec
    exact ⟨fun hc => h.made_ne (.inl hc) hshows hexec, fun hw => h.made_ne (.inr hw) hshows hexec⟩
  · rintro ⟨hc, hw⟩
    have hmade := h.made_eq hc hw
    rw [hmod] at hmade
    rw [hmade] at hres hshows
    refine ⟨s₁, hrun, ⟨hres, hshows⟩, fun hop => ?_⟩
    rw [hop] at hshows
    exact tells_of_shows h.dst_lt (Nat.mod_lt _ i.dst.width.size_pos) hshows

/-- `op eax, -1`, with the immediate extended to 64 bits. -/
def withAllOnes (op : Arith) (h : op.operands (.reg (.gpr 0 .b32)) (.imm (-1)) =
    [.reg (.gpr 0 .b32), .imm (-1)]) : ArithInsn where
  insn := ⟨op.mnemonic, [.reg (.gpr 0 .b32), .imm (-1)], 0x401000, "eax, 0FFFFFFFFh", [], []⟩
  op := op
  dst := .reg (.gpr 0 .b32)
  src := .imm (-1)
  place := trivial
  source := .inr (by decide)
  mnemonic := rfl
  ops := h.symm

/-- A state with all ones in `eax`, and a carry. -/
def lowOnes : State := ⟨fun l => if l = .reg 0 then 0xffffffff else if l = .flag .cf then 1 else 0,
  fun _ => 0⟩

theorem liftArith_exact_adcAllOnes : (withAllOnes .adc rfl).Exact ⟨64, false⟩ lowOnes true :=
  (liftArith_exact_iff (withAllOnes .adc rfl) ⟨64, false⟩ lowOnes true rfl).mpr
    ⟨fun h => absurd h.1 (by decide), fun h => absurd h.1 (by decide)⟩

/-- `xor eax, -1` makes zero of all ones, and clears the zero flag. -/
theorem not_exact_xorAllOnes : ¬ (withAllOnes .xor rfl).Exact ⟨64, false⟩ lowOnes true := by
  rintro ⟨s', hrun, ⟨-, hshows⟩, -⟩
  have hspec : s'.loc (.flag .zf) = ofBool true := hshows .zf true (by decide +kernel)
  have hmade : ((run ((withAllOnes .xor rfl).insn.lift ⟨64, false⟩) lowOnes).map fun s =>
      s.loc (.flag .zf)) = .ok 0 := by decide +kernel
  rw [hrun] at hmade
  have hzero : s'.loc (.flag .zf) = 0 := Except.ok.inj hmade
  exact absurd (hspec.symm.trans hzero) (by decide)

end Aret.Lift
