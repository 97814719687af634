/-
`pushfd` and `popfd`.

Seven flags are locations of their own, and the other bits of EFLAGS are kept in
a shadow word, from which the bits of those seven are masked out on each push.

* `registers_exact` — the names of registers read what the processor reads after
  any writes, and EFLAGS survives a push and a pop, in either order.
-/
import Aret.SubReg

namespace Aret.Lift

/-! ### Lifting -/

abbrev eflagsShadow : Location := .reg 121

def eflagsOwnedMask : ℤ := 0xcd7

def assembleEflags : Expr :=
  let bit (k : FlagKind) (b : ℕ) : Expr := bin .shl (bin .and (readFlag k) (konst 1)) (konst b)
  let tracked :=
    bin .or
      (bin .or (bin .or (bit .cf 0) (bit .pf 2)) (bin .or (bit .af 4) (bit .zf 6)))
      (bin .or (bin .or (bit .sf 7) (bit .df 10)) (bit .of 11))
  let shadowKept := bin .and (.read eflagsShadow) (konst (mask 32 - eflagsOwnedMask))
  bin .or (bin .or shadowKept (konst 2)) tracked

def distributeEflags (v : Expr) : List Stmt :=
  let getb (b : ℕ) : Expr := bin .and (bin .shr v (konst b)) (konst 1)
  [setFlag .cf (getb 0), setFlag .pf (getb 2), setFlag .af (getb 4), setFlag .zf (getb 6),
    setFlag .sf (getb 7), setFlag .df (getb 10), setFlag .of (getb 11), .set eflagsShadow v]

abbrev sp : Location := .reg 4

/-- The arm for `pushfd`. -/
def liftPushfd : List Stmt :=
  [.set sp (bin .sub (.read sp) (konst 4)), .store (.read sp) assembleEflags (.ofBits 32)]

/-- The arm for `popfd`. -/
def liftPopfd (address : ℕ) : List Stmt :=
  let t : Location := .temp ((address % 2 ^ 32 * 2 + 7) % 2 ^ 32)
  .set t (.load (.read sp) (.ofBits 32)) :: distributeEflags (.read t) ++
    [.set sp (bin .add (.read sp) (konst 4))]

/-! ### The bits of EFLAGS -/

def flagAt : ℕ → Option FlagKind
  | 0 => some .cf
  | 2 => some .pf
  | 4 => some .af
  | 6 => some .zf
  | 7 => some .sf
  | 10 => some .df
  | 11 => some .of
  | _ => none

def flagPos : FlagKind → ℕ
  | .cf => 0
  | .pf => 2
  | .af => 4
  | .zf => 6
  | .sf => 7
  | .df => 10
  | .of => 11

def State.eflag (s : State) (i : ℕ) : Bool :=
  match flagAt i with
  | some k => (s.loc (.flag k)).getLsbD 0
  | none => if i = 1 then true else (s.loc eflagsShadow).getLsbD i

theorem flagAt_flagPos (k : FlagKind) : flagAt (flagPos k) = some k := by cases k <;> rfl

theorem eflag_flagPos (s : State) (k : FlagKind) :
    s.eflag (flagPos k) = (s.loc (.flag k)).getLsbD 0 := by
  rw [State.eflag, flagAt_flagPos]

theorem flagPos_of_flagAt {i : ℕ} {k : FlagKind} (h : flagAt i = some k) : flagPos k = i := by
  revert h
  unfold flagAt
  split <;> intro h <;> cases h <;> rfl

/-- The value of `assemble_eflags`. -/
def assembled (s : State) : Word :=
  let bit (k : FlagKind) (b : ℕ) : Word := (s.loc (.flag k) &&& 1#64) <<< b
  (s.loc eflagsShadow &&& 0xfffff328#64 ||| 2#64) |||
    (((bit .cf 0 ||| bit .pf 2) ||| (bit .af 4 ||| bit .zf 6)) |||
      ((bit .sf 7 ||| bit .df 10) ||| bit .of 11))

theorem value_assembleEflags (s : State) : value s assembleEflags = .ok (assembled s) := by
  have hor : ∀ {a b : Expr} {x y : Word}, value s a = .ok x → value s b = .ok y →
      value s (bin .or a b) = .ok (x ||| y) := fun ha hb => value_bin ha hb
  have hbit : ∀ (k : FlagKind) (b : ℕ), b < 64 →
      value s (bin .shl (bin .and (readFlag k) (konst 1)) (konst b)) =
        .ok ((s.loc (.flag k) &&& 1#64) <<< b) := by
    intro k b hb
    have hnat : (BitVec.ofNat 64 b).toNat = b := by
      rw [BitVec.toNat_ofNat, Nat.mod_eq_of_lt (by omega)]
    rw [value_bin (value_and (value_readFlag k) (value_konst 1)) (value_konst_nat b)]
    show (if _ then _ else _) = _
    rw [hnat, if_pos hb]
    rfl
  have hshadow : value s (bin .and (.read eflagsShadow) (konst (mask 32 - eflagsOwnedMask))) =
      .ok (s.loc eflagsShadow &&& 0xfffff328#64) := by
    have hmask : BitVec.ofInt 64 (mask 32 - eflagsOwnedMask) = 0xfffff328#64 := by decide
    rw [value_and (value_read _) (value_konst _), hmask]
  refine hor (hor hshadow (value_konst 2)) (hor (hor (hor ?_ ?_) (hor ?_ ?_)) (hor (hor ?_ ?_) ?_))
  all_goals exact hbit _ _ (by decide)

theorem getLsbD_assembled (s : State) {i : ℕ} (hi : i < 32) :
    (assembled s).getLsbD i = s.eflag i := by
  have hbit : ∀ (x : Word) (b : ℕ), ((x &&& 1#64) <<< b).getLsbD i =
      (decide (i = b) && x.getLsbD 0) := by
    intro x b
    rw [BitVec.getLsbD_shiftLeft, BitVec.getLsbD_and, BitVec.getLsbD_one]
    by_cases hb : i = b
    · subst hb
      simp [show i < 64 by omega]
    · by_cases hlt : i < b
      · simp [hlt, hb]
      · simp [hb, show ¬ i - b = 0 by omega]
  simp only [assembled, BitVec.getLsbD_or, BitVec.getLsbD_and, hbit]
  -- In each position one of the words is the only one that has a bit there.
  interval_cases i <;> simp [State.eflag, flagAt]

/-! ### Running -/

theorem run_pushfd (s : State) : run liftPushfd s =
    .ok ⟨(s.set sp (s.loc sp - 4)).loc,
      writeBytes s.mem (s.loc sp - 4) 4 (assembled s).toNat⟩ := by
  have hsub : value s (bin .sub (.read sp) (konst 4)) = .ok (s.loc sp - 4) :=
    value_bin (value_read sp) (value_konst 4)
  have hstate : assembled (s.set sp (s.loc sp - 4)) = assembled s := by
    have hne : ∀ k, (s.set sp (s.loc sp - 4)).loc (.flag k) = s.loc (.flag k) := fun k =>
      set_reg_flag
    have hshadow : (s.set sp (s.loc sp - 4)).loc eflagsShadow = s.loc eflagsShadow :=
      set_loc_of_ne (by decide)
    simp only [assembled, hne, hshadow]
  rw [liftPushfd, run_set hsub]
  simp only [run, value_read, value_assembleEflags, hstate, set_loc_self]
  rfl

def State.top (s : State) : ℕ := readBytes s.mem (s.loc sp) 4

def trackedFlags : List FlagKind := [.cf, .pf, .af, .zf, .sf, .df, .of]

def popFlag (t : ℕ) (k : FlagKind) : Expr :=
  bin .and (bin .shr (.read (.temp t)) (konst (flagPos k : ℕ))) (konst 1)

theorem distributeEflags_eq (t : ℕ) : distributeEflags (.read (.temp t)) =
    ((trackedFlags.map fun k => (k, popFlag t k)).map fun p => setFlag p.1 p.2) ++
      [.set eflagsShadow (.read (.temp t))] := rfl

theorem value_popFlag {t : ℕ} {s s' : State} (h : OffFlags s s') (k : FlagKind) :
    value s' (popFlag t k) = .ok (ofBool ((s.loc (.temp t)).toNat.testBit (flagPos k))) := by
  have hread : value s' (.read (.temp t)) = .ok (s.loc (.temp t)) := by
    rw [value_read, h.loc (.temp t) nofun]
  have hpos : flagPos k < 64 := by cases k <;> decide
  rw [popFlag, value_bit hpos hread, Nat.testBit_eq_decide_div_mod_eq]

theorem run_distributeEflags (t : ℕ) (s : State) :
    ∃ s', run (distributeEflags (.read (.temp t))) s = .ok s' ∧ s'.mem = s.mem ∧
      s'.loc eflagsShadow = s.loc (.temp t) ∧
      (∀ l, l ≠ eflagsShadow → (∀ k, l ≠ .flag k) → s'.loc l = s.loc l) ∧
      ∀ k, s'.loc (.flag k) = ofBool ((s.loc (.temp t)).toNat.testBit (flagPos k)) := by
  have hall : ∀ k, k ∈ (trackedFlags.map fun k => (k, popFlag t k)).map Prod.fst := by
    intro k
    rw [List.map_map]
    show k ∈ trackedFlags.map id
    cases k <;> decide
  have hnodup : ((trackedFlags.map fun k => (k, popFlag t k)).map Prod.fst).Nodup := by
    rw [List.map_map]
    show (trackedFlags.map id).Nodup
    decide
  obtain ⟨s₁, hrun, ⟨hmem, hloc⟩, hflag⟩ := run_flags (s := s)
    (fun k => ofBool ((s.loc (.temp t)).toNat.testBit (flagPos k))) hnodup
    (fun p _ => hall p.1) fun p hp s' h _ => by
      obtain ⟨k, -, rfl⟩ := List.mem_map.mp hp
      exact value_popFlag h k
  have htemp : s₁.loc (.temp t) = s.loc (.temp t) := hloc (.temp t) fun _ => nofun
  have hread : value s₁ (.read (.temp t)) = .ok (s.loc (.temp t)) := by
    rw [value_read, htemp]
  refine ⟨s₁.set eflagsShadow (s.loc (.temp t)), ?_, hmem, set_loc_self, ?_, ?_⟩
  · rw [distributeEflags_eq t, run_append_ok hrun]
    exact run_set hread
  · intro l hne hl
    rw [set_loc_of_ne hne, hloc l hl]
  · intro k
    rw [set_reg_flag, hflag k, if_pos (hall k)]

theorem run_popfd (address : ℕ) (s : State) :
    ∃ s', run (liftPopfd address) s = .ok s' ∧ s'.mem = s.mem ∧ s'.loc sp = s.loc sp + 4 ∧
      s'.loc eflagsShadow = BitVec.ofNat 64 s.top ∧
      ∀ k, s'.loc (.flag k) = ofBool (s.top.testBit (flagPos k)) := by
  obtain ⟨t, ht⟩ : ∃ t, t = (address % 2 ^ 32 * 2 + 7) % 2 ^ 32 := ⟨_, rfl⟩
  obtain ⟨v, hv⟩ : ∃ v, v = BitVec.ofNat 64 s.top := ⟨_, rfl⟩
  have htop : v.toNat = s.top := by
    have hlt : s.top < 2 ^ (8 * 4) := readBytes_lt ..
    rw [hv, BitVec.toNat_ofNat, Nat.mod_eq_of_lt (by omega)]
  have hload : value s (.load (.read sp) (.ofBits 32)) = .ok v := by
    rw [hv]
    rfl
  obtain ⟨s₁, hrun, hmem, hshadow, hloc, hflag⟩ := run_distributeEflags t (s.set (.temp t) v)
  rw [set_loc_self] at hshadow hflag
  have hsp : s₁.loc sp = s.loc sp := by
    rw [hloc sp (by decide) nofun, set_temp_reg]
  have hadd : value s₁ (bin .add (.read sp) (konst 4)) = .ok (s.loc sp + 4) := by
    rw [value_bin (value_read sp) (value_konst 4), hsp]
    rfl
  refine ⟨s₁.set sp (s.loc sp + 4), ?_, hmem, set_loc_self, ?_, fun k => ?_⟩
  · show run (.set _ _ :: (distributeEflags _ ++ _)) s = _
    rw [← ht, run_set hload, run_append_ok hrun]
    exact run_set hadd
  · rw [set_loc_of_ne (by decide), hshadow, hv]
  · rw [set_reg_flag, hflag k, htop]

theorem eflag_popfd {s s' : State} (hshadow : s'.loc eflagsShadow = BitVec.ofNat 64 s.top)
    (hflag : ∀ k, s'.loc (.flag k) = ofBool (s.top.testBit (flagPos k))) {i : ℕ} (hi : i < 32) :
    s'.eflag i = (decide (i = 1) || s.top.testBit i) := by
  rw [State.eflag]
  cases hk : flagAt i with
  | some k =>
      have hpos := flagPos_of_flagAt hk
      have h1 : i ≠ 1 := by
        rintro rfl
        cases hk
      simp only [hflag, hpos, h1, decide_false, Bool.false_or]
      cases s.top.testBit i <;> rfl
  | none =>
      by_cases h1 : i = 1
      · simp [h1]
      · have hword : (BitVec.ofNat 64 s.top).getLsbD i = s.top.testBit i := by
          rw [BitVec.getLsbD_ofNat]
          simp [show i < 64 by omega]
        simp [h1, hshadow, hword]

theorem run_pushfd_top (s : State) :
    ∃ s', run liftPushfd s = .ok s' ∧ s'.loc sp = s.loc sp - 4 ∧
      ∀ i < 32, s'.top.testBit i = s.eflag i := by
  have hsp : (s.set sp (s.loc sp - 4)).loc sp = s.loc sp - 4 := set_loc_self
  refine ⟨_, run_pushfd s, hsp, ?_⟩
  intro i hi
  rw [State.top]
  dsimp only
  rw [hsp, readBytes_writeBytes _ _ 4 _ (by omega), Nat.testBit_mod_two_pow, BitVec.testBit_toNat,
    getLsbD_assembled s hi]
  simp only [show i < 8 * 4 from hi, decide_true, Bool.true_and]

def Register.Valid (cfg : Config) (r : Register) : Prop := r.width.bits ≤ cfg.bits

theorem Register.Valid.pos_add_le {cfg : Config} (hcfg : cfg.bits = 32 ∨ cfg.bits = 64)
    {r : Register} (h : r.Valid cfg) : r.pos + r.width.bits ≤ cfg.bits := by
  cases r with
  | gpr f w =>
      show 0 + w.bits ≤ cfg.bits
      rw [Nat.zero_add]
      exact h
  | high f =>
      show 8 + 8 ≤ cfg.bits
      omega

/-- After any writes through names, every name reads what the processor reads; a pop of EFLAGS
after a push restores every bit of it and every flag, and a push after a pop stores back what was
popped, with bit 1 set. -/
theorem registers_exact (cfg : Config) (hcfg : cfg.bits = 32 ∨ cfg.bits = 64) :
    (∀ ws s s' c c', Holds cfg s c → (∀ p ∈ ws, Register.Valid cfg p.1) →
      writeAll cfg ws s c = .ok (s', c') →
      ∀ r : Register, r.Valid cfg → value s' (readReg r) = .ok (BitVec.ofNat 64 (c'.read r))) ∧
    (∀ address s, ∃ s', run (liftPushfd ++ liftPopfd address) s = .ok s' ∧
      s'.loc sp = s.loc sp ∧ (∀ i < 32, s'.eflag i = s.eflag i) ∧
      ∀ k b, s.loc (.flag k) = ofBool b → s'.loc (.flag k) = ofBool b) ∧
    (∀ address s, ∃ s', run (liftPopfd address ++ liftPushfd) s = .ok s' ∧
      s'.loc sp = s.loc sp ∧
      ∀ i < 32, s'.top.testBit i = (decide (i = 1) || s.top.testBit i)) := by
  refine ⟨?_, ?_, ?_⟩
  · intro ws s s' c c' h hws hrun r hr
    have h' := holds_writeAll hcfg ws h hws hrun
    exact h'.read (hr.pos_add_le hcfg)
  · intro address s
    obtain ⟨s₁, hpush, hsp₁, htop⟩ := run_pushfd_top s
    obtain ⟨s₂, hpop, -, hsp₂, hshadow, hflag⟩ := run_popfd address s₁
    refine ⟨s₂, ?_, ?_, ?_, ?_⟩
    · rw [run_append_ok hpush, hpop]
    · rw [hsp₂, hsp₁, BitVec.sub_add_cancel]
    · intro i hi
      rw [eflag_popfd hshadow hflag hi, htop i hi]
      by_cases h1 : i = 1
      · simp [h1, State.eflag, flagAt]
      · simp [h1]
    · intro k b hb
      have hpos : flagPos k < 32 := by cases k <;> decide
      rw [hflag k, htop _ hpos, eflag_flagPos, hb]
      cases b <;> rfl
  · intro address s
    obtain ⟨s₁, hpop, -, hsp₁, hshadow, hflag⟩ := run_popfd address s
    obtain ⟨s₂, hpush, hsp₂, htop⟩ := run_pushfd_top s₁
    refine ⟨s₂, ?_, ?_, ?_⟩
    · rw [run_append_ok hpop, hpush]
    · rw [hsp₂, hsp₁, BitVec.add_sub_cancel]
    · intro i hi
      rw [htop i hi, eflag_popfd hshadow hflag hi]

def clear : State := ⟨fun _ => 0, fun _ => 0⟩

/-- In code of 64 bits, `eax` and then `ah` are written to a register that was all ones. -/
theorem registers_exact_ah :
    value ((clear.set (.reg 0) (newReg ⟨64, true⟩ (.gpr 0 .b32) (-1) 0x11223344)).set (.reg 0)
        (newReg ⟨64, true⟩ (.high 0) 0x11223344 0xaa)) (readReg (.gpr 0 .b64)) =
      .ok 0x1122aa44 := by
  have hcfg : (⟨64, true⟩ : Config).bits = 32 ∨ (⟨64, true⟩ : Config).bits = 64 := .inr rfl
  have hholds : Holds ⟨64, true⟩ (clear.set (.reg 0) 0x11223344)
      (Function.update (fun _ => 0) 0 0x11223344) := by
    intro f i _
    by_cases hf : f = 0
    · subst hf
      rw [set_loc_self, Function.update_self, ← BitVec.testBit_toNat]
      rfl
    · rw [set_loc_of_ne (by simpa using hf), Function.update_of_ne hf, Nat.zero_testBit]
      exact BitVec.getLsbD_zero
  have hrun : writeAll ⟨64, true⟩ [(.high 0, konst 0xaa)] (clear.set (.reg 0) 0x11223344)
      (Function.update (fun _ => 0) 0 0x11223344) = .ok (_, _) := writeAll_cons (value_konst _)
  have h := (registers_exact ⟨64, true⟩ hcfg).1 _ _ _ _ _ hholds
    (by intro p hp; rw [List.mem_singleton.mp hp]; show 8 ≤ 64; decide) hrun
    (.gpr 0 .b64) (by show 64 ≤ 64; decide)
  exact h

end Aret.Lift
