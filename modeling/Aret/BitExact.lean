/-
The lifted bit instructions against the processor.

* `bits_exact_iff` — a test is right but for named slots; a scan always; a count of
  zeros sets no `zf`, and in words of 16 bits counts too far; a count of ones
  clears no flag.
-/
import Aret.BitInsn
import Aret.LiftShift

namespace Aret.Lift

open Alu

/-! ### Words -/

section
variable {s s₁ s' : State} {cfg : Config} {i : Insn} {e : Expr} {v x : Word} {op : BitTest}

theorem shiftRight_and_one_eq (x : Word) (p : ℕ) : x >>> p &&& 1#64 = ofBool (x.toNat.testBit p) := by
  rw [shiftRight_and_one, Nat.testBit_eq_decide_div_mod_eq]

def BitTest.word (op : BitTest) (x m : Word) : Word :=
  match op with
  | .bts => x ||| m
  | .btr => x &&& ~~~m
  | _ => x ^^^ m

variable (op) in
theorem value_combine_bit {a b : Expr} {y : Word} (ha : value s a = .ok x) (hb : value s b = .ok y) :
    value s (op.combine a b) = .ok (op.word x y) := by
  have hnot : value s (.unary .not b) = .ok (~~~y) := by
    simp only [value, hb]
    rfl
  cases op with
  | bts => exact value_bin ha hb
  | btr => exact value_bin ha hnot
  | _ => exact value_bin ha hb

theorem getLsbD_bit {p i : ℕ} (hp : p < 64) : ((1#64) <<< p).getLsbD i = decide (i = p) := by
  rw [BitVec.getLsbD_shiftLeft, BitVec.getLsbD_one]
  by_cases h : i = p
  · subst h
    simp [hp]
  · by_cases hlt : i < p
    · simp [hlt, h]
    · simp [h, show ¬ i - p = 0 by omega]

theorem testBit_result (x p i : ℕ) : (op.result x p).testBit i =
    if i = p then op.update (x.testBit p) else x.testBit i := by
  rw [BitTest.result, Fields.testBit_put]
  by_cases h : i = p
  · subst h
    rw [if_pos (by omega), if_pos rfl, Nat.sub_self]
    cases op.update (x.testBit i) <;> rfl
  · rw [if_neg (by omega), if_neg h]

theorem combine_toNat (hop : op ≠ .bt) (x : Word) {p : ℕ} (hp : p < 64) :
    (op.word x ((1#64) <<< p)).toNat = op.result x.toNat p := by
  apply Nat.eq_of_testBit_eq
  intro i
  rw [testBit_result, BitVec.testBit_toNat]
  by_cases hi : i < 64
  · cases op with
    | bt => exact absurd rfl hop
    | bts =>
        simp only [BitTest.word, BitTest.update, BitVec.getLsbD_or, getLsbD_bit hp]
        by_cases h : i = p <;> simp [h, BitVec.testBit_toNat]
    | btr =>
        simp only [BitTest.word, BitTest.update, BitVec.getLsbD_and, BitVec.getLsbD_not,
          getLsbD_bit hp]
        by_cases h : i = p
        · simp [h]
        · simp [h, hi, BitVec.testBit_toNat]
    | btc =>
        simp only [BitTest.word, BitTest.update, BitVec.getLsbD_xor, getLsbD_bit hp]
        by_cases h : i = p <;> simp [h, BitVec.testBit_toNat]
  · have hne : ¬ i = p := by omega
    rw [BitVec.getLsbD_of_ge _ _ (by omega), if_neg hne,
      BitVec.testBit_toNat, BitVec.getLsbD_of_ge _ _ (by omega)]

theorem result_lt {n x p : ℕ} (hx : x < 2 ^ n) (hp : p < n) : op.result x p < 2 ^ n := by
  apply Nat.lt_pow_two_of_testBit
  intro i hi
  rw [BitTest.result, Fields.testBit_put, if_neg (by omega)]
  exact Nat.testBit_lt_two_pow (lt_of_lt_of_le hx (Nat.pow_le_pow_right (by omega) hi))

theorem result_eq_self {x p : ℕ} : op.result x p = x ↔ op.update (x.testBit p) = x.testBit p := by
  constructor
  · intro h
    have hbit : (op.result x p).testBit p = _ := testBit_result x p p
    rw [h, if_pos rfl] at hbit
    exact hbit.symm
  · intro h
    apply Nat.eq_of_testBit_eq
    intro i
    rw [testBit_result]
    split
    · rename_i hi
      rw [hi, h]
    · rfl

theorem value_pos {w : Width} (hw : w ≠ .b8) {y : Word} (h : value s e = .ok y) :
    ∃ z : Word, value s (bin .and e (konst (w.bits - 1 : ℕ))) = .ok z ∧
      z.toNat = y.toNat % w.bits := by
  refine ⟨_, value_and h (value_konst_nat _), ?_⟩
  have hpow : ∃ k, w.bits = 2 ^ k ∧ k < 64 := by
    cases w with
    | b8 => exact absurd rfl hw
    | b16 => exact ⟨4, rfl, by decide⟩
    | b32 => exact ⟨5, rfl, by decide⟩
    | b64 => exact ⟨6, rfl, by decide⟩
  obtain ⟨k, hk, hlt⟩ := hpow
  have hle := w.bits_le
  have hpos := w.bits_pos
  rw [BitVec.toNat_and, BitVec.toNat_ofNat, Nat.mod_eq_of_lt (by omega), hk,
    Nat.and_two_pow_sub_one_eq_mod]

theorem value_bitAt {a b : Expr} {z : Word} (ha : value s a = .ok x) (hb : value s b = .ok z)
    (hz : z.toNat < 64) :
    value s (bin .and (bin .shr a b) (konst 1)) = .ok (ofBool (x.toNat.testBit z.toNat)) := by
  rw [value_bin (value_shrW ha hb hz) (value_konst 1), ← shiftRight_and_one_eq]
  rfl

theorem value_oneAt {b : Expr} {z : Word} (hb : value s b = .ok z) (hz : z.toNat < 64) :
    value s (bin .shl (konst 1) b) = .ok ((1#64) <<< z.toNat) :=
  value_shlW (value_konst 1) hb hz

/-! ### A bit of an operand -/

theorem slotKept_iff (hcfg : cfg.bits = 32 ∨ cfg.bits = 64) {o : Operand}
    (hv : v.toNat < o.width.size) : SlotKept cfg o v s ↔ SlotFits cfg o s := by
  cases o with
  | imm u => exact Iff.rfl
  | reg r => exact Iff.rfl
  | mem m =>
      cases hd : m.frameDisp cfg with
      | none => simp only [SlotKept, SlotFits, hd]
      | some d =>
          simp only [SlotKept, SlotFits, hd]
          refine forall_congr' fun hw => ?_
          have hv32 : v.toNat < 2 ^ 32 := by
            have hsize : (Operand.mem m).width.size = 2 ^ 32 := by
              show m.width.size = 2 ^ 32
              rw [hw]
              rfl
            omega
          have habove : ∀ (u : Word), u.toNat < 2 ^ 32 ↔
              ∀ i < 64, 32 ≤ i → u.getLsbD i = false := by
            intro u
            constructor
            · intro hu i _ hi
              rw [← BitVec.testBit_toNat]
              exact Nat.testBit_lt_two_pow
                (lt_of_lt_of_le hu (Nat.pow_le_pow_right (by omega) hi))
            · intro hu
              apply Nat.lt_pow_two_of_testBit
              intro i hi
              rw [BitVec.testBit_toNat]
              by_cases h64 : i < 64
              · exact hu i h64 hi
              · exact BitVec.getLsbD_of_ge _ _ (by omega)
          have hnew : newReg cfg (.gpr 0 .b32) (s.loc (.frame d)) v = v := by
            apply BitVec.eq_of_toNat_eq
            rcases hcfg with h | h
            · simp [newReg, h, Width.bits]
            · have hmask := toNat_and_mask .b32 v
              simp only [newReg, h, Width.bits]
              exact hmask.trans (Nat.mod_eq_of_lt hv32)
          rw [hnew, habove]
          constructor
          · intro h i hi h32
            rw [← h i hi h32]
            exact (habove v).mp hv32 i hi h32
          · intro h i hi h32
            rw [h i hi h32]
            exact (habove v).mp hv32 i hi h32

variable (op) in
theorem place_law_iff (hcfg : cfg.bits = 32 ∨ cfg.bits = 64) {x y : Operand} (hx : x.isPlace)
    (hw : x.width ≠ .b8) (hle : x.width.bits ≤ cfg.bits) :
    ∃ s', run (liftBitPlace cfg op i x y) s = .ok s' ∧
      s'.loc (.flag .zf) = s.loc (.flag .zf) ∧ s'.loc (.flag .df) = s.loc (.flag .df) ∧
      (op.PlaceLaw cfg x (s.operand cfg y % x.width.bits) s s' ↔ op = .bt ∨ SlotFits cfg x s) := by
  obtain ⟨a, ha, halt, -⟩ := opValue_fixed cfg x s
  obtain ⟨b, hb, -, -⟩ := opValue_fixed cfg y s
  obtain ⟨z, hz, hzmod⟩ := value_pos hw (hb s (.refl s))
  have hzlt : z.toNat < x.width.bits := by
    rw [hzmod]
    exact Nat.mod_lt _ x.width.bits_pos
  have hz64 : z.toNat < 64 := lt_of_lt_of_le hzlt x.width.bits_le
  have hopx : s.operand cfg x = a.toNat := operand_of_value (ha s (.refl s))
  have hopy : s.operand cfg y = b.toNat := operand_of_value (hb s (.refl s))
  have hbit := value_bitAt (ha s (.refl s)) hz hz64
  -- The state once the bit is in the flag.
  obtain ⟨s₁, hs₁⟩ : ∃ s₁, s₁ = s.set (.flag .cf) (ofBool (a.toNat.testBit z.toNat)) := ⟨_, rfl⟩
  have hsame : Same s s₁ := by
    rw [hs₁]
    exact ⟨rfl, fun _ => set_loc_of_ne nofun, fun _ => set_loc_of_ne nofun⟩
  have hrun : run [setFlag .cf (bin .and (bin .shr (opValue cfg x)
      (bin .and (opValue cfg y) (konst (x.width.bits - 1 : ℕ)))) (konst 1))] s = .ok s₁ := by
    rw [hs₁]
    exact run_set hbit
  have hcf : s₁.loc (.flag .cf) = ofBool (a.toNat.testBit z.toNat) := by
    rw [hs₁, set_loc_self]
  have hother : ∀ k, k ≠ .cf → s₁.loc (.flag k) = s.loc (.flag k) := by
    intro k hk
    rw [hs₁]
    exact set_loc_of_ne (by simpa using hk)
  unfold liftBitPlace
  dsimp only
  rw [opWidth_place hx]
  by_cases hop : op = .bt
  · rw [if_pos hop]
    refine ⟨s₁, hrun, hother _ (by decide), hother _ (by decide), fun _ => .inl hop, fun _ => ?_⟩
    rw [BitTest.PlaceLaw, if_pos hop, hopx, hopy, ← hzmod]
    exact ⟨hcf, hsame⟩
  · rw [if_neg hop]
    obtain ⟨z', hz', hzmod'⟩ := value_pos hw (hb s₁ hsame)
    have hzz : z'.toNat = z.toNat := by rw [hzmod', hzmod]
    have hnew := value_combine_bit op (ha s₁ hsame) (value_oneAt hz' (by omega))
    have hlt : (op.word a ((1#64) <<< z'.toNat)).toNat < x.width.size := by
      rw [combine_toNat hop a (by omega), hzz]
      exact result_lt (halt hx) hzlt
    refine ⟨_, run_finish_written hx hrun hnew, ?_, ?_, ?_⟩
    · rw [written_flag, hother _ (by decide)]
    · rw [written_flag, hother _ (by decide)]
    · rw [BitTest.PlaceLaw, if_neg hop, hopx, hopy, ← hzmod, written_flag, hcf]
      rw [← combine_toNat hop a hz64, ← hzz, ← wrote_congr hsame,
        wrote_written_iff hcfg hx (fun r hr => by subst hr; exact hle), slotKept_congr hsame,
        slotKept_iff hcfg hlt]
      simp [hop]

/-! ### A bit of a string -/

theorem value_sar_konst {k : ℕ} (hk : k < 64) (h : value s e = .ok x) (hw : ∀ u, signedCast e u = u) :
    value s (bin .sar e (konst k)) = .ok (x.sshiftRight k) := by
  have hnat : (BitVec.ofNat 64 k).toNat = k := by
    rw [BitVec.toNat_ofNat, Nat.mod_eq_of_lt (by omega)]
  rw [value_bin h (value_konst_nat k)]
  show (if _ then _ else _) = _
  rw [hnat, if_pos hk, hw]

theorem toInt_shifted {w : Width} (hw : w ≠ .b8) (hx : x.toNat < w.size) :
    ((x <<< (64 - w.bits)).sshiftRight (64 - w.bits)).toInt = toSigned w x.toNat := by
  rw [BitVec.toInt_sshiftRight, Int.shiftRight_eq_div_pow, BitVec.toInt_eq_toNat_cond,
    BitVec.toNat_shiftLeft, Nat.shiftLeft_eq, toSigned]
  cases w with
  | b8 => exact absurd rfl hw
  | b16 | b32 | b64 =>
      simp only [Width.size, Width.half, Width.bits] at hx ⊢
      norm_num at hx ⊢
      split <;> split <;> omega

theorem value_index {w : Width} (hw : w ≠ .b8) {l : ℕ} (hl : w.bits = 2 ^ l) (hl64 : l < 64)
    (h : value s e = .ok x) (hx : x.toNat < w.size) :
    value s (bin .sar (bin .sar (bin .shl e (konst (64 - w.bits : ℕ))) (konst (64 - w.bits : ℕ)))
      (konst l)) = .ok (BitVec.ofInt 64 (toSigned w x.toNat / w.bits)) := by
  have hn : 64 - w.bits < 64 := by
    have := w.bits_pos
    omega
  have hnat : (BitVec.ofNat 64 (64 - w.bits)).toNat = 64 - w.bits := by
    rw [BitVec.toNat_ofNat, Nat.mod_eq_of_lt (by omega)]
  have hshl : value s (bin .shl e (konst (64 - w.bits : ℕ))) = .ok (x <<< (64 - w.bits)) := by
    have hval := value_shlW h (value_konst_nat (s := s) (64 - w.bits)) (by rw [hnat]; exact hn)
    rwa [hnat] at hval
  rw [value_sar_konst hl64 (value_sar_konst hn hshl fun _ => rfl) fun _ => rfl]
  congr 1
  apply BitVec.eq_of_toInt_eq
  have hint : (((x <<< (64 - w.bits)).sshiftRight (64 - w.bits)).sshiftRight l).toInt =
      toSigned w x.toNat / w.bits := by
    rw [BitVec.toInt_sshiftRight, Int.shiftRight_eq_div_pow, toInt_shifted hw hx, hl]
  rw [← hint, BitVec.ofInt_toInt]

variable (op) in
theorem liftBitString_eq {m : Memory} (hw : m.width ≠ .b8) (r : Register) :
    ∃ l, m.width.bits = 2 ^ l ∧ l < 64 ∧ liftBitString op i m r =
      liftBitString.string op i m r m.width.bits l (m.width.bits / 8) := by
  unfold liftBitString
  cases h : m.width with
  | b8 => exact absurd h hw
  | b16 => exact ⟨4, rfl, by decide, rfl⟩
  | b32 => exact ⟨5, rfl, by decide, rfl⟩
  | b64 => exact ⟨6, rfl, by decide, rfl⟩

theorem toSigned_mod {w : Width} (hw : w ≠ .b8) {n : ℕ} :
    (toSigned w n % w.bits).toNat = n % w.bits := by
  by_cases h : n < w.half
  · rw [toSigned, if_pos h, ← Int.natCast_mod, Int.toNat_natCast]
  · rw [toSigned, if_neg h]
    cases w with
    | b8 => exact absurd rfl hw
    | b16 | b32 | b64 =>
        simp only [Width.size, Width.bits]
        omega

variable (op) in
theorem value_string {m : Memory} {r : Register} (hw : m.width ≠ .b8) {a : Word}
    (htemp : s₁.loc i.temp = a) (hmem : s₁.mem = s.mem) (hregs : SameRegs s s₁) :
    let load := .load (.read i.temp) (.ofBits m.width.bits)
    let pos := bin .and (readReg r) (konst (m.width.bits - 1 : ℕ))
    let u := readBytes s.mem a (m.width.bits / 8)
    let p := s.regVal r % m.width.bits
    value s₁ (bin .and (bin .shr load pos) (konst 1)) = .ok (ofBool (u.testBit p)) ∧
      (op ≠ .bt → ∃ v, value s₁ (op.combine load (bin .shl (konst 1) pos)) = .ok v ∧
        v.toNat = op.result u p) := by
  intro load pos u p
  have hload : value s₁ load = .ok (BitVec.ofNat 64 u) := by
    show value s₁ (.load (.read i.temp) (.ofBits m.width.bits)) = _
    simp only [value, htemp, hmem, ctypeBytes_eq]
    rfl
  have hu : (BitVec.ofNat 64 u).toNat = u := by
    have hlt : u < 2 ^ (8 * (m.width.bits / 8)) := readBytes_lt ..
    have hle : 2 ^ (8 * (m.width.bits / 8)) ≤ 2 ^ 64 := by cases m.width <;> decide
    rw [BitVec.toNat_ofNat, Nat.mod_eq_of_lt (lt_of_lt_of_le hlt hle)]
  obtain ⟨z, hz, hzmod⟩ := value_pos hw (value_readReg s₁ r)
  have hzp : z.toNat = p := by
    have hlt := lt_of_lt_of_le (regVal_lt s r) r.width.size_le
    rw [hzmod, regVal_congr hregs, BitVec.toNat_ofNat, Nat.mod_eq_of_lt hlt]
  have hz64 : z.toNat < 64 := by
    rw [hzmod]
    exact lt_of_lt_of_le (Nat.mod_lt _ m.width.bits_pos) m.width.bits_le
  constructor
  · rw [value_bitAt hload hz hz64, hu, hzp]
  · intro hop
    refine ⟨_, value_combine_bit op hload (value_oneAt hz hz64), ?_⟩
    rw [combine_toNat hop _ hz64, hu, hzp]

variable (cfg op) in
theorem run_string {m : Memory} {r : Register} (hw : m.width ≠ .b8) (hr : r.width = m.width)
    (hops : i.ops = [.mem m, .reg r]) :
    ∃ s', run ((BitOp.test op).lift cfg i) s = .ok s' ∧
      s'.loc (.flag .zf) = s.loc (.flag .zf) ∧ s'.loc (.flag .df) = s.loc (.flag .df) ∧
      SameRegs s s' ∧ (∀ d, s'.loc (.frame d) = s.loc (.frame d)) ∧
      let k := toSigned m.width (s.regVal r)
      let a := BitVec.ofInt 64 (m.effective s + k / m.width.bits * (m.width.bits / 8 : ℕ))
      let u := readBytes s.mem a (m.width.bits / 8)
      let p := (k % m.width.bits).toNat
      s'.loc (.flag .cf) = ofBool (u.testBit p) ∧
        s'.mem = if op = .bt then s.mem else writeBytes s.mem a (m.width.bits / 8) (op.result u p) := by
  obtain ⟨l, hl, hl64, hstring⟩ := liftBitString_eq op (i := i) hw r
  have hlift : (BitOp.test op).lift cfg i =
      liftBitString.string op i m r m.width.bits l (m.width.bits / 8) := by
    rw [← hstring]
    simp only [BitOp.lift, hops]
  obtain ⟨a, ha⟩ : ∃ a, a = BitVec.ofInt 64 (m.effective s +
      toSigned m.width (s.regVal r) / m.width.bits * (m.width.bits / 8 : ℕ)) := ⟨_, rfl⟩
  have hreg : (BitVec.ofNat 64 (s.regVal r)).toNat = s.regVal r := by
    have hlt := lt_of_lt_of_le (regVal_lt s r) r.width.size_le
    rw [BitVec.toNat_ofNat, Nat.mod_eq_of_lt hlt]
  have hindex := value_index hw hl hl64 (value_readReg s r)
    (by rw [hreg, ← hr]; exact regVal_lt s r)
  rw [hreg] at hindex
  have haddr : value s (bin .add m.addr (bin .mul (bin .sar (bin .sar (bin .shl (readReg r)
      (konst (64 - m.width.bits : ℕ))) (konst (64 - m.width.bits : ℕ))) (konst l))
        (konst (m.width.bits / 8 : ℕ)))) = .ok a := by
    rw [value_bin (value_addr s m) (value_bin hindex (value_konst _)), ha, BitVec.ofInt_add,
      BitVec.ofInt_mul]
    rfl
  dsimp only
  rw [hlift, toSigned_mod hw, ← ha]
  unfold liftBitString.string
  dsimp only
  obtain ⟨u, hu⟩ : ∃ u, u = readBytes s.mem a (m.width.bits / 8) := ⟨_, rfl⟩
  obtain ⟨p, hp⟩ : ∃ p, p = s.regVal r % m.width.bits := ⟨_, rfl⟩
  -- The address is in the temporary, then the bit in the flag.
  obtain ⟨s₁, hs₁⟩ : ∃ s₁, s₁ = s.set i.temp a := ⟨_, rfl⟩
  have htemp₁ : s₁.loc i.temp = a := by rw [hs₁, set_loc_self]
  have hregs₁ : SameRegs s s₁ := by
    intro f
    rw [hs₁]
    exact set_loc_of_ne nofun
  have hbit := (value_string op (r := r) hw htemp₁ (by rw [hs₁]; rfl) hregs₁).1
  rw [← hu, ← hp] at hbit
  obtain ⟨s₂, hs₂⟩ : ∃ s₂, s₂ = s₁.set (.flag .cf) (ofBool (u.testBit p)) := ⟨_, rfl⟩
  have htemp₂ : s₂.loc i.temp = a := by
    rw [hs₂, ← htemp₁]
    exact set_flag_temp
  have hmem₂ : s₂.mem = s.mem := by rw [hs₂, hs₁]; rfl
  have hregs₂ : SameRegs s s₂ := by
    intro f
    rw [hs₂, set_flag_reg, hregs₁]
  have hframes₂ : ∀ d, s₂.loc (.frame d) = s.loc (.frame d) := by
    intro d
    rw [hs₂, hs₁, set_flag_frame]
    exact set_temp_frame
  have hflags₂ : ∀ k, k ≠ .cf → s₂.loc (.flag k) = s.loc (.flag k) := by
    intro k hk
    rw [hs₂, hs₁, set_loc_of_ne (by simpa using hk)]
    exact set_loc_of_ne nofun
  have hcf₂ : s₂.loc (.flag .cf) = ofBool (u.testBit p) := by rw [hs₂, set_loc_self]
  have hnew := (value_string op (r := r) hw htemp₂ hmem₂ hregs₂).2
  rw [← hu, ← hp] at hnew ⊢
  by_cases hop : op = .bt
  · rw [if_pos hop, run_set haddr, ← hs₁]
    have hset : run [setFlag .cf _] s₁ = .ok (s₁.set (.flag .cf) (ofBool (u.testBit p))) :=
      run_set hbit
    rw [hset, ← hs₂]
    exact ⟨s₂, rfl, hflags₂ _ (by decide), hflags₂ _ (by decide), hregs₂, hframes₂, hcf₂,
      by rw [if_pos hop, hmem₂]⟩
  · obtain ⟨v, hv, hvnat⟩ := hnew hop
    rw [if_neg hop, List.cons_append, run_set haddr, ← hs₁, List.cons_append, List.nil_append]
    have hset : ∀ rest, run (setFlag .cf _ :: rest) s₁ =
        run rest (s₁.set (.flag .cf) (ofBool (u.testBit p))) := fun rest => run_set hbit
    rw [hset, ← hs₂]
    refine ⟨⟨s₂.loc, writeBytes s₂.mem a (m.width.bits / 8) v.toNat⟩, ?_,
      hflags₂ _ (by decide), hflags₂ _ (by decide), hregs₂, hframes₂, hcf₂, ?_⟩
    · simp only [run, value_read, hv, htemp₂, ctypeBytes_eq]
      rfl
    · rw [if_neg hop, hvnat, hmem₂]

theorem writeBytes_eq_self {mem : Word → BitVec 8} {a : Word} {n u : ℕ} (hn : n ≤ 8) :
    writeBytes mem a n u = mem ↔ u % 2 ^ (8 * n) = readBytes mem a n := by
  constructor
  · intro h
    rw [← readBytes_writeBytes mem a n u hn, h]
  · intro h
    induction n generalizing a u with
    | zero => rfl
    | succ n ih =>
        have hpow : 2 ^ (8 * (n + 1)) = 256 * 2 ^ (8 * n) := by
          rw [Nat.mul_succ, pow_add]
          ring
        rw [hpow, Nat.mod_mul, readBytes] at h
        -- The lowest byte, and the others.
        have hlow : u % 256 = (mem a).toNat := by omega
        have hrest : u / 256 % 2 ^ (8 * n) = readBytes mem (a + 1) n := by omega
        have hself : BitVec.ofNat 8 u = mem a := by
          apply BitVec.eq_of_toNat_eq
          rw [BitVec.toNat_ofNat]
          exact hlow
        rw [writeBytes, ih (by omega) hrest, hself, Function.update_eq_self]

theorem operand_slot {m : Memory} {d : ℤ} (hd : m.frameDisp cfg = some d) :
    s.operand cfg (.mem m) = (s.loc (.frame d)).toNat % m.width.size := by
  have hval : value s (opValue cfg (.mem m)) =
      .ok (BitVec.ofNat 64 ((s.loc (.frame d)).toNat % m.width.size)) := by
    rw [← value_reduced m.width (value_read (.frame d))]
    simp only [opValue, hd]
    cases m.width <;> rfl
  have hlt := lt_of_lt_of_le (Nat.mod_lt (s.loc (.frame d)).toNat m.width.size_pos) m.width.size_le
  rw [operand_of_value hval, BitVec.toNat_ofNat, Nat.mod_eq_of_lt hlt]

theorem slot_law_iff {m : Memory} {d : ℤ} (hd : m.frameDisp cfg = some d) {u p : ℕ}
    (hp : p < m.width.bits) {a : Word} (hu : u = readBytes s.mem a (m.width.bits / 8))
    (hcf : s'.loc (.flag .cf) = ofBool (u.testBit p)) (hregs : SameRegs s s')
    (hframes : ∀ d, s'.loc (.frame d) = s.loc (.frame d))
    (hmem : s'.mem =
      if op = .bt then s.mem else writeBytes s.mem a (m.width.bits / 8) (op.result u p)) :
    op.PlaceLaw cfg (.mem m) p s s' ↔
      u.testBit p = (s.loc (.frame d)).getLsbD p ∧
        op.update ((s.loc (.frame d)).getLsbD p) = (s.loc (.frame d)).getLsbD p := by
  obtain ⟨x, hx⟩ : ∃ x, x = (s.loc (.frame d)).toNat % m.width.size := ⟨_, rfl⟩
  have hbit : x.testBit p = (s.loc (.frame d)).getLsbD p := by
    rw [hx, Width.size, Nat.testBit_mod_two_pow, BitVec.testBit_toNat]
    simp only [hp, decide_true, Bool.true_and]
  have hbytes : 8 * (m.width.bits / 8) = m.width.bits := by cases m.width <;> rfl
  have hult : u < 2 ^ m.width.bits := by
    have hlt := readBytes_lt s.mem a (m.width.bits / 8)
    rwa [hbytes, ← hu] at hlt
  have hxlt : x < 2 ^ m.width.bits := by
    rw [hx]
    exact Nat.mod_lt _ m.width.size_pos
  rw [BitTest.PlaceLaw, operand_slot hd, ← hx, hcf, ofBool_inj, hbit]
  refine and_congr_right fun hub => ?_
  by_cases hop : op = .bt
  · rw [if_pos hop]
    refine ⟨fun _ => by rw [hop]; rfl, fun _ => ⟨?_, hregs, hframes⟩⟩
    rw [hmem, if_pos hop]
  · rw [if_neg hop]
    have hle : m.width.bits / 8 ≤ 8 := by cases m.width <;> decide
    -- The slot has to be what it was, and so has memory.
    have hslot : (s'.loc (.frame d)).toNat =
        Fields.put (s.loc (.frame d)).toNat 0 m.width.bits (op.result x p) ↔
        op.result x p = x := by
      rw [hframes, eq_comm, Fields.put_eq_self_iff, Nat.mod_eq_of_lt (result_lt hxlt hp),
        Fields.get, pow_zero, Nat.div_one, hx]
      rfl
    have hmem' : s'.mem = s.mem ↔ op.result u p = u := by
      rw [hmem, if_neg hop, writeBytes_eq_self hle, hbytes, Nat.mod_eq_of_lt (result_lt hult hp),
        ← hu]
    simp only [Wrote, hd, hslot, hmem', result_eq_self, hub, hbit]
    exact ⟨fun h => h.1, fun h => ⟨h, fun d' _ => hframes d', hregs, h⟩⟩

theorem exists_run_iff {L : List Stmt} {s₀ : State} {P : State → Prop} (h : run L s = .ok s₀) :
    (∃ s', run L s = .ok s' ∧ P s') ↔ P s₀ := by
  rw [h]
  constructor
  · rintro ⟨s', h', hp⟩
    cases h'
    exact hp
  · exact fun hp => ⟨s₀, rfl, hp⟩

theorem test_law_iff (hcfg : cfg.bits = 32 ∨ cfg.bits = 64) {x y : Operand} (hops : i.ops = [x, y])
    (henc : (BitOp.test op).Encodable cfg x y) :
    (∃ s', run ((BitOp.test op).lift cfg i) s = .ok s' ∧ op.Law cfg x y s s') ↔
      op.Sound cfg x y s := by
  obtain ⟨-, hw, hle, hx, hy⟩ := henc
  rcases hy with ⟨r, rfl, hr⟩ | ⟨v, rfl⟩
  · cases x with
    | imm u => exact hx.elim
    | reg x =>
        have hlift : (BitOp.test op).lift cfg i = liftBitPlace cfg op i (.reg x) (.reg r) := by
          simp only [BitOp.lift, hops]
        obtain ⟨s', hrun, hzf, hdf, hlaw⟩ := place_law_iff op (i := i) (s := s) hcfg
          (y := .reg r) hx hw hle
        rw [hlift, exists_run_iff hrun]
        exact ⟨fun h => hlaw.mp h.2.2, fun h => ⟨hzf, hdf, hlaw.mpr h⟩⟩
    | mem m =>
        obtain ⟨s', hrun, hzf, hdf, hregs, hframes, hcf, hmem⟩ :=
          run_string cfg op (s := s) hw hr hops
        rw [exists_run_iff hrun]
        obtain ⟨k, hk⟩ : ∃ k, k = toSigned m.width (s.regVal r) := ⟨_, rfl⟩
        simp only [BitTest.Law, BitTest.Sound, ← hk] at hcf hmem ⊢
        have hstring : op.StringLaw cfg m k s s' :=
          ⟨_, isAt_ofInt hcfg _, hcf, hregs, hframes, hmem⟩
        cases hd : m.frameDisp cfg with
        | none =>
            rw [if_neg (fun h => absurd h.1 (by simp))]
            exact ⟨fun _ => trivial, fun _ => ⟨hzf, hdf, hstring⟩⟩
        | some d =>
            by_cases hin : 0 ≤ k ∧ k < m.width.bits
            · obtain ⟨h0, hlt⟩ := hin
              rw [if_pos ⟨rfl, h0, hlt⟩]
              have hdiv : k / m.width.bits = 0 := Int.ediv_eq_zero_of_lt h0 hlt
              have hmod : (k % m.width.bits).toNat = k.toNat := by
                rw [Int.emod_eq_of_lt h0 hlt]
              rw [hdiv, zero_mul, add_zero, hmod] at hcf hmem
              have hiff := slot_law_iff hd (by omega) rfl hcf hregs hframes hmem
              rw [hiff]
              exact ⟨fun h _ _ => h.2.2, fun h => ⟨hzf, hdf, h h0 hlt⟩⟩
            · rw [if_neg (fun h => hin h.2)]
              exact ⟨fun _ h0 hlt => absurd ⟨h0, hlt⟩ hin, fun _ => ⟨hzf, hdf, hstring⟩⟩
  · have hlift : (BitOp.test op).lift cfg i = liftBitPlace cfg op i x (.imm v) := by
      cases x with
      | imm u => exact hx.elim
      | _ => simp only [BitOp.lift, hops]
    obtain ⟨s', hrun, hzf, hdf, hlaw⟩ := place_law_iff op (i := i) (s := s) hcfg
      (y := .imm v) hx hw hle
    rw [hlift, exists_run_iff hrun]
    cases x with
    | imm u => exact hx.elim
    | _ => exact ⟨fun h => hlaw.mp h.2.2, fun h => ⟨hzf, hdf, hlaw.mpr h⟩⟩

/-! ### Scans and counts -/

def wordBits (w : Width) : ℕ := if w.bits = 64 then 64 else 32

theorem wordBits_eq {w : Width} (hw : w ≠ .b8) :
    ∃ k, wordBits w = w.bits + k ∧ (w = .b16 → k = 16) ∧ (w ≠ .b16 → k = 0) := by
  cases w with
  | b8 => exact absurd rfl hw
  | b16 => exact ⟨16, rfl, fun _ => rfl, fun h => absurd rfl h⟩
  | b32 | b64 => exact ⟨0, rfl, nofun, fun _ => rfl⟩

theorem helper_word {w : Width} {src : ℕ} (hsrc : src < w.size) {h64 h32 : String}
    {f : ℕ → ℕ → ℕ} (hf64 : ∀ x : Word, helper h64 [x] = .ok (BitVec.ofNat 64 (f 64 x.toNat)))
    (hf32 : ∀ x : Word, helper h32 [x] = .ok (BitVec.ofNat 64 (f 32 (x.toNat % 2 ^ 32)))) :
    helper (if w.bits = 64 then h64 else h32) [BitVec.ofNat 64 src] =
      .ok (BitVec.ofNat 64 (f (wordBits w) src)) := by
  have hnat : (BitVec.ofNat 64 src).toNat = src := by
    rw [BitVec.toNat_ofNat, Nat.mod_eq_of_lt (lt_of_lt_of_le hsrc w.size_le)]
  unfold wordBits
  split
  · rw [hf64, hnat]
  · rename_i h
    have hlt : src < 2 ^ 32 := by
      have hle : w.size ≤ 2 ^ 32 := by cases w <;> first | decide | exact absurd rfl h
      exact lt_of_lt_of_le hsrc hle
    rw [hf32, hnat, Nat.mod_eq_of_lt hlt]

theorem wrote_reg_iff (hcfg : cfg.bits = 32 ∨ cfg.bits = 64) {r : Register}
    (hr : r.width.bits ≤ cfg.bits) (hpos : r.pos + r.width.bits ≤ cfg.bits) (hs : Same s s₁)
    (u : Word) (n : ℕ) :
    Wrote cfg (.reg r) n s (written cfg (.reg r) u s₁) ↔
      u.toNat % r.width.size = n % r.width.size := by
  rw [← wrote_congr hs]
  have hbits : (∀ i < cfg.bits, ((written cfg (.reg r) u s₁).loc (.reg r.id)).getLsbD i =
      (s₁.cpu.write r n r.id).testBit i) ↔ u.toNat % r.width.size = n % r.width.size := by
    have hat : ∀ i < cfg.bits, (((written cfg (.reg r) u s₁).loc (.reg r.id)).getLsbD i =
        (s₁.cpu.write r n r.id).testBit i ↔
          (r.pos ≤ i → i < r.pos + r.width.bits →
            u.getLsbD (i - r.pos) = n.testBit (i - r.pos))) := by
      intro i hi
      show ((s₁.set (.reg r.id) _).loc (.reg r.id)).getLsbD i = _ ↔ _
      rw [set_loc_self, getLsbD_newReg hcfg hr _ _ hi, Cpu.testBit_write]
      by_cases hin : r.pos ≤ i ∧ i < r.pos + r.width.bits
      · rw [if_pos hin, if_pos hin]
        exact ⟨fun h _ _ => h, fun h => h hin.1 hin.2⟩
      · rw [if_neg hin, if_neg hin]
        refine ⟨fun _ h h' => absurd ⟨h, h'⟩ hin, fun _ => ?_⟩
        rw [State.cpu, BitVec.testBit_toNat]
    constructor
    · intro h
      apply Nat.eq_of_testBit_eq
      intro i
      rw [Width.size, Nat.testBit_mod_two_pow, Nat.testBit_mod_two_pow]
      by_cases hi : i < r.width.bits
      · have hbit := (hat (i + r.pos) (by omega)).mp (h _ (by omega)) (by omega) (by omega)
        rw [Nat.add_sub_cancel] at hbit
        rw [BitVec.testBit_toNat, hbit]
      · simp only [hi, decide_false, Bool.false_and]
    · intro h i hi
      rw [hat i hi]
      intro hge hlt
      have hbit := congrArg (Nat.testBit · (i - r.pos)) h
      rw [Width.size, Nat.testBit_mod_two_pow, Nat.testBit_mod_two_pow] at hbit
      have hin : i - r.pos < r.width.bits := by omega
      simpa only [hin, decide_true, Bool.true_and, BitVec.testBit_toNat] using hbit
  constructor
  · exact fun h => hbits.mp h.2.1
  · exact fun h => ⟨fun f hf => set_loc_of_ne (by simpa using hf), hbits.mpr h,
      fun d => set_reg_frame, rfl⟩

theorem run_count (hcfg : cfg.bits = 32 ∨ cfg.bits = 64) {x y : Operand} (hops : i.ops = [x, y])
    (henc : (∃ r, x = .reg r) ∧ y.isPlace ∧ y.width = x.width) (hw : x.width ≠ .b8)
    (hle : x.width.bits ≤ cfg.bits) (flag : FlagKind) (h64 h32 : String) (f : ℕ → ℕ → ℕ)
    (hf64 : ∀ x : Word, helper h64 [x] = .ok (BitVec.ofNat 64 (f 64 x.toNat)))
    (hf32 : ∀ x : Word, helper h32 [x] = .ok (BitVec.ofNat 64 (f 32 (x.toNat % 2 ^ 32))))
    (hf : ∀ n u, f n u ≤ n) :
    s.operand cfg y < x.width.size ∧
    ∃ s', run (liftBitCount cfg i flag h64 h32) s = .ok s' ∧
      s'.loc (.flag flag) = ofBool (s.operand cfg y = 0) ∧
      (∀ k, k ≠ flag → s'.loc (.flag k) = s.loc (.flag k)) ∧
      ∀ n, Wrote cfg x n s s' ↔
        f (wordBits x.width) (s.operand cfg y) % x.width.size = n % x.width.size := by
  obtain ⟨⟨r, rfl⟩, hy, hyw⟩ := henc
  obtain ⟨b, hb, hblt, hfits⟩ := opValue_fixed cfg y s
  have hopy : s.operand cfg y = b.toNat := operand_of_value (hb s (.refl s))
  have hlt : b.toNat < r.width.size := by
    have h := hblt hy
    rwa [hyw] at h
  refine ⟨by rw [hopy]; exact hlt, ?_⟩
  have hzero : value s (bin .eq (opValue cfg y) (konst 0)) = .ok (ofBool (b = 0)) :=
    value_eqZero (hb s (.refl s)) hfits
  obtain ⟨s₁, hs₁⟩ : ∃ s₁, s₁ = s.set (.flag flag) (ofBool (b = 0)) := ⟨_, rfl⟩
  have hsame : Same s s₁ := by
    rw [hs₁]
    exact ⟨rfl, fun _ => set_flag_reg, fun _ => set_flag_frame⟩
  have hpre : run [setFlag flag (bin .eq (opValue cfg y) (konst 0))] s = .ok s₁ := by
    rw [hs₁]
    exact run_set hzero
  obtain ⟨u, hu⟩ : ∃ u, u = BitVec.ofNat 64 (f (wordBits r.width) b.toNat) := ⟨_, rfl⟩
  have hcall : value s₁ (fcall (if r.width.bits = 64 then h64 else h32) [opValue cfg y]) =
      .ok u := by
    have hself : BitVec.ofNat 64 b.toNat = b := by
      rw [BitVec.ofNat_toNat, BitVec.setWidth_eq]
    have hhelper := helper_word hlt hf64 hf32
    rw [hself, ← hu] at hhelper
    simp only [fcall, value, values, hb s₁ hsame]
    exact hhelper
  have hunat : u.toNat = f (wordBits r.width) b.toNat := by
    have hle : f (wordBits r.width) b.toNat ≤ 64 :=
      le_trans (hf _ _) (by unfold wordBits; split <;> decide)
    rw [hu, BitVec.toNat_ofNat, Nat.mod_eq_of_lt (by omega)]
  have hpos : r.pos = 0 := by
    cases r with
    | gpr g w => rfl
    | high g => exact absurd rfl hw
  refine ⟨written cfg (.reg r) u s₁, ?_, ?_, ?_, fun n => ?_⟩
  · simp only [liftBitCount, hops]
    have ho : (Operand.reg r).isPlace := trivial
    rw [opWidth_place ho]
    exact run_finish_written ho hpre hcall
  · rw [written_flag, hs₁, set_loc_self, hopy]
    congr 2
    rw [eq_iff_iff]
    exact BitVec.toNat_eq.trans Iff.rfl
  · intro k hk
    rw [written_flag, hs₁]
    exact set_loc_of_ne (by simpa using hk)
  · rw [wrote_reg_iff hcfg hle (by rw [hpos, Nat.zero_add]; exact hle) hsame, hunat, hopy]
    rfl

theorem size_ge {w : Width} (hw : w ≠ .b8) : 2 ^ 16 ≤ w.size := by
  cases w <;> first | exact absurd rfl hw | decide

def scanned (g : ℕ → ℕ → ℕ) (none : ℕ → ℕ) (n u : ℕ) : ℕ := if u ≠ 0 then g n u else none n

theorem scanned_le {g : ℕ → ℕ → ℕ} {none : ℕ → ℕ} (hg : ∀ n u, g n u ≤ n) (hn : ∀ n, none n ≤ n)
    (n u : ℕ) : scanned g none n u ≤ n := by
  unfold scanned
  split
  · exact hg n u
  · exact hn n

section
variable (hcfg : cfg.bits = 32 ∨ cfg.bits = 64) {x y : Operand} (hops : i.ops = [x, y])
  (hxy : (∃ r, x = .reg r) ∧ y.isPlace ∧ y.width = x.width) (hw : x.width ≠ .b8)
  (hle : x.width.bits ≤ cfg.bits)
include hcfg hops hxy hw hle

theorem scan_law (h64 h32 : String) (g : ℕ → ℕ → ℕ)
    (hf64 : ∀ u : Word, helper h64 [u] = .ok (BitVec.ofNat 64 (scanned g (fun _ => 0) 64 u.toNat)))
    (hf32 : ∀ u : Word,
      helper h32 [u] = .ok (BitVec.ofNat 64 (scanned g (fun _ => 0) 32 (u.toNat % 2 ^ 32))))
    (hg : ∀ n u, g n u ≤ n)
    (hadd : ∀ k src, src < x.width.size → src ≠ 0 →
      g (x.width.bits + k) src = g x.width.bits src) :
    ∃ s', run (liftBitCount cfg i .zf h64 h32) s = .ok s' ∧
      s'.loc (.flag .df) = s.loc (.flag .df) ∧
      s'.loc (.flag .zf) = ofBool (s.operand cfg y = 0) ∧
      ∃ v, Wrote cfg x v s s' ∧ (s.operand cfg y ≠ 0 → v = g x.width.bits (s.operand cfg y)) := by
  obtain ⟨hlt, s', hrun, hzf, hother, hwrote⟩ := run_count hcfg hops hxy hw hle .zf (s := s)
    h64 h32 _ hf64 hf32 (scanned_le hg fun _ => Nat.zero_le _)
  obtain ⟨k, hk, -, -⟩ := wordBits_eq hw
  refine ⟨s', hrun, hother _ (by decide), hzf, _, (hwrote _).mpr rfl, fun h0 => ?_⟩
  rw [scanned, if_pos h0, hk, hadd k _ hlt h0]

theorem tzcnt_law_iff : (∃ s', run (BitOp.tzcnt.lift cfg i) s = .ok s' ∧
    BitOp.tzcnt.Law cfg x y s s') ↔ BitOp.tzcnt.Sound cfg x y s := by
  have hbits := x.width.bits_pos
  obtain ⟨hlt, s', hrun, hcf, hother, hwrote⟩ := run_count hcfg hops hxy hw hle .cf (s := s)
    "__ix_tzcnt64" "__ix_tzcnt32" (scanned BitScan.low id)
    (fun u => by rw [← Nat.mod_eq_of_lt u.isLt]; rfl) (fun _ => rfl)
    (scanned_le (fun _ _ => BitScan.low_le) fun _ => le_rfl)
  rw [BitOp.lift, exists_run_iff hrun]
  obtain ⟨k, hk, h16, hno⟩ := wordBits_eq hw
  -- Of zero, the helper counts the zeros of its own word.
  have hcount : scanned BitScan.low id (wordBits x.width) (s.operand cfg y) % x.width.size =
      BitScan.low x.width.bits (s.operand cfg y) % x.width.size ↔
        (x.width = .b16 → s.operand cfg y ≠ 0) := by
    by_cases h0 : s.operand cfg y = 0
    · rw [scanned, if_neg (not_not.mpr h0), h0, BitScan.low_zero, hk, id]
      by_cases hw16 : x.width = .b16
      · rw [h16 hw16, hw16]
        decide
      · rw [hno hw16]
        exact ⟨fun _ h => absurd h hw16, fun _ => rfl⟩
    · rw [scanned, if_pos h0, hk, BitScan.low_add k hlt h0]
      exact ⟨fun _ _ => h0, fun _ => rfl⟩
  simp only [BitOp.Law, BitOp.Sound, hwrote, hcount, hother .zf (by decide),
    hother .df (by decide), hcf, BitScan.low_eq_zero hbits, Bool.decide_eq_true, true_and]

theorem lzcnt_law_iff : (∃ s', run (BitOp.lzcnt.lift cfg i) s = .ok s' ∧
    BitOp.lzcnt.Law cfg x y s s') ↔ BitOp.lzcnt.Sound cfg x y s := by
  have hbits := x.width.bits_pos
  obtain ⟨hlt, s', hrun, hcf, hother, hwrote⟩ := run_count hcfg hops hxy hw hle .cf (s := s)
    "__ix_lzcnt64" "__ix_lzcnt32" (scanned BitScan.high id)
    (fun u => by rw [← Nat.mod_eq_of_lt u.isLt]; rfl) (fun _ => rfl)
    (scanned_le (fun _ _ => BitScan.high_le) fun _ => le_rfl)
  rw [BitOp.lift, exists_run_iff hrun]
  obtain ⟨k, hk, h16, hno⟩ := wordBits_eq hw
  have hword : scanned BitScan.high id (wordBits x.width) (s.operand cfg y) =
      BitScan.high x.width.bits (s.operand cfg y) + k := by
    by_cases h0 : s.operand cfg y = 0
    · rw [scanned, if_neg (not_not.mpr h0), h0, BitScan.high_zero, hk, id]
    · rw [scanned, if_pos h0, hk, BitScan.high_add k hlt]
  have hcount : scanned BitScan.high id (wordBits x.width) (s.operand cfg y) % x.width.size =
      BitScan.high x.width.bits (s.operand cfg y) % x.width.size ↔ x.width ≠ .b16 := by
    have hsize := size_ge hw
    have hhigh := @BitScan.high_le x.width.bits (s.operand cfg y)
    have h64 := x.width.bits_le
    rw [hword]
    by_cases hw16 : x.width = .b16
    · have h16' := h16 hw16
      rw [Nat.mod_eq_of_lt (by omega), Nat.mod_eq_of_lt (by omega)]
      exact ⟨fun h => by omega, fun h => absurd hw16 h⟩
    · rw [hno hw16]
      exact ⟨fun _ => hw16, fun _ => rfl⟩
  simp only [BitOp.Law, BitOp.Sound, hwrote, hcount, hother .zf (by decide),
    hother .df (by decide), hcf, BitScan.high_eq_zero hbits, Bool.decide_eq_true, true_and]

theorem popcnt_law_iff : (∃ s', run (BitOp.popcnt.lift cfg i) s = .ok s' ∧
    BitOp.popcnt.Law cfg x y s s') ↔ BitOp.popcnt.Sound cfg x y s := by
  obtain ⟨hlt, s', hrun, hzf, hother, hwrote⟩ := run_count hcfg hops hxy hw hle .zf (s := s)
    "__ix_popcnt64" "__ix_popcnt32" BitScan.ones (fun _ => rfl) (fun _ => rfl)
    (fun _ _ => BitScan.ones_le)
  rw [BitOp.lift, exists_run_iff hrun]
  obtain ⟨k, hk, -, -⟩ := wordBits_eq hw
  have hcount : BitScan.ones (wordBits x.width) (s.operand cfg y) % x.width.size =
      BitScan.ones x.width.bits (s.operand cfg y) % x.width.size := by
    rw [hk, BitScan.ones_add k hlt]
  simp only [BitOp.Law, BitOp.Sound, hwrote, hcount, hother .cf (by decide),
    hother .of (by decide), hother .sf (by decide), hother .pf (by decide),
    hother .af (by decide), hother .df (by decide), hzf, true_and, and_true]

end

/-- What the instructions leave, and where that is what the processor leaves. -/
theorem bits_exact_iff (cfg : Config) (hcfg : cfg.bits = 32 ∨ cfg.bits = 64) (op : BitOp) (i : Insn)
    {x y : Operand} (hops : i.ops = [x, y]) (henc : op.Encodable cfg x y) (s : State) :
    (∃ s', run (op.lift cfg i) s = .ok s' ∧ op.Law cfg x y s s') ↔ op.Sound cfg x y s := by
  cases op with
  | test op => exact test_law_iff hcfg hops henc
  | bsf =>
      obtain ⟨-, hw, hle, hxy⟩ := henc
      obtain ⟨s', hrun, hlaw⟩ := scan_law (s := s) hcfg hops hxy hw hle
        "__ix_bsf64" "__ix_bsf32" BitScan.low
        (fun u => by rw [← Nat.mod_eq_of_lt u.isLt]; rfl) (fun _ => rfl)
        (fun _ _ => BitScan.low_le) (fun k src hlt h0 => BitScan.low_add k hlt h0)
      exact ⟨fun _ => trivial, fun _ => ⟨s', hrun, hlaw⟩⟩
  | bsr =>
      obtain ⟨-, hw, hle, hxy⟩ := henc
      obtain ⟨s', hrun, hlaw⟩ := scan_law (s := s) hcfg hops hxy hw hle
        "__ix_bsr64" "__ix_bsr32" (fun n u => n - 1 - BitScan.high n u)
        (fun u => by rw [← Nat.mod_eq_of_lt u.isLt]; rfl) (fun _ => rfl)
        (fun n u => by omega)
        (fun k src hlt _ => by
          have hbits := x.width.bits_pos
          rw [BitScan.high_add k hlt]
          omega)
      exact ⟨fun _ => trivial, fun _ => ⟨s', hrun, hlaw⟩⟩
  | tzcnt => exact tzcnt_law_iff hcfg hops henc.2.2.2 henc.2.1 henc.2.2.1
  | lzcnt => exact lzcnt_law_iff hcfg hops henc.2.2.2 henc.2.1 henc.2.2.1
  | popcnt => exact popcnt_law_iff hcfg hops henc.2.2.2 henc.2.1 henc.2.2.1

end

/-- The operands `eax` and `ebx`, or their low words. -/
def axBx (w : Width) : Insn where
  mnemonic := .test
  ops := [.reg (.gpr 0 w), .reg (.gpr 3 w)]
  address := 0x401000
  text := ""
  reads := []
  writes := []

/-- `ebx` is `v`, and `zf` is set. -/
def holding (v : Word) : State :=
  ⟨fun l => if l = .reg 3 then v else if l = .flag .zf then 1 else 0, fun _ => 0⟩

theorem encodable_axBx (op : BitOp) {w : Width} (hw : w ≠ .b8) :
    op.Encodable ⟨64, false⟩ (.reg (.gpr 0 w)) (.reg (.gpr 3 w)) := by
  have hnative : ∀ r, (Operand.reg r).Native ⟨64, false⟩ := fun r m h => nomatch h
  refine ⟨⟨hnative _, hnative _⟩, hw, w.bits_le, ?_⟩
  cases op with
  | test op => exact ⟨trivial, .inl ⟨_, rfl, rfl⟩⟩
  | _ => exact ⟨⟨_, rfl⟩, trivial, rfl⟩

theorem bits_exact_iff_btc :
    ∃ s', run ((BitOp.test .btc).lift ⟨64, false⟩ (axBx .b32)) (holding 1) = .ok s' ∧
      (BitOp.test .btc).Law ⟨64, false⟩ (.reg (.gpr 0 .b32)) (.reg (.gpr 3 .b32)) (holding 1) s' :=
  (bits_exact_iff ⟨64, false⟩ (.inr rfl) (.test .btc) (axBx .b32) rfl (encodable_axBx _ nofun)
    (holding 1)).mpr (.inr trivial)

/-- `lzcnt ax, bx` of a word with its top bit set counts 16 zeros. -/
theorem bits_exact_not : BitOp.lzcnt.Encodable ⟨64, false⟩ (.reg (.gpr 0 .b16)) (.reg (.gpr 3 .b16)) ∧
    ¬ ∃ s', run (BitOp.lzcnt.lift ⟨64, false⟩ (axBx .b16)) (holding 0x8000) = .ok s' ∧
      BitOp.lzcnt.Law ⟨64, false⟩ (.reg (.gpr 0 .b16)) (.reg (.gpr 3 .b16)) (holding 0x8000) s' := by
  refine ⟨encodable_axBx _ nofun, ?_⟩
  rintro ⟨s', hrun, -, -, -, hwrote⟩
  have hbit := hwrote.2.1 4 (by decide)
  have hspec : ((holding 0x8000).cpu.write (.gpr 0 .b16) (BitScan.high 16
      ((holding 0x8000).operand ⟨64, false⟩ (.reg (.gpr 3 .b16)))) 0).testBit 4 = false := by
    decide +kernel
  have hmade : ((run (BitOp.lzcnt.lift ⟨64, false⟩ (axBx .b16)) (holding 0x8000)).map fun s =>
      (s.loc (.reg 0)).getLsbD 4) = .ok true := by decide +kernel
  rw [hrun] at hmade
  exact absurd ((Except.ok.inj hmade).symm.trans (hbit.trans hspec)) (by decide)

end Aret.Lift
