/-
Folding keeps the value of an expression.

* `fold_keeps_value` — an expression in which every node folds well.
-/
import Aret.Fold

namespace Aret

open Lift (Word ofBool ofBool_inj ofBool_or)

section
variable {v : Valuation} {op : BinOp} {a b r : Expr} {x y : ℤ}

theorem eval_of_isConst (h : a.isConst = some x) : a.eval v = BitVec.ofInt 64 x := by
  cases a with
  | const c ty =>
      cases h
      rfl
  | _ => cases h

/-! ### The rules -/

theorem tryMagicUdiv_some {t : ℤ} (h : tryMagicUdiv a t = some r) :
    ∃ (e : Expr) (m d n : ℕ), t = n ∧ r = .binary .udiv e (.const d (.ofBits 32)) ∧
      (∀ v, a.peelCast.eval v = e.eval v * BitVec.ofNat 64 m) ∧
      32 ≤ n ∧ n ≤ 63 ∧ 2 ≤ d ∧ d < 2 ^ 32 ∧ magicu32 d = some (m, n - 32, false) := by
  unfold tryMagicUdiv at h
  split at h
  · cases h
  rename_i ht
  split at h
  · rename_i p q hpeel
    split at h
    · rename_i e m hfactor
      split at h
      · cases h
      rename_i hm
      obtain ⟨d, hd, rfl⟩ := Option.map_eq_some_iff.mp h
      have hfound : 2 ≤ d ∧ d ≤ 0xffffffff ∧
          magicu32 d = some (m.toNat, t.toNat - 32, false) := by
        unfold magicDivisor at hd
        have hprop := List.find?_some hd
        exact of_decide_eq_true hprop
      obtain ⟨n, rfl⟩ : ∃ n : ℕ, t = n := ⟨t.toNat, by omega⟩
      obtain ⟨k, rfl⟩ : ∃ k : ℕ, m = k := ⟨m.toNat, by omega⟩
      rw [Int.toNat_natCast, Int.toNat_natCast] at hfound
      refine ⟨e, k, d, n, rfl, rfl, fun v => ?_, by omega, by omega, hfound.1, by omega,
        hfound.2.2⟩
      rw [hpeel]
      show p.eval v * q.eval v = _
      unfold magicFactor at hfactor
      split at hfactor
      · rename_i m' hq
        cases hfactor
        rw [eval_of_isConst hq, Lift.ofInt_nat]
      · obtain ⟨m', hp, heq⟩ := Option.map_eq_some_iff.mp hfactor
        cases heq
        rw [eval_of_isConst hp, Lift.ofInt_nat, BitVec.mul_comm]
    · cases h
  · cases h

theorem magic_word {w : Word} {m d n : ℕ} (hw : w.toNat < 2 ^ 32) (hn : 32 ≤ n)
    (hd : 2 ≤ d) (hd32 : d < 2 ^ 32) (h : magicu32 d = some (m, n - 32, false)) :
    w / BitVec.ofNat 64 d = (w * BitVec.ofNat 64 m) >>> n := by
  obtain ⟨hm, hdiv⟩ := magicu32_spec hd hd32 h
  have hprod : w.toNat * m ≤ (2 ^ 32 - 1) * (2 ^ 32 - 1) := Nat.mul_le_mul (by omega) (by omega)
  apply BitVec.eq_of_toNat_eq
  rw [BitVec.toNat_udiv, BitVec.toNat_ushiftRight, BitVec.toNat_mul, BitVec.toNat_ofNat,
    BitVec.toNat_ofNat, Nat.shiftRight_eq_div_pow, Nat.mod_eq_of_lt (show d < 2 ^ 64 by omega),
    Nat.mod_eq_of_lt (show m < 2 ^ 64 by omega), Nat.mod_eq_of_lt (by omega), ← hdiv _ hw,
    Nat.sub_add_cancel hn]

theorem magicRule_sound (hwell : NodeFoldsWell v op a b) (h : magicRule op a b = some r) :
    r.eval v = op.word (a.eval v) (b.eval v) := by
  unfold magicRule at h
  split at h
  · rename_i t ht
    obtain ⟨e, m, d, n, rfl, rfl, hpeel, hn, hn63, hd, hd32, hmagic⟩ := tryMagicUdiv_some h
    obtain ⟨hnarrow, hcast⟩ := hwell _ _ _ ht h
    have hshift : (BitVec.ofInt 64 (n : ℤ)).toNat = n := by
      rw [Lift.ofInt_nat, BitVec.toNat_ofNat, Nat.mod_eq_of_lt (by omega)]
    show e.eval v / BitVec.ofInt 64 (d : ℤ) = a.eval v >>> (b.eval v).toNat
    rw [hcast, hpeel, eval_of_isConst ht, hshift, Lift.ofInt_nat]
    exact magic_word hnarrow hn hd hd32 hmagic
  · cases h

theorem setWidth_ofInt_128 (x : ℤ) : (BitVec.ofInt 128 x).setWidth 64 = BitVec.ofInt 64 x := by
  apply BitVec.eq_of_toNat_eq
  rw [BitVec.toNat_setWidth, BitVec.toNat_ofInt, BitVec.toNat_ofInt]
  omega

theorem ofInt_i128 {f : BitVec 128 → BitVec 128 → BitVec 128} {g : Word → Word → Word}
    (hf : ∀ x y, (f x y).setWidth 64 = g (x.setWidth 64) (y.setWidth 64)) (x y : ℤ) :
    BitVec.ofInt 64 (i128 f x y) = g (BitVec.ofInt 64 x) (BitVec.ofInt 64 y) := by
  have hext : ∀ z : BitVec 128, BitVec.ofInt 64 z.toInt = z.setWidth 64 := fun z =>
    BitVec.signExtend_eq_setWidth_of_le z (by decide)
  rw [i128, hext, hf, setWidth_ofInt_128, setWidth_ofInt_128]

theorem constantRule_sound (hwell : NodeFoldsWell v op a b) (h : constantRule op a b = some r) :
    r.eval v = op.word (a.eval v) (b.eval v) := by
  unfold constantRule at h
  split at h
  · rename_i x y hx hy
    obtain ⟨c, hc, rfl⟩ := Option.map_eq_some_iff.mp h
    rw [eval_of_isConst hx, eval_of_isConst hy]
    show BitVec.ofInt 64 c = _
    cases op with
    | and =>
        cases hc
        exact ofInt_i128 (g := (· &&& ·)) (fun _ _ => BitVec.setWidth_and) x y
    | or =>
        cases hc
        exact ofInt_i128 (g := (· ||| ·)) (fun _ _ => BitVec.setWidth_or) x y
    | xor =>
        cases hc
        exact ofInt_i128 (g := (· ^^^ ·)) (fun _ _ => BitVec.setWidth_xor) x y
    | eq =>
        cases hc
        have hapart := hwell x y hx hy
        show _ = ofBool _
        by_cases heq : x = y
        · simp [heq, ofBool]
        · simp [heq, hapart heq, ofBool]
    | ne =>
        cases hc
        have hapart := hwell x y hx hy
        show _ = ofBool _
        by_cases heq : x = y
        · simp [heq, ofBool]
        · simp [heq, hapart heq, ofBool]
    | _ => cases hc
  · cases h

theorem identityRule_sound (h : identityRule op a b = some r) :
    r.eval v = op.word (a.eval v) (b.eval v) := by
  have hzero : ∀ {e : Expr}, e.isConst = some 0 → e.eval v = 0 := fun he => eval_of_isConst he
  have hone : ∀ {e : Expr}, e.isConst = some 1 → e.eval v = 1 := fun he => eval_of_isConst he
  have hconst : (Expr.const 0 i32Ty).eval v = 0 := rfl
  cases op with
  | add | or | xor =>
      simp only [identityRule] at h
      split at h
      · rename_i hb
        cases h
        simp [BinOp.word, hzero hb]
      split at h
      · rename_i ha
        cases h
        simp [BinOp.word, hzero ha]
      · cases h
  | sub =>
      simp only [identityRule] at h
      split at h
      · rename_i hb
        cases h
        simp [BinOp.word, hzero hb]
      · cases h
  | mul =>
      simp only [identityRule] at h
      split at h
      · rename_i hb
        cases h
        simp [BinOp.word, hone hb]
      split at h
      · rename_i ha
        cases h
        simp [BinOp.word, hone ha]
      split at h
      · rename_i hab
        cases h
        rcases hab with ha | hb
        · simp [BinOp.word, hzero ha, hconst]
        · simp [BinOp.word, hzero hb, hconst]
      · cases h
  | and =>
      simp only [identityRule] at h
      split at h
      · rename_i hab
        cases h
        rcases hab with hb | ha
        · simp [BinOp.word, hzero hb, hconst]
        · simp [BinOp.word, hzero ha, hconst]
      split at h
      · -- A mask of a mask.
        rename_i x c1 c2 hc2 _
        obtain ⟨k, hk, rfl⟩ := Option.map_eq_some_iff.mp h
        show x.eval v &&& BitVec.ofInt 64 _ = (x.eval v &&& c1.eval v) &&& b.eval v
        rw [ofInt_i128 (g := (· &&& ·)) (fun _ _ => BitVec.setWidth_and), eval_of_isConst hk,
          eval_of_isConst hc2, BitVec.and_assoc]
      · cases h
  | _ => cases h

theorem word_negateRel {inner neg : BinOp} (h : inner.negateRel = some neg) (x y : Word) :
    neg.word x y = ofBool (inner.word x y = 0) := by
  have hnot : ∀ p : Bool, ofBool p = 0#64 ↔ p = false := by decide
  cases inner <;> cases h <;> simp [BinOp.word, hnot]

theorem notRule_sound (h : notRule op a b = some r) :
    r.eval v = op.word (a.eval v) (b.eval v) := by
  unfold notRule at h
  split at h
  · rename_i inner x y
    split at h
    · rename_i hb
      obtain ⟨neg, hneg, rfl⟩ := Option.map_eq_some_iff.mp h
      have hzero : b.eval v = 0 := eval_of_isConst hb
      show neg.word (x.eval v) (y.eval v) = ofBool (inner.word (x.eval v) (y.eval v) = b.eval v)
      rw [hzero, word_negateRel hneg]
    · cases h
  · cases h

theorem signedLt_word (x y : Word) :
    ofBool (x.toInt < y.toInt) =
      ofBool (ofBool ((x - y).toInt < (0 : Word).toInt) ≠
        (ofBool (ofBool (x.toInt < (0 : Word).toInt) ≠ ofBool (y.toInt < (0 : Word).toInt)) &&&
          ofBool (ofBool ((x - y).toInt < (0 : Word).toInt) ≠
            ofBool (x.toInt < (0 : Word).toInt)))) := by
  have hx := x.toInt_lt
  have hx' := x.le_toInt
  have hy := y.toInt_lt
  have hy' := y.le_toInt
  have hsub : (x - y).toInt = (x.toInt - y.toInt).bmod (2 ^ 64) := BitVec.toInt_sub
  have hzero : (0 : Word).toInt = 0 := rfl
  have hneg : ((x - y).toInt < 0) ↔
      (x.toInt - y.toInt < 0 ∧ -2 ^ 63 ≤ x.toInt - y.toInt) ∨ 2 ^ 63 ≤ x.toInt - y.toInt := by
    rw [hsub, Int.bmod_def]
    split <;> omega
  have hne : ∀ (p q : Prop) [Decidable p] [Decidable q],
      ofBool (decide p) ≠ ofBool (decide q) ↔ ¬ (p ↔ q) := by
    intro p q _ _
    rw [ne_eq, ofBool_inj, decide_eq_decide]
  rw [Lift.ofBool_and, ← Bool.decide_and, ofBool_inj, decide_eq_decide, hzero]
  simp only [hne, hneg]
  omega

theorem matchSignedLt_some {sf of : Expr} {p : Expr × Expr} (h : matchSignedLt sf of = some p) :
    ofBool ((p.1.eval v).toInt < (p.2.eval v).toInt) = ofBool (sf.eval v ≠ of.eval v) := by
  unfold matchSignedLt at h
  split at h
  · rename_i x y z ty e₁ e₂
    dsimp only at h
    split at h
    · rename_i hshape
      obtain ⟨rfl, rfl, rfl⟩ := hshape
      cases h
      exact signedLt_word (x.eval v) (y.eval v)
    · cases h
  · cases h

theorem signedLtRule_sound (h : signedLtRule op a b = some r) :
    r.eval v = op.word (a.eval v) (b.eval v) := by
  unfold signedLtRule at h
  split at h
  · obtain ⟨p, hp, rfl⟩ := Option.map_eq_some_iff.mp h
    rcases (Option.orElse_eq_some _ _ _).mp hp with hab | ⟨-, hba⟩
    · exact matchSignedLt_some hab
    · refine (matchSignedLt_some hba).trans ?_
      exact congrArg ofBool (decide_eq_decide.mpr ne_comm)
  · cases h

theorem word_merge (x y : Word) :
    BinOp.ult.word x y ||| BinOp.eq.word x y = BinOp.ule.word x y ∧
      BinOp.slt.word x y ||| BinOp.eq.word x y = BinOp.sle.word x y := by
  have hnat : x = y ↔ x.toNat = y.toNat := BitVec.toNat_inj.symm
  have hint : x = y ↔ x.toInt = y.toInt := BitVec.toInt_inj.symm
  constructor
  · show ofBool _ ||| ofBool _ = ofBool _
    rw [ofBool_or, ← Bool.decide_or, ofBool_inj, decide_eq_decide, hnat]
    omega
  · show ofBool _ ||| ofBool _ = ofBool _
    rw [ofBool_or, ← Bool.decide_or, ofBool_inj, decide_eq_decide, hint]
    omega

theorem mergeWith_sound {lo hi : BinOp}
    (hword : ∀ x y : Word, lo.word x y ||| BinOp.eq.word x y = hi.word x y)
    (h : mergeWith a b lo hi = some r) : r.eval v = a.eval v ||| b.eval v := by
  unfold mergeWith at h
  split at h
  · rename_i o x1 y1 o' x2 y2
    split at h
    · rename_i hshape
      obtain ⟨hops, rfl, rfl⟩ := hshape
      cases h
      rcases hops with ⟨rfl, rfl⟩ | ⟨rfl, rfl⟩
      · exact (hword _ _).symm
      · exact (hword _ _).symm.trans (BitVec.or_comm ..)
    · cases h
  · cases h

theorem mergeRule_sound (h : mergeRule op a b = some r) :
    r.eval v = op.word (a.eval v) (b.eval v) := by
  unfold mergeRule at h
  split at h
  · rcases (Option.orElse_eq_some _ _ _).mp h with hunsigned | ⟨-, hsigned⟩
    · exact mergeWith_sound (fun x y => (word_merge x y).1) hunsigned
    · exact mergeWith_sound (fun x y => (word_merge x y).2) hsigned
  · cases h

theorem equalRule_sound (h : equalRule op a b = some r) :
    r.eval v = op.word (a.eval v) (b.eval v) := by
  have hone : (Expr.const 1 i32Ty).eval v = 1 := rfl
  have hzero : (Expr.const 0 i32Ty).eval v = 0 := rfl
  unfold equalRule at h
  split at h
  · rename_i hab
    subst hab
    cases op <;> cases h <;> simp [BinOp.word, hone, hzero, ofBool]
  · cases h

/-! ### Nodes and expressions -/

theorem eval_foldBinary (hwell : NodeFoldsWell v op a b) :
    (foldBinary op a b).eval v = op.word (a.eval v) (b.eval v) := by
  unfold foldBinary
  cases hrule : (magicRule op a b <|> constantRule op a b <|> identityRule op a b <|>
      notRule op a b <|> signedLtRule op a b <|> mergeRule op a b <|> equalRule op a b) with
  | none => rfl
  | some r =>
      show r.eval v = _
      simp only [Option.orElse_eq_some] at hrule
      rcases hrule with h | ⟨-, h | ⟨-, h | ⟨-, h | ⟨-, h | ⟨-, h | ⟨-, h⟩⟩⟩⟩⟩⟩
      · exact magicRule_sound hwell h
      · exact constantRule_sound hwell h
      · exact identityRule_sound h
      · exact notRule_sound h
      · exact signedLtRule_sound h
      · exact mergeRule_sound h
      · exact equalRule_sound h

mutual

theorem eval_fold (v : Valuation) : ∀ e : Expr, e.FoldsWell v → e.fold.eval v = e.eval v
  | .unary op x, h => by
      show v.unary op (x.fold.eval v) = v.unary op (x.eval v)
      rw [eval_fold v x h]
  | .cast ty x, h => by
      show v.cast ty (x.fold.eval v) = v.cast ty (x.eval v)
      rw [eval_fold v x h]
  | .load a ty, h => by
      show v.mem (a.fold.eval v) ty = v.mem (a.eval v) ty
      rw [eval_fold v a h]
  | .binary op a b, h => by
      show (foldBinary op a.fold b.fold).eval v = op.word (a.eval v) (b.eval v)
      rw [eval_foldBinary h.2.2, eval_fold v a h.1, eval_fold v b h.2.1]
  | .call target args ret, h => by
      have hargs := evals_folds v args h
      cases target <;> simp only [Expr.fold, Expr.eval, hargs]
  | .select c t e, h => by
      obtain ⟨hc, hbranch⟩ := h
      have hcond := eval_fold v c hc
      show (match c.fold.isConst with
        | some k => if k = 0 then e.fold else t.fold
        | none => .select c.fold t.fold e.fold : Expr).eval v =
          if c.eval v ≠ 0 then t.eval v else e.eval v
      cases hconst : c.fold.isConst with
      | none =>
          rw [hconst] at hbranch
          show (if c.fold.eval v ≠ 0 then t.fold.eval v else e.fold.eval v) = _
          rw [hcond, eval_fold v t hbranch.1, eval_fold v e hbranch.2]
      | some k =>
          rw [hconst] at hbranch
          rw [eval_of_isConst hconst] at hcond
          show (if k = 0 then e.fold else t.fold : Expr).eval v = _
          -- The branch that is kept is the one that the word selects.
          by_cases hk : k = 0
          · have he := hbranch.2
            rw [if_pos hk] at he
            have hzero : c.eval v = 0 := by rw [← hcond, hk]; rfl
            rw [if_neg (not_not.mpr hzero), if_pos hk, eval_fold v e he]
          · have ht := hbranch.2
            rw [if_neg hk] at ht
            have hne : c.eval v ≠ 0 := by
              rw [← hcond]
              exact hbranch.1 hk
            rw [if_pos hne, if_neg hk, eval_fold v t ht]
  | .const _ _, _ | .read _, _ | .use _, _ | .addr _, _ | .phi _, _ | .undef, _ => rfl

theorem evals_folds (v : Valuation) : ∀ es : List Expr, Expr.AllFoldWell v es →
    Expr.evals v (Expr.folds es) = Expr.evals v es
  | [], _ => rfl
  | e :: es, h => by
      show e.fold.eval v :: Expr.evals v (Expr.folds es) = e.eval v :: Expr.evals v es
      rw [eval_fold v e h.1, evals_folds v es h.2]

end

/-- An expression in which every node folds well keeps its value; two constants that are compared
keep theirs exactly where they are apart. -/
theorem fold_keeps_value (v : Valuation) :
    (∀ e : Expr, e.FoldsWell v → e.fold.eval v = e.eval v) ∧
      ∀ op x y tx ty, op = BinOp.eq ∨ op = BinOp.ne →
        ((Expr.binary op (.const x tx) (.const y ty)).fold.eval v =
          (Expr.binary op (.const x tx) (.const y ty)).eval v ↔ Apart x y) := by
  refine ⟨eval_fold v, ?_⟩
  intro op x y tx ty hop
  constructor
  · intro h hne heq
    have hfold : (Expr.binary op (.const x tx) (.const y ty)).fold =
        .const (if op = .eq then 0 else 1) i32Ty := by
      rcases hop with rfl | rfl <;>
        simp [Expr.fold, foldBinary, magicRule, constantRule, foldConsts, Expr.isConst, hne]
    have heval : (Expr.binary op (.const x tx) (.const y ty)).eval v =
        if op = .eq then 1 else 0 := by
      rcases hop with rfl | rfl <;> simp [Expr.eval, BinOp.word, heq, ofBool]
    rw [hfold, heval] at h
    rcases hop with rfl | rfl
    · exact absurd h (by show ¬ BitVec.ofInt 64 0 = 1; decide)
    · exact absurd h (by show ¬ BitVec.ofInt 64 1 = 0; decide)
  · intro hapart
    apply eval_fold v
    refine ⟨trivial, trivial, ?_⟩
    rcases hop with rfl | rfl
    · rintro _ _ ⟨⟩ ⟨⟩
      exact hapart
    · rintro _ _ ⟨⟩ ⟨⟩
      exact hapart

end

def tenth : Expr := .binary .shr (.binary .mul (.use 0) (.konst 0xcccccccd 64)) (.konst 35 64)

def allAre (w : Word) : Valuation where
  use _ := w
  loc _ := w
  mem _ _ := w
  addr _ := w
  phi _ := w
  undef := w
  unary _ x := x
  cast _ x := x
  call _ _ _ := w

theorem fold_tenth : tenth.fold = .binary .udiv (.use 0) (.const 10 (.ofBits 32)) := by
  decide +kernel

theorem foldsWell_tenth : tenth.FoldsWell (allAre 1234) := by
  refine ⟨⟨trivial, trivial, trivial⟩, trivial, ?_⟩
  intro t x d ht hmagic
  have hrule : tryMagicUdiv (.binary .mul (.use 0) (.konst 0xcccccccd 64)) 35 =
      some (.binary .udiv (.use 0) (.const 10 (.ofBits 32))) := by decide +kernel
  cases ht
  rw [show (Expr.binary .mul (.use 0) (.konst 0xcccccccd 64)).fold =
    .binary .mul (.use 0) (.konst 0xcccccccd 64) by decide +kernel, hrule] at hmagic
  cases hmagic
  exact ⟨by decide, rfl⟩

theorem fold_keeps_value_tenth : tenth.fold.eval (allAre 1234) = tenth.eval (allAre 1234) :=
  (fold_keeps_value (allAre 1234)).1 tenth foldsWell_tenth

/-- The largest word is not divided by ten that way. -/
theorem fold_keeps_value_not : tenth.fold.eval (allAre (-1)) ≠ tenth.eval (allAre (-1)) := by
  rw [fold_tenth]
  decide +kernel

end Aret
