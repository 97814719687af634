/-
Folding a function and what a run shows.

Design notes: operators are those of words of 64 bits, which look at the values of their
operands only, and not at how these are written.
-/
import Aret.DeadCode
import Aret.FoldSound

namespace Aret

open Lift (Word)

/-! ### Properties that folding keeps -/

/-- A property of an expression that its parts share, whatever the operators, and that constants
have. -/
structure Hereditary (P : Expr → Prop) : Prop where
  const : ∀ c ty, P (.const c ty)
  unary : ∀ {op x}, P (.unary op x) ↔ P x
  cast : ∀ {ty x}, P (.cast ty x) ↔ P x
  load : ∀ {a ty}, P (.load a ty) ↔ P a
  binary : ∀ {op a b}, P (.binary op a b) ↔ P a ∧ P b
  select : ∀ {c t e}, P (.select c t e) ↔ P c ∧ P t ∧ P e
  args : ∀ {t args ret}, P (.call t args ret) → ∀ e ∈ args, P e
  call : ∀ {t args args' ret}, P (.call t args ret) → (∀ e ∈ args', P e) → P (.call t args' ret)

namespace Hereditary

theorem peelCast {P : Expr → Prop} (hP : Hereditary P) : ∀ e : Expr, P e → P e.peelCast
  | .cast _ x, h => peelCast hP x (hP.cast.mp h)
  | .const .., h | .read _, h | .use _, h | .load .., h | .unary .., h | .binary .., h
  | .addr _, h | .call .., h | .select .., h | .phi _, h | .undef, h => h

variable {P : Expr → Prop} (hP : Hereditary P) {op : BinOp} {a b r : Expr}
include hP

theorem magicRule (ha : P a) (h : Aret.magicRule op a b = some r) : P r := by
  unfold Aret.magicRule at h
  split at h
  · unfold tryMagicUdiv at h
    split_ifs at h
    split at h
    · rename_i p q hpeel
      obtain ⟨hp, hq⟩ := hP.binary.mp (hpeel ▸ hP.peelCast a ha)
      split at h
      · rename_i e m hfactor
        split_ifs at h
        obtain ⟨d, -, rfl⟩ := Option.map_eq_some_iff.mp h
        refine hP.binary.mpr ⟨?_, hP.const _ _⟩
        -- The factor is one side of the product.
        unfold magicFactor at hfactor
        split at hfactor
        · cases hfactor
          exact hp
        · obtain ⟨m', -, heq⟩ := Option.map_eq_some_iff.mp hfactor
          cases heq
          exact hq
      · cases h
    · cases h
  · cases h

theorem constantRule (h : Aret.constantRule op a b = some r) : P r := by
  unfold Aret.constantRule at h
  split at h
  · obtain ⟨c, -, rfl⟩ := Option.map_eq_some_iff.mp h
    exact hP.const _ _
  · cases h

theorem identityRule (ha : P a) (hb : P b) (h : Aret.identityRule op a b = some r) : P r := by
  cases op with
  | add | or | xor =>
    simp only [Aret.identityRule] at h
    split_ifs at h
    · exact Option.some.inj h ▸ ha
    · exact Option.some.inj h ▸ hb
  | sub =>
    simp only [Aret.identityRule] at h
    split_ifs at h
    exact Option.some.inj h ▸ ha
  | mul =>
    simp only [Aret.identityRule] at h
    split_ifs at h
    · exact Option.some.inj h ▸ ha
    · exact Option.some.inj h ▸ hb
    · exact Option.some.inj h ▸ hP.const _ _
  | and =>
    simp only [Aret.identityRule] at h
    split_ifs at h
    · exact Option.some.inj h ▸ hP.const _ _
    · split at h
      · obtain ⟨c, -, rfl⟩ := Option.map_eq_some_iff.mp h
        exact hP.binary.mpr ⟨(hP.binary.mp ha).1, hP.const _ _⟩
      · cases h
  | _ => cases h

theorem notRule (ha : P a) (h : Aret.notRule op a b = some r) : P r := by
  unfold Aret.notRule at h
  split at h
  · split_ifs at h
    obtain ⟨neg, -, rfl⟩ := Option.map_eq_some_iff.mp h
    exact hP.binary.mpr (hP.binary.mp ha)
  · cases h

theorem matchSignedLt {p : Expr × Expr} (ha : P a) (h : Aret.matchSignedLt a b = some p) :
    P p.1 ∧ P p.2 := by
  unfold Aret.matchSignedLt at h
  split at h
  · dsimp only at h
    split_ifs at h
    obtain rfl := Option.some.inj h
    exact hP.binary.mp (hP.binary.mp ha).1
  · cases h

theorem signedLtRule (ha : P a) (hb : P b) (h : Aret.signedLtRule op a b = some r) : P r := by
  unfold Aret.signedLtRule at h
  split at h
  · obtain ⟨p, hp, rfl⟩ := Option.map_eq_some_iff.mp h
    rcases (Option.orElse_eq_some _ _ _).mp hp with hab | ⟨-, hba⟩
    · exact hP.binary.mpr (hP.matchSignedLt ha hab)
    · exact hP.binary.mpr (hP.matchSignedLt hb hba)
  · cases h

theorem mergeWith {lo hi : BinOp} (ha : P a) (h : Aret.mergeWith a b lo hi = some r) : P r := by
  unfold Aret.mergeWith at h
  split at h
  · split_ifs at h
    obtain rfl := Option.some.inj h
    exact hP.binary.mpr (hP.binary.mp ha)
  · cases h

theorem mergeRule (ha : P a) (h : Aret.mergeRule op a b = some r) : P r := by
  unfold Aret.mergeRule at h
  split at h
  · rcases (Option.orElse_eq_some _ _ _).mp h with h | ⟨-, h⟩
    · exact hP.mergeWith ha h
    · exact hP.mergeWith ha h
  · cases h

theorem equalRule (ha : P a) (h : Aret.equalRule op a b = some r) : P r := by
  unfold Aret.equalRule at h
  split_ifs at h
  cases op <;> cases h
  case and.refl => exact ha
  case or.refl => exact ha
  all_goals exact hP.const _ _

theorem foldBinary (ha : P a) (hb : P b) : P (Aret.foldBinary op a b) := by
  unfold Aret.foldBinary
  cases hrule : (Aret.magicRule op a b <|> Aret.constantRule op a b <|> Aret.identityRule op a b <|>
      Aret.notRule op a b <|> Aret.signedLtRule op a b <|> Aret.mergeRule op a b <|>
      Aret.equalRule op a b) with
  | none => exact hP.binary.mpr ⟨ha, hb⟩
  | some r =>
    show P r
    simp only [Option.orElse_eq_some] at hrule
    rcases hrule with h | ⟨-, h | ⟨-, h | ⟨-, h | ⟨-, h | ⟨-, h | ⟨-, h⟩⟩⟩⟩⟩⟩
    · exact hP.magicRule ha h
    · exact hP.constantRule h
    · exact hP.identityRule ha hb h
    · exact hP.notRule ha h
    · exact hP.signedLtRule ha hb h
    · exact hP.mergeRule ha h
    · exact hP.equalRule ha h

end Hereditary

section
variable {P : Expr → Prop}

mutual

theorem Hereditary.fold (hP : Hereditary P) : ∀ e : Expr, P e → P e.fold
  | .unary _ x, h => hP.unary.mpr (fold hP x (hP.unary.mp h))
  | .cast _ x, h => hP.cast.mpr (fold hP x (hP.cast.mp h))
  | .load a _, h => hP.load.mpr (fold hP a (hP.load.mp h))
  | .binary _ a b, h => by
    obtain ⟨ha, hb⟩ := hP.binary.mp h
    exact hP.foldBinary (fold hP a ha) (fold hP b hb)
  | .call _ args _, h => hP.call h (folds hP args (hP.args h))
  | .select c t e, h => by
    obtain ⟨hc, ht, he⟩ := hP.select.mp h
    rw [Expr.fold]
    split
    · split_ifs
      · exact fold hP e he
      · exact fold hP t ht
    · exact hP.select.mpr ⟨fold hP c hc, fold hP t ht, fold hP e he⟩
  | .const _ _, h | .read _, h | .use _, h | .addr _, h | .phi _, h | .undef, h => h

theorem Hereditary.folds (hP : Hereditary P) : ∀ es : List Expr, (∀ e ∈ es, P e) →
    ∀ e ∈ Expr.folds es, P e
  | [], _ => nofun
  | e :: es, h => by
    obtain ⟨he, hes⟩ := List.forall_mem_cons.mp h
    exact List.forall_mem_cons.mpr ⟨fold hP e he, folds hP es hes⟩

end

end

theorem Expr.allQuiet_eq (es : List Expr) : Expr.allQuiet es = es.all Expr.quiet := by
  induction es with
  | nil => rfl
  | cons e es ih => rw [allQuiet, ih, List.all_cons]

theorem Expr.usesOfArgs_eq (es : List Expr) : Expr.usesOfArgs es = es.flatMap Expr.uses := by
  induction es with
  | nil => rfl
  | cons e es ih => rw [usesOfArgs, ih, List.flatMap_cons]

theorem hereditary_quiet : Hereditary fun e => e.quiet = true where
  const _ _ := rfl
  unary := Iff.rfl
  cast := Iff.rfl
  load := Iff.rfl
  binary := Bool.and_eq_true_iff
  select {c t e} := by rw [Expr.quiet, Bool.and_eq_true, Bool.and_eq_true, and_assoc]
  args {t args ret} h := by
    cases t with
    | named n =>
      rw [Expr.quiet, Bool.and_eq_true, Expr.allQuiet_eq, List.all_eq_true] at h
      exact h.2
    | _ => cases h
  call {t args args' ret} h hargs := by
    cases t with
    | named n =>
      rw [Expr.quiet, Bool.and_eq_true] at h ⊢
      exact ⟨h.1, (Expr.allQuiet_eq args').trans (List.all_eq_true.mpr hargs)⟩
    | _ => cases h

theorem hereditary_uses (S : ValueId → Prop) : Hereditary fun e => ∀ u ∈ e.uses, S u where
  const _ _ := nofun
  unary := Iff.rfl
  cast := Iff.rfl
  load := Iff.rfl
  binary := List.forall_mem_append
  select {c t e} := by rw [Expr.uses, List.forall_mem_append, List.forall_mem_append, and_assoc]
  args {t args ret} h e he u hu := by
    have hmem : u ∈ Expr.usesOfArgs args := by
      rw [Expr.usesOfArgs_eq]
      exact List.mem_flatMap.mpr ⟨e, he, hu⟩
    cases t with
    | indirect x => exact h u (List.mem_append_right _ hmem)
    | _ => exact h u hmem
  call {t args args' ret} h hargs := by
    have hall : ∀ u ∈ Expr.usesOfArgs args', S u := by
      intro u hu
      rw [Expr.usesOfArgs_eq] at hu
      obtain ⟨e, he, hue⟩ := List.mem_flatMap.mp hu
      exact hargs e he u hue
    cases t with
    | indirect x =>
      exact List.forall_mem_append.mpr ⟨(List.forall_mem_append.mp h).1, hall⟩
    | _ => exact hall

mutual

def Expr.phiFree : Expr → Bool
  | .phi _ => false
  | .const .. | .read _ | .use _ | .addr _ | .undef => true
  | .load a _ => a.phiFree
  | .unary _ x | .cast _ x => x.phiFree
  | .binary _ a b => a.phiFree && b.phiFree
  | .call (.indirect x) args _ => x.phiFree && allPhiFree args
  | .call (.direct _) args _ | .call (.named _) args _ => allPhiFree args
  | .select c t e => c.phiFree && t.phiFree && e.phiFree

def Expr.allPhiFree : List Expr → Bool
  | [] => true
  | e :: es => e.phiFree && allPhiFree es

end

theorem Expr.allPhiFree_eq (es : List Expr) : Expr.allPhiFree es = es.all Expr.phiFree := by
  induction es with
  | nil => rfl
  | cons e es ih => rw [allPhiFree, ih, List.all_cons]

theorem hereditary_phiFree : Hereditary fun e => e.phiFree = true where
  const _ _ := rfl
  unary := Iff.rfl
  cast := Iff.rfl
  load := Iff.rfl
  binary := Bool.and_eq_true_iff
  select {c t e} := by rw [Expr.phiFree, Bool.and_eq_true, Bool.and_eq_true, and_assoc]
  args {t args ret} h := by
    cases t with
    | indirect x =>
      rw [Expr.phiFree, Bool.and_eq_true, Expr.allPhiFree_eq, List.all_eq_true] at h
      exact h.2
    | _ =>
      rw [Expr.phiFree, Expr.allPhiFree_eq, List.all_eq_true] at h
      exact h
  call {t args args' ret} h hargs := by
    have hall : Expr.allPhiFree args' = true :=
      (Expr.allPhiFree_eq args').trans (List.all_eq_true.mpr hargs)
    cases t with
    | indirect x =>
      rw [Expr.phiFree, Bool.and_eq_true] at h ⊢
      exact ⟨h.1, hall⟩
    | _ => exact hall

/-! ### Words -/

/-- What the IR leaves open, on words of 64 bits. -/
structure WordMeaning where
  Mem : Type
  addr : Location → Word
  undef : Word
  load : Mem → Word → Ty → Word
  store : Mem → Word → Word → Ty → Mem
  unary : UnOp → Word → Word
  cast : Ty → Word → Word
  call : CallTarget Word → List Word → Ty → Mem → Word × Mem
  asm : String → Mem → Option Mem
  isCase : Word → ℤ → Bool

namespace WordMeaning

variable (W : WordMeaning)

abbrev meaning : Meaning where
  Val := Word
  Mem := W.Mem
  const c _ := BitVec.ofInt 64 c
  addr := W.addr
  undef := W.undef
  load := W.load
  store := W.store
  unary := W.unary
  binary := BinOp.word
  cast := W.cast
  call := W.call
  asm := W.asm
  truth x := decide (x ≠ 0)
  isCase := W.isCase

abbrev interp : Interp := W.meaning.interp

def valuation (ρ : W.interp.Store) (mem : W.Mem) : Valuation where
  use := ρ.val
  loc := ρ.loc
  mem := W.load mem
  addr := W.addr
  phi _ := W.undef
  undef := W.undef
  unary := W.unary
  cast := W.cast
  call t args ret := (W.call t args ret mem).1

end WordMeaning

section
variable {W : WordMeaning} (ρ : W.interp.Store)

mutual

theorem eval_word (hI : W.interp.QuietHelpers) : ∀ e : Expr, e.quiet = true →
    ∀ w : W.interp.World, (W.interp.eval ρ e w).1 = e.eval (W.valuation ρ w.mem)
  | .const .., _, _ | .read _, _, _ | .use _, _, _ | .addr _, _, _ | .phi _, _, _ | .undef, _, _ =>
    rfl
  | .load a ty, h, w => by
    have hmem := Interp.World.mem_of_shown (Interp.eval_quiet ρ hI a h w)
    rw [Interp.eval, eval_word hI a h w, hmem]
    rfl
  | .unary op x, h, w => by
    rw [Interp.eval, eval_word hI x h w]
    rfl
  | .cast ty x, h, w => by
    rw [Interp.eval, eval_word hI x h w]
    rfl
  | .binary op a b, h, w => by
    obtain ⟨ha, hb⟩ := Bool.and_eq_true_iff.mp h
    have hmem := Interp.World.mem_of_shown (Interp.eval_quiet ρ hI a ha w)
    rw [Interp.eval, eval_word hI a ha w, eval_word hI b hb, hmem]
    rfl
  | .call (.named n) args ret, h, w => by
    obtain ⟨-, hargs⟩ := Bool.and_eq_true_iff.mp h
    have hmem := Interp.World.mem_of_shown (Interp.evalArgs_quiet ρ hI args hargs w)
    rw [Interp.eval, Interp.runCall, evalArgs_word hI args hargs w, hmem]
    rfl
  | .call (.direct _) _ _, h, _ | .call (.indirect _) _ _, h, _ => nomatch h
  | .select c t e, h, w => by
    obtain ⟨hct, he⟩ := Bool.and_eq_true_iff.mp h
    obtain ⟨hc, ht⟩ := Bool.and_eq_true_iff.mp hct
    have hmem := Interp.World.mem_of_shown (Interp.eval_quiet ρ hI c hc w)
    rw [Interp.eval, eval_word hI c hc w, Expr.eval]
    by_cases hzero : c.eval (W.valuation ρ w.mem) = 0
    · rw [if_neg (by simp [hzero]), if_neg (not_not.mpr hzero), eval_word hI e he, hmem]
    · rw [if_pos (decide_eq_true hzero), if_pos hzero, eval_word hI t ht, hmem]

theorem evalArgs_word (hI : W.interp.QuietHelpers) : ∀ es : List Expr,
    Expr.allQuiet es = true → ∀ w : W.interp.World,
      (W.interp.evalArgs ρ es w).1 = Expr.evals (W.valuation ρ w.mem) es
  | [], _, _ => rfl
  | e :: es, h, w => by
    obtain ⟨he, hes⟩ := Bool.and_eq_true_iff.mp h
    have hmem := Interp.World.mem_of_shown (Interp.eval_quiet ρ hI e he w)
    rw [Interp.evalArgs, eval_word hI e he w, evalArgs_word hI es hes, hmem]
    rfl

end

end

/-! ### Where folding keeps what an expression does -/

theorem Expr.eq_const {e : Expr} {k : ℤ} (h : e.isConst = some k) : ∃ ty, e = .const k ty := by
  cases e with
  | const c ty =>
    obtain rfl := Option.some.inj h
    exact ⟨ty, rfl⟩
  | _ => cases h

section
variable {W : WordMeaning} (ρ : W.interp.Store)

/-- A node, its operands folded already: it stays as it is, or folds well and drops no call that
is seen. -/
def NodeFoldsKept (op : BinOp) (a b : Expr) (mem : W.Mem) : Prop :=
  foldBinary op a b = .binary op a b ∨
    (a.quiet = true ∧ b.quiet = true ∧ NodeFoldsWell (W.valuation ρ mem) op a b)

mutual

/-- Every node that is reached, when the expression is evaluated, folds so; a constant condition
takes the branch that the word takes. -/
def FoldsKept : Expr → W.interp.World → Prop
  | .unary _ x, w | .cast _ x, w | .load x _, w => FoldsKept x w
  | .binary op a b, w => FoldsKept a w ∧ FoldsKept b (W.interp.eval ρ a w).2 ∧
      NodeFoldsKept ρ op a.fold b.fold (W.interp.eval ρ b (W.interp.eval ρ a w).2).2.mem
  | .call (.indirect x) args _, w => AllFoldsKept args (W.interp.eval ρ x w).2
  | .call (.direct _) args _, w | .call (.named _) args _, w => AllFoldsKept args w
  | .select c t e, w => FoldsKept c w ∧ (∀ k, c.fold.isConst = some k → Apart k 0) ∧
      if (W.interp.eval ρ c w).1 ≠ 0 then FoldsKept t (W.interp.eval ρ c w).2
      else FoldsKept e (W.interp.eval ρ c w).2
  | .const .., _ | .read _, _ | .use _, _ | .addr _, _ | .phi _, _ | .undef, _ => True

def AllFoldsKept : List Expr → W.interp.World → Prop
  | [], _ => True
  | e :: es, w => FoldsKept e w ∧ AllFoldsKept es (W.interp.eval ρ e w).2

end

theorem eval_binary_quiet (hI : W.interp.QuietHelpers) {op : BinOp} {a b : Expr}
    (ha : a.quiet = true) (hb : b.quiet = true) {w : W.interp.World}
    (hwell : NodeFoldsWell (W.valuation ρ w.mem) op a b) :
    (W.interp.eval ρ (foldBinary op a b) w).1 = (W.interp.eval ρ (.binary op a b) w).1 ∧
      (W.interp.eval ρ (foldBinary op a b) w).2.shown
        = (W.interp.eval ρ (.binary op a b) w).2.shown := by
  have hnode : (Expr.binary op a b).quiet = true := Bool.and_eq_true_iff.mpr ⟨ha, hb⟩
  have hfold : (foldBinary op a b).quiet = true := hereditary_quiet.foldBinary ha hb
  rw [eval_word ρ hI _ hfold, eval_word ρ hI _ hnode, eval_foldBinary hwell,
    Interp.eval_quiet ρ hI _ hfold, Interp.eval_quiet ρ hI _ hnode]
  exact ⟨rfl, rfl⟩

mutual

theorem eval_fold_kept (hI : W.interp.QuietHelpers) : ∀ (e : Expr) {w w' : W.interp.World},
    FoldsKept ρ e w → w.shown = w'.shown →
      (W.interp.eval ρ e w).1 = (W.interp.eval ρ e.fold w').1 ∧
        (W.interp.eval ρ e w).2.shown = (W.interp.eval ρ e.fold w').2.shown
  | .const .., _, _, _, hw | .read _, _, _, _, hw | .use _, _, _, _, hw | .addr _, _, _, _, hw
  | .phi _, _, _, _, hw | .undef, _, _, _, hw => ⟨rfl, hw⟩
  | .load a ty, w, w', h, hw => by
    obtain ⟨ha, hshown⟩ := eval_fold_kept hI a h hw
    rw [Expr.fold, Interp.eval, Interp.eval, ha, Interp.World.mem_of_shown hshown]
    exact ⟨rfl, hshown⟩
  | .unary op x, w, w', h, hw => by
    obtain ⟨hx, hshown⟩ := eval_fold_kept hI x h hw
    rw [Expr.fold, Interp.eval, Interp.eval, hx]
    exact ⟨rfl, hshown⟩
  | .cast ty x, w, w', h, hw => by
    obtain ⟨hx, hshown⟩ := eval_fold_kept hI x h hw
    rw [Expr.fold, Interp.eval, Interp.eval, hx]
    exact ⟨rfl, hshown⟩
  | .binary op a b, w, w', h, hw => by
    obtain ⟨hfolda, hfoldb, hnode⟩ := h
    obtain ⟨ha, hshown⟩ := eval_fold_kept hI a hfolda hw
    obtain ⟨hb, hshown⟩ := eval_fold_kept hI b hfoldb hshown
    -- First both operands are folded, and then the node.
    have hparts : (W.interp.eval ρ (.binary op a b) w).1
          = (W.interp.eval ρ (.binary op a.fold b.fold) w').1 ∧
        (W.interp.eval ρ (.binary op a b) w).2.shown
          = (W.interp.eval ρ (.binary op a.fold b.fold) w').2.shown := by
      rw [Interp.eval, Interp.eval, ha, hb]
      exact ⟨rfl, hshown⟩
    rw [Expr.fold]
    rcases hnode with hsame | ⟨hqa, hqb, hwell⟩
    · rw [hsame]
      exact hparts
    · have hmem : (W.interp.eval ρ b (W.interp.eval ρ a w).2).2.mem = w'.mem := by
        have hquiet := (Interp.eval_quiet ρ hI b.fold hqb _).trans
          (Interp.eval_quiet ρ hI a.fold hqa w')
        exact Interp.World.mem_of_shown (hshown.trans hquiet)
      rw [hmem] at hwell
      obtain ⟨hvalue, heffect⟩ := eval_binary_quiet ρ hI hqa hqb hwell
      exact ⟨hparts.1.trans hvalue.symm, hparts.2.trans heffect.symm⟩
  | .call (.direct a) args ret, w, w', h, hw => by
    obtain ⟨hargs, hshown⟩ := evalArgs_fold_kept hI args h hw
    rw [Expr.fold, Interp.eval, Interp.eval, hargs]
    exact Interp.runCall_shown _ _ ret hshown
  | .call (.named n) args ret, w, w', h, hw => by
    obtain ⟨hargs, hshown⟩ := evalArgs_fold_kept hI args h hw
    rw [Expr.fold, Interp.eval, Interp.eval, hargs]
    exact Interp.runCall_shown _ _ ret hshown
  | .call (.indirect x) args ret, w, w', h, hw => by
    obtain ⟨hx, hshown⟩ := Interp.eval_shown (ρ := ρ) rfl x (fun _ _ => rfl) hw
    obtain ⟨hargs, hshown⟩ := evalArgs_fold_kept hI args h hshown
    rw [Expr.fold, Interp.eval, Interp.eval, hx, hargs]
    exact Interp.runCall_shown _ _ ret hshown
  | .select c t e, w, w', h, hw => by
    obtain ⟨hfoldc, hapart, hbranch⟩ := h
    obtain ⟨hc, hshown⟩ := eval_fold_kept hI c hfoldc hw
    rw [Expr.fold]
    cases hconst : c.fold.isConst with
    | none =>
      show _ = (W.interp.eval ρ (.select c.fold t.fold e.fold) w').1 ∧
        _ = (W.interp.eval ρ (.select c.fold t.fold e.fold) w').2.shown
      rw [Interp.eval, Interp.eval, ← hc]
      by_cases hzero : (W.interp.eval ρ c w).1 = 0
      · rw [if_neg (not_not.mpr hzero)] at hbranch
        rw [if_neg (by simp [hzero]), if_neg (by simp [hzero])]
        exact eval_fold_kept hI e hbranch hshown
      · rw [if_pos hzero] at hbranch
        rw [if_pos (decide_eq_true hzero), if_pos (decide_eq_true hzero)]
        exact eval_fold_kept hI t hbranch hshown
    | some k =>
      -- The condition is a constant now, and shows nothing.
      obtain ⟨ty, hk⟩ := Expr.eq_const hconst
      rw [hk] at hc hshown
      have hvalue : (W.interp.eval ρ c w).1 = BitVec.ofInt 64 k := hc
      have hzero : (W.interp.eval ρ c w).1 = 0 ↔ k = 0 := by
        rw [hvalue]
        refine ⟨fun h0 => ?_, fun h0 => by rw [h0]; rfl⟩
        by_contra hne
        exact hapart k hconst hne h0
      show _ = (W.interp.eval ρ (if k = 0 then e.fold else t.fold) w').1 ∧
        _ = (W.interp.eval ρ (if k = 0 then e.fold else t.fold) w').2.shown
      rw [Interp.eval]
      by_cases hk0 : k = 0
      · rw [if_neg (not_not.mpr (hzero.mpr hk0))] at hbranch
        rw [if_pos hk0, if_neg (by simp [hzero.mpr hk0])]
        exact eval_fold_kept hI e hbranch hshown
      · have hne : (W.interp.eval ρ c w).1 ≠ 0 := fun h0 => hk0 (hzero.mp h0)
        rw [if_pos hne] at hbranch
        rw [if_neg hk0, if_pos (decide_eq_true hne)]
        exact eval_fold_kept hI t hbranch hshown
termination_by structural e => e

theorem evalArgs_fold_kept (hI : W.interp.QuietHelpers) : ∀ (es : List Expr)
    {w w' : W.interp.World}, AllFoldsKept ρ es w → w.shown = w'.shown →
      (W.interp.evalArgs ρ es w).1 = (W.interp.evalArgs ρ (Expr.folds es) w').1 ∧
        (W.interp.evalArgs ρ es w).2.shown = (W.interp.evalArgs ρ (Expr.folds es) w').2.shown
  | [], _, _, _, hw => ⟨rfl, hw⟩
  | e :: es, w, w', h, hw => by
    obtain ⟨he, hshown⟩ := eval_fold_kept hI e h.1 hw
    obtain ⟨hes, hshown⟩ := evalArgs_fold_kept hI es h.2 hshown
    rw [Expr.folds, Interp.evalArgs, Interp.evalArgs, he, hes]
    exact ⟨rfl, hshown⟩
termination_by structural es => es

end

end

/-! ### Functions -/

def foldFunction (f : IrFunction) : IrFunction :=
  { f with
    blocks := f.blocks.map fun b => { b with stmts := b.stmts.map (Stmt.mapExprs Expr.fold) } }

def IrFunction.PhisAlone (f : IrFunction) : Prop :=
  ∀ s ∈ f.stmts, s.phi? = none → ∀ e ∈ s.exprs, e.phiFree = true

theorem phi?_fold {s : Stmt} (h : s.phi? = none → ∀ e ∈ s.exprs, e.phiFree = true) :
    (s.mapExprs Expr.fold).phi? = s.phi? := by
  cases s with
  | assign x e =>
    cases hphi : (Stmt.assign x e).phi? with
    | some φ =>
      cases e with
      | phi args => exact hphi
      | _ => cases hphi
    | none =>
      have hfree : e.fold.phiFree = true :=
        hereditary_phiFree.fold e (h hphi e (List.mem_singleton_self e))
      show (Stmt.assign x e.fold).phi? = none
      cases hfold : e.fold with
      | phi args =>
        rw [hfold] at hfree
        cases hfree
      | _ => rfl
  | ret e => cases e <;> rfl
  | _ => rfl

section
variable {f : IrFunction}

theorem getElem?_foldFunction (t : ℕ) : (foldFunction f).blocks[t]? =
    f.blocks[t]?.map fun b => { b with stmts := b.stmts.map (Stmt.mapExprs Expr.fold) } :=
  List.getElem?_map

theorem block_foldFunction (p : ℕ) : (foldFunction f).block p =
    { f.block p with stmts := (f.block p).stmts.map (Stmt.mapExprs Expr.fold) } := by
  rw [IrFunction.block, IrFunction.block, List.getD_eq_getElem?_getD, List.getD_eq_getElem?_getD,
    getElem?_foldFunction]
  cases f.blocks[p]? with
  | none => rfl
  | some b => rfl

theorem phis_foldFunction (h : f.PhisAlone) (p : ℕ) :
    ((foldFunction f).block p).phis = (f.block p).phis := by
  rw [block_foldFunction, Block.phis, Block.phis, List.filterMap_map]
  exact List.filterMap_congr fun s hs => phi?_fold (h s (IrFunction.mem_stmts_of_block hs))

theorem body_foldFunction (h : f.PhisAlone) (p : ℕ) :
    ((foldFunction f).block p).body = (f.block p).body.map (Stmt.mapExprs Expr.fold) := by
  rw [block_foldFunction, Block.body, Block.body, List.filter_map]
  refine congrArg _ (List.filter_congr fun s hs => ?_)
  rw [Function.comp_apply, phi?_fold (h s (IrFunction.mem_stmts_of_block hs))]

theorem entryIndex_foldFunction : (foldFunction f).entryIndex = f.entryIndex := by
  refine IrFunction.entryIndex_congr ?_ rfl
  rw [foldFunction, List.map_map]
  rfl

variable {I : Interp} {watched : ℕ} {ρ : I.Store} {w w' : I.World}

theorem enter_fold (h : f.PhisAlone) (p : Option ℕ) (t : ℕ) (hw : w.shown = w'.shown) :
    Interp.RunsAlike Eq (Interp.enter watched f p t ρ w)
      (Interp.enter watched (foldFunction f) p t ρ w') := by
  have hphis := phis_foldFunction h t
  rw [Interp.enter, Interp.enter]
  by_cases ht : t < f.blocks.length
  · have ht' : t < (foldFunction f).blocks.length := by
      rw [foldFunction, List.length_map]
      exact ht
    have hpred : ((foldFunction f).block t).pred = (f.block t).pred := by rw [block_foldFunction]
    rw [IrFunction.getElem?_block ht, IrFunction.getElem?_block ht']
    dsimp only
    rw [hphis, hpred]
    split
    · exact ⟨rfl, rfl, Interp.World.shown_emit hw _⟩
    · refine ⟨rfl, rfl, ?_⟩
      show (if t < watched then w.emit (.visit t) else w).shown =
        (if t < watched then w'.emit (.visit t) else w').shown
      split_ifs
      · exact Interp.World.shown_emit hw _
      · exact hw
  · have ht' : ¬t < (foldFunction f).blocks.length := by
      rw [foldFunction, List.length_map]
      exact ht
    rw [List.getElem?_eq_none (Nat.le_of_not_lt ht), List.getElem?_eq_none (Nat.le_of_not_lt ht')]
    exact ⟨rfl, rfl, Interp.World.shown_emit hw _⟩

theorem leave_fold (h : f.PhisAlone) (p : ℕ) {e e' : I.Exit} (he : Interp.EndsAlike Eq e e') :
    Interp.RunsAlike Eq (Interp.leave watched f p e)
      (Interp.leave watched (foldFunction f) p e') := by
  match e, e', he with
  | .halt ρ w, .halt _ w', ⟨rfl, hw⟩ => exact ⟨rfl, rfl, hw⟩
  | .next none ρ w, .next _ _ w', ⟨rfl, rfl, hw⟩ =>
    exact ⟨rfl, rfl, Interp.World.shown_emit hw _⟩
  | .next (some t) ρ w, .next _ _ w', ⟨rfl, rfl, hw⟩ =>
    have hsucc : ((foldFunction f).block p).succ = (f.block p).succ := by rw [block_foldFunction]
    rw [Interp.leave, Interp.leave, hsucc]
    split_ifs
    · exact enter_fold h (some p) t hw
    · exact ⟨rfl, rfl, Interp.World.shown_emit hw _⟩

end

/-! ### Runs -/

/-- Every expression that the statements evaluate has a property where it is evaluated. -/
def Interp.EvalsAll {I : Interp} (P : I.Store → Expr → I.World → Prop) :
    List Stmt → I.Store → I.World → Prop
  | [], _, _ => True
  | .set l e :: rest, ρ, w =>
    P ρ e w ∧ EvalsAll P rest (ρ.setLoc l (I.eval ρ e w).1) (I.eval ρ e w).2
  | .assign x e :: rest, ρ, w =>
    P ρ e w ∧ EvalsAll P rest (ρ.setVal x (I.eval ρ e w).1) (I.eval ρ e w).2
  | .store a v ty :: rest, ρ, w =>
    let r := I.eval ρ a w
    let q := I.eval ρ v r.2
    P ρ a w ∧ P ρ v r.2 ∧ EvalsAll P rest ρ
      (({ q.2 with mem := I.store q.2.mem r.1 q.1 ty } : I.World).emit (.store r.1 q.1 ty))
  | .branch c _ _ :: rest, ρ, w =>
    let r := I.eval ρ c w
    P ρ c w ∧ EvalsAll P rest ρ (r.2.emit (.branch (I.truth r.1)))
  | .switch v cases _ :: rest, ρ, w =>
    let r := I.eval ρ v w
    P ρ v w ∧ EvalsAll P rest ρ (r.2.emit (.switch ((I.selectCase r.1 cases).map Prod.fst)))
  | .callStmt e :: rest, ρ, w => P ρ e w ∧ EvalsAll P rest ρ (I.eval ρ e w).2
  | .ret none :: _, _, _ => True
  | .ret (some e) :: _, ρ, w => P ρ e w
  | .asm text :: rest, ρ, w =>
    match I.asm text w.mem with
    | none => True
    | some mem => EvalsAll P rest ρ (({ w with mem := mem } : I.World).emit (.asm text))
  | .jump _ :: rest, ρ, w | .nop :: rest, ρ, w => EvalsAll P rest ρ w

theorem exec_fold {W : WordMeaning} (hI : W.interp.QuietHelpers) (rest : List Stmt)
    (next : Option ℕ) (ρ : W.interp.Store) {w w' : W.interp.World}
    (h : Interp.EvalsAll FoldsKept rest ρ w) (hw : w.shown = w'.shown) :
    Interp.EndsAlike Eq (W.interp.exec rest next ρ w)
      (W.interp.exec (rest.map (Stmt.mapExprs Expr.fold)) next ρ w') := by
  induction rest generalizing next ρ w w' with
  | nil => exact ⟨rfl, rfl, hw⟩
  | cons s rest ih =>
    cases s with
    | set l e =>
      obtain ⟨he, hshown⟩ := eval_fold_kept ρ hI e h.1 hw
      rw [List.map_cons, Stmt.mapExprs, Interp.exec, Interp.exec, ← he]
      exact ih next _ h.2 hshown
    | assign x e =>
      obtain ⟨he, hshown⟩ := eval_fold_kept ρ hI e h.1 hw
      rw [List.map_cons, Stmt.mapExprs, Interp.exec, Interp.exec, ← he]
      exact ih next _ h.2 hshown
    | store a v ty =>
      obtain ⟨hfolda, hfoldv, hrest⟩ := h
      obtain ⟨ha, hshown⟩ := eval_fold_kept ρ hI a hfolda hw
      obtain ⟨hv, hshown⟩ := eval_fold_kept ρ hI v hfoldv hshown
      rw [List.map_cons, Stmt.mapExprs, Interp.exec, Interp.exec, ← ha, ← hv,
        ← Interp.World.mem_of_shown hshown]
      exact ih next ρ hrest (Interp.World.shown_emit (Interp.World.shown_withMem hshown _) _)
    | branch c t e =>
      obtain ⟨hc, hshown⟩ := eval_fold_kept ρ hI c h.1 hw
      rw [List.map_cons, Stmt.mapExprs, Interp.exec, Interp.exec, ← hc]
      exact ih _ ρ h.2 (Interp.World.shown_emit hshown _)
    | switch v cases d =>
      obtain ⟨hv, hshown⟩ := eval_fold_kept ρ hI v h.1 hw
      rw [List.map_cons, Stmt.mapExprs, Interp.exec, Interp.exec, ← hv]
      exact ih _ ρ h.2 (Interp.World.shown_emit hshown _)
    | callStmt e =>
      obtain ⟨he, hshown⟩ := eval_fold_kept ρ hI e h.1 hw
      exact ih next ρ h.2 hshown
    | ret e =>
      cases e with
      | none => exact ⟨rfl, Interp.World.shown_emit hw _⟩
      | some e =>
        obtain ⟨he, hshown⟩ := eval_fold_kept ρ hI e h hw
        rw [List.map_cons, Stmt.mapExprs, Interp.exec, Interp.exec, ← he]
        exact ⟨rfl, Interp.World.shown_emit hshown _⟩
    | asm text =>
      rw [Interp.EvalsAll] at h
      rw [List.map_cons, Stmt.mapExprs, Interp.exec, Interp.exec, ← Interp.World.mem_of_shown hw]
      · cases hasm : W.interp.asm text w.mem with
        | none => exact ⟨rfl, Interp.World.shown_emit hw _⟩
        | some mem =>
          rw [hasm] at h
          exact ih next ρ h (Interp.World.shown_emit (Interp.World.shown_withMem hw mem) _)
      all_goals intros; contradiction
    | jump t => exact ih _ ρ h hw
    | nop => exact ih next ρ h hw

def RunFoldsKept (W : WordMeaning) (watched : ℕ) (f : IrFunction) (ρ : W.interp.Store)
    (mem : W.Mem) : Prop :=
  ∀ n p, (Sim.runN (W.interp.step watched f) n (Interp.start watched f ρ mem)).pc = some p →
    Interp.EvalsAll FoldsKept (f.block p).body
      (Sim.runN (W.interp.step watched f) n (Interp.start watched f ρ mem)).ρ
      (Sim.runN (W.interp.step watched f) n (Interp.start watched f ρ mem)).w

theorem fold_shows {W : WordMeaning} (hI : W.interp.QuietHelpers) {watched : ℕ} {f : IrFunction}
    (hphis : f.PhisAlone) {ρ : W.interp.Store} {mem : W.Mem} (h : RunFoldsKept W watched f ρ mem) :
    ShowsLike W.interp watched f (foldFunction f) ρ ρ mem := by
  set start := Interp.start watched f ρ mem
  have hsim : Sim.IsSimulation (W.interp.step watched f) (fun c => c.w.shown)
      (W.interp.step watched (foldFunction f)) (fun c => c.w.shown)
      (fun c c' => (∃ n, c = Sim.runN (W.interp.step watched f) n start) ∧
        Interp.RunsAlike Eq c c') := by
    refine ⟨fun h => h.2.2.2, ?_, ?_⟩
    · rintro c c' c₁ ⟨⟨n, rfl⟩, hpc, hρ, hw⟩ hstep
      set c := Sim.runN (W.interp.step watched f) n start
      cases hcpc : c.pc with
      | none =>
        rw [Interp.step_eq_none.mpr hcpc] at hstep
        cases hstep
      | some p =>
        have hkept := h n p hcpc
        have hends := exec_fold hI (f.block p).body none c.ρ hkept hw
        have hnext : c₁ = Sim.runN (W.interp.step watched f) (n + 1) start :=
          (Sim.runN_next hstep).symm
        rw [Interp.step_of_pc hcpc] at hstep
        obtain rfl := Option.some.inj hstep
        refine ⟨0, _, ?_, ⟨n + 1, hnext⟩, leave_fold hphis p hends⟩
        rw [Sim.stepN, Interp.step_of_pc (hpc.symm.trans hcpc), body_foldFunction hphis, ← hρ]
        rfl
    · rintro c c' ⟨-, hpc, hρ, hw⟩ hstep
      have hend : c'.pc = none := hpc.symm.trans (Interp.step_eq_none.mp hstep)
      exact ⟨0, c', rfl, Interp.step_eq_none.mpr hend, hw⟩
  refine Sim.SameRuns.of_simulation hsim ⟨⟨0, rfl⟩, ?_⟩
  rw [Interp.start, Interp.start, entryIndex_foldFunction]
  exact enter_fold hphis none _ rfl

end Aret
