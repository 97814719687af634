/-
Constant folding and algebraic simplification of expressions.
-/
import Aret.LiftRun
import Aret.Magic

namespace Aret

open Lift (Word ofBool)

/-! ### Folding -/

def Expr.isConst : Expr → Option ℤ
  | .const c _ => some c
  | _ => none

def BinOp.negateRel : BinOp → Option BinOp
  | .eq => some .ne
  | .ne => some .eq
  | .ult => some .uge
  | .uge => some .ult
  | .ugt => some .ule
  | .ule => some .ugt
  | .slt => some .sge
  | .sge => some .slt
  | .sgt => some .sle
  | .sle => some .sgt
  | _ => none

def i32Ty : Ty := .ofBits 32

/-- `match_signed_lt`: `SF` and `OF` of a difference. -/
def matchSignedLt (sf of : Expr) : Option (Expr × Expr) :=
  match sf, of with
  | .binary .slt (.binary .sub a b) (.const z _), .binary .and x y =>
    let slt0 (e : Expr) : Expr := .binary .slt e (.konst 0 64)
    if z = 0 ∧ x = .binary .ne (slt0 a) (slt0 b) ∧
        y = .binary .ne (slt0 (.binary .sub a b)) (slt0 a) then
      some (a, b)
    else none
  | _, _ => none

def Expr.peelCast : Expr → Expr
  | .cast _ e => e.peelCast
  | e => e

def magicFactor (p q : Expr) : Option (Expr × ℤ) :=
  match q.isConst with
  | some m => some (p, m)
  | none => p.isConst.map fun m => (q, m)

def magicDivisor (m t : ℕ) : Option ℕ :=
  let d0 := 2 ^ t / m
  [d0 - 1, d0, d0 + 1].find? fun d =>
    decide (2 ≤ d ∧ d ≤ 0xffffffff ∧ magicu32 d = some (m, t - 32, false))

def tryMagicUdiv (shifted : Expr) (t : ℤ) : Option Expr :=
  if t < 32 ∨ 63 < t then none
  else
    match shifted.peelCast with
    | .binary .mul p q =>
      match magicFactor p q with
      | some (x, m) =>
        if m ≤ 0 ∨ 0xffffffff < m then none
        else (magicDivisor m.toNat t.toNat).map fun (d : ℕ) =>
          .binary .udiv x (.const d (.ofBits 32))
      | none => none
    | _ => none

def i128 (f : BitVec 128 → BitVec 128 → BitVec 128) (x y : ℤ) : ℤ :=
  (f (BitVec.ofInt 128 x) (BitVec.ofInt 128 y)).toInt

def foldConsts (op : BinOp) (x y : ℤ) : Option ℤ :=
  match op with
  | .and => some (i128 (· &&& ·) x y)
  | .or => some (i128 (· ||| ·) x y)
  | .xor => some (i128 (· ^^^ ·) x y)
  | .eq => some (if x = y then 1 else 0)
  | .ne => some (if x ≠ y then 1 else 0)
  | _ => none

section
variable (op : BinOp) (a b : Expr)

def magicRule : Option Expr :=
  match op, b.isConst with
  | .shr, some t => tryMagicUdiv a t
  | _, _ => none

def constantRule : Option Expr :=
  match a.isConst, b.isConst with
  | some x, some y => (foldConsts op x y).map fun v => .const v i32Ty
  | _, _ => none

def identityRule : Option Expr :=
  match op with
  | .add | .or | .xor =>
    if b.isConst = some 0 then some a else if a.isConst = some 0 then some b else none
  | .sub => if b.isConst = some 0 then some a else none
  | .mul =>
    if b.isConst = some 1 then some a
    else if a.isConst = some 1 then some b
    else if a.isConst = some 0 ∨ b.isConst = some 0 then some (.const 0 i32Ty)
    else none
  | .and =>
    if b.isConst = some 0 ∨ a.isConst = some 0 then some (.const 0 i32Ty)
    else
      match a, b.isConst with
      | .binary .and x c1, some c2 =>
        c1.isConst.map fun c1v => .binary .and x (.const (i128 (· &&& ·) c1v c2) i32Ty)
      | _, _ => none
  | _ => none

def notRule : Option Expr :=
  match op, a with
  | .eq, .binary inner x y =>
    if b.isConst = some 0 then inner.negateRel.map fun neg => .binary neg x y else none
  | _, _ => none

/-- `SF` differs from `OF`. -/
def signedLtRule : Option Expr :=
  match op with
  | .ne =>
    (matchSignedLt a b <|> matchSignedLt b a).map fun p => .binary .slt p.1 p.2
  | _ => none

def mergeWith (lo hi : BinOp) : Option Expr :=
  match a, b with
  | .binary o x1 y1, .binary o' x2 y2 =>
    if (o = lo ∧ o' = .eq ∨ o = .eq ∧ o' = lo) ∧ x1 = x2 ∧ y1 = y2 then some (.binary hi x1 y1)
    else none
  | _, _ => none

def mergeRule : Option Expr :=
  match op with
  | .or => mergeWith a b .ult .ule <|> mergeWith a b .slt .sle
  | _ => none

def equalRule : Option Expr :=
  if a = b then
    match op with
    | .and | .or => some a
    | .eq | .ule | .uge | .sle | .sge => some (.const 1 i32Ty)
    | .ne | .ult | .ugt | .slt | .sgt | .sub | .xor => some (.const 0 i32Ty)
    | _ => none
  else none

/-- `fold_binary`: the first rule that applies. -/
def foldBinary : Expr :=
  (magicRule op a b <|> constantRule op a b <|> identityRule op a b <|> notRule op a b <|>
    signedLtRule op a b <|> mergeRule op a b <|> equalRule op a b).getD (.binary op a b)

end

mutual

def Expr.fold : Expr → Expr
  | .unary op x => .unary op x.fold
  | .cast ty x => .cast ty x.fold
  | .load a ty => .load a.fold ty
  | .binary op a b => foldBinary op a.fold b.fold
  | .call target args ret => .call target (folds args) ret
  | .select c t e =>
    match c.fold.isConst with
    | some k => if k = 0 then e.fold else t.fold
    | none => .select c.fold t.fold e.fold
  | .const v ty => .const v ty
  | .read l => .read l
  | .use v => .use v
  | .addr l => .addr l
  | .phi args => .phi args
  | .undef => .undef

def Expr.folds : List Expr → List Expr
  | [] => []
  | e :: es => e.fold :: Expr.folds es

end

/-! ### Values -/

/-- What an expression reads, and what the IR leaves open. -/
structure Valuation where
  use : ValueId → Word
  loc : Location → Word
  mem : Word → Ty → Word
  addr : Location → Word
  phi : List ValueId → Word
  undef : Word
  unary : UnOp → Word → Word
  cast : Ty → Word → Word
  call : CallTarget Word → List Word → Ty → Word

def BinOp.word (op : BinOp) (x y : Word) : Word :=
  match op with
  | .add => x + y
  | .sub => x - y
  | .mul => x * y
  | .udiv => x / y
  | .sdiv => x.sdiv y
  | .umod => x % y
  | .smod => x.srem y
  | .and => x &&& y
  | .or => x ||| y
  | .xor => x ^^^ y
  | .shl => x <<< y.toNat
  | .shr => x >>> y.toNat
  | .sar => x.sshiftRight y.toNat
  | .eq => ofBool (x = y)
  | .ne => ofBool (x ≠ y)
  | .ult => ofBool (x.toNat < y.toNat)
  | .ule => ofBool (x.toNat ≤ y.toNat)
  | .ugt => ofBool (y.toNat < x.toNat)
  | .uge => ofBool (y.toNat ≤ x.toNat)
  | .slt => ofBool (x.toInt < y.toInt)
  | .sle => ofBool (x.toInt ≤ y.toInt)
  | .sgt => ofBool (y.toInt < x.toInt)
  | .sge => ofBool (y.toInt ≤ x.toInt)

mutual

def Expr.eval (v : Valuation) : Expr → Word
  | .const c _ => BitVec.ofInt 64 c
  | .read l => v.loc l
  | .use x => v.use x
  | .load a ty => v.mem (a.eval v) ty
  | .unary op x => v.unary op (x.eval v)
  | .binary op a b => op.word (a.eval v) (b.eval v)
  | .cast ty x => v.cast ty (x.eval v)
  | .addr l => v.addr l
  | .call (.direct a) args ret => v.call (.direct a) (Expr.evals v args) ret
  | .call (.indirect e) args ret => v.call (.indirect (e.eval v)) (Expr.evals v args) ret
  | .call (.named n) args ret => v.call (.named n) (Expr.evals v args) ret
  | .select c t e => if c.eval v ≠ 0 then t.eval v else e.eval v
  | .phi args => v.phi args
  | .undef => v.undef

def Expr.evals (v : Valuation) : List Expr → List Word
  | [] => []
  | e :: es => e.eval v :: Expr.evals v es

end

/-! ### Where folding keeps values -/

/-- Constants are compared as integers of 128 bits: two that differ are not the same word. -/
def Apart (x y : ℤ) : Prop := x ≠ y → BitVec.ofInt 64 x ≠ BitVec.ofInt 64 y

def NodeFoldsWell (v : Valuation) (op : BinOp) (a b : Expr) : Prop :=
  match op with
  | .eq | .ne => ∀ x y, a.isConst = some x → b.isConst = some y → Apart x y
  | .shr => ∀ t x d, b.isConst = some t → tryMagicUdiv a t = some (.binary .udiv x d) →
      (x.eval v).toNat < 2 ^ 32 ∧ a.eval v = a.peelCast.eval v
  | _ => True

mutual

def Expr.FoldsWell (v : Valuation) : Expr → Prop
  | .unary _ x => x.FoldsWell v
  | .cast _ x => x.FoldsWell v
  | .load a _ => a.FoldsWell v
  | .binary op a b => a.FoldsWell v ∧ b.FoldsWell v ∧ NodeFoldsWell v op a.fold b.fold
  | .call _ args _ => Expr.AllFoldWell v args
  | .select c t e => c.FoldsWell v ∧
      match c.fold.isConst with
      | some k => Apart k 0 ∧ if k = 0 then e.FoldsWell v else t.FoldsWell v
      | none => t.FoldsWell v ∧ e.FoldsWell v
  | _ => True

def Expr.AllFoldWell (v : Valuation) : List Expr → Prop
  | [] => True
  | e :: es => e.FoldsWell v ∧ Expr.AllFoldWell v es

end

end Aret
