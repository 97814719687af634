/-
Type inference over the SSA form.

Copies and φ-nodes put values into one set; each set carries the join of the
facts about its values.
-/
import Aret.Forest
import Aret.Ir

namespace Aret.Types

/-! ### Types -/

def joinSign : Option Bool → Option Bool → Option Bool
  | none, x => x
  | x, none => x
  | some x, some y => if x = y then some x else none

def join : Ty → Ty → Ty
  | .unknown, t => t
  | t, .unknown => t
  | .int b₁ s₁, .int b₂ s₂ => .int (max b₁ b₂) (joinSign s₁ s₂)
  | .ptr x, .ptr y => .ptr (join x y)
  | .float b₁, .float b₂ => .float (max b₁ b₂)
  | .code, .code => .code
  | .bool, .bool => .bool
  | .ptr x, .int _ _ => .ptr x
  | .int _ _, .ptr x => .ptr x
  | .code, .int _ _ => .code
  | .int _ _, .code => .code
  | .ptr x, .code => .ptr x
  | .code, .ptr x => .ptr x
  | _, _ => .int 64 none

/-- `sgn`: a sign without a width. -/
def sgn (signed : Bool) : Ty := .int 0 (some signed)

/-! ### Environments -/

/-- The sets of values, and a type for the root of each. -/
structure TypeEnv where
  forest : Forest
  size : ℕ
  ty : ℕ → Ty

namespace TypeEnv

def new (n : ℕ) : TypeEnv where
  forest := .singletons
  size := max n 1
  ty _ := .unknown

def find (env : TypeEnv) (x : ℕ) : TypeEnv × ℕ :=
  ({ env with forest := (env.forest.find x).1 }, (env.forest.find x).2)

/-- The sets of `a` and `b` are merged, and their types joined. -/
def union (env : TypeEnv) (a b : ℕ) : TypeEnv :=
  if a < env.size ∧ b < env.size then
    let ra := (env.find a).2
    let rb := ((env.find a).1.find b).2
    let merged := join (env.ty ra) (env.ty rb)
    let hi := if env.forest.rank ra < env.forest.rank rb then rb else ra
    { env with
      forest := env.forest.union a b
      ty := if ra = rb then env.ty else Function.update env.ty hi merged }
  else env

/-- The type of the set of `v` is joined with `t`. -/
def constrain (env : TypeEnv) (v : ℕ) (t : Ty) : TypeEnv :=
  if v < env.size then
    let (env, r) := env.find v
    { env with ty := Function.update env.ty r (join (env.ty r) t) }
  else env

def get (env : TypeEnv) (v : ℕ) : TypeEnv × Ty :=
  if v < env.size then
    let (env, r) := env.find v
    (env, env.ty r)
  else (env, .unknown)

end TypeEnv

/-! ### Facts -/

inductive Fact where
  | constrain (v : ValueId) (t : Ty)
  | union (a b : ValueId)

def TypeEnv.apply (env : TypeEnv) : Fact → TypeEnv
  | .constrain v t => env.constrain v t
  | .union a b => env.union a b

def asUse : Expr → Option ValueId
  | .use v => some v
  | _ => none

def isConst : Expr → Bool
  | .const .. => true
  | _ => false

/-- `ptr_base`: the base of an address. -/
def ptrBase : Expr → Option ValueId
  | .use v => some v
  | .binary .add a b | .binary .sub a b =>
    if isConst b then ptrBase a else if isConst a then ptrBase b else ptrBase a
  | _ => none

def binopSign : BinOp → Option Bool
  | .sdiv | .smod | .slt | .sle | .sgt | .sge => some true
  | .udiv | .umod | .ult | .ule | .ugt | .uge => some false
  | _ => none

def constrainSome (v : Option ValueId) (t : Ty) : List Fact := v.toList.map (.constrain · t)

mutual

/-- `gen_expr`, as the calls that it makes. -/
def genExpr : Expr → List Fact
  | .load addr ty => genExpr addr ++ constrainSome (ptrBase addr) (.ptr ty)
  | .binary op a b => genExpr a ++ genExpr b ++
    match op with
    | .sar => constrainSome (asUse a) (sgn true)
    | .shr => constrainSome (asUse a) (sgn false)
    | op =>
      match binopSign op with
      | some sign => constrainSome (asUse a) (sgn sign) ++ constrainSome (asUse b) (sgn sign)
      | none => []
  | .unary .signExtend x => genExpr x ++ constrainSome (asUse x) (sgn true)
  | .unary _ x => genExpr x
  | .cast _ x => genExpr x
  | .select cond then_ else_ => genExpr cond ++ genExpr then_ ++ genExpr else_
  | .call (.indirect x) args _ => genExpr x ++ constrainSome (asUse x) .code ++ genExprs args
  | .call _ args _ => genExprs args
  | _ => []

def genExprs : List Expr → List Fact
  | [] => []
  | e :: es => genExpr e ++ genExprs es

end

def genDst (dst : ValueId) : Expr → List Fact
  | .use src => [.union dst src]
  | .phi args => args.map (.union dst ·)
  | .load _ ty => [.constrain dst ty]
  | .call _ _ ret => if ret = .unknown then [] else [.constrain dst ret]
  | .addr _ => [.constrain dst (.ptr .unknown)]
  | _ => []

def genStmt : Stmt → List Fact
  | .assign dst expr => genExpr expr ++ genDst dst expr
  | .set _ expr => genExpr expr
  | .store addr value ty => genExpr addr ++ genExpr value ++ constrainSome (ptrBase addr) (.ptr ty) ++
    constrainSome (asUse value) ty
  | .branch cond _ _ => genExpr cond
  | .switch value _ _ => genExpr value
  | .ret (some e) => genExpr e
  | .callStmt e => genExpr e
  | _ => []

/-! ### Inference -/

def genFunction (f : IrFunction) : List Fact := f.blocks.flatMap fun b => b.stmts.flatMap genStmt

def buildEnv (f : IrFunction) : TypeEnv :=
  (genFunction f).foldl TypeEnv.apply (TypeEnv.new f.nextValue)

/-- One turn of the loop of `infer`. -/
def collectType (s : TypeEnv × (ValueId → Option Ty)) (v : ValueId) :
    TypeEnv × (ValueId → Option Ty) :=
  let (env, t) := s.1.get v
  (env, if t = .unknown then s.2 else Function.update s.2 v (some t))

/-- `infer`: the types of the values, where they are known. -/
def infer (f : IrFunction) : ValueId → Option Ty :=
  ((List.range f.nextValue).foldl collectType (buildEnv f, fun _ => none)).2

end Aret.Types
