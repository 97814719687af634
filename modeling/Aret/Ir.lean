/-
The typed intermediate representation.

Expressions are trees over abstract storage locations (`Expr.read`, before SSA
renaming) or versioned values (`Expr.use`, after it); a function is a list of
basic blocks with explicit successor and predecessor lists.

Design notes: the machine integers that only name things (`ValueId`, `RegId`,
`BlockId`, addresses) are natural numbers, and an `i128` constant is an `ℤ`.
-/
import Mathlib.Data.List.Basic
import Mathlib.Data.List.Nodup
import Mathlib.Tactic

namespace Aret

/-- An SSA value: a versioned definition of some `Location`. -/
abbrev ValueId := ℕ

inductive FlagKind where
  | zf | sf | of | cf | pf | af | df
  deriving DecidableEq, Repr

/-- An abstract storage location, before SSA renaming. -/
inductive Location where
  | reg (r : ℕ)
  | flag (k : FlagKind)
  | frame (d : ℤ)
  | mem
  | temp (t : ℕ)
  deriving DecidableEq, Repr

inductive Ty where
  | unknown
  | int (bits : ℕ) (signed : Option Bool)
  | ptr (t : Ty)
  | float (bits : ℕ)
  | aggregate (id : ℕ)
  | code
  | bool
  deriving DecidableEq, Repr

/-- `Ty::int`: an integer of unknown signedness. -/
abbrev Ty.ofBits (bits : ℕ) : Ty := .int bits none

inductive UnOp where
  | neg | not | signExtend | zeroExtend | truncate
  deriving DecidableEq, Repr

inductive BinOp where
  | add | sub | mul | udiv | sdiv | umod | smod
  | and | or | xor | shl | shr | sar
  | eq | ne | ult | ule | ugt | uge | slt | sle | sgt | sge
  deriving DecidableEq, Repr

/-- Where a call transfers to; an indirect target is computed at run time. -/
inductive CallTarget (ε : Type) where
  | direct (addr : ℕ)
  | indirect (e : ε)
  | named (n : String)
  deriving DecidableEq, Repr

inductive Expr where
  | const (v : ℤ) (ty : Ty)
  | read (l : Location)
  | use (v : ValueId)
  | load (addr : Expr) (ty : Ty)
  | unary (op : UnOp) (x : Expr)
  | binary (op : BinOp) (a b : Expr)
  | cast (ty : Ty) (x : Expr)
  | addr (l : Location)
  | call (target : CallTarget Expr) (args : List Expr) (ret : Ty)
  | select (cond then_ else_ : Expr)
  | phi (args : List ValueId)
  | undef

namespace Expr

abbrev konst (v : ℤ) (bits : ℕ) : Expr := .const v (.ofBits bits)

mutual

def beq : Expr → Expr → Bool
  | .const v t, .const v' t' => decide (v = v') && decide (t = t')
  | .read l, .read l' => decide (l = l')
  | .use v, .use v' => decide (v = v')
  | .load a t, .load a' t' => beq a a' && decide (t = t')
  | .unary o x, .unary o' x' => decide (o = o') && beq x x'
  | .binary o a b, .binary o' a' b' => decide (o = o') && beq a a' && beq b b'
  | .cast t x, .cast t' x' => decide (t = t') && beq x x'
  | .addr l, .addr l' => decide (l = l')
  | .call (.direct a) args r, .call (.direct a') args' r' =>
    decide (a = a') && beqs args args' && decide (r = r')
  | .call (.indirect e) args r, .call (.indirect e') args' r' =>
    beq e e' && beqs args args' && decide (r = r')
  | .call (.named n) args r, .call (.named n') args' r' =>
    decide (n = n') && beqs args args' && decide (r = r')
  | .select c t e, .select c' t' e' => beq c c' && beq t t' && beq e e'
  | .phi args, .phi args' => decide (args = args')
  | .undef, .undef => true
  | _, _ => false

def beqs : List Expr → List Expr → Bool
  | [], [] => true
  | e :: es, e' :: es' => beq e e' && beqs es es'
  | _, _ => false

end

mutual

theorem eq_of_beq : ∀ {e e' : Expr}, beq e e' = true → e = e' := by
  intro e e' h
  match e, e' with
  | .const _ _, .const _ _ => simpa [beq] using h
  | .read _, .read _ => simpa [beq] using h
  | .use _, .use _ => simpa [beq] using h
  | .load a _, .load a' _ =>
    simp only [beq, Bool.and_eq_true, decide_eq_true_eq] at h
    rw [eq_of_beq h.1, h.2]
  | .unary _ x, .unary _ x' =>
    simp only [beq, Bool.and_eq_true, decide_eq_true_eq] at h
    rw [h.1, eq_of_beq h.2]
  | .binary _ a b, .binary _ a' b' =>
    simp only [beq, Bool.and_eq_true, decide_eq_true_eq] at h
    rw [h.1.1, eq_of_beq h.1.2, eq_of_beq h.2]
  | .cast _ x, .cast _ x' =>
    simp only [beq, Bool.and_eq_true, decide_eq_true_eq] at h
    rw [h.1, eq_of_beq h.2]
  | .addr _, .addr _ => simpa [beq] using h
  | .call (.direct _) args _, .call (.direct _) args' _ =>
    simp only [beq, Bool.and_eq_true, decide_eq_true_eq] at h
    rw [h.1.1, eqs_of_beqs h.1.2, h.2]
  | .call (.indirect x) args _, .call (.indirect x') args' _ =>
    simp only [beq, Bool.and_eq_true, decide_eq_true_eq] at h
    rw [eq_of_beq h.1.1, eqs_of_beqs h.1.2, h.2]
  | .call (.named _) args _, .call (.named _) args' _ =>
    simp only [beq, Bool.and_eq_true, decide_eq_true_eq] at h
    rw [h.1.1, eqs_of_beqs h.1.2, h.2]
  | .select c t f, .select c' t' f' =>
    simp only [beq, Bool.and_eq_true] at h
    rw [eq_of_beq h.1.1, eq_of_beq h.1.2, eq_of_beq h.2]
  | .phi _, .phi _ => simpa [beq] using h
  | .undef, .undef => rfl

theorem eqs_of_beqs : ∀ {es es' : List Expr}, beqs es es' = true → es = es' := by
  intro es es' h
  match es, es' with
  | [], [] => rfl
  | e :: es, e' :: es' =>
    simp only [beqs, Bool.and_eq_true] at h
    rw [eq_of_beq h.1, eqs_of_beqs h.2]

end

mutual

theorem beq_refl : ∀ e : Expr, beq e e = true
  | .const _ _ | .read _ | .use _ | .addr _ | .phi _ | .undef => by simp [beq]
  | .load a _ => by simp [beq, beq_refl a]
  | .unary _ x => by simp [beq, beq_refl x]
  | .binary _ a b => by simp [beq, beq_refl a, beq_refl b]
  | .cast _ x => by simp [beq, beq_refl x]
  | .call (.direct _) args _ => by simp [beq, beqs_refl args]
  | .call (.indirect x) args _ => by simp [beq, beq_refl x, beqs_refl args]
  | .call (.named _) args _ => by simp [beq, beqs_refl args]
  | .select c t e => by simp [beq, beq_refl c, beq_refl t, beq_refl e]

theorem beqs_refl : ∀ es : List Expr, beqs es es = true
  | [] => by simp [beqs]
  | e :: es => by simp [beqs, beq_refl e, beqs_refl es]

end

instance decEq : DecidableEq Expr := fun a b =>
  decidable_of_iff (beq a b = true) ⟨eq_of_beq, fun h => h ▸ beq_refl a⟩

end Expr

inductive Stmt where
  /-- Pre-SSA assignment to a location. -/
  | set (dst : Location) (expr : Expr)
  /-- SSA definition. -/
  | assign (dst : ValueId) (expr : Expr)
  | store (addr value : Expr) (ty : Ty)
  | branch (cond : Expr) (taken fallthrough : ℕ)
  | jump (b : ℕ)
  | switch (value : Expr) (cases : List (ℤ × ℕ)) (default_ : ℕ)
  | ret (e : Option Expr)
  | callStmt (e : Expr)
  | asm (text : String)
  | nop
  deriving DecidableEq

namespace Stmt

/-- `is_control`: the statements that end a block by transferring control. -/
def isControl : Stmt → Bool
  | .branch .. | .jump _ | .ret _ | .switch .. => true
  | _ => false

def targets : Stmt → List ℕ
  | .branch _ t f => [t, f]
  | .jump b => [b]
  | .switch _ cases _ => cases.map Prod.snd
  | _ => []

@[simp] theorem targets_branch (c : Expr) (t f : ℕ) : (branch c t f).targets = [t, f] := rfl

@[simp] theorem targets_jump (b : ℕ) : (jump b).targets = [b] := rfl

@[simp] theorem targets_switch (v : Expr) (cases : List (ℤ × ℕ)) (d : ℕ) :
    (switch v cases d).targets = cases.map Prod.snd := rfl

@[simp] theorem targets_ret (e : Option Expr) : (ret e).targets = [] := rfl

@[simp] theorem targets_asm (t : String) : (asm t).targets = [] := rfl

end Stmt

/-- A basic block: its statements and its CFG edges. -/
structure Block where
  id : ℕ
  addr : ℕ
  stmts : List Stmt
  succ : List ℕ
  pred : List ℕ
  deriving DecidableEq

instance : Inhabited Block := ⟨⟨0, 0, [], [], []⟩⟩

structure IrFunction where
  entry : ℕ
  name : String
  /-- Target pointer width, 32 or 64. -/
  bits : ℕ
  regParams : List ValueId
  frameBaseValues : List ValueId
  fp80Values : List ValueId
  /-- The values locations hold on entry, before any definition. -/
  entryValues : List (Location × ValueId)
  blocks : List Block
  nextValue : ℕ
  nextTemp : ℕ

namespace IrFunction

/-- The block the function starts in: the first one at the entry address, or
block `0` when there is none. -/
def entryIndex (f : IrFunction) : ℕ :=
  (f.blocks.findIdx? fun b => b.addr == f.entry).getD 0

/-- The block at index `i` (an empty block past the end). -/
def block (f : IrFunction) (i : ℕ) : Block := f.blocks.getD i default

end IrFunction

end Aret
