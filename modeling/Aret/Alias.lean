/-
Which memory accesses may touch a common byte.

Design notes: offsets are integers within 64 bits, where a plain sum that leaves
them gives nothing (the code panics), and a wrapping one comes round.
-/
import Aret.Opt
import Aret.LiftRun
import Mathlib.Data.BitVec

namespace Aret.Alias

open Lift (Word)

/-- `as i64`. -/
def i64 (x : ℤ) : ℤ := x.bmod (2 ^ 64)

/-- `+` on `i64`. -/
def i64Add? (a b : ℤ) : Option ℤ :=
  if -2 ^ 63 ≤ a + b ∧ a + b < 2 ^ 63 then some (a + b) else none

inductive MemRef where
  | frame (off : ℤ) (width : ℕ)
  | global (width : ℕ)
  | unknown
  deriving DecidableEq, Repr

/-- `is_frame_reg`: the stack pointer and the frame pointer. -/
def isFrameReg (r : ℕ) : Bool := r == 4 || r == 5

def classifyOff? (width : ℕ) : Expr → ℤ → Option MemRef
  | .const _ _, _ => some (.global width)
  | .addr (.frame d), off => (i64Add? d off).map fun o => .frame o width
  | .addr _, _ => some (.global width)
  | .read (.reg r), off => some (if isFrameReg r then .frame off width else .unknown)
  | .binary .add a (.const k _), off => classifyOff? width a (i64 (off + i64 k))
  | .binary .add (.const k _) b, off => classifyOff? width b (i64 (off + i64 k))
  | .binary .sub a (.const k _), off => classifyOff? width a (i64 (off - i64 k))
  | _, _ => some .unknown

def classify? (addr : Expr) (width : ℕ) : Option MemRef := classifyOff? width addr 0

def rangesOverlap? (o1 b1 o2 b2 : ℤ) : Option Bool := do
  let end2 ← i64Add? o2 b2
  if o1 < end2 then
    let end1 ← i64Add? o1 b1
    some (decide (o2 < end1))
  else some false

/-- `(w / 8).max(1)`. -/
def byteCount (width : ℕ) : ℕ := max (width / 8) 1

def mayAlias? : MemRef → MemRef → Option Bool
  | .unknown, _ | _, .unknown => some true
  | .frame o1 w1, .frame o2 w2 => rangesOverlap? o1 (byteCount w1) o2 (byteCount w2)
  | .frame _ _, .global _ | .global _, .frame _ _ => some false
  | .global _, .global _ => some true

def verdict? (a1 : Expr) (w1 : ℕ) (a2 : Expr) (w2 : ℕ) : Option Bool := do
  let r1 ← classify? a1 w1
  let r2 ← classify? a2 w2
  mayAlias? r1 r2

/-! ### Functions -/

mutual

/-- The nodes of an expression, as `walk_exprs` meets them. -/
def nodes : Expr → List Expr
  | .load a ty => .load a ty :: nodes a
  | .unary op x => .unary op x :: nodes x
  | .cast ty x => .cast ty x :: nodes x
  | .binary op a b => .binary op a b :: (nodes a ++ nodes b)
  | .select c t e => .select c t e :: (nodes c ++ nodes t ++ nodes e)
  | .call (.indirect x) args ret => .call (.indirect x) args ret :: (nodes x ++ nodesOfArgs args)
  | .call t args ret => .call t args ret :: nodesOfArgs args
  | e => [e]

def nodesOfArgs : List Expr → List Expr
  | [] => []
  | e :: es => nodes e ++ nodesOfArgs es

end

/-- `walk_exprs`: every node of every expression. -/
def walkExprs (f : IrFunction) : List Expr := (f.stmts.flatMap Stmt.exprs).flatMap nodes

def frameAddressTaken (f : IrFunction) : Bool :=
  (walkExprs f).any fun
    | .addr (.frame _) => true
    | _ => false

/-- `int_bits_u32`. -/
def intBits : Ty → ℕ
  | .int bits _ => bits
  | _ => 64

def genericAccesses (f : IrFunction) : List (Expr × Ty) :=
  ((walkExprs f).filterMap fun
    | .load a ty => some (a, ty)
    | _ => none) ++
  f.stmts.filterMap fun
    | .store a _ ty => some (a, ty)
    | _ => none

def hasUnknownAccess? (f : IrFunction) : Option Bool :=
  (genericAccesses f).foldlM (fun found x => do
    let r ← classify? x.1 (intBits x.2)
    some (found || r == .unknown)) false

def framePromotable? (f : IrFunction) : Option Bool :=
  if frameAddressTaken f then some false else (hasUnknownAccess? f).map (!·)

/-! ### What an address is -/

inductive Root where
  | rsp
  | rbp
  | absolute
  deriving DecidableEq, Repr

def root : Expr → Option Root
  | .const _ _ => some .absolute
  | .addr (.frame _) => some .rbp
  | .addr _ => some .absolute
  | .read (.reg r) => if r = 4 then some .rsp else if r = 5 then some .rbp else none
  | .binary .add a (.const _ _) => root a
  | .binary .add (.const _ _) b => root b
  | .binary .sub a (.const _ _) => root a
  | _ => none

/-- A state of the registers; what else an address may hold is open. `frame` is the
memory of the frame. -/
structure RegState where
  reg : ℕ → Word
  place : Location → Word
  other : Expr → Word
  frame : Word → Prop

def Root.reg (s : RegState) : Root → Word
  | .rsp => s.reg 4
  | .rbp => s.reg 5
  | .absolute => 0

/-- The value of an address: frame slots lie at `rbp`. -/
def RegState.address (s : RegState) : Expr → Word
  | .const c _ => BitVec.ofInt 64 c
  | .addr (.frame d) => s.reg 5 + BitVec.ofInt 64 d
  | .addr l => s.place l
  | .read (.reg r) => s.reg r
  | .binary .add a b => s.address a + s.address b
  | .binary .sub a b => s.address a - s.address b
  | e => s.other e

/-- Byte `i` of the access. -/
def RegState.byte (s : RegState) (a : Expr) (i : ℕ) : Word := s.address a + BitVec.ofNat 64 i

/-- Frame memory is disjoint from absolute addresses: an access from `rsp` or `rbp` stays in
the one, and an absolute access out of it. -/
def RegState.Apart (s : RegState) (a : Expr) (w : ℕ) : Prop :=
  ∀ i < byteCount w, match root a with
    | some .rsp | some .rbp => s.frame (s.byte a i)
    | some .absolute => ¬s.frame (s.byte a i)
    | none => True

/-! ### Classes and roots -/

/-- The offsets that `i64` holds. -/
def InRange (o : ℤ) : Prop := -2 ^ 63 ≤ o ∧ o < 2 ^ 63

theorem inRange_i64 (x : ℤ) : InRange (i64 x) := by
  have h1 := Int.le_bmod (x := x) (m := 2 ^ 64) (by norm_num)
  have h2 := Int.bmod_lt (x := x) (m := 2 ^ 64) (by norm_num)
  rw [InRange, i64]
  omega

theorem ofInt_i64 (x : ℤ) : BitVec.ofInt 64 (i64 x) = BitVec.ofInt 64 x := by
  apply BitVec.eq_of_toInt_eq
  rw [BitVec.toInt_ofInt, BitVec.toInt_ofInt, i64, Int.bmod_bmod]

variable {w : ℕ} {e : Expr} {off : ℤ}

theorem ofInt_add (x y : ℤ) :
    BitVec.ofInt 64 (x + y) = BitVec.ofInt 64 x + BitVec.ofInt 64 y := by
  apply BitVec.eq_of_toInt_eq
  simp [BitVec.toInt_ofInt, BitVec.toInt_add]

theorem ofInt_sub (x y : ℤ) :
    BitVec.ofInt 64 (x - y) = BitVec.ofInt 64 x - BitVec.ofInt 64 y := by
  apply BitVec.eq_of_toInt_eq
  simp [BitVec.toInt_ofInt, BitVec.toInt_sub]

theorem fold_add (x : Word) (off k : ℤ) :
    x + BitVec.ofInt 64 (i64 (off + i64 k)) = x + BitVec.ofInt 64 k + BitVec.ofInt 64 off := by
  rw [ofInt_i64, ofInt_add, ofInt_i64, BitVec.add_assoc, BitVec.add_comm (BitVec.ofInt 64 off)]

theorem fold_sub (x : Word) (off k : ℤ) :
    x + BitVec.ofInt 64 (i64 (off - i64 k)) = x - BitVec.ofInt 64 k + BitVec.ofInt 64 off := by
  rw [ofInt_i64, ofInt_sub, ofInt_i64]
  ring

theorem classifyOff?_frame {o : ℤ} {v : ℕ} (h : classifyOff? w e off = some (.frame o v))
    (hoff : InRange off) : v = w ∧ InRange o ∧ ∃ r, root e = some r ∧ r ≠ .absolute ∧
      ∀ s : RegState, s.address e + BitVec.ofInt 64 off = r.reg s + BitVec.ofInt 64 o := by
  fun_induction classifyOff? w e off with
  | case1 => cases h
  | case2 d off =>
    obtain ⟨sum, hsum, heq⟩ := Option.map_eq_some_iff.mp h
    obtain ⟨rfl, rfl⟩ := MemRef.frame.inj heq
    rw [i64Add?] at hsum
    split_ifs at hsum with hin
    obtain rfl := Option.some.inj hsum
    refine ⟨rfl, hin, .rbp, rfl, nofun, fun s => ?_⟩
    show s.reg 5 + _ + _ = s.reg 5 + _
    rw [ofInt_add, BitVec.add_assoc]
  | case3 => cases h
  | case4 r off =>
    rw [Option.some_inj] at h
    split_ifs at h with hr
    obtain ⟨rfl, rfl⟩ := MemRef.frame.inj h
    rw [isFrameReg, Bool.or_eq_true, beq_iff_eq, beq_iff_eq] at hr
    rcases hr with rfl | rfl
    · exact ⟨rfl, hoff, .rsp, rfl, nofun, fun s => rfl⟩
    · exact ⟨rfl, hoff, .rbp, rfl, nofun, fun s => rfl⟩
  | case5 a k ty off ih =>
    obtain ⟨hv, ho, r, hr, hne, haddr⟩ := ih h (inRange_i64 _)
    exact ⟨hv, ho, r, hr, hne, fun s => (fold_add _ _ _).symm.trans (haddr s)⟩
  | case6 k ty b off hb ih =>
    obtain ⟨hv, ho, r, hr, hne, haddr⟩ := ih h (inRange_i64 _)
    refine ⟨hv, ho, r, ?_, hne, fun s => ?_⟩
    · rw [← hr]
      cases b with
      | const k' ty' => exact absurd rfl (hb k' ty')
      | _ => rfl
    · show BitVec.ofInt 64 k + s.address b + _ = _
      rw [BitVec.add_comm (BitVec.ofInt 64 k), ← fold_add, haddr s]
  | case7 a k ty off ih =>
    obtain ⟨hv, ho, r, hr, hne, haddr⟩ := ih h (inRange_i64 _)
    exact ⟨hv, ho, r, hr, hne, fun s => (fold_sub _ _ _).symm.trans (haddr s)⟩
  | case8 => cases h

theorem classifyOff?_global {v : ℕ} (h : classifyOff? w e off = some (.global v)) :
    root e = some .absolute := by
  fun_induction classifyOff? w e off with
  | case1 => rfl
  | case2 d off =>
    obtain ⟨sum, -, heq⟩ := Option.map_eq_some_iff.mp h
    cases heq
  | case3 l off hl =>
    cases l with
    | frame d => exact absurd rfl (hl d)
    | _ => rfl
  | case4 r off =>
    rw [Option.some_inj] at h
    split_ifs at h
  | case5 a k ty off ih => exact ih h
  | case6 k ty b off hb ih =>
    rw [← ih h]
    cases b with
    | const k' ty' => exact absurd rfl (hb k' ty')
    | _ => rfl
  | case7 a k ty off ih => exact ih h
  | case8 => cases h

/-! ### The verdict -/

theorem byte_eq_iff {x : Word} {o1 o2 : ℤ} {i j : ℕ} :
    x + BitVec.ofInt 64 o1 + BitVec.ofNat 64 i = x + BitVec.ofInt 64 o2 + BitVec.ofNat 64 j ↔
      (o1 + i) % 2 ^ 64 = (o2 + j) % 2 ^ 64 := by
  rw [← Lift.ofInt_nat, ← Lift.ofInt_nat, BitVec.add_assoc, BitVec.add_assoc, ← ofInt_add,
    ← ofInt_add, BitVec.add_right_inj, ← BitVec.toNat_inj, BitVec.toNat_ofInt, BitVec.toNat_ofInt]
  omega

/-- Where the verdict on two addresses is right in every state: two places of the frame have
one root and do not come round to each other, or their ranges of offsets meet. -/
def Comparable (a1 : Expr) (w1 : ℕ) (a2 : Expr) (w2 : ℕ) : Prop :=
  ∀ o1 v1 o2 v2, classify? a1 w1 = some (.frame o1 v1) → classify? a2 w2 = some (.frame o2 v2) →
    rangesOverlap? o1 (byteCount w1) o2 (byteCount w2) = some false →
      root a1 = root a2 ∧ o1 + byteCount w1 ≤ o2 + 2 ^ 64

def VerdictSound (a1 : Expr) (w1 : ℕ) (a2 : Expr) (w2 : ℕ) : Prop :=
  ∀ s : RegState, s.Apart a1 w1 → s.Apart a2 w2 → verdict? a1 w1 a2 w2 = some false →
    ∀ i < byteCount w1, ∀ j < byteCount w2, s.byte a1 i ≠ s.byte a2 j

theorem rangesOverlap?_false {o1 b1 o2 b2 : ℤ} (h : rangesOverlap? o1 b1 o2 b2 = some false) :
    o2 + b2 ≤ o1 ∨ o1 + b1 ≤ o2 ∧ o2 + b2 < 2 ^ 63 := by
  rw [rangesOverlap?, i64Add?] at h
  split_ifs at h with hend2
  · rw [Option.bind_eq_bind, Option.bind_some] at h
    split_ifs at h with hlt
    · rw [i64Add?] at h
      split_ifs at h with hend1
      · have hnot := of_decide_eq_false (Option.some.inj h)
        exact .inr ⟨by omega, hend2.2⟩
      · cases h
    · exact .inl (by omega)
  · cases h

theorem byteCount_pos (w : ℕ) : 0 < byteCount w := by
  rw [byteCount]
  omega

theorem byteCount_lt {w : ℕ} (hw : w < 2 ^ 32) : byteCount w < 2 ^ 30 := by
  rw [byteCount]
  omega

def allFrame (rsp : Word) : RegState where
  reg r := if r = 4 then rsp else 0
  place := fun _ => 0
  other := fun _ => 0
  frame := fun _ => True

theorem verdictSound_iff (a1 : Expr) (w1 : ℕ) (a2 : Expr) (w2 : ℕ) (hw1 : w1 < 2 ^ 32)
    (hw2 : w2 < 2 ^ 32) : VerdictSound a1 w1 a2 w2 ↔ Comparable a1 w1 a2 w2 := by
  have hzero : InRange 0 := by
    rw [InRange]
    omega
  have hplace : ∀ {a w o v}, classify? a w = some (.frame o v) → v = w ∧ InRange o ∧
      ∃ r, root a = some r ∧ r ≠ .absolute ∧
        ∀ s : RegState, s.address a = r.reg s + BitVec.ofInt 64 o := by
    intro a w o v h
    obtain ⟨hv, ho, r, hr, hne, haddr⟩ := classifyOff?_frame h hzero
    refine ⟨hv, ho, r, hr, hne, fun s => ?_⟩
    rw [← haddr s]
    exact (BitVec.add_zero _).symm
  have hb1 := byteCount_lt hw1
  have hb2 := byteCount_lt hw2
  constructor
  · -- Where the condition fails there is a state in which the ranges meet.
    intro h o1 v1 o2 v2 hc1 hc2 hover
    obtain ⟨rfl, ho1, r1, hr1, hne1, haddr1⟩ := hplace hc1
    obtain ⟨rfl, ho2, r2, hr2, hne2, haddr2⟩ := hplace hc2
    have hverdict : verdict? a1 v1 a2 v2 = some false := by
      rw [verdict?, hc1, hc2]
      exact hover
    have hapart : ∀ rsp {a r w}, root a = some r → r ≠ .absolute →
        (allFrame rsp).Apart a w := by
      intro rsp a r w hr hne i _
      rw [hr]
      cases r with
      | absolute => exact absurd rfl hne
      | _ => trivial
    have hmeet : ∀ rsp i j, i < byteCount v1 → j < byteCount v2 →
        (allFrame rsp).byte a1 i ≠ (allFrame rsp).byte a2 j := fun rsp i j hi hj =>
      h (allFrame rsp) (hapart rsp hr1 hne1) (hapart rsp hr2 hne2) hverdict i hi j hj
    have hroots : r1 = r2 := by
      by_contra hne
      -- The stack pointer is put where the two addresses fall together.
      have hsame : ∃ rsp, (allFrame rsp).address a1 = (allFrame rsp).address a2 := by
        have h0 : (0 : Word) = BitVec.ofInt 64 0 := rfl
        rcases r1 with _ | _ | _ <;> rcases r2 with _ | _ | _
        · exact absurd rfl hne
        · refine ⟨BitVec.ofInt 64 (o2 - o1), ?_⟩
          rw [haddr1, haddr2]
          show BitVec.ofInt 64 (o2 - o1) + _ = 0 + _
          rw [← ofInt_add, h0, ← ofInt_add]
          congr 1
          omega
        · exact absurd rfl hne2
        · refine ⟨BitVec.ofInt 64 (o1 - o2), ?_⟩
          rw [haddr1, haddr2]
          show 0 + _ = BitVec.ofInt 64 (o1 - o2) + _
          rw [← ofInt_add, h0, ← ofInt_add]
          congr 1
          omega
        · exact absurd rfl hne
        · exact absurd rfl hne2
        · exact absurd rfl hne1
        · exact absurd rfl hne1
        · exact absurd rfl hne1
      obtain ⟨rsp, hrsp⟩ := hsame
      refine hmeet rsp 0 0 (byteCount_pos _) (byteCount_pos _) ?_
      rw [RegState.byte, RegState.byte, hrsp]
    subst hroots
    refine ⟨by rw [hr1, hr2], ?_⟩
    by_contra hround
    obtain ⟨hlo1, hhi1⟩ := ho1
    obtain ⟨hlo2, hhi2⟩ := ho2
    refine hmeet 0 (o2 + 2 ^ 64 - o1).toNat 0 (by omega) (byteCount_pos _) ?_
    rw [RegState.byte, RegState.byte, haddr1, haddr2, byte_eq_iff]
    omega
  · intro h s hs1 hs2 hverdict i hi j hj
    rw [verdict?] at hverdict
    obtain ⟨c1, hc1, hrest⟩ := Option.bind_eq_some_iff.mp hverdict
    obtain ⟨c2, hc2, hlast⟩ := Option.bind_eq_some_iff.mp hrest
    have hframe : ∀ {a w o v}, classify? a w = some (.frame o v) → s.Apart a w →
        ∀ i < byteCount w, s.frame (s.byte a i) := by
      intro a w o v hc hs i hi
      obtain ⟨-, -, r, hr, hne, -⟩ := hplace hc
      have hin := hs i hi
      rw [hr] at hin
      cases r with
      | absolute => exact absurd rfl hne
      | _ => exact hin
    have hglobal : ∀ {a w v}, classify? a w = some (.global v) → s.Apart a w →
        ∀ i < byteCount w, ¬s.frame (s.byte a i) := by
      intro a w v hc hs i hi
      have hin := hs i hi
      rw [classifyOff?_global hc] at hin
      exact hin
    cases c1 with
    | unknown => cases hlast
    | global v1 =>
      cases c2 with
      | unknown => cases hlast
      | global v2 => cases hlast
      | frame o2 v2 =>
        intro heq
        exact hglobal hc1 hs1 i hi (heq ▸ hframe hc2 hs2 j hj)
    | frame o1 v1 =>
      cases c2 with
      | unknown => cases hlast
      | global v2 =>
        intro heq
        exact hglobal hc2 hs2 j hj (heq ▸ hframe hc1 hs1 i hi)
      | frame o2 v2 =>
        obtain ⟨rfl, ho1, r1, hr1, -, haddr1⟩ := hplace hc1
        obtain ⟨rfl, ho2, r2, hr2, -, haddr2⟩ := hplace hc2
        obtain ⟨hroots, hround⟩ := h o1 _ o2 _ hc1 hc2 hlast
        obtain rfl : r1 = r2 := Option.some.inj (hr1.symm.trans (hroots.trans hr2))
        rw [RegState.byte, RegState.byte, haddr1, haddr2, ne_eq, byte_eq_iff]
        obtain ⟨hlo1, hhi1⟩ := ho1
        obtain ⟨hlo2, hhi2⟩ := ho2
        rcases rangesOverlap?_false hlast with hle | ⟨hle, hend⟩
        · omega
        · omega

end Aret.Alias
