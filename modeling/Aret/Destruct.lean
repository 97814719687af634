/-
SSA destruction.

The model of `destruct_ssa`: every edge into a block with phis gets a block of its
own, which copies the phi arguments of that edge one after the other and jumps on.
The code indexes argument lists and looks predecessors up without a check, so the
pass may fail.
-/
import Aret.SsaPlace
import Mathlib.Data.List.ModifyLast

namespace Aret

/-! ### The pass -/

/-- Where an edge goes once the edge to `src` goes to `dst`. -/
def redirectTo (src dst t : ℕ) : ℕ := if t = src then dst else t

/-- `redirect_terminator`. -/
def Stmt.redirect (src dst : ℕ) : Stmt → Stmt
  | .jump t => .jump (redirectTo src dst t)
  | .branch c t f => .branch c (redirectTo src dst t) (redirectTo src dst f)
  | .switch v cases d =>
    .switch v (cases.map fun c => (c.1, redirectTo src dst c.2)) (redirectTo src dst d)
  | s => s

/-- A predecessor whose edges to `src` go to `dst` from now on. -/
def Block.redirect (src dst : ℕ) (b : Block) : Block :=
  { b with
    stmts := b.stmts.modifyLast (Stmt.redirect src dst)
    succ := b.succ.map (redirectTo src dst) }

/-- The pass under way: the blocks of the function, and the blocks to be appended. -/
structure Destruct where
  blocks : List Block
  nextId : ℕ
  newBlocks : List Block

/-- The copies for slot `i`. -/
def phiCopies (i : ℕ) (phis : List (ValueId × List ValueId)) : Option (List Stmt) :=
  phis.mapM fun φ => do
    let a ← φ.2[i]?
    return .assign φ.1 (.use a)

namespace Destruct

/-- The edge at slot `i`, from predecessor `p`, into the block with id `s`. -/
def edge (s : ℕ) (phis : List (ValueId × List ValueId)) (st : Destruct) (e : ℕ × ℕ) :
    Option Destruct := do
  let stmts ← phiCopies e.2 phis
  let k ← st.blocks.findIdx? fun b => b.id == e.1
  return ⟨st.blocks.modify k (Block.redirect s st.nextId), st.nextId + 1,
    st.newBlocks ++ [⟨st.nextId, 0, stmts ++ [.jump s], [s], [e.1]⟩]⟩

/-- All edges into block `s`; its phis go. -/
def join (st : Destruct) (s : ℕ) : Option Destruct := do
  let b ← st.blocks[s]?
  if b.phis.isEmpty then return st
  let st' ← b.pred.zipIdx.foldlM (edge b.id b.phis) st
  return { st' with
    blocks := st'.blocks.modify s fun b' =>
      { b' with
        pred := (List.range b.pred.length).map fun k => st'.nextId - b.pred.length + k
        stmts := b'.body } }

def func (st : Destruct) (f : IrFunction) : IrFunction :=
  { f with blocks := st.blocks ++ st.newBlocks }

end Destruct

def destructSsa (f : IrFunction) : Option IrFunction := do
  let st ← (List.range f.blocks.length).foldlM Destruct.join
    ⟨f.blocks, (f.blocks.map Block.id).foldr max 0 + 1, []⟩
  return st.func f

/-! ### Redirecting -/

section
variable {src dst : ℕ}

@[simp] theorem Stmt.redirect_phi? (s : Stmt) : (s.redirect src dst).phi? = s.phi? := by
  cases s with
  | _ => rfl

@[simp] theorem Stmt.redirect_isControl (s : Stmt) :
    (s.redirect src dst).isControl = s.isControl := by
  cases s with
  | ret e => cases e <;> rfl
  | _ => rfl

theorem Stmt.redirect_of_not_control {s : Stmt} (h : s.isControl = false) :
    s.redirect src dst = s := by
  cases s with
  | branch | jump | switch => cases h
  | _ => rfl

def EndsLast (ss : List Stmt) : Prop := ss.Pairwise fun s _ => s.isControl = false

theorem EndsLast.modifyLast_redirect {ss : List Stmt} (h : EndsLast ss) :
    ss.modifyLast (Stmt.redirect src dst) = ss.map (Stmt.redirect src dst) := by
  rcases List.eq_nil_or_concat ss with rfl | ⟨init, s, rfl⟩
  · rfl
  · have hinit : ∀ s' ∈ init, s'.isControl = false := by
      intro s' hs'
      rw [EndsLast, List.concat_eq_append, List.pairwise_append] at h
      exact h.2.2 s' hs' s (List.mem_singleton_self s)
    have hid : init.map (Stmt.redirect src dst) = init := by
      conv_rhs => rw [← List.map_id init]
      exact List.map_congr_left fun s' hs' => Stmt.redirect_of_not_control (hinit s' hs')
    rw [List.concat_eq_append, List.modifyLast_concat, List.map_append, hid]
    rfl

theorem EndsLast.map_redirect {ss : List Stmt} (h : EndsLast ss) :
    EndsLast (ss.map (Stmt.redirect src dst)) := by
  rw [EndsLast, List.pairwise_map]
  simpa [EndsLast] using h

@[simp] theorem redirectTo_idem (hne : src ≠ dst) (dst' t : ℕ) :
    redirectTo src dst' (redirectTo src dst t) = redirectTo src dst t := by
  rw [redirectTo]
  split_ifs with h
  · rw [redirectTo] at h
    split_ifs at h with ht
    · exact absurd h.symm hne
    · exact absurd h ht
  · rfl

theorem Block.redirect_redirect (hne : src ≠ dst) (dst' : ℕ) (b : Block) :
    (b.redirect src dst).redirect src dst' = b.redirect src dst := by
  have hstmt : ∀ s : Stmt, (s.redirect src dst).redirect src dst' = s.redirect src dst := by
    intro s
    cases s with
    | switch v cases d => simp [Stmt.redirect, redirectTo_idem hne]
    | branch | jump => simp [Stmt.redirect, redirectTo_idem hne]
    | _ => rfl
  have hlast : ∀ ss : List Stmt, (ss.modifyLast (Stmt.redirect src dst)).modifyLast
      (Stmt.redirect src dst') = ss.modifyLast (Stmt.redirect src dst) := by
    intro ss
    rcases List.eq_nil_or_concat ss with rfl | ⟨init, s, rfl⟩
    · rfl
    · rw [List.concat_eq_append, List.modifyLast_concat, List.modifyLast_concat, hstmt]
  simp [Block.redirect, hlast, redirectTo_idem hne]

end

/-! ### The edges into one block -/

/-- The block for the edge at slot `i`, from `p` into `s`. -/
def copyBlock (s : ℕ) (phis : List (ValueId × List ValueId)) (mid i p : ℕ) : Block :=
  ⟨mid, 0, phis.map (fun φ => .assign φ.1 (.use (φ.2.getD i 0))) ++ [.jump s], [s], [p]⟩

theorem phiCopies_eq {i : ℕ} {phis : List (ValueId × List ValueId)}
    (h : ∀ φ ∈ phis, i < φ.2.length) :
    phiCopies i phis = some (phis.map fun φ => .assign φ.1 (.use (φ.2.getD i 0))) := by
  induction phis with
  | nil => rfl
  | cons φ phis ih =>
    obtain ⟨hφ, hphis⟩ := List.forall_mem_cons.mp h
    have hrest := ih hphis
    rw [phiCopies] at hrest ⊢
    rw [List.mapM_cons, hrest]
    simp [List.getElem?_eq_getElem hφ]

namespace Destruct

theorem findIdx?_id {blocks : List Block} (hid : ∀ (q : ℕ) b, blocks[q]? = some b → b.id = q)
    {p : ℕ} (hp : p < blocks.length) : blocks.findIdx? (fun b => b.id == p) = some p := by
  refine List.findIdx?_eq_some_iff_getElem.mpr ⟨hp, ?_, ?_⟩
  · simpa using hid p _ (List.getElem?_eq_getElem hp)
  · intro j hj
    have := hid j _ (List.getElem?_eq_getElem (hj.trans hp))
    simp only [beq_iff_eq, this]
    omega

theorem edges_spec {s : ℕ} {phis : List (ValueId × List ValueId)} (l : List ℕ) {i₀ : ℕ}
    {st : Destruct} (hid : ∀ (q : ℕ) b, st.blocks[q]? = some b → b.id = q)
    (hl : ∀ p ∈ l, p < st.blocks.length) (hs : s < st.nextId)
    (hargs : ∀ φ ∈ phis, i₀ + l.length ≤ φ.2.length) :
    ∃ st', (l.zipIdx i₀).foldlM (edge s phis) st = some st' ∧
      st'.blocks.length = st.blocks.length ∧ st'.nextId = st.nextId + l.length ∧
      st'.newBlocks = st.newBlocks
        ++ l.mapIdx (fun i p => copyBlock s phis (st.nextId + i) (i₀ + i) p) ∧
      ∀ q, st'.blocks[q]? = st.blocks[q]?.map fun b =>
        if q ∈ l then b.redirect s (st.nextId + l.idxOf q) else b := by
  induction l generalizing i₀ st with
  | nil => exact ⟨st, rfl, rfl, rfl, by simp, by simp⟩
  | cons p l ih =>
    obtain ⟨hp, hl'⟩ := List.forall_mem_cons.mp hl
    set st₁ : Destruct := ⟨st.blocks.modify p (Block.redirect s st.nextId), st.nextId + 1,
      st.newBlocks ++ [copyBlock s phis st.nextId i₀ p]⟩ with hst₁
    have hedge : edge s phis st (p, i₀) = some st₁ := by
      have hlt : ∀ φ ∈ phis, i₀ < φ.2.length := by
        intro φ hφ
        have := hargs φ hφ
        rw [List.length_cons] at this
        omega
      rw [edge, phiCopies_eq hlt]
      simp only [findIdx?_id hid hp]
      rfl
    have hget₁ : ∀ q, st₁.blocks[q]? = st.blocks[q]?.map fun b =>
        if q = p then b.redirect s st.nextId else b := by
      intro q
      rw [hst₁]
      dsimp only
      rw [List.getElem?_modify]
      by_cases hqp : p = q
      · simp [hqp]
      · simp [hqp, Ne.symm hqp]
    have hid₁ : ∀ (q : ℕ) b, st₁.blocks[q]? = some b → b.id = q := by
      intro q b hb
      rw [hget₁] at hb
      obtain ⟨b₀, hb₀, rfl⟩ := Option.map_eq_some_iff.mp hb
      split_ifs
      · exact hid q b₀ hb₀
      · exact hid q b₀ hb₀
    have hl₁ : ∀ p ∈ l, p < st₁.blocks.length := by simpa [hst₁] using hl'
    have hargs₁ : ∀ φ ∈ phis, i₀ + 1 + l.length ≤ φ.2.length := by
      intro φ hφ
      have := hargs φ hφ
      rw [List.length_cons] at this
      omega
    obtain ⟨st', hfold, hlen, hnext, hnew, hget⟩ := ih hid₁ hl₁ (Nat.lt_succ_of_lt hs) hargs₁
    refine ⟨st', ?_, by simpa [hst₁] using hlen, ?_, ?_, ?_⟩
    · rw [List.zipIdx_cons, List.foldlM_cons, hedge]
      exact hfold
    · rw [hnext, List.length_cons]
      simp only [hst₁]
      omega
    · rw [hnew, List.mapIdx_cons]
      have hshift : ∀ i p, copyBlock s phis (st₁.nextId + i) (i₀ + 1 + i) p
          = copyBlock s phis (st.nextId + (i + 1)) (i₀ + (i + 1)) p := by
        intro i p
        rw [Nat.add_assoc i₀, Nat.add_comm 1 i, hst₁]
        dsimp only
        rw [Nat.add_assoc st.nextId, Nat.add_comm 1 i]
      simp only [hshift]
      simp [hst₁]
    · intro q
      rw [hget, hget₁, Option.map_map]
      refine congrArg (fun g => Option.map g st.blocks[q]?) (funext fun b => ?_)
      simp only [Function.comp_apply, hst₁, List.mem_cons]
      by_cases hqp : q = p
      · subst hqp
        simp only [if_true, true_or, List.idxOf_cons_self, Nat.add_zero]
        split_ifs
        · exact Block.redirect_redirect (by omega) _ b
        · rfl
      · rw [if_neg hqp, List.idxOf_cons_ne _ (Ne.symm hqp)]
        simp only [hqp, false_or]
        congr 2
        omega

end Destruct

/-- Block `b` at index `q` with its edges into `s` redirected; `base` is the first of
the new blocks. -/
def splitEdge (preds : List ℕ) (s base q : ℕ) (b : Block) : Block :=
  if q ∈ preds then b.redirect s (base + preds.idxOf q) else b

/-- `g'` is `g` with the edges into block `s` split. -/
structure SplitInto (g g' : IrFunction) (s : ℕ) : Prop where
  entry : g'.entry = g.entry
  length : g'.blocks.length = g.blocks.length + (g.block s).pred.length
  old : ∀ q < g.blocks.length, q ≠ s →
    g'.block q = splitEdge (g.block s).pred s g.blocks.length q (g.block q)
  joined : (g'.block s).id = (g.block s).id ∧ (g'.block s).addr = (g.block s).addr ∧
    (g'.block s).stmts = (splitEdge (g.block s).pred s g.blocks.length s (g.block s)).body ∧
    (g'.block s).succ = (splitEdge (g.block s).pred s g.blocks.length s (g.block s)).succ ∧
    (g'.block s).pred = (List.range (g.block s).pred.length).map (g.blocks.length + ·)
  copy : ∀ i < (g.block s).pred.length, g'.block (g.blocks.length + i)
    = copyBlock s (g.block s).phis (g.blocks.length + i) i ((g.block s).pred.getD i 0)

namespace Destruct

variable {st : Destruct} {f : IrFunction} {s : ℕ}

theorem func_block_of_lt {q : ℕ} (hq : q < st.blocks.length) :
    st.blocks[q]? = some ((st.func f).block q) := by
  rw [← IrFunction.getElem?_block (f := st.func f) (by simp [func]; omega)]
  exact (List.getElem?_append_left hq).symm

theorem join_of_phis_nil (hs : s < st.blocks.length) (hphis : ((st.func f).block s).phis = []) :
    st.join s = some st := by
  rw [join, func_block_of_lt (f := f) hs]
  simp [hphis]

theorem join_spec (hid : ∀ (q : ℕ) b, st.blocks[q]? = some b → b.id = q)
    (hnext : st.nextId = st.blocks.length + st.newBlocks.length) (hs : s < st.blocks.length)
    (hphis : ((st.func f).block s).phis ≠ [])
    (hpreds : ∀ p ∈ ((st.func f).block s).pred, p < st.blocks.length)
    (hargs : ∀ φ ∈ ((st.func f).block s).phis, φ.2.length = ((st.func f).block s).pred.length) :
    ∃ st', st.join s = some st' ∧ st'.blocks.length = st.blocks.length ∧
      st'.nextId = st'.blocks.length + st'.newBlocks.length ∧
      SplitInto (st.func f) (st'.func f) s := by
  set b := (st.func f).block s with hb
  have hget : st.blocks[s]? = some b := func_block_of_lt hs
  have hbid : b.id = s := hid s b hget
  have hbase : (st.func f).blocks.length = st.nextId := by
    rw [hnext]
    simp [func]
  have hlt : ∀ φ ∈ b.phis, 0 + b.pred.length ≤ φ.2.length := fun φ hφ => by
    rw [hargs φ hφ, Nat.zero_add]
  have hsnext : s < st.nextId := by omega
  obtain ⟨st₁, hfold, hlen₁, hnext₁, hnew₁, hget₁⟩ := edges_spec b.pred hid hpreds hsnext hlt
  set st' : Destruct := { st₁ with
    blocks := st₁.blocks.modify s fun b' =>
      { b' with
        pred := (List.range b.pred.length).map fun k => st₁.nextId - b.pred.length + k
        stmts := b'.body } } with hst'
  have hjoin : st.join s = some st' := by
    have hempty : ¬b.phis.isEmpty = true := by simpa using hphis
    rw [join, hget]
    show (if b.phis.isEmpty = true then some st
      else (b.pred.zipIdx.foldlM (edge b.id b.phis) st).bind _) = _
    rw [if_neg hempty, hbid, hfold]
    rfl
  have hlen' : st'.blocks.length = st.blocks.length := by simp [hst', hlen₁]
  have hnew' : st'.newBlocks.length = st.newBlocks.length + b.pred.length := by
    simp [hst', hnew₁]
  -- a block of the function, redirected where it is a predecessor
  have hold : ∀ q < st.blocks.length, st₁.blocks[q]?
      = some (splitEdge b.pred s st.nextId q ((st.func f).block q)) := by
    intro q hq
    rw [hget₁, func_block_of_lt (f := f) hq]
    rfl
  have hblock : ∀ q < st.blocks.length, q ≠ s →
      (st'.func f).block q = splitEdge b.pred s st.nextId q ((st.func f).block q) := by
    intro q hq hqs
    refine Option.some.inj ((func_block_of_lt (hlen' ▸ hq)).symm.trans ?_)
    rw [hst']
    dsimp only
    rw [List.getElem?_modify, hold q hq]
    simp [Ne.symm hqs]
  have hjoined : (st'.func f).block s = { splitEdge b.pred s st.nextId s b with
      pred := (List.range b.pred.length).map fun k => st₁.nextId - b.pred.length + k
      stmts := (splitEdge b.pred s st.nextId s b).body } := by
    refine Option.some.inj ((func_block_of_lt (hlen' ▸ hs)).symm.trans ?_)
    rw [hst']
    dsimp only
    rw [List.getElem?_modify, hold s hs]
    simp [hb]
  -- a block appended before keeps its place
  have happended : ∀ i < st.newBlocks.length + b.pred.length,
      (st'.func f).block (st.blocks.length + i) = st'.newBlocks.getD i default := by
    intro i hi
    have hget' : (st'.func f).blocks[st.blocks.length + i]? = st'.newBlocks[i]? := by
      show (st'.blocks ++ st'.newBlocks)[st.blocks.length + i]? = _
      rw [List.getElem?_append_right (by omega), hlen']
      simp
    rw [IrFunction.block, List.getD_eq_getElem?_getD, hget', List.getD_eq_getElem?_getD]
  refine ⟨st', hjoin, hlen', by rw [hlen', hnew']; simp [hst', hnext₁, hnext]; omega, rfl, ?_,
    ?_, ?_, ?_⟩
  · show (st'.blocks ++ st'.newBlocks).length = (st.blocks ++ st.newBlocks).length + b.pred.length
    rw [List.length_append, List.length_append, hlen', hnew']
    omega
  · intro q hq hqs
    rw [hbase]
    by_cases hqn : q < st.blocks.length
    · exact hblock q hqn hqs
    · have hnot : q ∉ b.pred := fun hmem => hqn (hpreds q hmem)
      obtain ⟨i, rfl⟩ := Nat.exists_eq_add_of_le (Nat.le_of_not_lt hqn)
      rw [hbase, hnext] at hq
      have hi : i < st.newBlocks.length := by omega
      rw [happended i (by omega), splitEdge, if_neg hnot]
      rw [hst']
      dsimp only
      rw [hnew₁, List.getD_eq_getElem?_getD, List.getElem?_append_left hi, IrFunction.block,
        List.getD_eq_getElem?_getD]
      show _ = ((st.blocks ++ st.newBlocks)[st.blocks.length + i]?).getD default
      rw [List.getElem?_append_right (by omega)]
      simp
  · rw [hbase, hjoined]
    refine ⟨?_, ?_, rfl, rfl, ?_⟩
    · simp only [splitEdge]
      split_ifs <;> rfl
    · simp only [splitEdge]
      split_ifs <;> rfl
    · rw [hnext₁, Nat.add_sub_cancel]
  · intro i hi
    rw [← hb] at hi ⊢
    rw [hbase, hnext, Nat.add_assoc, happended _ (by omega), hst']
    dsimp only
    rw [hnew₁, List.getD_eq_getElem?_getD, List.getElem?_append_right (by omega)]
    simp [hi, hnext, Nat.add_assoc]

end Destruct

end Aret
