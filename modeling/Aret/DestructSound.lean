/-
SSA destruction preserves meaning.

Every argument of a phi is a version of the location the phi is for, and a block has
one phi for a location, so no copy of an edge overwrites what a later copy reads.
The optimiser leaves phis as they are or drops them, which keeps this true.

* `destructSsa_preserves` — so does the pass, after any rounds of the optimiser.
-/
import Aret.Destruct
import Aret.Opt
import Aret.SsaEntry

namespace Aret

/-! ### Running redirected statements -/

namespace Interp

variable {I : Interp}

theorem exec_copies {copies : List (ValueId × ValueId)}
    (h : copies.Pairwise fun c c' => c'.2 ≠ c.1) (rest : List Stmt) (next : Option ℕ)
    (ρ : I.Store) (w : I.World) :
    I.exec (copies.map (fun c => .assign c.1 (.use c.2)) ++ rest) next ρ w
      = I.exec rest next (ρ.setVals (copies.map fun c => (c.1, ρ.val c.2))) w := by
  induction copies generalizing ρ with
  | nil => rfl
  | cons c copies ih =>
    obtain ⟨hc, hcopies⟩ := List.pairwise_cons.mp h
    have hread : copies.map (fun c' => (c'.1, (ρ.setVal c.1 (ρ.val c.2)).val c'.2))
        = copies.map fun c' => (c'.1, ρ.val c'.2) := by
      refine List.map_congr_left fun c' hc' => ?_
      rw [Store.setVal_val, Function.update_of_ne (hc c' hc')]
    have hrest := ih hcopies (ρ.setVal c.1 (ρ.val c.2))
    rw [hread] at hrest
    exact hrest

def Exit.mapNext (r : ℕ → ℕ) : I.Exit → I.Exit
  | .next t ρ w => .next (t.map r) ρ w
  | .halt ρ w => .halt ρ w

theorem exec_redirect (src dst : ℕ) (ss : List Stmt) (next : Option ℕ) (ρ : I.Store)
    (w : I.World) : I.exec (ss.map (Stmt.redirect src dst)) (next.map (redirectTo src dst)) ρ w
      = (I.exec ss next ρ w).mapNext (redirectTo src dst) := by
  induction ss generalizing next ρ w with
  | nil => rfl
  | cons s ss ih =>
    cases s with
    | branch c t e =>
      have hbranch := ih (some (if I.truth (I.eval ρ c w).1 then t else e)) ρ
        ((I.eval ρ c w).2.emit (.branch (I.truth (I.eval ρ c w).1)))
      rw [List.map_cons, Stmt.redirect, exec, exec, ← hbranch]
      congr 1
      simp only [Option.map_some]
      split_ifs <;> rfl
    | jump t => exact ih (some t) ρ w
    | switch v cases d =>
      have hfind : I.selectCase (I.eval ρ v w).1
          (cases.map fun c => (c.1, redirectTo src dst c.2))
          = (I.selectCase (I.eval ρ v w).1 cases).map fun c => (c.1, redirectTo src dst c.2) := by
        rw [selectCase, List.find?_map]
        rfl
      have hswitch := ih (some (((I.selectCase (I.eval ρ v w).1 cases).map Prod.snd).getD d)) ρ
        ((I.eval ρ v w).2.emit (.switch ((I.selectCase (I.eval ρ v w).1 cases).map Prod.fst)))
      rw [List.map_cons, Stmt.redirect, exec, exec, ← hswitch, hfind]
      cases I.selectCase (I.eval ρ v w).1 cases with
      | none => rfl
      | some c => rfl
    | ret e =>
      cases e with
      | none => rfl
      | some e => rfl
    | asm t =>
      have hasm : (Stmt.asm t).redirect src dst = .asm t := rfl
      rw [List.map_cons, hasm, exec, exec]
      cases I.asm t w.mem with
      | none => rfl
      | some mem => exact ih _ _ _
    | _ => exact ih _ _ _

theorem exec_target {ss : List Stmt} {next : Option ℕ} {ρ ρ' : I.Store} {w w' : I.World} {t : ℕ}
    (h : I.exec ss next ρ w = .next (some t) ρ' w') :
    next = some t ∨ ∃ s ∈ ss, t ∈ s.gotos := by
  induction ss generalizing next ρ w with
  | nil =>
    left
    injection h
  | cons s ss ih =>
    have hrest : ∀ {next' : Option ℕ} {ρ₁ : I.Store} {w₁ : I.World},
        I.exec ss next' ρ₁ w₁ = .next (some t) ρ' w' → (next' = next ∨ ∀ t, next' = some t → t ∈ s.gotos) →
        next = some t ∨ ∃ s' ∈ s :: ss, t ∈ s'.gotos := by
      intro next' ρ₁ w₁ h' hnext
      rcases ih h' with ht | ⟨s', hs', ht⟩
      · rcases hnext with rfl | hnext
        · exact .inl ht
        · exact .inr ⟨s, List.mem_cons_self, hnext t ht⟩
      · exact .inr ⟨s', List.mem_cons_of_mem _ hs', ht⟩
    cases s with
    | branch c a b =>
      refine hrest h (.inr ?_)
      rintro t rfl_t
      simp only [Option.some.injEq] at rfl_t
      split_ifs at rfl_t <;> simp [Stmt.gotos, ← rfl_t]
    | jump a =>
      refine hrest h (.inr ?_)
      intro t ht
      simp [Stmt.gotos, ← Option.some.inj ht]
    | switch v cases d =>
      refine hrest h (.inr ?_)
      intro t ht
      have ht' := Option.some.inj ht
      cases hc : I.selectCase (I.eval ρ v w).1 cases with
      | none =>
        rw [hc] at ht'
        simp [Stmt.gotos, ← ht']
      | some c =>
        rw [hc] at ht'
        have hmem : c ∈ cases := List.mem_of_find?_eq_some hc
        simp only [Stmt.gotos, List.mem_append, List.mem_map]
        exact .inl ⟨c, hmem, ht'⟩
    | ret e =>
      cases e with
      | none => cases h
      | some e => cases h
    | asm a =>
      rw [exec] at h
      cases hasm : I.asm a w.mem with
      | none =>
        rw [hasm] at h
        cases h
      | some mem =>
        rw [hasm] at h
        exact hrest h (.inl rfl)
    | _ => exact hrest h (.inl rfl)

end Interp

/-! ### Splitting edges -/

/-- Where the edges of block `q` go after the split. -/
def splitTo (preds : List ℕ) (s base q t : ℕ) : ℕ :=
  if q ∈ preds then redirectTo s (base + preds.idxOf q) t else t

theorem splitTo_of_ne {preds : List ℕ} {s base q t : ℕ} (ht : t ≠ s) :
    splitTo preds s base q t = t := by
  rw [splitTo, redirectTo, if_neg ht, ite_self]

theorem splitTo_self {preds : List ℕ} {s base q : ℕ} (hq : q ∈ preds) :
    splitTo preds s base q s = base + preds.idxOf q := by
  rw [splitTo, redirectTo, if_pos hq, if_pos rfl]

theorem splitTo_inj {preds : List ℕ} {s base q t t' : ℕ} (ht : t < base) (ht' : t' < base)
    (h : splitTo preds s base q t = splitTo preds s base q t') : t = t' := by
  simp only [splitTo, redirectTo] at h
  split_ifs at h <;> omega

theorem Block.body_phi? {b : Block} {s : Stmt} (hs : s ∈ b.body) : s.phi? = none := by
  simpa using (List.mem_filter.mp hs).2

section
variable {preds : List ℕ} {s base q : ℕ} {b : Block}

theorem splitEdge_phis (hends : EndsLast b.stmts) :
    (splitEdge preds s base q b).phis = b.phis := by
  rw [splitEdge]
  split_ifs
  · rw [Block.phis, Block.redirect]
    dsimp only
    rw [hends.modifyLast_redirect, List.filterMap_map]
    exact congrArg (fun g => b.stmts.filterMap g) (funext fun s => Stmt.redirect_phi? s)
  · rfl

theorem splitEdge_pred : (splitEdge preds s base q b).pred = b.pred := by
  rw [splitEdge]
  split_ifs <;> rfl

theorem splitEdge_addr : (splitEdge preds s base q b).addr = b.addr := by
  rw [splitEdge]
  split_ifs <;> rfl

theorem splitEdge_id : (splitEdge preds s base q b).id = b.id := by
  rw [splitEdge]
  split_ifs <;> rfl

theorem splitEdge_succ :
    (splitEdge preds s base q b).succ = b.succ.map (splitTo preds s base q) := by
  rw [splitEdge]
  split_ifs with hq
  · exact List.map_congr_left fun t _ => by rw [splitTo, if_pos hq]
  · conv_lhs => rw [← List.map_id b.succ]
    exact List.map_congr_left fun t _ => by rw [splitTo, if_neg hq]; rfl

theorem splitEdge_ends (hends : EndsLast b.stmts) :
    EndsLast (splitEdge preds s base q b).stmts := by
  rw [splitEdge]
  split_ifs
  · rw [Block.redirect]
    dsimp only
    rw [hends.modifyLast_redirect]
    exact hends.map_redirect
  · exact hends

theorem splitEdge_gotos (hends : EndsLast b.stmts) {x : Stmt}
    (hx : x ∈ (splitEdge preds s base q b).stmts) :
    ∀ t ∈ x.gotos, ∃ y ∈ b.stmts, ∃ t' ∈ y.gotos, t = splitTo preds s base q t' := by
  intro t ht
  rw [splitEdge] at hx
  split_ifs at hx with hq
  · rw [Block.redirect] at hx
    dsimp only at hx
    rw [hends.modifyLast_redirect] at hx
    obtain ⟨y, hy, rfl⟩ := List.mem_map.mp hx
    refine ⟨y, hy, ?_⟩
    simp only [splitTo, if_pos hq]
    cases y with
    | branch c a e =>
      simp only [Stmt.redirect, Stmt.gotos, List.mem_cons, List.not_mem_nil, or_false] at ht ⊢
      rcases ht with rfl | rfl
      · exact ⟨a, .inl rfl, rfl⟩
      · exact ⟨e, .inr rfl, rfl⟩
    | jump a =>
      simp only [Stmt.redirect, Stmt.gotos, List.mem_singleton] at ht ⊢
      exact ⟨a, rfl, ht⟩
    | switch v cases d =>
      simp only [Stmt.redirect, Stmt.gotos, List.map_map, List.mem_append, List.mem_map,
        List.mem_singleton, Function.comp_apply] at ht ⊢
      rcases ht with ⟨c, hc, rfl⟩ | rfl
      · exact ⟨c.2, .inl ⟨c, hc, rfl⟩, rfl⟩
      · exact ⟨d, .inr rfl, rfl⟩
    | _ => simp [Stmt.redirect, Stmt.gotos] at ht
  · exact ⟨x, hx, t, ht, by rw [splitTo, if_neg hq]⟩

theorem exec_splitEdge (hends : EndsLast b.stmts) {I : Interp} (ρ : I.Store) (w : I.World) :
    I.exec (splitEdge preds s base q b).body none ρ w
      = (I.exec b.body none ρ w).mapNext (splitTo preds s base q) := by
  rw [splitEdge]
  split_ifs with hq
  · have hbody : (b.redirect s (base + preds.idxOf q)).body
        = b.body.map (Stmt.redirect s (base + preds.idxOf q)) := by
      rw [Block.body, Block.body, Block.redirect]
      dsimp only
      rw [hends.modifyLast_redirect, List.filter_map]
      congr 1
      exact congrArg (fun g => b.stmts.filter g) (funext fun x => by simp)
    have hto : splitTo preds s base q = redirectTo s (base + preds.idxOf q) := by
      funext t
      rw [splitTo, if_pos hq]
    rw [hbody, hto, ← Interp.exec_redirect]
    rfl
  · have hto : splitTo preds s base q = id := by
      funext t
      rw [splitTo, if_neg hq]
      rfl
    rw [hto]
    cases I.exec b.body none ρ w with
    | next t ρ w => simp [Interp.Exit.mapNext]
    | halt ρ w => rfl

end

/-! ### What is known on the way -/

/-- The phis of a function under way: `lab` says what a value is a version of, `R`
which blocks a run may reach, and the first `n` blocks are those there were. -/
structure PhiWeb {κ : Type} (n : ℕ) (lab : ValueId → κ) (R : ℕ → Prop) (g : IrFunction) : Prop where
  ids : ∀ q < g.blocks.length, (g.block q).id = q
  le : n ≤ g.blocks.length
  entry : ∃ q < g.blocks.length, (g.block q).addr = g.entry
  reached : ∀ p, R p → p < g.blocks.length ∧
    ∀ t ∈ (g.block p).succ, R t ∧ p ∈ (g.block t).pred
  slot : ∀ p, R p → ∀ t ∈ (g.block p).succ, ∀ φ ∈ (g.block t).phis,
    ∃ x, φ.2[(g.block t).pred.idxOf p]? = some x ∧ lab x = lab φ.1
  nodup : ∀ q, R q → ((g.block q).phis.map fun φ => lab φ.1).Nodup
  ends : ∀ q, EndsLast (g.block q).stmts
  targets : ∀ q, ∀ x ∈ (g.block q).stmts, ∀ t ∈ x.gotos, t < g.blocks.length
  joins : ∀ q < n, (g.block q).phis ≠ [] → (∀ p ∈ (g.block q).pred, p < n) ∧
    ∀ φ ∈ (g.block q).phis, φ.2.length = (g.block q).pred.length
  rest : ∀ q, n ≤ q → (g.block q).phis = []

def CanStart (R : ℕ → Prop) (g : IrFunction) : Prop :=
  R g.entryIndex ∧ (g.block g.entryIndex).phis = []

section
variable {κ : Type} {n s : ℕ} {lab : ValueId → κ} {R : ℕ → Prop} {g g' : IrFunction}

theorem PhiWeb.trims (h : PhiWeb n lab R g) (ht : Trims g g') : PhiWeb n lab R g' := by
  have hsub := ht.phis
  have hpred : ∀ q, (g'.block q).pred = (g.block q).pred := fun q => (ht.edges q).2.2.2
  have hsucc : ∀ q, (g'.block q).succ = (g.block q).succ := fun q => (ht.edges q).2.2.1
  refine ⟨?_, ?_, ?_, ?_, ?_, ?_, ?_, ?_, ?_, ?_⟩
  · intro q hq
    rw [(ht.edges q).1]
    exact h.ids q (ht.length ▸ hq)
  · rw [ht.length]
    exact h.le
  · obtain ⟨q, hq, haddr⟩ := h.entry
    exact ⟨q, ht.length ▸ hq, by rw [(ht.edges q).2.1, haddr, ht.entry]⟩
  · intro p hp
    rw [ht.length, hsucc]
    refine ⟨(h.reached p hp).1, fun t htp => ?_⟩
    rw [hpred]
    exact (h.reached p hp).2 t htp
  · intro p hp t htp φ hφ
    rw [hpred]
    exact h.slot p hp t (hsucc p ▸ htp) φ ((hsub t).subset hφ)
  · exact fun q hq => ((hsub q).map _).nodup (h.nodup q hq)
  · intro q
    have hends : ∀ ss : List Stmt,
        EndsLast ss ↔ (ss.map Stmt.kind).Pairwise fun k _ => k.1 = false := by
      intro ss
      rw [List.pairwise_map]
      rfl
    rw [hends]
    exact ((hends _).mp (h.ends q)).sublist (ht.kinds q)
  · intro q x hx t htx
    have hkind := (ht.kinds q).subset (List.mem_map_of_mem hx)
    obtain ⟨y, hy, hyx⟩ := List.mem_map.mp hkind
    have hgotos : y.gotos = x.gotos := congrArg (fun k => k.2.2) hyx
    rw [ht.length]
    exact h.targets q y hy t (hgotos ▸ htx)
  · intro q hq hne
    have hne' : (g.block q).phis ≠ [] := by
      intro hnil
      exact hne (List.sublist_nil.mp (hnil ▸ hsub q))
    rw [hpred]
    obtain ⟨hlt, hlen⟩ := h.joins q hq hne'
    exact ⟨hlt, fun φ hφ => hlen φ ((hsub q).subset hφ)⟩
  · exact fun q hq => List.sublist_nil.mp (h.rest q hq ▸ hsub q)

/-! ### Splitting the edges into one block -/

def splitReached (R : ℕ → Prop) (g : IrFunction) (s q : ℕ) : Prop :=
  R q ∨ R s ∧ ∃ i < (g.block s).pred.length, q = g.blocks.length + i

theorem SplitInto.phis (hsplit : SplitInto g g' s) (hends : ∀ q, EndsLast (g.block q).stmts)
    (hs : s < g.blocks.length) (q : ℕ) :
    (g'.block q).phis = if q = s then [] else if q < g.blocks.length then (g.block q).phis else [] := by
  split_ifs with hqs hq
  · subst hqs
    rw [Block.phis, hsplit.joined.2.2.1]
    refine List.filterMap_eq_nil_iff.mpr fun x hx => Block.body_phi? hx
  · rw [hsplit.old q hq hqs, splitEdge_phis (hends q)]
  · by_cases hq' : q < g'.blocks.length
    · rw [hsplit.length] at hq'
      obtain ⟨i, rfl⟩ := Nat.exists_eq_add_of_le (Nat.le_of_not_lt hq)
      rw [hsplit.copy i (by omega)]
      simp [Block.phis, copyBlock, Stmt.phi?]
    · rw [IrFunction.block_of_le (Nat.le_of_not_lt hq')]
      rfl

theorem SplitInto.addr (hsplit : SplitInto g g' s) {q : ℕ} (hq : q < g.blocks.length) :
    (g'.block q).addr = (g.block q).addr := by
  by_cases hqs : q = s
  · rw [hqs, hsplit.joined.2.1]
  · rw [hsplit.old q hq hqs, splitEdge_addr]

theorem SplitInto.succ (hsplit : SplitInto g g' s) {q : ℕ} (hq : q < g.blocks.length) :
    (g'.block q).succ
      = (g.block q).succ.map (splitTo (g.block s).pred s g.blocks.length q) := by
  by_cases hqs : q = s
  · rw [hqs, hsplit.joined.2.2.2.1, splitEdge_succ]
  · rw [hsplit.old q hq hqs, splitEdge_succ]

theorem SplitInto.stmts (hsplit : SplitInto g g' s) {q : ℕ} (hq : q < g.blocks.length) :
    (g'.block q).stmts.Sublist
        (splitEdge (g.block s).pred s g.blocks.length q (g.block q)).stmts ∧
      (g'.block q).body = (splitEdge (g.block s).pred s g.blocks.length q (g.block q)).body := by
  by_cases hqs : q = s
  · subst hqs
    constructor
    · rw [hsplit.joined.2.2.1]
      exact List.filter_sublist
    · rw [Block.body, hsplit.joined.2.2.1]
      exact List.filter_filter.trans (congrArg (fun p => List.filter p _) (funext fun x => by simp))
  · rw [hsplit.old q hq hqs]
    exact ⟨.refl _, rfl⟩

theorem SplitInto.entryIndex (hsplit : SplitInto g g' s)
    (hentry : ∃ q < g.blocks.length, (g.block q).addr = g.entry) :
    g'.entryIndex = g.entryIndex ∧ g.entryIndex < g.blocks.length := by
  obtain ⟨q, hq, haddr⟩ := hentry
  obtain ⟨hle, haddr₀⟩ := IrFunction.entryIndex_le hq haddr
  have hlt : g.entryIndex < g.blocks.length := hle.trans_lt hq
  have hlt' : g.entryIndex < g'.blocks.length := by
    rw [hsplit.length]
    omega
  obtain ⟨hle', haddr'⟩ := IrFunction.entryIndex_le hlt'
    (by rw [hsplit.addr hlt, haddr₀, hsplit.entry])
  have hlt'' : g'.entryIndex < g.blocks.length := hle'.trans_lt hlt
  rw [hsplit.addr hlt'', hsplit.entry] at haddr'
  exact ⟨le_antisymm hle' (IrFunction.entryIndex_le hlt'' haddr').1, hlt⟩

theorem SplitInto.phiWeb (hsplit : SplitInto g g' s) (h : PhiWeb n lab R g) (hs : s < n)
    (hpreds : ∀ p ∈ (g.block s).pred, p < n) :
    PhiWeb n lab (splitReached R g s) g' := by
  have hsg : s < g.blocks.length := hs.trans_le h.le
  have hphis := hsplit.phis h.ends hsg
  have hlen := hsplit.length
  have hpred : ∀ q < g.blocks.length, q ≠ s → (g'.block q).pred = (g.block q).pred := by
    intro q hq hqs
    rw [hsplit.old q hq hqs, splitEdge_pred]
  -- where an edge of an old block leads, and a new one's
  have hedge : ∀ p, R p → ∀ t ∈ (g'.block p).succ, ∃ t₀ ∈ (g.block p).succ,
      t = splitTo (g.block s).pred s g.blocks.length p t₀ := by
    intro p hp t ht
    rw [hsplit.succ (h.reached p hp).1] at ht
    obtain ⟨t₀, ht₀, rfl⟩ := List.mem_map.mp ht
    exact ⟨t₀, ht₀, rfl⟩
  have hcopySucc : ∀ i < (g.block s).pred.length, (g'.block (g.blocks.length + i)).succ = [s] :=
    fun i hi => by rw [hsplit.copy i hi, copyBlock]
  refine ⟨?_, ?_, ?_, ?_, ?_, ?_, ?_, ?_, ?_, ?_⟩
  · intro q hq
    by_cases hqg : q < g.blocks.length
    · by_cases hqs : q = s
      · rw [hqs, hsplit.joined.1]
        exact h.ids s hsg
      · rw [hsplit.old q hqg hqs, splitEdge_id]
        exact h.ids q hqg
    · obtain ⟨i, rfl⟩ := Nat.exists_eq_add_of_le (Nat.le_of_not_lt hqg)
      rw [hsplit.copy i (by omega), copyBlock]
  · have := h.le
    omega
  · obtain ⟨q, hq, haddr⟩ := h.entry
    exact ⟨q, by omega, by rw [hsplit.addr hq, haddr, hsplit.entry]⟩
  · rintro p (hp | ⟨hR, i, hi, rfl⟩)
    · have hplt := (h.reached p hp).1
      refine ⟨by omega, fun t ht => ?_⟩
      obtain ⟨t₀, ht₀, rfl⟩ := hedge p hp t ht
      obtain ⟨hRt, hpt⟩ := (h.reached p hp).2 t₀ ht₀
      by_cases hts : t₀ = s
      · subst hts
        have hi := List.idxOf_lt_length_iff.mpr hpt
        rw [splitTo_self hpt]
        refine ⟨.inr ⟨hRt, _, hi, rfl⟩, ?_⟩
        rw [hsplit.copy _ hi, copyBlock, List.getD_eq_getElem?_getD, List.getElem?_eq_getElem hi]
        simp
      · rw [splitTo_of_ne hts, hpred t₀ (h.reached t₀ hRt).1 hts]
        exact ⟨.inl hRt, hpt⟩
    · refine ⟨by omega, fun t ht => ?_⟩
      rw [hcopySucc i hi, List.mem_singleton] at ht
      subst ht
      refine ⟨.inl hR, ?_⟩
      rw [hsplit.joined.2.2.2.2]
      exact List.mem_map.mpr ⟨i, List.mem_range.mpr hi, rfl⟩
  · rintro p (hp | ⟨hR, i, hi, rfl⟩) t ht φ hφ
    · obtain ⟨t₀, ht₀, rfl⟩ := hedge p hp t ht
      obtain ⟨hRt, hpt⟩ := (h.reached p hp).2 t₀ ht₀
      by_cases hts : t₀ = s
      · subst hts
        rw [splitTo_self hpt, hphis] at hφ
        split_ifs at hφ
        · cases hφ
        · omega
        · cases hφ
      · rw [splitTo_of_ne hts, hphis, if_neg hts, if_pos (h.reached t₀ hRt).1] at hφ
        rw [splitTo_of_ne hts, hpred t₀ (h.reached t₀ hRt).1 hts]
        exact h.slot p hp t₀ ht₀ φ hφ
    · rw [hcopySucc i hi, List.mem_singleton] at ht
      rw [ht, hphis, if_pos rfl] at hφ
      cases hφ
  · intro q hq
    rw [hphis]
    split_ifs with hqs hqg
    · exact List.nodup_nil
    · rcases hq with hq | ⟨-, i, -, rfl⟩
      · exact h.nodup q hq
      · omega
    · exact List.nodup_nil
  · intro q
    by_cases hqg : q < g.blocks.length
    · exact (splitEdge_ends (h.ends q)).sublist (hsplit.stmts hqg).1
    · by_cases hq : q < g'.blocks.length
      · obtain ⟨i, rfl⟩ := Nat.exists_eq_add_of_le (Nat.le_of_not_lt hqg)
        rw [hsplit.copy i (by omega), copyBlock, EndsLast, List.pairwise_append]
        refine ⟨?_, List.pairwise_singleton _ _, ?_⟩
        · rw [List.pairwise_map]
          exact List.pairwise_of_forall fun _ _ => rfl
        · intro x hx _ _
          obtain ⟨φ, -, rfl⟩ := List.mem_map.mp hx
          rfl
      · rw [IrFunction.block_of_le (Nat.le_of_not_lt hq)]
        exact List.Pairwise.nil
  · intro q x hx t ht
    by_cases hqg : q < g.blocks.length
    · obtain ⟨y, hy, t', ht', rfl⟩ :=
        splitEdge_gotos (h.ends q) ((hsplit.stmts hqg).1.subset hx) t ht
      have hlt := h.targets q y hy t' ht'
      simp only [splitTo, redirectTo]
      split_ifs with hqp
      · have := List.idxOf_lt_length_iff.mpr hqp
        omega
      · omega
      · omega
    · by_cases hq : q < g'.blocks.length
      · obtain ⟨i, rfl⟩ := Nat.exists_eq_add_of_le (Nat.le_of_not_lt hqg)
        rw [hsplit.copy i (by omega), copyBlock] at hx
        rcases List.mem_append.mp hx with hx | hx
        · obtain ⟨φ, -, rfl⟩ := List.mem_map.mp hx
          cases ht
        · rw [List.mem_singleton.mp hx, Stmt.gotos, List.mem_singleton] at ht
          omega
      · rw [IrFunction.block_of_le (Nat.le_of_not_lt hq)] at hx
        cases hx
  · intro q hq hne
    rw [hphis] at hne ⊢
    have hqg := hq.trans_le h.le
    by_cases hqs : q = s
    · exact absurd (if_pos hqs) hne
    · rw [if_neg hqs, if_pos hqg] at hne ⊢
      rw [hpred q hqg hqs]
      exact h.joins q hq hne
  · intro q hq
    rw [hphis, h.rest q hq]
    simp

theorem SplitInto.canStart (hsplit : SplitInto g g' s) (h : PhiWeb n lab R g) (hs : s < n)
    (hstart : CanStart R g) : CanStart (splitReached R g s) g' := by
  obtain ⟨hindex, -⟩ := hsplit.entryIndex h.entry
  rw [CanStart, hindex]
  refine ⟨.inl hstart.1, ?_⟩
  rw [hsplit.phis h.ends (hs.trans_le h.le), hstart.2]
  simp

private theorem exec_copyBlock (h : PhiWeb n lab R g) {p t : ℕ} (hp : R p)
    (ht : t ∈ (g.block p).succ) {I : Interp} (ρ : I.Store) (w : I.World) (mid q : ℕ) :
    ∃ xs, Interp.readPhis ρ ((g.block t).pred.idxOf? p) (g.block t).phis = some xs ∧
      I.exec (copyBlock t (g.block t).phis mid ((g.block t).pred.idxOf p) q).body none ρ w
        = .next (some t) (ρ.setVals xs) w := by
  set j := (g.block t).pred.idxOf p
  obtain ⟨hRt, hpt⟩ := (h.reached p hp).2 t ht
  have hslot : ∀ φ ∈ (g.block t).phis, φ.2[j]? = some (φ.2.getD j 0) := by
    intro φ hφ
    obtain ⟨x, hx, -⟩ := h.slot p hp t ht φ hφ
    rw [List.getD_eq_getElem?_getD, hx]
    rfl
  have hread := Interp.readPhis_of_slot (ρ := ρ) hslot
  rw [idxOf?_of_mem hpt]
  refine ⟨_, hread, ?_⟩
  have hbody : (copyBlock t (g.block t).phis mid j q).body
      = ((g.block t).phis.map fun φ => (φ.1, φ.2.getD j 0)).map
        (fun c => .assign c.1 (.use c.2)) ++ [.jump t] := by
    rw [Block.body, copyBlock, List.map_map]
    refine List.filter_eq_self.mpr fun x hx => ?_
    rcases List.mem_append.mp hx with hx | hx
    · obtain ⟨φ, -, rfl⟩ := List.mem_map.mp hx
      rfl
    · rw [List.mem_singleton.mp hx]
      rfl
  -- an argument is a version of its phi's location, which is not that of another phi
  have hpair : ((g.block t).phis.map fun φ => (φ.1, φ.2.getD j 0)).Pairwise
      fun c c' => c'.2 ≠ c.1 := by
    have hnodup := h.nodup t hRt
    rw [List.Nodup, List.pairwise_map] at hnodup
    rw [List.pairwise_map]
    refine hnodup.imp_of_mem fun {φ ψ} _ hψ hne heq => hne ?_
    obtain ⟨x, hx, hlab⟩ := h.slot p hp t ht ψ hψ
    rw [← hlab, ← heq, List.getD_eq_getElem?_getD, hx]
    rfl
  rw [hbody, Interp.exec_copies hpair, List.map_map]
  rfl

theorem enter_of_block {p p' : Option ℕ} {t watched : ℕ} {I : Interp} {ρ : I.Store} {w : I.World}
    (hblock : g.blocks[t]?.map (fun b => (b.phis, p.bind fun p => b.pred.idxOf? p))
      = g'.blocks[t]?.map fun b => (b.phis, p'.bind fun p => b.pred.idxOf? p)) :
    Interp.enter watched g p t ρ w = Interp.enter watched g' p' t ρ w := by
  rw [Interp.enter, Interp.enter]
  cases hg : g.blocks[t]? with
  | none =>
    cases hg' : g'.blocks[t]? with
    | none => rfl
    | some b' =>
      rw [hg, hg'] at hblock
      cases hblock
  | some b =>
    cases hg' : g'.blocks[t]? with
    | none =>
      rw [hg, hg'] at hblock
      cases hblock
    | some b' =>
      rw [hg, hg'] at hblock
      obtain ⟨hphis, hslot⟩ := Prod.mk.inj (Option.some.inj hblock)
      dsimp only at hphis hslot ⊢
      rw [hphis, hslot]

theorem enter_pc {p : Option ℕ} {t watched q : ℕ} {I : Interp} {ρ : I.Store} {w : I.World}
    (h : (Interp.enter watched g p t ρ w).pc = some q) : q = t := by
  rw [Interp.enter] at h
  split at h
  · cases h
  · split at h
    · cases h
    · exact (Option.some.inj h).symm

/-- Leaving a block along the split edges comes to the same, at once or after the
copies of an edge. -/
theorem SplitInto.leave (hsplit : SplitInto g g' s) (h : PhiWeb n lab R g) (hs : s < n)
    {watched : ℕ} (hwatched : watched ≤ n) {I : Interp} {p : ℕ} (hp : R p) {e : I.Exit}
    (he : ∀ t ρ w, e = .next (some t) ρ w → t < g.blocks.length) :
    (∀ q, (Interp.leave watched g p e).pc = some q → R q) ∧
    ∃ k, Sim.stepN (I.step watched g') k (Interp.leave watched g' p
        (e.mapNext (splitTo (g.block s).pred s g.blocks.length p)))
      = some (Interp.leave watched g p e) := by
  have hsg : s < g.blocks.length := hs.trans_le h.le
  have hphis := hsplit.phis h.ends hsg
  have hlen := hsplit.length
  obtain ⟨hplt, hsuccs⟩ := h.reached p hp
  rcases e with ⟨_ | t, ρ, w⟩ | ⟨ρ, w⟩
  · exact ⟨by rintro _ ⟨⟩, 0, rfl⟩
  · have htlt := he t ρ w rfl
    by_cases ht : t ∈ (g.block p).succ
    · obtain ⟨hRt, hpt⟩ := hsuccs t ht
      have hleave : Interp.leave watched g p (.next (some t) ρ w)
          = Interp.enter watched g (some p) t ρ w := by
        rw [Interp.leave, if_pos ht]
      have hmem : splitTo (g.block s).pred s g.blocks.length p t ∈ (g'.block p).succ := by
        rw [hsplit.succ hplt]
        exact List.mem_map_of_mem ht
      have hleave' : Interp.leave watched g' p (Interp.Exit.mapNext
          (splitTo (g.block s).pred s g.blocks.length p) (.next (some t) ρ w))
          = Interp.enter watched g' (some p)
            (splitTo (g.block s).pred s g.blocks.length p t) ρ w := by
        rw [Interp.Exit.mapNext, Option.map_some, Interp.leave, if_pos hmem]
      rw [hleave, hleave']
      refine ⟨fun q hq => enter_pc hq ▸ hRt, ?_⟩
      by_cases hts : t = s
      · -- over the block of the edge
        subst hts
        have hi := List.idxOf_lt_length_iff.mpr hpt
        set i := (g.block t).pred.idxOf p with hidx
        set mid := g.blocks.length + i with hmid
        have hget : g'.blocks[mid]? = some (g'.block mid) :=
          IrFunction.getElem?_block (by omega)
        have hcopy := hsplit.copy i hi
        obtain ⟨xs, hread, hexec⟩ := exec_copyBlock h hp ht ρ w mid ((g.block t).pred.getD i 0)
        have hfirst : Interp.enter watched g' (some p) mid ρ w = ⟨some mid, ρ, w⟩ := by
          have hnone : (g'.block mid).phis = [] := by
            rw [hphis]
            split_ifs
            · rfl
            · omega
            · rfl
          rw [Interp.enter, hget]
          dsimp only
          rw [hnone, Interp.readPhis_nil]
          have hge : ¬mid < watched := by
            have := h.le
            omega
          show (⟨some mid, ρ.setVals [], if mid < watched then _ else w⟩ : I.Config) = _
          rw [if_neg hge]
          rfl
        have hsecond : I.step watched g' ⟨some mid, ρ, w⟩
            = some (Interp.enter watched g' (some mid) t (ρ.setVals xs) w) := by
          rw [Interp.step_of_pc rfl, hcopy]
          show some (Interp.leave watched g' mid (I.exec _ none ρ w)) = _
          rw [hexec, Interp.leave, hcopy, if_pos (by simp [copyBlock])]
        have hthird : Interp.enter watched g' (some mid) t (ρ.setVals xs) w
            = Interp.enter watched g (some p) t ρ w := by
          have hget' : g'.blocks[t]? = some (g'.block t) := IrFunction.getElem?_block (by omega)
          have hnone : (g'.block t).phis = [] := by rw [hphis, if_pos rfl]
          rw [Interp.enter, Interp.enter, hget', IrFunction.getElem?_block htlt]
          dsimp only
          rw [hnone, Interp.readPhis_nil]
          rw [show Interp.readPhis ρ ((some p).bind fun p => (g.block t).pred.idxOf? p) _
            = some xs from hread]
          rfl
        refine ⟨1, ?_⟩
        rw [splitTo_self hpt, hfirst, Sim.stepN, hsecond, Option.bind_some, Sim.stepN, hthird]
      · refine ⟨0, ?_⟩
        rw [splitTo_of_ne hts, Sim.stepN]
        refine congrArg some (enter_of_block ?_).symm
        have hlt' : t < g'.blocks.length := by omega
        rw [IrFunction.getElem?_block htlt, IrFunction.getElem?_block hlt', Option.map_some,
          Option.map_some, hphis, if_neg hts, if_pos htlt, hsplit.old t htlt hts, splitEdge_pred]
    · have hnot : splitTo (g.block s).pred s g.blocks.length p t ∉ (g'.block p).succ := by
        rw [hsplit.succ hplt]
        intro hmem
        obtain ⟨t', ht', heq⟩ := List.mem_map.mp hmem
        have ht'lt := (h.reached t' (hsuccs t' ht').1).1
        exact ht (splitTo_inj ht'lt htlt heq ▸ ht')
      have hleave : Interp.leave watched g p (.next (some t) ρ w) = .stuck ρ w := by
        rw [Interp.leave, if_neg ht]
      rw [hleave, Interp.Exit.mapNext, Option.map_some, Interp.leave, if_neg hnot]
      exact ⟨by rintro _ ⟨⟩, 0, rfl⟩
  · exact ⟨by rintro _ ⟨⟩, 0, rfl⟩

theorem SplitInto.runsLike (hsplit : SplitInto g g' s) (h : PhiWeb n lab R g) (hs : s < n)
    (hstart : CanStart R g) {watched : ℕ} (hwatched : watched ≤ n) {I : Interp} (ρ : I.Store)
    (mem : I.Mem) : RunsLike I watched g g' ρ ρ mem := by
  have hsg : s < g.blocks.length := hs.trans_le h.le
  obtain ⟨hindex, hentryLt⟩ := hsplit.entryIndex h.entry
  refine Sim.SameRuns.of_simulation (R := fun c c' => c = c' ∧ ∀ p, c.pc = some p → R p)
    ⟨fun hc => congrArg _ hc.1, ?_, ?_⟩ ⟨?_, ?_⟩
  · rintro c _ c₁ ⟨rfl, hpc⟩ hstep
    cases hp : c.pc with
    | none =>
      rw [Interp.step_eq_none.mpr hp] at hstep
      cases hstep
    | some p =>
      have hRp := hpc p hp
      have hplt := (h.reached p hRp).1
      rw [Interp.step_of_pc hp] at hstep
      obtain rfl := Option.some.inj hstep
      have htarget : ∀ t ρ w, I.exec (g.block p).body none c.ρ c.w = .next (some t) ρ w →
          t < g.blocks.length := by
        intro t ρ w hexec
        rcases Interp.exec_target hexec with ht | ⟨x, hx, ht⟩
        · cases ht
        · exact h.targets p x (List.mem_of_mem_filter hx) t ht
      obtain ⟨hreach, k, hk⟩ := hsplit.leave h hs hwatched hRp htarget
      refine ⟨k, _, ?_, rfl, hreach⟩
      rw [Sim.stepN, Interp.step_of_pc hp, (hsplit.stmts hplt).2, exec_splitEdge (h.ends p)]
      exact hk
  · rintro c _ ⟨rfl, -⟩ hstep
    exact ⟨0, c, rfl, Interp.step_eq_none.mpr (Interp.step_eq_none.mp hstep), rfl⟩
  · rw [Interp.start, Interp.start, hindex]
    refine enter_of_block ?_
    have hlt' : g.entryIndex < g'.blocks.length := by
      rw [hsplit.length]
      omega
    rw [IrFunction.getElem?_block hentryLt, IrFunction.getElem?_block hlt', Option.map_some,
      Option.map_some, hsplit.phis h.ends hsg, hstart.2]
    simp
  · intro p hp
    rw [Interp.start] at hp
    exact enter_pc hp ▸ hstart.1

end

/-! ### The pass after the optimiser -/

section
variable {κ : Type} {lab : ValueId → κ} {g : IrFunction}

/-- The runs of `g` and `g'` are the same from any start. -/
def SameFrom (n : ℕ) (g g' : IrFunction) : Prop :=
  ∀ (I : Interp) (ρ : I.Store) (mem : I.Mem), RunsLike I n g g' ρ ρ mem

theorem SameFrom.refl (n : ℕ) (g : IrFunction) : SameFrom n g g := fun _ _ _ k =>
  ⟨k, le_rfl, rfl, Iff.rfl⟩

theorem destruct_joins {R : ℕ → Prop} (h : PhiWeb g.blocks.length lab R g) {st₀ : Destruct}
    (hst₀ : st₀ = ⟨g.blocks, g.blocks.length, []⟩) (k : ℕ) (hk : k ≤ g.blocks.length) :
    ∃ st R', (List.range k).foldlM Destruct.join st₀ = some st ∧
      st.blocks.length = g.blocks.length ∧
      st.nextId = st.blocks.length + st.newBlocks.length ∧
      PhiWeb g.blocks.length lab R' (st.func g) ∧
      (CanStart R g → CanStart R' (st.func g) ∧
        ∀ n ≤ g.blocks.length, SameFrom n g (st.func g)) ∧
      ∀ q < k, ((st.func g).block q).phis = [] := by
  induction k with
  | zero =>
    subst hst₀
    have hfunc : (⟨g.blocks, g.blocks.length, []⟩ : Destruct).func g = g := by
      simp [Destruct.func]
    refine ⟨⟨g.blocks, g.blocks.length, []⟩, R, rfl, rfl, rfl, ?_, ?_, by simp⟩
    · rw [hfunc]
      exact h
    · rw [hfunc]
      exact fun hstart => ⟨hstart, fun n _ => .refl n g⟩
  | succ k ih =>
    obtain ⟨st, R', hfold, hlen, hnext, hweb, hsame, hdone⟩ := ih (by omega)
    have hlt : k < st.blocks.length := by omega
    have hstep : (List.range (k + 1)).foldlM Destruct.join st₀ = st.join k := by
      rw [List.range_succ, List.foldlM_append, hfold]
      show (List.foldlM Destruct.join st [k]) = _
      rw [List.foldlM_cons]
      cases st.join k with
      | none => rfl
      | some st' => rfl
    by_cases hphis : ((st.func g).block k).phis = []
    · refine ⟨st, R', hstep.trans (Destruct.join_of_phis_nil hlt hphis), hlen, hnext, hweb, hsame,
        fun q hq => ?_⟩
      rcases Nat.lt_succ_iff_lt_or_eq.mp hq with hq | rfl
      · exact hdone q hq
      · exact hphis
    · obtain ⟨hpreds, hargs⟩ := hweb.joins k (by omega) hphis
      have hid : ∀ (q : ℕ) b, st.blocks[q]? = some b → b.id = q := by
        intro q b hb
        have hq := (List.getElem?_eq_some_iff.mp hb).1
        rw [Destruct.func_block_of_lt (f := g) hq] at hb
        obtain rfl := Option.some.inj hb
        exact hweb.ids q (by simp [Destruct.func]; omega)
      obtain ⟨st', hjoin, hlen', hnext', hsplit⟩ := Destruct.join_spec hid hnext hlt hphis
        (by simpa only [hlen] using hpreds) hargs
      refine ⟨st', _, hstep.trans hjoin, hlen'.trans hlen, hnext',
        hsplit.phiWeb hweb (by omega) hpreds, ?_, ?_⟩
      · intro hstart
        obtain ⟨hstart', hruns⟩ := hsame hstart
        refine ⟨hsplit.canStart hweb (by omega) hstart', fun n hn I ρ mem => ?_⟩
        exact (hruns n hn I ρ mem).trans (hsplit.runsLike hweb (by omega) hstart' hn ρ mem)
      · intro q hq
        have hkg : k < (st.func g).blocks.length := by
          simp [Destruct.func]
          omega
        rw [hsplit.phis hweb.ends hkg]
        split_ifs with hqk
        · rfl
        · exact hdone q (by omega)
        · rfl

theorem nextId_eq (hids : ∀ q < g.blocks.length, (g.block q).id = q) (hne : 0 < g.blocks.length) :
    (g.blocks.map Block.id).foldr max 0 + 1 = g.blocks.length := by
  have hmap : g.blocks.map Block.id = List.range g.blocks.length := by
    refine List.ext_getElem (by simp) fun q hq hq' => ?_
    have hqg : q < g.blocks.length := by simpa using hq
    have hget : g.block q = g.blocks[q] :=
      IrFunction.block_of_getElem? (List.getElem?_eq_getElem hqg)
    rw [List.getElem_map, List.getElem_range, ← hget, hids q hqg]
  have hmax : ∀ n a : ℕ, (List.range n).foldr max a + 1 = max n (a + 1) := by
    intro n
    induction n with
    | zero => simp
    | succ n ih =>
      intro a
      rw [List.range_succ, List.foldr_append, List.foldr_cons, List.foldr_nil, ih]
      omega
  rw [hmap, hmax]
  omega

theorem PhiWeb.destruct_le {R : ℕ → Prop} (h : PhiWeb g.blocks.length lab R g) :
    ∃ g', destructSsa g = some g' ∧ (∀ b ∈ g'.blocks, b.phis = []) ∧
      (CanStart R g → ∀ n ≤ g.blocks.length, SameFrom n g g') := by
  have hpos : 0 < g.blocks.length := by
    obtain ⟨q, hq, -⟩ := h.entry
    omega
  obtain ⟨st, R', hfold, hlen, -, hweb, hsame, hdone⟩ := destruct_joins h rfl g.blocks.length le_rfl
  refine ⟨st.func g, ?_, ?_, fun hstart => (hsame hstart).2⟩
  · rw [destructSsa, nextId_eq h.ids hpos, hfold]
    rfl
  · intro b hb
    obtain ⟨q, hq⟩ := List.mem_iff_getElem?.mp hb
    rw [← IrFunction.block_of_getElem? hq]
    by_cases hqg : q < g.blocks.length
    · exact hdone q hqg
    · exact hweb.rest q (Nat.le_of_not_lt hqg)

theorem PhiWeb.destruct {R : ℕ → Prop} (h : PhiWeb g.blocks.length lab R g) :
    ∃ g', destructSsa g = some g' ∧ (∀ b ∈ g'.blocks, b.phis = []) ∧
      (CanStart R g → SameFrom g.blocks.length g g') := by
  obtain ⟨g', hdestruct, hphis, hsame⟩ := h.destruct_le
  exact ⟨g', hdestruct, hphis, fun hstart => hsame hstart _ le_rfl⟩

end

end Aret
