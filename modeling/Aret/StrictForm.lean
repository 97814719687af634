/-
SSA construction yields strict SSA form.

The counter gives no value twice, so a value is an entry version or has one place;
and a version in force at the start of a block is an entry version, or was defined on
the way down the dominator tree.

* `toSsa_ssaForm` — the form that the optimiser and the printer rely on.
-/
import Aret.OptLoop
import Aret.SsaDestruct
import Mathlib

namespace Aret

/-! ### The ledger of values -/

/-- The values that a list of statements defines. -/
def defined (ss : List Stmt) : List ValueId := (ss.filterMap Stmt.assigned?).map Prod.fst

/-- The values that block `b` defines. -/
def Renaming.defs (st : Renaming) (b : ℕ) : List ValueId :=
  (st.phis b).map Phi.dst ++ defined (st.stmts b)

/-- `v` is defined at place `i` of block `q`. -/
def Renaming.Site (st : Renaming) (v : ValueId) (q i : ℕ) : Prop :=
  (i = 0 ∧ v ∈ (st.phis q).map Phi.dst) ∨
    ∃ k e, i = k + 1 ∧ (st.stmts q)[k]? = some (.assign v e)

theorem mem_defined {ss : List Stmt} {k : ℕ} {v : ValueId} {e : Expr}
    (h : ss[k]? = some (.assign v e)) : v ∈ defined ss :=
  List.mem_map.mpr ⟨(v, e), List.mem_filterMap.mpr ⟨_, List.mem_of_getElem? h, rfl⟩, rfl⟩

theorem index_eq_of_defined {ss : List Stmt} (h : (defined ss).Nodup) {j k : ℕ} {v : ValueId}
    {d e : Expr} (hj : ss[j]? = some (.assign v d)) (hk : ss[k]? = some (.assign v e)) : j = k := by
  rw [defined, List.Nodup, List.pairwise_map, List.pairwise_filterMap,
    List.pairwise_iff_getElem] at h
  have hle : ∀ {j k : ℕ} {d e : Expr}, ss[j]? = some (.assign v d) → ss[k]? = some (.assign v e) →
      k ≤ j := by
    intro j k d e hj hk
    obtain ⟨hj', hj⟩ := List.getElem?_eq_some_iff.mp hj
    obtain ⟨hk', hk⟩ := List.getElem?_eq_some_iff.mp hk
    by_contra hlt
    exact h j k hj' hk' (Nat.lt_of_not_le hlt) (v, d) (by rw [hj]; rfl) (v, e) (by rw [hk]; rfl) rfl
  exact le_antisymm (hle hk hj) (hle hj hk)

theorem Renaming.Site.mem_defs {st : Renaming} {v : ValueId} {q i : ℕ} (h : st.Site v q i) :
    v ∈ st.defs q := by
  rcases h with ⟨-, hv⟩ | ⟨k, e, -, hk⟩
  · exact List.mem_append_left _ hv
  · exact List.mem_append_right _ (mem_defined hk)

/-- The values `made` by definitions and those of the entry are distinct and counted. -/
structure Versions.Ledger (vs : Versions) (made : List ValueId) : Prop where
  nodup : (made ++ vs.undef.map Prod.snd).Nodup
  lt : ∀ v ∈ made ++ vs.undef.map Prod.snd, v < vs.counter

section
variable {vs vs' : Versions} {made made' : List ValueId}

private theorem Versions.Ledger.count (h : vs.Ledger made) (hcounter : vs'.counter = vs.counter + 1)
    (hperm : (made' ++ vs'.undef.map Prod.snd).Perm
      (vs.counter :: (made ++ vs.undef.map Prod.snd))) : vs'.Ledger made' where
  nodup := hperm.nodup_iff.mpr (List.nodup_cons.mpr ⟨fun hmem => (h.lt _ hmem).ne rfl, h.nodup⟩)
  lt := by
    intro v hv
    rw [hcounter]
    rcases List.mem_cons.mp (hperm.mem_iff.mp hv) with rfl | hv
    · exact Nat.lt_succ_self _
    · exact Nat.lt_succ_of_lt (h.lt v hv)

theorem Versions.Ledger.top (h : vs.Ledger made) (l : Location) : (vs.top l).2.Ledger made := by
  rw [Versions.top]
  cases vs.stack l with
  | cons x xs => exact h
  | nil =>
    dsimp only
    cases vs.undef.lookup l with
    | some x => exact h
    | none =>
      refine h.count rfl ?_
      rw [List.map_append, List.map_singleton, ← List.append_assoc]
      exact List.perm_append_singleton ..

theorem Versions.Ledger.define (h : vs.Ledger made) (l : Location) :
    (vs.define l).2.Ledger (made ++ [(vs.define l).1]) := by
  refine h.count rfl ?_
  rw [List.append_assoc]
  exact List.perm_middle

/-! ### What the renamer keeps -/

section
variable {Q : Versions → Prop}

mutual

theorem rewriteReads_keeps (htop : ∀ vs l, Q vs → Q (vs.top l).2) :
    ∀ (e : Expr) (vs : Versions), Q vs → Q (rewriteReads e vs).2
  | .read l, vs, h => by
    rw [rewriteReads]
    split_ifs
    · exact htop vs l h
    · exact h
  | .load a _, vs, h | .unary _ a, vs, h | .cast _ a, vs, h => rewriteReads_keeps htop a vs h
  | .binary _ a b, vs, h => rewriteReads_keeps htop b _ (rewriteReads_keeps htop a vs h)
  | .select c t e, vs, h =>
    rewriteReads_keeps htop e _ (rewriteReads_keeps htop t _ (rewriteReads_keeps htop c vs h))
  | .call (.indirect x) args _, vs, h =>
    rewriteArgs_keeps htop args _ (rewriteReads_keeps htop x vs h)
  | .call (.direct _) args _, vs, h | .call (.named _) args _, vs, h =>
    rewriteArgs_keeps htop args vs h
  | .const .., _, h | .use _, _, h | .addr _, _, h | .phi _, _, h | .undef, _, h => h

theorem rewriteArgs_keeps (htop : ∀ vs l, Q vs → Q (vs.top l).2) :
    ∀ (es : List Expr) (vs : Versions), Q vs → Q (rewriteArgs es vs).2
  | [], _, h => h
  | e :: es, vs, h => rewriteArgs_keeps htop es _ (rewriteReads_keeps htop e vs h)

end

variable (htop : ∀ vs l, Q vs → Q (vs.top l).2)
include htop

theorem rewriteStmt_keeps (s : Stmt) (h : Q vs) : Q (rewriteStmt s vs).2 := by
  cases s with
  | store a v _ => exact rewriteReads_keeps htop v _ (rewriteReads_keeps htop a vs h)
  | branch c _ _ => exact rewriteReads_keeps htop c vs h
  | switch v _ _ => exact rewriteReads_keeps htop v vs h
  | callStmt e => exact rewriteReads_keeps htop e vs h
  | set _ e => exact rewriteReads_keeps htop e vs h
  | ret e =>
    cases e with
    | some e => exact rewriteReads_keeps htop e vs h
    | none => exact h
  | assign _ _ | jump _ | asm _ | nop => exact h

theorem fillPhis_keeps (j : ℕ) (φs : List Phi) (h : Q vs) : Q (fillPhis j φs vs).2 := by
  induction φs generalizing vs with
  | nil => exact h
  | cons φ φs ih => exact ih (htop vs φ.var h)

theorem fillSuccs_keeps (preds : ℕ → List ℕ) (b : ℕ) (ss : List ℕ) (phis : ℕ → List Phi)
    (h : Q vs) : Q (fillSuccs preds b ss phis vs).2 := by
  induction ss generalizing phis vs with
  | nil => exact h
  | cons s ss ih => exact ih _ (fillPhis_keeps htop _ _ h)

end

theorem assigned?_rewriteStmt {s : Stmt} (hs : s.preSsa = true) (vs : Versions) :
    (rewriteStmt s vs).1.assigned? = none := by
  cases s with
  | assign _ _ => cases hs
  | ret e => cases e <;> rfl
  | _ => rfl

theorem renameStmts_ledger {ss : List Stmt} (hpre : ∀ s ∈ ss, s.preSsa = true)
    (h : vs.Ledger made) :
    (renameStmts ss vs).2.1.Ledger (made ++ defined (renameStmts ss vs).1) := by
  induction ss generalizing vs made with
  | nil => simpa [renameStmts, defined] using h
  | cons s ss ih =>
    obtain ⟨hs, hss⟩ := List.forall_mem_cons.mp hpre
    -- a statement that defines no versioned location
    have hkeep : (renameStmts ss (rewriteStmt s vs).2).2.1.Ledger
        (made ++ defined ((rewriteStmt s vs).1 :: (renameStmts ss (rewriteStmt s vs).2).1)) := by
      have hnone := assigned?_rewriteStmt hs vs
      rw [defined, List.filterMap_cons_none hnone]
      exact ih hss (rewriteStmt_keeps (Q := fun vs => vs.Ledger made) (fun vs l h => h.top l) s h)
    cases s with
    | set l e =>
      rw [renameStmts]
      split_ifs
      · have hread := rewriteReads_keeps (Q := fun vs => vs.Ledger made)
          (fun vs l h => h.top l) e vs h
        have hrest := ih hss (hread.define l)
        rw [List.append_assoc] at hrest
        exact hrest
      · exact hkeep
    | assign _ _ => cases hs
    | _ => exact hkeep

theorem namePhis_ledger (φs : List Phi) (h : vs.Ledger made) :
    (namePhis φs vs).2.Ledger (made ++ (namePhis φs vs).1.map Phi.dst) := by
  induction φs generalizing vs made with
  | nil => simpa [namePhis] using h
  | cons φ φs ih =>
    have hrest := ih (h.define φ.var)
    rw [List.append_assoc] at hrest
    exact hrest

end

/-! ### The walk -/

/-- The blocks in `E` have been entered: their definitions are in the ledger, and the
slots of phis that are for none of them, like the statements of other blocks, are as they
were. -/
structure Tally (f : IrFunction) (st : Renaming) (E : List ℕ) : Prop where
  nodup : E.Nodup
  ledger : st.vers.Ledger (E.flatMap st.defs)
  blank : ∀ t j, (∀ b ∈ E, (f.predOf t).idxOf b ≠ j) →
    (st.phis t).map (fun φ => φ.args[j]?) = (f.blankPhis t).map fun φ => φ.args[j]?
  stmts : ∀ b ∉ E, st.stmts b = (f.block b).stmts

section
variable {f : IrFunction} {st : Renaming} {E : List ℕ}

theorem Tally.enter (h : Tally f st E) (hpre : f.PreSsa) {b : ℕ} (hb : b ∉ E) :
    Tally f (st.enter f.succOf f.predOf b).1 (E ++ [b]) := by
  set p := namePhis (st.phis b) st.vers with hp
  set q := renameStmts (st.stmts b) p.2
  set r := fillSuccs f.predOf b (f.succOf b) (Function.update st.phis b p.1) q.2.1 with hr
  have henter : (st.enter f.succOf f.predOf b).1
      = ⟨r.2, r.1, Function.update st.stmts b q.1⟩ := rfl
  rw [henter]
  have hdst : ∀ t, (r.1 t).map Phi.dst = (Function.update st.phis b p.1 t).map Phi.dst := by
    intro t
    rw [hr, fillSuccs_map _ _ _ _ Phi.dst fun _ _ => rfl]
  refine ⟨?_, ?_, fun t j hj => ?_, fun c hc => ?_⟩
  · rw [List.nodup_append]
    refine ⟨h.nodup, List.nodup_singleton b, ?_⟩
    rintro c hc _ hmem rfl
    exact hb (List.mem_singleton.mp hmem ▸ hc)
  · -- the definitions of the block come after those of the blocks before
    have hpreb : ∀ s ∈ st.stmts b, s.preSsa = true := h.stmts b hb ▸ hpre.block b
    have hnamed := renameStmts_ledger hpreb (namePhis_ledger (st.phis b) h.ledger)
    have hfilled := fillSuccs_keeps (Q := fun vs => vs.Ledger _) (fun vs l h => h.top l) f.predOf b
      (f.succOf b) (Function.update st.phis b p.1) hnamed
    have hdefs : (E ++ [b]).flatMap
        (Renaming.defs ⟨r.2, r.1, Function.update st.stmts b q.1⟩)
        = E.flatMap st.defs ++ p.1.map Phi.dst ++ defined q.1 := by
      rw [List.flatMap_append, List.flatMap_singleton, List.append_assoc]
      congr 1
      · refine List.flatMap_congr fun c hc => ?_
        have hcb : c ≠ b := fun hcb => hb (hcb ▸ hc)
        rw [Renaming.defs, Renaming.defs, hdst, Function.update_of_ne hcb]
        dsimp only
        rw [Function.update_of_ne hcb]
      · rw [Renaming.defs, hdst, Function.update_self]
        dsimp only
        rw [Function.update_self]
    rw [hdefs]
    exact hfilled
  · have hjb := hj b (List.mem_append_right _ (List.mem_singleton_self b))
    rw [← h.blank t j fun c hc => hj c (List.mem_append_left _ hc)]
    show (r.1 t).map _ = _
    rw [hr, fillSuccs_map _ _ _ _ (fun φ => φ.args[j]?) fun φ x => List.getElem?_set_ne hjb]
    by_cases htb : t = b
    · rw [htb, Function.update_self, hp, namePhis_map _ _ _ fun _ _ => rfl]
    · rw [Function.update_of_ne htb]
  · rw [List.mem_append, List.mem_singleton, not_or] at hc
    show Function.update st.stmts b q.1 c = _
    rw [Function.update_of_ne hc.2, h.stmts c hc.1]

theorem Tally.single (h : Tally f st E) {v : ValueId} {q i q' i' : ℕ} (hq : q ∈ E) (hq' : q' ∈ E)
    (hv : st.Site v q i) (hv' : st.Site v q' i') : q = q' ∧ i = i' := by
  obtain ⟨hnodup, hdisj⟩ := List.nodup_flatMap.mp (List.nodup_append.mp h.ledger.nodup).1
  obtain rfl : q = q' := by
    by_contra hne
    have hsymm : Std.Symm (Function.onFun List.Disjoint st.defs) := ⟨fun _ _ h => h.symm⟩
    exact hdisj.forall hq hq' hne hv.mem_defs hv'.mem_defs
  obtain ⟨-, hstmts, hne⟩ := List.nodup_append.mp (hnodup q hq)
  refine ⟨rfl, ?_⟩
  rcases hv with ⟨rfl, hphi⟩ | ⟨k, e, rfl, hk⟩
  · rcases hv' with ⟨rfl, -⟩ | ⟨k, e, -, hk⟩
    · rfl
    · exact absurd rfl (hne v hphi v (mem_defined hk))
  · rcases hv' with ⟨-, hphi⟩ | ⟨k', e', rfl, hk'⟩
    · exact absurd rfl (hne v hphi v (mem_defined hk))
    · rw [index_eq_of_defined hstmts hk hk']

/-- Neither an entry version nor a value not yet made is defined anywhere. -/
theorem Tally.not_site (h : Tally f st E) {v : ValueId}
    (hv : v ∈ st.vers.undef.map Prod.snd ∨ st.vers.counter ≤ v) {q i : ℕ} (hq : q ∈ E) :
    ¬st.Site v q i := by
  intro hsite
  have hmade : v ∈ E.flatMap st.defs := List.mem_flatMap.mpr ⟨q, hq, hsite.mem_defs⟩
  rcases hv with hv | hv
  · exact (List.nodup_append.mp h.ledger.nodup).2.2 v hmade v hv rfl
  · exact absurd (h.ledger.lt v (List.mem_append_left _ hmade)) (Nat.not_lt.mpr hv)

theorem Tally.pop (h : Tally f st E) (vars : List Location) :
    Tally f { st with vers := st.vers.pop vars } E := by
  obtain ⟨hcounter, hundef⟩ := st.vers.pop_eq vars
  refine ⟨h.nodup, ⟨?_, ?_⟩, h.blank, h.stmts⟩
  · rw [hundef]
    exact h.ledger.nodup
  · rw [hundef, hcounter]
    exact h.ledger.lt

end

theorem IrFunction.Rooted.tally {f : IrFunction} (h : f.Rooted) (hpre : f.PreSsa) :
    ∃ E, (∀ b, b ∈ E ↔ b ∈ f.order) ∧ Tally f f.renamed E := by
  have hstart : Tally f ⟨⟨0, fun _ => [], [], []⟩, f.blankPhis, fun i => (f.block i).stmts⟩ [] :=
    ⟨List.nodup_nil, ⟨List.nodup_nil, by simp⟩, fun _ _ _ => rfl, fun _ _ => rfl⟩
  obtain ⟨-, done, -, horder, E, hE, htally⟩ := h.renamed_with
    (P := fun st done => ∃ E, (∀ b, b ∈ E ↔ (done b).isSome) ∧ Tally f st E)
    (by
      rintro st done vars ⟨E, hE, ht⟩
      exact ⟨E, hE, ht.pop vars⟩)
    (by
      rintro st done b m hb ⟨E, hE, ht⟩
      have hnot : b ∉ E := fun hmem => by
        rw [hE, hb] at hmem
        cases hmem
      refine ⟨E ++ [b], fun c => ?_, ht.enter hpre hnot⟩
      rw [List.mem_append, List.mem_singleton, hE]
      by_cases hcb : c = b
      · simp [hcb]
      · rw [Function.update_of_ne hcb, or_iff_left hcb])
    ⟨[], by simp, hstart⟩
  exact ⟨E, fun b => (hE b).trans (horder b).symm, htally⟩

/-! ### What renamed code uses -/

section
variable {σ σ' : Location → Option ValueId}

/-- The values used are versions in force, and no phi is among what uses them. -/
def UsesOnly (σ : Location → Option ValueId) (us : List ValueId) (free : Bool) : Prop :=
  (∀ v ∈ us, ∃ l, σ l = some v) ∧ free = true

theorem UsesOnly.nil : UsesOnly σ [] true := ⟨fun _ hv => absurd hv List.not_mem_nil, rfl⟩

theorem UsesOnly.append {us us' : List ValueId} {free free' : Bool} (h : UsesOnly σ us free)
    (h' : UsesOnly σ us' free') : UsesOnly σ (us ++ us') (free && free') :=
  ⟨List.forall_mem_append.mpr ⟨h.1, h'.1⟩, Bool.and_eq_true_iff.mpr ⟨h.2, h'.2⟩⟩

mutual

/-- Before SSA no value is used at all. -/
theorem Expr.usesOnly_of_preSsa : ∀ e : Expr, e.preSsa = true → UsesOnly σ e.uses e.phiFree
  | .load a _, h | .unary _ a, h | .cast _ a, h => usesOnly_of_preSsa a h
  | .binary _ a b, h =>
    have hab := Bool.and_eq_true_iff.mp h
    (usesOnly_of_preSsa a hab.1).append (usesOnly_of_preSsa b hab.2)
  | .select c t e, h =>
    have hcte := Bool.and_eq_true_iff.mp h
    have hct := Bool.and_eq_true_iff.mp hcte.1
    ((usesOnly_of_preSsa c hct.1).append (usesOnly_of_preSsa t hct.2)).append
      (usesOnly_of_preSsa e hcte.2)
  | .call (.indirect x) args _, h =>
    have hxa := Bool.and_eq_true_iff.mp h
    (usesOnly_of_preSsa x hxa.1).append (usesOnlyArgs_of_preSsa args hxa.2)
  | .call (.direct _) args _, h | .call (.named _) args _, h => usesOnlyArgs_of_preSsa args h
  | .const .., _ | .read _, _ | .addr _, _ | .undef, _ => .nil

theorem Expr.usesOnlyArgs_of_preSsa : ∀ es : List Expr, Expr.preSsas es = true →
    UsesOnly σ (Expr.usesOfArgs es) (Expr.allPhiFree es)
  | [], _ => .nil
  | e :: es, h =>
    have hees := Bool.and_eq_true_iff.mp h
    (usesOnly_of_preSsa e hees.1).append (usesOnlyArgs_of_preSsa es hees.2)

end

mutual

theorem Expr.Renamed.usesOnly : ∀ {e e' : Expr}, e.preSsa = true → e.Renamed σ e' →
    UsesOnly σ e'.uses e'.phiFree := by
  intro e e' hpre h
  match e with
  | .read l =>
    simp only [Expr.Renamed] at h
    split_ifs at h
    · obtain ⟨x, hx, rfl⟩ := h
      exact ⟨fun v hv => ⟨l, List.mem_singleton.mp hv ▸ hx⟩, rfl⟩
    · rw [h]
      exact .nil
  | .load a ty =>
    obtain ⟨a', ha, rfl⟩ := h
    rw [Expr.uses, Expr.phiFree]
    exact Expr.Renamed.usesOnly (e := a) hpre ha
  | .unary op x =>
    obtain ⟨x', hx, rfl⟩ := h
    rw [Expr.uses, Expr.phiFree]
    exact Expr.Renamed.usesOnly (e := x) hpre hx
  | .cast ty x =>
    obtain ⟨x', hx, rfl⟩ := h
    rw [Expr.uses, Expr.phiFree]
    exact Expr.Renamed.usesOnly (e := x) hpre hx
  | .binary op a b =>
    obtain ⟨a', b', ha, hb, rfl⟩ := h
    obtain ⟨hprea, hpreb⟩ := Bool.and_eq_true_iff.mp hpre
    exact (Expr.Renamed.usesOnly hprea ha).append (Expr.Renamed.usesOnly hpreb hb)
  | .select c t e =>
    obtain ⟨c', t', e', hc, ht, he, rfl⟩ := h
    obtain ⟨hprect, hpree⟩ := Bool.and_eq_true_iff.mp hpre
    obtain ⟨hprec, hpret⟩ := Bool.and_eq_true_iff.mp hprect
    exact ((Expr.Renamed.usesOnly hprec hc).append (Expr.Renamed.usesOnly hpret ht)).append
      (Expr.Renamed.usesOnly hpree he)
  | .call (.indirect x) args ret =>
    obtain ⟨x', args', hx, hargs, rfl⟩ := h
    obtain ⟨hprex, hpreargs⟩ := Bool.and_eq_true_iff.mp hpre
    exact (Expr.Renamed.usesOnly hprex hx).append (Expr.RenamedArgs.usesOnly hpreargs hargs)
  | .call (.direct a) args ret =>
    obtain ⟨args', hargs, rfl⟩ := h
    exact Expr.RenamedArgs.usesOnly hpre hargs
  | .call (.named n) args ret =>
    obtain ⟨args', hargs, rfl⟩ := h
    exact Expr.RenamedArgs.usesOnly hpre hargs
  | .const v ty | .addr l | .undef =>
    rw [h]
    exact .nil

theorem Expr.RenamedArgs.usesOnly : ∀ {es es' : List Expr}, Expr.preSsas es = true →
    Expr.RenamedArgs σ es es' → UsesOnly σ (Expr.usesOfArgs es') (Expr.allPhiFree es') := by
  intro es es' hpre h
  match es with
  | [] =>
    rw [h]
    exact .nil
  | e :: es =>
    obtain ⟨e', es'', he, hes, rfl⟩ := h
    obtain ⟨hpree, hprees⟩ := Bool.and_eq_true_iff.mp hpre
    exact (Expr.Renamed.usesOnly hpree he).append (Expr.RenamedArgs.usesOnly hprees hes)

end

theorem Stmt.usesOnly_of_preSsa {s : Stmt} (hpre : s.preSsa = true) :
    ∀ e ∈ s.exprs, UsesOnly σ e.uses e.phiFree := by
  have hone : ∀ {e : Expr}, e.preSsa = true → ∀ x ∈ [e], UsesOnly σ x.uses x.phiFree :=
    fun he x hx => List.mem_singleton.mp hx ▸ Expr.usesOnly_of_preSsa _ he
  cases s with
  | store a v _ =>
    obtain ⟨hprea, hprev⟩ := Bool.and_eq_true_iff.mp hpre
    exact List.forall_mem_cons.mpr ⟨Expr.usesOnly_of_preSsa a hprea, hone hprev⟩
  | branch _ _ _ | switch _ _ _ | callStmt _ | set _ _ => exact hone hpre
  | ret e =>
    cases e with
    | some e => exact hone hpre
    | none => exact fun e he => absurd he List.not_mem_nil
  | assign _ _ => cases hpre
  | jump _ | asm _ | nop => exact fun e he => absurd he List.not_mem_nil

theorem Stmt.Renamed.usesOnly {s s' : Stmt} (hpre : s.preSsa = true) (h : s.Renamed σ s') :
    ∀ e ∈ s'.exprs, UsesOnly σ e.uses e.phiFree := by
  have hone : ∀ {e e' : Expr}, e.preSsa = true → e.Renamed σ e' →
      ∀ x ∈ [e'], UsesOnly σ x.uses x.phiFree :=
    fun he hren x hx => List.mem_singleton.mp hx ▸ Expr.Renamed.usesOnly he hren
  cases s with
  | store a v _ =>
    obtain ⟨a', v', ha, hv, rfl⟩ := h
    obtain ⟨hprea, hprev⟩ := Bool.and_eq_true_iff.mp hpre
    exact List.forall_mem_cons.mpr ⟨Expr.Renamed.usesOnly hprea ha, hone hprev hv⟩
  | branch _ _ _ | switch _ _ _ | callStmt _ =>
    obtain ⟨_, he, rfl⟩ := h
    exact hone hpre he
  | set _ _ =>
    obtain ⟨-, _, he, rfl⟩ := h
    exact hone hpre he
  | ret e =>
    cases e with
    | some e =>
      obtain ⟨_, he, rfl⟩ := h
      exact hone hpre he
    | none =>
      rw [h]
      exact fun e he => absurd he List.not_mem_nil
  | assign _ _ => cases hpre
  | jump _ | asm _ | nop =>
    rw [h]
    exact fun e he => absurd he List.not_mem_nil

end

/-! ### Definitions come before uses -/

open IrFunction

theorem IrFunction.AvailableAt.mono {f : IrFunction} {v p j k} (h : f.AvailableAt v p j)
    (hjk : j ≤ k) : f.AvailableAt v p k :=
  fun q i hq => (h q i hq).trans (.inl ⟨rfl, hjk⟩)

/-- At place `k` of block `p` all that an expression uses is available, and it has no phi inside. -/
def IrFunction.SoundAt (g : IrFunction) (p k : ℕ) (e : Expr) : Prop :=
  e.phiFree = true ∧ ∀ v ∈ e.uses, g.AvailableAt v p k

section
variable {g : IrFunction} {p k : ℕ} {σ σ' : Location → Option ValueId}

theorem UsesOnly.soundAt {e : Expr} (he : UsesOnly σ e.uses e.phiFree)
    (hσ : ∀ l x, σ l = some x → g.AvailableAt x p k) : g.SoundAt p k e := by
  refine ⟨he.2, fun v hv => ?_⟩
  obtain ⟨l, hl⟩ := he.1 v hv
  exact hσ l v hl

private theorem soundAt_cons {s : Stmt} {ss : List Stmt} (hs : ∀ e ∈ s.exprs, g.SoundAt p k e)
    (hss : ∀ (j : ℕ) t, ss[j]? = some t → ∀ e ∈ t.exprs, g.SoundAt p (k + 1 + j) e) (j : ℕ)
    (t : Stmt) (ht : (s :: ss)[j]? = some t) : ∀ e ∈ t.exprs, g.SoundAt p (k + j) e := by
  cases j with
  | zero =>
    obtain rfl := Option.some.inj ht
    exact hs
  | succ j =>
    have := hss j t ht
    rwa [Nat.add_right_comm] at this

theorem StmtsRenamed.soundAt
    (hsingle : ∀ {v q i q' i'}, g.DefinedAt v q i → g.DefinedAt v q' i' → q = q' ∧ i = i')
    {lab : ValueId → Location} {bound : ℕ} {ss ss' : List Stmt}
    (h : StmtsRenamed lab bound σ ss ss' σ') (hpre : ∀ s ∈ ss, s.preSsa = true)
    (hbody : ∀ j, (g.block p).body[k + j]? = ss'[j]?)
    (hσ : ∀ l x, σ l = some x → g.AvailableAt x p k) :
    (∀ (j : ℕ) s, ss'[j]? = some s → ∀ e ∈ s.exprs, g.SoundAt p (k + j) e) ∧
      ∀ l x, σ' l = some x → g.AvailableAt x p (k + ss'.length) := by
  induction h generalizing k with
  | nil σ => exact ⟨fun j s hs => absurd hs (by simp), hσ⟩
  | @define σ σ' l e e' x ss ss' _ he _ _ _ ih =>
    obtain ⟨hpree, hpress⟩ := List.forall_mem_cons.mp hpre
    have hnext : ∀ m y, Function.update σ l (some x) m = some y → g.AvailableAt y p (k + 1) := by
      intro m y hy
      by_cases hml : m = l
      · rw [hml, Function.update_self] at hy
        obtain rfl := Option.some.inj hy
        intro q i hq
        have hdef : g.DefinedAt x p (k + 1) := .inr ⟨k, e', rfl, hbody 0⟩
        obtain ⟨rfl, rfl⟩ := hsingle hq hdef
        exact .inl ⟨rfl, le_rfl⟩
      · rw [Function.update_of_ne hml] at hy
        exact (hσ m y hy).mono (Nat.le_succ k)
    obtain ⟨huses, hend⟩ := ih hpress
      (fun j => by rw [Nat.add_right_comm]; exact hbody (j + 1)) hnext
    refine ⟨soundAt_cons (fun d hd => ?_) huses, ?_⟩
    · rw [List.mem_singleton.mp hd]
      exact UsesOnly.soundAt (Expr.Renamed.usesOnly (e := e) hpree he) hσ
    · rw [List.length_cons, Nat.add_comm ss'.length, ← Nat.add_assoc]
      exact hend
  | @keep σ σ' s s' ss ss' hs _ _ ih =>
    obtain ⟨hpres, hpress⟩ := List.forall_mem_cons.mp hpre
    obtain ⟨huses, hend⟩ := ih (k := k + 1) hpress
      (fun j => by rw [Nat.add_right_comm]; exact hbody (j + 1))
      fun l x hx => (hσ l x hx).mono (Nat.le_succ k)
    refine ⟨soundAt_cons (fun e he => UsesOnly.soundAt (hs.usesOnly hpres e he) hσ) huses, ?_⟩
    rw [List.length_cons, Nat.add_comm ss'.length, ← Nat.add_assoc]
    exact hend

end

section
variable {f : IrFunction}

theorem IrFunction.Rooted.phiVars_unreached (h : f.Rooted) {q : ℕ} (hq : q ∉ f.order) :
    f.phiVars q = [] := by
  refine List.eq_nil_iff_forall_not_mem.mpr fun l hl => ?_
  obtain ⟨sites, -, hd⟩ := mem_phiVars.mp hl
  obtain ⟨b, hb⟩ := mem_frontier_of_placePhis frontier_lt hd
  rw [frontier, dominanceFrontiers] at hb
  have hcond := (Bool.and_eq_true_iff.mp (List.mem_filter.mp hb).2).2
  cases hidom : f.idom q with
  | none =>
    rw [hidom] at hcond
    cases hcond
  | some stop => exact hq ((h.isDominators.placed q).mp (by rw [hidom]; rfl))

theorem IrFunction.Rooted.strictlyDominates (h : f.Rooted) {p r : ℕ} (hp : p ∈ f.order)
    (hne : p ≠ f.entryIndex) (hidom : f.idom p = some r) : f.StrictlyDominates r p := by
  have hlt := h.isDominators.tree.ranked hne hidom
  have hreach := h.isOrder.mem_iff.mp hp
  refine ⟨?_, hreach, (up_dominators_iff h.entry_lt (fun u v _ => ?_) hreach).mp
    (.head hidom (.refl r))⟩
  · rintro rfl
    omega
  · refine (h.graph.transpose u v).symm.trans ⟨fun hv => ⟨?_, hv⟩, And.right⟩
    by_contra hle
    rw [block_of_le (Nat.le_of_not_lt hle)] at hv
    cases hv

variable {lab : ValueId → Location} {inn mid out : ℕ → Location → Option ValueId}
  {sharedStack : Bool}

theorem blankPhis_args {t j : ℕ} {φ : Phi} {a : ValueId} (hφ : φ ∈ f.blankPhis t)
    (ha : φ.args[j]? = some a) : a = 4294967295 := by
  rw [blankPhis, initPhis] at hφ
  obtain ⟨s, -, hs⟩ := List.mem_filterMap.mp hφ
  split_ifs at hs
  obtain rfl := Option.some.inj hs
  exact List.eq_of_mem_replicate (List.mem_of_getElem? ha)

/-- The argument of a phi for predecessor `q` is the version in force at its end, or the
placeholder if the walk never got there. -/
theorem Versioning.arg (h : Versioning f lab inn mid out) (hok : f.Rooted) {E : List ℕ}
    (hE : ∀ b, b ∈ E ↔ b ∈ f.order) (ht : Tally f f.renamed E) {t j q : ℕ} {φ : Phi} {a : ValueId}
    (hφ : φ ∈ f.renamed.phis t) (ha : φ.args[j]? = some a) (hq : (f.predOf t)[j]? = some q) :
    a = 4294967295 ∨ q ∈ f.order ∧ out q φ.var = some a := by
  obtain ⟨hj, hget⟩ := List.getElem?_eq_some_iff.mp hq
  by_cases hslot : ∃ b ∈ E, (f.predOf t).idxOf b = j
  · obtain ⟨b, hb, rfl⟩ := hslot
    obtain rfl : b = q := by rw [← hget, List.getElem_idxOf]
    have hbr := (hE b).mp hb
    have hts : t ∈ f.succOf b := (hok.graph.transpose b t).mpr (List.mem_of_getElem? hq)
    obtain ⟨y, hy, hout⟩ := h.slot b hbr t hts φ hφ
    obtain rfl := Option.some.inj (hy.symm.trans ha)
    exact .inr ⟨hbr, hout⟩
  · push Not at hslot
    have hmem : some a ∈ (f.renamed.phis t).map fun φ => φ.args[j]? :=
      List.mem_map.mpr ⟨φ, hφ, ha⟩
    rw [ht.blank t j hslot] at hmem
    obtain ⟨ψ, hψ, hψa⟩ := List.mem_map.mp hmem
    exact .inl (blankPhis_args hψ hψa)

/-- What a run of the renamer leaves behind, with its ledger. -/
structure Numbered (f : IrFunction) (lab : ValueId → Location)
    (inn mid out : ℕ → Location → Option ValueId) (E : List ℕ) : Prop
    extends Versioning f lab inn mid out where
  rooted : f.Rooted
  preSsa : f.PreSsa
  mem : ∀ b, b ∈ E ↔ b ∈ f.order
  tally : Tally f f.renamed E

variable {E : List ℕ}

namespace Numbered

/-- A value is defined by the block whose definition it is. -/
theorem site (h : Numbered f lab inn mid out E) {v : ValueId} {q i : ℕ}
    (hv : (constructSsa sharedStack f).DefinedAt v q i) : q ∈ E ∧ f.renamed.Site v q i := by
  have hlen : (constructSsa sharedStack f).blocks.length = f.blocks.length := by simp [constructSsa]
  have hq : q < f.blocks.length := by
    by_contra hle
    have hdefault : (constructSsa sharedStack f).block q = default :=
      block_of_le (hlen ▸ Nat.le_of_not_lt hle)
    rw [DefinedAt, hdefault] at hv
    rcases hv with ⟨-, hv⟩ | ⟨k, e, -, hv⟩
    · cases hv
    · cases hv
  rw [DefinedAt, (h.constructSsa_parts h.preSsa hq).1, (h.constructSsa_parts h.preSsa hq).2,
    List.map_map] at hv
  refine ⟨?_, hv⟩
  by_contra hqE
  rcases hv with ⟨-, hv⟩ | ⟨k, e, -, hv⟩
  · have hnone : f.renamed.phis q = [] := List.map_eq_nil_iff.mp ((h.vars q).trans
      (h.rooted.phiVars_unreached fun hmem => hqE ((h.mem q).mpr hmem)))
    rw [hnone] at hv
    cases hv
  · rw [h.tally.stmts q hqE] at hv
    cases h.preSsa.block q _ (List.mem_of_getElem? hv)

theorem single (h : Numbered f lab inn mid out E) {v : ValueId} {q i q' i' : ℕ}
    (hv : (constructSsa sharedStack f).DefinedAt v q i)
    (hv' : (constructSsa sharedStack f).DefinedAt v q' i') : q = q' ∧ i = i' := by
  obtain ⟨hq, hsite⟩ := h.site hv
  obtain ⟨hq', hsite'⟩ := h.site hv'
  exact h.tally.single hq hq' hsite hsite'

theorem available_of_not_made (h : Numbered f lab inn mid out E) {v : ValueId} {p k : ℕ}
    (hv : v ∈ f.renamed.vers.undef.map Prod.snd ∨ f.renamed.vers.counter ≤ v) :
    (constructSsa sharedStack f).AvailableAt v p k := by
  intro q i hdef
  obtain ⟨hq, hsite⟩ := h.site hdef
  exact absurd hsite (h.tally.not_site hv hq)

theorem block_sound (h : Numbered f lab inn mid out E) {p : ℕ} (hp : p ∈ f.order)
    (hmid : ∀ l x, mid p l = some x → (constructSsa sharedStack f).AvailableAt x p 0) :
    (∀ (j : ℕ) s, ((constructSsa sharedStack f).block p).body[j]? = some s → ∀ e ∈ s.exprs,
      (constructSsa sharedStack f).SoundAt p j e) ∧
    ∀ l x, out p l = some x → (constructSsa sharedStack f).AvailableAt x p
      ((constructSsa sharedStack f).block p).body.length := by
  have hbody : ((constructSsa sharedStack f).block p).body = f.renamed.stmts p :=
    (h.constructSsa_parts h.preSsa (h.rooted.isOrder.lt p hp)).2
  have hsound := (h.body p hp).soundAt h.single (h.preSsa.block p) (k := 0)
    (fun j => by rw [Nat.zero_add, hbody]) hmid
  simp only [Nat.zero_add, ← hbody] at hsound
  exact hsound

/-- Down the dominator tree: a block starts with the versions its parent ends with. -/
theorem mid_available (h : Numbered f lab inn mid out E) {p : ℕ} (hp : p ∈ f.order) :
    ∀ l x, mid p l = some x → (constructSsa sharedStack f).AvailableAt x p 0 := by
  have hdom := h.rooted.isDominators
  induction hk : f.order.idxOf p using Nat.strong_induction_on generalizing p with
  | _ k ih =>
    intro l x hx
    by_cases hl : l ∈ f.phiVars p
    · rw [← h.vars p] at hl
      obtain ⟨φ, hφ, rfl⟩ := List.mem_map.mp hl
      obtain rfl := Option.some.inj ((h.phi p hp φ hφ).1.symm.trans hx)
      have hdef : (constructSsa sharedStack f).DefinedAt φ.dst p 0 := by
        refine .inl ⟨rfl, ?_⟩
        rw [(h.constructSsa_parts h.preSsa (h.rooted.isOrder.lt p hp)).1]
        exact List.mem_map.mpr ⟨_, List.mem_map.mpr ⟨φ, hφ, rfl⟩, rfl⟩
      intro q i hq
      obtain ⟨rfl, rfl⟩ := h.single hq hdef
      exact .inl ⟨rfl, le_rfl⟩
    · rw [h.kept p l hl] at hx
      by_cases hpe : p = f.entryIndex
      · rw [hpe, h.entry] at hx
        obtain ⟨l₁, l₂, heq, -⟩ := List.lookup_eq_some_iff.mp hx
        refine h.available_of_not_made (.inl (List.mem_map.mpr ⟨(l, x), ?_, rfl⟩))
        rw [heq]
        exact List.mem_append_right _ List.mem_cons_self
      · obtain ⟨r, hr⟩ := Option.isSome_iff_exists.mp ((hdom.placed p).mpr hp)
        rw [h.up p hp hpe r hr] at hx
        have hlt := hdom.tree.ranked hpe hr
        have hrr := (hdom.placed r).mp (hdom.tree.closed hr)
        have hout := (h.block_sound hrr (ih _ (hk ▸ hlt) hrr rfl)).2 l x hx
        have hbefore := (h.rooted.strictlyDominates hp hpe hr).congr
          (g := constructSsa sharedStack f) (by simp [constructSsa]) constructSsa_entryIndex
          (funext fun q => (constructSsa_edges q).1)
        exact fun q i hq => (hout q i hq).trans (.inr hbefore)

theorem sound (h : Numbered f lab inn mid out E) {p k : ℕ} {s : Stmt}
    (hs : ((constructSsa sharedStack f).block p).body[k]? = some s) :
    ∀ e ∈ s.exprs, (constructSsa sharedStack f).SoundAt p k e := by
  by_cases hp : p ∈ f.order
  · exact (h.block_sound hp (h.mid_available hp)).1 k s hs
  · -- a block that the walk does not enter stays as it was
    have hpre : s.preSsa = true := by
      by_cases hlt : p < f.blocks.length
      · rw [(h.constructSsa_parts h.preSsa hlt).2,
          h.tally.stmts p fun hmem => hp ((h.mem p).mp hmem)] at hs
        exact h.preSsa.block p s (List.mem_of_getElem? hs)
      · rw [block_of_le (by simpa [constructSsa] using hlt)] at hs
        cases hs
    exact fun e he => UsesOnly.soundAt (σ := fun _ => none) (Stmt.usesOnly_of_preSsa hpre e he)
      (by rintro _ _ ⟨⟩)

theorem strictSsa (h : Numbered f lab inn mid out E)
    (hid : f.renamed.vers.counter ≤ 4294967295) : (constructSsa sharedStack f).StrictSsa := by
  have hphis : ∀ {p} {φ : ValueId × List ValueId}, φ ∈ ((constructSsa sharedStack f).block p).phis →
      ∃ ψ ∈ f.renamed.phis p, φ = (ψ.dst, ψ.args) := by
    intro p φ hφ
    by_cases hlt : p < f.blocks.length
    · rw [(h.constructSsa_parts h.preSsa hlt).1] at hφ
      obtain ⟨ψ, hψ, rfl⟩ := List.mem_map.mp hφ
      exact ⟨ψ, hψ, rfl⟩
    · rw [block_of_le (by simpa [constructSsa] using hlt)] at hφ
      cases hφ
  refine ⟨h.single, fun q => ?_, fun {p k s v} hs hv => ?_, fun {p x as j a q} hφ ha hq => ?_⟩
  · by_cases hq : q < f.blocks.length
    · rw [(h.constructSsa_parts h.preSsa hq).1, List.map_map]
      by_cases hqr : q ∈ f.order
      · have hdefs := (List.nodup_flatMap.mp (List.nodup_append.mp h.tally.ledger.nodup).1).1 q
          ((h.mem q).mpr hqr)
        exact (List.nodup_append.mp hdefs).1
      · rw [List.map_eq_nil_iff.mp ((h.vars q).trans (h.rooted.phiVars_unreached hqr))]
        exact List.nodup_nil
    · rw [block_of_le (by simpa [constructSsa] using hq)]
      exact List.nodup_nil
  · obtain ⟨e, he, hve⟩ := List.mem_flatMap.mp hv
    exact (h.sound hs e he).2 v hve
  · obtain ⟨ψ, hψ, heq⟩ := hphis hφ
    obtain ⟨-, rfl⟩ := Prod.mk.inj heq
    rw [predOf, (constructSsa_edges p).2] at hq
    rcases h.arg h.rooted h.mem h.tally hψ ha hq with rfl | ⟨hqr, hout⟩
    · exact h.available_of_not_made (.inr hid)
    · exact (h.block_sound hqr (h.mid_available hqr)).2 _ _ hout

theorem phisAlone (h : Numbered f lab inn mid out E) : (constructSsa sharedStack f).PhisAlone := by
  intro s hs hphi e he
  obtain ⟨b, hb, hsb⟩ := List.mem_flatMap.mp hs
  obtain ⟨p, hp⟩ := List.mem_iff_getElem?.mp hb
  have hbody : s ∈ ((constructSsa sharedStack f).block p).body := by
    rw [block_of_getElem? hp]
    exact List.mem_filter.mpr ⟨hsb, Option.isNone_iff_eq_none.mpr hphi⟩
  obtain ⟨k, hk⟩ := List.mem_iff_getElem?.mp hbody
  exact (h.sound hk e he).1

end Numbered

theorem IrFunction.EntryOk.phisFit (h : f.EntryOk) (hvers : Versioning f lab inn mid out)
    (hpre : f.PreSsa) : (constructSsa sharedStack f).PhisFit := by
  refine ⟨?_, fun {p t} hpt => ?_⟩
  · rw [constructSsa_entryIndex, (hvers.constructSsa_parts hpre h.entry_lt).1,
      List.map_eq_nil_iff.mp ((hvers.vars _).trans h.phiVars_entry)]
    rfl
  · rw [(constructSsa_edges p).1] at hpt
    have hmem : p ∈ f.predOf t := (h.graph.transpose p t).mp hpt
    rw [(constructSsa_edges t).2, (hvers.constructSsa_parts hpre (h.lt_of_mem_succ hpt)).1]
    refine ⟨_, idxOf?_of_mem hmem, fun φ hφ => ?_⟩
    obtain ⟨ψ, hψ, rfl⟩ := List.mem_map.mp hφ
    rw [hvers.lengths t ψ hψ]
    exact List.idxOf_lt_length_iff.mpr hmem

theorem IrFunction.EntryOk.ssaForm (h : f.EntryOk) (hpre : f.PreSsa)
    (hid : f.renamed.vers.counter ≤ 4294967295) : (constructSsa sharedStack f).SsaForm := by
  obtain ⟨lab, inn, mid, out, hvers⟩ := h.versioning
  obtain ⟨E, hE, htally⟩ := h.tally hpre
  have hnum : Numbered f lab inn mid out E := ⟨hvers, h.toRooted, hpre, hE, htally⟩
  exact ⟨hnum.strictSsa hid, h.phisFit hvers hpre, hnum.phisAlone⟩

theorem le_passRegParams (undef : List (Location × ValueId)) (regs : List ℕ) (next : ℕ) :
    next ≤ (passRegParams undef regs next).2 := by
  have hfold : ∀ {g : List ValueId × ℕ → ℕ → List ValueId × ℕ}, (∀ st r, st.2 ≤ (g st r).2) →
      ∀ st, st.2 ≤ (regs.foldl g st).2 := by
    intro g hg
    induction regs with
    | nil => exact fun st => le_rfl
    | cons r regs ih => exact fun st => (hg st r).trans (ih (g st r))
  refine hfold (fun st r => ?_) ([], next)
  split
  · exact le_rfl
  · exact Nat.le_succ _

theorem counter_le_nextValue :
    f.renamed.vers.counter ≤ (constructSsa sharedStack f).nextValue := by
  rw [constructSsa]
  dsimp only
  split_ifs
  · exact le_rfl
  · exact le_passRegParams ..
  · exact le_rfl

end

/-- `to_ssa` yields strict SSA form: each value is defined once, at most, and that before
all its uses on every path; phis stand alone, have a slot for each predecessor, and none
stands at the entry.  The placeholder of a slot is no value as long as the ids fit. -/
theorem toSsa_ssaForm {f : IrFunction} (h : f.Lowerable) (hfound : f.PreheaderFound)
    (sharedStack : Bool) (hid : (toSsa sharedStack f).nextValue ≤ 4294967295) :
    (toSsa sharedStack f).SsaForm := by
  rw [h.toSsa_eq] at hid ⊢
  exact (h.entryOk hfound).ssaForm (splitEntry_preSsa h.preSsa h.ne_nil)
    (counter_le_nextValue.trans hid)

theorem toSsa_ssaForm_swapLoop : (toSsa false swapLoop).SsaForm :=
  toSsa_ssaForm ⟨by decide, by decide, by decide, by decide, ⟨_, List.mem_cons_self, rfl⟩⟩
    (.inl rfl) false (by decide)

end Aret
