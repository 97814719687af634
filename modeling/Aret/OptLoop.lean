/-
The loop of the optimiser.

* `dce_removes_dead` — what dead-code elimination and the loop leave alone.
-/
import Aret.FoldRun
import Mathlib.Data.List.NodupEquivFin

namespace Aret

namespace IrFunction

/-! ### SSA form is kept -/

section
variable {f g : IrFunction}

theorem StrictlyDominates.congr (hlen : g.blocks.length = f.blocks.length)
    (hentry : g.entryIndex = f.entryIndex) (hsucc : g.succOf = f.succOf) {q p : ℕ}
    (h : f.StrictlyDominates q p) : g.StrictlyDominates q p := by
  have hflow : g.FlowsTo = f.FlowsTo := by rw [FlowsTo, FlowsTo, hsucc, hlen]
  refine ⟨h.ne, ?_, ?_⟩
  · have hreach := h.reaches
    rwa [ReachesBlock, ← hsucc, ← hlen, ← hentry] at hreach
  · have hdom := h.dominates
    rwa [← hflow, ← hentry] at hdom

theorem StrictlyDominates.trims (ht : Trims f g) {q p : ℕ} (h : f.StrictlyDominates q p) :
    g.StrictlyDominates q p :=
  h.congr ht.length ht.entryIndex (funext fun i => (ht.edges i).2.2.1)

/-- The place in `f` of a place in `g`, given those of the statements. -/
def sitePlace (place : ℕ → ℕ) : ℕ → ℕ
  | 0 => 0
  | k + 1 => place k + 1

theorem StrictSsa.of_trims (hf : f.StrictSsa) (ht : Trims f g) (place : ℕ → ℕ ↪o ℕ)
    (hdef : ∀ {q} {k : ℕ} {v e}, (g.block q).body[k]? = some (.assign v e) →
      ∃ e', (f.block q).body[place q k]? = some (.assign v e'))
    (huses : ∀ {p} {k : ℕ} {s v}, (g.block p).body[k]? = some s → v ∈ s.uses →
      f.AvailableAt v p (place p k)) : g.StrictSsa := by
  -- a definition that is left was one before, at its former place
  have hsite : ∀ {v q i}, g.DefinedAt v q i → f.DefinedAt v q (sitePlace (place q) i) := by
    rintro v q i (⟨rfl, hphi⟩ | ⟨k, e, rfl, hk⟩)
    · exact .inl ⟨rfl, ((ht.phis q).map Prod.fst).subset hphi⟩
    · obtain ⟨e', he'⟩ := hdef hk
      exact .inr ⟨place q k, e', rfl, he'⟩
  refine ⟨?_, ?_, ?_, ?_⟩
  · intro v q i q' i' h h'
    obtain ⟨rfl, hplace⟩ := hf.single (hsite h) (hsite h')
    refine ⟨rfl, ?_⟩
    cases i with
    | zero =>
      cases i' with
      | zero => rfl
      | succ k' => cases hplace
    | succ k =>
      cases i' with
      | zero => cases hplace
      | succ k' => exact congrArg (· + 1) ((place q).injective (Nat.succ.inj hplace))
  · exact fun q => (hf.nodup q).sublist ((ht.phis q).map Prod.fst)
  · intro p k s v hs hv q i h
    rcases huses hs hv q _ (hsite h) with ⟨rfl, hle⟩ | hdom
    · refine .inl ⟨rfl, ?_⟩
      cases i with
      | zero => exact Nat.zero_le k
      | succ j => exact (place q).lt_iff_lt.mp hle
    · exact .inr (hdom.trims ht)
  · intro p x as j a q hphi ha hq r i h
    have hpred : g.predOf p = f.predOf p := (ht.edges p).2.2.2
    rcases hf.args ((ht.phis p).subset hphi) ha (hpred ▸ hq) r _ (hsite h) with ⟨rfl, -⟩ | hdom
    · refine .inl ⟨rfl, ?_⟩
      rcases h with ⟨rfl, -⟩ | ⟨k, e, rfl, hk⟩
      · exact Nat.zero_le _
      · exact (List.getElem?_eq_some_iff.mp hk).1
    · exact .inr (hdom.trims ht)

theorem PhisFit.trims (h : f.PhisFit) (ht : Trims f g) : g.PhisFit := by
  refine ⟨?_, fun {p t} hsucc => ?_⟩
  · have hsub := ht.phis g.entryIndex
    rw [ht.entryIndex, h.entry] at hsub
    rw [ht.entryIndex]
    exact List.sublist_nil.mp hsub
  · rw [(ht.edges p).2.2.1] at hsucc
    obtain ⟨j, hj, hlen⟩ := h.edge hsucc
    rw [(ht.edges t).2.2.2]
    exact ⟨j, hj, fun φ hφ => hlen φ ((ht.phis t).subset hφ)⟩

end

structure SsaForm (f : IrFunction) : Prop extends StrictSsa f, PhisFit f where
  alone : f.PhisAlone

end IrFunction

theorem Stmt.exprs_mapExprs (h : Expr → Expr) (s : Stmt) : (s.mapExprs h).exprs = s.exprs.map h := by
  cases s with
  | ret e => cases e <;> rfl
  | _ => rfl

section
variable {f : IrFunction}

/-! ### Propagation -/

section
variable {look : ValueId → Expr} {S : ValueId → Prop}

mutual

theorem uses_substWith : ∀ e : Expr, (∀ v ∈ e.uses, S v ∧ ∀ u ∈ (look v).uses, S u) →
    ∀ u ∈ (substWith look e).uses, S u
  | .use v, h => (h v (List.mem_singleton_self v)).2
  | .phi _, h => fun u hu => (h u hu).1
  | .load a _, h | .unary _ a, h | .cast _ a, h => uses_substWith a h
  | .binary _ a b, h => List.forall_mem_append.mpr
    ⟨uses_substWith a fun v hv => h v (List.mem_append_left _ hv),
      uses_substWith b fun v hv => h v (List.mem_append_right _ hv)⟩
  | .call (.indirect x) args _, h => List.forall_mem_append.mpr
    ⟨uses_substWith x fun v hv => h v (List.mem_append_left _ hv),
      uses_substArgs args fun v hv => h v (List.mem_append_right _ hv)⟩
  | .call (.direct _) args _, h | .call (.named _) args _, h => uses_substArgs args h
  | .select c t e, h => List.forall_mem_append.mpr
    ⟨List.forall_mem_append.mpr
      ⟨uses_substWith c fun v hv => h v (List.mem_append_left _ (List.mem_append_left _ hv)),
        uses_substWith t fun v hv => h v (List.mem_append_left _ (List.mem_append_right _ hv))⟩,
      uses_substWith e fun v hv => h v (List.mem_append_right _ hv)⟩
  | .const .., _ | .read _, _ | .addr _, _ | .undef, _ => nofun

theorem uses_substArgs : ∀ es : List Expr,
    (∀ v ∈ Expr.usesOfArgs es, S v ∧ ∀ u ∈ (look v).uses, S u) →
      ∀ u ∈ Expr.usesOfArgs (substArgs look es), S u
  | [], _ => nofun
  | e :: es, h => List.forall_mem_append.mpr
    ⟨uses_substWith e fun v hv => h v (List.mem_append_left _ hv),
      uses_substArgs es fun v hv => h v (List.mem_append_right _ hv)⟩

end

mutual

theorem phiFree_substWith (hlook : ∀ v, (look v).phiFree = true) : ∀ e : Expr,
    e.phiFree = true → (substWith look e).phiFree = true
  | .use v, _ => hlook v
  | .phi _, h => nomatch h
  | .load a _, h | .unary _ a, h | .cast _ a, h => phiFree_substWith hlook a h
  | .binary _ a b, h => by
    obtain ⟨ha, hb⟩ := Bool.and_eq_true_iff.mp h
    exact Bool.and_eq_true_iff.mpr ⟨phiFree_substWith hlook a ha, phiFree_substWith hlook b hb⟩
  | .call (.indirect x) args _, h => by
    obtain ⟨hx, hargs⟩ := Bool.and_eq_true_iff.mp h
    exact Bool.and_eq_true_iff.mpr ⟨phiFree_substWith hlook x hx, phiFree_substArgs hlook args hargs⟩
  | .call (.direct _) args _, h | .call (.named _) args _, h => phiFree_substArgs hlook args h
  | .select c t e, h => by
    obtain ⟨hct, he⟩ := Bool.and_eq_true_iff.mp h
    obtain ⟨hc, ht⟩ := Bool.and_eq_true_iff.mp hct
    exact Bool.and_eq_true_iff.mpr ⟨Bool.and_eq_true_iff.mpr
      ⟨phiFree_substWith hlook c hc, phiFree_substWith hlook t ht⟩, phiFree_substWith hlook e he⟩
  | .const .., _ | .read _, _ | .addr _, _ | .undef, _ => rfl

theorem phiFree_substArgs (hlook : ∀ v, (look v).phiFree = true) : ∀ es : List Expr,
    Expr.allPhiFree es = true → Expr.allPhiFree (substArgs look es) = true
  | [], _ => rfl
  | e :: es, h => by
    obtain ⟨he, hes⟩ := Bool.and_eq_true_iff.mp h
    exact Bool.and_eq_true_iff.mpr ⟨phiFree_substWith hlook e he, phiFree_substArgs hlook es hes⟩

end

end

theorem uses_resolve (hf : f.StrictSsa) {p k : ℕ} (fuel : ℕ) : ∀ v, f.AvailableAt v p k →
    ∀ u ∈ (resolve f.defOf f.useCount fuel v).uses, f.AvailableAt u p k := by
  induction fuel with
  | zero => exact fun v hv u hu => List.mem_singleton.mp hu ▸ hv
  | succ fuel ih =>
    intro v hv
    have hself : ∀ u ∈ (Expr.use v).uses, f.AvailableAt u p k := fun u hu =>
      List.mem_singleton.mp hu ▸ hv
    have hops : ∀ {d}, f.defOf v = some d → (∀ args, d ≠ .phi args) →
        ∀ u ∈ d.uses, f.AvailableAt u p k := by
      intro d hd hphi u hu
      obtain ⟨q, j, hj⟩ := IrFunction.definedAt_of_defOf hd hphi
      exact hf.operand hj hv hu
    rw [resolve]
    split
    · exact hself
    · exact hself
    · rintro _ ⟨⟩
    · rename_i w hd
      exact ih w (hops hd (by rintro _ ⟨⟩) w (List.mem_singleton_self w))
    · rename_i d hphi _ _ hd
      split_ifs
      · exact uses_substWith d fun u hu => ⟨hops hd hphi u hu, ih u (hops hd hphi u hu)⟩
      · exact hself

theorem phiFree_resolve (h : f.PhisAlone) (fuel : ℕ) : ∀ v,
    (resolve f.defOf f.useCount fuel v).phiFree = true := by
  induction fuel with
  | zero => exact fun v => rfl
  | succ fuel ih =>
    intro v
    rw [resolve]
    split
    · rfl
    · rfl
    · rfl
    · exact ih _
    · rename_i d hphi _ _ hd
      split_ifs
      · refine phiFree_substWith ih d ?_
        obtain ⟨q, j, hj⟩ := IrFunction.definedAt_of_defOf hd hphi
        obtain ⟨hmem, hnone⟩ := List.mem_filter.mp (List.mem_of_getElem? hj)
        exact h _ (IrFunction.mem_stmts_of_block hmem) (Option.isNone_iff_eq_none.mp hnone) d
          (List.mem_singleton_self d)
      · rfl

theorem mem_stmts_map {h : Expr → Expr} {s : Stmt}
    (hs : s ∈ ({ f with blocks := f.blocks.map fun b =>
      { b with stmts := b.stmts.map (Stmt.mapExprs h) } } : IrFunction).stmts) :
    ∃ t ∈ f.stmts, t.mapExprs h = s := by
  obtain ⟨b', hb', hs⟩ := List.mem_flatMap.mp hs
  obtain ⟨b, hb, rfl⟩ := List.mem_map.mp hb'
  obtain ⟨t, ht, rfl⟩ := List.mem_map.mp hs
  exact ⟨t, List.mem_flatMap.mpr ⟨b, hb, ht⟩, rfl⟩

theorem strictSsa_of_map {g : IrFunction} {h : Expr → Expr} (hf : f.StrictSsa) (ht : Trims f g)
    (hbody : ∀ q, (g.block q).body = (f.block q).body.map (Stmt.mapExprs h))
    (huses : ∀ {p} {k : ℕ} {s e}, (f.block p).body[k]? = some s → e ∈ s.exprs →
      ∀ v ∈ (h e).uses, f.AvailableAt v p k) : g.StrictSsa := by
  refine hf.of_trims ht (fun _ => RelEmbedding.refl _) ?_ ?_
  · intro q k v e hk
    rw [hbody, List.getElem?_map] at hk
    obtain ⟨s, hs, heq⟩ := Option.map_eq_some_iff.mp hk
    cases s with
    | assign x e' =>
      obtain ⟨rfl, -⟩ := Stmt.assign.inj heq
      exact ⟨e', hs⟩
    | ret e => cases e <;> cases heq
    | _ => cases heq
  · intro p k s v hk hv
    rw [hbody, List.getElem?_map] at hk
    obtain ⟨t, ht, rfl⟩ := Option.map_eq_some_iff.mp hk
    rw [Stmt.uses, Stmt.exprs_mapExprs] at hv
    obtain ⟨e', he', hve⟩ := List.mem_flatMap.mp hv
    obtain ⟨e, he, rfl⟩ := List.mem_map.mp he'
    exact huses ht he v hve

theorem IrFunction.SsaForm.propagate (hf : f.SsaForm) (fuel : ℕ) : (propagate fuel f).SsaForm := by
  have ht := propagate_trims fuel f
  have hphi := resolve_ne_phi f.defOf f.useCount fuel
  refine ⟨?_, hf.toPhisFit.trims ht, ?_⟩
  · refine strictSsa_of_map (h := substWith (resolve f.defOf f.useCount fuel)) hf.toStrictSsa ht
      (fun q => ?_) fun {p k s e} hs he v hv => ?_
    · rw [block_propagate, Block.body_substWith hphi]
    · refine uses_substWith (S := fun u => f.AvailableAt u p k) e (fun u hu => ?_) v hv
      have havail := hf.uses hs (List.mem_flatMap.mpr ⟨e, he, hu⟩)
      exact ⟨havail, uses_resolve hf.toStrictSsa fuel u havail⟩
  · intro s hs hnone e he
    obtain ⟨t, htmem, rfl⟩ := mem_stmts_map hs
    rw [phi?_mapExprs hphi] at hnone
    rw [Stmt.exprs_mapExprs] at he
    obtain ⟨e', he', rfl⟩ := List.mem_map.mp he
    exact phiFree_substWith (phiFree_resolve hf.alone fuel) e' (hf.alone t htmem hnone e' he')

/-! ### Folding -/

theorem foldFunction_trims (h : f.PhisAlone) : Trims f (foldFunction f) := by
  have hkind : ∀ s ∈ f.stmts, (s.mapExprs Expr.fold).kind = s.kind := by
    intro s hs
    rw [Stmt.kind, Stmt.kind, phi?_fold (h s hs)]
    cases s with
    | ret e => cases e <;> rfl
    | _ => rfl
  refine ⟨rfl, List.length_map _, fun i => ?_, fun i => ?_⟩
  · rw [block_foldFunction]
    exact ⟨rfl, rfl, rfl, rfl⟩
  · have hkinds : ((f.block i).stmts.map (Stmt.mapExprs Expr.fold)).map Stmt.kind
        = (f.block i).stmts.map Stmt.kind := by
      rw [List.map_map]
      exact List.map_congr_left fun s hs => hkind s (IrFunction.mem_stmts_of_block hs)
    rw [block_foldFunction, hkinds]

theorem IrFunction.SsaForm.fold (hf : f.SsaForm) : (foldFunction f).SsaForm := by
  have ht := foldFunction_trims hf.alone
  refine ⟨?_, hf.toPhisFit.trims ht, ?_⟩
  · refine strictSsa_of_map hf.toStrictSsa ht (body_foldFunction hf.alone) ?_
    intro p k s e hs he
    refine (hereditary_uses fun v => f.AvailableAt v p k).fold e fun v hv => ?_
    exact hf.uses hs (List.mem_flatMap.mpr ⟨e, he, hv⟩)
  · intro s hs hnone e he
    obtain ⟨t, htmem, rfl⟩ := mem_stmts_map hs
    rw [phi?_fold (hf.alone t htmem)] at hnone
    rw [Stmt.exprs_mapExprs] at he
    obtain ⟨e', he', rfl⟩ := List.mem_map.mp he
    exact hereditary_phiFree.fold e' (hf.alone t htmem hnone e' he')

/-! ### Dead-code elimination -/

theorem IrFunction.SsaForm.dce (hf : f.SsaForm) : (dce f).SsaForm := by
  have ht := dce_trims f
  have hplace : ∀ q, ∃ φ : ℕ ↪o ℕ, ∀ k : ℕ,
      ((Aret.dce f).block q).body[k]? = (f.block q).body[φ k]? := by
    intro q
    rw [IrFunction.body_dce]
    exact List.sublist_iff_exists_orderEmbedding_getElem?_eq.mp List.filter_sublist
  choose place hplace using hplace
  refine ⟨hf.toStrictSsa.of_trims ht place ?_ ?_, hf.toPhisFit.trims ht, ?_⟩
  · intro q k v e hk
    rw [hplace] at hk
    exact ⟨e, hk⟩
  · intro p k s v hk hv
    rw [hplace] at hk
    exact hf.uses hk hv
  · intro s hs hnone e he
    obtain ⟨b', hb', hs⟩ := List.mem_flatMap.mp hs
    obtain ⟨b, hb, rfl⟩ := List.mem_map.mp hb'
    exact hf.alone s (List.mem_flatMap.mpr ⟨b, hb, (List.mem_filter.mp hs).1⟩) hnone e he

end

/-! ### The loop -/

def optimizeRound? (fuel : ℕ) (f : IrFunction) : Option (IrFunction × Bool) :=
  (propagate? fuel f).map fun p =>
    let q := foldFunction p
    (dce q, p.blocks ≠ f.blocks || (dce q).blocks ≠ q.blocks)

/-- The loop of `optimize`, at most so many rounds. -/
def optimizeLoop? (fuel : ℕ) : ℕ → IrFunction → Option IrFunction
  | 0, f => some f
  | k + 1, f =>
    (optimizeRound? fuel f).bind fun r => if r.2 then optimizeLoop? fuel k r.1 else some r.1

section
variable (W : WordMeaning) (watched : ℕ) (ρ : W.interp.Store) (mem : W.Mem) (fuel : ℕ)

/-- In each round of the loop that is made, what the run evaluates folds well, and no definition
that goes calls an effectful helper. -/
def LoopKept : ℕ → IrFunction → Prop
  | 0, _ => True
  | k + 1, f =>
    (∀ p, propagate? fuel f = some p →
      RunFoldsKept W watched p ρ mem ∧ (foldFunction p).DropsQuietly) ∧
    ∀ r, optimizeRound? fuel f = some r → r.2 = true → LoopKept k r.1

end

/-- Folding leaves every node as it is; there is no call in it, and no selection. -/
def Expr.stays : Expr → Bool
  | .unary _ x | .cast _ x | .load x _ => x.stays
  | .binary op a b => a.stays && b.stays && foldBinary op a b = .binary op a b
  | .call .. | .select .. => false
  | .const .. | .read _ | .use _ | .addr _ | .phi _ | .undef => true

theorem fold_of_stays : ∀ e : Expr, e.stays = true → e.fold = e
  | .unary op x, h => congrArg (Expr.unary op) (fold_of_stays x h)
  | .cast ty x, h => congrArg (Expr.cast ty) (fold_of_stays x h)
  | .load x ty, h => congrArg (Expr.load · ty) (fold_of_stays x h)
  | .binary op a b, h => by
    obtain ⟨hab, hnode⟩ := Bool.and_eq_true_iff.mp h
    obtain ⟨ha, hb⟩ := Bool.and_eq_true_iff.mp hab
    rw [Expr.fold, fold_of_stays a ha, fold_of_stays b hb]
    exact of_decide_eq_true hnode
  | .call .., h | .select .., h => nomatch h
  | .const .., _ | .read _, _ | .use _, _ | .addr _, _ | .phi _, _ | .undef, _ => rfl

theorem quiet_of_stays : ∀ e : Expr, e.stays = true → e.callsEffectful = false
  | .unary _ x, h | .cast _ x, h | .load x _, h => quiet_of_stays x h
  | .binary op a b, h => by
    obtain ⟨hab, -⟩ := Bool.and_eq_true_iff.mp h
    obtain ⟨ha, hb⟩ := Bool.and_eq_true_iff.mp hab
    exact Bool.or_eq_false_iff.mpr ⟨quiet_of_stays a ha, quiet_of_stays b hb⟩
  | .call .., h | .select .., h => nomatch h
  | .const .., _ | .read _, _ | .use _, _ | .addr _, _ | .phi _, _ | .undef, _ => rfl

theorem foldsKept_of_stays {W : WordMeaning} {ρ : W.interp.Store} : ∀ (e : Expr)
    {w : W.interp.World}, e.stays = true → FoldsKept ρ e w
  | .unary _ x, _, h | .cast _ x, _, h | .load x _, _, h => foldsKept_of_stays x h
  | .binary op a b, _, h => by
    obtain ⟨hab, hnode⟩ := Bool.and_eq_true_iff.mp h
    obtain ⟨ha, hb⟩ := Bool.and_eq_true_iff.mp hab
    refine ⟨foldsKept_of_stays a ha, foldsKept_of_stays b hb, .inl ?_⟩
    rw [fold_of_stays a ha, fold_of_stays b hb]
    exact of_decide_eq_true hnode
  | .call .., _, h | .select .., _, h => nomatch h
  | .const .., _, _ | .read _, _, _ | .use _, _, _ | .addr _, _, _ | .phi _, _, _
  | .undef, _, _ => trivial

theorem evalsAll_of_stays {W : WordMeaning} {ρ : W.interp.Store} {w : W.interp.World}
    {ss : List Stmt} (h : ∀ s ∈ ss, ∀ e ∈ s.exprs, e.stays = true) :
    Interp.EvalsAll FoldsKept ss ρ w := by
  induction ss generalizing ρ w with
  | nil => trivial
  | cons s rest ih =>
    obtain ⟨hs, hrest⟩ := List.forall_mem_cons.mp h
    cases s with
    | set l e | assign x e | branch e t u | switch e cases d | callStmt e =>
      exact ⟨foldsKept_of_stays e (hs e (List.mem_singleton_self e)), ih hrest⟩
    | store a v ty =>
      have hv : v ∈ [a, v] := List.mem_cons_of_mem _ (List.mem_singleton_self v)
      exact ⟨foldsKept_of_stays a (hs a List.mem_cons_self), foldsKept_of_stays v (hs v hv),
        ih hrest⟩
    | ret e =>
      cases e with
      | none => trivial
      | some e => exact foldsKept_of_stays e (hs e (List.mem_singleton_self e))
    | asm text =>
      rw [Interp.EvalsAll.eq_def]
      dsimp only
      split
      · trivial
      · exact ih hrest
    | jump | nop => exact ih hrest

theorem loopKept_succ {W : WordMeaning} {watched fuel k : ℕ} {ρ : W.interp.Store} {mem : W.Mem}
    {f p : IrFunction} (hp : propagate? fuel f = some p)
    (h : ∀ s ∈ p.stmts, ∀ e ∈ s.exprs, e.stays = true)
    (hnext :
      (p.blocks ≠ f.blocks || (dce (foldFunction p)).blocks ≠ (foldFunction p).blocks : Bool) →
        LoopKept W watched ρ mem fuel k (dce (foldFunction p))) :
    LoopKept W watched ρ mem fuel (k + 1) f := by
  refine ⟨fun p' hp' => ?_, fun r hr hmore => ?_⟩
  · obtain rfl := Option.some.inj (hp.symm.trans hp')
    refine ⟨fun n q _ => evalsAll_of_stays fun s hs => ?_, fun x e hs _ => ?_⟩
    · exact h s (IrFunction.mem_stmts_of_block (List.mem_filter.mp hs).1)
    · obtain ⟨t, ht, heq⟩ := mem_stmts_map hs
      cases t with
      | assign y e' =>
        obtain ⟨-, rfl⟩ := Stmt.assign.inj heq
        have hstays := h _ ht e' (List.mem_singleton_self e')
        rw [fold_of_stays e' hstays]
        exact quiet_of_stays e' hstays
      | ret e => cases e <;> cases heq
      | _ => cases heq
  · rw [optimizeRound?, hp] at hr
    obtain rfl := Option.some.inj hr
    exact hnext hmore

theorem optimizeLoop_shows (k : ℕ) {f : IrFunction} (hf : f.SsaForm) :
    ∃ rounds g, ∀ fuel, rounds ≤ fuel → optimizeLoop? fuel k f = some g ∧
      ∀ (W : WordMeaning) (watched : ℕ) (ρ : W.interp.Store) (mem : W.Mem),
        W.interp.QuietHelpers → LoopKept W watched ρ mem fuel k f →
          ShowsLike W.interp watched f g ρ ρ mem := by
  induction k generalizing f with
  | zero =>
    refine ⟨0, f, fun fuel _ => ⟨rfl, fun W watched ρ mem _ _ n => ?_⟩⟩
    exact ⟨n, le_rfl, rfl, Iff.rfl⟩
  | succ k ih =>
    obtain ⟨n, hends⟩ := hf.toStrictSsa.propagate?_ends
    set p := propagate n f
    have hform : p.SsaForm := hf.propagate n
    -- What one round shows.
    have hround : ∀ (W : WordMeaning) (watched : ℕ) (ρ : W.interp.Store) (mem : W.Mem),
        W.interp.QuietHelpers → RunFoldsKept W watched p ρ mem → (foldFunction p).DropsQuietly →
          ShowsLike W.interp watched f (dce (foldFunction p)) ρ ρ mem := by
      intro W watched ρ mem hI hfold hdrop
      have hprop : ShowsLike W.interp watched f p ρ ρ mem :=
        (propagate_runsLike hf.toStrictSsa n W.meaning watched ρ mem).map_view Interp.World.shown
      have hfolded := fold_shows hI hform.alone hfold
      have hdead := dce_shows hform.fold.toPhisFit hdrop hI watched ρ mem
      exact (hprop.trans hfolded).trans hdead
    have hmade : ∀ fuel, n ≤ fuel → optimizeRound? fuel f = some (dce (foldFunction p),
        p.blocks ≠ f.blocks || (dce (foldFunction p)).blocks ≠ (foldFunction p).blocks) := by
      intro fuel hfuel
      rw [optimizeRound?, hends fuel hfuel]
      rfl
    cases hmore : (p.blocks ≠ f.blocks || (dce (foldFunction p)).blocks ≠ (foldFunction p).blocks :
        Bool) with
    | false =>
      refine ⟨n, dce (foldFunction p), fun fuel hfuel => ⟨?_, fun W watched ρ mem hI h => ?_⟩⟩
      · rw [optimizeLoop?, hmade fuel hfuel, hmore]
        rfl
      · obtain ⟨hfold, hdrop⟩ := h.1 p (hends fuel hfuel)
        exact hround W watched ρ mem hI hfold hdrop
    | true =>
      obtain ⟨rounds, g, hrest⟩ := ih hform.fold.dce
      refine ⟨max n rounds, g, fun fuel hfuel => ?_⟩
      have hn : n ≤ fuel := by omega
      have hrounds : rounds ≤ fuel := by omega
      obtain ⟨hloop, hshows⟩ := hrest fuel hrounds
      refine ⟨?_, fun W watched ρ mem hI h => ?_⟩
      · rw [optimizeLoop?, hmade fuel hn, hmore]
        exact hloop
      · obtain ⟨hfold, hdrop⟩ := h.1 p (hends fuel hn)
        have hnext := h.2 _ (hmade fuel hn) hmore
        exact (hround W watched ρ mem hI hfold hdrop).trans (hshows W watched ρ mem hI hnext)

theorem optimizeLoop_trims (k : ℕ) {f : IrFunction} (hf : f.SsaForm) :
    ∃ rounds, ∀ fuel, rounds ≤ fuel → ∀ g, optimizeLoop? fuel k f = some g → Trims f g := by
  induction k generalizing f with
  | zero => exact ⟨0, fun fuel _ g hg => Option.some.inj hg ▸ .refl⟩
  | succ k ih =>
    obtain ⟨n, hends⟩ := hf.toStrictSsa.propagate?_ends
    have hform := hf.propagate n
    have hround : Trims f (dce (foldFunction (propagate n f))) :=
      ((propagate_trims n f).trans (foldFunction_trims hform.alone)).trans (dce_trims _)
    obtain ⟨rounds, hrest⟩ := ih hform.fold.dce
    refine ⟨max n rounds, fun fuel hfuel g hg => ?_⟩
    rw [optimizeLoop?, optimizeRound?, hends fuel (by omega), Option.map_some, Option.bind_some] at hg
    dsimp only at hg
    split_ifs at hg
    · exact hround.trans (hrest fuel (by omega) g hg)
    · exact Option.some.inj hg ▸ hround

/-- A definition that goes is used nowhere, and evaluating it shows nothing if it calls no
effectful helper; if none of them calls one, the function shows the same without them, and so does
the function that the loop ends with. -/
theorem dce_removes_dead {f : IrFunction} (hf : f.SsaForm) :
    (∀ x e, Stmt.assign x e ∈ f.stmts → Stmt.assign x e ∉ (dce f).stmts → f.useCount x = 0 ∧
      (e.callsEffectful = false → ∀ (I : Interp) (ρ : I.Store) (w : I.World), I.QuietHelpers →
        (I.eval ρ e w).2.shown = w.shown)) ∧
    (f.DropsQuietly → ∀ (I : Interp) (watched : ℕ) (ρ : I.Store) (mem : I.Mem), I.QuietHelpers →
      ShowsLike I watched f (dce f) ρ ρ mem) ∧
    ∃ rounds g, ∀ fuel, rounds ≤ fuel → optimizeLoop? fuel 8 f = some g ∧
      ∀ (W : WordMeaning) (watched : ℕ) (ρ : W.interp.Store) (mem : W.Mem),
        W.interp.QuietHelpers → LoopKept W watched ρ mem fuel 8 f →
          ShowsLike W.interp watched f g ρ ρ mem := by
  refine ⟨fun x e hs hgone => ?_, fun hdrop I watched ρ mem hI => ?_, optimizeLoop_shows 8 hf⟩
  · have hdead : (Stmt.assign x e).isLive f.useCount = false := by
      by_contra hlive
      obtain ⟨b, hb, hsb⟩ := List.mem_flatMap.mp hs
      refine hgone (List.mem_flatMap.mpr ⟨_, List.mem_map.mpr ⟨b, hb, rfl⟩, ?_⟩)
      exact List.mem_filter.mpr ⟨hsb, Bool.not_eq_false _ ▸ hlive⟩
    obtain ⟨hcount, hpure⟩ := Bool.or_eq_false_iff.mp hdead
    refine ⟨Nat.eq_zero_of_not_pos (of_decide_eq_false hcount), fun hquiet I ρ w hI => ?_⟩
    exact Interp.eval_quiet ρ hI e ((e.quiet_iff hpure).mpr hquiet) w
  · exact dce_shows hf.toPhisFit hdrop hI watched ρ mem

theorem storeNext_ssaForm : storeNext.SsaForm where
  toStrictSsa := storeNext_strictSsa
  entry := rfl
  edge {p t} ht := by
    rcases p with _ | _ | p
    · obtain rfl := List.mem_singleton.mp ht
      exact ⟨0, rfl, nofun⟩
    · cases ht
    · cases ht
  alone := show ∀ s ∈ storeNext.stmts, s.phi? = none → ∀ e ∈ s.exprs, e.phiFree = true by decide

def resultChannel : WordMeaning where
  Mem := Bool
  addr _ := 0
  undef := 0
  load _ _ _ := 0
  store waits _ _ _ := waits
  unary _ x := x
  cast _ x := x
  call t _ _ waits := (0, match t with
    | .named n =>
      if n = "__x87_retload" then false else if n = "__x87_retstore" then true else waits
    | _ => waits)
  asm _ waits := some waits
  isCase _ _ := false

theorem resultChannel_quiet : resultChannel.interp.QuietHelpers := by
  intro n args ret waits hn
  have hnot : effectfulHelpers.contains n = false := by
    simpa using (Bool.and_eq_true_iff.mp hn).2
  have hload : n ≠ "__x87_retload" := by
    rintro rfl
    cases hnot
  have hstore : n ≠ "__x87_retstore" := by
    rintro rfl
    cases hnot
  change Bool at waits
  show (if n = "__x87_retload" then false else if n = "__x87_retstore" then true else waits) = waits
  rw [if_neg hload, if_neg hstore]

/-- The two definitions that propagation leaves without a use go. -/
theorem dce_removes_dead_storeNext :
    Stmt.assign 2 (.binary .add (.use 0) (.konst 1 32)) ∈ (propagate 4 storeNext).stmts ∧
    Stmt.assign 2 (.binary .add (.use 0) (.konst 1 32)) ∉ (dce (propagate 4 storeNext)).stmts ∧
    (∀ (watched : ℕ) (ρ : resultChannel.interp.Store) (mem : Bool),
      ShowsLike resultChannel.interp watched (propagate 4 storeNext) (dce (propagate 4 storeNext))
        ρ ρ mem) ∧
    ∃ fuel g, optimizeLoop? fuel 8 (propagate 4 storeNext) = some g ∧
      ∀ (watched : ℕ) (ρ : resultChannel.interp.Store) (mem : Bool),
        ShowsLike resultChannel.interp watched (propagate 4 storeNext) g ρ ρ mem := by
  obtain ⟨-, hdce, rounds, g, hloop⟩ := dce_removes_dead (storeNext_ssaForm.propagate 4)
  have hquiet : ∀ s ∈ (propagate 4 storeNext).stmts, ∀ e ∈ s.exprs, e.stays = true := by decide
  have hrest : ∀ s ∈ (dce (foldFunction (propagate 4 storeNext))).stmts, ∀ e ∈ s.exprs,
      e.stays = true := by decide
  refine ⟨by decide, by decide, fun watched ρ mem => ?_, rounds + 8, g, ?_⟩
  · refine hdce (fun x e hs _ => ?_) _ watched ρ mem resultChannel_quiet
    exact quiet_of_stays e (hquiet _ hs e (List.mem_singleton_self e))
  · obtain ⟨hends, hshows⟩ := hloop (rounds + 8) (Nat.le_add_right _ _)
    refine ⟨hends, fun watched ρ mem => hshows _ watched ρ mem resultChannel_quiet ?_⟩
    -- two definitions go in the first round, and the second one changes nothing
    refine loopKept_succ rfl hquiet fun _ => loopKept_succ rfl hrest fun hmore => ?_
    exact absurd hmore (by decide)

def unusedResult : IrFunction where
  entry := 0
  name := "unused_result"
  bits := 32
  regParams := []
  frameBaseValues := []
  fp80Values := []
  entryValues := []
  blocks := [⟨0, 0, [.assign 0 (.call (.named "__x87_retload") [] .unknown), .ret none], [], []⟩]
  nextValue := 1
  nextTemp := 0

/-- The result stays in the channel when its dead read goes. -/
theorem dce_removes_dead_not : unusedResult.SsaForm ∧
    ¬∀ (watched : ℕ) (ρ : resultChannel.interp.Store) (mem : Bool),
      ShowsLike resultChannel.interp watched unusedResult (dce unusedResult) ρ ρ mem := by
  refine ⟨?_, fun h => ?_⟩
  · have hblock : ∀ q, unusedResult.block (q + 1) = default := fun q => rfl
    have hsite : ∀ {v q i}, unusedResult.DefinedAt v q i → q = 0 ∧ i = 1 := by
      rintro v q i (⟨-, hphi⟩ | ⟨k, e, rfl, hk⟩)
      · rcases q with _ | q
        · cases hphi
        · rw [hblock] at hphi
          cases hphi
      · rcases q with _ | q
        · rcases k with _ | _ | k
          · exact ⟨rfl, rfl⟩
          · cases hk
          · cases hk
        · cases hk
    have halone : ∀ s ∈ unusedResult.stmts, s.phi? = none → ∀ e ∈ s.exprs, e.phiFree = true := by
      decide
    refine ⟨⟨?_, ?_, ?_, ?_⟩, ⟨rfl, ?_⟩, halone⟩
    · intro v q i q' i' hv hv'
      have hplace := hsite hv
      have hplace' := hsite hv'
      omega
    · intro q
      rcases q with _ | q
      · exact .nil
      · exact .nil
    · intro p k s v hs hv
      rcases p with _ | p
      · rcases k with _ | _ | k
        · obtain rfl := Option.some.inj hs
          cases hv
        · obtain rfl := Option.some.inj hs
          cases hv
        · cases hs
      · cases hs
    · intro p x as j a q hphi
      rcases p with _ | p
      · cases hphi
      · cases hphi
    · intro p t ht
      rcases p with _ | p
      · cases ht
      · cases ht
  · let ρ : resultChannel.interp.Store := ⟨fun _ => 0, fun _ => 0⟩
    obtain ⟨m, -, hview, -⟩ := h 0 ρ true 1
    have hfinal : ∀ m, (Sim.runN (resultChannel.interp.step 0 (dce unusedResult)) m
        (Interp.start 0 (dce unusedResult) ρ true)).w.mem = true := by
      intro m
      rcases m with _ | m
      · rfl
      · rw [Sim.runN_of_step (Interp.step_of_pc (p := 0) rfl), Sim.runN_of_end rfl]
        rfl
    have hmem := Interp.World.mem_of_shown hview
    rw [hfinal m] at hmem
    cases hmem

end Aret
