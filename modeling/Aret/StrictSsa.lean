/-
Functions in strict SSA form.

Each value is defined once, a use comes after the definition on every path to it,
and a phi's arguments are there when control leaves its predecessors.

Design notes: place 0 of a block is that of its phis, and place `k + 1` comes after
statement `k` of its body.  No path leads to an unreachable block, so there only the
definitions of the block itself count as coming before a use.
-/
import Aret.Opt
import Aret.DomExact

namespace Aret

open ParentMap

namespace IrFunction

variable (f : IrFunction)

/-- `v` is defined at a place: by a phi, or by a statement. -/
def DefinedAt (v : ValueId) (q i : ℕ) : Prop :=
  (i = 0 ∧ v ∈ (f.block q).phis.map Prod.fst) ∨
    ∃ k e, i = k + 1 ∧ (f.block q).body[k]? = some (.assign v e)

abbrev FlowsTo : ℕ → ℕ → Prop := Edge f.blocks.length f.succOf

abbrev ReachesBlock (p : ℕ) : Prop := Reachable f.blocks.length f.succOf f.entryIndex p

/-- The end of block `q` comes before block `p` on every path there. -/
structure StrictlyDominates (q p : ℕ) : Prop where
  ne : q ≠ p
  reaches : f.ReachesBlock p
  dominates : Dominates f.FlowsTo f.entryIndex q p

/-- Place `i` of block `q` comes before place `k` of block `p`. -/
def Before (q i p k : ℕ) : Prop := (q = p ∧ i ≤ k) ∨ f.StrictlyDominates q p

/-- `v` may be used at a place: its definition comes before, or it has a value from the start. -/
def AvailableAt (v : ValueId) (p k : ℕ) : Prop := ∀ q i, f.DefinedAt v q i → f.Before q i p k

structure StrictSsa : Prop where
  single : ∀ {v q i q' i'}, f.DefinedAt v q i → f.DefinedAt v q' i' → q = q' ∧ i = i'
  nodup : ∀ q, ((f.block q).phis.map Prod.fst).Nodup
  uses : ∀ {p} {k : ℕ} {s v}, (f.block p).body[k]? = some s → v ∈ s.uses → f.AvailableAt v p k
  args : ∀ {p x as} {j : ℕ} {a q}, (x, as) ∈ (f.block p).phis → as[j]? = some a →
    (f.predOf p)[j]? = some q → f.AvailableAt a q (f.block q).body.length

variable {f}

theorem StrictlyDominates.asymm {q p : ℕ} (h : f.StrictlyDominates q p)
    (h' : f.StrictlyDominates p q) : False := by
  obtain ⟨l, hl⟩ := h'.reaches
  exact h.ne (h.dominates.antisymm h'.dominates hl)

theorem StrictlyDominates.trans {q r p : ℕ} (h : f.StrictlyDominates q r)
    (h' : f.StrictlyDominates r p) : f.StrictlyDominates q p := by
  refine ⟨?_, h'.reaches, h.dominates.trans h'.dominates⟩
  rintro rfl
  exact h.asymm h'

theorem Before.trans {q i r j p k : ℕ} (h : f.Before q i r j) (h' : f.Before r j p k) :
    f.Before q i p k := by
  rcases h with ⟨rfl, hij⟩ | h
  · rcases h' with ⟨rfl, hjk⟩ | h'
    · exact .inl ⟨rfl, hij.trans hjk⟩
    · exact .inr h'
  · rcases h' with ⟨rfl, -⟩ | h'
    · exact .inr h
    · exact .inr (h.trans h')

theorem Before.antisymm {q i p k : ℕ} (h : f.Before q i p k) (h' : f.Before p k q i) :
    q = p ∧ i = k := by
  rcases h with ⟨rfl, hik⟩ | h
  · rcases h' with ⟨-, hki⟩ | h'
    · exact ⟨rfl, le_antisymm hik hki⟩
    · exact absurd rfl h'.ne
  · rcases h' with ⟨rfl, -⟩ | h'
    · exact absurd rfl h.ne
    · exact (h.asymm h').elim

theorem Before.leave {q i p t : ℕ} (h : f.Before q i t 0) (hi : 0 < i)
    (hlen : i ≤ (f.block q).body.length) (hp : f.ReachesBlock p) (hpt : f.FlowsTo p t) :
    f.Before q i p (f.block p).body.length := by
  rcases h with ⟨-, h0⟩ | h
  · omega
  · by_cases hqp : q = p
    · subst hqp
      exact .inl ⟨rfl, hlen⟩
    · exact .inr ⟨hqp, hp, h.dominates.before h.ne hpt⟩

theorem definedAt_of_defOf {v : ValueId} {d : Expr} (h : f.defOf v = some d)
    (hphi : ∀ args, d ≠ .phi args) :
    ∃ (q k : ℕ), (f.block q).body[k]? = some (.assign v d) := by
  have hmem : (v, d) ∈ f.stmts.filterMap Stmt.assigned? := by
    rw [defOf] at h
    obtain ⟨l₁, l₂, hsplit, -⟩ := List.lookup_eq_some_iff.mp h
    rw [← List.mem_reverse, hsplit]
    exact List.mem_append_right _ List.mem_cons_self
  obtain ⟨s, hs, heq⟩ := List.mem_filterMap.mp hmem
  obtain rfl : s = .assign v d := by
    cases s with
    | assign x e =>
      obtain ⟨rfl, rfl⟩ := Prod.mk.inj (Option.some.inj heq)
      rfl
    | _ => cases heq
  obtain ⟨b, hb, hsb⟩ := List.mem_flatMap.mp hs
  obtain ⟨q, hq⟩ := List.mem_iff_getElem?.mp hb
  have hblock : f.block q = b := by rw [block, List.getD_eq_getElem?_getD, hq, Option.getD_some]
  have hbody : Stmt.assign v d ∈ (f.block q).body := by
    rw [hblock]
    refine List.mem_filter.mpr ⟨hsb, ?_⟩
    cases d with
    | phi args => exact absurd rfl (hphi args)
    | _ => rfl
  obtain ⟨k, hk⟩ := List.mem_iff_getElem?.mp hbody
  exact ⟨q, k, hk⟩

namespace StrictSsa

variable (h : f.StrictSsa)
include h

theorem operand {v u : ValueId} {d : Expr} {q k p j : ℕ}
    (hdef : (f.block q).body[k]? = some (.assign v d)) (hv : f.AvailableAt v p j)
    (hu : u ∈ d.uses) : f.AvailableAt u p j := by
  intro r i hr
  have hvq : f.Before q (k + 1) p j := hv q (k + 1) (.inr ⟨k, d, rfl, hdef⟩)
  have huq : f.Before r i q k := h.uses hdef (by simpa [Stmt.uses, Stmt.exprs] using hu) r i hr
  have hstep : f.Before q k q (k + 1) := .inl ⟨rfl, Nat.le_succ k⟩
  exact (huq.trans hstep).trans hvq

theorem defines_after {v u : ValueId} {d : Expr} {q k p j r i : ℕ}
    (hdef : (f.block q).body[k]? = some (.assign v d)) (hv : f.Before q (k + 1) p j)
    (hu : f.DefinedAt u r i) (hafter : f.Before p j r i) : u ∉ d.uses := by
  intro hmem
  have huq : f.Before r i q k := h.uses hdef (by simpa [Stmt.uses, Stmt.exprs] using hmem) r i hu
  have hback : f.Before q (k + 1) q k := (hv.trans hafter).trans huq
  have heq := hback.antisymm (.inl ⟨rfl, Nat.le_succ k⟩)
  omega

theorem induct_block {P : ValueId → Prop} {q : ℕ}
    (hstep : ∀ v, (∀ d (r k : ℕ), (f.block r).body[k]? = some (.assign v d) → ∀ u ∈ d.uses, P u) →
      P v)
    (hbefore : ∀ (r k : ℕ) v d, f.StrictlyDominates r q →
      (f.block r).body[k]? = some (.assign v d) → P v)
    (k : ℕ) : ∀ v d, (f.block q).body[k]? = some (.assign v d) → P v := by
  induction k using Nat.strong_induction_on with
  | _ k ih =>
    intro v d hdef
    refine hstep v fun d' r k' hdef' u hu => ?_
    obtain ⟨rfl, hk⟩ := h.single (.inr ⟨k, d, rfl, hdef⟩) (.inr ⟨k', d', rfl, hdef'⟩)
    obtain rfl : k = k' := by omega
    have havail := h.uses hdef' (by simpa [Stmt.uses, Stmt.exprs] using hu)
    by_cases hsite : ∃ (r j : ℕ) (e : Expr), (f.block r).body[j]? = some (.assign u e)
    · obtain ⟨r, j, e, hj⟩ := hsite
      rcases havail r (j + 1) (.inr ⟨j, e, rfl, hj⟩) with ⟨rfl, hle⟩ | hdom
      · exact ih j (by omega) u e hj
      · exact hbefore r j u e hdom hj
    · exact hstep u fun e r j hj => absurd ⟨r, j, e, hj⟩ hsite

theorem induct {P : ValueId → Prop}
    (hstep : ∀ v, (∀ d (r k : ℕ), (f.block r).body[k]? = some (.assign v d) → ∀ u ∈ d.uses, P u) →
      P v) (v : ValueId) : P v := by
  -- Blocks that a path reaches, by the length of a path.
  have hreach : ∀ n q l, ParentMap.Path f.FlowsTo f.entryIndex l q → l.length = n →
      ∀ (k : ℕ) v d, (f.block q).body[k]? = some (.assign v d) → P v := by
    intro n
    induction n using Nat.strong_induction_on with
    | _ n ih =>
      intro q l hl hn k
      refine h.induct_block hstep (fun r k v d hdom hdef => ?_) k
      obtain ⟨l', hl', -, hlt⟩ := hl.upTo (hdom.dominates l hl)
      have hshort := hlt hdom.ne
      exact ih l'.length (by omega) r l' hl' rfl k v d hdef
  refine hstep v fun d q k hdef u hu => ?_
  have hblock : ∀ (q k : ℕ) v d, (f.block q).body[k]? = some (.assign v d) → P v := by
    intro q k
    by_cases hq : f.ReachesBlock q
    · obtain ⟨l, hl⟩ := hq
      exact hreach _ q l hl rfl k
    · exact h.induct_block hstep (fun r k v d hdom _ => absurd hdom.reaches hq) k
  by_cases hsite : ∃ (r j : ℕ) (e : Expr), (f.block r).body[j]? = some (.assign u e)
  · obtain ⟨r, j, e, hj⟩ := hsite
    exact hblock r j u e hj
  · exact hstep u fun e r j hj => absurd ⟨r, j, e, hj⟩ hsite

end StrictSsa

end IrFunction

end Aret
