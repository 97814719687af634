/-
What renaming does to a block.

Every value is made for one location, its label.  Under entry versions `u` and
stacks `S` a location has the version `inForce u S`; rewriting replaces each read
by the version in force, and each definition puts a fresh value, labelled with
its location, in force.
-/
import Aret.SsaPlace
import Mathlib

namespace Aret

/-! ### Versions in force -/

/-- The version of a location under final entry versions `u` and stacks `S`. -/
def inForce (u : Location → Option ValueId) (S : Location → List ValueId) (l : Location) :
    Option ValueId :=
  (S l).head?.or (u l)

namespace Versions

variable {lab lab' lab'' : ValueId → Location} {vs vs' vs'' : Versions} {l : Location}

/-- `u` has every entry version made so far. -/
def EntryIn (vs : Versions) (u : Location → Option ValueId) : Prop :=
  ∀ l x, vs.undef.lookup l = some x → u l = some x

/-- Every value in the maps has been made, for the location it stands for. -/
structure Ok (lab : ValueId → Location) (vs : Versions) : Prop where
  stack : ∀ l, ∀ x ∈ vs.stack l, x < vs.counter ∧ lab x = l
  undef : ∀ l x, vs.undef.lookup l = some x → x < vs.counter ∧ lab x = l

/-- The labels of values made stay, and so do entry versions. -/
structure Grows (lab : ValueId → Location) (vs : Versions) (lab' : ValueId → Location)
    (vs' : Versions) : Prop where
  counter : vs.counter ≤ vs'.counter
  lab : ∀ x < vs.counter, lab' x = lab x
  undef : ∀ l x, vs.undef.lookup l = some x → vs'.undef.lookup l = some x

theorem Grows.refl : Grows lab vs lab vs := ⟨le_rfl, fun _ _ => rfl, fun _ _ h => h⟩

theorem Grows.trans (h : Grows lab vs lab' vs') (h' : Grows lab' vs' lab'' vs'') :
    Grows lab vs lab'' vs'' where
  counter := h.counter.trans h'.counter
  lab := fun x hx => (h'.lab x (by have := h.counter; omega)).trans (h.lab x hx)
  undef := fun l x hx => h'.undef l x (h.undef l x hx)

theorem Grows.entryIn (h : Grows lab vs lab' vs') {u : Location → Option ValueId}
    (hu : vs'.EntryIn u) : vs.EntryIn u :=
  fun l x hx => hu l x (h.undef l x hx)

theorem lookup_append_single (xs : List (Location × ValueId)) (l : Location) (x : ValueId)
    (k : Location) :
    (xs ++ [(l, x)]).lookup k = (xs.lookup k).or (if k = l then some x else none) := by
  rw [List.lookup_append]
  congr 1
  by_cases hk : k = l
  · simp [hk]
  · have hkl : (k == l) = false := by simpa using hk
    simp [List.lookup, hk, hkl]

theorem top_spec (h : vs.Ok lab) (l : Location) :
    ∃ lab', Grows lab vs lab' (vs.top l).2 ∧ (vs.top l).2.Ok lab' ∧
      (vs.top l).2.stack = vs.stack ∧
      ∀ u, (vs.top l).2.EntryIn u → inForce u vs.stack l = some (vs.top l).1 := by
  rw [top]
  cases hs : vs.stack l with
  | cons x xs => exact ⟨lab, .refl, h, rfl, fun u _ => by simp [inForce, hs]⟩
  | nil =>
    dsimp only
    cases hx : vs.undef.lookup l with
    | some x => exact ⟨lab, .refl, h, rfl, fun u hu => by simp [inForce, hs, hu l x hx]⟩
    | none =>
      have hlookup := lookup_append_single vs.undef l vs.counter
      refine ⟨Function.update lab vs.counter l, ⟨Nat.le_succ _, ?_, ?_⟩, ⟨?_, ?_⟩, rfl, ?_⟩
      · intro x hx
        rw [Function.update_of_ne hx.ne]
      · intro k x hk
        rw [hlookup, hk]
        rfl
      · intro k x hk
        obtain ⟨hlt, hlab⟩ := h.stack k x hk
        refine ⟨Nat.lt_succ_of_lt hlt, ?_⟩
        rw [Function.update_of_ne hlt.ne, hlab]
      · intro k x hk
        rw [hlookup] at hk
        rcases Option.or_eq_some_iff.mp hk with hk | ⟨-, hk⟩
        · obtain ⟨hlt, hlab⟩ := h.undef k x hk
          refine ⟨Nat.lt_succ_of_lt hlt, ?_⟩
          rw [Function.update_of_ne hlt.ne, hlab]
        · split_ifs at hk with hkl
          obtain rfl := Option.some.inj hk
          refine ⟨Nat.lt_succ_self _, ?_⟩
          rw [Function.update_self, hkl]
      · intro u hu
        have hul : u l = some vs.counter := hu l _ (by rw [hlookup, hx]; simp)
        simp [inForce, hs, hul]

theorem define_spec (h : vs.Ok lab) (l : Location) :
    ∃ lab', Grows lab vs lab' (vs.define l).2 ∧ (vs.define l).2.Ok lab' ∧
      (vs.define l).1 < (vs.define l).2.counter ∧ lab' (vs.define l).1 = l := by
  have hstack : ∀ k x, x ∈ (vs.define l).2.stack k → x ∈ vs.stack k ∨ k = l ∧ x = vs.counter := by
    intro k x hx
    simp only [define] at hx
    by_cases hk : k = l
    · subst hk
      rw [Function.update_self] at hx
      rcases List.mem_cons.mp hx with rfl | hx
      · exact .inr ⟨rfl, rfl⟩
      · exact .inl hx
    · rw [Function.update_of_ne hk] at hx
      exact .inl hx
  refine ⟨Function.update lab vs.counter l, ⟨Nat.le_succ _, ?_, fun _ _ hk => hk⟩, ⟨?_, ?_⟩,
    Nat.lt_succ_self _, Function.update_self ..⟩
  · intro x hx
    rw [Function.update_of_ne hx.ne]
  · intro k x hx
    rcases hstack k x hx with hx | ⟨rfl, rfl⟩
    · obtain ⟨hlt, hlab⟩ := h.stack k x hx
      refine ⟨Nat.lt_succ_of_lt hlt, ?_⟩
      rw [Function.update_of_ne hlt.ne, hlab]
    · exact ⟨Nat.lt_succ_self _, Function.update_self ..⟩
  · intro k x hx
    obtain ⟨hlt, hlab⟩ := h.undef k x hx
    refine ⟨Nat.lt_succ_of_lt hlt, ?_⟩
    rw [Function.update_of_ne hlt.ne, hlab]

theorem stack_pop (vs : Versions) (vars : List Location) (l : Location) :
    (vs.pop vars).stack l = (vs.stack l).drop (vars.count l) := by
  induction vars generalizing vs with
  | nil => rfl
  | cons k vars ih =>
    have hpop : vs.pop (k :: vars)
        = ({ vs with stack := Function.update vs.stack k (vs.stack k).tail } : Versions).pop vars :=
      rfl
    rw [hpop, ih, List.count_cons]
    by_cases hk : k = l
    · subst hk
      simp [← List.drop_one, Nat.add_comm]
    · have hlk : l ≠ k := fun h => hk h.symm
      simp [Function.update_of_ne hlk, hk]

theorem pop_eq (vs : Versions) (vars : List Location) :
    (vs.pop vars).counter = vs.counter ∧ (vs.pop vars).undef = vs.undef := by
  induction vars generalizing vs with
  | nil => exact ⟨rfl, rfl⟩
  | cons k vars ih =>
    exact ih ({ vs with stack := Function.update vs.stack k (vs.stack k).tail } : Versions)

theorem Ok.pop (h : vs.Ok lab) (vars : List Location) : (vs.pop vars).Ok lab := by
  obtain ⟨hcounter, hundef⟩ := vs.pop_eq vars
  refine ⟨fun l x hx => ?_, fun l x hx => ?_⟩
  · rw [stack_pop] at hx
    rw [hcounter]
    exact h.stack l x (List.mem_of_mem_drop hx)
  · rw [hundef] at hx
    rw [hcounter]
    exact h.undef l x hx

end Versions

/-! ### Rewriting reads -/

/-- A part of the renamer that defines nothing: the maps grow, the stacks stay,
and `P` holds of the versions in force, whatever entry versions come later. -/
def Rewrites (lab : ValueId → Location) (vs vs' : Versions)
    (P : (Location → Option ValueId) → Prop) : Prop :=
  ∃ lab', vs.Grows lab lab' vs' ∧ vs'.Ok lab' ∧ vs'.stack = vs.stack ∧
    ∀ u, vs'.EntryIn u → P (inForce u vs.stack)

namespace Rewrites

variable {lab : ValueId → Location} {vs vs₁ vs₂ : Versions}
  {P Q : (Location → Option ValueId) → Prop}

theorem refl (h : vs.Ok lab) (hP : ∀ σ, P σ) : Rewrites lab vs vs P :=
  ⟨lab, .refl, h, rfl, fun _ _ => hP _⟩

theorem imp (h : Rewrites lab vs vs₁ P) (hPQ : ∀ σ, P σ → Q σ) : Rewrites lab vs vs₁ Q := by
  obtain ⟨lab', hgrow, hok, hstack, hP⟩ := h
  exact ⟨lab', hgrow, hok, hstack, fun u hu => hPQ _ (hP u hu)⟩

theorem and (h : Rewrites lab vs vs₁ P) (h' : ∀ lab', vs₁.Ok lab' → Rewrites lab' vs₁ vs₂ Q) :
    Rewrites lab vs vs₂ fun σ => P σ ∧ Q σ := by
  obtain ⟨lab₁, hgrow₁, hok₁, hstack₁, hP⟩ := h
  obtain ⟨lab₂, hgrow₂, hok₂, hstack₂, hQ⟩ := h' lab₁ hok₁
  refine ⟨lab₂, hgrow₁.trans hgrow₂, hok₂, hstack₂.trans hstack₁, fun u hu => ⟨?_, ?_⟩⟩
  · exact hP u (hgrow₂.entryIn hu)
  · rw [← hstack₁]
    exact hQ u hu

end Rewrites

mutual

/-- `e'` is `e` with every versioned location replaced by its version under `σ`. -/
def Expr.Renamed (σ : Location → Option ValueId) : Expr → Expr → Prop
  | .read l, e' =>
    if l.isVersioned then ∃ x, σ l = some x ∧ e' = .use x else e' = .read l
  | .load a ty, e' => ∃ a', Renamed σ a a' ∧ e' = .load a' ty
  | .unary op x, e' => ∃ x', Renamed σ x x' ∧ e' = .unary op x'
  | .binary op a b, e' => ∃ a' b', Renamed σ a a' ∧ Renamed σ b b' ∧ e' = .binary op a' b'
  | .cast ty x, e' => ∃ x', Renamed σ x x' ∧ e' = .cast ty x'
  | .select c t e, e' =>
    ∃ c' t' f', Renamed σ c c' ∧ Renamed σ t t' ∧ Renamed σ e f' ∧ e' = .select c' t' f'
  | .call (.indirect x) args ret, e' =>
    ∃ x' args', Renamed σ x x' ∧ RenamedArgs σ args args' ∧ e' = .call (.indirect x') args' ret
  | .call (.direct a) args ret, e' =>
    ∃ args', RenamedArgs σ args args' ∧ e' = .call (.direct a) args' ret
  | .call (.named n) args ret, e' =>
    ∃ args', RenamedArgs σ args args' ∧ e' = .call (.named n) args' ret
  | .const v ty, e' => e' = .const v ty
  | .use x, e' => e' = .use x
  | .addr l, e' => e' = .addr l
  | .phi args, e' => e' = .phi args
  | .undef, e' => e' = .undef

def Expr.RenamedArgs (σ : Location → Option ValueId) : List Expr → List Expr → Prop
  | [], es' => es' = []
  | e :: es, es' => ∃ e' es'', Renamed σ e e' ∧ RenamedArgs σ es es'' ∧ es' = e' :: es''

end

mutual

theorem rewriteReads_spec : ∀ (e : Expr) (vs : Versions) (lab : ValueId → Location), vs.Ok lab →
    Rewrites lab vs (rewriteReads e vs).2 fun σ => e.Renamed σ (rewriteReads e vs).1
  | .read l, vs, lab, h => by
    rw [rewriteReads]
    split_ifs with hl
    · obtain ⟨lab', hgrow, hok, hstack, hforce⟩ := Versions.top_spec h l
      refine ⟨lab', hgrow, hok, hstack, fun u hu => ?_⟩
      show Expr.Renamed (inForce u vs.stack) (.read l) (.use (vs.top l).1)
      simp only [Expr.Renamed, hl, if_true]
      exact ⟨_, hforce u hu, rfl⟩
    · refine .refl h fun σ => ?_
      show Expr.Renamed σ (.read l) (.read l)
      simp only [Expr.Renamed, hl, Bool.false_eq_true, if_false]
  | .load a ty, vs, lab, h =>
    (rewriteReads_spec a vs lab h).imp fun σ ha => ⟨_, ha, rfl⟩
  | .unary op x, vs, lab, h =>
    (rewriteReads_spec x vs lab h).imp fun σ hx => ⟨_, hx, rfl⟩
  | .binary op a b, vs, lab, h =>
    ((rewriteReads_spec a vs lab h).and (rewriteReads_spec b _)).imp
      fun σ hab => ⟨_, _, hab.1, hab.2, rfl⟩
  | .cast ty x, vs, lab, h =>
    (rewriteReads_spec x vs lab h).imp fun σ hx => ⟨_, hx, rfl⟩
  | .select c t e, vs, lab, h =>
    (((rewriteReads_spec c vs lab h).and (rewriteReads_spec t _)).and (rewriteReads_spec e _)).imp
      fun σ hcte => ⟨_, _, _, hcte.1.1, hcte.1.2, hcte.2, rfl⟩
  | .call (.indirect x) args ret, vs, lab, h =>
    ((rewriteReads_spec x vs lab h).and (rewriteArgs_spec args _)).imp
      fun σ hxa => ⟨_, _, hxa.1, hxa.2, rfl⟩
  | .call (.direct a) args ret, vs, lab, h =>
    (rewriteArgs_spec args vs lab h).imp fun σ ha => ⟨_, ha, rfl⟩
  | .call (.named n) args ret, vs, lab, h =>
    (rewriteArgs_spec args vs lab h).imp fun σ ha => ⟨_, ha, rfl⟩
  | .const v ty, vs, lab, h => .refl h fun σ => rfl
  | .use x, vs, lab, h => .refl h fun σ => rfl
  | .addr l, vs, lab, h => .refl h fun σ => rfl
  | .phi args, vs, lab, h => .refl h fun σ => rfl
  | .undef, vs, lab, h => .refl h fun σ => rfl

theorem rewriteArgs_spec : ∀ (es : List Expr) (vs : Versions) (lab : ValueId → Location),
    vs.Ok lab →
    Rewrites lab vs (rewriteArgs es vs).2 fun σ => Expr.RenamedArgs σ es (rewriteArgs es vs).1
  | [], _, _, h => .refl h fun _ => rfl
  | e :: es, vs, lab, h =>
    ((rewriteReads_spec e vs lab h).and (rewriteArgs_spec es _)).imp
      fun _ hes => ⟨_, _, hes.1, hes.2, rfl⟩

end

/-! ### Rewriting statements -/

/-- `s'` is `s` with its reads renamed; `s` defines no versioned location. -/
def Stmt.Renamed (σ : Location → Option ValueId) : Stmt → Stmt → Prop
  | .store a v ty, s' => ∃ a' v', a.Renamed σ a' ∧ v.Renamed σ v' ∧ s' = .store a' v' ty
  | .branch c t f, s' => ∃ c', c.Renamed σ c' ∧ s' = .branch c' t f
  | .switch v cases d, s' => ∃ v', v.Renamed σ v' ∧ s' = .switch v' cases d
  | .ret (some e), s' => ∃ e', e.Renamed σ e' ∧ s' = .ret (some e')
  | .callStmt e, s' => ∃ e', e.Renamed σ e' ∧ s' = .callStmt e'
  | .set l e, s' => l.isVersioned = false ∧ ∃ e', e.Renamed σ e' ∧ s' = .set l e'
  | s, s' => s' = s

theorem rewriteStmt_spec {s : Stmt} (hs : ∀ l e, s = .set l e → l.isVersioned = false)
    {vs : Versions} {lab : ValueId → Location} (h : vs.Ok lab) :
    Rewrites lab vs (rewriteStmt s vs).2 fun σ => s.Renamed σ (rewriteStmt s vs).1 := by
  cases s with
  | store a v ty =>
    exact ((rewriteReads_spec a vs lab h).and (rewriteReads_spec v _)).imp
      fun σ hav => ⟨_, _, hav.1, hav.2, rfl⟩
  | branch c t f => exact (rewriteReads_spec c vs lab h).imp fun σ hc => ⟨_, hc, rfl⟩
  | switch v cases d => exact (rewriteReads_spec v vs lab h).imp fun σ hv => ⟨_, hv, rfl⟩
  | ret e =>
    cases e with
    | none => exact .refl h fun σ => rfl
    | some e => exact (rewriteReads_spec e vs lab h).imp fun σ he => ⟨_, he, rfl⟩
  | callStmt e => exact (rewriteReads_spec e vs lab h).imp fun σ he => ⟨_, he, rfl⟩
  | set l e =>
    exact (rewriteReads_spec e vs lab h).imp fun σ he => ⟨hs l e rfl, _, he, rfl⟩
  | assign x e => exact .refl h fun σ => rfl
  | jump t => exact .refl h fun σ => rfl
  | asm t => exact .refl h fun σ => rfl
  | nop => exact .refl h fun σ => rfl

/-- `ss'` is `ss` renamed from the versions `σ` on, which become `σ'`; the values
defined are below `bound` and labelled with the locations they stand for. -/
inductive StmtsRenamed (lab : ValueId → Location) (bound : ℕ) :
    (Location → Option ValueId) → List Stmt → List Stmt → (Location → Option ValueId) → Prop
  | nil (σ) : StmtsRenamed lab bound σ [] [] σ
  | define {σ σ' : Location → Option ValueId} {l : Location} {e e' : Expr} {x : ValueId}
      {ss ss' : List Stmt} (hl : l.isVersioned = true) (he : e.Renamed σ e') (hlt : x < bound)
      (hlab : lab x = l) (rest : StmtsRenamed lab bound (Function.update σ l (some x)) ss ss' σ') :
      StmtsRenamed lab bound σ (.set l e :: ss) (.assign x e' :: ss') σ'
  | keep {σ σ' : Location → Option ValueId} {s s' : Stmt} {ss ss' : List Stmt}
      (hs : s.Renamed σ s') (hset : ∀ l e, s = .set l e → l.isVersioned = false)
      (rest : StmtsRenamed lab bound σ ss ss' σ') :
      StmtsRenamed lab bound σ (s :: ss) (s' :: ss') σ'

theorem StmtsRenamed.mono {lab lab' : ValueId → Location} {bound bound' : ℕ}
    {σ σ' : Location → Option ValueId} {ss ss' : List Stmt}
    (h : StmtsRenamed lab bound σ ss ss' σ') (hlt : bound ≤ bound')
    (hlab : ∀ x < bound, lab' x = lab x) : StmtsRenamed lab' bound' σ ss ss' σ' := by
  induction h with
  | nil σ => exact .nil σ
  | define hl he hx hxl _ ih => exact .define hl he (hx.trans_le hlt) ((hlab _ hx).trans hxl) ih
  | keep hs hset _ ih => exact .keep hs hset ih

theorem StmtsRenamed.eq_of_not_mem {lab : ValueId → Location} {bound : ℕ}
    {σ σ' : Location → Option ValueId} {ss ss' : List Stmt} {l : Location}
    (h : StmtsRenamed lab bound σ ss ss' σ') (hl : l ∉ versionedSets ss) : σ' l = σ l := by
  induction h with
  | nil σ => rfl
  | @define σ σ' k e e' x ss ss' hk _ _ _ _ ih =>
    simp only [versionedSets, List.filterMap_cons, hk, if_true, List.mem_cons, not_or] at hl
    rw [ih hl.2, Function.update_of_ne hl.1]
  | @keep σ σ' s s' ss ss' _ hset _ ih =>
    refine ih fun hmem => hl ?_
    simp only [versionedSets, List.filterMap_cons]
    split
    · exact hmem
    · exact List.mem_cons_of_mem _ hmem

private theorem inForce_update (u : Location → Option ValueId) (S : Location → List ValueId)
    (l : Location) (x : ValueId) :
    inForce u (Function.update S l (x :: S l)) = Function.update (inForce u S) l (some x) := by
  funext k
  by_cases hk : k = l
  · subst hk
    simp [inForce]
  · simp [inForce, Function.update_of_ne hk]

/-- A part of the renamer that defines values: as many are put on the stack of
each location as `pushed` lists it. -/
def Defines (lab : ValueId → Location) (vs vs' : Versions) (pushed : List Location)
    (P : (ValueId → Location) → ℕ → (Location → Option ValueId) → (Location → Option ValueId) →
      Prop) : Prop :=
  ∃ lab', vs.Grows lab lab' vs' ∧ vs'.Ok lab' ∧
    (∀ l, ∃ xs, vs'.stack l = xs ++ vs.stack l ∧ xs.length = pushed.count l) ∧
    ∀ u, vs'.EntryIn u → P lab' vs'.counter (inForce u vs.stack) (inForce u vs'.stack)

theorem renameStmts_spec (ss : List Stmt) {vs : Versions} {lab : ValueId → Location}
    (h : vs.Ok lab) :
    Defines lab vs (renameStmts ss vs).2.1 (renameStmts ss vs).2.2
      fun lab' bound σ σ' => StmtsRenamed lab' bound σ ss (renameStmts ss vs).1 σ' := by
  induction ss generalizing vs lab with
  | nil => exact ⟨lab, .refl, h, fun l => ⟨[], rfl, rfl⟩, fun u _ => .nil _⟩
  | cons s ss ih =>
    -- a statement that defines no versioned location
    have hkeep : (∀ l e, s = .set l e → l.isVersioned = false) →
        Defines lab vs (renameStmts ss (rewriteStmt s vs).2).2.1
          (renameStmts ss (rewriteStmt s vs).2).2.2
          fun lab' bound σ σ' => StmtsRenamed lab' bound σ (s :: ss)
            ((rewriteStmt s vs).1 :: (renameStmts ss (rewriteStmt s vs).2).1) σ' := by
      intro hset
      obtain ⟨lab₁, hgrow₁, hok₁, hstack₁, hs⟩ := rewriteStmt_spec hset h
      obtain ⟨lab₂, hgrow₂, hok₂, hstack₂, hss⟩ := ih hok₁
      rw [hstack₁] at hstack₂ hss
      exact ⟨lab₂, hgrow₁.trans hgrow₂, hok₂, hstack₂, fun u hu =>
        .keep (hs u (hgrow₂.entryIn hu)) hset (hss u hu)⟩
    cases s with
    | set l e =>
      rw [renameStmts]
      split_ifs with hl
      · obtain ⟨lab₁, hgrow₁, hok₁, hstack₁, he⟩ := rewriteReads_spec e vs lab h
        obtain ⟨lab₂, hgrow₂, hok₂, hlt, hlab⟩ := Versions.define_spec hok₁ l
        obtain ⟨lab₃, hgrow₃, hok₃, hstack₃, hss⟩ := ih hok₂
        refine ⟨lab₃, (hgrow₁.trans hgrow₂).trans hgrow₃, hok₃, fun k => ?_, fun u hu => ?_⟩
        · obtain ⟨xs, hxs, hlen⟩ := hstack₃ k
          rw [Versions.define_stack, hstack₁] at hxs
          by_cases hk : k = l
          · subst hk
            rw [Function.update_self] at hxs
            exact ⟨xs ++ [((rewriteReads e vs).2.define k).1], by simpa using hxs, by simp [hlen]⟩
          · have hlk : l ≠ k := fun h => hk h.symm
            rw [Function.update_of_ne hk] at hxs
            exact ⟨xs, hxs, by simp [hlen, hlk]⟩
        · refine .define hl (he u ((hgrow₂.trans hgrow₃).entryIn hu))
            (hlt.trans_le hgrow₃.counter) ((hgrow₃.lab _ hlt).trans hlab) ?_
          have hrest := hss u hu
          rwa [Versions.define_stack, hstack₁, inForce_update] at hrest
      · exact hkeep fun l' e' heq => by
          obtain ⟨rfl, rfl⟩ := Stmt.set.inj heq
          simpa using hl
    | assign x e => exact hkeep (by simp)
    | store a v ty => exact hkeep (by simp)
    | branch c t f => exact hkeep (by simp)
    | jump t => exact hkeep (by simp)
    | switch v cases d => exact hkeep (by simp)
    | ret e => exact hkeep (by simp)
    | callStmt e => exact hkeep (by simp)
    | asm t => exact hkeep (by simp)
    | nop => exact hkeep (by simp)

/-! ### Phis -/

def heads (φs : List Phi) : List (Location × ValueId) := φs.map fun φ => (φ.var, φ.dst)

def pushHeads (hs : List (Location × ValueId)) (σ : Location → Option ValueId) :
    Location → Option ValueId :=
  hs.foldl (fun σ h => Function.update σ h.1 (some h.2)) σ

theorem pushHeads_of_not_mem {hs : List (Location × ValueId)} {l : Location}
    (hl : l ∉ hs.map Prod.fst) (σ : Location → Option ValueId) : pushHeads hs σ l = σ l := by
  induction hs generalizing σ with
  | nil => rfl
  | cons h hs ih =>
    rw [List.map_cons, List.mem_cons, not_or] at hl
    have hrest : pushHeads hs (Function.update σ h.1 (some h.2)) l
        = Function.update σ h.1 (some h.2) l := ih hl.2 _
    rw [Function.update_of_ne hl.1] at hrest
    exact hrest

theorem pushHeads_of_mem {hs : List (Location × ValueId)} (hnodup : (hs.map Prod.fst).Nodup)
    {h : Location × ValueId} (hmem : h ∈ hs) (σ : Location → Option ValueId) :
    pushHeads hs σ h.1 = some h.2 := by
  induction hs generalizing σ with
  | nil => cases hmem
  | cons k hs ih =>
    obtain ⟨hk, hnodup⟩ := List.nodup_cons.mp hnodup
    rcases List.mem_cons.mp hmem with rfl | hmem
    · have hrest := pushHeads_of_not_mem hk (Function.update σ h.1 (some h.2))
      rw [Function.update_self] at hrest
      exact hrest
    · exact ih hnodup hmem _

section
variable {vs : Versions} {lab : ValueId → Location} {β : Type}

theorem namePhis_map (φs : List Phi) (vs : Versions) (g : Phi → β)
    (hg : ∀ φ x, g { φ with dst := x } = g φ) : (namePhis φs vs).1.map g = φs.map g := by
  induction φs generalizing vs with
  | nil => rfl
  | cons φ φs ih =>
    rw [namePhis]
    simp only [List.map_cons, ih, hg]

theorem namePhis_spec (φs : List Phi) (h : vs.Ok lab) :
    Defines lab vs (namePhis φs vs).2 ((namePhis φs vs).1.map Phi.var) fun lab' bound σ σ' =>
      (∀ p ∈ heads (namePhis φs vs).1, p.2 < bound ∧ lab' p.2 = p.1) ∧
        σ' = pushHeads (heads (namePhis φs vs).1) σ := by
  induction φs generalizing vs lab with
  | nil => exact ⟨lab, .refl, h, fun l => ⟨[], rfl, rfl⟩, fun u _ => ⟨by simp [namePhis, heads], rfl⟩⟩
  | cons φ φs ih =>
    obtain ⟨lab₁, hgrow₁, hok₁, hlt, hlab⟩ := Versions.define_spec h φ.var
    obtain ⟨lab₂, hgrow₂, hok₂, hstack₂, hrest⟩ := ih hok₁
    rw [namePhis]
    refine ⟨lab₂, hgrow₁.trans hgrow₂, hok₂, fun k => ?_, fun u hu => ⟨?_, ?_⟩⟩
    · obtain ⟨xs, hxs, hlen⟩ := hstack₂ k
      rw [Versions.define_stack] at hxs
      by_cases hk : k = φ.var
      · subst hk
        rw [Function.update_self] at hxs
        exact ⟨xs ++ [(vs.define φ.var).1], by simpa using hxs, by simp [hlen]⟩
      · have hne : φ.var ≠ k := fun h => hk h.symm
        rw [Function.update_of_ne hk] at hxs
        exact ⟨xs, hxs, by simp [hlen, hne]⟩
    · intro p hp
      rcases List.mem_cons.mp hp with rfl | hp
      · exact ⟨hlt.trans_le hgrow₂.counter, (hgrow₂.lab _ hlt).trans hlab⟩
      · exact (hrest u hu).1 p hp
    · have hpush := (hrest u hu).2
      rw [Versions.define_stack, inForce_update] at hpush
      exact hpush

theorem fillPhis_map (j : ℕ) (φs : List Phi) (vs : Versions) (g : Phi → β)
    (hg : ∀ φ x, g { φ with args := φ.args.set j x } = g φ) :
    (fillPhis j φs vs).1.map g = φs.map g := by
  induction φs generalizing vs with
  | nil => rfl
  | cons φ φs ih =>
    rw [fillPhis]
    simp only [List.map_cons, ih, hg]

def Filled (σ : Location → Option ValueId) (j : ℕ) (φs : List Phi) : Prop :=
  ∀ φ ∈ φs, j < φ.args.length → ∃ y, φ.args[j]? = some y ∧ σ φ.var = some y

theorem fillPhis_spec (j : ℕ) (φs : List Phi) (h : vs.Ok lab) :
    Rewrites lab vs (fillPhis j φs vs).2 fun σ => Filled σ j (fillPhis j φs vs).1 := by
  induction φs generalizing vs lab with
  | nil => exact .refl h fun σ φ hφ => absurd hφ (by simp [fillPhis])
  | cons φ φs ih =>
    have htop : Rewrites lab vs (vs.top φ.var).2 fun σ => σ φ.var = some (vs.top φ.var).1 := by
      obtain ⟨lab₁, hgrow, hok, hstack, hforce⟩ := Versions.top_spec h φ.var
      exact ⟨lab₁, hgrow, hok, hstack, hforce⟩
    refine (htop.and fun lab' hok => ih hok).imp fun σ hσ ψ hψ hlt => ?_
    rw [fillPhis] at hψ
    rcases List.mem_cons.mp hψ with rfl | hψ
    · exact ⟨(vs.top φ.var).1, List.getElem?_set_self (by simpa using hlt), hσ.1⟩
    · exact hσ.2 ψ hψ hlt

variable {preds : ℕ → List ℕ} {b : ℕ}

theorem fillSuccs_of_not_mem {ss : List ℕ} {t : ℕ} (ht : t ∉ ss) (phis : ℕ → List Phi)
    (vs : Versions) : (fillSuccs preds b ss phis vs).1 t = phis t := by
  induction ss generalizing phis vs with
  | nil => rfl
  | cons s ss ih =>
    rw [List.mem_cons, not_or] at ht
    rw [fillSuccs, ih ht.2, Function.update_of_ne ht.1]

theorem fillSuccs_map (ss : List ℕ) (phis : ℕ → List Phi) (vs : Versions) (t : ℕ) (g : Phi → β)
    (hg : ∀ φ x, g { φ with args := φ.args.set ((preds t).idxOf b) x } = g φ) :
    ((fillSuccs preds b ss phis vs).1 t).map g = (phis t).map g := by
  induction ss generalizing phis vs with
  | nil => rfl
  | cons s ss ih =>
    rw [fillSuccs, ih]
    by_cases hts : t = s
    · subst hts
      rw [Function.update_self, fillPhis_map _ _ _ g hg]
    · rw [Function.update_of_ne hts]

theorem fillSuccs_spec (ss : List ℕ) (phis : ℕ → List Phi) (h : vs.Ok lab) :
    Rewrites lab vs (fillSuccs preds b ss phis vs).2 fun σ =>
      ∀ s ∈ ss, Filled σ ((preds s).idxOf b) ((fillSuccs preds b ss phis vs).1 s) := by
  induction ss generalizing phis vs lab with
  | nil => exact .refl h fun σ s hs => absurd hs (by simp)
  | cons s ss ih =>
    refine ((fillPhis_spec ((preds s).idxOf b) (phis s) h).and fun lab' hok => ih _ hok).imp
      fun σ hσ t ht => ?_
    rw [fillSuccs]
    by_cases hts : t ∈ ss
    · exact hσ.2 t hts
    · obtain rfl : t = s := (List.mem_cons.mp ht).resolve_right hts
      rw [fillSuccs_of_not_mem hts, Function.update_self]
      exact hσ.1

end

end Aret
