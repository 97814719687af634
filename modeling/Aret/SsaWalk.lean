/-
What the walk over the dominator tree leaves behind.

The walk enters every reachable block once, with the stacks as they were at the
end of the block's immediate dominator; the invariant says so of the steps still
to do, and records for every block entered what the renamer made of it.
-/
import Aret.SsaRename

namespace Aret

/-- The stacks at the start of a block, before its phis, and at its end. -/
structure Mark where
  inn : Location → List ValueId
  out : Location → List ValueId

section
variable (f : IrFunction)

/-- The stacks `S` are those a block is to be entered with. -/
def EntersWith (done : ℕ → Option Mark) (b : ℕ) (S : Location → List ValueId) : Prop :=
  (b = f.entryIndex ∧ S = fun _ => []) ∨
    ∃ p m, b ≠ f.entryIndex ∧ f.idom b = some p ∧ done p = some m ∧ S = m.out

structure Entered (lab : ValueId → Location) (st : Renaming) (done : ℕ → Option Mark) (b : ℕ)
    (m : Mark) : Prop where
  inn : EntersWith f done b m.inn
  made : ∀ l, ∀ x ∈ m.inn l, x < st.vers.counter ∧ lab x = l
  heads : ∀ p ∈ heads (st.phis b), p.2 < st.vers.counter ∧ lab p.2 = p.1
  body : ∀ u, st.vers.EntryIn u → StmtsRenamed lab st.vers.counter
    (pushHeads (Aret.heads (st.phis b)) (inForce u m.inn)) (f.block b).stmts (st.stmts b)
    (inForce u m.out)
  filled : ∀ s ∈ f.succOf b, ∀ u, st.vers.EntryIn u →
    Filled (inForce u m.out) ((f.predOf s).idxOf b) (st.phis s)

def WorkOk (done : ℕ → Option Mark) : List RenameStep → (Location → List ValueId) → Prop
  | [], _ => True
  | .pop vars :: work, S => WorkOk done work fun l => (S l).drop (vars.count l)
  | .enter b :: work, S => EntersWith f done b S ∧ WorkOk done work S

end

def enters (work : List RenameStep) : List ℕ :=
  work.filterMap fun
    | .enter b => some b
    | .pop _ => none

def pops (work : List RenameStep) : ℕ :=
  work.countP fun
    | .enter _ => false
    | .pop _ => true

section
variable {f : IrFunction} {lab lab' : ValueId → Location} {st st' : Renaming}
  {done done' : ℕ → Option Mark}

theorem EntersWith.mono {b : ℕ} {S : Location → List ValueId} (h : EntersWith f done b S)
    (hdone : ∀ p m, done p = some m → done' p = some m) : EntersWith f done' b S := by
  rcases h with h | ⟨p, m, hne, hp, hm, hS⟩
  · exact .inl h
  · exact .inr ⟨p, m, hne, hp, hdone p m hm, hS⟩

theorem WorkOk.mono {work : List RenameStep} {S : Location → List ValueId}
    (h : WorkOk f done work S) (hdone : ∀ p m, done p = some m → done' p = some m) :
    WorkOk f done' work S := by
  induction work generalizing S with
  | nil => trivial
  | cons step work ih =>
    cases step with
    | pop vars => exact ih h
    | enter b => exact ⟨h.1.mono hdone, ih h.2⟩

theorem WorkOk.entersWith {work : List RenameStep} {S : Location → List ValueId}
    (h : WorkOk f done work S) {b : ℕ} (hb : b ∈ enters work) : ∃ S', EntersWith f done b S' := by
  induction work generalizing S with
  | nil => cases hb
  | cons step work ih =>
    cases step with
    | pop vars => exact ih h hb
    | enter c =>
      rcases List.mem_cons.mp hb with rfl | hb
      · exact ⟨S, h.1⟩
      · exact ih h.2 hb

theorem WorkOk.append {cs : List ℕ} {work : List RenameStep} {S : Location → List ValueId}
    (h : WorkOk f done work S) (hcs : ∀ c ∈ cs, EntersWith f done c S) :
    WorkOk f done (cs.map .enter ++ work) S := by
  induction cs with
  | nil => exact h
  | cons c cs ih =>
    exact ⟨hcs c List.mem_cons_self, ih fun d hd => hcs d (List.mem_cons_of_mem _ hd)⟩

private theorem filled_congr {σ : Location → Option ValueId} {j : ℕ} {φs ψs : List Phi}
    (h : φs.map (fun φ => (φ.var, φ.args[j]?, φ.args.length))
      = ψs.map fun φ => (φ.var, φ.args[j]?, φ.args.length))
    (hψ : Filled σ j ψs) : Filled σ j φs := by
  intro φ hφ hlt
  have hmem : (φ.var, φ.args[j]?, φ.args.length)
      ∈ ψs.map fun φ => (φ.var, φ.args[j]?, φ.args.length) :=
    h ▸ List.mem_map.mpr ⟨φ, hφ, rfl⟩
  obtain ⟨ψ, hψs, heq⟩ := List.mem_map.mp hmem
  obtain ⟨hvar, hrest⟩ := Prod.mk.inj heq
  obtain ⟨hargs, hlen⟩ := Prod.mk.inj hrest
  obtain ⟨y, hy, hσ⟩ := hψ ψ hψs (hlen ▸ hlt)
  exact ⟨y, hargs ▸ hy, hvar ▸ hσ⟩

theorem Entered.mono {b : ℕ} {m : Mark} (h : Entered f lab st done b m)
    (hgrow : st.vers.Grows lab lab' st'.vers)
    (hdone : ∀ p m, done p = some m → done' p = some m) (hstmts : st'.stmts b = st.stmts b)
    (hheads : Aret.heads (st'.phis b) = Aret.heads (st.phis b))
    (hslots : ∀ s ∈ f.succOf b,
      (st'.phis s).map (fun φ => (φ.var, φ.args[(f.predOf s).idxOf b]?, φ.args.length))
        = (st.phis s).map fun φ => (φ.var, φ.args[(f.predOf s).idxOf b]?, φ.args.length)) :
    Entered f lab' st' done' b m where
  inn := h.inn.mono hdone
  made := fun l x hx =>
    ⟨(h.made l x hx).1.trans_le hgrow.counter,
      (hgrow.lab x (h.made l x hx).1).trans (h.made l x hx).2⟩
  heads := fun p hp =>
    ⟨(h.heads p (hheads ▸ hp)).1.trans_le hgrow.counter,
      (hgrow.lab _ (h.heads p (hheads ▸ hp)).1).trans (h.heads p (hheads ▸ hp)).2⟩
  body := fun u hu => by
    rw [hheads, hstmts]
    exact (h.body u (hgrow.entryIn hu)).mono hgrow.counter hgrow.lab
  filled := fun s hs u hu => filled_congr (hslots s hs) (h.filled s hs u (hgrow.entryIn hu))

structure LoopInv (f : IrFunction) (lab : ValueId → Location) (st : Renaming)
    (done : ℕ → Option Mark) (work : List RenameStep) : Prop where
  vers : st.vers.Ok lab
  found : WorkOk f done work st.vers.stack
  nodup : (enters work).Nodup
  todo : ∀ b ∈ enters work, done b = none ∧ b < f.blocks.length
  children : ∀ b, (done b).isSome → ∀ c ∈ f.children b, (done c).isSome ∨ c ∈ enters work
  entry : (done f.entryIndex).isSome ∨ f.entryIndex ∈ enters work
  entered : ∀ b m, done b = some m → Entered f lab st done b m
  stmts : ∀ b, done b = none → st.stmts b = (f.block b).stmts
  vars : ∀ b, (st.phis b).map Phi.var = f.phiVars b
  lengths : ∀ b, ∀ φ ∈ st.phis b, φ.args.length = (f.predOf b).length

theorem mem_children {b c : ℕ} : c ∈ f.children b ↔
    c < f.blocks.length ∧ c ≠ f.entryIndex ∧ f.idom c = some b ∧ b ≠ c := by
  rw [IrFunction.children, List.mem_filter, List.mem_range, decide_eq_true_eq]

private theorem not_entersWith_child {b c : ℕ} (hb : done b = none) (hc : c ∈ f.children b)
    {S : Location → List ValueId} : ¬EntersWith f done c S := by
  obtain ⟨-, hne, hidom, -⟩ := mem_children.mp hc
  rintro (⟨rfl, -⟩ | ⟨p, m, -, hp, hm, -⟩)
  · exact hne rfl
  · obtain rfl : p = b := Option.some.inj (hp.symm.trans hidom)
    rw [hb] at hm
    cases hm

theorem LoopInv.pop {vars : List Location} {work : List RenameStep}
    (h : LoopInv f lab st done (.pop vars :: work)) :
    LoopInv f lab { st with vers := st.vers.pop vars } done work := by
  obtain ⟨hcounter, hundef⟩ := st.vers.pop_eq vars
  have hgrow : st.vers.Grows lab lab (st.vers.pop vars) :=
    ⟨hcounter.ge, fun _ _ => rfl, fun l x hx => by rwa [hundef]⟩
  have hstack : (st.vers.pop vars).stack = fun l => (st.vers.stack l).drop (vars.count l) :=
    funext (st.vers.stack_pop vars)
  refine ⟨h.vers.pop vars, ?_, h.nodup, h.todo, h.children, h.entry, ?_, h.stmts, h.vars, h.lengths⟩
  · show WorkOk f done work (st.vers.pop vars).stack
    rw [hstack]
    exact h.found
  · exact fun b m hm => (h.entered b m hm).mono hgrow (fun _ _ hp => hp) rfl rfl fun _ _ => rfl

/-- What entering block `b` does to the renaming. -/
private structure EnterSpec (f : IrFunction) (b : ℕ) (lab : ValueId → Location) (st : Renaming)
    (lab' : ValueId → Location) (st' : Renaming) (pushed : List Location) : Prop where
  grow : st.vers.Grows lab lab' st'.vers
  ok : st'.vers.Ok lab'
  undo : (fun l => (st'.vers.stack l).drop (pushed.count l)) = st.vers.stack
  stmts : ∀ c, c ≠ b → st'.stmts c = st.stmts c
  headsOf : ∀ c, c ≠ b → heads (st'.phis c) = heads (st.phis c)
  kept : ∀ {β : Type} (t : ℕ) (g : Phi → β), (∀ φ x, g { φ with dst := x } = g φ) →
    (∀ φ x, g { φ with args := φ.args.set ((f.predOf t).idxOf b) x } = g φ) →
    (st'.phis t).map g = (st.phis t).map g
  made : ∀ p ∈ heads (st'.phis b), p.2 < st'.vers.counter ∧ lab' p.2 = p.1
  body : ∀ u, st'.vers.EntryIn u → StmtsRenamed lab' st'.vers.counter
    (pushHeads (heads (st'.phis b)) (inForce u st.vers.stack)) (st.stmts b) (st'.stmts b)
    (inForce u st'.vers.stack)
  filled : ∀ s ∈ f.succOf b, ∀ u, st'.vers.EntryIn u →
    Filled (inForce u st'.vers.stack) ((f.predOf s).idxOf b) (st'.phis s)

private theorem enter_spec (b : ℕ) (h : st.vers.Ok lab) :
    ∃ lab', EnterSpec f b lab st lab' (st.enter f.succOf f.predOf b).1
      (st.enter f.succOf f.predOf b).2 := by
  set p := namePhis (st.phis b) st.vers with hp
  set q := renameStmts (st.stmts b) p.2 with hq
  set r := fillSuccs f.predOf b (f.succOf b) (Function.update st.phis b p.1) q.2.1 with hr
  have henter : st.enter f.succOf f.predOf b
      = (⟨r.2, r.1, Function.update st.stmts b q.1⟩, p.1.map Phi.var ++ q.2.2) := rfl
  rw [henter]
  obtain ⟨lab₁, hgrow₁, hok₁, hstack₁, hnames⟩ := namePhis_spec (st.phis b) h
  obtain ⟨lab₂, hgrow₂, hok₂, hstack₂, hbody⟩ := renameStmts_spec (st.stmts b) hok₁
  obtain ⟨lab₃, hgrow₃, hok₃, hstack₃, hfill⟩ := fillSuccs_spec (f.succOf b)
    (Function.update st.phis b p.1) hok₂
  rw [← hp] at hstack₁ hnames
  rw [← hp, ← hq] at hstack₂ hbody
  rw [← hp, ← hq, ← hr] at hstack₃ hfill hgrow₃ hok₃
  have hheads : heads (r.1 b) = heads p.1 := by
    rw [heads, hr, fillSuccs_map _ _ _ _ (fun φ => (φ.var, φ.dst)) fun _ _ => rfl,
      Function.update_self, heads]
  refine ⟨lab₃, (hgrow₁.trans hgrow₂).trans hgrow₃, hok₃, ?_, ?_, ?_, ?_, ?_, ?_, ?_⟩
  · funext l
    obtain ⟨xs, hxs, hxslen⟩ := hstack₁ l
    obtain ⟨ys, hys, hyslen⟩ := hstack₂ l
    show (r.2.stack l).drop _ = _
    rw [hstack₃, hys, hxs, ← List.append_assoc, List.count_append]
    exact List.drop_left' (by simp [hxslen, hyslen, Nat.add_comm])
  · exact fun c hc => Function.update_of_ne hc ..
  · intro c hc
    show heads (r.1 c) = _
    rw [heads, hr, fillSuccs_map _ _ _ _ (fun φ => (φ.var, φ.dst)) fun _ _ => rfl,
      Function.update_of_ne hc, heads]
  · intro β t g hdst hargs
    show (r.1 t).map g = _
    rw [hr, fillSuccs_map _ _ _ _ g hargs]
    by_cases ht : t = b
    · rw [ht, Function.update_self, hp, namePhis_map _ _ g hdst]
    · rw [Function.update_of_ne ht]
  · intro x hx
    rw [hheads] at hx
    obtain ⟨hlt, hlab⟩ := (hnames (fun l => p.2.undef.lookup l) fun _ _ h => h).1 x hx
    exact ⟨(hlt.trans_le hgrow₂.counter).trans_le hgrow₃.counter,
      (hgrow₃.lab _ (hlt.trans_le hgrow₂.counter)).trans ((hgrow₂.lab _ hlt).trans hlab)⟩
  · intro u hu
    show StmtsRenamed lab₃ r.2.counter (pushHeads (heads (r.1 b)) (inForce u st.vers.stack))
      (st.stmts b) (Function.update st.stmts b q.1 b) (inForce u r.2.stack)
    have hu₂ : q.2.1.EntryIn u := hgrow₃.entryIn hu
    rw [Function.update_self, hstack₃, hheads, ← (hnames u (hgrow₂.entryIn hu₂)).2]
    exact (hbody u hu₂).mono hgrow₃.counter hgrow₃.lab
  · intro s hs u hu
    show Filled (inForce u r.2.stack) _ (r.1 s)
    rw [hstack₃]
    exact hfill u hu s hs

/-- Entering a block: it is renamed, and its children are to be entered with the
stacks at its end, which are then undone. -/
theorem LoopInv.enter (hgraph : f.GraphOk) {b : ℕ} {work : List RenameStep}
    (h : LoopInv f lab st done (.enter b :: work)) :
    ∃ lab' m, LoopInv f lab' (st.enter f.succOf f.predOf b).1 (Function.update done b (some m))
      ((f.children b).reverse.map .enter ++ .pop (st.enter f.succOf f.predOf b).2 :: work) := by
  obtain ⟨hdoneb, hbn⟩ := h.todo b List.mem_cons_self
  obtain ⟨hentersb, hwork⟩ := h.found
  obtain ⟨lab', hspec⟩ := enter_spec (f := f) b h.vers
  generalize st.enter f.succOf f.predOf b = r at hspec
  obtain ⟨st', pushed⟩ := r
  set m : Mark := ⟨st.vers.stack, st'.vers.stack⟩ with hm
  have hself : Function.update done b (some m) b = some m := Function.update_self ..
  have hdone : ∀ c mc, done c = some mc → Function.update done b (some m) c = some mc := by
    intro c mc hc
    have hne : c ≠ b := by
      rintro rfl
      rw [hdoneb] at hc
      cases hc
    rw [Function.update_of_ne hne, hc]
  have hsome : ∀ c, (done c).isSome → (Function.update done b (some m) c).isSome := by
    intro c hc
    obtain ⟨mc, hmc⟩ := Option.isSome_iff_exists.mp hc
    rw [hdone c mc hmc]
    rfl
  have henters : enters ((f.children b).reverse.map .enter ++ .pop pushed :: work)
      = (f.children b).reverse ++ enters work := by
    simp [enters, List.filterMap_append, List.filterMap_map]
  have hchild : ∀ c ∈ f.children b, done c = none ∧ c ∉ enters (.enter b :: work) := by
    intro c hc
    constructor
    · cases hdc : done c with
      | none => rfl
      | some mc => exact absurd (h.entered c mc hdc).inn (not_entersWith_child hdoneb hc)
    · intro hmem
      obtain ⟨S, hS⟩ := h.found.entersWith hmem
      exact not_entersWith_child hdoneb hc hS
  obtain ⟨hbwork, hnodup⟩ := List.nodup_cons.mp h.nodup
  refine ⟨lab', m, hspec.ok, ?_, ?_, ?_, ?_, ?_, ?_, ?_, ?_, ?_⟩
  · refine WorkOk.append ?_ fun c hc => ?_
    · show WorkOk f _ work _
      rw [hspec.undo]
      exact hwork.mono hdone
    · obtain ⟨-, hne, hidom, -⟩ := mem_children.mp (List.mem_reverse.mp hc)
      exact .inr ⟨b, m, hne, hidom, hself, rfl⟩
  · rw [henters, List.nodup_append]
    refine ⟨List.nodup_reverse.mpr (List.nodup_range.filter _), hnodup, ?_⟩
    rintro c hc _ hmem rfl
    exact (hchild c (List.mem_reverse.mp hc)).2 (List.mem_cons_of_mem _ hmem)
  · intro c hc
    rw [henters] at hc
    rcases List.mem_append.mp hc with hc | hc
    · have hc' := List.mem_reverse.mp hc
      rw [Function.update_of_ne (mem_children.mp hc').2.2.2.symm]
      exact ⟨(hchild c hc').1, (mem_children.mp hc').1⟩
    · have hcb : c ≠ b := fun hcb => hbwork (hcb ▸ hc)
      rw [Function.update_of_ne hcb]
      exact h.todo c (List.mem_cons_of_mem _ hc)
  · intro c hc d hd
    rw [henters]
    by_cases hcb : c = b
    · exact .inr (List.mem_append_left _ (List.mem_reverse.mpr (hcb ▸ hd)))
    · rw [Function.update_of_ne hcb] at hc
      rcases h.children c hc d hd with hd | hd
      · exact .inl (hsome d hd)
      · rcases List.mem_cons.mp hd with rfl | hd
        · exact .inl (by rw [hself]; rfl)
        · exact .inr (List.mem_append_right _ hd)
  · rw [henters]
    rcases h.entry with he | he
    · exact .inl (hsome _ he)
    · rcases List.mem_cons.mp he with he | he
      · exact .inl (by rw [he, hself]; rfl)
      · exact .inr (List.mem_append_right _ he)
  · intro c mc hc
    by_cases hcb : c = b
    · subst hcb
      obtain rfl := Option.some.inj (hself.symm.trans hc)
      have hstmts := h.stmts c hdoneb
      refine ⟨hentersb.mono hdone, ?_, hspec.made, hstmts ▸ hspec.body, hspec.filled⟩
      intro l x hx
      obtain ⟨hlt, hlab⟩ := h.vers.stack l x hx
      exact ⟨hlt.trans_le hspec.grow.counter, (hspec.grow.lab x hlt).trans hlab⟩
    · rw [Function.update_of_ne hcb] at hc
      refine (h.entered c mc hc).mono hspec.grow hdone (hspec.stmts c hcb) (hspec.headsOf c hcb) ?_
      intro s hs
      refine hspec.kept s _ (fun _ _ => rfl) fun φ x => ?_
      -- two predecessors have different slots
      have hmem : c ∈ f.predOf s := (hgraph.transpose c s).mp hs
      have hslot : (f.predOf s).idxOf b ≠ (f.predOf s).idxOf c := fun heq =>
        hcb ((List.idxOf_inj hmem).mp heq.symm)
      simp [List.getElem?_set_ne hslot]
  · intro c hc
    have hcb : c ≠ b := by
      rintro rfl
      rw [hself] at hc
      cases hc
    rw [Function.update_of_ne hcb] at hc
    rw [hspec.stmts c hcb, h.stmts c hc]
  · intro c
    rw [← h.vars c]
    exact hspec.kept c Phi.var (fun _ _ => rfl) fun _ _ => rfl
  · intro c φ hφ
    have hlen := hspec.kept c (fun φ => φ.args.length) (fun _ _ => rfl) fun φ x => by simp
    have hmem : φ.args.length ∈ (st.phis c).map fun φ => φ.args.length :=
      hlen ▸ List.mem_map.mpr ⟨φ, hφ, rfl⟩
    obtain ⟨ψ, hψ, heq⟩ := List.mem_map.mp hmem
    rw [← heq]
    exact h.lengths c ψ hψ

/-! ### The whole walk -/

private def left (f : IrFunction) (done : ℕ → Option Mark) : ℕ :=
  ((Finset.range f.blocks.length).filter fun b => (done b).isNone).card

private theorem left_update {b : ℕ} {m : Mark} (hb : b < f.blocks.length) (hdone : done b = none) :
    left f (Function.update done b (some m)) + 1 = left f done := by
  have hmem : b ∈ (Finset.range f.blocks.length).filter fun b => (done b).isNone :=
    Finset.mem_filter.mpr ⟨Finset.mem_range.mpr hb, by rw [hdone]; rfl⟩
  have herase : ((Finset.range f.blocks.length).filter fun c =>
      (Function.update done b (some m) c).isNone)
      = ((Finset.range f.blocks.length).filter fun b => (done b).isNone).erase b := by
    ext c
    rw [Finset.mem_erase, Finset.mem_filter, Finset.mem_filter]
    by_cases hcb : c = b
    · simp [hcb]
    · simp [hcb]
  rw [left, left, herase, Finset.card_erase_add_one hmem]

private theorem pops_append (cs : List ℕ) (work : List RenameStep) :
    pops (cs.map .enter ++ work) = pops work := by
  rw [pops, List.countP_append, List.countP_map]
  simp [pops, Function.comp_def]

/-- With the invariant, whatever its steps keep holds at the end of the walk. -/
theorem LoopInv.run (hgraph : f.GraphOk) {P : Renaming → (ℕ → Option Mark) → Prop}
    (hpop : ∀ st done vars, P st done → P { st with vers := st.vers.pop vars } done)
    (henter : ∀ st done b m, done b = none → P st done →
      P (st.enter f.succOf f.predOf b).1 (Function.update done b (some m)))
    {fuel : ℕ} {work : List RenameStep} (h : LoopInv f lab st done work) (hP : P st done)
    (hfuel : 2 * left f done + pops work ≤ fuel) :
    ∃ lab' done', LoopInv f lab' (renameLoop f.succOf f.predOf f.children fuel work st) done' [] ∧
      P (renameLoop f.succOf f.predOf f.children fuel work st) done' := by
  induction fuel generalizing work st lab done with
  | zero =>
    cases work with
    | nil => exact ⟨lab, done, h, hP⟩
    | cons step work =>
      exfalso
      cases step with
      | pop vars =>
        rw [pops, List.countP_cons_of_pos (by rfl)] at hfuel
        omega
      | enter b =>
        obtain ⟨hdone, hb⟩ := h.todo b List.mem_cons_self
        have := left_update (m := ⟨st.vers.stack, st.vers.stack⟩) hb hdone
        omega
  | succ fuel ih =>
    cases work with
    | nil => exact ⟨lab, done, h, hP⟩
    | cons step work =>
      cases step with
      | pop vars =>
        rw [pops, List.countP_cons_of_pos (by rfl)] at hfuel
        exact ih h.pop (hpop _ _ vars hP) (by rw [pops]; omega)
      | enter b =>
        obtain ⟨hdone, hb⟩ := h.todo b List.mem_cons_self
        obtain ⟨lab', m, hinv⟩ := h.enter hgraph
        refine ih hinv (henter _ _ b m hdone hP) ?_
        have hleft := left_update (m := m) hb hdone
        have hpops : pops (.enter b :: work) = pops work :=
          List.countP_cons_of_neg (by simp)
        have hpop : pops (.pop (st.enter f.succOf f.predOf b).2 :: work) = pops work + 1 :=
          List.countP_cons_of_pos (by rfl)
        rw [pops_append, hpop]
        omega

end

namespace IrFunction

variable {f : IrFunction}

theorem Rooted.renamed_with (h : f.Rooted) {P : Renaming → (ℕ → Option Mark) → Prop}
    (hpop : ∀ st done vars, P st done → P { st with vers := st.vers.pop vars } done)
    (henter : ∀ st done b m, done b = none → P st done →
      P (st.enter f.succOf f.predOf b).1 (Function.update done b (some m)))
    (hP : P ⟨⟨0, fun _ => [], [], []⟩, f.blankPhis, fun i => (f.block i).stmts⟩ fun _ => none) :
    ∃ lab done, LoopInv f lab f.renamed done [] ∧ (∀ b, b ∈ f.order ↔ (done b).isSome) ∧
      P f.renamed done := by
  have hstart : LoopInv f (fun _ => .mem)
      ⟨⟨0, fun _ => [], [], []⟩, f.blankPhis, fun i => (f.block i).stmts⟩ (fun _ => none)
      [.enter f.entryIndex] := by
    refine ⟨⟨by simp, by simp⟩, ⟨.inl ⟨rfl, rfl⟩, trivial⟩, by simp [enters], ?_, by simp,
      .inr (by simp [enters]), by simp, fun _ _ => rfl, fun _ => rfl, fun _ _ => blankPhis_length⟩
    intro b hb
    obtain rfl : b = f.entryIndex := by simpa [enters] using hb
    exact ⟨rfl, h.entry_lt⟩
  have hleft : left f (fun _ => none) ≤ f.blocks.length := by
    rw [left]
    exact (Finset.card_filter_le _ _).trans (by simp)
  have hfuel : 2 * left f (fun _ => none) + pops [.enter f.entryIndex] ≤ 2 * f.blocks.length := by
    simp only [pops]
    simpa using hleft
  obtain ⟨lab, done, hinv, hend⟩ := hstart.run h.graph hpop henter hP hfuel
  have hreached : ∀ b, (done b).isSome → b ∈ f.order := by
    intro b hb
    obtain ⟨m, hm⟩ := Option.isSome_iff_exists.mp hb
    rcases (hinv.entered b m hm).inn with ⟨rfl, -⟩ | ⟨p, -, -, hp, -⟩
    · exact h.isOrder.entry_mem
    · exact (h.isDominators.placed b).mp (by rw [hp]; rfl)
  refine ⟨lab, done, hinv, fun b => ⟨fun hb => ?_, hreached b⟩, hend⟩
  have hdom := h.isDominators
  induction hk : f.order.idxOf b using Nat.strong_induction_on generalizing b with
  | _ k ih =>
    by_cases hbe : b = f.entryIndex
    · rw [hbe]
      exact hinv.entry.resolve_right (by simp [enters])
    · obtain ⟨p, hp⟩ := Option.isSome_iff_exists.mp ((hdom.placed b).mpr hb)
      have hlt := hdom.tree.ranked hbe hp
      have hpr := (hdom.placed p).mp (hdom.tree.closed hp)
      have hne : p ≠ b := by
        rintro rfl
        omega
      have hchild : b ∈ f.children p :=
        mem_children.mpr ⟨h.isOrder.lt b hb, hbe, hp, hne⟩
      exact (hinv.children p (ih _ (by omega) p hpr rfl) b hchild).resolve_right (by simp [enters])

theorem Rooted.renamed (h : f.Rooted) :
    ∃ lab done, LoopInv f lab f.renamed done [] ∧ ∀ b ∈ f.order, (done b).isSome := by
  obtain ⟨lab, done, hinv, hall, -⟩ := h.renamed_with (P := fun _ _ => True)
    (fun _ _ _ _ => trivial) (fun _ _ _ _ _ _ => trivial) trivial
  exact ⟨lab, done, hinv, fun b => (hall b).mp⟩

end IrFunction

end Aret
