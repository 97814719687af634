/-
When constants that the text pipeline propagates are right.
-/
import Aret.DataflowChains
import Aret.DataflowRun

namespace Aret
namespace Dataflow

/-! ### What is known of registers -/

def HoldsLiteral (σ : Regs) (name lit : Text) : Prop :=
  ∃ fam, regFamily name = some fam ∧ σ.read name fam = literal lit % 2 ^ (regBits name).2

/-- What a constant state says is true, and its literals are among `lits`. -/
def Knows (lits : Text → Prop) (st : ConstState) (σ : Regs) : Prop :=
  ∀ kv ∈ st, HoldsLiteral σ kv.1 kv.2 ∧ lits kv.2

/-- The lines whose effect is followed: a call is taken for one, a register is copied without
widening unless the literals fit, and what is not printed by the lifter is `__asm__`. -/
def Stmt.Followed (lits : Text → Prop) (s : Stmt) : Prop :=
  match s.act with
  | .call => s.isCall = true
  | .assign name _ rhs => ∀ fam, regFamily rhs = some fam →
    (regBits name).2 ≤ (regBits rhs).2 ∨ ∀ lit, lits lit → literal lit < 2 ^ (regBits rhs).2
  | .unknown => s.kind = .opaqueAsm
  | .skip | .update .. | .take .. | .effect => True

section
variable {lits : Text → Prop} {st : ConstState} {σ σ' : Regs} {name lit : Text} {fam : RegFamily}

/-- A name that is not a part stands for the low bits. -/
theorem regBits_low (h : ¬ isPart name = true) : (regBits name).1 = 0 := by
  rw [isPart, decide_eq_true_eq, not_le] at h
  rw [regBits] at h ⊢
  split at h
  · rename_i row hrow
    dsimp only at h ⊢
    generalize row.2.findIdx (·.toList == name) = k at h ⊢
    -- Of the parts of a family only the second byte does not begin at bit 0.
    split_ifs at h ⊢ with hfive
    · rcases k with _ | _ | _ | _ | _ | k <;> simp_all
    · rcases k with _ | _ | _ | _ | k <;> rfl
  · rfl

theorem Regs.read_write_self (v : ℕ) :
    (σ.write name fam v).read name fam = v % 2 ^ (regBits name).2 := by
  rw [Regs.read, Regs.write_self]
  split_ifs with hpart
  · exact Fields.get_put_self
  · rw [regBits_low hpart, Fields.get, pow_zero, Nat.div_one, Nat.mod_mod]

theorem HoldsLiteral.congr (h : HoldsLiteral σ name lit)
    (hsame : ∀ f, regFamily name = some f → σ' f = σ f) : HoldsLiteral σ' name lit := by
  obtain ⟨f, hf, hread⟩ := h
  refine ⟨f, hf, ?_⟩
  rw [Regs.read, hsame f hf]
  exact hread

theorem Knows.nil : Knows lits [] σ := nofun

theorem Knows.mono {st' : ConstState} (h : Knows lits st σ) (hsub : ∀ kv ∈ st', kv ∈ st) :
    Knows lits st' σ := fun kv hkv => h kv (hsub kv hkv)

theorem Knows.clearFamily (h : Knows lits st σ) (hfam : regFamily name = some fam)
    (hsame : ∀ f, f ≠ fam → σ' f = σ f) : Knows lits (clearFamily st name) σ' := by
  intro kv hkv
  rw [Dataflow.clearFamily, hfam] at hkv
  obtain ⟨hmem, hother⟩ := List.mem_filter.mp hkv
  refine ⟨(h kv hmem).1.congr fun f hf => hsame f ?_, (h kv hmem).2⟩
  rintro rfl
  rw [hf] at hother
  exact absurd rfl (bne_iff_ne.mp hother)

theorem Knows.insert (h : Knows lits st σ) (hname : HoldsLiteral σ name lit) (hlit : lits lit) :
    Knows lits (st.insert name lit) σ := by
  intro kv hkv
  rcases List.mem_append.mp hkv with hkv | hkv
  · exact h kv (List.mem_filter.mp hkv).1
  · obtain rfl := List.mem_singleton.mp hkv
    exact ⟨hname, hlit⟩

theorem mem_of_lookup {v : Text} (h : st.lookup name = some v) : (name, v) ∈ st := by
  obtain ⟨l₁, l₂, rfl, -⟩ := List.lookup_eq_some_iff.mp h
  exact List.mem_append_right _ List.mem_cons_self

end

/-! ### Lines -/

section
variable {M : Machine} {lits : Text → Prop} {st : ConstState} {x : Regs × M.World}

theorem HoldsLiteral.copy {σ : Regs} {name rhs lit : Text} {fam : RegFamily} {w : M.World}
    (hfam : regFamily name = some fam) (h : HoldsLiteral σ rhs lit)
    (hfit : (regBits name).2 ≤ (regBits rhs).2 ∨ literal lit < 2 ^ (regBits rhs).2) :
    HoldsLiteral (σ.write name fam (M.expr rhs σ w)) name lit := by
  obtain ⟨f, hf, hread⟩ := h
  refine ⟨fam, hfam, ?_⟩
  rw [Regs.read_write_self, M.expr_name hf, hread]
  rcases hfit with hle | hlt
  · exact Nat.mod_mod_of_dvd _ (Nat.pow_dvd_pow 2 hle)
  · rw [Nat.mod_eq_of_lt hlt]

theorem Knows.transfer {s : Stmt} (hs : s.Parsed) (hfollow : s.Followed lits)
    (hlits : ∀ lit, s.rhs = some lit → isImmediate lit = true → lits lit)
    (h : Knows lits st x.1) : Knows lits (cpTransfer st s) (M.step x s).1 := by
  have hshape := hs.shape
  obtain ⟨text, kind, write, reads, rhs, loads, isCall, origin⟩ := s
  dsimp only at hshape hlits
  cases hshape with
  | comment hcomment =>
    have hact : Stmt.act ⟨text, .keep, none, [], none, false, false, origin⟩ = .skip :=
      if_pos hcomment
    rw [Machine.step, hact]
    exact h
  | asm => exact Knows.nil
  | other hcomment hreads hargs =>
    have hsub : ∀ kv ∈ cpTransfer st ⟨text, .keep, none, reads, none, false, isCall, origin⟩,
        kv ∈ st := by
      intro kv hkv
      cases isCall with
      | true => exact (List.mem_filter.mp hkv).1
      | false => exact hkv
    cases hline : isCallLine text with
    | false =>
      have hact : Stmt.act ⟨text, .keep, none, reads, none, false, isCall, origin⟩ = .effect := by
        simp only [Stmt.act, hcomment, hline]
        rfl
      rw [Machine.step, hact]
      exact h.mono hsub
    | true =>
      have hact : Stmt.act ⟨text, .keep, none, reads, none, false, isCall, origin⟩ = .call := by
        simp only [Stmt.act, hcomment, hline]
        rfl
      simp only [Stmt.Followed, hact] at hfollow
      subst hfollow
      rw [Machine.step, hact]
      -- What the callee may change is forgotten.
      intro kv hkv
      obtain ⟨hmem, hkeep⟩ := List.mem_filter.mp hkv
      refine ⟨(h kv hmem).1.congr fun f hf => if_neg ?_, (h kv hmem).2⟩
      simpa [hf] using hkeep
  | @compound name fam _ hfam hreads hmem =>
    exact h.clearFamily hfam fun f hf => Regs.write_of_ne hf
  | @assign name fam rhs _ hfam htrim =>
    have hclear : Knows lits (Dataflow.clearFamily st name)
        (x.1.write name fam (M.expr rhs x.1 x.2)) :=
      h.clearFamily hfam fun f hf => Regs.write_of_ne hf
    show Knows lits (cpTransfer st ⟨text, .assign, some (name, fam), readFamilies rhs, some rhs,
      loads, false, origin⟩) (x.1.write name fam (M.expr rhs x.1 x.2))
    simp only [cpTransfer, Option.map_some, htrim]
    simp only [Stmt.Followed, Stmt.act] at hfollow
    by_cases himm : isImmediate rhs = true
    · rw [if_pos himm]
      refine hclear.insert ⟨fam, hfam, ?_⟩ (hlits rhs rfl himm)
      rw [Regs.read_write_self, M.expr_literal himm]
    · rw [if_neg himm]
      split_ifs with hreg
      · cases hlookup : (Dataflow.clearFamily st name).lookup rhs with
        | none => exact hclear
        | some v =>
          -- The register copied is of another family, and what it holds is known.
          have hmem := mem_of_lookup hlookup
          have hsrc : (rhs, v) ∈ st := by
            rw [Dataflow.clearFamily, hfam] at hmem
            exact (List.mem_filter.mp hmem).1
          obtain ⟨hholds, hlit⟩ := h _ hsrc
          refine hclear.insert (HoldsLiteral.copy hfam hholds ?_) hlit
          obtain ⟨f, hf⟩ := Option.isSome_iff_exists.mp hreg
          exact (hfollow f hf).imp_right fun hall => hall v hlit
      · exact hclear
  | @take name fam _ hfam =>
    by_cases hpop : " = pop();".toList.isSuffixOf (trim text) = true
    · have hact : Stmt.act ⟨text, .keep, some (name, fam), reads, none, false, false, origin⟩
          = .take name fam := if_pos hpop
      rw [Machine.step, hact]
      exact h.clearFamily hfam fun f hf => Regs.write_of_ne hf
    · have hact : Stmt.act ⟨text, .keep, some (name, fam), reads, none, false, false, origin⟩
          = .unknown := if_neg hpop
      simp only [Stmt.Followed, hact, reduceCtorEq] at hfollow

theorem Knows.run {ss : List Stmt} (hss : ∀ s ∈ ss, s.Parsed ∧ s.Followed lits ∧
      ∀ lit, s.rhs = some lit → isImmediate lit = true → lits lit) (h : Knows lits st x.1) :
    Knows lits (ss.foldl cpTransfer st) (M.run x ss).1 := by
  induction ss generalizing st x with
  | nil => exact h
  | cons s ss ih =>
    obtain ⟨⟨hs, hfollow, hlits⟩, hss⟩ := List.forall_mem_cons.mp hss
    exact ih hss (h.transfer hs hfollow hlits)

end

/-! ### Sweeps -/

section
variable (stmts : List (List Stmt)) (preds : ℕ → List ℕ) (entry : ℕ)

def sweepsSettle : ℕ → ConstStates → Bool
  | 0, _ => false
  | guard + 1, st =>
    let r := constSweep stmts preds entry st
    !r.2 || sweepsSettle guard r.1

def ConstStates.unknown (n : ℕ) : ConstStates := ⟨List.replicate n none, List.replicate n []⟩

/-- The states of a function in which another sweep finds nothing to change. -/
structure SweptOut (st : ConstStates) : Prop where
  ins : ∀ i < stmts.length, st.ins.getD i [] = constIn preds entry st.outs i
  outs : ∀ i < stmts.length, (st.outs.getD i none).any
    (ConstState.same · ((stmts.getD i []).foldl cpTransfer (constIn preds entry st.outs i))) = true

variable {stmts preds entry}

theorem sweepBlock_length (st : ConstStates × Bool) (i : ℕ) :
    (sweepBlock stmts preds entry st i).1.ins.length = st.1.ins.length := by
  rw [sweepBlock]
  split_ifs
  · exact List.length_set
  · exact List.length_set

theorem sweepBlock_changed (st : ConstStates) (i : ℕ) :
    (sweepBlock stmts preds entry (st, true) i).2 = true := by
  rw [sweepBlock]
  split_ifs
  · rfl
  · rfl

theorem foldl_sweepBlock_changed (l : List ℕ) (st : ConstStates × Bool) (h : st.2 = true) :
    (l.foldl (sweepBlock stmts preds entry) st).2 = true := by
  induction l generalizing st with
  | nil => exact h
  | cons i l ih =>
    obtain ⟨st, changed⟩ := st
    obtain rfl : changed = true := h
    exact ih _ (sweepBlock_changed st i)

theorem foldl_sweepBlock_unchanged (l : List ℕ) (st : ConstStates)
    (h : (l.foldl (sweepBlock stmts preds entry) (st, false)).2 = false) :
    let r := (l.foldl (sweepBlock stmts preds entry) (st, false)).1
    r.outs = st.outs ∧
      (∀ i ∈ l, (st.outs.getD i none).any (ConstState.same ·
        ((stmts.getD i []).foldl cpTransfer (constIn preds entry st.outs i))) = true) ∧
      ∀ i < st.ins.length, st.ins.getD i [] = constIn preds entry st.outs i ∨ i ∈ l →
        r.ins.getD i [] = constIn preds entry st.outs i := by
  induction l generalizing st with
  | nil => exact ⟨rfl, nofun, fun i _ hi => hi.resolve_right List.not_mem_nil⟩
  | cons b l ih =>
    rw [List.foldl_cons] at h ⊢
    by_cases hsame : (st.outs.getD b none).any (ConstState.same ·
        ((stmts.getD b []).foldl cpTransfer (constIn preds entry st.outs b))) = true
    · have hstep : sweepBlock stmts preds entry (st, false) b
          = (⟨st.outs, st.ins.set b (constIn preds entry st.outs b)⟩, false) := if_pos hsame
      rw [hstep] at h ⊢
      obtain ⟨houts, hall, hins⟩ := ih _ h
      refine ⟨houts, List.forall_mem_cons.mpr ⟨hsame, hall⟩, fun i hi hold => ?_⟩
      refine hins i (by rwa [List.length_set]) ?_
      by_cases hib : i = b
      · subst hib
        left
        simp [hi]
      · refine hold.imp (fun hget => ?_) fun hmem => (List.mem_cons.mp hmem).resolve_left hib
        rw [← hget]
        simp [List.getElem?_set_ne (Ne.symm hib)]
    · -- A change is remembered to the end.
      have hstep : (sweepBlock stmts preds entry (st, false) b).2 = true := by
        rw [sweepBlock]
        exact congrArg Prod.snd (if_neg hsame)
      rw [foldl_sweepBlock_changed l _ hstep] at h
      cases h

theorem constSweep_length (st : ConstStates) :
    (constSweep stmts preds entry st).1.ins.length = st.ins.length := by
  have hfold : ∀ (l : List ℕ) (st : ConstStates × Bool),
      (l.foldl (sweepBlock stmts preds entry) st).1.ins.length = st.1.ins.length := by
    intro l
    induction l with
    | nil => exact fun st => rfl
    | cons i l ih => exact fun st => (ih _).trans (sweepBlock_length st i)
  exact hfold _ (st, false)

theorem constSweeps_length (guard : ℕ) (st : ConstStates) :
    (constSweeps stmts preds entry guard st).ins.length = st.ins.length := by
  induction guard generalizing st with
  | zero => rfl
  | succ guard ih =>
    rw [constSweeps]
    split_ifs
    · exact (ih _).trans (constSweep_length st)
    · exact constSweep_length st

theorem constSweeps_sweptOut {guard : ℕ} {st : ConstStates} (hlen : st.ins.length = stmts.length)
    (h : sweepsSettle stmts preds entry guard st = true) :
    SweptOut stmts preds entry (constSweeps stmts preds entry guard st) := by
  induction guard generalizing st with
  | zero => cases h
  | succ guard ih =>
    rw [constSweeps]
    rw [sweepsSettle] at h
    have hlen' : (constSweep stmts preds entry st).1.ins.length = stmts.length :=
      (constSweep_length st).trans hlen
    cases hchanged : (constSweep stmts preds entry st).2 with
    | true =>
      rw [hchanged] at h
      exact ih hlen' h
    | false =>
      obtain ⟨houts, hall, hins⟩ := foldl_sweepBlock_unchanged _ st hchanged
      refine ⟨fun i hi => ?_, fun i hi => ?_⟩
      · exact (hins i (hlen ▸ hi) (.inr (List.mem_range.mpr hi))).trans
          (congrArg (constIn preds entry · i) houts.symm)
      · have hout := hall i (List.mem_range.mpr hi)
        rw [← houts] at hout
        exact hout

end

/-! ### Paths -/

theorem mem_foldl_cpMeet {kv : Text × Text} {rest : List ConstState} {po : ConstState}
    (h : kv ∈ rest.foldl cpMeet po) : kv ∈ po ∧ ∀ o ∈ rest, o.lookup kv.1 = some kv.2 := by
  induction rest generalizing po with
  | nil => exact ⟨h, nofun⟩
  | cons o rest ih =>
    obtain ⟨hmeet, hrest⟩ := ih h
    obtain ⟨hpo, ho⟩ := List.mem_filter.mp hmeet
    exact ⟨hpo, List.forall_mem_cons.mpr ⟨eq_of_beq ho, hrest⟩⟩

theorem mem_of_mem_constIn {preds : ℕ → List ℕ} {entry i p : ℕ} {outs : List (Option ConstState)}
    {o : ConstState} {kv : Text × Text} (h : kv ∈ constIn preds entry outs i) (hp : p ∈ preds i)
    (ho : outs.getD p none = some o) : kv ∈ o := by
  rw [constIn] at h
  split_ifs at h
  · cases h
  · have hmem : o ∈ (preds i).filterMap fun p => outs.getD p none :=
      List.mem_filterMap.mpr ⟨p, hp, ho⟩
    split at h
    · cases h
    · rename_i po rest hlist
      rw [hlist] at hmem
      obtain ⟨hpo, hrest⟩ := mem_foldl_cpMeet h
      rcases List.mem_cons.mp hmem with rfl | hmem
      · exact hpo
      · exact mem_of_lookup (hrest o hmem)

theorem mem_of_same {a b : ConstState} {kv : Text × Text} (h : a.same b = true) (hkv : kv ∈ a) :
    kv ∈ b := by
  have hall := List.all_eq_true.mp (Bool.and_eq_true_iff.mp h).2 kv hkv
  exact mem_of_lookup (eq_of_beq hall)

section
variable (stmts : List (List Stmt)) (succ : List (List ℕ)) (entry : ℕ)

def assigns (lit : Text) : Prop :=
  isImmediate lit = true ∧ ∃ block ∈ stmts, ∃ s ∈ block, s.rhs = some lit

/-- The states at the start of blocks that a run from the entry comes to, over lines that are
followed. -/
inductive Visits (M : Machine) : ℕ → Regs × M.World → Prop
  | entry (x : Regs × M.World) : Visits M entry x
  | next {i j : ℕ} {x : Regs × M.World} : Visits M i x →
    (∀ s ∈ stmts.getD i [], s.Followed (assigns stmts)) → j ∈ succ.getD i [] →
    Visits M j (M.run x (stmts.getD i []))

def ConstSettles : Prop :=
  sweepsSettle stmts (predsOf succ) entry 200 (.unknown stmts.length) = true

instance : Decidable (ConstSettles stmts succ entry) := inferInstanceAs (Decidable (_ = true))

def constStates : ConstStates :=
  constSweeps stmts (predsOf succ) entry 200 (.unknown stmts.length)

def constAt (i k : ℕ) : ConstState :=
  ((stmts.getD i []).take k).foldl cpTransfer ((constStates stmts succ entry).ins.getD i [])

variable {stmts succ entry}

theorem followed_lines {i : ℕ} (hparsed : ∀ block ∈ stmts, ∀ s ∈ block, s.Parsed) {ss : List Stmt}
    (hsub : ∀ s ∈ ss, s ∈ stmts.getD i []) (hfollow : ∀ s ∈ ss, s.Followed (assigns stmts)) :
    ∀ s ∈ ss, s.Parsed ∧ s.Followed (assigns stmts) ∧
      ∀ lit, s.rhs = some lit → isImmediate lit = true → assigns stmts lit := by
  intro s hs
  have hblock : stmts.getD i [] ∈ stmts := by
    have hmem := hsub s hs
    rw [List.getD_eq_getElem?_getD] at hmem ⊢
    cases hget : stmts[i]? with
    | none =>
      rw [hget] at hmem
      cases hmem
    | some block => exact List.mem_of_getElem? hget
  exact ⟨hparsed _ hblock s (hsub s hs), hfollow s hs, fun lit hrhs himm =>
    ⟨himm, _, hblock, s, hsub s hs, hrhs⟩⟩

theorem knows_of_visits {M : Machine} (hlen : succ.length ≤ stmts.length)
    (hparsed : ∀ block ∈ stmts, ∀ s ∈ block, s.Parsed) (hsettle : ConstSettles stmts succ entry)
    {i : ℕ} {x : Regs × M.World} (h : Visits stmts succ entry M i x) :
    Knows (assigns stmts) ((constStates stmts succ entry).ins.getD i []) x.1 := by
  have hlength : (ConstStates.unknown stmts.length).ins.length = stmts.length :=
    List.length_replicate
  have hswept : SweptOut stmts (predsOf succ) entry (constStates stmts succ entry) :=
    constSweeps_sweptOut hlength hsettle
  have hbeyond : ∀ j, stmts.length ≤ j → (constStates stmts succ entry).ins.getD j [] = [] := by
    intro j hj
    have hcount : (constStates stmts succ entry).ins.length = stmts.length :=
      (constSweeps_length 200 _).trans hlength
    rw [List.getD_eq_getElem?_getD, List.getElem?_eq_none (by omega), Option.getD_none]
  induction h with
  | entry x =>
    by_cases hentry : entry < stmts.length
    · rw [hswept.ins entry hentry, constIn, if_pos rfl]
      exact Knows.nil
    · rw [hbeyond entry (by omega)]
      exact Knows.nil
  | @next i j x hx hfollow hj ih =>
    by_cases hjn : j < stmts.length
    · have hi : i < stmts.length := by
        by_contra hge
        rw [List.getD_eq_getElem?_getD, List.getElem?_eq_none (by omega)] at hj
        cases hj
      have hrun := ih.run (followed_lines hparsed (fun s hs => hs) hfollow)
      -- What holds before `j` holds after `i`, as the sweep without a change has seen.
      rw [hswept.ins i hi] at hrun
      obtain ⟨o, ho, hsame⟩ := (Option.any_eq_true _ _).mp (hswept.outs i hi)
      refine hrun.mono fun kv hkv => mem_of_same hsame ?_
      rw [hswept.ins j hjn] at hkv
      exact mem_of_mem_constIn hkv (mem_predsOf.mpr hj) ho
    · rw [hbeyond j (by omega)]
      exact Knows.nil

theorem rewriteBlock_append (st : ConstState) (pre : List Stmt) (s : Stmt) (post : List Stmt) :
    (rewriteBlock st (pre ++ s :: post))[pre.length]? =
      let new := cpSubst s.text (pre.foldl cpTransfer st)
      some (if new = s.text then s else { parseStmt new with origin := s.origin }) := by
  induction pre generalizing st with
  | nil => rfl
  | cons t pre ih => exact ih (cpTransfer st t)

end

/-- Where the sweeps settle, a line is rewritten by what holds before it on every path to it over
lines that are followed. -/
theorem const_propagate_sound (stmts : List (List Stmt)) (succ : List (List ℕ)) (entry : ℕ)
    (hparsed : ∀ block ∈ stmts, ∀ s ∈ block, s.Parsed) (hlen : succ.length ≤ stmts.length)
    (hsettle : ConstSettles stmts succ entry) {M : Machine} {i : ℕ} {x : Regs × M.World}
    (hvisit : Visits stmts succ entry M i x) {pre post : List Stmt} {s : Stmt}
    (hblock : stmts.getD i [] = pre ++ s :: post)
    (hfollow : ∀ t ∈ pre, t.Followed (assigns stmts)) :
    (∀ name lit, (name, lit) ∈ constAt stmts succ entry i pre.length →
      HoldsLiteral (M.run x pre).1 name lit) ∧
    ((constPropagate stmts succ entry).getD i [])[pre.length]? =
      let new := cpSubst s.text (constAt stmts succ entry i pre.length)
      some (if new = s.text then s else { parseStmt new with origin := s.origin }) := by
  have htake : (stmts.getD i []).take pre.length = pre := by rw [hblock, List.take_left]
  have hi : i < stmts.length := by
    by_contra hge
    rw [List.getD_eq_getElem?_getD, List.getElem?_eq_none (by omega)] at hblock
    exact absurd hblock.symm (by simp)
  rw [constAt, htake]
  constructor
  · have hpre := (knows_of_visits hlen hparsed hsettle hvisit).run (followed_lines hparsed
      (fun t ht => hblock ▸ List.mem_append_left _ ht) hfollow)
    exact fun name lit hmem => (hpre _ hmem).1
  · have hget : (constPropagate stmts succ entry).getD i [] =
        rewriteBlock ((constStates stmts succ entry).ins.getD i []) (stmts.getD i []) := by
      rw [constPropagate, List.getD_eq_getElem?_getD, List.getElem?_map, List.getElem?_range hi]
      rfl
    rw [hget, hblock]
    exact rewriteBlock_append _ pre s post

/-- A constant that reaches the next block. -/
theorem const_propagate_sound_next :
    let block := [parseStmt "ecx = 5;".toList]
    HoldsLiteral (plain.run (fun _ => 0, ()) block).1 "ecx".toList "5".toList ∧
      (constPropagate [block, [parseStmt "edx = ecx;".toList]] [[1], []] 0).getD 1 []
        = [parseStmt "edx = 5;".toList] := by
  have hact : (parseStmt "ecx = 5;".toList).act = .assign "ecx".toList .rcx "5".toList := by
    decide +kernel
  have hnone : regFamily "5".toList = none := by decide +kernel
  have hrun :
      let stmts := [[parseStmt "ecx = 5;".toList], [parseStmt "edx = ecx;".toList]]
      ConstSettles stmts [[1], []] 0 ∧
        ("ecx".toList, "5".toList) ∈ constAt stmts [[1], []] 0 1 0 ∧
        (constPropagate stmts [[1], []] 0).getD 1 [] = [parseStmt "edx = 5;".toList] := by
    decide +kernel
  have hparsed₁ := parsed_parseStmt "ecx = 5;".toList
  have hparsed₂ := parsed_parseStmt "edx = ecx;".toList
  show HoldsLiteral (plain.run (fun _ => 0, ()) [parseStmt "ecx = 5;".toList]).1 "ecx".toList
      "5".toList ∧
    (constPropagate [[parseStmt "ecx = 5;".toList], [parseStmt "edx = ecx;".toList]]
      [[1], []] 0).getD 1 [] = [parseStmt "edx = 5;".toList]
  -- From here on all that counts of the lines is what has been found of them.
  generalize parseStmt "ecx = 5;".toList = s at *
  generalize parseStmt "edx = ecx;".toList = t at *
  obtain ⟨hsettle, hin, hout⟩ := hrun
  have hfollow : ∀ r ∈ [s], r.Followed (assigns [[s], [t]]) := by
    intro r hr
    obtain rfl := List.mem_singleton.mp hr
    rw [Stmt.Followed, hact]
    intro fam hfam
    rw [hnone] at hfam
    cases hfam
  have hparsed : ∀ b ∈ [[s], [t]], ∀ r ∈ b, r.Parsed := by
    simp only [List.forall_mem_cons]
    exact ⟨⟨hparsed₁, List.forall_mem_nil _⟩, ⟨hparsed₂, List.forall_mem_nil _⟩,
      List.forall_mem_nil _⟩
  have hvisit : Visits [[s], [t]] [[1], []] 0 plain 1 (plain.run (fun _ => 0, ()) [s]) :=
    .next (.entry _) hfollow List.mem_cons_self
  have hblock : [[s], [t]].getD 1 [] = [] ++ t :: [] := rfl
  obtain ⟨hholds, -⟩ := const_propagate_sound [[s], [t]] [[1], []] 0 hparsed le_rfl hsettle
    hvisit hblock (List.forall_mem_nil _)
  have hline := hholds _ _ hin
  rw [Machine.run] at hline
  exact ⟨hline, hout⟩

/-- A call through memory is not taken for one: what `ecx` held before is put in place of what the
callee left there. -/
theorem const_propagate_sound_not :
    let block := ["ecx = 5;", "(*(eax))();"].map fun t => parseStmt t.toList
    let use := parseStmt "edx = ecx;".toList
    (constPropagate [block ++ [use]] [[]] 0).getD 0 [] = block ++ [parseStmt "edx = 5;".toList] ∧
      ¬∀ (M : Machine) (x : Regs × M.World), Visits [block ++ [use]] [[]] 0 M 0 x →
        HoldsLiteral (M.run x block).1 "ecx".toList "5".toList := by
  refine ⟨by decide +kernel, fun h => ?_⟩
  obtain ⟨fam, hfam, hread⟩ := h plain (fun _ => 0, ()) (.entry _)
  obtain rfl : fam = .rcx := Option.some.inj (hfam.symm.trans (by decide +kernel))
  exact absurd hread (by decide +kernel)

end Dataflow
end Aret
