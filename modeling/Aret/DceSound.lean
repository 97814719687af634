/-
When dead assignments of the text pipeline are dead.
-/
import Aret.DataflowLive
import Aret.DataflowRun

namespace Aret
namespace Dataflow

/-! ### What a line depends on -/

namespace Stmt

def looksAt (s : Stmt) (r : RegFamily) : Prop :=
  match s.act with
  | .skip | .take .. => False
  | .assign _ _ rhs => r ∈ readFamilies rhs
  | .update .. | .effect => r ∈ readFamilies s.text
  | .call => r ∈ readFamilies s.text ∨ r ∈ argRegs
  | .unknown => True

def overwrites (s : Stmt) (r : RegFamily) : Prop :=
  match s.act with
  | .assign name fam _ | .take name fam | .update name fam => r = fam ∧ isPart name = false
  | .call => r = .rax
  | .skip | .effect | .unknown => False

end Stmt

section
variable {M : Machine} {σ σ' : Regs} {w : M.World} {s : Stmt}

theorem Regs.write_agree {name : Text} {fam r : RegFamily} {v : ℕ}
    (h : (r = fam ∧ isPart name = false) ∨ σ r = σ' r) :
    σ.write name fam v r = σ'.write name fam v r := by
  by_cases hr : r = fam
  · subst hr
    rw [Regs.write_self, Regs.write_self]
    split_ifs with hpart
    · rcases h with ⟨-, hfull⟩ | h
      · rw [hfull] at hpart
        cases hpart
      · rw [h]
    · rfl
  · rw [Regs.write_of_ne hr, Regs.write_of_ne hr]
    exact h.resolve_left fun hrf => hr hrf.1

theorem Machine.step_agree (h : ∀ r, s.looksAt r → σ r = σ' r) :
    (M.step (σ, w) s).2 = (M.step (σ', w) s).2 ∧
      ∀ r, s.overwrites r ∨ σ r = σ' r → (M.step (σ, w) s).1 r = (M.step (σ', w) s).1 r := by
  rw [Machine.step, Machine.step]
  simp only [Stmt.looksAt] at h
  simp only [Stmt.overwrites]
  cases hact : s.act with
  | skip => exact ⟨rfl, fun r hr => hr.resolve_left not_false⟩
  | assign name fam rhs =>
    simp only [hact] at h ⊢
    have hvalue := M.expr_congr (w := w) h
    refine ⟨trivial, fun r hr => ?_⟩
    rw [hvalue]
    exact Regs.write_agree hr
  | update name fam =>
    simp only [hact] at h ⊢
    have hvalue := M.update_congr (w := w) h
    refine ⟨trivial, fun r hr => ?_⟩
    rw [hvalue]
    exact Regs.write_agree hr
  | take name fam => exact ⟨rfl, fun r hr => Regs.write_agree hr⟩
  | call =>
    simp only [hact] at h ⊢
    have hcall := M.call_congr (w := w) (fun r hr => h r (.inl hr)) fun r hr => h r (.inr hr)
    rw [hcall]
    refine ⟨rfl, fun r hr => ?_⟩
    split_ifs with hclobber
    · rcases hr with rfl | hr
      · exact M.call_result _ _
      · rw [hr]
    · rcases hr with rfl | hr
      · exact absurd (by decide) hclobber
      · exact hr
  | effect =>
    simp only [hact] at h ⊢
    exact ⟨M.effect_congr h, fun r hr => hr.resolve_left not_false⟩
  | unknown =>
    simp only [hact] at h ⊢
    obtain rfl : σ = σ' := funext fun r => h r trivial
    exact ⟨rfl, fun r _ => rfl⟩

end

/-! ### Lines that are misread -/

/-- The lines that leave live sets too small: a write to part of a register that is not read, a
call that is not taken for one, a line taken for a call that is none, and what is not printed
by the lifter. -/
def Stmt.Misread (s : Stmt) (live : Finset RegFamily) : Prop :=
  match s.act with
  | .assign name fam _ => isPart name = true ∧ fam ∈ live ∧ fam ∉ s.reads
  | .call => s.isCall = false ∧ ∃ r ∈ argRegs, r ∉ live ∧ r ∉ s.reads
  | .effect => s.isCall = true ∧ .rax ∈ live ∧ .rax ∉ s.reads
  | .unknown => ∃ r, r ∉ live ∧ r ∉ s.reads
  | .skip | .update .. | .take .. => False

/-- Before a line that stays, what it uses is live, and what it does not overwrite of what is live
after it. -/
theorem Stmt.Parsed.live_before {s : Stmt} (hs : s.Parsed) {live : Finset RegFamily}
    (hkept : (dceStmt s live).1 = false) (h : ¬s.Misread live) :
    (∀ r, s.looksAt r → r ∈ (dceStmt s live).2) ∧
      ∀ r ∈ live, s.overwrites r ∨ r ∈ (dceStmt s live).2 := by
  have hshape := hs.shape
  obtain ⟨text, kind, write, reads, rhs, loads, isCall, origin⟩ := s
  dsimp only at hshape
  cases hshape with
  | comment hcomment =>
    simp [Stmt.looksAt, Stmt.overwrites, Stmt.act, hcomment, dceStmt]
  | asm =>
    simp only [Stmt.Misread, Stmt.act] at h
    simp only [not_exists, not_and, not_not] at h
    simp only [dceStmt, Finset.mem_union, List.mem_toFinset]
    refine ⟨fun r _ => ?_, fun r hr => .inr (.inl hr)⟩
    by_cases hr : r ∈ live
    · exact .inl hr
    · exact .inr (h r hr)
  | other hcomment hreads hargs =>
    simp only [Stmt.Misread, Stmt.act, hcomment] at h
    simp only [Stmt.looksAt, Stmt.overwrites, Stmt.act, hcomment, dceStmt, Finset.mem_union,
      List.mem_toFinset]
    cases hline : isCallLine text with
    | true =>
      simp only [hline, Bool.false_eq_true, if_false, if_true, not_and, not_exists, not_not] at h ⊢
      refine ⟨fun r hr => ?_, fun r hr => ?_⟩
      · rcases hr with hr | hr
        · exact .inr (hreads r hr)
        · cases hcall : isCall with
          | true => exact .inr (hargs hcall r hr)
          | false =>
            rw [if_neg nofun]
            by_cases hlive : r ∈ live
            · exact .inl hlive
            · exact .inr (h hcall r hr hlive)
      · by_cases hrax : r = .rax
        · exact .inl hrax
        · refine .inr (.inl ?_)
          split_ifs
          · exact Finset.mem_sdiff.mpr ⟨hr, by simpa [callKills] using hrax⟩
          · exact hr
    | false =>
      simp only [hline, Bool.false_eq_true, if_false, not_and, not_not] at h ⊢
      refine ⟨fun r hr => .inr (hreads r hr), fun r hr => .inr ?_⟩
      split_ifs with hcall
      · by_cases hrax : r = .rax
        · subst hrax
          exact .inr (h hcall hr)
        · exact .inl (Finset.mem_sdiff.mpr ⟨hr, by simpa [callKills] using hrax⟩)
      · exact .inl hr
  | @compound name fam _ hfam hreads hmem =>
    simp only [dceStmt, reduceCtorEq, if_false] at hkept ⊢
    split_ifs at hkept ⊢ with hdead
    simp only [Stmt.looksAt, Stmt.overwrites, Stmt.act, Finset.mem_union, List.mem_toFinset]
    exact ⟨fun r hr => .inr (hreads r hr), fun r hr => .inr (.inl hr)⟩
  | @assign name fam rhs _ hfam _ =>
    simp only [dceStmt, if_true] at hkept ⊢
    split_ifs at hkept ⊢ with hdead
    simp only [Stmt.Misread, Stmt.act, not_and, not_not] at h
    simp only [Stmt.looksAt, Stmt.overwrites, Stmt.act, Finset.mem_union, Finset.mem_erase,
      List.mem_toFinset]
    refine ⟨fun r hr => .inr hr, fun r hr => ?_⟩
    by_cases hrf : r = fam
    · subst hrf
      cases hpart : isPart name with
      | false => exact .inl ⟨rfl, rfl⟩
      | true => exact .inr (.inr (h hpart hr))
    · exact .inr (.inl ⟨hrf, hr⟩)
  | @take name fam _ hfam =>
    simp only [Stmt.Misread, Stmt.act] at h
    simp only [Stmt.looksAt, Stmt.overwrites, Stmt.act, dceStmt, Finset.mem_union,
      List.mem_toFinset]
    refine ⟨fun r hr => ?_, fun r hr => .inr (.inl hr)⟩
    by_cases hpop : " = pop();".toList.isSuffixOf (trim text) = true
    · rw [if_pos hpop] at hr
      exact hr.elim
    · rw [if_neg hpop] at h
      simp only [not_exists, not_and, not_not] at h
      by_cases hlive : r ∈ live
      · exact .inl hlive
      · exact .inr (h r hlive)

/-! ### A block -/

def Agree (live : Finset RegFamily) (σ σ' : Regs) : Prop := ∀ r ∈ live, σ r = σ' r

def ReadsRight (block : List Stmt) (liveOut : Finset RegFamily) : Prop :=
  ∀ pre s post, block = pre ++ s :: post → (dceStmt s (dceMarks post liveOut).2).1 = false →
    ¬s.Misread (dceMarks post liveOut).2

theorem ReadsRight.tail {s : Stmt} {block : List Stmt} {liveOut : Finset RegFamily}
    (h : ReadsRight (s :: block) liveOut) : ReadsRight block liveOut := fun pre t post heq =>
  h (s :: pre) t post (congrArg (s :: ·) heq)

theorem step_dead {M : Machine} {s : Stmt} {live : Finset RegFamily} (hs : s.Parsed)
    (hdead : (dceStmt s live).1 = true) (σ : Regs) (w : M.World) :
    (dceStmt s live).2 = live ∧ (M.step (σ, w) s).2 = w ∧ Agree live (M.step (σ, w) s).1 σ := by
  have hshape := hs.shape
  obtain ⟨text, kind, write, reads, rhs, loads, isCall, origin⟩ := s
  dsimp only at hshape
  have hwrite : ∀ {name : Text} {fam : RegFamily} {v : ℕ}, fam ∉ live →
      Agree live (σ.write name fam v) σ := by
    intro name fam v hfam r hr
    refine Regs.write_of_ne ?_
    rintro rfl
    exact hfam hr
  cases hshape with
  | comment _ => cases hdead
  | asm => cases hdead
  | other _ _ _ => cases hdead
  | take _ _ => cases hdead
  | compound hfam hreads hmem =>
    simp only [dceStmt, reduceCtorEq, if_false] at hdead ⊢
    split_ifs at hdead ⊢ with hnot
    · exact ⟨rfl, rfl, hwrite hnot⟩
  | assign _ _ hfam _ =>
    simp only [dceStmt, if_true] at hdead ⊢
    split_ifs at hdead ⊢ with hnot
    · exact ⟨rfl, rfl, hwrite hnot⟩

theorem run_dce {M : Machine} {block : List Stmt} {liveOut : Finset RegFamily}
    (hblock : ∀ s ∈ block, s.Parsed) (h : ReadsRight block liveOut) {σ σ' : Regs} {w : M.World}
    (hagree : Agree (dceMarks block liveOut).2 σ σ') :
    (M.run (σ, w) block).2 = (M.run (σ', w) (dce block liveOut).1).2 ∧
      Agree liveOut (M.run (σ, w) block).1 (M.run (σ', w) (dce block liveOut).1).1 := by
  induction block generalizing σ σ' w with
  | nil => exact ⟨rfl, hagree⟩
  | cons s block ih =>
    obtain ⟨hs, hblock⟩ := List.forall_mem_cons.mp hblock
    set live := (dceMarks block liveOut).2
    have hmarks : dceMarks (s :: block) liveOut
        = ((dceStmt s live).1 :: (dceMarks block liveOut).1, (dceStmt s live).2) := rfl
    rw [hmarks] at hagree
    cases hdead : (dceStmt s live).1 with
    | true =>
      -- The line is left out, and what it writes is not live.
      have hrest : (dce (s :: block) liveOut).1 = (dce block liveOut).1 := by
        rw [dce, dce, hmarks, hdead]
        rfl
      obtain ⟨hsame, hworld, hregs⟩ := step_dead hs hdead σ w
      rw [hsame] at hagree
      have hnext := ih hblock h.tail (w := w) fun r hr => (hregs r hr).trans (hagree r hr)
      rw [hrest]
      have hstep : M.step (σ, w) s = ((M.step (σ, w) s).1, w) := Prod.ext rfl hworld
      rw [Machine.run, List.foldl_cons, hstep]
      exact hnext
    | false =>
      have hrest : (dce (s :: block) liveOut).1 = s :: (dce block liveOut).1 := by
        rw [dce, dce, hmarks, hdead]
        rfl
      obtain ⟨hlooks, hkeeps⟩ := hs.live_before hdead (h [] s block rfl hdead)
      obtain ⟨hworld, hregs⟩ := Machine.step_agree (M := M) (w := w)
        fun r hr => hagree r (hlooks r hr)
      have hnext := ih hblock h.tail (w := (M.step (σ, w) s).2) fun r hr =>
        hregs r ((hkeeps r hr).imp_right (hagree r))
      rw [hrest, Machine.run, Machine.run, List.foldl_cons, List.foldl_cons]
      have hstep : M.step (σ', w) s = ((M.step (σ', w) s).1, (M.step (σ, w) s).2) :=
        Prod.ext rfl hworld.symm
      rw [hstep]
      exact hnext

/-! ### A function -/

/-- The lines whose uses and definitions are counted wrong, whatever is live. -/
def Stmt.Misjudged (s : Stmt) : Prop :=
  match s.act with
  | .assign name fam _ | .take name fam => isPart name = true ∧ fam ∉ s.reads
  | .call => s.isCall = false ∧ ∃ r ∈ argRegs, r ∉ s.reads
  | .effect => s.isCall = true ∧ .rax ∉ s.reads
  | .unknown => True
  | .skip | .update .. => False

theorem Stmt.Parsed.reads_defs {s : Stmt} (hs : s.Parsed) (h : ¬s.Misjudged) :
    (∀ r, s.looksAt r → r ∈ s.reads) ∧ ∀ r ∈ s.defs, s.overwrites r ∨ r ∈ s.reads := by
  have hshape := hs.shape
  obtain ⟨text, kind, write, reads, rhs, loads, isCall, origin⟩ := s
  dsimp only at hshape
  have hpart : ∀ {name : Text} {fam r : RegFamily}, ¬(isPart name = true ∧ fam ∉ reads) → r = fam →
      (r = fam ∧ isPart name = false) ∨ r ∈ reads := by
    intro name fam r hnot hr
    cases hname : isPart name with
    | false => exact .inl ⟨hr, rfl⟩
    | true => exact .inr (hr ▸ not_not.mp fun hmem => hnot ⟨hname, hmem⟩)
  cases hshape with
  | comment hcomment =>
    simp [Stmt.looksAt, Stmt.defs, Stmt.act, hcomment]
  | asm => exact absurd trivial h
  | other hcomment hreads hargs =>
    simp only [Stmt.Misjudged, Stmt.act, hcomment] at h
    simp only [Stmt.looksAt, Stmt.overwrites, Stmt.act, hcomment, Stmt.defs]
    cases hline : isCallLine text with
    | true =>
      simp only [hline, Bool.false_eq_true, if_false, if_true, not_and, not_exists, not_not] at h ⊢
      refine ⟨fun r hr => ?_, fun r hr => ?_⟩
      · rcases hr with hr | hr
        · exact hreads r hr
        · cases hcall : isCall with
          | true => exact hargs hcall r hr
          | false => exact h hcall r hr
      · split_ifs at hr
        · exact .inl (List.mem_singleton.mp hr)
        · cases hr
    | false =>
      simp only [hline, Bool.false_eq_true, if_false, not_and, not_not] at h ⊢
      refine ⟨hreads, fun r hr => .inr ?_⟩
      split_ifs at hr with hcall
      · rw [List.mem_singleton.mp hr]
        exact h hcall
      · cases hr
  | @compound name fam _ hfam hreads hmem =>
    refine ⟨hreads, fun r hr => .inr ?_⟩
    rw [List.mem_singleton.mp hr]
    exact hmem
  | @assign name fam rhs _ hfam _ =>
    exact ⟨fun r hr => hr, fun r hr => hpart h (List.mem_singleton.mp hr)⟩
  | @take name fam _ hfam =>
    simp only [Stmt.Misjudged, Stmt.act] at h
    simp only [Stmt.looksAt, Stmt.overwrites, Stmt.act]
    by_cases hpop : " = pop();".toList.isSuffixOf (trim text) = true
    · simp only [hpop, if_true] at h ⊢
      exact ⟨fun r hr => hr.elim, fun r hr => hpart h (List.mem_singleton.mp hr)⟩
    · simp only [hpop] at h
      exact absurd trivial h

theorem consider_open {r : RegFamily} {lines : List Stmt}
    (hlines : ∀ s ∈ lines, s.Parsed ∧ ¬s.Misjudged ∧ ¬s.overwrites r)
    (acc : Finset RegFamily × Finset RegFamily) (hacc : r ∈ acc.2 → r ∈ acc.1) :
    r ∈ (lines.foldl (fun acc s => consider acc s.reads s.defs) acc).2 →
      r ∈ (lines.foldl (fun acc s => consider acc s.reads s.defs) acc).1 := by
  induction lines generalizing acc with
  | nil => exact hacc
  | cons s lines ih =>
    obtain ⟨⟨hs, hjudged, hover⟩, hlines⟩ := List.forall_mem_cons.mp hlines
    refine ih hlines _ fun hdef => ?_
    simp only [consider, Finset.mem_union, List.mem_toFinset, List.mem_filter] at hdef ⊢
    by_cases hold : r ∈ acc.2
    · exact .inl (hacc hold)
    · have hreads := ((hs.reads_defs hjudged).2 r (hdef.resolve_left hold)).resolve_left hover
      exact .inr ⟨hreads, decide_eq_true hold⟩

theorem consider_mono (lines : List Stmt) (acc : Finset RegFamily × Finset RegFamily) :
    acc.1 ⊆ (lines.foldl (fun acc s => consider acc s.reads s.defs) acc).1 := by
  induction lines generalizing acc with
  | nil => exact Finset.Subset.refl _
  | cons s lines ih =>
    have hrest := ih (consider acc s.reads s.defs)
    exact fun r hr => hrest (Finset.mem_union_left _ hr)

theorem mem_consider {r : RegFamily} {acc : Finset RegFamily × Finset RegFamily}
    {reads defs : List RegFamily} (hacc : r ∈ acc.2 → r ∈ acc.1) (hr : r ∈ reads) :
    r ∈ (consider acc reads defs).1 := by
  simp only [consider, Finset.mem_union, List.mem_toFinset, List.mem_filter]
  by_cases hold : r ∈ acc.2
  · exact .inl (hacc hold)
  · exact .inr ⟨hr, decide_eq_true hold⟩

namespace Prepared

variable (f : Prepared)

/-- Some path from the start of the block reads the register before a line overwrites it. -/
inductive Needed (r : RegFamily) : ℕ → Prop
  | unknown {i : ℕ} : i < f.blocks.length → f.keepAll i = true → Needed r i
  | line {i : ℕ} {pre post : List Stmt} {s : Stmt} : f.stmts.getD i [] = pre ++ s :: post →
    (∀ t ∈ pre, ¬t.overwrites r) → s.looksAt r → Needed r i
  | ending {i : ℕ} : i < f.blocks.length → (∀ t ∈ f.stmts.getD i [], ¬t.overwrites r) →
    r ∈ (f.block i).endUses → Needed r i
  | next {i j : ℕ} : i < f.blocks.length → (∀ t ∈ f.stmts.getD i [], ¬t.overwrites r) →
    j ∈ f.succ.getD i [] → Needed r j → Needed r i

def JudgedRight : Prop :=
  ∀ i, f.keepAll i = false → ∀ s ∈ f.stmts.getD i [], ¬s.Misjudged

def useDefs : List (Finset RegFamily × Finset RegFamily) :=
  (f.blocks.zip f.stmts).map fun x => useDef x.1.keepAll x.2 x.1.endUses

variable {f}

theorem useDefs_getD (hlen : f.stmts.length = f.blocks.length) {i : ℕ}
    (hi : i < f.blocks.length) :
    f.useDefs.getD i (∅, ∅) = useDef (f.keepAll i) (f.stmts.getD i []) (f.block i).endUses := by
  have hi' : i < f.stmts.length := hlen ▸ hi
  have hzip : (f.blocks.zip f.stmts)[i]? = some (f.blocks[i], f.stmts[i]) :=
    List.getElem?_zip_eq_some.mpr ⟨List.getElem?_eq_getElem hi, List.getElem?_eq_getElem hi'⟩
  simp [useDefs, keepAll, block, hzip, List.getElem?_eq_getElem hi, List.getElem?_eq_getElem hi']

theorem live_of_needed (hlen : f.stmts.length = f.blocks.length)
    (hparsed : ∀ i, ∀ s ∈ f.stmts.getD i [], s.Parsed) (hlive : LiveFixed f.useDefs f.succ f.live)
    (h : f.JudgedRight) {r : RegFamily} {i : ℕ} (hneed : f.Needed r i) :
    r ∈ f.live.ins.getD i ∅ := by
  have hcount : f.useDefs.length = f.blocks.length := by
    rw [useDefs, List.length_map, List.length_zip, hlen, Nat.min_self]
  have hins : ∀ {i}, i < f.blocks.length → f.live.ins.getD i ∅ =
      (useDef (f.keepAll i) (f.stmts.getD i []) (f.block i).endUses).1 ∪
        (f.live.outs.getD i ∅ \ (useDef (f.keepAll i) (f.stmts.getD i []) (f.block i).endUses).2) := by
    intro i hi
    rw [hlive.ins i (hcount ▸ hi), liveInOf, useDefs_getD hlen hi]
  have hall : ∀ {i}, i < f.blocks.length → f.keepAll i = true → ∀ r, r ∈ f.live.ins.getD i ∅ := by
    intro i hi hkeep r
    rw [hins hi, useDef, if_pos hkeep]
    exact Finset.mem_union_left _ (Finset.mem_univ r)
  have hgood : ∀ {i : ℕ}, f.keepAll i = false → ∀ ss : List Stmt, (∀ t ∈ ss, t ∈ f.stmts.getD i []) →
      (∀ t ∈ ss, ¬t.overwrites r) → ∀ s ∈ ss, s.Parsed ∧ ¬s.Misjudged ∧ ¬s.overwrites r :=
    fun hkeep ss hsub hover s hs => ⟨hparsed _ s (hsub s hs), h _ hkeep s (hsub s hs), hover s hs⟩
  induction hneed with
  | unknown hi hkeep => exact hall hi hkeep r
  | @line i pre post s hsplit hpre hlooks =>
    have hi : i < f.blocks.length := by
      by_contra hge
      rw [List.getD_eq_getElem?_getD, List.getElem?_eq_none (by omega)] at hsplit
      exact absurd hsplit.symm (by simp)
    cases hkeep : f.keepAll i with
    | true => exact hall hi hkeep r
    | false =>
      have hs : s ∈ f.stmts.getD i [] := hsplit ▸ List.mem_append_right _ List.mem_cons_self
      have hreads := ((hparsed i s hs).reads_defs (h i hkeep s hs)).1 r hlooks
      have hopen := consider_open (hgood hkeep pre
        (fun t ht => hsplit ▸ List.mem_append_left _ ht) hpre) (∅, ∅) (fun hr => hr)
      rw [hins hi, useDef, hkeep, if_neg nofun, hsplit, List.foldl_append, List.foldl_cons]
      exact Finset.mem_union_left _ (Finset.mem_union_left _
        (consider_mono post _ (mem_consider hopen hreads)))
  | @ending i hi hover huse =>
    cases hkeep : f.keepAll i with
    | true => exact hall hi hkeep r
    | false =>
      have hopen := consider_open (hgood hkeep _ (fun t ht => ht) hover) (∅, ∅) fun hr => hr
      rw [hins hi, useDef, hkeep, if_neg nofun]
      exact Finset.mem_union_left _ (mem_consider hopen huse)
  | @next i j hi hover hj _ ih =>
    cases hkeep : f.keepAll i with
    | true => exact hall hi hkeep r
    | false =>
      have hopen := consider_open (hgood hkeep _ (fun t ht => ht) hover) (∅, ∅) fun hr => hr
      have hout : r ∈ f.live.outs.getD i ∅ := by
        rw [hlive.outs i (hcount ▸ hi)]
        exact mem_liveOutOf.mpr ⟨j, hj, ih⟩
      rw [hins hi, useDef, hkeep, if_neg nofun]
      by_cases hdef : r ∈ ((f.stmts.getD i []).foldl (fun acc s => consider acc s.reads s.defs)
          (∅, ∅)).2
      · exact Finset.mem_union_left _ (Finset.mem_union_left _ (hopen hdef))
      · refine Finset.mem_union_right _ (Finset.mem_sdiff.mpr ⟨hout, ?_⟩)
        simpa [consider] using hdef

end Prepared

/-- The dead lines of a block change nothing, if no line that stays is misread; and what is read
on a path from the end of a block is live there, if no line is misjudged. -/
theorem dce_keeps_values (block : List Stmt) (hblock : ∀ s ∈ block, s.Parsed)
    (liveOut : Finset RegFamily) (bits64 : Bool) (entry : ℕ) (blocks : List BlockText) :
    (ReadsRight block liveOut → ∀ (M : Machine) (σ : Regs) (w : M.World),
      (M.run (σ, w) block).2 = (M.run (σ, w) (dce block liveOut).1).2 ∧
        Agree liveOut (M.run (σ, w) block).1 (M.run (σ, w) (dce block liveOut).1).1) ∧
      ∃ (rounds : ℕ) (f : Prepared),
        (∀ fuel, rounds ≤ fuel → prepare? fuel bits64 entry blocks = some f) ∧
          (f.JudgedRight → ∀ i < blocks.length, ∀ r, ∀ j ∈ f.succ.getD i [], f.Needed r j →
            r ∈ f.live.outs.getD i ∅) := by
  refine ⟨fun h M σ w => run_dce hblock h fun r _ => rfl, ?_⟩
  set stmts := constPropagate (parsedBlocks blocks) (blockEdges blocks)
    ((blocks.findIdx? (·.start == entry)).getD 0) with hstmts
  obtain ⟨rounds, live, hends, hfixed⟩ := liveness?_ends
    ((blocks.zip stmts).map fun x => useDef x.1.keepAll x.2 x.1.endUses) (blockEdges blocks)
  let f : Prepared := ⟨blocks, blockEdges blocks, stmts, live, bits64⟩
  have hlen : f.stmts.length = f.blocks.length := length_constPropagate blocks _ _
  have hparsed : ∀ i, ∀ s ∈ f.stmts.getD i [], s.Parsed := fun i s hs => (mem_constPropagate hs).2
  refine ⟨rounds, f, fun fuel hfuel => ?_, fun h i hi r j hj hneed => ?_⟩
  · rw [prepare?]
    exact congrArg (Option.map _) (hends fuel hfuel)
  · have hi' : i < f.useDefs.length := by
      rw [Prepared.useDefs, List.length_map, List.length_zip, hlen, Nat.min_self]
      exact hi
    have hfixed' : LiveFixed f.useDefs f.succ f.live := hfixed
    rw [hfixed'.outs i hi']
    exact mem_liveOutOf.mpr ⟨j, hj, Prepared.live_of_needed hlen hparsed hfixed' h hneed⟩

def parsed (lines : List String) : List Stmt := lines.map fun t => parseStmt t.toList

theorem parsed_parsed (lines : List String) : ∀ s ∈ parsed lines, s.Parsed := by
  intro s hs
  obtain ⟨t, -, rfl⟩ := List.mem_map.mp hs
  exact parsed_parseStmt _

theorem readsRight_cons {s : Stmt} {block : List Stmt} {liveOut : Finset RegFamily}
    (hs : ¬s.Misread (dceMarks block liveOut).2) (h : ReadsRight block liveOut) :
    ReadsRight (s :: block) liveOut := by
  intro pre t post heq hkept
  cases pre with
  | nil =>
    obtain ⟨rfl, rfl⟩ := List.cons.inj heq
    exact hs
  | cons p pre => exact h pre t post (List.cons.inj heq).2 hkept

/-- A register that is written twice: the first write goes, and nothing changes. -/
theorem dce_keeps_values_twice :
    (dce (parsed ["eax = ecx;", "eax = 5;"]) {.rax}).1 = parsed ["eax = 5;"] ∧
      ∀ (M : Machine) (σ : Regs) (w : M.World),
        Agree {.rax} (M.run (σ, w) (parsed ["eax = ecx;", "eax = 5;"])).1
          (M.run (σ, w) (dce (parsed ["eax = ecx;", "eax = 5;"]) {.rax}).1).1 := by
  have hfull : ∀ {s : Stmt} (rhs : Text) {live : Finset RegFamily},
      s.act = .assign "eax".toList .rax rhs → ¬s.Misread live := by
    intro s rhs live hact
    rw [Stmt.Misread, hact]
    exact fun h => absurd h.1 (by decide +kernel)
  have hreads : ReadsRight (parsed ["eax = ecx;", "eax = 5;"]) {.rax} := by
    refine readsRight_cons (hfull "ecx".toList (by decide +kernel)) ?_
    refine readsRight_cons (hfull "5".toList (by decide +kernel)) ?_
    intro pre t post heq
    exact absurd heq (by simp)
  refine ⟨by decide +kernel, fun M σ w => ?_⟩
  exact ((dce_keeps_values _ (parsed_parsed _) {.rax} false 0x1000 []).1 hreads M σ w).2

/-- A write of the low byte counts as one of the whole register: what the high bytes were is
lost. -/
theorem dce_keeps_values_not :
    (dce (parsed ["eax = ecx;", "al = 5;"]) {.rax}).1 = parsed ["al = 5;"] ∧
      ¬∀ (M : Machine) (σ : Regs) (w : M.World),
        Agree {.rax} (M.run (σ, w) (parsed ["eax = ecx;", "al = 5;"])).1
          (M.run (σ, w) (dce (parsed ["eax = ecx;", "al = 5;"]) {.rax}).1).1 := by
  refine ⟨by decide +kernel, fun h => ?_⟩
  let σ : Regs := fun r => if r = .rcx then 0x100 else 0
  have hdiff : (plain.run (σ, ()) (parsed ["eax = ecx;", "al = 5;"])).1 .rax ≠
      (plain.run (σ, ()) (dce (parsed ["eax = ecx;", "al = 5;"]) {.rax}).1).1 .rax := by
    decide +kernel
  exact hdiff (h plain σ () .rax (Finset.mem_singleton_self _))

end Dataflow
end Aret
