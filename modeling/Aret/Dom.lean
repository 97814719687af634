/-
Dominators and dominance frontiers.

The graph toolkit shared by SSA construction and the structurers: reverse
postorder by an explicit stack, immediate dominators by iteration to a fixpoint
(walking two chains up to where they meet), and dominance frontiers by walking
up from every predecessor of a join.

Design notes: `UNDEF` is `none`, vectors indexed by nodes are functions, and the
loops that the code runs until they stop take a bound on their rounds.
-/
import Aret.ParentMap
import Mathlib.Data.List.Nodup
import Mathlib.Data.List.Range

namespace Aret

/-! ### Reverse postorder -/

/-- The walk: nodes seen, nodes finished (last first), and the open nodes, each
with the position of its next successor (innermost first). -/
structure Walk where
  visited : List ℕ
  post : List ℕ
  stack : List (ℕ × ℕ)

section
variable (n : ℕ) (succ : ℕ → List ℕ)

/-- One round of the loop: look at the next successor of the innermost open
node, or finish that node. -/
def Walk.step (w : Walk) : Walk :=
  match w.stack with
  | [] => w
  | (node, ci) :: rest =>
    match (succ node)[ci]? with
    | some nx =>
      if nx < n ∧ nx ∉ w.visited then
        { w with visited := nx :: w.visited, stack := (nx, 0) :: (node, ci + 1) :: rest }
      else { w with stack := (node, ci + 1) :: rest }
    | none => { w with post := node :: w.post, stack := rest }

def Walk.run (w : Walk) : ℕ → Walk
  | 0 => w
  | fuel + 1 => ((w.step n succ).run fuel)

/-- Rounds left: one for every successor still to be looked at and one to finish
each node. -/
def Walk.left (w : Walk) : ℕ :=
  (((List.range n).filter (· ∉ w.visited)).map fun v => (succ v).length + 1).sum
    + (w.stack.map fun p => (succ p.1).length - p.2 + 1).sum

/-- `reverse_postorder`: the nodes reachable from `entry`. -/
def reversePostorder (entry : ℕ) : List ℕ :=
  let w : Walk := ⟨[entry], [], [(entry, 0)]⟩
  (w.run n succ (w.left n succ)).post

end

/-- What holds of the walk all along; `order` is the reverse postorder under
construction, the open nodes before the finished ones. -/
def Walk.order (w : Walk) : List ℕ := (w.stack.map Prod.fst).reverse ++ w.post

structure Walk.Inv (n : ℕ) (succ : ℕ → List ℕ) (entry : ℕ) (w : Walk) : Prop where
  nodup : w.order.Nodup
  mem : ∀ v, v ∈ w.visited ↔ v ∈ w.order
  lt : ∀ v ∈ w.visited, v < n
  head : w.order.head? = some entry
  closed : ∀ v ∈ w.post, ∀ s ∈ succ v, s < n → s ∈ w.visited
  seen : ∀ p ∈ w.stack, ∀ s ∈ (succ p.1).take p.2, s < n → s ∈ w.visited
  earlier : ∀ v ∈ w.order, v ≠ entry → ∃ p, v ∈ succ p ∧ [p, v].Sublist w.order

section
variable {n : ℕ} {succ : ℕ → List ℕ} {entry : ℕ} {w : Walk}

theorem Walk.Inv.start (he : entry < n) :
    Walk.Inv n succ entry ⟨[entry], [], [(entry, 0)]⟩ := by
  refine ⟨?_, ?_, ?_, rfl, ?_, ?_, ?_⟩
  · simp [Walk.order]
  · simp [Walk.order]
  · intro v hv
    rwa [List.mem_singleton.mp hv]
  · simp
  · simp
  · intro v hv hne
    simp [Walk.order, hne] at hv

private theorem Walk.Inv.finish {visited post : List ℕ} {node ci : ℕ} {rest : List (ℕ × ℕ)}
    (h : Walk.Inv n succ entry ⟨visited, post, (node, ci) :: rest⟩)
    (hci : (succ node)[ci]? = none) :
    Walk.Inv n succ entry ⟨visited, node :: post, rest⟩ := by
  have horder : Walk.order ⟨visited, node :: post, rest⟩
      = Walk.order ⟨visited, post, (node, ci) :: rest⟩ := by
    simp [Walk.order]
  refine ⟨horder ▸ h.nodup, ?_, h.lt, horder ▸ h.head, ?_, ?_, ?_⟩
  · intro v
    rw [horder]
    exact h.mem v
  · intro v hv s hs hsn
    rcases List.mem_cons.mp hv with rfl | hv
    · refine h.seen (v, ci) List.mem_cons_self s ?_ hsn
      rwa [List.take_of_length_le (List.getElem?_eq_none_iff.mp hci)]
    · exact h.closed v hv s hs hsn
  · exact fun p hp => h.seen p (List.mem_cons_of_mem _ hp)
  · intro v hv hne
    rw [horder] at hv ⊢
    exact h.earlier v hv hne

private theorem take_succ_of_getElem? {l : List ℕ} {i x : ℕ} (h : l[i]? = some x) :
    l.take (i + 1) = l.take i ++ [x] := by
  rw [List.take_add_one, h]
  rfl

private theorem Walk.Inv.open {visited post : List ℕ} {node ci nx : ℕ} {rest : List (ℕ × ℕ)}
    (h : Walk.Inv n succ entry ⟨visited, post, (node, ci) :: rest⟩)
    (hnx : (succ node)[ci]? = some nx) (hlt : nx < n) (hnot : nx ∉ visited) :
    Walk.Inv n succ entry ⟨nx :: visited, post, (nx, 0) :: (node, ci + 1) :: rest⟩ := by
  set pre := (node :: rest.map Prod.fst).reverse with hpre
  have hold : Walk.order ⟨visited, post, (node, ci) :: rest⟩ = pre ++ post := rfl
  have horder : Walk.order ⟨nx :: visited, post, (nx, 0) :: (node, ci + 1) :: rest⟩
      = pre ++ nx :: post := by
    simp [Walk.order, hpre]
  have hsub : (pre ++ post).Sublist (pre ++ nx :: post) :=
    List.Sublist.append_left (List.sublist_cons_self nx post) _
  have hperm : (pre ++ nx :: post).Perm (nx :: (pre ++ post)) := List.perm_middle
  refine ⟨?_, ?_, ?_, ?_, ?_, ?_, ?_⟩
  · rw [horder, hperm.nodup_iff, List.nodup_cons, ← hold, ← h.mem nx]
    exact ⟨hnot, h.nodup⟩
  · intro v
    rw [horder, hperm.mem_iff, List.mem_cons, List.mem_cons, ← hold, ← h.mem v]
  · intro v hv
    rcases List.mem_cons.mp hv with rfl | hv
    · exact hlt
    · exact h.lt v hv
  · have hhead := h.head
    have hne : pre ≠ [] := by simp [hpre]
    rw [hold, List.head?_append_of_ne_nil _ hne] at hhead
    rw [horder, List.head?_append_of_ne_nil _ hne, hhead]
  · exact fun v hv s hs hsn => List.mem_cons_of_mem _ (h.closed v hv s hs hsn)
  · intro p hp s hs hsn
    rcases List.mem_cons.mp hp with rfl | hp
    · simp at hs
    rcases List.mem_cons.mp hp with rfl | hp
    · rw [take_succ_of_getElem? hnx] at hs
      rcases List.mem_append.mp hs with hs | hs
      · exact List.mem_cons_of_mem _ (h.seen (node, ci) List.mem_cons_self s hs hsn)
      · rw [List.mem_singleton.mp hs]
        exact List.mem_cons_self
    · exact List.mem_cons_of_mem _ (h.seen p (List.mem_cons_of_mem _ hp) s hs hsn)
  · intro v hv hne
    rw [horder] at hv ⊢
    rcases List.mem_cons.mp (hperm.mem_iff.mp hv) with rfl | hv
    · have hnode : [node].Sublist pre := by simp [hpre]
      have hv : [v].Sublist (v :: post) := by simp
      exact ⟨node, List.mem_of_getElem? hnx, hnode.append hv⟩
    · obtain ⟨p, hp, hpv⟩ := h.earlier v hv hne
      exact ⟨p, hp, hpv.trans hsub⟩

private theorem Walk.Inv.pass {visited post : List ℕ} {node ci nx : ℕ} {rest : List (ℕ × ℕ)}
    (h : Walk.Inv n succ entry ⟨visited, post, (node, ci) :: rest⟩)
    (hnx : (succ node)[ci]? = some nx) (hseen : nx < n → nx ∈ visited) :
    Walk.Inv n succ entry ⟨visited, post, (node, ci + 1) :: rest⟩ := by
  refine ⟨h.nodup, h.mem, h.lt, h.head, h.closed, ?_, h.earlier⟩
  intro p hp s hs hsn
  rcases List.mem_cons.mp hp with rfl | hp
  · rw [take_succ_of_getElem? hnx] at hs
    rcases List.mem_append.mp hs with hs | hs
    · exact h.seen (node, ci) List.mem_cons_self s hs hsn
    · rw [List.mem_singleton.mp hs] at hsn ⊢
      exact hseen hsn
  · exact h.seen p (List.mem_cons_of_mem _ hp) s hs hsn

theorem Walk.Inv.step (h : w.Inv n succ entry) : (w.step n succ).Inv n succ entry := by
  obtain ⟨visited, post, stack⟩ := w
  rcases stack with _ | ⟨⟨node, ci⟩, rest⟩
  · exact h
  cases hnx : (succ node)[ci]? with
  | none =>
    simp only [Walk.step, hnx]
    exact h.finish hnx
  | some nx =>
    simp only [Walk.step, hnx]
    split_ifs with hnew
    · exact h.open hnx hnew.1 hnew.2
    · refine h.pass hnx fun hlt => ?_
      by_contra hnot
      exact hnew ⟨hlt, hnot⟩

theorem Walk.Inv.run (h : w.Inv n succ entry) (fuel : ℕ) : (w.run n succ fuel).Inv n succ entry := by
  induction fuel generalizing w with
  | zero => exact h
  | succ fuel ih => exact ih h.step

/-! #### The walk ends -/

private theorem sum_filter_not_mem_cons {g : ℕ → ℕ} {visited : List ℕ} {x : ℕ} {l : List ℕ}
    (hl : l.Nodup) (hx : x ∈ l) (hnot : x ∉ visited) :
    ((l.filter (· ∉ x :: visited)).map g).sum + g x = ((l.filter (· ∉ visited)).map g).sum := by
  induction l with
  | nil => cases hx
  | cons y l ih =>
    obtain ⟨hy, hl⟩ := List.nodup_cons.mp hl
    by_cases hyx : y = x
    · subst hyx
      have hrest : l.filter (· ∉ y :: visited) = l.filter (· ∉ visited) := by
        refine List.filter_congr fun z hz => ?_
        have hzy : z ≠ y := fun hzy => hy (hzy ▸ hz)
        simp [hzy]
      rw [List.filter_cons_of_neg (by simp), List.filter_cons_of_pos (by simpa using hnot), hrest,
        List.map_cons, List.sum_cons]
      omega
    · have hx : x ∈ l := (List.mem_cons.mp hx).resolve_left fun h => hyx h.symm
      have := ih hl hx
      by_cases hyv : y ∈ visited
      · rw [List.filter_cons_of_neg (by simp [hyv]), List.filter_cons_of_neg (by simp [hyv])]
        exact this
      · rw [List.filter_cons_of_pos (by simp [hyx, hyv]), List.filter_cons_of_pos (by simp [hyv])]
        simp only [List.map_cons, List.sum_cons]
        omega

theorem Walk.left_step (hw : w.stack ≠ []) : (w.step n succ).left n succ + 1 ≤ w.left n succ := by
  obtain ⟨visited, post, stack⟩ := w
  rcases stack with _ | ⟨⟨node, ci⟩, rest⟩
  · exact absurd rfl hw
  cases hnx : (succ node)[ci]? with
  | none =>
    simp only [Walk.step, hnx, Walk.left, List.map_cons, List.sum_cons]
    omega
  | some nx =>
    have hci : ci < (succ node).length := (List.getElem?_eq_some_iff.mp hnx).1
    simp only [Walk.step, hnx]
    split_ifs with hnew
    · have hsum := sum_filter_not_mem_cons (g := fun v => (succ v).length + 1)
        (List.nodup_range (n := n)) (List.mem_range.mpr hnew.1) hnew.2
      simp only [Walk.left, List.map_cons, List.sum_cons]
      omega
    · simp only [Walk.left, List.map_cons, List.sum_cons]
      omega

theorem Walk.run_of_stack_nil (hw : w.stack = []) (fuel : ℕ) : w.run n succ fuel = w := by
  induction fuel with
  | zero => rfl
  | succ fuel ih =>
    have hstep : w.step n succ = w := by simp [Walk.step, hw]
    rw [Walk.run, hstep, ih]

theorem Walk.stack_run {fuel : ℕ} (hw : w.left n succ ≤ fuel) : (w.run n succ fuel).stack = [] := by
  induction fuel generalizing w with
  | zero =>
    by_contra hne
    have hlt : (w.step n succ).left n succ + 1 ≤ w.left n succ := Walk.left_step hne
    omega
  | succ fuel ih =>
    by_cases hne : w.stack = []
    · rw [Walk.run_of_stack_nil hne, hne]
    · have hlt : (w.step n succ).left n succ + 1 ≤ w.left n succ := Walk.left_step hne
      exact ih (by omega)

/-! #### The order -/

theorem idxOf_lt_of_sublist {p v : ℕ} {l : List ℕ} (hl : l.Nodup) (h : [p, v].Sublist l) :
    l.idxOf p < l.idxOf v := by
  induction l with
  | nil => cases h
  | cons x l ih =>
    obtain ⟨hx, hl⟩ := List.nodup_cons.mp hl
    rcases h with _ | ⟨_, h⟩ | ⟨_, h⟩
    · have hpx : p ≠ x := fun hpx => hx (hpx ▸ h.subset List.mem_cons_self)
      have hvx : v ≠ x := fun hvx => hx (hvx ▸ h.subset (by simp))
      rw [List.idxOf_cons_ne _ hpx.symm, List.idxOf_cons_ne _ hvx.symm]
      exact Nat.succ_lt_succ (ih hl h)
    · have hvx : v ≠ p := fun hvx => hx (hvx ▸ h.subset List.mem_cons_self)
      rw [List.idxOf_cons_self, List.idxOf_cons_ne _ hvx.symm]
      exact Nat.succ_pos _

theorem idxOf_of_split {l done rest : List ℕ} {x : ℕ} (hl : l.Nodup)
    (hsplit : l = done ++ x :: rest) : l.idxOf x = done.length := by
  have hnot : x ∉ done := by
    intro hmem
    rw [hsplit] at hl
    exact (List.nodup_append.mp hl).2.2 x hmem x List.mem_cons_self rfl
  rw [hsplit, List.idxOf_append_of_notMem hnot, List.idxOf_cons_self, Nat.add_zero]

/-- The properties of a reverse postorder that the iteration over it needs. -/
structure IsOrder (n : ℕ) (succ : ℕ → List ℕ) (entry : ℕ) (order : List ℕ) : Prop where
  nodup : order.Nodup
  lt : ∀ v ∈ order, v < n
  entry_mem : entry ∈ order
  entry_first : order.idxOf entry = 0
  closed : ∀ v ∈ order, ∀ s ∈ succ v, s < n → s ∈ order
  earlier : ∀ v ∈ order, v ≠ entry → ∃ p ∈ order, v ∈ succ p ∧ order.idxOf p < order.idxOf v

theorem reversePostorder_spec (he : entry < n) :
    IsOrder n succ entry (reversePostorder n succ entry) := by
  set w₀ : Walk := ⟨[entry], [], [(entry, 0)]⟩
  have hinv : (w₀.run n succ (w₀.left n succ)).Inv n succ entry := (Walk.Inv.start he).run _
  have hstack : (w₀.run n succ (w₀.left n succ)).stack = [] := Walk.stack_run le_rfl
  have hrpo : reversePostorder n succ entry = (w₀.run n succ (w₀.left n succ)).post := rfl
  set w := w₀.run n succ (w₀.left n succ)
  have horder : w.order = reversePostorder n succ entry := by
    rw [hrpo, Walk.order, hstack]
    rfl
  have hnodup := hinv.nodup
  have hhead := hinv.head
  have hearlier := hinv.earlier
  rw [horder] at hnodup hhead hearlier
  obtain ⟨rest, hrest⟩ := List.head?_eq_some_iff.mp hhead
  refine ⟨hnodup, ?_, ?_, ?_, ?_, ?_⟩
  · intro v hv
    exact hinv.lt v ((hinv.mem v).mpr (horder ▸ hv))
  · rw [hrest]
    exact List.mem_cons_self
  · rw [hrest, List.idxOf_cons_self]
  · intro v hv s hs hsn
    rw [← horder, ← hinv.mem s]
    exact hinv.closed v (hrpo ▸ hv) s hs hsn
  · intro v hv hne
    obtain ⟨p, hp, hpv⟩ := hearlier v hv hne
    exact ⟨p, hpv.subset List.mem_cons_self, hp, idxOf_lt_of_sublist hnodup hpv⟩

end

/-! ### Immediate dominators -/

section
variable (num : ℕ → ℕ)

/-- `intersect`: of two nodes the one that comes later moves up, until they meet
(distinct nodes have distinct numbers). -/
def intersect (idom : ℕ → Option ℕ) : ℕ → ℕ → ℕ → ℕ
  | 0, a, _ => a
  | fuel + 1, a, b =>
    if a = b then a
    else if num b < num a then intersect idom fuel ((idom a).getD a) b
    else intersect idom fuel a ((idom b).getD b)

/-- One predecessor is taken into `new_idom`. -/
def joinPred (idom : ℕ → Option ℕ) (new : Option ℕ) (p : ℕ) : Option ℕ :=
  if (idom p).isSome then
    match new with
    | none => some p
    | some q => some (intersect num idom (num p + num q + 1) p q)
  else new

/-- One node of a pass over the order; the flag is `changed`. -/
def settleNode (preds : ℕ → List ℕ) (entry : ℕ) (st : (ℕ → Option ℕ) × Bool) (node : ℕ) :
    (ℕ → Option ℕ) × Bool :=
  if node = entry then st
  else
    match (preds node).foldl (joinPred num st.1) none with
    | none => st
    | some e => if st.1 node = some e then st else (Function.update st.1 node (some e), true)

def settle (preds : ℕ → List ℕ) (entry : ℕ) (rpo : List ℕ) :
    ℕ → (ℕ → Option ℕ) → ℕ → Option ℕ
  | 0, idom => idom
  | fuel + 1, idom =>
    let st := rpo.foldl (settleNode num preds entry) (idom, false)
    if st.2 then settle preds entry rpo fuel st.1 else st.1

end

/-- `dominators`: the immediate dominator of every node the entry reaches. -/
def dominators (n entry : ℕ) (succ preds : ℕ → List ℕ) : ℕ → Option ℕ :=
  let rpo := reversePostorder n succ entry
  settle rpo.idxOf preds entry rpo (rpo.length * rpo.length + 1)
    (Function.update (fun _ => none) entry (some entry))

open ParentMap

section
variable {num : ℕ → ℕ} {idom : ℕ → Option ℕ} {entry : ℕ}

theorem intersect_isMeet (h : IsTree idom entry num)
    (hinj : ∀ a b, (idom a).isSome → (idom b).isSome → num a = num b → a = b) {fuel a b : ℕ}
    (ha : (idom a).isSome) (hb : (idom b).isSome) (hfuel : num a + num b < fuel) :
    (idom (intersect num idom fuel a b)).isSome ∧
      IsMeet idom (fun q => q = a ∨ q = b) (intersect num idom fuel a b) := by
  induction fuel generalizing a b with
  | zero => omega
  | succ fuel ih =>
    rw [intersect]
    split_ifs with hab hlt
    · subst hab
      refine ⟨ha, fun p hp => ?_, fun z hz => hz a (.inl rfl)⟩
      rcases hp with rfl | rfl <;> exact .refl _
    · -- `a` comes later, so what is above both is above the parent of `a`
      have har : a ≠ entry := by
        rintro rfl
        have := h.rank_le (h.up_root hb)
        omega
      obtain ⟨p, hp⟩ := Option.isSome_iff_exists.mp ha
      have hnum := h.ranked har hp
      rw [hp, Option.getD_some]
      obtain ⟨hsome, hmeet⟩ := ih (h.closed hp) hb (by omega)
      refine ⟨hsome, ?_, fun z hz => ?_⟩
      · rintro q (rfl | rfl)
        · exact .head hp (hmeet.up p (.inl rfl))
        · exact hmeet.up q (.inr rfl)
      · refine hmeet.nearest z ?_
        rintro q (rfl | rfl)
        · rcases (hz a (.inl rfl)).cases with rfl | ⟨p', hp', hz'⟩
          · have := h.rank_le (hz b (.inr rfl))
            omega
          · rwa [Option.some.inj (hp.symm.trans hp')]
        · exact hz q (.inr rfl)
    · have hlt' : num a < num b := by
        have : num a ≠ num b := fun heq => hab (hinj a b ha hb heq)
        omega
      have hbr : b ≠ entry := by
        rintro rfl
        have := h.rank_le (h.up_root ha)
        omega
      obtain ⟨p, hp⟩ := Option.isSome_iff_exists.mp hb
      have hnum := h.ranked hbr hp
      rw [hp, Option.getD_some]
      obtain ⟨hsome, hmeet⟩ := ih ha (h.closed hp) (by omega)
      refine ⟨hsome, ?_, fun z hz => ?_⟩
      · rintro q (rfl | rfl)
        · exact hmeet.up q (.inl rfl)
        · exact .head hp (hmeet.up p (.inr rfl))
      · refine hmeet.nearest z ?_
        rintro q (rfl | rfl)
        · exact hz q (.inl rfl)
        · rcases (hz b (.inr rfl)).cases with rfl | ⟨p', hp', hz'⟩
          · have := h.rank_le (hz a (.inl rfl))
            omega
          · rwa [Option.some.inj (hp.symm.trans hp')]

/-- What `new_idom` is after some predecessors: the meet of those placed, if any. -/
private def Joined (idom : ℕ → Option ℕ) (s : ℕ → Prop) : Option ℕ → Prop
  | none => ∀ p, ¬s p
  | some c => (idom c).isSome ∧ IsMeet idom s c

private theorem joined_foldl (h : IsTree idom entry num)
    (hinj : ∀ a b, (idom a).isSome → (idom b).isSome → num a = num b → a = b) {ps : List ℕ}
    {s : ℕ → Prop} {new : Option ℕ} (hnew : Joined idom s new) :
    Joined idom (fun q => s q ∨ q ∈ ps ∧ (idom q).isSome) (ps.foldl (joinPred num idom) new) := by
  induction ps generalizing s new with
  | nil =>
    have hs : (fun q => s q ∨ q ∈ [] ∧ (idom q).isSome = true) = s := by
      funext q
      simp
    rw [hs]
    exact hnew
  | cons p ps ih =>
    have hstep : Joined idom (fun q => s q ∨ q = p ∧ (idom q).isSome) (joinPred num idom new p) := by
      unfold joinPred
      split_ifs with hp
      · have hset : (fun q => s q ∨ q = p ∧ (idom q).isSome = true) = fun q => s q ∨ q = p := by
          funext q
          refine propext (or_congr_right ⟨And.left, fun hq => ⟨hq, hq ▸ hp⟩⟩)
        rw [hset]
        cases new with
        | none =>
          have hset' : (fun q => s q ∨ q = p) = (· = p) := by
            funext q
            exact propext ⟨fun hq => hq.resolve_left (hnew q), .inr⟩
          rw [hset']
          exact ⟨hp, isMeet_single p⟩
        | some c =>
          obtain ⟨hsome, hmeet⟩ := intersect_isMeet h hinj hp hnew.1 (Nat.lt_succ_self _)
          exact ⟨hsome, hnew.2.insert hmeet⟩
      · have hset : (fun q => s q ∨ q = p ∧ (idom q).isSome = true) = s := by
          funext q
          refine propext ⟨?_, .inl⟩
          rintro (hq | ⟨rfl, hq⟩)
          · exact hq
          · exact absurd hq hp
        rw [hset]
        exact hnew
    have hrest := ih hstep
    have hset : (fun q => s q ∨ q ∈ p :: ps ∧ (idom q).isSome = true)
        = fun q => (s q ∨ q = p ∧ (idom q).isSome = true) ∨ q ∈ ps ∧ (idom q).isSome = true := by
      funext q
      rw [List.mem_cons]
      exact propext (by tauto)
    rw [hset]
    exact hrest

theorem foldl_joinPred (h : IsTree idom entry num)
    (hinj : ∀ a b, (idom a).isSome → (idom b).isSome → num a = num b → a = b)
    {preds : ℕ → List ℕ} {v p : ℕ} (hp : Placed idom preds v p) :
    ∃ e, (preds v).foldl (joinPred num idom) none = some e ∧
      IsMeet idom (Placed idom preds v) e := by
  have hjoin : Joined idom (fun q => False ∨ q ∈ preds v ∧ (idom q).isSome)
      ((preds v).foldl (joinPred num idom) none) := joined_foldl h hinj fun _ hq => hq
  simp only [false_or] at hjoin
  cases hfold : (preds v).foldl (joinPred num idom) none with
  | none =>
    rw [hfold] at hjoin
    exact absurd hp (hjoin p)
  | some e =>
    rw [hfold] at hjoin
    exact ⟨e, rfl, hjoin.2⟩

end

section
variable {n entry : ℕ} {succ preds : ℕ → List ℕ} {rpo : List ℕ} {idom : ℕ → Option ℕ}

/-- The state of a pass that has come to position `i`. -/
structure InPass (preds : ℕ → List ℕ) (entry : ℕ) (rpo : List ℕ) (idom : ℕ → Option ℕ)
    (i : ℕ) : Prop where
  settling : Settling idom entry rpo.idxOf preds i
  mem : ∀ v, (idom v).isSome → v ∈ rpo
  placed : ∀ v ∈ rpo, rpo.idxOf v < i → (idom v).isSome

def weight (rpo : List ℕ) (idom : ℕ → Option ℕ) : ℕ :=
  (rpo.map fun v => ((idom v).map rpo.idxOf).getD rpo.length).sum

theorem weight_update {x e : ℕ} (hx : x ∈ rpo)
    (hlt : rpo.idxOf e < ((idom x).map rpo.idxOf).getD rpo.length) :
    weight rpo (Function.update idom x (some e)) < weight rpo idom := by
  refine List.sum_lt_sum _ _ (fun v _ => ?_) ⟨x, hx, ?_⟩
  · by_cases hvx : v = x
    · subst hvx
      rw [Function.update_self]
      exact hlt.le
    · rw [Function.update_of_ne hvx]
  · rw [Function.update_self]
    exact hlt

variable (hrpo : IsOrder n succ entry rpo) (hedge : ∀ p ∈ rpo, ∀ v ∈ rpo, v ∈ succ p → p ∈ preds v)

theorem IsOrder.pred (hrpo : IsOrder n succ entry rpo)
    (hedge : ∀ p ∈ rpo, ∀ v ∈ rpo, v ∈ succ p → p ∈ preds v) {v : ℕ} (hv : v ∈ rpo) (hne : v ≠ entry) :
    ∃ p ∈ preds v, p ∈ rpo ∧ rpo.idxOf p < rpo.idxOf v := by
  obtain ⟨p, hp, hpv, hlt⟩ := hrpo.earlier v hv hne
  exact ⟨p, hedge p hp v hv hpv, hp, hlt⟩

include hrpo hedge

theorem InPass.meet {i x : ℕ} (h : InPass preds entry rpo idom i) (hx : x ∈ rpo)
    (hi : rpo.idxOf x = i) (hxr : x ≠ entry) :
    ∃ p e, Placed idom preds x p ∧ rpo.idxOf p < rpo.idxOf x ∧
      (preds x).foldl (joinPred rpo.idxOf idom) none = some e ∧
      IsMeet idom (Placed idom preds x) e := by
  have hinj : ∀ a b, (idom a).isSome → (idom b).isSome → rpo.idxOf a = rpo.idxOf b → a = b :=
    fun a b ha _ hab => (List.idxOf_inj (h.mem a ha)).mp hab
  obtain ⟨p, hp, hpm, hlt⟩ := hrpo.pred hedge hx hxr
  have hps : (idom p).isSome := h.placed p hpm (by omega)
  obtain ⟨e, hfold, hmeet⟩ := foldl_joinPred h.settling.tree hinj ⟨hp, hps⟩
  exact ⟨p, e, ⟨hp, hps⟩, hlt, hfold, hmeet⟩

theorem InPass.node {i x : ℕ} (h : InPass preds entry rpo idom i) (hx : x ∈ rpo)
    (hi : rpo.idxOf x = i) (changed : Bool) :
    ∃ idom' changed', settleNode rpo.idxOf preds entry (idom, changed) x = (idom', changed') ∧
      InPass preds entry rpo idom' (i + 1) ∧
      ((idom' = idom ∧ changed' = changed ∧
          (x ≠ entry → ∃ e, idom x = some e ∧ IsMeet idom (Placed idom preds x) e)) ∨
        (changed' = true ∧ weight rpo idom' < weight rpo idom)) := by
  have hfirstmem : ∀ p, rpo.idxOf p < rpo.idxOf x → p ∈ rpo := fun p hp =>
    List.idxOf_lt_length_iff.mp (hp.trans (List.idxOf_lt_length_iff.mpr hx))
  rw [settleNode]
  by_cases hxr : x = entry
  · -- the entry is left alone
    have hi0 : i = 0 := by rw [← hi, hxr, hrpo.entry_first]
    subst hi0
    refine ⟨idom, changed, if_pos hxr, ⟨h.settling.skipRoot, h.mem, ?_⟩, .inl ⟨rfl, rfl, ?_⟩⟩
    · intro v hv hlt
      have hv0 : rpo.idxOf v = rpo.idxOf entry := by rw [hrpo.entry_first]; omega
      rw [(List.idxOf_inj hv).mp hv0, h.settling.tree.root]
      rfl
    · exact fun hne => absurd hxr hne
  · rw [if_neg hxr]
    have hfirst : ∀ p ∈ preds x, rpo.idxOf p < rpo.idxOf x → (idom p).isSome := fun p _ hp =>
      h.placed p (hfirstmem p hp) (by omega)
    obtain ⟨p, e, hp, -, hfold, hmeet⟩ := h.meet hrpo hedge hx hi hxr
    have hpred : ∀ v, v ≠ entry → (idom v).isSome ∨ v = x →
        ∃ p ∈ preds v, rpo.idxOf p < rpo.idxOf v := by
      intro v hvr hv
      have hvm : v ∈ rpo := hv.elim (h.mem v) fun hvx => hvx ▸ hx
      obtain ⟨q, hq, -, hqv⟩ := hrpo.pred hedge hvm hvr
      exact ⟨q, hq, hqv⟩
    have hsettling := h.settling.update hxr hi
      (fun v hv hvi => (List.idxOf_inj (h.mem v hv)).mp (hvi.trans hi.symm)) hfirst hpred hmeet
    have hpass : InPass preds entry rpo (Function.update idom x (some e)) (i + 1) := by
      refine ⟨hsettling, fun v hv => ?_, fun v hv hlt => ?_⟩
      · by_cases hvx : v = x
        · exact hvx ▸ hx
        · rw [Function.update_of_ne hvx] at hv
          exact h.mem v hv
      · by_cases hvx : v = x
        · rw [hvx, Function.update_self]
          rfl
        · rw [Function.update_of_ne hvx]
          have hne : rpo.idxOf v ≠ rpo.idxOf x := fun hvi => hvx ((List.idxOf_inj hv).mp hvi)
          exact h.placed v hv (by omega)
    rw [hfold]
    dsimp only
    split_ifs with hsame
    · have hupdate : Function.update idom x (some e) = idom := by
        rw [← hsame, Function.update_eq_self]
      rw [hupdate] at hpass
      exact ⟨idom, changed, rfl, hpass, .inl ⟨rfl, rfl, fun _ => ⟨e, hsame, hmeet⟩⟩⟩
    · refine ⟨_, true, rfl, hpass, .inr ⟨rfl, weight_update hx ?_⟩⟩
      cases ho : idom x with
      | none =>
        have he := h.settling.tree.isSome_of_up (hmeet.up p hp) hp.2
        exact List.idxOf_lt_length_iff.mpr (h.mem e he)
      | some o =>
        rcases h.settling.rank_le hxr hmeet ho with rfl | hlt
        · exact absurd ho hsame
        · exact hlt

theorem InPass.sweep (h : InPass preds entry rpo idom 0) :
    ∃ idom' changed', rpo.foldl (settleNode rpo.idxOf preds entry) (idom, false) = (idom', changed') ∧
      InPass preds entry rpo idom' 0 ∧
      ((changed' = false ∧
          ∀ x ∈ rpo, x ≠ entry → ∃ e, idom' x = some e ∧ IsMeet idom' (Placed idom' preds x) e) ∨
        (changed' = true ∧ weight rpo idom' < weight rpo idom)) := by
  -- what holds after a prefix of the order
  have hprefix : ∀ done rest, rpo = done ++ rest →
      ∃ idom' changed', done.foldl (settleNode rpo.idxOf preds entry) (idom, false)
          = (idom', changed') ∧ InPass preds entry rpo idom' done.length ∧
        ((idom' = idom ∧ changed' = false ∧ ∀ x ∈ done, x ≠ entry →
            ∃ e, idom x = some e ∧ IsMeet idom (Placed idom preds x) e) ∨
          (changed' = true ∧ weight rpo idom' < weight rpo idom)) := by
    intro done
    induction done using List.reverseRecOn with
    | nil =>
      intro rest _
      exact ⟨idom, false, rfl, h, .inl ⟨rfl, rfl, by simp⟩⟩
    | append_singleton done x ih =>
      intro rest hsplit
      obtain ⟨d₁, c₁, hfold, hpass, hcase⟩ := ih (x :: rest) (by simpa using hsplit)
      have hx : x ∈ rpo := by rw [hsplit]; simp
      have hi : rpo.idxOf x = done.length :=
        idxOf_of_split hrpo.nodup (hsplit.trans (List.append_assoc ..))
      obtain ⟨d₂, c₂, hnode, hpass', hcase'⟩ := hpass.node hrpo hedge hx hi c₁
      refine ⟨d₂, c₂, by rw [List.foldl_append, hfold]; exact hnode, ?_, ?_⟩
      · rw [List.length_append]
        exact hpass'
      · rcases hcase with ⟨rfl, rfl, hset⟩ | ⟨rfl, hlt⟩
        · rcases hcase' with ⟨rfl, rfl, hset'⟩ | ⟨rfl, hlt'⟩
          · refine .inl ⟨rfl, rfl, fun v hv hne => ?_⟩
            rcases List.mem_append.mp hv with hv | hv
            · exact hset v hv hne
            · rw [List.mem_singleton.mp hv] at hne ⊢
              exact hset' hne
          · exact .inr ⟨rfl, hlt'⟩
        · rcases hcase' with ⟨rfl, rfl, -⟩ | ⟨rfl, hlt'⟩
          · exact .inr ⟨rfl, hlt⟩
          · exact .inr ⟨rfl, hlt'.trans hlt⟩
  obtain ⟨d', c', hfold, hpass, hcase⟩ := hprefix rpo [] (by simp)
  refine ⟨d', c', hfold, ⟨?_, hpass.mem, fun v _ hlt => absurd hlt (Nat.not_lt_zero _)⟩, ?_⟩
  · exact hpass.settling.nextPass fun v hv => List.idxOf_lt_length_iff.mpr (hpass.mem v hv)
  · rcases hcase with ⟨rfl, rfl, hset⟩ | ⟨rfl, hlt⟩
    · exact .inl ⟨rfl, hset⟩
    · exact .inr ⟨rfl, hlt⟩

/-- What the iteration ends with: a tree over the nodes of the order, with every
parent the meet of the predecessors. -/
structure IsDominators (preds : ℕ → List ℕ) (entry : ℕ) (rpo : List ℕ) (idom : ℕ → Option ℕ) :
    Prop where
  tree : IsTree idom entry rpo.idxOf
  placed : ∀ v, (idom v).isSome ↔ v ∈ rpo
  meet : ∀ v ∈ rpo, v ≠ entry → ∃ e, idom v = some e ∧ IsMeet idom (Placed idom preds v) e

theorem InPass.settle (h : InPass preds entry rpo idom 0) {fuel : ℕ}
    (hfuel : weight rpo idom < fuel) :
    IsDominators preds entry rpo (settle rpo.idxOf preds entry rpo fuel idom) := by
  induction fuel generalizing idom with
  | zero => omega
  | succ fuel ih =>
    obtain ⟨d', c', hfold, hpass, hcase⟩ := h.sweep hrpo hedge
    simp only [Aret.settle, hfold]
    rcases hcase with ⟨rfl, hset⟩ | ⟨rfl, hlt⟩
    · refine ⟨hpass.settling.tree, fun v => ⟨hpass.mem v, fun hv => ?_⟩, hset⟩
      by_cases hve : v = entry
      · rw [hve]
        exact Option.isSome_iff_exists.mpr ⟨_, hpass.settling.tree.root⟩
      · obtain ⟨e, he, -⟩ := hset v hv hve
        exact Option.isSome_iff_exists.mpr ⟨e, he⟩
    · exact ih hpass (by omega)

omit hrpo hedge

theorem InPass.start (hrpo : IsOrder n succ entry rpo) :
    InPass preds entry rpo (Function.update (fun _ => none) entry (some entry)) 0 := by
  refine ⟨.start hrpo.entry_first, fun v hv => ?_, fun v _ hlt => absurd hlt (Nat.not_lt_zero _)⟩
  by_cases hve : v = entry
  · exact hve ▸ hrpo.entry_mem
  · rw [Function.update_of_ne hve] at hv
    cases hv

theorem weight_start (hrpo : IsOrder n succ entry rpo) :
    weight rpo (Function.update (fun _ => none) entry (some entry)) ≤ rpo.length * rpo.length := by
  rw [weight]
  refine (List.sum_le_card_nsmul _ rpo.length fun k hk => ?_).trans (by simp)
  obtain ⟨v, -, rfl⟩ := List.mem_map.mp hk
  by_cases hve : v = entry
  · rw [hve, Function.update_self, Option.map_some, Option.getD_some, hrpo.entry_first]
    exact Nat.zero_le _
  · rw [Function.update_of_ne hve]
    exact le_rfl

end

theorem dominators_isDominators {n entry : ℕ} {succ preds : ℕ → List ℕ} (he : entry < n)
    (hedge : ∀ p v, p < n → v < n → v ∈ succ p → p ∈ preds v) :
    IsDominators preds entry (reversePostorder n succ entry) (dominators n entry succ preds) := by
  have hrpo : IsOrder n succ entry (reversePostorder n succ entry) := reversePostorder_spec he
  rw [dominators]
  exact (InPass.start hrpo).settle hrpo (fun p hp v hv => hedge p v (hrpo.lt p hp) (hrpo.lt v hv))
    (Nat.lt_succ_of_le (weight_start hrpo))

/-! ### Dominance frontiers -/

/-- The nodes the inner loop of `dominance_frontiers` passes, from `runner` up to
(and without) `stop`. -/
def frontierWalk (idom : ℕ → Option ℕ) (stop : ℕ) : ℕ → ℕ → List ℕ
  | 0, _ => []
  | fuel + 1, runner =>
    if runner = stop then []
    else
      runner :: match idom runner with
        | none => []
        | some up => if up = runner then [] else frontierWalk idom stop fuel up

/-- `dominance_frontiers`: the frontier of `v` holds, in order, the joins `b` such
that the walk from some predecessor of `b` up to `idom b` passes `v`. -/
def dominanceFrontiers (n : ℕ) (preds : ℕ → List ℕ) (idom : ℕ → Option ℕ) (v : ℕ) : List ℕ :=
  (List.range n).filter fun b =>
    decide (2 ≤ (preds b).length) &&
      match idom b with
      | none => false
      | some stop => (preds b).any fun p => (frontierWalk idom stop (n + 1) p).contains v

section
variable {n entry : ℕ} {preds : ℕ → List ℕ} {rpo : List ℕ} {idom : ℕ → Option ℕ}

theorem mem_frontierWalk {rank : ℕ → ℕ} (h : IsTree idom entry rank) {stop v runner fuel : ℕ}
    (hrv : Up idom runner v) (hvs : Up idom v stop) (hne : v ≠ stop) (hfuel : rank runner < fuel) :
    v ∈ frontierWalk idom stop fuel runner := by
  induction fuel generalizing runner with
  | zero => omega
  | succ fuel ih =>
    have hstop : runner ≠ stop := by
      rintro rfl
      exact hne (h.antisymm hvs hrv)
    rw [frontierWalk, if_neg hstop]
    rcases hrv.cases with rfl | ⟨up, hup, huv⟩
    · exact List.mem_cons_self
    · refine List.mem_cons_of_mem _ ?_
      have hroot : runner ≠ entry := by
        rintro rfl
        exact hstop (h.eq_of_up_root (hrv.trans hvs)).symm
      have hlt := h.ranked hroot hup
      have hself : up ≠ runner := by
        rintro rfl
        omega
      rw [hup]
      dsimp only
      rw [if_neg hself]
      exact ih huv (by omega)

theorem mem_dominanceFrontiers (h : IsDominators preds entry rpo idom) (hn : ∀ v ∈ rpo, v < n)
    (hnodup : rpo.Nodup) {b p v stop : ℕ} (hb : 2 ≤ (preds b).length) (hstop : idom b = some stop)
    (hp : p ∈ preds b) (hpr : p ∈ rpo) (hpv : Up idom p v) (hvs : Up idom v stop) (hne : v ≠ stop) :
    b ∈ dominanceFrontiers n preds idom v := by
  have hbr : b ∈ rpo := (h.placed b).mp (by rw [hstop]; rfl)
  have hlen : rpo.length ≤ n := by
    have hsub : rpo ⊆ List.range n := fun v hv => List.mem_range.mpr (hn v hv)
    simpa using (hnodup.subperm hsub).length_le
  have hnum : rpo.idxOf p < n + 1 := by
    have := List.idxOf_lt_length_iff.mpr hpr
    omega
  have hwalk := mem_frontierWalk h.tree hpv hvs hne hnum
  simp only [dominanceFrontiers, List.mem_filter, List.mem_range, hstop, Bool.and_eq_true,
    decide_eq_true_eq, List.any_eq_true, List.contains_iff_mem]
  exact ⟨hn b hbr, hb, p, hp, hwalk⟩

theorem IsDominators.idom_eq_of_single (h : IsDominators preds entry rpo idom) {b p : ℕ}
    (hb : b ∈ rpo) (hne : b ≠ entry) (hpreds : preds b = [p]) (hp : p ∈ rpo) :
    idom b = some p := by
  obtain ⟨e, he, hmeet⟩ := h.meet b hb hne
  have hplaced : Placed idom preds b = (· = p) := by
    funext q
    rw [Placed, hpreds, List.mem_singleton]
    exact propext ⟨And.left, fun hq => ⟨hq, hq ▸ (h.placed p).mpr hp⟩⟩
  rw [hplaced] at hmeet
  rw [he, hmeet.unique h.tree (isMeet_single p)]

end

end Aret
