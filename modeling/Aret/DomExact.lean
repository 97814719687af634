/-
Dominators are what every path passes, and the loops that find them end.

The loops here are those of the code, run for as many rounds as they are given;
where the rounds do not suffice, or where the code would read past the end of a
vector, nothing comes out.

* `dominators_exact` — a node is found to dominate another exactly if every path
  to that one passes through it.
-/
import Aret.Dom
import Aret.Dominance

namespace Aret

/-! ### Loops by rounds -/

/-- The loop of `reverse_postorder`. -/
def Walk.loop? (n : ℕ) (succ : ℕ → List ℕ) : ℕ → Walk → Option Walk
  | 0, _ => none
  | fuel + 1, w =>
    match w.stack with
    | [] => some w
    | _ :: _ => Walk.loop? n succ fuel (w.step n succ)

def reversePostorder? (n : ℕ) (succ : ℕ → List ℕ) (fuel entry : ℕ) : Option (List ℕ) :=
  (Walk.loop? n succ fuel ⟨[entry], [], [(entry, 0)]⟩).map Walk.post

section
variable (num : ℕ → ℕ)

/-- `while num[a] > num[b]`. -/
def climb? (idom : ℕ → Option ℕ) : ℕ → ℕ → ℕ → Option ℕ
  | 0, _, _ => none
  | fuel + 1, a, b =>
    if num b < num a then (idom a).bind fun up => climb? idom fuel up b else some a

/-- `intersect`: while the two differ, each in turn climbs past the other. -/
def intersect? (idom : ℕ → Option ℕ) : ℕ → ℕ → ℕ → Option ℕ
  | 0, _, _ => none
  | fuel + 1, a, b =>
    if a = b then some a
    else do
      let a ← climb? num idom fuel a b
      let b ← climb? num idom fuel b a
      intersect? idom fuel a b

def joinPred? (fuel : ℕ) (idom : ℕ → Option ℕ) (new : Option ℕ) (p : ℕ) : Option (Option ℕ) :=
  if (idom p).isSome then
    match new with
    | none => some (some p)
    | some q => (intersect? num idom fuel p q).map some
  else some new

def settleNode? (fuel : ℕ) (preds : ℕ → List ℕ) (entry : ℕ) (st : (ℕ → Option ℕ) × Bool)
    (node : ℕ) : Option ((ℕ → Option ℕ) × Bool) :=
  if node = entry then some st
  else do
    let new ← (preds node).foldlM (joinPred? num fuel st.1) none
    match new with
    | none => some st
    | some e =>
      if st.1 node = some e then some st else some (Function.update st.1 node (some e), true)

/-- `while changed`. -/
def settle? (meetFuel : ℕ) (preds : ℕ → List ℕ) (entry : ℕ) (rpo : List ℕ) :
    ℕ → (ℕ → Option ℕ) → Option (ℕ → Option ℕ)
  | 0, _ => none
  | fuel + 1, idom => do
    let st ← rpo.foldlM (settleNode? num meetFuel preds entry) (idom, false)
    if st.2 then settle? meetFuel preds entry rpo fuel st.1 else some st.1

end

def dominators? (fuel n entry : ℕ) (succ preds : ℕ → List ℕ) : Option (ℕ → Option ℕ) := do
  let rpo ← reversePostorder? n succ fuel entry
  settle? rpo.idxOf fuel preds entry rpo fuel (Function.update (fun _ => none) entry (some entry))

/-- `dominates`: up from `x`, until `a` comes or the chain ends. -/
def dominates? (idom : ℕ → Option ℕ) (a : ℕ) : ℕ → ℕ → Option Bool
  | 0, _ => none
  | fuel + 1, x =>
    if x = a then some true
    else
      match idom x with
      | none => some false
      | some nx => if nx = x then some (decide (a = x)) else dominates? idom a fuel nx

open ParentMap

/-! ### The loops end -/

theorem Walk.loop?_eq {n : ℕ} {succ : ℕ → List ℕ} {w : Walk} {fuel m : ℕ}
    (hfuel : w.left n succ < fuel) (hm : w.left n succ ≤ m) :
    Walk.loop? n succ fuel w = some (w.run n succ m) := by
  induction fuel generalizing w m with
  | zero => omega
  | succ fuel ih =>
    rw [Walk.loop?]
    split
    · rename_i hstack
      rw [Walk.run_of_stack_nil hstack]
    · rename_i top rest hstack
      have hleft : (w.step n succ).left n succ + 1 ≤ w.left n succ :=
        Walk.left_step (by simp [hstack])
      obtain ⟨m, rfl⟩ : ∃ k, m = k + 1 := ⟨m - 1, by omega⟩
      exact ih (by omega) (by omega)

theorem reversePostorder?_eq {n : ℕ} {succ : ℕ → List ℕ} {fuel entry : ℕ}
    (hfuel : Walk.left n succ ⟨[entry], [], [(entry, 0)]⟩ < fuel) :
    reversePostorder? n succ fuel entry = some (reversePostorder n succ entry) := by
  rw [reversePostorder?, Walk.loop?_eq hfuel le_rfl]
  rfl

section
variable {num : ℕ → ℕ} {idom : ℕ → Option ℕ} {entry : ℕ}

theorem climb?_spec (h : IsTree idom entry num) {fuel a b : ℕ} (ha : (idom a).isSome)
    (hb : (idom b).isSome) (hfuel : num a < fuel) :
    ∃ c, climb? num idom fuel a b = some c ∧ (idom c).isSome ∧ Up idom a c ∧ num c ≤ num b ∧
      ∀ z, Up idom a z → Up idom b z → Up idom c z := by
  induction fuel generalizing a with
  | zero => omega
  | succ fuel ih =>
    rw [climb?]
    split_ifs with hlt
    · have har : a ≠ entry := by
        rintro rfl
        have := h.rank_le (h.up_root hb)
        omega
      obtain ⟨p, hp⟩ := Option.isSome_iff_exists.mp ha
      have hnum := h.ranked har hp
      obtain ⟨c, hc, hsome, hpc, hle, hz⟩ := ih (h.closed hp) (by omega)
      refine ⟨c, by rw [hp]; exact hc, hsome, .head hp hpc, hle, fun z haz hbz => ?_⟩
      rcases haz.cases with rfl | ⟨p', hp', hpz⟩
      · have := h.rank_le hbz
        omega
      · obtain rfl : p = p' := Option.some.inj (hp.symm.trans hp')
        exact hz z hpz hbz
    · exact ⟨a, rfl, ha, .refl a, by omega, fun z haz _ => haz⟩

theorem intersect?_isMeet (h : IsTree idom entry num)
    (hinj : ∀ a b, (idom a).isSome → (idom b).isSome → num a = num b → a = b) {fuel a b : ℕ}
    (ha : (idom a).isSome) (hb : (idom b).isSome) (hfuel : num a + num b + 1 < fuel) :
    ∃ c, intersect? num idom fuel a b = some c ∧ IsMeet idom (fun q => q = a ∨ q = b) c := by
  induction fuel generalizing a b with
  | zero => omega
  | succ fuel ih =>
    rw [intersect?]
    split_ifs with hab
    · subst hab
      refine ⟨a, rfl, fun p hp => ?_, fun z hz => hz a (.inl rfl)⟩
      rcases hp with rfl | rfl <;> exact .refl _
    · have hne : num a ≠ num b := fun heq => hab (hinj a b ha hb heq)
      obtain ⟨c, hc, hcs, hac, hcb, hcz⟩ := climb?_spec h ha hb (show num a < fuel by omega)
      obtain ⟨e, he, hes, hbe, hec, hez⟩ := climb?_spec h hb hcs (show num b < fuel by omega)
      -- One of the two has moved.
      have hca := h.rank_le hac
      have hless : num c + num e < num a + num b := by
        rcases h.rank_lt hbe with rfl | hlt
        · omega
        · omega
      obtain ⟨m, hm, hmeet⟩ := ih hcs hes (by omega)
      refine ⟨m, ?_, ?_, fun z hz => hmeet.nearest z ?_⟩
      · rw [hc, Option.bind_eq_bind, Option.bind_some, he, Option.bind_some, hm]
      · rintro q (rfl | rfl)
        · exact hac.trans (hmeet.up c (.inl rfl))
        · exact hbe.trans (hmeet.up e (.inr rfl))
      · have hcz' : Up idom c z := hcz z (hz a (.inl rfl)) (hz b (.inr rfl))
        rintro q (rfl | rfl)
        · exact hcz'
        · exact hez z (hz b (.inr rfl)) hcz'

theorem intersect?_eq (h : IsTree idom entry num)
    (hinj : ∀ a b, (idom a).isSome → (idom b).isSome → num a = num b → a = b) {fuel a b : ℕ}
    (ha : (idom a).isSome) (hb : (idom b).isSome) (hfuel : num a + num b + 1 < fuel) :
    intersect? num idom fuel a b = some (intersect num idom (num a + num b + 1) a b) := by
  obtain ⟨c, hc, hmeet⟩ := intersect?_isMeet h hinj ha hb hfuel
  have hmeet' := (intersect_isMeet h hinj ha hb (Nat.lt_succ_self (num a + num b))).2
  rw [hc, hmeet.unique h hmeet']

theorem foldlM_joinPred? (h : IsTree idom entry num)
    (hinj : ∀ a b, (idom a).isSome → (idom b).isSome → num a = num b → a = b) {k fuel : ℕ}
    (hnum : ∀ v, (idom v).isSome → num v < k) (hfuel : 2 * k ≤ fuel) {ps : List ℕ}
    {new : Option ℕ} (hnew : ∀ q, new = some q → (idom q).isSome) :
    ps.foldlM (joinPred? num fuel idom) new = some (ps.foldl (joinPred num idom) new) := by
  induction ps generalizing new with
  | nil => rfl
  | cons p ps ih =>
    have hstep : joinPred? num fuel idom new p = some (joinPred num idom new p) ∧
        ∀ q, joinPred num idom new p = some q → (idom q).isSome := by
      unfold joinPred? joinPred
      split_ifs with hp
      · cases new with
        | none =>
          refine ⟨rfl, fun q hq => ?_⟩
          obtain rfl := Option.some.inj hq
          exact hp
        | some c =>
          have hc := hnew c rfl
          have h1 := hnum p hp
          have h2 := hnum c hc
          refine ⟨?_, fun q hq => ?_⟩
          · show (intersect? num idom fuel p c).map some = _
            rw [intersect?_eq h hinj hp hc (by omega)]
            rfl
          · obtain rfl := Option.some.inj hq
            exact (intersect_isMeet h hinj hp hc (Nat.lt_succ_self _)).1
      · exact ⟨rfl, hnew⟩
    rw [List.foldlM_cons, hstep.1, List.foldl_cons]
    exact ih hstep.2

end

section
variable {n entry : ℕ} {succ preds : ℕ → List ℕ} {rpo : List ℕ} {idom : ℕ → Option ℕ}
variable (hrpo : IsOrder n succ entry rpo) (hedge : ∀ p ∈ rpo, ∀ v ∈ rpo, v ∈ succ p → p ∈ preds v)
  {E : ℕ → ℕ → Prop} (hE : ∀ v ∈ rpo, ∀ p ∈ preds v, E p v)

include hrpo hedge

theorem settleNode?_eq {fuel i x : ℕ} (h : InPass preds entry rpo idom i) (hx : x ∈ rpo)
    (hi : rpo.idxOf x = i) (hfuel : 2 * rpo.length ≤ fuel) (changed : Bool) :
    settleNode? rpo.idxOf fuel preds entry (idom, changed) x =
      some (settleNode rpo.idxOf preds entry (idom, changed) x) := by
  have hinj : ∀ a b, (idom a).isSome → (idom b).isSome → rpo.idxOf a = rpo.idxOf b → a = b :=
    fun a b ha _ hab => (List.idxOf_inj (h.mem a ha)).mp hab
  have hnum : ∀ v, (idom v).isSome → rpo.idxOf v < rpo.length := fun v hv =>
    List.idxOf_lt_length_iff.mpr (h.mem v hv)
  rw [settleNode?, settleNode]
  split_ifs with hxr
  · rfl
  · obtain ⟨p, e, -, -, hfold, -⟩ := h.meet hrpo hedge hx hi hxr
    have hjoin : (preds x).foldlM (joinPred? rpo.idxOf fuel idom) none =
        some ((preds x).foldl (joinPred rpo.idxOf idom) none) :=
      foldlM_joinPred? h.settling.tree hinj hnum hfuel fun q hq => by cases hq
    dsimp only
    rw [hjoin, hfold]
    dsimp only [Option.bind_eq_bind, Option.bind_some]
    split_ifs <;> rfl

include hE

theorem settleNode_kept {i x : ℕ} (h : InPass preds entry rpo idom i) (hx : x ∈ rpo)
    (hi : rpo.idxOf x = i) (hkept : Kept E entry idom) (changed : Bool) :
    Kept E entry (settleNode rpo.idxOf preds entry (idom, changed) x).1 := by
  rw [settleNode]
  split_ifs with hxr
  · exact hkept
  · obtain ⟨p, e, hp, hlt, hfold, hmeet⟩ := h.meet hrpo hedge hx hi hxr
    dsimp only
    rw [hfold]
    dsimp only
    split_ifs
    · exact hkept
    · have hep := h.settling.tree.rank_le (hmeet.up p hp)
      exact hkept.update h.settling.tree (hE x hx) hp hmeet (by omega)
        fun o ho => h.settling.up_meet hxr hmeet ho

theorem InPass.foldlM {fuel : ℕ} (hfuel : 2 * rpo.length ≤ fuel) {done rest : List ℕ}
    (hsplit : rpo = done ++ rest) (h : InPass preds entry rpo idom done.length)
    (hkept : Kept E entry idom) (changed : Bool) :
    rest.foldlM (settleNode? rpo.idxOf fuel preds entry) (idom, changed) =
        some (rest.foldl (settleNode rpo.idxOf preds entry) (idom, changed)) ∧
      Kept E entry (rest.foldl (settleNode rpo.idxOf preds entry) (idom, changed)).1 := by
  induction rest generalizing done idom changed with
  | nil => exact ⟨rfl, hkept⟩
  | cons x rest ih =>
    have hx : x ∈ rpo := by
      rw [hsplit]
      exact List.mem_append_right _ List.mem_cons_self
    have hi := idxOf_of_split hrpo.nodup hsplit
    obtain ⟨d, c, hnode, hpass, -⟩ := h.node hrpo hedge hx hi changed
    have hk := settleNode_kept hrpo hedge hE h hx hi hkept changed
    rw [hnode] at hk
    rw [List.foldlM_cons, List.foldl_cons, settleNode?_eq hrpo hedge h hx hi hfuel, hnode]
    refine ih (hsplit.trans (List.append_cons ..)) ?_ hk c
    rw [List.length_append]
    exact hpass

theorem settle?_eq {fuel m k : ℕ} (hfuel : 2 * rpo.length ≤ fuel)
    (h : InPass preds entry rpo idom 0) (hkept : Kept E entry idom)
    (hk : weight rpo idom < k) (hm : weight rpo idom < m) :
    settle? rpo.idxOf fuel preds entry rpo k idom = some (settle rpo.idxOf preds entry rpo m idom) ∧
      Kept E entry (settle rpo.idxOf preds entry rpo m idom) := by
  induction k generalizing m idom with
  | zero => omega
  | succ k ih =>
    obtain ⟨m, rfl⟩ : ∃ j, m = j + 1 := ⟨m - 1, by omega⟩
    obtain ⟨d, c, hfold, hpass, hcase⟩ := h.sweep hrpo hedge
    obtain ⟨hrun, hkept'⟩ := InPass.foldlM hrpo hedge hE hfuel (List.nil_append rpo).symm h hkept false
    rw [hfold] at hrun hkept'
    dsimp only at hkept'
    rw [settle?, settle, hrun, hfold]
    rcases hcase with ⟨rfl, -⟩ | ⟨rfl, hlt⟩
    · exact ⟨rfl, hkept'⟩
    · have hrest := ih (m := m) hpass hkept' (by omega) (by omega)
      exact hrest

end

/-! ### Dominators -/

def Edge (n : ℕ) (succ : ℕ → List ℕ) (u v : ℕ) : Prop := v ∈ succ u ∧ v < n

def Reachable (n : ℕ) (succ : ℕ → List ℕ) (entry v : ℕ) : Prop :=
  ∃ l, ParentMap.Path (Edge n succ) entry l v

section
variable {n entry : ℕ} {succ preds : ℕ → List ℕ} {rpo : List ℕ} {idom : ℕ → Option ℕ}

theorem IsOrder.mem_iff (h : IsOrder n succ entry rpo) {v : ℕ} :
    v ∈ rpo ↔ Reachable n succ entry v := by
  constructor
  · intro hv
    induction hk : rpo.idxOf v using Nat.strong_induction_on generalizing v with
    | _ k ih =>
      by_cases hve : v = entry
      · subst hve
        exact ⟨_, .root⟩
      · obtain ⟨p, hp, hpv, hlt⟩ := h.earlier v hv hve
        obtain ⟨l, hl⟩ := ih _ (hk ▸ hlt) hp rfl
        exact ⟨_, hl.step ⟨hpv, h.lt v hv⟩⟩
  · rintro ⟨l, hl⟩
    induction hl with
    | root => exact h.entry_mem
    | step _ huv ih => exact h.closed _ ih _ huv.1 huv.2

theorem dominates?_eq {num : ℕ → ℕ} (h : IsTree idom entry num) {a b fuel : ℕ}
    (hb : (idom b).isSome) (hfuel : num b < fuel) :
    ∃ r, dominates? idom a fuel b = some r ∧ (r = true ↔ Up idom b a) := by
  induction fuel generalizing b with
  | zero => omega
  | succ fuel ih =>
    rw [dominates?]
    split_ifs with hba
    · subst hba
      exact ⟨true, rfl, iff_of_true rfl (.refl b)⟩
    · obtain ⟨p, hp⟩ := Option.isSome_iff_exists.mp hb
      rw [hp]
      dsimp only
      split_ifs with hself
      · -- The entry is its own parent.
        have hbr : b = entry := by
          by_contra hne
          have := h.ranked hne hp
          rw [hself] at this
          omega
        subst hbr
        refine ⟨_, rfl, ?_⟩
        rw [decide_eq_true_iff]
        exact iff_of_false (fun hab => hba hab.symm) fun hup => hba (h.eq_of_up_root hup).symm
      · have hbr : b ≠ entry := by
          rintro rfl
          exact hself (Option.some.inj (hp.symm.trans h.root))
        have hlt := h.ranked hbr hp
        obtain ⟨r, hr, hiff⟩ := ih (h.closed hp) (by omega)
        refine ⟨r, hr, hiff.trans ⟨Up.head hp, fun hup => ?_⟩⟩
        rcases hup.cases with rfl | ⟨p', hp', hpa⟩
        · exact absurd rfl hba
        · obtain rfl : p = p' := Option.some.inj (hp.symm.trans hp')
          exact hpa

theorem dominators?_eq (he : entry < n)
    (hpreds : ∀ p v, v < n → (p ∈ preds v ↔ p < n ∧ v ∈ succ p)) :
    Kept (Edge n succ) entry (dominators n entry succ preds) ∧
      ∃ rounds, ∀ fuel, rounds ≤ fuel →
        dominators? fuel n entry succ preds = some (dominators n entry succ preds) := by
  have hrpo : IsOrder n succ entry (reversePostorder n succ entry) := reversePostorder_spec he
  set rpo := reversePostorder n succ entry with hdef
  have hedge : ∀ p ∈ rpo, ∀ v ∈ rpo, v ∈ succ p → p ∈ preds v := fun p hp v hv hs =>
    (hpreds p v (hrpo.lt v hv)).mpr ⟨hrpo.lt p hp, hs⟩
  have hE : ∀ v ∈ rpo, ∀ p ∈ preds v, Edge n succ p v := fun v hv p hp =>
    ⟨((hpreds p v (hrpo.lt v hv)).mp hp).2, hrpo.lt v hv⟩
  have hstart : InPass preds entry rpo _ 0 := InPass.start hrpo
  have hkept : Kept (Edge n succ) entry (Function.update (fun _ => none) entry (some entry)) :=
    .start
  have hweight := weight_start hrpo
  have hrun := fun fuel (hfuel : 2 * rpo.length ≤ fuel) k hk => settle?_eq hrpo hedge hE
    (m := rpo.length * rpo.length + 1) (k := k) hfuel hstart hkept hk (by omega)
  refine ⟨(hrun _ le_rfl _ (Nat.lt_succ_self _)).2,
    Walk.left n succ ⟨[entry], [], [(entry, 0)]⟩ + 2 * rpo.length + rpo.length * rpo.length + 1,
    fun fuel hfuel => ?_⟩
  rw [dominators?, reversePostorder?_eq (by omega), Option.bind_eq_bind, Option.bind_some, ← hdef]
  exact (hrun fuel (by omega) fuel (by omega)).1

theorem dominators_spec (he : entry < n)
    (hpreds : ∀ p v, v < n → (p ∈ preds v ↔ p < n ∧ v ∈ succ p)) :
    IsOrder n succ entry (reversePostorder n succ entry) ∧
      IsDominators preds entry (reversePostorder n succ entry) (dominators n entry succ preds) :=
  ⟨reversePostorder_spec he,
    dominators_isDominators he fun p v hp hv hs => (hpreds p v hv).mpr ⟨hp, hs⟩⟩

theorem up_dominators_iff (he : entry < n)
    (hpreds : ∀ p v, v < n → (p ∈ preds v ↔ p < n ∧ v ∈ succ p)) {a b : ℕ}
    (hb : Reachable n succ entry b) :
    Up (dominators n entry succ preds) b a ↔ Dominates (Edge n succ) entry a b := by
  obtain ⟨hrpo, hdom⟩ := dominators_spec he hpreds
  refine (dominators?_eq he hpreds).1.up_iff_dominates hdom.tree
    (fun v hv hne => hdom.meet v ((hdom.placed v).mp hv) hne) (fun u v hu huv => ?_)
    ((hdom.placed b).mpr (hrpo.mem_iff.mpr hb))
  have humem := (hdom.placed u).mp hu
  exact ⟨(hdom.placed v).mpr (hrpo.closed u humem v huv.1 huv.2),
    (hpreds u v huv.2).mpr ⟨hrpo.lt u humem, huv.1⟩⟩

/-- The immediate dominators are found, and their chains tell which nodes every path to a
node passes through. -/
theorem dominators_exact (n entry : ℕ) (succ preds : ℕ → List ℕ) (he : entry < n)
    (hpreds : ∀ p v, v < n → (p ∈ preds v ↔ p < n ∧ v ∈ succ p)) :
    ∃ idom rounds, (∀ fuel, rounds ≤ fuel → dominators? fuel n entry succ preds = some idom) ∧
      (∀ b, Reachable n succ entry b → ∀ a, ∃ r,
        (∀ fuel, rounds ≤ fuel → dominates? idom a fuel b = some r) ∧
          (r = true ↔ ∀ l, ParentMap.Path (Edge n succ) entry l b → a ∈ l)) ∧
      ∀ b, ¬Reachable n succ entry b → idom b = none ∧
        ∀ a fuel, 1 ≤ fuel → dominates? idom a fuel b = some (decide (a = b)) := by
  obtain ⟨hrpo, hdom⟩ := dominators_spec he hpreds
  obtain ⟨-, rounds, hrounds⟩ := dominators?_eq he hpreds
  refine ⟨dominators n entry succ preds, rounds + (reversePostorder n succ entry).length,
    fun fuel hfuel => hrounds fuel (by omega), fun b hb a => ?_, fun b hb => ?_⟩
  · have hplaced := (hdom.placed b).mpr (hrpo.mem_iff.mpr hb)
    have hlt := List.idxOf_lt_length_iff.mpr (hrpo.mem_iff.mpr hb)
    have hwalk : ∀ fuel, rounds + (reversePostorder n succ entry).length ≤ fuel →
        ∃ r, dominates? (dominators n entry succ preds) a fuel b = some r ∧
          (r = true ↔ Up (dominators n entry succ preds) b a) :=
      fun fuel hfuel => dominates?_eq hdom.tree hplaced (by omega)
    -- The answer is the same for all rounds, being that of the chain.
    obtain ⟨r, -, hr⟩ := hwalk _ le_rfl
    refine ⟨r, fun fuel hfuel => ?_, hr.trans (up_dominators_iff he hpreds hb)⟩
    obtain ⟨r', hr', hiff⟩ := hwalk fuel hfuel
    rw [hr', Bool.eq_iff_iff.mpr (hiff.trans hr.symm)]
  · have hnone : dominators n entry succ preds b = none := by
      rw [← Option.not_isSome_iff_eq_none, hdom.placed b, hrpo.mem_iff]
      exact hb
    refine ⟨hnone, fun a fuel hfuel => ?_⟩
    obtain ⟨fuel, rfl⟩ : ∃ k, fuel = k + 1 := ⟨fuel - 1, by omega⟩
    rw [dominates?, hnone]
    by_cases hba : b = a
    · rw [if_pos hba, decide_eq_true hba.symm]
    · rw [if_neg hba, decide_eq_false fun hab => hba hab.symm]

/-- A loop that is entered twice over, and from a node that nothing reaches. -/
theorem dominators_exact_loop :
    ∃ idom rounds, dominators? rounds 3 0 (fun p => if p = 0 then [1, 1] else [1])
        (fun v => if v = 1 then [0, 0, 1, 2] else []) = some idom ∧
      dominates? idom 1 rounds 2 = some false := by
  have hpreds : ∀ p v, v < 3 → (p ∈ (if v = 1 then [0, 0, 1, 2] else []) ↔
      p < 3 ∧ v ∈ (if p = 0 then [1, 1] else [1])) := by
    intro p v hv
    have hs : v ∈ (if p = 0 then [1, 1] else [1]) ↔ v = 1 := by split <;> simp
    rw [hs]
    by_cases hv1 : v = 1
    · rw [if_pos hv1]
      simp only [List.mem_cons, List.not_mem_nil, or_false]
      omega
    · simp [hv1]
  obtain ⟨idom, rounds, hrun, -, hout⟩ := dominators_exact 3 0
    (fun p => if p = 0 then [1, 1] else [1]) (fun v => if v = 1 then [0, 0, 1, 2] else [])
    (by omega) hpreds
  refine ⟨idom, rounds + 1, hrun _ (by omega), (hout 2 ?_).2 1 _ (by omega)⟩
  -- Only 1 comes after an edge.
  rintro ⟨l, hl⟩
  cases hl with
  | step _ huv =>
    have hmem : 2 ∈ if _ = 0 then [1, 1] else [1] := huv.1
    split at hmem <;> simp at hmem

end

end Aret
