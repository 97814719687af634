/-
When inference does not depend on the order of the facts.

* `infer_orderFree_iff` — the order and the number of the facts and of the
  unions are irrelevant if and only if the facts of each set are compatible.
-/
import Aret.TypeJoin

namespace Aret.Types

open Relation (EqvGen)

namespace TypeEnv

variable {env : TypeEnv} {v x : ℕ} {t : Ty}

def typeOf (env : TypeEnv) (x : ℕ) : Ty := env.ty (env.forest.root x)

theorem root_constrain (env : TypeEnv) (v : ℕ) (t : Ty) (x : ℕ) :
    (env.constrain v t).forest.root x = env.forest.root x := by
  rw [constrain]
  split_ifs
  · exact Forest.root_find _ _ _
  · rfl

@[simp] theorem size_constrain (env : TypeEnv) (v : ℕ) (t : Ty) :
    (env.constrain v t).size = env.size := by
  rw [constrain]
  split_ifs <;> rfl

@[simp] theorem size_union (env : TypeEnv) (a b : ℕ) : (env.union a b).size = env.size := by
  rw [union]
  split_ifs <;> rfl

theorem typeOf_constrain (hv : v < env.size) (t : Ty) (x : ℕ) : (env.constrain v t).typeOf x =
    if env.forest.root x = env.forest.root v then join (env.typeOf x) t else env.typeOf x := by
  rw [typeOf, root_constrain, constrain, if_pos hv]
  dsimp only [find]
  rw [Forest.find_snd]
  split_ifs with hx
  · rw [← hx, Function.update_self]
    rfl
  · rw [Function.update_of_ne hx]
    rfl

theorem constrain_of_not_lt (hv : ¬v < env.size) (t : Ty) : env.constrain v t = env := by
  rw [constrain, if_neg hv]

theorem typeOf_union {a b : ℕ} (hab : a < env.size ∧ b < env.size) (x : ℕ) :
    (env.union a b).typeOf x =
      if env.forest.root a ≠ env.forest.root b ∧
          (env.forest.root x = env.forest.root a ∨ env.forest.root x = env.forest.root b) then
        join (env.typeOf a) (env.typeOf b)
      else env.typeOf x := by
  have hty : (env.union a b).ty = if env.forest.root a = env.forest.root b then env.ty else
      Function.update env.ty (env.forest.top a b) (join (env.typeOf a) (env.typeOf b)) := by
    rw [union, if_pos hab]
    dsimp only [find]
    rw [Forest.find_snd, Forest.find_snd, Forest.root_find]
    rfl
  have hroot : (env.union a b).forest.root x = (env.forest.union a b).root x := by
    rw [union, if_pos hab]
  rw [typeOf, hty, hroot, Forest.root_union]
  by_cases heq : env.forest.root a = env.forest.root b
  · have htop : env.forest.top a b = env.forest.root a := by
      rw [Forest.top, ← heq, ite_self]
    rw [if_pos heq, if_neg (fun h => absurd heq (And.left h)), htop, ← heq]
    split_ifs with hx
    · rw [typeOf, hx.elim id id]
    · rfl
  · rw [if_neg heq]
    by_cases hx : env.forest.root x = env.forest.root a ∨ env.forest.root x = env.forest.root b
    · rw [if_pos hx, if_pos ⟨heq, hx⟩, Function.update_self]
    · have hne : env.forest.root x ≠ env.forest.top a b := by
        rcases Forest.top_eq (F := env.forest) a b with htop | htop
        · exact fun h => hx (.inl (h.trans htop))
        · exact fun h => hx (.inr (h.trans htop))
      rw [if_neg hx, if_neg (fun h => hx (And.right h)), Function.update_of_ne hne]
      rfl

end TypeEnv

/-! ### The facts of a set -/

def unions (n : ℕ) (ops : List Fact) (a b : ℕ) : Prop := .union a b ∈ ops ∧ a < n ∧ b < n

def Linked (n : ℕ) (ops : List Fact) : ℕ → ℕ → Prop := EqvGen (unions n ops)

def facts (n : ℕ) (ops : List Fact) (x : ℕ) : Set Ty :=
  {t | ∃ v, .constrain v t ∈ ops ∧ v < n ∧ Linked n ops v x}

structure After (n : ℕ) (ops : List Fact) (env : TypeEnv) : Prop where
  size : env.size = n
  sets : env.forest.Represents (unions n ops)
  types : ∀ x, Joined (facts n ops x) (env.typeOf x)

variable {n : ℕ} {ops ops' : List Fact} {env : TypeEnv}

theorem After.root_eq (h : After n ops env) {a b : ℕ} :
    env.forest.root a = env.forest.root b ↔ Linked n ops a b := h.sets a b

theorem facts_eq_of_linked {x y : ℕ} (h : Linked n ops x y) : facts n ops x = facts n ops y := by
  ext t
  constructor
  · rintro ⟨v, hv, hlt, hvx⟩
    exact ⟨v, hv, hlt, hvx.trans _ _ _ h⟩
  · rintro ⟨v, hv, hlt, hvy⟩
    exact ⟨v, hv, hlt, hvy.trans _ _ _ (h.symm)⟩

theorem unions_constrain (v : ℕ) (t : Ty) : unions n (ops ++ [.constrain v t]) = unions n ops := by
  funext a b
  simp [unions]

theorem unions_union {a b : ℕ} (hab : a < n ∧ b < n) : unions n (ops ++ [.union a b]) =
    fun x y => unions n ops x y ∨ x = a ∧ y = b := by
  funext x y
  simp only [unions, List.mem_append, List.mem_singleton, Fact.union.injEq, or_and_right,
    eq_iff_iff]
  refine or_congr_right (and_iff_left_of_imp ?_)
  rintro ⟨rfl, rfl⟩
  exact hab

theorem After.constrain (h : After n ops env) (v : ℕ) (t : Ty) :
    After n (ops ++ [.constrain v t]) (env.constrain v t) := by
  have hsets : (env.constrain v t).forest.Represents (unions n (ops ++ [.constrain v t])) := by
    intro x y
    rw [TypeEnv.root_constrain, TypeEnv.root_constrain, unions_constrain]
    exact h.sets x y
  refine ⟨(TypeEnv.size_constrain env v t).trans h.size, hsets, fun x => ?_⟩
  have hfacts : facts n (ops ++ [.constrain v t]) x =
      facts n ops x ∪ {u | u = t ∧ v < n ∧ Linked n ops v x} := by
    ext u
    simp only [facts, Linked, unions_constrain, List.mem_append, List.mem_singleton,
      Fact.constrain.injEq, Set.mem_ofPred_eq, Set.mem_union]
    constructor
    · rintro ⟨w, hw | ⟨rfl, rfl⟩, hlt, hlink⟩
      · exact .inl ⟨w, hw, hlt, hlink⟩
      · exact .inr ⟨rfl, hlt, hlink⟩
    · rintro (⟨w, hw, hlt, hlink⟩ | ⟨rfl, hlt, hlink⟩)
      · exact ⟨w, .inl hw, hlt, hlink⟩
      · exact ⟨v, .inr ⟨rfl, rfl⟩, hlt, hlink⟩
  rw [hfacts]
  by_cases hv : v < env.size
  · rw [TypeEnv.typeOf_constrain hv]
    rw [h.size] at hv
    split_ifs with hx
    · have hlink : Linked n ops v x := (h.root_eq.mp hx).symm
      have hone : {u : Ty | u = t ∧ v < n ∧ Linked n ops v x} = {t} := by
        ext u
        simp [hv, hlink]
      rw [hone]
      exact (h.types x).join (.fact t)
    · have hnone : {u : Ty | u = t ∧ v < n ∧ Linked n ops v x} = ∅ := by
        ext u
        simp only [Set.mem_ofPred_eq, Set.mem_empty_iff_false, iff_false]
        exact fun hu => hx (h.root_eq.mpr hu.2.2.symm)
      rw [hnone, Set.union_empty]
      exact h.types x
  · rw [TypeEnv.constrain_of_not_lt hv]
    rw [h.size] at hv
    have hnone : {u : Ty | u = t ∧ v < n ∧ Linked n ops v x} = ∅ := by
      ext u
      simp [hv]
    rw [hnone, Set.union_empty]
    exact h.types x

theorem After.union (h : After n ops env) (a b : ℕ) :
    After n (ops ++ [.union a b]) (env.union a b) := by
  have hconstrain : ∀ w u, .constrain w u ∈ ops ++ [Fact.union a b] ↔ .constrain w u ∈ ops := by
    simp
  by_cases hab : a < n ∧ b < n
  swap
  · -- out of range
    have hunions : unions n (ops ++ [.union a b]) = unions n ops := by
      funext x y
      simp only [unions, List.mem_append, List.mem_singleton, Fact.union.injEq, eq_iff_iff]
      refine ⟨?_, fun hxy => ⟨.inl hxy.1, hxy.2⟩⟩
      rintro ⟨hxy | ⟨rfl, rfl⟩, hlt⟩
      · exact ⟨hxy, hlt⟩
      · exact absurd hlt hab
    have hsame : env.union a b = env := by
      rw [TypeEnv.union, if_neg (by rwa [h.size])]
    rw [hsame]
    refine ⟨h.size, by rw [hunions]; exact h.sets, fun x => ?_⟩
    have hfacts : facts n (ops ++ [.union a b]) x = facts n ops x := by
      simp only [facts, Linked, hunions, hconstrain]
    rw [hfacts]
    exact h.types x
  have hsets : (env.union a b).forest.Represents (unions n (ops ++ [.union a b])) := by
    have hforest : (env.union a b).forest = env.forest.union a b := by
      rw [TypeEnv.union, if_pos (by rwa [h.size])]
    rw [hforest, unions_union hab]
    exact h.sets.union a b
  refine ⟨(TypeEnv.size_union env a b).trans h.size, hsets, fun x => ?_⟩
  -- who is linked now: those before, and the two sets with each other
  have hlink : ∀ w, Linked n (ops ++ [.union a b]) w x ↔ env.forest.root w = env.forest.root x ∨
      (env.forest.root w = env.forest.root a ∨ env.forest.root w = env.forest.root b) ∧
        (env.forest.root x = env.forest.root a ∨ env.forest.root x = env.forest.root b) := by
    intro w
    rw [Linked, unions_union hab, ← (h.sets.union a b) w x, Forest.root_union_eq_iff]
  have hfacts : ∀ u, u ∈ facts n (ops ++ [.union a b]) x ↔ u ∈ facts n ops x ∨
      (env.forest.root x = env.forest.root a ∨ env.forest.root x = env.forest.root b) ∧
        (u ∈ facts n ops a ∨ u ∈ facts n ops b) := by
    intro u
    simp only [facts, Set.mem_ofPred_eq, hconstrain, hlink]
    simp only [← h.root_eq]
    constructor
    · rintro ⟨v, hv, hlt, hvx | ⟨hva | hvb, hx⟩⟩
      · exact .inl ⟨v, hv, hlt, hvx⟩
      · exact .inr ⟨hx, .inl ⟨v, hv, hlt, hva⟩⟩
      · exact .inr ⟨hx, .inr ⟨v, hv, hlt, hvb⟩⟩
    · rintro (⟨v, hv, hlt, hvx⟩ | ⟨hx, ⟨v, hv, hlt, hva⟩ | ⟨v, hv, hlt, hvb⟩⟩)
      · exact ⟨v, hv, hlt, .inl hvx⟩
      · exact ⟨v, hv, hlt, .inr ⟨.inl hva, hx⟩⟩
      · exact ⟨v, hv, hlt, .inr ⟨.inr hvb, hx⟩⟩
  have hsame : ∀ y, env.forest.root x = env.forest.root y → facts n ops x = facts n ops y :=
    fun y hy => facts_eq_of_linked (h.root_eq.mp hy)
  rw [TypeEnv.typeOf_union (by rwa [h.size])]
  split_ifs with hcase
  · have hset : facts n (ops ++ [.union a b]) x = facts n ops a ∪ facts n ops b := by
      ext u
      rw [hfacts, Set.mem_union]
      constructor
      · rintro (hu | ⟨-, hu⟩)
        · exact hcase.2.imp (fun hx => hsame a hx ▸ hu) fun hx => hsame b hx ▸ hu
        · exact hu
      · exact fun hu => .inr ⟨hcase.2, hu⟩
    rw [hset]
    exact (h.types a).join (h.types b)
  · have hset : facts n (ops ++ [.union a b]) x = facts n ops x := by
      ext u
      rw [hfacts]
      refine or_iff_left_of_imp ?_
      rintro ⟨hx, hu⟩
      -- the two sets are one
      have hroot : env.forest.root a = env.forest.root b := by
        by_contra hne
        exact hcase ⟨hne, hx⟩
      have hxa : env.forest.root x = env.forest.root a := hx.elim id fun hx => hx.trans hroot.symm
      rcases hu with hu | hu
      · exact hsame a hxa ▸ hu
      · exact hsame b (hxa.trans hroot) ▸ hu
    rw [hset]
    exact h.types x

theorem after_new (n : ℕ) : After (max n 1) [] (TypeEnv.new n) where
  size := rfl
  sets := by
    have hnone : unions (max n 1) [] = fun _ _ => False := by
      funext a b
      simp [unions]
    rw [hnone]
    exact Forest.represents_singletons
  types x := by
    have hnone : facts (max n 1) [] x = ∅ := by
      ext t
      simp [facts]
    rw [hnone]
    exact .nil

theorem After.apply (h : After n ops env) (op : Fact) : After n (ops ++ [op]) (env.apply op) := by
  cases op with
  | constrain v t => exact h.constrain v t
  | union a b => exact h.union a b

theorem After.run (h : After n ops env) (more : List Fact) :
    After n (ops ++ more) (more.foldl TypeEnv.apply env) := by
  induction more generalizing ops env with
  | nil => rwa [List.append_nil]
  | cons op more ih =>
    rw [List.foldl_cons, ← List.singleton_append, ← List.append_assoc]
    exact ih (h.apply op)

def run (n : ℕ) (ops : List Fact) : TypeEnv := ops.foldl TypeEnv.apply (TypeEnv.new n)

theorem run_spec (n : ℕ) (ops : List Fact) : After (max n 1) ops (run n ops) :=
  (after_new n).run ops

/-! ### Orders -/

/-- The same sets with the same facts, in any order and number. -/
structure SameFacts (n : ℕ) (ops ops' : List Fact) : Prop where
  linked : ∀ a b, Linked n ops a b ↔ Linked n ops' a b
  facts : ∀ x, facts n ops x = facts n ops' x

theorem sameFacts_of_mem (h : ∀ op, op ∈ ops ↔ op ∈ ops') : SameFacts n ops ops' := by
  have hunions : unions n ops = unions n ops' := by
    funext a b
    rw [unions, unions, h]
  have hlinked : Linked n ops = Linked n ops' := congrArg EqvGen hunions
  refine ⟨fun a b => by rw [hlinked], fun x => ?_⟩
  rw [Types.facts, Types.facts, hlinked]
  simp only [h]

theorem typeOf_eq {v : ℕ} (hc : Compatible (facts (max n 1) ops v))
    (h : SameFacts (max n 1) ops ops') : (run n ops').typeOf v = (run n ops).typeOf v :=
  hc.unique (h.facts v ▸ (run_spec n ops').types v) ((run_spec n ops).types v)

theorem typeOf_facts {v : ℕ} {l : List Ty} (hv : v < env.size) :
    ((l.map (Fact.constrain v)).foldl TypeEnv.apply env).typeOf v =
      l.foldl join (env.typeOf v) := by
  induction l generalizing env with
  | nil => rfl
  | cons t l ih =>
    rw [List.map_cons, List.foldl_cons, List.foldl_cons]
    show ((l.map (Fact.constrain v)).foldl TypeEnv.apply (env.constrain v t)).typeOf v = _
    rw [ih (by rwa [TypeEnv.size_constrain]), TypeEnv.typeOf_constrain hv, if_pos rfl]

theorem typeOf_others {v : ℕ} {l : List Fact}
    (hl : ∀ op ∈ l, ∃ w t, op = .constrain w t ∧ env.forest.root w ≠ env.forest.root v) :
    (l.foldl TypeEnv.apply env).typeOf v = env.typeOf v := by
  induction l generalizing env with
  | nil => rfl
  | cons op l ih =>
    obtain ⟨w, t, rfl, hw⟩ := hl op List.mem_cons_self
    rw [List.foldl_cons]
    show (l.foldl TypeEnv.apply (env.constrain w t)).typeOf v = _
    rw [ih fun op hop => ?_]
    · by_cases hlt : w < env.size
      · rw [TypeEnv.typeOf_constrain hlt, if_neg hw.symm]
      · rw [TypeEnv.constrain_of_not_lt hlt]
    · obtain ⟨u, t', hop', hu⟩ := hl op (List.mem_cons_of_mem _ hop)
      exact ⟨u, t', hop', by rwa [TypeEnv.root_constrain, TypeEnv.root_constrain]⟩

def isUnion : Fact → Bool
  | .union _ _ => true
  | .constrain _ _ => false

open Classical in
/-- The unions first, then the facts of the set of `v` as in `l`, and those of the other sets. -/
noncomputable def arrange (n : ℕ) (ops : List Fact) (v : ℕ) (l : List Ty) : List Fact :=
  ops.filter isUnion ++ l.map (.constrain v) ++ ops.filter fun op =>
    ∃ w t, op = .constrain w t ∧ ¬Linked n ops w v

theorem unions_arrange (v : ℕ) (l : List Ty) : unions n (arrange n ops v l) = unions n ops := by
  funext a b
  have hmem : Fact.union a b ∈ arrange n ops v l ↔ .union a b ∈ ops := by
    simp [arrange, isUnion]
  rw [unions, unions, hmem]

theorem sameFacts_arrange {v : ℕ} (hv : v < n) {l : List Ty}
    (hl : ∀ t, t ∈ l ↔ t ∈ facts n ops v) : SameFacts n ops (arrange n ops v l) := by
  have hlinked : Linked n (arrange n ops v l) = Linked n ops := congrArg EqvGen (unions_arrange v l)
  have hmem : ∀ w t, Fact.constrain w t ∈ arrange n ops v l ↔
      w = v ∧ t ∈ facts n ops v ∨ .constrain w t ∈ ops ∧ ¬Linked n ops w v := by
    intro w t
    rw [← hl]
    simp only [arrange, List.append_assoc, List.mem_append, List.mem_filter, isUnion,
      Bool.false_eq_true, and_false, false_or, List.mem_map, Fact.constrain.injEq,
      decide_eq_true_eq]
    constructor
    · rintro (⟨u, hu, rfl, rfl⟩ | ⟨hw, w', t', ⟨rfl, rfl⟩, hnot⟩)
      · exact .inl ⟨rfl, hu⟩
      · exact .inr ⟨hw, hnot⟩
    · rintro (⟨rfl, ht⟩ | ⟨hw, hnot⟩)
      · exact .inl ⟨t, ht, rfl, rfl⟩
      · exact .inr ⟨hw, w, t, ⟨rfl, rfl⟩, hnot⟩
  refine ⟨fun a b => by rw [hlinked], fun x => ?_⟩
  ext t
  simp only [Types.facts, Set.mem_ofPred_eq, hlinked, hmem]
  constructor
  · rintro ⟨w, hw, hlt, hwx⟩
    by_cases hwv : Linked n ops w v
    · refine ⟨v, .inl ⟨rfl, w, hw, hlt, hwv⟩, hv, ?_⟩
      exact hwv.symm.trans _ _ _ hwx
    · exact ⟨w, .inr ⟨hw, hwv⟩, hlt, hwx⟩
  · rintro ⟨w, ⟨rfl, u, hu, hlt, huv⟩ | ⟨hw, -⟩, hltw, hwx⟩
    · exact ⟨u, hu, hlt, huv.trans _ _ _ hwx⟩
    · exact ⟨w, hw, hltw, hwx⟩

theorem typeOf_arrange (ops : List Fact) {v : ℕ} (hv : v < max n 1) (l : List Ty) :
    (run n (arrange (max n 1) ops v l)).typeOf v = joinAll l := by
  have hfirst := run_spec n (ops.filter isUnion)
  have hnone : facts (max n 1) (ops.filter isUnion) v = ∅ := by
    ext t
    simp [facts, isUnion]
  have hempty : Compatible ∅ := fun d => by
    have hset : {x | Ty.ptr^[d] x ∈ (∅ : Set Ty)} = ∅ := rfl
    rw [hset]
    exact ⟨fun p hp => hp.elim, fun _ _ b b' h => h.1.elim, fun _ _ b s h => h.elim,
      fun _ h => absurd only_empty h⟩
  have hunknown : (run n (ops.filter isUnion)).typeOf v = .unknown :=
    hempty.unique (hnone ▸ hfirst.types v) .nil
  have hsize : v < (run n (ops.filter isUnion)).size := hfirst.size ▸ hv
  rw [run, arrange, List.foldl_append, List.foldl_append, ← run, typeOf_others,
    typeOf_facts hsize, hunknown]
  · rfl
  · intro op hop
    simp only [List.mem_filter, decide_eq_true_eq] at hop
    obtain ⟨-, w, t, rfl, hnot⟩ := hop
    refine ⟨w, t, rfl, fun hroot => hnot ?_⟩
    have hafter := hfirst.run (l.map (Fact.constrain v))
    have hunions : unions (max n 1) (ops.filter isUnion ++ l.map (Fact.constrain v)) =
        unions (max n 1) ops := by
      funext a b
      simp [unions, isUnion]
    have hlink := hafter.root_eq.mp hroot
    rwa [Linked, hunions] at hlink

theorem compatible_of_orderFree {v : ℕ} (hv : v < max n 1)
    (h : ∀ ops', SameFacts (max n 1) ops ops' → (run n ops').typeOf v = (run n ops).typeOf v) :
    Compatible (facts (max n 1) ops v) := by
  classical
  -- the facts of the set as a list
  obtain ⟨l, hl⟩ : ∃ l : List Ty, ∀ t, t ∈ l ↔ t ∈ facts (max n 1) ops v := by
    refine ⟨ops.filterMap fun op => op.casesOn
      (fun w t => if w < max n 1 ∧ Linked (max n 1) ops w v then some t else none)
      fun _ _ => none, fun t => ?_⟩
    rw [List.mem_filterMap]
    constructor
    · rintro ⟨op, hop, heq⟩
      cases op with
      | union a b => cases heq
      | constrain w u =>
        dsimp only at heq
        split_ifs at heq with hw
        obtain rfl := Option.some.inj heq
        exact ⟨w, hop, hw⟩
    · rintro ⟨w, hw, hlt, hlink⟩
      exact ⟨.constrain w t, hw, if_pos ⟨hlt, hlink⟩⟩
  refine compatible_of_folds (l := l) (fun m m' hm hm' => ?_) hl
  rw [← typeOf_arrange ops hv m, ← typeOf_arrange ops hv m',
    h _ (sameFacts_arrange hv hm), h _ (sameFacts_arrange hv hm')]

/-! ### Inference -/

theorem typeOf_get (env : TypeEnv) (v x : ℕ) : (env.get v).1.typeOf x = env.typeOf x := by
  rw [TypeEnv.get]
  split_ifs
  · dsimp only [TypeEnv.find, TypeEnv.typeOf]
    rw [Forest.root_find]
  · rfl

theorem get_snd {v : ℕ} (hv : v < env.size) : (env.get v).2 = env.typeOf v := by
  rw [TypeEnv.get, if_pos hv]
  dsimp only [TypeEnv.find, TypeEnv.typeOf]
  rw [Forest.find_snd]

theorem size_get (env : TypeEnv) (v : ℕ) : (env.get v).1.size = env.size := by
  rw [TypeEnv.get]
  split_ifs <;> rfl

theorem foldl_collectType (env : TypeEnv) (k : ℕ) (hk : k ≤ env.size) :
    let s := (List.range k).foldl collectType (env, fun _ => none)
    (∀ x, s.1.typeOf x = env.typeOf x) ∧ s.1.size = env.size ∧
      ∀ x, s.2 x = if x < k ∧ env.typeOf x ≠ .unknown then some (env.typeOf x) else none := by
  induction k with
  | zero => exact ⟨fun x => rfl, rfl, fun x => by simp⟩
  | succ k ih =>
    obtain ⟨htype, hsize, hout⟩ := ih (by omega)
    rw [List.range_succ, List.foldl_append, List.foldl_cons, List.foldl_nil]
    generalize (List.range k).foldl collectType (env, fun _ => none) = s at htype hsize hout ⊢
    dsimp only [collectType]
    refine ⟨fun x => (typeOf_get s.1 k x).trans (htype x), (size_get s.1 k).trans hsize,
      fun x => ?_⟩
    rw [get_snd (by rw [hsize]; omega), htype]
    by_cases hx : x = k
    · subst hx
      split_ifs with hu hcond hcond
      · exact absurd hu hcond.2
      · rw [hout, if_neg fun h => absurd h.1 (lt_irrefl x)]
      · rw [Function.update_self]
      · exact absurd ⟨Nat.lt_succ_self x, hu⟩ hcond
    · have hkeep : (if env.typeOf k = .unknown then s.2
          else Function.update s.2 k (some (env.typeOf k))) x = s.2 x := by
        split_ifs
        · rfl
        · exact Function.update_of_ne hx _ _
      rw [hkeep, hout]
      refine if_congr (and_congr_left fun _ => ?_) rfl rfl
      exact ⟨Nat.lt_succ_of_lt, fun h => lt_of_le_of_ne (Nat.lt_succ_iff.mp h) hx⟩

theorem infer_eq (f : IrFunction) (v : ValueId) : infer f v =
    if v < f.nextValue ∧ (run f.nextValue (genFunction f)).typeOf v ≠ .unknown then
      some ((run f.nextValue (genFunction f)).typeOf v)
    else none := by
  have hsize : (buildEnv f).size = max f.nextValue 1 :=
    (run_spec f.nextValue (genFunction f)).size
  exact (foldl_collectType (buildEnv f) f.nextValue (hsize ▸ le_max_left _ _)).2.2 v

/-- A function with the same statements in another order. -/
structure Rearranged (f f' : IrFunction) : Prop where
  nextValue : f'.nextValue = f.nextValue
  stmts : (f'.blocks.flatMap Block.stmts).Perm (f.blocks.flatMap Block.stmts)

theorem Rearranged.sameFacts {f f' : IrFunction} (h : Rearranged f f') (n : ℕ) :
    SameFacts n (genFunction f) (genFunction f') := by
  refine sameFacts_of_mem fun op => ?_
  have hgen : ∀ g : IrFunction, op ∈ genFunction g ↔
      ∃ s ∈ g.blocks.flatMap Block.stmts, op ∈ genStmt s := by
    intro g
    simp only [genFunction, List.mem_flatMap]
    constructor
    · rintro ⟨b, hb, s, hs, hop⟩
      exact ⟨s, ⟨b, hb, hs⟩, hop⟩
    · rintro ⟨s, ⟨b, hb, hs⟩, hop⟩
      exact ⟨b, hb, s, hs, hop⟩
  rw [hgen, hgen]
  simp only [h.stmts.mem_iff]

/-- The types are the same in every order of the statements, and for every order and number of the
facts and of the unions, if and only if the facts of each set are compatible. -/
theorem infer_orderFree_iff (f : IrFunction) :
    ((∀ f', Rearranged f f' → infer f' = infer f) ∧
      ∀ ops', SameFacts (max f.nextValue 1) (genFunction f) ops' → ∀ v, v < f.nextValue →
        (run f.nextValue ops').typeOf v = (run f.nextValue (genFunction f)).typeOf v) ↔
      ∀ v, v < f.nextValue → Compatible (facts (max f.nextValue 1) (genFunction f) v) := by
  constructor
  · rintro ⟨-, h⟩ v hv
    exact compatible_of_orderFree (hv.trans_le (le_max_left _ _)) fun ops' hops => h ops' hops v hv
  · intro h
    refine ⟨fun f' hf' => ?_, fun ops' hops v hv => typeOf_eq (h v hv) hops⟩
    funext v
    rw [infer_eq, infer_eq, hf'.nextValue]
    by_cases hv : v < f.nextValue
    · rw [typeOf_eq (h v hv) (hf'.sameFacts _)]
    · rw [if_neg fun h => hv h.1, if_neg fun h => hv h.1]

def comparing (ops : List BinOp) : IrFunction where
  entry := 0
  name := "t"
  bits := 64
  regParams := []
  frameBaseValues := []
  fp80Values := []
  entryValues := []
  blocks := [⟨0, 0, ops.map fun op => .branch (.binary op (.use 0) (.use 1)) 0 0, [], []⟩]
  nextValue := 2
  nextTemp := 0

/-- A signed comparison before an unsigned one and one after it, or both before it. -/
theorem not_infer_orderFree :
    ¬∀ f f' : IrFunction, Rearranged f f' → infer f' = infer f := by
  intro h
  have hperm : Rearranged (comparing [.slt, .slt, .ult]) (comparing [.slt, .ult, .slt]) :=
    ⟨rfl, by decide⟩
  have hsame := congrFun (h _ _ hperm) 0
  have hrun : ∀ x y z : Bool, (run 2 [.constrain 0 (sgn x), .constrain 1 (sgn x),
      .constrain 0 (sgn y), .constrain 1 (sgn y), .constrain 0 (sgn z),
      .constrain 1 (sgn z)]).typeOf 0 = join (join (sgn x) (sgn y)) (sgn z) := by
    intro x y z
    have hroot : ∀ a, (TypeEnv.new 2).forest.root a = a := Forest.root_singletons
    have hunknown : (TypeEnv.new 2).typeOf 0 = .unknown := rfl
    have hsize : (TypeEnv.new 2).size = 2 := rfl
    simp only [run, List.foldl_cons, List.foldl_nil, TypeEnv.apply]
    simp [TypeEnv.typeOf_constrain, TypeEnv.root_constrain, hroot, hunknown, hsize, join]
  have hleft : genFunction (comparing [.slt, .ult, .slt]) = [.constrain 0 (sgn true),
    .constrain 1 (sgn true), .constrain 0 (sgn false), .constrain 1 (sgn false),
    .constrain 0 (sgn true), .constrain 1 (sgn true)] := rfl
  have hright : genFunction (comparing [.slt, .slt, .ult]) = [.constrain 0 (sgn true),
    .constrain 1 (sgn true), .constrain 0 (sgn true), .constrain 1 (sgn true),
    .constrain 0 (sgn false), .constrain 1 (sgn false)] := rfl
  have hvalues : ∀ l, (comparing l).nextValue = 2 := fun _ => rfl
  rw [infer_eq, infer_eq, hleft, hright, hvalues, hvalues, hrun, hrun] at hsame
  exact absurd hsame (by decide)

end Aret.Types
