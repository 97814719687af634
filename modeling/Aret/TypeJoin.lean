/-
When the join of facts does not depend on how they are joined.
-/
import Aret.Types

namespace Aret.Types

/-- The types that a set of facts comes to. -/
inductive Joined : Set Ty → Ty → Prop
  | nil : Joined ∅ .unknown
  | fact (t : Ty) : Joined {t} t
  | join {S T : Set Ty} {a b : Ty} : Joined S a → Joined T b → Joined (S ∪ T) (join a b)

/-! ### Kinds of types -/

def IsInt : Ty → Prop
  | .int _ _ => True
  | _ => False

def IsFloat : Ty → Prop
  | .float _ => True
  | _ => False

def Pointer : Ty → Prop
  | .ptr _ | .code => True
  | _ => False

def Only (K : Ty → Prop) (S : Set Ty) : Prop := ∀ t ∈ S, t = .unknown ∨ K t

variable {K : Ty → Prop} {S T : Set Ty} {a b t : Ty}

@[simp] theorem only_empty : Only K ∅ := fun _ h => h.elim

@[simp] theorem only_singleton : Only K {t} ↔ t = .unknown ∨ K t := by simp [Only]

@[simp] theorem only_union : Only K (S ∪ T) ↔ Only K S ∧ Only K T := by
  simp only [Only, Set.mem_union, or_imp, forall_and]

def pointees (S : Set Ty) : Set Ty := {x | .ptr x ∈ S}

theorem pointees_union : pointees (S ∪ T) = pointees S ∪ pointees T := rfl

/-- The facts of one depth: with a pointer there are but pointers and integers; integers alone have
one sign at most; and among other kinds integers have no sign and 64 bits at most, and there is more
than one aggregate. -/
structure Level (S : Set Ty) : Prop where
  pointers : ∀ p ∈ S, Pointer p → Only (fun t => Pointer t ∨ IsInt t) S
  signs : (∀ t ∈ S, ¬Pointer t) → Only IsInt S →
    ∀ b b', ¬(.int b (some true) ∈ S ∧ .int b' (some false) ∈ S)
  plain : (∀ t ∈ S, ¬Pointer t) → ¬Only IsInt S → ∀ b s, .int b s ∈ S → b ≤ 64 ∧ s = none
  aggregates : (∀ t ∈ S, ¬Pointer t) → ¬Only IsInt S → ∀ i, ¬Only (· = .aggregate i) S

def Compatible (S : Set Ty) : Prop := ∀ d, Level {x | Ty.ptr^[d] x ∈ S}

theorem Compatible.level (h : Compatible S) : Level S := h 0

theorem Compatible.pointees (h : Compatible S) : Compatible (pointees S) := by
  intro d
  have hd := h (d + 1)
  simp only [Function.iterate_succ_apply'] at hd
  exact hd

/-! ### Compatible facts -/

def PointerValue (S : Set Ty) : Ty → Prop
  | .unknown | .int _ _ => pointees S = ∅ ∧ .code ∉ S
  | .code => pointees S = ∅ ∧ .code ∈ S
  | .ptr x => (pointees S).Nonempty ∧ Joined (pointees S) x
  | _ => False

theorem PointerValue.join (ha : PointerValue S a) (hb : PointerValue T b) :
    PointerValue (S ∪ T) (join a b) := by
  cases a <;> cases b <;>
    simp_all [PointerValue, Types.join, pointees_union]
  exact .join ha.2 hb.2

theorem Joined.pointerValue (h : Joined S a) (hS : Only (fun t => Pointer t ∨ IsInt t) S) :
    PointerValue S a := by
  induction h with
  | nil => simp [PointerValue, Types.pointees]
  | fact t =>
    have hp : ∀ x, Types.pointees {.ptr x} = {x} := by
      intro x
      ext y
      simp [Types.pointees]
    cases t with
    | ptr x =>
      rw [PointerValue, hp]
      exact ⟨Set.singleton_nonempty x, .fact x⟩
    | _ => simp_all [PointerValue, Types.pointees, Pointer, IsInt]
  | join ha hb iha ihb =>
    rw [only_union] at hS
    exact (iha hS.1).join (ihb hS.2)

/-- Integers with one sign at most: the widest, with the sign if there is one. -/
def IntValue (S : Set Ty) : Ty → Prop
  | .unknown => Only (fun _ => False) S
  | .int b s => (∃ s', .int b s' ∈ S) ∧ (∀ b' s', .int b' s' ∈ S → b' ≤ b) ∧
    ∀ x, s = some x ↔ ∃ b', .int b' (some x) ∈ S
  | _ => False

theorem IntValue.join (ha : IntValue S a) (hb : IntValue T b)
    (hsigns : ∀ b b', ¬(.int b (some true) ∈ S ∪ T ∧ .int b' (some false) ∈ S ∪ T)) :
    IntValue (S ∪ T) (join a b) := by
  have hnone : ∀ {S : Set Ty}, Only (fun _ => False) S → ∀ b s, .int b s ∉ S :=
    fun h b s hmem => (h _ hmem).elim nofun id
  cases a with
  | unknown =>
    cases b with
    | unknown => exact only_union.mpr ⟨ha, hb⟩
    | int b s =>
      have hS := hnone ha
      simpa [IntValue, Types.join, hS] using hb
    | _ => exact hb.elim
  | int b₁ s₁ =>
    obtain ⟨⟨s₁', hmem₁⟩, hmax₁, hsign₁⟩ := ha
    cases b with
    | unknown =>
      have hT := hnone hb
      simp only [IntValue, Types.join, Set.mem_union, hT, or_false]
      exact ⟨⟨s₁', hmem₁⟩, hmax₁, hsign₁⟩
    | int b₂ s₂ =>
      obtain ⟨⟨s₂', hmem₂⟩, hmax₂, hsign₂⟩ := hb
      refine ⟨?_, ?_, fun x => ?_⟩
      · rcases le_total b₁ b₂ with hle | hle
        · rw [max_eq_right hle]
          exact ⟨s₂', .inr hmem₂⟩
        · rw [max_eq_left hle]
          exact ⟨s₁', .inl hmem₁⟩
      · rintro b' s' (h | h)
        · exact (hmax₁ b' s' h).trans (le_max_left _ _)
        · exact (hmax₂ b' s' h).trans (le_max_right _ _)
      · -- two signs that are known agree
        have hagree : ∀ x y, s₁ = some x → s₂ = some y → x = y := by
          intro x y hx hy
          obtain ⟨c, hc⟩ := (hsign₁ x).mp hx
          obtain ⟨c', hc'⟩ := (hsign₂ y).mp hy
          cases x with
          | true =>
            cases y with
            | true => rfl
            | false => exact absurd ⟨.inl hc, .inr hc'⟩ (hsigns c c')
          | false =>
            cases y with
            | true => exact absurd ⟨.inr hc', .inl hc⟩ (hsigns c' c)
            | false => rfl
        have hjoin : joinSign s₁ s₂ = some x ↔ s₁ = some x ∨ s₂ = some x := by
          cases s₁ with
          | none => simp [joinSign]
          | some y =>
            cases s₂ with
            | none => simp [joinSign]
            | some z =>
              obtain rfl := hagree y z rfl rfl
              simp [joinSign]
        rw [hjoin, hsign₁, hsign₂, ← exists_or]
        rfl
    | _ => exact hb.elim
  | _ => exact ha.elim

theorem Joined.intValue (h : Joined S a) (hS : Only IsInt S)
    (hsigns : ∀ b b', ¬(.int b (some true) ∈ S ∧ .int b' (some false) ∈ S)) : IntValue S a := by
  induction h with
  | nil => exact only_empty
  | fact t =>
    cases t with
    | unknown => simp [IntValue]
    | int b s => simp [IntValue, eq_comm]
    | _ => simp [IsInt] at hS
  | join ha hb iha ihb =>
    rw [only_union] at hS
    refine (iha hS.1 fun b b' h => ?_).join (ihb hS.2 fun b b' h => ?_) hsigns
    · exact hsigns b b' ⟨.inl h.1, .inl h.2⟩
    · exact hsigns b b' ⟨.inr h.1, .inr h.2⟩

theorem IntValue.unique (ha : IntValue S a) (hb : IntValue S b) : a = b := by
  have hnone : Only (fun _ => False) S → ∀ b s, .int b s ∉ S :=
    fun h b s hmem => (h _ hmem).elim nofun id
  cases a with
  | unknown =>
    cases b with
    | unknown => rfl
    | int b s => exact absurd hb.1.choose_spec (hnone ha _ _)
    | _ => exact hb.elim
  | int b₁ s₁ =>
    obtain ⟨⟨s₁', hmem₁⟩, hmax₁, hsign₁⟩ := ha
    cases b with
    | unknown => exact absurd hmem₁ (hnone hb _ _)
    | int b₂ s₂ =>
      obtain ⟨⟨s₂', hmem₂⟩, hmax₂, hsign₂⟩ := hb
      have hwidth : b₁ = b₂ := le_antisymm (hmax₂ _ _ hmem₁) (hmax₁ _ _ hmem₂)
      have hsign : s₁ = s₂ := Option.ext fun x => (hsign₁ x).trans (hsign₂ x).symm
      rw [hwidth, hsign]
    | _ => exact hb.elim
  | _ => exact ha.elim

/-- Integers without a sign, floats, booleans and aggregates: a mix is a scalar of 64 bits. -/
def PlainValue (S : Set Ty) : Ty → Prop
  | .unknown => Only (fun _ => False) S
  | .int b s => s = none ∧ b ≤ 64 ∧ ((∃ t ∈ S, IsInt t) ∧ Only IsInt S ∨
    b = 64 ∧ ¬Only IsInt S ∧ ¬Only IsFloat S ∧ ¬Only (· = .bool) S)
  | .float b => Only IsFloat S ∧ .float b ∈ S ∧ ∀ b', .float b' ∈ S → b' ≤ b
  | .bool => Only (· = .bool) S ∧ .bool ∈ S
  | .aggregate i => Only (· = .aggregate i) S ∧ .aggregate i ∈ S
  | _ => False

namespace PlainValue

theorem union_unknown (hS : Only (fun _ => False) S) (hb : PlainValue T b) :
    PlainValue (S ∪ T) b := by
  have hK : ∀ K, Only K S := fun K t ht => (hS t ht).imp_right False.elim
  have hmem : ∀ {t}, t ≠ .unknown → (t ∈ S ∪ T ↔ t ∈ T) := fun hne =>
    or_iff_right fun ht => (hS _ ht).elim hne id
  cases b with
  | unknown => exact only_union.mpr ⟨hS, hb⟩
  | int b s =>
    obtain ⟨hs, hle, ⟨⟨t, ht, hint⟩, honly⟩ | ⟨hwide, hmix⟩⟩ := hb
    · exact ⟨hs, hle, .inl ⟨⟨t, .inr ht, hint⟩, only_union.mpr ⟨hK _, honly⟩⟩⟩
    · refine ⟨hs, hle, .inr ⟨hwide, ?_⟩⟩
      simp only [only_union, hK, true_and]
      exact hmix
  | float b =>
    obtain ⟨honly, hin, hmax⟩ := hb
    exact ⟨only_union.mpr ⟨hK _, honly⟩, .inr hin,
      fun b' hb' => hmax b' ((hmem (t := .float b') nofun).mp hb')⟩
  | bool => exact ⟨only_union.mpr ⟨hK _, hb.1⟩, .inr hb.2⟩
  | aggregate i => exact ⟨only_union.mpr ⟨hK _, hb.1⟩, .inr hb.2⟩
  | _ => exact hb.elim

theorem not_onlyInt (ha : PlainValue S a) (hne : a ≠ .unknown) (hint : ¬IsInt a) :
    ¬Only IsInt S := by
  intro h
  cases a with
  | unknown => exact hne rfl
  | int b s => exact hint trivial
  | float b => exact (h _ ha.2.1).elim nofun id
  | bool => exact (h _ ha.2).elim nofun id
  | aggregate i => exact (h _ ha.2).elim nofun id
  | _ => exact ha.elim

theorem not_onlyFloat (ha : PlainValue S a) (hne : a ≠ .unknown) (hfloat : ¬IsFloat a) :
    ¬Only IsFloat S := by
  intro h
  cases a with
  | unknown => exact hne rfl
  | int b s =>
    obtain ⟨-, -, ⟨⟨t, ht, hint⟩, -⟩ | ⟨-, -, hmix, -⟩⟩ := ha
    · rcases h t ht with rfl | ht'
      · exact hint
      · cases t with
        | float b => exact hint
        | _ => exact ht'
    · exact hmix h
  | float b => exact hfloat trivial
  | bool => exact (h _ ha.2).elim nofun id
  | aggregate i => exact (h _ ha.2).elim nofun id
  | _ => exact ha.elim

theorem not_onlyBool (ha : PlainValue S a) (hne : a ≠ .unknown) (hbool : a ≠ .bool) :
    ¬Only (· = .bool) S := by
  intro h
  cases a with
  | unknown => exact hne rfl
  | int b s =>
    obtain ⟨-, -, ⟨⟨t, ht, hint⟩, -⟩ | ⟨-, -, -, hmix⟩⟩ := ha
    · rcases h t ht with rfl | rfl
      · exact hint
      · exact hint
    · exact hmix h
  | float b => exact (h _ ha.2.1).elim nofun nofun
  | bool => exact hbool rfl
  | aggregate i => exact (h _ ha.2).elim nofun nofun
  | _ => exact ha.elim

theorem mixed (ha : PlainValue S a) (hb : PlainValue T b) (hane : a ≠ .unknown)
    (hbne : b ≠ .unknown) (hint : ¬IsInt a ∨ ¬IsInt b) (hfloat : ¬IsFloat a ∨ ¬IsFloat b)
    (hbool : a ≠ .bool ∨ b ≠ .bool) : PlainValue (S ∪ T) (.int 64 none) := by
  refine ⟨rfl, le_rfl, .inr ⟨rfl, fun h => ?_, fun h => ?_, fun h => ?_⟩⟩
  all_goals rw [only_union] at h
  · exact hint.elim (fun hk => ha.not_onlyInt hane hk h.1) fun hk => hb.not_onlyInt hbne hk h.2
  · exact hfloat.elim (fun hk => ha.not_onlyFloat hane hk h.1)
      fun hk => hb.not_onlyFloat hbne hk h.2
  · exact hbool.elim (fun hk => ha.not_onlyBool hane hk h.1)
      fun hk => hb.not_onlyBool hbne hk h.2

theorem join (ha : PlainValue S a) (hb : PlainValue T b) : PlainValue (S ∪ T) (join a b) := by
  cases a with
  | unknown =>
    rw [show Types.join .unknown b = b by cases b <;> rfl]
    exact union_unknown ha hb
  | int b₁ s₁ =>
    cases b with
    | unknown => exact Set.union_comm S T ▸ union_unknown hb ha
    | int b₂ s₂ =>
      obtain ⟨rfl, hle₁, h₁⟩ := ha
      obtain ⟨rfl, hle₂, h₂⟩ := hb
      refine ⟨rfl, max_le hle₁ hle₂, ?_⟩
      simp only [only_union]
      rcases h₁ with ⟨⟨t, ht, hint⟩, honly₁⟩ | ⟨rfl, hi₁, hf₁, hb₁⟩
      · rcases h₂ with ⟨-, honly₂⟩ | ⟨rfl, hi₂, hf₂, hb₂⟩
        · exact .inl ⟨⟨t, .inl ht, hint⟩, honly₁, honly₂⟩
        · exact .inr ⟨max_eq_right hle₁, fun h => hi₂ h.2, fun h => hf₂ h.2, fun h => hb₂ h.2⟩
      · exact .inr ⟨max_eq_left hle₂, fun h => hi₁ h.1, fun h => hf₁ h.1, fun h => hb₁ h.1⟩
    | ptr _ => exact hb.elim
    | code => exact hb.elim
    | _ => exact ha.mixed hb nofun nofun (.inr id) (.inl id) (.inl nofun)
  | float b₁ =>
    cases b with
    | unknown => exact Set.union_comm S T ▸ union_unknown hb ha
    | float b₂ =>
      obtain ⟨honly₁, hin₁, hmax₁⟩ := ha
      obtain ⟨honly₂, hin₂, hmax₂⟩ := hb
      refine ⟨only_union.mpr ⟨honly₁, honly₂⟩, ?_, ?_⟩
      · rcases le_total b₁ b₂ with hle | hle
        · rw [max_eq_right hle]
          exact .inr hin₂
        · rw [max_eq_left hle]
          exact .inl hin₁
      · rintro b' (h | h)
        · exact (hmax₁ b' h).trans (le_max_left _ _)
        · exact (hmax₂ b' h).trans (le_max_right _ _)
    | ptr _ => exact hb.elim
    | code => exact hb.elim
    | _ => exact ha.mixed hb nofun nofun (.inl id) (.inr id) (.inl nofun)
  | bool =>
    cases b with
    | unknown => exact Set.union_comm S T ▸ union_unknown hb ha
    | bool => exact ⟨only_union.mpr ⟨ha.1, hb.1⟩, .inl ha.2⟩
    | ptr _ => exact hb.elim
    | code => exact hb.elim
    | _ => exact ha.mixed hb nofun nofun (.inl id) (.inl id) (.inr nofun)
  | aggregate i =>
    cases b with
    | unknown => exact Set.union_comm S T ▸ union_unknown hb ha
    | ptr _ => exact hb.elim
    | code => exact hb.elim
    | _ => exact ha.mixed hb nofun nofun (.inl id) (.inl id) (.inl nofun)
  | _ => exact ha.elim

theorem unique (ha : PlainValue S a) (hb : PlainValue S b) (hint : ¬Only IsInt S)
    (hagg : ∀ i, ¬Only (· = .aggregate i) S) : a = b := by
  have hunknown : ¬PlainValue S .unknown := fun h => hint fun t ht => (h t ht).imp_right False.elim
  have hmix : ∀ c s, PlainValue S (.int c s) → c = 64 ∧ s = none ∧ ¬Only IsFloat S ∧
      ¬Only (· = .bool) S := by
    rintro c s ⟨rfl, -, ⟨-, honly⟩ | ⟨rfl, -, hf, hb⟩⟩
    · exact absurd honly hint
    · exact ⟨rfl, rfl, hf, hb⟩
  cases a with
  | unknown => exact absurd ha hunknown
  | int b₁ s₁ =>
    obtain ⟨rfl, rfl, hf, hbool⟩ := hmix _ _ ha
    cases b with
    | unknown => exact absurd hb hunknown
    | int b₂ s₂ =>
      obtain ⟨rfl, rfl, -⟩ := hmix _ _ hb
      rfl
    | float b₂ => exact absurd hb.1 hf
    | bool => exact absurd hb.1 hbool
    | aggregate i => exact absurd hb.1 (hagg i)
    | _ => exact hb.elim
  | float b₁ =>
    cases b with
    | unknown => exact absurd hb hunknown
    | int b₂ s₂ => exact absurd ha.1 (hmix _ _ hb).2.2.1
    | float b₂ => rw [le_antisymm (hb.2.2 _ ha.2.1) (ha.2.2 _ hb.2.1)]
    | bool => exact ((ha.1 _ hb.2).elim nofun id).elim
    | aggregate i => exact absurd hb.1 (hagg i)
    | _ => exact hb.elim
  | bool =>
    cases b with
    | unknown => exact absurd hb hunknown
    | int b₂ s₂ => exact absurd ha.1 (hmix _ _ hb).2.2.2
    | float b₂ => exact ((hb.1 _ ha.2).elim nofun id).elim
    | bool => rfl
    | aggregate i => exact absurd hb.1 (hagg i)
    | _ => exact hb.elim
  | aggregate i => exact absurd ha.1 (hagg i)
  | _ => exact ha.elim

end PlainValue

theorem Joined.plainValue (h : Joined S a) (hp : ∀ t ∈ S, ¬Pointer t)
    (hplain : ∀ b s, .int b s ∈ S → b ≤ 64 ∧ s = none) : PlainValue S a := by
  induction h with
  | nil => exact only_empty
  | fact t =>
    cases t with
    | unknown => simp [PlainValue]
    | int b s =>
      obtain ⟨hle, rfl⟩ := hplain b s rfl
      exact ⟨rfl, hle, .inl ⟨⟨_, rfl, trivial⟩, by simp [IsInt]⟩⟩
    | float b => exact ⟨by simp [IsFloat], rfl, by simp⟩
    | bool => exact ⟨by simp, rfl⟩
    | aggregate i => exact ⟨by simp, rfl⟩
    | _ => exact absurd trivial (hp _ rfl)
  | join ha hb iha ihb =>
    refine (iha (fun t ht => hp t (.inl ht)) fun b s h => hplain b s (.inl h)).join
      (ihb (fun t ht => hp t (.inr ht)) fun b s h => hplain b s (.inr h))

theorem PointerValue.of_pointer {p : Ty} (ha : PointerValue S a) (hpS : p ∈ S) (hp : Pointer p) :
    a = .code ∧ pointees S = ∅ ∨
      ∃ x, a = .ptr x ∧ (pointees S).Nonempty ∧ Joined (pointees S) x := by
  have hnot : ¬(pointees S = ∅ ∧ .code ∉ S) := by
    rintro ⟨hnone, hcode⟩
    cases p with
    | ptr x => exact Set.notMem_empty x (hnone ▸ hpS)
    | code => exact hcode hpS
    | _ => exact hp
  cases a with
  | unknown => exact absurd ha hnot
  | int b s => exact absurd ha hnot
  | code => exact .inl ⟨rfl, ha.1⟩
  | ptr x => exact .inr ⟨x, rfl, ha⟩
  | _ => exact ha.elim

theorem Level.unique (h : Level S) (hp : ∀ t ∈ S, ¬Pointer t) (ha : Joined S a)
    (hb : Joined S b) : a = b := by
  by_cases hint : Only IsInt S
  · have hsigns := h.signs hp hint
    exact (ha.intValue hint hsigns).unique (hb.intValue hint hsigns)
  · have hplain := h.plain hp hint
    exact (ha.plainValue hp hplain).unique (hb.plainValue hp hplain) hint (h.aggregates hp hint)

theorem Compatible.unique (h : Compatible S) (ha : Joined S a) (hb : Joined S b) : a = b := by
  -- what is pointed to is in turn joined of the pointees
  induction a generalizing S b with
  | ptr x ih =>
    by_cases hp : ∃ p ∈ S, Pointer p
    · obtain ⟨p, hpS, hp⟩ := hp
      have honly := h.level.pointers p hpS hp
      obtain ⟨hcode, -⟩ | ⟨y, hy, hyne, hyS⟩ := (ha.pointerValue honly).of_pointer hpS hp
      · exact absurd hcode nofun
      · obtain rfl := Ty.ptr.inj hy
        obtain ⟨-, hnone⟩ | ⟨z, rfl, -, hzS⟩ := (hb.pointerValue honly).of_pointer hpS hp
        · exact absurd hnone hyne.ne_empty
        · rw [ih h.pointees hyS hzS]
    · push Not at hp
      exact h.level.unique hp ha hb
  | _ =>
    by_cases hp : ∃ p ∈ S, Pointer p
    · obtain ⟨p, hpS, hp⟩ := hp
      have honly := h.level.pointers p hpS hp
      obtain ⟨hcode, hnone⟩ | ⟨y, hy, -⟩ := (ha.pointerValue honly).of_pointer hpS hp
      · obtain ⟨rfl, -⟩ | ⟨z, -, hne, -⟩ := (hb.pointerValue honly).of_pointer hpS hp
        · exact hcode
        · exact absurd hnone hne.ne_empty
      · exact absurd hy nofun
    · push Not at hp
      exact h.level.unique hp ha hb

/-! ### Facts that are compatible -/

def joinAll (l : List Ty) : Ty := l.foldl join .unknown

@[simp] theorem joinAll_append_singleton (l : List Ty) (t : Ty) :
    joinAll (l ++ [t]) = join (joinAll l) t := by
  rw [joinAll, List.foldl_append]
  rfl

def FoldsAgree (S : Set Ty) : Prop :=
  ∀ l l' : List Ty, (∀ t, t ∈ l ↔ t ∈ S) → (∀ t, t ∈ l' ↔ t ∈ S) → joinAll l = joinAll l'

theorem FoldsAgree.append {l : List Ty} (h : FoldsAgree S) (hl : ∀ t, t ∈ l ↔ t ∈ S)
    (m m' : List Ty) (hm : ∀ t ∈ m, t ∈ S) (hm' : ∀ t ∈ m', t ∈ S) : joinAll (l ++ m) = joinAll (l ++ m') := by
  have hmem : ∀ n : List Ty, (∀ t ∈ n, t ∈ S) → ∀ t, t ∈ l ++ n ↔ t ∈ S := by
    intro n hn t
    rw [List.mem_append, hl]
    exact or_iff_left_of_imp (hn t)
  exact h _ _ (hmem m hm) (hmem m' hm')

theorem pointer_join_join {p : Ty} (hp : Pointer p) (a : Ty) : Pointer (join (join a p) p) := by
  cases p with
  | ptr x => cases a <;> trivial
  | code => cases a <;> trivial
  | _ => exact hp.elim

theorem not_pointer_join (ha : ¬Pointer a) (hb : ¬Pointer b) : ¬Pointer (join a b) := by
  cases a <;> cases b <;> first | exact id | exact ha | exact hb

theorem not_pointer_joinAll {l : List Ty} (h : ∀ t ∈ l, ¬Pointer t) : ¬Pointer (joinAll l) := by
  induction l using List.reverseRecOn with
  | nil => exact id
  | append_singleton l t ih =>
    rw [joinAll_append_singleton]
    exact not_pointer_join (ih fun t ht => h t (List.mem_append_left _ ht))
      (h t (by simp))

theorem isInt_join {b : ℕ} {s : Option Bool} (ha : ¬Pointer a) : IsInt (join a (.int b s)) := by
  cases a <;> first | trivial | exact absurd trivial ha

theorem join_other (ha : Pointer a ∨ IsInt a) (hp : ¬Pointer t) (hi : ¬IsInt t)
    (hu : t ≠ .unknown) : join a t = .int 64 none := by
  cases t with
  | unknown => exact absurd rfl hu
  | int b s => exact absurd trivial hi
  | ptr x => exact absurd trivial hp
  | code => exact absurd trivial hp
  | _ =>
    cases a with
    | int b s => rfl
    | ptr x => rfl
    | code => rfl
    | _ => exact (ha.elim id id).elim

theorem FoldsAgree.pointers {l : List Ty} (h : FoldsAgree S) (hl : ∀ t, t ∈ l ↔ t ∈ S) :
    ∀ p ∈ S, Pointer p → Only (fun t => Pointer t ∨ IsInt t) S := by
  intro p hpS hp t ht
  by_contra hother
  push Not at hother
  obtain ⟨hu, htp, hti⟩ := hother
  -- the pointer twice, and the other kind at the end or not
  have hagree := h.append hl [p, p] [p, p, t] (by simp [hpS]) (by simp [hpS, ht])
  have hpp := pointer_join_join hp (joinAll l)
  have hleft : joinAll (l ++ [p, p]) = join (join (joinAll l) p) p := by
    rw [joinAll, List.foldl_append]
    rfl
  have hright : joinAll (l ++ [p, p, t]) = join (join (join (joinAll l) p) p) t := by
    rw [joinAll, List.foldl_append]
    rfl
  rw [hleft, hright, join_other (.inl hpp) htp hti hu] at hagree
  rw [hagree] at hpp
  exact hpp

theorem FoldsAgree.signs {l : List Ty} (h : FoldsAgree S) (hl : ∀ t, t ∈ l ↔ t ∈ S)
    (hp : ∀ t ∈ S, ¬Pointer t) (b b' : ℕ) :
    ¬(.int b (some true) ∈ S ∧ .int b' (some false) ∈ S) := by
  rintro ⟨htrue, hfalse⟩
  have hagree := h.append hl [.int b (some true), .int b (some true)]
    [.int b (some true), .int b (some true), .int b' (some false)]
    (by simp [htrue]) (by simp [htrue, hfalse])
  have hint := isInt_join (b := b) (s := some true)
    (not_pointer_joinAll fun t ht => hp t ((hl t).mp ht))
  rw [joinAll, joinAll, List.foldl_append, List.foldl_append] at hagree
  simp only [List.foldl_cons, List.foldl_nil] at hagree
  rw [← joinAll] at hagree
  generalize join (joinAll l) (.int b (some true)) = v at hint hagree
  cases v with
  | int c s =>
    -- the sign is there after the second time, and gone after the other one
    have hsign := (Ty.int.inj hagree).2
    cases s with
    | none => exact absurd hsign (by decide)
    | some x => cases x <;> exact absurd hsign (by decide)
  | _ => exact hint.elim

theorem FoldsAgree.plain {l : List Ty} (h : FoldsAgree S) (hl : ∀ t, t ∈ l ↔ t ∈ S)
    (hp : ∀ t ∈ S, ¬Pointer t) (hint : ¬Only IsInt S) :
    ∀ b s, .int b s ∈ S → b ≤ 64 ∧ s = none := by
  intro b s hmem
  simp only [Only, not_forall, not_or] at hint
  obtain ⟨x, hxS, hxu, hxi⟩ := hint
  -- the integer is lost before the other kind, and found again after it
  have hagree := h.append hl [.int b s, x] [.int b s, x, .int b s]
    (by simp [hmem, hxS]) (by simp [hmem, hxS])
  have hv := isInt_join (b := b) (s := s) (not_pointer_joinAll fun t ht => hp t ((hl t).mp ht))
  rw [joinAll, joinAll, List.foldl_append, List.foldl_append] at hagree
  simp only [List.foldl_cons, List.foldl_nil] at hagree
  rw [← joinAll, join_other (.inr hv) (hp x hxS) hxi hxu] at hagree
  obtain ⟨hwidth, hsign⟩ := Ty.int.inj hagree
  refine ⟨by omega, ?_⟩
  cases s with
  | none => rfl
  | some x => exact absurd hsign nofun

theorem FoldsAgree.aggregates {l : List Ty} (h : FoldsAgree S) (hl : ∀ t, t ∈ l ↔ t ∈ S)
    (hint : ¬Only IsInt S) (i : ℕ) : ¬Only (· = .aggregate i) S := by
  intro honly
  simp only [Only, not_forall, not_or] at hint
  obtain ⟨x, hxS, hxu, -⟩ := hint
  have hx : x = .aggregate i := (honly x hxS).resolve_left hxu
  subst hx
  -- the aggregate once or twice, after what is unknown
  have hunknown : ∀ m : List Ty, (∀ t ∈ m, t = .unknown) → joinAll m = .unknown := by
    intro m hm
    induction m using List.reverseRecOn with
    | nil => rfl
    | append_singleton m t ih =>
      rw [joinAll_append_singleton, ih fun t ht => hm t (List.mem_append_left _ ht),
        hm t (by simp)]
      rfl
  have hmem : ∀ n, ∀ t, t ∈ l.filter (· = .unknown) ++ List.replicate (n + 1) (.aggregate i) ↔
      t ∈ S := by
    intro n t
    rw [List.mem_append, List.mem_filter, hl, List.mem_replicate, decide_eq_true_eq]
    constructor
    · rintro (⟨ht, -⟩ | ⟨-, rfl⟩)
      · exact ht
      · exact hxS
    · intro ht
      rcases honly t ht with hu | ha
      · exact .inl ⟨ht, hu⟩
      · exact .inr ⟨Nat.succ_ne_zero n, ha⟩
  have hagree := h _ _ (hmem 0) (hmem 1)
  rw [joinAll, joinAll, List.foldl_append, List.foldl_append, ← joinAll,
    hunknown _ fun t ht => by simpa using (List.mem_filter.mp ht).2] at hagree
  have htwice : Ty.aggregate i = .int 64 none := hagree
  exact absurd htwice nofun

theorem FoldsAgree.level {l : List Ty} (h : FoldsAgree S) (hl : ∀ t, t ∈ l ↔ t ∈ S) : Level S where
  pointers := h.pointers hl
  signs hp _ := h.signs hl hp
  plain hp hint := h.plain hl hp hint
  aggregates _ hint := h.aggregates hl hint

theorem joinAll_map_ptr (m : List Ty) (hne : m ≠ []) : joinAll (m.map .ptr) = .ptr (joinAll m) := by
  induction m using List.reverseRecOn with
  | nil => exact absurd rfl hne
  | append_singleton m t ih =>
    rw [List.map_append, List.map_singleton, joinAll_append_singleton, joinAll_append_singleton]
    by_cases hm : m = []
    · subst hm
      rfl
    · rw [ih hm]
      rfl

theorem joinAll_ptr_append {m n : List Ty} {x : Ty} (hm : joinAll m = .ptr x)
    (hn : ∀ t ∈ n, t = .unknown ∨ t = .code ∨ IsInt t) : joinAll (m ++ n) = .ptr x := by
  induction n using List.reverseRecOn with
  | nil => rwa [List.append_nil]
  | append_singleton n t ih =>
    rw [← List.append_assoc, joinAll_append_singleton,
      ih fun t ht => hn t (List.mem_append_left _ ht)]
    rcases hn t (by simp) with rfl | rfl | hint
    · rfl
    · rfl
    · cases t with
      | int b s => rfl
      | _ => exact hint.elim

theorem FoldsAgree.pointees {l : List Ty} (h : FoldsAgree S) (hl : ∀ t, t ∈ l ↔ t ∈ S) :
    FoldsAgree (pointees S) := by
  intro m m' hm hm'
  by_cases hne : m = []
  · subst hne
    have hnil : m' = [] := List.eq_nil_iff_forall_not_mem.mpr fun t ht =>
      List.not_mem_nil ((hm t).mpr ((hm' t).mp ht))
    rw [hnil]
  have hne' : m' ≠ [] := by
    rintro rfl
    exact hne (List.eq_nil_iff_forall_not_mem.mpr fun t ht =>
      List.not_mem_nil ((hm' t).mpr ((hm t).mp ht)))
  -- what is not a pointer to data goes to the end
  obtain ⟨y, hy⟩ := List.exists_mem_of_ne_nil m hne
  have honly := h.pointers hl _ ((hm y).mp hy) trivial
  have hrest : ∀ t ∈ l.filter (fun t => ∀ x ∈ m, t ≠ .ptr x),
      t = .unknown ∨ t = .code ∨ IsInt t := by
    intro t ht
    obtain ⟨htl, hnot⟩ := List.mem_filter.mp ht
    have htS := (hl t).mp htl
    rcases honly t htS with hu | hp | hi
    · exact .inl hu
    · cases t with
      | ptr x => exact absurd rfl (of_decide_eq_true hnot x ((hm x).mpr htS))
      | code => exact .inr (.inl rfl)
      | _ => exact hp.elim
    · exact .inr (.inr hi)
  have hall : ∀ n : List Ty, (∀ t, t ∈ n ↔ t ∈ Types.pointees S) →
      ∀ t, t ∈ n.map .ptr ++ l.filter (fun t => ∀ x ∈ m, t ≠ .ptr x) ↔ t ∈ S := by
    intro n hn t
    rw [List.mem_append, List.mem_map, List.mem_filter, hl]
    constructor
    · rintro (⟨x, hx, rfl⟩ | ⟨ht, -⟩)
      · exact (hn x).mp hx
      · exact ht
    · intro ht
      by_cases hx : ∃ x, t = .ptr x
      · obtain ⟨x, rfl⟩ := hx
        exact .inl ⟨x, (hn x).mpr ht, rfl⟩
      · exact .inr ⟨ht, decide_eq_true fun x _ heq => hx ⟨x, heq⟩⟩
  have hagree := h _ _ (hall m hm) (hall m' hm')
  rw [joinAll_ptr_append (joinAll_map_ptr m hne) hrest,
    joinAll_ptr_append (joinAll_map_ptr m' hne') hrest] at hagree
  exact Ty.ptr.inj hagree

def pointee : Ty → Option Ty
  | .ptr x => some x
  | _ => none

theorem compatible_of_folds {l : List Ty} (h : FoldsAgree S) (hl : ∀ t, t ∈ l ↔ t ∈ S) :
    Compatible S := by
  intro d
  induction d generalizing S l with
  | zero => exact h.level hl
  | succ d ih =>
    have hlist : ∀ t, t ∈ l.filterMap pointee ↔ t ∈ pointees S := by
      intro t
      rw [List.mem_filterMap]
      constructor
      · rintro ⟨p, hp, hpt⟩
        cases p with
        | ptr x =>
          obtain rfl := Option.some.inj hpt
          exact (hl _).mp hp
        | _ => exact absurd hpt nofun
      · exact fun ht => ⟨.ptr t, (hl _).mpr ht, rfl⟩
    have hd := ih (h.pointees hl) hlist
    simp only [Function.iterate_succ_apply']
    exact hd

end Aret.Types
