/-
Forward propagation over a graph by a work list.

Each node has the weakest of the states that came in along its edges; a node whose
state was weakened is visited again.
-/
import Mathlib.Logic.Function.Basic
import Mathlib.Data.List.Basic

namespace Worklist

variable {ν σ κ : Type}

/-- A propagation problem: the edges, what a node makes of its state, and how a state is
weakened by one that comes in. -/
structure Problem (ν σ : Type) where
  succs : ν → List ν
  transfer : ν → σ → σ
  meet : σ → σ → σ

/-- The order in which weakening goes up. -/
structure Problem.Weakens (p : Problem ν σ) (le : σ → σ → Prop) : Prop where
  refl : ∀ s, le s s
  trans : ∀ r s t, le r s → le s t → le r t
  meet_left : ∀ s t, le s (p.meet s t)
  meet_right : ∀ s t, le t (p.meet s t)

section
variable [DecidableEq ν] [DecidableEq σ] (p : Problem ν σ)

/-- Hand `out` on to the node `b`; it is listed if this weakens its state. -/
def visit (out : σ) (st : (ν → Option σ) × List ν) (b : ν) : (ν → Option σ) × List ν :=
  match st.1 b with
  | none => (Function.update st.1 b (some out), b :: st.2)
  | some cur =>
    if p.meet cur out = cur then st
    else (Function.update st.1 b (some (p.meet cur out)), b :: st.2)

/-- Visit the listed nodes, at most `fuel` of them. -/
def walk : ℕ → List ν → (ν → Option σ) → Option (ν → Option σ)
  | _, [], st => some st
  | 0, _ :: _, _ => none
  | fuel + 1, a :: work, st =>
    match st a with
    | none => walk fuel work st
    | some s =>
      let next := (p.succs a).foldl (visit p (p.transfer a s)) (st, work)
      walk fuel next.2 next.1

end

variable {p : Problem ν σ} {le : σ → σ → Prop} {st st' : ν → Option σ}

/-- What `a` hands on is at least as strong as the states after it. -/
def ClosedAt (p : Problem ν σ) (le : σ → σ → Prop) (st : ν → Option σ) (a : ν) (s : σ) : Prop :=
  ∀ b ∈ p.succs a, ∃ r, st b = some r ∧ le (p.transfer a s) r

def Above (le : σ → σ → Prop) (st st' : ν → Option σ) : Prop :=
  ∀ a s, st a = some s → ∃ r, st' a = some r ∧ le s r

theorem Above.refl (hle : p.Weakens le) (st : ν → Option σ) : Above le st st :=
  fun _ s hs => ⟨s, hs, hle.refl s⟩

theorem Above.trans (hle : p.Weakens le) {st'' : ν → Option σ} (h : Above le st st')
    (h' : Above le st' st'') : Above le st st'' := by
  intro a s hs
  obtain ⟨r, hr, hsr⟩ := h a s hs
  obtain ⟨t, ht, hrt⟩ := h' a r hr
  exact ⟨t, ht, hle.trans s r t hsr hrt⟩

section
variable [DecidableEq ν] [DecidableEq σ]

theorem visit_spec (hle : p.Weakens le) (out : σ) (st : ν → Option σ) (work : List ν) (b : ν) :
    Above le st (visit p out (st, work) b).1 ∧
    (∃ r, (visit p out (st, work) b).1 b = some r ∧ le out r) ∧
    (∀ a ∈ work, a ∈ (visit p out (st, work) b).2) ∧
    ∀ a s, (visit p out (st, work) b).1 a = some s →
      st a = some s ∨ a ∈ (visit p out (st, work) b).2 := by
  cases hb : st b with
  | none =>
    have heq : visit p out (st, work) b = (Function.update st b (some out), b :: work) := by
      simp only [visit, hb]
    rw [heq]
    refine ⟨?_, ⟨out, Function.update_self .., hle.refl out⟩, fun a ha => List.mem_cons_of_mem _ ha,
      ?_⟩
    · intro a s hs
      have hab : a ≠ b := by
        rintro rfl
        simp [hb] at hs
      exact ⟨s, (Function.update_of_ne hab ..).trans hs, hle.refl s⟩
    · intro a s hs
      by_cases hab : a = b
      · exact .inr (hab ▸ List.mem_cons_self)
      · exact .inl ((Function.update_of_ne hab ..).symm.trans hs)
  | some cur =>
    by_cases hsame : p.meet cur out = cur
    · have heq : visit p out (st, work) b = (st, work) := by simp only [visit, hb, if_pos hsame]
      rw [heq]
      refine ⟨Above.refl hle st, ⟨cur, hb, ?_⟩, fun a ha => ha, fun a s hs => .inl hs⟩
      have hmeet := hle.meet_right cur out
      rwa [hsame] at hmeet
    · have heq : visit p out (st, work) b
          = (Function.update st b (some (p.meet cur out)), b :: work) := by
        simp only [visit, hb, if_neg hsame]
      rw [heq]
      refine ⟨?_, ⟨_, Function.update_self .., hle.meet_right cur out⟩,
        fun a ha => List.mem_cons_of_mem _ ha, ?_⟩
      · intro a s hs
        by_cases hab : a = b
        · subst hab
          have hcur : cur = s := by simpa [hb] using hs
          exact ⟨_, Function.update_self .., hcur ▸ hle.meet_left cur out⟩
        · exact ⟨s, (Function.update_of_ne hab ..).trans hs, hle.refl s⟩
      · intro a s hs
        by_cases hab : a = b
        · exact .inr (hab ▸ List.mem_cons_self)
        · exact .inl ((Function.update_of_ne hab ..).symm.trans hs)

theorem foldl_visit_spec (hle : p.Weakens le) (out : σ) (bs : List ν) (st : ν → Option σ)
    (work : List ν) :
    let next := bs.foldl (visit p out) (st, work)
    Above le st next.1 ∧ (∀ b ∈ bs, ∃ r, next.1 b = some r ∧ le out r) ∧
    (∀ a ∈ work, a ∈ next.2) ∧ ∀ a s, next.1 a = some s → st a = some s ∨ a ∈ next.2 := by
  induction bs generalizing st work with
  | nil => exact ⟨Above.refl hle st, by simp, fun a ha => ha, fun a s hs => .inl hs⟩
  | cons b bs ih =>
    obtain ⟨habove, ⟨r, hr, hout⟩, hkeep, hchange⟩ := visit_spec hle out st work b
    set one := visit p out (st, work) b
    obtain ⟨habove', hbs, hkeep', hchange'⟩ := ih one.1 one.2
    refine ⟨habove.trans hle habove', ?_, fun a ha => hkeep' a (hkeep a ha), ?_⟩
    · intro b' hb'
      rcases List.mem_cons.mp hb' with rfl | hb'
      · obtain ⟨t, ht, hrt⟩ := habove' _ r hr
        exact ⟨t, ht, hle.trans out r t hout hrt⟩
      · exact hbs b' hb'
    · intro a s hs
      rcases hchange' a s hs with hone | hlisted
      · rcases hchange a s hone with hst | hlisted
        · exact .inl hst
        · exact .inr (hkeep' a hlisted)
      · exact .inr hlisted

/-- **What the propagation ends with**: states are weakened only, and closed under the
edges, if those of the nodes not listed were. -/
theorem walk_closed (hle : p.Weakens le) {fuel : ℕ} {work : List ν}
    (hinv : ∀ a s, st a = some s → a ∈ work ∨ ClosedAt p le st a s)
    (h : walk p fuel work st = some st') :
    Above le st st' ∧ ∀ a s, st' a = some s → ClosedAt p le st' a s := by
  induction fuel generalizing work st with
  | zero =>
    cases work with
    | nil =>
      rw [walk] at h
      cases h
      exact ⟨Above.refl hle _, fun a s hs => (hinv a s hs).resolve_left (by simp)⟩
    | cons a work => simp [walk] at h
  | succ fuel ih =>
    cases work with
    | nil =>
      rw [walk] at h
      cases h
      exact ⟨Above.refl hle _, fun a s hs => (hinv a s hs).resolve_left (by simp)⟩
    | cons a work =>
      rw [walk] at h
      cases ha : st a with
      | none =>
        simp only [ha] at h
        refine ih (fun b s hs => ?_) h
        refine (hinv b s hs).imp_left fun hb => ?_
        rcases List.mem_cons.mp hb with rfl | hb
        · simp [ha] at hs
        · exact hb
      | some s =>
        simp only [ha] at h
        obtain ⟨habove, hbs, hkeep, hchange⟩ :=
          foldl_visit_spec hle (p.transfer a s) (p.succs a) st work
        set next := (p.succs a).foldl (visit p (p.transfer a s)) (st, work)
        have hnext : ∀ b t, next.1 b = some t → b ∈ next.2 ∨ ClosedAt p le next.1 b t := by
          intro b t hb
          rcases hchange b t hb with hst | hlisted
          · rcases hinv b t hst with hwork | hat
            · rcases List.mem_cons.mp hwork with rfl | hwork
              · -- the node that was visited: its state is as it was when visited
                have hsame : s = t := Option.some.inj (ha.symm.trans hst)
                subst hsame
                exact .inr hbs
              · exact .inl (hkeep b hwork)
            · refine .inr fun c hc => ?_
              obtain ⟨r, hr, hler⟩ := hat c hc
              obtain ⟨r', hr', hle'⟩ := habove c r hr
              exact ⟨r', hr', hle.trans _ r r' hler hle'⟩
          · exact .inl hlisted
        obtain ⟨habove', hclosed⟩ := ih hnext h
        exact ⟨habove.trans hle habove', hclosed⟩

end

/-! ### Runs -/

/-- The nodes and values that a run comes to. -/
inductive Reaches (step : ν → κ → ν → κ → Prop) (entry : ν) (init : κ → Prop) : ν → κ → Prop
  | start {c : κ} (h : init c) : Reaches step entry init entry c
  | step {a b : ν} {c c' : κ} (hr : Reaches step entry init a c) (h : step a c b c') :
    Reaches step entry init b c'

/-- **States describe runs**, if they are closed and each step keeps to an edge and to
what its node makes of a state. -/
theorem Reaches.described {step : ν → κ → ν → κ → Prop} {entry : ν} {init : κ → Prop}
    {γ : σ → κ → Prop} (hclosed : ∀ a s, st a = some s → ClosedAt p le st a s)
    (hentry : ∃ s, st entry = some s ∧ ∀ c, init c → γ s c)
    (hmono : ∀ s t c, le s t → γ s c → γ t c)
    (hstep : ∀ a c b c' s, step a c b c' → γ s c → b ∈ p.succs a ∧ γ (p.transfer a s) c')
    {a : ν} {c : κ} (h : Reaches step entry init a c) : ∃ s, st a = some s ∧ γ s c := by
  induction h with
  | start hinit =>
    obtain ⟨s, hs, hγ⟩ := hentry
    exact ⟨s, hs, hγ _ hinit⟩
  | @step a b c c' _ hab ih =>
    obtain ⟨s, hs, hγ⟩ := ih
    obtain ⟨hb, hγ'⟩ := hstep a c b c' s hab hγ
    obtain ⟨r, hr, hler⟩ := hclosed a s hs b hb
    exact ⟨r, hr, hmono _ _ _ hler hγ'⟩

end Worklist
