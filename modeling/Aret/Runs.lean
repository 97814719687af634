/-
Runs of a system that takes one event after another, and properties of each of
their steps.
-/
import Mathlib

namespace Runs

variable {σ ε : Type*} (next : σ → ε → σ) (start : σ)

def run (es : List ε) : σ := es.foldl next start

theorem run_nil : run next start ([] : List ε) = start := rfl

theorem run_cons (e : ε) (es : List ε) :
    run next start (e :: es) = run next (next start e) es := rfl

@[simp] theorem run_concat (es : List ε) (e : ε) :
    run next start (es ++ [e]) = next (run next start es) e :=
  List.foldl_append ..

def Each (P : σ → ε → Prop) (es : List ε) : Prop :=
  ∀ pre e post, es = pre ++ e :: post → P (run next start pre) e

variable {next start}

theorem each_nil {P : σ → ε → Prop} : Each next start P [] := by
  intro pre e post h
  exact nomatch List.append_eq_nil_iff.mp h.symm

theorem each_concat {P : σ → ε → Prop} {es : List ε} {e : ε} :
    Each next start P (es ++ [e]) ↔ Each next start P es ∧ P (run next start es) e := by
  constructor
  · intro h
    refine ⟨fun pre d post hd => h pre d (post ++ [e]) ?_, h es e [] rfl⟩
    rw [hd, List.append_assoc, List.cons_append]
  · rintro ⟨h, hl⟩ pre d post hd
    -- The step is the last one, or lies in the run before it.
    rcases List.eq_nil_or_concat post with rfl | ⟨post', d', rfl⟩
    · obtain ⟨rfl, he⟩ := List.append_inj' hd rfl
      obtain rfl := List.head_eq_of_cons_eq he
      exact hl
    · rw [List.concat_eq_append, ← List.cons_append, ← List.append_assoc] at hd
      exact h pre d post' (List.append_inj' hd rfl).1

theorem each_cons {P : σ → ε → Prop} {e : ε} {es : List ε} :
    Each next start P (e :: es) ↔ P start e ∧ Each next (next start e) P es := by
  constructor
  · intro h
    exact ⟨h [] e es rfl, fun pre d post hd => h (e :: pre) d post (hd ▸ rfl)⟩
  · rintro ⟨h, hes⟩ pre d post hd
    cases pre with
    | nil =>
      obtain ⟨rfl, _⟩ := List.cons.inj hd
      exact h
    | cons e' pre =>
      obtain ⟨rfl, hrest⟩ := List.cons.inj hd
      exact hes pre d post hrest

theorem run_inv {I : σ → Prop} (h : I start) (hs : ∀ s e, I s → I (next s e)) (es : List ε) :
    I (run next start es) := by
  induction es using List.reverseRecOn with
  | nil => exact h
  | append_singleton es e ih =>
    rw [run_concat]
    exact hs _ e ih

theorem run_append (es es' : List ε) :
    run next start (es ++ es') = run next (run next start es) es' :=
  List.foldl_append ..

theorem Each.inv {P : σ → ε → Prop} {I : σ → Prop} {es : List ε} (h : Each next start P es)
    (hI : I start) (hs : ∀ s e, I s → P s e → I (next s e)) (pre post : List ε)
    (hes : es = pre ++ post) : I (run next start pre) := by
  induction pre using List.reverseRecOn generalizing post with
  | nil => exact hI
  | append_singleton pre e ih =>
    have hes' : es = pre ++ e :: post := by
      rw [hes, List.append_assoc, List.singleton_append]
    rw [run_concat]
    exact hs _ e (ih _ hes') (h pre e post hes')

theorem Each.part {P : σ → ε → Prop} {es pre mid post : List ε} (h : Each next start P es)
    (hes : es = pre ++ mid ++ post) : Each next (run next start pre) P mid := by
  intro pre' e post' hmid
  rw [← run_append]
  refine h (pre ++ pre') e (post' ++ post) ?_
  rw [hes, hmid]
  simp only [List.append_assoc, List.cons_append]

theorem each_iff {P Q : σ → ε → Prop} {I H : σ → Prop} (hI : ∀ es, I (run next start es))
    (hH : H start) (hn : ∀ s e, I s → H s → P s e → H (next s e))
    (hpq : ∀ s e, I s → P s e → Q s e) (hqp : ∀ s e, I s → H s → Q s e → P s e) (es : List ε) :
    Each next start P es ↔ Each next start Q es := by
  have hmain : (Each next start P es ↔ Each next start Q es) ∧
      (Each next start P es → H (run next start es)) := by
    induction es using List.reverseRecOn with
    | nil => exact ⟨⟨fun _ => each_nil, fun _ => each_nil⟩, fun _ => hH⟩
    | append_singleton es e ih =>
      obtain ⟨hiff, hreach⟩ := ih
      rw [each_concat, each_concat, run_concat]
      refine ⟨⟨?_, ?_⟩, ?_⟩
      · rintro ⟨h, hl⟩
        exact ⟨hiff.mp h, hpq _ e (hI es) hl⟩
      · rintro ⟨h, hl⟩
        have hp := hiff.mpr h
        exact ⟨hp, hqp _ e (hI es) (hreach hp) hl⟩
      · rintro ⟨h, hl⟩
        exact hn _ e (hI es) (hreach h) hl
  exact hmain.1

end Runs
