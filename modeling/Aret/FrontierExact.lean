/-
Dominance frontiers are where dominance ends, and the loops that find them end.

* `frontiers_exact` — a join is in the frontier of the reachable nodes that dominate
  one of its predecessors and do not strictly dominate itself.
-/
import Aret.DomExact

namespace Aret

open ParentMap

/-! ### The walks -/

/-- The loop that walks up from a predecessor of `b`, and notes `b` where it comes by. -/
def frontierRun? (idom : ℕ → Option ℕ) (b : ℕ) :
    ℕ → (ℕ → List ℕ) → Option ℕ → Option (ℕ → List ℕ)
  | 0, _, _ => none
  | _ + 1, df, none => some df
  | fuel + 1, df, some runner =>
    if some runner = idom b then some df
    else
      let df := if b ∈ df runner then df else Function.update df runner (df runner ++ [b])
      if idom runner = some runner then some df else frontierRun? idom b fuel df (idom runner)

/-- `dominance_frontiers`, by rounds. -/
def dominanceFrontiers? (fuel n : ℕ) (preds : ℕ → List ℕ) (idom : ℕ → Option ℕ) :
    Option (ℕ → List ℕ) :=
  (List.range n).foldlM (fun df b =>
    if (preds b).length < 2 ∨ idom b = none then some df
    else (preds b).foldlM (fun df p => frontierRun? idom b fuel df (some p)) df) fun _ => []

/-- `b` at the end of a list, unless it is there. -/
def noted (b : ℕ) (l : List ℕ) : List ℕ := if b ∈ l then l else l ++ [b]

theorem noted_noted (b : ℕ) (l : List ℕ) : noted b (noted b l) = noted b l := by
  have hmem : b ∈ noted b l := by
    unfold noted
    split_ifs with hb
    · exact hb
    · exact List.mem_append_right _ (List.mem_singleton_self b)
  exact if_pos hmem

/-- `b` has been noted at the nodes in `s`, and nothing else has changed. -/
def Notes (b : ℕ) (s : ℕ → Prop) (df df' : ℕ → List ℕ) : Prop :=
  ∀ v, (s v → df' v = noted b (df v)) ∧ (¬s v → df' v = df v)

theorem Notes.none (b : ℕ) (df : ℕ → List ℕ) : Notes b (fun _ => False) df df :=
  fun _ => ⟨False.elim, fun _ => rfl⟩

theorem Notes.append {b : ℕ} {s t : ℕ → Prop} {df df₁ df₂ : ℕ → List ℕ} (h : Notes b s df df₁)
    (h' : Notes b t df₁ df₂) : Notes b (fun v => s v ∨ t v) df df₂ := by
  intro v
  by_cases hs : s v <;> by_cases ht : t v
  · refine ⟨fun _ => ?_, fun hn => absurd (.inl hs) hn⟩
    rw [(h' v).1 ht, (h v).1 hs, noted_noted]
  · refine ⟨fun _ => ?_, fun hn => absurd (.inl hs) hn⟩
    rw [(h' v).2 ht, (h v).1 hs]
  · refine ⟨fun _ => ?_, fun hn => absurd (.inr ht) hn⟩
    rw [(h' v).1 ht, (h v).2 hs]
  · refine ⟨fun hor => (hor.elim hs ht).elim, fun _ => ?_⟩
    rw [(h' v).2 ht, (h v).2 hs]

theorem Notes.congr {b : ℕ} {s t : ℕ → Prop} {df df' : ℕ → List ℕ} (h : Notes b s df df')
    (hst : ∀ v, s v ↔ t v) : Notes b t df df' :=
  fun v => ⟨fun hv => (h v).1 ((hst v).mpr hv), fun hv => (h v).2 fun hs => hv ((hst v).mp hs)⟩

theorem notes_runner (b runner : ℕ) (df : ℕ → List ℕ) :
    Notes b (· = runner) df
      (if b ∈ df runner then df else Function.update df runner (df runner ++ [b])) := by
  intro v
  by_cases hb : b ∈ df runner
  · rw [if_pos hb]
    refine ⟨fun hv => ?_, fun _ => rfl⟩
    rw [hv, noted, if_pos hb]
  · rw [if_neg hb]
    refine ⟨fun hv => ?_, fun hv => Function.update_of_ne hv ..⟩
    rw [hv, Function.update_self, noted, if_neg hb]

section
variable {n entry : ℕ} {preds : ℕ → List ℕ} {rpo : List ℕ} {idom : ℕ → Option ℕ}

theorem frontierRun?_notes {num : ℕ → ℕ} (h : IsTree idom entry num) {b stop : ℕ}
    (hstop : idom b = some stop) {fuel m runner : ℕ} {df : ℕ → List ℕ}
    (hfuel : num runner + 1 < fuel) (hm : num runner < m) :
    ∃ df', frontierRun? idom b fuel df (some runner) = some df' ∧
      Notes b (· ∈ frontierWalk idom stop m runner) df df' := by
  induction fuel generalizing df m runner with
  | zero => omega
  | succ fuel ih =>
    obtain ⟨m, rfl⟩ : ∃ k, m = k + 1 := ⟨m - 1, by omega⟩
    rw [frontierRun?, frontierWalk]
    by_cases hrs : runner = stop
    · rw [if_pos (by rw [hstop, hrs]), if_pos hrs]
      exact ⟨df, rfl, (Notes.none b df).congr fun v => by simp⟩
    · rw [if_neg (by simpa [hstop] using hrs), if_neg hrs]
      have hround := notes_runner b runner df
      dsimp only
      set df₁ := if b ∈ df runner then df else Function.update df runner (df runner ++ [b])
      cases hup : idom runner with
      | none =>
        obtain ⟨fuel, rfl⟩ : ∃ k, fuel = k + 1 := ⟨fuel - 1, by omega⟩
        rw [if_neg (by simp), frontierRun?]
        exact ⟨df₁, rfl, hround.congr fun v => by simp⟩
      | some up =>
        dsimp only
        by_cases hself : up = runner
        · rw [if_pos (by rw [hself]), if_pos hself]
          exact ⟨df₁, rfl, hround.congr fun v => by simp⟩
        · have hroot : runner ≠ entry := by
            rintro rfl
            exact hself (Option.some.inj (hup.symm.trans h.root))
          have hlt := h.ranked hroot hup
          rw [if_neg (by simpa using hself), if_neg hself]
          obtain ⟨df', hrun, hnotes⟩ := ih (show num up + 1 < fuel by omega) (show num up < m by omega)
          exact ⟨df', hrun, (hround.append hnotes).congr fun v => List.mem_cons.symm⟩

theorem foldlM_frontierRun? {num : ℕ → ℕ} (h : IsTree idom entry num) {b stop : ℕ}
    (hstop : idom b = some stop) {fuel m : ℕ} (hm : ∀ p, num p < m) (hfuel : m < fuel)
    (ps : List ℕ) (df : ℕ → List ℕ) :
    ∃ df', ps.foldlM (fun df p => frontierRun? idom b fuel df (some p)) df = some df' ∧
      Notes b (fun v => ∃ p ∈ ps, v ∈ frontierWalk idom stop m p) df df' := by
  induction ps generalizing df with
  | nil => exact ⟨df, rfl, (Notes.none b df).congr fun v => by simp⟩
  | cons p ps ih =>
    have hp := hm p
    obtain ⟨df₁, hrun, hnotes⟩ := frontierRun?_notes h hstop (show num p + 1 < fuel by omega) hp
    obtain ⟨df₂, hrest, hnotes'⟩ := ih df₁
    refine ⟨df₂, ?_, (hnotes.append hnotes').congr fun v => by simp⟩
    rw [List.foldlM_cons, hrun]
    exact hrest

/-! ### The lists -/

/-- The condition of `dominanceFrontiers`. -/
def inFrontier (n : ℕ) (preds : ℕ → List ℕ) (idom : ℕ → Option ℕ) (v b : ℕ) : Bool :=
  decide (2 ≤ (preds b).length) &&
    match idom b with
    | none => false
    | some stop => (preds b).any fun p => (frontierWalk idom stop (n + 1) p).contains v

theorem inFrontier_iff {v b : ℕ} : inFrontier n preds idom v b = true ↔
    2 ≤ (preds b).length ∧ ∃ stop, idom b = some stop ∧
      ∃ p ∈ preds b, v ∈ frontierWalk idom stop (n + 1) p := by
  unfold inFrontier
  cases idom b with
  | none => simp
  | some stop => simp

theorem dominanceFrontiers?_eq {num : ℕ → ℕ} (h : IsTree idom entry num) (hnum : ∀ v, num v ≤ n)
    {fuel : ℕ} (hfuel : n + 2 ≤ fuel) :
    dominanceFrontiers? fuel n preds idom = some (dominanceFrontiers n preds idom) := by
  have hprefix : ∀ k, (List.range k).foldlM (fun df b =>
      if (preds b).length < 2 ∨ idom b = none then some df
      else (preds b).foldlM (fun df p => frontierRun? idom b fuel df (some p)) df) (fun _ => []) =
      some fun v => (List.range k).filter (inFrontier n preds idom v) := by
    intro k
    induction k with
    | zero => rfl
    | succ k ih =>
      rw [List.range_succ, List.foldlM_append, ih, Option.bind_eq_bind, Option.bind_some,
        List.foldlM_cons]
      simp only [List.filter_append]
      by_cases hskip : (preds k).length < 2 ∨ idom k = none
      · -- No walk starts here.
        have hnot : ∀ v, inFrontier n preds idom v k = false := by
          intro v
          rw [← Bool.not_eq_true, inFrontier_iff]
          rintro ⟨h2, stop, hstop, -⟩
          rcases hskip with hlt | hnone
          · omega
          · rw [hnone] at hstop
            cases hstop
        rw [if_pos hskip]
        refine congrArg some (funext fun v => ?_)
        simp [hnot v]
      · rw [if_neg hskip]
        push Not at hskip
        obtain ⟨stop, hstop⟩ := Option.ne_none_iff_exists'.mp hskip.2
        obtain ⟨df', hrun, hnotes⟩ := foldlM_frontierRun? h hstop (m := n + 1)
          (fun p => Nat.lt_succ_of_le (hnum p)) hfuel (preds k)
          fun v => (List.range k).filter (inFrontier n preds idom v)
        rw [hrun]
        refine congrArg some (funext fun v => ?_)
        have hiff : inFrontier n preds idom v k = true ↔
            ∃ p ∈ preds k, v ∈ frontierWalk idom stop (n + 1) p := by
          rw [inFrontier_iff]
          refine ⟨fun ⟨_, s, hs, hp⟩ => ?_, fun hp => ⟨hskip.1, stop, hstop, hp⟩⟩
          rwa [Option.some.inj (hstop.symm.trans hs)]
        by_cases hv : inFrontier n preds idom v k = true
        · rw [(hnotes v).1 (hiff.mp hv), noted, if_neg (by simp)]
          simp [hv]
        · rw [(hnotes v).2 fun hp => hv (hiff.mpr hp)]
          simp [hv]
  exact hprefix n

theorem frontierWalk_up {stop v runner m : ℕ} (h : v ∈ frontierWalk idom stop m runner) :
    Up idom runner v ∧ v ≠ stop ∧ (Up idom runner stop → Up idom v stop) := by
  induction m generalizing runner with
  | zero => cases h
  | succ m ih =>
    rw [frontierWalk] at h
    split_ifs at h with hstop
    · cases h
    · rcases List.mem_cons.mp h with rfl | h
      · exact ⟨.refl _, hstop, id⟩
      · cases hup : idom runner with
        | none =>
          rw [hup] at h
          cases h
        | some up =>
          rw [hup] at h
          dsimp only at h
          split_ifs at h with hself
          · cases h
          · obtain ⟨huv, hne, hbelow⟩ := ih h
            refine ⟨.head hup huv, hne, fun hrs => hbelow ?_⟩
            rcases hrs.cases with rfl | ⟨up', hup', hus⟩
            · exact absurd rfl hstop
            · rwa [Option.some.inj (hup.symm.trans hup')]

theorem IsDominators.mem_frontier_iff (h : IsDominators preds entry rpo idom)
    (hn : ∀ v ∈ rpo, v < n) (hnodup : rpo.Nodup) (hentry : preds entry = []) {r b : ℕ}
    (hr : r ∈ rpo) : b ∈ dominanceFrontiers n preds idom r ↔
      b ∈ rpo ∧ (∃ p ∈ preds b, p ∈ rpo ∧ Up idom p r) ∧ ¬(Up idom b r ∧ r ≠ b) := by
  have hne : ∀ {p}, p ∈ preds b → b ≠ entry := by
    rintro p hp rfl
    rw [hentry] at hp
    cases hp
  constructor
  · intro hmem
    obtain ⟨-, hfront⟩ := List.mem_filter.mp hmem
    obtain ⟨-, stop, hstop, p, hp, hwalk⟩ := inFrontier_iff.mp hfront
    obtain ⟨hpr, hrs, hbelow⟩ := frontierWalk_up hwalk
    have hb : b ∈ rpo := (h.placed b).mp (by rw [hstop]; rfl)
    have hpm : p ∈ rpo := by
      rcases hpr.cases with rfl | ⟨up, hup, -⟩
      · exact hr
      · exact (h.placed p).mp (by rw [hup]; rfl)
    obtain ⟨e, he, hmeet⟩ := h.meet b hb (hne hp)
    obtain rfl : stop = e := Option.some.inj (hstop.symm.trans he)
    refine ⟨hb, ⟨p, hp, hpm, hpr⟩, fun ⟨hbr, hrb⟩ => ?_⟩
    -- Above `b` the chain goes on from the end of the walk, which `r` is below.
    rcases hbr.cases with hbr | ⟨e', he', hsr⟩
    · exact hrb hbr.symm
    · obtain rfl : stop = e' := Option.some.inj (hstop.symm.trans he')
      exact hrs (h.tree.antisymm (hbelow (hmeet.up p ⟨hp, (h.placed p).mpr hpm⟩)) hsr)
  · rintro ⟨hb, ⟨p, hp, hpm, hpr⟩, hnot⟩
    obtain ⟨stop, hstop, hmeet⟩ := h.meet b hb (hne hp)
    have hps : Up idom p stop := hmeet.up p ⟨hp, (h.placed p).mpr hpm⟩
    have hlt := h.tree.ranked (hne hp) hstop
    -- The end of the walk is not below `r`, or `r` would strictly dominate `b`.
    have habove : ¬Up idom stop r := by
      intro hsr
      have hrb : r = b := by
        by_contra hrb
        exact hnot ⟨.head hstop hsr, hrb⟩
      have := h.tree.rank_le hsr
      rw [hrb] at this
      omega
    have hrs : Up idom r stop := (hpr.total hps).resolve_right habove
    have hrne : r ≠ stop := by
      rintro rfl
      exact habove (.refl r)
    refine mem_dominanceFrontiers h hn hnodup ?_ hstop hp hpm hpr hrs hrne
    by_contra hlen
    have hsingle : preds b = [p] := by
      obtain ⟨q, hq⟩ := List.length_eq_one_iff.mp
        (show (preds b).length = 1 by have := List.length_pos_of_mem hp; omega)
      rw [hq, List.mem_singleton] at hp
      rw [hq, hp]
    have hidom := h.idom_eq_of_single hb (hne hp) hsingle hpm
    obtain rfl : stop = p := Option.some.inj (hstop.symm.trans hidom)
    exact habove hpr

end

/-- The frontiers are found, each join in a list once; and where nothing leads back to the
entry, those of a reachable node are the reachable joins where its dominance ends. -/
theorem frontiers_exact (n entry : ℕ) (succ preds : ℕ → List ℕ) (he : entry < n)
    (hpreds : ∀ p v, v < n → (p ∈ preds v ↔ p < n ∧ v ∈ succ p)) :
    ∃ idom df rounds, (∀ fuel, rounds ≤ fuel →
        dominators? fuel n entry succ preds = some idom ∧
          dominanceFrontiers? fuel n preds idom = some df) ∧
      (preds entry = [] → ∀ r, Reachable n succ entry r → ∀ b,
        ((df r).count b = 1 ↔ Reachable n succ entry b ∧
          (∃ p ∈ preds b, Reachable n succ entry p ∧ Dominates (Edge n succ) entry r p) ∧
            ¬(Dominates (Edge n succ) entry r b ∧ r ≠ b)) ∧
        (df r).count b ≤ 1) := by
  obtain ⟨hrpo, hdom⟩ := dominators_spec he hpreds
  obtain ⟨-, rounds, hrounds⟩ := dominators?_eq he hpreds
  have hnum : ∀ v, (reversePostorder n succ entry).idxOf v ≤ n := by
    have hsub : reversePostorder n succ entry ⊆ List.range n := fun v hv =>
      List.mem_range.mpr (hrpo.lt v hv)
    have hlen := (hrpo.nodup.subperm hsub).length_le
    rw [List.length_range] at hlen
    exact fun v => List.idxOf_le_length.trans hlen
  refine ⟨dominators n entry succ preds, dominanceFrontiers n preds (dominators n entry succ preds),
    rounds + n + 2, fun fuel hfuel => ⟨hrounds fuel (by omega),
      dominanceFrontiers?_eq hdom.tree hnum (by omega)⟩, fun hentry r hr b => ?_⟩
  have hnodup : (dominanceFrontiers n preds (dominators n entry succ preds) r).Nodup :=
    List.nodup_range.filter _
  have hmem := hdom.mem_frontier_iff (b := b) hrpo.lt hrpo.nodup hentry (hrpo.mem_iff.mpr hr)
  have hcount : (dominanceFrontiers n preds (dominators n entry succ preds) r).count b = 1 ↔
      b ∈ dominanceFrontiers n preds (dominators n entry succ preds) r :=
    ⟨fun hone => List.count_pos_iff.mp (by omega), List.count_eq_one_of_mem hnodup⟩
  have hup : ∀ {v}, Reachable n succ entry v →
      (Up (dominators n entry succ preds) v r ↔ Dominates (Edge n succ) entry r v) :=
    up_dominators_iff he hpreds
  refine ⟨?_, List.nodup_iff_count_le_one.mp hnodup b⟩
  rw [hcount, hmem]
  constructor
  · rintro ⟨hb, ⟨p, hp, hpm, hpr⟩, hnot⟩
    have hpreach := hrpo.mem_iff.mp hpm
    exact ⟨hrpo.mem_iff.mp hb, ⟨p, hp, hpreach, (hup hpreach).mp hpr⟩, fun ⟨hbr, hne⟩ =>
      hnot ⟨(hup (hrpo.mem_iff.mp hb)).mpr hbr, hne⟩⟩
  · rintro ⟨hb, ⟨p, hp, hpreach, hpr⟩, hnot⟩
    exact ⟨hrpo.mem_iff.mpr hb, ⟨p, hp, hrpo.mem_iff.mpr hpreach, (hup hpreach).mpr hpr⟩,
      fun ⟨hbr, hne⟩ => hnot ⟨(hup hb).mp hbr, hne⟩⟩

/-- A node that is its own successor is in its own frontier. -/
theorem frontiers_exact_loop :
    ∃ idom df rounds, dominators? rounds 2 0 (fun _ => [1])
        (fun v => if v = 1 then [0, 1] else []) = some idom ∧
      dominanceFrontiers? rounds 2 (fun v => if v = 1 then [0, 1] else []) idom = some df ∧
      (df 1).count 1 = 1 := by
  have hpreds : ∀ p v, v < 2 → (p ∈ (if v = 1 then [0, 1] else []) ↔ p < 2 ∧ v ∈ [1]) := by
    intro p v hv
    by_cases hv1 : v = 1
    · rw [if_pos hv1]
      simp only [List.mem_cons, List.not_mem_nil, or_false]
      omega
    · simp [hv1]
  obtain ⟨idom, df, rounds, hrun, hexact⟩ := frontiers_exact 2 0 (fun _ => [1])
    (fun v => if v = 1 then [0, 1] else []) (by omega) hpreds
  have hone : Reachable 2 (fun _ => [1]) 0 1 := ⟨_, ParentMap.Path.root.step ⟨by simp, by omega⟩⟩
  refine ⟨idom, df, rounds, (hrun _ le_rfl).1, (hrun _ le_rfl).2, ?_⟩
  exact (hexact (if_neg (by omega)) 1 hone 1).1.mpr
    ⟨hone, ⟨1, by simp, hone, .refl 1⟩, fun hstrict => hstrict.2 rfl⟩

end Aret
