/-
The window of observations since a handoff.

The cutoffs of a handoff are the records that come first by their time and then by their identifier
as text; a record lies in the window if its number is above that of the cutoff.

* `resume_exact` — the window and the staleness of a handoff, in every state of a run.
-/
import Aret.MemoryHandoff
import Aret.MemoryKept
import Mathlib.Data.String.Basic

namespace Aret.Memory.Resume

open Txn

/-! ### Identifiers and cutoffs -/

theorem trailingNumber_mint (stem : String) (n : ℕ) : trailingNumber (mint stem n) = some n := by
  have hreversed : (mint stem n).toList.reverse =
      (pad4 n).reverse ++ '-' :: stem.toList.reverse := by
    rw [mint, String.toList_append, String.toList_append, List.reverse_append, List.reverse_append,
      String.toList_ofList]
    rfl
  have hdigits : ((pad4 n).reverse ++ '-' :: stem.toList.reverse).takeWhile Char.isDigit =
      (pad4 n).reverse := by
    rw [List.takeWhile_append_of_pos fun c hc => isDigit_of_mem_pad4 (List.mem_reverse.mp hc),
      List.takeWhile_cons_of_neg (by decide), List.append_nil]
  have hne : (pad4 n).reverse ≠ [] := by
    rw [Ne, List.reverse_eq_nil_iff]
    exact List.append_ne_nil_of_right_ne_nil _ Nat.toDigits_ne_nil
  have hvalue : Nat.ofDigitChars 10 (pad4 n) 0 = n := by
    rw [pad4, Nat.ofDigitChars_append, Nat.ofDigitChars_replicate_zero, Nat.mul_zero,
      Nat.ofDigitChars_ten_toDigits]
  rw [trailingNumber, hreversed, hdigits, List.drop_left, List.reverse_reverse, hvalue]
  exact if_pos ⟨hne, rfl⟩

theorem mint_ne_empty (stem : String) (n : ℕ) : mint stem n ≠ "" := by
  intro h
  have hnumber := trailingNumber_mint stem n
  have hempty : trailingNumber "" = none := rfl
  rw [h, hempty] at hnumber
  cases hnumber

theorem idAfterCutoff_mint (stem : String) (n m : ℕ) :
    idAfterCutoff (mint stem n) (mint stem m) = decide (m < n) := by
  rw [idAfterCutoff, if_neg (mint_ne_empty stem m), trailingNumber_mint, trailingNumber_mint]

def Numbered (stem : String) (ids : List String) (next : ℕ) : Prop :=
  ∃ ns : List ℕ, ids = ns.map (mint stem) ∧ ns.Pairwise (· < ·) ∧ ∀ n ∈ ns, n < next

variable {stem : String} {next : ℕ} {ids : List String}

theorem Numbered.concat (h : Numbered stem ids next) :
    Numbered stem (ids ++ [mint stem next]) (next + 1) := by
  obtain ⟨ns, rfl, hgrow, hbelow⟩ := h
  refine ⟨ns ++ [next], ?_, ?_, fun n hn => ?_⟩
  · rw [List.map_append, List.map_singleton]
  · rw [List.pairwise_append]
    refine ⟨hgrow, List.pairwise_singleton _ _, fun a ha b hb => ?_⟩
    rw [List.mem_singleton.mp hb]
    exact hbelow a ha
  · rcases List.mem_append.mp hn with hn | hn
    · exact Nat.lt_succ_of_lt (hbelow n hn)
    · rw [List.mem_singleton.mp hn]
      exact Nat.lt_succ_self next

theorem after_last {before since : List String} (h : Numbered stem (before ++ since) next) :
    (∀ id ∈ before, idAfterCutoff id (before.getLast?.getD "") = false) ∧
      ∀ id ∈ since, idAfterCutoff id (before.getLast?.getD "") = true := by
  obtain ⟨ns, hids, hgrow, -⟩ := h
  obtain ⟨old, new, rfl, rfl, rfl⟩ := List.append_eq_map_iff.mp hids
  obtain ⟨hold, -, hbetween⟩ := List.pairwise_append.mp hgrow
  rcases List.eq_nil_or_concat old with rfl | ⟨old, m, rfl⟩
  · exact ⟨(fun _ h => nomatch h), fun id _ => if_pos rfl⟩
  · rw [List.concat_eq_append] at hold hbetween ⊢
    have hlast : (List.map (mint stem) (old ++ [m])).getLast?.getD "" = mint stem m := by
      rw [List.map_append, List.map_singleton, List.getLast?_concat, Option.getD_some]
    rw [hlast]
    constructor
    · intro id hid
      obtain ⟨n, hn, rfl⟩ := List.mem_map.mp hid
      have hle : n ≤ m := by
        rcases List.mem_append.mp hn with hn | hn
        · exact (List.pairwise_append.mp hold).2.2 n hn m (List.mem_singleton.mpr rfl) |>.le
        · exact (List.mem_singleton.mp hn).le
      rw [idAfterCutoff_mint, decide_eq_false_iff_not]
      exact Nat.not_lt_of_le hle
    · intro id hid
      obtain ⟨n, hn, rfl⟩ := List.mem_map.mp hid
      rw [idAfterCutoff_mint, decide_eq_true_eq]
      exact hbetween m (List.mem_append_right _ (List.mem_singleton.mpr rfl)) n hn

/-- The record that came last is the newest one: by its time, and by its identifier as text where
times are the same. -/
def LastNewest {α : Type} (createdAt id : α → String) (rows : List α) : Prop :=
  ∀ l ∈ rows.getLast?, ∀ r ∈ rows,
    createdAt r < createdAt l ∨ createdAt r = createdAt l ∧ id r ≤ id l

variable {α : Type} {createdAt id : α → String} {rows : List α}

instance : Decidable (LastNewest createdAt id rows) :=
  inferInstanceAs (Decidable (∀ l ∈ rows.getLast?, ∀ r ∈ rows,
    createdAt r < createdAt l ∨ createdAt r = createdAt l ∧ id r ≤ id l))

theorem head_newestFirst (h : LastNewest createdAt id rows) :
    (newestFirst createdAt id rows).head?.map id = rows.getLast?.map id := by
  let order : α → α → Prop := fun a b =>
    createdAt b < createdAt a ∨ createdAt a = createdAt b ∧ id b ≤ id a
  have htotal : Std.Total order := ⟨fun a b => by
    rcases lt_trichotomy (createdAt a) (createdAt b) with hlt | heq | hgt
    · exact .inr (.inl hlt)
    · exact (le_total (id a) (id b)).elim (fun hle => .inr (.inr ⟨heq.symm, hle⟩))
        fun hle => .inl (.inr ⟨heq, hle⟩)
    · exact .inl (.inl hgt)⟩
  have htrans : IsTrans α order := ⟨fun a b c hab hbc => by
    rcases hab with hab | ⟨hab, hidab⟩
    · rcases hbc with hbc | ⟨hbc, -⟩
      · exact .inl (hbc.trans hab)
      · exact .inl (hbc ▸ hab)
    · rcases hbc with hbc | ⟨hbc, hidbc⟩
      · exact .inl (hab ▸ hbc)
      · exact .inr ⟨hab.trans hbc, hidbc.trans hidab⟩⟩
  have hsorted : (newestFirst createdAt id rows).Pairwise order :=
    List.pairwise_insertionSort order rows
  have hperm : (newestFirst createdAt id rows).Perm rows := List.perm_insertionSort _ rows
  rcases List.eq_nil_or_concat rows with rfl | ⟨rest, l, rfl⟩
  · rfl
  · rw [List.concat_eq_append] at h hsorted hperm ⊢
    have hl : l ∈ newestFirst createdAt id (rest ++ [l]) :=
      hperm.mem_iff.mpr (List.mem_append_right _ (List.mem_singleton.mpr rfl))
    rw [LastNewest, List.getLast?_concat] at h
    rw [List.getLast?_concat]
    cases hfirst : newestFirst createdAt id (rest ++ [l]) with
    | nil =>
      rw [hfirst] at hl
      exact absurd hl List.not_mem_nil
    | cons a others =>
      rw [hfirst] at hl hsorted
      have ha : a ∈ rest ++ [l] := hperm.mem_iff.mp (hfirst ▸ List.mem_cons_self)
      -- the first one and the last one come each before the other
      have hle := h l rfl a ha
      refine congrArg some ?_
      rcases List.mem_cons.mp hl with rfl | hl
      · rfl
      · rcases (List.pairwise_cons.mp hsorted).1 l hl with hlt | ⟨heq, hid⟩
        · rcases hle with hlt' | ⟨heq', -⟩
          · exact absurd hlt' hlt.not_gt
          · exact absurd heq' hlt.ne'
        · rcases hle with hlt' | ⟨-, hid'⟩
          · exact absurd heq hlt'.ne
          · exact le_antisymm hid' hid

/-! ### Fields and hashes -/

theorem find_filterMap (state : String → Option String) (keys : List String) (key : String) :
    (keys.filterMap fun k => (state k).map fun v => (k, v)).find? (·.1 == key) =
      if key ∈ keys then (state key).map fun v => (key, v) else none := by
  induction keys with
  | nil => rfl
  | cons k keys ih =>
    by_cases hkey : key = k
    · subst hkey
      rw [if_pos List.mem_cons_self]
      cases hk : state key with
      | none =>
        rw [List.filterMap_cons, hk, Option.map_none, ih, hk, Option.map_none, ite_self]
      | some v =>
        rw [List.filterMap_cons, hk, Option.map_some, List.find?_cons, beq_self_eq_true]
    · have hmem : key ∈ k :: keys ↔ key ∈ keys :=
        ⟨fun h => (List.mem_cons.mp h).resolve_left hkey, List.mem_cons_of_mem k⟩
      simp only [hmem]
      cases hk : state k with
      | none => rw [List.filterMap_cons, hk, Option.map_none, ih]
      | some v =>
        have hne : (k == key) = false := beq_eq_false_iff_ne.mpr fun h => hkey h.symm
        rw [List.filterMap_cons, hk, Option.map_some, List.find?_cons, hne, ih]

theorem included_eq_iff {f g : String → Option String} :
    included f = included g ↔ ∀ key ∈ coveredKeys, f key = g key := by
  constructor
  · intro h key hkey
    have hf := find_filterMap f coveredKeys key
    have hg := find_filterMap g coveredKeys key
    rw [included, included] at h
    rw [h, hg, if_pos hkey, if_pos hkey] at hf
    exact (Option.map_injective (fun a b hab => (Prod.mk.inj hab).2) hf).symm
  · intro h
    exact List.filterMap_congr fun key hkey => by rw [h key hkey]

theorem frontResumeHash_congr {env : Env} {f g : String → Option String}
    (h : ∀ key ∈ coveredKeys, f key = g key) :
    frontResumeHash env f = frontResumeHash env g := by
  rw [frontResumeHash, frontResumeHash, included_eq_iff.mpr h]

variable {values values' : List (String × String)} {key value : String}

theorem find_pair (h : (values.map (·.1)).Nodup) (hmem : (key, value) ∈ values) :
    values.find? (·.1 == key) = some (key, value) := by
  cases hfind : values.find? (·.1 == key) with
  | none => exact absurd (beq_self_eq_true key) (List.find?_eq_none.mp hfind (key, value) hmem)
  | some p =>
    have hbeq := List.find?_some hfind
    have hkey : p.1 = key := beq_iff_eq.mp hbeq
    rw [List.inj_on_of_nodup_map h (List.mem_of_find?_eq_some hfind) hmem hkey]

theorem find_key_none : values.find? (·.1 == key) = none ↔ key ∉ values.map (·.1) := by
  rw [List.find?_eq_none, List.mem_map]
  constructor
  · rintro h ⟨p, hp, rfl⟩
    exact h p hp (beq_self_eq_true p.1)
  · intro h p hp hbeq
    exact h ⟨p, hp, beq_iff_eq.mp hbeq⟩

theorem overridden_perm {state : String → Option String} (h : (values.map (·.1)).Nodup)
    (hperm : values'.Perm values) : overridden values' state key = overridden values state key := by
  have hfind : values'.find? (·.1 == key) = values.find? (·.1 == key) := by
    cases hv : values.find? (·.1 == key) with
    | none =>
      rw [find_key_none] at hv ⊢
      rwa [(hperm.map _).mem_iff]
    | some p =>
      obtain ⟨k, v⟩ := p
      have hbeq := List.find?_some hv
      obtain rfl : k = key := beq_iff_eq.mp hbeq
      have hmem := hperm.mem_iff.mpr (List.mem_of_find?_eq_some hv)
      exact find_pair ((hperm.map _).nodup_iff.mpr h) hmem
  rw [overridden, overridden, hfind]

theorem overridden_of_mem {state : String → Option String} (h : (values.map (·.1)).Nodup)
    (hmem : (key, value) ∈ values) : overridden values state key = some value := by
  rw [overridden, find_pair h hmem]
  rfl

theorem overridden_append_of_not {state : String → Option String}
    (h : key ∉ values'.map (·.1)) :
    overridden (values ++ values') state key = overridden values state key := by
  rw [overridden, overridden, List.find?_append, find_key_none.mpr h, Option.or_none]

/-! ### What statements do to the records and to the Front -/

variable {s t u : Store} {env : Env}

def seqNext (s : Store) (sequence : String) : ℕ :=
  (s.db.idSequence.find? (·.entity == sequence)).elim 1 SequenceRow.nextValue

def runSequence : String := "pipeline_run:PR"

def proofSequence : String := "proof:P"

structure Recorded (s t : Store) : Prop where
  runs : t.db.pipelineRun = s.db.pipelineRun
  proofs : t.db.proof = s.db.proof
  nextRun : seqNext t runSequence = seqNext s runSequence
  nextProof : seqNext t proofSequence = seqNext s proofSequence

instance : IsPreorder Store Recorded where
  refl _ := ⟨rfl, rfl, rfl, rfl⟩
  trans _ _ _ h h' := ⟨h'.runs.trans h.runs, h'.proofs.trans h.proofs, h'.nextRun.trans h.nextRun,
    h'.nextProof.trans h.nextProof⟩

structure Beside (s t : Store) : Prop extends Recorded s t where
  front : t.db.frontState = s.db.frontState

instance : IsPreorder Store Beside where
  refl _ := ⟨refl_of Recorded _, rfl⟩
  trans _ _ _ h h' := ⟨trans_of Recorded h.toRecorded h'.toRecorded, h'.front.trans h.front⟩

theorem Beside.frontValue (h : Beside s t) : t.db.frontValue = s.db.frontValue := by
  funext key
  rw [Db.frontValue, Db.frontValue, h.front]

theorem seqNext_write {sequence : String} {n : ℕ} {a : Unit}
    (h : writeSequence sequence (s.db.idSequence.find? (·.entity == sequence)).isSome n s =
      (.ok a, t)) (sequence' : String) :
    seqNext t sequence' = if sequence' = sequence then n else seqNext s sequence' := by
  rw [writeSequence] at h
  cases hrow : s.db.idSequence.find? (·.entity == sequence) with
  | none =>
    rw [hrow, Option.isSome_none, if_neg Bool.false_ne_true] at h
    obtain rfl := update_ok.mp h
    by_cases hsame : sequence' = sequence
    · subst hsame
      rw [if_pos rfl, seqNext, List.find?_append, hrow, Option.none_or, List.find?_cons,
        beq_self_eq_true]
      rfl
    · have hne : (sequence == sequence') = false := beq_eq_false_iff_ne.mpr fun h => hsame h.symm
      rw [if_neg hsame, seqNext, seqNext, List.find?_append, List.find?_cons, hne, List.find?_nil,
        Option.or_none]
  | some row =>
    rw [hrow, Option.isSome_some, if_pos rfl] at h
    obtain rfl := update_ok.mp h
    have hkeep : ∀ r : SequenceRow,
        (if r.entity == sequence then { r with nextValue := n } else r).entity = r.entity := by
      intro r
      split <;> rfl
    have hcomp : ((fun r : SequenceRow => r.entity == sequence') ∘ fun r : SequenceRow =>
        if r.entity == sequence then { r with nextValue := n } else r) =
          fun r => r.entity == sequence' := by
      funext r
      rw [Function.comp_apply, hkeep]
    rw [seqNext, seqNext, List.find?_map, hcomp]
    by_cases hsame : sequence' = sequence
    · subst hsame
      have hbeq := List.find?_some hrow
      rw [if_pos rfl, hrow, Option.map_some, if_pos hbeq]
      rfl
    · rw [if_neg hsame]
      cases hrow' : s.db.idSequence.find? (·.entity == sequence') with
      | none => rfl
      | some r =>
        have hbeq := List.find?_some hrow'
        have hr : r.entity = sequence' := beq_iff_eq.mp hbeq
        rw [Option.map_some, if_neg fun h => hsame (hr.symm.trans (beq_iff_eq.mp h))]

theorem newId_number {entity stem id : String} (h : newId entity stem s = (.ok id, t)) :
    id = mint stem (seqNext s (entity ++ ":" ++ stem)) ∧
      t.db.pipelineRun = s.db.pipelineRun ∧ t.db.proof = s.db.proof ∧
      t.db.frontState = s.db.frontState ∧
      ∀ sequence, seqNext t sequence = if sequence = entity ++ ":" ++ stem then
        seqNext s (entity ++ ":" ++ stem) + 1 else seqNext s sequence := by
  simp only [newId, bind_ok, query_ok, pure_ok] at h
  obtain ⟨_, _, ⟨rfl, rfl⟩, _, u, hwrite, rfl, rfl⟩ := h
  refine ⟨rfl, ?_, ?_, ?_, fun sequence => seqNext_write hwrite sequence⟩
  all_goals
    rw [writeSequence] at hwrite
    split at hwrite <;> obtain rfl := update_ok.mp hwrite <;> rfl

theorem beside_utcNow : Moves Beside (utcNow env) := by
  intro s a t h
  obtain rfl := utcNow_ok h
  exact ⟨⟨rfl, rfl, rfl, rfl⟩, rfl⟩

theorem beside_audit {actor operation entityType entityId : String}
    {before after : Option Payload} :
    Moves Beside (audit env actor operation entityType entityId before after) := by
  have hid : Moves Beside (newId "audit" "A") := by
    intro s a t h
    obtain ⟨-, hruns, hproofs, hfront, hnext⟩ := newId_number h
    exact ⟨⟨hruns, hproofs, hnext runSequence, hnext proofSequence⟩, hfront⟩
  refine hid.bind fun _ => beside_utcNow.bind fun _ => Moves.bind ?_ fun _ => Moves.pure
  exact moves_insert fun _ => ⟨⟨rfl, rfl, rfl, rfl⟩, rfl⟩

structure AddsRun (s t : Store) (row : PipelineRun) : Prop where
  id : row.id = mint "PR" (seqNext s runSequence)
  runs : t.db.pipelineRun = s.db.pipelineRun ++ [row]
  proofs : t.db.proof = s.db.proof
  nextRun : seqNext t runSequence = seqNext s runSequence + 1
  nextProof : seqNext t proofSequence = seqNext s proofSequence
  front : t.db.frontState = s.db.frontState

structure AddsProof (s t : Store) (row : Proof) : Prop where
  id : row.id = mint "P" (seqNext s proofSequence)
  runs : t.db.pipelineRun = s.db.pipelineRun
  proofs : t.db.proof = s.db.proof ++ [row]
  nextRun : seqNext t runSequence = seqNext s runSequence
  nextProof : seqNext t proofSequence = seqNext s proofSequence + 1
  front : t.db.frontState = s.db.frontState

theorem storeRun_addsRun {a : RunArgs} {name relative r : String} {data : Bytes}
    (h : storeRun env a name relative data s = (.ok r, t)) : ∃ row, AddsRun s t row := by
  simp only [storeRun, insertPipelineRun, bind_ok, constrain_ok, update_ok, pure_ok] at h
  obtain ⟨id, u, hid, stamp, v, hnow, _, _, ⟨_, _, ⟨-, rfl⟩, rfl⟩, _, w, haudit, rfl, rfl⟩ := h
  obtain ⟨hnumber, hruns, hproofs, hfront, hnext⟩ := newId_number hid
  have hnow := beside_utcNow hnow
  have haudit := beside_audit haudit
  have hrun := (hnow.nextRun.trans (hnext runSequence)).trans (if_pos rfl)
  have hproof := (hnow.nextProof.trans (hnext proofSequence)).trans (if_neg (by decide))
  refine ⟨⟨id, name, env.upper (strip a.kind), a.policy, a.result, a.command, a.parameters,
    relative, env.sha256 data, a.exitCode, a.startedAt, a.finishedAt, stamp, a.actor⟩, hnumber,
    haudit.runs.trans ?_, ?_, haudit.nextRun.trans hrun, haudit.nextProof.trans hproof, ?_⟩
  · exact congrArg (· ++ _) (hnow.runs.trans hruns)
  · exact haudit.proofs.trans (hnow.proofs.trans hproofs)
  · exact haudit.front.trans (hnow.front.trans hfront)

theorem storeProof_addsProof {a : ProofArgs} {c : Checked} {r : String}
    (h : storeProof env a c s = (.ok r, t)) : ∃ row, AddsProof s t row := by
  simp only [storeProof, insertProof, bind_ok, constrain_ok, update_ok, pure_ok] at h
  obtain ⟨id, u, hid, stamp, v, hnow, _, _, ⟨_, _, ⟨-, rfl⟩, rfl⟩, _, w, haudit, rfl, rfl⟩ := h
  obtain ⟨hnumber, hruns, hproofs, hfront, hnext⟩ := newId_number hid
  have hnow := beside_utcNow hnow
  have haudit := beside_audit haudit
  have hrun := (hnow.nextRun.trans (hnext runSequence)).trans (if_neg (by decide))
  have hproof := (hnow.nextProof.trans (hnext proofSequence)).trans (if_pos rfl)
  refine ⟨⟨id, c.kind, a.command, c.result, a.exitCode, a.stdoutRef, a.stderrRef, c.artifactPath,
    c.artifactHash, c.artifactSize, c.environment, a.startedAt, a.finishedAt,
    env.sha256 (Percent.bytes c.payload), a.receiptHmac, c.admissible, stamp, a.actor⟩, hnumber, ?_,
    haudit.proofs.trans ?_, haudit.nextRun.trans hrun, haudit.nextProof.trans hproof, ?_⟩
  · exact haudit.runs.trans (hnow.runs.trans hruns)
  · exact congrArg (· ++ _) (hnow.proofs.trans hproofs)
  · exact haudit.front.trans (hnow.front.trans hfront)

theorem upsertFront_ok {row : FrontRow} {a : Unit} (h : upsertFront row s = (.ok a, t)) :
    Recorded s t ∧
      ∀ key, t.db.frontValue key = overridden [(row.key, row.value)] s.db.frontValue key := by
  obtain rfl := update_ok.mp h
  refine ⟨⟨rfl, rfl, rfl, rfl⟩, fun key => ?_⟩
  have hkeep : ((fun r : FrontRow => r.key == key) ∘ fun r =>
      if r.key == row.key then row else r) = fun r => r.key == key := by
    funext r
    rw [Function.comp_apply]
    split_ifs with hr
    · rw [beq_iff_eq.mp hr]
    · rfl
  simp only [Db.frontValue, overridden, List.find?_cons, List.find?_nil]
  by_cases hkey : row.key = key
  · -- the row is replaced, or it is new
    subst hkey
    rw [beq_self_eq_true, Option.map_some, Option.some_or]
    by_cases hany : s.db.frontState.any (·.key == row.key) = true
    · obtain ⟨r, hfind⟩ := find_of_any hany
      have hbeq := List.find?_some hfind
      simp only [if_pos hany]
      rw [List.find?_map, hkeep, hfind, Option.map_some, if_pos hbeq, Option.map_some]
    · have hnone : s.db.frontState.find? (·.key == row.key) = none := by
        rw [List.find?_eq_none]
        intro r hr hrkey
        exact hany (List.any_eq_true.mpr ⟨r, hr, hrkey⟩)
      simp only [if_neg hany]
      rw [List.find?_append, hnone, Option.none_or, List.find?_cons, beq_self_eq_true,
        Option.map_some]
  · have hne : (row.key == key) = false := beq_eq_false_iff_ne.mpr hkey
    rw [hne, Option.map_none, Option.none_or]
    by_cases hany : s.db.frontState.any (·.key == row.key) = true
    · simp only [if_pos hany]
      rw [List.find?_map, hkeep]
      cases hfind : s.db.frontState.find? (·.key == key) with
      | none => rfl
      | some r =>
        have hbeq := List.find?_some hfind
        have hr : r.key = key := beq_iff_eq.mp hbeq
        rw [Option.map_some, if_neg fun h => hkey ((beq_iff_eq.mp h).symm.trans hr)]
    · simp only [if_neg hany]
      rw [List.find?_append, List.find?_cons, hne, List.find?_nil, Option.or_none]

theorem overridden_append (values values' : List (String × String))
    (state : String → Option String) (key : String) :
    overridden (values ++ values') state key =
      overridden values (overridden values' state) key := by
  rw [overridden, overridden, overridden, List.find?_append, Option.map_or, Option.or_assoc]

theorem upserts_ok {stamp actor : String} {a : Unit}
    (h : (values.forM fun p => upsertFront ⟨p.1, p.2, stamp, actor⟩) s = (.ok a, t)) :
    Recorded s t ∧
      ∀ key, t.db.frontValue key = overridden values.reverse s.db.frontValue key := by
  induction values generalizing s with
  | nil =>
    obtain ⟨-, rfl⟩ := pure_ok.mp h
    exact ⟨refl_of Recorded _, fun key => rfl⟩
  | cons p values ih =>
    obtain ⟨_, u, hp, hrest⟩ := bind_ok.mp h
    obtain ⟨hrec, hvalue⟩ := upsertFront_ok hp
    obtain ⟨hrec', hvalue'⟩ := ih hrest
    refine ⟨trans_of Recorded hrec hrec', fun key => ?_⟩
    rw [List.reverse_cons, overridden_append, hvalue' key]
    exact congrArg (fun state => overridden values.reverse state key) (funext hvalue)

theorem quiet_ok {α : Type} {x : Op α} {a : α} (hx : Quiet x) (h : x s = (.ok a, t)) : t = s := by
  have hs := hx s
  rwa [h] at hs

theorem quiet_validateFrontBrick : Quiet (validateFrontBrick values) :=
  Quiet.elim Quiet.pure fun _ => Quiet.read.bind fun _ => Quiet.expect.bind fun _ => Quiet.require

theorem mergeFront_ok {actor : String} {a : Unit}
    (h : mergeFront env values actor s = (.ok a, t)) :
    Recorded s t ∧
      ∀ key, t.db.frontValue key = overridden values.reverse s.db.frontValue key := by
  simp only [mergeFront, bind_ok, query_ok, pure_ok] at h
  obtain ⟨_, u, hbrick, _, _, ⟨rfl, rfl⟩, stamp, v, hnow, _, w, hwrite, _, _, ⟨rfl, rfl⟩, _, x,
    haudit, -, rfl⟩ := h
  obtain rfl := quiet_ok quiet_validateFrontBrick hbrick
  obtain ⟨hrec, hvalue⟩ := upserts_ok hwrite
  have hnow := beside_utcNow hnow
  have haudit := beside_audit haudit
  have hrec := trans_of Recorded hnow.toRecorded hrec
  refine ⟨trans_of Recorded hrec haudit.toRecorded, fun key => ?_⟩
  rw [haudit.frontValue, hvalue key, hnow.frontValue]

theorem cleanFront_mem {clean updates : List (String × String)}
    (h : cleanFront env clean updates s = (.ok values, t)) : ∀ p ∈ values, p ∈ clean ∨
      ∃ q ∈ updates, p = (underscored (env.lower (strip q.1)), strip q.2) := by
  induction updates generalizing clean with
  | nil =>
    obtain ⟨rfl, -⟩ := pure_ok.mp h
    exact fun p hp => .inl hp
  | cons q updates ih =>
    simp only [cleanFront, bind_ok, require_ok] at h
    obtain ⟨_, _, ⟨-, rfl⟩, _, _, ⟨-, rfl⟩, h⟩ := h
    intro p hp
    rcases ih h p hp with hp | ⟨r, hr, hp⟩
    · rw [assign] at hp
      split at hp
      · obtain ⟨r, hr, rfl⟩ := List.mem_map.mp hp
        split
        · exact .inr ⟨q, List.mem_cons_self, rfl⟩
        · exact .inl hr
      · rcases List.mem_append.mp hp with hp | hp
        · exact .inl hp
        · exact .inr ⟨q, List.mem_cons_self, List.mem_singleton.mp hp⟩
    · exact .inr ⟨r, List.mem_cons_of_mem q hr, hp⟩

/-! ### A handoff -/

def textKeys : List String :=
  handoffFields ++ ["next_action"] ++ technicalCheckpointFields ++
    [technicalCheckpointStateField, "last_action"]

theorem technicalCheckpointValues_ok {input : List (String × String)}
    (h : technicalCheckpointValues input s = (.ok values, t)) :
    values.map (·.1) = input.map (·.1) := by
  induction input generalizing s t values with
  | nil =>
    obtain ⟨rfl, -⟩ := pure_ok.mp h
    rfl
  | cons p input ih =>
    simp only [technicalCheckpointValues, bind_ok, pure_ok] at h
    obtain ⟨text, _, -, others, _, hothers, rfl, -⟩ := h
    rw [List.map_cons, List.map_cons, ih hothers]

theorem checkpointFields_ok {a : HandoffArgs} {state : String}
    (h : checkpointFields a state s = (.ok values, t)) : values.map (·.1) =
      technicalCheckpointFields ++ [technicalCheckpointStateField, "last_action"] := by
  rw [checkpointFields] at h
  split at h
  · simp only [bind_ok, pure_ok] at h
    obtain ⟨checkpoint, _, hcheckpoint, rfl, -⟩ := h
    rw [List.map_append, technicalCheckpointValues_ok hcheckpoint]
    rfl
  · simp only [bind_ok, require_ok, pure_ok] at h
    obtain ⟨_, _, ⟨-, rfl⟩, rfl, -⟩ := h
    rfl

theorem relevantFields_keys {db : Db} {addresses : List String} :
    ((relevantFields db addresses).map (·.1)).Sublist ([1, 2, 3, 4, 5].map relevantAddressKey) := by
  rw [relevantFields]
  generalize [1, 2, 3, 4, 5] = indices
  induction indices with
  | nil => exact List.Sublist.slnil
  | cons i indices ih =>
    rw [List.filterMap_cons, List.map_cons]
    cases haddress : addresses[i - 1]? with
    | some address => exact ih.cons_cons _
    | none =>
      by_cases hthere : (db.frontValue (relevantAddressKey i)).isSome = true
      · rw [if_pos hthere]
        exact ih.cons_cons _
      · rw [if_neg hthere]
        exact ih.cons _

theorem handoffKeys_nodup (db : Db) (addresses : List String) (hash stamp : String)
    (hkeys : values.map (·.1) = textKeys) :
    ((db.handoffValues values addresses ++
      [("handoff_front_hash", hash), ("handoff_prepared_at", stamp)]).map (·.1)).Nodup := by
  have hall : (textKeys ++ ["handoff_observation_pipeline_cutoff",
      "handoff_observation_proof_cutoff"] ++ [1, 2, 3, 4, 5].map relevantAddressKey ++
      ["handoff_front_hash", "handoff_prepared_at"]).Nodup := by decide +kernel
  refine hall.sublist ?_
  rw [Db.handoffValues, List.map_append, List.map_append, List.map_append, hkeys]
  exact ((List.Sublist.refl _).append relevantFields_keys).append (List.Sublist.refl _)

structure Prepared (env : Env) (s t : Store) : Prop extends Recorded s t where
  hash : t.db.frontText "handoff_front_hash" = frontResumeHash env t.db.frontValue
  preparedAt : ∃ n, t.db.frontText "handoff_prepared_at" = env.utcNow n
  runCutoff : t.db.frontText "handoff_observation_pipeline_cutoff" =
    (s.db.newestRuns.head?.map (·.id)).getD ""
  proofCutoff : t.db.frontText "handoff_observation_proof_cutoff" =
    (s.db.newestProofs.head?.map (·.id)).getD ""

theorem quiet_checkValidation {isWord : Char → Bool} {state : String} :
    Quiet (checkValidation env isWord state values) := by
  refine Quiet.ite (Quiet.bind ?_ fun _ => Quiet.pure) Quiet.pure
  refine Quiet.elim Quiet.pure fun _ => Quiet.elim Quiet.pure fun _ => ?_
  refine Quiet.read.bind fun _ => Quiet.ofExcept.bind fun _ => Quiet.expect.bind fun _ => ?_
  exact Quiet.require.bind fun _ => Quiet.pure

theorem quiet_checkAddresses {addresses : List String} :
    Quiet (addresses.forM (checkAddress env)) := by
  induction addresses with
  | nil => exact Quiet.pure
  | cons address addresses ih =>
    refine Quiet.bind ?_ fun _ => ih
    exact Quiet.ofExcept.bind fun _ => Quiet.read.bind fun _ => Quiet.require

theorem storeHandoff_prepared {isWord : Char → Bool} {state actor : String}
    {addresses : List String} {a : Unit} (hkeys : values.map (·.1) = textKeys)
    (h : storeHandoff env isWord state values addresses actor s = (.ok a, t)) :
    Prepared env s t := by
  simp only [storeHandoff, bind_ok, query_ok, pure_ok] at h
  obtain ⟨_, u, hvalidation, _, v, haddresses, _, _, ⟨rfl, rfl⟩, all, _, ⟨rfl, rfl⟩, hash, _,
    ⟨hhash, rfl⟩, stamp, w, hnow, _, x, hbrick, _, y, hwrite, _, _, ⟨rfl, rfl⟩, _, z, haudit, -,
    rfl⟩ := h
  obtain rfl := quiet_ok quiet_checkValidation hvalidation
  obtain rfl := quiet_ok quiet_checkAddresses haddresses
  obtain rfl := quiet_ok quiet_validateFrontBrick hbrick
  obtain ⟨hrec, hvalue⟩ := upserts_ok hwrite
  have hstamp : env.utcNow v.ticks = stamp := Except.ok.inj (Prod.mk.inj hnow).1
  have hnodup := handoffKeys_nodup v.db addresses hash stamp hkeys
  have hfront : ∀ key, z.db.frontValue key = overridden (v.db.handoffValues values addresses ++
      [("handoff_front_hash", hash), ("handoff_prepared_at", stamp)]) v.db.frontValue key := by
    intro key
    have hperm := (List.reverse_perm _).trans (List.perm_insertionSort (fun p q => p.1 ≤ q.1)
      (v.db.handoffValues values addresses ++
        [("handoff_front_hash", hash), ("handoff_prepared_at", stamp)]))
    rw [(beside_audit haudit).frontValue, hvalue key, overridden_perm hnodup hperm,
      (beside_utcNow hnow).frontValue]
  have hmem : ∀ key value, (key, value) ∈ v.db.handoffValues values addresses ++
      [("handoff_front_hash", hash), ("handoff_prepared_at", stamp)] →
      z.db.frontText key = value := by
    intro key value hmem
    rw [Db.frontText, hfront key, overridden_of_mem hnodup hmem]
    rfl
  refine ⟨trans_of Recorded (trans_of Recorded (beside_utcNow hnow).toRecorded hrec)
    (beside_audit haudit).toRecorded, ?_, ⟨v.ticks, ?_⟩, ?_, ?_⟩
  · -- the hash does not cover what is written beside it
    have hcovered : ∀ key ∈ coveredKeys, key ∉ ["handoff_front_hash", "handoff_prepared_at"] := by
      decide +kernel
    rw [hmem "handoff_front_hash" hash (List.mem_append_right _ List.mem_cons_self), ← hhash]
    refine frontResumeHash_congr fun key hkey => ?_
    rw [hfront key]
    exact (overridden_append_of_not (hcovered key hkey)).symm
  · rw [hstamp]
    refine hmem _ _ (List.mem_append_right _ ?_)
    exact List.mem_cons_of_mem _ List.mem_cons_self
  · refine hmem _ _ (List.mem_append_left _ (List.mem_append_left _ (List.mem_append_right _ ?_)))
    exact List.mem_cons_self
  · refine hmem _ _ (List.mem_append_left _ (List.mem_append_left _ (List.mem_append_right _ ?_)))
    exact List.mem_cons_of_mem _ List.mem_cons_self

theorem quiet_aside {α : Type} {x : Op α} (hx : Quiet x) : Moves Aside x := by
  intro s a t h
  rw [quiet_ok hx h]
  exact refl_of Aside s

theorem aside_storeHandoff {isWord : Char → Bool} {state actor : String} {addresses : List String} :
    Moves Aside (storeHandoff env isWord state values addresses actor) := by
  refine (quiet_aside quiet_checkValidation).bind fun _ => ?_
  refine (quiet_aside quiet_checkAddresses).bind fun _ => ?_
  refine moves_query.bind fun _ => moves_query.bind fun _ => moves_query.bind fun _ => ?_
  refine moves_utcNow.bind fun _ => moves_validateFrontBrick.bind fun _ => ?_
  refine Moves.bind (Moves.forM fun p _ => moves_upsertFront) fun _ => moves_query.bind fun _ => ?_
  exact moves_audit.bind fun _ => Moves.pure

theorem quiet_handoffValue {label value : String} : Quiet (handoffValue label value) :=
  Quiet.require.bind fun _ => Quiet.require.bind fun _ => Quiet.pure

theorem quiet_hotAddresses {addresses : List String} : Quiet (hotAddresses env addresses) := by
  induction addresses with
  | nil => exact Quiet.pure
  | cons address addresses ih =>
    exact Quiet.ofExcept.bind fun _ => Quiet.require.bind fun _ => ih.bind fun _ => Quiet.pure

theorem quiet_technicalCheckpointValues {input : List (String × String)} :
    Quiet (technicalCheckpointValues input) := by
  induction input with
  | nil => exact Quiet.pure
  | cons p input ih =>
    refine Quiet.bind ?_ fun _ => ih.bind fun _ => Quiet.pure
    exact Quiet.require.bind fun _ => Quiet.require.bind fun _ => Quiet.pure

theorem quiet_checkpointFields {a : HandoffArgs} {state : String} :
    Quiet (checkpointFields a state) :=
  Quiet.ite (quiet_technicalCheckpointValues.bind fun _ => Quiet.pure)
    (Quiet.require.bind fun _ => Quiet.pure)

variable (env) in
theorem prepareHandoff_settles (isWord : Char → Bool) (a : HandoffArgs) :
    Settles Store.db s (fun t => Prepared env s t ∧ Aside s t) (prepareHandoff env isWord a) := by
  refine Settles.check Quiet.require fun _ _ => Settles.check quiet_hotAddresses fun _ _ => ?_
  refine Settles.check Quiet.require fun _ _ => Settles.check quiet_handoffValue fun _ _ => ?_
  refine Settles.check quiet_handoffValue fun _ _ => Settles.check quiet_handoffValue fun _ _ => ?_
  refine Settles.check quiet_handoffValue fun _ _ => Settles.check quiet_handoffValue fun _ _ => ?_
  refine Settles.check (Quiet.require.bind fun _ => Quiet.pure) fun state _ => ?_
  refine Settles.check quiet_checkpointFields fun checkpoint hcheckpoint => ?_
  refine settles_transaction fun _ t h => ⟨storeHandoff_prepared ?_ h, aside_storeHandoff h⟩
  rw [List.map_append, checkpointFields_ok hcheckpoint]
  rfl

variable (env) in
theorem updateFront_settles (updates : List (String × String)) (actor : String) :
    Settles Store.db s (fun t => ∃ clean, cleanFront env [] updates s = (.ok clean, s) ∧
      mergeFront env clean actor s = (.ok (), t)) (Txn.ignore (updateFront env updates actor)) := by
  refine Settles.ignore (Settles.check Quiet.require fun _ _ => ?_)
  refine Settles.check Quiet.require fun _ _ => ?_
  refine Settles.check quiet_cleanFront fun clean hclean => ?_
  exact Settles.transaction undo_db fun _ t h => ⟨⟨clean, hclean, h⟩, _, rfl⟩

/-! ### The window -/

theorem filter_after {id : α → String} {rows since : List α}
    (h : Numbered stem ((rows ++ since).map id) next) :
    (rows ++ since).filter (fun r => idAfterCutoff (id r) ((rows.map id).getLast?.getD "")) =
      since := by
  rw [List.map_append] at h
  obtain ⟨hbefore, hsince⟩ := after_last h
  rw [List.filter_append, List.filter_eq_self.mpr fun r hr => hsince _ (List.mem_map_of_mem hr),
    List.filter_eq_nil_iff.mpr, List.nil_append]
  intro r hr hafter
  exact Bool.false_ne_true ((hbefore _ (List.mem_map_of_mem hr)).symm.trans hafter)

theorem length_filter_newestFirst {p : α → Bool} :
    ((newestFirst createdAt id rows).filter p).length = (rows.filter p).length :=
  ((List.perm_insertionSort _ rows).filter _).length_eq

theorem mapM_ok {β : Type} {f : α → Except String β} (h : ∀ a ∈ rows, ∃ b, f a = .ok b) :
    ∃ bs, rows.mapM f = .ok bs ∧ bs.length = rows.length := by
  induction rows with
  | nil => exact ⟨[], rfl, rfl⟩
  | cons a rows ih =>
    obtain ⟨b, hb⟩ := h a List.mem_cons_self
    obtain ⟨bs, hbs, hlen⟩ := ih fun a ha => h a (List.mem_cons_of_mem _ ha)
    refine ⟨b :: bs, ?_, ?_⟩
    · rw [List.mapM_cons, hb, hbs]
      rfl
    · rw [List.length_cons, List.length_cons, hlen]

theorem observeRun_ok {row : PipelineRun} (h : Plain row.id) : ∃ o, observeRun row = .ok o := by
  obtain ⟨address, hmake, -⟩ :=
    Address.parse_make (fun _ => "") (k := .pipeline) (by decide) h.1 h.2
  rw [observeRun, hmake]
  exact ⟨_, rfl⟩

theorem observeProof_ok {row : Proof} (h : Plain row.id) : ∃ o, observeProof row = .ok o := by
  obtain ⟨address, hmake, -⟩ := Address.parse_make (fun _ => "") (k := .proof) (by decide) h.1 h.2
  rw [observeProof, hmake]
  exact ⟨_, rfl⟩

def runIds (s : Store) : List String := s.db.pipelineRun.map (·.id)

def proofIds (s : Store) : List String := s.db.proof.map (·.id)

theorem resumeObservations_total {db : Db} {preparedAt runCutoff proofCutoff : String}
    (hprepared : preparedAt ≠ "") (hruns : ∀ r ∈ db.pipelineRun, Plain r.id)
    (hproofs : ∀ p ∈ db.proof, Plain p.id) :
    ∃ o, resumeObservationsRows db preparedAt runCutoff proofCutoff = .ok o ∧ o.total =
      (db.pipelineRun.filter fun r => idAfterCutoff r.id runCutoff).length +
        (db.proof.filter fun p => idAfterCutoff p.id proofCutoff).length := by
  obtain ⟨runs, hokruns, hlenruns⟩ := mapM_ok (f := observeRun)
    fun r (hr : r ∈ db.newestRuns.filter fun r => idAfterCutoff r.id runCutoff) =>
      observeRun_ok (hruns r ((List.mem_insertionSort _).mp (List.mem_filter.mp hr).1))
  obtain ⟨proofs, hokproofs, hlenproofs⟩ := mapM_ok (f := observeProof)
    fun p (hp : p ∈ db.newestProofs.filter fun p => idAfterCutoff p.id proofCutoff) =>
      observeProof_ok (hproofs p ((List.mem_insertionSort _).mp (List.mem_filter.mp hp).1))
  rw [resumeObservationsRows, if_neg hprepared, hokruns, hokproofs]
  refine ⟨_, rfl, ?_⟩
  rw [Db.newestRuns, length_filter_newestFirst] at hlenruns
  rw [Db.newestProofs, length_filter_newestFirst] at hlenproofs
  show (List.insertionSort _ (runs ++ proofs)).length = _
  rw [(List.perm_insertionSort _ _).length_eq, List.length_append, hlenruns, hlenproofs]

/-! ### Runs -/

inductive ResumeCall
  | recordPipelineRun (a : RunArgs)
  | recordProof (a : ProofArgs)
  | updateFront (updates : List (String × String)) (actor : String)
  | prepareHandoff (a : HandoffArgs)

def ResumeCall.perform (env : Env) (isWord : Char → Bool) : ResumeCall → Op Unit
  | .recordPipelineRun a => Txn.ignore (Memory.recordPipelineRun env a)
  | .recordProof a => Txn.ignore (Memory.recordProof env a)
  | .updateFront updates actor => Txn.ignore (Memory.updateFront env updates actor)
  | .prepareHandoff a => Memory.prepareHandoff env isWord a

/-- A call, and the files that are under the directory of artifacts by then. -/
structure ResumeEv where
  artifacts : String → Option Bytes
  call : ResumeCall

/-- The store, with how many runs and proofs have been recorded since the last handoff and with the
store that it left. -/
structure Session where
  store : Store
  recorded : ℕ
  prepared : Option Store

def Session.before (s : Session) (e : ResumeEv) : Store := { s.store with artifacts := e.artifacts }

def Session.advance (env : Env) (isWord : Char → Bool) (s : Session) (e : ResumeEv) : Session :=
  match e.call.perform env isWord (s.before e), e.call with
  | (.error _, t), _ => { s with store := t }
  | (.ok _, t), .recordPipelineRun _ => { s with store := t, recorded := s.recorded + 1 }
  | (.ok _, t), .recordProof _ => { s with store := t, recorded := s.recorded + 1 }
  | (.ok _, t), .updateFront _ _ => { s with store := t }
  | (.ok _, t), .prepareHandoff _ => ⟨t, 0, some t⟩

/-- What is reported of a handoff that left the store `p`: every record since then and no other one
is in the window, and a handoff is stale if the value of a field has changed. -/
structure Exact (env : Env) (s : Session) (p : Store) : Prop where
  total : ∃ o t, getResumeObservations s.store = (.ok o, t) ∧ o.total = s.recorded
  runs : (s.store.db.pipelineRun.filter fun r => idAfterCutoff r.id
    (s.store.db.frontText "handoff_observation_pipeline_cutoff")) =
      s.store.db.pipelineRun.drop p.db.pipelineRun.length
  proofs : (s.store.db.proof.filter fun r => idAfterCutoff r.id
    (s.store.db.frontText "handoff_observation_proof_cutoff")) =
      s.store.db.proof.drop p.db.proof.length
  expired : s.store.db.expired env = true ↔
    ∃ key ∈ coveredKeys, s.store.db.frontValue key ≠ p.db.frontValue key
  fresh : s.store.db.handoffFresh env = false ↔
    ∃ key ∈ coveredKeys, s.store.db.frontValue key ≠ p.db.frontValue key

/-- At a handoff the records that came last are the newest ones, and after it no update gives one of
its marks another value. -/
def Careful (env : Env) (s : Session) (e : ResumeEv) : Prop :=
  match e.call with
  | .prepareHandoff _ =>
    LastNewest PipelineRun.createdAt PipelineRun.id s.store.db.pipelineRun ∧
      LastNewest Proof.createdAt Proof.id s.store.db.proof
  | .updateFront updates _ => ∀ p ∈ updates, ∀ key ∈ handoffControlFields,
    underscored (env.lower (strip p.1)) = key →
      s.prepared.isSome = true → s.store.db.frontValue key = some (strip p.2)
  | _ => True

def Apart (env : Env) (f g : String → Option String) : Prop :=
  frontResumeHash env f = frontResumeHash env g → ∀ key ∈ coveredKeys, f key = g key

/-- Identifiers can be written in an address, and carry numbers that grow. -/
structure Ordered (s : Store) : Prop where
  plain : s.Plain
  runs : Numbered "PR" (runIds s) (seqNext s runSequence)
  proofs : Numbered "P" (proofIds s) (seqNext s proofSequence)

/-- The marks of a handoff that left the store `p`. -/
structure Ready (env : Env) (s : Store) (recorded : ℕ) (p : Store) : Prop where
  window : ∃ runs proofs, s.db.pipelineRun = p.db.pipelineRun ++ runs ∧
    s.db.proof = p.db.proof ++ proofs ∧ runs.length + proofs.length = recorded
  runCutoff : s.db.frontText "handoff_observation_pipeline_cutoff" = (runIds p).getLast?.getD ""
  proofCutoff : s.db.frontText "handoff_observation_proof_cutoff" = (proofIds p).getLast?.getD ""
  preparedAt : s.db.frontText "handoff_prepared_at" ≠ ""
  hash : s.db.frontText "handoff_front_hash" = frontResumeHash env p.db.frontValue

variable {recorded : ℕ} {p : Store}

theorem ordered_fresh : Ordered Store.fresh :=
  ⟨sound_fresh.plain, ⟨[], rfl, List.Pairwise.nil, fun _ h => nomatch h⟩,
    ⟨[], rfl, List.Pairwise.nil, fun _ h => nomatch h⟩⟩

theorem Ready.exact {s : Session} (h : Ready env s.store s.recorded p) (hs : Ordered s.store)
    (hdigest : ∀ data, strip (env.sha256 data) = env.sha256 data ∧ env.sha256 data ≠ "")
    (hapart : Apart env p.db.frontValue s.store.db.frontValue) : Exact env s p := by
  obtain ⟨runs, proofs, hruns, hproofs, hrecorded⟩ := h.window
  have hnumbered := hs.runs
  rw [runIds, hruns] at hnumbered
  have hnumbered' := hs.proofs
  rw [proofIds, hproofs] at hnumbered'
  have hsince : (s.store.db.pipelineRun.filter fun r => idAfterCutoff r.id
      (s.store.db.frontText "handoff_observation_pipeline_cutoff")) = runs := by
    rw [h.runCutoff, hruns]
    exact filter_after hnumbered
  have hsince' : (s.store.db.proof.filter fun r => idAfterCutoff r.id
      (s.store.db.frontText "handoff_observation_proof_cutoff")) = proofs := by
    rw [h.proofCutoff, hproofs]
    exact filter_after hnumbered'
  have hchanged : frontResumeHash env p.db.frontValue ≠
      frontResumeHash env s.store.db.frontValue ↔
        ∃ key ∈ coveredKeys, s.store.db.frontValue key ≠ p.db.frontValue key := by
    constructor
    · intro hne
      by_contra hsame
      push Not at hsame
      exact hne (frontResumeHash_congr fun key hkey => (hsame key hkey).symm)
    · rintro ⟨key, hkey, hne⟩ heq
      exact hne (hapart heq key hkey).symm
  obtain ⟨hstrip, hne⟩ : strip (frontResumeHash env p.db.frontValue) =
      frontResumeHash env p.db.frontValue ∧ frontResumeHash env p.db.frontValue ≠ "" := hdigest _
  refine ⟨?_, ?_, ?_, ?_, ?_⟩
  · obtain ⟨o, ho, htotal⟩ := resumeObservations_total h.preparedAt
      (fun r hr => hs.plain .pipeline r.id (List.any_eq_true.mpr ⟨r, hr, beq_self_eq_true _⟩))
      (fun p hp => hs.plain .proof p.id (List.any_eq_true.mpr ⟨p, hp, beq_self_eq_true _⟩))
    refine ⟨o, s.store, bind_ok.mpr ⟨_, s.store, query_ok.mpr ⟨rfl, rfl⟩, ?_⟩, ?_⟩
    · rw [ho]
      rfl
    · rw [htotal, hsince, hsince', hrecorded]
  · rw [hsince, hruns, List.drop_left]
  · rw [hsince', hproofs, List.drop_left]
  · rw [Db.expired, h.hash, Bool.and_eq_true, bne_iff_ne, bne_iff_ne]
    exact (and_iff_right hne).trans hchanged
  · rw [Db.handoffFresh, h.hash, hstrip]
    simp only [Bool.or_eq_false_iff, beq_eq_false_iff_ne]
    exact (and_iff_right hne).trans hchanged

/-! ### One call -/

theorem Ordered.keep (h : Ordered s) (hrec : Recorded s t) (ha : Aside s t) : Ordered t := by
  refine ⟨ha.same.named.plain h.plain, ?_, ?_⟩
  · rw [runIds, hrec.runs, hrec.nextRun]
    exact h.runs
  · rw [proofIds, hrec.proofs, hrec.nextProof]
    exact h.proofs

theorem Ordered.addRun {row : PipelineRun} (h : Ordered s) (hadd : AddsRun s t row)
    (hplain : t.Plain) : Ordered t := by
  refine ⟨hplain, ?_, ?_⟩
  · rw [runIds, hadd.runs, hadd.nextRun, List.map_append, List.map_singleton, hadd.id]
    exact h.runs.concat
  · rw [proofIds, hadd.proofs, hadd.nextProof]
    exact h.proofs

theorem Ordered.addProof {row : Proof} (h : Ordered s) (hadd : AddsProof s t row)
    (hplain : t.Plain) : Ordered t := by
  refine ⟨hplain, ?_, ?_⟩
  · rw [runIds, hadd.runs, hadd.nextRun]
    exact h.runs
  · rw [proofIds, hadd.proofs, hadd.nextProof, List.map_append, List.map_singleton, hadd.id]
    exact h.proofs.concat

theorem Ready.keep (h : Ready env s recorded p) (hrec : Recorded s t)
    (hmarks : ∀ key ∈ handoffControlFields, t.db.frontText key = s.db.frontText key) :
    Ready env t recorded p := by
  refine ⟨?_, ?_, ?_, ?_, ?_⟩
  · rw [hrec.runs, hrec.proofs]
    exact h.window
  · exact (hmarks _ (by decide)).trans h.runCutoff
  · exact (hmarks _ (by decide)).trans h.proofCutoff
  · rw [hmarks _ (by decide)]
    exact h.preparedAt
  · exact (hmarks _ (by decide)).trans h.hash

theorem frontText_congr (h : t.db.frontState = s.db.frontState) (key : String) :
    t.db.frontText key = s.db.frontText key := by
  rw [Db.frontText, Db.frontText, Db.frontValue, Db.frontValue, h]

theorem Ready.record {count : ℕ} (h : Ready env s recorded p)
    (hfront : t.db.frontState = s.db.frontState)
    (hwindow : ∃ runs proofs, t.db.pipelineRun = p.db.pipelineRun ++ runs ∧
      t.db.proof = p.db.proof ++ proofs ∧ runs.length + proofs.length = count) :
    Ready env t count p := by
  refine ⟨hwindow, ?_, ?_, ?_, ?_⟩
  · exact (frontText_congr hfront _).trans h.runCutoff
  · exact (frontText_congr hfront _).trans h.proofCutoff
  · rw [frontText_congr hfront]
    exact h.preparedAt
  · exact (frontText_congr hfront _).trans h.hash

theorem Ready.addRun {row : PipelineRun} (h : Ready env s recorded p) (hadd : AddsRun s t row) :
    Ready env t (recorded + 1) p := by
  obtain ⟨runs, proofs, hruns, hproofs, rfl⟩ := h.window
  refine h.record hadd.front ⟨runs ++ [row], proofs, ?_, hadd.proofs.trans hproofs, ?_⟩
  · rw [hadd.runs, hruns, List.append_assoc]
  · rw [List.length_append, List.length_singleton, Nat.add_right_comm]

theorem Ready.addProof {row : Proof} (h : Ready env s recorded p) (hadd : AddsProof s t row) :
    Ready env t (recorded + 1) p := by
  obtain ⟨runs, proofs, hruns, hproofs, rfl⟩ := h.window
  refine h.record hadd.front ⟨runs, proofs ++ [row], hadd.runs.trans hruns, ?_, ?_⟩
  · rw [hadd.proofs, hproofs, List.append_assoc]
  · rw [List.length_append, List.length_singleton, Nat.add_assoc]

theorem Ready.now (h : Prepared env s t) (hclock : ∀ n, env.utcNow n ≠ "")
    (hruns : LastNewest PipelineRun.createdAt PipelineRun.id s.db.pipelineRun)
    (hproofs : LastNewest Proof.createdAt Proof.id s.db.proof) : Ready env t 0 t := by
  refine ⟨⟨[], [], (List.append_nil _).symm, (List.append_nil _).symm, rfl⟩, ?_, ?_, ?_, h.hash⟩
  · rw [h.runCutoff, Db.newestRuns, head_newestFirst hruns, runIds, h.runs, List.getLast?_map]
  · rw [h.proofCutoff, Db.newestProofs, head_newestFirst hproofs, proofIds, h.proofs,
      List.getLast?_map]
  · obtain ⟨n, hn⟩ := h.preparedAt
    rw [hn]
    exact hclock n

theorem marks_mergeFront {updates clean : List (String × String)} {actor : String} {a : Unit}
    (hclean : cleanFront env [] updates s = (.ok clean, s))
    (h : mergeFront env clean actor s = (.ok a, t))
    (hcareful : ∀ p ∈ updates, ∀ key ∈ handoffControlFields,
      underscored (env.lower (strip p.1)) = key → s.db.frontValue key = some (strip p.2)) :
    ∀ key ∈ handoffControlFields, t.db.frontText key = s.db.frontText key := by
  intro key hkey
  rw [Db.frontText, Db.frontText, (mergeFront_ok h).2 key, overridden]
  cases hfind : clean.reverse.find? (·.1 == key) with
  | none => rfl
  | some p =>
    have hbeq := List.find?_some hfind
    have hp := List.mem_reverse.mp (List.mem_of_find?_eq_some hfind)
    rcases cleanFront_mem hclean p hp with hnil | ⟨q, hq, rfl⟩
    · exact nomatch hnil
    · rw [hcareful q hq key hkey (beq_iff_eq.mp hbeq)]
      rfl

structure Session.Sound (env : Env) (s : Session) : Prop where
  ordered : Ordered s.store
  ready : ∀ p, s.prepared = some p → Ready env s.store s.recorded p

variable {isWord : Char → Bool}

theorem Session.Sound.withStore {s : Session} {t : Store} (hs : s.Sound env)
    (h : t.db = s.store.db) : Session.Sound env { s with store := t } := by
  have hrec : Recorded s.store t := by
    constructor <;> simp only [seqNext, h]
  have ha : Aside s.store t := by
    constructor <;> rw [h]
  refine ⟨hs.ordered.keep hrec ha, fun p hp => (hs.ready p hp).keep hrec fun key _ => ?_⟩
  rw [h]

theorem Session.Sound.recordedRun {s : Session} {e : ResumeEv} {a : RunArgs} (hs : s.Sound env)
    (h : Work env (s.before e) t (.recordPipelineRun a)) :
    Session.Sound env { s with store := t, recorded := s.recorded + 1 } := by
  have hplain := (h.named hs.ordered.plain).plain hs.ordered.plain
  cases h with
  | recordPipelineRun h =>
    obtain ⟨row, hadd⟩ := storeRun_addsRun h
    have hs := hs.withStore (t := s.before e) rfl
    exact ⟨hs.ordered.addRun hadd hplain, fun p hp => (hs.ready p hp).addRun hadd⟩

theorem Session.Sound.recordedProof {s : Session} {e : ResumeEv} {a : ProofArgs} (hs : s.Sound env)
    (h : Work env (s.before e) t (.recordProof a)) :
    Session.Sound env { s with store := t, recorded := s.recorded + 1 } := by
  have hplain := (h.named hs.ordered.plain).plain hs.ordered.plain
  cases h with
  | recordProof h =>
    obtain ⟨row, hadd⟩ := storeProof_addsProof h
    have hs := hs.withStore (t := s.before e) rfl
    exact ⟨hs.ordered.addProof hadd hplain, fun p hp => (hs.ready p hp).addProof hadd⟩

variable (isWord) in
theorem advance_sound {s : Session} {e : ResumeEv} (hclock : ∀ n, env.utcNow n ≠ "")
    (hs : s.Sound env) (hc : Careful env s e) : (s.advance env isWord e).Sound env := by
  obtain ⟨artifacts, call⟩ := e
  rw [Session.advance]
  cases call with
  | recordPipelineRun a =>
    have hsettles := Call.perform_settles env (s := s.before ⟨artifacts, .recordPipelineRun a⟩)
      hs.ordered.plain (.recordPipelineRun a)
    rcases hr : ResumeCall.perform env isWord (.recordPipelineRun a)
      (s.before ⟨artifacts, .recordPipelineRun a⟩) with ⟨r | _, t⟩
    · exact hs.withStore (hsettles.2 r t hr)
    · exact hs.recordedRun (hsettles.1 _ t hr)
  | recordProof a =>
    have hsettles := Call.perform_settles env (s := s.before ⟨artifacts, .recordProof a⟩)
      hs.ordered.plain (.recordProof a)
    rcases hr : ResumeCall.perform env isWord (.recordProof a)
      (s.before ⟨artifacts, .recordProof a⟩) with ⟨r | _, t⟩
    · exact hs.withStore (hsettles.2 r t hr)
    · exact hs.recordedProof (hsettles.1 _ t hr)
  | updateFront updates actor =>
    have hsettles := updateFront_settles env (s := s.before ⟨artifacts, .updateFront updates actor⟩)
      updates actor
    rcases hr : ResumeCall.perform env isWord (.updateFront updates actor)
      (s.before ⟨artifacts, .updateFront updates actor⟩) with ⟨r | _, t⟩
    · exact hs.withStore (hsettles.2 r t hr)
    · obtain ⟨clean, hclean, hmerge⟩ := hsettles.1 _ t hr
      have hs := hs.withStore (t := s.before ⟨artifacts, .updateFront updates actor⟩) rfl
      have hrec := (mergeFront_ok hmerge).1
      refine ⟨hs.ordered.keep hrec (moves_mergeFront (R := Aside) hmerge), fun p hp => ?_⟩
      refine (hs.ready p hp).keep hrec ?_
      refine marks_mergeFront hclean hmerge fun q hq key hkey heq => ?_
      exact hc q hq key hkey heq (Option.isSome_iff_exists.mpr ⟨p, hp⟩)
  | prepareHandoff a =>
    have hsettles := prepareHandoff_settles env (s := s.before ⟨artifacts, .prepareHandoff a⟩)
      isWord a
    rcases hr : ResumeCall.perform env isWord (.prepareHandoff a)
      (s.before ⟨artifacts, .prepareHandoff a⟩) with ⟨r | _, t⟩
    · exact hs.withStore (hsettles.2 r t hr)
    · obtain ⟨hprepared, ha⟩ := hsettles.1 _ t hr
      have hs := hs.withStore (t := s.before ⟨artifacts, .prepareHandoff a⟩) rfl
      refine ⟨hs.ordered.keep hprepared.toRecorded ha, fun p hp => ?_⟩
      obtain rfl := Option.some.inj hp
      exact Ready.now hprepared hclock hc.1 hc.2

/-- In a run where at each handoff the records that came last are the newest ones and where no
update after a handoff gives one of its marks another value, the window of every state holds as many
observations as runs and proofs have been recorded since the last handoff, and the handoff is stale
exactly if a field has changed. -/
theorem resume_exact (env : Env) (isWord : Char → Bool) {start : Store} (hstart : Ordered start)
    (hclock : ∀ n, env.utcNow n ≠ "")
    (hdigest : ∀ data, strip (env.sha256 data) = env.sha256 data ∧ env.sha256 data ≠ "")
    (es : List ResumeEv)
    (hcareful : Runs.Each (Session.advance env isWord) ⟨start, 0, none⟩ (Careful env) es)
    (hapart : Runs.Each (Session.advance env isWord) ⟨start, 0, none⟩ (fun s e =>
      ∀ p, (s.advance env isWord e).prepared = some p →
        Apart env p.db.frontValue (s.advance env isWord e).store.db.frontValue) es) :
    Runs.Each (Session.advance env isWord) ⟨start, 0, none⟩ (fun s e =>
      ∀ p, (s.advance env isWord e).prepared = some p →
        Exact env (s.advance env isWord e) p) es := by
  intro pre e post hes p hp
  have hsound : (Runs.run (Session.advance env isWord) ⟨start, 0, none⟩ pre).Sound env :=
    hcareful.inv ⟨hstart, fun _ h => nomatch h⟩
      (fun s e hs hc => advance_sound isWord hclock hs hc) pre (e :: post) hes
  have hnext := advance_sound isWord hclock hsound (hcareful pre e post hes)
  exact (hnext.ready p hp).exact hnext.ordered hdigest (hapart pre e post hes p hp)

/-! ### Two runs -/

def shiftText : String :=
  "\x7b\"handoff_deferred_items\":\"Nothing has been deferred.\"," ++
    "\"handoff_execution_state\":\"\"," ++
    "\"handoff_immediate_actions\":\"\",\"handoff_last_validation\":\"\"," ++
    "\"handoff_open_risks\":\"No risk is known so far..\",\"handoff_technical_change\":\"\"," ++
    "\"handoff_technical_checkpoint_state\":\"NONE\",\"handoff_technical_target\":\"\"," ++
    "\"handoff_verified_results\":\"The oracle agrees so far.\"," ++
    "\"handoff_work_summary\":\"The traces are recorded.\"," ++
    "\"last_action\":\"Aucun checkpoint technique actif lors de la préparation du handoff.\"," ++
    "\"next_action\":\"Record the next oracle run.\"\x7d"

def scribe : Env := { desk with
  canonicalJson := fun j => match j with
    | .obj (("handoff_deferred_items", _) :: _) => shiftText
    | j => desk.canonicalJson j
  sha256 := fun data =>
    if data = Percent.bytes shiftText then
      "763c81c7326a77d178c9ceed7b919b83c9f7a17969f72e16fcf6b21e828a7d58"
    else desk.sha256 data }

def steppedBack : Env := { scribe with
  utcNow := fun n => if n < 2 then "2026-08-19T10:00:05Z" else "2026-08-19T10:00:00Z" }

def ascii (c : Char) : Bool := c.isAlphanum || c = '_'

def shift : HandoffArgs where
  workSummary := "The traces are recorded."
  verifiedResults := "The oracle agrees so far."
  openRisks := "No risk is known so far.."
  deferredItems := "Nothing has been deferred."
  nextAction := "Record the next oracle run."
  technicalCheckpointState := "NONE"
  technicalTarget := ""
  technicalChange := ""
  executionState := ""
  lastValidation := ""
  immediateActions := ""
  relevantAddresses := []
  actor := "desk"

def recordOne : ResumeEv := ⟨fun _ => none, .recordProof oracleRun⟩

def handOver : ResumeEv := ⟨fun _ => none, .prepareHandoff shift⟩

theorem digest_scribe (data : Bytes) :
    strip (scribe.sha256 data) = scribe.sha256 data ∧ scribe.sha256 data ≠ "" := by
  simp only [scribe, desk]
  split_ifs
  all_goals exact ⟨by decide +kernel, by decide +kernel⟩

def Session.unchanged (s : Session) : Bool :=
  s.prepared.all fun p => coveredKeys.all fun key =>
    p.db.frontValue key == s.store.db.frontValue key

theorem apart_of_unchanged {s : Session} (h : s.unchanged = true) :
    ∀ p, s.prepared = some p → Apart env p.db.frontValue s.store.db.frontValue := by
  intro p hp _ key hkey
  rw [Session.unchanged, hp, Option.all_some, List.all_eq_true] at h
  exact beq_iff_eq.mp (h key hkey)

/-- A record before a handoff and one after it, all within one second. -/
theorem resume_exact_shift : ∃ p, (Runs.run (Session.advance scribe ascii) ⟨Store.fresh, 0, none⟩
    [recordOne, handOver, recordOne]).prepared = some p ∧
      Exact scribe (Runs.run (Session.advance scribe ascii) ⟨Store.fresh, 0, none⟩
        [recordOne, handOver, recordOne]) p := by
  have hrun :
      let s₁ := Session.advance scribe ascii ⟨Store.fresh, 0, none⟩ recordOne
      let s₂ := s₁.advance scribe ascii handOver
      let s₃ := s₂.advance scribe ascii recordOne
      (LastNewest PipelineRun.createdAt PipelineRun.id s₁.store.db.pipelineRun ∧
        LastNewest Proof.createdAt Proof.id s₁.store.db.proof) ∧
      s₁.unchanged = true ∧ s₂.unchanged = true ∧ s₃.unchanged = true ∧
      s₃.prepared.isSome = true := by
    decide +kernel
  have hexact := resume_exact scribe ascii ordered_fresh
    (fun _ => show "2026-08-19T10:00:00Z" ≠ "" by decide) digest_scribe
    [recordOne, handOver, recordOne]
  -- The three states are named, so that nothing evaluates them again.
  simp only [Runs.each_cons] at hexact
  rw [Runs.run_cons, Runs.run_cons, Runs.run_cons, Runs.run_nil]
  dsimp only at hrun
  generalize Session.advance scribe ascii ⟨Store.fresh, 0, none⟩ recordOne = s₁ at *
  generalize s₁.advance scribe ascii handOver = s₂ at *
  generalize s₂.advance scribe ascii recordOne = s₃ at *
  obtain ⟨hhandoff, h₁, h₂, h₃, hprepared⟩ := hrun
  obtain ⟨p, hp⟩ := Option.isSome_iff_exists.mp hprepared
  obtain ⟨-, -, hlast, -⟩ := hexact ⟨trivial, hhandoff, trivial, Runs.each_nil⟩
    ⟨apart_of_unchanged h₁, apart_of_unchanged h₂, apart_of_unchanged h₃, Runs.each_nil⟩
  exact ⟨p, hp, hlast p hp⟩

/-- The clock steps back between two records, and the handoff that follows them takes the first one
for the newest: the second one counts as recorded since. -/
theorem not_resume_exact : ¬ Runs.Each (Session.advance steppedBack ascii) ⟨Store.fresh, 0, none⟩
    (fun s e => ∀ p, (s.advance steppedBack ascii e).prepared = some p →
      Exact steppedBack (s.advance steppedBack ascii e) p) [recordOne, recordOne, handOver] := by
  intro h
  have hlast := h [recordOne, recordOne] handOver [] rfl
  beta_reduce at hlast
  generalize hs : (Runs.run (Session.advance steppedBack ascii) ⟨Store.fresh, 0, none⟩
    [recordOne, recordOne]).advance steppedBack ascii handOver = s at hlast
  have hreport : s.prepared.isSome = true ∧ s.recorded = 0 ∧
      (getResumeObservations s.store).1.toOption.map (·.total) = some 1 := by
    rw [← hs]
    decide +kernel
  obtain ⟨hprepared, hrecorded, htotal⟩ := hreport
  obtain ⟨p, hp⟩ := Option.isSome_iff_exists.mp hprepared
  obtain ⟨o, t, ho, hexact⟩ := (hlast p hp).total
  have hone : o.total = 1 := by
    rw [ho] at htotal
    exact Option.some.inj htotal
  rw [hexact, hrecorded] at hone
  exact nomatch hone

end Aret.Memory.Resume
