/-
What the memory store keeps of an entry through any run of its operations.

* `justified_stays` — in a run where no promotion is asked for a superseded entry, both hold of every
  state, and what is refused changes nothing.
-/
import Aret.MemoryWork
import Aret.Runs

namespace Aret.Memory

open Txn

variable {s t u : Store} {env : Env} {id : String} {F G : String → Prop}

/-! ### Entries and proofs -/

structure SameEntry (k k' : Knowledge) : Prop where
  id : k'.id = k.id
  type : k'.type = k.type
  title : k'.title = k.title
  content : k'.content = k.content
  version : k'.version = k.version
  contentHash : k'.contentHash = k.contentHash

theorem SameEntry.refl (k : Knowledge) : SameEntry k k := ⟨rfl, rfl, rfl, rfl, rfl, rfl⟩

theorem SameEntry.trans {k k' k'' : Knowledge} (h : SameEntry k k') (h' : SameEntry k' k'') :
    SameEntry k k'' :=
  ⟨h'.id.trans h.id, h'.type.trans h.type, h'.title.trans h.title, h'.content.trans h.content,
    h'.version.trans h.version, h'.contentHash.trans h.contentHash⟩

/-- Identifiers tell entries and proofs apart. -/
structure Store.Keyed (s : Store) : Prop where
  knowledge : (s.db.knowledge.map (·.id)).Nodup
  proof : (s.db.proof.map (·.id)).Nodup

def JustBut (owed : String → Prop) (s : Store) : Prop :=
  ∀ k ∈ s.db.knowledge, k.status = .proven → s.db.justified k.id = true ∨ owed k.id

def Just (s : Store) : Prop :=
  ∀ k ∈ s.db.knowledge, k.status = .proven → s.db.justified k.id = true

theorem justBut_false : JustBut (fun _ => False) s ↔ Just s := by
  constructor
  · intro h k hk hp
    exact (h k hk hp).resolve_right id
  · intro h k hk hp
    exact Or.inl (h k hk hp)

/-- The status of entries in `F` is free. -/
structure Later (F : String → Prop) (s t : Store) : Prop where
  knowledge : ∀ k ∈ s.db.knowledge, ∃ k' ∈ t.db.knowledge, SameEntry k k' ∧
    (k.status = .superseded → ¬ F k.id → k'.status = .superseded)
  proof : ∀ p ∈ s.db.proof, ∃ p' ∈ t.db.proof, p'.id = p.id ∧ (p'.valid = true → p.valid = true)
  keyed : s.Keyed → t.Keyed

instance : IsPreorder Store (Later F) where
  refl _ := ⟨fun k hk => ⟨k, hk, .refl k, fun h _ => h⟩, fun p hp => ⟨p, hp, rfl, fun h => h⟩, fun h => h⟩
  trans s t u h h' := by
    refine ⟨?_, ?_, fun hk => h'.keyed (h.keyed hk)⟩
    · intro k hk
      obtain ⟨k', hk', hsame, hst⟩ := h.knowledge k hk
      obtain ⟨k'', hk'', hsame', hst'⟩ := h'.knowledge k' hk'
      refine ⟨k'', hk'', hsame.trans hsame', fun hsup hf => hst' (hst hsup hf) ?_⟩
      rw [hsame.id]
      exact hf
    · intro p hp
      obtain ⟨p', hp', hid, hv⟩ := h.proof p hp
      obtain ⟨p'', hp'', hid', hv'⟩ := h'.proof p' hp'
      exact ⟨p'', hp'', hid'.trans hid, fun h => hv (hv' h)⟩

theorem Later.tighten (h : Later F s t)
    (hn : ∀ k ∈ s.db.knowledge, F k.id → k.status ≠ .superseded) :
    Later (fun _ => False) s t where
  knowledge k hk := by
    obtain ⟨k', hk', hsame, hst⟩ := h.knowledge k hk
    exact ⟨k', hk', hsame, fun hsup _ => hst hsup fun hf => hn k hk hf hsup⟩
  proof := h.proof
  keyed := h.keyed

/-- Every PROVEN entry stays justified as well, whichever are owed. -/
structure Keeps (F : String → Prop) (s t : Store) : Prop extends Later F s t where
  just : ∀ owed, JustBut owed s → JustBut owed t

instance : IsPreorder Store (Keeps F) where
  refl s := ⟨refl_of (Later F) s, fun _ h => h⟩
  trans _ _ _ h h' := ⟨trans_of (Later F) h.toLater h'.toLater, fun o hs => h'.just o (h.just o hs)⟩

/-! ### Statements -/

theorem Keeps.of_eq (hk : t.db.knowledge = s.db.knowledge) (hp : t.db.proof = s.db.proof)
    (hl : t.db.proofLink = s.db.proofLink) : Keeps F s t where
  knowledge k h := ⟨k, hk ▸ h, .refl k, fun h _ => h⟩
  proof p h := ⟨p, hp ▸ h, rfl, fun h => h⟩
  keyed h := ⟨hk ▸ h.knowledge, hp ▸ h.proof⟩
  just owed h := by
    intro k hkt hst
    rw [hk] at hkt
    have hj : t.db.justified k.id = s.db.justified k.id := by
      rw [Db.justified, hl, hp]
      rfl
    rw [hj]
    exact h k hkt hst

theorem Aside.keeps (h : Aside s t) : Keeps F s t := .of_eq h.knowledge h.proof h.proofLink

instance : Rows (Keeps F) where
  of_alike h := h.toAside.keeps

theorem notMem_of_any {α : Type} {l : List α} {key : α → String}
    (h : l.any (key · == id) = false) : id ∉ l.map key := by
  intro hm
  obtain ⟨a, ha, rfl⟩ := List.mem_map.mp hm
  exact Bool.false_ne_true (h.symm.trans (List.any_eq_true.mpr ⟨a, ha, beq_self_eq_true _⟩))

theorem justified_mono (hl : ∀ l ∈ s.db.proofLink, l ∈ t.db.proofLink)
    (hp : ∀ p ∈ s.db.proof, p ∈ t.db.proof) (h : s.db.justified id = true) :
    t.db.justified id = true := by
  obtain ⟨l, hlm, hl'⟩ := List.any_eq_true.mp h
  obtain ⟨hid, hv⟩ := Bool.and_eq_true_iff.mp hl'
  obtain ⟨p, hpm, hp'⟩ := List.any_eq_true.mp hv
  refine List.any_eq_true.mpr ⟨l, hl l hlm, Bool.and_eq_true_iff.mpr ⟨hid, ?_⟩⟩
  exact List.any_eq_true.mpr ⟨p, hp p hpm, hp'⟩

theorem insertKnowledge_keeps {row : Knowledge} : Moves (Keeps F) (insertKnowledge row) := by
  intro s a t h
  obtain ⟨had, rfl⟩ := insertKnowledge_ok h
  refine ⟨⟨?_, fun p hp => ⟨p, hp, rfl, fun h => h⟩, ?_⟩, ?_⟩
  · intro k hk
    exact ⟨k, List.mem_append_left _ hk, .refl k, fun h _ => h⟩
  · intro hs
    refine ⟨?_, hs.proof⟩
    show ((s.db.knowledge ++ [row]).map (·.id)).Nodup
    rw [List.map_append]
    exact nodup_concat hs.knowledge (notMem_of_any had.fresh)
  · intro owed hs k hk hst
    rcases List.mem_append.mp hk with hk | hk
    · exact hs k hk hst
    · rw [List.mem_singleton.mp hk] at hst
      exact absurd hst had.unproven

theorem insertProof_keeps {row : Proof} : Moves (Keeps F) (insertProof row) := by
  intro s a t h
  obtain ⟨hn, rfl⟩ := insertProof_ok h
  refine ⟨⟨fun k hk => ⟨k, hk, .refl k, fun h _ => h⟩, ?_, ?_⟩, ?_⟩
  · intro p hp
    exact ⟨p, List.mem_append_left _ hp, rfl, fun h => h⟩
  · intro hs
    refine ⟨hs.knowledge, ?_⟩
    show ((s.db.proof ++ [row]).map (·.id)).Nodup
    rw [List.map_append]
    exact nodup_concat hs.proof (notMem_of_any hn)
  · intro owed hs k hk hst
    refine (hs k hk hst).imp_left fun hj => ?_
    exact justified_mono (s := s) (fun l hl => hl) (fun p hp => List.mem_append_left _ hp) hj

theorem insertProofLink_keeps {row : ProofLink} : Moves (Keeps F) (insertProofLink row) := by
  intro s a t h
  obtain ⟨_, _, rfl⟩ := insertProofLink_ok h
  refine ⟨⟨fun k hk => ⟨k, hk, .refl k, fun h _ => h⟩, fun p hp => ⟨p, hp, rfl, fun h => h⟩,
    fun hs => ⟨hs.knowledge, hs.proof⟩⟩, ?_⟩
  intro owed hs k hk hst
  refine (hs k hk hst).imp_left fun hj => ?_
  exact justified_mono (s := s) (fun l hl => List.mem_append_left _ hl) (fun p hp => hp) hj

theorem setStatus_keeps {status : Status} {stamp : String} (hf : F id ∨ status = .superseded) :
    Moves (Keeps F) (setStatus id status stamp) := by
  intro s a t h
  obtain ⟨htrig, _, rfl⟩ := updateKnowledge_ok h
  set f : Knowledge → Knowledge := fun k =>
    if k.id == id then { k with status := status, updatedAt := stamp } else k with hfdef
  have hsame : ∀ k, SameEntry k (f k) := by
    intro k
    simp only [hfdef]
    split <;> exact ⟨rfl, rfl, rfl, rfl, rfl, rfl⟩
  refine ⟨⟨?_, fun p hp => ⟨p, hp, rfl, fun h => h⟩, ?_⟩, ?_⟩
  · intro k hk
    refine ⟨f k, List.mem_map.mpr ⟨k, hk, rfl⟩, hsame k, ?_⟩
    intro hsup hfree
    by_cases hid : k.id = id
    · -- The status of this one is free, or the new one is SUPERSEDED.
      have hst : (f k).status = status := by
        simp only [hfdef, hid, beq_self_eq_true, if_true]
      rw [hst]
      exact hf.resolve_left (hid ▸ hfree)
    · have hk' : f k = k := if_neg fun h => hid (beq_iff_eq.mp h)
      rw [hk', hsup]
  · intro hs
    refine ⟨?_, hs.proof⟩
    show ((s.db.knowledge.map f).map (·.id)).Nodup
    rw [List.map_map]
    have hids : ((·.id) ∘ f : Knowledge → String) = (·.id) := funext fun k => (hsame k).id
    rw [hids]
    exact hs.knowledge
  · intro owed hs k' hk' hst
    obtain ⟨k, hk, rfl⟩ := List.mem_map.mp hk'
    by_cases hid : k.id = id
    · have hk'' : f k = { k with status := status, updatedAt := stamp } :=
        if_pos (beq_iff_eq.mpr hid)
      rw [hk''] at hst ⊢
      exact Or.inl (htrig k hk hid hst)
    · have hk'' : f k = k := if_neg fun h => hid (beq_iff_eq.mp h)
      rw [hk''] at hst ⊢
      exact hs k hk hst

theorem clearAdmissible_later {a : Unit} (h : clearAdmissible id s = (.ok a, t)) :
    Later F s t ∧ t.db.knowledge = s.db.knowledge ∧ t.db.proofLink = s.db.proofLink ∧
      (∀ p ∈ t.db.proof, p.id = id → p.admissible = false) ∧
      (Just s → JustBut (fun k => s.db.linked k id = true) t) := by
  obtain rfl := update_ok.mp h
  set f : Proof → Proof := fun p => if p.id == id then { p with admissible := false } else p with hfdef
  have hid : ∀ p, (f p).id = p.id := by
    intro p
    simp only [hfdef]
    split <;> rfl
  refine ⟨⟨fun k hk => ⟨k, hk, .refl k, fun h _ => h⟩, ?_, ?_⟩, rfl, rfl, ?_, ?_⟩
  · intro p hp
    refine ⟨f p, List.mem_map.mpr ⟨p, hp, rfl⟩, hid p, ?_⟩
    intro hv
    by_cases hpid : p.id = id
    · have hf : f p = { p with admissible := false } := if_pos (beq_iff_eq.mpr hpid)
      rw [hf, Proof.valid, Bool.and_false] at hv
      exact nomatch hv
    · have hf : f p = p := if_neg fun h => hpid (beq_iff_eq.mp h)
      rwa [hf] at hv
  · intro hs
    refine ⟨hs.knowledge, ?_⟩
    show ((s.db.proof.map f).map (·.id)).Nodup
    rw [List.map_map]
    have hids : ((·.id) ∘ f : Proof → String) = (·.id) := funext hid
    rw [hids]
    exact hs.proof
  · intro p' hp' hpid
    obtain ⟨p, _, rfl⟩ := List.mem_map.mp hp'
    have hf : f p = { p with admissible := false } :=
      if_pos (beq_iff_eq.mpr ((hid p).symm.trans hpid))
    rw [hf]
  · intro hs k hk hst
    obtain ⟨l, hl, hl'⟩ := List.any_eq_true.mp (hs k hk hst)
    obtain ⟨hlk, hv⟩ := Bool.and_eq_true_iff.mp hl'
    obtain ⟨p, hp, hp'⟩ := List.any_eq_true.mp hv
    by_cases hpid : p.id = id
    · -- The proof that justified it is the one in question.
      refine Or.inr (List.any_eq_true.mpr ⟨l, hl, Bool.and_eq_true_iff.mpr ⟨hlk, ?_⟩⟩)
      have := beq_iff_eq.mp (Bool.and_eq_true_iff.mp hp').1
      exact beq_iff_eq.mpr (this.symm.trans hpid)
    · refine Or.inl (List.any_eq_true.mpr ⟨l, hl, Bool.and_eq_true_iff.mpr ⟨hlk, ?_⟩⟩)
      have hf : f p = p := if_neg fun h => hpid (beq_iff_eq.mp h)
      exact List.any_eq_true.mpr ⟨p, List.mem_map.mpr ⟨p, hp, hf⟩, hp'⟩

/-! ### Transactions -/

theorem relation_keeps {fromId toId actor : String} {type : RelationType} :
    Moves (Keeps F) (insertRelation env fromId type toId actor) :=
  moves_insertRelation fun _ _ => .of_eq rfl rfl rfl

theorem linkProof_keeps {knowledgeId proofId stamp actor : String} :
    Moves (Keeps F) (linkProof env knowledgeId proofId stamp actor) :=
  moves_linkProof (fun _ => insertProofLink_keeps) fun _ _ _ => relation_keeps

theorem attach_keeps {knowledgeId proofId actor : String} {asPromotion : Bool} {r : Unit}
    (h : attach env knowledgeId proofId actor asPromotion s = (.ok r, t)) :
    Keeps (fun k => k = knowledgeId ∧ asPromotion = true) s t := by
  obtain ⟨knowledge, u, hk, hrest⟩ := bind_ok.mp h
  obtain ⟨hmem, hid, rfl⟩ := knowledgeRow_ok hk
  refine Moves.bind (R := Keeps _) moves_proofRow (fun proof => ?_) hrest
  refine moves_utcNow.bind fun _ => moves_query.bind fun _ => ?_
  refine Moves.bind (Moves.ite Moves.pure linkProof_keeps) fun _ => Moves.bind ?_ fun _ => ?_
  · cases asPromotion with
    | false => exact Moves.pure
    | true =>
      refine Moves.require.bind fun _ => Moves.ite Moves.pure ?_
      exact (setStatus_keeps (Or.inl ⟨hid, rfl⟩)).bind fun _ => Moves.pure
  · exact moves_knowledgeRow.bind fun _ => moves_audit.bind fun _ => Moves.pure

theorem completeEntry_keeps {row : Knowledge} {status : Status} {tags proofIds : List String}
    {source : Option DocumentSource} {previous : Option Knowledge} {created actor : String} :
    Moves (Keeps (· = row.id))
      (completeEntry env row status tags proofIds source previous created actor) :=
  moves_completeEntry (fun _ => insertProofLink_keeps) (fun _ _ _ => relation_keeps)
    (fun _ _ => setStatus_keeps (Or.inr rfl)) (setStatus_keeps (Or.inl rfl))

theorem appendEntry_keeps {d : Draft} {type : KnowledgeType} {status : Status}
    {given : Option String} {tags : List String} {source : Option DocumentSource} {r : String}
    (h : appendEntry env d type status given tags source s = (.ok r, t)) :
    Keeps (fun _ => False) s t := by
  obtain ⟨a⟩ := appendEntry_ok h
  have hfresh := (insertKnowledge_ok a.insert).1.fresh
  have hk : Keeps (· = a.row.id) s t :=
    trans_of (Keeps _) a.aside.keeps
      (trans_of (Keeps _) (insertKnowledge_keeps a.insert) (completeEntry_keeps a.complete))
  refine ⟨hk.toLater.tighten ?_, hk.just⟩
  rintro k hkm hid
  rw [← a.aside.knowledge] at hkm
  have : a.row.id ∉ a.before.db.knowledge.map (·.id) := notMem_of_any hfresh
  exact absurd (List.mem_map.mpr ⟨k, hkm, hid⟩) this

/-! ### Invalidation -/

theorem eq_of_id {k k' : Knowledge} (hs : s.Keyed) (hk : k ∈ s.db.knowledge)
    (hk' : k' ∈ s.db.knowledge) (h : k.id = k'.id) : k = k' :=
  List.inj_on_of_nodup_map hs.knowledge hk hk' h

theorem reevaluate_just {proofId stamp actor knowledgeId : String} {r : List String}
    {owed : List String} (hs : s.Keyed)
    (h : reevaluate env proofId stamp actor knowledgeId s = (.ok r, t))
    (hj : JustBut (· ∈ knowledgeId :: owed) s) : JustBut (· ∈ owed) t := by
  obtain ⟨row, _, hrow, hrest⟩ := bind_ok.mp h
  obtain ⟨hmem, rfl, rfl⟩ := knowledgeRow_ok hrow
  obtain ⟨still, _, hq, hrest⟩ := bind_ok.mp hrest
  obtain ⟨rfl, rfl⟩ := query_ok.mp hq
  -- Of the entries that are owed, only this one is left out.
  have hone : ∀ k ∈ s.db.knowledge, k.status = .proven →
      k = row ∨ s.db.justified k.id = true ∨ k.id ∈ owed := by
    intro k hk hst
    rcases hj k hk hst with hjk | howed
    · exact Or.inr (Or.inl hjk)
    · rcases List.mem_cons.mp howed with hid | howed
      · exact Or.inl (eq_of_id hs hk hmem hid)
      · exact Or.inr (Or.inr howed)
  split at hrest
  · obtain ⟨_, u, hset, hrest⟩ := bind_ok.mp hrest
    obtain ⟨_, v, haud, hpure⟩ := bind_ok.mp hrest
    obtain ⟨_, rfl⟩ := pure_ok.mp hpure
    have hu : JustBut (· ∈ owed) u := by
      obtain ⟨_, _, rfl⟩ := updateKnowledge_ok hset
      intro k' hk' hst
      obtain ⟨k, hk, rfl⟩ := List.mem_map.mp hk'
      by_cases hid : k.id = row.id
      · rw [if_pos (beq_iff_eq.mpr hid)] at hst
        exact nomatch hst
      · rw [if_neg fun h => hid (beq_iff_eq.mp h)] at hst ⊢
        rcases hone k hk hst with rfl | h
        · exact absurd rfl hid
        · exact h
    exact (moves_audit (R := Keeps fun _ => False) haud).just _ hu
  · rename_i hn
    obtain ⟨_, rfl⟩ := pure_ok.mp hrest
    intro k hk hst
    rcases hone k hk hst with rfl | h
    · refine Or.inl ?_
      by_contra hnj
      exact hn ⟨hst, Bool.eq_false_iff.mpr hnj⟩
    · exact h

theorem reevaluate_later {proofId stamp actor knowledgeId : String} {r : List String}
    (hs : s.Keyed) (h : reevaluate env proofId stamp actor knowledgeId s = (.ok r, t)) :
    Later (fun _ => False) s t := by
  obtain ⟨row, _, hrow, hrest⟩ := bind_ok.mp h
  obtain ⟨hmem, rfl, rfl⟩ := knowledgeRow_ok hrow
  obtain ⟨still, _, hq, hrest⟩ := bind_ok.mp hrest
  obtain ⟨rfl, rfl⟩ := query_ok.mp hq
  split at hrest
  · rename_i hc
    have hk : Moves (Keeps (· = row.id)) (do
        setStatus row.id .observed stamp
        let _ ← audit env actor "REEVALUATE_PROVEN_AFTER_PROOF_INVALIDATION" "knowledge" row.id
          (some (.knowledge row)) (some (.observed ("proof " ++ proofId ++ " invalidated")))
        return [row.id] : Op (List String)) :=
      (setStatus_keeps (F := (· = row.id)) (Or.inl rfl)).bind fun _ =>
        moves_audit.bind fun _ => Moves.pure
    refine (hk hrest).toLater.tighten ?_
    intro k hkm hid hsup
    obtain rfl := eq_of_id hs hkm hmem hid
    exact nomatch hsup.symm.trans hc.1
  · obtain ⟨_, rfl⟩ := pure_ok.mp hrest
    exact refl_of (Later _) s

theorem reevaluateAll_later {proofId stamp actor : String} {ids r : List String} (hs : s.Keyed)
    (h : reevaluateAll env proofId stamp actor ids s = (.ok r, t)) :
    Later (fun _ => False) s t ∧ (JustBut (· ∈ ids) s → Just t) := by
  induction ids generalizing s r with
  | nil =>
    obtain ⟨_, rfl⟩ := pure_ok.mp h
    refine ⟨refl_of (Later _) s, fun hj k hk hst => ?_⟩
    exact (hj k hk hst).resolve_right List.not_mem_nil
  | cons id ids ih =>
    obtain ⟨_, u, hone, hrest⟩ := bind_ok.mp h
    obtain ⟨_, v, hall, hpure⟩ := bind_ok.mp hrest
    obtain ⟨_, rfl⟩ := pure_ok.mp hpure
    have hl := reevaluate_later hs hone
    obtain ⟨hl', hj'⟩ := ih (hl.keyed hs) hall
    exact ⟨trans_of (Later _) hl hl', fun hj => hj' (reevaluate_just hs hone hj)⟩

theorem invalidate_later {proofId reason actor : String} {r : List String} (hs : s.Keyed)
    (h : invalidate env proofId reason actor s = (.ok r, t)) :
    Later (fun _ => False) s t ∧ (Just s → Just t) ∧
      ∀ p ∈ t.db.proof, p.id = proofId → p.valid = false := by
  obtain ⟨before, _, hb, hrest⟩ := bind_ok.mp h
  obtain ⟨_, _, rfl⟩ := proofRow_ok hb
  obtain ⟨stamp, u, hstamp, hrest⟩ := bind_ok.mp hrest
  obtain ⟨_, v, hclear, hrest⟩ := bind_ok.mp hrest
  obtain ⟨after, _, ha, hrest⟩ := bind_ok.mp hrest
  obtain ⟨hafter, hid, rfl⟩ := proofRow_ok ha
  obtain ⟨ids, _, hq, hrest⟩ := bind_ok.mp hrest
  obtain ⟨rfl, rfl⟩ := query_ok.mp hq
  obtain ⟨demoted, w, hall, hrest⟩ := bind_ok.mp hrest
  obtain ⟨_, x, haud, hpure⟩ := bind_ok.mp hrest
  obtain ⟨_, rfl⟩ := pure_ok.mp hpure
  have hsu : Keeps (fun _ => False) s u := moves_utcNow hstamp
  obtain ⟨huv, hkn, hlinks, hcleared, hjust⟩ := clearAdmissible_later (F := fun _ => False) hclear
  have hsv := trans_of (Later _) hsu.toLater huv
  obtain ⟨hvw, hjw⟩ := reevaluateAll_later (hsv.keyed hs) hall
  have hwx : Keeps (fun _ => False) w x := moves_audit haud
  have hvx := trans_of (Later _) hvw hwx.toLater
  refine ⟨trans_of (Later _) hsv hvx, ?_, ?_⟩
  · intro hj
    have hju : Just u := justBut_false.mp (hsu.just _ (justBut_false.mpr hj))
    refine justBut_false.mp (hwx.just _ (justBut_false.mpr (hjw ?_)))
    -- Whatever the proof is linked to is among the entries that get a turn.
    intro k hk hst
    refine (hjust hju k hk hst).imp_right fun hlk => ?_
    obtain ⟨l, hl, hl'⟩ := List.any_eq_true.mp hlk
    obtain ⟨hlk, hlp⟩ := Bool.and_eq_true_iff.mp hl'
    refine (List.mem_insertionSort _).mpr (List.mem_map.mpr ⟨l, List.mem_filter.mpr ⟨?_, hlp⟩, ?_⟩)
    · rw [hlinks]
      exact hl
    · exact beq_iff_eq.mp hlk
  · intro p hp hpid
    obtain ⟨p', hp', hpid', hv⟩ := hvx.proof after hafter
    have hx := (hvx.keyed (hsv.keyed hs)).proof
    obtain rfl := List.inj_on_of_nodup_map hx hp hp' (hpid.trans (hid.symm.trans hpid'.symm))
    rw [Bool.eq_false_iff]
    intro hval
    have := hv hval
    rw [Proof.valid, hcleared after hafter hid, Bool.and_false] at this
    exact nomatch this

/-! ### Calls -/

def Calm (s : Store) : Call → Bool
  | .attachProof knowledgeId _ _ true =>
    s.db.knowledge.all fun k => !(k.id == knowledgeId && k.status == .superseded)
  | _ => true

theorem Calm.promotes {knowledgeId proofId actor : String}
    (h : Calm s (.attachProof knowledgeId proofId actor true) = true) {k : Knowledge}
    (hk : k ∈ s.db.knowledge) (hid : k.id = knowledgeId) : k.status ≠ .superseded := by
  have hall := List.all_eq_true.mp h k hk
  rw [hid, beq_self_eq_true, Bool.true_and, Bool.not_eq_true', beq_eq_false_iff_ne] at hall
  exact hall

theorem Work.later {c : Call} (h : Work env s t c) (hs : s.Keyed) (hj : Just s) (hc : Calm s c = true) :
    Later (fun _ => False) s t ∧ Just t := by
  have hkeeps : Keeps (fun _ => False) s t → Later (fun _ => False) s t ∧ Just t := by
    intro hk
    exact ⟨hk.toLater, justBut_false.mp (hk.just _ (justBut_false.mpr hj))⟩
  cases h with
  | registerComponent _ h => exact hkeeps (moves_storeComponent (fun _ _ => .of_eq rfl rfl rfl) h)
  | registerFunction _ _ h => exact hkeeps (moves_storeFunction (fun _ _ => .of_eq rfl rfl rfl) h)
  | registerBrick _ _ h => exact hkeeps (moves_storeBrick (fun _ _ => .of_eq rfl rfl rfl) h)
  | updateBrick h => exact hkeeps (moves_changeBrick (fun _ _ => .of_eq rfl rfl rfl) h)
  | registerAssetFile h => exact hkeeps (moves_storeAsset (fun _ _ => .of_eq rfl rfl rfl) h)
  | recordPipelineRun h => exact hkeeps (moves_storeRun (fun _ _ => .of_eq rfl rfl rfl) h)
  | recordProof h => exact hkeeps (moves_storeProof (fun _ => insertProof_keeps) h)
  | attachProof h =>
    rename_i knowledgeId proofId actor asPromotion
    have hk := attach_keeps h
    refine hkeeps ⟨hk.toLater.tighten ?_, hk.just⟩
    rintro k hkm ⟨hid, rfl⟩
    exact Calm.promotes hc hkm hid
  | invalidateProof h =>
    obtain ⟨hl, hj', _⟩ := invalidate_later hs h
    exact ⟨hl, hj' hj⟩
  | appendKnowledge _ h => exact hkeeps (appendEntry_keeps h)
  | addRelation h => exact hkeeps (aside_relate h).keeps
  | supersedeRelation h => exact hkeeps (aside_replaceRelation h).keeps
  | updateFront h => exact hkeeps (moves_mergeFront h)
  | replaceFront h => exact hkeeps (moves_rewriteFront h)
  | rebuildIndex h => exact hkeeps (moves_reindex h)

/-! ### Runs -/

/-- A call of a run, with what surrounds it: the process that makes it, and the files that are under
the directory of artifacts by then. -/
structure Ev where
  env : Env
  artifacts : String → Option Bytes
  call : Call

def Store.before (s : Store) (e : Ev) : Store := { s with artifacts := e.artifacts }

def outcome (s : Store) (e : Ev) : Except Refusal Unit := (e.call.perform e.env (s.before e)).1

def next (s : Store) (e : Ev) : Store := (e.call.perform e.env (s.before e)).2

/-- What holds from a state of a run to any later one. -/
structure Kept (s t : Store) : Prop where
  stays : ∀ k ∈ s.db.knowledge, ∃ k' ∈ t.db.knowledge, k'.id = k.id
  content : ∀ k ∈ s.db.knowledge, ∀ k' ∈ t.db.knowledge, k'.id = k.id → SameEntry k k'
  retired : ∀ k ∈ s.db.knowledge, k.status = .superseded → ∀ k' ∈ t.db.knowledge, k'.id = k.id →
    k'.status ≠ .active ∧ k'.status ≠ .observed ∧ k'.status ≠ .proven
  revoked : ∀ p ∈ s.db.proof, p.valid = false → ∀ p' ∈ t.db.proof, p'.id = p.id → p'.valid = false

/-- What holds of a call: what is refused changes no table, and a proof that is invalidated is no
longer valid. -/
structure Answered (s : Store) (e : Ev) : Prop where
  refused : ∀ r, outcome s e = .error r → (next s e).db = s.db
  invalidated : ∀ proofId reason actor, e.call = .invalidateProof proofId reason actor →
    outcome s e = .ok () → ∀ p ∈ (next s e).db.proof, p.id = proofId → p.valid = false

theorem Later.kept (h : Later (fun _ => False) s t) (ht : t.Keyed) : Kept s t := by
  have hone : ∀ k ∈ s.db.knowledge, ∀ k' ∈ t.db.knowledge, k'.id = k.id →
      SameEntry k k' ∧ (k.status = .superseded → k'.status = .superseded) := by
    intro k hk k' hk' hid
    obtain ⟨k'', hk'', hsame, hst⟩ := h.knowledge k hk
    obtain rfl := eq_of_id ht hk' hk'' (hid.trans hsame.id.symm)
    exact ⟨hsame, fun hsup => hst hsup fun hf => hf⟩
  refine ⟨?_, fun k hk k' hk' hid => (hone k hk k' hk' hid).1, ?_, ?_⟩
  · intro k hk
    obtain ⟨k', hk', hsame, _⟩ := h.knowledge k hk
    exact ⟨k', hk', hsame.id⟩
  · intro k hk hsup k' hk' hid
    rw [(hone k hk k' hk' hid).2 hsup]
    exact ⟨by decide, by decide, by decide⟩
  · intro p hp hv p' hp' hid
    obtain ⟨p'', hp'', hid', hv'⟩ := h.proof p hp
    obtain rfl := List.inj_on_of_nodup_map ht.proof hp' hp'' (hid.trans hid'.symm)
    rw [Bool.eq_false_iff]
    intro hval
    exact Bool.false_ne_true (hv.symm.trans (hv' hval))

structure Store.Sound (s : Store) : Prop where
  plain : s.Plain
  keyed : s.Keyed
  just : Just s

theorem sound_fresh : Store.fresh.Sound where
  plain k id h := by cases k <;> exact nomatch h
  keyed := ⟨List.nodup_nil, List.nodup_nil⟩
  just _ h := nomatch h

theorem next_sound (hs : s.Sound) {e : Ev} (hc : Calm s e.call = true) :
    (next s e).Sound ∧ Later (fun _ => False) s (next s e) ∧ Answered s e := by
  have hb : Aside s (s.before e) := ⟨rfl, rfl, rfl, rfl, rfl, rfl, rfl, rfl⟩
  have hset := Call.perform_settles e.env (hb.same.named.plain hs.plain) e.call
  rcases hr : e.call.perform e.env (s.before e) with ⟨r | a, t⟩
  · have hdb : t.db = s.db := hset.2 r t hr
    have hn : next s e = t := congrArg Prod.snd hr
    have hst : Aside s t := by
      constructor <;> rw [hdb]
    rw [hn]
    have hk : Keeps (fun _ => False) s t := hst.keeps
    refine ⟨⟨hst.same.named.plain hs.plain, hk.keyed hs.keyed, ?_⟩, hk.toLater, ?_, ?_⟩
    · exact justBut_false.mp (hk.just _ (justBut_false.mpr hs.just))
    · intro _ _
      rw [hn]
      exact hdb
    · intro p why actor hcall hok
      rw [outcome, hr] at hok
      exact nomatch hok
  · have hw : Work e.env (s.before e) t e.call := hset.1 a t hr
    have hn : next s e = t := congrArg Prod.snd hr
    obtain ⟨hl, hj⟩ := hw.later (s := s.before e) ⟨hs.keyed.knowledge, hs.keyed.proof⟩ hs.just hc
    have hl' : Later (fun _ => False) s t := trans_of (Later _) hb.keeps.toLater hl
    rw [hn]
    refine ⟨⟨?_, hl'.keyed hs.keyed, hj⟩, hl', ?_, ?_⟩
    · exact (hw.named (hb.same.named.plain hs.plain)).plain (hb.same.named.plain hs.plain)
    · intro r hrr
      rw [outcome, hr] at hrr
      exact nomatch hrr
    · intro p why actor hcall _
      rw [hn]
      rw [hcall] at hw
      cases hw with
      | invalidateProof h =>
        exact (invalidate_later (s := s.before e) ⟨hs.keyed.knowledge, hs.keyed.proof⟩ h).2.2

/-- Whatever the operations of a run, their order and their refusals: if no promotion is asked for a
superseded entry, every entry that is PROVEN is justified in every state, entries keep what they say
and what is superseded or invalidated stays so from each state to every later one, and what is
refused changes nothing. -/
theorem justified_stays (es : List Ev)
    (hc : Runs.Each next Store.fresh (fun s e => Calm s e.call = true) es) :
    (∀ pre post, es = pre ++ post →
      Just (Runs.run next Store.fresh pre) ∧
        Kept (Runs.run next Store.fresh pre) (Runs.run next Store.fresh es)) ∧
      Runs.Each next Store.fresh Answered es := by
  have hall : (Runs.run next Store.fresh es).Sound ∧
      (∀ pre post, es = pre ++ post → Just (Runs.run next Store.fresh pre) ∧
        Later (fun _ => False) (Runs.run next Store.fresh pre) (Runs.run next Store.fresh es)) ∧
      Runs.Each next Store.fresh Answered es := by
    induction es using List.reverseRecOn with
    | nil =>
      refine ⟨sound_fresh, ?_, Runs.each_nil⟩
      intro pre post h
      obtain ⟨rfl, _⟩ := List.append_eq_nil_iff.mp h.symm
      exact ⟨sound_fresh.just, refl_of (Later _) _⟩
    | append_singleton es e ih =>
      obtain ⟨hpre, hlast⟩ := Runs.each_concat.mp hc
      obtain ⟨hs, hlater, heach⟩ := ih hpre
      obtain ⟨hs', hl, ha⟩ := next_sound hs hlast
      rw [Runs.run_concat]
      refine ⟨hs', ?_, Runs.each_concat.mpr ⟨heach, ha⟩⟩
      intro pre post h
      -- The earlier state is the last one, or one of the run before.
      rcases List.eq_nil_or_concat post with rfl | ⟨post', d, rfl⟩
      · rw [List.append_nil] at h
        rw [← h, Runs.run_concat]
        exact ⟨hs'.just, refl_of (Later _) _⟩
      · rw [List.concat_eq_append, ← List.append_assoc] at h
        obtain ⟨rfl, _⟩ := List.append_inj' h rfl
        obtain ⟨hj, hl'⟩ := hlater pre post' rfl
        exact ⟨hj, trans_of (Later _) hl' hl⟩
  refine ⟨fun pre post h => ?_, hall.2.2⟩
  obtain ⟨hj, hl⟩ := hall.2.1 pre post h
  exact ⟨hj, hl.kept hall.1.keyed⟩

def desk : Env where
  writeEnabled := true
  utcNow _ := "2026-08-19T10:00:00Z"
  upper s := String.ofList (s.toList.map Char.toUpper)
  lower s := String.ofList (s.toList.map Char.toLower)
  canonicalJson _ := "\x7b\"artifact_hash\":\"\",\"artifact_path\":\"\",\"command\":\"\"," ++
    "\"environment\":\x7b\x7d,\"exit_code\":null,\"finished_at\":null,\"kind\":\"ORACLE\"," ++
    "\"result\":\"PASS\",\"started_at\":null\x7d"
  sha256 data :=
    if data = Percent.bytes "A" then
      "559aead08264d5795d3909718cdd05abd49572e84fe55590eef31a88a08fdffd"
    else if data = Percent.bytes "B" then
      "df7e70e5021544f4834bbee64a9e3789febc4be81470df629cad6ddb03320a5c"
    else "b4491f191b0390263d62910673debf2ba5afa9d7e50f3e4a27322650b8c51090"
  hmacSha256 _ _ := "886343e79e13dcc655f3236680585ebaf306b02b576f1be84bc515395089afe3"
  proofHmacSecret := "secret"
  resolve path := some path
  host _ := none
  replace _ := ""

def atDesk (c : Call) : Ev := ⟨desk, fun _ => none, c⟩

def oracleRun : ProofArgs where
  kind := "oracle"
  command := ""
  result := "PASS"
  exitCode := none
  stdoutRef := ""
  stderrRef := ""
  artifactPath := ""
  artifactHash := ""
  environment := none
  startedAt := none
  finishedAt := none
  receiptHmac := "886343e79e13dcc655f3236680585ebaf306b02b576f1be84bc515395089afe3"
  actor := "desk"

def note (content : String) (status : Option String) (proofIds : List String)
    (supersedesId : Option String) : Draft where
  knowledgeType := "FORENSIC"
  status := status
  title := "Note"
  content := content
  componentId := none
  functionId := none
  brickId := none
  tags := []
  proofIds := proofIds
  supersedesId := supersedesId
  actor := "desk"
  effectiveAt := none
  documentSource := none

/-- An entry that is superseded; its successor is promoted, and loses its proof. -/
def careful : List Ev :=
  [atDesk (.recordProof oracleRun), atDesk (.appendKnowledge (note "A" none [] none)),
    atDesk (.appendKnowledge (note "B" none [] (some "KN-0001"))),
    atDesk (.attachProof "KN-0002" "P-0001" "desk" true),
    atDesk (.invalidateProof "P-0001" "wrong trace" "desk")]

def revived : List Ev :=
  careful.take 3 ++ [atDesk (.attachProof "KN-0001" "P-0001" "desk" true)]

theorem justified_stays_careful :
    Runs.Each next Store.fresh (fun s e => Calm s e.call = true) careful ∧
      Just (Runs.run next Store.fresh (careful.take 4)) ∧
      Kept (Runs.run next Store.fresh (careful.take 3)) (Runs.run next Store.fresh careful) := by
  have hc : Runs.Each next Store.fresh (fun s e => Calm s e.call = true) careful := by
    refine Runs.each_cons.mpr ⟨rfl, Runs.each_cons.mpr ⟨rfl, Runs.each_cons.mpr ⟨rfl, ?_⟩⟩⟩
    refine Runs.each_cons.mpr ⟨by decide +kernel, Runs.each_cons.mpr ⟨rfl, Runs.each_nil⟩⟩
  obtain ⟨h, _⟩ := justified_stays careful hc
  exact ⟨hc, (h (careful.take 4) (careful.drop 4) rfl).1, (h (careful.take 3) (careful.drop 3) rfl).2⟩

/-- An entry that is SUPERSEDED after three calls is PROVEN after the fourth. -/
theorem justified_stays_not :
    ¬ Kept (Runs.run next Store.fresh (careful.take 3)) (Runs.run next Store.fresh revived) := by
  intro h
  have hbefore : (Runs.run next Store.fresh (careful.take 3)).db.knowledge.any
      (fun k => k.id == "KN-0001" && k.status == .superseded) = true := by decide +kernel
  have hafter : (Runs.run next Store.fresh revived).db.knowledge.any
      (fun k => k.id == "KN-0001" && k.status == .proven) = true := by decide +kernel
  obtain ⟨k, hk, hks⟩ := List.any_eq_true.mp hbefore
  obtain ⟨k', hk', hks'⟩ := List.any_eq_true.mp hafter
  simp only [Bool.and_eq_true, beq_iff_eq] at hks hks'
  exact (h.retired k hk hks.2 k' hk' (hks'.1.trans hks.1.symm)).2.2 hks'.2

end Aret.Memory
