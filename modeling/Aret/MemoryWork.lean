/-
What a call of the memory store comes to.
-/
import Aret.MemoryNames

namespace Aret.Memory

open Txn

variable {s t : Store} {env : Env} {id : String} {k : Kind}

/-! ### What the transactions do to names -/

theorem made_adds {u v : Store} (h1 : Aside s u) (h2 : Adds k id u v) (h3 : Aside v t) :
    Adds k id s t := (Adds.before h1.same h2).after h3.same

theorem storeComponent_adds {title description actor r : String}
    (h : storeComponent env id title description actor s = (.ok r, t)) :
    r = id ∧ Adds .component id s t := by
  simp only [storeComponent, bind_ok, query_ok, require_ok, pure_ok] at h
  obtain ⟨_, _, ⟨rfl, rfl⟩, _, _, ⟨_, rfl⟩, _, u, h1, _, v, h2, _, w, h3, rfl, rfl⟩ := h
  exact ⟨rfl, made_adds (moves_utcNow h1) (insertComponent_adds h2) (moves_audit h3)⟩

theorem plain_stableId {componentId module symbol : String}
    (h : hasSlash (stableId componentId module symbol) = false) :
    Plain (stableId componentId module symbol) := by
  refine ⟨?_, h⟩
  intro he
  have hlen := congrArg (fun s : String => s.toList.length) he
  simp only [stableId, String.toList_append, List.length_append] at hlen
  have h1 : ":".toList.length = 1 := rfl
  have h0 : "".toList.length = 0 := rfl
  omega

theorem storeFunction_adds {componentId module symbol convention actor r : String}
    (h : storeFunction env componentId module symbol convention actor s = (.ok r, t)) :
    r = stableId componentId module symbol ∧
      Adds .function (stableId componentId module symbol) s t := by
  simp only [storeFunction, requireRow, bind_ok, query_ok, require_ok, pure_ok] at h
  obtain ⟨_, _, ⟨_, _, ⟨rfl, rfl⟩, _, rfl⟩, _, _, ⟨rfl, rfl⟩, _, _, ⟨_, rfl⟩, _, u, h1, _, v, h2, _, w,
    h3, rfl, rfl⟩ := h
  exact ⟨rfl, made_adds (moves_utcNow h1) (insertFunction_adds h2) (moves_audit h3)⟩

theorem storeBrick_adds {a : BrickArgs} {r : String} (h : storeBrick env a s = (.ok r, t)) :
    r = a.id ∧ Adds .brick a.id s t := by
  simp only [storeBrick, requireRow, bind_ok, query_ok, require_ok, pure_ok] at h
  obtain ⟨_, _, ⟨_, _, ⟨rfl, rfl⟩, _, rfl⟩, _, _, ⟨rfl, rfl⟩, _, _, ⟨_, rfl⟩, _, u, h1, _, v, h2, _, w,
    h3, rfl, rfl⟩ := h
  exact ⟨rfl, made_adds (moves_utcNow h1) (insertBrick_adds h2) (moves_audit h3)⟩

theorem changeBrick_same {c : BrickChange} {actor r : String}
    (h : changeBrick env id c actor s = (.ok r, t)) :
    r = id ∧ Same s t ∧ t.db.has .brick r = true := by
  simp only [changeBrick, bind_ok, query_ok, require_ok, expect_ok, pure_ok] at h
  obtain ⟨_, _, ⟨rfl, rfl⟩, before, _, ⟨hf, rfl⟩, _, _, ⟨rfl, rfl⟩, _, _, ⟨_, rfl⟩, _, u, h1, _, v, h2,
    rfl, rfl⟩ := h
  have hn : Same s v := trans_of Same (setBrick_same h1) (moves_audit h2)
  refine ⟨rfl, hn, (hn.has .brick id).trans ?_⟩
  exact List.any_eq_true.mpr ⟨before, List.mem_of_find?_eq_some hf,
    List.find?_some (p := fun b : Brick => b.id == id) hf⟩

theorem plain_asset : Plain "AS" := ⟨by decide, by decide⟩
theorem plain_run : Plain "PR" := ⟨by decide, by decide⟩
theorem plain_proof : Plain "P" := ⟨by decide, by decide⟩
theorem plain_knowledge : Plain "KN" := ⟨by decide, by decide⟩

theorem storeAsset_adds {source : HostFile} {kind sourceKind actor r : String} {provenance : Json}
    (h : storeAsset env source kind sourceKind provenance actor s = (.ok r, t)) :
    (∃ n, r = mint "AS" n) ∧ Adds .asset r s t := by
  simp only [storeAsset, bind_ok, read_ok, require_ok, pure_ok] at h
  obtain ⟨id, u, h1, _, v, h2, _, _, ⟨rfl, rfl⟩, _, w, h3, _, _, ⟨_, rfl⟩, _, x, h4, _, y, h5, _, z, h6,
    rfl, rfl⟩ := h
  obtain ⟨hn, ha⟩ := newId_ok h1
  have h2 := trans_of Aside ha (moves_copyFile h2)
  have h4 := trans_of Aside (moves_compareDigest (R := Aside) h3) (moves_utcNow h4)
  exact ⟨hn, made_adds (trans_of Aside h2 h4) (insertAsset_adds h5) (moves_audit h6)⟩

theorem storeRun_adds {a : RunArgs} {name relative r : String} {data : Bytes}
    (h : storeRun env a name relative data s = (.ok r, t)) :
    (∃ n, r = mint "PR" n) ∧ Adds .pipeline r s t := by
  simp only [storeRun, bind_ok, pure_ok] at h
  obtain ⟨id, u, h1, _, v, h2, _, w, h3, _, x, h4, rfl, rfl⟩ := h
  obtain ⟨hn, ha⟩ := newId_ok h1
  exact ⟨hn, made_adds (trans_of Aside ha (moves_utcNow h2)) (insertPipelineRun_adds h3)
    (moves_audit h4)⟩

theorem storeProof_adds {a : ProofArgs} {c : Checked} {r : String}
    (h : storeProof env a c s = (.ok r, t)) : (∃ n, r = mint "P" n) ∧ Adds .proof r s t := by
  simp only [storeProof, bind_ok, pure_ok] at h
  obtain ⟨id, u, h1, _, v, h2, _, w, h3, _, x, h4, rfl, rfl⟩ := h
  obtain ⟨hn, ha⟩ := newId_ok h1
  exact ⟨hn, made_adds (trans_of Aside ha (moves_utcNow h2)) (insertProof_adds h3) (moves_audit h4)⟩

theorem relation_same {fromId toId actor : String} {type : RelationType} :
    Moves Same (insertRelation env fromId type toId actor) :=
  aside_insertRelation.imp fun _ _ h => h.same

theorem linkProof_same {knowledgeId proofId stamp actor : String} :
    Moves Same (linkProof env knowledgeId proofId stamp actor) :=
  moves_linkProof (fun _ => insertProofLink_same) fun _ _ _ => relation_same

theorem promote_same {knowledge : Knowledge} {proof : Proof} {stamp : String} :
    Moves Same (promote knowledge proof stamp) :=
  Moves.require.bind fun _ => Moves.ite Moves.pure (setStatus_same.bind fun _ => Moves.pure)

theorem knowledgeRow_ok {row : Knowledge} (h : knowledgeRow id s = (.ok row, t)) :
    row ∈ s.db.knowledge ∧ row.id = id ∧ s = t := by
  simp only [knowledgeRow, bind_ok, query_ok, expect_ok] at h
  obtain ⟨_, _, ⟨rfl, rfl⟩, hf, rfl⟩ := h
  exact ⟨List.mem_of_find?_eq_some hf,
    beq_iff_eq.mp (List.find?_some (p := fun b : Knowledge => b.id == id) hf), rfl⟩

theorem proofRow_ok {row : Proof} (h : proofRow id s = (.ok row, t)) :
    row ∈ s.db.proof ∧ row.id = id ∧ s = t := by
  simp only [proofRow, bind_ok, query_ok, expect_ok] at h
  obtain ⟨_, _, ⟨rfl, rfl⟩, hf, rfl⟩ := h
  exact ⟨List.mem_of_find?_eq_some hf,
    beq_iff_eq.mp (List.find?_some (p := fun b : Proof => b.id == id) hf), rfl⟩

theorem has_knowledge {row : Knowledge} (h : row ∈ s.db.knowledge) :
    s.db.has .knowledge row.id = true := List.any_eq_true.mpr ⟨row, h, beq_self_eq_true _⟩

theorem has_proof {row : Proof} (h : row ∈ s.db.proof) : s.db.has .proof row.id = true :=
  List.any_eq_true.mpr ⟨row, h, beq_self_eq_true _⟩

theorem attach_same {knowledgeId proofId actor : String} {asPromotion : Bool} {r : Unit}
    (h : attach env knowledgeId proofId actor asPromotion s = (.ok r, t)) :
    Same s t ∧ t.db.has .knowledge knowledgeId = true ∧ t.db.has .proof proofId = true := by
  have hn : Moves Same (attach env knowledgeId proofId actor asPromotion) := by
    refine moves_knowledgeRow.bind fun _ => moves_proofRow.bind fun _ => ?_
    refine moves_utcNow.bind fun _ => moves_query.bind fun _ => ?_
    refine Moves.bind (Moves.ite Moves.pure linkProof_same) fun _ => ?_
    refine Moves.bind (Moves.ite promote_same Moves.pure) fun _ => ?_
    exact moves_knowledgeRow.bind fun _ => moves_audit.bind fun _ => Moves.pure
  have hs := hn h
  obtain ⟨knowledge, _, hk, h⟩ := bind_ok.mp h
  obtain ⟨proof, _, hp, h⟩ := bind_ok.mp h
  obtain ⟨hkmem, rfl, rfl⟩ := knowledgeRow_ok hk
  obtain ⟨hpmem, rfl, rfl⟩ := proofRow_ok hp
  exact ⟨hs, (hs.has _ _).trans (has_knowledge hkmem), (hs.has _ _).trans (has_proof hpmem)⟩

theorem reevaluate_same {proofId stamp actor knowledgeId : String} :
    Moves Same (reevaluate env proofId stamp actor knowledgeId) := by
  refine moves_knowledgeRow.bind fun _ => moves_query.bind fun _ => Moves.ite ?_ Moves.pure
  exact setStatus_same.bind fun _ => moves_audit.bind fun _ => Moves.pure

theorem reevaluateAll_same {proofId stamp actor : String} {ids : List String} :
    Moves Same (reevaluateAll env proofId stamp actor ids) := by
  induction ids with
  | nil => exact Moves.pure
  | cons id ids ih => exact reevaluate_same.bind fun _ => ih.bind fun _ => Moves.pure

theorem invalidate_same {proofId reason actor : String} {r : List String}
    (h : invalidate env proofId reason actor s = (.ok r, t)) :
    Same s t ∧ t.db.has .proof proofId = true := by
  have hn : Moves Same (invalidate env proofId reason actor) := by
    refine moves_proofRow.bind fun _ => moves_utcNow.bind fun _ => ?_
    refine clearAdmissible_same.bind fun _ => moves_proofRow.bind fun _ => moves_query.bind fun _ => ?_
    exact reevaluateAll_same.bind fun _ => moves_audit.bind fun _ => Moves.pure
  have hs := hn h
  obtain ⟨proof, _, hp, h⟩ := bind_ok.mp h
  obtain ⟨hpmem, rfl, rfl⟩ := proofRow_ok hp
  exact ⟨hs, (hs.has _ _).trans (has_proof hpmem)⟩

/-- The transaction that appends an entry: what comes before its row, the row, and what comes
after. -/
structure Appended (env : Env) (d : Draft) (status : Status) (tags : List String)
    (source : Option DocumentSource) (r : String) (s t : Store) where
  previous : Option Knowledge
  proofIds : List String
  row : Knowledge
  number : ℕ
  created : String
  before : Store
  after : Store
  replaces : previousEntry d.supersedesId s = (.ok previous, s)
  aside : Aside s before
  id : row.id = r
  minted : r = mint ((truthy row.componentId).getD "KN") number
  initial : row.status = if status = .proven then .active else status
  insert : insertKnowledge row before = (.ok (), after)
  complete : completeEntry env row status tags proofIds source previous created d.actor after =
    (.ok r, t)

theorem completeEntry_id {row : Knowledge} {status : Status} {tags proofIds : List String}
    {source : Option DocumentSource} {previous : Option Knowledge} {created actor r : String}
    (h : completeEntry env row status tags proofIds source previous created actor s = (.ok r, t)) :
    row.id = r := by
  obtain ⟨_, _, _, h⟩ := bind_ok.mp h
  obtain ⟨_, _, _, h⟩ := bind_ok.mp h
  obtain ⟨_, _, _, h⟩ := bind_ok.mp h
  obtain ⟨_, _, _, h⟩ := bind_ok.mp h
  obtain ⟨_, _, _, h⟩ := bind_ok.mp h
  obtain ⟨_, _, _, h⟩ := bind_ok.mp h
  obtain ⟨_, _, _, h⟩ := bind_ok.mp h
  exact (pure_ok.mp h).1

theorem appendEntry_ok {d : Draft} {type : KnowledgeType} {status : Status} {given : Option String}
    {tags : List String} {source : Option DocumentSource} {r : String}
    (h : appendEntry env d type status given tags source s = (.ok r, t)) :
    Nonempty (Appended env d status tags source r s t) := by
  obtain ⟨_, _, h1, hrest⟩ := bind_ok.mp h
  obtain rfl := moves_requireRow (R := Eq) h1
  obtain ⟨_, _, h2, hrest⟩ := bind_ok.mp hrest
  obtain rfl := moves_requireRow (R := Eq) h2
  obtain ⟨_, _, h3, hrest⟩ := bind_ok.mp hrest
  obtain rfl := moves_requireRow (R := Eq) h3
  obtain ⟨previous, _, hp, hrest⟩ := bind_ok.mp hrest
  obtain rfl := moves_previousEntry (R := Eq) hp
  obtain ⟨proofIds, _, h4, hrest⟩ := bind_ok.mp hrest
  obtain rfl := moves_validateProofIds (R := Eq) h4
  obtain ⟨_, _, h5, hrest⟩ := bind_ok.mp hrest
  obtain rfl := moves_query (R := Eq) h5
  obtain ⟨_, _, h6, hrest⟩ := bind_ok.mp hrest
  obtain rfl := Moves.require (R := Eq) h6
  obtain ⟨id, _, h7, hrest⟩ := bind_ok.mp hrest
  obtain ⟨⟨n, hn⟩, ha⟩ := newId_ok h7
  obtain ⟨created, _, h8, hrest⟩ := bind_ok.mp hrest
  obtain ⟨_, _, h9, hrest⟩ := bind_ok.mp hrest
  have hr := completeEntry_id hrest
  exact ⟨previous, proofIds, _, n, created, _, _, hp, trans_of Aside ha (moves_utcNow h8), hr,
    hr.symm.trans hn, rfl, h9, hrest⟩

theorem completeEntry_same {row : Knowledge} {status : Status} {tags proofIds : List String}
    {source : Option DocumentSource} {previous : Option Knowledge} {created actor : String} :
    Moves Same (completeEntry env row status tags proofIds source previous created actor) :=
  moves_completeEntry (fun _ => insertProofLink_same) (fun _ _ _ => relation_same)
    (fun _ _ => setStatus_same) setStatus_same

/-- Knowledge is numbered under the identifier of a component, or under `KN`. -/
def Store.Stem (s : Store) (stem : String) : Prop := stem = "KN" ∨ s.db.has .component stem = true

theorem Store.Stem.plain {stem : String} (h : s.Stem stem) (hs : s.Plain) :
    Memory.Plain stem := by
  rcases h with rfl | h
  · exact plain_knowledge
  · exact hs .component stem h

theorem Admitted.stem {row : Knowledge} (h : Admitted row s.db) :
    s.Stem ((truthy row.componentId).getD "KN") := by
  cases hc : truthy row.componentId with
  | none => exact Or.inl rfl
  | some c =>
    obtain ⟨hc, _⟩ := Option.filter_eq_some_iff.mp hc
    have hcomp := h.component
    rw [hc] at hcomp
    exact Or.inr hcomp

theorem appendEntry_adds {d : Draft} {type : KnowledgeType} {status : Status}
    {given : Option String} {tags : List String} {source : Option DocumentSource} {r : String}
    (h : appendEntry env d type status given tags source s = (.ok r, t)) :
    (∃ stem n, s.Stem stem ∧ r = mint stem n) ∧ Adds .knowledge r s t := by
  obtain ⟨a⟩ := appendEntry_ok h
  have hstem := (insertKnowledge_ok a.insert).1.stem
  rw [Store.Stem, a.aside.same.has] at hstem
  have hadd := insertKnowledge_adds a.insert
  rw [a.id] at hadd
  exact ⟨⟨_, _, hstem, a.minted⟩,
    (Adds.before a.aside.same hadd).after (completeEntry_same a.complete)⟩

theorem plain_entry {r : String} (hs : s.Plain) (h : ∃ stem n, s.Stem stem ∧ r = mint stem n) :
    Plain r := by
  obtain ⟨stem, n, hstem, rfl⟩ := h
  exact plain_mint (hstem.plain hs) n

/-! ### Work -/

/-- A call has passed its checks, and its transaction has ended well. -/
inductive Work (env : Env) (s t : Store) : Call → Prop
  | registerComponent {c title description actor r : String}
      (hid : validIdentifier (env.upper (strip c)) = true)
      (h : storeComponent env (env.upper (strip c)) title description actor s = (.ok r, t)) :
      Work env s t (.registerComponent c title description actor)
  | registerFunction {c module symbol convention actor r : String}
      (hid : validIdentifier (env.upper (strip c)) = true)
      (hs : hasSlash (stableId (env.upper (strip c)) module symbol) = false)
      (h : storeFunction env (env.upper (strip c)) module symbol convention actor s = (.ok r, t)) :
      Work env s t (.registerFunction c module symbol convention actor)
  | registerBrick {b title state description actor r : String} {c m p : Option String} {n : ℤ}
      {args : BrickArgs} (hid : validIdentifier (env.upper (strip b)) = true)
      (ha : args.id = env.upper (strip b)) (h : storeBrick env args s = (.ok r, t)) :
      Work env s t (.registerBrick b title state c description actor m p n)
  | updateBrick {b actor r : String} {state m p : Option String} {n : Option ℤ} {c : BrickChange}
      (h : changeBrick env (env.upper (strip b)) c actor s = (.ok r, t)) :
      Work env s t (.updateBrick b state m p n actor)
  | registerAssetFile {path kind sourceKind actor r : String} {provenance : Json} {source : HostFile}
      (h : storeAsset env source kind sourceKind provenance actor s = (.ok r, t)) :
      Work env s t (.registerAssetFile path kind sourceKind provenance actor)
  | recordPipelineRun {a : RunArgs} {name relative r : String} {data : Bytes}
      (h : storeRun env a name relative data s = (.ok r, t)) :
      Work env s t (.recordPipelineRun a)
  | recordProof {a : ProofArgs} {c : Checked} {r : String} (h : storeProof env a c s = (.ok r, t)) :
      Work env s t (.recordProof a)
  | attachProof {knowledgeId proofId actor : String} {asPromotion : Bool}
      (h : attach env knowledgeId proofId actor asPromotion s = (.ok (), t)) :
      Work env s t (.attachProof knowledgeId proofId actor asPromotion)
  | invalidateProof {proofId reason actor : String} {r : List String}
      (h : invalidate env proofId reason actor s = (.ok r, t)) :
      Work env s t (.invalidateProof proofId reason actor)
  | appendKnowledge {d : Draft} {type : KnowledgeType} {status : Status} {given : Option String}
      {tags : List String} {source : Option DocumentSource} {r : String}
      (hs : status ≠ .superseded ∧ status ≠ .obsolete)
      (h : appendEntry env d type status given tags source s = (.ok r, t)) :
      Work env s t (.appendKnowledge d)
  | addRelation {fromId relationType toId actor : String} {r : Relation}
      (h : relate env fromId relationType toId actor s = (.ok r, t)) :
      Work env s t (.addRelation fromId relationType toId actor)
  | supersedeRelation {relationId fromId relationType toId actor : String} {r : Relation}
      (h : replaceRelation env relationId fromId relationType toId actor s = (.ok r, t)) :
      Work env s t (.supersedeRelation relationId fromId relationType toId actor)
  | updateFront {updates clean : List (String × String)} {actor : String}
      (h : mergeFront env clean actor s = (.ok (), t)) : Work env s t (.updateFront updates actor)
  | replaceFront {updates clean : List (String × String)} {actor : String}
      (h : rewriteFront env clean actor s = (.ok (), t)) : Work env s t (.replaceFront updates actor)
  | rebuildIndex {actor : String} {r : ℕ} (h : reindex env actor s = (.ok r, t)) :
      Work env s t (.rebuildIndex actor)

theorem Work.named {c : Call} (h : Work env s t c) (hs : s.Plain) : Named s t := by
  cases h with
  | registerComponent hid h => exact (storeComponent_adds h).2.named (plain_of_valid hid)
  | registerFunction hid hsl h => exact (storeFunction_adds h).2.named (plain_stableId hsl)
  | registerBrick hid ha h => exact (storeBrick_adds h).2.named (ha ▸ plain_of_valid hid)
  | updateBrick h => exact (changeBrick_same h).2.1.named
  | registerAssetFile h =>
    obtain ⟨⟨n, rfl⟩, hadd⟩ := storeAsset_adds h
    exact hadd.named (plain_mint plain_asset n)
  | recordPipelineRun h =>
    obtain ⟨⟨n, rfl⟩, hadd⟩ := storeRun_adds h
    exact hadd.named (plain_mint plain_run n)
  | recordProof h =>
    obtain ⟨⟨n, rfl⟩, hadd⟩ := storeProof_adds h
    exact hadd.named (plain_mint plain_proof n)
  | attachProof h => exact (attach_same h).1.named
  | invalidateProof h => exact (invalidate_same h).1.named
  | appendKnowledge hst h =>
    obtain ⟨hid, hadd⟩ := appendEntry_adds h
    exact hadd.named (plain_entry hs hid)
  | addRelation h => exact (aside_relate h).same.named
  | supersedeRelation h => exact (aside_replaceRelation h).same.named
  | updateFront h => exact (moves_mergeFront (R := Same) h).named
  | replaceFront h => exact (moves_rewriteFront (R := Same) h).named
  | rebuildIndex h => exact (moves_reindex (R := Same) h).named

/-! ### Checks and readings -/

theorem find_of_any {α : Type} {l : List α} {p : α → Bool} (h : l.any p = true) :
    ∃ a, l.find? p = some a := by
  obtain ⟨a, ha, hp⟩ := List.any_eq_true.mp h
  exact Option.isSome_iff_exists.mp (List.find?_isSome.mpr ⟨a, ha, hp⟩)

theorem resource_of_has (h : s.db.has k id = true) : ∃ r, s.db.resource ⟨k, id⟩ = some r := by
  cases k with
  | relation => exact nomatch h
  | front => exact nomatch h
  | _ =>
    obtain ⟨a, ha⟩ := find_of_any h
    exact ⟨_, congrArg (Option.map _) ha⟩

variable (env) in
theorem readBack_ok (hs : s.Plain) (h : s.db.has k id = true) :
    ∃ r, readBack env k id s = (.ok r, s) := by
  have hk : k ∈ schemes := by
    cases k with
    | front => exact nomatch h
    | _ => decide
  have hfront : k ≠ .front := by
    rintro rfl
    exact nomatch h
  obtain ⟨hne, hsl⟩ := hs k id h
  obtain ⟨address, hmake, hparse⟩ := Address.parse_make env.replace hk hne hsl
  obtain ⟨r, hr⟩ := resource_of_has h
  refine ⟨r, bind_ok.mpr ⟨address, s, ?_, bind_ok.mpr ⟨⟨k, id⟩, s, ?_, ?_⟩⟩⟩
  · rw [hmake]
    rfl
  · rw [hparse]
    rfl
  · rw [if_neg hfront]
    exact bind_ok.mpr ⟨some r, s, query_ok.mpr ⟨hr, rfl⟩, expect_ok.mpr ⟨rfl, rfl⟩⟩

theorem validateIdentifier_ok {identifier label : String}
    (h : validateIdentifier env identifier label s = (.ok id, t)) :
    id = env.upper (strip identifier) ∧ validIdentifier id = true := by
  simp only [validateIdentifier, bind_ok, require_ok, pure_ok] at h
  obtain ⟨_, _, ⟨hv, rfl⟩, rfl, rfl⟩ := h
  exact ⟨rfl, hv⟩

theorem quiet_validateIdentifier {identifier label : String} :
    Quiet (validateIdentifier env identifier label) := Quiet.require.bind fun _ => Quiet.pure

theorem quiet_validateGiven {identifier : Option String} {label : String} :
    Quiet (validateGiven env identifier label) :=
  Quiet.elim Quiet.pure fun _ => quiet_validateIdentifier.bind fun _ => Quiet.pure

theorem quiet_normalizeRoadmapValue {value : Option String} {label : String} :
    Quiet (normalizeRoadmapValue value label) := Quiet.require.bind fun _ => Quiet.pure

theorem quiet_normalizePriority {n : ℤ} : Quiet (normalizePriority n) :=
  Quiet.require.bind fun _ => Quiet.pure

theorem quiet_givenState {state : Option String} : Quiet (givenState env state) :=
  Quiet.elim Quiet.pure fun _ => Quiet.expect.bind fun _ => Quiet.pure

theorem quiet_givenPriority {n : Option ℤ} : Quiet (givenPriority n) :=
  Quiet.elim Quiet.pure fun _ => quiet_normalizePriority.bind fun _ => Quiet.pure

theorem quiet_compareDigest {a b : String} : Quiet (compareDigest a b) :=
  Quiet.require.bind fun _ => Quiet.pure

theorem quiet_validateArtifact {path hash : String} : Quiet (validateArtifact env path hash) := by
  refine Quiet.ite Quiet.pure (Quiet.expect.bind fun _ => Quiet.read.bind fun _ => ?_)
  refine Quiet.expect.bind fun _ => Quiet.bind (Quiet.ite Quiet.pure quiet_compareDigest) fun _ => ?_
  exact Quiet.require.bind fun _ => Quiet.pure

theorem quiet_admits {payload receipt : String} : Quiet (admits env payload receipt) :=
  Quiet.ite Quiet.pure quiet_compareDigest

theorem quiet_validateDocumentSource {source : Option SourceArg} :
    Quiet (validateDocumentSource env source) := by
  match source with
  | none => exact Quiet.pure
  | some (.incomplete _) => exact Quiet.fail
  | some (.complete ..) =>
    refine Quiet.expect.bind fun _ => Quiet.expect.bind fun _ => Quiet.require.bind fun _ => ?_
    exact Quiet.require.bind fun _ => Quiet.require.bind fun _ => Quiet.pure

theorem quiet_normaliseTags {tags : List String} : Quiet (normaliseTags env tags) :=
  Quiet.bind (Quiet.elim Quiet.pure fun _ => Quiet.fail) fun _ => Quiet.pure

theorem quiet_cleanFront {updates clean : List (String × String)} :
    Quiet (cleanFront env clean updates) := by
  induction updates generalizing clean with
  | nil => exact Quiet.pure
  | cons p rest ih => exact Quiet.require.bind fun _ => Quiet.require.bind fun _ => ih

theorem undo_db (s t : Store) : (Store.undo s t).db = s.db := rfl

/-! ### Calls -/

theorem settles_transaction {α : Type} {x : Op α} {P : Store → Prop}
    (hx : ∀ a t, x s = (.ok a, t) → P t) :
    Settles Store.db s P (Txn.transaction Store.undo x) := by
  constructor
  · intro a t h
    refine hx a t ?_
    rcases hr : x s with ⟨e | b, u⟩
    · rw [Txn.transaction, hr] at h
      cases h
    · rw [Txn.transaction, hr] at h
      exact h
  · intro e t h
    rcases hr : x s with ⟨e' | b, u⟩
    · rw [Txn.transaction, hr] at h
      obtain rfl := (Prod.mk.inj h).2
      rfl
    · rw [Txn.transaction, hr] at h
      cases h

variable (env) in
theorem Call.perform_settles (hs : s.Plain) (c : Call) :
    Settles Store.db s (fun t => Work env s t c) (c.perform env) := by
  cases c with
  | registerComponent c title description actor =>
    refine Settles.ignore (Settles.check Quiet.require fun _ _ => ?_)
    refine Settles.check quiet_validateIdentifier fun id hid => ?_
    obtain ⟨rfl, hid⟩ := validateIdentifier_ok hid
    refine Settles.check Quiet.require fun _ _ => Settles.transaction undo_db fun r t h => ?_
    obtain ⟨rfl, hadd⟩ := storeComponent_adds h
    have hplain := (hadd.named (plain_of_valid hid)).plain hs
    exact ⟨.registerComponent hid h, readBack_ok env hplain hadd.self⟩
  | registerFunction c module symbol convention actor =>
    refine Settles.ignore (Settles.check Quiet.require fun _ _ => ?_)
    refine Settles.check quiet_validateIdentifier fun id hid => ?_
    obtain ⟨rfl, hid⟩ := validateIdentifier_ok hid
    refine Settles.check Quiet.require fun _ _ => Settles.check Quiet.require fun _ hsl => ?_
    have hsl := (Bool.not_eq_true' _).mp (require_ok.mp hsl).1
    refine Settles.transaction undo_db fun r t h => ?_
    have hw : Work env s t (.registerFunction c module symbol convention actor) :=
      .registerFunction hid hsl h
    obtain ⟨rfl, hadd⟩ := storeFunction_adds h
    exact ⟨hw, readBack_ok env ((hw.named hs).plain hs) hadd.self⟩
  | registerBrick b title state c description actor m p n =>
    refine Settles.ignore (Settles.check Quiet.require fun _ _ => ?_)
    refine Settles.check quiet_validateIdentifier fun id hid => ?_
    obtain ⟨rfl, hid⟩ := validateIdentifier_ok hid
    refine Settles.check Quiet.expect fun _ _ => Settles.check Quiet.require fun _ _ => ?_
    refine Settles.check quiet_validateGiven fun _ _ => ?_
    refine Settles.check quiet_normalizeRoadmapValue fun _ _ => ?_
    refine Settles.check quiet_normalizeRoadmapValue fun _ _ => ?_
    refine Settles.check quiet_normalizePriority fun _ _ => ?_
    refine Settles.transaction undo_db fun r t h => ?_
    obtain ⟨rfl, hadd⟩ := storeBrick_adds h
    have hplain := (hadd.named (plain_of_valid hid)).plain hs
    exact ⟨.registerBrick hid rfl h, readBack_ok env hplain hadd.self⟩
  | updateBrick b state m p n actor =>
    refine Settles.ignore (Settles.check Quiet.require fun _ _ => ?_)
    refine Settles.check quiet_validateIdentifier fun id hid => ?_
    obtain ⟨rfl, _⟩ := validateIdentifier_ok hid
    refine Settles.check Quiet.require fun _ _ => Settles.check quiet_givenState fun _ _ => ?_
    refine Settles.check quiet_normalizeRoadmapValue fun _ _ => ?_
    refine Settles.check quiet_normalizeRoadmapValue fun _ _ => ?_
    refine Settles.check quiet_givenPriority fun _ _ => ?_
    refine Settles.transaction undo_db fun r t h => ?_
    obtain ⟨_, hn, hhas⟩ := changeBrick_same h
    exact ⟨.updateBrick h, readBack_ok env (hn.named.plain hs) hhas⟩
  | registerAssetFile path kind sourceKind provenance actor =>
    refine Settles.ignore (Settles.check Quiet.require fun _ _ => ?_)
    refine Settles.check Quiet.require fun _ _ => Settles.check Quiet.require fun _ _ => ?_
    refine Settles.check Quiet.expect fun _ _ => Settles.check Quiet.require fun _ _ => ?_
    refine Settles.transaction undo_db fun r t h => ?_
    have hw : Work env s t (.registerAssetFile path kind sourceKind provenance actor) :=
      .registerAssetFile h
    exact ⟨hw, readBack_ok env ((hw.named hs).plain hs) (storeAsset_adds h).2.self⟩
  | recordPipelineRun a =>
    refine Settles.ignore (Settles.check Quiet.require fun _ _ => ?_)
    refine Settles.check Quiet.require fun _ _ => Settles.check Quiet.require fun _ _ => ?_
    refine Settles.check Quiet.require fun _ _ => Settles.check Quiet.require fun _ _ => ?_
    refine Settles.check quiet_validateArtifact fun _ _ => Settles.check Quiet.require fun _ _ => ?_
    refine Settles.transaction undo_db fun r t h => ?_
    have hw : Work env s t (.recordPipelineRun a) := .recordPipelineRun h
    exact ⟨hw, readBack_ok env ((hw.named hs).plain hs) (storeRun_adds h).2.self⟩
  | recordProof a =>
    refine Settles.ignore (Settles.check Quiet.require fun _ _ => ?_)
    refine Settles.check Quiet.require fun _ _ => Settles.check Quiet.expect fun _ _ => ?_
    refine Settles.check quiet_validateArtifact fun _ _ => Settles.check quiet_admits fun _ _ => ?_
    refine Settles.transaction undo_db fun r t h => ?_
    have hw : Work env s t (.recordProof a) := .recordProof h
    exact ⟨hw, readBack_ok env ((hw.named hs).plain hs) (storeProof_adds h).2.self⟩
  | attachProof knowledgeId proofId actor asPromotion =>
    refine Settles.ignore (Settles.check Quiet.require fun _ _ => ?_)
    refine Settles.transaction undo_db fun r t h => ?_
    obtain ⟨hn, hk, hp⟩ := attach_same h
    obtain ⟨rk, hrk⟩ := readBack_ok env (hn.named.plain hs) hk
    obtain ⟨rp, hrp⟩ := readBack_ok env (hn.named.plain hs) hp
    exact ⟨.attachProof h, _, bind_ok.mpr ⟨rk, t, hrk, bind_ok.mpr ⟨rp, t, hrp, rfl⟩⟩⟩
  | invalidateProof proofId reason actor =>
    refine Settles.ignore (Settles.check Quiet.require fun _ _ => ?_)
    refine Settles.check Quiet.require fun _ _ => Settles.transaction undo_db fun r t h => ?_
    obtain ⟨hn, hp⟩ := invalidate_same h
    obtain ⟨rp, hrp⟩ := readBack_ok env (hn.named.plain hs) hp
    exact ⟨.invalidateProof h, _, bind_ok.mpr ⟨rp, t, hrp, rfl⟩⟩
  | appendKnowledge d =>
    refine Settles.ignore (Settles.check Quiet.require fun _ _ => ?_)
    refine Settles.check Quiet.expect fun _ _ => Settles.check Quiet.require fun _ _ => ?_
    refine Settles.check Quiet.expect fun status hst => Settles.check quiet_validateGiven fun _ _ => ?_
    refine Settles.check quiet_normaliseTags fun _ _ => ?_
    refine Settles.check quiet_validateDocumentSource fun _ _ => ?_
    refine Settles.transaction undo_db fun r t h => ?_
    have hst := (Option.filter_eq_some_iff.mp (expect_ok.mp hst).1).2
    have hw : Work env s t (.appendKnowledge d) := .appendKnowledge (of_decide_eq_true hst) h
    exact ⟨hw, readBack_ok env ((hw.named hs).plain hs) (appendEntry_adds h).2.self⟩
  | addRelation fromId relationType toId actor =>
    refine Settles.ignore (Settles.check Quiet.require fun _ _ => ?_)
    refine Settles.check Quiet.require fun _ _ => settles_transaction fun r t h => ?_
    exact .addRelation h
  | supersedeRelation relationId fromId relationType toId actor =>
    refine Settles.ignore (Settles.check Quiet.require fun _ _ => ?_)
    refine Settles.check Quiet.require fun _ _ => settles_transaction fun r t h => ?_
    exact .supersedeRelation h
  | updateFront updates actor =>
    refine Settles.ignore (Settles.check Quiet.require fun _ _ => ?_)
    refine Settles.check Quiet.require fun _ _ => Settles.check quiet_cleanFront fun _ _ => ?_
    refine Settles.transaction undo_db fun r t h => ?_
    exact ⟨.updateFront h, _, rfl⟩
  | replaceFront updates actor =>
    refine Settles.ignore (Settles.check Quiet.require fun _ _ => ?_)
    refine Settles.check Quiet.require fun _ _ => Settles.check quiet_cleanFront fun _ _ => ?_
    refine Settles.transaction undo_db fun r t h => ?_
    exact ⟨.replaceFront h, _, rfl⟩
  | rebuildIndex actor =>
    refine Settles.ignore (Settles.check Quiet.require fun _ _ => ?_)
    exact settles_transaction fun r t h => .rebuildIndex h

end Aret.Memory
