/-
The relations of the memory store, and what replaces them.

* `relations_lawful` — in a run that asks for no relation that has been replaced, all this holds, and
  calls return active relations.
-/
import Aret.MemoryKept

namespace Aret.Memory

open Txn

/-! ### Reading -/

def directions : List String := ["outgoing", "incoming", "both"]

def Relation.touches (r : Relation) (direction entityId : String) : Bool :=
  if direction = "outgoing" then r.fromId == entityId
  else if direction = "incoming" then r.toId == entityId
  else r.fromId == entityId || r.toId == entityId

def givenType (env : Env) (relationType : Option String) : Op (Option RelationType) :=
  (truthy relationType).elim (pure none) fun word => do
    let type ← Txn.expect (RelationType.parse (env.upper word))
      (.aret ("Relation inconnue : " ++ word))
    return some type

def getRelated (env : Env) (entityId : String) (relationType : Option String) (direction : String)
    (includeInactive : Bool) : Op (List Relation) := do
  Txn.require (directions.contains direction)
    (.aret "Direction invalide : outgoing, incoming ou both")
  let type ← givenType env relationType
  let known ← query fun db => db.entityExists entityId
  Txn.require known (.notFound ("Objet introuvable : " ++ entityId))
  query fun db => (db.relation.filter fun r => r.touches direction entityId &&
    type.all (· == r.relationType) && (includeInactive || r.active)).insertionSort fun a b =>
      a.createdAt < b.createdAt ∨ a.createdAt = b.createdAt ∧ a.id ≤ b.id

/-! ### Chains of replacements -/

def Relation.triple (r : Relation) : String × RelationType × String :=
  (r.fromId, r.relationType, r.toId)

/-- Following `superseded_by` ends at an active relation. -/
inductive Ends (l : List Relation) : Relation → Prop
  | active {r : Relation} (h : r.active = true) : Ends l r
  | next {r r' : Relation} {id : String} (h : r.active = false) (hid : r.supersededBy = some id)
      (hfind : l.find? (·.id == id) = some r') (h' : Ends l r') : Ends l r

structure Linked (l : List Relation) : Prop where
  ids : (l.map (·.id)).Nodup
  once : (l.map Relation.triple).Nodup
  ends : ∀ r ∈ l, Ends l r

variable {l : List Relation} {r x y : Relation} {i j : String}

theorem find_id (h : (l.map (·.id)).Nodup) (hr : r ∈ l) : l.find? (·.id == r.id) = some r := by
  cases hfind : l.find? (·.id == r.id) with
  | none => exact absurd (beq_self_eq_true r.id) (List.find?_eq_none.mp hfind r hr)
  | some r' =>
    have hbeq := List.find?_some hfind
    have hid : r'.id = r.id := beq_iff_eq.mp hbeq
    rw [List.inj_on_of_nodup_map h (List.mem_of_find?_eq_some hfind) hr hid]

theorem Ends.concat (h : Ends l r) : Ends (l ++ [x]) r := by
  induction h with
  | active h => exact .active h
  | next h hid hfind _ ih =>
    refine .next h hid ?_ ih
    rw [List.find?_append, hfind, Option.some_or]

theorem Linked.concat (h : Linked l) (hx : x.active = true)
    (hnew : ∀ r ∈ l, r.id ≠ x.id ∧ r.triple ≠ x.triple) : Linked (l ++ [x]) := by
  refine ⟨?_, ?_, fun r hr => ?_⟩
  · rw [List.map_append]
    refine nodup_concat h.ids fun hmem => ?_
    obtain ⟨r, hr, hid⟩ := List.mem_map.mp hmem
    exact (hnew r hr).1 hid
  · rw [List.map_append]
    refine List.Nodup.append h.once (List.nodup_singleton _) fun a ha hax => ?_
    obtain ⟨r, hr, rfl⟩ := List.mem_map.mp ha
    exact (hnew r hr).2 (List.mem_singleton.mp hax)
  · rcases List.mem_append.mp hr with hr | hr
    · exact (h.ends r hr).concat
    · rw [List.mem_singleton.mp hr]
      exact .active hx

/-- What `retireRelation` does to a row. -/
def Relation.retired (i j : String) (r : Relation) : Relation :=
  if r.id == i && r.active then { r with active := false, supersededBy := some j } else r

theorem id_retired : (r.retired i j).id = r.id := by
  rw [Relation.retired]
  split <;> rfl

theorem triple_retired : (r.retired i j).triple = r.triple := by
  rw [Relation.retired]
  split <;> rfl

theorem retired_of_ne (h : r.id ≠ i) : r.retired i j = r := by
  rw [Relation.retired, beq_eq_false_iff_ne.mpr h, Bool.false_and, if_neg Bool.false_ne_true]

theorem retired_of_inactive (h : r.active = false) : r.retired i j = r := by
  rw [Relation.retired, h, Bool.and_false, if_neg Bool.false_ne_true]

theorem retired_self (h : r.active = true) :
    r.retired r.id j = { r with active := false, supersededBy := some j } := by
  rw [Relation.retired, beq_self_eq_true, h, Bool.true_and, if_pos rfl]

theorem find_retired : (l.map (Relation.retired i j)).find? (·.id == x.id) =
    (l.find? (·.id == x.id)).map (Relation.retired i j) := by
  rw [List.find?_map]
  have hid : ((fun r : Relation => r.id == x.id) ∘ Relation.retired i j) =
      fun r => r.id == x.id := by
    funext r
    rw [Function.comp_apply, id_retired]
  rw [hid]

theorem Ends.retire (hids : (l.map (·.id)).Nodup) (hy : y ∈ l) (hactive : y.active = true)
    (hne : y.id ≠ i) (h : Ends l r) :
    Ends (l.map (Relation.retired i y.id)) (r.retired i y.id) := by
  induction h with
  | @active r h =>
    by_cases hid : r.id = i
    · subst hid
      rw [retired_self h]
      refine .next rfl rfl ?_ (.active (r := y.retired r.id y.id) ?_)
      · rw [find_retired, find_id hids hy]
        rfl
      · rw [retired_of_ne hne]
        exact hactive
    · rw [retired_of_ne hid]
      exact .active h
  | @next r r' id h hid hfind _ ih =>
    rw [retired_of_inactive h]
    have hbeq := List.find?_some hfind
    obtain rfl : r'.id = id := beq_iff_eq.mp hbeq
    refine .next h hid ?_ ih
    rw [find_retired, hfind]
    rfl

theorem Linked.retire (h : Linked l) (hy : y ∈ l) (hactive : y.active = true) (hne : y.id ≠ i) :
    Linked (l.map (Relation.retired i y.id)) := by
  refine ⟨?_, ?_, fun r hr => ?_⟩
  · rw [List.map_map, show (Relation.id ∘ Relation.retired i y.id) = Relation.id from
      funext fun r => id_retired]
    exact h.ids
  · rw [List.map_map, show (Relation.triple ∘ Relation.retired i y.id) = Relation.triple from
      funext fun r => triple_retired]
    exact h.once
  · obtain ⟨r, hmem, rfl⟩ := List.mem_map.mp hr
    exact (h.ends r hmem).retire h.ids hy hactive hne

/-! ### Insertion -/

variable {s t u : Store} {env : Env} {id : String}

theorem insertRelation_ok {fromId toId actor : String} {type : RelationType}
    (h : insertRelation env fromId type toId actor s = (.ok id, t)) :
    (∃ r ∈ s.db.relation, r.id = id ∧ r.triple = (fromId, type, toId) ∧
      t.db.relation = s.db.relation) ∨
    ∃ r : Relation, r.id = id ∧ r.triple = (fromId, type, toId) ∧ r.active = true ∧
      (∀ r' ∈ s.db.relation, r'.id ≠ r.id ∧ r'.triple ≠ r.triple) ∧
      t.db.relation = s.db.relation ++ [r] := by
  obtain ⟨there, u, hq, h⟩ := bind_ok.mp h
  obtain ⟨hthere, rfl⟩ := query_ok.mp hq
  cases there with
  | some r =>
    obtain ⟨hid, rfl⟩ := pure_ok.mp h
    have hsame := List.find?_some hthere
    simp only [Bool.and_eq_true, beq_iff_eq] at hsame
    obtain ⟨⟨rfl, rfl⟩, rfl⟩ := hsame
    exact .inl ⟨r, List.mem_of_find?_eq_some hthere, hid, rfl, rfl⟩
  | none =>
    obtain ⟨id', u1, h1, h⟩ := bind_ok.mp h
    obtain ⟨stamp, u2, h2, h⟩ := bind_ok.mp h
    obtain ⟨_, u3, h3, h⟩ := bind_ok.mp h
    obtain ⟨_, u4, h4, h⟩ := bind_ok.mp h
    obtain ⟨rfl, rfl⟩ := pure_ok.mp h
    have hbefore : u2.db.relation = s.db.relation :=
      (trans_of Alike (moves_newId h1) (moves_utcNow h2)).relation
    have hafter := (moves_audit (R := Alike) h4).relation
    simp only [insertRelationRow, bind_ok, constrain_ok, update_ok] at h3
    obtain ⟨_, _, ⟨hids, rfl⟩, _, _, ⟨htriples, rfl⟩, rfl⟩ := h3
    rw [hbefore] at hids htriples
    refine .inr ⟨⟨id', fromId, type, toId, true, none, stamp, actor⟩, rfl, rfl, rfl,
      fun r' hr' => ⟨?_, ?_⟩, ?_⟩
    · exact bne_iff_ne.mp (List.all_eq_true.mp hids r' hr')
    · intro htriple
      obtain ⟨hf, hty, hto⟩ : r'.fromId = fromId ∧ r'.relationType = type ∧ r'.toId = toId := by
        simpa only [Relation.triple, Prod.mk.injEq] using htriple
      have hno := List.all_eq_true.mp htriples r' hr'
      rw [hf, hty, hto, beq_self_eq_true, beq_self_eq_true, beq_self_eq_true] at hno
      exact Bool.false_ne_true hno
    · rw [hafter, ← hbefore]

def LinkedStore (s : Store) : Prop := Linked s.db.relation

instance : Rows (Holds LinkedStore) where
  of_alike h hs := by rwa [LinkedStore, h.relation]

theorem insertRelation_row {fromId toId actor : String} {type : RelationType}
    (hs : LinkedStore s) (h : insertRelation env fromId type toId actor s = (.ok id, t)) :
    LinkedStore t ∧ (∀ x ∈ s.db.relation, x ∈ t.db.relation) ∧
      ∃ r ∈ t.db.relation, r.id = id ∧ r.triple = (fromId, type, toId) ∧
        (r ∈ s.db.relation ∨ r.active = true) := by
  rcases insertRelation_ok h with ⟨r, hr, hid, htriple, hrel⟩ |
    ⟨r, hid, htriple, hactive, hnew, hrel⟩
  · rw [LinkedStore, hrel]
    exact ⟨hs, fun x hx => hx, r, hr, hid, htriple, .inl hr⟩
  · rw [LinkedStore, hrel]
    have hmem : r ∈ s.db.relation ++ [r] := List.mem_append_right _ (List.mem_singleton.mpr rfl)
    exact ⟨hs.concat hactive hnew, fun x hx => List.mem_append_left _ hx, r, hmem, hid, htriple,
      .inr hactive⟩

theorem linked_insertRelation {fromId toId actor : String} {type : RelationType} :
    Moves (Holds LinkedStore) (insertRelation env fromId type toId actor) :=
  fun _ _ _ h hs => (insertRelation_row hs h).1

theorem relationRow_ok {text : String} (h : relationRow id text s = (.ok r, t)) :
    s.db.relation.find? (·.id == id) = some r ∧ t = s := by
  simp only [relationRow, bind_ok, query_ok, expect_ok] at h
  obtain ⟨_, _, ⟨rfl, rfl⟩, hrow, rfl⟩ := h
  exact ⟨hrow, rfl⟩

/-! ### Calls -/

def Current (env : Env) (s : Store) (fromId relationType toId : String) : Prop :=
  ∀ r ∈ s.db.relation, r.fromId = fromId →
    RelationType.parse (env.upper relationType) = some r.relationType → r.toId = toId →
    r.active = true

instance (env : Env) (s : Store) (fromId relationType toId : String) :
    Decidable (Current env s fromId relationType toId) :=
  inferInstanceAs (Decidable (∀ r ∈ s.db.relation, r.fromId = fromId →
    RelationType.parse (env.upper relationType) = some r.relationType → r.toId = toId →
    r.active = true))

theorem Current.active {fromId relationType toId : String} {type : RelationType}
    (h : Current env s fromId relationType toId)
    (htype : RelationType.parse (env.upper relationType) = some type)
    (htriple : r.triple = (fromId, type, toId)) (hr : r ∈ s.db.relation ∨ r.active = true) :
    r.active = true := by
  rcases hr with hr | hr
  · obtain ⟨hf, hty, hto⟩ : r.fromId = fromId ∧ r.relationType = type ∧ r.toId = toId := by
      simpa only [Relation.triple, Prod.mk.injEq] using htriple
    exact h r hr hf (hty ▸ htype) hto
  · exact hr

theorem relate_ok {fromId relationType toId actor : String} (hs : LinkedStore s)
    (hcur : Current env s fromId relationType toId)
    (h : relate env fromId relationType toId actor s = (.ok r, t)) :
    LinkedStore t ∧ r ∈ t.db.relation ∧ r.active = true ∧ ∃ type,
      RelationType.parse (env.upper relationType) = some type ∧ r.triple = (fromId, type, toId) ∧
        s.db.entityExists fromId = true ∧ s.db.entityExists toId = true := by
  simp only [relate, parseRelationType, bind_ok, query_ok, require_ok, expect_ok] at h
  obtain ⟨_, _, ⟨rfl, rfl⟩, _, _, ⟨hfrom, rfl⟩, _, _, ⟨rfl, rfl⟩, _, _, ⟨hto, rfl⟩, type, _,
    ⟨htype, rfl⟩, id, u, hinsert, hrow⟩ := h
  obtain ⟨hfind, rfl⟩ := relationRow_ok hrow
  obtain ⟨hu, -, y, hy, rfl, htriple, hmade⟩ := insertRelation_row hs hinsert
  obtain rfl : y = r := Option.some.inj ((find_id hu.ids hy).symm.trans hfind)
  exact ⟨hu, hy, hcur.active htype htriple hmade, type, htype, htriple, hfrom, hto⟩

theorem replaceRelation_ok {relationId fromId relationType toId actor : String}
    (hs : LinkedStore s) (hcur : Current env s fromId relationType toId)
    (h : replaceRelation env relationId fromId relationType toId actor s = (.ok r, t)) :
    LinkedStore t ∧ r ∈ t.db.relation ∧ r.active = true ∧
      ∃ old ∈ t.db.relation, old.id = relationId ∧ old.active = false ∧
        old.supersededBy = some r.id := by
  simp only [replaceRelation, parseRelationType, bind_ok, query_ok, require_ok, expect_ok] at h
  obtain ⟨previous, _, hprevious, _, _, ⟨hactive, rfl⟩, _, _, ⟨-, rfl⟩, _, _, ⟨-, rfl⟩, type, _,
    ⟨htype, rfl⟩, _, _, ⟨hdiffers, rfl⟩, id, u, hinsert, _, v, hretire, _, _, hold, _, _, haddress,
    _, _, haudit, hrow⟩ := h
  obtain ⟨hprev, rfl⟩ := relationRow_ok hprevious
  obtain ⟨hfind, rfl⟩ := relationRow_ok hrow
  obtain ⟨-, rfl⟩ := relationRow_ok hold
  obtain rfl := moves_ofExcept (R := Eq) haddress
  have hbeq := List.find?_some hprev
  obtain rfl : previous.id = relationId := beq_iff_eq.mp hbeq
  obtain ⟨hu, hkept, y, hy, rfl, htriple, hmade⟩ := insertRelation_row hs hinsert
  have hyactive := hcur.active htype htriple hmade
  have hpmem := hkept previous (List.mem_of_find?_eq_some hprev)
  have hne : y.id ≠ previous.id := by
    -- one identifier would be one row, with one triple
    intro hid
    obtain rfl := List.inj_on_of_nodup_map hu.ids hy hpmem hid
    obtain ⟨hf, hty, hto⟩ : y.fromId = fromId ∧ y.relationType = type ∧ y.toId = toId := by
      simpa only [Relation.triple, Prod.mk.injEq] using htriple
    rw [hf, hty, hto, beq_self_eq_true, beq_self_eq_true, beq_self_eq_true] at hdiffers
    exact Bool.false_ne_true hdiffers
  have hrel : t.db.relation = u.db.relation.map (Relation.retired previous.id y.id) := by
    obtain rfl := update_ok.mp hretire
    exact (moves_audit (R := Alike) haudit).relation
  have ht : LinkedStore t := by
    rw [LinkedStore, hrel]
    exact hu.retire hy hyactive hne
  have hyt : y ∈ t.db.relation := by
    rw [hrel]
    exact List.mem_map.mpr ⟨y, hy, retired_of_ne hne⟩
  obtain rfl : y = r := Option.some.inj ((find_id ht.ids hyt).symm.trans hfind)
  refine ⟨ht, hyt, hyactive, previous.retired previous.id y.id, ?_, id_retired, ?_, ?_⟩
  · rw [hrel]
    exact List.mem_map_of_mem hpmem
  · rw [retired_self hactive]
  · rw [retired_self hactive]

theorem linked_setStatus {status : Status} {stamp : String} :
    Moves (Holds LinkedStore) (setStatus id status stamp) :=
  moves_constrain.bind fun _ => moves_insert fun _ hs => hs

theorem linked_insertProofLink {row : ProofLink} :
    Moves (Holds LinkedStore) (insertProofLink row) :=
  moves_constrain.bind fun _ => moves_insert fun _ hs => hs

theorem linked_attach {knowledgeId proofId actor : String} {asPromotion : Bool} :
    Moves (Holds LinkedStore) (attach env knowledgeId proofId actor asPromotion) := by
  refine moves_knowledgeRow.bind fun _ => moves_proofRow.bind fun _ => moves_utcNow.bind fun _ => ?_
  refine moves_query.bind fun _ => Moves.bind (Moves.ite Moves.pure ?_) fun _ => ?_
  · exact moves_linkProof (fun _ => linked_insertProofLink) fun _ _ _ => linked_insertRelation
  refine Moves.bind (Moves.ite (Moves.require.bind fun _ => ?_) Moves.pure) fun _ => ?_
  · exact Moves.ite Moves.pure (linked_setStatus.bind fun _ => Moves.pure)
  · exact moves_knowledgeRow.bind fun _ => moves_audit.bind fun _ => Moves.pure

theorem linked_invalidate {proofId reason actor : String} :
    Moves (Holds LinkedStore) (invalidate env proofId reason actor) := by
  have hall : ∀ stamp ids,
      Moves (Holds LinkedStore) (reevaluateAll env proofId stamp actor ids) := by
    intro stamp ids
    induction ids with
    | nil => exact Moves.pure
    | cons id ids ih =>
      refine Moves.bind ?_ fun _ => ih.bind fun _ => Moves.pure
      refine moves_knowledgeRow.bind fun _ => moves_query.bind fun _ => Moves.ite ?_ Moves.pure
      exact linked_setStatus.bind fun _ => moves_audit.bind fun _ => Moves.pure
  refine moves_proofRow.bind fun _ => moves_utcNow.bind fun _ => ?_
  refine Moves.bind (moves_update fun _ hs => hs) fun _ => moves_proofRow.bind fun _ => ?_
  exact moves_query.bind fun _ => (hall _ _).bind fun _ => moves_audit.bind fun _ => Moves.pure

theorem linked_appendEntry {d : Draft} {type : KnowledgeType} {status : Status}
    {given : Option String} {tags : List String} {source : Option DocumentSource} :
    Moves (Holds LinkedStore) (appendEntry env d type status given tags source) := by
  refine moves_requireRow.bind fun _ => moves_requireRow.bind fun _ => ?_
  refine moves_requireRow.bind fun _ => moves_previousEntry.bind fun _ => ?_
  refine moves_validateProofIds.bind fun _ => moves_query.bind fun _ => Moves.require.bind fun _ => ?_
  refine moves_newId.bind fun _ => moves_utcNow.bind fun _ => Moves.bind ?_ fun _ => ?_
  · refine moves_constrain.bind fun _ => moves_constrain.bind fun _ => moves_constrain.bind fun _ => ?_
    exact moves_insert fun _ hs => hs
  · exact moves_completeEntry (fun _ => linked_insertProofLink) (fun _ _ _ => linked_insertRelation)
      (fun _ _ => linked_setStatus) linked_setStatus

def AsksCurrent (env : Env) (s : Store) : Call → Prop
  | .addRelation fromId relationType toId _ => Current env s fromId relationType toId
  | .supersedeRelation _ fromId relationType toId _ => Current env s fromId relationType toId
  | _ => True

theorem Work.linked {c : Call} (h : Work env s t c) (hs : LinkedStore s)
    (hc : AsksCurrent env s c) : LinkedStore t := by
  cases h with
  | registerComponent _ h =>
    exact moves_storeComponent (R := Holds LinkedStore) (fun _ _ hs => hs) h hs
  | registerFunction _ _ h =>
    exact moves_storeFunction (R := Holds LinkedStore) (fun _ _ hs => hs) h hs
  | registerBrick _ _ h => exact moves_storeBrick (R := Holds LinkedStore) (fun _ _ hs => hs) h hs
  | updateBrick h => exact moves_changeBrick (R := Holds LinkedStore) (fun _ _ hs => hs) h hs
  | registerAssetFile h => exact moves_storeAsset (R := Holds LinkedStore) (fun _ _ hs => hs) h hs
  | recordPipelineRun h => exact moves_storeRun (R := Holds LinkedStore) (fun _ _ hs => hs) h hs
  | recordProof h =>
    exact moves_storeProof (R := Holds LinkedStore) (fun _ => moves_insert fun _ hs => hs) h hs
  | attachProof h => exact linked_attach h hs
  | invalidateProof h => exact linked_invalidate h hs
  | appendKnowledge _ h => exact linked_appendEntry h hs
  | addRelation h => exact (relate_ok hs hc h).1
  | supersedeRelation h => exact (replaceRelation_ok hs hc h).1
  | updateFront h => exact moves_mergeFront (R := Holds LinkedStore) h hs
  | replaceFront h => exact moves_rewriteFront (R := Holds LinkedStore) h hs
  | rebuildIndex h => exact moves_reindex (R := Holds LinkedStore) h hs

/-! ### Runs -/

theorem givenType_ok {given : Option String} {type : RelationType}
    (h : given = none ∨ ∃ word, given = some word ∧
      RelationType.parse (env.upper word) = some type) :
    ∃ type', givenType env given s = (.ok type', s) ∧ type'.all (· == type) = true := by
  rcases h with rfl | ⟨word, rfl, hword⟩
  · exact ⟨none, rfl, rfl⟩
  · rw [givenType]
    cases htruthy : truthy (some word) with
    | none => exact ⟨none, rfl, rfl⟩
    | some word' =>
      obtain ⟨hsome, -⟩ := Option.filter_eq_some_iff.mp htruthy
      obtain rfl := Option.some.inj hsome
      refine ⟨some type, ?_, beq_self_eq_true type⟩
      exact bind_ok.mpr ⟨type, s, expect_ok.mpr ⟨hword, rfl⟩, rfl⟩

theorem getRelated_visible {entityId direction : String} {given : Option String}
    (hr : r ∈ s.db.relation) (hactive : r.active = true) (hdirection : direction ∈ directions)
    (htouches : r.touches direction entityId = true)
    (hknown : s.db.entityExists entityId = true)
    (hgiven : given = none ∨ ∃ word, given = some word ∧
      RelationType.parse (env.upper word) = some r.relationType) :
    ∃ rows, getRelated env entityId given direction false s = (.ok rows, s) ∧ r ∈ rows := by
  obtain ⟨type, htype, hall⟩ := givenType_ok hgiven
  simp only [getRelated, bind_ok, require_ok, query_ok]
  refine ⟨_, ⟨(), s, ⟨List.contains_iff_mem.mpr hdirection, rfl⟩, type, s, htype, true, s,
    ⟨hknown, rfl⟩, (), s, ⟨rfl, rfl⟩, rfl, rfl⟩, ?_⟩
  rw [List.mem_insertionSort, List.mem_filter, htouches, hall, hactive, Bool.or_true]
  exact ⟨hr, rfl⟩

structure Lawful (s : Store) (e : Ev) : Prop where
  refused : ∀ x, outcome s e = .error x →
    (next s e).db.relation = s.db.relation ∧ (next s e).db.auditEvent = s.db.auditEvent
  /-- A relation that was added is visible from both its ends. -/
  added : ∀ fromId type toId actor r, e.call = .addRelation fromId type toId actor →
    (addRelation e.env fromId type toId actor (s.before e)).1 = .ok r →
    r.fromId = fromId ∧ r.toId = toId ∧
      ∀ direction ∈ directions, ∀ entityId, r.touches direction entityId = true →
        ∀ given ∈ [none, some type], ∃ rows,
          getRelated e.env entityId given direction false (next s e) = (.ok rows, next s e) ∧
            r ∈ rows
  /-- A relation that was replaced points to the active one that is returned. -/
  superseded : ∀ relationId fromId type toId actor r,
    e.call = .supersedeRelation relationId fromId type toId actor →
    (supersedeRelation e.env relationId fromId type toId actor (s.before e)).1 = .ok r →
    r ∈ (next s e).db.relation ∧ r.active = true ∧
      ∃ old ∈ (next s e).db.relation, old.id = relationId ∧ old.active = false ∧
        old.supersededBy = some r.id
  ends : ∀ r ∈ (next s e).db.relation, Ends (next s e).db.relation r
  once : ((next s e).db.relation.map Relation.triple).Nodup

theorem ignore_snd {α : Type} {x : Op α} : (Txn.ignore x s).2 = (x s).2 := by
  rcases hx : x s with ⟨a | a, t⟩
  · rw [Txn.ignore, bind_apply_error hx]
  · rw [Txn.ignore, bind_apply_ok hx]
    rfl

theorem Aside.entityExists (h : Aside s t) (id : String) :
    t.db.entityExists id = s.db.entityExists id := by
  simp only [Db.entityExists, Db.hasKnowledge, Db.hasComponent, Db.hasFunction, Db.hasBrick,
    Db.hasProof, Db.hasAsset, Db.hasPipelineRun, h.knowledge, h.component, h.functionSymbol,
    h.brick, h.proof, h.asset, h.pipelineRun]

theorem next_added {e : Ev} {fromId type toId actor : String} (hs : LinkedStore s)
    (hcall : e.call = .addRelation fromId type toId actor)
    (hc : Current e.env s fromId type toId)
    (h : (addRelation e.env fromId type toId actor (s.before e)).1 = .ok r) :
    r.fromId = fromId ∧ r.toId = toId ∧
      ∀ direction ∈ directions, ∀ entityId, r.touches direction entityId = true →
        ∀ given ∈ [none, some type], ∃ rows,
          getRelated e.env entityId given direction false (next s e) = (.ok rows, next s e) ∧
            r ∈ rows := by
  obtain ⟨t, ht⟩ : ∃ t, addRelation e.env fromId type toId actor (s.before e) = (.ok r, t) :=
    ⟨_, Prod.ext h rfl⟩
  have hnext : next s e = t := by
    rw [next, hcall]
    exact ignore_snd.trans (congrArg Prod.snd ht)
  simp only [addRelation, requireWrite, bind_ok, require_ok, transaction_ok] at ht
  obtain ⟨_, _, ⟨-, rfl⟩, _, _, ⟨-, rfl⟩, hrelate⟩ := ht
  obtain ⟨-, hr, hactive, type', htype, htriple, hfrom, hto⟩ :=
    relate_ok (s := s.before e) hs hc hrelate
  obtain ⟨rfl, rfl, rfl⟩ : r.fromId = fromId ∧ r.relationType = type' ∧ r.toId = toId := by
    simpa only [Relation.triple, Prod.mk.injEq] using htriple
  refine ⟨rfl, rfl, fun direction hdirection entityId htouches given hgiven => ?_⟩
  rw [hnext]
  have haside := aside_relate hrelate
  have hknown : t.db.entityExists entityId = true := by
    -- the entity is one of the ends
    have hend : r.fromId = entityId ∨ r.toId = entityId := by
      rw [Relation.touches] at htouches
      split_ifs at htouches
      · exact .inl (beq_iff_eq.mp htouches)
      · exact .inr (beq_iff_eq.mp htouches)
      · simpa only [Bool.or_eq_true, beq_iff_eq] using htouches
    rw [haside.entityExists]
    rcases hend with rfl | rfl
    · exact hfrom
    · exact hto
  refine getRelated_visible hr hactive hdirection htouches hknown ?_
  rcases List.mem_cons.mp hgiven with rfl | hgiven
  · exact .inl rfl
  · exact .inr ⟨type, List.mem_singleton.mp hgiven, htype⟩

theorem next_superseded {e : Ev} {relationId fromId type toId actor : String}
    (hs : LinkedStore s) (hcall : e.call = .supersedeRelation relationId fromId type toId actor)
    (hc : Current e.env s fromId type toId)
    (h : (supersedeRelation e.env relationId fromId type toId actor (s.before e)).1 = .ok r) :
    r ∈ (next s e).db.relation ∧ r.active = true ∧
      ∃ old ∈ (next s e).db.relation, old.id = relationId ∧ old.active = false ∧
        old.supersededBy = some r.id := by
  obtain ⟨t, ht⟩ : ∃ t,
      supersedeRelation e.env relationId fromId type toId actor (s.before e) = (.ok r, t) :=
    ⟨_, Prod.ext h rfl⟩
  have hnext : next s e = t := by
    rw [next, hcall]
    exact ignore_snd.trans (congrArg Prod.snd ht)
  simp only [supersedeRelation, requireWrite, bind_ok, require_ok, transaction_ok] at ht
  obtain ⟨_, _, ⟨-, rfl⟩, _, _, ⟨-, rfl⟩, hreplace⟩ := ht
  rw [hnext]
  exact (replaceRelation_ok (s := s.before e) hs hc hreplace).2

theorem next_linked (hp : s.Plain) (hs : LinkedStore s) {e : Ev}
    (hc : AsksCurrent e.env s e.call) :
    (next s e).Plain ∧ LinkedStore (next s e) ∧ Lawful s e := by
  have hb : Aside s (s.before e) := ⟨rfl, rfl, rfl, rfl, rfl, rfl, rfl, rfl⟩
  have hpb := hb.same.named.plain hp
  have hset := Call.perform_settles e.env hpb e.call
  obtain ⟨hplain, hlinked, hrefused⟩ : (next s e).Plain ∧ LinkedStore (next s e) ∧
      ∀ x, outcome s e = .error x → (next s e).db = s.db := by
    rcases hr : e.call.perform e.env (s.before e) with ⟨x | a, t⟩
    · have hdb : t.db = s.db := hset.2 x t hr
      have hst : Aside s t := by
        constructor <;> rw [hdb]
      rw [next, hr]
      refine ⟨hst.same.named.plain hp, ?_, fun _ _ => hdb⟩
      rw [LinkedStore, hdb]
      exact hs
    · have hw : Work e.env (s.before e) t e.call := hset.1 a t hr
      rw [next, outcome, hr]
      refine ⟨(hw.named hpb).plain hpb, ?_, fun x hx => by cases hx⟩
      refine hw.linked hs ?_
      cases hcall : e.call with
      | addRelation fromId type toId actor => rwa [hcall] at hc
      | supersedeRelation relationId fromId type toId actor => rwa [hcall] at hc
      | _ => trivial
  refine ⟨hplain, hlinked, ⟨fun x hx => ?_, ?_, ?_, hlinked.ends, hlinked.once⟩⟩
  · rw [hrefused x hx]
    exact ⟨rfl, rfl⟩
  · intro fromId type toId actor r hcall h
    rw [hcall] at hc
    exact next_added hs hcall hc h
  · intro relationId fromId type toId actor r hcall h
    rw [hcall] at hc
    exact next_superseded hs hcall hc h

/-- In a run that asks for no relation that has been replaced, whatever the order of its operations
and their refusals, every call is lawful. -/
theorem relations_lawful (es : List Ev)
    (hc : Runs.Each next Store.fresh (fun s e => AsksCurrent e.env s e.call) es) :
    Runs.Each next Store.fresh Lawful es := by
  intro pre e post hes
  have hlinked : LinkedStore Store.fresh :=
    ⟨List.nodup_nil, List.nodup_nil, fun r hr => nomatch hr⟩
  have hpre := hc.inv (I := fun s => s.Plain ∧ LinkedStore s) ⟨sound_fresh.plain, hlinked⟩
    (fun s d hs hd =>
      have hnext := next_linked hs.1 hs.2 hd
      ⟨hnext.1, hnext.2.1⟩) pre (e :: post) hes
  exact (next_linked hpre.1 hpre.2 (hc pre e post hes)).2.2

def replaced : List Ev :=
  [atDesk (.registerComponent "CORE" "Core" "" "desk"),
    atDesk (.registerComponent "AA" "First" "" "desk"),
    atDesk (.registerComponent "BB" "Second" "" "desk"),
    atDesk (.addRelation "CORE" "CONCERNS" "AA" "desk"),
    atDesk (.supersedeRelation "R-0001" "CORE" "CONCERNS" "BB" "desk")]

theorem relations_lawful_replaced : Runs.Each next Store.fresh Lawful replaced := by
  refine relations_lawful replaced (Runs.each_cons.mpr ⟨trivial, Runs.each_cons.mpr ⟨trivial,
    Runs.each_cons.mpr ⟨trivial, Runs.each_cons.mpr ⟨?_, Runs.each_cons.mpr ⟨?_,
      Runs.each_nil⟩⟩⟩⟩⟩)
  · exact of_decide_eq_true (p := Current _ _ _ _ _) (by decide +kernel)
  · exact of_decide_eq_true (p := Current _ _ _ _ _) (by decide +kernel)

/-- The relation that replaced the first one is replaced by it, which is not active. -/
theorem not_relations_lawful : ¬∀ es : List Ev, Runs.Each next Store.fresh Lawful es := by
  intro h
  let back : Ev := atDesk (.supersedeRelation "R-0002" "CORE" "CONCERNS" "AA" "desk")
  have hback : Lawful (Runs.run next Store.fresh replaced) back :=
    h (replaced ++ [back]) replaced back [] rfl
  cases hret : (supersedeRelation desk "R-0002" "CORE" "CONCERNS" "AA" "desk"
      ((Runs.run next Store.fresh replaced).before back)).1 with
  | error x =>
    have hok : (supersedeRelation desk "R-0002" "CORE" "CONCERNS" "AA" "desk"
        ((Runs.run next Store.fresh replaced).before back)).1.toBool = true := by decide +kernel
    rw [hret] at hok
    exact absurd hok Bool.false_ne_true
  | ok r =>
    have hnot : (supersedeRelation desk "R-0002" "CORE" "CONCERNS" "AA" "desk"
        ((Runs.run next Store.fresh replaced).before back)).1.toOption.all (!·.active) = true := by
      decide +kernel
    have hactive := (hback.superseded _ _ _ _ _ r rfl hret).2.1
    rw [hret] at hnot
    have hno : (!r.active) = true := hnot
    rw [hactive] at hno
    exact absurd hno Bool.false_ne_true

end Aret.Memory
