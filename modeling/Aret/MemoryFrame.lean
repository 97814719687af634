/-
What the statements of the memory store leave alone.
-/
import Aret.MemoryLife

namespace Aret.Memory

open Txn

variable {α β : Type} {s t : Store} {R : Store → Store → Prop} {env : Env}

/-! ### How a statement ended -/

theorem query_ok {f : Db → α} {a : α} : query f s = (.ok a, t) ↔ f s.db = a ∧ s = t := read_ok

theorem update_ok {f : Db → Db} {a : Unit} :
    update f s = (.ok a, t) ↔ { s with db := f s.db } = t := write_ok

theorem constrain_ok {c : Db → Bool} {text : String} {a : Unit} :
    constrain c text s = (.ok a, t) ↔ c s.db = true ∧ s = t := by
  simp only [constrain, bind_ok, query_ok, require_ok]
  constructor
  · rintro ⟨_, _, ⟨rfl, rfl⟩, h, rfl⟩
    exact ⟨h, rfl⟩
  · rintro ⟨h, rfl⟩
    exact ⟨_, _, ⟨rfl, rfl⟩, h, rfl⟩

theorem utcNow_ok {a : String} (h : utcNow env s = (.ok a, t)) :
    t = { s with ticks := s.ticks + 1 } := (Prod.mk.inj h).2.symm

theorem moves_update {f : Db → Db} (h : ∀ s, R s { s with db := f s.db }) : Moves R (update f) := by
  intro s a t hs
  obtain rfl := update_ok.mp hs
  exact h s

theorem moves_elim {o : Option β} {x : Op α} {f : β → Op α} (hx : Moves R x)
    (hf : ∀ b, Moves R (f b)) : Moves R (o.elim x f) := by
  cases o with
  | none => exact hx
  | some b => exact hf b

section
variable [IsPreorder Store R]

theorem moves_query {f : Db → α} : Moves R (query f) := Moves.read

theorem moves_constrain {c : Db → Bool} {text : String} : Moves R (constrain c text) := by
  intro s a t hs
  obtain ⟨_, rfl⟩ := constrain_ok.mp hs
  exact refl_of R s

theorem moves_insert {c : Db → Bool} {text : String} {f : Db → Db}
    (h : ∀ s, R s { s with db := f s.db }) : Moves R (constrain c text >>= fun _ => update f) :=
  moves_constrain.bind fun _ => moves_update h

end

/-! ### The tables of entities and of proofs -/

structure Aside (s t : Store) : Prop where
  component : t.db.component = s.db.component
  functionSymbol : t.db.functionSymbol = s.db.functionSymbol
  brick : t.db.brick = s.db.brick
  knowledge : t.db.knowledge = s.db.knowledge
  proof : t.db.proof = s.db.proof
  proofLink : t.db.proofLink = s.db.proofLink
  asset : t.db.asset = s.db.asset
  pipelineRun : t.db.pipelineRun = s.db.pipelineRun

instance : IsPreorder Store Aside where
  refl _ := ⟨rfl, rfl, rfl, rfl, rfl, rfl, rfl, rfl⟩
  trans _ _ _ h h' := ⟨h'.component.trans h.component, h'.functionSymbol.trans h.functionSymbol,
    h'.brick.trans h.brick, h'.knowledge.trans h.knowledge, h'.proof.trans h.proof,
    h'.proofLink.trans h.proofLink, h'.asset.trans h.asset, h'.pipelineRun.trans h.pipelineRun⟩

/-- The same entities, proofs and relations. -/
structure Alike (s t : Store) : Prop extends Aside s t where
  relation : t.db.relation = s.db.relation

instance : IsPreorder Store Alike where
  refl _ := ⟨refl_of Aside _, rfl⟩
  trans _ _ _ h h' := ⟨trans_of Aside h.toAside h'.toAside, h'.relation.trans h.relation⟩

/-- A relation that sees entities, proofs and relations only: no sequences, no log, no Front, tags,
sources or files. -/
class Rows (R : Store → Store → Prop) : Prop extends IsPreorder Store R where
  of_alike : ∀ {s t}, Alike s t → R s t

instance : Rows Alike where
  of_alike := id

instance : Rows Aside where
  of_alike := Alike.toAside

/-! ### Checks -/

theorem moves_relationRow [IsPreorder Store R] {id text : String} : Moves R (relationRow id text) :=
  moves_query.bind fun _ => Moves.expect

theorem moves_knowledgeRow [IsPreorder Store R] {id : String} : Moves R (knowledgeRow id) :=
  moves_query.bind fun _ => Moves.expect

theorem moves_proofRow [IsPreorder Store R] {id : String} : Moves R (proofRow id) :=
  moves_query.bind fun _ => Moves.expect

theorem moves_requireRow [IsPreorder Store R] {id : Option String} {has : Db → String → Bool}
    {text : String} : Moves R (requireRow id has text) :=
  moves_query.bind fun _ => Moves.require

theorem moves_ofExcept [IsPreorder Store R] {ε : Type} {r : Except ε α} {f : ε → Refusal} :
    Moves R (Txn.ofExcept r f : Op α) := by
  intro s a t h
  obtain rfl := (Prod.mk.inj h).2
  exact refl_of R s

theorem moves_compareDigest [IsPreorder Store R] {a b : String} : Moves R (compareDigest a b) :=
  Moves.require.bind fun _ => Moves.pure

theorem moves_validateProofIds [IsPreorder Store R] {ids : List String} :
    Moves R (validateProofIds ids) := by
  refine Moves.bind (Moves.forM fun id _ => ?_) fun _ => Moves.pure
  exact moves_query.bind fun _ => Moves.require

theorem moves_previousEntry [IsPreorder Store R] {id : Option String} :
    Moves R (previousEntry id) :=
  moves_elim Moves.pure fun _ => moves_knowledgeRow.bind fun _ => Moves.pure

theorem moves_validateFrontBrick [IsPreorder Store R] {updates : List (String × String)} :
    Moves R (validateFrontBrick updates) :=
  moves_elim Moves.pure fun _ =>
    moves_query.bind fun _ => Moves.expect.bind fun _ => Moves.require

/-! ### Statements beside the rows -/

section
variable [Rows R] {id : String}

theorem moves_alike {f : Db → Db} (h : ∀ s, Alike s { s with db := f s.db }) : Moves R (update f) :=
  moves_update fun s => Rows.of_alike (h s)

theorem moves_utcNow : Moves R (utcNow env) := by
  intro s a t h
  obtain rfl := utcNow_ok h
  exact Rows.of_alike ⟨⟨rfl, rfl, rfl, rfl, rfl, rfl, rfl, rfl⟩, rfl⟩

theorem moves_newId {entity stem : String} : Moves R (newId entity stem) := by
  refine moves_query.bind fun row => ?_
  refine Moves.bind (Moves.ite ?_ ?_) fun _ => Moves.pure
  · exact moves_alike fun _ => ⟨⟨rfl, rfl, rfl, rfl, rfl, rfl, rfl, rfl⟩, rfl⟩
  · exact moves_alike fun _ => ⟨⟨rfl, rfl, rfl, rfl, rfl, rfl, rfl, rfl⟩, rfl⟩

theorem moves_audit {actor operation entityType entityId : String} {before after : Option Payload} :
    Moves R (audit env actor operation entityType entityId before after) := by
  refine moves_newId.bind fun _ => moves_utcNow.bind fun _ => Moves.bind ?_ fun _ => Moves.pure
  refine moves_constrain.bind fun _ => moves_alike fun _ => ?_
  exact ⟨⟨rfl, rfl, rfl, rfl, rfl, rfl, rfl, rfl⟩, rfl⟩

theorem moves_insertTag {row : KnowledgeTag} : Moves R (insertTag row) := by
  refine moves_constrain.bind fun _ => moves_constrain.bind fun _ => moves_constrain.bind fun _ => ?_
  exact moves_alike fun _ => ⟨⟨rfl, rfl, rfl, rfl, rfl, rfl, rfl, rfl⟩, rfl⟩

theorem moves_attachSource {knowledgeId stamp actor : String} {source : DocumentSource} :
    Moves R (attachSource env knowledgeId stamp actor source) := by
  refine moves_newId.bind fun _ => Moves.bind ?_ fun _ => moves_audit.bind fun _ => Moves.pure
  refine moves_constrain.bind fun _ => moves_constrain.bind fun _ => moves_constrain.bind fun _ => ?_
  refine moves_constrain.bind fun _ => moves_alike fun _ => ?_
  exact ⟨⟨rfl, rfl, rfl, rfl, rfl, rfl, rfl, rfl⟩, rfl⟩

theorem moves_upsertFront {row : FrontRow} : Moves R (upsertFront row) :=
  moves_alike fun _ => ⟨⟨rfl, rfl, rfl, rfl, rfl, rfl, rfl, rfl⟩, rfl⟩

theorem moves_rebuildFts : Moves R rebuildFts :=
  moves_alike fun _ => ⟨⟨rfl, rfl, rfl, rfl, rfl, rfl, rfl, rfl⟩, rfl⟩

theorem moves_copyFile {relative : String} {data : Bytes} : Moves R (copyFile relative data) := by
  intro s a t h
  obtain rfl := write_ok.mp h
  exact Rows.of_alike ⟨⟨rfl, rfl, rfl, rfl, rfl, rfl, rfl, rfl⟩, rfl⟩

theorem moves_mergeFront {clean : List (String × String)} {actor : String} :
    Moves R (mergeFront env clean actor) := by
  refine moves_validateFrontBrick.bind fun _ => moves_query.bind fun _ => ?_
  refine moves_utcNow.bind fun _ => Moves.bind (Moves.forM fun p _ => moves_upsertFront) fun _ => ?_
  exact moves_query.bind fun _ => moves_audit.bind fun _ => Moves.pure

theorem moves_rewriteFront {clean : List (String × String)} {actor : String} :
    Moves R (rewriteFront env clean actor) := by
  refine moves_validateFrontBrick.bind fun _ => moves_query.bind fun _ => ?_
  refine moves_utcNow.bind fun _ => Moves.bind (moves_alike fun _ => ?_) fun _ => ?_
  · exact ⟨⟨rfl, rfl, rfl, rfl, rfl, rfl, rfl, rfl⟩, rfl⟩
  refine Moves.bind (Moves.forM fun p _ => moves_constrain.bind fun _ => moves_alike fun _ => ?_)
    fun _ => ?_
  · exact ⟨⟨rfl, rfl, rfl, rfl, rfl, rfl, rfl, rfl⟩, rfl⟩
  exact moves_query.bind fun _ => moves_audit.bind fun _ => Moves.pure

theorem moves_reindex {actor : String} : Moves R (reindex env actor) :=
  moves_rebuildFts.bind fun _ => moves_query.bind fun _ => moves_audit.bind fun _ => Moves.pure

/-! ### Statements that write one table -/

theorem moves_storeComponent {title description actor : String}
    (h : ∀ s rows, R s { s with db := { s.db with component := rows } }) :
    Moves R (storeComponent env id title description actor) := by
  refine moves_query.bind fun _ => Moves.require.bind fun _ => moves_utcNow.bind fun _ => ?_
  refine Moves.bind (moves_insert fun s => h s _) fun _ => moves_audit.bind fun _ => Moves.pure

theorem moves_storeFunction {componentId module symbol convention actor : String}
    (h : ∀ s rows, R s { s with db := { s.db with functionSymbol := rows } }) :
    Moves R (storeFunction env componentId module symbol convention actor) := by
  refine moves_requireRow.bind fun _ => moves_query.bind fun _ => Moves.require.bind fun _ => ?_
  refine moves_utcNow.bind fun _ => Moves.bind ?_ fun _ => moves_audit.bind fun _ => Moves.pure
  exact moves_constrain.bind fun _ => moves_constrain.bind fun _ => moves_insert fun s => h s _

theorem moves_storeBrick {a : BrickArgs}
    (h : ∀ s rows, R s { s with db := { s.db with brick := rows } }) :
    Moves R (storeBrick env a) := by
  refine moves_requireRow.bind fun _ => moves_query.bind fun _ => Moves.require.bind fun _ => ?_
  refine moves_utcNow.bind fun _ => Moves.bind ?_ fun _ => moves_audit.bind fun _ => Moves.pure
  exact moves_constrain.bind fun _ => moves_constrain.bind fun _ => moves_insert fun s => h s _

theorem moves_changeBrick {c : BrickChange} {actor : String}
    (h : ∀ s rows, R s { s with db := { s.db with brick := rows } }) :
    Moves R (changeBrick env id c actor) := by
  refine moves_query.bind fun _ => Moves.expect.bind fun _ => moves_query.bind fun _ => ?_
  refine Moves.require.bind fun _ => Moves.bind (moves_insert fun s => h s _) fun _ => ?_
  exact moves_audit.bind fun _ => Moves.pure

theorem moves_storeAsset {source : HostFile} {kind sourceKind actor : String} {provenance : Json}
    (h : ∀ s rows, R s { s with db := { s.db with asset := rows } }) :
    Moves R (storeAsset env source kind sourceKind provenance actor) := by
  refine moves_newId.bind fun _ => moves_copyFile.bind fun _ => Moves.read.bind fun _ => ?_
  refine moves_compareDigest.bind fun _ => Moves.require.bind fun _ => moves_utcNow.bind fun _ => ?_
  refine Moves.bind (moves_constrain.bind fun _ => moves_insert fun s => h s _) fun _ => ?_
  exact moves_audit.bind fun _ => Moves.pure

theorem moves_storeRun {a : RunArgs} {name relative : String} {data : Bytes}
    (h : ∀ s rows, R s { s with db := { s.db with pipelineRun := rows } }) :
    Moves R (storeRun env a name relative data) := by
  refine moves_newId.bind fun _ => moves_utcNow.bind fun _ => ?_
  refine Moves.bind (moves_insert fun s => h s _) fun _ => moves_audit.bind fun _ => Moves.pure

theorem moves_storeProof {a : ProofArgs} {c : Checked} (h : ∀ row, Moves R (insertProof row)) :
    Moves R (storeProof env a c) :=
  moves_newId.bind fun _ => moves_utcNow.bind fun _ => (h _).bind fun _ =>
    moves_audit.bind fun _ => Moves.pure

theorem moves_insertRelation {fromId toId actor : String} {type : RelationType}
    (h : ∀ s rows, R s { s with db := { s.db with relation := rows } }) :
    Moves R (insertRelation env fromId type toId actor) := by
  refine moves_query.bind fun row => moves_elim ?_ fun _ => Moves.pure
  refine moves_newId.bind fun _ => moves_utcNow.bind fun _ => Moves.bind ?_ fun _ => ?_
  · exact moves_constrain.bind fun _ => moves_insert fun s => h s _
  · exact moves_audit.bind fun _ => Moves.pure

/-! ### Knowledge, its proofs and its relations -/

variable {knowledgeId stamp actor : String}

theorem moves_linkProof {proofId : String} (hlink : ∀ row, Moves R (insertProofLink row))
    (hrel : ∀ a t b, Moves R (insertRelation env a t b actor)) :
    Moves R (linkProof env knowledgeId proofId stamp actor) :=
  (hlink _).bind fun _ => (hrel _ _ _).bind fun _ => Moves.pure

theorem moves_supersede {previous : Knowledge}
    (hrel : ∀ a t b, Moves R (insertRelation env a t b actor))
    (hset : ∀ i st, Moves R (setStatus i .superseded st)) :
    Moves R (supersede env knowledgeId stamp actor previous) :=
  (hrel _ _ _).bind fun _ => (hset _ _).bind fun _ => moves_audit.bind fun _ => Moves.pure

theorem moves_completeEntry {row : Knowledge} {status : Status} {tags proofIds : List String}
    {source : Option DocumentSource} {previous : Option Knowledge}
    (hlink : ∀ r, Moves R (insertProofLink r))
    (hrel : ∀ a t b, Moves R (insertRelation env a t b actor))
    (hset : ∀ i st, Moves R (setStatus i .superseded st))
    (hproven : Moves R (setStatus row.id .proven stamp)) :
    Moves R (completeEntry env row status tags proofIds source previous stamp actor) := by
  refine Moves.bind (Moves.forM fun _ _ => moves_insertTag) fun _ => ?_
  refine Moves.bind (moves_elim Moves.pure fun _ => moves_attachSource) fun _ => ?_
  refine Moves.bind (Moves.forM fun _ _ => moves_linkProof hlink hrel) fun _ => ?_
  refine Moves.bind (moves_elim Moves.pure fun _ => moves_supersede hrel hset) fun _ => ?_
  refine Moves.bind (Moves.ite hproven Moves.pure) fun _ => ?_
  exact moves_audit.bind fun _ => moves_rebuildFts.bind fun _ => Moves.pure

end

/-! ### Relations -/

theorem aside_insertRelation {fromId toId actor : String} {type : RelationType} :
    Moves Aside (insertRelation env fromId type toId actor) :=
  moves_insertRelation fun _ _ => ⟨rfl, rfl, rfl, rfl, rfl, rfl, rfl, rfl⟩

theorem aside_relate {fromId relationType toId actor : String} :
    Moves Aside (relate env fromId relationType toId actor) := by
  refine moves_query.bind fun _ => Moves.require.bind fun _ => ?_
  refine moves_query.bind fun _ => Moves.require.bind fun _ => Moves.expect.bind fun _ => ?_
  exact aside_insertRelation.bind fun _ => moves_relationRow

theorem aside_replaceRelation {relationId fromId relationType toId actor : String} :
    Moves Aside (replaceRelation env relationId fromId relationType toId actor) := by
  refine moves_relationRow.bind fun _ => Moves.require.bind fun _ => ?_
  refine moves_query.bind fun _ => Moves.require.bind fun _ => Moves.expect.bind fun _ => ?_
  refine Moves.require.bind fun _ => aside_insertRelation.bind fun _ => ?_
  refine Moves.bind (moves_update fun _ => ?_) fun _ => moves_relationRow.bind fun _ => ?_
  · exact ⟨rfl, rfl, rfl, rfl, rfl, rfl, rfl, rfl⟩
  · exact moves_ofExcept.bind fun _ => moves_audit.bind fun _ => moves_relationRow

end Aret.Memory
