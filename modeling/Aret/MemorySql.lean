/-
The statements that the memory store gives to SQLite, with the constraints and triggers of its
schema.
-/
import Aret.MemoryRows

namespace Aret.Memory

/-! ### Queries -/

/-- A row that proves: `p.result = 'PASS' AND p.admissible = 1`. -/
def Proof.valid (p : Proof) : Bool := p.result == .pass && p.admissible

namespace Db

variable (db : Db) (id : String)

def hasComponent : Bool := db.component.any (·.id == id)
def hasFunction : Bool := db.functionSymbol.any (·.id == id)
def hasBrick : Bool := db.brick.any (·.id == id)
def hasKnowledge : Bool := db.knowledge.any (·.id == id)
def hasProof : Bool := db.proof.any (·.id == id)
def hasAsset : Bool := db.asset.any (·.id == id)
def hasPipelineRun : Bool := db.pipelineRun.any (·.id == id)

def justified : Bool :=
  db.proofLink.any fun l => l.knowledgeId == id && db.proof.any fun p => p.id == l.proofId && p.valid

def linked (proofId : String) : Bool :=
  db.proofLink.any fun l => l.knowledgeId == id && l.proofId == proofId

end Db

def query {α : Type} (f : Db → α) : Op α := Txn.read fun s => f s.db

def update (f : Db → Db) : Op Unit := Txn.write fun s => { s with db := f s.db }

def constrain (c : Db → Bool) (text : String) : Op Unit := do
  let ok ← query c
  Txn.require ok (.integrity text)

def foreignKey : String := "FOREIGN KEY constraint failed"

/-! ### Inserts -/

def insertComponent (row : Component) : Op Unit := do
  constrain (fun db => !db.hasComponent row.id) "UNIQUE constraint failed: component.id"
  update fun db => { db with component := db.component ++ [row] }

def insertFunction (row : FunctionSymbol) : Op Unit := do
  constrain (fun db => !db.hasFunction row.id) "UNIQUE constraint failed: function_symbol.id"
  constrain (fun db => db.functionSymbol.all fun f => !(f.componentId == row.componentId &&
    f.module == row.module && f.symbol == row.symbol))
    ("UNIQUE constraint failed: function_symbol.component_id, function_symbol.module, " ++
      "function_symbol.symbol")
  constrain (fun db => db.hasComponent row.componentId) foreignKey
  update fun db => { db with functionSymbol := db.functionSymbol ++ [row] }

def insertBrick (row : Brick) : Op Unit := do
  constrain (fun db => !db.hasBrick row.id) "UNIQUE constraint failed: brick.id"
  constrain (fun _ => 1 ≤ row.priority && row.priority ≤ 5)
    "CHECK constraint failed: priority BETWEEN 1 AND 5"
  constrain (fun db => row.componentId.all db.hasComponent) foreignKey
  update fun db => { db with brick := db.brick ++ [row] }

/-- The trigger `reject_unproven_insert` comes before the constraints of the table. -/
def insertKnowledge (row : Knowledge) : Op Unit := do
  constrain (fun _ => row.status != .proven)
    "PROVEN requires an already linked admissible PASS proof"
  constrain (fun db => !db.hasKnowledge row.id) "UNIQUE constraint failed: knowledge.id"
  constrain (fun _ => 0 < row.version) "CHECK constraint failed: version > 0"
  constrain (fun db => row.componentId.all db.hasComponent && row.functionId.all db.hasFunction &&
    row.brickId.all db.hasBrick && row.supersedesId.all db.hasKnowledge) foreignKey
  update fun db => { db with knowledge := db.knowledge ++ [row] }

def insertTag (row : KnowledgeTag) : Op Unit := do
  constrain (fun db => db.knowledgeTag.all fun t =>
    !(t.knowledgeId == row.knowledgeId && t.tag == row.tag))
    "UNIQUE constraint failed: knowledge_tag.knowledge_id, knowledge_tag.tag"
  constrain (fun _ => 1 ≤ row.tag.length && row.tag.length ≤ 64)
    "CHECK constraint failed: length(tag) BETWEEN 1 AND 64"
  constrain (fun db => db.hasKnowledge row.knowledgeId) foreignKey
  update fun db => { db with knowledgeTag := db.knowledgeTag ++ [row] }

def insertSource (row : KnowledgeSource) : Op Unit := do
  constrain (fun db => db.knowledgeSource.all fun k => k.id != row.id)
    "UNIQUE constraint failed: knowledge_source.id"
  constrain (fun db => db.knowledgeSource.all fun k => !(k.knowledgeId == row.knowledgeId &&
    k.source.revision == row.source.revision && k.source.path == row.source.path &&
    k.source.startLine == row.source.startLine && k.source.endLine == row.source.endLine))
    "UNIQUE constraint failed: knowledge_source.knowledge_id"
  constrain (fun _ => 0 < row.source.startLine && row.source.startLine ≤ row.source.endLine)
    "CHECK constraint failed: source_end_line >= source_start_line"
  constrain (fun db => db.hasKnowledge row.knowledgeId &&
    row.source.migrationBatchId.all db.migrationBatch.contains) foreignKey
  update fun db => { db with knowledgeSource := db.knowledgeSource ++ [row] }

def insertProof (row : Proof) : Op Unit := do
  constrain (fun db => !db.hasProof row.id) "UNIQUE constraint failed: proof.id"
  update fun db => { db with proof := db.proof ++ [row] }

def insertProofLink (row : ProofLink) : Op Unit := do
  constrain (fun db => !db.linked row.knowledgeId row.proofId)
    "UNIQUE constraint failed: proof_link.knowledge_id, proof_link.proof_id"
  constrain (fun db => db.hasKnowledge row.knowledgeId && db.hasProof row.proofId) foreignKey
  update fun db => { db with proofLink := db.proofLink ++ [row] }

def insertRelationRow (row : Relation) : Op Unit := do
  constrain (fun db => db.relation.all fun r => r.id != row.id)
    "UNIQUE constraint failed: relation.id"
  constrain (fun db => db.relation.all fun r => !(r.fromId == row.fromId &&
    r.relationType == row.relationType && r.toId == row.toId))
    "UNIQUE constraint failed: relation.from_id, relation.relation_type, relation.to_id"
  update fun db => { db with relation := db.relation ++ [row] }

def insertAsset (row : Asset) : Op Unit := do
  constrain (fun db => !db.hasAsset row.id) "UNIQUE constraint failed: asset.id"
  constrain (fun db => db.asset.all fun a => a.relativePath != row.relativePath)
    "UNIQUE constraint failed: asset.relative_path"
  update fun db => { db with asset := db.asset ++ [row] }

def insertPipelineRun (row : PipelineRun) : Op Unit := do
  constrain (fun db => !db.hasPipelineRun row.id) "UNIQUE constraint failed: pipeline_run.id"
  update fun db => { db with pipelineRun := db.pipelineRun ++ [row] }

def insertAudit (row : AuditEvent) : Op Unit := do
  constrain (fun db => db.auditEvent.all fun a => a.id != row.id)
    "UNIQUE constraint failed: audit_event.id"
  update fun db => { db with auditEvent := db.auditEvent ++ [row] }

/-- `INSERT .. ON CONFLICT(key) DO UPDATE`. -/
def upsertFront (row : FrontRow) : Op Unit :=
  update fun db => { db with
    frontState :=
      if db.frontState.any (·.key == row.key) then
        db.frontState.map fun r => if r.key == row.key then row else r
      else db.frontState ++ [row] }

/-! ### Updates -/

/-- The trigger `reject_knowledge_content_rewrite`. -/
def Knowledge.rewrites (old new : Knowledge) : Bool :=
  new.type != old.type || new.title != old.title || new.content != old.content ||
    new.componentId != old.componentId || new.functionId != old.functionId ||
    new.brickId != old.brickId || new.supersedesId != old.supersedesId ||
    new.version != old.version || new.contentHash != old.contentHash ||
    new.createdAt != old.createdAt || new.createdBy != old.createdBy

/-- An update of the rows with this identifier, under the triggers `reject_unproven_promotion` and
`reject_knowledge_content_rewrite`. -/
def updateKnowledge (id : String) (change : Knowledge → Knowledge) : Op Unit := do
  constrain (fun db => db.knowledge.all fun k =>
    k.id != id || (change k).status != .proven || db.justified (change k).id)
    "PROVEN requires a linked admissible PASS proof"
  constrain (fun db => db.knowledge.all fun k => k.id != id || !k.rewrites (change k))
    "knowledge is append-only; create a new version instead"
  update fun db => { db with
    knowledge := db.knowledge.map fun k => if k.id == id then change k else k }

/-- `UPDATE knowledge SET status=?, updated_at=? WHERE id=?`. -/
def setStatus (id : String) (status : Status) (stamp : String) : Op Unit :=
  updateKnowledge id fun k => { k with status := status, updatedAt := stamp }

/-- `UPDATE proof SET admissible=0 WHERE id=?`. -/
def clearAdmissible (id : String) : Op Unit :=
  update fun db => { db with
    proof := db.proof.map fun p => if p.id == id then { p with admissible := false } else p }

/-- `UPDATE brick SET state=?, milestone=?, target_platform=?, priority=? WHERE id=?`. -/
def setBrick (id : String) (state : BrickState) (milestone targetPlatform : Option String)
    (priority : ℤ) : Op Unit := do
  constrain (fun db => db.brick.all fun b => b.id != id || 1 ≤ priority && priority ≤ 5)
    "CHECK constraint failed: priority BETWEEN 1 AND 5"
  update fun db => { db with
    brick := db.brick.map fun b =>
      if b.id == id then
        { b with
          state := state, milestone := milestone, targetPlatform := targetPlatform,
          priority := priority }
      else b }

/-- `UPDATE relation SET status='SUPERSEDED', superseded_by=? WHERE id=? AND status='ACTIVE'`. -/
def retireRelation (id replacement : String) : Op Unit :=
  update fun db => { db with
    relation := db.relation.map fun r =>
      if r.id == id && r.active then { r with active := false, supersededBy := some replacement }
      else r }

/-! ### Sequences and the log -/

def utcNow (env : Env) : Op String := fun s =>
  (.ok (env.utcNow s.ticks), { s with ticks := s.ticks + 1 })

def writeSequence (sequence : String) (there : Bool) (next : ℕ) : Op Unit :=
  if there then
    update fun db => { db with
      idSequence := db.idSequence.map fun r =>
        if r.entity == sequence then { r with nextValue := next } else r }
  else update fun db => { db with idSequence := db.idSequence ++ [⟨sequence, next⟩] }

def newId (entity stem : String) : Op String := do
  let sequence := entity ++ ":" ++ stem
  let row ← query fun db => db.idSequence.find? (·.entity == sequence)
  let number := row.elim 1 SequenceRow.nextValue
  writeSequence sequence row.isSome (number + 1)
  return mint stem number

def audit (env : Env) (actor operation entityType entityId : String) (before after : Option Payload) :
    Op String := do
  let id ← newId "audit" "A"
  let stamp ← utcNow env
  insertAudit ⟨id, stamp, actor, operation, entityType, entityId, before, after⟩
  return id

end Aret.Memory
