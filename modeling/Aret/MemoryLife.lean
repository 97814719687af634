/-
The operations of the memory store on proofs, knowledge, relations and the Front, and a call of any
operation.
-/
import Aret.MemoryOps

namespace Aret.Memory

variable (env : Env)

/-! ### Proofs -/

structure ProofArgs where
  kind : String
  command : String
  result : String
  exitCode : Option ℤ
  stdoutRef : String
  stderrRef : String
  artifactPath : String
  artifactHash : String
  environment : Option Json
  startedAt : Option String
  finishedAt : Option String
  receiptHmac : String
  actor : String

def receiptPayload (kind command result : String) (exitCode : Option ℤ)
    (artifactPath artifactHash : String) (environment : Json)
    (startedAt finishedAt : Option String) : String :=
  env.canonicalJson (.obj [("artifact_hash", .str artifactHash), ("artifact_path", .str artifactPath),
    ("command", .str command), ("environment", environment),
    ("exit_code", exitCode.elim .null .num), ("finished_at", .ofOption finishedAt),
    ("kind", .str kind), ("result", .str result), ("started_at", .ofOption startedAt)])

def admits (payload receipt : String) : Op Bool :=
  if env.proofHmacSecret = "" ∨ receipt = "" then pure false
  else compareDigest (env.hmacSha256 env.proofHmacSecret payload) receipt

/-- What of a proof is known before its identifier is. -/
structure Checked where
  kind : String
  result : ProofResult
  environment : Json
  artifactPath : String
  artifactHash : String
  artifactSize : ℕ
  payload : String
  admissible : Bool

def storeProof (a : ProofArgs) (c : Checked) : Op String := do
  let id ← newId "proof" "P"
  let stamp ← utcNow env
  let row : Proof := ⟨id, c.kind, a.command, c.result, a.exitCode, a.stdoutRef, a.stderrRef,
    c.artifactPath, c.artifactHash, c.artifactSize, c.environment, a.startedAt, a.finishedAt,
    env.sha256 (Percent.bytes c.payload), a.receiptHmac, c.admissible, stamp, a.actor⟩
  insertProof row
  let _ ← audit env a.actor "RECORD_PROOF" "proof" id none (some (.proof row))
  return id

def recordProof (a : ProofArgs) : Op Resource := do
  requireWrite env
  let kind := env.upper (strip a.kind)
  let word := env.upper (strip a.result)
  Txn.require (kind != "") (.aret "Le type de preuve est requis")
  let result ← Txn.expect (ProofResult.parse word) (.aret ("Résultat de preuve invalide : " ++ word))
  let environment := a.environment.getD (.obj [])
  let file ← validateArtifact env a.artifactPath a.artifactHash
  let artifactHash := if file.1 = "" then a.artifactHash else env.sha256 file.2
  let payload := receiptPayload env kind a.command word a.exitCode file.1 artifactHash
    environment a.startedAt a.finishedAt
  let admissible ← admits env payload a.receiptHmac
  let id ← Txn.transaction Store.undo (storeProof env a ⟨kind, result, environment, file.1,
    artifactHash, file.2.length, payload, admissible⟩)
  readBack env .proof id

/-! ### Relations -/

/-- `_insert_relation`: the relation that is there already, or a new one. -/
def insertRelation (fromId : String) (type : RelationType) (toId actor : String) : Op String := do
  let there ← query fun db => db.relation.find? fun r =>
    r.fromId == fromId && r.relationType == type && r.toId == toId
  there.elim
    (do
      let id ← newId "relation" "R"
      let stamp ← utcNow env
      let row : Relation := ⟨id, fromId, type, toId, true, none, stamp, actor⟩
      insertRelationRow row
      let _ ← audit env actor "ADD_RELATION" "relation" id none (some (.relation row))
      return id)
    fun r => pure r.id

/-- `_entity_exists`: a row of one of seven tables has the identifier. -/
def Db.entityExists (db : Db) (id : String) : Bool :=
  db.hasKnowledge id || db.hasComponent id || db.hasFunction id || db.hasBrick id ||
    db.hasProof id || db.hasAsset id || db.hasPipelineRun id

def parseRelationType (type : String) : Op RelationType :=
  Txn.expect (RelationType.parse (env.upper type))
    (.aret ("Relation inconnue : " ++ env.upper type))

def relationRow (id text : String) : Op Relation := do
  let row ← query fun db => db.relation.find? (·.id == id)
  Txn.expect row (.notFound (text ++ id))

def relate (fromId relationType toId actor : String) : Op Relation := do
  let known ← query fun db => db.entityExists fromId
  Txn.require known (.notFound ("Source de relation introuvable : " ++ fromId))
  let known ← query fun db => db.entityExists toId
  Txn.require known (.notFound ("Cible de relation introuvable : " ++ toId))
  let type ← parseRelationType env relationType
  let id ← insertRelation env fromId type toId actor
  relationRow id ""

def addRelation (fromId relationType toId actor : String) : Op Relation := do
  requireWrite env
  Txn.require (fromId != toId) (.aret "Une relation réflexive est interdite en V1")
  Txn.transaction Store.undo (relate env fromId relationType toId actor)

def replaceRelation (relationId fromId relationType toId actor : String) : Op Relation := do
  let previous ← relationRow relationId "Relation à remplacer introuvable : "
  Txn.require previous.active (.aret ("Relation déjà inactive : " ++ relationId))
  let known ← query fun db => db.entityExists fromId && db.entityExists toId
  Txn.require known (.notFound "La nouvelle relation doit référencer deux entités existantes")
  let type ← parseRelationType env relationType
  Txn.require (!(previous.fromId == fromId && previous.relationType == type &&
    previous.toId == toId))
    (.aret "La relation de remplacement doit différer de la relation active")
  let id ← insertRelation env fromId type toId actor
  retireRelation relationId id
  let superseded ← relationRow relationId ""
  let address ← Txn.ofExcept (makeAddress .relation id) .value
  let _ ← audit env actor "SUPERSEDE_RELATION" "relation" relationId (some (.relation previous))
    (some (.replaced superseded address))
  relationRow id ""

def supersedeRelation (relationId fromId relationType toId actor : String) : Op Relation := do
  requireWrite env
  Txn.require (fromId != toId) (.aret "Une relation réflexive est interdite")
  Txn.transaction Store.undo (replaceRelation env relationId fromId relationType toId actor)

/-! ### Proofs of knowledge -/

def linkProof (knowledgeId proofId stamp actor : String) : Op Unit := do
  insertProofLink ⟨knowledgeId, proofId, stamp, actor⟩
  let _ ← insertRelation env knowledgeId .verifiedBy proofId actor

def linkUnless (linked : Bool) (knowledgeId proofId stamp actor : String) : Op Unit :=
  if linked then pure () else linkProof env knowledgeId proofId stamp actor

def promote (knowledge : Knowledge) (proof : Proof) (stamp : String) : Op Bool := do
  Txn.require proof.valid
    (.aret "Promotion refusée : la preuve liée doit être PASS et admissible")
  if knowledge.status = .proven then pure false
  else do
    setStatus knowledge.id .proven stamp
    return true

def promoteIf (asked : Bool) (knowledge : Knowledge) (proof : Proof) (stamp : String) : Op Bool :=
  if asked then promote knowledge proof stamp else pure false

def attach (knowledgeId proofId actor : String) (asPromotion : Bool) : Op Unit := do
  let knowledge ← knowledgeRow knowledgeId
  let proof ← proofRow proofId
  let stamp ← utcNow env
  let linked ← query fun db => db.linked knowledgeId proofId
  linkUnless env linked knowledgeId proofId stamp actor
  let promoted ← promoteIf asPromotion knowledge proof stamp
  let after ← knowledgeRow knowledgeId
  let _ ← audit env actor "ATTACH_PROOF" "knowledge" knowledgeId (some (.knowledge knowledge))
    (some (.attached after proofId (!linked) promoted))

def attachProof (knowledgeId proofId actor : String) (asPromotion : Bool) :
    Op (Resource × Resource) := do
  requireWrite env
  Txn.transaction Store.undo (attach env knowledgeId proofId actor asPromotion)
  let knowledge ← readBack env .knowledge knowledgeId
  let proof ← readBack env .proof proofId
  return (knowledge, proof)

def reevaluate (proofId stamp actor knowledgeId : String) : Op (List String) := do
  let knowledge ← knowledgeRow knowledgeId
  let still ← query fun db => db.justified knowledge.id
  if knowledge.status = .proven ∧ still = false then do
    setStatus knowledge.id .observed stamp
    let _ ← audit env actor "REEVALUATE_PROVEN_AFTER_PROOF_INVALIDATION" "knowledge" knowledge.id
      (some (.knowledge knowledge)) (some (.observed ("proof " ++ proofId ++ " invalidated")))
    return [knowledge.id]
  else pure []

def reevaluateAll (proofId stamp actor : String) : List String → Op (List String)
  | [] => pure []
  | id :: ids => do
    let demoted ← reevaluate env proofId stamp actor id
    let rest ← reevaluateAll proofId stamp actor ids
    return demoted ++ rest

def invalidate (proofId reason actor : String) : Op (List String) := do
  let before ← proofRow proofId
  let stamp ← utcNow env
  clearAdmissible proofId
  let after ← proofRow proofId
  let ids ← query fun db =>
    ((db.proofLink.filter (·.proofId == proofId)).map (·.knowledgeId)).insertionSort (· ≤ ·)
  let demoted ← reevaluateAll env proofId stamp actor ids
  let _ ← audit env actor "INVALIDATE_PROOF" "proof" proofId (some (.proof before))
    (some (.invalidated after (strip reason) demoted))
  return demoted

def invalidateProof (proofId reason actor : String) : Op (Resource × List String) := do
  requireWrite env
  Txn.require (strip reason != "") (.aret "Un motif d’invalidation est requis")
  let demoted ← Txn.transaction Store.undo (invalidate env proofId reason actor)
  let proof ← readBack env .proof proofId
  return (proof, demoted)

/-! ### Knowledge -/

/-- A provenance as it is given: with keys missing, or with the values of all of them, of the lines
those that are numbers. -/
inductive SourceArg
  | incomplete (missing : List String)
  | complete (repository revision path : String) (startLine endLine : Option ℤ)
      (section_ hash migrationBatchId : String)

/-- `replace("\\\\", "/")`, of two backslashes each. -/
def slashed : List Char → List Char
  | '\\' :: '\\' :: cs => '/' :: slashed cs
  | c :: cs => c :: slashed cs
  | [] => []

def isLowerHex (c : Char) : Bool := c.isDigit || 'a' ≤ c && c ≤ 'f'

def validateDocumentSource : Option SourceArg → Op (Option DocumentSource)
  | none => pure none
  | some (.incomplete missing) =>
    Txn.fail (.aret ("Provenance documentaire incomplète : " ++
      ", ".intercalate (missing.insertionSort (· ≤ ·))))
  | some (.complete repository revision path startLine endLine section_ hash batch) => do
    let path := String.ofList (slashed (strip path).toList)
    let hash := env.lower (strip hash)
    let text := "Les lignes de provenance doivent être numériques"
    let startLine ← Txn.expect startLine (.aret text)
    let endLine ← Txn.expect endLine (.aret text)
    Txn.require (strip repository != "" && strip revision != "" && path != "" &&
      path.toList.head? != some '/' && !((path.toList.splitOn '/').contains ['.', '.']))
      (.aret "Référence de provenance documentaire invalide")
    Txn.require (strip section_ != "" && 1 ≤ startLine && startLine ≤ endLine)
      (.aret "Section ou plage de lignes de provenance invalide")
    Txn.require (hash.length == 64 && hash.toList.all isLowerHex)
      (.aret "Le hash de provenance doit être un SHA-256 hexadécimal")
    return some ⟨strip repository, strip revision, path, startLine, endLine, strip section_, hash,
      truthy (some (strip batch))⟩

def normaliseTags (tags : List String) : Op (List String) := do
  let normalised := fun raw => underscored (env.upper (strip raw))
  (tags.find? fun raw => !validTag (normalised raw)).elim (pure ()) fun raw =>
    Txn.fail (.aret ("Tag invalide : '" ++ raw ++ "'"))
  return sortedSet (tags.map normalised)

def validateProofIds (proofIds : List String) : Op (List String) := do
  let ids := sortedSet proofIds
  ids.forM fun id => do
    let ok ← query fun db => db.hasProof id
    Txn.require ok (.notFound ("Preuve introuvable : " ++ id))
  return ids

structure Draft where
  knowledgeType : String
  status : Option String
  title : String
  content : String
  componentId : Option String
  functionId : Option String
  brickId : Option String
  tags : List String
  proofIds : List String
  supersedesId : Option String
  actor : String
  effectiveAt : Option String
  documentSource : Option SourceArg

def KnowledgeType.initialWord : KnowledgeType → String
  | .observation => "OBSERVED"
  | .hypothesis => "HYPOTHESIS"
  | _ => "ACTIVE"

def previousEntry (supersedesId : Option String) : Op (Option Knowledge) :=
  (truthy supersedesId).elim (pure none) fun id => some <$> knowledgeRow id

def attachSource (knowledgeId stamp actor : String) (source : DocumentSource) : Op Unit := do
  let id ← newId "source" "S"
  let row : KnowledgeSource := ⟨id, knowledgeId, source, stamp, actor⟩
  insertSource row
  let _ ← audit env actor "ATTACH_DOCUMENT_SOURCE" "knowledge_source" id none (some (.source row))

def supersede (knowledgeId stamp actor : String) (previous : Knowledge) : Op Unit := do
  let _ ← insertRelation env knowledgeId .supersedes previous.id actor
  setStatus previous.id .superseded stamp
  let _ ← audit env actor "SUPERSEDE_KNOWLEDGE" "knowledge" previous.id
    (some (.knowledge previous)) (some (.supersededBy knowledgeId))

def rebuildFts : Op Unit := update fun db => { db with
  knowledgeFts := db.knowledge.map fun k => ⟨k.id, k.title, k.content, db.tagsOf k.id⟩ }

def proveIf (status : Status) (knowledgeId stamp : String) : Op Unit :=
  if status = .proven then setStatus knowledgeId .proven stamp else pure ()

def completeEntry (row : Knowledge) (status : Status) (tags proofIds : List String)
    (source : Option DocumentSource) (previous : Option Knowledge) (created actor : String) :
    Op String := do
  tags.forM fun tag => insertTag ⟨row.id, tag⟩
  source.elim (pure ()) fun source => attachSource env row.id created actor source
  proofIds.forM fun proofId => linkProof env row.id proofId created actor
  previous.elim (pure ()) fun previous => supersede env row.id created actor previous
  proveIf status row.id created
  let _ ← audit env actor "APPEND_KNOWLEDGE" "knowledge" row.id none
    (some (.appended { row with status := status } tags proofIds source))
  rebuildFts
  return row.id

/-- The transaction of `append_knowledge`: an entry that is to be PROVEN goes in as ACTIVE, and is
promoted once its proofs are linked. -/
def appendEntry (d : Draft) (type : KnowledgeType) (status : Status) (givenId : Option String)
    (tags : List String) (source : Option DocumentSource) : Op String := do
  requireRow givenId Db.hasComponent "Composant introuvable : "
  requireRow d.functionId Db.hasFunction "Fonction introuvable : "
  requireRow d.brickId Db.hasBrick "Brique introuvable : "
  let previous ← previousEntry d.supersedesId
  let version := previous.elim 1 (·.version + 1)
  let componentId := if (truthy givenId).isSome then givenId
    else previous.elim givenId (·.componentId)
  let proofIds ← validateProofIds d.proofIds
  let valid ← query fun db => db.proof.any fun p => proofIds.contains p.id && p.valid
  Txn.require (status != .proven || valid)
    (.aret "PROVEN exige au moins une preuve PASS admissible et explicitement liée")
  let id ← newId "knowledge" ((truthy componentId).getD "KN")
  let created ← utcNow env
  let row : Knowledge := ⟨id, type, if status = .proven then .active else status, strip d.title,
    d.content, componentId, d.functionId, d.brickId, d.supersedesId,
    (truthy d.effectiveAt).map strip, version, env.sha256 (Percent.bytes d.content), created,
    created, d.actor⟩
  insertKnowledge row
  completeEntry env row status tags proofIds source previous created d.actor

def appendKnowledge (d : Draft) : Op Resource := do
  requireWrite env
  let type ← Txn.expect (KnowledgeType.parse (env.upper d.knowledgeType))
    (.aret ("Type de connaissance invalide : " ++ env.upper d.knowledgeType))
  Txn.require (strip d.title != "" && strip d.content != "")
    (.aret "Le titre et le contenu sont requis")
  let word := env.upper (d.status.getD type.initialWord)
  let status ← Txn.expect ((Status.parse word).filter fun s => s ≠ .superseded ∧ s ≠ .obsolete)
    (.aret ("Statut initial non autorisé : " ++ word))
  let givenId ← validateGiven env d.componentId "Identifiant de composant"
  let tags ← normaliseTags env d.tags
  let source ← validateDocumentSource env d.documentSource
  let id ← Txn.transaction Store.undo (appendEntry env d type status givenId tags source)
  readBack env .knowledge id

/-! ### The Front -/

def assign (key value : String) (dict : List (String × String)) : List (String × String) :=
  if dict.any (·.1 == key) then dict.map fun p => if p.1 == key then (key, value) else p
  else dict ++ [(key, value)]

def cleanFront : List (String × String) → List (String × String) → Op (List (String × String))
  | clean, [] => pure clean
  | clean, (key, value) :: rest => do
    let safeKey := underscored (env.lower (strip key))
    Txn.require (validFrontKey safeKey) (.aret ("Clé Front invalide : '" ++ key ++ "'"))
    Txn.require ((strip value).utf8ByteSize ≤ 4096)
      (.aret ("Valeur Front trop grande : '" ++ key ++ "'"))
    cleanFront (assign safeKey (strip value) clean) rest

def validateFrontBrick (updates : List (String × String)) : Op Unit :=
  (updates.find? (·.1 == "brick")).elim (pure ()) fun update => do
    let row ← query fun db => db.brick.find? (·.id == update.2)
    let brick ← Txn.expect row (.notFound ("Brique Front introuvable : " ++ update.2))
    Txn.require (brick.state == .active)
      (.aret ("Le Front doit référencer une brique ACTIVE, pas " ++ update.2 ++ " (" ++
        brick.state.word ++ ")"))

def mergeFront (clean : List (String × String)) (actor : String) : Op Unit := do
  validateFrontBrick clean
  let before ← query Db.frontRows
  let stamp ← utcNow env
  clean.forM fun p => upsertFront ⟨p.1, p.2, stamp, actor⟩
  let after ← query Db.frontRows
  let _ ← audit env actor "UPDATE_FRONT" "front" "current" (some (.front before))
    (some (.front after))

def updateFront (updates : List (String × String)) (actor : String) : Op Resource := do
  requireWrite env
  Txn.require (updates ≠ [] && updates.length ≤ 20)
    (.aret "Le Front requiert entre 1 et 20 clés")
  let clean ← cleanFront env [] updates
  Txn.transaction Store.undo (mergeFront env clean actor)
  getFront env

def insertFront (row : FrontRow) : Op Unit := do
  constrain (fun db => db.frontState.all (·.key != row.key))
    "UNIQUE constraint failed: front_state.key"
  update fun db => { db with frontState := db.frontState ++ [row] }

def rewriteFront (clean : List (String × String)) (actor : String) : Op Unit := do
  validateFrontBrick clean
  let before ← query Db.frontRows
  let stamp ← utcNow env
  update fun db => { db with frontState := [] }
  (clean.insertionSort fun p q => p.1 ≤ q.1).forM fun p => insertFront ⟨p.1, p.2, stamp, actor⟩
  let after ← query Db.frontRows
  let _ ← audit env actor "REPLACE_FRONT" "front" "current" (some (.front before))
    (some (.front after))

def replaceFront (updates : List (String × String)) (actor : String) : Op Resource := do
  requireWrite env
  Txn.require (updates ≠ [] && updates.length ≤ 20)
    (.aret "Le Front de remplacement requiert entre 1 et 20 clés")
  let clean ← cleanFront env [] updates
  Txn.transaction Store.undo (rewriteFront env clean actor)
  getFront env

def reindex (actor : String) : Op ℕ := do
  rebuildFts
  let count ← query fun db => db.knowledge.length
  let _ ← audit env actor "REBUILD_FTS" "index" "knowledge_fts" none (some (.indexed count))
  return count

def rebuildIndex (actor : String) : Op ℕ := do
  requireWrite env
  Txn.transaction Store.undo (reindex env actor)

/-! ### Calls -/

/-- An operation that writes, with its arguments. What `rebuild_front` writes is an `update_front`. -/
inductive Call
  | registerComponent (componentId title description actor : String)
  | registerFunction (componentId module symbol callingConvention actor : String)
  | registerBrick (brickId title state : String) (componentId : Option String)
      (description actor : String) (milestone targetPlatform : Option String) (priority : ℤ)
  | updateBrick (brickId : String) (state milestone targetPlatform : Option String)
      (priority : Option ℤ) (actor : String)
  | registerAssetFile (sourcePath kind sourceKind : String) (provenance : Json) (actor : String)
  | recordPipelineRun (a : RunArgs)
  | recordProof (a : ProofArgs)
  | attachProof (knowledgeId proofId actor : String) (asPromotion : Bool)
  | invalidateProof (proofId reason actor : String)
  | appendKnowledge (d : Draft)
  | addRelation (fromId relationType toId actor : String)
  | supersedeRelation (relationId fromId relationType toId actor : String)
  | updateFront (updates : List (String × String)) (actor : String)
  | replaceFront (updates : List (String × String)) (actor : String)
  | rebuildIndex (actor : String)

def Call.perform : Call → Op Unit
  | .registerComponent c t d a => Txn.ignore (Memory.registerComponent env c t d a)
  | .registerFunction c m s v a => Txn.ignore (Memory.registerFunction env c m s v a)
  | .registerBrick b t s c d a m p n => Txn.ignore (Memory.registerBrick env b t s c d a m p n)
  | .updateBrick b s m p n a => Txn.ignore (Memory.updateBrick env b s m p n a)
  | .registerAssetFile p k s v a => Txn.ignore (Memory.registerAssetFile env p k s v a)
  | .recordPipelineRun a => Txn.ignore (Memory.recordPipelineRun env a)
  | .recordProof a => Txn.ignore (Memory.recordProof env a)
  | .attachProof k p a m => Txn.ignore (Memory.attachProof env k p a m)
  | .invalidateProof p r a => Txn.ignore (Memory.invalidateProof env p r a)
  | .appendKnowledge d => Txn.ignore (Memory.appendKnowledge env d)
  | .addRelation f r t a => Txn.ignore (Memory.addRelation env f r t a)
  | .supersedeRelation i f r t a => Txn.ignore (Memory.supersedeRelation env i f r t a)
  | .updateFront u a => Txn.ignore (Memory.updateFront env u a)
  | .replaceFront u a => Txn.ignore (Memory.replaceFront env u a)
  | .rebuildIndex a => Txn.ignore (Memory.rebuildIndex env a)

end Aret.Memory
