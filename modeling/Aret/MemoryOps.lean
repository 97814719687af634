/-
The operations of the memory store that register, append and link.

Each checks its arguments, does its work in one transaction, and reads back what it
made.
-/
import Aret.MemorySql

namespace Aret.Memory

variable (env : Env)

/-! ### Reading -/

inductive Resource
  | knowledge (row : Knowledge) (tags proofIds : List String) (sources : List KnowledgeSource)
  | component (row : Component)
  | function (row : FunctionSymbol)
  | brick (row : Brick)
  | proof (row : Proof)
  | relation (row : Relation)
  | asset (row : Asset)
  | pipeline (row : PipelineRun)
  | front (rows : List FrontRow) (relevant : List String)

namespace Db

variable (db : Db)

def tagsOf (id : String) : List String :=
  ((db.knowledgeTag.filter (·.knowledgeId == id)).map (·.tag)).insertionSort (· ≤ ·)

def proofIdsOf (id : String) : List String :=
  ((db.proofLink.filter (·.knowledgeId == id)).map (·.proofId)).insertionSort (· ≤ ·)

def sourcesOf (id : String) : List KnowledgeSource :=
  (db.knowledgeSource.filter (·.knowledgeId == id)).insertionSort fun a b =>
    a.source.path < b.source.path ∨ a.source.path = b.source.path ∧
      (a.source.startLine < b.source.startLine ∨
        a.source.startLine = b.source.startLine ∧ a.id ≤ b.id)

def frontRows : List FrontRow := db.frontState.insertionSort fun a b => a.key ≤ b.key

def resource (a : Address) : Option Resource :=
  match a.resourceType with
  | .knowledge => (db.knowledge.find? (·.id == a.identifier)).map fun k =>
      .knowledge k (db.tagsOf k.id) (db.proofIdsOf k.id) (db.sourcesOf k.id)
  | .component => (db.component.find? (·.id == a.identifier)).map .component
  | .function => (db.functionSymbol.find? (·.id == a.identifier)).map .function
  | .brick => (db.brick.find? (·.id == a.identifier)).map .brick
  | .proof => (db.proof.find? (·.id == a.identifier)).map .proof
  | .relation => (db.relation.find? (·.id == a.identifier)).map .relation
  | .asset => (db.asset.find? (·.id == a.identifier)).map .asset
  | .pipeline => (db.pipelineRun.find? (·.id == a.identifier)).map .pipeline
  | .front => none

end Db

/-- `get_front`, with the addresses that the keys ending in `_address` hold. -/
def getFront : Op Resource := query fun db =>
  let rows := db.frontRows
  let addresses := rows.filterMap fun r =>
    if "_address".toList.isSuffixOf r.key.toList && "ARET://".toList.isPrefixOf r.value.toList then
      (parseAddress env.replace r.value).toOption.map Address.canonical
    else none
  .front rows (sortedSet addresses)

def resourceRow (a : Address) : Op Resource := do
  let row ← query fun db => db.resource a
  Txn.expect row (.notFound
    (match a.resourceType with
    | .knowledge => "Connaissance introuvable : " ++ a.identifier
    | .front => "Ressource non lisible : " ++ a.canonical
    | _ => "Ressource introuvable : " ++ a.canonical))

def read (address : String) : Op Resource := do
  let parsed ← Txn.ofExcept (parseAddress env.replace address) .value
  if parsed.resourceType = .front then getFront env else resourceRow parsed

/-- `self.read(make_address(..))`. -/
def readBack (k : Kind) (id : String) : Op Resource := do
  let address ← Txn.ofExcept (makeAddress k id) .value
  read env address

/-! ### Checks -/

def requireWrite : Op Unit :=
  Txn.require env.writeEnabled (.writeDisabled
    ("Le serveur ARET-MMU est en lecture seule. Définissez ARET_WRITE_ENABLED=true pour " ++
      "autoriser les mutations contrôlées."))

def validateIdentifier (identifier label : String) : Op String := do
  let candidate := env.upper (strip identifier)
  Txn.require (validIdentifier candidate)
    (.aret (label ++ " invalide : utilisez 2 à 32 caractères A-Z, 0-9, _ ou -"))
  return candidate

def validateGiven (identifier : Option String) (label : String) : Op (Option String) :=
  (truthy identifier).elim (pure identifier) fun id => some <$> validateIdentifier env id label

def requireRow (id : Option String) (has : Db → String → Bool) (text : String) : Op Unit := do
  let ok ← query fun db => (truthy id).all (has db)
  Txn.require ok (.notFound (text ++ id.getD ""))

def knowledgeRow (id : String) : Op Knowledge := do
  let row ← query fun db => db.knowledge.find? (·.id == id)
  Txn.expect row (.notFound ("Connaissance introuvable : " ++ id))

def proofRow (id : String) : Op Proof := do
  let row ← query fun db => db.proof.find? (·.id == id)
  Txn.expect row (.notFound ("Preuve introuvable : " ++ id))

/-- `hmac.compare_digest`, which takes ASCII strings only. -/
def compareDigest (a b : String) : Op Bool := do
  Txn.require (a.toList.all (·.toNat < 128) && b.toList.all (·.toNat < 128))
    (.type "comparing strings with non-ASCII characters is not supported")
  return a == b

def sameHash (data : Bytes) (hash : String) : Op Bool :=
  if hash = "" then pure true else compareDigest (env.sha256 data) hash

/-- `_validate_artifact`: the relative path, and what the file holds. -/
def validateArtifact (path hash : String) : Op (String × Bytes) :=
  if path = "" then pure ("", [])
  else do
    let relative ← Txn.expect (env.resolve path)
      (.aret "Le chemin d’artefact doit rester sous .aret-memory/artifacts/")
    let file ← Txn.read fun s => s.artifacts relative
    let data ← Txn.expect file (.notFound ("Artefact introuvable : " ++ path))
    let same ← sameHash env data hash
    Txn.require same (.aret "Le hash fourni ne correspond pas à l’artefact")
    return (relative, data)

/-! ### Registrations -/

def storeComponent (id title description actor : String) : Op String := do
  let there ← query fun db => db.hasComponent id
  Txn.require (!there) (.aret ("Composant déjà existant : " ++ id))
  let stamp ← utcNow env
  let row : Component := ⟨id, strip title, strip description, stamp, actor⟩
  insertComponent row
  let _ ← audit env actor "REGISTER_COMPONENT" "component" id none (some (.component row))
  return id

def registerComponent (componentId title description actor : String) : Op Resource := do
  requireWrite env
  let id ← validateIdentifier env componentId "Identifiant de composant"
  Txn.require (strip title != "") (.aret "Le titre du composant est requis")
  let id ← Txn.transaction Store.undo (storeComponent env id title description actor)
  readBack env .component id

/-- `stable_id`; a module that is empty leaves nothing before the exclamation mark. -/
def stableId (componentId module symbol : String) : String :=
  componentId ++ ":" ++ strip module ++ "!" ++ strip symbol

def storeFunction (componentId module symbol callingConvention actor : String) : Op String := do
  let id := stableId componentId module symbol
  requireRow (some componentId) Db.hasComponent "Composant introuvable : "
  let there ← query fun db => db.hasFunction id
  Txn.require (!there) (.aret ("Fonction déjà existante : " ++ id))
  let stamp ← utcNow env
  let row : FunctionSymbol :=
    ⟨id, componentId, strip module, strip symbol, strip callingConvention, stamp, actor⟩
  insertFunction row
  let _ ← audit env actor "REGISTER_FUNCTION" "function" id none (some (.function row))
  return id

def registerFunction (componentId module symbol callingConvention actor : String) :
    Op Resource := do
  requireWrite env
  let componentId ← validateIdentifier env componentId "Identifiant de composant"
  Txn.require (strip symbol != "") (.aret "Le symbole de fonction est requis")
  Txn.require (!hasSlash (stableId componentId module symbol))
    (.aret "Le symbole ne peut pas contenir de slash")
  let id ← Txn.transaction Store.undo
    (storeFunction env componentId module symbol callingConvention actor)
  readBack env .function id

def normalizeRoadmapValue (value : Option String) (label : String) : Op (Option String) := do
  let normalized := truthy (value.map strip)
  Txn.require (normalized.all validRoadmapValue)
    (.aret (label ++ " invalide : utiliser 1 à 64 caractères [A-Za-z0-9._-]"))
  return normalized

def normalizePriority (priority : ℤ) : Op ℤ := do
  Txn.require (1 ≤ priority && priority ≤ 5)
    (.aret "priority doit être un entier entre 1 et 5")
  return priority

structure BrickArgs where
  id : String
  title : String
  state : BrickState
  componentId : Option String
  description : String
  actor : String
  milestone : Option String
  targetPlatform : Option String
  priority : ℤ

def storeBrick (a : BrickArgs) : Op String := do
  requireRow a.componentId Db.hasComponent "Composant introuvable : "
  let there ← query fun db => db.hasBrick a.id
  Txn.require (!there) (.aret ("Brique déjà existante : " ++ a.id))
  let stamp ← utcNow env
  let row : Brick := ⟨a.id, a.componentId, strip a.title, a.state, strip a.description,
    a.milestone, a.targetPlatform, a.priority, stamp, a.actor⟩
  insertBrick row
  let _ ← audit env a.actor "REGISTER_BRICK" "brick" a.id none (some (.brick row))
  return a.id

def registerBrick (brickId title state : String) (componentId : Option String)
    (description actor : String) (milestone targetPlatform : Option String) (priority : ℤ) :
    Op Resource := do
  requireWrite env
  let id ← validateIdentifier env brickId "Identifiant de brique"
  let state ← Txn.expect (BrickState.parse (env.upper state))
    (.aret ("État de brique invalide : " ++ env.upper state))
  Txn.require (strip title != "") (.aret "Le titre de la brique est requis")
  let componentId ← validateGiven env componentId "Identifiant de composant"
  let milestone ← normalizeRoadmapValue milestone "milestone"
  let targetPlatform ← normalizeRoadmapValue targetPlatform "target_platform"
  let priority ← normalizePriority priority
  let id ← Txn.transaction Store.undo
    (storeBrick env ⟨id, title, state, componentId, description, actor, milestone, targetPlatform,
      priority⟩)
  readBack env .brick id

def givenState (state : Option String) : Op (Option BrickState) :=
  state.elim (pure none) fun word => do
    let parsed ← Txn.expect (BrickState.parse (strip (env.upper word)))
      (.aret ("État de brique invalide : " ++ word))
    return some parsed

def givenPriority (priority : Option ℤ) : Op (Option ℤ) :=
  priority.elim (pure none) fun n => some <$> normalizePriority n

/-- What a brick is to become: the properties that are given. -/
structure BrickChange where
  state : Option BrickState
  milestone : Option (Option String)
  targetPlatform : Option (Option String)
  priority : Option ℤ

def Brick.changed (before : Brick) (c : BrickChange) : Brick :=
  { before with
    state := c.state.getD before.state,
    milestone := c.milestone.getD before.milestone,
    targetPlatform := c.targetPlatform.getD before.targetPlatform,
    priority := c.priority.getD before.priority }

def changeBrick (id : String) (c : BrickChange) (actor : String) : Op String := do
  let row ← query fun db => db.brick.find? (·.id == id)
  let before ← Txn.expect row (.notFound ("Brique introuvable : " ++ id))
  let after := before.changed c
  let inFront ← query fun db => db.frontState.any fun r => r.key == "brick" && r.value == id
  Txn.require (!(before.state == .active && after.state != .active && inFront))
    (.aret "Remplacez d’abord le Front : il référence encore cette brique ACTIVE")
  setBrick id after.state after.milestone after.targetPlatform after.priority
  let _ ← audit env actor "UPDATE_BRICK" "brick" id (some (.brick before)) (some (.brick after))
  return id

def updateBrick (brickId : String) (state milestone targetPlatform : Option String)
    (priority : Option ℤ) (actor : String) : Op Resource := do
  requireWrite env
  let id ← validateIdentifier env brickId "Identifiant de brique"
  Txn.require (state.isSome || milestone.isSome || targetPlatform.isSome || priority.isSome)
    (.aret "Au moins une propriété de brique doit être fournie")
  let newState ← givenState env state
  let newMilestone ← normalizeRoadmapValue milestone "milestone"
  let newTarget ← normalizeRoadmapValue targetPlatform "target_platform"
  let newPriority ← givenPriority priority
  let id ← Txn.transaction Store.undo
    (changeBrick env id ⟨newState, milestone.map fun _ => newMilestone,
      targetPlatform.map fun _ => newTarget, newPriority⟩ actor)
  readBack env .brick id

/-! ### Assets and pipeline runs -/

def assetKinds : List String :=
  ["PE32", "DLL", "SNAPSHOT", "IAT_MAP", "CORPUS", "GENERATED", "TOOLCHAIN_REPORT"]

def assetSources : List String := ["LOCAL", "NETWORK", "GENERATED", "SNAPSHOT"]

/-- `re.sub(r"[^A-Za-z0-9_.-]", "_", name)[:128] or "asset.bin"`. -/
def safeName (name : String) : String :=
  let safe := name.toList.map fun c =>
    if c.isAlphanum || c = '_' || c = '.' || c = '-' then c else '_'
  if safe = [] then "asset.bin" else String.ofList (safe.take 128)

/-- `shutil.copyfile` to a path under the directory of artifacts. -/
def copyFile (relative : String) (data : Bytes) : Op Unit :=
  Txn.write fun s =>
    { s with artifacts := fun path => if path = relative then some data else s.artifacts path }

/-- The file is copied in the middle of the transaction, and stays when that is rolled back. -/
def storeAsset (source : HostFile) (kind sourceKind : String) (provenance : Json)
    (actor : String) : Op String := do
  let id ← newId "asset" "AS"
  let relative := "assets/" ++ id ++ "_" ++ safeName source.name
  copyFile relative source.data
  let copied ← Txn.read fun s => s.artifacts relative
  let same ← compareDigest (env.sha256 source.data) (env.sha256 (copied.getD []))
  Txn.require same (.aret "Copie d’asset incohérente : hash source/destination différent")
  let stamp ← utcNow env
  let row : Asset := ⟨id, kind, sourceKind, relative, env.sha256 source.data,
    source.data.length, provenance, stamp, actor⟩
  insertAsset row
  let _ ← audit env actor "REGISTER_ASSET" "asset" id none (some (.asset row))
  return id

def registerAssetFile (sourcePath kind sourceKind : String) (provenance : Json) (actor : String) :
    Op Resource := do
  requireWrite env
  Txn.require (assetKinds.contains kind) (.aret "Type d’asset invalide")
  Txn.require (assetSources.contains sourceKind) (.aret "Origine d’asset invalide")
  let source ← Txn.expect (env.host sourcePath)
    (.notFound ("Asset source introuvable : " ++ sourcePath))
  Txn.require (source.data.length ≤ 2 * 1024 * 1024 * 1024)
    (.aret "Asset refusé : taille supérieure à 2 GiB")
  let id ← Txn.transaction Store.undo (storeAsset env source kind sourceKind provenance actor)
  readBack env .asset id

def pipelinePolicies : List String := ["READ_ONLY", "GENERATE", "NETWORK", "SENSITIVE"]

def pipelineResults : List String := ["PASS", "FAIL", "ERROR", "SKIPPED", "UNKNOWN", "PLANNED"]

structure RunArgs where
  pipelineName : String
  kind : String
  policy : String
  result : String
  command : String
  parameters : Json
  artifactPath : String
  artifactHash : String
  exitCode : Option ℤ
  startedAt : String
  finishedAt : String
  actor : String

def storeRun (a : RunArgs) (name relative : String) (data : Bytes) : Op String := do
  let id ← newId "pipeline_run" "PR"
  let stamp ← utcNow env
  let row : PipelineRun := ⟨id, name, env.upper (strip a.kind), a.policy, a.result, a.command,
    a.parameters, relative, env.sha256 data, a.exitCode, a.startedAt, a.finishedAt, stamp, a.actor⟩
  insertPipelineRun row
  let _ ← audit env a.actor "RUN_PIPELINE" "pipeline" id none (some (.pipeline row))
  return id

def recordPipelineRun (a : RunArgs) : Op Resource := do
  requireWrite env
  let name := env.lower (strip a.pipelineName)
  Txn.require (validPipelineName name) (.aret "Nom de pipeline invalide")
  Txn.require (pipelinePolicies.contains a.policy) (.aret "Politique de pipeline invalide")
  Txn.require (pipelineResults.contains a.result) (.aret "Résultat de pipeline invalide")
  Txn.require ((env.canonicalJson a.parameters).utf8ByteSize ≤ 16384)
    (.aret "Paramètres de pipeline trop volumineux")
  let file ← validateArtifact env a.artifactPath a.artifactHash
  Txn.require (file.1 != "") (.aret "Une exécution de pipeline exige un artefact")
  let id ← Txn.transaction Store.undo (storeRun env a name file.1 file.2)
  readBack env .pipeline id

end Aret.Memory
