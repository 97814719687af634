/-
The memory store: the rows of its tables, and what surrounds the data base.
-/
import Aret.MemoryText
import Aret.Txn

namespace Aret.Memory

abbrev Bytes := List UInt8

/-- A value that is kept as its JSON text. -/
inductive Json
  | null
  | num (n : ℤ)
  | str (s : String)
  | list (l : List Json)
  | obj (fields : List (String × Json))

def Json.ofOption (s : Option String) : Json := s.elim .null .str

/-! ### Enumerations -/

inductive BrickState
  | planned | active | blocked | done | obsolete
  deriving DecidableEq

/-- `BRICK_STATES`. -/
def BrickState.parse : String → Option BrickState
  | "PLANNED" => some .planned
  | "ACTIVE" => some .active
  | "BLOCKED" => some .blocked
  | "DONE" => some .done
  | "OBSOLETE" => some .obsolete
  | _ => none

def BrickState.word : BrickState → String
  | .planned => "PLANNED"
  | .active => "ACTIVE"
  | .blocked => "BLOCKED"
  | .done => "DONE"
  | .obsolete => "OBSOLETE"

inductive KnowledgeType
  | rule | architecture | decision | forensic | observation | hypothesis | state | measurement
  | discovery
  deriving DecidableEq

/-- `KNOWLEDGE_TYPES`. -/
def KnowledgeType.parse : String → Option KnowledgeType
  | "RULE" => some .rule
  | "ARCHITECTURE" => some .architecture
  | "DECISION" => some .decision
  | "FORENSIC" => some .forensic
  | "OBSERVATION" => some .observation
  | "HYPOTHESIS" => some .hypothesis
  | "STATE" => some .state
  | "MEASUREMENT" => some .measurement
  | "DISCOVERY" => some .discovery
  | _ => none

inductive Status
  | active | proven | observed | hypothesis | superseded | obsolete | conflicting
  deriving DecidableEq

/-- `KNOWLEDGE_STATUSES`. -/
def Status.parse : String → Option Status
  | "ACTIVE" => some .active
  | "PROVEN" => some .proven
  | "OBSERVED" => some .observed
  | "HYPOTHESIS" => some .hypothesis
  | "SUPERSEDED" => some .superseded
  | "OBSOLETE" => some .obsolete
  | "CONFLICTING" => some .conflicting
  | _ => none

inductive ProofResult
  | pass | fail | error | skipped | unknown
  deriving DecidableEq

/-- `PROOF_RESULTS`. -/
def ProofResult.parse : String → Option ProofResult
  | "PASS" => some .pass
  | "FAIL" => some .fail
  | "ERROR" => some .error
  | "SKIPPED" => some .skipped
  | "UNKNOWN" => some .unknown
  | _ => none

inductive RelationType
  | verifiedBy | supersedes | informedBy | blockedBy | implements | derivedFrom | concerns
  | appliesTo | causedBy | evolvesTo
  deriving DecidableEq

/-- `RELATION_TYPES`. -/
def RelationType.parse : String → Option RelationType
  | "VERIFIED_BY" => some .verifiedBy
  | "SUPERSEDES" => some .supersedes
  | "INFORMED_BY" => some .informedBy
  | "BLOCKED_BY" => some .blockedBy
  | "IMPLEMENTS" => some .implements
  | "DERIVED_FROM" => some .derivedFrom
  | "CONCERNS" => some .concerns
  | "APPLIES_TO" => some .appliesTo
  | "CAUSED_BY" => some .causedBy
  | "EVOLVES_TO" => some .evolvesTo
  | _ => none

/-! ### Rows -/

structure SequenceRow where
  entity : String
  nextValue : ℕ

structure Component where
  id : String
  title : String
  description : String
  createdAt : String
  createdBy : String

structure FunctionSymbol where
  id : String
  componentId : String
  module : String
  symbol : String
  callingConvention : String
  createdAt : String
  createdBy : String

structure Brick where
  id : String
  componentId : Option String
  title : String
  state : BrickState
  description : String
  milestone : Option String
  targetPlatform : Option String
  priority : ℤ
  createdAt : String
  createdBy : String

structure Knowledge where
  id : String
  type : KnowledgeType
  status : Status
  title : String
  content : String
  componentId : Option String
  functionId : Option String
  brickId : Option String
  supersedesId : Option String
  effectiveAt : Option String
  version : ℕ
  contentHash : String
  createdAt : String
  updatedAt : String
  createdBy : String

structure KnowledgeTag where
  knowledgeId : String
  tag : String

structure Proof where
  id : String
  kind : String
  command : String
  result : ProofResult
  exitCode : Option ℤ
  stdoutRef : String
  stderrRef : String
  artifactPath : String
  artifactHash : String
  artifactSize : ℕ
  environment : Json
  startedAt : Option String
  finishedAt : Option String
  payloadHash : String
  receiptHmac : String
  admissible : Bool
  createdAt : String
  createdBy : String

structure ProofLink where
  knowledgeId : String
  proofId : String
  linkedAt : String
  linkedBy : String

structure Relation where
  id : String
  fromId : String
  relationType : RelationType
  toId : String
  active : Bool
  supersededBy : Option String
  createdAt : String
  createdBy : String

structure FrontRow where
  key : String
  value : String
  updatedAt : String
  updatedBy : String

structure DocumentSource where
  repository : String
  revision : String
  path : String
  startLine : ℤ
  endLine : ℤ
  section_ : String
  hash : String
  migrationBatchId : Option String

structure KnowledgeSource where
  id : String
  knowledgeId : String
  source : DocumentSource
  importedAt : String
  importedBy : String

structure Asset where
  id : String
  kind : String
  sourceKind : String
  relativePath : String
  sha256 : String
  sizeBytes : ℕ
  provenance : Json
  createdAt : String
  createdBy : String

structure PipelineRun where
  id : String
  pipelineName : String
  kind : String
  policy : String
  result : String
  command : String
  parameters : Json
  artifactPath : String
  artifactHash : String
  exitCode : Option ℤ
  startedAt : String
  finishedAt : String
  createdAt : String
  createdBy : String

structure FtsRow where
  knowledgeId : String
  title : String
  content : String
  tags : List String

/-- What the audit keeps as JSON: a row, or what a change came to. -/
inductive Payload
  | component (row : Component)
  | function (row : FunctionSymbol)
  | brick (row : Brick)
  | proof (row : Proof)
  | knowledge (row : Knowledge)
  | source (row : KnowledgeSource)
  | relation (row : Relation)
  | front (rows : List FrontRow)
  | asset (row : Asset)
  | pipeline (row : PipelineRun)
  | appended (row : Knowledge) (tags proofIds : List String) (source : Option DocumentSource)
  | supersededBy (id : String)
  | attached (row : Knowledge) (proofId : String) (linked promoted : Bool)
  | observed (reason : String)
  | invalidated (row : Proof) (reason : String) (demoted : List String)
  | replaced (row : Relation) (replacement : String)
  | indexed (count : ℕ)
  | session (event sessionId trigger summary : String) (front : List FrontRow)
  | handoff (front : List FrontRow) (hash : String) (addresses : List String)

structure AuditEvent where
  id : String
  timestamp : String
  actor : String
  operation : String
  entityType : String
  entityId : String
  before : Option Payload
  after : Option Payload

/-! ### The data base -/

/-- The tables. Batches of migrations are there for the foreign key on them. -/
structure Db where
  idSequence : List SequenceRow
  component : List Component
  functionSymbol : List FunctionSymbol
  brick : List Brick
  knowledge : List Knowledge
  knowledgeTag : List KnowledgeTag
  proof : List Proof
  proofLink : List ProofLink
  relation : List Relation
  frontState : List FrontRow
  auditEvent : List AuditEvent
  knowledgeFts : List FtsRow
  knowledgeSource : List KnowledgeSource
  migrationBatch : List String
  asset : List Asset
  pipelineRun : List PipelineRun

def Db.fresh : Db where
  idSequence := [⟨"knowledge", 1⟩, ⟨"proof", 1⟩, ⟨"relation", 1⟩, ⟨"audit", 1⟩, ⟨"asset", 1⟩,
    ⟨"pipeline_run", 1⟩]
  component := []
  functionSymbol := []
  brick := []
  knowledge := []
  knowledgeTag := []
  proof := []
  proofLink := []
  relation := []
  frontState := []
  auditEvent := []
  knowledgeFts := []
  knowledgeSource := []
  migrationBatch := []
  asset := []
  pipelineRun := []

/-- The data base, the files under the directory of artifacts, and how often the clock was read. -/
structure Store where
  db : Db
  artifacts : String → Option Bytes
  ticks : ℕ

def Store.fresh : Store := ⟨Db.fresh, fun _ => none, 0⟩

def Store.undo (s t : Store) : Store := { t with db := s.db }

structure HostFile where
  name : String
  data : Bytes

structure Env where
  writeEnabled : Bool
  /-- What the clock answers the nth time. -/
  utcNow : ℕ → String
  upper : String → String
  lower : String → String
  canonicalJson : Json → String
  sha256 : Bytes → String
  hmacSha256 : String → String → String
  proofHmacSecret : String
  /-- A path under the directory of artifacts, as its canonical relative path. -/
  resolve : String → Option String
  host : String → Option HostFile
  /-- What decoding puts in place of ill-formed UTF-8. -/
  replace : Bytes → String

inductive Refusal
  | aret (text : String)
  | notFound (text : String)
  | writeDisabled (text : String)
  | value (text : String)
  | type (text : String)
  | integrity (text : String)

abbrev Op := Txn Store Refusal

end Aret.Memory
