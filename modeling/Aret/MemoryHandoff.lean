/-
The handoff of the memory store: what a session leaves in the Front for the next one.
-/
import Aret.MemoryLife

namespace Aret.Memory

variable (env : Env)

/-! ### Fields -/

def handoffFields : List String :=
  ["handoff_work_summary", "handoff_verified_results", "handoff_open_risks",
    "handoff_deferred_items"]

def handoffControlFields : List String :=
  ["handoff_front_hash", "handoff_prepared_at", "handoff_observation_pipeline_cutoff",
    "handoff_observation_proof_cutoff"]

def technicalCheckpointFields : List String :=
  ["handoff_technical_target", "handoff_technical_change", "handoff_execution_state",
    "handoff_last_validation", "handoff_immediate_actions"]

def technicalCheckpointMaxBytes : String → ℕ
  | "handoff_technical_target" => 120
  | "handoff_technical_change" => 160
  | "handoff_execution_state" => 130
  | "handoff_last_validation" => 160
  | _ => 180

def technicalCheckpointStateField : String := "handoff_technical_checkpoint_state"

def relevantAddressKey (i : ℕ) : String := "relevant_" ++ toString i ++ "_address"

/-- The keys of the Front that `_front_resume_hash` covers, in their order. -/
def coveredKeys : List String :=
  ["brick", "current_wall", "handoff_deferred_items", "handoff_execution_state",
    "handoff_immediate_actions", "handoff_last_validation", "handoff_open_risks",
    "handoff_technical_change", "handoff_technical_checkpoint_state", "handoff_technical_target",
    "handoff_verified_results", "handoff_work_summary", "last_action", "next_action",
    "relevant_1_address", "relevant_2_address", "relevant_3_address", "relevant_4_address",
    "relevant_5_address", "subsystem"]

def Db.frontValue (db : Db) (key : String) : Option String :=
  (db.frontState.find? (·.key == key)).map (·.value)

def included (state : String → Option String) : List (String × String) :=
  coveredKeys.filterMap fun key => (state key).map fun value => (key, value)

def frontResumeHash (state : String → Option String) : String :=
  env.sha256 (Percent.bytes (env.canonicalJson
    (.obj ((included state).map fun p => (p.1, Json.str p.2)))))

/-! ### Texts -/

def handoffValue (label value : String) : Op String := do
  let text := strip value
  Txn.require (24 ≤ text.length) (.aret (label ++ " est trop court pour un handoff fiable"))
  Txn.require (text.utf8ByteSize ≤ 1000) (.aret (label ++ " dépasse la borne de 1000 octets"))
  return text

def technicalCheckpointValue (key value : String) : Op String := do
  let text := strip value
  Txn.require (text != "") (.aret ("Checkpoint technique incomplet : " ++ key))
  let maximum := technicalCheckpointMaxBytes key
  Txn.require (text.utf8ByteSize ≤ maximum)
    (.aret (key ++ " dépasse la borne de " ++ toString maximum ++ " octets"))
  return text

def technicalCheckpointValues : List (String × String) → Op (List (String × String))
  | [] => pure []
  | (key, value) :: rest => do
    let text ← technicalCheckpointValue key value
    let others ← technicalCheckpointValues rest
    return (key, text) :: others

def technicalCheckpointState (value : String) : Op String := do
  let state := env.upper (strip value)
  Txn.require (state = "NONE" || state = "ACTIVE")
    (.aret "technical_checkpoint_state doit être NONE ou ACTIVE")
  return state

/-! ### Validations -/

/-- A letter as `re.IGNORECASE` compares it. -/
def foldLetter (c : Char) : Char :=
  if c = '\u0130' ∨ c = '\u0131' then 'I'
  else if c = '\u017f' then 'S'
  else if c = '\u212a' then 'K'
  else c.toUpper

def validationWords : List (List Char) :=
  ["PASS".toList, "FAIL".toList, "ERROR".toList, "SKIPPED".toList, "UNKNOWN".toList]

/-- The first match of `VALIDATION_RESULT_RE`; `prev` is the character before, and `\w` matches the
characters of `isWord`. -/
def validationResult (isWord : Char → Bool) (prev : Option Char) : List Char → Option String
  | [] => none
  | c :: cs =>
    let here := if prev.any isWord then none else validationWords.find? fun w =>
      ((c :: cs).take w.length).map foldLetter == w && !((c :: cs).drop w.length).head?.any isWord
    match here with
    | some w => some (String.ofList ((c :: cs).take w.length))
    | none => validationResult isWord (some c) cs

/-- A match of `VALIDATION_REFERENCE_RE` at this place. -/
def referenceHere (cs : List Char) : Option (Kind × String) :=
  let identifier (rest : List Char) : Option String :=
    let name := (rest.take 32).takeWhile fun c => c.isAlphanum || c = '_' || c = '-'
    if name.length < 2 then none else some (String.ofList name)
  if "ARET://pipeline/".toList.isPrefixOf cs then
    (identifier (cs.drop 16)).map fun id => (.pipeline, id)
  else if "ARET://proof/".toList.isPrefixOf cs then
    (identifier (cs.drop 13)).map fun id => (.proof, id)
  else none

/-- The first match of `VALIDATION_REFERENCE_RE`. -/
def validationReference : List Char → Option (Kind × String)
  | [] => none
  | c :: cs => (referenceHere (c :: cs)).or (validationReference cs)

structure MachineStatus where
  status : String
  address : String
  result : String

def ProofResult.word : ProofResult → String
  | .pass => "PASS"
  | .fail => "FAIL"
  | .error => "ERROR"
  | .skipped => "SKIPPED"
  | .unknown => "UNKNOWN"

def Db.resultOf (db : Db) : Kind → String → Option String
  | .pipeline, id => (db.pipelineRun.find? (·.id == id)).map (·.result)
  | _, id => (db.proof.find? (·.id == id)).map (·.result.word)

/-- `_last_validation_machine_status`: only a claim with a verdict and an address is checked. -/
def lastValidationMachineStatus (isWord : Char → Bool) (lastValidation : String) :
    Op MachineStatus :=
  (validationResult isWord none lastValidation.toList).elim
    (pure ⟨"NO_MACHINE_CLAIM", "", ""⟩) fun word => do
      let claimed := env.upper word
      (validationReference lastValidation.toList).elim
        (pure ⟨"DECLARED_UNVERIFIED", "", claimed⟩) fun reference => do
          let result ← query fun db => db.resultOf reference.1 reference.2
          let address ← Txn.ofExcept (makeAddress reference.1 reference.2) .value
          let result ← Txn.expect result
            (.aret ("last_validation référence une observation MCP absente : " ++ address))
          let observed := env.upper result
          Txn.require (observed == claimed) (.aret ("last_validation contradictoire : " ++
            address ++ " retourne " ++ observed ++ ", pas " ++ claimed))
          return ⟨"MACHINE_VERIFIED", address, observed⟩

/-! ### Observations -/

/-- The number that `-(\d+)$` finds at the end of an identifier. -/
def trailingNumber (identifier : String) : Option ℕ :=
  let reversed := identifier.toList.reverse
  let digits := reversed.takeWhile Char.isDigit
  if digits ≠ [] ∧ (reversed.drop digits.length).head? = some '-' then
    some (Nat.ofDigitChars 10 digits.reverse 0)
  else none

def idAfterCutoff (identifier cutoff : String) : Bool :=
  if cutoff = "" then true
  else match trailingNumber identifier, trailingNumber cutoff with
    | some n, some m => m < n
    | _, _ => false

/-- `ORDER BY created_at DESC,id DESC`; text is compared by its bytes. -/
def newestFirst {α : Type} (createdAt id : α → String) (rows : List α) : List α :=
  rows.insertionSort fun a b =>
    createdAt b < createdAt a ∨ createdAt a = createdAt b ∧ id b ≤ id a

def Db.newestRuns (db : Db) : List PipelineRun :=
  newestFirst PipelineRun.createdAt PipelineRun.id db.pipelineRun

def Db.newestProofs (db : Db) : List Proof := newestFirst Proof.createdAt Proof.id db.proof

structure Observation where
  kind : String
  name : String
  result : String
  timestamp : String
  address : String
  artifactHash : String
  parameters : String

/-- `str` of a value that is a scalar. -/
def Json.scalar : Json → Option String
  | .null => some "None"
  | .num n => some (toString n)
  | .str s => some s
  | _ => none

def clipped : ℕ → List Char → List Char
  | _, [] => []
  | room, c :: cs => if c.utf8Size ≤ room then c :: clipped (room - c.utf8Size) cs else []

/-- `_observation_parameter_summary`: no more than two scalar parameters. -/
def parameterSummary : Json → String
  | .obj fields =>
    let pairs := (fields.insertionSort fun p q => p.1 ≤ q.1).filterMap fun p =>
      p.2.scalar.map fun value => String.ofList (p.1.toList.take 32) ++ "=" ++
        String.ofList (value.toList.take 48)
    String.ofList (clipped 120 (", ".intercalate (pairs.take 2)).toList)
  | _ => ""

def observeRun (row : PipelineRun) : Except String Observation := do
  let address ← makeAddress .pipeline row.id
  return ⟨"PIPELINE_RUN", row.pipelineName, row.result,
    if row.finishedAt = "" then row.createdAt else row.finishedAt, address, row.artifactHash,
    parameterSummary row.parameters⟩

def observeProof (row : Proof) : Except String Observation := do
  let address ← makeAddress .proof row.id
  return ⟨"ORACLE_PROOF", row.kind, row.result.word,
    (truthy row.finishedAt).getD row.createdAt, address, row.artifactHash, ""⟩

structure Observations where
  since : String
  total : ℕ
  items : List Observation

def resumeObservationMaxItems : ℕ := 3

def resumeObservationsRows (db : Db) (preparedAt pipelineCutoff proofCutoff : String) :
    Except String Observations :=
  if preparedAt = "" then .ok ⟨"", 0, []⟩
  else do
    let runs ← (db.newestRuns.filter fun r => idAfterCutoff r.id pipelineCutoff).mapM observeRun
    let proofs ← (db.newestProofs.filter fun p => idAfterCutoff p.id proofCutoff).mapM observeProof
    let rows := (runs ++ proofs).insertionSort fun a b =>
      b.timestamp < a.timestamp ∨ a.timestamp = b.timestamp ∧ b.address ≤ a.address
    return ⟨preparedAt, rows.length, rows.take resumeObservationMaxItems⟩

def Db.frontText (db : Db) (key : String) : String := (db.frontValue key).getD ""

def getResumeObservations : Op Observations := do
  let rows ← query fun db => resumeObservationsRows db (db.frontText "handoff_prepared_at")
    (db.frontText "handoff_observation_pipeline_cutoff")
    (db.frontText "handoff_observation_proof_cutoff")
  Txn.ofExcept rows .value

/-- `get_resume_dossier` reports a handoff whose fields have changed. -/
def Db.expired (db : Db) : Bool :=
  db.frontText "handoff_front_hash" != "" &&
    db.frontText "handoff_front_hash" != frontResumeHash env db.frontValue

/-- `health_report` finds the handoff fresh, or none. -/
def Db.handoffFresh (db : Db) : Bool :=
  let stored := strip (db.frontText "handoff_front_hash")
  stored == "" || stored == frontResumeHash env db.frontValue

/-! ### Preparation -/

structure HandoffArgs where
  workSummary : String
  verifiedResults : String
  openRisks : String
  deferredItems : String
  nextAction : String
  technicalCheckpointState : String
  technicalTarget : String
  technicalChange : String
  executionState : String
  lastValidation : String
  immediateActions : String
  relevantAddresses : List String
  actor : String

def hotAddresses : List String → Op (List String)
  | [] => pure []
  | raw :: rest => do
    let parsed ← Txn.ofExcept (parseAddress env.replace raw) fun _ =>
      .aret "Chaque adresse chaude du handoff doit être une adresse ARET valide"
    Txn.require (parsed.resourceType == .knowledge)
      (.aret "Les adresses chaudes du handoff doivent viser des connaissances ARET")
    let others ← hotAddresses rest
    return parsed.canonical :: others

def HandoffArgs.checkpointInput (a : HandoffArgs) : List (String × String) :=
  technicalCheckpointFields.zip
    [a.technicalTarget, a.technicalChange, a.executionState, a.lastValidation, a.immediateActions]

def checkpointFields (a : HandoffArgs) (state : String) : Op (List (String × String)) :=
  if state = "ACTIVE" then do
    let checkpoint ← technicalCheckpointValues a.checkpointInput
    let text (key : String) : String := ((checkpoint.find? (·.1 == key)).map (·.2)).getD ""
    return checkpoint ++ [(technicalCheckpointStateField, state),
      ("last_action", "Checkpoint technique actif : " ++ text "handoff_technical_target" ++ " — " ++
        text "handoff_technical_change")]
  else do
    let unexpected := (a.checkpointInput.filter fun p => strip p.2 != "").map (·.1)
    Txn.require (unexpected = [])
      (.aret ("Checkpoint technique NONE incohérent : les champs doivent être vides (" ++
        ", ".intercalate unexpected ++ ")"))
    return technicalCheckpointFields.map (fun key => (key, "")) ++
      [(technicalCheckpointStateField, state),
        ("last_action", "Aucun checkpoint technique actif lors de la préparation du handoff.")]

def relevantFields (db : Db) (addresses : List String) : List (String × String) :=
  [1, 2, 3, 4, 5].filterMap fun i =>
    match addresses[i - 1]? with
    | some address => some (relevantAddressKey i, address)
    | none => if (db.frontValue (relevantAddressKey i)).isSome then some (relevantAddressKey i, "")
      else none

def overridden (values : List (String × String)) (state : String → Option String) (key : String) :
    Option String :=
  ((values.find? (·.1 == key)).map (·.2)).or (state key)

def checkAddress (address : String) : Op Unit := do
  let parsed ← Txn.ofExcept (parseAddress env.replace address) .value
  let known ← query fun db => db.hasKnowledge parsed.identifier
  Txn.require known (.notFound ("Adresse chaude introuvable : " ++ address))

def checkValidation (isWord : Char → Bool) (state : String) (values : List (String × String)) :
    Op Unit :=
  if state = "ACTIVE" then
    Txn.ignore (lastValidationMachineStatus env isWord
      (((values.find? (·.1 == "handoff_last_validation")).map (·.2)).getD ""))
  else pure ()

def Db.handoffValues (db : Db) (values : List (String × String)) (addresses : List String) :
    List (String × String) :=
  values ++
    [("handoff_observation_pipeline_cutoff", (db.newestRuns.head?.map (·.id)).getD ""),
      ("handoff_observation_proof_cutoff", (db.newestProofs.head?.map (·.id)).getD "")] ++
    relevantFields db addresses

/-- The transaction of `prepare_handoff`. -/
def storeHandoff (isWord : Char → Bool) (state : String) (values : List (String × String))
    (addresses : List String) (actor : String) : Op Unit := do
  checkValidation env isWord state values
  addresses.forM (checkAddress env)
  let before ← query Db.frontRows
  let values ← query fun db => db.handoffValues values addresses
  let hash ← query fun db => frontResumeHash env (overridden values db.frontValue)
  let stamp ← utcNow env
  let values := values ++ [("handoff_front_hash", hash), ("handoff_prepared_at", stamp)]
  validateFrontBrick values
  (values.insertionSort fun p q => p.1 ≤ q.1).forM fun p => upsertFront ⟨p.1, p.2, stamp, actor⟩
  let after ← query Db.frontRows
  let _ ← audit env actor "PREPARE_HANDOFF" "front" "current" (some (.front before))
    (some (.handoff after hash addresses))

/-- `prepare_handoff`, without the dossier that it reads back. -/
def prepareHandoff (isWord : Char → Bool) (a : HandoffArgs) : Op Unit := do
  requireWrite env
  let addresses ← hotAddresses env a.relevantAddresses
  Txn.require (addresses.dedup.length = addresses.length && addresses.length ≤ 5)
    (.aret "Le handoff accepte entre zéro et cinq adresses chaudes distinctes")
  let workSummary ← handoffValue "work_summary" a.workSummary
  let verifiedResults ← handoffValue "verified_results" a.verifiedResults
  let openRisks ← handoffValue "open_risks" a.openRisks
  let deferredItems ← handoffValue "deferred_items" a.deferredItems
  let nextAction ← handoffValue "next_action" a.nextAction
  let state ← technicalCheckpointState env a.technicalCheckpointState
  let checkpoint ← checkpointFields a state
  let values := [("handoff_work_summary", workSummary),
    ("handoff_verified_results", verifiedResults), ("handoff_open_risks", openRisks),
    ("handoff_deferred_items", deferredItems), ("next_action", nextAction)] ++ checkpoint
  Txn.transaction Store.undo (storeHandoff env isWord state values addresses a.actor)

end Aret.Memory
