import Northstack.Domain.Graph
import Northstack.Domain.Outcome
import Northstack.Domain.SecretsPolicy

/-!
# The typed event catalog

Mirrors events/catalog.py: one constructor per event kind, with the payload's
fields. `stored` is the payload as the ledger keeps it: every text that looks
like a credential is replaced (adapters/sqlite_ledger.py:38-60). No field name
of the catalog is a secret one, so only texts, and the free-form objects under
a schema or an analysis, change.
-/
namespace Northstack

inductive EventPayload where
  | runCreated
  | statusChanged (status : RunStatus)
  | requestAccepted (goal workspaceRoot : String) (budget : Option Budget)
  | workspaceSnapshot (root : String) (fileCount : Nat) (digest : String)
  | analysisRequested (profile : String) (analysis : List (String × Json))
  | analysisCompleted (profile : String) (analysis : List (String × Json))
  | contractProposed (id : String) (version : Nat) (objective scope : String)
      (deliverables constraints allowedTools : List String) (workspaceScope : String)
      (budget : Budget) (acceptanceCriteriaCount : Nat)
      (acceptanceCriteria : List AcceptanceCriterion) (unresolvedAmbiguity : List String)
  | contractValidated (id : String) (version : Nat)
  | contractAmended (id : String) (version : Nat) (reason : String)
  | graphProposed (version : Nat) (errors : List String) (rejected : Bool)
  | graphAccepted (version : Nat) (cells : List GraphCell) (edges : List GraphEdge)
      (milestones : List String)
  | cellCreated (cell : GraphCell)
  | cellAdvanced (cellId : String) (status : CellStatus)
  | routeSelected (cellId profileName reason : String)
  | cellStarted (cellId profileName : String)
  | cellProgress (cellId step : String) (attempt turn : Nat) (detail : List (String × Json))
  | cellCompleted (cellId : String) (outputArtifact : ArtifactRef) (usage : Spend)
  | cellFailed (cellId error errorKind : String)
  | claimRecorded (cellId claim evidenceDigest : String)
  | artifactStored (artifact : ArtifactRef)
  | budgetUpdated (usage : BudgetUsage) (exhausted : Bool)
  | verificationCheck (criterionIndex : Nat) (criterionKind : CriterionKind) (passed : Bool)
      (detail evidenceArtifactDigest : String)
  | evidenceRecorded (outcome : RunOutcome) (records : List EvidenceRecord)
      (hardGateFailures : List HardGateFailure) (usage : BudgetUsage) (toolsUsed : List String)
      (materialDisagreement : Bool)
  | recoveryTransition (cellId : String) (failureType : FailureType) (action : RecoveryAction)
      (attemptNumber : Nat) (errorDetail : String)
  | outcomeEmitted (outcome : RunOutcome) (reason : String)
  | stallDetected (cellId : String)

/-! ## The stored form -/

def redactTexts (xs : List String) : List String := xs.map redactText

def ArtifactRef.stored (r : ArtifactRef) : ArtifactRef :=
  { r with digest := redactText r.digest, mediaType := redactText r.mediaType }

def CriterionSpec.stored : CriterionSpec → CriterionSpec
  | .command name code => .command (redactText name) code
  | .fileDiff path must hash contains equals =>
    .fileDiff (redactText path) must (hash.map redactText) (contains.map redactText)
      (equals.map redactText)
  | .treeDigest path hash => .treeDigest (redactText path) (redactText hash)
  | .schema digest js => .schema (redactText digest) (redactFields js)
  | .policy check tools => .policy (redactText check) (redactTexts tools)
  | .softRubric prompt => .softRubric (redactText prompt)

def AcceptanceCriterion.stored (c : AcceptanceCriterion) : AcceptanceCriterion where
  description := redactText c.description
  spec := c.spec.stored

def WorkContract.stored (c : WorkContract) : WorkContract where
  id := redactText c.id
  version := c.version
  objective := redactText c.objective
  scope := redactText c.scope
  deliverables := redactTexts c.deliverables
  constraints := redactTexts c.constraints
  assumptions := redactTexts c.assumptions
  forbiddenOutcomes := redactTexts c.forbiddenOutcomes
  allowedTools := redactTexts c.allowedTools
  workspaceScope := redactText c.workspaceScope
  budget := c.budget
  acceptanceCriteria := c.acceptanceCriteria.map (·.stored)
  unresolvedAmbiguity := redactTexts c.unresolvedAmbiguity
  abstentionThreshold := c.abstentionThreshold

def GraphCell.stored (c : GraphCell) : GraphCell where
  id := redactText c.id
  name := redactText c.name
  wave := c.wave
  requiredCapabilities := redactTexts c.requiredCapabilities
  mode := c.mode
  inputSchema := redactFields c.inputSchema
  outputSchema := redactFields c.outputSchema
  requiredProfileRoles := redactTexts c.requiredProfileRoles
  dependencies := redactTexts c.dependencies
  acceptanceCriterionIndices := c.acceptanceCriterionIndices
  contract := c.contract.stored
  status := c.status

def GraphEdge.stored (e : GraphEdge) : GraphEdge where
  fromId := redactText e.fromId
  toId := redactText e.toId
  kind := redactText e.kind

def EvidenceRecord.stored (r : EvidenceRecord) : EvidenceRecord :=
  { r with
    evidenceArtifactDigest := redactText r.evidenceArtifactDigest
    detail := redactText r.detail }

def HardGateFailure.stored (f : HardGateFailure) : HardGateFailure :=
  { f with detail := redactText f.detail }

/-- The payload as the ledger stores it. -/
def EventPayload.stored : EventPayload → EventPayload
  | .runCreated => .runCreated
  | .statusChanged status => .statusChanged status
  | .requestAccepted goal root budget =>
    .requestAccepted (redactText goal) (redactText root) budget
  | .workspaceSnapshot root n digest => .workspaceSnapshot (redactText root) n (redactText digest)
  | .analysisRequested profile a => .analysisRequested (redactText profile) (redactFields a)
  | .analysisCompleted profile a => .analysisCompleted (redactText profile) (redactFields a)
  | .contractProposed id v objective scope deliverables constraints tools ws budget n criteria
      open_ =>
    .contractProposed (redactText id) v (redactText objective) (redactText scope)
      (redactTexts deliverables) (redactTexts constraints) (redactTexts tools) (redactText ws)
      budget n (criteria.map (·.stored)) (redactTexts open_)
  | .contractValidated id v => .contractValidated (redactText id) v
  | .contractAmended id v reason => .contractAmended (redactText id) v (redactText reason)
  | .graphProposed v errors rejected => .graphProposed v (redactTexts errors) rejected
  | .graphAccepted v cells edges milestones =>
    .graphAccepted v (cells.map (·.stored)) (edges.map (·.stored)) (redactTexts milestones)
  | .cellCreated cell => .cellCreated cell.stored
  | .cellAdvanced id status => .cellAdvanced (redactText id) status
  | .routeSelected id profile reason =>
    .routeSelected (redactText id) (redactText profile) (redactText reason)
  | .cellStarted id profile => .cellStarted (redactText id) (redactText profile)
  | .cellProgress id step attempt turn detail =>
    .cellProgress (redactText id) (redactText step) attempt turn (redactFields detail)
  | .cellCompleted id ref usage => .cellCompleted (redactText id) ref.stored usage
  | .cellFailed id error kind => .cellFailed (redactText id) (redactText error) (redactText kind)
  | .claimRecorded id claim digest =>
    .claimRecorded (redactText id) (redactText claim) (redactText digest)
  | .artifactStored ref => .artifactStored ref.stored
  | .budgetUpdated usage exhausted => .budgetUpdated usage exhausted
  | .verificationCheck i kind passed detail digest =>
    .verificationCheck i kind passed (redactText detail) (redactText digest)
  | .evidenceRecorded o records failures usage tools disagreement =>
    .evidenceRecorded o (records.map (·.stored)) (failures.map (·.stored)) usage
      (redactTexts tools) disagreement
  | .recoveryTransition id failure action attempt detail =>
    .recoveryTransition (redactText id) failure action attempt (redactText detail)
  | .outcomeEmitted o reason => .outcomeEmitted o (redactText reason)
  | .stallDetected id => .stallDetected (redactText id)

end Northstack
