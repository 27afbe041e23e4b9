import Northstack.Domain.Contract
import Northstack.Domain.Status

/-!
# Outcomes, evidence and the recovery vocabulary

Mirrors domain/outcome.py and domain/request.py.
-/
namespace Northstack

inductive RunOutcome where
  | verified | abstained | failed
  deriving DecidableEq, Repr

/-- `_OUTCOME_TO_STATUS` (orchestrator.py:80-84) -/
def RunOutcome.toStatus : RunOutcome → RunStatus
  | .verified => .verified
  | .abstained => .abstained
  | .failed => .failed

@[simp] theorem RunOutcome.toStatus_isTerminal (o : RunOutcome) :
    o.toStatus.isTerminal = true := by
  cases o <;> rfl

theorem RunOutcome.toStatus_injective {o o' : RunOutcome} (h : o.toStatus = o'.toStatus) :
    o = o' := by
  cases o <;> cases o' <;> first | rfl | cases h

inductive FailureType where
  | transient | sampling | capability | decomposition | specification | integration | safety
  | budget
  deriving DecidableEq, Repr

inductive RecoveryAction where
  | backoffRetry | changedStrategyRetry | rerouteEscalate | splitReplan | contractAmendment
  | abstain | terminate | scopeReduction | fail
  deriving DecidableEq, Repr

def FailureType.value : FailureType → String
  | .transient => "transient"
  | .sampling => "sampling"
  | .capability => "capability"
  | .decomposition => "decomposition"
  | .specification => "specification"
  | .integration => "integration"
  | .safety => "safety"
  | .budget => "budget"

def RecoveryAction.value : RecoveryAction → String
  | .backoffRetry => "backoff_retry"
  | .changedStrategyRetry => "changed_strategy_retry"
  | .rerouteEscalate => "reroute_escalate"
  | .splitReplan => "split_replan"
  | .contractAmendment => "contract_amendment"
  | .abstain => "abstain"
  | .terminate => "terminate"
  | .scopeReduction => "scope_reduction"
  | .fail => "fail"

/-- Content-addressed blob reference. -/
structure ArtifactRef where
  digest : String
  mediaType : String
  sizeBytes : Nat

structure EvidenceRecord where
  criterionIndex : Nat
  kind : CriterionKind
  passed : Bool
  evidenceArtifactDigest : String := ""
  detail : String := ""

structure HardGateFailure where
  index : Nat
  detail : String := ""

/-- `EvidenceManifest` (outcome.py:89-112) -/
structure EvidenceManifest where
  outcome : RunOutcome
  records : List EvidenceRecord := []
  toolsUsed : List String := []
  toolsAudit : List String := []
  usage : BudgetUsage := {}
  hardGateFailures : List HardGateFailure := []
  softVerdict : String := ""
  materialDisagreement : Bool := false

/-- `AttemptSignature` (outcome.py:115-131) -/
structure AttemptSignature where
  contractVersion : Nat
  cellId : String
  profileName : String
  strategyId : String := ""
  toolPlan : String := ""
  evidenceDigest : String := ""

/-- `CalibrationRecord` (outcome.py:134-154) -/
structure CalibrationRecord where
  criterionIndex : Nat
  reviewerAgreementRate : ℚ≥0 := 0.5
  minReviewers : Nat := 2
  agreementThreshold : ℚ≥0 := 0.67
  sampleCount : Nat := 0

/-- `ProjectRequest` (request.py:16-32) -/
structure ProjectRequest where
  goal : String
  workspaceRoot : String
  constraints : List String := []
  budget : Option Budget := none
  toolPolicy : List String := []
  maxWaves : Nat := 3

end Northstack
