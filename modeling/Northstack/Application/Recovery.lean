import Northstack.Domain.Outcome

/-!
# Failure classification and the recovery ladder

Mirrors application/retry.py and the parts of application/recovery.py the
cell runner calls. The ladder's rung is chosen by how often the attempt's
signature was seen; the counters belong to the policy object, which one
company keeps for all its runs.

**Result.** `nextAction_mem`: every action the policy returns is on the ladder
of the failure's type.
-/
namespace Northstack

inductive WorkerErrorKind where
  | provider | budget | schema | tool | safety | authentication | capability | configuration
  deriving DecidableEq, Repr

/-- `WorkerErrorKind(value)`; `none` where the source raises `ValueError`. -/
def WorkerErrorKind.ofValue (value : String) : Option WorkerErrorKind :=
  if value = "provider" then some .provider
  else if value = "budget" then some .budget
  else if value = "schema" then some .schema
  else if value = "tool" then some .tool
  else if value = "safety" then some .safety
  else if value = "authentication" then some .authentication
  else if value = "capability" then some .capability
  else if value = "configuration" then some .configuration
  else none

/-- `WORKER_ERROR_TO_FAILURE` (retry.py:43-52) -/
def classify : WorkerErrorKind → FailureType
  | .provider => .transient
  | .budget => .budget
  | .schema => .sampling
  | .tool => .capability
  | .safety => .safety
  | .authentication => .specification
  | .capability => .capability
  | .configuration => .specification

/-- `_coerce_error_kind` (cell_runner.py:120-131): the two legacy names and
every unknown one are provider errors. -/
def coerceErrorKind (errorKind : String) : WorkerErrorKind :=
  (WorkerErrorKind.ofValue errorKind).getD .provider

/-- `FailureClassifier.classify` without custom rules. -/
def classifyKind (errorKind : String) : FailureType :=
  match WorkerErrorKind.ofValue errorKind with
  | some kind => classify kind
  | none => .transient

theorem classifyKind_eq (errorKind : String) :
    classifyKind errorKind = classify (coerceErrorKind errorKind) := by
  unfold classifyKind coerceErrorKind
  cases WorkerErrorKind.ofValue errorKind <;> rfl

/-- `RECOVERY_POLICY` (retry.py:79-110) -/
def recoveryPolicy : FailureType → List RecoveryAction
  | .transient => [.backoffRetry, .rerouteEscalate, .terminate]
  | .sampling => [.changedStrategyRetry, .backoffRetry, .abstain]
  | .capability => [.rerouteEscalate, .splitReplan, .contractAmendment, .abstain]
  | .decomposition => [.splitReplan, .contractAmendment, .abstain]
  | .specification => [.contractAmendment, .abstain]
  | .integration => [.splitReplan, .terminate]
  | .safety => [.terminate]
  | .budget => [.scopeReduction, .fail]

/-- `_sig_key`: the parts joined by the unit separator. -/
def sigKey (sig : AttemptSignature) : String :=
  s!"{sig.contractVersion}\x1f{sig.cellId}\x1f{sig.profileName}\x1f{sig.toolPlan}\x1f" ++
    sig.evidenceDigest

/-- `RetryPolicy._seen`: how often each signature was consulted. -/
abbrev Seen := List (String × Nat)

def Seen.count (seen : Seen) (key : String) : Nat := (seen.lookup key).getD 0

/-- `RetryPolicy.next_action`: the action, and the counters after it. -/
def nextAction (seen : Seen) (failure : FailureType) (sig : AttemptSignature) :
    RecoveryAction × Seen :=
  let ladder := recoveryPolicy failure
  let rung := seen.count (sigKey sig)
  (ladder.getD (min rung (ladder.length - 1)) .terminate, (sigKey sig, rung + 1) :: seen)

/-- `RecoveryManager.decide` without an attempt signature (recovery.py:109-158),
as `_handle_cell_failure` calls it. -/
def decideRecovery (errorKind : String) (contractBudget : Budget) (usage : BudgetUsage) :
    RecoveryAction :=
  match classifyKind errorKind with
  | .safety => .terminate
  | .budget =>
    let costHeadroom := match contractBudget.costLimitUsd with
      | none => true
      | some l => Decidable.decide (usage.totalCostUsd < l * 0.5)
    let tokenHeadroom := match contractBudget.tokenLimit with
      | none => true
      | some l => Decidable.decide ((usage.totalTokens : ℚ≥0) < l * 0.5)
    if costHeadroom || tokenHeadroom then .scopeReduction else .fail
  | failure => (recoveryPolicy failure).headD .terminate

theorem recoveryPolicy_ne_nil (failure : FailureType) : recoveryPolicy failure ≠ [] := by
  cases failure <;> simp [recoveryPolicy]

/-- The policy never leaves the ladder of the failure's type. -/
theorem nextAction_mem (seen : Seen) (failure : FailureType) (sig : AttemptSignature) :
    (nextAction seen failure sig).1 ∈ recoveryPolicy failure := by
  have hpos : 0 < (recoveryPolicy failure).length :=
    List.length_pos_iff.mpr (recoveryPolicy_ne_nil failure)
  have hlt : min (seen.count (sigKey sig)) ((recoveryPolicy failure).length - 1) <
      (recoveryPolicy failure).length := by omega
  unfold nextAction
  dsimp only
  rw [List.getD_eq_getElem?_getD, List.getElem?_eq_getElem hlt]
  exact List.getElem_mem hlt

end Northstack
