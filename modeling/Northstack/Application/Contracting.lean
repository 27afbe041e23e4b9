import Northstack.Application.Routing
import Northstack.Application.Run

/-!
# Compiling a request into a contract

Mirrors `ContractCompiler.compile`, `DeterministicSynthesizer.synthesize` and
`ContractValidator.validate` (application/contracting.py). The three analyses,
as they stand after the criteria were normalised and guarded, the falsifier's
answer, what their completions cost and the contract's clock-made id come from
the environment.

**Result.** `synthesize_budget`: the contract's budget is the request's when it
has one, the configured default otherwise.
-/
namespace Northstack

open Coop

/-- What the three analyses found (contracting.py:117-160), their criteria
already parsed. -/
structure Analyses where
  scope : String := ""
  deliverables : List String := []
  constraints : List String := []
  assumptions : List String := []
  ambiguities : List String := []
  conventions : List String := []
  workspaceScope : String := ""
  scanDigest : String := ""
  criteria : List AcceptanceCriterion := []
  acceptanceAmbiguities : List String := []
  recommendedAbstentionThreshold : ℚ≥0 := 0.5

structure ContractCompiler where
  analyses : ProjectRequest → Analyses := fun _ => {}
  contractId : String := "wc-0"
  falsifier : WorkContract → Option String := fun _ => none
  analysisSpends : List Spend := []
  falsifierSpends : List Spend := []
  toolRegistry : List String := []
  commandNames : List String := []

namespace ContractCompiler

/-- The budget a contract gets (contracting.py:774-778). -/
def contractBudget (config : NorthStackConfig) (request : ProjectRequest) : Budget :=
  request.budget.getD config.run.defaultBudget

/-- `DeterministicSynthesizer.synthesize` (contracting.py:546-589) -/
def synthesize (contractId : String) (request : ProjectRequest) (a : Analyses) (budget : Budget) :
    WorkContract where
  id := contractId
  version := 1
  objective := request.goal
  scope := a.scope
  deliverables := if a.deliverables = [] then ["deliverable_1"] else a.deliverables
  constraints := a.constraints ++ a.conventions
  assumptions := a.assumptions
  allowedTools := request.toolPolicy
  workspaceScope := if a.workspaceScope = "" then request.workspaceRoot else a.workspaceScope
  budget := budget
  acceptanceCriteria := match a.criteria with
    | [] => [{ description := "default quality rubric", spec := .softRubric "" }]
    | cs => cs
  unresolvedAmbiguity := a.ambiguities ++ a.acceptanceAmbiguities
  abstentionThreshold := a.recommendedAbstentionThreshold

/-- The command names a contract's criteria use. -/
def usedCommands (contract : WorkContract) : List String :=
  contract.acceptanceCriteria.filterMap fun c => match c.spec with
    | .command name _ => some name
    | _ => none

def limitText (l : Option ℚ≥0) : String :=
  match l with
  | none => "None"
  | some q => String.ofList (JsonText.floatText (.finite false q))

def tokenText : Option Nat → String
  | none => "None"
  | some n => toString n

/-- Whether a contract's limit is looser than the request's. -/
def exceedsLimit {α : Type} [LinearOrder α] (requested proposed : Option α) : Bool :=
  requested.any fun r => match proposed with
    | none => true
    | some c => r < c

/-- `ContractValidator.validate` (contracting.py:662-727). A criterion's kind is
one of the closed enumeration, so the kind check has no counterpart. -/
def validate (c : ContractCompiler) (contract : WorkContract) (request : ProjectRequest) :
    List String :=
  let unknown := sortStrings (contract.allowedTools.dedup.filter (· ∉ c.toolRegistry))
  let unknownCmds := sortStrings ((usedCommands contract).dedup.filter (· ∉ c.commandNames))
  (if PyText.strip contract.objective = "" then ["objective must be nonempty"] else []) ++
  (if contract.deliverables = [] then ["deliverables must be nonempty"] else []) ++
  (if contract.deliverables ≠ [] ∧ contract.acceptanceCriteria.length = 0 then
    ["deliverables exist but no acceptance criteria defined"] else []) ++
  (if c.toolRegistry ≠ [] ∧ unknown ≠ [] then
    [s!"allowed_tools references unknown tools: {PyText.reprList unknown}"] else []) ++
  (if c.commandNames ≠ [] ∧ unknownCmds ≠ [] then
    [s!"command criteria reference unknown command profiles: {PyText.reprList unknownCmds}"]
    else []) ++
  (match request.budget with
    | none => []
    | some rb =>
      (if exceedsLimit rb.tokenLimit contract.budget.tokenLimit then
        [s!"contract token_limit {tokenText contract.budget.tokenLimit} exceeds request " ++
          tokenText rb.tokenLimit] else []) ++
      (if exceedsLimit rb.costLimitUsd contract.budget.costLimitUsd then
        [s!"contract cost_limit_usd {limitText contract.budget.costLimitUsd} exceeds request " ++
          limitText rb.costLimitUsd] else [])) ++
  (if contract.unresolvedAmbiguity ≠ [] ∧ contract.abstentionThreshold = 0 then
    ["unresolved ambiguities exist but abstention_threshold is 0; set threshold > 0 or resolve " ++
      "ambiguities"] else [])

/-- `_pick_profile(config, "worker").name` -/
def pickProfile (config : NorthStackConfig) : String :=
  match config.profiles with
  | [] => "default"
  | p :: ps => ((p :: ps).find? fun q => .worker ∈ q.roles).getD p |>.name

/-- The events of `_RESUME_REPLAY_KINDS` a compilation appends, in order. -/
def analysisNames : List String := ["requirements", "repo_constraints", "acceptance"]

def requestedEvents (config : NorthStackConfig) : List EventPayload :=
  analysisNames.map fun name =>
    .analysisRequested (pickProfile config) [("name", .str name)]

/-- Only the repository analysis has a scan digest. -/
def completedEvents (config : NorthStackConfig) (a : Analyses) : List EventPayload :=
  analysisNames.map fun name =>
    .analysisCompleted (pickProfile config) ([("name", .str name)] ++
      if name = "repo_constraints" ∧ a.scanDigest ≠ "" then [("scan_digest", .str a.scanDigest)]
      else [])

def proposedEvent (contract : WorkContract) : EventPayload :=
  .contractProposed contract.id contract.version contract.objective contract.scope
    contract.deliverables contract.constraints contract.allowedTools contract.workspaceScope
    contract.budget contract.acceptanceCriteria.length contract.acceptanceCriteria
    contract.unresolvedAmbiguity

/-- Several appends, one after another. -/
def emitAll : List EventPayload → RunTask Unit
  | [] => pure ()
  | p :: ps => do
    emit p
    emitAll ps

/-- `ContractCompiler.compile` (contracting.py:758-863) -/
def compile (c : ContractCompiler) (config : NorthStackConfig) (request : ProjectRequest) :
    RunTask WorkContract := do
  emitAll (requestedEvents config)
  consult c.analysisSpends
  let a := c.analyses request
  emitAll (completedEvents config a)
  let contract := synthesize c.contractId request a (contractBudget config request)
  emit (proposedEvent contract)
  consult c.falsifierSpends
  let counter := (c.falsifier contract).getD ""
  if counter ≠ "" then
    throw (.exception .valueError s!"Falsifier found counter-interpretation: {counter}")
  else do
    let errors := validate c contract request
    if errors ≠ [] then
      throw (.exception .valueError
        ("Contract validation failed: " ++ PyText.join "; " errors))
    else do
      emit (.contractValidated contract.id contract.version)
      pure contract

/-- The contract's budget is the request's, or the configured default. -/
theorem synthesize_budget (id : String) (config : NorthStackConfig) (request : ProjectRequest)
    (a : Analyses) :
    (synthesize id request a (contractBudget config request)).budget =
      request.budget.getD config.run.defaultBudget := rfl

end ContractCompiler
end Northstack
