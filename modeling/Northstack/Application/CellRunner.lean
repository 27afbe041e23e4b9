import Northstack.Application.Worker

/-!
# The per-cell attempt loop

Mirrors `CellRunner.run_cell` (application/cell_runner.py:265-464): route, run
the worker, charge its spend, choose a recovery action, reroute or retry with
the carried conversation, and complete or fail the cell. The script gives one
`Attempt` for each call of the worker.
-/
namespace Northstack

open Coop

/-- What one call of `run_cell` is given; `store` is the artifact store's
content addressing. -/
structure CellInput where
  cell : GraphCell
  contract : WorkContract
  config : NorthStackConfig
  toolDefs : List ToolDefinition
  registry : ToolRegistry
  recalled : String := ""
  userPrompt : String := ""
  estimate : List ModelMessage → Nat
  parse : String → SchemaAnswer
  store : String → ArtifactRef

namespace CellRunner

variable (c : CellInput)

/-- `needs` (cell_runner.py:280) -/
def needs : List Capability := if c.toolDefs = [] then [] else [.toolUse]

def workerInput (attempt : Nat) : WorkerInput where
  cell := c.cell
  attempt := attempt
  toolDefs := c.toolDefs
  registry := c.registry
  systemPrompt := c.recalled
  userPrompt := c.userPrompt
  outputSchema := c.cell.outputSchema.length ≠ 0
  estimate := c.estimate
  parse := c.parse

/-- `worker.run` under `except Exception` (cell_runner.py:305-336): the result,
or the message of the exception it raised. -/
def runAttempt (a : Attempt) (n : Nat) (resume : Option (List ModelMessage)) :
    CellTask (Except String WorkerResult) :=
  tryCatch (Worker.run (workerInput c n) a resume >>= fun r => pure (.ok r)) fun
    | .exception _ message => pure (.error message)
    | .cancelled note => throw (.cancelled note)

def WorkerResult.spend (r : WorkerResult) : Spend where
  inputTokens := r.totalInputTokens
  outputTokens := r.totalOutputTokens
  costUsd := r.totalCostUsd
  calls := r.apiCalls

/-- The failure of an attempt: its kind, its detail, and the conversation the
next attempt resumes from. -/
structure AttemptFailure where
  kind : String
  detail : String
  carried : Option (List ModelMessage)

/-- `error_kind`, `error_detail` and `carried` of a failed result, `usage` being
the run's after the attempt was charged (cell_runner.py:345-350, 383). -/
def resultFailure (r : WorkerResult) (usage : BudgetUsage) : AttemptFailure :=
  let carried := if r.messages = [] then none else some r.messages
  if c.contract.budget.maxCalls ≠ 0 ∧ c.contract.budget.maxCalls ≤ usage.totalCalls then
    { kind := "budget", detail := "API call limit exceeded", carried := carried }
  else { kind := r.errorKind, detail := r.error, carried := carried }

/-- `_emit_recovery` (cell_runner.py:526-546) -/
def emitRecovery (f : AttemptFailure) (action : RecoveryAction) (n : Nat) : CellTask Unit :=
  emitCell (.recoveryTransition c.cell.id (classifyKind f.kind) action n
    (PyText.slice 2000 f.detail))

/-- `_tool_plan_fingerprint`: an f-string of the enum writes its qualified name. -/
def toolPlanFingerprint (cell : GraphCell) (decision : RouteDecision) : String :=
  match cell.mode with
  | .readOnly => s!"CellMode.READ_ONLY:{decision.selectedProfile}"
  | .mutating => s!"CellMode.MUTATING:{decision.selectedProfile}"

/-- The signature of an attempt (cell_runner.py:506-512). -/
def signature (decision : RouteDecision) : AttemptSignature where
  contractVersion := c.contract.version
  cellId := c.cell.id
  profileName := decision.selectedProfile
  toolPlan := toolPlanFingerprint c.cell decision

/-- `_handle_cell_failure` (cell_runner.py:466-519) -/
def handleCellFailure (f : AttemptFailure) (decision : RouteDecision) (n : Nat) :
    CellTask RecoveryAction :=
  match classify (coerceErrorKind f.kind) with
  | .safety => do
    emitRecovery c f .terminate n
    pure .terminate
  | .budget => do
    let s ← Co.get
    let action := decideRecovery f.kind c.contract.budget s.usage
    emitRecovery c f action n
    pure action
  | failure => do
    let s ← Co.get
    let action := (nextAction s.shared.seen failure (signature c decision)).1
    Co.modify (St.decide failure (signature c decision))
    emitRecovery c f action n
    pure action

/-- The action for a failed attempt, capped by `max_retries`
(cell_runner.py:352-379). -/
def chooseAction (f : AttemptFailure) (decision : RouteDecision) (n : Nat) :
    CellTask RecoveryAction :=
  if c.contract.budget.maxRetries ≠ 0 ∧ c.contract.budget.maxRetries ≤ n then do
    emitRecovery c f .terminate n
    pure .terminate
  else handleCellFailure c f decision n

/-- `_RETRY_ACTIONS` and `_ABSTAIN_ACTIONS` -/
def isRetry : RecoveryAction → Bool
  | .backoffRetry | .changedStrategyRetry => true
  | _ => false

def isAbstain : RecoveryAction → Bool
  | .abstain | .contractAmendment | .splitReplan | .scopeReduction => true
  | _ => false

/-- The end of a cell that gives up (cell_runner.py:420-441). -/
def failCell (f : AttemptFailure) (effectiveError : String) (action : RecoveryAction) :
    CellTask CellResult := do
  emitCell (.cellFailed c.cell.id (PyText.slice 500 effectiveError) f.kind)
  pure (.outcome (if isAbstain action then .abstained else .failed))

/-- What follows a failed attempt (cell_runner.py:352-441): the cell's result,
or the route and the conversation of the next attempt. `n` is the failed
attempt's number. -/
def recover (f : AttemptFailure) (decision : RouteDecision) (n : Nat) :
    CellTask (CellResult ⊕ RouteDecision) := do
  let action ← chooseAction c f decision n
  if isRetry action then do
    Co.suspend
    pure (.inr decision)
  else if action = .rerouteEscalate then do
    let s ← Co.get
    let next := route c.config c.cell (some (s.usage.remaining c.contract.budget))
      [decision.selectedProfile] (needs c)
    if next.abstained = false then do
      emitCell (.routeSelected c.cell.id next.selectedProfile s!"recovery reroute: {next.reason}")
      pure (.inr next)
    else if classify (coerceErrorKind f.kind) = .transient then do
      emitRecovery c f .backoffRetry (n + 1)
      Co.suspend
      pure (.inr decision)
    else do
      let r ← failCell c f s!"{next.reason} (original failure: {f.detail})" action
      pure (.inl r)
  else do
    let r ← failCell c f f.detail action
    pure (.inl r)

/-- `usage - usage_before` -/
def spendSince (before after : BudgetUsage) : Spend where
  inputTokens := after.totalInputTokens - before.totalInputTokens
  outputTokens := after.totalOutputTokens - before.totalOutputTokens
  costUsd := after.totalCostUsd - before.totalCostUsd
  calls := after.totalCalls - before.totalCalls

/-- The end of a cell that succeeded (cell_runner.py:443-464). -/
def completeCell (before : BudgetUsage) (r : WorkerResult) : CellTask CellResult := do
  let ref := c.store (if r.text = "" then "{}" else r.text)
  Co.suspend
  Co.modify (St.clearCheckpoint c.cell.id)
  Co.modify
    (St.finishCell c.cell.id (toolNames r.messages) c.cell.acceptanceCriterionIndices ref.digest)
  let s ← Co.get
  emitCell (.cellCompleted c.cell.id ref (spendSince before s.usage))
  pure .completed

/-- The `while True` loop (cell_runner.py:300-441), one attempt of the script
after another. -/
def attempts (before : BudgetUsage) :
    List Attempt → Nat → RouteDecision → Option (List ModelMessage) → CellTask CellResult
  | [], n, _, _ => do
    Co.modify (St.note (.called c.cell.id n))
    .block fun e => .done (.error e)
  | a :: as, n, decision, resume => do
    Co.modify (St.note (.called c.cell.id n))
    let attempt ← runAttempt c a n resume
    match attempt with
    | .ok r => do
      Co.modify (St.charge c.cell.id n (WorkerResult.spend r))
      if r.ok then completeCell c before r
      else do
        let s ← Co.get
        let f := resultFailure c r s.usage
        let next ← recover c f decision n
        next.elim pure fun decision => do
          Co.modify (St.pass c.cell.id n (.retried (some r.text)) (f.carried.getD []))
          attempts before as (n + 1) decision f.carried
    | .error message => do
      let f : AttemptFailure := { kind := "provider", detail := message, carried := none }
      let next ← recover c f decision n
      next.elim pure fun decision => do
        Co.modify (St.pass c.cell.id n (.retried none) [])
        attempts before as (n + 1) decision none

/-- `CellRunner.run_cell` (cell_runner.py:265-464) -/
def runCell (script : List Attempt) : CellTask CellResult := do
  Co.modify (St.note (.entered c.cell.id))
  let s ← Co.get
  let decision := route c.config c.cell none [] (needs c)
  emitCell (.routeSelected c.cell.id decision.selectedProfile decision.reason)
  if decision.abstained then do
    emitCell (.cellFailed c.cell.id decision.reason "routing")
    pure (.outcome .abstained)
  else do
    emitCell (.cellStarted c.cell.id decision.selectedProfile)
    let s' ← Co.get
    let resume := s'.shared.checkpoints.lookup c.cell.id
    Co.modify (St.noteRestored c.cell.id resume)
    attempts c s.usage script 0 decision resume

theorem resultFailure_carried {c : CellInput} (r : WorkerResult) (usage : BudgetUsage) :
    (resultFailure c r usage).carried = if r.messages = [] then none else some r.messages := by
  unfold resultFailure
  dsimp only
  split <;> rfl

theorem resultFailure_kind {c : CellInput} {r : WorkerResult} {usage : BudgetUsage}
    (h : (resultFailure c r usage).kind ≠ "budget") : r.errorKind ≠ "budget" := by
  unfold resultFailure at h
  dsimp only at h
  split at h
  · exact absurd rfl h
  · exact h

/-! ## The actions that go on -/

/-- The actions behind which another attempt may follow. -/
def Continues (action : RecoveryAction) : Prop := isRetry action = true ∨ action = .rerouteEscalate

instance (action : RecoveryAction) : Decidable (Continues action) :=
  inferInstanceAs (Decidable (_ ∨ _))

/-- An exhausted budget ends the cell. -/
theorem decideRecovery_stops {kind : String} (h : classify (coerceErrorKind kind) = .budget)
    (b : Budget) (u : BudgetUsage) : ¬ Continues (decideRecovery kind b u) := by
  unfold decideRecovery
  rw [classifyKind_eq, h]
  dsimp only
  generalize (_ || _) = headroom
  cases headroom <;> decide

end CellRunner
end Northstack
