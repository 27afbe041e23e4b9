import Northstack.Application.CellRunner
import Northstack.Application.Contracting
import Northstack.Application.HardGates
import Northstack.Application.Planning
import Northstack.Application.Scheduling
import Northstack.Application.SoftRubric

/-!
# The company: run, resume, waves, verification and the failure path

Mirrors application/orchestrator.py. `Company` is the composition root together
with the world's answers to one run: the planner's plan, each cell's script of
attempts, the file system's answers to the hard gates, the reviewers' replies.
What remains open is the order in which awaits end and where an exception or a
cancellation arrives; that is the list of inputs a run consumes.

`run_async` and `resume_async` repeat the same code from the first wave on; it
is written once here (`execute`, `handled`).
-/
namespace Northstack

open Coop

/-- The parts of a company and the world's answers during one run. `replies`
gives, for each reviewer of the panel, the gateway's text for a criterion and
its evidence, `none` if the gateway raised; `reviewSpends` what the completions
for a criterion cost, by the number of reviewers still behind. -/
structure Company where
  config : NorthStackConfig := {}
  compiler : ContractCompiler := {}
  planner : WorkContract → GraphVersion ⊕ GraphCell := fun c => .inl (GraphPlanner.plan c "run")
  plannerSpends : List Spend := []
  toolRegistry : ToolRegistry := []
  gate : Nat → AcceptanceCriterion → String → GateAnswer := fun _ _ _ => { passed := true }
  replies : List (Nat → String → Option String) := []
  reviewSpends : Nat → Nat → List Spend := fun _ _ => []
  validateVerdict : List (String × Json) → Option ReviewVerdict := fun _ => none
  calibration : List CalibrationRecord := []
  readByDigest : String → String := fun _ => ""
  script : GraphCell → List Attempt := fun _ => []
  recalled : GraphCell → String := fun _ => ""
  userPrompt : GraphCell → String := fun _ => ""
  estimate : List ModelMessage → Nat := fun _ => 0
  parse : GraphCell → String → SchemaAnswer := fun _ _ => .value false
  store : String → ArtifactRef := fun _ => { digest := "", mediaType := "", sizeBytes := 0 }
  hasGateway : Bool := false

/-- What the waves and the verification work on. -/
structure Job where
  contract : WorkContract
  graph : GraphVersion
  maxWaves : Nat
  /-- The limits of the run's budget authority. -/
  limits : Budget
  initiallyCompleted : List String := []
  usage : BudgetUsage := {}
  evidenceDigests : List (Int × String) := []

/-- A run is started on a request, or on the events of a source run. -/
inductive Launch where
  | fresh (request : ProjectRequest)
  | resume (source : List EventPayload)

/-- The events a launch re-reads. -/
def Launch.source : Launch → List EventPayload
  | .fresh _ => []
  | .resume source => source

/-- What a run takes over of what was kept: the record of executed tools is its
own and its sources'. -/
def Launch.inherit : Launch → Shared → Shared
  | .fresh _, h => { h with executed := [] }
  | .resume _, h => h

namespace Company

variable (co : Company)

/-! ## Statuses and outcomes -/

/-- `_emit_status` (orchestrator.py:841-844) -/
def emitStatus (status current : RunStatus) : RunTask Unit :=
  if current.canTransition status then emit (.statusChanged status)
  else throw (.exception .valueError
    s!"Illegal status transition: {current.value} -> {status.value}")

/-- `_emit_status` from the local status, which follows it. -/
def advance (status : RunStatus) : RunTask Unit := do
  let s ← Main.get
  emitStatus status s.currentStatus
  Main.modify fun s => { s with currentStatus := status }

/-- `_emit_terminal_outcome` (orchestrator.py:875-880) and, behind it, the two
lines that set `terminal_outcome` and raise the cancellation. -/
def emitTerminalOutcome (o : RunOutcome) (reason : String) : RunTask Unit := do
  let (ended, cancelled) ← appendShielded true (.outcomeEmitted o reason)
  match ended with
  | .error e => throw e
  | .ok () => do
    Main.modify fun s => { s with terminalOutcome := some o }
    match cancelled with
    | some e => throw e
    | none => pure ()

/-- What `persist` swallows (orchestrator.py:867). -/
def swallowed : Exc → Bool
  | .exception .valueError _ | .exception .keyError _ | .exception .osError _
  | .exception .runtimeError _ | .exception .sqliteError _ => true
  | _ => false

/-- The end of `persist` after an append that raised. -/
def persistError (e : Exc) (cancelled : Option Exc) : RunTask (Option Exc) :=
  if swallowed e then pure cancelled else throw e

/-- The failure path's status. An illegal transition raises a `ValueError`,
which is swallowed. -/
def emitFailureStatus (current : RunStatus) (outcome : RunOutcome) (cancelled : Option Exc) :
    RunTask (Option Exc) :=
  if current.canTransition outcome.toStatus then do
    let (ended, cancelled') ← appendShielded false (.statusChanged outcome.toStatus)
    match ended with
    | .error e => persistError e (cancelled'.or cancelled)
    | .ok () => pure (cancelled'.or cancelled)
  else pure cancelled

/-- `_emit_failure` (orchestrator.py:846-870) -/
def emitFailure (reason : String) : RunTask (Option Exc) := do
  let s ← Main.get
  let outcome := s.terminalOutcome.getD .failed
  let (ended, cancelled) ← match s.terminalOutcome with
    | none => appendShielded false (.outcomeEmitted outcome reason)
    | some _ => pure (.ok (), none)
  match ended with
  | .error e => persistError e cancelled
  | .ok () => emitFailureStatus s.currentStatus outcome cancelled

/-! ## Verification -/

/-- One criterion's gathered check (hard_gates.py:181-202). -/
def checkGate (evidence : List (Int × String)) (toolsUsed : List String) (i : Nat)
    (c : AcceptanceCriterion) : RunTask HardCheckResult := do
  let w ← Main.await
  match w with
  | .resume => pure (checkCriterion co.gate c i ((evidence.lookup (i : Int)).getD "") toolsUsed)
  | .raise (.exception kind message) => pure (crashedCheck c i kind.name message)
  | .raise (.cancelled note) => throw (.cancelled note)

/-- `HardGateVerifier.verify` (hard_gates.py:165-204), criterion after criterion. -/
def verifyGates (evidence : List (Int × String)) (toolsUsed : List String) :
    Nat → List AcceptanceCriterion → RunTask (List HardCheckResult)
  | _, [] => pure []
  | i, c :: cs => do
    let r ← checkGate co evidence toolsUsed i c
    let rs ← verifyGates evidence toolsUsed (i + 1) cs
    pure (r :: rs)

/-- `_resolve_evidence_contents` (orchestrator.py:778-796) -/
def resolveEvidenceContents : List (Int × String) → RunTask (List (Int × String))
  | [] => pure []
  | (i, digest) :: rest => do
    Main.suspend
    let contents ← resolveEvidenceContents rest
    pure ((i, co.readByDigest digest) :: contents)

/-- `ModelBackedReviewer.review` (model_review.py:122-169): a gateway that
raises fails closed, a cancellation passes through. -/
def review (reply : Nat → String → Option String) (behind i : Nat) (content : String) :
    RunTask ReviewVerdict := do
  let w ← Main.await
  Main.modify (St.note (.consulted (co.reviewSpends i behind)))
  match w with
  | .raise (.cancelled note) => throw (.cancelled note)
  | .raise (.exception _ _) => pure { passed := false }
  | .resume =>
    match reviewReply co.validateVerdict (reply i content) with
    | .ok verdict => pure verdict
    | .error _ => throw (.exception .valueError
        "Exceeds the limit (4300 digits) for integer string conversion")

/-- The panel's verdicts on one criterion (soft_rubric.py:130-139). -/
def reviewPanel (i : Nat) (content : String) :
    List (Nat → String → Option String) → RunTask (List ReviewVerdict)
  | [] => pure []
  | reply :: replies => do
    let v ← review co reply replies.length i content
    let vs ← reviewPanel i content replies
    pure (v :: vs)

/-- The loop over the soft criteria (soft_rubric.py:128-152): the verdicts and
whether any of them was not accepted. -/
def checkSoft (contents : List (Int × String)) : List Nat → RunTask (List (Int × Bool) × Bool)
  | [] => pure ([], false)
  | i :: is => do
    let verdicts ← reviewPanel co i ((contents.lookup (i : Int)).getD "") co.replies
    Main.modify (St.note (.reviewed i verdicts))
    let ok := accepted co.calibration co.replies.length i verdicts
    let (rest, disagreement) ← checkSoft contents is
    pure (((i : Int), ok) :: rest, !ok || disagreement)

/-- `SoftRubricChecker.check` (soft_rubric.py:103-153) -/
def softCheck (contract : WorkContract) (contents : List (Int × String)) :
    RunTask (List (Int × Bool) × Bool) :=
  let indices := ReleaseLaw.softIndices 0 contract.acceptanceCriteria
  if co.replies.length < minBlindedReviewers then
    pure (indices.map fun i => ((i : Int), false), indices ≠ [])
  else checkSoft co contents indices

def evidenceRecord (r : HardCheckResult) : EvidenceRecord where
  criterionIndex := r.criterionIndex
  kind := r.kind
  passed := r.passed
  evidenceArtifactDigest := match r.evidenceRef with
    | some ref => ref.digest
    | none => ""
  detail := r.detail

/-- The payload `_emit_evidence` builds (orchestrator.py:798-839). -/
def evidencePayload (verdict : Verdict) (hard : List HardCheckResult) (soft : SoftReview)
    (usage : BudgetUsage) (toolsUsed : List String) : EventPayload :=
  .evidenceRecorded verdict.outcome (hard.map evidenceRecord)
    ((hard.filter fun r => !r.passed && r.kind ≠ .softRubric).map fun r =>
      { index := r.criterionIndex, detail := r.detail })
    usage toolsUsed soft.materialDisagreement

/-- `_verify_and_finish` up to its verdict (orchestrator.py:392-420). -/
def verify (contract : WorkContract) : RunTask (Verdict × List HardCheckResult × SoftReview) := do
  let s ← Main.get
  emit (.budgetUpdated s.usage false)
  emitStatus .verifying s.currentStatus
  Main.modify (St.note (.audited s.toolsUsed))
  let hard ← verifyGates co s.evidenceDigests s.toolsUsed 0 contract.acceptanceCriteria
  let contents ← resolveEvidenceContents co s.evidenceDigests
  let (verdicts, disagreement) ← softCheck co contract contents
  let soft : SoftReview := { verdicts := verdicts, materialDisagreement := disagreement }
  pure (ReleaseLaw.decide contract hard (some soft) s.usage s.toolsUsed, hard, soft)

/-- `_verify_and_finish` and the status behind it, which is checked against
VERIFYING while the local status stays behind (orchestrator.py:345-352, 383-431). -/
def verifyAndFinish (contract : WorkContract) : RunTask RunOutcome := do
  let (verdict, hard, soft) ← verify co contract
  let s ← Main.get
  emit (evidencePayload verdict hard soft s.usage s.toolsUsed)
  emitTerminalOutcome verdict.outcome verdict.reason
  emitStatus verdict.outcome.toStatus .verifying
  pure verdict.outcome

/-! ## The short circuit -/

def advanceAll : List RunStatus → RunTask Unit
  | [] => pure ()
  | status :: rest => do
    advance status
    advanceAll rest

def shortCircuitReason : String := "cell short-circuited the run before verification"

/-- A cell, a stall or the budget ended the waves (orchestrator.py:317-343). -/
def shortCircuit (o : RunOutcome) : RunTask RunOutcome := do
  let s ← Main.get
  emit (evidencePayload { outcome := o, reason := shortCircuitReason } [] {} s.usage s.toolsUsed)
  emitTerminalOutcome o shortCircuitReason
  let s ← Main.get
  match s.currentStatus.route o.toStatus with
  | some path => advanceAll path
  | none => throw (.exception .valueError
      s!"No legal transition path: {s.currentStatus.value} -> {o.toStatus.value}")
  pure o

/-! ## Waves -/

/-- `_build_tool_defs` (orchestrator.py:755-776) -/
def buildToolDefs (contract : WorkContract) : List ToolDefinition :=
  let advertised := co.toolRegistry.advertised
  if contract.allowedTools = [] then advertised
  else advertised.filter (·.name ∈ contract.allowedTools)

def cellInput (contract : WorkContract) (cell : GraphCell) : CellInput where
  cell := cell
  contract := contract
  config := co.config
  toolDefs := buildToolDefs co contract
  registry := co.toolRegistry
  recalled := co.recalled cell
  userPrompt := co.userPrompt cell
  estimate := co.estimate
  parse := co.parse cell
  store := co.store

/-- `_run_cell` (orchestrator.py:685-719) -/
def runCell (contract : WorkContract) (cell : GraphCell) : CellTask CellResult :=
  CellRunner.runCell (cellInput co contract cell) (co.script cell)

/-- How the guarded await of the watchdog ends: with the tasks' results, or
because it tripped. -/
inductive Watched (α : Type) where
  | finished (a : α)
  | stalled

/-- A `CancelledError` at the guarded await: the watchdog's own, or another's. -/
def cancelledOrStalled {α : Type} (e : Exc) : RunTask (Watched α) := do
  if ← Main.observe then pure .stalled else throw e

/-- `_run_with_stall_watchdog` around `gather(..., return_exceptions=True)`
(orchestrator.py:721-753). A cancelled group raises once all its cells ended;
the awaiting task may also be cancelled between that moment and its own turn. -/
def watchGroup (cells : List (CellTask CellResult)) :
    RunTask (Watched (List (Except Exc CellResult))) := do
  if ← Main.observe then pure .stalled
  else do
    let (results, cancelRequested) ← Main.gather (.cancelled none) cells
    if cancelRequested then cancelledOrStalled (.cancelled none)
    else do
      let w ← Main.await
      match w with
      | .resume => pure (.finished results)
      | .raise (.cancelled note) => cancelledOrStalled (.cancelled note)
      | .raise e => throw e

/-- `_run_with_stall_watchdog` around one cell: the awaiting task ends as the
cell does, whatever was requested of it. -/
def watchCell (cell : CellTask CellResult) : RunTask (Watched CellResult) := do
  if ← Main.observe then pure .stalled
  else do
    let (results, _) ← Main.gather (.cancelled none) [cell]
    let w ← Main.await
    match w, results with
    | .raise (.cancelled note), _ => cancelledOrStalled (.cancelled note)
    | .raise e, _ => throw e
    | .resume, .ok r :: _ => pure (.finished r)
    | .resume, .error (.cancelled note) :: _ => cancelledOrStalled (.cancelled note)
    | .resume, .error e :: _ => throw e
    | .resume, [] => throw (.exception .other "")

/-- `completed_ids.add` -/
def addCompleted (id : String) (s : St) : St :=
  { s with completedIds := s.completedIds.insert id }

/-- `failed_ids.add` -/
def addFailed (id : String) (s : St) : St := { s with failedIds := s.failedIds.insert id }

/-- The classification of the gathered results (orchestrator.py:648-660): a
`CancelledError` is no `Exception`, so it is taken for a completion. -/
def collect : List (GraphCell × Except Exc CellResult) → RunTask (Option RunOutcome)
  | [] => pure none
  | (cell, result) :: rest => do
    Main.modify (St.note (.collected cell.id result))
    match result with
    | .error (.exception _ _) => do
      Main.modify (addFailed cell.id)
      collect rest
    | .ok (.outcome o) => pure (some o)
    | .ok .completed | .error (.cancelled _) => do
      Main.modify (addCompleted cell.id)
      collect rest

/-- The budget check behind a batch or a mutating cell (orchestrator.py:661-663,
681-683). -/
def checkBudget : RunTask (Option RunOutcome) := do
  let s ← Main.get
  Main.modify (St.note (.boundary s.usage))
  if s.auth.exhausted then do
    emit (.budgetUpdated s.usage true)
    pure (some .abstained)
  else pure none

/-- The read-only batch of a wave (orchestrator.py:619-663). -/
def runReadOnly (contract : WorkContract) : List GraphCell → RunTask (Option RunOutcome)
  | [] => pure none
  | cell :: cells => do
    let watched ← watchGroup ((cell :: cells).map (runCell co contract))
    match watched with
    | .stalled => do
      emit (.stallDetected "")
      pure (some .abstained)
    | .finished results => do
      let o ← collect ((cell :: cells).zip results)
      match o with
      | some o => pure (some o)
      | none => checkBudget

/-- The mutating cells of a wave, one after another (orchestrator.py:665-683). -/
def runMutating (contract : WorkContract) : List GraphCell → RunTask (Option RunOutcome)
  | [] => pure none
  | cell :: cells => do
    let watched ← watchCell (runCell co contract cell)
    match watched with
    | .stalled => do
      emit (.stallDetected cell.id)
      pure (some .abstained)
    | .finished (.outcome o) => do
      Main.modify (St.note (.collected cell.id (.ok (.outcome o))))
      pure (some o)
    | .finished .completed => do
      Main.modify (St.note (.collected cell.id (.ok .completed)))
      Main.modify (addCompleted cell.id)
      let o ← checkBudget
      match o with
      | some o => pure (some o)
      | none => runMutating contract cells

/-- `_execute_cells` (orchestrator.py:602-683); the argument counts the waves
that are left. -/
def executeCells (job : Job) : Nat → RunTask (Option RunOutcome)
  | 0 => do
    let s ← Main.get
    pure (if s.completedIds.length ≠ job.graph.cells.length then some .failed else none)
  | n + 1 => do
    let s ← Main.get
    let ready := readyCells job.graph (some s.completedIds) (some s.failedIds)
    if ready.isEmpty then
      pure (if s.failedIds = [] ∧ s.completedIds.length = job.graph.cells.length then none
        else some .failed)
    else do
      Main.modify (St.note (.round (ready.map (·.id))))
      let o ← runReadOnly co job.contract (ready.filter (·.mode ≠ .mutating))
      match o with
      | some o => pure (some o)
      | none => do
        let o ← runMutating co job.contract (ready.filter (·.mode = .mutating))
        match o with
        | some o => pure (some o)
        | none => executeCells job n

/-- From the first wave to the run's result (orchestrator.py:303-352, 536-585). -/
def execute (job : Job) : RunTask RunOutcome := do
  let o ← executeCells co job (job.maxWaves + 1)
  match o with
  | some o => shortCircuit o
  | none => verifyAndFinish co job.contract

/-! ## Starting -/

/-- The run's locals. The source binds those a wave works on when EXECUTING is
recorded; they depend on the launch alone and nothing reads them before. -/
def begin (job : Job) (s : St) : St where
  completedIds := job.initiallyCompleted
  usage := job.usage
  auth :=
    let auth : BudgetAuthority := { budget := job.limits }
    let u := job.usage
    if u.totalInputTokens ≠ 0 ∨ u.totalOutputTokens ≠ 0 ∨ u.totalCalls ≠ 0 then
      auth.record
        { inputTokens := u.totalInputTokens, outputTokens := u.totalOutputTokens
          costUsd := u.totalCostUsd, calls := u.totalCalls }
    else auth
  evidenceDigests := job.evidenceDigests
  shared := s.shared

/-- The contract a request is compiled into, if the compilation succeeds. -/
def contractOf (request : ProjectRequest) : WorkContract :=
  ContractCompiler.synthesize co.compiler.contractId request (co.compiler.analyses request)
    (ContractCompiler.contractBudget co.config request)

def graphOf (contract : WorkContract) : GraphVersion :=
  match co.planner contract with
  | .inl graph => graph
  | .inr cell => singleCellGraph cell

def freshJob (request : ProjectRequest) : Job where
  contract := contractOf co request
  graph := graphOf co (contractOf co request)
  maxWaves := request.maxWaves
  limits := request.budget.getD {}

/-- The two limits of a request's budget, which is all `RequestAccepted` keeps. -/
def acceptedBudget (request : ProjectRequest) : Option Budget :=
  request.budget.map fun b => { tokenLimit := b.tokenLimit, costLimitUsd := b.costLimitUsd }

/-- A graph that does not validate (orchestrator.py:268-281). -/
def rejectPlan (graph : GraphVersion) (errors : List String) : RunTask RunOutcome := do
  emit (.graphProposed graph.version errors true)
  emitTerminalOutcome .abstained "graph validation failed"
  let s ← Main.get
  emitStatus .abstained s.currentStatus
  pure .abstained

/-- The body of `run_async` (orchestrator.py:238-352). -/
def runBody (request : ProjectRequest) : RunTask RunOutcome := do
  emit (.requestAccepted request.goal request.workspaceRoot (acceptedBudget request))
  let contract ← co.compiler.compile co.config request
  advance .contracted
  consult co.plannerSpends
  let graph := graphOf co contract
  let errors := GraphPlanner.validate graph (some contract.budget) (some request.maxWaves)
  if errors ≠ [] then rejectPlan graph errors
  else do
    emit (.graphAccepted graph.version graph.cells graph.edges graph.milestones)
    advance .planned
    advance .executing
    execute co (freshJob co request)

/-! ## Resuming -/

/-- The id, artifact and usage of a `CellCompleted`. -/
def completion? : EventPayload → Option (String × ArtifactRef)
  | .cellCompleted id ref _ => some (id, ref)
  | _ => none

/-- `source_completed`: the last completion of each cell. -/
def sourceCompleted (source : List EventPayload) : List (String × ArtifactRef) :=
  source.filterMap completion?

/-- `completed_ids` of a resume (orchestrator.py:471-474). -/
def resumedIds (state : RunState) (source : List EventPayload) : List String :=
  let graphIds := match state.graph with
    | some graph => (graph.cells.filter (·.status = .completed)).map (·.id)
    | none => []
  (graphIds ++ (sourceCompleted source).map (·.1)).dedup

/-- Whether an event is re-emitted first, and with which cells marked
(orchestrator.py:72-78, 475-490). -/
def reemitted (completed : List String) : EventPayload → Option EventPayload
  | .analysisRequested profile a => some (.analysisRequested profile a)
  | .analysisCompleted profile a => some (.analysisCompleted profile a)
  | .contractProposed id v objective scope deliverables constraints tools ws budget n criteria
      ambiguity =>
    some (.contractProposed id v objective scope deliverables constraints tools ws budget n
      criteria ambiguity)
  | .contractValidated id v => some (.contractValidated id v)
  | .graphAccepted v cells edges milestones =>
    some (.graphAccepted v
      (cells.map fun c => if c.id ∈ completed then { c with status := .completed } else c)
      edges milestones)
  | _ => none

/-- The completions, which are re-emitted as they are. -/
def isCompletion (p : EventPayload) : Bool := (completion? p).isSome

/-- The evidence of the cells that are done (orchestrator.py:514-518). -/
def resumedEvidence (cells : List GraphCell) (completed : List String)
    (done : List (String × ArtifactRef)) : List (Int × String) :=
  cells.foldl (fun digests cell =>
    match done.reverse.lookup cell.id with
    | some ref =>
      if cell.id ∈ completed then
        cell.acceptanceCriterionIndices.foldl (fun d ci => dictSet ci ref.digest d) digests
      else digests
    | none => digests) []

/-- The default of `ProjectRequest.max_waves`. -/
def defaultMaxWaves : Nat := 3

def resumedJob (state : RunState) (contract : WorkContract) (graph : GraphVersion)
    (source : List EventPayload) : Job where
  contract := contract
  graph := graph
  maxWaves := defaultMaxWaves
  limits := state.runBudget.getD {}
  initiallyCompleted := resumedIds state source
  usage := state.usage
  evidenceDigests :=
    resumedEvidence graph.cells (resumedIds state source) (sourceCompleted source)

/-- The body of `resume_async` (orchestrator.py:458-585). -/
def resumeBody (state : RunState) (job : Job) (source : List EventPayload) :
    RunTask RunOutcome := do
  emit (.requestAccepted state.goal state.workspaceRoot state.runBudget)
  ContractCompiler.emitAll (source.filterMap (reemitted job.initiallyCompleted))
  ContractCompiler.emitAll (source.filter isCompletion)
  advanceAll [.contracted, .planned, .executing]
  execute co job

/-! ## The two entry points -/

/-- The `except` clauses (orchestrator.py:354-366, 586-598). -/
def handled (body : RunTask RunOutcome) : RunTask RunOutcome :=
  tryCatch body fun
    | .cancelled note => do
      let _ ← emitFailure "cancelled"
      throw (.cancelled note)
    | .exception _ message => do
      let cancelled ← emitFailure (PyText.slice 500 message)
      match cancelled with
      | some e => throw e
      | none => do
        let s ← Main.get
        pure (s.terminalOutcome.getD .failed)

/-- The `finally` clause (orchestrator.py:367-372). -/
def closeGateway : RunTask Unit :=
  if co.hasGateway then do
    let w ← Main.await
    match w with
    | .raise (.cancelled note) => throw (.cancelled note)
    | _ => pure ()
  else pure ()

/-- The gateway is closed, however the run ended. -/
def closed : Except Exc RunOutcome → RunTask RunOutcome
  | .ok o => closeGateway co >>= fun _ => pure o
  | .error e => closeGateway co >>= fun _ => throw e

def closing (m : RunTask RunOutcome) : RunTask RunOutcome :=
  tryCatch (m >>= fun o => pure (Except.ok o)) (fun e => pure (.error e)) >>= closed co

/-- `Company.run_async` (orchestrator.py:233-372) -/
def runAsync (request : ProjectRequest) : RunTask RunOutcome := do
  Main.modify (begin (freshJob co request))
  closing co (handled (runBody co request))

/-- What a resume reads off its source, or the error it raises before it
records anything (orchestrator.py:445-449). -/
def resumeJob (source : List EventPayload) : Except String (RunState × Job) :=
  match replayRun source with
  | .error e => .error e
  | .ok state =>
    match state.currentContract, state.graph with
    | some contract, some graph =>
      if state.status = .verified then .error "run is already verified"
      else .ok (state, resumedJob state contract graph source)
    | _, _ => .error "run has no contract/graph to resume from"

/-- `Company.resume_async` (orchestrator.py:433-600) -/
def resumeAsync (source : List EventPayload) : RunTask RunOutcome :=
  match resumeJob source with
  | .error e => throw (.exception .valueError e)
  | .ok (state, job) => do
    Main.modify (begin job)
    handled (resumeBody co state job source)

def start : Launch → RunTask RunOutcome
  | .fresh request => runAsync co request
  | .resume source => resumeAsync co source

/-- What a launch works on; `none` if its source cannot be resumed. -/
def job? (launch : Launch) : Option Job :=
  match launch with
  | .fresh request => some (freshJob co request)
  | .resume source =>
    match resumeJob source with
    | .ok (_, job) => some job
    | .error _ => none

/-- The run a launch starts, over what the workspace kept, for one order of
events. -/
def run (launch : Launch) (shared : Shared) (inputs : List (Input Exc)) : Out St Exc RunOutcome :=
  start co launch inputs { shared := launch.inherit shared }

end Company
end Northstack
