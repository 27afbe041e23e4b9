import Northstack.Adapters.Wire
import Northstack.Application.BudgetAuthority
import Northstack.Application.Recovery
import Northstack.Application.SoftRubric
import Northstack.Core.TaskRules
import Northstack.Events.Projection

/-!
# The state of a run and its appends

A run is one main task (`Coop.Main`) and, during a wave, a group of cell tasks
(`Coop.Co`) over one state `St`: the run's own ledger rows, the locals of
`Company.run_async`/`resume_async` that outlive an await, the usage, budget
authority, evidence and tool audit they share with the cells, and what outlives
the run (`Shared`). `history` is a record kept by the model alone: what was
appended in which situation, which cells were entered, collected and so on.

`emit` mirrors `EventStream.emit_async` (events/stream.py:53-73): a
cancellation that arrives while the append is in flight lets the append
complete first, so the row is stored and the cancellation is raised after it.
-/
namespace Northstack

/-! ## Exceptions -/

/-- The exception classes some handler of the pipeline distinguishes. -/
inductive ExcKind where
  | valueError | typeError | keyError | osError | runtimeError | sqliteError | other
  deriving DecidableEq, Repr

def ExcKind.name : ExcKind → String
  | .valueError => "ValueError"
  | .typeError => "TypeError"
  | .keyError => "KeyError"
  | .osError => "OSError"
  | .runtimeError => "RuntimeError"
  | .sqliteError => "Error"
  | .other => "Exception"

/-- `CancelledError`, whose note says that the append it interrupted failed, or
an `Exception`. -/
inductive Exc where
  | cancelled (note : Option String)
  | exception (kind : ExcKind) (message : String)
  deriving DecidableEq, Repr

def Exc.isCancel : Exc → Bool
  | .cancelled _ => true
  | .exception _ _ => false

/-- What `run_cell` returns: `True` or a `RunOutcome`. -/
inductive CellResult where
  | completed
  | outcome (o : RunOutcome)
  deriving DecidableEq

/-! ## What the model observes -/

/-- What becomes of a conversation in an attempt of a cell. -/
inductive Passage where
  /-- The loop starts from it. -/
  | began
  /-- Compaction has dropped so many of its rounds. -/
  | compacted (whole : List ModelMessage) (elided : Nat)
  /-- A request is made of it that allows so much output. -/
  | sent (maxOutputTokens : Nat)
  /-- An answer without tool calls, behind which another turn follows: a repair
  of the output, or the rest of what was cut off. -/
  | continued (text : String) (repair : Bool)
  /-- The result of a tool has joined it. -/
  | answered (result : ToolResultMessage)
  /-- A round of tools ends with it. -/
  | rounded
  /-- The failed attempt, whose result had this text unless it raised, hands it
  on to the next one. -/
  | retried (text : Option String)

inductive Obs where
  /-- A row was appended, with the local status and outcome at that moment;
  `cancelled` if a cancellation arrived while the append was in flight and is
  raised behind it. -/
  | appended (payload : EventPayload) (current : RunStatus) (terminal : Option RunOutcome)
      (cancelled : Bool)
  /-- An append raised; nothing was stored. -/
  | appendFailed (payload : EventPayload)
  /-- `run_cell` was entered. -/
  | entered (cellId : String)
  /-- A cell took a conversation from its checkpoint. -/
  | restored (cellId : String) (messages : List ModelMessage)
  /-- `worker.run` was called for an attempt of a cell. -/
  | called (cellId : String) (attempt : Nat)
  /-- The worker sent the gateway a request with these messages. -/
  | requested (cellId : String) (attempt : Nat) (messages : List ModelMessage)
  /-- The gateway answered an attempt of a cell: what the answer cost, the
  estimate of the request's input, and the output the request allowed. -/
  | responded (cellId : String) (attempt : Nat) (spend : Spend) (estimate allowed : Nat)
  /-- An attempt's result was charged to the run. -/
  | charged (cellId : String) (attempt : Nat) (spend : Spend)
  /-- The retry policy chose an action for a failure. -/
  | decided (failure : FailureType) (sig : AttemptSignature) (action : RecoveryAction)
  /-- The gateway answered other components: what the answers cost. -/
  | consulted (spends : List Spend)
  /-- A round of the wave loop begins with these ready cells. -/
  | round (ready : List String)
  /-- A cell's conversation was started, restarted or compacted: the tools
  executed for the cell so far, and the tools the new conversation names. -/
  | rewrote (cellId : String) (executed named : List String)
  /-- The wave loop collected a cell's result. -/
  | collected (cellId : String) (result : Except Exc CellResult)
  /-- The wave loop checked the budget after a batch or a mutating cell. -/
  | boundary (usage : BudgetUsage)
  /-- The panel's verdicts on a soft criterion. -/
  | reviewed (criterion : Nat) (verdicts : List ReviewVerdict)
  /-- The tool audit the hard gates were given. -/
  | audited (toolsUsed : List String)
  /-- A cell wrote its evidence: the digest, for these criteria. -/
  | finished (cellId : String) (indices : List Int) (digest : String)
  /-- What became of a cell's conversation. -/
  | passed (cellId : String) (attempt : Nat) (passage : Passage) (messages : List ModelMessage)

/-- What a company and its workspace keep from run to run: the retry counters,
the conversations on disk, and (known to the model alone) which tools were
executed for which cell. -/
structure Shared where
  seen : Seen := []
  checkpoints : List (String × List ModelMessage) := []
  executed : List (String × String) := []

/-- `tools` executed for the cell. -/
def Shared.executedFor (h : Shared) (cellId : String) : List String :=
  (h.executed.filter (·.1 = cellId)).map (·.2)

structure St where
  log : List EventPayload := []
  currentStatus : RunStatus := .intake
  terminalOutcome : Option RunOutcome := none
  completedIds : List String := []
  failedIds : List String := []
  usage : BudgetUsage := {}
  auth : BudgetAuthority := { budget := {} }
  evidenceDigests : List (Int × String) := []
  toolsUsed : List String := []
  shared : Shared := {}
  history : List Obs := []

/-! ## Atomic updates -/

/-- `d[key] = value`: an existing key keeps its place. -/
def dictSet (key : Int) (value : String) : List (Int × String) → List (Int × String)
  | [] => [(key, value)]
  | (k, v) :: d => if k = key then (k, value) :: d else (k, v) :: dictSet key value d

namespace St

def note (o : Obs) (s : St) : St := { s with history := s.history ++ [o] }

/-- The ledger stores the redacted payload behind the run's last row. -/
def append (cancelled : Bool) (p : EventPayload) (s : St) : St :=
  { s with log := s.log ++ [p.stored] }.note
    (.appended p s.currentStatus s.terminalOutcome cancelled)

def appendFailed (p : EventPayload) (s : St) : St := s.note (.appendFailed p)

/-- `budget_auth.record` and the `usage.total_… +=` after an attempt
(cell_runner.py:354-367). -/
def charge (cellId : String) (attempt : Nat) (spend : Spend) (s : St) : St :=
  { s with usage := s.usage.add spend, auth := s.auth.record spend }.note
    (.charged cellId attempt spend)

/-- Tools start executing for a cell. -/
def markExecuted (cellId : String) (names : List String) (s : St) : St :=
  { s with shared := { s.shared with
      executed := s.shared.executed ++ names.map fun t => (cellId, t) } }

/-- The conversation a cell goes on with is `messages`. -/
def noteRewrite (cellId : String) (messages : List ModelMessage) (s : St) : St :=
  s.note (.rewrote cellId (s.shared.executedFor cellId) (toolNames messages))

/-- `_write_checkpoint` -/
def writeCheckpoint (cellId : String) (messages : List ModelMessage) (s : St) : St :=
  { s with shared := { s.shared with
      checkpoints := (cellId, messages) :: s.shared.checkpoints.filter (·.1 ≠ cellId) } }

/-- `_clear_checkpoint` -/
def clearCheckpoint (cellId : String) (s : St) : St :=
  { s with shared := { s.shared with
      checkpoints := s.shared.checkpoints.filter (·.1 ≠ cellId) } }

/-- What becomes of a conversation is noted. -/
def pass (cellId : String) (attempt : Nat) (passage : Passage) (messages : List ModelMessage)
    (s : St) : St := s.note (.passed cellId attempt passage messages)

/-- What `_load_checkpoint` found is noted. -/
def noteRestored (cellId : String) : Option (List ModelMessage) → St → St
  | none, s => s
  | some messages, s => s.note (.restored cellId messages)

/-- `RetryPolicy.next_action`: the table counts the signature once more. -/
def decide (failure : FailureType) (sig : AttemptSignature) (s : St) : St :=
  { s with shared := { s.shared with seen := (nextAction s.shared.seen failure sig).2 } }.note
    (.decided failure sig (nextAction s.shared.seen failure sig).1)

/-- `tools_used.extend(...)` and the evidence of a completed cell
(cell_runner.py:433-438). -/
def finishCell (cellId : String) (names : List String) (indices : List Int) (digest : String)
    (s : St) : St :=
  { s with
    toolsUsed := s.toolsUsed ++ names
    evidenceDigests := indices.foldl (fun d ci => dictSet ci digest d) s.evidenceDigests }.note
    (.finished cellId indices digest)

end St

/-! ## Appends -/

open Coop

abbrev CellTask (α : Type) := Co St Exc α
abbrev RunTask (α : Type) := Main St Exc α

/-- How an append ends for the task awaiting it. -/
def appendEnd (p : EventPayload) : Wake Exc → (St → St) × Except Exc Unit
  | .resume => (St.append false p, .ok ())
  | .raise (.cancelled none) => (St.append true p, .error (.cancelled none))
  | .raise e => (St.appendFailed p, .error e)

/-- `emit` inside a cell. -/
def emitCell (p : EventPayload) : CellTask Unit :=
  .await fun w => .act (appendEnd p w).1 fun _ => .done (appendEnd p w).2

/-- `Company._emit` -/
def emit (p : EventPayload) : RunTask Unit := do
  let w ← Main.await
  Main.modify (appendEnd p w).1
  match (appendEnd p w).2 with
  | .ok () => pure ()
  | .error e => throw e

/-- An await behind which other components' completions are answered; nothing
books what they cost. -/
def consult (spends : List Spend) : RunTask Unit := do
  let w ← Main.await
  Main.modify (St.note (.consulted spends))
  match w with
  | .resume => pure ()
  | .raise e => throw e

/-- `_finish_despite_cancellation` around one append (orchestrator.py:87-96):
the append is never interrupted; how it ended is returned with a cancellation
of the waiting task. `mark` says whether the waiting code will raise it. -/
def appendShielded (mark : Bool) (p : EventPayload) :
    RunTask (Except Exc Unit × Option Exc) := do
  let (w, cancelled) ← Main.shield Exc.isCancel none
  match w with
  | .resume => do
    Main.modify (St.append (mark && cancelled.isSome) p)
    pure (.ok (), cancelled)
  | .raise e => do
    Main.modify (St.appendFailed p)
    pure (.error e, cancelled)

/-! ## Appends, over all inputs -/

section Appends

variable {p : EventPayload} {s : St}

theorem wp_emit {Q : Post St Exc Unit} (hwait : Q.wait s) (hok : Q.ret () (s.append false p))
    (hc : ∀ e, Q.raise e (s.append true p)) (hf : ∀ e, Q.raise e (s.appendFailed p)) :
    (emit p).wp Q s := by
  refine Main.wp_bind (Main.wp_await hwait fun w => ?_)
  refine Main.wp_bind (Main.wp_modify ?_)
  cases w with
  | resume => exact Main.wp_pure hok
  | raise e =>
    cases e with
    | cancelled note =>
      cases note with
      | none => exact Main.wp_throw (hc _)
      | some n => exact Main.wp_throw (hf _)
    | exception kind message => exact Main.wp_throw (hf _)

theorem wp_consult {spends : List Spend} {Q : Post St Exc Unit} (hwait : Q.wait s)
    (hok : Q.ret () (s.note (.consulted spends)))
    (hraise : ∀ e, Q.raise e (s.note (.consulted spends))) : (consult spends).wp Q s := by
  refine Main.wp_bind (Main.wp_await hwait fun w => ?_)
  refine Main.wp_bind (Main.wp_modify ?_)
  cases w with
  | resume => exact Main.wp_pure hok
  | raise e => exact Main.wp_throw (hraise e)

/-- A shielded append ends with its row stored, or with the error it raised. -/
theorem wp_appendShielded {mark : Bool} {Q : Post St Exc (Except Exc Unit × Option Exc)}
    (hwait : Q.wait s) (hok : ∀ c, Q.ret (.ok (), c) (s.append (mark && c.isSome) p))
    (hf : ∀ e c, e.isCancel = false → Q.ret (.error e, c) (s.appendFailed p)) :
    (appendShielded mark p).wp Q s := by
  refine Main.wp_bind (Main.wp_shield hwait ?_ ?_)
  · intro c _
    exact Main.wp_bind (Main.wp_modify (Main.wp_pure (hok c)))
  · intro e c he
    exact Main.wp_bind (Main.wp_modify (Main.wp_pure (hf e c he)))

end Appends

end Northstack
