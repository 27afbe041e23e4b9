import Northstack.Application.CellRunner
import Northstack.Core.TaskRuns

/-!
# The updates of an attempt

`WorkerSteps w P` says that `P` holds of every kind of update the worker's code
makes of the run's state.

**Result.** `runAttempt_all`: then it holds of all updates of an attempt.
-/
namespace Northstack

open Coop CellRunner

/-- `P` holds of every update the worker's code makes. -/
structure WorkerSteps (w : WorkerInput) (P : (St → St) → Prop) : Prop where
  passed : ∀ p ms, P (St.pass w.cell.id w.attempt p ms)
  requested : ∀ ms, P (St.note (.requested w.cell.id w.attempt ms))
  responded : ∀ spend estimate allowed,
    P (St.note (.responded w.cell.id w.attempt spend estimate allowed))
  rewrote : ∀ ms, P (St.noteRewrite w.cell.id ms)
  executed : ∀ names, P (St.markExecuted w.cell.id names)
  saved : ∀ ms, P (St.writeCheckpoint w.cell.id ms)
  progressed : ∀ cancelled step turn detail,
    P (St.append cancelled (.cellProgress w.cell.id step w.attempt turn detail))
  failed : ∀ p, P (St.appendFailed p)

/-- An append stores its row, or is noted to have failed. -/
theorem emitCell_all {P : (St → St) → Prop} {p : EventPayload}
    (happend : ∀ cancelled, P (St.append cancelled p)) (hfailed : P (St.appendFailed p)) :
    (emitCell p).All P := by
  intro w
  cases w with
  | resume => exact ⟨happend false, fun _ => trivial⟩
  | raise e =>
    cases e with
    | cancelled n =>
      cases n with
      | none => exact ⟨happend true, fun _ => trivial⟩
      | some n => exact ⟨hfailed, fun _ => trivial⟩
    | exception k m => exact ⟨hfailed, fun _ => trivial⟩

namespace WorkerSteps

variable {w : WorkerInput} {P : (St → St) → Prop} (h : WorkerSteps w P)
include h

theorem emitEvent (turn : Nat) (step : String) (detail : List (String × Json)) :
    (Worker.emitEvent w turn step detail).All P := by
  refine Co.all_tryCatch (emitCell_all (fun c => h.progressed c step turn detail) (h.failed _))
    fun e => ?_
  cases e with
  | cancelled n => exact Co.all_throw
  | exception k m => exact Co.all_pure

theorem pass (p : Passage) (ms : List ModelMessage) :
    (Co.modify (St.pass w.cell.id w.attempt p ms) : CellTask Unit).All P :=
  Co.all_modify (h.passed p ms)

theorem compact (window : Nat) (c : Conv) : (Worker.compact w window c).All P := by
  unfold Worker.compact
  split
  · exact Co.all_pure
  · refine Co.all_bind (Co.all_modify (h.rewrote _)) fun _ => Co.all_bind (h.pass _ _) fun _ => ?_
    exact Co.all_bind (h.emitEvent _ _ _) fun _ => Co.all_pure

theorem collectBatch (t : Turn) (calls : List (ToolCall × Nat)) (c : Conv) :
    (Worker.collectBatch w t calls c).All P := by
  induction calls generalizing c with
  | nil => exact Co.all_pure
  | cons call calls ih =>
    exact Co.all_bind (h.pass _ _) fun _ => Co.all_bind (h.emitEvent _ _ _) fun _ => ih _

theorem runBatches (t : Turn) (batches : List (List (ToolCall × Nat))) (k : Nat) (c : Conv) :
    (Worker.runBatches w t k batches c).All P := by
  induction batches generalizing k c with
  | nil => exact Co.all_pure
  | cons batch batches ih =>
    unfold Worker.runBatches
    refine Co.all_bind Co.all_suspend fun _ => ?_
    refine Co.all_bind (Co.all_modify (h.executed _)) fun _ => ?_
    refine Co.all_bind Co.all_suspend fun _ => ?_
    split
    · exact Co.all_pure
    · exact Co.all_bind (h.collectBatch t batch c) fun c => ih (k + 1) c

theorem afterToolCalls (t : Turn) (r : ModelResponse) (c : Conv) :
    (Worker.afterToolCalls w t r c).All P := by
  unfold Worker.afterToolCalls
  refine Co.all_bind (h.runBatches t _ 0 _) fun done => ?_
  cases done with
  | inl c => exact Co.all_pure
  | inr c =>
    dsimp only
    refine Co.all_bind (h.pass _ _) fun _ => ?_
    split
    · exact Co.all_bind (Co.all_modify (h.saved _)) fun _ => Co.all_pure
    · exact Co.all_pure

theorem afterResponse (profile : ModelProfile) (t : Turn) (r : ModelResponse) (c : Conv) :
    (Worker.afterResponse w profile t r c).All P := by
  unfold Worker.afterResponse
  refine Co.all_bind (Co.all_modify (h.responded _ _ _)) fun _ => ?_
  refine Co.all_bind (h.emitEvent _ _ _) fun _ => ?_
  split
  · split
    · exact Co.all_pure
    · exact Co.all_bind (h.pass _ _) fun _ => Co.all_pure
  · exact h.afterToolCalls t r _

theorem turn (profile : ModelProfile) (t : Turn) (c : Conv) :
    (Worker.turn w profile t c).All P := by
  unfold Worker.turn
  dsimp only
  split
  · exact Co.all_pure
  refine Co.all_bind (h.compact _ _) fun c => Co.all_bind (h.emitEvent _ _ _) fun _ => ?_
  split
  · exact Co.all_pure
  refine Co.all_bind (h.pass _ _) fun _ => Co.all_bind (Co.all_modify (h.requested _)) fun _ => ?_
  refine Co.all_bind Co.all_suspend fun _ => ?_
  split
  · exact Co.all_bind (h.emitEvent _ _ _) fun _ => Co.all_pure
  · exact Co.all_bind (h.emitEvent _ _ _) fun _ => Co.all_pure
  · exact h.afterResponse profile t _ _

theorem loop (profile : ModelProfile) (turns : List Turn) (c : Conv) :
    (Worker.loop w profile turns c).All P := by
  induction turns generalizing c with
  | nil => exact fun _ => trivial
  | cons t turns ih =>
    refine Co.all_bind (h.turn profile t c) fun next => ?_
    cases next with
    | inl r => exact Co.all_pure
    | inr c => exact ih c

theorem run (a : Attempt) (resume : Option (List ModelMessage)) :
    (Worker.run w a resume).All P := by
  unfold Worker.run
  split
  · exact Co.all_pure
  · exact Co.all_bind (Co.all_modify (h.rewrote _)) fun _ =>
      Co.all_bind (h.pass _ _) fun _ => h.loop _ _ _

end WorkerSteps

/-- **Updates.** What holds of the worker's updates holds of an attempt's. -/
theorem runAttempt_all {c : CellInput} {n : Nat} {P : (St → St) → Prop}
    (h : WorkerSteps (workerInput c n) P) (a : Attempt) (resume : Option (List ModelMessage)) :
    (runAttempt c a n resume).All P := by
  refine Co.all_tryCatch (Co.all_bind (h.run a resume) fun _ => Co.all_pure) fun e => ?_
  cases e with
  | cancelled n => exact Co.all_throw
  | exception k m => exact Co.all_pure

end Northstack
