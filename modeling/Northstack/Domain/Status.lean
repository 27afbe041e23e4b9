import Mathlib

/-!
# Run status and the authoritative transition table

Mirrors domain/status.py. The table, the three terminal statuses and the
execution detour are computed the way the source builds them.

**Results.**
* `canTransition_failed`: every status with a way out may escape to FAILED.
* `isTerminal_iff`: the statuses without a way out are the three outcomes'.
* `legalFrom_append`: a legal path is extended exactly by a legal step.
* `route_legal`: the path `route` returns is legal and ends at its target.
-/
namespace Northstack

inductive RunStatus where
  | intake | contracted | planned | executing | verifying | verified | abstained | failed
  deriving DecidableEq, Repr

namespace RunStatus

/-- The enum's values, which are also its JSON form. -/
def value : RunStatus → String
  | .intake => "intake"
  | .contracted => "contracted"
  | .planned => "planned"
  | .executing => "executing"
  | .verifying => "verifying"
  | .verified => "verified"
  | .abstained => "abstained"
  | .failed => "failed"

/-- The phases of the happy path, in order (status.py:67-74). -/
def phases : List RunStatus := [.intake, .contracted, .planned, .executing, .verifying, .verified]

/-- `_build_transitions` (status.py:57-84): each phase advances to the next and
may escape to FAILED; ABSTAINED is an escape of every phase but EXECUTING. -/
def transitions (s : RunStatus) : List RunStatus :=
  (phases.zip phases.tail).flatMap fun (src, dst) =>
    if src = s then
      (if src ∈ phases.dropLast ∧ src ≠ .executing then [.abstained, .failed] else [.failed]) ++
        [dst]
    else []

/-- `RunStateMachine.can_transition` -/
def canTransition (src dst : RunStatus) : Bool := dst ∈ transitions src

/-- `RunStateMachine.is_terminal` -/
def isTerminal (s : RunStatus) : Bool := transitions s = []

/-- `RunStateMachine.route`: `none` where the source raises `ValueError`. -/
def route (src dst : RunStatus) : Option (List RunStatus) :=
  if src = .executing ∧ dst = .abstained then some [.verifying, .abstained]
  else if canTransition src dst then some [dst]
  else none

theorem isTerminal_iff (s : RunStatus) :
    s.isTerminal = true ↔ s = .verified ∨ s = .abstained ∨ s = .failed := by
  cases s <;> decide

theorem canTransition_failed {s : RunStatus} (h : s.isTerminal = false) :
    canTransition s .failed = true := by
  revert h
  cases s <;> decide

/-! ## Paths -/

/-- The statuses, taken in order from `s`, only use edges of the table. -/
def legalFrom : RunStatus → List RunStatus → Bool
  | _, [] => true
  | s, t :: ts => canTransition s t && legalFrom t ts

/-- Where a path from `s` ends. -/
def lastFrom (s : RunStatus) (ts : List RunStatus) : RunStatus := ts.getLastD s

theorem lastFrom_cons (s t : RunStatus) (ts : List RunStatus) :
    lastFrom s (t :: ts) = lastFrom t ts := by
  cases ts <;> rfl

theorem lastFrom_append (s t : RunStatus) (ts : List RunStatus) :
    lastFrom s (ts ++ [t]) = t := by
  induction ts generalizing s with
  | nil => rfl
  | cons u ts ih => rw [List.cons_append, lastFrom_cons, ih]

theorem legalFrom_append (s t : RunStatus) (ts : List RunStatus) :
    legalFrom s (ts ++ [t]) = (legalFrom s ts && canTransition (lastFrom s ts) t) := by
  induction ts generalizing s with
  | nil => simp [legalFrom, lastFrom]
  | cons u ts ih => rw [List.cons_append, legalFrom, legalFrom, ih, lastFrom_cons, Bool.and_assoc]

theorem route_legal {src dst : RunStatus} {path : List RunStatus}
    (h : route src dst = some path) :
    legalFrom src path = true ∧ lastFrom src path = dst := by
  unfold route at h
  split at h
  · rename_i hc
    cases h
    rw [hc.1, hc.2]
    decide
  · split at h
    · rename_i hc
      cases h
      exact ⟨by simp [legalFrom, hc], rfl⟩
    · cases h

end RunStatus
end Northstack
