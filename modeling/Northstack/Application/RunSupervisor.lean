import Mathlib

/-!
# One run and its supervisor

The web server holds a run by a `RunSupervisor`: the run's task, its ledger handle and
the path of its workspace. The handle is released by the task's own `finally`, by the
rollback of a start that failed, or by the server's shutdown; whichever comes first
closes the ledger.

A task that is cancelled before its first turn ends without its body being entered, so
its `finally` does not run.

**Results.** `Sound` is what holds of a run between two turns of the event loop, and is
kept by each turn of its task, by `cancel` and by `release`; `Later` is what a turn may
do to a run.
-/
namespace Northstack

namespace RunServer

/-! ## One supervisor -/

/-- `RunSupervisor` (run_supervisor.py:25-61): whether the ledger handle and the task are
held. Its heartbeat callback is not used by the server. -/
structure RunSupervisor where
  runId : String
  ledger : Bool
  workspace : String
  task : Bool := false
  released : Bool := false

/-- `sup.ledger` -/
def RunSupervisor.liveLedger (sup : RunSupervisor) : Bool := sup.ledger && !sup.released

/-- `sup.task` -/
def RunSupervisor.liveTask (sup : RunSupervisor) : Bool := sup.task && !sup.released

/-- `bind_task` (run_supervisor.py:86-94), and whether it cancels the task instead. -/
def RunSupervisor.bindTask (sup : RunSupervisor) : RunSupervisor × Bool :=
  if sup.released then (sup, true) else ({ sup with task := true }, false)

/-- `release` (run_supervisor.py:101-120), and whether it closes the ledger. -/
def RunSupervisor.release (sup : RunSupervisor) : RunSupervisor × Bool :=
  if sup.released then (sup, false)
  else ({ sup with released := true, task := false, ledger := false }, sup.ledger)

/-- How far the loop is with a task. -/
inductive Turn
  | created
  | running
  | ended
  deriving DecidableEq

/-- The task of `_run`. -/
structure RunTask where
  turn : Turn := .created
  cancelRequested : Bool := false
  deriving DecidableEq

/-- `task.cancel()`, which a task that has ended refuses. -/
def RunTask.cancel (t : RunTask) : RunTask :=
  if t.turn = .ended then t else { t with cancelRequested := true }

/-- A run with its supervisor: the task once there is one, whether the body of `_run` was
entered, how often the ledger was closed, and whether `app.state.supervisors` holds it. -/
structure ManagedRun where
  sup : RunSupervisor
  task : Option RunTask := none
  entered : Bool := false
  ledgerCloses : Nat := 0
  listed : Bool := true

/-- A run with its ledger open and no task yet. `routes_runs.py:189-194` -/
def opened (runId workspace : String) : ManagedRun :=
  { sup := { runId := runId, ledger := true, workspace := workspace } }

/-- `sup.is_active` (run_supervisor.py:79-84) -/
def ManagedRun.isActive (r : ManagedRun) : Bool :=
  r.sup.liveTask && r.task.any fun t => t.turn ≠ .ended

/-- `sup.release()` -/
def ManagedRun.release (r : ManagedRun) : ManagedRun :=
  { r with
    sup := r.sup.release.1
    ledgerCloses := r.ledgerCloses + if r.sup.release.2 then 1 else 0 }

/-- `sup.bind_task(asyncio.create_task(_run()))` -/
def ManagedRun.bind (r : ManagedRun) : ManagedRun :=
  { r with
    sup := r.sup.bindTask.1
    task := some (if r.sup.bindTask.2 then RunTask.cancel {} else {}) }

/-- `sup.task.cancel()`, where there is one. -/
def ManagedRun.cancel (r : ManagedRun) : ManagedRun :=
  if r.sup.liveTask then { r with task := r.task.map RunTask.cancel } else r

/-- The first turn of the task: the body is entered, or `CancelledError` is raised in
front of it. -/
def ManagedRun.enter (r : ManagedRun) : Option ManagedRun :=
  match r.task with
  | some { turn := .created, cancelRequested } => some <|
      if cancelRequested then { r with task := some { turn := .ended, cancelRequested } }
      else { r with task := some { turn := .running, cancelRequested }, entered := true }
  | _ => none

/-- The last turn: the body ends in any way, and its `finally` releases.
`routes_runs.py:196-204` -/
def ManagedRun.finish (r : ManagedRun) : Option ManagedRun :=
  match r.task with
  | some { turn := .running, cancelRequested } => some
      { r.release with task := some { turn := .ended, cancelRequested } }
  | _ => none

/-- The rollback of a start without a task. `routes_runs.py:214-231` -/
def ManagedRun.rollback (r : ManagedRun) : ManagedRun := { r.release with listed := false }

/-! ## One run -/

/-- A run whose handle was closed exactly if its supervisor was released. -/
structure Sound (r : ManagedRun) : Prop where
  closes : r.ledgerCloses = if r.sup.released then 1 else 0
  held : r.sup.released = false → r.sup.ledger = true ∧ r.sup.task = true
  dropped : r.sup.released = true → r.sup.ledger = false ∧ r.sup.task = false
  taskless : r.task = none → r.sup.released = true
  created : ∀ t ∈ r.task, t.turn = .created → r.sup.released = false ∧ r.entered = false
  running : ∀ t ∈ r.task, t.turn = .running → r.sup.released = false ∧ r.entered = true
  ended : ∀ t ∈ r.task, t.turn = .ended → r.entered = true → r.sup.released = true

theorem cancel_turn (t : RunTask) : t.cancel.turn = t.turn := by
  unfold RunTask.cancel
  split <;> rfl

theorem cancel_sup (r : ManagedRun) : r.cancel.sup = r.sup := by
  unfold ManagedRun.cancel
  split <;> rfl

theorem cancel_listed (r : ManagedRun) : r.cancel.listed = r.listed := by
  unfold ManagedRun.cancel
  split <;> rfl

theorem cancel_entered (r : ManagedRun) : r.cancel.entered = r.entered := by
  unfold ManagedRun.cancel
  split <;> rfl

theorem cancel_closes (r : ManagedRun) : r.cancel.ledgerCloses = r.ledgerCloses := by
  unfold ManagedRun.cancel
  split <;> rfl

/-- A cancelled task is the task as it was, but for the request. -/
theorem cancel_task {r : ManagedRun} {t : RunTask} (h : t ∈ r.cancel.task) :
    ∃ u ∈ r.task, t.turn = u.turn ∧ (t = u ∨ t = u.cancel) := by
  unfold ManagedRun.cancel at h
  split at h
  · obtain ⟨u, hu, rfl⟩ := Option.map_eq_some_iff.mp h
    exact ⟨u, hu, cancel_turn u, .inr rfl⟩
  · exact ⟨t, h, rfl, .inl rfl⟩

theorem cancel_none {r : ManagedRun} (h : r.cancel.task = none) : r.task = none := by
  unfold ManagedRun.cancel at h
  split at h
  · exact Option.map_eq_none_iff.mp h
  · exact h

variable {r r' : ManagedRun}

theorem Sound.cancel (h : Sound r) : Sound r.cancel where
  closes := by rw [cancel_closes, cancel_sup, h.closes]
  held := by
    rw [cancel_sup]
    exact h.held
  dropped := by
    rw [cancel_sup]
    exact h.dropped
  taskless hnone := by
    rw [cancel_sup]
    exact h.taskless (cancel_none hnone)
  created t ht hturn := by
    obtain ⟨u, hu, heq, -⟩ := cancel_task ht
    rw [cancel_sup, cancel_entered]
    exact h.created u hu (heq ▸ hturn)
  running t ht hturn := by
    obtain ⟨u, hu, heq, -⟩ := cancel_task ht
    rw [cancel_sup, cancel_entered]
    exact h.running u hu (heq ▸ hturn)
  ended t ht hturn := by
    obtain ⟨u, hu, heq, -⟩ := cancel_task ht
    rw [cancel_sup, cancel_entered]
    exact h.ended u hu (heq ▸ hturn)

/-- What the release of a held run leaves. -/
theorem release_held (h : Sound r) (hheld : r.sup.released = false) :
    r.release.sup.released = true ∧ r.release.sup.ledger = false ∧ r.release.sup.task = false ∧
      r.release.ledgerCloses = 1 := by
  have hcloses := h.closes
  have hledger := (h.held hheld).1
  unfold ManagedRun.release RunSupervisor.release
  rw [hheld] at hcloses ⊢
  simp [hcloses, hledger]

/-- Releasing again does nothing. -/
theorem release_released (hreleased : r.sup.released = true) : r.release = r := by
  unfold ManagedRun.release RunSupervisor.release
  rw [if_pos hreleased]
  rfl

theorem release_spec (h : Sound r) : r.release.sup.released = true ∧
    r.release.sup.ledger = false ∧ r.release.sup.task = false ∧ r.release.ledgerCloses = 1 := by
  cases hreleased : r.sup.released with
  | false => exact release_held h hreleased
  | true =>
    have hcloses := h.closes
    rw [hreleased] at hcloses
    rw [release_released hreleased]
    exact ⟨hreleased, (h.dropped hreleased).1, (h.dropped hreleased).2, hcloses⟩

/-- A run that is released, whatever is left of its task, is sound if that has ended. -/
theorem Sound.of_release (h : Sound r) (hsup : r'.sup = r.release.sup)
    (hcloses : r'.ledgerCloses = r.release.ledgerCloses)
    (hended : ∀ t ∈ r'.task, t.turn = .ended) : Sound r' := by
  obtain ⟨hreleased, hledger, htask, hone⟩ := release_spec h
  rw [← hsup] at hreleased hledger htask
  rw [← hcloses] at hone
  exact {
    closes := by rw [hone, hreleased, if_pos rfl]
    held := fun hnot => absurd (hreleased.symm.trans hnot) (by decide)
    dropped := fun _ => ⟨hledger, htask⟩
    taskless := fun _ => hreleased
    created := fun t ht hturn => absurd ((hended t ht).symm.trans hturn) (by decide)
    running := fun t ht hturn => absurd ((hended t ht).symm.trans hturn) (by decide)
    ended := fun _ _ _ _ => hreleased }

theorem Sound.enter (h : Sound r) (henter : r.enter = some r') : Sound r' ∧
    r'.sup = r.sup ∧ r'.listed = r.listed := by
  unfold ManagedRun.enter at henter
  split at henter
  · rename_i cancelRequested htask
    obtain ⟨hheld, hentered⟩ := h.created _ htask rfl
    split at henter
    · cases henter
      refine ⟨?_, rfl, rfl⟩
      exact {
        closes := h.closes
        held := h.held
        dropped := h.dropped
        taskless := fun hnone => by cases hnone
        created := fun t ht hturn => by
          cases ht
          cases hturn
        running := fun t ht hturn => by
          cases ht
          cases hturn
        ended := fun t _ _ hin => absurd (hentered.symm.trans hin) (by decide) }
    · cases henter
      refine ⟨?_, rfl, rfl⟩
      exact {
        closes := h.closes
        held := h.held
        dropped := h.dropped
        taskless := fun hnone => by cases hnone
        created := fun t ht hturn => by
          cases ht
          cases hturn
        running := fun t ht hturn => ⟨hheld, rfl⟩
        ended := fun t ht hturn => by
          cases ht
          cases hturn }
  · cases henter

theorem Sound.finish (h : Sound r) (hfinish : r.finish = some r') : Sound r' ∧
    r'.sup = r.release.sup ∧ r'.listed = r.listed ∧ r'.entered = true := by
  unfold ManagedRun.finish at hfinish
  split at hfinish
  · rename_i cancelRequested htask
    cases hfinish
    refine ⟨h.of_release rfl rfl fun t ht => ?_, rfl, rfl, (h.running _ htask rfl).2⟩
    cases ht
    rfl
  · cases hfinish

theorem sound_bind (runId workspace : String) : Sound (opened runId workspace).bind where
  closes := rfl
  held _ := ⟨rfl, rfl⟩
  dropped h := by cases h
  taskless h := by cases h
  created _ _ _ := ⟨rfl, rfl⟩
  running t ht hturn := by
    cases ht
    cases hturn
  ended t ht hturn := by
    cases ht
    cases hturn

theorem sound_rollback (runId workspace : String) : Sound (opened runId workspace).rollback where
  closes := rfl
  held h := by cases h
  dropped _ := ⟨rfl, rfl⟩
  taskless _ := rfl
  created t ht := by cases ht
  running t ht := by cases ht
  ended t ht := by cases ht

/-! ## What a turn does to a run -/

/-- A later state of a run: it is the same run, and does not become active again. -/
structure Later (r r' : ManagedRun) : Prop where
  runId : r'.sup.runId = r.sup.runId
  workspace : r'.sup.workspace = r.sup.workspace
  task : r'.task = none ↔ r.task = none
  active : r'.isActive = true → r.isActive = true
  released : r.sup.released = true → r'.sup.released = true

theorem Later.refl (r : ManagedRun) : Later r r :=
  ⟨rfl, rfl, Iff.rfl, fun h => h, fun h => h⟩

theorem Later.trans {r₁ r₂ r₃ : ManagedRun} (h : Later r₁ r₂) (h' : Later r₂ r₃) : Later r₁ r₃ :=
  ⟨h'.runId.trans h.runId, h'.workspace.trans h.workspace, h'.task.trans h.task,
    fun ha => h.active (h'.active ha), fun hr => h'.released (h.released hr)⟩

theorem release_ids (r : ManagedRun) : r.release.sup.runId = r.sup.runId ∧
    r.release.sup.workspace = r.sup.workspace := by
  unfold ManagedRun.release RunSupervisor.release
  split <;> exact ⟨rfl, rfl⟩

/-- A run whose supervisor was released is not active. -/
theorem inactive_of_released (hsup : r'.sup = r.release.sup) : r'.isActive = false := by
  unfold ManagedRun.isActive RunSupervisor.liveTask
  rw [hsup]
  unfold ManagedRun.release RunSupervisor.release
  split <;> simp [*]

theorem Later.of_release (h : Sound r) (hsup : r'.sup = r.release.sup)
    (htask : r'.task = none ↔ r.task = none) : Later r r' where
  runId := by rw [hsup, (release_ids r).1]
  workspace := by rw [hsup, (release_ids r).2]
  task := htask
  active ha := by
    rw [inactive_of_released hsup] at ha
    cases ha
  released _ := by
    rw [hsup]
    exact (release_spec h).1

theorem isActive_iff : r.isActive = true ↔
    r.sup.liveTask = true ∧ ∃ t ∈ r.task, t.turn ≠ .ended := by
  unfold ManagedRun.isActive
  rw [Bool.and_eq_true, Option.any_eq_true]
  simp

theorem later_cancel (r : ManagedRun) : Later r r.cancel where
  runId := by rw [cancel_sup]
  workspace := by rw [cancel_sup]
  task := by
    refine ⟨cancel_none, fun h => ?_⟩
    unfold ManagedRun.cancel
    split
    · exact Option.map_eq_none_iff.mpr h
    · exact h
  active ha := by
    obtain ⟨hlive, t, ht, hturn⟩ := isActive_iff.mp ha
    obtain ⟨u, hu, heq, -⟩ := cancel_task ht
    rw [cancel_sup] at hlive
    exact isActive_iff.mpr ⟨hlive, u, hu, heq ▸ hturn⟩
  released h := by
    rw [cancel_sup]
    exact h

theorem later_enter (henter : r.enter = some r') : Later r r' := by
  unfold ManagedRun.enter at henter
  split at henter
  · rename_i cancelRequested htask
    have hsame : r'.sup = r.sup ∧ r'.task ≠ none := by
      split at henter
      · cases henter
        exact ⟨rfl, fun h => by cases h⟩
      · cases henter
        exact ⟨rfl, fun h => by cases h⟩
    exact {
      runId := by rw [hsame.1]
      workspace := by rw [hsame.1]
      task := ⟨fun h => absurd h hsame.2, fun h => by rw [htask] at h; cases h⟩
      active := fun ha => by
        obtain ⟨hlive, -⟩ := isActive_iff.mp ha
        rw [hsame.1] at hlive
        exact isActive_iff.mpr ⟨hlive, _, htask, fun h => by cases h⟩
      released := fun h => by
        rw [hsame.1]
        exact h }
  · cases henter

theorem later_finish (h : Sound r) (hfinish : r.finish = some r') : Later r r' := by
  unfold ManagedRun.finish at hfinish
  split at hfinish
  · rename_i cancelRequested htask
    cases hfinish
    refine .of_release h rfl ⟨fun hnone => (by cases hnone), fun hnone => ?_⟩
    rw [htask] at hnone
    cases hnone
  · cases hfinish

end RunServer

end Northstack
