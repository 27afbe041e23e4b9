import Northstack.Application.RunIndex
import Northstack.Application.RunSupervisor
import Northstack.Core.Runs

/-!
# The runs of the web server

Request handlers, the tasks of the runs and the server's shutdown take turns on one
event loop; a turn ends where one of them awaits. `start_run` and `resume_run` do not
await between the construction of the supervisor and their answer, nor does `stop_run`
at all.

**Results.** In every order of turns:
* `handles_released`: a ledger handle is closed at most once and never under a running
  body; once the task has ended it is closed exactly if the body was entered, until
  shutdown.
* `shutdown_releases`: after shutdown every handle is closed, once, and no task is left.
* `inactive_stays`: a run that is not active never is again, and stays in the index.
-/
namespace Northstack

namespace RunServer

/-! ## The server -/

/-- Serving requests, shutting down with these runs still to be released, or down. -/
inductive Stage
  | serving
  | stopping (rest : List Nat)
  | stopped
  deriving DecidableEq

structure Server where
  runs : List ManagedRun := []
  index : RunIndex
  stage : Stage := .serving

/-- What raises in `start_run` or `resume_run` once the supervisor is there. -/
inductive StartFailure
  | register
  | createTask
  deriving DecidableEq

/-- One turn of the loop. -/
inductive Move
  | start (runId workspace : String) (failure : Option StartFailure)
  | enter (k : Nat)
  | finish (k : Nat)
  | stop (runId : String)
  | shutdown
  | settle

/-- The id is one `uuid4` gives: no run and no ledger has it. -/
def Server.Fresh (s : Server) (runId : String) : Prop :=
  (∀ r ∈ s.runs, r.sup.runId ≠ runId) ∧ s.index.runs runId = none ∧ runId ∉ s.index.ambiguous

instance (s : Server) (runId : String) : Decidable (s.Fresh runId) :=
  inferInstanceAs (Decidable (_ ∧ _))

/-- The turn of `start_run` from the supervisor on. `routes_runs.py:189-232` -/
def Server.start (dirs : LedgerDirs) (s : Server) (runId workspace : String)
    (failure : Option StartFailure) : Server :=
  let r := opened runId workspace
  match if failure = some .register then none else s.index.register dirs runId workspace with
  | none => { s with runs := s.runs ++ [r.rollback] }
  | some index =>
    if failure = some .createTask then
      { s with runs := s.runs ++ [r.rollback], index := index.forget runId }
    else { s with runs := s.runs ++ [r.bind], index := index }

/-- A turn of the run at a place. -/
def Server.turnAt (s : Server) (k : Nat) (f : ManagedRun → Option ManagedRun) : Option Server :=
  match (s.runs[k]?).bind f with
  | some r => some { s with runs := s.runs.set k r }
  | none => none

/-- `stop_run` (routes_runs.py:466-474) on the supervisor of that id, if there is one. -/
def Server.stop (s : Server) (runId : String) : Server :=
  { s with runs := s.runs.map fun r =>
      if r.listed ∧ r.sup.runId = runId then r.cancel else r }

/-- The first loop of the shutdown. `server.py:83-88` -/
def Server.shutdown (s : Server) : Server :=
  { s with
    runs := s.runs.map fun r => if r.listed then r.cancel else r
    stage := .stopping ((List.range s.runs.length).filter fun k =>
      (s.runs[k]?).any (·.listed)) }

/-- The next supervisor of the second loop, whose task has to end first; behind the last
one the supervisors are cleared. `server.py:89-97` -/
def Server.settle (s : Server) : Option Server :=
  match s.stage with
  | .stopping (k :: rest) =>
    match s.runs[k]? with
    | some r =>
      if r.sup.liveTask ∧ r.task.any fun t => t.turn ≠ .ended then none
      else some { s with runs := s.runs.set k r.release, stage := .stopping rest }
    | none => none
  | .stopping [] =>
    some { s with
      runs := s.runs.map fun r => { r with listed := false }
      stage := .stopped }
  | _ => none

def step (dirs : LedgerDirs) (s : Server) : Move → Option Server
  | .start runId workspace failure =>
    if s.stage = .serving ∧ s.Fresh runId then some (s.start dirs runId workspace failure) else none
  | .enter k => s.turnAt k ManagedRun.enter
  | .finish k => s.turnAt k ManagedRun.finish
  | .stop runId => if s.stage = .serving then some (s.stop runId) else none
  | .shutdown => if s.stage = .serving then some s.shutdown else none
  | .settle => s.settle

variable {r r' : ManagedRun} {dirs : LedgerDirs} {s s' : Server}

/-! ## What a turn does to the server -/

/-- What holds of the server between two turns. -/
structure Kept (dirs : LedgerDirs) (s : Server) : Prop where
  sound : ∀ r ∈ s.runs, Sound r
  listed : ∀ r ∈ s.runs, r.sup.released = false → r.listed = true
  indexed : ∀ r ∈ s.runs, r.task ≠ none →
    s.index.runs r.sup.runId = some (dirs.resolve r.sup.workspace)
  skipped : s.stage = .serving → ∀ r ∈ s.runs, ∀ t ∈ r.task, t.turn = .ended →
    r.entered = false → r.sup.released = false
  pending : ∀ rest, s.stage = .stopping rest → ∀ (k : Nat) r, s.runs[k]? = some r →
    r.sup.released = false → k ∈ rest
  placed : ∀ rest, s.stage = .stopping rest → ∀ k ∈ rest, k < s.runs.length
  quiet : s.stage ≠ .serving → ∀ r ∈ s.runs, ∀ t ∈ r.task, t.turn = .created →
    t.cancelRequested = true
  stopped : s.stage = .stopped → ∀ r ∈ s.runs, r.sup.released = true ∧ r.listed = false

/-- The runs stay at their places, each in a later state. -/
def Continued (s s' : Server) : Prop :=
  ∀ (k : Nat) r, s.runs[k]? = some r → ∃ r', s'.runs[k]? = some r' ∧ Later r r'

theorem continued_set {k : Nat} (hk : s.runs[k]? = some r) (hlater : Later r r')
    (hruns : s'.runs = s.runs.set k r') : Continued s s' := by
  intro j q hq
  rw [hruns, List.getElem?_set]
  by_cases hjk : k = j
  · subst hjk
    rw [hk] at hq
    cases hq
    rw [if_pos rfl, if_pos (List.getElem?_eq_some_iff.mp hk).1]
    exact ⟨r', rfl, hlater⟩
  · rw [if_neg hjk]
    exact ⟨q, hq, .refl q⟩

theorem continued_map {f : ManagedRun → ManagedRun} (hf : ∀ r, Later r (f r))
    (hruns : s'.runs = s.runs.map f) : Continued s s' := by
  intro k r hr
  rw [hruns, List.getElem?_map, hr]
  exact ⟨f r, rfl, hf r⟩

theorem continued_append (hruns : ∃ new, s'.runs = s.runs ++ new) : Continued s s' := by
  intro k r hr
  obtain ⟨new, hnew⟩ := hruns
  refine ⟨r, ?_, .refl r⟩
  rw [hnew, List.getElem?_append_left (List.getElem?_eq_some_iff.mp hr).1]
  exact hr

/-- What the registration of a fresh run changes of the index. -/
theorem register_fresh {runId workspace : String} {index : RunIndex}
    (h : s.index.register dirs runId workspace = some index) :
    index.runs = Function.update s.index.runs runId (some (dirs.resolve workspace)) := by
  unfold RunIndex.register at h
  dsimp only at h
  split at h
  · cases h
  · cases h
    rfl

/-- A start puts one run behind the others: one that is held and in the index, or one that
was rolled back. -/
theorem start_cases (dirs : LedgerDirs) (s : Server) (runId workspace : String)
    (failure : Option StartFailure) :
    (∃ index, (s.start dirs runId workspace failure) =
        { s with runs := s.runs ++ [(opened runId workspace).bind], index := index } ∧
      index.runs = Function.update s.index.runs runId (some (dirs.resolve workspace))) ∨
    ∃ index, (s.start dirs runId workspace failure) =
        { s with runs := s.runs ++ [(opened runId workspace).rollback], index := index } ∧
      ∀ id, id ≠ runId → index.runs id = s.index.runs id := by
  unfold Server.start
  dsimp only
  split
  · exact .inr ⟨s.index, rfl, fun _ _ => rfl⟩
  · rename_i index hindex
    have hregister : s.index.register dirs runId workspace = some index := by
      split at hindex
      · cases hindex
      · exact hindex
    have hruns := register_fresh hregister
    split
    · refine .inr ⟨index.forget runId, rfl, fun id hid => ?_⟩
      unfold RunIndex.forget
      dsimp only
      rw [Function.update_of_ne hid, hruns, Function.update_of_ne hid]
    · exact .inl ⟨index, rfl, hruns⟩

theorem Kept.start (h : Kept dirs s) {runId workspace : String} (failure : Option StartFailure)
    (hserving : s.stage = .serving) (hfresh : s.Fresh runId) :
    Kept dirs (s.start dirs runId workspace failure) := by
  have hold : ∀ {index : RunIndex}, (∀ id, id ≠ runId → index.runs id = s.index.runs id) →
      ∀ r ∈ s.runs, r.task ≠ none →
        index.runs r.sup.runId = some (dirs.resolve r.sup.workspace) := by
    intro index hindex r hr htask
    rw [hindex _ (hfresh.1 r hr)]
    exact h.indexed r hr htask
  rcases start_cases dirs s runId workspace failure with
    ⟨index, hstart, hindex⟩ | ⟨index, hstart, hindex⟩
  · have hother : ∀ id, id ≠ runId → index.runs id = s.index.runs id := by
      intro id hid
      rw [hindex, Function.update_of_ne hid]
    rw [hstart]
    exact {
      sound := by
        simp only [List.forall_mem_append, List.forall_mem_singleton]
        exact ⟨h.sound, sound_bind runId workspace⟩
      listed := by
        simp only [List.forall_mem_append, List.forall_mem_singleton]
        exact ⟨h.listed, fun _ => rfl⟩
      indexed := by
        simp only [List.forall_mem_append, List.forall_mem_singleton]
        refine ⟨hold hother, fun _ => ?_⟩
        rw [hindex]
        exact Function.update_self ..
      skipped := fun hs => by
        simp only [List.forall_mem_append, List.forall_mem_singleton]
        refine ⟨h.skipped hs, fun t ht hturn => ?_⟩
        cases ht
        cases hturn
      pending := fun rest hrest => by
        rw [show s.stage = .stopping rest from hrest] at hserving
        cases hserving
      placed := fun rest hrest => by
        rw [show s.stage = .stopping rest from hrest] at hserving
        cases hserving
      quiet := fun hs => absurd hserving hs
      stopped := fun hs => by
        rw [show s.stage = .stopped from hs] at hserving
        cases hserving }
  · rw [hstart]
    exact {
      sound := by
        simp only [List.forall_mem_append, List.forall_mem_singleton]
        exact ⟨h.sound, sound_rollback runId workspace⟩
      listed := by
        simp only [List.forall_mem_append, List.forall_mem_singleton]
        exact ⟨h.listed, fun hr => by cases hr⟩
      indexed := by
        simp only [List.forall_mem_append, List.forall_mem_singleton]
        exact ⟨hold hindex, fun hr => absurd rfl hr⟩
      skipped := fun hs => by
        simp only [List.forall_mem_append, List.forall_mem_singleton]
        exact ⟨h.skipped hs, fun t ht => by cases ht⟩
      pending := fun rest hrest => by
        rw [show s.stage = .stopping rest from hrest] at hserving
        cases hserving
      placed := fun rest hrest => by
        rw [show s.stage = .stopping rest from hrest] at hserving
        cases hserving
      quiet := fun hs => absurd hserving hs
      stopped := fun hs => by
        rw [show s.stage = .stopped from hs] at hserving
        cases hserving }

theorem indexed_later (h : Later r r')
    (hr : r.task ≠ none → s.index.runs r.sup.runId = some (dirs.resolve r.sup.workspace))
    (htask : r'.task ≠ none) :
    s.index.runs r'.sup.runId = some (dirs.resolve r'.sup.workspace) := by
  rw [h.runId, h.workspace]
  exact hr fun hnone => htask (h.task.mpr hnone)

/-- One run goes on to a later state. -/
theorem Kept.set (h : Kept dirs s) {k : Nat} (hk : s.runs[k]? = some r) (hlater : Later r r')
    (hsound : Sound r') (hlisted : r'.listed = r.listed)
    (hskipped : s.stage = .serving → ∀ t ∈ r'.task, t.turn = .ended → r'.entered = false →
      r'.sup.released = false)
    (hquiet : ∀ t ∈ r'.task, t.turn = .created → t ∈ r.task) :
    Kept dirs { s with runs := s.runs.set k r' } := by
  have hmem : r ∈ s.runs := List.mem_of_getElem? hk
  have hall : ∀ {P : ManagedRun → Prop}, (∀ q ∈ s.runs, P q) → P r' →
      ∀ q ∈ s.runs.set k r', P q := by
    intro P hold hnew q hq
    rcases List.mem_or_eq_of_mem_set hq with hq | rfl
    · exact hold q hq
    · exact hnew
  exact {
    sound := hall h.sound hsound
    listed := hall h.listed fun hheld => by
      rw [hlisted]
      refine h.listed r hmem (Bool.eq_false_of_not_eq_true fun hreleased => ?_)
      rw [hlater.released hreleased] at hheld
      cases hheld
    indexed := hall h.indexed (indexed_later hlater (h.indexed r hmem))
    skipped := fun hs => hall (h.skipped hs) (hskipped hs)
    pending := fun rest hrest j q hq hheld => by
      obtain ⟨q', hq', hsame⟩ : ∃ q', s.runs[j]? = some q' ∧
          (q'.sup.released = true → q.sup.released = true) := by
        rw [List.getElem?_set] at hq
        split at hq
        · rename_i hkj
          split at hq
          · cases hq
            exact ⟨r, hkj ▸ hk, hlater.released⟩
          · cases hq
        · exact ⟨q, hq, fun hr => hr⟩
      refine h.pending rest hrest j q' hq' (Bool.eq_false_of_not_eq_true fun hreleased => ?_)
      rw [hsame hreleased] at hheld
      cases hheld
    placed := fun rest hrest j hj => by
      rw [List.length_set]
      exact h.placed rest hrest j hj
    quiet := fun hs => hall (h.quiet hs) fun t ht hturn =>
      h.quiet hs r hmem t (hquiet t ht hturn) hturn
    stopped := fun hs => hall (h.stopped hs)
      ⟨hlater.released (h.stopped hs r hmem).1, hlisted.trans (h.stopped hs r hmem).2⟩ }

theorem turnAt_cases {k : Nat} {f : ManagedRun → Option ManagedRun}
    (h : s.turnAt k f = some s') : ∃ r r', s.runs[k]? = some r ∧ f r = some r' ∧
      s' = { s with runs := s.runs.set k r' } := by
  unfold Server.turnAt at h
  split at h
  · rename_i r' hr'
    obtain ⟨r, hr, hf⟩ := Option.bind_eq_some_iff.mp hr'
    exact ⟨r, r', hr, hf, (Option.some.inj h).symm⟩
  · cases h

theorem Kept.enter (h : Kept dirs s) {k : Nat} (hk : s.runs[k]? = some r)
    (henter : r.enter = some r') : Kept dirs { s with runs := s.runs.set k r' } := by
  have hmem : r ∈ s.runs := List.mem_of_getElem? hk
  obtain ⟨hsound, hsup, hlisted⟩ := (h.sound r hmem).enter henter
  refine h.set hk (later_enter henter) hsound hlisted (fun _ t ht hturn hout => ?_)
    (fun t ht hturn => ?_)
  · rw [hsup]
    unfold ManagedRun.enter at henter
    split at henter
    · rename_i cancelRequested htask
      exact ((h.sound r hmem).created _ htask rfl).1
    · cases henter
  · unfold ManagedRun.enter at henter
    split at henter
    · split at henter
      · cases henter
        cases ht
        cases hturn
      · cases henter
        cases ht
        cases hturn
    · cases henter

theorem Kept.finish (h : Kept dirs s) {k : Nat} (hk : s.runs[k]? = some r)
    (hfinish : r.finish = some r') : Kept dirs { s with runs := s.runs.set k r' } := by
  have hmem : r ∈ s.runs := List.mem_of_getElem? hk
  obtain ⟨hsound, hsup, hlisted, hentered⟩ := (h.sound r hmem).finish hfinish
  refine h.set hk (later_finish (h.sound r hmem) hfinish) hsound hlisted
    (fun _ t ht hturn hout => ?_) (fun t ht hturn => ?_)
  · rw [hentered] at hout
    cases hout
  · unfold ManagedRun.finish at hfinish
    split at hfinish
    · cases hfinish
      cases ht
      cases hturn
    · cases hfinish

/-- A run as it was or cancelled. -/
def SameOrCancelled (r q : ManagedRun) : Prop := q = r ∨ q = r.cancel

theorem SameOrCancelled.spec {q : ManagedRun} (h : SameOrCancelled r q) : q.sup = r.sup ∧
    q.listed = r.listed ∧ q.entered = r.entered ∧ Later r q ∧ (Sound r → Sound q) ∧
      ∀ t ∈ q.task, ∃ u ∈ r.task, t.turn = u.turn := by
  rcases h with rfl | rfl
  · exact ⟨rfl, rfl, rfl, .refl _, fun h => h, fun t ht => ⟨t, ht, rfl⟩⟩
  · refine ⟨cancel_sup r, cancel_listed r, cancel_entered r, later_cancel r, Sound.cancel,
      fun t ht => ?_⟩
    obtain ⟨u, hu, heq, -⟩ := cancel_task ht
    exact ⟨u, hu, heq⟩

/-- What stays where some runs are cancelled. -/
theorem Kept.map (h : Kept dirs s) {f : ManagedRun → ManagedRun}
    (hf : ∀ r, SameOrCancelled r (f r)) : (∀ q ∈ s.runs.map f, Sound q) ∧
      (∀ q ∈ s.runs.map f, q.sup.released = false → q.listed = true) ∧
      (∀ q ∈ s.runs.map f, q.task ≠ none →
        s.index.runs q.sup.runId = some (dirs.resolve q.sup.workspace)) ∧
      (s.stage = .serving → ∀ q ∈ s.runs.map f, ∀ t ∈ q.task, t.turn = .ended →
        q.entered = false → q.sup.released = false) := by
  simp only [List.forall_mem_map]
  refine ⟨fun r hr => ?_, fun r hr => ?_, fun r hr => ?_, fun hs r hr => ?_⟩
  all_goals obtain ⟨hsup, hlisted, hentered, hlater, hsound, htask⟩ := (hf r).spec
  · exact hsound (h.sound r hr)
  · rw [hsup, hlisted]
    exact h.listed r hr
  · exact indexed_later hlater (h.indexed r hr)
  · intro t ht hturn hout
    obtain ⟨u, hu, heq⟩ := htask t ht
    rw [hsup]
    exact h.skipped hs r hr u hu (heq ▸ hturn) (hentered ▸ hout)

theorem sameOrCancelled_ite (r : ManagedRun) (p : Prop) [Decidable p] :
    SameOrCancelled r (if p then r.cancel else r) := by
  split
  · exact .inr rfl
  · exact .inl rfl

theorem Kept.stop (h : Kept dirs s) (runId : String) (hserving : s.stage = .serving) :
    Kept dirs (s.stop runId) := by
  obtain ⟨hsound, hlisted, hindexed, hskipped⟩ := h.map
    (f := fun r => if r.listed ∧ r.sup.runId = runId then r.cancel else r)
    fun r => sameOrCancelled_ite r _
  exact {
    sound := hsound
    listed := hlisted
    indexed := hindexed
    skipped := hskipped
    pending := fun rest hrest => by
      rw [show s.stage = .stopping rest from hrest] at hserving
      cases hserving
    placed := fun rest hrest => by
      rw [show s.stage = .stopping rest from hrest] at hserving
      cases hserving
    quiet := fun hs => absurd hserving hs
    stopped := fun hs => by
      rw [show s.stage = .stopped from hs] at hserving
      cases hserving }

theorem Kept.shutdown (h : Kept dirs s) : Kept dirs s.shutdown := by
  obtain ⟨hsound, hlisted, hindexed, -⟩ := h.map
    (f := fun r => if r.listed then r.cancel else r) fun r => sameOrCancelled_ite r _
  exact {
    sound := hsound
    listed := hlisted
    indexed := hindexed
    skipped := fun hs => by cases hs
    pending := fun rest hrest k q hq hheld => by
      cases hrest
      obtain ⟨r, hr, rfl⟩ : ∃ r, s.runs[k]? = some r ∧
          q = if r.listed then r.cancel else r := by
        rw [Server.shutdown, List.getElem?_map] at hq
        obtain ⟨r, hr, heq⟩ := Option.map_eq_some_iff.mp hq
        exact ⟨r, hr, heq.symm⟩
      rw [(sameOrCancelled_ite r _).spec.1] at hheld
      refine List.mem_filter.mpr ⟨List.mem_range.mpr (List.getElem?_eq_some_iff.mp hr).1, ?_⟩
      rw [hr]
      exact h.listed r (List.mem_of_getElem? hr) hheld
    placed := fun rest hrest k hk => by
      cases hrest
      rw [Server.shutdown, List.length_map]
      exact List.mem_range.mp (List.mem_filter.mp hk).1
    quiet := fun _ => by
      rw [Server.shutdown]
      simp only [List.forall_mem_map]
      intro r hr t ht hturn
      obtain ⟨u, hu, heq⟩ := (sameOrCancelled_ite r _).spec.2.2.2.2.2 t ht
      obtain ⟨hheld, -⟩ := (h.sound r hr).created u hu (heq ▸ hturn)
      rw [if_pos (h.listed r hr hheld)] at ht
      unfold ManagedRun.cancel at ht
      have hlive : r.sup.liveTask = true := by
        unfold RunSupervisor.liveTask
        rw [((h.sound r hr).held hheld).2, hheld]
        rfl
      rw [if_pos hlive] at ht
      obtain ⟨v, -, rfl⟩ := Option.map_eq_some_iff.mp ht
      unfold RunTask.cancel at hturn ⊢
      split
      · rename_i hended
        rw [if_pos hended, hended] at hturn
        cases hturn
      · rfl
    stopped := fun hs => by cases hs }

/-- A run that is settled has no task left to wait for. -/
theorem settled_ended (h : Sound r)
    (hwait : ¬ (r.sup.liveTask ∧ r.task.any fun t => t.turn ≠ .ended)) :
    ∀ t ∈ r.task, t.turn = .ended := by
  intro t ht
  by_contra hturn
  refine hwait ⟨?_, ?_⟩
  · have hheld : r.sup.released = false := by
      cases hcase : t.turn with
      | created => exact (h.created t ht hcase).1
      | running => exact (h.running t ht hcase).1
      | ended => exact absurd hcase hturn
    unfold RunSupervisor.liveTask
    rw [(h.held hheld).2, hheld]
    rfl
  · rw [Option.any_eq_true]
    exact ⟨t, ht, decide_eq_true hturn⟩

theorem settle_cases (h : s.settle = some s') :
    (∃ k rest r, s.stage = .stopping (k :: rest) ∧ s.runs[k]? = some r ∧
      ¬ (r.sup.liveTask ∧ r.task.any fun t => t.turn ≠ .ended) ∧
      s' = { s with runs := s.runs.set k r.release, stage := .stopping rest }) ∨
    s.stage = .stopping [] ∧
      s' = { s with
        runs := s.runs.map fun r => { r with listed := false }
        stage := .stopped } := by
  unfold Server.settle at h
  split at h
  · rename_i k rest hstage
    split at h
    · rename_i r hr
      split at h
      · cases h
      · rename_i hwait
        exact .inl ⟨k, rest, r, hstage, hr, hwait, (Option.some.inj h).symm⟩
    · cases h
  · rename_i hstage
    exact .inr ⟨hstage, (Option.some.inj h).symm⟩
  · cases h

theorem Kept.settle (h : Kept dirs s) (hsettle : s.settle = some s') : Kept dirs s' := by
  rcases settle_cases hsettle with ⟨k, rest, r, hstage, hk, hwait, rfl⟩ | ⟨hstage, rfl⟩
  · have hmem : r ∈ s.runs := List.mem_of_getElem? hk
    have hended := settled_ended (h.sound r hmem) hwait
    have hlater : Later r r.release := .of_release (h.sound r hmem) rfl Iff.rfl
    have hsound : Sound r.release := (h.sound r hmem).of_release rfl rfl hended
    have hquiet : s.stage ≠ .serving := by
      rw [hstage]
      intro hs
      cases hs
    have hset := h.set hk hlater hsound rfl (fun hs => absurd hs hquiet)
      fun t ht _ => ht
    exact {
      sound := hset.sound
      listed := hset.listed
      indexed := hset.indexed
      skipped := fun hs => by cases hs
      pending := fun rest' hrest j q hq hheld => by
        cases hrest
        have hin := hset.pending (k :: rest) hstage j q hq hheld
        rcases List.mem_cons.mp hin with rfl | hin
        · -- The run that was settled is released.
          rw [List.getElem?_set, if_pos rfl, if_pos (List.getElem?_eq_some_iff.mp hk).1] at hq
          cases hq
          rw [(release_spec (h.sound r hmem)).1] at hheld
          cases hheld
        · exact hin
      placed := fun rest' hrest j hj => by
        cases hrest
        exact hset.placed (k :: rest) hstage j (List.mem_cons_of_mem k hj)
      quiet := fun _ => hset.quiet hquiet
      stopped := fun hs => by cases hs }
  · have hreleased : ∀ r ∈ s.runs, r.sup.released = true := by
      intro r hr
      obtain ⟨k, hk⟩ := List.mem_iff_getElem?.mp hr
      by_contra hheld
      exact List.not_mem_nil (h.pending [] hstage k r hk (Bool.eq_false_of_not_eq_true hheld))
    have hquiet : s.stage ≠ .serving := by
      rw [hstage]
      intro hs
      cases hs
    exact {
      sound := by
        simp only [List.forall_mem_map]
        intro r hr
        exact ⟨(h.sound r hr).closes, (h.sound r hr).held, (h.sound r hr).dropped,
          (h.sound r hr).taskless, (h.sound r hr).created, (h.sound r hr).running,
          (h.sound r hr).ended⟩
      listed := by
        simp only [List.forall_mem_map]
        intro r hr hheld
        rw [hreleased r hr] at hheld
        cases hheld
      indexed := by
        simp only [List.forall_mem_map]
        exact h.indexed
      skipped := fun hs => by cases hs
      pending := fun rest hrest => by cases hrest
      placed := fun rest hrest => by cases hrest
      quiet := fun _ => by
        simp only [List.forall_mem_map]
        exact h.quiet hquiet
      stopped := fun _ => by
        simp only [List.forall_mem_map]
        exact fun r hr => ⟨hreleased r hr, trivial⟩ }

theorem later_unlisted (r : ManagedRun) : Later r { r with listed := false } :=
  ⟨rfl, rfl, Iff.rfl, fun h => h, fun h => h⟩

/-- A turn keeps the invariant and goes on with every run. -/
theorem Kept.step (h : Kept dirs s) (m : Move) (hstep : step dirs s m = some s') :
    Kept dirs s' ∧ Continued s s' := by
  unfold RunServer.step at hstep
  split at hstep
  · split at hstep
    · rename_i runId workspace failure hguard
      cases hstep
      refine ⟨h.start failure hguard.1 hguard.2, ?_⟩
      rcases start_cases dirs s runId workspace failure with
        ⟨index, hstart, -⟩ | ⟨index, hstart, -⟩
      · exact continued_append ⟨_, by rw [hstart]⟩
      · exact continued_append ⟨_, by rw [hstart]⟩
    · cases hstep
  · obtain ⟨r, r', hk, henter, rfl⟩ := turnAt_cases hstep
    exact ⟨h.enter hk henter, continued_set hk (later_enter henter) rfl⟩
  · obtain ⟨r, r', hk, hfinish, rfl⟩ := turnAt_cases hstep
    exact ⟨h.finish hk hfinish,
      continued_set hk (later_finish (h.sound r (List.mem_of_getElem? hk)) hfinish) rfl⟩
  · split at hstep
    · rename_i runId hserving
      cases hstep
      exact ⟨h.stop runId hserving,
        continued_map (fun r => (sameOrCancelled_ite r _).spec.2.2.2.1) rfl⟩
    · cases hstep
  · split at hstep
    · cases hstep
      exact ⟨h.shutdown, continued_map (fun r => (sameOrCancelled_ite r _).spec.2.2.2.1) rfl⟩
    · cases hstep
  · refine ⟨h.settle hstep, ?_⟩
    rcases settle_cases hstep with ⟨k, rest, r, -, hk, -, rfl⟩ | ⟨-, rfl⟩
    · exact continued_set hk
        (.of_release (h.sound r (List.mem_of_getElem? hk)) rfl Iff.rfl) rfl
    · exact continued_map later_unlisted rfl

theorem Kept.init (index : RunIndex) : Kept dirs { index := index } where
  sound _ h := by cases h
  listed _ h := by cases h
  indexed _ h := by cases h
  skipped _ _ h := by cases h
  pending _ h := by cases h
  placed _ h := by cases h
  quiet h := absurd rfl h
  stopped h := by cases h

/-! ## All turns -/

open Runs

theorem kept_run {index : RunIndex} {moves : List Move}
    (h : run (RunServer.step dirs) { index := index } moves = some s) : Kept dirs s :=
  run_invariant (fun _ m _ hk hs => (hk.step m hs).1) (Kept.init index) h

theorem continued_run {moves : List Move} (hk : Kept dirs s)
    (h : run (RunServer.step dirs) s moves = some s') : Kept dirs s' ∧ Continued s s' := by
  refine run_invariant (I := fun t => Kept dirs t ∧ Continued s t) ?_
    ⟨hk, fun k r hr => ⟨r, hr, .refl r⟩⟩ h
  intro t m u ht hstep
  obtain ⟨hkept, hcont⟩ := ht.1.step m hstep
  refine ⟨hkept, fun k r hr => ?_⟩
  obtain ⟨r', hr', hlater⟩ := ht.2 k r hr
  obtain ⟨r'', hr'', hlater'⟩ := hcont k r' hr'
  exact ⟨r'', hr'', hlater.trans hlater'⟩

/-- **Handles.** Whatever the order of starts, turns of the runs' tasks, stops and the
shutdown: the ledger of a run was closed at most once, exactly if its supervisor is
released, which then gives out neither ledger nor task; it is open while the body of the
run is entered and not over, and while the run is active; and as long as the server serves,
it was closed behind a task that has ended exactly if the body was entered.
`run_supervisor.py:101-120`, `routes_runs.py:196-232` -/
theorem handles_released (index : RunIndex) (moves : List Move)
    (h : run (RunServer.step dirs) { index := index } moves = some s) (hr : r ∈ s.runs) :
    r.ledgerCloses ≤ 1 ∧ (r.ledgerCloses = 1 ↔ r.sup.released = true) ∧
      (r.sup.released = true → r.sup.liveLedger = false ∧ r.sup.liveTask = false) ∧
      (r.isActive = true → r.ledgerCloses = 0 ∧ r.sup.liveLedger = true) ∧
      ∀ t ∈ r.task, (t.turn = .running → r.ledgerCloses = 0 ∧ r.sup.liveLedger = true) ∧
        (t.turn = .ended → s.stage = .serving → (r.ledgerCloses = 1 ↔ r.entered = true)) := by
  have hkept := kept_run h
  have hsound := hkept.sound r hr
  have hcloses := hsound.closes
  have hheld : r.sup.released = false → r.ledgerCloses = 0 ∧ r.sup.liveLedger = true := by
    intro hnot
    rw [hnot] at hcloses
    refine ⟨hcloses, ?_⟩
    unfold RunSupervisor.liveLedger
    rw [(hsound.held hnot).1, hnot]
    rfl
  have hone : r.ledgerCloses = 1 ↔ r.sup.released = true := by
    rw [hcloses]
    cases r.sup.released <;> simp
  refine ⟨?_, hone, fun hreleased => ?_, fun ha => ?_, fun t ht => ⟨fun hturn => ?_, ?_⟩⟩
  · rw [hcloses]
    split <;> omega
  · unfold RunSupervisor.liveLedger RunSupervisor.liveTask
    rw [hreleased]
    simp
  · obtain ⟨hlive, -⟩ := isActive_iff.mp ha
    refine hheld (Bool.eq_false_of_not_eq_true fun hreleased => ?_)
    unfold RunSupervisor.liveTask at hlive
    rw [hreleased] at hlive
    simp at hlive
  · exact hheld (hsound.running t ht hturn).1
  · intro hturn hserving
    rw [hone]
    refine ⟨fun hreleased => Bool.of_not_eq_false fun hout => ?_, hsound.ended t ht hturn⟩
    rw [hkept.skipped hserving r hr t ht hturn hout] at hreleased
    cases hreleased

/-- **Shutdown.** Once the server is down every run it ever had has its ledger closed, once,
and no task that has not ended, and none is listed. Before that, its shutdown waits for
nothing but tasks that have not ended, and no body is entered any more. `server.py:80-97` -/
theorem shutdown_releases (index : RunIndex) (moves : List Move)
    (h : run (RunServer.step dirs) { index := index } moves = some s) :
    (s.stage = .stopped → ∀ r ∈ s.runs, r.ledgerCloses = 1 ∧ r.listed = false ∧
      ∀ t ∈ r.task, t.turn = .ended) ∧
    ((∃ rest, s.stage = .stopping rest) → (∀ r ∈ s.runs, ∀ t ∈ r.task, t.turn = .ended) →
      ∃ s', RunServer.step dirs s .settle = some s') ∧
    (s.stage ≠ .serving → ∀ (k : Nat) r', (s.runs[k]?).bind ManagedRun.enter = some r' →
      r'.entered = false) := by
  have hkept := kept_run h
  refine ⟨fun hstopped r hr => ?_, fun hstopping hended => ?_, fun hquiet k r' henter => ?_⟩
  · obtain ⟨hreleased, hlisted⟩ := hkept.stopped hstopped r hr
    have hsound := hkept.sound r hr
    refine ⟨by rw [hsound.closes, hreleased, if_pos rfl], hlisted, fun t ht => ?_⟩
    cases hturn : t.turn with
    | created =>
      rw [(hsound.created t ht hturn).1] at hreleased
      cases hreleased
    | running =>
      rw [(hsound.running t ht hturn).1] at hreleased
      cases hreleased
    | ended => rfl
  · obtain ⟨rest, hstage⟩ := hstopping
    rw [RunServer.step, Server.settle, hstage]
    cases rest with
    | nil => exact ⟨_, rfl⟩
    | cons k rest =>
      have hk := hkept.placed (k :: rest) hstage k List.mem_cons_self
      have hget : s.runs[k]? = some s.runs[k] := List.getElem?_eq_getElem hk
      dsimp only
      rw [hget]
      dsimp only
      rw [if_neg]
      · exact ⟨_, rfl⟩
      · intro hwait
        have hany := hwait.2
        rw [Option.any_eq_true] at hany
        obtain ⟨t, ht, hturn⟩ := hany
        exact of_decide_eq_true hturn (hended _ (List.getElem_mem hk) t ht)
  · obtain ⟨r, hr, henter⟩ := Option.bind_eq_some_iff.mp henter
    have hmem : r ∈ s.runs := List.mem_of_getElem? hr
    unfold ManagedRun.enter at henter
    split at henter
    · rename_i cancelRequested htask
      have hrequest := hkept.quiet hquiet r hmem _ htask rfl
      dsimp only at hrequest
      rw [if_pos hrequest] at henter
      cases henter
      exact ((hkept.sound r hmem).created _ htask rfl).2
    · cases henter

/-- **Activity.** What a handler found inactive stays so: a run that is active at the end of
any further turns was active before them, it keeps its place, its id and its workspace,
and one that was started is found in the index there, released or not.
`routes_runs.py:132-134`, `run_index.py:74-81` -/
theorem inactive_stays (index : RunIndex) (before after : List Move)
    (h : run (RunServer.step dirs) { index := index } before = some s)
    (h' : run (RunServer.step dirs) s after = some s') {k : Nat} (hr : s.runs[k]? = some r) :
    ∃ r', s'.runs[k]? = some r' ∧ r'.sup.runId = r.sup.runId ∧
      r'.sup.workspace = r.sup.workspace ∧ (r'.isActive = true → r.isActive = true) ∧
      (r.task ≠ none → s'.index.runs r.sup.runId = some (dirs.resolve r.sup.workspace)) := by
  obtain ⟨hkept, hcont⟩ := continued_run (kept_run h) h'
  obtain ⟨r', hr', hlater⟩ := hcont k r hr
  refine ⟨r', hr', hlater.runId, hlater.workspace, hlater.active, fun htask => ?_⟩
  have hindexed := hkept.indexed r' (List.mem_of_getElem? hr') fun hnone =>
    htask (hlater.task.mp hnone)
  rwa [hlater.runId, hlater.workspace] at hindexed

def plainDirs : LedgerDirs := { resolve := id, ledgerAt := fun _ => .absent }

/-- Two runs; the second is stopped before its task had a turn. -/
def stoppedEarly : List Move :=
  [.start "run-1" "/w" none, .start "run-2" "/w" none, .stop "run-2", .enter 0, .enter 1,
    .finish 0]

theorem handles_released_stoppedEarly :
    ∃ s, run (RunServer.step plainDirs) { index := .empty } stoppedEarly = some s ∧
      ∀ r ∈ s.runs, r.ledgerCloses ≤ 1 ∧ (r.ledgerCloses = 1 ↔ r.sup.released = true) := by
  have hsome : (run (RunServer.step plainDirs) { index := .empty } stoppedEarly).isSome := rfl
  obtain ⟨s, hs⟩ := Option.isSome_iff_exists.mp hsome
  refine ⟨s, hs, fun r hr => ?_⟩
  have hall := handles_released .empty stoppedEarly hs hr
  exact ⟨hall.1, hall.2.1⟩

/-- The moves of a shutdown of two runs. -/
def ending : List Move := [.shutdown, .settle, .settle, .settle]

theorem shutdown_releases_stoppedEarly :
    ∃ s, run (RunServer.step plainDirs) { index := .empty } (stoppedEarly ++ ending) = some s ∧
      (s.stage = .stopped → ∀ r ∈ s.runs, r.ledgerCloses = 1 ∧ r.listed = false ∧
        ∀ t ∈ r.task, t.turn = .ended) := by
  have hsome : (run (RunServer.step plainDirs) { index := .empty }
    (stoppedEarly ++ ending)).isSome := rfl
  obtain ⟨s, hs⟩ := Option.isSome_iff_exists.mp hsome
  exact ⟨s, hs, (shutdown_releases .empty _ hs).1⟩

theorem inactive_stays_stoppedEarly :
    ∃ s s', run (RunServer.step plainDirs) { index := .empty } stoppedEarly = some s ∧
      run (RunServer.step plainDirs) s ending = some s' ∧
      ∀ r, s.runs[0]? = some r → ∃ r', s'.runs[0]? = some r' ∧
        (r'.isActive = true → r.isActive = true) := by
  have hsome : ((run (RunServer.step plainDirs) { index := .empty } stoppedEarly).bind fun s =>
    run (RunServer.step plainDirs) s ending).isSome := rfl
  obtain ⟨s', hs'⟩ := Option.isSome_iff_exists.mp hsome
  obtain ⟨s, hs, hrest⟩ := Option.bind_eq_some_iff.mp hs'
  refine ⟨s, s', hs, hrest, fun r hr => ?_⟩
  obtain ⟨r', hr', -, -, hactive, -⟩ := inactive_stays .empty stoppedEarly ending hs hrest hr
  exact ⟨r', hr', hactive⟩

end RunServer

end Northstack
