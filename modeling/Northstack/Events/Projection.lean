import Northstack.Events.Catalog

/-!
# Folding events into a run state

Mirrors events/projection.py, domain/run_state.py and application/replay.py.
`fold` raises on an illegal status transition; every other event is absorbed.

**Results.**
* `replay_ok_iff`: folding a log never raises exactly when its statuses are a
  legal path from INTAKE.
* `replay_status`, `replay_usage`: the projected status is the last one recorded, the
  projected usage the last one a `BudgetUpdated` carried.
* `replay_contract`, `replay_graph`: the projected contract is the last one proposed, the
  projected graph has the cells of one that was accepted.
* `replay_marked`: a cell is marked by a row.
-/
namespace Northstack

structure RecoveryEvent where
  cellId : String
  failureType : FailureType
  action : RecoveryAction
  attemptNumber : Nat

/-- The fields of `RunState` (run_state.py:21-48) the fold writes. -/
structure RunState where
  runId : String := ""
  status : RunStatus := .intake
  cells : List GraphCell := []
  eventsReplayed : Nat := 0
  goal : String := ""
  workspaceRoot : String := ""
  contractVersion : Nat := 0
  graphVersion : Nat := 0
  graph : Option GraphVersion := none
  currentContract : Option WorkContract := none
  routes : List (String × String) := []
  evidenceManifest : Option EvidenceManifest := none
  usage : BudgetUsage := {}
  runBudget : Option Budget := none
  outcome : Option RunOutcome := none
  failureType : Option FailureType := none
  recoveryEvents : List RecoveryEvent := []

/-- `_set_cell_status` -/
def setCellStatus (state : RunState) (cellId : String) (status : CellStatus) : RunState :=
  { state with
    cells := setStatus cellId status state.cells
    graph := state.graph.map (·.withCellStatus cellId status) }

/-- `_status_changed`; `seq` is only for the message. -/
def statusChanged (state : RunState) (status : RunStatus) (seq : Nat) : Except String RunState :=
  if state.status.canTransition status then .ok { state with status := status }
  else .error (s!"Illegal transition during replay: {state.status.value} -> {status.value} " ++
    s!"(at seq {seq})")

/-- `_evidence_recorded` -/
def evidenceRecorded (state : RunState) (manifest : EvidenceManifest) : RunState :=
  { state with
    evidenceManifest := some manifest
    cells :=
      if manifest.outcome = .verified then
        state.cells.map fun c => if c.status = .completed then { c with status := .verified } else c
      else state.cells }

/-- A key of a dict is bound anew; its old binding goes. -/
def bindKey {α : Type} (key : String) (value : α) (d : List (String × α)) : List (String × α) :=
  d.filter (·.1 ≠ key) ++ [(key, value)]

/-- `fold` (projection.py:50-138) -/
def fold (state : RunState) (seq : Nat) : EventPayload → Except String RunState
  | .statusChanged status => statusChanged state status seq
  | .requestAccepted goal root budget =>
    .ok { state with goal := goal, workspaceRoot := root, runBudget := budget }
  | .contractProposed id v objective scope deliverables constraints tools ws budget _ criteria
      ambiguity =>
    .ok { state with
      contractVersion := v
      currentContract := some
        { id := id, version := v, objective := objective, scope := scope
          deliverables := deliverables, constraints := constraints, allowedTools := tools
          workspaceScope := ws, budget := budget, acceptanceCriteria := criteria
          unresolvedAmbiguity := ambiguity } }
  | .contractAmended _ v _ => .ok { state with contractVersion := v }
  | .graphAccepted v cells edges milestones =>
    .ok { state with
      graphVersion := v
      graph := some { version := v, cells := cells, edges := edges, milestones := milestones } }
  | .cellCreated cell => .ok { state with cells := state.cells ++ [cell] }
  | .routeSelected id profile _ => .ok { state with routes := bindKey id profile state.routes }
  | .cellStarted id _ => .ok (setCellStatus state id .running)
  | .cellCompleted id _ _ => .ok (setCellStatus state id .completed)
  | .cellFailed id _ _ => .ok (setCellStatus state id .failed)
  | .cellAdvanced id status => .ok (setCellStatus state id status)
  | .budgetUpdated usage _ => .ok { state with usage := usage }
  | .evidenceRecorded o records failures usage tools disagreement =>
    .ok (evidenceRecorded state
      { outcome := o, records := records, toolsUsed := tools, usage := usage
        hardGateFailures := failures, materialDisagreement := disagreement })
  | .outcomeEmitted o _ => .ok { state with outcome := some o }
  | .recoveryTransition id failure action attempt _ =>
    .ok { state with
      failureType := some failure
      recoveryEvents := state.recoveryEvents ++
        [{ cellId := id, failureType := failure, action := action, attemptNumber := attempt }] }
  | .stallDetected _ => .ok { state with outcome := some .abstained }
  | .runCreated | .workspaceSnapshot _ _ _ | .analysisRequested _ _ | .analysisCompleted _ _
  | .contractValidated _ _ | .graphProposed _ _ _ | .claimRecorded _ _ _ | .artifactStored _
  | .verificationCheck _ _ _ _ _ | .cellProgress _ _ _ _ _ => .ok state

/-- `fold_events` (replay.py:18-32); the ledger's sequence numbers go up by one. -/
def foldEvents (state : RunState) : List EventPayload → Except String RunState
  | [] => .ok state
  | p :: ps =>
    match fold state (state.eventsReplayed + 1) p with
    | .ok s => foldEvents { s with eventsReplayed := state.eventsReplayed + 1 } ps
    | .error e => .error e

/-- `replay_run` over the events of one run. -/
def replayRun (log : List EventPayload) : Except String RunState := foldEvents {} log

/-! ## What a log records -/

def EventPayload.status? : EventPayload → Option RunStatus
  | .statusChanged status => some status
  | _ => none

def EventPayload.outcome? : EventPayload → Option RunOutcome
  | .outcomeEmitted o _ => some o
  | _ => none

def EventPayload.usage? : EventPayload → Option BudgetUsage
  | .budgetUpdated usage _ => some usage
  | _ => none

/-- A row that says the budget has run dry. -/
def EventPayload.dry : EventPayload → Bool
  | .budgetUpdated _ exhausted => exhausted
  | _ => false

/-- The statuses a log records, in order. -/
def statuses (log : List EventPayload) : List RunStatus := log.filterMap (·.status?)

/-- The outcomes a log records, in order. -/
def outcomes (log : List EventPayload) : List RunOutcome := log.filterMap (·.outcome?)

/-- The usages its `BudgetUpdated` events carry, in order. -/
def usages (log : List EventPayload) : List BudgetUsage := log.filterMap (·.usage?)

/-- The last status recorded, INTAKE before the first. -/
def lastStatus (log : List EventPayload) : RunStatus := RunStatus.lastFrom .intake (statuses log)

@[simp] theorem statuses_nil : statuses [] = [] := rfl
@[simp] theorem outcomes_nil : outcomes [] = [] := rfl
@[simp] theorem usages_nil : usages [] = [] := rfl

theorem filterMap_snoc {α β : Type} (f : α → Option β) (xs : List α) (x : α) :
    (xs ++ [x]).filterMap f = xs.filterMap f ++ (f x).toList := by
  rw [List.filterMap_append]
  cases h : f x with
  | none => simp [h]
  | some y => simp [h]

theorem statuses_append (l : List EventPayload) (p : EventPayload) :
    statuses (l ++ [p]) = statuses l ++ p.status?.toList :=
  filterMap_snoc EventPayload.status? l p

theorem outcomes_append (l : List EventPayload) (p : EventPayload) :
    outcomes (l ++ [p]) = outcomes l ++ p.outcome?.toList :=
  filterMap_snoc EventPayload.outcome? l p

theorem usages_append (l : List EventPayload) (p : EventPayload) :
    usages (l ++ [p]) = usages l ++ p.usage?.toList :=
  filterMap_snoc EventPayload.usage? l p

@[simp] theorem status?_stored (p : EventPayload) : p.stored.status? = p.status? := by
  cases p <;> rfl

@[simp] theorem outcome?_stored (p : EventPayload) : p.stored.outcome? = p.outcome? := by
  cases p <;> rfl

@[simp] theorem usage?_stored (p : EventPayload) : p.stored.usage? = p.usage? := by
  cases p <;> rfl

theorem lastStatus_append (l : List EventPayload) (p : EventPayload) :
    lastStatus (l ++ [p]) = p.status?.getD (lastStatus l) := by
  unfold lastStatus
  rw [statuses_append]
  cases p.status? with
  | none => simp
  | some s => simp [RunStatus.lastFrom_append]

/-! ## One event -/

/-- What one event does to the projected status and usage; a status event is
the only one that can be refused. -/
theorem fold_cases (state : RunState) (seq : Nat) (p : EventPayload) :
    (∃ t, p = .statusChanged t ∧ state.status.canTransition t = false ∧
        ∃ e, fold state seq p = .error e) ∨
      ∃ s, fold state seq p = .ok s ∧ s.status = p.status?.getD state.status ∧
        s.usage = p.usage?.getD state.usage ∧
        ∀ t, p = .statusChanged t → state.status.canTransition t = true := by
  cases p with
  | statusChanged t =>
    cases h : state.status.canTransition t with
    | true =>
      exact .inr ⟨{ state with status := t }, by simp [fold, statusChanged, h], rfl, rfl,
        fun u hu => by cases hu; exact h⟩
    | false => exact .inl ⟨t, rfl, h, _, by simp [fold, statusChanged, h]; rfl⟩
  | _ => exact .inr ⟨_, rfl, rfl, rfl, fun t ht => by cases ht⟩

/-- A status event changes the status and nothing else. -/
theorem fold_statusChanged {state s : RunState} {seq : Nat} {t : RunStatus}
    (h : fold state seq (.statusChanged t) = .ok s) : s = { state with status := t } := by
  simp only [fold, statusChanged] at h
  split at h
  · cases h
    rfl
  · cases h

/-! ## A whole log -/

theorem foldEvents_ok_iff (log : List EventPayload) (state : RunState) :
    (∃ s, foldEvents state log = .ok s) ↔ RunStatus.legalFrom state.status (statuses log) := by
  induction log generalizing state with
  | nil => simp [foldEvents, statuses, RunStatus.legalFrom]
  | cons p ps ih =>
    rcases fold_cases state (state.eventsReplayed + 1) p with
      ⟨t, rfl, hc, e, he⟩ | ⟨s, hs, hst, -, hc⟩
    · simp [foldEvents, he, statuses, EventPayload.status?, RunStatus.legalFrom, hc]
    · rw [foldEvents, hs]
      dsimp only
      rw [ih, hst]
      cases hp : p.status? with
      | none => simp [statuses, hp]
      | some t =>
        have hpt : p = .statusChanged t := by
          cases p <;> cases hp
          rfl
        simp [statuses, hp, RunStatus.legalFrom, hc t hpt]

/-- **Replay.** A log folds without an error exactly when the statuses it
records are a legal path from INTAKE. -/
theorem replay_ok_iff (log : List EventPayload) :
    (∃ s, replayRun log = .ok s) ↔ RunStatus.legalFrom .intake (statuses log) :=
  foldEvents_ok_iff log {}

theorem foldEvents_fields (log : List EventPayload) {state s : RunState}
    (h : foldEvents state log = .ok s) :
    s.status = RunStatus.lastFrom state.status (statuses log) ∧
      s.usage = (usages log).getLastD state.usage := by
  induction log generalizing state with
  | nil =>
    cases h
    exact ⟨rfl, rfl⟩
  | cons p ps ih =>
    rcases fold_cases state (state.eventsReplayed + 1) p with
      ⟨t, rfl, hc, e, he⟩ | ⟨s', hs', hst, hu, -⟩
    · rw [foldEvents, he] at h
      cases h
    · rw [foldEvents, hs'] at h
      obtain ⟨h1, h2⟩ := ih h
      refine ⟨?_, ?_⟩
      · rw [h1, hst]
        cases hp : p.status? with
        | none => simp [statuses, hp]
        | some t => simp [statuses, hp, RunStatus.lastFrom_cons]
      · rw [h2, hu]
        cases hp : p.usage? with
        | none => simp [usages, hp]
        | some u =>
          simp only [usages, List.filterMap_cons, hp, Option.getD_some]
          cases List.filterMap (·.usage?) ps <;> rfl

/-- The projected status is the last one recorded. -/
theorem replay_status {log : List EventPayload} {s : RunState} (h : replayRun log = .ok s) :
    s.status = lastStatus log :=
  (foldEvents_fields log h).1

/-- The projected usage is the last one a `BudgetUpdated` carried. -/
theorem replay_usage {log : List EventPayload} {s : RunState} (h : replayRun log = .ok s) :
    s.usage = (usages log).getLastD {} :=
  (foldEvents_fields log h).2

/-- What each event sets or leaves is what the last one set. -/
theorem foldEvents_last {α : Type} {f : RunState → Option α} {g : EventPayload → Option α}
    (hn : ∀ s n, f { s with eventsReplayed := n } = f s)
    (hfold : ∀ {p state s seq}, fold state seq p = .ok s → f s = (g p).or (f state))
    (log : List EventPayload) {state s : RunState} (h : foldEvents state log = .ok s) :
    f s = (log.filterMap g).getLast?.or (f state) := by
  induction log generalizing state with
  | nil =>
    cases h
    rfl
  | cons p ps ih =>
    rw [foldEvents] at h
    split at h
    · rename_i s' hs'
      rw [ih h, hn, hfold hs']
      cases hp : g p with
      | none => simp [hp]
      | some x =>
        rw [List.filterMap_cons_some hp, List.getLast?_cons]
        cases (ps.filterMap g).getLast? <;> rfl
    · cases h

/-! ## The projected graph -/

/-- The cell ids of an accepted graph. -/
def EventPayload.graphIds? : EventPayload → Option (List String)
  | .graphAccepted _ cells _ _ => some (cells.map (·.id))
  | _ => none

theorem fold_graph {state s : RunState} {seq : Nat} {p : EventPayload}
    (h : fold state seq p = .ok s) :
    s.graph.map (·.ids) = p.graphIds?.or (state.graph.map (·.ids)) := by
  have hset : ∀ id status, (setCellStatus state id status).graph.map (·.ids) =
      state.graph.map (·.ids) := by
    intro id status
    unfold setCellStatus
    rw [Option.map_map]
    congr 1
    funext g
    exact setStatus_ids id status g.cells
  cases p with
  | statusChanged t =>
    rw [fold_statusChanged h]
    rfl
  | _ =>
    cases h
    first
      | rfl
      | exact hset _ _

theorem foldEvents_graph (log : List EventPayload) {state s : RunState}
    (h : foldEvents state log = .ok s) :
    s.graph.map (·.ids) = (log.filterMap (·.graphIds?)).getLast?.or (state.graph.map (·.ids)) :=
  foldEvents_last (fun _ _ => rfl) (fun hs => fold_graph hs) log h

/-- The projected graph has the cells of a graph the log accepted. -/
theorem replay_graph {log : List EventPayload} {s : RunState} {graph : GraphVersion}
    (h : replayRun log = .ok s) (hg : s.graph = some graph) :
    ∃ v cells edges milestones, .graphAccepted v cells edges milestones ∈ log ∧
      graph.ids = cells.map (·.id) := by
  have hl := foldEvents_graph log h
  rw [hg, Option.map_some, Option.map_none, Option.or_none] at hl
  obtain ⟨p, hp, hids⟩ := List.mem_filterMap.mp (List.mem_of_getLast? hl.symm)
  cases p with
  | graphAccepted v cells edges milestones =>
    exact ⟨v, cells, edges, milestones, hp, (Option.some.inj hids).symm⟩
  | _ => cases hids

/-! ## The projected contract -/

/-- The contract a proposal is folded into. -/
def EventPayload.contract? : EventPayload → Option WorkContract
  | .contractProposed id v objective scope deliverables constraints tools ws budget _ criteria
      ambiguity =>
    some
      { id := id, version := v, objective := objective, scope := scope
        deliverables := deliverables, constraints := constraints, allowedTools := tools
        workspaceScope := ws, budget := budget, acceptanceCriteria := criteria
        unresolvedAmbiguity := ambiguity }
  | _ => none

theorem contract?_stored (p : EventPayload) : p.stored.contract? = p.contract?.map (·.stored) := by
  cases p <;> rfl

theorem fold_contract {state s : RunState} {seq : Nat} {p : EventPayload}
    (h : fold state seq p = .ok s) : s.currentContract = p.contract?.or state.currentContract := by
  cases p with
  | statusChanged t =>
    rw [fold_statusChanged h]
    rfl
  | _ =>
    cases h
    rfl

/-- The projected contract is the last one proposed. -/
theorem replay_contract {log : List EventPayload} {s : RunState} (h : replayRun log = .ok s) :
    s.currentContract = (log.filterMap (·.contract?)).getLast? := by
  have hl := foldEvents_last (f := (·.currentContract)) (fun _ _ => rfl)
    (fun hs => fold_contract hs) log h
  rwa [Option.or_none] at hl

/-! ## Which cells the projected graph marks -/

/-- The projected graph has the cell as a completed one. -/
def RunState.Marked (s : RunState) (id : String) : Prop :=
  ∃ g, s.graph = some g ∧ ∃ c ∈ g.cells, c.id = id ∧ c.status = .completed

/-- The row makes the cell a completed one. -/
def EventPayload.Marks (id : String) : EventPayload → Prop
  | .graphAccepted _ cells _ _ => ∃ c ∈ cells, c.id = id ∧ c.status = .completed
  | .cellCompleted i _ _ => i = id
  | .cellAdvanced i status => i = id ∧ status = .completed
  | _ => False

theorem setCellStatus_marked {state : RunState} {id i : String} {status : CellStatus}
    (h : (setCellStatus state i status).Marked id) :
    (i = id ∧ status = .completed) ∨ state.Marked id := by
  obtain ⟨g, hg, c, hc, rfl, hs⟩ := h
  obtain ⟨g', hg', rfl⟩ := Option.map_eq_some_iff.mp hg
  obtain ⟨c', hc', rfl⟩ := List.mem_map.mp hc
  by_cases hi : c'.id = i
  · rw [if_pos hi] at hs ⊢
    exact .inl ⟨hi.symm, hs⟩
  · rw [if_neg hi] at hs ⊢
    exact .inr ⟨g', hg', c', hc', rfl, hs⟩

theorem fold_marked {state s : RunState} {seq : Nat} {p : EventPayload} {id : String}
    (h : fold state seq p = .ok s) (hs : s.Marked id) : p.Marks id ∨ state.Marked id := by
  cases p with
  | statusChanged t =>
    rw [fold_statusChanged h] at hs
    exact .inr hs
  | graphAccepted v cells edges milestones =>
    cases h
    obtain ⟨g, hg, hc⟩ := hs
    cases hg
    exact .inl hc
  | cellCompleted i ref usage =>
    cases h
    exact (setCellStatus_marked hs).imp_left And.left
  | cellAdvanced i status =>
    cases h
    exact setCellStatus_marked hs
  | cellStarted i profile =>
    cases h
    exact .inr ((setCellStatus_marked hs).resolve_left nofun)
  | cellFailed i error kind =>
    cases h
    exact .inr ((setCellStatus_marked hs).resolve_left nofun)
  | _ =>
    cases h
    exact .inr hs

/-- What every event keeps, a fold keeps. -/
theorem foldEvents_invariant {I : RunState → Prop}
    (hn : ∀ s n, I s → I { s with eventsReplayed := n })
    (log : List EventPayload)
    (hstep : ∀ p ∈ log, ∀ state s seq, fold state seq p = .ok s → I state → I s)
    {state s : RunState} (h : foldEvents state log = .ok s) (hi : I state) : I s := by
  induction log generalizing state with
  | nil =>
    cases h
    exact hi
  | cons p ps ih =>
    rw [foldEvents] at h
    split at h
    · rename_i s' hs'
      refine ih (fun q hq => hstep q (List.mem_cons_of_mem _ hq)) h (hn _ _ ?_)
      exact hstep p List.mem_cons_self state s' _ hs' hi
    · cases h

/-- A cell is marked by a row. -/
theorem replay_marked {log : List EventPayload} {s : RunState} {id : String}
    (h : replayRun log = .ok s) (hs : s.Marked id) : ∃ p ∈ log, p.Marks id := by
  refine foldEvents_invariant (I := fun s => s.Marked id → ∃ p ∈ log, p.Marks id)
    (fun _ _ hi => hi) log (fun p hp state s seq hf hi hm => ?_) h ?_ hs
  · exact (fold_marked hf hm).elim (fun hm => ⟨p, hp, hm⟩) hi
  · rintro ⟨g, hg, -⟩
    cases hg

end Northstack
