import Northstack.Application.Refinement

/-!
# What the run's own moves can do

Of the moves of a run (`Reach`) only two kinds touch what the cells and the
wave loop share: a step of a cell, and the collecting of a cell's result. All
others are bookkeeping. They leave the usage, the budget authority, the audit
and the completed ids alone, store at most one row and note at most one
observation. `Setting.Move` says this once.

**Results.**
* `Reach.invariant`: what holds at the start and is kept by the run's own
  moves, by the cells' steps and by collecting holds in every state of a run.
* `Reach.rows_fit`: if the rows of the source speak of the run's graph, so do
  the rows the run records.
-/
namespace Northstack

/-- No cell runs any more and no outcome is still to be chosen. -/
def Phase.Closed : Phase → Prop
  | .settled _ _ | .failing | .mending _ | .ended => True
  | _ => False

/-- Every cell of the graph is counted as completed. -/
def Setting.Counted (r : Setting) (s : St) : Prop :=
  s.completedIds.length = r.job.graph.cells.length

namespace Setting

variable (r : Setting)

/-- What the run itself observes on its way to the phase `ph'`. -/
def Observes (ph : Phase) (s : St) (ph' : Phase) : Obs → Prop
  | .entered _ | .restored _ _ | .called _ _ | .requested _ _ _ | .responded _ _ _ _ _
  | .charged _ _ _ | .decided _ _ _ | .collected _ _ | .rewrote _ _ _ | .finished _ _ _
  | .passed _ _ _ _ => False
  | .appended p _ _ _ => r.Emits p
  | .round ready => ready = s.readyIds r.job ∧ ph = .executing
  | .boundary u => u = s.usage ∧ ph = .executing ∧ (ph' = .executing → s.auth.exhausted = false)
  | .audited tools => tools = s.toolsUsed ∧ ph = .verifying
  | _ => True

/-- A row the run itself records. -/
structure Records (ph : Phase) (s : St) (p : EventPayload) : Prop where
  emits : r.Emits p
  usage : ∀ u ∈ p.usage?, u = s.usage ∧ ph.Spent
  dry : p.dry = true → s.auth.exhausted = true
  overspent : p = .outcomeEmitted .abstained ReleaseLaw.budgetReason →
    s.usage.exceeds r.job.contract.budget = true
  verified : p.outcome? = some .verified → ph = .verifying ∧ r.Releasable s

/-- The run's own way from phase to phase. -/
inductive Next (s : St) : Phase → Phase → Prop where
  | stay (ph) : Next s ph ph
  | execute (h : r.Seeded s) (hf : Fresh s) (hd : r.Checked) : Next s .intake .executing
  | cut (o) : Next s .executing (.cut o)
  | finish (h : r.Counted s) : Next s .executing .finishing
  | verify : Next s .finishing .verifying
  | close {ph ph'} (h : ph'.Closed) : Next s ph ph'

/-- One move of the run itself. -/
structure Move (ph : Phase) (s : St) (ph' : Phase) (t : St) : Prop where
  log : t.log = s.log ∨ ∃ p, t.log = s.log ++ [p.stored] ∧ r.Records ph s p
  history : t.history = s.history ∨ ∃ o, t.history = s.history ++ [o] ∧ r.Observes ph s ph' o
  recorded : s.Recorded → t.Recorded
  next : r.Next s ph ph'
  completedIds : t.completedIds = s.completedIds
  usage : t.usage = s.usage
  auth : t.auth = s.auth
  toolsUsed : t.toolsUsed = s.toolsUsed
  shared : t.shared = s.shared
  evidence : t.evidenceDigests = s.evidenceDigests

variable {r} {ph ph' : Phase} {s t : St} {p : EventPayload}

theorem Move.grows (h : r.Move ph s ph' t) : Grows s t where
  log := by
    rcases h.log with hl | ⟨p, hl, -⟩
    · exact hl ▸ List.prefix_rfl
    · exact hl ▸ List.prefix_append _ _
  history := by
    rcases h.history with hl | ⟨o, hl, -⟩
    · exact hl ▸ List.prefix_rfl
    · exact hl ▸ List.prefix_append _ _
  toolsUsed := h.toolsUsed ▸ List.prefix_rfl

theorem Quiet.records (h : r.Quiet ph s p) : r.Records ph s p where
  emits := h.emits
  usage := h.usage
  dry := h.dry
  overspent he := by
    subst he
    cases h.outcome
  verified hv := by
    rw [h.outcome] at hv
    cases hv

theorem records_status (t : RunStatus) : r.Records ph s (.statusChanged t) where
  emits := .plain rfl
  usage u hu := by cases hu
  dry := nofun
  overspent := nofun
  verified hv := by cases hv

theorem records_outcome {o : RunOutcome} {reason : String}
    (hb : s.Overspent r.job.contract o reason)
    (h : o = .verified → ph = .verifying ∧ r.Releasable s) :
    r.Records ph s (.outcomeEmitted o reason) where
  emits := .plain rfl
  usage u hu := by cases hu
  dry := nofun
  overspent he := by
    obtain ⟨ho, hr⟩ := EventPayload.outcomeEmitted.inj he
    exact hb ho hr
  verified hv := h (Option.some.inj hv)

theorem Settles.verified {o : RunOutcome} {path : List RunStatus} (h : r.Settles s o path ph)
    (ho : o = .verified) : ph = .verifying ∧ r.Releasable s := by
  subst ho
  cases ph with
  | intake => cases h.1
  | cut o' =>
    obtain ⟨rfl, hp⟩ := h
    cases hp
  | verifying => exact ⟨rfl, h.2 rfl⟩
  | _ => exact h.elim

theorem move_append {c : Bool} (hp : r.Records ph s p) (hn : r.Next s ph ph') :
    r.Move ph s ph' (s.append c p) :=
  ⟨.inr ⟨p, rfl, hp⟩, .inr ⟨_, rfl, hp.emits⟩, (·.append c p), hn, rfl, rfl, rfl, rfl, rfl,
    rfl⟩

theorem move_note {o : Obs} (ho : r.Observes ph s ph' o) (hr : o.row? = none)
    (hn : r.Next s ph ph') : r.Move ph s ph' (s.note o) :=
  ⟨.inl rfl, .inr ⟨o, rfl, ho⟩, (·.note hr), hn, rfl, rfl, rfl, rfl, rfl, rfl⟩

theorem move_phase (hn : r.Next s ph ph') : r.Move ph s ph' s :=
  ⟨.inl rfl, .inl rfl, id, hn, rfl, rfl, rfl, rfl, rfl, rfl⟩

theorem move_settle {c : Bool} {o : RunOutcome} {path : List RunStatus} {reason : String}
    (h : r.Settles s o path ph) (hb : s.Overspent r.job.contract o reason) (hc : ph'.Closed) :
    r.Move ph s ph' (s.settle c o reason) :=
  ⟨.inr ⟨_, rfl, records_outcome hb h.verified⟩, .inr ⟨_, rfl, .plain rfl⟩,
    fun hs => hs.append c (.outcomeEmitted o reason), .close hc, rfl, rfl, rfl, rfl, rfl, rfl⟩

theorem move_advance {u current : RunStatus} (hn : r.Next s ph ph') :
    r.Move ph s ph' (s.advance u current) :=
  ⟨.inr ⟨_, rfl, records_status u⟩, .inr ⟨_, rfl, .plain rfl⟩,
    fun hs => hs.append false (.statusChanged u), hn, rfl, rfl, rfl, rfl, rfl, rfl⟩

end Setting

/-! ## Induction over the moves -/

section

variable {r : Setting} {ph : Phase} {s : St}

/-- **Invariants.** A run only makes moves of its own, steps of the cells that
are executing, and collects their results. -/
theorem Reach.invariant {M : Phase → St → Prop}
    (start : M .intake (Company.begin r.job { shared := r.shared }))
    (move : ∀ {ph s ph' t}, Reach r ph s → M ph s → r.Move ph s ph' t → M ph' t)
    (cell : ∀ {s t c}, Reach r .executing s → M .executing s → MayRun r.job c s →
      CellStep (r.co.terms r.job c) s t → M .executing t)
    (collect : ∀ {s result c}, Reach r .executing s → M .executing s → c ∈ r.job.graph.cells →
      CellRunner.Ended (r.co.terms r.job c) result s → M .executing (s.collected c.id result))
    (h : Reach r ph s) : M ph s := by
  induction h with
  | start => exact start
  | row h _ hq ih => exact move h ih (Setting.move_append hq.records (.stay _))
  | rowCancelled h _ hq ih => exact move h ih (Setting.move_append hq.records (.close trivial))
  | refused p h _ ih => exact move h ih (Setting.move_note trivial rfl (.close trivial))
  | interrupted h _ ih => exact move h ih (Setting.move_phase (.close trivial))
  | advance h _ _ ih => exact move h ih (Setting.move_advance (.stay _))
  | @advanceCancelled s t h _ _ ih =>
    exact move h ih (Setting.move_append (Setting.records_status t) (.close trivial))
  | consulted spends h _ ih => exact move h ih (Setting.move_note trivial rfl (.stay _))
  | execute h _ hs hf hd ih => exact move h ih (Setting.move_phase (.execute hs hf hd))
  | wave h hw ih =>
    cases hw with
    | round => exact move h ih (Setting.move_note ⟨rfl, rfl⟩ rfl (.stay _))
    | cell hm hs => exact cell h ih hm hs
    | collect hc hr => exact collect h ih hc hr
    | boundary he => exact move h ih (Setting.move_note ⟨rfl, rfl, fun _ => he⟩ rfl (.stay _))
  | exhausted h ih => exact move h ih (Setting.move_note ⟨rfl, rfl, nofun⟩ rfl (.cut _))
  | cut h _ ih => exact move h ih (Setting.move_phase (.cut _))
  | finish h hl ih => exact move h ih (Setting.move_phase (.finish hl))
  | verify h ih => exact move h ih (Setting.move_append (Setting.records_status _) .verify)
  | verifyCancelled h ih =>
    exact move h ih (Setting.move_append (Setting.records_status _) (.close trivial))
  | audit h ih => exact move h ih (Setting.move_note ⟨rfl, rfl⟩ rfl (.stay _))
  | review i verdicts h ih => exact move h ih (Setting.move_note trivial rfl (.stay _))
  | settle reason h ho hb ih => exact move h ih (Setting.move_settle ho hb trivial)
  | settleCancelled reason h ho hb ih => exact move h ih (Setting.move_settle ho hb trivial)
  | status current h _ ih => exact move h ih (Setting.move_advance (.close trivial))
  | statusCancelled h ih =>
    exact move h ih (Setting.move_append (Setting.records_status _) (.close trivial))
  | mendOutcome reason h _ ih =>
    exact move h ih (Setting.move_append (Setting.records_outcome nofun nofun) (.close trivial))
  | mendKept h _ ih => exact move h ih (Setting.move_phase (.close trivial))
  | mendStatus h _ ih =>
    exact move h ih (Setting.move_append (Setting.records_status _) (.close trivial))
  | mendNothing h _ ih => exact move h ih (Setting.move_phase (.close trivial))
  | mendRefused p h ih => exact move h ih (Setting.move_note trivial rfl (.close trivial))
  | mendStatusRefused p h ih => exact move h ih (Setting.move_note trivial rfl (.close trivial))

end

/-! ## What a run records -/

section

variable {r : Setting} {ph : Phase} {s : St}

/-- The log of a run has what was appended. -/
theorem Reach.recorded (h : Reach r ph s) : s.Recorded := by
  refine Reach.invariant (M := fun _ s => s.Recorded) ?start ?move ?cell ?collect h
  case start => exact rfl
  case move => exact fun _ ih hm => hm.recorded ih
  case cell => exact fun _ ih _ hst => hst.recorded ih
  case collect =>
    intro s result c _ ih _ _
    have hn := ih.note (o := .collected c.id result) rfl
    unfold St.Recorded at hn ⊢
    rw [(St.collected_log _ _ _).1, St.collected_history]
    exact hn

/-- What holds of the rows of the run itself and of its cells holds of its log. -/
theorem Reach.forall_rows {P : EventPayload → Prop} (h : Reach r ph s)
    (hrun : ∀ p, r.Emits p → P p.stored)
    (hcell : ∀ c ∈ r.job.graph.cells, ∀ p, EventPayload.OfCell c.id p → P p.stored) :
    ∀ p ∈ s.log, P p := by
  have happ : ∀ {l : List EventPayload} {p : EventPayload}, (∀ q ∈ l, P q) → P p.stored →
      ∀ q ∈ l ++ [p.stored], P q := by
    intro l p hl hp q hq
    rcases List.mem_append.mp hq with hq | hq
    · exact hl q hq
    · exact List.mem_singleton.mp hq ▸ hp
  refine Reach.invariant (M := fun _ s => ∀ p ∈ s.log, P p) ?start ?move ?cell ?collect h
  case start => exact List.forall_mem_nil _
  case move =>
    intro ph s ph' t _ ih hm
    rcases hm.log with hl | ⟨p, hl, hp⟩
    · exact hl ▸ ih
    · exact hl ▸ happ ih (hrun p hp.emits)
  case cell =>
    intro s t c _ ih hm hst
    rcases hst.log with hl | ⟨p, hl, hp⟩
    · exact hl ▸ ih
    · exact hl ▸ happ ih (hcell c hm.mem p hp)
  case collect =>
    intro s result c _ ih _ _
    rw [(St.collected_log _ _ _).1]
    exact ih

end

/-! ## The rows speak of the graph -/

/-- Redaction changes the ids of a row and of the graph alike. -/
theorem EventPayload.Fits.stored {ids : List String} {p : EventPayload} (h : p.Fits ids) :
    p.stored.Fits (ids.map redactText) := by
  cases p with
  | graphAccepted v cells edges milestones =>
    show (cells.map (·.stored)).map (·.id) = ids.map redactText
    rw [← show cells.map (·.id) = ids from h, List.map_map, List.map_map]
    rfl
  | cellCompleted id ref usage => exact List.mem_map_of_mem h
  | _ => trivial

/-- The rows a run takes from its source speak of its graph if the source does. -/
theorem Setting.Emits.fits {r : Setting} {p : EventPayload} (h : r.Emits p) (hs : r.Sound) :
    p.Fits r.ids := by
  cases h with
  | plain hc => cases p <;> trivial
  | contract => trivial
  | graph => rfl
  | @again p q hp hq =>
    cases p with
    | graphAccepted v cells edges milestones =>
      cases hq
      have hfit : cells.map (·.id) = r.ids := hs _ hp
      dsimp only [EventPayload.Fits]
      rw [List.map_map, ← hfit]
      apply List.map_congr_left
      intro c _
      simp only [Function.comp]
      split <;> rfl
    | analysisRequested | analysisCompleted | contractProposed | contractValidated =>
      cases hq
      trivial
    | _ => cases hq
  | completion hp hc => exact hs _ hp

theorem EventPayload.OfCell.fits {r : Setting} {c : GraphCell} {p : EventPayload}
    (h : p.OfCell c.id) (hc : c ∈ r.job.graph.cells) : p.Fits r.ids := by
  cases p with
  | cellCompleted id ref usage =>
    cases h
    exact List.mem_map_of_mem hc
  | graphAccepted v cells edges milestones => exact h.elim
  | _ => trivial

theorem Reach.rows_fit {r : Setting} {ph : Phase} {s : St} (h : Reach r ph s) (hs : r.Sound) :
    ∀ p ∈ s.log, p.Fits (r.ids.map redactText) :=
  h.forall_rows (fun _ hp => (hp.fits hs).stored) fun _ hc _ hp => (hp.fits hc).stored

end Northstack
