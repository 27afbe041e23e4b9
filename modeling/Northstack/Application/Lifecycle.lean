import Northstack.Application.Waves

/-!
# The life of a run

The run as a transition system: its phases, and in each phase the moves that
are open to it, told apart from where in the code they are made. `Reach` is
every phase and state a run can be in at an await, over any order of moves.

* up to EXECUTING a run is in `intake`; in the waves (`WaveStep`) it is
  `executing`;
* they end `cut` short with an outcome, or `finishing`, then `verifying`;
* once the outcome is recorded the run is `settled`, with the statuses that are
  still to be recorded;
* an exception or a cancellation makes it `failing`; the handler records the
  outcome if there is none yet (`mending`), then the status, and has `ended`.

`Application.Refinement` shows that every run of `run_async` and `resume_async`
only makes these moves; what holds of every run is proved here, by induction
over them.
-/
namespace Northstack

open Coop Relation

inductive Phase where
  | intake
  | executing
  | cut (o : RunOutcome)
  | finishing
  | verifying
  | settled (o : RunOutcome) (path : List RunStatus)
  | failing
  | mending (o : RunOutcome)
  | ended

/-- No outcome is recorded yet and no exception is on its way. -/
def Phase.Open : Phase → Prop
  | .intake | .executing | .cut _ | .finishing | .verifying => True
  | _ => False

/-- The body of the run may still append. -/
def Phase.Active : Phase → Prop
  | .settled _ path => path ≠ []
  | ph => ph.Open

theorem Phase.Open.active {ph : Phase} (h : ph.Open) : ph.Active := by
  cases ph with
  | settled o path => exact h.elim
  | _ => exact h

/-- The cells' spending is over. -/
def Phase.Spent : Phase → Prop
  | .cut _ | .finishing => True
  | _ => False

/-- What a run is launched on. -/
structure Setting where
  co : Company
  job : Job
  shared : Shared
  launch : Launch

/-- A graph row has the graph's cells, a completion names one of them. -/
def EventPayload.Fits (ids : List String) : EventPayload → Prop
  | .graphAccepted _ cells _ _ => cells.map (·.id) = ids
  | .cellCompleted id _ _ => id ∈ ids
  | _ => True

/-- A row that a resume reads back: the contract, the graph, what completes a
cell. -/
def EventPayload.carried : EventPayload → Bool
  | .contractProposed _ _ _ _ _ _ _ _ _ _ _ _ | .graphAccepted _ _ _ _ | .cellCompleted _ _ _
  | .cellAdvanced _ _ => true
  | _ => false

/-- The row of an accepted graph. -/
def GraphVersion.accepted (graph : GraphVersion) : EventPayload :=
  .graphAccepted graph.version graph.cells graph.edges graph.milestones

namespace Setting

variable (r : Setting)

/-- The events the launch re-reads. -/
def source : List EventPayload := r.launch.source

def ids : List String := r.job.graph.ids

/-- The rows of the source speak of the run's graph. -/
def Sound : Prop := ∀ p ∈ r.source, p.Fits r.ids

/-- Where a row of the run itself comes from: its own contract and graph if it
is a fresh one, otherwise its source. -/
inductive Emits : EventPayload → Prop where
  | plain {p} (h : p.carried = false) : Emits p
  | contract {request} (h : r.launch = .fresh request) :
    Emits (ContractCompiler.proposedEvent r.job.contract)
  | graph {request} (h : r.launch = .fresh request) : Emits r.job.graph.accepted
  | again {p q} (hp : p ∈ r.source)
    (h : Company.reemitted r.job.initiallyCompleted p = some q) : Emits q
  | completion {p} (hp : p ∈ r.source) (h : Company.isCompletion p = true) : Emits p

/-- A row that records neither a status nor an outcome; usage is recorded only
when no cell runs any more, and marked as exhausted only if the authority is. -/
structure Quiet (ph : Phase) (s : St) (p : EventPayload) : Prop where
  status : p.status? = none
  outcome : p.outcome? = none
  usage : ∀ u ∈ p.usage?, u = s.usage ∧ ph.Spent
  dry : p.dry = true → s.auth.exhausted = true
  emits : r.Emits p

/-- The panel's verdicts on a criterion: each reviewer's is what its reply
parses to, or a fail where the call raised. -/
def Judged (i : Nat) (content : String) (verdicts : List ReviewVerdict) : Prop :=
  List.Forall₂ (fun reply v => v.passed = true →
    reviewReply r.co.validateVerdict (reply i content) = .ok v) r.co.replies verdicts

/-- Every soft criterion was reviewed by a panel of at least two, whose
verdicts its calibration record accepts. -/
def Releasable (s : St) : Prop :=
  ∀ i c, r.job.contract.acceptanceCriteria[i]? = some c → c.kind = .softRubric →
    minBlindedReviewers ≤ r.co.replies.length ∧
      ∃ content verdicts, r.Judged i content verdicts ∧ Obs.reviewed i verdicts ∈ s.history ∧
        Calibrated r.co.calibration r.co.replies.length i verdicts

/-- The outcome that may be recorded now, and the statuses behind it. -/
def Settles (s : St) (o : RunOutcome) (path : List RunStatus) : Phase → Prop
  | .intake => o = .abstained ∧ path = [.abstained] ∧ s.currentStatus = .contracted
  | .cut o' => o = o' ∧ RunStatus.executing.route o.toStatus = some path
  | .verifying => path = [o.toStatus] ∧ (o = .verified → r.Releasable s)
  | _ => False

end Setting

namespace St

/-- An outcome abstained for the budget is of a usage that exceeds it. -/
def Overspent (contract : WorkContract) (o : RunOutcome) (reason : String) (s : St) : Prop :=
  o = .abstained → reason = ReleaseLaw.budgetReason → s.usage.exceeds contract.budget = true

/-- The outcome is recorded and kept in `terminal_outcome`. -/
def settle (c : Bool) (o : RunOutcome) (reason : String) (s : St) : St :=
  { s.append c (.outcomeEmitted o reason) with terminalOutcome := some o }

/-- A status is recorded; the local status becomes `current`. -/
def advance (t current : RunStatus) (s : St) : St :=
  { s.append false (.statusChanged t) with currentStatus := current }

end St

/-- The cell ids are distinct. -/
def Setting.Distinct (r : Setting) : Prop := r.job.Distinct

/-- A fresh run's graph has been validated. -/
def Setting.Checked (r : Setting) : Prop :=
  ∀ request, r.launch = .fresh request → r.Distinct

/-- The rows a run's source had to leave are in its log. -/
def Setting.Seeded (r : Setting) (s : St) : Prop :=
  ∀ p ∈ r.source, Company.isCompletion p = true → p.stored ∈ s.log

inductive Reach (r : Setting) : Phase → St → Prop where
  | start : Reach r .intake (Company.begin r.job { shared := r.shared })
  | row {ph s p} (h : Reach r ph s) (ho : ph.Open) (hq : r.Quiet ph s p) :
    Reach r ph (s.append false p)
  | rowCancelled {ph s p} (h : Reach r ph s) (ho : ph.Open) (hq : r.Quiet ph s p) :
    Reach r .failing (s.append true p)
  | refused {ph s} (p : EventPayload) (h : Reach r ph s) (ha : ph.Active) :
    Reach r .failing (s.appendFailed p)
  | interrupted {ph s} (h : Reach r ph s) (ho : ph.Open) : Reach r .failing s
  | advance {s t} (h : Reach r .intake s) (hc : s.currentStatus.canTransition t = true)
    (ht : t.isTerminal = false) : Reach r .intake (s.advance t t)
  | advanceCancelled {s t} (h : Reach r .intake s) (hc : s.currentStatus.canTransition t = true)
    (ht : t.isTerminal = false) : Reach r .failing (s.append true (.statusChanged t))
  | consulted {ph s} (spends : List Spend) (h : Reach r ph s) (ho : ph.Open) :
    Reach r ph (s.note (.consulted spends))
  | execute {s} (h : Reach r .intake s) (hc : s.currentStatus = .executing)
    (hs : r.Seeded s) (hf : Fresh s) (hd : r.Checked) : Reach r .executing s
  | wave {s t} (h : Reach r .executing s) (hw : WaveStep r.co r.job s t) : Reach r .executing t
  | exhausted {s} (h : Reach r .executing s) :
    Reach r (.cut .abstained) (s.note (.boundary s.usage))
  | cut {s o} (h : Reach r .executing s) (ho : o ≠ .verified) : Reach r (.cut o) s
  | finish {s} (h : Reach r .executing s)
    (hl : s.completedIds.length = r.job.graph.cells.length) : Reach r .finishing s
  | verify {s} (h : Reach r .finishing s) :
    Reach r .verifying (s.append false (.statusChanged .verifying))
  | verifyCancelled {s} (h : Reach r .finishing s) :
    Reach r .failing (s.append true (.statusChanged .verifying))
  | audit {s} (h : Reach r .verifying s) : Reach r .verifying (s.note (.audited s.toolsUsed))
  | review {s} (i : Nat) (verdicts : List ReviewVerdict) (h : Reach r .verifying s) :
    Reach r .verifying (s.note (.reviewed i verdicts))
  | settle {ph s o path} (reason : String) (h : Reach r ph s) (ho : r.Settles s o path ph)
    (hb : s.Overspent r.job.contract o reason) :
    Reach r (.settled o path) (s.settle false o reason)
  | settleCancelled {ph s o path} (reason : String) (h : Reach r ph s)
    (ho : r.Settles s o path ph) (hb : s.Overspent r.job.contract o reason) :
    Reach r .failing (s.settle true o reason)
  | status {s o t path} (current : RunStatus) (h : Reach r (.settled o (t :: path)) s)
    (hc : current = t ∨ path = []) : Reach r (.settled o path) (s.advance t current)
  | statusCancelled {s o t path} (h : Reach r (.settled o (t :: path)) s) :
    Reach r .failing (s.append true (.statusChanged t))
  | mendOutcome {s} (reason : String) (h : Reach r .failing s) (ht : s.terminalOutcome = none) :
    Reach r (.mending .failed) (s.append false (.outcomeEmitted .failed reason))
  | mendKept {s o} (h : Reach r .failing s) (ht : s.terminalOutcome = some o) :
    Reach r (.mending o) s
  | mendStatus {s o} (h : Reach r (.mending o) s)
    (hc : s.currentStatus.canTransition o.toStatus = true) :
    Reach r .ended (s.append false (.statusChanged o.toStatus))
  | mendNothing {s o} (h : Reach r (.mending o) s)
    (hc : s.currentStatus.canTransition o.toStatus = false) : Reach r .ended s
  | mendRefused {s} (p : EventPayload) (h : Reach r .failing s) :
    Reach r .ended (s.appendFailed p)
  | mendStatusRefused {s o} (p : EventPayload) (h : Reach r (.mending o) s) :
    Reach r .ended (s.appendFailed p)

/-! ## Where the local status stands -/

/-- The status the source's local holds in a phase. -/
def Phase.Local (s : St) : Phase → Prop
  | .executing | .cut _ | .finishing | .verifying => s.currentStatus = .executing
  | _ => True

theorem CellStep.local_eq {T : Terms} {s t : St} (h : CellStep T s t)
    (hs : s.currentStatus = .executing) : t.currentStatus = .executing :=
  h.frame.currentStatus.trans hs

theorem WaveStep.local_eq {co : Company} {job : Job} {s t : St} (h : WaveStep co job s t) :
    t.currentStatus = s.currentStatus := by
  cases h with
  | cell hm hs => exact hs.frame.currentStatus
  | collect hc hr => exact St.collected_currentStatus _ _ _
  | _ => rfl

theorem Reach.local {r : Setting} {ph : Phase} {s : St} (h : Reach r ph s) : ph.Local s := by
  induction h with
  | row h ho hq ih => cases ‹Phase› <;> exact ih
  | consulted spends h ho ih => cases ‹Phase› <;> exact ih
  | execute h hc hs ht hd ih => exact hc
  | wave h hw ih => exact hw.local_eq.trans ih
  | exhausted h ih => exact ih
  | cut h ho ih => exact ih
  | finish h hl ih => exact ih
  | verify h ih => exact ih
  | audit h ih => exact ih
  | review i verdicts h ih => exact ih
  | _ => trivial

/-! ## Before the waves -/

/-- The completions of the source are of cells that are counted from the start. -/
def Setting.Backs (r : Setting) : Prop :=
  ∀ p ∈ r.source, ∀ f ∈ p.figure?, f.1 ∈ r.job.initiallyCompleted

/-- A row of the run itself reports no usage but of cells counted from the start. -/
theorem Setting.Emits.figure {r : Setting} {p : EventPayload} (h : r.Emits p) (hb : r.Backs) :
    ∀ f ∈ p.figure?, f.1 ∈ r.job.initiallyCompleted := by
  intro f hf
  cases h with
  | plain hc =>
    cases p with
    | cellCompleted => cases hc
    | _ => cases hf
  | contract => cases hf
  | graph => cases hf
  | @again p q hp hq =>
    cases p with
    | analysisRequested | analysisCompleted | contractProposed | contractValidated
    | graphAccepted =>
      cases hq
      cases hf
    | _ => cases hq
  | completion hp hc => exact hb _ hp f hf

theorem Fresh.note {s : St} {o : Obs} (h : Fresh s) (ho : ∀ id ∈ o.cell?, id ∈ s.completedIds)
    (hw : o.ofWave = false) : Fresh (s.note o) where
  failedIds := h.failedIds
  cells := by
    intro x hx
    rcases List.mem_append.mp hx with hx | hx
    · exact h.cells x hx
    · rw [List.mem_singleton.mp hx]
      exact ho
  idle := avoids_note.mpr ⟨h.idle, hw⟩

theorem Fresh.append {s : St} {p : EventPayload} (h : Fresh s)
    (hp : ∀ f ∈ p.figure?, f.1 ∈ s.completedIds) (c : Bool) : Fresh (s.append c p) := by
  have hn := h.note (o := .appended p s.currentStatus s.terminalOutcome c) (fun id hid => by
    obtain ⟨f, hf, rfl⟩ := Option.map_eq_some_iff.mp hid
    exact hp f hf) rfl
  exact ⟨hn.failedIds, hn.cells, hn.idle⟩

/-- Before EXECUTING no wave has begun. -/
theorem Reach.fresh {r : Setting} (hb : r.Backs) {ph : Phase} {s : St} (h : Reach r ph s) :
    ph = .intake → s.completedIds = r.job.initiallyCompleted ∧ Fresh s := by
  induction h with
  | start => exact fun _ => ⟨rfl, rfl, List.forall_mem_nil _, List.forall_mem_nil _⟩
  | @row ph s p h ho hq ih =>
    intro hph
    obtain ⟨hids, hf⟩ := ih hph
    exact ⟨hids, hf.append (hids ▸ hq.emits.figure hb) false⟩
  | @advance s t h hc ht ih =>
    intro hph
    obtain ⟨hids, hf⟩ := ih hph
    have hn := hf.append (p := .statusChanged t) nofun false
    exact ⟨hids, hn.failedIds, hn.cells, hn.idle⟩
  | consulted spends h ho ih =>
    intro hph
    exact ⟨(ih hph).1, (ih hph).2.note nofun rfl⟩
  | _ => exact nofun

end Northstack
