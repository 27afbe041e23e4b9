import Northstack.Application.Refinement

/-!
# How a run's ledger ends

Two things can go wrong with the terminal rows, and both need a cancellation
that arrives while one append is in flight, because only then is a row stored
and an exception raised behind it:

* the outcome is recorded, or an outcome is recorded and the run is walking
  to its status, while the local status cannot reach it: the handler's
  `_emit_status` is illegal, its `ValueError` is swallowed, and the ledger
  keeps a status that is not terminal (`Obs.strands`);
* the terminal status itself is recorded while the local status still has an
  edge to it: the handler records it a second time, and the ledger does not
  fold any more (`Obs.repeats`).

**Results.**
* `outcome_and_status_agree`: without the first, a run over a ledger whose
  appends succeed ends with one outcome and its status.
* `statuses_replay`: without the second, the statuses of every run are legal
  at every moment, so its events fold.
* `cancelled_outcome_strands`, `cancelled_status_repeats`: a run with each.
-/
namespace Northstack

open Coop Relation

/-! ## The two situations -/

/-- An append that was cancelled while an outcome is recorded, or being
recorded, that neither this row nor the handler gives its status. -/
def Obs.strands : Obs → Bool
  | .appended p current terminal true =>
    match p.outcome?.or terminal with
    | some o => p.status? ≠ some o.toStatus && !current.canTransition o.toStatus
    | none => false
  | _ => false

/-- A terminal status whose append was cancelled and that the local status can
still go to. -/
def Obs.repeats : Obs → Bool
  | .appended p current _ true =>
    match p.status? with
    | some t => t.isTerminal && current.canTransition t
    | none => false
  | _ => false

def Obs.refused : Obs → Bool
  | .appendFailed _ => true
  | _ => false

/-! ## What each step records -/

section Rows

variable {s t : St} {p : EventPayload} {c : Bool}

@[simp] theorem statuses_append_row : statuses (s.append c p).log =
    statuses s.log ++ p.status?.toList := by
  simp [St.append, St.note, statuses_append]

@[simp] theorem outcomes_append_row : outcomes (s.append c p).log =
    outcomes s.log ++ p.outcome?.toList := by
  simp [St.append, St.note, outcomes_append]

@[simp] theorem lastStatus_append_row : lastStatus (s.append c p).log =
    p.status?.getD (lastStatus s.log) := by
  simp [St.append, St.note, lastStatus_append]

/-- A cell's row is neither a status nor an outcome. -/
theorem EventPayload.OfCell.quiet {id : String} (h : p.OfCell id) :
    p.status? = none ∧ p.outcome? = none := by
  cases p <;> first | exact ⟨rfl, rfl⟩ | cases h

theorem CellStep.statuses_eq {T : Terms} (h : CellStep T s t) :
    statuses t.log = statuses s.log ∧ outcomes t.log = outcomes s.log := by
  rcases h.log with hl | ⟨p, hl, hp⟩
  · rw [hl]
    exact ⟨rfl, rfl⟩
  · rw [hl, statuses_append, outcomes_append, status?_stored, outcome?_stored, hp.quiet.1,
      hp.quiet.2]
    exact ⟨List.append_nil _, List.append_nil _⟩

/-- The waves record neither a status nor an outcome. -/
theorem WaveStep.statuses_eq {co : Company} {job : Job} (h : WaveStep co job s t) :
    statuses t.log = statuses s.log ∧ outcomes t.log = outcomes s.log ∧
      t.terminalOutcome = s.terminalOutcome := by
  cases h with
  | cell hm hs => exact ⟨hs.statuses_eq.1, hs.statuses_eq.2, hs.frame.terminalOutcome⟩
  | @collect c result _ hc hr =>
    obtain ⟨h1, h2⟩ := s.collected_log c.id result
    exact ⟨by rw [h1], by rw [h1], h2⟩
  | _ => exact ⟨rfl, rfl, rfl⟩

end Rows

/-! ## The invariant -/

/-- The handler will give the outcome its status, unless the run was stranded,
and will not give it twice, unless it was about to. -/
structure Mendable (o : RunOutcome) (s : St) : Prop where
  reachable : Avoids Obs.strands s → Avoids Obs.refused s →
    lastStatus s.log = o.toStatus ∨ s.currentStatus.canTransition o.toStatus = true
  once : Avoids Obs.repeats s → s.currentStatus.canTransition o.toStatus = true →
    (lastStatus s.log).canTransition o.toStatus = true

/-- What is left of the walk to the outcome's status. -/
def Walk (o : RunOutcome) (s : St) (path : List RunStatus) : Prop :=
  (path = [] ∧ lastStatus s.log = o.toStatus) ∨
    (path = [o.toStatus] ∧ (lastStatus s.log).canTransition o.toStatus = true) ∨
    (path = [.verifying, .abstained] ∧ o = .abstained ∧ lastStatus s.log = .executing ∧
      s.currentStatus = .executing)

/-- No outcome is recorded, and the last status recorded is `last`. -/
structure Undecided (last : RunStatus) (s : St) : Prop where
  terminal : s.terminalOutcome = none
  outcomes : outcomes s.log = []
  last : lastStatus s.log = last

/-- What the ledger's terminal rows look like in each phase. -/
def Phase.Ledger (s : St) : Phase → Prop
  | .intake => Undecided s.currentStatus s ∧ s.currentStatus.isTerminal = false
  | .executing | .cut _ | .finishing => Undecided .executing s
  | .verifying => Undecided .verifying s
  | .settled o path => s.terminalOutcome = some o ∧ outcomes s.log = [o] ∧ Walk o s path
  | .failing =>
    (Undecided (lastStatus s.log) s ∧ (lastStatus s.log).isTerminal = false ∧
        s.currentStatus.isTerminal = false) ∨
      ∃ o, s.terminalOutcome = some o ∧ outcomes s.log = [o] ∧ Mendable o s
  | .mending o => outcomes s.log = [o] ∧ Mendable o s
  | .ended => Avoids Obs.strands s → Avoids Obs.refused s →
      ∃ o, outcomes s.log = [o] ∧ lastStatus s.log = o.toStatus

/-- The statuses recorded so far fold. -/
def Replays (s : St) : Prop :=
  Avoids Obs.repeats s → RunStatus.legalFrom .intake (statuses s.log) = true

/-- A row extends a legal path by its status, if it is one. -/
theorem Replays.append {s : St} (h : Replays s) (c : Bool) (p : EventPayload)
    (hp : Avoids Obs.repeats s → ∀ t ∈ p.status?, (lastStatus s.log).canTransition t = true) :
    Replays (s.append c p) := by
  intro ha
  have hs := (avoids_append.mp ha).1
  rw [statuses_append_row]
  cases ht : p.status? with
  | none => simpa [ht] using h hs
  | some t =>
    rw [Option.toList_some, RunStatus.legalFrom_append, h hs, Bool.true_and]
    exact hp hs t ht

/-- A row without a status. -/
theorem Replays.append_quiet {s : St} (h : Replays s) (c : Bool) {p : EventPayload}
    (hp : p.status? = none) : Replays (s.append c p) :=
  h.append c p fun _ t ht => by rw [hp] at ht; cases ht

/-- A legal status. -/
theorem Replays.append_status {s : St} (h : Replays s) (c : Bool) {t : RunStatus}
    (hp : Avoids Obs.repeats s → (lastStatus s.log).canTransition t = true) :
    Replays (s.append c (.statusChanged t)) := by
  refine h.append c _ fun hs u hu => ?_
  cases hu
  exact hp hs

section Steps

variable {s t : St} {p : EventPayload} {last : RunStatus}

theorem Undecided.of_eq (h : Undecided last s) (hs : statuses t.log = statuses s.log)
    (ho : Northstack.outcomes t.log = Northstack.outcomes s.log)
    (ht : t.terminalOutcome = s.terminalOutcome) : Undecided last t where
  terminal := ht.trans h.terminal
  outcomes := ho.trans h.outcomes
  last := by
    rw [← h.last]
    unfold lastStatus
    rw [hs]

theorem Undecided.append (h : Undecided last s) (c : Bool) (ho : p.outcome? = none) :
    Undecided (p.status?.getD last) (s.append c p) where
  terminal := h.terminal
  outcomes := by simp [ho, h.outcomes]
  last := by simp [h.last]

/-- An exception before the outcome: the handler may still choose it. -/
theorem Undecided.failing (h : Undecided last s) (hl : last.isTerminal = false)
    (hc : s.currentStatus.isTerminal = false) : Phase.Ledger s .failing := by
  obtain ⟨ht, ho, rfl⟩ := h
  exact .inl ⟨⟨ht, ho, rfl⟩, hl, hc⟩

/-- The last status of an open phase is not terminal, and neither is the local
one. -/
theorem open_undecided {r : Setting} {ph : Phase} (h : Reach r ph s) (ho : ph.Open)
    (hl : ph.Ledger s) : ∃ last, Undecided last s ∧ last.isTerminal = false ∧
      s.currentStatus.isTerminal = false := by
  have hloc := h.local
  cases ph with
  | intake => exact ⟨_, hl.1, hl.2, hl.2⟩
  | executing => exact ⟨_, hl, rfl, by rw [show s.currentStatus = _ from hloc]; rfl⟩
  | cut o => exact ⟨_, hl, rfl, by rw [show s.currentStatus = _ from hloc]; rfl⟩
  | finishing => exact ⟨_, hl, rfl, by rw [show s.currentStatus = _ from hloc]; rfl⟩
  | verifying => exact ⟨_, hl, rfl, by rw [show s.currentStatus = _ from hloc]; rfl⟩
  | _ => exact ho.elim

/-- A quiet row leaves an open phase's ledger as it is. -/
theorem ledger_row {r : Setting} {ph : Phase} (hq : r.Quiet ph s p) (ho : ph.Open)
    (hl : ph.Ledger s) : ph.Ledger (s.append false p) := by
  have key : ∀ {last}, Undecided last s → Undecided last (s.append false p) := by
    intro last hu
    have := hu.append (p := p) false hq.outcome
    rwa [hq.status] at this
  cases ph with
  | intake => exact ⟨key hl.1, hl.2⟩
  | executing => exact key hl
  | cut o => exact key hl
  | finishing => exact key hl
  | verifying => exact key hl
  | _ => exact ho.elim

/-- The statuses of a settled walk are its outcome's last and legal. -/
theorem Walk.of_route {o : RunOutcome} {path : List RunStatus}
    (h : RunStatus.executing.route o.toStatus = some path)
    (hl : lastStatus s.log = .executing) (hc : s.currentStatus = .executing) : Walk o s path := by
  cases o with
  | verified => cases h
  | abstained =>
    cases h
    exact .inr (.inr ⟨rfl, rfl, hl, hc⟩)
  | failed =>
    cases h
    exact .inr (.inl ⟨rfl, by rw [hl]; rfl⟩)

/-- Where the outcome is recorded, the walk to its status begins. -/
theorem settles_walk {r : Setting} {ph : Phase} {o : RunOutcome} {path : List RunStatus}
    (h : Reach r ph s) (hl : ph.Ledger s) (hs : r.Settles s o path ph) :
    s.terminalOutcome = none ∧ outcomes s.log = [] ∧ Walk o s path := by
  have hloc := h.local
  cases ph with
  | intake =>
    obtain ⟨rfl, rfl, hc⟩ := hs
    refine ⟨hl.1.terminal, hl.1.outcomes, .inr (.inl ⟨rfl, ?_⟩)⟩
    rw [hl.1.last, hc]
    rfl
  | cut o' =>
    obtain ⟨rfl, hp⟩ := hs
    exact ⟨hl.terminal, hl.outcomes, .of_route hp hl.last hloc⟩
  | verifying =>
    obtain ⟨rfl, -⟩ := hs
    refine ⟨hl.terminal, hl.outcomes, .inr (.inl ⟨rfl, ?_⟩)⟩
    rw [hl.last]
    cases o <;> rfl
  | _ => exact hs.elim

theorem settles_ne_nil {r : Setting} {ph : Phase} {o : RunOutcome} {path : List RunStatus}
    (h : r.Settles s o path ph) : path ≠ [] := by
  cases ph with
  | intake => exact h.2.1 ▸ List.cons_ne_nil _ _
  | cut o' =>
    obtain ⟨rfl, hp⟩ := h
    cases o <;> cases hp <;> exact List.cons_ne_nil _ _
  | verifying => exact h.1 ▸ List.cons_ne_nil _ _
  | _ => exact h.elim

theorem settle_ledger {o : RunOutcome} (c : Bool) (reason : String) (ho : outcomes s.log = []) :
    outcomes (s.settle c o reason).log = [o] ∧
      lastStatus (s.settle c o reason).log = lastStatus s.log := by
  refine ⟨?_, ?_⟩
  · show outcomes (s.append c (.outcomeEmitted o reason)).log = [o]
    simp [ho, EventPayload.outcome?]
  · show lastStatus (s.append c (.outcomeEmitted o reason)).log = _
    simp [EventPayload.status?]

/-- The outcome's own append was cancelled. -/
theorem settleCancelled_ledger {o : RunOutcome} {path : List RunStatus} {reason : String}
    (hw : Walk o s path) (hne : path ≠ []) (ho : outcomes s.log = []) :
    Phase.Ledger (s.settle true o reason) .failing := by
  obtain ⟨h1, h2⟩ := settle_ledger (o := o) true reason ho
  refine .inr ⟨o, rfl, h1, ?_, ?_⟩
  · intro ha _
    have := (avoids_append (s := s) (c := true) (p := .outcomeEmitted o reason)).mp ha
    right
    show s.currentStatus.canTransition o.toStatus = true
    simpa [Obs.strands, EventPayload.outcome?, EventPayload.status?] using this.2
  · intro _ hc
    rw [h2]
    rcases hw with ⟨he, -⟩ | ⟨-, hl⟩ | ⟨-, rfl, -, hcur⟩
    · exact absurd he hne
    · exact hl
    · have hc : s.currentStatus.canTransition .abstained = true := hc
      rw [hcur] at hc
      cases hc

end Steps

/-- The last row of a walk, or the one before it. -/
theorem Walk.cons {o : RunOutcome} {s : St} {t : RunStatus} {path : List RunStatus}
    (h : Walk o s (t :: path)) :
    (lastStatus s.log).canTransition t = true ∧
      ((path = [] ∧ t = o.toStatus) ∨
        (path = [.abstained] ∧ t = .verifying ∧ o = .abstained ∧ s.currentStatus = .executing)) := by
  rcases h with ⟨he, -⟩ | ⟨he, hc⟩ | ⟨he, ho, hl, hcur⟩
  · cases he
  · cases he
    exact ⟨hc, .inl ⟨rfl, rfl⟩⟩
  · cases he
    exact ⟨by rw [hl]; rfl, .inr ⟨rfl, rfl, ho, hcur⟩⟩

/-- A status of the walk was recorded and a cancellation raised behind it. -/
theorem statusCancelled_ledger {o : RunOutcome} {s : St} {t : RunStatus} {path : List RunStatus}
    (ht : s.terminalOutcome = some o) (ho : outcomes s.log = [o]) (hw : Walk o s (t :: path)) :
    Phase.Ledger (s.append true (.statusChanged t)) .failing := by
  obtain ⟨-, hcase⟩ := hw.cons
  refine .inr ⟨o, ht, by simp [EventPayload.outcome?, ho], ?_, ?_⟩
  · intro ha _
    rcases hcase with ⟨-, rfl⟩ | ⟨-, rfl, rfl, -⟩
    · exact .inl (by simp [EventPayload.status?])
    · right
      have := (avoids_append.mp ha).2
      show s.currentStatus.canTransition .abstained = true
      simpa [Obs.strands, EventPayload.outcome?, EventPayload.status?, ht, RunOutcome.toStatus]
        using this
  · intro ha hc
    rw [lastStatus_append_row]
    rcases hcase with ⟨-, rfl⟩ | ⟨-, rfl, rfl, hcur⟩
    · have := (avoids_append.mp ha).2
      simp only [Obs.repeats, EventPayload.status?, RunOutcome.toStatus_isTerminal,
        Bool.true_and] at this
      rw [show (s.append true (.statusChanged o.toStatus)).currentStatus = s.currentStatus from rfl,
        this] at hc
      cases hc
    · rfl

/-- One status further. -/
theorem status_walk {o : RunOutcome} {s : St} {t current : RunStatus} {path : List RunStatus}
    (hw : Walk o s (t :: path)) : Walk o (s.advance t current) path := by
  have hlast : lastStatus (s.advance t current).log = t := by
    show lastStatus (s.append false (.statusChanged t)).log = t
    simp [EventPayload.status?]
  obtain ⟨-, ⟨rfl, rfl⟩ | ⟨rfl, rfl, rfl, -⟩⟩ := hw.cons
  · exact .inl ⟨rfl, hlast⟩
  · exact .inr (.inl ⟨rfl, by rw [hlast]; rfl⟩)

/-- An append was refused on the walk. -/
theorem refused_ledger {o : RunOutcome} {s : St} {path : List RunStatus} (p : EventPayload)
    (ht : s.terminalOutcome = some o) (ho : outcomes s.log = [o]) (hw : Walk o s path)
    (hne : path ≠ []) : Phase.Ledger (s.appendFailed p) .failing := by
  refine .inr ⟨o, ht, ho, fun _ hr => ?_, fun _ hc => ?_⟩
  · cases (avoids_note.mp hr).2
  · rcases hw with ⟨he, -⟩ | ⟨-, hl⟩ | ⟨-, rfl, -, hcur⟩
    · exact absurd he hne
    · exact hl
    · rw [show (s.appendFailed p).currentStatus = _ from hcur] at hc
      cases hc

/-- The ledger's terminal rows and its statuses, in every state of a run. -/
theorem Reach.ledger {r : Setting} {ph : Phase} {s : St} (h : Reach r ph s) :
    ph.Ledger s ∧ Replays s := by
  induction h with
  | start => exact ⟨⟨⟨rfl, rfl, rfl⟩, rfl⟩, fun _ => rfl⟩
  | row h ho hq ih => exact ⟨ledger_row hq ho ih.1, ih.2.append_quiet false hq.status⟩
  | @rowCancelled ph s p h ho hq ih =>
    obtain ⟨last, hu, hl, hc⟩ := open_undecided h ho ih.1
    have hu' := hu.append (p := p) true hq.outcome
    rw [hq.status] at hu'
    exact ⟨hu'.failing hl hc, ih.2.append_quiet true hq.status⟩
  | @refused ph s p h ha ih =>
    refine ⟨?_, fun ha => ih.2 (avoids_note.mp ha).1⟩
    have hopen : ph.Open → Phase.Ledger (s.appendFailed p) .failing := by
      intro ho
      obtain ⟨last, hu, hl, hc⟩ := open_undecided h ho ih.1
      exact (hu.of_eq (t := s.appendFailed p) rfl rfl rfl).failing hl hc
    cases ph with
    | settled o path => exact refused_ledger p ih.1.1 ih.1.2.1 ih.1.2.2 ha
    | _ => exact hopen ha
  | interrupted h ho ih =>
    obtain ⟨last, hu, hl, hc⟩ := open_undecided h ho ih.1
    exact ⟨hu.failing hl hc, ih.2⟩
  | @advance s t h hc ht ih =>
    have hu := ih.1.1.append (p := .statusChanged t) false rfl
    refine ⟨⟨⟨hu.terminal, hu.outcomes, hu.last⟩, ht⟩, ih.2.append_status false fun _ => ?_⟩
    rw [ih.1.1.last]
    exact hc
  | @advanceCancelled s t h hc ht ih =>
    have hu := ih.1.1.append (p := .statusChanged t) true rfl
    refine ⟨hu.failing ht ih.1.2, ih.2.append_status true fun _ => ?_⟩
    rw [ih.1.1.last]
    exact hc
  | consulted spends h ho ih =>
    refine ⟨?_, fun ha => ih.2 (avoids_note.mp ha).1⟩
    cases ‹Phase› with
    | intake => exact ⟨Undecided.of_eq ih.1.1 rfl rfl rfl, ih.1.2⟩
    | executing | cut | finishing | verifying => exact Undecided.of_eq ih.1 rfl rfl rfl
    | _ => exact ho.elim
  | @execute s h hc _ _ _ ih =>
    have hu := ih.1.1
    rw [hc] at hu
    exact ⟨hu, ih.2⟩
  | wave h hw ih =>
    obtain ⟨h1, h2, h3⟩ := hw.statuses_eq
    refine ⟨Undecided.of_eq ih.1 h1 h2 h3, fun ha => ?_⟩
    rw [h1]
    exact ih.2 (ha.of_grows hw.grows)
  | exhausted h ih =>
    exact ⟨Undecided.of_eq ih.1 rfl rfl rfl, fun ha => ih.2 (avoids_note.mp ha).1⟩
  | cut h ho ih => exact ih
  | finish h hl ih => exact ih
  | verify h ih =>
    refine ⟨Undecided.append ih.1 (p := .statusChanged .verifying) false rfl,
      ih.2.append_status false fun _ => ?_⟩
    rw [ih.1.last]
    rfl
  | @verifyCancelled s h ih =>
    have hloc : s.currentStatus = .executing := h.local
    refine ⟨(Undecided.append ih.1 (p := .statusChanged .verifying) true rfl).failing rfl ?_,
      ih.2.append_status true fun _ => ?_⟩
    · show s.currentStatus.isTerminal = false
      rw [hloc]
      rfl
    · rw [ih.1.last]
      rfl
  | audit h ih =>
    exact ⟨Undecided.of_eq ih.1 rfl rfl rfl, fun ha => ih.2 (avoids_note.mp ha).1⟩
  | review i verdicts h ih =>
    exact ⟨Undecided.of_eq ih.1 rfl rfl rfl, fun ha => ih.2 (avoids_note.mp ha).1⟩
  | @settle ph s o path reason h ho _ ih =>
    obtain ⟨ht, hout, hw⟩ := settles_walk h ih.1 ho
    obtain ⟨h1, h2⟩ := settle_ledger (o := o) false reason hout
    refine ⟨⟨rfl, h1, ?_⟩, ih.2.append_quiet false rfl⟩
    unfold Walk
    rw [h2]
    exact hw
  | settleCancelled reason h ho _ ih =>
    obtain ⟨ht, hout, hw⟩ := settles_walk h ih.1 ho
    exact ⟨settleCancelled_ledger hw (settles_ne_nil ho) hout, ih.2.append_quiet true rfl⟩
  | @status s o t path current h hc ih =>
    obtain ⟨ht, ho, hw⟩ := ih.1
    refine ⟨⟨ht, ?_, status_walk hw⟩, ih.2.append_status false fun _ => hw.cons.1⟩
    show outcomes (s.append false (.statusChanged t)).log = [o]
    simp [ho, EventPayload.outcome?]
  | statusCancelled h ih =>
    obtain ⟨ht, ho, hw⟩ := ih.1
    exact ⟨statusCancelled_ledger ht ho hw, ih.2.append_status true fun _ => hw.cons.1⟩
  | @mendOutcome s reason h ht ih =>
    refine ⟨?_, ih.2.append_quiet false rfl⟩
    rcases ih.1 with ⟨hu, hl, hc⟩ | ⟨o, ho, -⟩
    · refine ⟨by simp [hu.outcomes, EventPayload.outcome?], fun _ _ => .inr ?_, fun _ _ => ?_⟩
      · exact RunStatus.canTransition_failed hc
      · rw [lastStatus_append_row]
        exact RunStatus.canTransition_failed hl
    · rw [ht] at ho
      cases ho
  | mendKept h ht ih =>
    refine ⟨?_, ih.2⟩
    rcases ih.1 with ⟨hu, -⟩ | ⟨o', ho', hout, hm⟩
    · rw [hu.terminal] at ht
      cases ht
    · rw [ht] at ho'
      cases ho'
      exact ⟨hout, hm⟩
  | @mendStatus s o h hc ih =>
    obtain ⟨hout, hm⟩ := ih.1
    refine ⟨fun _ _ => ⟨o, ?_, ?_⟩, ih.2.append_status false fun hs => hm.once hs hc⟩
    · simp [hout, EventPayload.outcome?]
    · simp [EventPayload.status?]
  | @mendNothing s o h hc ih =>
    obtain ⟨hout, hm⟩ := ih.1
    refine ⟨fun h1 h2 => ⟨o, hout, ?_⟩, ih.2⟩
    rcases hm.reachable h1 h2 with hl | hr
    · exact hl
    · rw [hc] at hr
      cases hr
  | mendRefused p h ih =>
    refine ⟨fun _ hr => ?_, fun ha => ih.2 (avoids_note.mp ha).1⟩
    cases (avoids_note.mp hr).2
  | mendStatusRefused p h ih =>
    refine ⟨fun _ hr => ?_, fun ha => ih.2 (avoids_note.mp ha).1⟩
    cases (avoids_note.mp hr).2

/-! ## Every run -/

instance (bad : Obs → Bool) (s : St) : Decidable (Avoids bad s) :=
  inferInstanceAs (Decidable (∀ o ∈ s.history, bad o = false))

/-- `RequestAccepted` is in the log. -/
def recordsRequest (log : List EventPayload) : Bool :=
  log.any fun
    | .requestAccepted _ _ _ => true
    | _ => false

/-- Exactly one outcome, and the last status is the outcome's. -/
def EndsDecided (log : List EventPayload) : Prop :=
  ∃ o, outcomes log = [o] ∧ (statuses log).getLast? = some o.toStatus

theorem endsDecided_of_lastStatus {log : List EventPayload} {o : RunOutcome}
    (ho : outcomes log = [o]) (hl : lastStatus log = o.toStatus) : EndsDecided log := by
  refine ⟨o, ho, ?_⟩
  unfold lastStatus RunStatus.lastFrom at hl
  rw [List.getLastD_eq_getLast?] at hl
  cases h : (statuses log).getLast? with
  | some t =>
    rw [h] at hl
    exact congrArg some hl
  | none =>
    rw [h] at hl
    cases o <;> cases hl

/-- **One outcome and its status.** A run, fresh or resumed, over a ledger whose
appends succeed, wherever exceptions and cancellations arrive, ends with one
outcome and the outcome's status, provided no append was cancelled in a state
that strands it. -/
theorem outcome_and_status_agree (co : Company) (launch : Launch) (shared : Shared)
    (inputs : List (Input Exc)) (hended : (co.run launch shared inputs).ended = true)
    (hrec : recordsRequest (co.run launch shared inputs).state.log = true)
    (happends : Avoids Obs.refused (co.run launch shared inputs).state)
    (hclean : Avoids Obs.strands (co.run launch shared inputs).state) :
    EndsDecided (co.run launch shared inputs).state.log := by
  cases hr : co.setting? launch shared with
  | none =>
    rw [Company.run_rejected hr] at hrec
    cases hrec
  | some r =>
    rcases (Company.run_reach hr inputs).2 hended with h | ⟨o, h⟩
    · obtain ⟨o, ho, hl⟩ := h.ledger.1 hclean happends
      exact endsDecided_of_lastStatus ho hl
    · obtain ⟨-, ho, hw⟩ := h.ledger.1
      rcases hw with ⟨-, hl⟩ | ⟨he, -⟩ | ⟨he, -⟩
      · exact endsDecided_of_lastStatus ho hl
      · cases he
      · cases he

/-- A request that needs no model: no profile is configured, so its only cell
abstains. -/
def plainRequest : ProjectRequest := { goal := "g", workspaceRoot := "/" }

/-- The awaits of `plainRequest`'s run up to the append of its outcome. -/
def untilOutcome : List (Input Exc) :=
  List.replicate 16 (.wake .resume) ++ .flag false :: List.replicate 3 (.child 0 .resume) ++
    List.replicate 2 (.wake .resume)

def cancelHere : Input Exc := .wake (.raise (.cancelled none))

/-- The run that is never cancelled. -/
def undisturbed : List (Input Exc) := untilOutcome ++ List.replicate 3 (.wake .resume)

/-- A run that is cancelled when its plan was made. -/
def cancelledPlan : List (Input Exc) := List.replicate 13 (.wake .resume) ++ [cancelHere]

theorem outcome_and_status_agree_plain :
    EndsDecided (({} : Company).run (.fresh plainRequest) {} undisturbed).state.log :=
  outcome_and_status_agree {} (.fresh plainRequest) {} undisturbed (by decide +kernel)
    (by decide +kernel) (by decide +kernel) (by decide +kernel)

/-- Cancelled while its outcome is being recorded, the run keeps EXECUTING as
its last status: the handler's EXECUTING -> ABSTAINED is no edge. -/
theorem cancelled_outcome_strands :
    ¬ ∀ (co : Company) (launch : Launch) (shared : Shared) (inputs : List (Input Exc)),
      (co.run launch shared inputs).ended = true →
      recordsRequest (co.run launch shared inputs).state.log = true →
      Avoids Obs.refused (co.run launch shared inputs).state →
      EndsDecided (co.run launch shared inputs).state.log := by
  intro h
  obtain ⟨o, -, hs⟩ := h {} (.fresh plainRequest) {} (untilOutcome ++ [cancelHere, .wake .resume])
    (by decide +kernel) (by decide +kernel) (by decide +kernel)
  have hlast : (statuses (({} : Company).run (.fresh plainRequest) {}
      (untilOutcome ++ [cancelHere, .wake .resume])).state.log).getLast? = some .executing := by
    decide +kernel
  rw [hlast] at hs
  cases o <;> cases hs

/-- **Replay.** At every moment of every run, fresh or resumed, also over a
ledger that refuses appends, the statuses recorded are a legal path from INTAKE
and the events fold, provided no terminal status was cancelled while the local
status could still go to it. -/
theorem statuses_replay (co : Company) (launch : Launch) (shared : Shared)
    (inputs : List (Input Exc)) (honce : Avoids Obs.repeats (co.run launch shared inputs).state) :
    RunStatus.legalFrom .intake (statuses (co.run launch shared inputs).state.log) = true ∧
      ∃ state, replayRun (co.run launch shared inputs).state.log = .ok state := by
  have hlegal : RunStatus.legalFrom .intake
      (statuses (co.run launch shared inputs).state.log) = true := by
    cases hr : co.setting? launch shared with
    | none =>
      rw [Company.run_rejected hr]
      rfl
    | some r =>
      obtain ⟨ph, h⟩ := (Company.run_reach hr inputs).1
      exact h.ledger.2 honce
  exact ⟨hlegal, (replay_ok_iff _).mpr hlegal⟩

theorem statuses_replay_cancelled :
    RunStatus.legalFrom .intake
      (statuses (({} : Company).run (.fresh plainRequest) {} cancelledPlan).state.log) = true ∧
      ∃ state, replayRun (({} : Company).run (.fresh plainRequest) {} cancelledPlan).state.log =
        .ok state :=
  statuses_replay {} (.fresh plainRequest) {} cancelledPlan (by decide +kernel)

/-- Cancelled while ABSTAINED is being recorded behind VERIFYING, the run
records ABSTAINED twice, and its events do not fold. -/
theorem cancelled_status_repeats :
    ¬ ∀ (co : Company) (launch : Launch) (shared : Shared) (inputs : List (Input Exc)),
      RunStatus.legalFrom .intake (statuses (co.run launch shared inputs).state.log) = true ∧
        ∃ state, replayRun (co.run launch shared inputs).state.log = .ok state := by
  intro h
  have hs := (h {} (.fresh plainRequest) {}
    (untilOutcome ++ [.wake .resume, .wake .resume, cancelHere, .wake .resume])).1
  have hne : RunStatus.legalFrom .intake (statuses (({} : Company).run (.fresh plainRequest) {}
      (untilOutcome ++ [.wake .resume, .wake .resume, cancelHere, .wake .resume])).state.log) =
      false := by
    decide +kernel
  rw [hne] at hs
  cases hs

end Northstack
