import Northstack.Application.WorkerSteps
import Northstack.Core.Latest
import Northstack.Core.TaskReports
import Northstack.Core.Trace

/-!
# What the record of a cell says of its end

`run_cell` records the action it chose for a failed attempt before it asks the
router for another profile. `Mark` is what a cell's rows say of its routes and
of its recovery, `Right` is what they promise of the cell's end: no profile
left is an abstention, and the last transition names what was done.

**Results.**
* `recovery_iff`: a cell ends as its record says exactly if every reroute it
  recorded for a failure that is not transient found a profile.
* `reroute_without_profile`: a cell with one profile, whose model lacks what the
  request needs, ends in FAILED behind a transition that names a reroute.
-/
namespace Northstack

open Coop CellRunner Trace Latest

namespace RecoveryRecord

/-! ## Marks -/

/-- A transition with the usage of the run when it was recorded. -/
structure Transition where
  failure : FailureType
  action : RecoveryAction
  usage : BudgetUsage
  deriving DecidableEq

/-- What a row says of a cell's route or of its recovery. -/
inductive Mark where
  | routed (profile : String)
  | recovered (t : Transition)
  deriving DecidableEq

namespace Mark

def profile? : Mark → Option String
  | .routed profile => some profile
  | .recovered _ => none

def transition? : Mark → Option Transition
  | .routed _ => none
  | .recovered t => some t

end Mark

/-- The mark of a row about the cell. -/
def rowMark (id : String) (usage : BudgetUsage) : EventPayload → Option Mark
  | .routeSelected i profile _ => if i = id then some (.routed profile) else none
  | .recoveryTransition i failure action _ _ =>
    if i = id then some (.recovered { failure := failure, action := action, usage := usage })
    else none
  | _ => none

def mark? (id : String) (usage : BudgetUsage) : Obs → Option Mark
  | .appended p _ _ _ => rowMark id usage p
  | _ => none

/-- What one step marks. -/
def marks (id : String) (s t : St) : List Mark :=
  (t.history.drop s.history.length).filterMap (mark? id t.usage)

/-- The profile the cell is on, and the last transition. -/
def profileOf (told : List Mark) : String := (latest Mark.profile? told).getD ""

def lastTransition (told : List Mark) : Option Transition := latest Mark.transition? told

section Marks

variable {id : String} {s : St}

theorem marks_of_eq {f : St → St} (h : (f s).history = s.history) : marks id s (f s) = [] := by
  unfold marks
  rw [h, List.drop_length]
  rfl

theorem marks_of_note {f : St → St} {o : Obs} (h : (f s).history = s.history ++ [o]) :
    marks id s (f s) = (mark? id (f s).usage o).toList := by
  unfold marks
  rw [h, List.drop_left]
  cases hm : mark? id (f s).usage o <;> simp [hm]

@[simp] theorem profileOf_routed (told : List Mark) (profile : String) :
    profileOf (told ++ [.routed profile]) = profile := by
  unfold profileOf
  rw [latest_append, latest_cons]
  rfl

@[simp] theorem profileOf_recovered (told : List Mark) (t : Transition) :
    profileOf (told ++ [.recovered t]) = profileOf told := by
  unfold profileOf
  rw [latest_append, latest_cons]
  rfl

@[simp] theorem lastTransition_recovered (told : List Mark) (t : Transition) :
    lastTransition (told ++ [.recovered t]) = some t := by
  unfold lastTransition
  rw [latest_append, latest_cons]
  rfl

end Marks

/-! ## What is promised -/

variable (c : CellInput)

/-- The decision a cell starts with (cell_runner.py:280-282). -/
def initial : RouteDecision := route c.config c.cell none [] (needs c)

/-- The decision of a reroute: the profile that failed is excluded, and what is
left of the budget counts (cell_runner.py:389-395). -/
def reroute (usage : BudgetUsage) (profile : String) : RouteDecision :=
  route c.config c.cell (some (usage.remaining c.contract.budget)) [profile] (needs c)

/-- The router found no profile where the cell stopped. -/
def NoProfile (told : List Mark) : Prop :=
  (initial c).abstained = true ∨ ∃ t ∈ lastTransition told,
    t.action = .rerouteEscalate ∧ (reroute c t.usage (profileOf told)).abstained = true

/-- The cell did stop with the action, in the verdict of its kind. -/
def Taken (action : RecoveryAction) (o : RunOutcome) : Prop :=
  ¬ Continues action ∧ o = if isAbstain action then .abstained else .failed

/-- The cell ended as its record says. -/
structure Right (told : List Mark) (o : RunOutcome) : Prop where
  abstains : NoProfile c told → o = .abstained
  named : (initial c).abstained = false → ∃ t ∈ lastTransition told, Taken t.action o

/-- A reroute of a failure that is not transient finds a profile. -/
def Finds (told : List Mark) : Mark → Prop
  | .routed _ => True
  | .recovered t => t.action = .rerouteEscalate → t.failure ≠ .transient →
      (reroute c t.usage (profileOf told)).abstained = false

variable {c} {told : List Mark} {t : Transition}

/-- Any other action that ends the cell is the one its record names. -/
theorem right_of_stop (hinit : (initial c).abstained = false) (hstop : ¬ Continues t.action) :
    Right c (told ++ [.recovered t]) (if isAbstain t.action then .abstained else .failed) := by
  refine ⟨fun hno => ?_, fun _ => ⟨t, lastTransition_recovered told t, hstop, rfl⟩⟩
  rcases hno with hno | ⟨t', ht', haction, -⟩
  · rw [hinit] at hno
    cases hno
  · rw [lastTransition_recovered] at ht'
    cases ht'
    exact absurd (.inr haction) hstop

/-- A reroute that was recorded but not taken is not what was done. -/
theorem not_right_of_reroute (hinit : (initial c).abstained = false)
    (haction : t.action = .rerouteEscalate) (o : RunOutcome) :
    ¬ Right c (told ++ [.recovered t]) o := by
  intro h
  obtain ⟨t', ht', hstop, -⟩ := h.named hinit
  rw [lastTransition_recovered] at ht'
  cases ht'
  exact hstop (.inr haction)

theorem finds_of_ne (h : t.action ≠ .rerouteEscalate) : Finds c told (.recovered t) :=
  fun haction => absurd haction h

/-! ## What is silent -/

section Silent

variable {w : WorkerInput} {id : String}

/-- Progress is no mark. -/
theorem workerSteps_silent (w : WorkerInput) (id : String) :
    WorkerSteps w fun f => ∀ s, marks id s (f s) = [] where
  passed p ms _ := marks_of_note (f := St.pass w.cell.id w.attempt p ms) rfl
  requested ms _ := marks_of_note (f := St.note (.requested w.cell.id w.attempt ms)) rfl
  responded spend e a _ :=
    marks_of_note (f := St.note (.responded w.cell.id w.attempt spend e a)) rfl
  rewrote ms _ := marks_of_note (f := St.noteRewrite w.cell.id ms) rfl
  executed names _ := marks_of_eq (f := St.markExecuted w.cell.id names) rfl
  saved ms _ := marks_of_eq (f := St.writeCheckpoint w.cell.id ms) rfl
  progressed c step turn detail _ :=
    marks_of_note (f := St.append c (.cellProgress w.cell.id step w.attempt turn detail)) rfl
  failed p _ := marks_of_note (f := St.appendFailed p) rfl

/-- Any row but a route and a transition is silent. -/
theorem emitCell_silent {p : EventPayload} (hp : ∀ usage, rowMark id usage p = none) :
    (emitCell p).All fun f => ∀ s, marks id s (f s) = [] := by
  refine emitCell_all (fun c s => ?_) fun _ => marks_of_note (f := St.appendFailed p) rfl
  rw [marks_of_note (f := St.append c p) rfl]
  show (rowMark id _ p).toList = []
  rw [hp]
  rfl

end Silent

/-! ## One failed attempt -/

section Reports

variable {α : Type} {Q : Except Exc α → List Mark → St → Prop} {s : St}

/-- A row is stored in the state its mark is read of. -/
theorem emitCell_reports {p : EventPayload} {g : Unit → CellTask α}
    (hok : ∀ t, (g ()).Reports (marks c.cell.id) Q (told ++ (rowMark c.cell.id t.usage p).toList) t)
    (hraise : ∀ e text t, Q (.error e) text t) :
    (emitCell p >>= g).Reports (marks c.cell.id) Q told s := by
  refine Co.reports_bind fun w t => ?_
  cases w with
  | raise e =>
    cases e with
    | cancelled n => cases n <;> exact hraise _ _ _
    | exception k m => exact hraise _ _ _
  | resume =>
    show (g ()).Reports (marks c.cell.id) Q (told ++ marks c.cell.id t (t.append false p)) _
    rw [marks_of_note (f := St.append false p) rfl]
    exact hok (t.append false p)

theorem modify_reports {f : St → St} {g : Unit → CellTask α} (hf : marks c.cell.id s (f s) = [])
    (hg : (g ()).Reports (marks c.cell.id) Q told (f s)) :
    (Co.modify f >>= g).Reports (marks c.cell.id) Q told s := by
  refine Co.reports_bind (Co.reports_modify ?_)
  rwa [hf, List.append_nil]

theorem get_reports {g : St → CellTask α} (hg : (g s).Reports (marks c.cell.id) Q told s) :
    (Co.get >>= g).Reports (marks c.cell.id) Q told s :=
  Co.reports_bind (Co.reports_get (marks_of_eq (f := id) rfl) hg)

/-- The transition `_emit_recovery` records in the state `s`. -/
def recorded (f : AttemptFailure) (action : RecoveryAction) (s : St) : Transition where
  failure := classifyKind f.kind
  action := action
  usage := s.usage

/-- An action is returned in the state its transition was recorded of. -/
theorem emitRecovery_reports {f : AttemptFailure} {action : RecoveryAction} {n : Nat}
    {g : Unit → CellTask α}
    (hok : ∀ t, (g ()).Reports (marks c.cell.id) Q
      (told ++ [.recovered (recorded f action t)]) t)
    (hraise : ∀ e text t, Q (.error e) text t) :
    (emitRecovery c f action n >>= g).Reports (marks c.cell.id) Q told s := by
  refine emitCell_reports (fun t => ?_) hraise
  rw [show rowMark c.cell.id t.usage (.recoveryTransition c.cell.id (classifyKind f.kind) action n
    (PyText.slice 2000 f.detail)) = some (.recovered _) from if_pos rfl]
  exact hok t

theorem chooseAction_reports (f : AttemptFailure) (d : RouteDecision) (n : Nat)
    {Q : Except Exc RecoveryAction → List Mark → St → Prop}
    (hok : ∀ action t, Q (.ok action) (told ++ [.recovered (recorded f action t)]) t)
    (hraise : ∀ e text t, Q (.error e) text t) :
    (chooseAction c f d n).Reports (marks c.cell.id) Q told s := by
  have hemit (action : RecoveryAction) (s : St) :
      (emitRecovery c f action n >>= fun _ => (pure action : CellTask RecoveryAction)).Reports
        (marks c.cell.id) Q told s :=
    emitRecovery_reports (fun t => Co.reports_pure (hok action t)) hraise
  unfold chooseAction handleCellFailure
  split
  · exact hemit .terminate s
  · split
    · exact hemit .terminate s
    · exact get_reports (hemit _ s)
    · refine get_reports (modify_reports ?_ (hemit _ _))
      exact marks_of_note (f := St.decide _ (signature c d)) rfl

end Reports

/-! ## The run -/

/-- What holds behind the end of a cell. -/
def Ended (c : CellInput) (told : List Mark) : CellResult → Prop
  | .completed => True
  | .outcome o => Right c told o ↔ Legal (Finds c) told

/-- What holds behind a failed attempt. -/
def Stands (c : CellInput) (told : List Mark) : CellResult ⊕ RouteDecision → Prop
  | .inl r => Ended c told r
  | .inr d => Legal (Finds c) told ∧ profileOf told = d.selectedProfile

theorem failCell_reports {f : AttemptFailure} {detail : String} {action : RecoveryAction} {s : St}
    {Q : Except Exc (CellResult ⊕ RouteDecision) → List Mark → St → Prop}
    (hok : ∀ t, Q (.ok (.inl (.outcome (if isAbstain action then .abstained else .failed)))) told t)
    (hraise : ∀ e text t, Q (.error e) text t) :
    (failCell c f detail action >>= fun r => pure (.inl r)).Reports (marks c.cell.id) Q told s := by
  unfold failCell
  refine Co.reports_bind ((emitCell_silent fun _ => rfl).reports_then (fun _ t => ?_) ?_)
  · exact Co.reports_pure (Co.reports_pure (hok t))
  · exact fun e t => hraise e told t

/-- The action is recorded before the router is asked: only there does the
record part from what is done. -/
theorem recover_reports (f : AttemptFailure) {d : RouteDecision} (n : Nat) {s : St}
    {Q : Except Exc (CellResult ⊕ RouteDecision) → List Mark → St → Prop}
    (hinit : (initial c).abstained = false) (hl : Legal (Finds c) told)
    (hd : profileOf told = d.selectedProfile)
    (hok : ∀ next text t, Stands c text next → Q (.ok next) text t)
    (hraise : ∀ e text t, Q (.error e) text t) :
    (recover c f d n).Reports (marks c.cell.id) Q told s := by
  have hgo (text : List Mark) (t : St) (hs : Stands c text (.inr d)) :
      (Co.suspend >>= fun _ => (pure (.inr d) : CellTask (CellResult ⊕ RouteDecision))).Reports
        (marks c.cell.id) Q text t :=
    Co.All.reports_then Co.all_suspend (fun _ t => Co.reports_pure (hok _ text t hs))
      fun e t => hraise e text t
  unfold recover
  refine Co.reports_bind (chooseAction_reports f d n (fun action t => ?_) hraise)
  dsimp only
  split
  · -- the same profile again
    rename_i hretry
    refine hgo _ t ⟨hl.snoc (finds_of_ne ?_), by rw [profileOf_recovered, hd]⟩
    intro haction
    rw [show action = .rerouteEscalate from haction] at hretry
    cases hretry
  split
  · rename_i haction
    refine get_reports ?_
    have hroute : route c.config c.cell (some (t.usage.remaining c.contract.budget))
        [d.selectedProfile] (needs c) = reroute c t.usage (profileOf told) := by
      rw [hd]
      rfl
    rw [hroute]
    split
    · -- another profile
      rename_i hfound
      refine emitCell_reports (fun u => Co.reports_pure (hok _ _ _ ⟨?_, ?_⟩)) hraise
      · rw [show rowMark c.cell.id u.usage (.routeSelected c.cell.id _ _) = some (.routed _) from
          if_pos rfl]
        have hfinds : Finds c told (.recovered (recorded f action t)) := fun _ _ => hfound
        exact (hl.snoc hfinds).snoc trivial
      · rw [show rowMark c.cell.id u.usage (.routeSelected c.cell.id _ _) = some (.routed _) from
          if_pos rfl]
        exact profileOf_routed _ _
    split
    · -- none, but the failure may pass
      rename_i htransient
      refine emitRecovery_reports (fun u => hgo _ u ⟨?_, ?_⟩) hraise
      · have hfinds : Finds c told (.recovered (recorded f action t)) :=
          fun _ hne => absurd ((classifyKind_eq f.kind).trans htransient) hne
        refine (hl.snoc hfinds).snoc (finds_of_ne ?_)
        show RecoveryAction.backoffRetry ≠ .rerouteEscalate
        decide
      · rw [profileOf_recovered, profileOf_recovered, hd]
    · -- none: the recorded reroute is not what is done
      rename_i hfound hpermanent
      refine failCell_reports (fun u => hok _ _ _ ?_) hraise
      refine ⟨fun hright => absurd hright (not_right_of_reroute hinit haction _), fun hlegal => ?_⟩
      refine absurd (hlegal.last haction fun htransient => hpermanent ?_) hfound
      exact (classifyKind_eq f.kind).symm.trans htransient
  · rename_i hretry hreroute
    refine failCell_reports (fun u => hok _ _ _ ?_) hraise
    have hstop : ¬ Continues action := fun hgo => hgo.elim hretry hreroute
    exact iff_of_true (right_of_stop (t := recorded f action t) hinit hstop)
      (hl.snoc (finds_of_ne hreroute))

theorem completeCell_reports {before : BudgetUsage} {r : WorkerResult} {s : St}
    {Q : Except Exc CellResult → List Mark → St → Prop} (hok : ∀ t, Q (.ok .completed) told t)
    (hraise : ∀ e t, Q (.error e) told t) :
    (completeCell c before r).Reports (marks c.cell.id) Q told s := by
  unfold completeCell
  refine Co.All.reports_then Co.all_suspend (fun _ t => ?_) hraise
  refine modify_reports (marks_of_eq (f := St.clearCheckpoint c.cell.id) rfl) (modify_reports ?_ ?_)
  · exact marks_of_note (f := St.finishCell c.cell.id (toolNames r.messages)
      c.cell.acceptanceCriterionIndices (c.store (if r.text = "" then "{}" else r.text)).digest) rfl
  · exact get_reports ((emitCell_silent fun _ => rfl).reports_then
      (fun _ t => Co.reports_pure (hok t)) hraise)

theorem attempts_reports (before : BudgetUsage) (hinit : (initial c).abstained = false)
    (script : List Attempt) {n : Nat} {d : RouteDecision} {resume : Option (List ModelMessage)}
    {s : St} (hl : Legal (Finds c) told) (hd : profileOf told = d.selectedProfile) :
    (attempts c before script n d resume).Reports (marks c.cell.id)
      (fun r text _ => ∀ x, r = .ok x → Ended c text x) told s := by
  have hraise : ∀ (e : Exc) (text : List Mark) (_ : St) (x : CellResult),
      Except.error e = .ok x → Ended c text x := by
    intro e text _ x hx
    cases hx
  have hcall (n : Nat) (s : St) : marks c.cell.id s (s.note (.called c.cell.id n)) = [] :=
    marks_of_note (f := St.note (.called c.cell.id n)) rfl
  induction script generalizing n d resume told s with
  | nil =>
    unfold attempts
    exact modify_reports (hcall n s) fun e t => hraise e told t
  | cons a script ih =>
    unfold attempts
    refine modify_reports (hcall n s) ?_
    refine (runAttempt_all (workerSteps_silent _ _) a resume).reports_then (fun attempt t => ?_)
      fun e t => hraise e told t
    have hnext (f : AttemptFailure) (p : Passage) (ms : List ModelMessage)
        (carried : Option (List ModelMessage)) (t : St) :
        (recover c f d n >>= fun next => next.elim pure fun d' =>
          Co.modify (St.pass c.cell.id n p ms) >>= fun _ =>
            attempts c before script (n + 1) d' carried).Reports (marks c.cell.id)
          (fun r text _ => ∀ x, r = .ok x → Ended c text x) told t := by
      refine Co.reports_bind (recover_reports f n hinit hl hd (fun next text t hs => ?_) hraise)
      cases next with
      | inl r =>
        refine Co.reports_pure fun x hx => ?_
        cases hx
        exact hs
      | inr d' =>
        exact modify_reports (marks_of_note (f := St.pass c.cell.id n p ms) rfl) (ih hs.1 hs.2)
    cases attempt with
    | error m => exact hnext _ _ _ _ t
    | ok r =>
      refine modify_reports
        (marks_of_note (f := St.charge c.cell.id n (WorkerResult.spend r)) rfl) ?_
      dsimp only
      split
      · refine completeCell_reports (fun t x hx => ?_) fun e t => hraise e told t
        cases hx
        trivial
      · exact get_reports (hnext _ _ _ _ _)

theorem runCell_reports (script : List Attempt) (s : St) :
    (runCell c script).Reports (marks c.cell.id) (fun r text _ => ∀ x, r = .ok x → Ended c text x)
      [] s := by
  have hraise : ∀ (e : Exc) (text : List Mark) (_ : St) (x : CellResult),
      Except.error e = .ok x → Ended c text x := by
    intro e text _ x hx
    cases hx
  unfold runCell
  refine modify_reports (marks_of_note (f := St.note (.entered c.cell.id)) rfl) (get_reports ?_)
  refine emitCell_reports (fun t => ?_) hraise
  rw [show rowMark c.cell.id t.usage (.routeSelected c.cell.id _ _) = some (.routed _) from
    if_pos rfl]
  dsimp only
  have hl : Legal (Finds c) ([] ++ [.routed (initial c).selectedProfile]) := Legal.nil.snoc trivial
  split
  · rename_i habstained
    refine (emitCell_silent fun _ => rfl).reports_then (fun _ u => Co.reports_pure ?_)
      fun e t => hraise e _ t
    intro x hx
    cases hx
    refine iff_of_true ⟨fun _ => rfl, fun hinit => ?_⟩ hl
    rw [show (initial c).abstained = true from habstained] at hinit
    cases hinit
  · rename_i hinit
    refine (emitCell_silent fun _ => rfl).reports_then (fun _ u => get_reports ?_)
      fun e t => hraise e _ t
    have hrestored : marks c.cell.id u
        (u.noteRestored c.cell.id (u.shared.checkpoints.lookup c.cell.id)) = [] := by
      cases u.shared.checkpoints.lookup c.cell.id with
      | none => exact marks_of_eq (f := St.noteRestored c.cell.id none) rfl
      | some ms => exact marks_of_note (f := St.noteRestored c.cell.id (some ms)) rfl
    exact modify_reports hrestored
      (attempts_reports _ (Bool.not_eq_true _ ▸ hinit) script hl (profileOf_routed _ _))

/-- **Recovery.** A cell that stops ends as its record says (no profile left is
an abstention, and the last transition names what was done) exactly if every
reroute it recorded for a failure that is not transient found a profile. -/
theorem recovery_iff (c : CellInput) (script : List Attempt) (gaps : List (Gap St Exc)) (s : St)
    {o : RunOutcome} (h : (runCell c script).outcome gaps s = some (.ok (.outcome o))) :
    Right c ((runCell c script).heard (marks c.cell.id) gaps s) o ↔
      Legal (Finds c) ((runCell c script).heard (marks c.cell.id) gaps s) := by
  obtain ⟨t, hended⟩ := (runCell_reports script s).outcome h
  have hiff := hended _ rfl
  rwa [List.nil_append] at hiff

/-! ## One profile -/

/-- A cell that one profile can do. -/
def soleCell : CellInput where
  cell := { id := "cell-1" }
  contract := { id := "contract-1", objective := "write out.py", budget := Budget.default }
  config := { profiles := [{ name := "only" }] }
  toolDefs := []
  registry := []
  estimate := fun _ => 0
  parse := fun _ => .value false
  store := fun text => { digest := text, mediaType := "text/plain", sizeBytes := text.length }

/-- An attempt whose first request the provider refuses. -/
def refusedBy (cls : ProviderErrorClass) : Attempt where
  profile := .ok { name := "only" }
  turns := [{ reply := .providerError { cls := cls, message := "refused" } }]

/-- Nothing else happens at the awaits. -/
def calm : List (Gap St Exc) := List.replicate 7 { others := id, wake := .resume }

/-- An attempt refused for its credentials ends the cell as its record says. -/
theorem recovery_iff_authentication :
    Right soleCell ((runCell soleCell [refusedBy .authentication]).heard (marks "cell-1") calm {})
        .abstained ↔
      Legal (Finds soleCell)
        ((runCell soleCell [refusedBy .authentication]).heard (marks "cell-1") calm {}) :=
  recovery_iff soleCell [refusedBy .authentication] calm {} (by decide +kernel)

/-- The transition behind an attempt that lacks a capability. -/
def lacking : Transition where
  failure := .capability
  action := .rerouteEscalate
  usage := { totalCalls := 1 }

theorem soleCell_heard :
    (runCell soleCell [refusedBy .capability]).heard (marks "cell-1") calm {} =
      [.routed "only"] ++ [.recovered lacking] := by
  decide +kernel

/-- The only profile lacks a capability: no profile is left, and the cell ends
in FAILED behind a transition that names a reroute. -/
theorem reroute_without_profile :
    (runCell soleCell [refusedBy .capability]).outcome calm {} = some (.ok (.outcome .failed)) ∧
      NoProfile soleCell
        ((runCell soleCell [refusedBy .capability]).heard (marks "cell-1") calm {}) ∧
      ¬ Right soleCell ((runCell soleCell [refusedBy .capability]).heard (marks "cell-1") calm {})
        .failed := by
  rw [soleCell_heard]
  refine ⟨by decide +kernel, .inr ⟨_, lastTransition_recovered _ _, rfl, by decide +kernel⟩, ?_⟩
  exact not_right_of_reroute (by decide +kernel) rfl _

end RecoveryRecord
end Northstack
