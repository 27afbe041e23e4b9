import Northstack.Application.Accounting

/-!
# The call limit of a run

A run records the calls of its attempts as their results come back. The worker
holds `max_calls` against the calls of its own attempt alone, so attempts and
cells that follow each other or run together may pass it.

**Result.** `calls_within_limit`: a run never records more than `max_calls`
calls if no request is sent once the run has made so many, and where every
attempt that called has come back, only then.
-/
namespace Northstack

open Coop Trace

/-- A request is sent only while the calls carried over and the requests of the
run so far are below `limit`. -/
def Timely (carried limit : Nat) (h : List Obs) (o : Obs) : Prop :=
  o.request ≠ 0 → carried + total Obs.request h < limit

instance (carried limit : Nat) (h : List Obs) (o : Obs) :
    Decidable (Timely carried limit h o) := inferInstanceAs (Decidable (_ → _))

/-- The calls carried over are within the contract's limit, and no request is sent
once these and the requests of the run reach it. -/
def Job.CallsTimely (job : Job) (h : List Obs) : Prop :=
  job.usage.totalCalls ≤ job.contract.budget.maxCalls ∧
    Legal (Timely job.usage.totalCalls job.contract.budget.maxCalls) h

instance (job : Job) (h : List Obs) : Decidable (job.CallsTimely h) :=
  inferInstanceAs (Decidable (_ ∧ _))

/-- Every attempt that sent a request has come back. -/
def AllBack (h : List Obs) : Prop := ∀ o ∈ h, o.request ≠ 0 → o.cameBack h = true

instance (h : List Obs) : Decidable (AllBack h) := inferInstanceAs (Decidable (∀ _ ∈ h, _))

section

variable {r : Setting} {h : List Obs} {carried limit : Nat}

/-- Every request is charged or its attempt has not come back. -/
theorem legal_requests (hl : Legal r.Allows h) :
    total Obs.request h = (total Obs.charge h).2 + total (pending Obs.request h) h := by
  refine legal_attempts (g := AddMonoidHom.snd Bill ℕ) (fun _ _ _ => rfl) (fun h o ho hne => ?_)
    (fun h id n spend ho => congrArg Prod.snd ho.charged.2) hl
  cases o with
  | requested id n ms =>
    cases ho with
    | own _ ha _ => cases ha
    | cell hc hd hi ha =>
      obtain ⟨rfl, -, ha⟩ := ha
      exact (ha hd).2.concluded
  | _ => exact absurd rfl hne

/-- Timely requests stay within the limit, and requests that do are timely. -/
theorem timely_iff : carried ≤ limit ∧ Legal (Timely carried limit) h ↔
    carried + total Obs.request h ≤ limit := by
  constructor
  · rintro ⟨hc, hl⟩
    induction hl with
    | nil => exact hc
    | @snoc h o _ ho ih =>
      rw [total_append, total_cons, total_nil, add_zero]
      by_cases hz : o.request = 0
      · rw [hz, add_zero]
        exact ih
      · have hone : o.request = 1 := by
          cases o with
          | requested => rfl
          | _ => exact absurd rfl hz
        have hlt := ho hz
        omega
  · intro hle
    refine ⟨by omega, ?_⟩
    induction h using List.reverseRecOn with
    | nil => exact .nil
    | append_singleton h o ih =>
      rw [total_append, total_cons, total_nil, add_zero] at hle
      exact .snoc (ih (by omega)) fun hne => by omega

theorem allBack_pending (hb : AllBack h) : total (pending Obs.request h) h = 0 := by
  refine total_zero fun o ho => ?_
  unfold pending
  by_cases hz : o.request = 0
  · rw [hz, ite_self]
  · exact if_pos (hb o ho hz)

end

/-- **Call limit.** Take any state of any run, fresh or resumed, of a contract
with a call limit. If the calls carried over are within the limit and no worker
sends a request once these and the requests of the run reach it, the calls
recorded in the usage are within the limit. If every attempt that sent a request
has come back, they are only then. -/
theorem calls_within_limit (co : Company) (launch : Launch) (shared : Shared)
    (inputs : List (Input Exc)) (hapart : co.Apart launch) :
    ∀ job ∈ co.job? launch, 0 < job.contract.budget.maxCalls →
      (job.CallsTimely (co.run launch shared inputs).state.history →
        (co.run launch shared inputs).state.usage.totalCalls ≤ job.contract.budget.maxCalls) ∧
      (AllBack (co.run launch shared inputs).state.history →
        ((co.run launch shared inputs).state.usage.totalCalls ≤ job.contract.budget.maxCalls ↔
          job.CallsTimely (co.run launch shared inputs).state.history)) := by
  intro job hjob _
  have hr : co.setting? launch shared = some _ := Option.map_eq_some_iff.mpr ⟨job, hjob, rfl⟩
  obtain ⟨ph, h⟩ := (Company.run_reach hr inputs).1
  have hrequests := legal_requests (h.legal (setting_backs hr) (setting_distinct hr hapart))
  have hcalls : _ = job.usage.totalCalls + _ := congrArg Prod.snd h.accrued
  unfold Job.CallsTimely
  rw [timely_iff, show (co.run launch shared inputs).state.usage.totalCalls = _ from hcalls]
  refine ⟨fun hle => ?_, fun hb => ?_⟩
  · omega
  · rw [allBack_pending hb, add_zero] at hrequests
    rw [hrequests]

/-- A request for at most `n` calls. -/
def cappedRequest (n : Nat) : ProjectRequest :=
  { plainRequest with budget := some { maxCalls := n } }

/-- Two read-only cells of one wave, each with the contract's limits. -/
def cappedCompany : Company :=
  { soleCompany [forbidsTool] [answers] with
    planner := fun contract =>
      .inl
        { cells :=
            [{ id := "a", contract := contract, acceptanceCriterionIndices := [0] },
             { id := "b", contract := contract, acceptanceCriterionIndices := [0] }] } }

/-- Its run, in which the cells take turns. -/
def cappedRun (n : Nat) : Out St Exc RunOutcome :=
  cappedCompany.run (.fresh (cappedRequest n)) {} (List.replicate 16 (.wake .resume) ++
    .flag false :: (List.replicate 8 [.child 0 .resume, .child 1 .resume]).flatten ++
      List.replicate 8 (.wake .resume))

theorem calls_within_limit_two :
    .verified ∈ outcomes (cappedRun 2).state.log ∧ (cappedRun 2).state.usage.totalCalls ≤ 2 :=
  ⟨by decide +kernel, (calls_within_limit cappedCompany (.fresh (cappedRequest 2)) {} _ nofun _ rfl
    (by decide)).1 (by decide +kernel)⟩

/-- Limited to one call, each cell makes one. The run is VERIFIED with two. -/
theorem cells_pass_call_limit :
    ¬ ∀ (co : Company) (launch : Launch) (shared : Shared) (inputs : List (Input Exc)),
      co.Apart launch → .verified ∈ outcomes (co.run launch shared inputs).state.log →
      ∀ job ∈ co.job? launch, 0 < job.contract.budget.maxCalls →
        (co.run launch shared inputs).state.usage.totalCalls ≤ job.contract.budget.maxCalls := by
  intro h
  have hle := h cappedCompany (.fresh (cappedRequest 1)) {} _ nofun
    (show .verified ∈ outcomes (cappedRun 1).state.log by decide +kernel) _ rfl (by decide)
  revert hle
  decide +kernel

end Northstack
