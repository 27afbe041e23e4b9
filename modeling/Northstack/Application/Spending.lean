import Northstack.Application.Completion

/-!
# What a run has spent

The usage record of a run and the committed spend of its budget authority go
up together, attempt by attempt. Two things come apart. The authority's limits
are the request's, not the contract's (orchestrator.py:299-301), so a contract
whose budget comes from the configuration is not enforced at the boundaries of
the waves. And a resume takes its usage from the last `BudgetUpdated` of its
source, which a run that is cut short or fails has not recorded.

**Results.**
* `Reach.charged`: in every state the authority has been charged what the usage
  says.
* `no_cell_past_limit`: where the authority has the contract's limits, no cell
  is started behind a boundary at which the usage had reached one of them.
* `resume_carries_usage`: a resume starts with the usage its source had exactly
  when the source recorded a `BudgetUpdated` or had used nothing.
-/
namespace Northstack

open Coop

/-- No cost without a call. -/
def BudgetUsage.Metered (u : BudgetUsage) : Prop := u.totalCalls = 0 → u.totalCostUsd = 0

theorem BudgetUsage.Metered.add {u : BudgetUsage} {s : Spend} (hu : u.Metered) (hs : s.Metered) :
    (u.add s).Metered := by
  intro hc
  have hcalls : u.totalCalls + s.calls = 0 := hc
  show u.totalCostUsd + s.costUsd = 0
  rw [hu (by omega), hs (by omega), add_zero]

/-- What the authority of a run with the carried usage starts from. -/
theorem begin_charged {job : Job} {s : St} (h : job.usage.Metered) :
    (Company.begin job s).auth.Charged job.usage ∧
      (Company.begin job s).auth.budget = job.limits := by
  unfold Company.begin
  dsimp only
  split
  · refine ⟨⟨?_, ?_⟩, rfl⟩
    · simp [BudgetAuthority.record, BudgetUsage.totalTokens]
    · simp [BudgetAuthority.record]
  · rename_i hz
    simp only [not_or, not_not] at hz
    refine ⟨⟨?_, ?_⟩, rfl⟩
    · show 0 = job.usage.totalInputTokens + job.usage.totalOutputTokens
      omega
    · exact (h hz.2.2).symm

section

variable {r : Setting} {ph : Phase} {s t : St} {T : Terms}

/-- What the bookkeeping of spend keeps. -/
structure Metering (r : Setting) (s : St) : Prop where
  metered : s.usage.Metered
  charged : s.auth.Charged s.usage
  limits : s.auth.budget = r.job.limits

theorem CellStep.metering (h : CellStep T s t) (hm : Metering r s) : Metering r t := by
  cases h with
  | charge _ hs _ => exact ⟨hm.metered.add hs, BudgetAuthority.charged_record hm.charged _, hm.limits⟩
  | _ => exact ⟨hm.metered, hm.charged, hm.limits⟩

theorem Metering.of_eq (h : Metering r s) (hu : t.usage = s.usage) (ha : t.auth = s.auth) :
    Metering r t where
  metered := hu ▸ h.metered
  charged := by rw [hu, ha]; exact h.charged
  limits := ha ▸ h.limits

/-- **One account.** The authority's committed spend is the run's usage. -/
theorem Reach.charged (h : Reach r ph s) (hm : r.job.usage.Metered) : Metering r s := by
  refine Reach.invariant (M := fun _ s => Metering r s) ?start ?move ?cell ?collect h
  case start => exact ⟨hm, (begin_charged hm).1, (begin_charged (s := {}) hm).2⟩
  case move =>
    intro ph s ph' t _ ih hmv
    exact ih.of_eq hmv.usage hmv.auth
  case cell =>
    intro s t c _ ih _ hst
    exact hst.metering ih
  case collect =>
    intro s result c _ ih _ _
    obtain ⟨hu, ha, -⟩ := St.collected_spent c.id result s
    exact ih.of_eq hu ha

/-! ## The usage a log records -/

/-- The usages recorded: none before the waves end, the run's usage after. -/
def Phase.Booked (s : St) : Phase → Prop
  | .intake | .executing => usages s.log = []
  | _ => ∀ u ∈ usages s.log, u = s.usage

theorem Phase.Booked.all (h : ph.Booked s) : ∀ u ∈ usages s.log, u = s.usage := by
  have hnil : usages s.log = [] → ∀ u ∈ usages s.log, u = s.usage := by
    intro he
    rw [he]
    exact List.forall_mem_nil _
  cases ph with
  | intake | executing => exact hnil h
  | _ => exact h

theorem Phase.Booked.of_all (hi : ph ≠ .intake) (he : ph ≠ .executing)
    (h : ∀ u ∈ usages s.log, u = s.usage) : ph.Booked s := by
  cases ph with
  | intake => exact absurd rfl hi
  | executing => exact absurd rfl he
  | _ => exact h

theorem Phase.Booked.move {ph' : Phase} (h : ph.Booked s) (hm : r.Move ph s ph' t) :
    ph'.Booked t := by
  have hall : ∀ u ∈ usages t.log, u = t.usage := by
    rw [hm.usage]
    rcases hm.log with hl | ⟨p, hl, hp⟩
    · exact hl ▸ h.all
    · rw [hl, usages_append, usage?_stored]
      intro u hu
      rcases List.mem_append.mp hu with hu | hu
      · exact h.all u hu
      · exact (hp.usage u (Option.mem_toList.mp hu)).1
  have hopen : ¬ ph.Spent → usages s.log = [] → usages t.log = [] := by
    intro hns hnil
    rcases hm.log with hl | ⟨p, hl, hp⟩
    · rw [hl, hnil]
    · rw [hl, usages_append, usage?_stored, hnil, List.nil_append]
      cases hu : p.usage? with
      | none => rfl
      | some u => exact absurd (hp.usage u hu).2 hns
  cases hm.next with
  | stay =>
    cases ph with
    | intake | executing => exact hopen id h
    | _ => exact hall
  | execute _ _ _ => exact hopen id h
  | close hc =>
    refine .of_all ?_ ?_ hall
    · rintro rfl
      exact hc
    · rintro rfl
      exact hc
  | _ => exact hall

theorem CellStep.usages_eq (h : CellStep T s t) : usages t.log = usages s.log := by
  rcases h.log with hl | ⟨p, hl, hp⟩
  · rw [hl]
  · have hnone : p.usage? = none := by
      cases p <;> first | rfl | cases hp
    rw [hl, usages_append, usage?_stored, hnone]
    exact List.append_nil _

theorem Reach.booked (h : Reach r ph s) : ph.Booked s := by
  refine Reach.invariant (M := fun ph s => ph.Booked s) ?start ?move ?cell ?collect h
  case start => exact rfl
  case move =>
    intro ph s ph' t _ ih hm
    exact ih.move hm
  case cell =>
    intro s t c _ ih _ hst
    exact hst.usages_eq.trans ih
  case collect =>
    intro s result c _ ih _ _
    show usages (s.collected c.id result).log = []
    rw [(St.collected_log _ _ _).1]
    exact ih

end

/-! ## Chains -/

theorem getLastD_mem_or {α : Type} (xs : List α) (d : α) : xs = [] ∨ xs.getLastD d ∈ xs := by
  cases xs with
  | nil => exact .inl rfl
  | cons x xs =>
    right
    rw [List.getLastD_eq_getLast?, List.getLast?_eq_getLast_of_ne_nil (List.cons_ne_nil x xs)]
    exact List.getLast_mem _

section

variable {co : Company} {launch : Launch} {shared : Shared} {r : Setting}

theorem setting_metered (h : co.setting? launch shared = some r)
    (hu : ∀ u ∈ usages launch.source, u.Metered) : r.job.usage.Metered := by
  cases launch with
  | fresh request =>
    cases h
    exact fun _ => rfl
  | resume source =>
    obtain ⟨state, contract, graph, hrun, -, -, rfl⟩ := setting_resume h
    show state.usage.Metered
    rw [replay_usage hrun]
    rcases getLastD_mem_or (usages source) {} with hnil | hmem
    · rw [hnil]
      exact fun _ => rfl
    · exact hu _ hmem

/-- The usages a chain of runs records are metered. -/
theorem RunLog.metered {log : List EventPayload} (h : RunLog log) :
    ∀ u ∈ usages log, u.Metered := by
  induction h with
  | none => exact List.forall_mem_nil _
  | @run launch _ co shared inputs ih =>
    cases hr : co.setting? launch shared with
    | none =>
      rw [Company.run_rejected hr]
      exact List.forall_mem_nil _
    | some r =>
      obtain ⟨ph, h⟩ := (Company.run_reach hr inputs).1
      intro u hu
      rw [h.booked.all u hu]
      exact (h.charged (setting_metered hr ih)).metered

end

/-! ## The boundaries of the waves -/

/-- A boundary at which the usage had reached a limit of the budget. -/
def Obs.reaches (b : Budget) : Obs → Bool
  | .boundary u => u.reached b
  | _ => false

def Obs.starts : Obs → Bool
  | .entered _ => true
  | _ => false

/-- No cell was started behind a boundary with a limit of the budget reached. -/
def StopsAt (b : Budget) (history : List Obs) : Prop :=
  history.Pairwise fun o o' => o.reaches b = true → o'.starts = false

theorem StopsAt.append {b : Budget} {history : List Obs} {o : Obs} (h : StopsAt b history)
    (ho : o.starts = false ∨ ∀ x ∈ history, x.reaches b = false) : StopsAt b (history ++ [o]) := by
  refine List.pairwise_append.mpr ⟨h, List.pairwise_singleton _ _, fun x hx y hy hr => ?_⟩
  rw [List.mem_singleton.mp hy]
  rcases ho with ho | ho
  · exact ho
  · rw [ho x hx] at hr
    cases hr

/-- The authority's limits are those of the contract. -/
def Job.LimitsAgree (job : Job) : Prop :=
  job.contract.budget.tokenLimit = job.limits.tokenLimit ∧
    job.contract.budget.costLimitUsd = job.limits.costLimitUsd

instance (job : Job) : Decidable job.LimitsAgree := inferInstanceAs (Decidable (_ ∧ _))

section

variable {r : Setting} {ph : Phase} {s t : St} {T : Terms}

/-- While the waves go on, no boundary has reached a limit. -/
def Phase.Bounded (b : Budget) (s : St) : Phase → Prop
  | .intake | .executing => ∀ o ∈ s.history, o.reaches b = false
  | _ => True

theorem CellStep.reaches_eq {b : Budget} (h : CellStep T s t)
    (hs : ∀ o ∈ s.history, o.reaches b = false) : ∀ o ∈ t.history, o.reaches b = false := by
  refine h.forall_history hs fun o ha => ?_
  cases o with
  | boundary u => exact ha.elim
  | _ => rfl

theorem CellStep.stopsAt {b : Budget} (h : CellStep T s t) (hp : StopsAt b s.history)
    (hs : ∀ o ∈ s.history, o.reaches b = false) : StopsAt b t.history := by
  rcases h.observes with he | ⟨o, he, -⟩
  · exact he ▸ hp
  · exact he ▸ hp.append (.inr hs)

/-- One move of the run: a boundary that reached a limit ends the waves. -/
theorem Phase.Bounded.move {ph' : Phase} {b : Budget} (h : ph.Bounded b s)
    (hm : r.Move ph s ph' t) (hmet : Metering r s) (ht : b.tokenLimit = r.job.limits.tokenLimit)
    (hd : b.costLimitUsd = r.job.limits.costLimitUsd) : ph'.Bounded b t := by
  have hnew : (∀ o ∈ s.history, o.reaches b = false) → (ph = .intake ∨ ph' = .executing) →
      ∀ o ∈ t.history, o.reaches b = false := by
    intro hs hph
    rcases hm.history with hh | ⟨o, hh, ho⟩
    · exact hh ▸ hs
    · rw [hh]
      intro x hx
      rcases List.mem_append.mp hx with hx | hx
      · exact hs x hx
      · rw [List.mem_singleton.mp hx]
        cases o with
        | boundary u =>
          obtain ⟨rfl, hex, hauth⟩ := ho
          rcases hph with rfl | rfl
          · cases hex
          · rw [Obs.reaches, Bool.eq_false_iff]
            intro hr
            have := BudgetAuthority.exhausted_of_reached hmet.charged (hmet.limits ▸ ht)
              (hmet.limits ▸ hd) hr
            rw [hauth rfl] at this
            cases this
        | _ => rfl
  cases hm.next with
  | stay =>
    cases ph with
    | intake => exact hnew h (.inl rfl)
    | executing => exact hnew h (.inr rfl)
    | _ => trivial
  | execute _ _ _ => exact hnew h (.inr rfl)
  | close hc =>
    cases ph' with
    | intake | executing => exact hc.elim
    | _ => trivial
  | _ => trivial

theorem Reach.stopsAt (h : Reach r ph s) (hm : r.job.usage.Metered) (hl : r.job.LimitsAgree) :
    ph.Bounded r.job.contract.budget s ∧ StopsAt r.job.contract.budget s.history := by
  refine Reach.invariant (M := fun ph s => ph.Bounded r.job.contract.budget s ∧
    StopsAt r.job.contract.budget s.history) ?start ?move ?cell ?collect h
  case start => exact ⟨List.forall_mem_nil _, List.Pairwise.nil⟩
  case move =>
    intro ph s ph' t h ih hmv
    refine ⟨ih.1.move hmv (h.charged hm) hl.1 hl.2, ?_⟩
    rcases hmv.history with hh | ⟨o, hh, ho⟩
    · exact hh ▸ ih.2
    · rw [hh]
      refine ih.2.append (.inl ?_)
      cases o with
      | entered _ => exact ho.elim
      | _ => rfl
  case cell =>
    intro s t c _ ih _ hst
    exact ⟨hst.reaches_eq ih.1, hst.stopsAt ih.2 ih.1⟩
  case collect =>
    intro s result c _ ih _ _
    refine ⟨?_, ?_⟩
    · show ∀ o ∈ (s.collected c.id result).history, _
      rw [St.collected_history]
      intro x hx
      rcases List.mem_append.mp hx with hx | hx
      · exact ih.1 x hx
      · rw [List.mem_singleton.mp hx]
        rfl
    · show StopsAt _ (s.collected c.id result).history
      rw [St.collected_history]
      exact ih.2.append (.inl rfl)

end

/-! ## Every run -/

instance (b : Budget) (history : List Obs) : Decidable (StopsAt b history) :=
  inferInstanceAs (Decidable (List.Pairwise _ _))

/-- A fresh run's authority has the contract's limits if the request has a
budget, and else if the configuration sets none. -/
theorem limitsAgree_fresh (co : Company) (request : ProjectRequest) :
    (co.freshJob request).LimitsAgree ↔ request.budget.isSome ∨
      co.config.run.defaultBudgetTokens = 0 ∧ co.config.run.defaultBudgetCostUsd = 0 := by
  show (ContractCompiler.contractBudget co.config request).tokenLimit = _ ∧
    (ContractCompiler.contractBudget co.config request).costLimitUsd = _ ↔ _
  unfold ContractCompiler.contractBudget Company.freshJob
  cases request.budget with
  | some b => simp
  | none =>
    simp only [Option.getD_none, RunConfig.defaultBudget, Option.isSome_none, Bool.false_eq_true,
      false_or]
    split <;> split <;> simp_all

/-- **Limits.** In every state of every run whose authority has the limits of
the contract, no cell was started behind a boundary, of a batch or of a mutating
cell, at which the usage had reached a limit of the contract's budget. -/
theorem no_cell_past_limit (co : Company) (launch : Launch) (shared : Shared)
    (inputs : List (Input Exc)) (hsource : RunLog launch.source)
    (hlimits : ∀ job ∈ co.job? launch, job.LimitsAgree) :
    ∀ job ∈ co.job? launch,
      StopsAt job.contract.budget (co.run launch shared inputs).state.history := by
  intro job hjob
  have hr : co.setting? launch shared = some _ := Option.map_eq_some_iff.mpr ⟨job, hjob, rfl⟩
  obtain ⟨ph, h⟩ := (Company.run_reach hr inputs).1
  exact (h.stopsAt (setting_metered hr hsource.metered) (hlimits job hjob)).2

/-- A request that brings its budget. -/
def budgetedRequest : ProjectRequest :=
  { plainRequest with budget := some { tokenLimit := some 6 } }

/-- A read-only cell before a mutating one, of three tokens each. -/
def twoCells (contract : WorkContract) : GraphVersion :=
  let contract := { contract with budget := { tokenLimit := some 3 } }
  { cells :=
      [{ id := "a", contract := contract, acceptanceCriterionIndices := [0] },
       { id := "b", contract := contract, mode := .mutating, acceptanceCriterionIndices := [0] }] }

/-- A company that runs `twoCells` under a configured default of six tokens,
with a model that takes six for its answer. -/
def twoCellCompany : Company :=
  { soleCompany [forbidsTool]
      [{ reply := .response { text := "done", usage := { inputTokens := 6 } } }] with
    config :=
      { profiles := [{ name := "m" }]
        run := { defaultBudgetTokens := 6, defaultBudgetCostUsd := 0 } }
    planner := fun contract => .inl (twoCells contract) }

/-- The awaits of a run of `twoCells`. -/
def throughTwoCells : List (Input Exc) :=
  List.replicate 16 (.wake .resume) ++ .flag false :: List.replicate 8 (.child 0 .resume) ++
    .wake .resume :: .flag false :: List.replicate 8 (.child 0 .resume) ++
    List.replicate 8 (.wake .resume)

theorem no_cell_past_limit_budgeted :
    StopsAt (twoCellCompany.freshJob budgetedRequest).contract.budget
      (twoCellCompany.run (.fresh budgetedRequest) {} throughTwoCells).state.history := by
  refine no_cell_past_limit twoCellCompany (.fresh budgetedRequest) {} throughTwoCells .none ?_ _ rfl
  intro job hjob
  cases hjob
  decide

/-- Without a budget of its own the request gets the configured six tokens. Its
first cell takes them all, and the second is started. -/
theorem default_limit_passed :
    ¬ ∀ (co : Company) (launch : Launch) (shared : Shared) (inputs : List (Input Exc)),
      RunLog launch.source → ∀ job ∈ co.job? launch,
        StopsAt job.contract.budget (co.run launch shared inputs).state.history := by
  intro h
  have hstops := h twoCellCompany (.fresh plainRequest) {} throughTwoCells .none _ rfl
  revert hstops
  decide +kernel

/-- **Carried usage.** Let a run, fresh or resumed, have ended anyhow. The usage
a resume of its log starts with, and with it the spend of the resume's
authority, is the usage the run had accumulated if and only if the run recorded
a `BudgetUpdated` or had used nothing. -/
theorem resume_carries_usage (co : Company) (launch : Launch) (shared : Shared)
    (inputs : List (Input Exc)) (hsource : RunLog launch.source) (co' : Company) :
    ∀ job ∈ co'.job? (.resume (co.run launch shared inputs).state.log),
      (job.usage = (co.run launch shared inputs).state.usage ∧
        (Company.begin job {}).auth.Charged (co.run launch shared inputs).state.usage) ↔
      usages (co.run launch shared inputs).state.log ≠ [] ∨
        (co.run launch shared inputs).state.usage = {} := by
  intro job hjob
  have hr' : co'.setting? (.resume (co.run launch shared inputs).state.log) {} = some _ :=
    Option.map_eq_some_iff.mpr ⟨job, hjob, rfl⟩
  have hmet : job.usage.Metered := setting_metered hr' (RunLog.run hsource co shared inputs).metered
  obtain ⟨state, contract, graph, hrun, -, -, hset⟩ := setting_resume hr'
  have husage : job.usage = (usages (co.run launch shared inputs).state.log).getLastD {} := by
    rw [← replay_usage hrun]
    exact congrArg (fun r => r.job.usage) hset
  have hall : ∀ u ∈ usages (co.run launch shared inputs).state.log,
      u = (co.run launch shared inputs).state.usage := by
    cases hr : co.setting? launch shared with
    | none =>
      rw [Company.run_rejected hr]
      exact List.forall_mem_nil _
    | some r =>
      obtain ⟨ph, h⟩ := (Company.run_reach hr inputs).1
      exact h.booked.all
  have hcarry : job.usage = (co.run launch shared inputs).state.usage ↔
      usages (co.run launch shared inputs).state.log ≠ [] ∨
        (co.run launch shared inputs).state.usage = {} := by
    rw [husage]
    rcases getLastD_mem_or (usages (co.run launch shared inputs).state.log) {} with hnil | hmem
    · rw [hnil]
      exact ⟨fun he => .inr he.symm, fun he => he.elim (absurd rfl) Eq.symm⟩
    · exact ⟨fun _ => .inl (List.ne_nil_of_mem hmem), fun _ => hall _ hmem⟩
  constructor
  · exact fun h => hcarry.mp h.1
  · intro h
    have hu := hcarry.mpr h
    exact ⟨hu, hu ▸ (begin_charged hmet).1⟩

/-- A turn in which the model calls a tool. -/
def calls (name : String) : Turn :=
  { reply := .response
      { toolCalls := [{ id := "1", name := name, arguments := [] }], finishReason := .toolUse
        usage := { inputTokens := 3 } } }

/-- A run that uses its forbidden tool and fails its gate. -/
def forbiddenRun : Out St Exc RunOutcome :=
  (soleCompany [forbidsTool] [calls "t", answers]).run (.fresh plainRequest) {}
    (throughCell (List.replicate 14 .resume))

theorem resume_carries_usage_forbidden :
    ∃ job, (soleCompany [forbidsTool] []).job? (.resume forbiddenRun.state.log) = some job ∧
      forbiddenRun.ended = true ∧ forbiddenRun.state.usage.totalTokens = 3 ∧
      job.usage = forbiddenRun.state.usage ∧
      (Company.begin job {}).auth.Charged forbiddenRun.state.usage := by
  have hsome : ((soleCompany [forbidsTool] []).job?
      (.resume forbiddenRun.state.log)).isSome = true := by decide +kernel
  obtain ⟨job, hjob⟩ := Option.isSome_iff_exists.mp hsome
  exact ⟨job, hjob, by decide +kernel, by decide +kernel,
    (resume_carries_usage (soleCompany [forbidsTool] [calls "t", answers]) (.fresh plainRequest) {}
      (throughCell (List.replicate 14 .resume)) .none (soleCompany [forbidsTool] []) job hjob).mpr
      (.inl (by decide +kernel))⟩

/-- A model that is cut off and then does not answer in time. -/
def cutOffThenLate : List Turn :=
  [{ reply := .response { finishReason := .maxTokens, usage := { inputTokens := 3 } } },
   { reply := .overTime }]

/-- A run whose cell abstains after three tokens records no `BudgetUpdated`, and
its resume starts from nothing. -/
theorem cut_run_forgets_usage :
    ¬ ∀ (co : Company) (launch : Launch) (shared : Shared) (inputs : List (Input Exc)),
      RunLog launch.source → (co.run launch shared inputs).ended = true →
      ∀ co' : Company, ∀ job ∈ co'.job? (.resume (co.run launch shared inputs).state.log),
        job.usage = (co.run launch shared inputs).state.usage ∧
          (Company.begin job {}).auth.Charged (co.run launch shared inputs).state.usage := by
  intro h
  let co := soleCompany [forbidsTool] cutOffThenLate
  let inputs := throughCell (List.replicate 11 .resume)
  have hrun := h co (.fresh plainRequest) {} inputs .none (by decide +kernel) co
  have hlost : (co.job? (.resume (co.run (.fresh plainRequest) {} inputs).state.log)).any
      (fun job => job.usage ≠ (co.run (.fresh plainRequest) {} inputs).state.usage) = true := by
    decide +kernel
  obtain ⟨job, hjob, hne⟩ := (Option.any_eq_true _ _).mp hlost
  exact of_decide_eq_true hne (hrun job hjob).1

end Northstack
