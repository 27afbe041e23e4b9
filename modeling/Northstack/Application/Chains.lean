import Northstack.Application.Figures

/-!
# What a chain of resumes carries on

A run that did not verify is resumed under a new id from the events it left
(`resume_async`, orchestrator.py:433-600): its contract and its graph are read
back, its completions are recorded again, and the open cells run. The log of
that run can be resumed in turn.

Two things are lost on the way. `ContractProposed` has no field for the
assumptions and the abstention threshold of a contract, so the projection fills
in defaults. And the ledger redacts the ids of cells: ids that look like secrets
fall together, and with one of them the others count as completed.

**Results.**
* `contract_rebuilt_iff`: along a chain the projected contract is the compiled
  one exactly if the log folds, there are no assumptions and the threshold is
  the default.
* `completions_carried`: if redaction keeps the ids apart and the plan marks no
  cell completed, each link counts from the start exactly the cells completed in
  the links before, and starts none of them.
-/
namespace Northstack

open Coop Trace

/-! ## The contract -/

/-- Where only what is returned matters. -/
abbrev Returning {α : Type} (m : RunTask α) (Q : α → St → Prop) (s : St) : Prop :=
  Main.Steady (fun _ => True) (fun _ => True) m Q s

theorem returning_emit {p : EventPayload} {s : St} :
    Returning (emit p) (fun _ t => t = s.append false p) s :=
  wp_emit trivial rfl (fun _ => trivial) fun _ => trivial

theorem returning_consult {spends : List Spend} {s : St} :
    Returning (consult spends) (fun _ t => t.log = s.log) s :=
  wp_consult trivial rfl fun _ => trivial

theorem returning_emitAll (ps : List EventPayload) (s : St) :
    Returning (ContractCompiler.emitAll ps) (fun _ _ => True) s := by
  induction ps generalizing s with
  | nil => exact Main.steady_pure trivial
  | cons p ps ih => exact returning_emit.seq fun _ t _ => ih t

/-- A compilation that returns has recorded its contract. -/
theorem compile_proposes (c : ContractCompiler) (config : NorthStackConfig)
    (request : ProjectRequest) (s : St) :
    Returning (c.compile config request)
      (fun contract t => (ContractCompiler.proposedEvent contract).stored ∈ t.log) s := by
  unfold ContractCompiler.compile
  refine (returning_emitAll _ s).seq fun _ t _ => ?_
  refine returning_consult.seq fun _ t _ => ?_
  refine (returning_emitAll _ t).seq fun _ t _ => ?_
  refine returning_emit.seq fun _ u hu => ?_
  refine returning_consult.seq fun _ v hv => ?_
  dsimp only
  split
  · exact Main.steady_throw trivial
  · split
    · exact Main.steady_throw trivial
    · refine returning_emit.seq fun _ w hw => Main.steady_pure ?_
      rw [hw]
      refine List.mem_append_left _ ?_
      rw [hv, hu]
      exact List.mem_append_right _ List.mem_cons_self

/-- The logs of a request's run and of what was resumed from it, link by link. -/
inductive Lineage (co : Company) (request : ProjectRequest) : List EventPayload → Prop where
  | run (shared : Shared) (inputs : List (Input Exc)) :
    Lineage co request (co.run (.fresh request) shared inputs).state.log
  | resume {source : List EventPayload} (h : Lineage co request source) (next : Company)
    (shared : Shared) (inputs : List (Input Exc)) :
    Lineage co request (next.run (.resume source) shared inputs).state.log

/-- What is left of a contract that was proposed and projected. -/
def WorkContract.reread (c : WorkContract) : WorkContract :=
  { c with assumptions := [], forbiddenOutcomes := [], abstentionThreshold := 0.5 }

theorem proposed_contract (c : WorkContract) :
    (ContractCompiler.proposedEvent c).contract? = some c.reread := rfl

theorem WorkContract.reread_stored (c : WorkContract) : c.reread.stored = c.stored.reread := rfl

theorem WorkContract.reread_eq_iff (c : WorkContract) : c.reread = c ↔
    c.assumptions = [] ∧ c.forbiddenOutcomes = [] ∧ c.abstentionThreshold = 0.5 := by
  constructor
  · intro h
    rw [← h]
    exact ⟨rfl, rfl, rfl⟩
  · cases c
    rintro ⟨h1, h2, h3⟩
    dsimp only at h1 h2 h3
    subst h1 h2 h3
    rfl

/-- A run proposes its own contract if it is a fresh one, else its source's. -/
theorem Setting.Emits.contract? {r : Setting} {p : EventPayload} (h : r.Emits p) :
    ∀ c ∈ p.contract?, (∃ request, r.launch = .fresh request ∧ c = r.job.contract.reread) ∨
      ∃ q ∈ r.source, q.contract? = some c := by
  intro c hc
  cases h with
  | plain hp =>
    cases p with
    | contractProposed => cases hp
    | _ => cases hc
  | contract hr =>
    rw [proposed_contract] at hc
    cases hc
    exact .inl ⟨_, hr, rfl⟩
  | graph => cases hc
  | @again p q hp hq =>
    cases p with
    | contractProposed =>
      cases hq
      exact .inr ⟨_, hp, hc⟩
    | analysisRequested | analysisCompleted | contractValidated | graphAccepted =>
      cases hq
      cases hc
    | _ => cases hq
  | completion hp hcomp =>
    cases p with
    | cellCompleted => cases hc
    | _ => cases hcomp

theorem EventPayload.OfCell.contract? {id : String} {p : EventPayload} (h : p.OfCell id) :
    p.contract? = none := by
  cases p with
  | contractProposed => exact h.elim
  | _ => rfl

/-- A run records one contract if its source does, and it is its own if it is a
fresh one. -/
theorem Reach.contracts {r : Setting} {ph : Phase} {s : St} {k : WorkContract} (h : Reach r ph s)
    (hk : k.stored = k) (hfresh : ∀ request, r.launch = .fresh request → r.job.contract.reread = k)
    (hsource : ∀ q ∈ r.source, ∀ c ∈ q.contract?, c = k) :
    ∀ p ∈ s.log, ∀ c ∈ p.contract?, c = k := by
  refine h.forall_rows (fun p hp c hc => ?_) (fun _ _ p hp c hc => ?_)
  · rw [contract?_stored] at hc
    obtain ⟨c', hc', rfl⟩ := Option.map_eq_some_iff.mp hc
    suffices hck : c' = k by rw [hck, hk]
    rcases hp.contract? c' hc' with ⟨request, hr, rfl⟩ | ⟨q, hq, hcq⟩
    · exact hfresh request hr
    · exact hsource q hq c' hcq
  · rw [contract?_stored, hp.contract?] at hc
    cases hc

section

variable {co : Company} {request : ProjectRequest} {log : List EventPayload}

/-- Every link of a chain records the contract of its request, as it is reread. -/
theorem Lineage.contracts (hclean : (co.contractOf request).stored = co.contractOf request)
    (h : Lineage co request log) :
    ∀ p ∈ log, ∀ c ∈ p.contract?, c = (co.contractOf request).reread := by
  have hk : (co.contractOf request).reread.stored = (co.contractOf request).reread := by
    rw [WorkContract.reread_stored, hclean]
  induction h with
  | run shared inputs =>
    have hr : co.setting? (.fresh request) shared = some _ := rfl
    obtain ⟨ph, h⟩ := (Company.run_reach hr inputs).1
    exact h.contracts hk (fun _ _ => rfl) (List.forall_mem_nil _)
  | @resume source _ next shared inputs ih =>
    cases hr : next.setting? (.resume source) shared with
    | none =>
      rw [Company.run_rejected hr]
      exact List.forall_mem_nil _
    | some r =>
      obtain ⟨ph, h⟩ := (Company.run_reach hr inputs).1
      obtain ⟨state, contract, graph, -, -, -, rfl⟩ := setting_resume hr
      exact h.contracts hk nofun ih

/-- The projected contract of a link is the compiled one, reread. -/
theorem Lineage.projected (hclean : (co.contractOf request).stored = co.contractOf request)
    (h : Lineage co request log) {state : RunState} (hrun : replayRun log = .ok state) :
    ∀ c ∈ state.currentContract, c = (co.contractOf request).reread := by
  intro c hc
  rw [replay_contract hrun] at hc
  obtain ⟨p, hp, hpc⟩ := List.mem_filterMap.mp (List.mem_of_getLast? hc)
  exact h.contracts hclean p hp c hpc

/-- **Contracts.** Take any link of a chain that recorded a proposal, for a request
whose contract redaction leaves alone. Folding its log gives the compiled
contract, and a resume of it works under this contract, if and only if the
statuses are a legal path (else the fold raises), there are no assumptions and
the recommended threshold is the default. -/
theorem contract_rebuilt_iff (hclean : (co.contractOf request).stored = co.contractOf request)
    (h : Lineage co request log) (hprop : ∃ p ∈ log, p.contract?.isSome) :
    ((∃ state, replayRun log = .ok state ∧ state.currentContract = some (co.contractOf request)) ↔
      RunStatus.legalFrom .intake (statuses log) ∧
        (co.compiler.analyses request).assumptions = [] ∧
        (co.compiler.analyses request).recommendedAbstentionThreshold = 0.5) ∧
    ∀ next : Company, ∀ job ∈ next.job? (.resume log),
      (job.contract = co.contractOf request ↔
        (co.compiler.analyses request).assumptions = [] ∧
          (co.compiler.analyses request).recommendedAbstentionThreshold = 0.5) := by
  have heq : (co.contractOf request).reread = co.contractOf request ↔
      (co.compiler.analyses request).assumptions = [] ∧
        (co.compiler.analyses request).recommendedAbstentionThreshold = 0.5 := by
    rw [WorkContract.reread_eq_iff]
    exact ⟨fun hc => ⟨hc.1, hc.2.2⟩, fun hc => ⟨hc.1, rfl, hc.2⟩⟩
  constructor
  · rw [← replay_ok_iff, ← heq]
    constructor
    · rintro ⟨state, hrun, hc⟩
      exact ⟨⟨state, hrun⟩, (h.projected hclean hrun _ hc).symm⟩
    · rintro ⟨⟨state, hrun⟩, hsame⟩
      obtain ⟨p, hp, hpc⟩ := hprop
      obtain ⟨c, hc⟩ := Option.isSome_iff_exists.mp hpc
      have hne : log.filterMap (·.contract?) ≠ [] :=
        List.ne_nil_of_mem (List.mem_filterMap.mpr ⟨p, hp, hc⟩)
      have hlast := (replay_contract hrun).trans (List.getLast?_eq_getLast_of_ne_nil hne)
      refine ⟨state, hrun, ?_⟩
      rw [hlast, h.projected hclean hrun _ hlast, hsame]
  · intro next job hjob
    have hr : next.setting? (.resume log) {} = some _ := Option.map_eq_some_iff.mpr ⟨job, hjob, rfl⟩
    obtain ⟨state, contract, graph, hrun, hcontract, -, hset⟩ := setting_resume hr
    have hsame : job.contract = contract := congrArg (fun r => r.job.contract) hset
    rw [hsame, h.projected hclean hrun _ hcontract, heq]

end

/-- A company whose requirements analysis assumes something. -/
def assuming (assumptions : List String) : Company :=
  { soleCompany [] [answers] with
    compiler := { analyses := fun _ => { criteria := [forbidsTool], assumptions := assumptions } } }

/-- The log of its run. -/
def assumingLog (assumptions : List String) : List EventPayload :=
  ((assuming assumptions).run (.fresh plainRequest) {}
    (throughCell (List.replicate 8 .resume))).state.log

theorem contract_rebuilt_iff_plain :
    ∃ state, replayRun (assumingLog []) = .ok state ∧
      state.currentContract = some ((assuming []).contractOf plainRequest) :=
  (contract_rebuilt_iff rfl (.run {} (throughCell (List.replicate 8 .resume)))
    (by decide +kernel)).1.mpr ⟨by decide +kernel, rfl, rfl⟩

/-- The contract's assumption is not in the projected contract. -/
theorem assumption_dropped :
    ¬ ∀ (co : Company) (request : ProjectRequest) (log : List EventPayload),
      (co.contractOf request).stored = co.contractOf request → Lineage co request log →
      (∃ p ∈ log, p.contract?.isSome) →
      ∃ state, replayRun log = .ok state ∧
        state.currentContract = some (co.contractOf request) := by
  intro h
  obtain ⟨state, hrun, hc⟩ := h (assuming ["x"]) plainRequest (assumingLog ["x"]) rfl (.run {} _)
    (by decide +kernel)
  have hnone : ((replayRun (assumingLog ["x"])).toOption.bind (·.currentContract)).map
      (·.assumptions) = some [] := by decide +kernel
  rw [hrun] at hnone
  simp only [Except.toOption, Option.bind_some, hc, Option.map_some, Option.some.injEq] at hnone
  cases hnone

/-! ## The completions -/

/-- A run entered the cell and recorded its completion. -/
def Finished (id : String) (h : List Obs) : Prop := .entered id ∈ h ∧ ∃ usage, Reports id usage h

/-- The log has the completions of the source again. -/
def Reemits (source log : List EventPayload) : Prop :=
  ∀ p ∈ source, Company.isCompletion p = true → p.stored ∈ log

/-- A chain of resumes, each behind a link that re-emitted its source, with the
cells of the request's graph that its links completed. -/
inductive Chain (co : Company) (request : ProjectRequest) :
    List EventPayload → (String → Prop) → Prop where
  | run (shared : Shared) (inputs : List (Input Exc)) :
    Chain co request (co.run (.fresh request) shared inputs).state.log
      fun id => Finished id (co.run (.fresh request) shared inputs).state.history
  | resume {source : List EventPayload} {done : String → Prop} (h : Chain co request source done)
    (next : Company) (shared : Shared) (inputs : List (Input Exc))
    (hagain : Reemits source (next.run (.resume source) shared inputs).state.log) :
    Chain co request (next.run (.resume source) shared inputs).state.log
      fun id => done id ∨
        Finished (redactText id) (next.run (.resume source) shared inputs).state.history

/-- Only cells that have completed are marked. -/
def Backed (log : List EventPayload) : Prop := ∀ p ∈ log, ∀ id, p.Marks id → HasCompleted log id

/-- What a link hands on. -/
structure Carries (graph : GraphVersion) (log : List EventPayload) (done : String → Prop) :
    Prop where
  fits : ∀ p ∈ log, p.Fits (graph.ids.map redactText)
  backed : Backed log
  completed : ∀ c ∈ graph.cells, HasCompleted log (redactText c.id) ↔ done c.id

theorem Obs.figure?_eq_some {o : Obs} {id : String} {usage : Spend} :
    o.figure? = some (id, usage) ↔ ∃ ref, o.row? = some (.cellCompleted id ref usage) := by
  constructor
  · intro h
    cases o with
    | appended p current terminal c =>
      cases p with
      | cellCompleted i ref u =>
        cases h
        exact ⟨ref, rfl⟩
      | _ => cases h
    | _ => cases h
  · rintro ⟨ref, h⟩
    cases o with
    | appended p current terminal c =>
      cases h
      rfl
    | _ => cases h

/-- A log completes what its run reported, redacted. -/
theorem St.Recorded.completed {s : St} (h : s.Recorded) {id : String} :
    HasCompleted s.log id ↔ ∃ i usage, Reports i usage s.history ∧ redactText i = id := by
  unfold HasCompleted Reports
  rw [show s.log = _ from h]
  constructor
  · rintro ⟨ref, usage, hrow⟩
    obtain ⟨p, hp, hstored⟩ := List.mem_map.mp hrow
    obtain ⟨o, ho, hop⟩ := List.mem_filterMap.mp hp
    cases p with
    | cellCompleted i ref' _ =>
      cases hstored
      exact ⟨i, usage, ⟨o, ho, Obs.figure?_eq_some.mpr ⟨ref', hop⟩⟩, rfl⟩
    | _ => cases hstored
  · rintro ⟨i, usage, ⟨o, ho, hfig⟩, rfl⟩
    obtain ⟨ref, hop⟩ := Obs.figure?_eq_some.mp hfig
    exact ⟨ref.stored, usage, List.mem_map.mpr ⟨_, List.mem_filterMap.mpr ⟨o, ho, hop⟩, rfl⟩⟩

section

variable {r : Setting} {h : List Obs} {id : String} {usage : Spend}

/-- What a run reports it counted from the start, or its cell ran. -/
theorem legal_reports (hl : Legal r.Allows h) (hr : Reports id usage h) :
    id ∈ r.job.initiallyCompleted ∨ id ∈ r.ids ∧ Finished id h := by
  obtain ⟨o, hmem, ho⟩ := hr
  by_cases hi : id ∈ r.job.initiallyCompleted
  · exact .inl hi
  · obtain ⟨pre, post, rfl⟩ := List.append_of_mem hmem
    obtain ⟨hid, hlive, -⟩ := hl.split.figure ho hi
    refine .inr ⟨hid, ?_, usage, o, hmem, ho⟩
    exact List.mem_append_left _ (mem_account.mp hlive.1).1

/-- What is counted from the start is not entered. -/
theorem legal_entered (hl : Legal r.Allows h) (he : .entered id ∈ h) :
    id ∉ r.job.initiallyCompleted := by
  obtain ⟨pre, post, rfl⟩ := List.append_of_mem he
  cases hl.split with
  | own he _ _ => cases he
  | cell _ _ hi ha =>
    obtain ⟨rfl, -⟩ := ha
    exact hi

end

section

variable {r : Setting} {ph : Phase} {s : St} {co : Company} {shared : Shared}
  {graph : GraphVersion} {source : List EventPayload} {done : String → Prop} {id : String}

/-- A source whose marks are backed counts what it completed. -/
theorem Backed.counted (hb : Backed source) (h : co.setting? (.resume source) shared = some r) :
    id ∈ r.job.initiallyCompleted ↔ HasCompleted source id := by
  obtain ⟨state, contract, g, hrun, -, hgraph, rfl⟩ := setting_resume h
  constructor
  · intro hid
    rcases mem_resumedIds hgraph hid with ⟨c, hc, hs, rfl⟩ | hrow
    · obtain ⟨p, hp, hm⟩ := replay_marked hrun ⟨g, hgraph, c, hc, rfl, hs⟩
      exact hb p hp _ hm
    · exact hrow
  · rintro ⟨ref, usage, hrow⟩
    exact Company.completed_resumed hrow state _ rfl

/-- A row of a cell marks it only by its completion. -/
theorem EventPayload.OfCell.marks {i : String} {p : EventPayload} (h : p.OfCell i)
    (hm : p.stored.Marks id) : ∃ ref usage, p.stored = .cellCompleted id ref usage := by
  cases p with
  | cellCompleted =>
    cases hm
    exact ⟨_, _, rfl⟩
  | routeSelected | cellStarted | cellProgress | cellFailed | recoveryTransition => cases hm
  | _ => exact h.elim

/-- A row of the run itself marks a cell by a completion, or it is the graph of
its request, or a graph of its source. -/
theorem Setting.Emits.marks {p : EventPayload} (h : r.Emits p) (hm : p.stored.Marks id) :
    (∃ ref usage, p.stored = .cellCompleted id ref usage) ∨
      (∃ request, r.launch = .fresh request ∧
        ∃ c ∈ r.job.graph.cells, c.status = .completed) ∨
      ∃ i, redactText i = id ∧ (i ∈ r.job.initiallyCompleted ∨ ∃ q ∈ r.source, q.Marks i) := by
  cases h with
  | plain hp =>
    cases p with
    | graphAccepted | cellCompleted | cellAdvanced => cases hp
    | _ => exact hm.elim
  | contract => exact hm.elim
  | graph hr =>
    obtain ⟨c', hc', -, hs⟩ := hm
    obtain ⟨c, hc, rfl⟩ := List.mem_map.mp hc'
    exact .inr (.inl ⟨_, hr, c, hc, hs⟩)
  | @again p q hp hq =>
    cases p with
    | graphAccepted v cells edges milestones =>
      cases hq
      obtain ⟨c', hc', rfl, hs⟩ := hm
      obtain ⟨c, hc, rfl⟩ := List.mem_map.mp hc'
      obtain ⟨c₀, hc₀, rfl⟩ := List.mem_map.mp hc
      refine .inr (.inr ⟨c₀.id, ?_, ?_⟩)
      · show redactText c₀.id = redactText (ite _ _ _ : GraphCell).id
        split <;> rfl
      · by_cases hi : c₀.id ∈ r.job.initiallyCompleted
        · exact .inl hi
        · rw [if_neg hi] at hs
          exact .inr ⟨_, hp, c₀, hc₀, rfl, hs⟩
    | analysisRequested | analysisCompleted | contractProposed | contractValidated =>
      cases hq
      exact hm.elim
    | _ => cases hq
  | @completion p hp hc =>
    cases p with
    | cellCompleted =>
      cases hm
      exact .inl ⟨_, _, rfl⟩
    | _ => cases hc

theorem carries_run {request : ProjectRequest} (inputs : List (Input Exc))
    (hids : ((co.freshJob request).graph.ids.map redactText).Nodup)
    (hplan : ∀ c ∈ (co.freshJob request).graph.cells, c.status ≠ .completed) :
    Carries (co.freshJob request).graph (co.run (.fresh request) shared inputs).state.log
      fun id => Finished id (co.run (.fresh request) shared inputs).state.history := by
  have hr : co.setting? (.fresh request) shared = some _ := rfl
  obtain ⟨ph, h⟩ := (Company.run_reach hr inputs).1
  have hl := h.legal (setting_backs hr) fun _ => hids.of_map
  refine ⟨h.rows_fit (List.forall_mem_nil _), fun p hp id hm => ?_, fun c hc => ?_⟩
  · have hcomp : ∀ q ∈ (co.run (.fresh request) shared inputs).state.log, ∀ id,
        q.Marks id → ∃ ref usage, q = .cellCompleted id ref usage := by
      refine h.forall_rows (fun p hp id hm => ?_) fun _ _ p hp id hm => hp.marks hm
      rcases hp.marks hm with hcomp | ⟨-, -, c, hc, hs⟩ | ⟨i, -, hi | ⟨q, hq, -⟩⟩
      · exact hcomp
      · exact absurd hs (hplan c hc)
      · cases hi
      · cases hq
    obtain ⟨ref, usage, rfl⟩ := hcomp p hp id hm
    exact ⟨ref, usage, hp⟩
  · rw [h.recorded.completed]
    constructor
    · rintro ⟨i, usage, hrep, hi⟩
      rcases legal_reports hl hrep with hinit | ⟨hmem, hfin⟩
      · cases hinit
      · have hsame := List.inj_on_of_nodup_map hids hmem (List.mem_map_of_mem hc) hi
        exact hsame ▸ hfin
    · rintro ⟨-, usage, hrep⟩
      exact ⟨c.id, usage, hrep, rfl⟩

/-- The cells of a resume have the redacted ids. -/
theorem Carries.ids (hc : Carries graph source done)
    (h : co.setting? (.resume source) shared = some r) : r.ids = graph.ids.map redactText :=
  setting_ids h hc.fits

theorem Carries.stable (hc : Carries graph source done)
    (h : co.setting? (.resume source) shared = some r) (hid : id ∈ r.ids) : redactText id = id := by
  rw [hc.ids h] at hid
  obtain ⟨i, -, rfl⟩ := List.mem_map.mp hid
  exact redactText_idem i

theorem Carries.legal (hc : Carries graph source done)
    (hids : (graph.ids.map redactText).Nodup)
    (hr : co.setting? (.resume source) shared = some r) (h : Reach r ph s) :
    Legal r.Allows s.history :=
  h.legal (setting_backs hr) fun _ => show r.ids.Nodup from hc.ids hr ▸ hids

/-- What a resume has recorded as completed, a link before or the resume has
completed. -/
theorem Carries.completes (hc : Carries graph source done)
    (hids : (graph.ids.map redactText).Nodup)
    (hr : co.setting? (.resume source) shared = some r) (h : Reach r ph s) {c : GraphCell}
    (hmem : c ∈ graph.cells) (hdone : HasCompleted s.log (redactText c.id)) :
    done c.id ∨ Finished (redactText c.id) s.history := by
  have hsub : r.job.initiallyCompleted ⊆ r.ids := (launched_of_fits hr hc.fits).subset
  obtain ⟨i, usage, hrep, hi⟩ := h.recorded.completed.mp hdone
  rcases legal_reports (hc.legal hids hr h) hrep with hinit | ⟨hid, hfin⟩
  · rw [hc.stable hr (hsub hinit)] at hi
    rw [hc.backed.counted hr, hi] at hinit
    exact .inl ((hc.completed c hmem).mp hinit)
  · rw [hc.stable hr hid] at hi
    exact .inr (hi ▸ hfin)

theorem Reemits.completed {log : List EventPayload} (h : Reemits source log)
    (hid : HasCompleted source id) : HasCompleted log (redactText id) := by
  obtain ⟨ref, usage, hrow⟩ := hid
  exact ⟨ref.stored, usage, h _ hrow rfl⟩

theorem Carries.resume (hc : Carries graph source done)
    (hids : (graph.ids.map redactText).Nodup) (inputs : List (Input Exc))
    (hagain : Reemits source (co.run (.resume source) shared inputs).state.log) :
    Carries graph (co.run (.resume source) shared inputs).state.log
      fun id => done id ∨
        Finished (redactText id) (co.run (.resume source) shared inputs).state.history := by
  have hback : ∀ c ∈ graph.cells, done c.id →
      HasCompleted (co.run (.resume source) shared inputs).state.log (redactText c.id) := by
    intro c hmem hdone
    have hagain := hagain.completed ((hc.completed c hmem).mpr hdone)
    rwa [redactText_idem] at hagain
  cases hr : co.setting? (.resume source) shared with
  | none =>
    rw [Company.run_rejected hr] at hback ⊢
    refine ⟨List.forall_mem_nil _, List.forall_mem_nil _, fun c hmem => ⟨?_, ?_⟩⟩
    · rintro ⟨ref, usage, hrow⟩
      cases hrow
    · rintro (hdone | ⟨hent, -⟩)
      · exact hback c hmem hdone
      · cases hent
  | some r =>
    obtain ⟨ph, h⟩ := (Company.run_reach hr inputs).1
    have hsrc : r.source = source := (setting_job hr).2.1
    refine ⟨?_, fun p hp id hm => ?_, fun c hmem => ⟨hc.completes hids hr h hmem, ?_⟩⟩
    · have hfit := h.rows_fit (launched_of_fits hr hc.fits).sound
      rw [hc.ids hr, List.map_map] at hfit
      rwa [show redactText ∘ redactText = redactText from funext redactText_idem] at hfit
    · have hmarks : ∀ q ∈ (co.run (.resume source) shared inputs).state.log, ∀ id,
          q.Marks id → (∃ ref usage, q = .cellCompleted id ref usage) ∨
            ∃ i, redactText i = id ∧ HasCompleted source i := by
        refine h.forall_rows (fun p hp id hm => ?_) fun _ _ p hp id hm => .inl (hp.marks hm)
        rcases hp.marks hm with hcomp | ⟨request, hf, -⟩ | ⟨i, hi, hinit | ⟨q, hq, hqm⟩⟩
        · exact .inl hcomp
        · obtain ⟨job, -, rfl⟩ := Option.map_eq_some_iff.mp hr
          cases hf
        · exact .inr ⟨i, hi, (hc.backed.counted hr).mp hinit⟩
        · exact .inr ⟨i, hi, hc.backed q (hsrc ▸ hq) i hqm⟩
      rcases hmarks p hp id hm with ⟨ref, usage, rfl⟩ | ⟨i, rfl, hi⟩
      · exact ⟨ref, usage, hp⟩
      · exact hagain.completed hi
    · rintro (hdone | ⟨-, usage, hrep⟩)
      · exact hback c hmem hdone
      · exact h.recorded.completed.mpr ⟨_, usage, hrep, redactText_idem _⟩

theorem Chain.carries {request : ProjectRequest} (h : Chain co request source done)
    (hids : ((co.freshJob request).graph.ids.map redactText).Nodup)
    (hplan : ∀ c ∈ (co.freshJob request).graph.cells, c.status ≠ .completed) :
    Carries (co.freshJob request).graph source done := by
  induction h with
  | run shared inputs => exact carries_run inputs hids hplan
  | resume _ next shared inputs hagain ih => exact ih.resume hids inputs hagain

end

/-- **Chains.** Let redaction keep the ids of a plan apart, and let the plan mark
no cell completed. Take any chain of resumes of its run, each behind a link that
had re-emitted its source, and a run of the next link up to any point. The link
counts from the start exactly the cells that completed in the links before; it
starts none of these and keeps them counted; and what it counts besides, it has
completed itself, unless a gathered cell ended in a `CancelledError`. -/
theorem completions_carried (co : Company) (request : ProjectRequest)
    (hids : ((co.freshJob request).graph.ids.map redactText).Nodup)
    (hplan : ∀ c ∈ (co.freshJob request).graph.cells, c.status ≠ .completed)
    {source : List EventPayload} {done : String → Prop} (h : Chain co request source done)
    (next : Company) (shared : Shared) (inputs : List (Input Exc)) :
    ∀ job ∈ next.job? (.resume source), ∀ c ∈ (co.freshJob request).graph.cells,
      (redactText c.id ∈ job.initiallyCompleted ↔ done c.id) ∧
      (done c.id →
        .entered (redactText c.id) ∉ (next.run (.resume source) shared inputs).state.history ∧
        redactText c.id ∈ (next.run (.resume source) shared inputs).state.completedIds) ∧
      (Avoids Obs.takenForDone (next.run (.resume source) shared inputs).state →
        redactText c.id ∈ (next.run (.resume source) shared inputs).state.completedIds →
        done c.id ∨
          Finished (redactText c.id) (next.run (.resume source) shared inputs).state.history) := by
  intro job hjob c hmem
  have hc := h.carries hids hplan
  have hr : next.setting? (.resume source) shared = some _ :=
    Option.map_eq_some_iff.mpr ⟨job, hjob, rfl⟩
  obtain ⟨ph, hreach⟩ := (Company.run_reach hr inputs).1
  have hinit : redactText c.id ∈ job.initiallyCompleted ↔ done c.id :=
    (hc.backed.counted hr).trans (hc.completed c hmem)
  refine ⟨hinit, fun hdone => ⟨fun hent => ?_, hreach.kept (hinit.mpr hdone)⟩, fun hd hcount => ?_⟩
  · exact legal_entered (hc.legal hids hr hreach) hent (hinit.mpr hdone)
  · rcases hreach.counted_completes hd _ hcount with hi | hcomp
    · exact .inl (hinit.mp hi)
    · have hrow := hcomp.2
      rw [redactText_idem] at hrow
      exact hc.completes hids hr hreach hmem hrow

/-- A company that runs `twoCells`, with a prefix before the ids. -/
def prefixedCompany (prefixed : String) : Company :=
  { twoCellCompany with
    planner := fun contract =>
      let graph := twoCells contract
      .inl { graph with cells := graph.cells.map fun c => { c with id := prefixed ++ c.id } } }

/-- Its run, which ends behind the first cell with the budget exhausted. -/
def prefixedRun (prefixed : String) : Out St Exc RunOutcome :=
  (prefixedCompany prefixed).run (.fresh budgetedRequest) {} throughTwoCells

theorem completions_carried_two :
    ∃ job, twoCellCompany.job? (.resume (prefixedRun "").state.log) = some job ∧
      Finished "a" (prefixedRun "").state.history ∧
      ¬ Finished "b" (prefixedRun "").state.history ∧
      .entered "a" ∉ (twoCellCompany.run (.resume (prefixedRun "").state.log) {}
        throughTwoCells).state.history := by
  have hsome : (twoCellCompany.job? (.resume (prefixedRun "").state.log)).any
      (·.initiallyCompleted = ["a"]) = true := by decide +kernel
  obtain ⟨job, hjob, hinit⟩ := (Option.any_eq_true _ _).mp hsome
  have hinit := of_decide_eq_true hinit
  have h := completions_carried (prefixedCompany "") budgetedRequest (by decide +kernel)
    (by decide +kernel) (.run {} throughTwoCells) twoCellCompany {} throughTwoCells job hjob
  have ha := h _ List.mem_cons_self
  have hb := h _ (List.mem_cons_of_mem _ List.mem_cons_self)
  rw [hinit] at ha hb
  have hdone : Finished "a" (prefixedRun "").state.history := ha.1.mp (by decide +kernel)
  exact ⟨job, hjob, hdone, fun hfin => absurd (hb.1.mpr hfin) (by decide +kernel),
    (ha.2.1 hdone).1⟩

/-- The ids "task-1-a" and "task-1-b" are both redacted. The second cell has not
run, and the resume counts it as completed. -/
theorem redacted_cell_skipped :
    ¬ ∀ (co : Company) (request : ProjectRequest) (source : List EventPayload)
        (done : String → Prop) (next : Company),
      (∀ c ∈ (co.freshJob request).graph.cells, c.status ≠ .completed) →
      Chain co request source done → ∀ job ∈ next.job? (.resume source),
        ∀ c ∈ (co.freshJob request).graph.cells,
          (redactText c.id ∈ job.initiallyCompleted ↔ done c.id) := by
  intro h
  have hsome : (twoCellCompany.job? (.resume (prefixedRun "task-1-").state.log)).any
      (·.initiallyCompleted = [redacted]) = true := by decide +kernel
  obtain ⟨job, hjob, hinit⟩ := (Option.any_eq_true _ _).mp hsome
  have hb := h (prefixedCompany "task-1-") budgetedRequest (prefixedRun "task-1-").state.log _
    twoCellCompany (by decide +kernel) (.run {} throughTwoCells) job hjob _
    (List.mem_cons_of_mem _ List.mem_cons_self)
  rw [of_decide_eq_true hinit] at hb
  have hent := (hb.mp (by decide +kernel)).1
  have hnone : ∀ o ∈ (prefixedRun "task-1-").state.history, o.enters? ≠ some "task-1-b" := by
    decide +kernel
  exact hnone _ hent rfl

end Northstack
