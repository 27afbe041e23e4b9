import Northstack.Application.Spending

/-!
# Which cells mutate the workspace

The waves gather read-only cells because they are taken not to change the
workspace: a cell's mode decides with what it runs. Its tools are decided
elsewhere. `_build_tool_defs` offers every registered tool the contract allows
to every cell, the worker validates a call against these, and the registry
executes it; none of the three reads the mode.

**Results.**
* `Reach.executes`: what a run executes for a cell, a response to the cell
  called.
* `mutating_cells_mutate`: if no response to a read-only cell calls a mutating
  tool, such tools are executed for mutating cells only.
* `read_only_cell_mutates`: a run in which a read-only cell writes.
-/
namespace Northstack

open Coop

/-- The registry declares the tool mutating. -/
def Company.Mutates (co : Company) (name : String) : Prop :=
  ∃ tool, co.toolRegistry.get name = some tool ∧ tool.mutating = true

/-- No response to a read-only cell calls a mutating tool, with arguments that
validate. -/
def Company.Restrained (co : Company) (job : Job) : Prop :=
  ∀ c ∈ job.graph.cells, c.mode ≠ .mutating → ∀ name, co.May job.contract c name →
    ¬ co.Mutates name

/-- A step executes what the cell's terms permit, for the cell. -/
theorem CellStep.executed {T : Terms} {s t : St} (h : CellStep T s t) :
    ∃ names : List String, t.shared.executed = s.shared.executed ++ names.map (fun x => (T.id, x)) ∧
      ∀ x ∈ names, T.may x := by
  cases h with
  | execute names _ h => exact ⟨names, rfl, h⟩
  | _ => exact ⟨[], (List.append_nil _).symm, List.forall_mem_nil _⟩

/-- A tool executed for a cell of the job was called by a response to it. -/
def Setting.Called (r : Setting) (x : String × String) : Prop :=
  ∃ c ∈ r.job.graph.cells, c.id = x.1 ∧ r.co.May r.job.contract c x.2

/-- **Calls.** What a run executes, responses to its cells called. -/
theorem Reach.executes {r : Setting} {ph : Phase} {s : St} (h : Reach r ph s) :
    ∃ new, s.shared.executed = r.shared.executed ++ new ∧ ∀ x ∈ new, r.Called x := by
  refine Reach.invariant (M := fun _ s => ∃ new, s.shared.executed = r.shared.executed ++ new ∧
    ∀ x ∈ new, r.Called x) ?start ?move ?cell ?collect h
  case start => exact ⟨[], (List.append_nil _).symm, List.forall_mem_nil _⟩
  case move =>
    intro ph s ph' t _ ih hm
    rw [hm.shared]
    exact ih
  case cell =>
    intro s t c _ ih hm hst
    obtain ⟨new, hnew, hcalled⟩ := ih
    obtain ⟨names, hnames, hmay⟩ := hst.executed
    refine ⟨new ++ names.map fun x => (c.id, x), ?_, fun x hx => ?_⟩
    · rw [hnames, hnew, List.append_assoc]
      rfl
    · rcases List.mem_append.mp hx with hx | hx
      · exact hcalled x hx
      · obtain ⟨name, hname, rfl⟩ := List.mem_map.mp hx
        exact ⟨c, hm.mem, rfl, hmay name hname⟩
  case collect =>
    intro s result c _ ih _ _
    rw [(St.collected_spent c.id result s).2.2.2]
    exact ih

/-- **Isolation.** In every run, fresh or resumed, in which no response to a
read-only cell calls a mutating tool, every mutating tool the run executes is
executed for a mutating cell. -/
theorem mutating_cells_mutate (co : Company) (launch : Launch) (shared : Shared)
    (inputs : List (Input Exc)) (hcalls : ∀ job ∈ co.job? launch, co.Restrained job) :
    ∃ new, (co.run launch shared inputs).state.shared.executed =
        (launch.inherit shared).executed ++ new ∧
      ∀ x ∈ new, co.Mutates x.2 →
        ∃ job ∈ co.job? launch, ∃ c ∈ job.graph.cells, c.id = x.1 ∧ c.mode = .mutating := by
  cases hr : co.setting? launch shared with
  | none =>
    rw [Company.run_rejected hr]
    exact ⟨[], (List.append_nil _).symm, List.forall_mem_nil _⟩
  | some r =>
    obtain ⟨ph, h⟩ := (Company.run_reach hr inputs).1
    obtain ⟨hjob, -, hco, hsh⟩ := setting_job hr
    obtain ⟨new, hnew, hcalled⟩ := h.executes
    refine ⟨new, hsh ▸ hnew, fun x hx hmut => ?_⟩
    obtain ⟨c, hc, hid, hmay⟩ := hcalled x hx
    refine ⟨r.job, hjob, c, hc, hid, ?_⟩
    by_contra hmode
    subst hco
    exact hcalls r.job hjob c hc hmode x.2 hmay hmut

/-- A company with one mutating tool "w", whose plan is the cell "c". -/
def writerCompany (mode : CellMode) : Company :=
  { soleCompany [forbidsTool] [calls "w", answers] with
    toolRegistry := [{ name := "w", mutating := true }]
    planner := fun contract => .inr { id := "c", mode := mode, contract := contract } }

/-- Its run through the cell. -/
def writerRun (mode : CellMode) : Out St Exc RunOutcome :=
  (writerCompany mode).run (.fresh plainRequest) {} (throughCell (List.replicate 14 .resume))

theorem mutating_cells_mutate_writer :
    ("c", "w") ∈ (writerRun .mutating).state.shared.executed ∧
    ∃ new, (writerRun .mutating).state.shared.executed = [] ++ new ∧
      ∀ x ∈ new, (writerCompany .mutating).Mutates x.2 →
        ∃ job ∈ (writerCompany .mutating).job? (.fresh plainRequest),
          ∃ c ∈ job.graph.cells, c.id = x.1 ∧ c.mode = .mutating := by
  refine ⟨by decide +kernel, mutating_cells_mutate (writerCompany .mutating) (.fresh plainRequest)
    {} (throughCell (List.replicate 14 .resume)) fun job hjob c hc hmode => ?_⟩
  cases hjob
  rw [List.mem_singleton.mp hc] at hmode
  exact absurd rfl hmode

/-- The only cell is read-only; its model calls "w", and "w" is executed. -/
theorem read_only_cell_mutates :
    ¬ ∀ (co : Company) (request : ProjectRequest) (inputs : List (Input Exc)),
      ∀ x ∈ (co.run (.fresh request) {} inputs).state.shared.executed, co.Mutates x.2 →
        ∃ c ∈ (co.freshJob request).graph.cells, c.id = x.1 ∧ c.mode = .mutating := by
  intro h
  obtain ⟨c, hc, -, hmode⟩ := h (writerCompany .readOnly) plainRequest
    (throughCell (List.replicate 14 .resume)) ("c", "w") (by decide +kernel) ⟨_, rfl, rfl⟩
  rw [List.mem_singleton.mp hc] at hmode
  cases hmode

end Northstack
