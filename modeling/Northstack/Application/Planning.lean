import Northstack.Application.Routing
import Northstack.Application.Scheduling

/-!
# Graph validation

Mirrors application/planning.py: the default single-cell plan and the errors
`GraphPlanner.validate` reports, with their texts, in the source's order.

**Results.**
* `validate_nil_nodup`: an accepted graph has no two cells of one id.
* `validate_nil_layered`: the dependencies of its cells are cells of earlier waves.
-/
namespace Northstack

def maxTotalTokenBudget : Nat := 10000000
def maxTotalCostUsd : Nat := 100

/-- `single_cell_graph` -/
def singleCellGraph (cell : GraphCell) : GraphVersion where
  version := 1
  cells := [cell]
  edges := []
  milestones := [cell.id]
  currentHorizon := 0

namespace GraphPlanner

/-- `GraphPlanner.plan` (planning.py:25-37) -/
def plan (contract : WorkContract) (runId : String) : GraphVersion :=
  singleCellGraph
    { id := s!"cell-{runId}"
      name := PyText.slice 50 contract.objective
      wave := 0
      mode := .mutating
      contract := contract
      status := .pending
      acceptanceCriterionIndices := (List.range contract.acceptanceCriteria.length).map (↑)
      requiredProfileRoles := [Role.worker.value] }

def ids (graph : GraphVersion) : List String := graph.cells.map (·.id)

/-- `cells_by_id[id].wave`: the last cell of an id is the one kept. -/
def waveOf (graph : GraphVersion) (id : String) : Option Nat :=
  (graph.cells.reverse.find? (·.id = id)).map (·.wave)

def maxWave (graph : GraphVersion) : Nat := graph.cells.foldl (fun m c => max m c.wave) 0

def errorIf (p : Prop) [Decidable p] (e : String) : List String := if p then [e] else []

/-- The checks on the graph as a whole (planning.py:57-76). -/
def shapeErrors (graph : GraphVersion) : List String :=
  errorIf (graph.cells = []) "graph contains no cells" ++
  errorIf (¬ (ids graph).Nodup) "duplicate cell IDs in graph" ++
  errorIf (¬ graph.milestones.Nodup) "duplicate milestones in graph" ++
  ((sortStrings (graph.milestones.dedup.filter (· ∉ ids graph))).map fun m =>
    s!"unknown milestone '{m}'") ++
  errorIf (graph.cells ≠ [] ∧ graph.currentHorizon ≠ maxWave graph)
    s!"current horizon {graph.currentHorizon} does not match maximum cell wave {maxWave graph}"

/-- The checks on one dependency (planning.py:97-107). -/
def dependencyErrors (graph : GraphVersion) (cell : GraphCell) (dependency : String) :
    List String :=
  errorIf (dependency = cell.id) s!"cell '{cell.id}' depends on itself" ++
  match waveOf graph dependency with
  | none => [s!"cell '{cell.id}' depends on unknown cell '{dependency}'"]
  | some wave =>
    errorIf (cell.wave ≤ wave)
      s!"dependency '{dependency}' of cell '{cell.id}' must be in an earlier wave"

/-- The criterion indices a cell names that its contract does not have. -/
def invalidIndices (cell : GraphCell) : List Int :=
  (cell.acceptanceCriterionIndices.dedup.filter fun i : Int =>
    ¬ (0 ≤ i ∧ i < (cell.contract.acceptanceCriteria.length : Int))).insertionSort (· ≤ ·)

/-- The checks on one cell (planning.py:81-107). -/
def cellErrors (graph : GraphVersion) (cell : GraphCell) : List String :=
  errorIf (¬ cell.dependencies.Nodup) s!"cell '{cell.id}' has duplicate dependencies" ++
  errorIf (¬ cell.acceptanceCriterionIndices.Nodup)
    s!"cell '{cell.id}' has duplicate criterion indices" ++
  errorIf (invalidIndices cell ≠ [])
    s!"cell '{cell.id}' has invalid criterion indices: {PyText.reprInts (invalidIndices cell)}" ++
  cell.dependencies.flatMap (dependencyErrors graph cell)

/-- `dependency_pairs` and `adj`: each known dependency with the cell it blocks. -/
def dependencyPairs (graph : GraphVersion) : List (String × String) :=
  graph.cells.flatMap fun c =>
    (c.dependencies.filter (· ∈ ids graph)).map fun d => (d, c.id)

/-- The checks on the edges (planning.py:109-127). -/
def edgeErrors (graph : GraphVersion) : List String :=
  let blocking := (graph.edges.filter (·.kind = "blocks")).map fun e => (e.fromId, e.toId)
  errorIf (¬ graph.edges.Nodup) "duplicate edges in graph" ++
  graph.edges.flatMap (fun e =>
    errorIf (e.fromId ∉ ids graph ∨ e.toId ∉ ids graph)
      s!"edge {PyText.repr e.fromId}->{PyText.repr e.toId} has unknown edge endpoint") ++
  errorIf (¬ ((∀ p ∈ blocking, p ∈ dependencyPairs graph) ∧
      ∀ p ∈ dependencyPairs graph, p ∈ blocking))
    "blocking edges disagree with cell dependencies"

/-- One visit of Kahn's algorithm (planning.py:133-139): every edge out of
`node` is removed, and a target left without incoming edges joins the queue. -/
def releaseNode (node : String) :
    List (String × String) → (String → Nat) × List String → (String → Nat) × List String
  | [], st => st
  | (d, c) :: pairs, (degree, queue) =>
    if d = node then
      let degree' := fun x => if x = c then degree x - 1 else degree x
      releaseNode node pairs (degree', if degree' c = 0 then queue ++ [c] else queue)
    else releaseNode node pairs (degree, queue)

/-- The queue loop; each id is queued at most once, so their number is fuel
enough. -/
def visitedCount (pairs : List (String × String)) :
    Nat → (String → Nat) → List String → Nat
  | 0, _, _ => 0
  | _ + 1, _, [] => 0
  | fuel + 1, degree, node :: queue =>
    let st := releaseNode node pairs (degree, queue)
    visitedCount pairs fuel st.1 st.2 + 1

/-- Kahn's count of the visited cells. -/
def visited (graph : GraphVersion) : Nat :=
  let pairs := dependencyPairs graph
  let degree := fun id => pairs.countP (·.2 = id)
  visitedCount pairs (graph.cells.length + 1) degree
    ((ids graph).reverse.dedup.reverse.filter fun id => degree id = 0)

/-- `_structural_errors` (planning.py:52-142) -/
def structuralErrors (graph : GraphVersion) : List String :=
  shapeErrors graph ++ graph.cells.flatMap (cellErrors graph) ++ edgeErrors graph ++
    errorIf (visited graph ≠ graph.cells.length) "cycle detected in graph"

/-- One axis of `_budget_errors` (planning.py:144-166). -/
def axisErrors (graph : GraphVersion) (runBudget : Option Budget) (name : String)
    (limit : Budget → Option ℚ≥0) (cap : Nat) (unit : String) : List String :=
  let limits := graph.cells.filterMap fun c => limit c.contract.budget
  if limits.length ≠ graph.cells.length then
    errorIf ((runBudget.bind limit).isSome = true) s!"graph contains an unlimited {name} budget"
  else errorIf ((cap : ℚ≥0) < limits.sum)
    (s!"total {name} budget {unit}{PyText.formatG limits.sum} exceeds " ++
      s!"{unit}{PyText.formatG cap} limit")

def budgetErrors (graph : GraphVersion) (runBudget : Option Budget) : List String :=
  axisErrors graph runBudget "token" (fun b => b.tokenLimit.map (↑)) maxTotalTokenBudget "" ++
    axisErrors graph runBudget "cost" (·.costLimitUsd) maxTotalCostUsd "$"

/-- `_concurrency_errors` (planning.py:168-180) -/
def concurrencyErrors (graph : GraphVersion) : List String :=
  let mutating := graph.cells.filter (·.mode = .mutating)
  let waves := (mutating.map (·.wave)).reverse.dedup.reverse
  waves.flatMap fun wave =>
    let cells := (mutating.filter (·.wave = wave)).map (·.id)
    errorIf (1 < cells.length)
      s!"wave {wave} has {cells.length} mutating cells: {PyText.reprList cells}"

/-- `_wave_budget_errors` (planning.py:182-192) -/
def waveBudgetErrors (graph : GraphVersion) (maxWaves : Option Nat) : List String :=
  match maxWaves with
  | none => []
  | some n =>
    let mutating := (graph.cells.filter (·.mode = .mutating)).map (·.id)
    errorIf (n < mutating.length)
      (s!"graph serializes {mutating.length} mutating cells " ++
        s!"({PyText.reprList (mutating.take 3)}...) but max_waves={n} allows {n}")

/-- `GraphPlanner.validate` (planning.py:39-50) -/
def validate (graph : GraphVersion) (runBudget : Option Budget) (maxWaves : Option Nat) :
    List String :=
  structuralErrors graph ++ budgetErrors graph runBudget ++ concurrencyErrors graph ++
    waveBudgetErrors graph maxWaves

theorem errorIf_nil {p : Prop} [Decidable p] {e : String} : errorIf p e = [] ↔ ¬ p := by
  unfold errorIf
  split <;> simp_all

/-- An accepted graph has no two cells of one id. -/
theorem validate_nil_nodup {graph : GraphVersion} {runBudget : Option Budget}
    {maxWaves : Option Nat} (h : validate graph runBudget maxWaves = []) :
    (graph.cells.map (·.id)).Nodup := by
  simp only [validate, structuralErrors, shapeErrors, List.append_eq_nil_iff, errorIf_nil,
    not_not] at h
  exact h.1.1.1.1.1.1.1.1.1.2

/-- The dependencies of an accepted graph's cells are cells of earlier waves. -/
theorem validate_nil_layered {graph : GraphVersion} {runBudget : Option Budget}
    {maxWaves : Option Nat} (h : validate graph runBudget maxWaves = []) : graph.Layered := by
  simp only [validate, structuralErrors, List.append_eq_nil_iff, List.flatMap_eq_nil_iff,
    cellErrors] at h
  intro c hc d hd
  have hdep := (h.1.1.1.1.1.2 c hc).2 d hd
  unfold dependencyErrors at hdep
  rw [List.append_eq_nil_iff] at hdep
  cases hw : waveOf graph d with
  | none =>
    rw [hw] at hdep
    cases hdep.2
  | some wave =>
    rw [hw] at hdep
    obtain ⟨e, he, rfl⟩ := Option.map_eq_some_iff.mp hw
    have hlt := errorIf_nil.mp hdep.2
    have hid := List.find?_some he
    exact ⟨e, List.mem_reverse.mp (List.mem_of_find?_eq_some he), of_decide_eq_true hid, by omega⟩

end GraphPlanner
end Northstack
