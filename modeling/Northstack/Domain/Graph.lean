import Northstack.Domain.Contract

/-!
# The execution graph: cells, edges and versions

Mirrors domain/graph.py.
-/
namespace Northstack

inductive CellMode where
  | readOnly | mutating
  deriving DecidableEq, Repr

def CellMode.value : CellMode → String
  | .readOnly => "read_only"
  | .mutating => "mutating"

inductive CellStatus where
  | pending | ready | running | completed | failed | verified
  deriving DecidableEq, Repr

structure GraphEdge where
  fromId : String
  toId : String
  kind : String := "blocks"
  deriving DecidableEq

/-- `GraphCell` (graph.py:44-80) -/
structure GraphCell where
  id : String
  name : String := ""
  wave : Nat := 0
  requiredCapabilities : List String := []
  mode : CellMode := .readOnly
  inputSchema : List (String × Json) := []
  outputSchema : List (String × Json) := []
  requiredProfileRoles : List String := []
  dependencies : List String := []
  acceptanceCriterionIndices : List Int := []
  contract : WorkContract := { id := "placeholder", objective := "", budget := Budget.default }
  status : CellStatus := .pending

/-- `GraphVersion` (graph.py:82-104) -/
structure GraphVersion where
  version : Nat := 1
  cells : List GraphCell := []
  edges : List GraphEdge := []
  milestones : List String := []
  currentHorizon : Nat := 0

def GraphVersion.ids (g : GraphVersion) : List String := g.cells.map (·.id)

/-- One cell's status replaced, wherever its id occurs. -/
def setStatus (cellId : String) (status : CellStatus) (cells : List GraphCell) : List GraphCell :=
  cells.map fun c => if c.id = cellId then { c with status := status } else c

/-- `GraphVersion.with_cell_status` -/
def GraphVersion.withCellStatus (g : GraphVersion) (cellId : String) (status : CellStatus) :
    GraphVersion :=
  { g with cells := setStatus cellId status g.cells }

theorem setStatus_ids (cellId : String) (status : CellStatus) (cells : List GraphCell) :
    (setStatus cellId status cells).map (·.id) = cells.map (·.id) := by
  unfold setStatus
  rw [List.map_map]
  apply List.map_congr_left
  intro c _
  simp only [Function.comp]
  split <;> rfl

end Northstack
