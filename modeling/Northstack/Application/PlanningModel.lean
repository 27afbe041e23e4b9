import Northstack.Application.Planning
import Northstack.Application.SoftRubric

/-!
# Model-proposed planning

Mirrors application/planning_model.py: a proposal is hardened into a legal
graph or discarded for the single-cell plan. The gateway's reply and the
pydantic model its object is validated against are parameters; shares and the
budgets made of them are exact rationals.

The planner validates its own graph without `max_waves`; `run_async` validates
it again with the request's.

**Results.**
* `plan_accepted`: where the single-cell plan would be accepted, so is the plan
  returned, unless it is a proposal with more mutating cells than the request
  has waves.
* `plan_rejected`: such a proposal.
-/
namespace Northstack

def maxProposedCells : Nat := 8

/-- `MAX_WAVES` of the planner. -/
def maxPlannedWaves : Nat := 6

theorem default_share_le : (0.5 : ℚ≥0) ≤ 1 := by norm_num

/-- `_ProposedCell` (planning_model.py:76-85) -/
structure ProposedCell where
  name : String := ""
  mode : String := "mutating"
  dependsOn : List String := []
  acceptanceCriterionIndices : List Int := []
  budgetShare : ℚ≥0 := 0.5
  share_le : budgetShare ≤ 1 := by exact default_share_le

structure Proposal where
  cells : List ProposedCell := []

namespace ModelBackedPlanner

/-! ## The proposal -/

/-- `_request_proposal` behind the gateway's reply, `none` if it raised
(planning_model.py:166-183); an integer past the interpreter's digit limit
raises. -/
def requestProposal (validate : List (String × Json) → Option Proposal) :
    Option String → Except JsonText.JsonError (Option Proposal)
  | none => .ok none
  | some text =>
    match extractFirstJsonObject text with
    | .ok (some raw) => .ok (validate raw)
    | .ok none => .ok none
    | .error e => .error e

/-! ## Hardening -/

/-- The first eight cells that have a name (planning_model.py:180). -/
def named (p : Proposal) : List ProposedCell :=
  (p.cells.filter fun c => PyText.strip c.name ≠ "").take maxProposedCells

def cellIds (runId : String) (n : Nat) : List String :=
  (List.range n).map fun i => s!"cell-{runId}-{i}"

/-- `name_to_id.get(name)`: of several cells of a name the last. -/
def idOfName (proposed : List ProposedCell) (ids : List String) (name : String) : Option String :=
  ((proposed.zip ids).reverse.find? fun x => PyText.strip x.1.name = name).map (·.2)

/-- The earlier cells the `i`-th one depends on (planning_model.py:187-195). -/
def resolveDeps (proposed : List ProposedCell) (ids : List String) (i : Nat)
    (cell : ProposedCell) : List String :=
  ((cell.dependsOn.filterMap fun dep => idOfName proposed ids (PyText.strip dep)).filter
    (· ∈ ids.take i)).dedup

/-- `1 + max((waves[d] for d in cell_deps), default=-1)` -/
def levelBehind (waves : List (String × Nat)) (deps : List String) : Nat :=
  (deps.filterMap fun d => waves.lookup d).foldl (fun m w => max m (w + 1)) 0

/-- One pass over the cells that are left (planning_model.py:282-288). -/
def topologicalRound : List (String × List String) → List (String × Nat) →
    List (String × Nat) × List (String × List String)
  | [], waves => (waves, [])
  | (id, deps) :: rest, waves =>
    if ∀ d ∈ deps, (waves.lookup d).isSome = true then
      topologicalRound rest (waves ++ [(id, levelBehind waves deps)])
    else
      let r := topologicalRound rest waves
      (r.1, (id, deps) :: r.2)

/-- `_topological_waves` (planning_model.py:274-291); each pass places a cell or
is the last, so their number is fuel enough. -/
def topologicalWaves : Nat → List (String × List String) → List (String × Nat) →
    Option (List (String × Nat))
  | _, [], waves => some waves
  | 0, _ :: _, _ => none
  | fuel + 1, remaining, waves =>
    let r := topologicalRound remaining waves
    if r.2.length = remaining.length then none else topologicalWaves fuel r.2 r.1

/-- The first wave from `w` on that holds no mutating cell yet. -/
def freeWave (taken : List Nat) : Nat → Nat → Option Nat
  | 0, _ => none
  | fuel + 1, w =>
    if w ∈ taken then
      if maxPlannedWaves ≤ w + 1 then none else freeWave taken fuel (w + 1)
    else some w

def isMutating (cell : ProposedCell) : Bool := cell.mode ≠ "read_only"

/-- `_separate_mutating` (planning_model.py:294-308); no more than
`maxPlannedWaves` waves are tried for a cell. -/
def separateMutating : List (ProposedCell × Nat) → List Nat → Option (List Nat)
  | [], _ => some []
  | (cell, w) :: rest, taken =>
    if isMutating cell then
      match freeWave taken (maxPlannedWaves + 1) w with
      | some w' => (separateMutating rest (w' :: taken)).map (w' :: ·)
      | none => none
    else (separateMutating rest taken).map (w :: ·)

/-- The criterion indices of a cell that the contract has, in order. -/
def validIndices (contract : WorkContract) (cell : ProposedCell) : List Int :=
  (cell.acceptanceCriterionIndices.filter fun i : Int =>
    0 ≤ i ∧ i < (contract.acceptanceCriteria.length : Int)).dedup.insertionSort (· ≤ ·)

/-- Every criterion is linked to a cell. -/
def covered (contract : WorkContract) (proposed : List ProposedCell) : Prop :=
  ∀ i ∈ List.range contract.acceptanceCriteria.length,
    ∃ c ∈ proposed, (i : Int) ∈ validIndices contract c

instance (contract : WorkContract) (proposed : List ProposedCell) :
    Decidable (covered contract proposed) := inferInstanceAs (Decidable (∀ i ∈ _, _))

/-- `round(x, 6)` -/
def round6 (q : ℚ≥0) : ℚ≥0 := (PyText.roundHalfEven ((q : ℚ) * 1e6)).toNat / 1e6

/-- The budget of a cell with the given share (planning_model.py:229-242). -/
def childBudget (budget : Budget) (share : ℚ≥0) : Budget :=
  { budget with
    tokenLimit := budget.tokenLimit.map fun l => ⌊(l : ℚ≥0) * share⌋₊
    costLimitUsd := budget.costLimitUsd.map fun l => round6 (l * share) }

/-- What hardening has settled before it builds the cells. -/
structure Layout where
  ids : List String
  deps : List (List String)
  waves : List Nat
  totalShare : ℚ≥0

/-- The `i`-th cell of the graph (planning_model.py:243-259). -/
def hardenedCell (contract : WorkContract) (l : Layout) (x : ProposedCell × Nat) : GraphCell where
  id := l.ids.getD x.2 ""
  name := PyText.slice 50 (PyText.strip x.1.name)
  wave := l.waves.getD x.2 0
  mode := if isMutating x.1 then .mutating else .readOnly
  contract := { contract with
    id := s!"{contract.id}-c{x.2}"
    budget := childBudget contract.budget (x.1.budgetShare / l.totalShare) }
  status := .pending
  dependencies := sortStrings (l.deps.getD x.2 [])
  acceptanceCriterionIndices := validIndices contract x.1
  requiredProfileRoles := [Role.worker.value]

def hardenedEdges (l : Layout) : List GraphEdge :=
  (l.deps.zip l.ids).flatMap fun x =>
    (sortStrings x.1).map fun dep => { fromId := dep, toId := x.2, kind := "blocks" }

def maxWaveOf (waves : List Nat) : Nat := waves.foldl max 0

def hardenedGraph (contract : WorkContract) (proposed : List ProposedCell) (l : Layout) :
    GraphVersion where
  version := 1
  cells := proposed.zipIdx.map (hardenedCell contract l)
  edges := hardenedEdges l
  milestones := [l.ids.getLastD ""]
  currentHorizon := maxWaveOf l.waves

/-- `_harden` (planning_model.py:176-271) -/
def harden (p : Proposal) (contract : WorkContract) (runId : String) : Option GraphVersion :=
  let proposed := named p
  if proposed.length < 2 then none
  else
    let ids := cellIds runId proposed.length
    let deps := proposed.mapIdx (resolveDeps proposed ids)
    match topologicalWaves ids.length (ids.zip deps) [] with
    | none => none
    | some levels =>
      match separateMutating (proposed.zip (ids.map fun id => (levels.lookup id).getD 0)) [] with
      | none => none
      | some waves =>
        let total := (proposed.map (·.budgetShare)).sum
        if maxPlannedWaves ≤ maxWaveOf waves then none
        else if ¬ covered contract proposed then none
        else if total = 0 then none
        else some (hardenedGraph contract proposed
          { ids := ids, deps := deps, waves := waves, totalShare := total })

/-- `_fallback` (planning_model.py:310-322): the default planner's plan. -/
def fallback (contract : WorkContract) (runId : String) : GraphVersion :=
  GraphPlanner.plan contract runId

/-- What `plan` makes of a proposal (planning_model.py:127-133). -/
def planProposal (contract : WorkContract) (runId : String) (p : Proposal) : GraphVersion :=
  match harden p contract runId with
  | none => fallback contract runId
  | some graph =>
    if GraphPlanner.validate graph (some contract.budget) none ≠ [] then fallback contract runId
    else graph

/-- `ModelBackedPlanner.plan` (planning_model.py:123-133) -/
def plan (validate : List (String × Json) → Option Proposal) (reply : Option String)
    (contract : WorkContract) (runId : String) : Except JsonText.JsonError GraphVersion :=
  match requestProposal validate reply with
  | .ok none => .ok (fallback contract runId)
  | .ok (some p) => .ok (planProposal contract runId p)
  | .error e => .error e

/-! ## Which plans are accepted -/

/-- The proposal does not become a graph: hardening gives it up, or the planner
finds an error in it. -/
def Discarded (p : Proposal) (contract : WorkContract) (runId : String) : Prop :=
  ∀ graph ∈ harden p contract runId,
    GraphPlanner.validate graph (some contract.budget) none ≠ []

/-- The number of mutating cells a proposal plans. -/
def mutatingCount (p : Proposal) : Nat := (named p).countP isMutating

theorem mutating_hardenedGraph (contract : WorkContract) (proposed : List ProposedCell)
    (l : Layout) :
    ((hardenedGraph contract proposed l).cells.filter (·.mode = .mutating)).length =
      proposed.countP isMutating := by
  have hmode : ∀ x : ProposedCell × Nat,
      decide ((hardenedCell contract l x).mode = .mutating) = isMutating x.1 := by
    intro x
    unfold hardenedCell
    cases isMutating x.1 <;> rfl
  rw [← List.countP_eq_length_filter]
  show (proposed.zipIdx.map (hardenedCell contract l)).countP _ = _
  rw [List.countP_map, List.countP_congr (q := isMutating ∘ Prod.fst), ← List.countP_map,
    List.zipIdx_map_fst]
  intro x _
  simp only [Function.comp_apply, hmode]

theorem mutating_harden {p : Proposal} {contract : WorkContract} {runId : String}
    {graph : GraphVersion} (h : harden p contract runId = some graph) :
    (graph.cells.filter (·.mode = .mutating)).length = mutatingCount p := by
  unfold harden at h
  dsimp only at h
  split at h
  · cases h
  · split at h
    · cases h
    · split at h
      · cases h
      · split at h
        · cases h
        · split at h
          · cases h
          · split at h
            · cases h
            · cases h
              exact mutating_hardenedGraph contract (named p) _

end ModelBackedPlanner

/-- The second validation adds the check on the number of mutating cells. -/
theorem GraphPlanner.validate_waves (graph : GraphVersion) (budget : Option Budget) (n : Nat) :
    validate graph budget (some n) = [] ↔ validate graph budget none = [] ∧
      (graph.cells.filter (·.mode = .mutating)).length ≤ n := by
  unfold validate
  rw [List.append_eq_nil_iff (q := waveBudgetErrors graph (some n)),
    List.append_eq_nil_iff (q := waveBudgetErrors graph none)]
  simp only [waveBudgetErrors, errorIf_nil, List.length_map, not_lt, and_true]

namespace ModelBackedPlanner

/-- A proposal that is not discarded becomes the plan. -/
theorem planProposal_cases (p : Proposal) (contract : WorkContract) (runId : String) :
    Discarded p contract runId ∧
        planProposal contract runId p = fallback contract runId ∨
      ∃ graph, harden p contract runId = some graph ∧
        GraphPlanner.validate graph (some contract.budget) none = [] ∧
        planProposal contract runId p = graph := by
  unfold planProposal Discarded
  split
  · rename_i hh
    rw [hh]
    exact .inl ⟨nofun, rfl⟩
  · rename_i graph hh
    rw [hh]
    by_cases herr : GraphPlanner.validate graph (some contract.budget) none = []
    · exact .inr ⟨graph, rfl, herr, if_neg (not_not.mpr herr)⟩
    · refine .inl ⟨?_, if_pos herr⟩
      intro g hg
      cases hg
      exact herr

end ModelBackedPlanner

open ModelBackedPlanner in
/-- **Planning.** Where the single-cell plan would be accepted, the plan made of
any reply is accepted by the validation of `run_async` if and only if its
proposal was discarded or plans at most `max_waves` mutating cells. -/
theorem plan_accepted (validate : List (String × Json) → Option Proposal)
    (reply : Option String) (contract : WorkContract) (runId : String) (request : ProjectRequest)
    (hfallback : GraphPlanner.validate (fallback contract runId) (some contract.budget)
      (some request.maxWaves) = [])
    {graph : GraphVersion} (hplan : plan validate reply contract runId = .ok graph) :
    GraphPlanner.validate graph (some contract.budget) (some request.maxWaves) = [] ↔
      ∀ p, requestProposal validate reply = .ok (some p) →
        Discarded p contract runId ∨ mutatingCount p ≤ request.maxWaves := by
  unfold plan at hplan
  split at hplan
  · rename_i hreq
    cases hplan
    refine ⟨fun _ p hp => ?_, fun _ => hfallback⟩
    rw [hreq] at hp
    cases hp
  · rename_i p hreq
    cases hplan
    have hone : (∀ q, requestProposal validate reply = .ok (some q) →
        Discarded q contract runId ∨ mutatingCount q ≤ request.maxWaves) ↔
        Discarded p contract runId ∨ mutatingCount p ≤ request.maxWaves := by
      rw [hreq]
      refine ⟨fun h => h p rfl, fun h q hq => ?_⟩
      cases hq
      exact h
    rw [hone]
    rcases planProposal_cases p contract runId with ⟨hd, hplan⟩ | ⟨graph, hh, hok, hplan⟩
    · rw [hplan]
      exact ⟨fun _ => .inl hd, fun _ => hfallback⟩
    · rw [hplan, GraphPlanner.validate_waves, mutating_harden hh]
      refine ⟨fun h => .inr h.2, fun h => ⟨hok, ?_⟩⟩
      rcases h with hd | hn
      · exact absurd hok (hd graph hh)
      · exact hn
  · cases hplan

/-- The proposal's own schema: only names and modes are given. -/
def ProposedCell.ofJson : Json → Option ProposedCell
  | .obj fields =>
    match Json.lookup "name" fields, Json.lookup "mode" fields with
    | some (.str name), some (.str mode) => some { name := name, mode := mode }
    | some (.str name), none => some { name := name }
    | _, _ => none
  | _ => none

def Proposal.ofFields (fields : List (String × Json)) : Option Proposal :=
  match Json.lookup "cells" fields with
  | some (.arr cells) => (cells.mapM ProposedCell.ofJson).map fun cells => { cells := cells }
  | _ => none

/-- A reply that proposes cells of the given names, all of them mutating. -/
def proposes (names : List String) : String :=
  let cells := names.map fun name => "\x7b\"name\": \"" ++ name ++ "\"\x7d"
  "\x7b\"cells\": [" ++ PyText.join ", " cells ++ "]\x7d"

/-- A contract without criteria or limits. -/
def bareContract : WorkContract := { id := "wc", objective := "g", budget := {} }

open ModelBackedPlanner in
theorem plan_accepted_two :
    ∃ graph, plan Proposal.ofFields (some (proposes ["a", "b"])) bareContract "r" = .ok graph ∧
      graph.cells.length = 2 ∧
      (GraphPlanner.validate graph (some bareContract.budget) (some 3) = [] ↔
        ∀ p, requestProposal Proposal.ofFields (some (proposes ["a", "b"])) = .ok (some p) →
          Discarded p bareContract "r" ∨ mutatingCount p ≤ 3) := by
  have hlen : ((plan Proposal.ofFields (some (proposes ["a", "b"])) bareContract "r").toOption.map
      (·.cells.length)) = some 2 := by decide +kernel
  cases hplan : plan Proposal.ofFields (some (proposes ["a", "b"])) bareContract "r" with
  | error e =>
    rw [hplan] at hlen
    cases hlen
  | ok graph =>
    rw [hplan] at hlen
    refine ⟨graph, rfl, Option.some.inj hlen, ?_⟩
    exact plan_accepted Proposal.ofFields (some (proposes ["a", "b"])) bareContract "r"
      { goal := "g", workspaceRoot := "/" } (by decide +kernel) hplan

open ModelBackedPlanner in
/-- Four mutating cells under the default of three waves: the planner accepts
its own graph, the run rejects it. -/
theorem plan_rejected :
    ¬ ∀ (validate : List (String × Json) → Option Proposal) (reply : Option String)
        (contract : WorkContract) (runId : String) (request : ProjectRequest),
      GraphPlanner.validate (fallback contract runId) (some contract.budget)
        (some request.maxWaves) = [] →
      ∀ graph, plan validate reply contract runId = .ok graph →
        GraphPlanner.validate graph (some contract.budget) (some request.maxWaves) = [] := by
  intro h
  have hrej : ((plan Proposal.ofFields (some (proposes ["a", "b", "c", "d"])) bareContract
      "r").toOption.map fun graph =>
        (GraphPlanner.validate graph (some bareContract.budget) (some 3)).length) = some 1 := by
    decide +kernel
  cases hplan : plan Proposal.ofFields (some (proposes ["a", "b", "c", "d"])) bareContract "r" with
  | error e =>
    rw [hplan] at hrej
    cases hrej
  | ok graph =>
    have hok : GraphPlanner.validate graph (some bareContract.budget) (some 3) = [] :=
      h _ _ bareContract "r" { goal := "g", workspaceRoot := "/" } (by decide +kernel) graph hplan
    rw [hplan] at hrej
    have hlen : (GraphPlanner.validate graph (some bareContract.budget) (some 3)).length = 1 :=
      Option.some.inj hrej
    rw [hok] at hlen
    cases hlen

end Northstack
