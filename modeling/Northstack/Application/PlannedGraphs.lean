import Northstack.Application.AcceptedGraphs
import Northstack.Application.BudgetShares
import Northstack.Application.PlannedOrder

/-!
# The graph of a well-formed proposal

What hardening makes of a proposal that has legal waves passes validation, but for the caps on
the budgets, unless a cell is overtaken by one it waits for.

**Results.**
* `WellFormed.plans`: the plan of a proposal in which none is overtaken.
* `WellFormed.discards`: a proposal in which one is gives the single-cell plan.
-/
namespace Northstack

open Levels Parking

namespace ModelBackedPlanner

section

variable {contract : WorkContract} {cells : List ProposedCell} {runId : String} {i j n m : Nat}
  {c e : ProposedCell} {levels waves : List Nat}

/-! ## What is settled -/

/-- What hardening settles on with these waves. -/
def layoutOf (cells : List ProposedCell) (runId : String) (waves : List Nat) : Layout where
  ids := cellIds runId cells.length
  deps := cells.mapIdx (resolveDeps cells (cellIds runId cells.length))
  waves := waves
  totalShare := (cells.map (·.budgetShare)).sum

theorem maxWaveOf_spec (hne : waves ≠ []) :
    (∀ w ∈ waves, w ≤ maxWaveOf waves) ∧ maxWaveOf waves ∈ waves := by
  obtain ⟨n, hn⟩ : ∃ n, waves.max? = some n := by
    apply Option.ne_none_iff_exists'.mp
    rwa [Ne, List.max?_eq_none_iff]
  obtain ⟨hmem, hle⟩ := List.max?_eq_some_iff.mp hn
  have hmax : maxWaveOf waves = n := by
    unfold maxWaveOf
    rw [List.foldl_max, hn]
    exact Nat.max_eq_right (Nat.zero_le n)
  rw [hmax]
  exact ⟨hle, hmem⟩

theorem length_waves (hl : levels.length = cells.length)
    (h : separateMutating (cells.zip levels) [] = some waves) : waves.length = cells.length := by
  obtain ⟨hlength, -⟩ := separateMutating_some Parks.nil h
  rw [hlength, List.length_zip]
  omega

theorem WellFormed.settles (h : WellFormed contract cells) (hl : LevelsOf cells levels)
    (hw : separateMutating (cells.zip levels) [] = some waves)
    (hbelow : ∀ w ∈ waves, w < maxPlannedWaves) (runId : String) :
    Settles cells contract runId (layoutOf cells runId waves) where
  two := h.two
  ids := rfl
  deps := rfl
  waves := by
    have hlevels := h.levels_eq hl runId
    rw [topologicalLevels_eq] at hlevels
    obtain ⟨placed, hplaced, heq⟩ := Option.map_eq_some_iff.mp hlevels
    have hfst := map_fst_plannedCells cells runId
    refine ⟨placed, ?_, ?_⟩
    · have hlength := congrArg List.length hfst
      rw [List.length_map] at hlength
      rw [hlength] at hplaced
      exact hplaced
    · show separateMutating (cells.zip ((cellIds runId cells.length).map _)) [] = _
      rw [← hfst, List.map_map]
      rw [← heq] at hw
      exact hw
  bounded := by
    have hne : waves ≠ [] := by
      have hlength := length_waves hl.length hw
      have htwo := h.two
      apply List.ne_nil_of_length_pos
      omega
    exact hbelow _ (maxWaveOf_spec hne).2
  covered := h.covers
  totalShare := rfl
  shares := h.shares

/-! ## The graph -/

theorem mem_hardenedGraph {l : Layout} {g : GraphCell} :
    g ∈ (hardenedGraph contract cells l).cells ↔
      ∃ i c, cells[i]? = some c ∧ g = hardenedCell contract l (c, i) := by
  rw [List.mem_iff_getElem?]
  simp only [getElem?_hardenedGraph]

theorem Settles.ids_eq {l : Layout} (h : Settles cells contract runId l) :
    (hardenedGraph contract cells l).ids = cellIds runId cells.length := by
  apply List.ext_getElem?
  intro i
  show ((hardenedGraph contract cells l).cells.map (·.id))[i]? = _
  rw [List.getElem?_map]
  cases hc : cells[i]? with
  | none =>
    have hle := List.getElem?_eq_none_iff.mp hc
    rw [List.getElem?_eq_none (by simpa [hardenedGraph] using hle),
      List.getElem?_eq_none (by rwa [length_cellIds])]
    rfl
  | some c =>
    rw [getElem?_hardenedGraph.mpr ⟨c, hc, rfl⟩, Option.map_some, h.id_at hc,
      getElem?_cellIds (List.getElem?_eq_some_iff.mp hc).1]

theorem Settles.dependencies_eq {l : Layout} (h : Settles cells contract runId l)
    (hc : cells[i]? = some c) : (hardenedCell contract l (c, i)).dependencies =
      sortStrings (resolveDeps cells (cellIds runId cells.length) i c) := by
  show sortStrings (l.deps.getD i []) = _
  rw [h.deps, h.ids, List.getD_eq_getElem?_getD, List.getElem?_mapIdx, hc]
  rfl

/-- The dependencies of the `i`-th cell are the ids of those whose names it wants. -/
theorem WellFormed.dependency_iff (h : WellFormed contract cells) {l : Layout}
    (hs : Settles cells contract runId l) (hc : cells[i]? = some c) {d : String} :
    d ∈ (hardenedCell contract l (c, i)).dependencies ↔
      ∃ j, Needs cells j i ∧ d = cellId runId j := by
  rw [hs.dependencies_eq hc]
  unfold sortStrings
  rw [List.mem_insertionSort, h.mem_deps hc]

theorem nodup_sortStrings {xs : List String} (h : xs.Nodup) : (sortStrings xs).Nodup :=
  (List.perm_insertionSort _ xs).nodup_iff.mpr h

theorem Settles.nodup_dependencies {l : Layout} (h : Settles cells contract runId l)
    (hc : cells[i]? = some c) : (hardenedCell contract l (c, i)).dependencies.Nodup := by
  rw [h.dependencies_eq hc]
  apply nodup_sortStrings
  unfold resolveDeps
  exact List.nodup_dedup _

theorem wave_hardenedCell {l : Layout} {w : Nat} (hw : l.waves[i]? = some w) :
    (hardenedCell contract l (c, i)).wave = w := by
  show l.waves.getD i 0 = w
  rw [List.getD_eq_getElem?_getD, hw]
  rfl

theorem mem_validIndices {k : Int} : k ∈ validIndices contract c ↔
    k ∈ c.acceptanceCriterionIndices ∧ 0 ≤ k ∧ k < contract.acceptanceCriteria.length := by
  unfold validIndices
  rw [List.mem_insertionSort, List.mem_dedup, List.mem_filter, decide_eq_true_eq]

theorem nodup_validIndices (contract : WorkContract) (c : ProposedCell) :
    (validIndices contract c).Nodup :=
  (List.perm_insertionSort _ _).nodup_iff.mpr (List.nodup_dedup _)

/-! ## Its edges -/

theorem Settles.mem_resolved {l : Layout} (h : Settles cells contract runId l)
    {x : List String × String} : x ∈ l.deps.zip l.ids ↔ ∃ i c, cells[i]? = some c ∧
      x.2 = cellId runId i ∧ x.1 = resolveDeps cells (cellIds runId cells.length) i c := by
  rw [h.deps, h.ids, List.mem_iff_getElem?]
  simp only [List.getElem?_zip_eq_some, List.getElem?_mapIdx, Option.map_eq_some_iff]
  constructor
  · intro hx
    obtain ⟨i, ⟨c, hc, hdeps⟩, hid⟩ := hx
    rw [getElem?_cellIds (List.getElem?_eq_some_iff.mp hc).1] at hid
    exact ⟨i, c, hc, (Option.some.inj hid).symm, hdeps.symm⟩
  · intro hx
    obtain ⟨i, c, hc, hid, hdeps⟩ := hx
    refine ⟨i, ⟨c, hc, hdeps.symm⟩, ?_⟩
    rw [hid]
    exact getElem?_cellIds (List.getElem?_eq_some_iff.mp hc).1

theorem Settles.mem_edges {l : Layout} (h : Settles cells contract runId l) {e : GraphEdge} :
    e ∈ hardenedEdges l ↔ e.kind = "blocks" ∧ ∃ i c, cells[i]? = some c ∧
      e.toId = cellId runId i ∧ e.fromId ∈ (hardenedCell contract l (c, i)).dependencies := by
  unfold hardenedEdges
  simp only [List.mem_flatMap, List.mem_map, h.mem_resolved]
  constructor
  · intro he
    obtain ⟨x, ⟨i, c, hc, hid, hdeps⟩, d, hd, rfl⟩ := he
    refine ⟨rfl, i, c, hc, hid, ?_⟩
    rw [h.dependencies_eq hc, ← hdeps]
    exact hd
  · intro he
    obtain ⟨hkind, i, c, hc, hto, hfrom⟩ := he
    rw [h.dependencies_eq hc] at hfrom
    refine ⟨(_, cellId runId i), ⟨i, c, hc, rfl, rfl⟩, e.fromId, hfrom, ?_⟩
    rw [← hto, ← hkind]

theorem Settles.nodup_edges {l : Layout} (h : Settles cells contract runId l) :
    (hardenedEdges l).Nodup := by
  have hids : ((l.deps.zip l.ids).map Prod.snd).Nodup := by
    have hlength : l.ids.length ≤ l.deps.length := by
      rw [h.deps, h.ids, List.length_mapIdx, length_cellIds]
    rw [List.map_snd_zip hlength, h.ids]
    exact cellIds_nodup runId cells.length
  unfold hardenedEdges
  rw [List.nodup_flatMap]
  constructor
  · intro x hx
    obtain ⟨i, c, hc, -, hdeps⟩ := h.mem_resolved.mp hx
    have hn := h.nodup_dependencies hc
    rw [h.dependencies_eq hc, ← hdeps] at hn
    apply hn.map
    intro d d' heq
    exact congrArg GraphEdge.fromId heq
  · have hdistinct := List.pairwise_map.mp hids
    refine hdistinct.imp ?_
    intro x y hne e hx hy
    obtain ⟨d, -, rfl⟩ := List.mem_map.mp hx
    obtain ⟨d', -, heq⟩ := List.mem_map.mp hy
    exact hne (congrArg GraphEdge.toId heq).symm

/-! ## Validation -/

theorem exists_wave (contract : WorkContract) (runId : String)
    (hlength : waves.length = cells.length) (hc : cells[i]? = some c) :
    ∃ w, waves[i]? = some w ∧
      (hardenedCell contract (layoutOf cells runId waves) (c, i)).wave = w := by
  have hlt := (List.getElem?_eq_some_iff.mp hc).1
  obtain ⟨w, hw⟩ : ∃ w, waves[i]? = some w := ⟨_, List.getElem?_eq_getElem (by omega)⟩
  exact ⟨w, hw, wave_hardenedCell hw⟩

theorem length_le_one {α : Type} {xs : List α} (hn : xs.Nodup) (h : ∀ x ∈ xs, ∀ y ∈ xs, x = y) :
    xs.length ≤ 1 := by
  rcases xs with _ | ⟨x, _ | ⟨y, rest⟩⟩
  · simp
  · simp
  · have heq := h x (by simp) y (by simp)
    rw [heq] at hn
    simp at hn

theorem mutating_hardenedCell {l : Layout} :
    (hardenedCell contract l (c, i)).mode = .mutating ↔ isMutating c = true := by
  unfold hardenedCell
  cases isMutating c
  · simp
  · simp

/-- Two mutating cells of a wave are one. -/
theorem mutating_unique (hl : levels.length = cells.length)
    (hw : separateMutating (cells.zip levels) [] = some waves) (runId : String) :
    ∀ g ∈ (hardenedGraph contract cells (layoutOf cells runId waves)).cells,
      ∀ g' ∈ (hardenedGraph contract cells (layoutOf cells runId waves)).cells,
        g.mode = .mutating → g'.mode = .mutating → g.wave = g'.wave → g = g' := by
  intro g hg g' hg' hm hm' heq
  obtain ⟨i, c, hc, rfl⟩ := mem_hardenedGraph.mp hg
  obtain ⟨j, e, he, rfl⟩ := mem_hardenedGraph.mp hg'
  rw [mutating_hardenedCell] at hm hm'
  obtain ⟨w, hwi, hwave⟩ := exists_wave contract runId (length_waves hl hw) hc
  obtain ⟨v, hvj, hwave'⟩ := exists_wave contract runId (length_waves hl hw) he
  rw [hwave, hwave'] at heq
  rcases Nat.lt_trichotomy j i with hlt | rfl | hlt
  · exact absurd heq.symm (waves_apart hw hl hlt hc he hm hm' hvj hwi)
  · rw [hc] at he
    cases he
    rfl
  · exact absurd heq (waves_apart hw hl hlt he hc hm' hm hwi hvj)

theorem WellFormed.accepted (h : WellFormed contract cells) (hl : LevelsOf cells levels)
    (hno : ¬ OvertakenAt cells levels) (hw : separateMutating (cells.zip levels) [] = some waves)
    (hbelow : ∀ w ∈ waves, w < maxPlannedWaves) (runId : String) :
    GraphPlanner.Accepted (hardenedGraph contract cells (layoutOf cells runId waves)) := by
  have hs := h.settles hl hw hbelow runId
  have hlength := length_waves hl.length hw
  have htwo := h.two
  have hn : (hardenedGraph contract cells (layoutOf cells runId waves)).ids.Nodup := by
    rw [hs.ids_eq]
    exact cellIds_nodup runId cells.length
  have hcells : (hardenedGraph contract cells (layoutOf cells runId waves)).cells.Nodup :=
    hn.of_map _
  constructor
  case ids => exact hn
  case dependencies =>
    intro g hg
    obtain ⟨i, c, hc, rfl⟩ := mem_hardenedGraph.mp hg
    refine ⟨hs.nodup_dependencies hc, ?_⟩
    intro d hd
    obtain ⟨j, hneeds, rfl⟩ := (h.dependency_iff hs hc).mp hd
    obtain ⟨-, e, -, he, -⟩ := id hneeds
    obtain ⟨w, hwi, hwave⟩ := exists_wave contract runId hlength hc
    obtain ⟨v, hvj, hwave'⟩ := exists_wave contract runId hlength he
    refine ⟨_, mem_hardenedGraph.mpr ⟨j, e, he, rfl⟩, hs.id_at he, ?_⟩
    rw [hwave, hwave']
    exact waves_increase hl hno hw hneeds (h.needs_lt hneeds) hvj hwi
  case mutating =>
    intro wave
    apply length_le_one (hcells.filter _)
    intro g hg g' hg'
    rw [List.mem_filter, decide_eq_true_eq] at hg hg'
    exact mutating_unique hl.length hw runId g hg.1 g' hg'.1 hg.2.1 hg'.2.1
      (hg.2.2.trans hg'.2.2.symm)
  case edges =>
    constructor
    · have hblocks : (hardenedEdges (layoutOf cells runId waves)).filter (·.kind = "blocks") =
          hardenedEdges (layoutOf cells runId waves) := by
        rw [List.filter_eq_self]
        intro e he
        exact decide_eq_true (hs.mem_edges.mp he).1
      show ((hardenedEdges (layoutOf cells runId waves)).filter (·.kind = "blocks")).map _ |>.Nodup
      rw [hblocks]
      apply hs.nodup_edges.map_on
      intro e he e' he' heq
      have hkind := (hs.mem_edges.mp he).1.trans (hs.mem_edges.mp he').1.symm
      cases e
      cases e'
      simp_all
    · intro x y
      constructor
      · intro hedge
        obtain ⟨e, he, -, rfl, rfl⟩ := hedge
        obtain ⟨-, i, c, hc, hto, hfrom⟩ := hs.mem_edges.mp he
        refine ⟨_, mem_hardenedGraph.mpr ⟨i, c, hc, rfl⟩, ?_, hfrom⟩
        rw [hs.id_at hc, hto]
      · intro hcell
        obtain ⟨g, hg, rfl, hx⟩ := hcell
        obtain ⟨i, c, hc, rfl⟩ := mem_hardenedGraph.mp hg
        refine ⟨⟨x, cellId runId i, "blocks"⟩, ?_, rfl, rfl, (hs.id_at hc).symm⟩
        exact hs.mem_edges.mpr ⟨rfl, i, c, hc, rfl, hx⟩
  case indices =>
    intro g hg
    obtain ⟨i, c, hc, rfl⟩ := mem_hardenedGraph.mp hg
    refine ⟨nodup_validIndices contract c, ?_⟩
    intro k hk
    exact (mem_validIndices.mp hk).2
  case milestones =>
    refine ⟨List.nodup_singleton _, ?_⟩
    intro m hm
    have hm : m = (cellIds runId cells.length).getLastD "" := List.mem_singleton.mp hm
    have hne : cellIds runId cells.length ≠ [] := by
      apply List.ne_nil_of_length_pos
      rw [length_cellIds]
      omega
    rw [hs.ids_eq, hm, List.getLastD_eq_getLast?, List.getLast?_eq_some_getLast hne]
    exact List.getLast_mem hne
  case horizon =>
    have hne : waves ≠ [] := by
      apply List.ne_nil_of_length_pos
      omega
    obtain ⟨hle, hmem⟩ := maxWaveOf_spec hne
    constructor
    · intro g hg
      obtain ⟨i, c, hc, rfl⟩ := mem_hardenedGraph.mp hg
      obtain ⟨w, hwi, hwave⟩ := exists_wave contract runId hlength hc
      rw [hwave]
      exact hle w (List.mem_of_getElem? hwi)
    · obtain ⟨i, hi⟩ := List.mem_iff_getElem?.mp hmem
      have hlt := (List.getElem?_eq_some_iff.mp hi).1
      obtain ⟨c, hc⟩ : ∃ c, cells[i]? = some c := ⟨_, List.getElem?_eq_getElem (by omega)⟩
      exact ⟨_, mem_hardenedGraph.mpr ⟨i, c, hc, rfl⟩, wave_hardenedCell hi⟩

/-! ## Budgets -/

/-- What the cells' limits, where there are any, may add up to. -/
def WithinCaps (contract : WorkContract) (cells : List ProposedCell) : Prop :=
  (∀ t ∈ contract.budget.tokenLimit,
    ((exactShares cells t).map Nat.floor).sum ≤ maxTotalTokenBudget) ∧
  ∀ u ∈ contract.budget.costLimitUsd, ((exactShares cells u).map round6).sum ≤ maxTotalCostUsd

instance (contract : WorkContract) (cells : List ProposedCell) :
    Decidable (WithinCaps contract cells) := inferInstanceAs (Decidable (_ ∧ _))

section

variable {graph : GraphVersion} {runBudget : Option Budget} {name unit : String}
  {limit : Budget → Option ℚ≥0} {cap : Nat} {limits : List ℚ≥0}

theorem axisErrors_limited
    (h : graph.cells.map (limit ·.contract.budget) = limits.map some) :
    GraphPlanner.axisErrors graph runBudget name limit cap unit = [] ↔ limits.sum ≤ cap := by
  have hlimits : graph.cells.filterMap (limit ·.contract.budget) = limits := by
    have hid := congrArg (List.filterMap id) h
    rwa [List.filterMap_map, List.filterMap_map, Function.id_comp, Function.id_comp,
      List.filterMap_some] at hid
  have hlength : limits.length = graph.cells.length := by
    have hlengths := congrArg List.length h
    rwa [List.length_map, List.length_map, eq_comm] at hlengths
  unfold GraphPlanner.axisErrors
  rw [hlimits, if_neg (not_not.mpr hlength), GraphPlanner.errorIf_nil, not_lt]

theorem axisErrors_unlimited (hne : graph.cells ≠ [])
    (h : ∀ g ∈ graph.cells, limit g.contract.budget = none) (hrun : runBudget.bind limit = none) :
    GraphPlanner.axisErrors graph runBudget name limit cap unit = [] := by
  have hlimits : graph.cells.filterMap (limit ·.contract.budget) = [] := by
    rw [List.filterMap_eq_nil_iff]
    exact h
  unfold GraphPlanner.axisErrors
  rw [hlimits, hrun]
  have hlength : ([] : List ℚ≥0).length ≠ graph.cells.length := by
    have hpos := List.length_pos_iff.mpr hne
    simp only [List.length_nil]
    omega
  rw [if_pos hlength, GraphPlanner.errorIf_nil]
  simp

end

theorem axisErrors_none {p : Proposal} {graph : GraphVersion} {name unit : String}
    {limit : Budget → Option ℚ≥0} {cap : Nat} (h : harden p contract runId = some graph)
    (hne : graph.cells ≠ []) (hrun : limit contract.budget = none)
    (hchild : ∀ share, limit (childBudget contract.budget share) = none) :
    GraphPlanner.axisErrors graph (some contract.budget) name limit cap unit = [] := by
  obtain ⟨l, -, rfl⟩ := harden_iff.mp h
  apply axisErrors_unlimited hne
  · intro g hg
    obtain ⟨i, c, -, rfl⟩ := mem_hardenedGraph.mp hg
    exact hchild (c.budgetShare / l.totalShare)
  · rw [Option.bind_some, hrun]

theorem tokenErrors_iff {p : Proposal} {graph : GraphVersion}
    (h : harden p contract runId = some graph) (hne : graph.cells ≠ []) :
    GraphPlanner.axisErrors graph (some contract.budget) "token" (fun b => b.tokenLimit.map (↑))
      maxTotalTokenBudget "" = [] ↔ ∀ t ∈ contract.budget.tokenLimit,
        ((exactShares (named p) t).map Nat.floor).sum ≤ maxTotalTokenBudget := by
  cases ht : contract.budget.tokenLimit with
  | none =>
    refine iff_of_true (axisErrors_none h hne ?_ ?_) (by simp)
    · rw [ht]
      rfl
    · intro share
      unfold childBudget
      rw [ht]
      rfl
  | some t =>
    have hlimits : graph.cells.map (fun g => g.contract.budget.tokenLimit.map ((↑) : Nat → ℚ≥0)) =
        (((exactShares (named p) t).map Nat.floor).map (↑)).map some := by
      have hcast := congrArg (List.map (Option.map ((↑) : Nat → ℚ≥0))) (tokenLimits_harden h ht)
      rw [List.map_map, List.map_map] at hcast
      rw [List.map_map]
      exact hcast
    rw [axisErrors_limited hlimits, ← Nat.cast_list_sum, Nat.cast_le]
    simp

theorem costErrors_iff {p : Proposal} {graph : GraphVersion}
    (h : harden p contract runId = some graph) (hne : graph.cells ≠ []) :
    GraphPlanner.axisErrors graph (some contract.budget) "cost" (·.costLimitUsd)
      maxTotalCostUsd "$" = [] ↔ ∀ u ∈ contract.budget.costLimitUsd,
        ((exactShares (named p) u).map round6).sum ≤ maxTotalCostUsd := by
  cases hu : contract.budget.costLimitUsd with
  | none =>
    refine iff_of_true (axisErrors_none h hne hu ?_) (by simp)
    intro share
    unfold childBudget
    rw [hu]
    rfl
  | some u =>
    rw [axisErrors_limited (costLimits_harden h hu)]
    simp

theorem budgetErrors_iff {p : Proposal} {graph : GraphVersion}
    (h : harden p contract runId = some graph) (hne : graph.cells ≠ []) :
    GraphPlanner.budgetErrors graph (some contract.budget) = [] ↔
      WithinCaps contract (named p) := by
  unfold GraphPlanner.budgetErrors WithinCaps
  rw [List.append_eq_nil_iff, tokenErrors_iff h hne, costErrors_iff h hne]

/-! ## The plan -/

/-- One cell for each proposed one, in their order, that waits for those whose names it wants. -/
structure Carries (contract : WorkContract) (cells : List ProposedCell) (graph : GraphVersion) :
    Prop where
  length : graph.cells.length = cells.length
  ids : graph.ids.Nodup
  cell : ∀ (i : Nat) (c : ProposedCell) (g : GraphCell), cells[i]? = some c →
    graph.cells[i]? = some g → g.name = PyText.slice 50 (PyText.strip c.name) ∧
      (g.mode = .readOnly ↔ c.mode = "read_only") ∧
      ∀ k, k ∈ g.acceptanceCriterionIndices ↔
        k ∈ c.acceptanceCriterionIndices ∧ 0 ≤ k ∧ k < contract.acceptanceCriteria.length
  dependencies : ∀ (i j : Nat) (g g' : GraphCell), graph.cells[i]? = some g →
    graph.cells[j]? = some g' → (g'.id ∈ g.dependencies ↔ Needs cells j i)

theorem WellFormed.carries (h : WellFormed contract cells) {l : Layout}
    (hs : Settles cells contract runId l) :
    Carries contract cells (hardenedGraph contract cells l) where
  length := by
    show (cells.zipIdx.map _).length = _
    rw [List.length_map, List.length_zipIdx]
  ids := by
    rw [hs.ids_eq]
    exact cellIds_nodup runId cells.length
  cell := by
    intro i c g hc hg
    obtain ⟨c', hc', rfl⟩ := getElem?_hardenedGraph.mp hg
    rw [hc] at hc'
    cases hc'
    refine ⟨rfl, ?_, fun k => mem_validIndices⟩
    show (if isMutating c then CellMode.mutating else CellMode.readOnly) = .readOnly ↔ _
    unfold isMutating
    split
    · simp_all
    · simp_all
  dependencies := by
    intro i j g g' hg hg'
    obtain ⟨c, hc, rfl⟩ := getElem?_hardenedGraph.mp hg
    obtain ⟨e, he, rfl⟩ := getElem?_hardenedGraph.mp hg'
    rw [h.dependency_iff hs hc, hs.id_at he]
    constructor
    · intro hd
      obtain ⟨k, hneeds, hid⟩ := hd
      rwa [cellId_injective runId hid]
    · exact fun hneeds => ⟨j, hneeds, rfl⟩

theorem WellFormed.harden_eq {p : Proposal} (h : WellFormed contract p.cells)
    (hl : LevelsOf p.cells levels) (hw : separateMutating (p.cells.zip levels) [] = some waves)
    (hbelow : ∀ w ∈ waves, w < maxPlannedWaves) (runId : String) : harden p contract runId =
      some (hardenedGraph contract p.cells (layoutOf p.cells runId waves)) := by
  have hnamed : ModelBackedPlanner.named p = p.cells := h.named_eq
  rw [harden_iff, hnamed]
  exact ⟨_, h.settles hl hw hbelow runId, rfl⟩

/-- **The plan of a well-formed proposal.** -/
theorem WellFormed.plans {p : Proposal} (h : WellFormed contract p.cells)
    (ha : ∃ wave, Assigns p.cells wave) (hovertaken : ¬ Overtaken p.cells) (runId : String) :
    (WithinCaps contract p.cells → Carries contract p.cells (planProposal contract runId p) ∧
      (planProposal contract runId p).Layered) ∧
    (¬ WithinCaps contract p.cells → planProposal contract runId p = fallback contract runId) := by
  obtain ⟨levels, hl, -⟩ := h.exists_levels runId
  have hno : ¬ OvertakenAt p.cells levels := fun hat => hovertaken ⟨levels, hl, hat⟩
  obtain ⟨wave, ha⟩ := ha
  obtain ⟨waves, hw, hbelow⟩ := ha.separates hl
  have hs := h.settles hl hw hbelow runId
  have hharden := h.harden_eq hl hw hbelow runId
  have haccepted := h.accepted hl hno hw hbelow runId
  have hcarries := h.carries hs
  have hne : (hardenedGraph contract p.cells (layoutOf p.cells runId waves)).cells ≠ [] := by
    have htwo := h.two
    apply List.ne_nil_of_length_pos
    rw [hcarries.length]
    omega
  have hnamed : ModelBackedPlanner.named p = p.cells := h.named_eq
  have hbudget := budgetErrors_iff hharden hne
  rw [hnamed] at hbudget
  unfold planProposal
  rw [hharden]
  dsimp only
  constructor
  · intro hcaps
    have hvalid := GraphPlanner.validate_of_accepted haccepted hs.nodup_edges
      (fun e he => (hs.mem_edges.mp he).1) (hbudget.mpr hcaps)
    rw [if_neg (not_not.mpr hvalid)]
    exact ⟨hcarries, fun c hc => (haccepted.dependencies c hc).2⟩
  · intro hcaps
    apply if_pos
    intro hvalid
    apply hcaps
    apply hbudget.mp
    unfold GraphPlanner.validate at hvalid
    simp only [List.append_eq_nil_iff] at hvalid
    exact hvalid.1.1.2

/-- A cell that is overtaken has a dependency that is not in an earlier wave. -/
theorem WellFormed.discards {p : Proposal} (h : WellFormed contract p.cells)
    (ha : ∃ wave, Assigns p.cells wave) (hovertaken : Overtaken p.cells) (runId : String) :
    planProposal contract runId p = fallback contract runId := by
  obtain ⟨levels, hl, j, i, c, e, m, n, hneeds, hc, hcm, hn, he, hem, hm, a, ha', hcrowded⟩ :=
    hovertaken
  obtain ⟨wave, ha⟩ := ha
  obtain ⟨waves, hw, hbelow⟩ := ha.separates hl
  have hs := h.settles hl hw hbelow runId
  unfold planProposal
  rw [h.harden_eq hl hw hbelow runId]
  apply if_pos
  intro hvalid
  have hlayered := GraphPlanner.validate_nil_layered hvalid
  have hids := (h.carries hs).ids
  obtain ⟨-, hgiven⟩ := separateMutating_some Parks.nil hw
  simp only [List.append_nil] at hgiven
  have hxi : (p.cells.zip levels)[i]? = some (c, n) := List.getElem?_zip_eq_some.mpr ⟨hc, hn⟩
  have hxj : (p.cells.zip levels)[j]? = some (e, m) := List.getElem?_zip_eq_some.mpr ⟨he, hm⟩
  obtain ⟨w, hwi, -, -, hkept⟩ := hgiven i (c, n) hxi
  obtain ⟨v, hvj, hparks, hfirst, -⟩ := hgiven j (e, m) hxj
  have hmn : m < n := (hl.level j m hm).lt (hl.level i n hn) hneeds
  have hlate : n - 1 < v := ((hfirst hem).lt_iff hparks).mpr ⟨a, ha', hcrowded⟩
  have hcell {k : Nat} {f : ProposedCell} (hf : p.cells[k]? = some f) :
      hardenedCell contract (layoutOf p.cells runId waves) (f, k) ∈
        (hardenedGraph contract p.cells (layoutOf p.cells runId waves)).cells :=
    mem_hardenedGraph.mpr ⟨k, f, hf, rfl⟩
  obtain ⟨g, hg, hid, hlt⟩ :=
    hlayered _ (hcell hc) _ ((h.dependency_iff hs hc).mpr ⟨j, hneeds, rfl⟩)
  rw [← hs.id_at he] at hid
  rw [List.inj_on_of_nodup_map hids hg (hcell he) hid, wave_hardenedCell hvj, wave_hardenedCell hwi,
    hkept hcm] at hlt
  dsimp only at hlt
  omega

end

end ModelBackedPlanner
end Northstack
