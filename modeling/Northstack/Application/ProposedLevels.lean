import Northstack.Application.Bumping
import Northstack.Application.Hardening

/-!
# The levels of a proposal

The dependencies that hardening resolves, by the places of the cells in the proposal instead of
their ids: in a well-formed one, a cell depends on those whose names it wants.

**Results.**
* `dependsOn_planned`: the relation whose levels are computed.
* `WellFormed.levels_eq`: they are the levels of the places.
-/
namespace Northstack

open Levels

namespace ModelBackedPlanner

/-- The `i`-th cell wants the name of the `j`-th. -/
def Needs (cells : List ProposedCell) (j i : Nat) : Prop :=
  ∃ c e : ProposedCell, cells[i]? = some c ∧ cells[j]? = some e ∧ PyText.strip e.name ∈ wanted c

/-- Two to eight cells, whose names differ by more than the blanks around them, depend on earlier
ones; they cover the contract's criteria, and have some share of the budget. -/
structure WellFormed (contract : WorkContract) (cells : List ProposedCell) : Prop where
  two : 2 ≤ cells.length
  eight : cells.length ≤ maxProposedCells
  named : ∀ c ∈ cells, PyText.strip c.name ≠ ""
  unique : (cells.map (PyText.strip ·.name)).Nodup
  refers : ∀ (i : Nat) (c : ProposedCell), cells[i]? = some c → ∀ name ∈ wanted c,
    ∃ j < i, ∃ e : ProposedCell, cells[j]? = some e ∧ PyText.strip e.name = name
  covers : covered contract cells
  shares : (cells.map (·.budgetShare)).sum ≠ 0

/-- The length of a longest chain of dependencies below each cell. -/
structure LevelsOf (cells : List ProposedCell) (levels : List Nat) : Prop where
  length : levels.length = cells.length
  level : ∀ i n : Nat, levels[i]? = some n → Level (Needs cells) i n

/-- What the waves of a proposal are computed from. -/
def plannedCells (cells : List ProposedCell) (runId : String) : Dependencies :=
  (cellIds runId cells.length).zip
    (cells.mapIdx (resolveDeps cells (cellIds runId cells.length)))

section

variable {contract : WorkContract} {cells : List ProposedCell} {runId : String} {i j n : Nat}
  {c e : ProposedCell} {levels : List Nat}

theorem needs_iff : Needs cells j i ↔ ∃ c ∈ cells[i]?, ∃ e ∈ cells[j]?,
    PyText.strip e.name ∈ wanted c := by
  unfold Needs
  simp only [Option.mem_def]
  constructor
  · intro h
    obtain ⟨c, e, hc, he, hname⟩ := h
    exact ⟨c, hc, e, he, hname⟩
  · intro h
    obtain ⟨c, hc, e, he, hname⟩ := h
    exact ⟨c, e, hc, he, hname⟩

instance (cells : List ProposedCell) (j i : Nat) : Decidable (Needs cells j i) :=
  decidable_of_iff _ needs_iff.symm

theorem Needs.lt_length (h : Needs cells j i) : j < cells.length ∧ i < cells.length := by
  obtain ⟨c, e, hc, he, -⟩ := h
  exact ⟨(List.getElem?_eq_some_iff.mp he).1, (List.getElem?_eq_some_iff.mp hc).1⟩

theorem wellFormed_iff : WellFormed contract cells ↔ 2 ≤ cells.length ∧
    cells.length ≤ maxProposedCells ∧ (∀ c ∈ cells, PyText.strip c.name ≠ "") ∧
    (cells.map (PyText.strip ·.name)).Nodup ∧
    (∀ i < cells.length, ∀ c ∈ cells[i]?, ∀ name ∈ wanted c,
      ∃ j < i, ∃ e ∈ cells[j]?, PyText.strip e.name = name) ∧
    covered contract cells ∧ (cells.map (·.budgetShare)).sum ≠ 0 := by
  constructor
  · intro h
    exact ⟨h.two, h.eight, h.named, h.unique, fun i _ c hc => h.refers i c hc, h.covers, h.shares⟩
  · intro h
    obtain ⟨htwo, height, hnamed, hunique, hrefers, hcovers, hshares⟩ := h
    refine ⟨htwo, height, hnamed, hunique, ?_, hcovers, hshares⟩
    intro i c hc
    exact hrefers i (List.getElem?_eq_some_iff.mp hc).1 c hc

instance (contract : WorkContract) (cells : List ProposedCell) :
    Decidable (WellFormed contract cells) := decidable_of_iff _ wellFormed_iff.symm

theorem length_cellIds (runId : String) (n : Nat) : (cellIds runId n).length = n := by
  unfold cellIds
  rw [List.length_map, List.length_range]

theorem WellFormed.named_eq {p : Proposal} (h : WellFormed contract p.cells) :
    ModelBackedPlanner.named p = p.cells := by
  unfold ModelBackedPlanner.named
  rw [List.filter_eq_self.mpr fun c hc => decide_eq_true (h.named c hc),
    List.take_of_length_le h.eight]

theorem WellFormed.same_place (h : WellFormed contract cells) (hi : cells[i]? = some c)
    (hj : cells[j]? = some e) (hname : PyText.strip c.name = PyText.strip e.name) : i = j := by
  have hlt : i < (cells.map (PyText.strip ·.name)).length := by
    rw [List.length_map]
    exact (List.getElem?_eq_some_iff.mp hi).1
  apply (List.getElem?_inj hlt h.unique).mp
  rw [List.getElem?_map, List.getElem?_map, hi, hj]
  exact congrArg some hname

theorem WellFormed.needs_lt (h : WellFormed contract cells) (hn : Needs cells j i) : j < i := by
  obtain ⟨c, e, hc, he, hname⟩ := hn
  obtain ⟨k, hk, f, hf, heq⟩ := h.refers i c hc _ hname
  rwa [h.same_place he hf heq.symm]

theorem WellFormed.lastOfName_iff (h : WellFormed contract cells) (he : cells[j]? = some e)
    {name : String} : LastOfName cells name j ↔ PyText.strip e.name = name := by
  constructor
  · intro hlast
    obtain ⟨⟨f, hf, hname⟩, -⟩ := hlast
    rw [he] at hf
    cases hf
    exact hname
  · intro hname
    refine ⟨⟨e, he, hname⟩, ?_⟩
    intro k f hf hfname
    exact (h.same_place hf he (hfname.trans hname.symm)).le

/-- What a cell is made to depend on. -/
theorem WellFormed.mem_deps (h : WellFormed contract cells) (hi : cells[i]? = some c)
    {d : String} : d ∈ resolveDeps cells (cellIds runId cells.length) i c ↔
      ∃ j, Needs cells j i ∧ d = cellId runId j := by
  have hlt := (List.getElem?_eq_some_iff.mp hi).1
  rw [mem_resolveDeps hlt.le]
  constructor
  · intro hd
    obtain ⟨j, hj, rfl, name, hname, hlast⟩ := hd
    obtain ⟨⟨e, he, rfl⟩, -⟩ := id hlast
    exact ⟨j, ⟨c, e, hi, he, hname⟩, rfl⟩
  · intro hd
    obtain ⟨j, hneeds, rfl⟩ := hd
    obtain ⟨c', e, hc, he, hname⟩ := id hneeds
    rw [hi] at hc
    cases hc
    exact ⟨j, h.needs_lt hneeds, rfl, _, hname, (h.lastOfName_iff he).mpr rfl⟩

theorem mem_plannedCells {x : String} {deps : List String} :
    (x, deps) ∈ plannedCells cells runId ↔ ∃ i c, cells[i]? = some c ∧ x = cellId runId i ∧
      deps = resolveDeps cells (cellIds runId cells.length) i c := by
  unfold plannedCells
  rw [List.mem_iff_getElem?]
  simp only [List.getElem?_zip_eq_some, List.getElem?_mapIdx, Option.map_eq_some_iff]
  constructor
  · intro h
    obtain ⟨i, hid, c, hc, rfl⟩ := h
    rw [getElem?_cellIds (List.getElem?_eq_some_iff.mp hc).1] at hid
    exact ⟨i, c, hc, (Option.some.inj hid).symm, rfl⟩
  · intro h
    obtain ⟨i, c, hc, rfl, rfl⟩ := h
    exact ⟨i, getElem?_cellIds (List.getElem?_eq_some_iff.mp hc).1, c, hc, rfl⟩

theorem map_fst_plannedCells (cells : List ProposedCell) (runId : String) :
    (plannedCells cells runId).map Prod.fst = cellIds runId cells.length := by
  apply List.map_fst_zip
  rw [length_cellIds, List.length_mapIdx]

/-- **The dependencies by place.** -/
theorem WellFormed.dependsOn_planned (h : WellFormed contract cells) (y : String) (i : Nat) :
    DependsOn (plannedCells cells runId) y (cellId runId i) ↔
      ∃ j, y = cellId runId j ∧ Needs cells j i := by
  unfold DependsOn
  constructor
  · intro hd
    obtain ⟨deps, hmem, hy⟩ := hd
    obtain ⟨k, c, hc, hid, rfl⟩ := mem_plannedCells.mp hmem
    rw [← cellId_injective runId hid] at hc hy
    obtain ⟨j, hneeds, rfl⟩ := (h.mem_deps hc).mp hy
    exact ⟨j, rfl, hneeds⟩
  · intro hd
    obtain ⟨j, rfl, hneeds⟩ := hd
    obtain ⟨c, e, hc, -, -⟩ := id hneeds
    exact ⟨_, mem_plannedCells.mpr ⟨i, c, hc, rfl, rfl⟩,
      (h.mem_deps hc).mpr ⟨j, hneeds, rfl⟩⟩

theorem WellFormed.not_cyclic (h : WellFormed contract cells) :
    ¬ Cyclic (plannedCells cells runId) := by
  have hplace {y x : String} (hr : DependsOn (plannedCells cells runId) y x) :
      ∃ j i, y = cellId runId j ∧ x = cellId runId i ∧ j < i := by
    obtain ⟨deps, hmem, hy⟩ := id hr
    obtain ⟨i, c, hc, rfl, -⟩ := mem_plannedCells.mp hmem
    obtain ⟨j, rfl, hneeds⟩ := (h.dependsOn_planned y i).mp hr
    exact ⟨j, i, rfl, rfl, h.needs_lt hneeds⟩
  have hchain {y x : String} (hr : Relation.TransGen (DependsOn (plannedCells cells runId)) y x) :
      ∃ j i, y = cellId runId j ∧ x = cellId runId i ∧ j < i := by
    induction hr with
    | single hr => exact hplace hr
    | tail _ hr ih =>
      obtain ⟨j, i, rfl, rfl, hlt⟩ := ih
      obtain ⟨i', k, hid, rfl, hlt'⟩ := hplace hr
      rw [← cellId_injective runId hid] at hlt'
      exact ⟨j, k, rfl, rfl, hlt.trans hlt'⟩
  intro hcycle
  obtain ⟨x, hx⟩ := hcycle
  obtain ⟨j, i, rfl, hid, hlt⟩ := hchain hx
  exact absurd (cellId_injective runId hid) hlt.ne

theorem WellFormed.not_dangling (h : WellFormed contract cells) :
    ¬ Dangling (plannedCells cells runId) := by
  intro hdangling
  obtain ⟨⟨x, deps⟩, hx, d, hd, hunknown⟩ := hdangling
  obtain ⟨i, c, hc, rfl, rfl⟩ := mem_plannedCells.mp hx
  obtain ⟨j, ⟨-, e, -, he, -⟩, rfl⟩ := (h.mem_deps hc).mp hd
  apply hunknown
  rw [map_fst_plannedCells]
  exact List.mem_of_getElem? (getElem?_cellIds (List.getElem?_eq_some_iff.mp he).1)

theorem LevelsOf.unique {levels' : List Nat} (hl : LevelsOf cells levels)
    (hl' : LevelsOf cells levels') : levels = levels' := by
  refine List.ext_getElem (hl.length.trans hl'.length.symm) ?_
  intro i hi hi'
  exact (hl.level i _ (List.getElem?_eq_getElem hi)).unique
    (hl'.level i _ (List.getElem?_eq_getElem hi'))

/-- **The levels of a proposal.** -/
theorem WellFormed.exists_levels (h : WellFormed contract cells) (runId : String) :
    ∃ levels, LevelsOf cells levels ∧
      topologicalLevels (plannedCells cells runId) = some levels := by
  have hids : ((plannedCells cells runId).map Prod.fst).Nodup := by
    rw [map_fst_plannedCells]
    exact cellIds_nodup runId cells.length
  have hsome : topologicalLevels (plannedCells cells runId) ≠ none := by
    rw [Ne, topologicalLevels_none hids]
    exact not_or.mpr ⟨h.not_cyclic, h.not_dangling⟩
  obtain ⟨levels, hlevels⟩ := Option.ne_none_iff_exists'.mp hsome
  obtain ⟨wave, rfl, hwave⟩ := topologicalLevels_some hids hlevels
  refine ⟨_, ⟨?_, ?_⟩, hlevels⟩
  · have hlength := congrArg List.length (map_fst_plannedCells cells runId)
    rwa [List.length_map, length_cellIds, ← List.length_map (f := fun c => wave c.1)] at hlength
  · intro i n hn
    obtain ⟨⟨x, deps⟩, hx, rfl⟩ := Option.map_eq_some_iff.mp (List.getElem?_map ▸ hn)
    have hmem := List.mem_of_getElem? hx
    have hid : x = cellId runId i := by
      have hfst : ((plannedCells cells runId).map Prod.fst)[i]? = some x := by
        rw [List.getElem?_map, hx]
        rfl
      have hlt := (List.getElem?_eq_some_iff.mp hfst).1
      rw [map_fst_plannedCells, length_cellIds] at hlt
      rw [map_fst_plannedCells, getElem?_cellIds hlt] at hfst
      exact (Option.some.inj hfst).symm
    have hlevel := hwave _ hmem
    subst hid
    exact (level_map h.dependsOn_planned).mp hlevel

theorem WellFormed.levels_eq (h : WellFormed contract cells) (hl : LevelsOf cells levels)
    (runId : String) : topologicalLevels (plannedCells cells runId) = some levels := by
  obtain ⟨levels', hl', hlevels⟩ := h.exists_levels runId
  rw [hl.unique hl']
  exact hlevels

end

end ModelBackedPlanner
end Northstack
