import Northstack.Application.PlanningModel
import Northstack.Core.Levels
import Northstack.Core.Peeling

/-!
# The waves of a proposal

`_topological_waves` (planning_model.py:273-291) goes over the cells that have no wave yet,
pass after pass, and a cell gets its wave as soon as all it depends on have theirs, some of
them perhaps in the same pass. A pass that gives none is the last.

**Results.**
* `topologicalWaves_eq`: the bound on the passes that the planner's model has is never met.
* `topological_waves_law`: when there are no waves, and what the waves are.
-/
namespace Northstack

open Levels

namespace ModelBackedPlanner

/-- Cells with what they depend on. -/
abbrev Dependencies := List (String × List String)

/-- The loop over the passes; `progressed` says that the last one placed a cell. -/
def topologicalLoop (remaining : Dependencies) (waves : List (String × Nat)) :
    Option (List (String × Nat)) :=
  if remaining = [] then some waves
  else
    let r := topologicalRound remaining waves
    if r.2.length < remaining.length then topologicalLoop r.2 r.1 else none
termination_by remaining.length

/-- `_topological_waves` of cells with distinct ids. -/
def topologicalLevels (cells : Dependencies) : Option (List Nat) :=
  (topologicalLoop cells []).map fun waves => cells.map fun c => (waves.lookup c.1).getD 0

/-- `x` depends on `d`, which need not be a cell. -/
def DependsOn (cells : Dependencies) (d x : String) : Prop := ∃ deps, (x, deps) ∈ cells ∧ d ∈ deps

def Cyclic (cells : Dependencies) : Prop := ∃ x, Relation.TransGen (DependsOn cells) x x

/-- Some cell depends on an id that no cell has. -/
def Dangling (cells : Dependencies) : Prop := ∃ c ∈ cells, ∃ d ∈ c.2, d ∉ cells.map Prod.fst

/-- One wave for each cell: 0 without dependencies, else the one behind the last wave of the
dependencies, which is the length of a longest chain of dependencies below the cell. -/
structure Levelled (cells : Dependencies) (waves : List Nat) : Prop where
  length : waves.length = cells.length
  base : ∀ x ∈ cells.zip waves, x.1.2 = [] → x.2 = 0
  step : ∀ x ∈ cells.zip waves, x.1.2 ≠ [] →
    IsGreatest { n | ∃ y ∈ cells.zip waves, y.1.1 ∈ x.1.2 ∧ n = 1 + y.2 } x.2
  longest : ∀ x ∈ cells.zip waves, Level (DependsOn cells) x.1.1 x.2

/-! ## One pass -/

section

variable {cells remaining skipped : Dependencies} {waves result : List (String × Nat)}
  {id : String} {deps : List String} {w : Nat}

theorem mem_of_lookup_eq (h : waves.lookup id = some w) : (id, w) ∈ waves := by
  obtain ⟨l₁, l₂, rfl, -⟩ := List.lookup_eq_some_iff.mp h
  simp

theorem lookup_isSome : (waves.lookup id).isSome = true ↔ id ∈ waves.map Prod.fst := by
  rw [List.lookup_isSome_iff]
  simp only [beq_iff_eq, List.mem_map]
  constructor
  · intro h
    obtain ⟨p, hp, heq⟩ := h
    exact ⟨p, hp, heq.symm⟩
  · intro h
    obtain ⟨p, hp, heq⟩ := h
    exact ⟨p, hp, heq.symm⟩

theorem dependsOn_iff (hids : (cells.map Prod.fst).Nodup) (hc : (id, deps) ∈ cells) {d : String} :
    DependsOn cells d id ↔ d ∈ deps := by
  constructor
  · intro h
    obtain ⟨deps', hc', hd⟩ := h
    have heq := List.inj_on_of_nodup_map hids hc' hc rfl
    cases heq
    exact hd
  · exact fun hd => ⟨deps, hc, hd⟩

/-- What has a wave, and what is left. -/
structure Placed (cells remaining : Dependencies) (waves : List (String × Nat)) : Prop where
  known : ∀ c ∈ remaining, c ∈ cells
  covers : ∀ c ∈ cells, c ∈ remaining ∨ c.1 ∈ waves.map Prod.fst
  peels : Peels (DependsOn cells) (waves.map Prod.fst)
  placed_known : ∀ d ∈ waves.map Prod.fst, d ∈ cells.map Prod.fst
  levels : ∀ p ∈ waves, Level (DependsOn cells) p.1 p.2

theorem Placed.start : Placed cells cells [] where
  known _ hc := hc
  covers _ hc := .inl hc
  peels := .nil
  placed_known := by simp
  levels := by simp

/-- A cell whose dependencies all have waves gets the one behind them. -/
theorem Placed.place (hids : (cells.map Prod.fst).Nodup)
    (h : Placed cells (skipped ++ (id, deps) :: remaining) waves)
    (hdeps : ∀ d ∈ deps, (waves.lookup d).isSome = true) :
    Placed cells (skipped ++ remaining) (waves ++ [(id, levelBehind waves deps)]) where
  known c hc := by
    apply h.known
    rcases List.mem_append.mp hc with hc | hc
    · exact List.mem_append_left _ hc
    · exact List.mem_append_right _ (.tail _ hc)
  covers c hc := by
    rw [List.map_append]
    rcases h.covers c hc with hleft | hplaced
    · rcases List.mem_append.mp hleft with hleft | hleft
      · exact .inl (List.mem_append_left _ hleft)
      · rcases List.mem_cons.mp hleft with rfl | hleft
        · exact .inr (List.mem_append_right _ List.mem_cons_self)
        · exact .inl (List.mem_append_right _ hleft)
    · exact .inr (List.mem_append_left _ hplaced)
  peels := by
    rw [List.map_append]
    apply Peels.snoc h.peels
    intro d hd
    have hc : (id, deps) ∈ cells := h.known _ (by simp)
    exact lookup_isSome.mp (hdeps d ((dependsOn_iff hids hc).mp hd))
  placed_known d hd := by
    rw [List.map_append, List.mem_append] at hd
    rcases hd with hd | hd
    · exact h.placed_known d hd
    · rw [List.mem_singleton.mp hd]
      exact List.mem_map_of_mem (h.known (id, deps) (by simp))
  levels p hp := by
    rcases List.mem_append.mp hp with hp | hp
    · exact h.levels p hp
    · have hc : (id, deps) ∈ cells := h.known _ (by simp)
      rw [List.mem_singleton.mp hp]
      apply level_nextAbove
      · intro w hw
        obtain ⟨d, hd, hlookup⟩ := List.mem_filterMap.mp hw
        exact ⟨d, (dependsOn_iff hids hc).mpr hd, h.levels _ (mem_of_lookup_eq hlookup)⟩
      · intro d hd
        have hdep := (dependsOn_iff hids hc).mp hd
        obtain ⟨w, hlookup⟩ := Option.isSome_iff_exists.mp (hdeps d hdep)
        exact ⟨w, List.mem_filterMap.mpr ⟨d, hdep, hlookup⟩, h.levels _ (mem_of_lookup_eq hlookup)⟩

/-- What was passed over stands in front of what the pass has yet to come to. -/
theorem Placed.round (hids : (cells.map Prod.fst).Nodup)
    (h : Placed cells (skipped ++ remaining) waves) :
    Placed cells (skipped ++ (topologicalRound remaining waves).2)
      (topologicalRound remaining waves).1 := by
  induction remaining generalizing skipped waves with
  | nil => exact h
  | cons c remaining ih =>
    obtain ⟨id, deps⟩ := c
    unfold topologicalRound
    split
    · rename_i hdeps
      exact ih (h.place hids hdeps)
    · have hskip : Placed cells ((skipped ++ [(id, deps)]) ++ remaining) waves := by
        rw [List.append_assoc]
        exact h
      have hround := ih hskip
      rw [List.append_assoc] at hround
      exact hround

theorem Placed.pass (hids : (cells.map Prod.fst).Nodup) (h : Placed cells remaining waves) :
    Placed cells (topologicalRound remaining waves).2 (topologicalRound remaining waves).1 := by
  rw [← List.nil_append remaining] at h
  exact h.round hids

theorem topologicalRound_length (remaining : Dependencies) (waves : List (String × Nat)) :
    (topologicalRound remaining waves).2.length ≤ remaining.length := by
  induction remaining generalizing waves with
  | nil => exact le_refl _
  | cons c remaining ih =>
    unfold topologicalRound
    split
    · have hle := ih (waves ++ [(c.1, levelBehind waves c.2)])
      simp only [List.length_cons]
      omega
    · have hle := ih waves
      simp only [List.length_cons]
      omega

/-- A pass that places no cell has found each waiting for one without a wave. -/
theorem topologicalRound_stuck
    (h : ¬ (topologicalRound remaining waves).2.length < remaining.length) :
    ∀ c ∈ remaining, ∃ d ∈ c.2, d ∉ waves.map Prod.fst := by
  induction remaining generalizing waves with
  | nil => simp
  | cons c remaining ih =>
    unfold topologicalRound at h
    split at h
    · have hle := topologicalRound_length remaining (waves ++ [(c.1, levelBehind waves c.2)])
      simp only [List.length_cons] at h
      omega
    · rename_i hdeps
      simp only [List.length_cons, Nat.add_lt_add_iff_right] at h
      intro x hx
      rcases List.mem_cons.mp hx with rfl | hx
      · simp only [not_forall] at hdeps
        obtain ⟨d, hd, hnone⟩ := hdeps
        exact ⟨d, hd, fun hmem => hnone (lookup_isSome.mpr hmem)⟩
      · exact ih h x hx

/-! ## The loop -/

theorem topologicalWaves_eq (fuel : Nat) (remaining : Dependencies) (waves : List (String × Nat))
    (h : remaining.length ≤ fuel) :
    topologicalWaves fuel remaining waves = topologicalLoop remaining waves := by
  induction fuel generalizing remaining waves with
  | zero =>
    obtain rfl := List.eq_nil_of_length_eq_zero (Nat.le_zero.mp h)
    rw [topologicalLoop]
    rfl
  | succ fuel ih =>
    cases remaining with
    | nil =>
      rw [topologicalLoop]
      rfl
    | cons c remaining =>
      have hle := topologicalRound_length (c :: remaining) waves
      rw [topologicalLoop, if_neg (List.cons_ne_nil _ _)]
      unfold topologicalWaves
      dsimp only
      by_cases hstuck : (topologicalRound (c :: remaining) waves).2.length = (c :: remaining).length
      · rw [if_pos hstuck, if_neg (by omega)]
      · rw [if_neg hstuck, if_pos (by omega)]
        apply ih
        omega

theorem topologicalLoop_some (hids : (cells.map Prod.fst).Nodup)
    (h : Placed cells remaining waves) (hloop : topologicalLoop remaining waves = some result) :
    Placed cells [] result := by
  fun_induction topologicalLoop remaining waves with
  | case1 waves =>
    cases hloop
    exact h
  | case2 remaining waves hne r hless ih => exact ih (h.pass hids) hloop
  | case3 => cases hloop

theorem topologicalLoop_none (hids : (cells.map Prod.fst).Nodup)
    (h : Placed cells remaining waves) (hloop : topologicalLoop remaining waves = none) :
    ∃ left placed, Placed cells left placed ∧ left ≠ [] ∧
      ∀ c ∈ left, ∃ d ∈ c.2, d ∉ placed.map Prod.fst := by
  fun_induction topologicalLoop remaining waves with
  | case1 => cases hloop
  | case2 remaining waves hne r hless ih => exact ih (h.pass hids) hloop
  | case3 remaining waves hne r hstuck => exact ⟨_, _, h, hne, topologicalRound_stuck hstuck⟩

/-! ## When there are no waves -/

/-- Where every cell is placed, none is on a cycle or depends on what is no cell. -/
theorem Placed.sound (hids : (cells.map Prod.fst).Nodup) (h : Placed cells [] result) :
    ¬ (Cyclic cells ∨ Dangling cells) := by
  have hall : ∀ c ∈ cells, c.1 ∈ result.map Prod.fst := by
    intro c hc
    rcases h.covers c hc with hnone | hplaced
    · cases hnone
    · exact hplaced
  intro hbad
  rcases hbad with ⟨x, hcycle⟩ | ⟨c, hc, d, hd, hdangling⟩
  · obtain ⟨d, -, deps, hx, -⟩ := Relation.TransGen.tail'_iff.mp hcycle
    exact h.peels.acyclic (hall _ hx) hcycle
  · have hplaced := h.peels.closed (hall c hc) ((dependsOn_iff hids hc).mpr hd)
    exact hdangling (h.placed_known d hplaced)

theorem Placed.stuck {left : Dependencies} {placed : List (String × Nat)}
    (h : Placed cells left placed) (hne : left ≠ [])
    (hstuck : ∀ c ∈ left, ∃ d ∈ c.2, d ∉ placed.map Prod.fst) : Cyclic cells ∨ Dangling cells := by
  by_contra hgood
  rw [not_or] at hgood
  obtain ⟨hacyclic, hknown⟩ := hgood
  have hfinite : { x | x ∈ left.map Prod.fst }.Finite := (left.map Prod.fst).finite_toSet
  obtain ⟨c, hc⟩ := List.exists_mem_of_ne_nil left hne
  have hnocycle : ∀ x, ¬ Relation.TransGen (DependsOn cells) x x :=
    fun x hcycle => hacyclic ⟨x, hcycle⟩
  obtain ⟨x, hx, hfirst⟩ := exists_first hnocycle hfinite ⟨c.1, List.mem_map_of_mem hc⟩
  obtain ⟨e, he, rfl⟩ := List.mem_map.mp hx
  obtain ⟨d, hd, hnone⟩ := hstuck e he
  -- what the first of the cells that are left waits for is a cell, and has no wave
  have hcell : d ∈ cells.map Prod.fst := by
    by_contra hdangling
    exact hknown ⟨e, h.known e he, d, hd, hdangling⟩
  obtain ⟨y, hy, rfl⟩ := List.mem_map.mp hcell
  rcases h.covers y hy with hleft | hplaced
  · exact hfirst y.1 (List.mem_map_of_mem hleft) ⟨e.2, h.known e he, hd⟩
  · exact hnone hplaced

theorem topologicalLevels_none (hids : (cells.map Prod.fst).Nodup) :
    topologicalLevels cells = none ↔ Cyclic cells ∨ Dangling cells := by
  unfold topologicalLevels
  rw [Option.map_eq_none_iff]
  constructor
  · intro hnone
    obtain ⟨left, placed, h, hne, hstuck⟩ := topologicalLoop_none hids Placed.start hnone
    exact h.stuck hne hstuck
  · intro hbad
    cases hloop : topologicalLoop cells [] with
    | none => rfl
    | some result => exact absurd hbad ((topologicalLoop_some hids Placed.start hloop).sound hids)

/-! ## What the waves are -/

theorem Placed.level (h : Placed cells [] result) {c : String × List String} (hc : c ∈ cells) :
    Level (DependsOn cells) c.1 ((result.lookup c.1).getD 0) := by
  rcases h.covers c hc with hnone | hplaced
  · cases hnone
  · obtain ⟨w, hlookup⟩ := Option.isSome_iff_exists.mp (lookup_isSome.mpr hplaced)
    rw [hlookup]
    exact h.levels _ (mem_of_lookup_eq hlookup)

theorem topologicalLevels_some (hids : (cells.map Prod.fst).Nodup) {levels : List Nat}
    (h : topologicalLevels cells = some levels) :
    ∃ wave : String → Nat, levels = cells.map (fun c => wave c.1) ∧
      ∀ c ∈ cells, Level (DependsOn cells) c.1 (wave c.1) := by
  obtain ⟨result, hloop, rfl⟩ := Option.map_eq_some_iff.mp h
  refine ⟨fun id => (result.lookup id).getD 0, rfl, ?_⟩
  intro c hc
  exact (topologicalLoop_some hids Placed.start hloop).level hc

theorem zip_map_eq {α β : Type} (xs : List α) (f : α → β) :
    xs.zip (xs.map f) = xs.map fun a => (a, f a) := by
  have hzip := List.zip_map' (f := id) (g := f) (l := xs)
  rw [List.map_id] at hzip
  exact hzip

theorem mem_zip_map {α β : Type} {xs : List α} {f : α → β} {x : α × β} :
    x ∈ xs.zip (xs.map f) ↔ x.1 ∈ xs ∧ x.2 = f x.1 := by
  obtain ⟨a, b⟩ := x
  rw [zip_map_eq, List.mem_map]
  constructor
  · intro h
    obtain ⟨y, hy, heq⟩ := h
    cases heq
    exact ⟨hy, rfl⟩
  · intro h
    exact ⟨a, h.1, Prod.ext rfl h.2.symm⟩

/-- The levels of the cells are their waves. -/
theorem levelled_of_level (hids : (cells.map Prod.fst).Nodup) (hknown : ¬ Dangling cells)
    {wave : String → Nat} (hwave : ∀ c ∈ cells, Level (DependsOn cells) c.1 (wave c.1)) :
    Levelled cells (cells.map fun c => wave c.1) where
  length := List.length_map _
  base x hx hnone := by
    obtain ⟨hc, hw⟩ := mem_zip_map.mp hx
    rw [hw]
    apply (hwave x.1 hc).unique
    apply level_zero
    intro d hd
    have hdep := (dependsOn_iff hids hc).mp hd
    rw [hnone] at hdep
    cases hdep
  step x hx hsome := by
    obtain ⟨hc, hw⟩ := mem_zip_map.mp hx
    have hcell : ∀ d ∈ x.1.2, ∃ c ∈ cells, c.1 = d := by
      intro d hd
      by_contra hnone
      apply hknown
      refine ⟨x.1, hc, d, hd, ?_⟩
      intro hmem
      exact hnone (List.mem_map.mp hmem)
    have hlevel : Level (DependsOn cells) x.1.1 (nextAbove (x.1.2.map wave)) := by
      apply level_nextAbove
      · intro w hw
        obtain ⟨d, hd, rfl⟩ := List.mem_map.mp hw
        obtain ⟨c, hmem, rfl⟩ := hcell d hd
        exact ⟨c.1, (dependsOn_iff hids hc).mpr hd, hwave c hmem⟩
      · intro d hd
        have hdep := (dependsOn_iff hids hc).mp hd
        obtain ⟨c, hmem, rfl⟩ := hcell d hdep
        exact ⟨wave c.1, List.mem_map_of_mem hdep, hwave c hmem⟩
    rw [hw, (hwave x.1 hc).unique hlevel]
    constructor
    · rcases nextAbove_cases (x.1.2.map wave) with ⟨-, hnil⟩ | ⟨w, hw, hnext⟩
      · exact absurd (List.map_eq_nil_iff.mp hnil) hsome
      · obtain ⟨d, hd, rfl⟩ := List.mem_map.mp hw
        obtain ⟨c, hmem, rfl⟩ := hcell d hd
        exact ⟨(c, wave c.1), mem_zip_map.mpr ⟨hmem, rfl⟩, hd, by omega⟩
    · intro n hn
      obtain ⟨y, hy, hd, rfl⟩ := hn
      have hlt := lt_nextAbove (List.mem_map_of_mem (f := wave) hd)
      rw [(mem_zip_map.mp hy).2]
      omega
  longest x hx := by
    obtain ⟨hc, hw⟩ := mem_zip_map.mp hx
    rw [hw]
    exact hwave x.1 hc

/-! ## The order of the cells -/

theorem dependsOn_perm {cells' : Dependencies} (h : cells'.Perm cells) :
    DependsOn cells' = DependsOn cells := by
  funext d x
  unfold DependsOn
  simp only [h.mem_iff]

theorem unplannable_perm {cells' : Dependencies} (h : cells'.Perm cells) :
    Cyclic cells' ∨ Dangling cells' ↔ Cyclic cells ∨ Dangling cells := by
  unfold Cyclic Dangling
  simp only [dependsOn_perm h, h.mem_iff, (h.map Prod.fst).mem_iff]

/-- The levels of the cells in any order. -/
theorem topologicalLevels_perm {cells' : Dependencies} (hids : (cells.map Prod.fst).Nodup)
    (h : cells'.Perm cells) {levels : List Nat} (hlevels : topologicalLevels cells = some levels) :
    ∃ levels', topologicalLevels cells' = some levels' ∧
      (cells'.zip levels').Perm (cells.zip levels) := by
  have hids' : (cells'.map Prod.fst).Nodup := (h.map Prod.fst).nodup_iff.mpr hids
  have hsome : ¬ (Cyclic cells ∨ Dangling cells) := by
    rw [← topologicalLevels_none hids, hlevels]
    exact Option.some_ne_none levels
  rw [← unplannable_perm h, ← topologicalLevels_none hids'] at hsome
  obtain ⟨levels', hlevels'⟩ := Option.ne_none_iff_exists'.mp hsome
  refine ⟨levels', hlevels', ?_⟩
  obtain ⟨wave, rfl, hwave⟩ := topologicalLevels_some hids hlevels
  obtain ⟨wave', rfl, hwave'⟩ := topologicalLevels_some hids' hlevels'
  have hsame : cells'.map (fun c => wave' c.1) = cells'.map fun c => wave c.1 := by
    apply List.map_congr_left
    intro c hc
    have hlevel := hwave' c hc
    rw [dependsOn_perm h] at hlevel
    exact hlevel.unique (hwave c (h.mem_iff.mp hc))
  rw [hsame, zip_map_eq, zip_map_eq]
  exact h.map _

/-- What `harden` computes with a bound on the passes. -/
theorem topologicalLevels_eq (cells : Dependencies) : topologicalLevels cells =
    (topologicalWaves cells.length cells []).map fun waves =>
      cells.map fun c => (waves.lookup c.1).getD 0 := by
  unfold topologicalLevels
  rw [topologicalWaves_eq _ _ _ (le_refl _)]

end

/-- **The waves of a proposal.** For distinct ids there are none exactly if the dependencies have
a cycle or name what is no cell; otherwise each cell gets the wave behind the last of its
dependencies, the length of a longest chain below it, in whatever order the cells come. -/
theorem topological_waves_law (cells : Dependencies) (hids : (cells.map Prod.fst).Nodup) :
    (topologicalLevels cells = none ↔ Cyclic cells ∨ Dangling cells) ∧
      (∀ levels, topologicalLevels cells = some levels → Levelled cells levels) ∧
      ∀ cells' : Dependencies, cells'.Perm cells →
        (topologicalLevels cells' = none ↔ topologicalLevels cells = none) ∧
        ∀ levels, topologicalLevels cells = some levels → ∃ levels',
          topologicalLevels cells' = some levels' ∧
            (cells'.zip levels').Perm (cells.zip levels) := by
  refine ⟨topologicalLevels_none hids, ?_, ?_⟩
  · intro levels hlevels
    have hknown : ¬ Dangling cells := by
      intro hdangling
      rw [(topologicalLevels_none hids).mpr (.inr hdangling)] at hlevels
      cases hlevels
    obtain ⟨wave, rfl, hwave⟩ := topologicalLevels_some hids hlevels
    exact levelled_of_level hids hknown hwave
  · intro cells' hperm
    have hids' : (cells'.map Prod.fst).Nodup := (hperm.map Prod.fst).nodup_iff.mpr hids
    constructor
    · rw [topologicalLevels_none hids', topologicalLevels_none hids]
      exact unplannable_perm hperm
    · intro levels hlevels
      exact topologicalLevels_perm hids hperm hlevels

theorem topological_waves_three :
    Levelled [("b", ["a"]), ("c", ["b", "a"]), ("a", [])] [1, 2, 0] := by
  have hlevels : topologicalLevels [("b", ["a"]), ("c", ["b", "a"]), ("a", [])] =
      some [1, 2, 0] := by
    rw [topologicalLevels_eq]
    decide
  exact (topological_waves_law _ (by decide)).2.1 _ hlevels

end ModelBackedPlanner
end Northstack
