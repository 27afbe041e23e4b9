import Northstack.Application.Planning
import Northstack.Core.Peeling

/-!
# What graph validation decides

Kahn's algorithm in `_structural_errors` visits a peeling of the dependency
relation that cannot be extended, so it misses a cell if and only if there is a
cycle. The other checks are read off one by one.

**Results.**
* `visited_iff`: all cells are visited if and only if no cell depends on itself,
  directly or through others.
* `validation_sound`: when a cycle is reported, and what a graph without errors is.
-/
namespace Northstack

/-- The cell with id `x` is known and the cell with id `y` depends on it. -/
def GraphVersion.Blocks (g : GraphVersion) (x y : String) : Prop :=
  x ∈ g.ids ∧ ∃ c ∈ g.cells, c.id = y ∧ x ∈ c.dependencies

/-- The dependency relation, restricted to known cells, has a cycle. -/
def GraphVersion.Cyclic (g : GraphVersion) : Prop := ∃ x, Relation.TransGen g.Blocks x x

namespace GraphPlanner

/-! ## Kahn's algorithm -/

section

variable {pairs : List (String × String)}

/-- The edges from `node` to `x`. -/
def edgesBetween (pairs : List (String × String)) (node x : String) : Nat :=
  pairs.countP fun p => p.1 = node ∧ p.2 = x

/-- A visit takes off each target as many edges as it has from the node, and
queues the targets that had no others. -/
theorem releaseNode_spec (node : String) (pairs : List (String × String)) (degree : String → Nat)
    (queue : List String) (h : ∀ x, edgesBetween pairs node x ≤ degree x) :
    ∃ new, releaseNode node pairs (degree, queue) =
        (fun x => degree x - edgesBetween pairs node x, queue ++ new) ∧ new.Nodup ∧
      ∀ x, x ∈ new ↔ 0 < edgesBetween pairs node x ∧ degree x = edgesBetween pairs node x := by
  induction pairs generalizing degree queue with
  | nil => exact ⟨[], by simp [releaseNode, edgesBetween], List.nodup_nil, by simp [edgesBetween]⟩
  | cons p pairs ih =>
    obtain ⟨d, c⟩ := p
    by_cases hd : d = node
    · subst hd
      have hcount (x : String) : edgesBetween ((d, c) :: pairs) d x =
          edgesBetween pairs d x + if x = c then 1 else 0 := by
        unfold edgesBetween
        rw [List.countP_cons]
        by_cases hx : x = c
        · simp [hx]
        · simp [hx, Ne.symm hx]
      simp only [hcount] at h ⊢
      let degree' : String → Nat := fun x => if x = c then degree x - 1 else degree x
      have hc := h c
      rw [if_pos rfl] at hc
      obtain ⟨new, hrun, hnodup, hnew⟩ := ih degree'
        (if degree' c = 0 then queue ++ [c] else queue) fun x => by
          have hx := h x
          by_cases hxc : x = c <;> simp [degree', hxc] at hx ⊢ <;> omega
      have hdegree : (fun x => degree' x - edgesBetween pairs d x) =
          fun x => degree x - (edgesBetween pairs d x + if x = c then 1 else 0) := by
        funext x
        by_cases hxc : x = c <;> simp [degree', hxc]
        omega
      have hstep : releaseNode d ((d, c) :: pairs) (degree, queue) =
          releaseNode d pairs (degree', if degree' c = 0 then queue ++ [c] else queue) := by
        rw [releaseNode, if_pos rfl]
      rw [hstep, hrun, hdegree]
      by_cases hzero : degree' c = 0
      · have hdc : degree c - 1 = 0 := by simpa [degree'] using hzero
        refine ⟨c :: new, by simp [hzero], List.nodup_cons.mpr ⟨fun hm => ?_, hnodup⟩, fun x => ?_⟩
        · have := (hnew c).mp hm
          omega
        · rw [List.mem_cons, hnew]
          by_cases hxc : x = c
          · subst hxc
            simp only [true_or, if_true, true_iff]
            omega
          · simp [degree', hxc]
      · have hdc : degree c - 1 ≠ 0 := by simpa [degree'] using hzero
        refine ⟨new, by simp [hzero], hnodup, fun x => ?_⟩
        rw [hnew]
        by_cases hxc : x = c
        · subst hxc
          simp only [degree', if_true]
          omega
        · simp [degree', hxc]
    · have hcount (x : String) : edgesBetween ((d, c) :: pairs) node x =
          edgesBetween pairs node x := by
        unfold edgesBetween
        rw [List.countP_cons, if_neg (by simp [hd])]
        rfl
      have hstep : releaseNode node ((d, c) :: pairs) (degree, queue) =
          releaseNode node pairs (degree, queue) := by
        rw [releaseNode, if_neg hd]
      simp only [hcount] at h ⊢
      rw [hstep]
      exact ih degree queue h

/-- The state of the queue loop behind the visits `done`. -/
structure Kahn (pairs : List (String × String)) (nodes done : List String)
    (degree : String → Nat) (queue : List String) : Prop where
  peels : Peels (fun d c => (d, c) ∈ pairs) done
  degrees : ∀ x, degree x = pairs.countP fun p => p.2 = x ∧ p.1 ∉ done
  nodup : (done ++ queue).Nodup
  known : ∀ x ∈ done ++ queue, x ∈ nodes
  settled : ∀ x ∈ nodes, degree x = 0 ↔ x ∈ done ++ queue

/-- One visit. -/
theorem Kahn.visit {nodes done queue : List String} {degree : String → Nat} {node : String}
    (hpairs : ∀ p ∈ pairs, p.2 ∈ nodes) (h : Kahn pairs nodes done degree (node :: queue)) :
    Kahn pairs nodes (done ++ [node]) (releaseNode node pairs (degree, queue)).1
      (releaseNode node pairs (degree, queue)).2 := by
  have hnode : node ∉ done := by
    have hn := List.nodup_append.mp h.nodup
    exact fun hm => hn.2.2 node hm node List.mem_cons_self rfl
  have hsplit (x : String) : degree x = edgesBetween pairs node x +
      pairs.countP fun p => p.2 = x ∧ p.1 ∉ done ++ [node] := by
    rw [h.degrees, edgesBetween, List.countP_eq_countP_filter_add pairs _ fun p => p.1 = node,
      List.countP_filter, List.countP_filter]
    congr 1
    · refine List.countP_congr fun p _ => ?_
      simp only [Bool.and_eq_true, decide_eq_true_eq]
      constructor
      · rintro ⟨⟨hx, -⟩, hp⟩
        exact ⟨hp, hx⟩
      · rintro ⟨hp, hx⟩
        exact ⟨⟨hx, hp ▸ hnode⟩, hp⟩
    · refine List.countP_congr fun p _ => ?_
      simp only [Bool.and_eq_true, decide_eq_true_eq, Bool.not_eq_true', decide_eq_false_iff_not,
        List.mem_append, List.mem_singleton, not_or]
      tauto
  obtain ⟨new, hrun, hnodup, hnew⟩ :=
    releaseNode_spec node pairs degree queue fun x => by
      have := hsplit x
      omega
  rw [hrun]
  have hzero : degree node = 0 := (h.settled node (h.known node (by simp))).mpr (by simp)
  have hfresh : ∀ x ∈ new, x ∈ nodes ∧ x ∉ done ++ node :: queue := by
    intro x hx
    obtain ⟨hpos, hdeg⟩ := (hnew x).mp hx
    obtain ⟨p, hp, hpx⟩ := List.countP_pos_iff.mp hpos
    have hmem : x ∈ nodes := (of_decide_eq_true hpx).2 ▸ hpairs p hp
    refine ⟨hmem, fun hin => ?_⟩
    have := (h.settled x hmem).mpr hin
    omega
  have hperm : ∀ x, x ∈ done ++ [node] ++ (queue ++ new) ↔ x ∈ done ++ node :: queue ∨ x ∈ new := by
    intro x
    simp only [List.mem_append, List.mem_cons, List.not_mem_nil, or_false]
    tauto
  refine ⟨h.peels.snoc fun y hy => ?_, fun x => ?_, ?_, fun x hx => ?_, fun x hx => ?_⟩
  · by_contra hdone
    have hcount := h.degrees node
    rw [hzero, eq_comm, List.countP_eq_zero] at hcount
    exact hcount (y, node) hy (by simpa using hdone)
  · have := hsplit x
    dsimp only
    omega
  · rw [List.append_assoc, List.singleton_append, ← List.cons_append, ← List.append_assoc]
    exact List.nodup_append.mpr ⟨h.nodup, hnodup, fun x hx y hy he => (hfresh y hy).2 (he ▸ hx)⟩
  · rcases (hperm x).mp hx with hx | hx
    · exact h.known x hx
    · exact (hfresh x hx).1
  · rw [hperm, ← h.settled x hx, hnew]
    dsimp only
    have := hsplit x
    omega

/-- The loop ends with a peeling that cannot be extended. -/
theorem visitedCount_spec {nodes : List String} (hpairs : ∀ p ∈ pairs, p.2 ∈ nodes) (fuel : Nat)
    {done : List String} {degree : String → Nat} {queue : List String}
    (h : Kahn pairs nodes done degree queue) (hfuel : nodes.length < fuel + done.length) :
    ∃ order, Peels (fun d c => (d, c) ∈ pairs) order ∧ order.Nodup ∧ (∀ x ∈ order, x ∈ nodes) ∧
      (∀ x ∈ nodes, x ∉ order → ∃ d, (d, x) ∈ pairs ∧ d ∉ order) ∧
      visitedCount pairs fuel degree queue + done.length = order.length := by
  induction fuel generalizing done degree queue with
  | zero =>
    have hle := (h.nodup.of_append_left.subperm fun x hx => h.known x
      (List.mem_append_left _ hx)).length_le
    omega
  | succ fuel ih =>
    cases queue with
    | nil =>
      have hdone : done ++ [] = done := List.append_nil done
      refine ⟨done, h.peels, h.nodup.of_append_left, fun x hx => h.known x (by simpa using hx),
        fun x hx hnot => ?_, by simp [visitedCount]⟩
      have hpos : 0 < degree x := by
        rw [Nat.pos_iff_ne_zero, Ne, h.settled x hx, hdone]
        exact hnot
      rw [h.degrees] at hpos
      obtain ⟨⟨d, c⟩, hp, hd⟩ := List.countP_pos_iff.mp hpos
      obtain ⟨hc, hnew⟩ := of_decide_eq_true hd
      exact ⟨d, hc ▸ hp, hnew⟩
    | cons node queue =>
      obtain ⟨order, hpeels, hnodup, hknown, hstuck, hcount⟩ :=
        ih (h.visit hpairs) (by rw [List.length_append, List.length_singleton]; omega)
      refine ⟨order, hpeels, hnodup, hknown, hstuck, ?_⟩
      rw [List.length_append, List.length_singleton] at hcount
      rw [visitedCount]
      omega

end

theorem mem_dependencyPairs {graph : GraphVersion} {d c : String} :
    (d, c) ∈ dependencyPairs graph ↔ graph.Blocks d c := by
  unfold dependencyPairs GraphVersion.Blocks
  simp only [List.mem_flatMap, List.mem_map, List.mem_filter, decide_eq_true_eq]
  constructor
  · rintro ⟨cell, hcell, x, ⟨hx, hknown⟩, he⟩
    obtain ⟨rfl, rfl⟩ := Prod.mk.inj he
    exact ⟨hknown, cell, hcell, rfl, hx⟩
  · rintro ⟨hknown, cell, hcell, rfl, hx⟩
    exact ⟨cell, hcell, d, ⟨hx, hknown⟩, rfl⟩

/-- The queue starts with the cells that depend on none. -/
theorem kahn_start {graph : GraphVersion} :
    Kahn (dependencyPairs graph) (ids graph) []
      (fun id => (dependencyPairs graph).countP (·.2 = id))
      ((ids graph).reverse.dedup.reverse.filter fun id =>
        (dependencyPairs graph).countP (·.2 = id) = 0) where
  peels := .nil
  degrees := fun x => by simp
  nodup := ((List.nodup_reverse.mpr (List.nodup_dedup _)).filter _)
  known := fun x hx => by simpa using (List.mem_filter.mp hx).1
  settled := fun x hx => by
    have hmem : x ∈ (ids graph).reverse.dedup.reverse := by simpa using hx
    rw [List.nil_append, List.mem_filter, decide_eq_true_eq]
    exact ⟨fun h => ⟨hmem, h⟩, fun h => h.2⟩

/-- **Kahn's algorithm.** All cells are visited if and only if there is no cycle. -/
theorem visited_iff {graph : GraphVersion} (hn : (ids graph).Nodup) :
    visited graph = graph.cells.length ↔ ¬ graph.Cyclic := by
  have hrel : (fun d c => (d, c) ∈ dependencyPairs graph) = graph.Blocks := by
    funext d c
    exact propext mem_dependencyPairs
  have hpairs : ∀ p ∈ dependencyPairs graph, p.2 ∈ ids graph := by
    rintro ⟨d, c⟩ hp
    obtain ⟨-, cell, hcell, rfl, -⟩ := mem_dependencyPairs.mp hp
    exact List.mem_map_of_mem hcell
  have hlength : (ids graph).length = graph.cells.length := List.length_map _
  obtain ⟨order, hpeels, hnodup, hknown, hstuck, hcount⟩ :=
    visitedCount_spec hpairs (graph.cells.length + 1) kahn_start (by simp [hlength])
  have hvisited : visited graph = order.length := hcount
  rw [hrel] at hpeels
  rw [hvisited, ← hlength]
  have hsub := hnodup.subperm hknown
  constructor
  · rintro hall ⟨x, hcycle⟩
    -- A cycle's cell has a predecessor, so it is known, and visited.
    have hx : x ∈ ids graph := by
      obtain ⟨y, -, hr⟩ := Relation.TransGen.tail'_iff.mp hcycle
      obtain ⟨-, cell, hcell, rfl, -⟩ := hr
      exact List.mem_map_of_mem hcell
    have hperm := hsub.perm_of_length_le hall.ge
    exact hpeels.acyclic (hperm.mem_iff.mpr hx) hcycle
  · intro hacyclic
    refine le_antisymm hsub.length_le (hn.subperm fun x hx => ?_).length_le
    by_contra hmissed
    obtain ⟨y, ⟨hy, hyo⟩, hfirst⟩ := exists_first (r := graph.Blocks)
      (fun x hcycle => hacyclic ⟨x, hcycle⟩) (s := { x | x ∈ ids graph ∧ x ∉ order })
      ((ids graph).toFinset.finite_toSet.subset fun x hx => by simpa using hx.1) ⟨x, hx, hmissed⟩
    obtain ⟨d, hd, hdo⟩ := hstuck y hy hyo
    have hblocks := mem_dependencyPairs.mp hd
    exact hfirst d ⟨hblocks.1, hdo⟩ hblocks

/-! ## The other errors -/

theorem mem_errorIf {p : Prop} [Decidable p] {e x : String} : x ∈ errorIf p e ↔ p ∧ x = e := by
  unfold errorIf
  split <;> simp_all

def cycleError : String := "cycle detected in graph"

/-- A text that begins with other words than the error on cycles. -/
def BeginsOtherwise (e : String) : Prop :=
  ∃ a b : String, e = a ++ b ∧ ¬ a.toList <+: cycleError.toList

theorem BeginsOtherwise.words {a : String} (h : ¬ a.toList <+: cycleError.toList) :
    BeginsOtherwise a := ⟨a, "", String.append_empty.symm, h⟩

theorem BeginsOtherwise.more {e x : String} (h : BeginsOtherwise e) : BeginsOtherwise (e ++ x) := by
  obtain ⟨a, b, rfl, ha⟩ := h
  exact ⟨a, b ++ x, String.append_assoc .., ha⟩

theorem BeginsOtherwise.ne {e : String} (h : BeginsOtherwise e) : e ≠ cycleError := by
  obtain ⟨a, b, rfl, ha⟩ := h
  intro he
  have hlist := congrArg String.toList he
  rw [String.toList_append] at hlist
  exact ha ⟨b.toList, hlist⟩

section

variable {graph : GraphVersion} {e : String}

theorem shapeErrors_begin (h : e ∈ shapeErrors graph) : BeginsOtherwise e := by
  simp only [shapeErrors, List.mem_append, mem_errorIf, List.mem_map] at h
  rcases h with (((⟨-, rfl⟩ | ⟨-, rfl⟩) | ⟨-, rfl⟩) | ⟨m, -, rfl⟩) | ⟨-, rfl⟩
  · exact .words (by decide)
  · exact .words (by decide)
  · exact .words (by decide)
  · exact .more (.more (.words (by decide)))
  · exact .more (.more (.more (.words (by decide))))

theorem cellErrors_begin {cell : GraphCell} (h : e ∈ cellErrors graph cell) :
    BeginsOtherwise e := by
  simp only [cellErrors, List.mem_append, mem_errorIf, List.mem_flatMap] at h
  rcases h with ((⟨-, rfl⟩ | ⟨-, rfl⟩) | ⟨-, rfl⟩) | ⟨d, -, h⟩
  · exact .more (.more (.words (by decide)))
  · exact .more (.more (.words (by decide)))
  · exact .more (.more (.more (.words (by decide))))
  · unfold dependencyErrors at h
    rcases List.mem_append.mp h with h | h
    · obtain ⟨-, rfl⟩ := mem_errorIf.mp h
      exact .more (.more (.words (by decide)))
    · split at h
      · rw [List.mem_singleton.mp h]
        exact .more (.more (.more (.more (.words (by decide)))))
      · obtain ⟨-, rfl⟩ := mem_errorIf.mp h
        exact .more (.more (.more (.more (.words (by decide)))))

theorem edgeErrors_begin (h : e ∈ edgeErrors graph) : BeginsOtherwise e := by
  simp only [edgeErrors, List.mem_append, mem_errorIf, List.mem_flatMap] at h
  rcases h with (⟨-, rfl⟩ | ⟨edge, -, -, rfl⟩) | ⟨-, rfl⟩
  · exact .words (by decide)
  · exact .more (.more (.more (.more (.words (by decide)))))
  · exact .words (by decide)

theorem budgetErrors_begin {runBudget : Option Budget} (h : e ∈ budgetErrors graph runBudget) :
    BeginsOtherwise e := by
  have haxis {name unit : String} {limit : Budget → Option ℚ≥0} {cap : Nat}
      (h : e ∈ axisErrors graph runBudget name limit cap unit) : BeginsOtherwise e := by
    unfold axisErrors at h
    dsimp only at h
    split at h
    · obtain ⟨-, rfl⟩ := mem_errorIf.mp h
      exact .more (.more (.words (by decide)))
    · obtain ⟨-, rfl⟩ := mem_errorIf.mp h
      exact .more (.more (.more (.more (.more (.more (.words (by decide)))))))
  rcases List.mem_append.mp h with h | h
  · exact haxis h
  · exact haxis h

theorem concurrencyErrors_begin (h : e ∈ concurrencyErrors graph) : BeginsOtherwise e := by
  simp only [concurrencyErrors, List.mem_flatMap, mem_errorIf] at h
  obtain ⟨wave, -, -, rfl⟩ := h
  exact .more (.more (.more (.more (.more (.words (by decide))))))

theorem waveBudgetErrors_begin {maxWaves : Option Nat} (h : e ∈ waveBudgetErrors graph maxWaves) :
    BeginsOtherwise e := by
  unfold waveBudgetErrors at h
  split at h
  · cases h
  · obtain ⟨-, rfl⟩ := mem_errorIf.mp h
    exact .more (.more (.more (.words (by decide))))

/-- The error on cycles comes from Kahn's algorithm alone. -/
theorem cycleError_mem {runBudget : Option Budget} {maxWaves : Option Nat} :
    cycleError ∈ validate graph runBudget maxWaves ↔ visited graph ≠ graph.cells.length := by
  unfold validate structuralErrors
  simp only [List.mem_append, List.mem_flatMap]
  constructor
  · rintro ((((((h | ⟨c, -, h⟩) | h) | h) | h) | h) | h)
    · exact absurd rfl (shapeErrors_begin h).ne
    · exact absurd rfl (cellErrors_begin h).ne
    · exact absurd rfl (edgeErrors_begin h).ne
    · exact (mem_errorIf.mp h).1
    · exact absurd rfl (budgetErrors_begin h).ne
    · exact absurd rfl (concurrencyErrors_begin h).ne
    · exact absurd rfl (waveBudgetErrors_begin h).ne
  · intro h
    exact .inl (.inl (.inl (.inr (mem_errorIf.mpr ⟨h, rfl⟩))))

end

/-! ## Graphs without errors -/

/-- What the scheduler relies on. -/
structure Accepted (g : GraphVersion) : Prop where
  ids : g.ids.Nodup
  dependencies : ∀ c ∈ g.cells, c.dependencies.Nodup ∧
    ∀ d ∈ c.dependencies, ∃ e ∈ g.cells, e.id = d ∧ e.wave < c.wave
  mutating : ∀ wave, (g.cells.filter fun c => c.mode = .mutating ∧ c.wave = wave).length ≤ 1
  edges : ((g.edges.filter (·.kind = "blocks")).map fun e => (e.fromId, e.toId)).Nodup ∧
    ∀ x y, (∃ e ∈ g.edges, e.kind = "blocks" ∧ e.fromId = x ∧ e.toId = y) ↔
      ∃ c ∈ g.cells, c.id = y ∧ x ∈ c.dependencies
  indices : ∀ c ∈ g.cells, c.acceptanceCriterionIndices.Nodup ∧
    ∀ i ∈ c.acceptanceCriterionIndices, 0 ≤ i ∧ i < c.contract.acceptanceCriteria.length
  milestones : g.milestones.Nodup ∧ ∀ m ∈ g.milestones, m ∈ g.ids
  horizon : (∀ c ∈ g.cells, c.wave ≤ g.currentHorizon) ∧ ∃ c ∈ g.cells, c.wave = g.currentHorizon

theorem foldl_maxWave (cells : List GraphCell) (m : Nat) :
    m ≤ cells.foldl (fun m c => max m c.wave) m ∧
      (∀ c ∈ cells, c.wave ≤ cells.foldl (fun m c => max m c.wave) m) ∧
      (cells.foldl (fun m c => max m c.wave) m = m ∨
        ∃ c ∈ cells, c.wave = cells.foldl (fun m c => max m c.wave) m) := by
  induction cells generalizing m with
  | nil => exact ⟨le_rfl, List.forall_mem_nil _, .inl rfl⟩
  | cons c cells ih =>
    obtain ⟨hle, hall, hmem⟩ := ih (max m c.wave)
    rw [List.foldl_cons]
    refine ⟨by omega, List.forall_mem_cons.mpr ⟨by omega, hall⟩, ?_⟩
    rcases hmem with he | ⟨d, hd, he⟩
    · by_cases hlt : m < c.wave
      · exact .inr ⟨c, List.mem_cons_self, by omega⟩
      · exact .inl (by omega)
    · exact .inr ⟨d, List.mem_cons_of_mem _ hd, he⟩

/-- The maximum is the wave of a cell. -/
theorem maxWave_spec {graph : GraphVersion} (hne : graph.cells ≠ []) :
    (∀ c ∈ graph.cells, c.wave ≤ maxWave graph) ∧ ∃ c ∈ graph.cells, c.wave = maxWave graph := by
  obtain ⟨-, hall, hmem⟩ := foldl_maxWave graph.cells 0
  refine ⟨hall, ?_⟩
  rcases hmem with he | hmem
  · obtain ⟨c, hc⟩ := List.exists_mem_of_ne_nil _ hne
    have hle := hall c hc
    refine ⟨c, hc, ?_⟩
    unfold maxWave
    omega
  · exact hmem

theorem concurrencyErrors_nil {graph : GraphVersion} (h : concurrencyErrors graph = [])
    (wave : Nat) :
    (graph.cells.filter fun c => c.mode = .mutating ∧ c.wave = wave).length ≤ 1 := by
  have hfilter : (graph.cells.filter fun c => c.mode = .mutating ∧ c.wave = wave) =
      (graph.cells.filter (·.mode = .mutating)).filter (·.wave = wave) := by
    rw [List.filter_filter]
    exact List.filter_congr fun c _ => by simp [Bool.and_comm]
  simp only [concurrencyErrors, List.flatMap_eq_nil_iff, errorIf_nil, List.length_map,
    List.mem_reverse, List.mem_dedup, List.mem_map] at h
  rw [hfilter]
  by_contra hlt
  obtain ⟨c, hc⟩ := List.exists_mem_of_length_pos (l := (graph.cells.filter
    (·.mode = .mutating)).filter (·.wave = wave)) (by omega)
  obtain ⟨hmem, hwave⟩ := List.mem_filter.mp hc
  exact h wave ⟨c, hmem, of_decide_eq_true hwave⟩ (by omega)

theorem invalidIndices_nil {cell : GraphCell} (h : invalidIndices cell = []) :
    ∀ i ∈ cell.acceptanceCriterionIndices,
      0 ≤ i ∧ i < cell.contract.acceptanceCriteria.length := by
  intro i hi
  by_contra hbad
  have hmem : i ∈ invalidIndices cell := by
    unfold invalidIndices
    rw [List.mem_insertionSort, List.mem_filter, List.mem_dedup]
    exact ⟨hi, decide_eq_true hbad⟩
  rw [h] at hmem
  cases hmem

theorem accepted_of_validate {graph : GraphVersion} {runBudget : Option Budget}
    {maxWaves : Option Nat} (h : validate graph runBudget maxWaves = []) : Accepted graph := by
  have hnodup := validate_nil_nodup h
  have hlayered := validate_nil_layered h
  simp only [validate, structuralErrors, shapeErrors, cellErrors, edgeErrors,
    List.append_eq_nil_iff, errorIf_nil, not_not, List.flatMap_eq_nil_iff] at h
  obtain ⟨⟨⟨⟨⟨⟨⟨⟨⟨hne, -⟩, hmilestones⟩, hknown⟩, hhorizon⟩, hcells⟩, ⟨hedges, -⟩, hto, hfrom⟩, -⟩, -⟩,
    hconcurrency⟩ := h.1
  have hedge (x y : String) : (∃ e ∈ graph.edges, e.kind = "blocks" ∧ e.fromId = x ∧ e.toId = y) ↔
      (x, y) ∈ (graph.edges.filter (·.kind = "blocks")).map fun e => (e.fromId, e.toId) := by
    simp [and_assoc]
  have hhorizon : graph.currentHorizon = maxWave graph := by
    by_contra hdiff
    exact hhorizon ⟨hne, hdiff⟩
  refine ⟨hnodup, fun c hc => ⟨(hcells c hc).1.1.1, hlayered c hc⟩, concurrencyErrors_nil hconcurrency,
    ⟨?_, fun x y => ?_⟩, fun c hc => ⟨(hcells c hc).1.1.2, invalidIndices_nil (hcells c hc).1.2⟩,
    ⟨hmilestones, fun m hm => ?_⟩, ?_⟩
  · refine (hedges.filter _).map_on fun e he e' he' heq => ?_
    have hkind := of_decide_eq_true (List.mem_filter.mp he).2
    have hkind' := of_decide_eq_true (List.mem_filter.mp he').2
    obtain ⟨hf, ht⟩ := Prod.mk.inj heq
    cases e
    cases e'
    simp_all
  · rw [hedge]
    constructor
    · intro hp
      exact (mem_dependencyPairs.mp (hto _ hp)).2
    · rintro ⟨c, hc, rfl, hx⟩
      obtain ⟨d, hd, rfl, -⟩ := hlayered c hc x hx
      exact hfrom _ (mem_dependencyPairs.mpr ⟨List.mem_map_of_mem hd, c, hc, rfl, hx⟩)
  · by_contra hunknown
    have hmem : m ∈ sortStrings (graph.milestones.dedup.filter (· ∉ ids graph)) := by
      unfold sortStrings
      rw [List.mem_insertionSort, List.mem_filter, List.mem_dedup]
      exact ⟨hm, decide_eq_true hunknown⟩
    rw [List.map_eq_nil_iff.mp hknown] at hmem
    cases hmem
  · rw [hhorizon]
    exact maxWave_spec hne

/-- **Validation.** With distinct ids, a cycle is reported if and only if there
is one; and a graph without errors is one the scheduler can run. -/
theorem validation_sound (graph : GraphVersion) (runBudget : Option Budget)
    (maxWaves : Option Nat) :
    (graph.ids.Nodup → (cycleError ∈ validate graph runBudget maxWaves ↔ graph.Cyclic)) ∧
      (validate graph runBudget maxWaves = [] → Accepted graph) := by
  refine ⟨fun hn => ?_, accepted_of_validate⟩
  rw [cycleError_mem, Ne, visited_iff hn, not_not]

/-- One cell that waits for itself, and the default plan. -/
theorem validation_sound_loop :
    cycleError ∈ validate { cells := [{ id := "a", dependencies := ["a"] }] } none none ∧
      Accepted { cells := [{ id := "a" }], milestones := ["a"] } := by
  refine ⟨((validation_sound { cells := [{ id := "a", dependencies := ["a"] }] } none none).1
    (by decide)).mpr ⟨"a", .single ⟨by decide, _, List.mem_cons_self, rfl, by decide⟩⟩, ?_⟩
  exact (validation_sound { cells := [{ id := "a" }], milestones := ["a"] } none none).2
    (by decide +kernel)

end GraphPlanner

end Northstack
