import Northstack.Application.Validation

/-!
# Graphs that validation accepts

`validation_sound` says what a graph without errors is. Conversely such a graph has none, if its
edges are all of the kind that blocks, none is there twice, and its budgets are within the caps.

**Result.** `validate_of_accepted`.
-/
namespace Northstack

namespace GraphPlanner

variable {graph : GraphVersion}

theorem acyclic_of_layered (h : graph.Layered) (hn : graph.ids.Nodup) : ¬ graph.Cyclic := by
  have hwave : ∀ x y, graph.Blocks x y → ∀ c ∈ graph.cells, c.id = x → ∀ e ∈ graph.cells,
      e.id = y → c.wave < e.wave := by
    intro x y hblocks c hc hx e he hy
    obtain ⟨-, f, hf, hfy, hdep⟩ := hblocks
    obtain ⟨g, hg, hgx, hlt⟩ := h f hf x hdep
    rw [List.inj_on_of_nodup_map hn hc hg (hx.trans hgx.symm),
      List.inj_on_of_nodup_map hn he hf (hy.trans hfy.symm)]
    exact hlt
  have hchain : ∀ x y, Relation.TransGen graph.Blocks x y → ∀ c ∈ graph.cells, c.id = x →
      ∀ e ∈ graph.cells, e.id = y → c.wave < e.wave := by
    intro x y hxy
    induction hxy with
    | single hr => exact hwave _ _ hr
    | tail _ hr ih =>
      intro c hc hx e he hy
      obtain ⟨b, hb, hbx⟩ := List.mem_map.mp hr.1
      exact (ih c hc hx b hb hbx).trans (hwave _ _ hr b hb hbx e he hy)
  intro hcycle
  obtain ⟨x, hx⟩ := hcycle
  obtain ⟨y, -, hr⟩ := Relation.TransGen.tail'_iff.mp hx
  obtain ⟨-, c, hc, hid, -⟩ := hr
  exact lt_irrefl _ (hchain x x hx c hc hid c hc hid)

theorem waveOf_eq (hn : graph.ids.Nodup) {c : GraphCell} (hc : c ∈ graph.cells) :
    waveOf graph c.id = some c.wave := by
  unfold waveOf
  cases hfind : graph.cells.reverse.find? (·.id = c.id) with
  | none =>
    have hnone := List.find?_eq_none.mp hfind c (List.mem_reverse.mpr hc)
    simp at hnone
  | some e =>
    have hid := List.find?_some hfind
    rw [decide_eq_true_eq] at hid
    have he := List.mem_reverse.mp (List.mem_of_find?_eq_some hfind)
    rw [List.inj_on_of_nodup_map hn he hc hid]
    rfl

theorem dependencyErrors_nil (hn : graph.ids.Nodup) {c e : GraphCell} (he : e ∈ graph.cells)
    (hc : c ∈ graph.cells) (hlt : e.wave < c.wave) : dependencyErrors graph c e.id = [] := by
  have hne : e.id ≠ c.id := by
    intro hid
    rw [List.inj_on_of_nodup_map hn he hc hid] at hlt
    exact lt_irrefl _ hlt
  unfold dependencyErrors
  rw [waveOf_eq hn he, List.append_eq_nil_iff, errorIf_nil]
  exact ⟨hne, errorIf_nil.mpr (by omega)⟩

theorem cellErrors_nil (h : Accepted graph) {c : GraphCell} (hc : c ∈ graph.cells) :
    cellErrors graph c = [] := by
  obtain ⟨hdeps, hlayered⟩ := h.dependencies c hc
  obtain ⟨hindices, hrange⟩ := h.indices c hc
  have hinvalid : invalidIndices c = [] := by
    unfold invalidIndices
    have hnone : (c.acceptanceCriterionIndices.dedup.filter fun i : Int =>
        ¬ (0 ≤ i ∧ i < (c.contract.acceptanceCriteria.length : Int))) = [] := by
      rw [List.filter_eq_nil_iff]
      intro i hi
      simpa using hrange i (List.mem_dedup.mp hi)
    rw [hnone]
    rfl
  unfold cellErrors
  simp only [List.append_eq_nil_iff, errorIf_nil, not_not, List.flatMap_eq_nil_iff]
  refine ⟨⟨⟨hdeps, hindices⟩, hinvalid⟩, ?_⟩
  intro d hd
  obtain ⟨e, he, rfl, hlt⟩ := hlayered d hd
  exact dependencyErrors_nil h.ids he hc hlt

theorem shapeErrors_nil (h : Accepted graph) : shapeErrors graph = [] := by
  obtain ⟨hle, c, hc, hwave⟩ := h.horizon
  have hne : graph.cells ≠ [] := List.ne_nil_of_mem hc
  obtain ⟨hmax, e, he, hemax⟩ := maxWave_spec hne
  have hhorizon : graph.currentHorizon = maxWave graph := by
    have hle1 := hle e he
    have hle2 := hmax c hc
    omega
  have hknown : (graph.milestones.dedup.filter (· ∉ ids graph)) = [] := by
    rw [List.filter_eq_nil_iff]
    intro m hm
    have hmem : m ∈ ids graph := h.milestones.2 m (List.mem_dedup.mp hm)
    simp [hmem]
  unfold shapeErrors
  simp only [List.append_eq_nil_iff, errorIf_nil, not_not, List.map_eq_nil_iff]
  refine ⟨⟨⟨⟨hne, h.ids⟩, h.milestones.1⟩, ?_⟩, fun hbad => hbad.2 hhorizon⟩
  rw [hknown]
  rfl

theorem edgeErrors_nil (h : Accepted graph) (hedges : graph.edges.Nodup)
    (hblocks : ∀ e ∈ graph.edges, e.kind = "blocks") : edgeErrors graph = [] := by
  have hpair (x y : String) :
      (x, y) ∈ (graph.edges.filter (·.kind = "blocks")).map (fun e => (e.fromId, e.toId)) ↔
        (x, y) ∈ dependencyPairs graph := by
    have hdep : (x, y) ∈ (graph.edges.filter (·.kind = "blocks")).map
        (fun e => (e.fromId, e.toId)) ↔ ∃ c ∈ graph.cells, c.id = y ∧ x ∈ c.dependencies := by
      rw [← h.edges.2 x y]
      simp [and_assoc]
    rw [hdep, mem_dependencyPairs]
    unfold GraphVersion.Blocks
    refine (and_iff_right_of_imp ?_).symm
    intro hex
    obtain ⟨c, hc, -, hx⟩ := hex
    obtain ⟨e, he, rfl, -⟩ := (h.dependencies c hc).2 x hx
    exact List.mem_map_of_mem he
  unfold edgeErrors
  simp only [List.append_eq_nil_iff, errorIf_nil, not_not, List.flatMap_eq_nil_iff]
  refine ⟨⟨hedges, ?_⟩, ?_, ?_⟩
  · intro e he
    obtain ⟨c, hc, hto, hfrom⟩ := (h.edges.2 e.fromId e.toId).mp ⟨e, he, hblocks e he, rfl, rfl⟩
    obtain ⟨d, hd, hid, -⟩ := (h.dependencies c hc).2 _ hfrom
    have hknown : e.fromId ∈ ids graph := hid ▸ List.mem_map_of_mem hd
    have hknown' : e.toId ∈ ids graph := hto ▸ List.mem_map_of_mem hc
    simp [hknown, hknown']
  · intro p hp
    exact (hpair p.1 p.2).mp hp
  · intro p hp
    exact (hpair p.1 p.2).mpr hp

theorem concurrencyErrors_of (h : ∀ wave, (graph.cells.filter fun c =>
    c.mode = .mutating ∧ c.wave = wave).length ≤ 1) : concurrencyErrors graph = [] := by
  unfold concurrencyErrors
  simp only [List.flatMap_eq_nil_iff, errorIf_nil, List.length_map]
  intro wave _
  have hfilter : (graph.cells.filter fun c => c.mode = .mutating ∧ c.wave = wave) =
      (graph.cells.filter (·.mode = .mutating)).filter (·.wave = wave) := by
    rw [List.filter_filter]
    exact List.filter_congr fun c _ => by simp [Bool.and_comm]
  rw [← hfilter]
  exact not_lt.mpr (h wave)

/-- **Accepted graphs** have no errors, if their edges and budgets have none. -/
theorem validate_of_accepted (h : Accepted graph) (hedges : graph.edges.Nodup)
    (hblocks : ∀ e ∈ graph.edges, e.kind = "blocks") {runBudget : Option Budget}
    (hbudget : budgetErrors graph runBudget = []) : validate graph runBudget none = [] := by
  have hvisited : visited graph = graph.cells.length :=
    (visited_iff h.ids).mpr (acyclic_of_layered (fun c hc => (h.dependencies c hc).2) h.ids)
  unfold validate structuralErrors
  rw [shapeErrors_nil h, edgeErrors_nil h hedges hblocks, hbudget,
    concurrencyErrors_of h.mutating]
  simp only [List.nil_append, List.append_nil, List.append_eq_nil_iff, errorIf_nil, not_not,
    List.flatMap_eq_nil_iff]
  exact ⟨⟨fun c hc => cellErrors_nil h hc, hvisited⟩, rfl⟩

end GraphPlanner
end Northstack
