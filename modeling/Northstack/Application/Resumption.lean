import Northstack.Application.Moves

/-!
# Chains of resumes

A run is resumed on the log of an earlier run, which may have been a resume
itself. `RunLog` is every log such a chain leaves, over any companies,
workspaces and orders of events.

**Results.**
* `launched`: what a run is launched on, if its source is the log of a run: the
  source's rows speak of its graph, and the ids counted as completed from the
  start are distinct ids of that graph.
* `Reach.completed_ids`, `Reach.distinct`: a run that has counted every cell
  has counted each one once.
-/
namespace Northstack

open Coop

/-- The logs that runs leave. -/
inductive RunLog : List EventPayload → Prop where
  | none : RunLog []
  | run {launch : Launch} (h : RunLog launch.source) (co : Company) (shared : Shared)
    (inputs : List (Input Exc)) : RunLog (co.run launch shared inputs).state.log

/-- What a launch on the log of a run provides. -/
structure Setting.Launched (r : Setting) : Prop where
  sound : r.Sound
  nodup : r.job.initiallyCompleted.Nodup
  subset : r.job.initiallyCompleted ⊆ r.ids

/-! ## Launches -/

section

variable {co : Company} {launch : Launch} {shared : Shared} {r : Setting}

theorem setting_resume {source : List EventPayload}
    (h : co.setting? (.resume source) shared = some r) :
    ∃ state contract graph, replayRun source = .ok state ∧
      state.currentContract = some contract ∧ state.graph = some graph ∧
      r = { co := co, job := Company.resumedJob state contract graph source, shared := shared,
            launch := .resume source } := by
  obtain ⟨job, hjob, rfl⟩ := Option.map_eq_some_iff.mp h
  unfold Company.job? at hjob
  dsimp only at hjob
  split at hjob
  · rename_i state job' hres
    cases hjob
    obtain ⟨contract, graph, h1, h2, h3, rfl⟩ := Company.resumeJob_ok hres
    exact ⟨state, contract, graph, h1, h2, h3, rfl⟩
  · cases hjob

theorem mem_sourceCompleted {source : List EventPayload} {id : String}
    (h : id ∈ (Company.sourceCompleted source).map (·.1)) :
    ∃ ref usage, .cellCompleted id ref usage ∈ source := by
  obtain ⟨x, hx, rfl⟩ := List.mem_map.mp h
  obtain ⟨p, hp, hc⟩ := List.mem_filterMap.mp hx
  cases p with
  | cellCompleted id ref usage =>
    cases hc
    exact ⟨ref, usage, hp⟩
  | _ => cases hc

/-- An id a resume starts with is marked in the graph, or its completion is in
the source. -/
theorem mem_resumedIds {source : List EventPayload} {state : RunState} {graph : GraphVersion}
    {id : String} (hg : state.graph = some graph) (h : id ∈ Company.resumedIds state source) :
    (∃ c ∈ graph.cells, c.status = .completed ∧ c.id = id) ∨
      ∃ ref usage, .cellCompleted id ref usage ∈ source := by
  unfold Company.resumedIds at h
  rw [hg, List.mem_dedup, List.mem_append] at h
  rcases h with h | h
  · obtain ⟨c, hc, rfl⟩ := List.mem_map.mp h
    obtain ⟨hm, hs⟩ := List.mem_filter.mp hc
    exact .inl ⟨c, hm, of_decide_eq_true hs, rfl⟩
  · exact .inr (mem_sourceCompleted h)

/-- The graph that a source projects to has the cells its rows speak of. -/
theorem setting_ids {source : List EventPayload} {ids : List String}
    (h : co.setting? (.resume source) shared = some r) (hf : ∀ p ∈ source, p.Fits ids) :
    r.ids = ids := by
  obtain ⟨state, contract, graph, hrun, -, hgraph, rfl⟩ := setting_resume h
  obtain ⟨v, cells, edges, milestones, hrow, hids⟩ := replay_graph hrun hgraph
  exact hids.trans (hf _ hrow)

/-- A source all of whose rows fit one graph speaks of the graph it projects to. -/
theorem launched_of_fits {ids : List String} (h : co.setting? launch shared = some r)
    (hf : ∀ p ∈ launch.source, p.Fits ids) : r.Launched := by
  cases launch with
  | fresh request =>
    cases h
    exact ⟨List.forall_mem_nil _, List.nodup_nil, List.nil_subset _⟩
  | resume source =>
    have hids := setting_ids h hf
    obtain ⟨state, contract, graph, hrun, -, hgraph, rfl⟩ := setting_resume h
    refine ⟨fun p hp => hids ▸ hf p hp, List.nodup_dedup _, fun id hid => ?_⟩
    rcases mem_resumedIds hgraph hid with ⟨c, hc, -, rfl⟩ | ⟨ref, usage, hrow⟩
    · exact List.mem_map_of_mem hc
    · exact hids ▸ hf _ hrow

theorem RunLog.fits {log : List EventPayload} (h : RunLog log) :
    ∃ ids, ∀ p ∈ log, p.Fits ids := by
  induction h with
  | none => exact ⟨[], List.forall_mem_nil _⟩
  | @run launch _ co shared inputs ih =>
    obtain ⟨ids, hf⟩ := ih
    cases hr : co.setting? launch shared with
    | none =>
      rw [Company.run_rejected hr]
      exact ⟨[], List.forall_mem_nil _⟩
    | some r =>
      obtain ⟨ph, h⟩ := (Company.run_reach hr inputs).1
      exact ⟨_, h.rows_fit (launched_of_fits hr hf).sound⟩

theorem launched (h : co.setting? launch shared = some r) (hl : RunLog launch.source) :
    r.Launched := by
  obtain ⟨ids, hf⟩ := hl.fits
  exact launched_of_fits h hf

end

/-! ## Counting cells -/

section

variable {r : Setting} {ph : Phase} {s : St}

theorem Reach.completed_ids (h : Reach r ph s) (hr : r.Launched) :
    s.completedIds.Nodup ∧ s.completedIds ⊆ r.ids := by
  refine Reach.invariant (M := fun _ s => s.completedIds.Nodup ∧ s.completedIds ⊆ r.ids)
    ?start ?move ?cell ?collect h
  case start => exact ⟨hr.nodup, hr.subset⟩
  case move =>
    intro ph s ph' t _ ih hm
    rw [hm.completedIds]
    exact ih
  case cell =>
    intro s t c _ ih _ hst
    rw [hst.frame.completedIds]
    exact ih
  case collect =>
    intro s result c _ ih hc _
    rcases St.collected_cases c.id result s with hi | ⟨hi, -⟩
    · rw [hi]
      exact ih
    · rw [hi]
      refine ⟨ih.1.insert, fun id hid => ?_⟩
      rcases List.mem_insert_iff.mp hid with rfl | hid
      · exact List.mem_map_of_mem hc
      · exact ih.2 hid

/-- When as many ids are counted as there are cells, they are the cells' ids. -/
theorem Reach.counted_perm (h : Reach r ph s) (hr : r.Launched) (hc : r.Counted s) :
    s.completedIds.Perm r.ids := by
  obtain ⟨hnodup, hsub⟩ := h.completed_ids hr
  refine (List.subperm_of_subset hnodup hsub).perm_of_length_le ?_
  show (r.job.graph.cells.map (·.id)).length ≤ _
  rw [List.length_map, ← hc]

theorem Reach.distinct (h : Reach r ph s) (hr : r.Launched) (hc : r.Counted s) : r.Distinct :=
  (h.counted_perm hr hc).nodup (h.completed_ids hr).1

end

end Northstack
