import Northstack.Application.Ending
import Northstack.Application.Resumption

/-!
# What counts as completed

`_execute_cells` classifies what a gathered cell gave back: an `Exception` is a
failure, a `RunOutcome` ends the waves, and everything else is a completion. A
`CancelledError` raised inside one cell is not an `Exception`
(`Obs.takenForDone`), so that cell is counted without having completed.

**Results.**
* `completions_recorded`: without it, an id is counted only if the run was
  launched with it or its cell recorded `CellCompleted` and returned `True`; and
  a VERIFIED run has the `CellCompleted` of every cell of its graph in its log.
* `cancelled_cell_completes`: a VERIFIED run with it.
-/
namespace Northstack

open Coop

/-- A gathered cell ended in a `CancelledError`. -/
def Obs.takenForDone : Obs → Bool
  | .collected _ (.error (.cancelled _)) => true
  | _ => false

/-- The cell's `CellCompleted` is in the log. -/
def HasCompleted (log : List EventPayload) (id : String) : Prop :=
  ∃ ref usage, .cellCompleted id ref usage ∈ log

/-- The run collected a `True` from the cell, behind its `CellCompleted`. -/
def Completes (s : St) (id : String) : Prop :=
  .collected id (.ok .completed) ∈ s.history ∧ HasCompleted s.log (redactText id)

theorem HasCompleted.mono {log log' : List EventPayload} {id : String} (h : HasCompleted log id)
    (hl : log <+: log') : HasCompleted log' id := by
  obtain ⟨ref, usage, hp⟩ := h
  exact ⟨ref, usage, hl.subset hp⟩

theorem Completes.mono {s t : St} {id : String} (h : Completes s id) (hg : Grows s t) :
    Completes t id :=
  ⟨hg.history.subset h.1, h.2.mono hg.log⟩

section

variable {r : Setting} {ph : Phase} {s : St}

/-- A counted id was counted from the start, or its cell has completed. -/
theorem Reach.counted_completes (h : Reach r ph s) (hd : Avoids Obs.takenForDone s) :
    ∀ id ∈ s.completedIds, id ∈ r.job.initiallyCompleted ∨ Completes s id := by
  refine Reach.invariant (M := fun _ s => Avoids Obs.takenForDone s →
    ∀ id ∈ s.completedIds, id ∈ r.job.initiallyCompleted ∨ Completes s id)
    ?start ?move ?cell ?collect h hd
  case start => exact fun _ id hid => .inl hid
  case move =>
    intro ph s ph' t _ ih hm hd id hid
    rw [hm.completedIds] at hid
    exact (ih (hd.of_grows hm.grows) id hid).imp_right (·.mono hm.grows)
  case cell =>
    intro s t c _ ih _ hst hd id hid
    have hg := hst.frame.toGrows
    rw [hst.frame.completedIds] at hid
    exact (ih (hd.of_grows hg) id hid).imp_right (·.mono hg)
  case collect =>
    intro s result c _ ih _ hr hd id hid
    have hg := s.collected_grows c.id result
    have hnew : .collected c.id result ∈ (s.collected c.id result).history := by
      rw [St.collected_history]
      exact List.mem_append_right _ List.mem_cons_self
    rcases St.collected_cases c.id result s with hi | ⟨hi, rfl | ⟨note, rfl⟩⟩
    · exact (ih (hd.of_grows hg) id (hi ▸ hid)).imp_right (·.mono hg)
    · rcases List.mem_insert_iff.mp (hi ▸ hid) with rfl | hid
      · obtain ⟨ref, usage, hrow⟩ := (hr _ rfl).1
        exact .inr ⟨hnew, ref.stored, usage, hg.log.subset hrow⟩
      · exact (ih (hd.of_grows hg) id hid).imp_right (·.mono hg)
    · cases hd _ hnew

/-! ## Released runs -/

theorem Setting.Seeded.mono {t : St} (h : r.Seeded s) (hg : Grows s t) : r.Seeded t :=
  fun p hp hc => hg.log.subset (h p hp hc)

theorem Setting.Releasable.mono {t : St} (h : r.Releasable s) (hg : Grows s t) :
    r.Releasable t := by
  intro i c hi hc
  obtain ⟨hn, content, verdicts, hj, hm, hcal⟩ := h i c hi hc
  exact ⟨hn, content, verdicts, hj, hg.history.subset hm, hcal⟩

/-- What the waves have established in a phase. -/
def Phase.Waves (r : Setting) (s : St) : Phase → Prop
  | .executing | .cut _ => r.Seeded s
  | .finishing | .verifying => r.Seeded s ∧ r.Counted s
  | _ => True

/-- What stands behind a VERIFIED outcome. -/
structure Setting.Released (r : Setting) (s : St) : Prop where
  seeded : r.Seeded s
  counted : r.Counted s
  releasable : r.Releasable s

theorem Setting.Counted.of_eq {t : St} (h : r.Counted s) (he : t.completedIds = s.completedIds) :
    r.Counted t := by
  unfold Setting.Counted
  rw [he]
  exact h

theorem Setting.Released.mono {t : St} (h : r.Released s) (hg : Grows s t)
    (he : t.completedIds = s.completedIds) : r.Released t :=
  ⟨h.seeded.mono hg, h.counted.of_eq he, h.releasable.mono hg⟩

/-- The run's own moves keep what the waves established. -/
theorem Phase.Waves.move {ph' : Phase} {t : St} (h : ph.Waves r s) (hm : r.Move ph s ph' t) :
    ph'.Waves r t := by
  have hg := hm.grows
  cases hm.next with
  | stay =>
    cases ph with
    | executing | cut => exact Setting.Seeded.mono h hg
    | finishing | verifying => exact ⟨h.1.mono hg, h.2.of_eq hm.completedIds⟩
    | _ => trivial
  | execute hs _ _ => exact hs.mono hg
  | cut o => exact Setting.Seeded.mono h hg
  | finish hc => exact ⟨Setting.Seeded.mono h hg, hc.of_eq hm.completedIds⟩
  | verify => exact ⟨h.1.mono hg, h.2.of_eq hm.completedIds⟩
  | close hc =>
    cases ph' with
    | executing | cut | finishing | verifying => exact hc.elim
    | _ => trivial

/-- A VERIFIED outcome is recorded behind the waves and the panel's reviews. -/
theorem Reach.released (h : Reach r ph s) :
    ph.Waves r s ∧ (.verified ∈ outcomes s.log → r.Released s) := by
  refine Reach.invariant (M := fun ph s => ph.Waves r s ∧
    (.verified ∈ outcomes s.log → r.Released s)) ?start ?move ?cell ?collect h
  case start => exact ⟨trivial, nofun⟩
  case move =>
    intro ph s ph' t h ih hm
    refine ⟨ih.1.move hm, fun hv => ?_⟩
    have hold : .verified ∈ outcomes s.log → r.Released t :=
      fun hv => (ih.2 hv).mono hm.grows hm.completedIds
    rcases hm.log with hl | ⟨p, hl, hp⟩
    · exact hold (hl ▸ hv)
    · rw [hl, outcomes_append, outcome?_stored, List.mem_append] at hv
      rcases hv with hv | hv
      · exact hold hv
      · obtain ⟨rfl, hrel⟩ := hp.verified (Option.mem_toList.mp hv)
        exact Setting.Released.mono ⟨ih.1.1, ih.1.2, hrel⟩ hm.grows hm.completedIds
  case cell =>
    intro s t c _ ih _ hst
    refine ⟨Setting.Seeded.mono ih.1 hst.frame.toGrows, fun hv => ?_⟩
    rw [hst.statuses_eq.2] at hv
    exact (ih.2 hv).mono hst.frame.toGrows hst.frame.completedIds
  case collect =>
    intro s result c h ih _ _
    have hg := s.collected_grows c.id result
    refine ⟨Setting.Seeded.mono ih.1 hg, fun hv => ?_⟩
    rw [(St.collected_log _ _ _).1, h.ledger.1.outcomes] at hv
    cases hv

end

/-! ## Every run -/

/-- A cell the source's graph marks completed has its `CellCompleted` there. -/
def MarksBacked (source : List EventPayload) : Prop :=
  ∀ state graph, replayRun source = .ok state → state.graph = some graph →
    ∀ c ∈ graph.cells, c.status = .completed → HasCompleted source c.id

/-- The ids a launch counts from the start. -/
def Company.initiallyCompleted (co : Company) (launch : Launch) : List String :=
  match co.job? launch with
  | some job => job.initiallyCompleted
  | none => []

section

variable {co : Company} {launch : Launch} {shared : Shared} {r : Setting} {s : St} {id : String}

theorem setting_job (h : co.setting? launch shared = some r) :
    co.job? launch = some r.job ∧ r.source = launch.source ∧ r.co = co ∧
      r.shared = launch.inherit shared := by
  obtain ⟨job, hjob, rfl⟩ := Option.map_eq_some_iff.mp h
  exact ⟨hjob, rfl, rfl, rfl⟩

/-- The completion of an id that is counted from the start is re-emitted. -/
theorem seeded_completed (h : co.setting? launch shared = some r) (hb : MarksBacked launch.source)
    (hs : r.Seeded s) (hid : id ∈ r.job.initiallyCompleted) :
    HasCompleted s.log (redactText id) := by
  cases launch with
  | fresh request =>
    cases h
    cases hid
  | resume source =>
    obtain ⟨state, contract, graph, hrun, -, hgraph, rfl⟩ := setting_resume h
    have hsource : HasCompleted source id := by
      rcases mem_resumedIds hgraph hid with ⟨c, hc, hmark, rfl⟩ | hsource
      · exact hb state graph hrun hgraph c hc hmark
      · exact hsource
    obtain ⟨ref, usage, hrow⟩ := hsource
    exact ⟨ref.stored, usage, hs _ hrow rfl⟩

/-- In a released run every accepted cell has completed. -/
theorem Setting.Released.completed {ph : Phase} (h : Reach r ph s) (hrel : r.Released s)
    (hr : co.setting? launch shared = some r) (hl : RunLog launch.source)
    (hb : MarksBacked launch.source) (hd : Avoids Obs.takenForDone s) :
    ∀ v cells edges milestones, .graphAccepted v cells edges milestones ∈ s.log →
      ∀ c ∈ cells, HasCompleted s.log c.id := by
  intro v cells edges milestones hrow c hc
  have hids : cells.map (·.id) = r.ids.map redactText :=
    h.rows_fit (launched hr hl).sound _ hrow
  obtain ⟨id, hid, hcid⟩ := List.mem_map.mp (hids ▸ List.mem_map_of_mem hc)
  rw [← hcid]
  have hmem := (h.counted_perm (launched hr hl) hrel.counted).mem_iff.mpr hid
  rcases h.counted_completes hd id hmem with hinit | hdone
  · exact seeded_completed hr hb hrel.seeded hinit
  · exact hdone.2

end

/-- **Completion.** In every state of every run, fresh or resumed, in which no
gathered cell ended in a `CancelledError`, a counted id was counted by the
launch or its cell recorded `CellCompleted` and returned `True`. If the run is
VERIFIED, and its source backed the cells it marked, every cell of its graph
has its `CellCompleted` in the run's own log. -/
theorem completions_recorded (co : Company) (launch : Launch) (shared : Shared)
    (inputs : List (Input Exc)) (hsource : RunLog launch.source)
    (hdone : Avoids Obs.takenForDone (co.run launch shared inputs).state) :
    (∀ id ∈ (co.run launch shared inputs).state.completedIds,
      id ∈ co.initiallyCompleted launch ∨ Completes (co.run launch shared inputs).state id) ∧
    (MarksBacked launch.source →
      .verified ∈ outcomes (co.run launch shared inputs).state.log →
      ∀ v cells edges milestones,
        .graphAccepted v cells edges milestones ∈ (co.run launch shared inputs).state.log →
        ∀ c ∈ cells, HasCompleted (co.run launch shared inputs).state.log c.id) := by
  cases hr : co.setting? launch shared with
  | none =>
    rw [Company.run_rejected hr]
    exact ⟨nofun, fun _ => nofun⟩
  | some r =>
    obtain ⟨ph, h⟩ := (Company.run_reach hr inputs).1
    refine ⟨fun id hid => ?_, fun hb hv => ?_⟩
    · unfold Company.initiallyCompleted
      rw [(setting_job hr).1]
      exact h.counted_completes hdone id hid
    · exact (h.released.2 hv).completed h hr hsource hb hdone

/-- A company with one profile whose plan is the one cell "c", with one tool. -/
def soleCompany (criteria : List AcceptanceCriterion) (turns : List Turn) : Company where
  config := { profiles := [{ name := "m" }] }
  compiler := { analyses := fun _ => { criteria := criteria } }
  planner := fun contract => .inr { id := "c", contract := contract }
  toolRegistry := [{ name := "t" }]
  script := fun _ => [{ profile := .ok { name := "m" }, turns := turns }]

/-- The tool "t" is forbidden. -/
def forbidsTool : AcceptanceCriterion :=
  { description := "", spec := .policy "forbidden_tools" ["t"] }

/-- A turn in which the model answers. -/
def answers : Turn := { reply := .response { text := "done" } }

/-- The awaits of a run up to the cell, the cell's own, and those behind it. -/
def throughCell (cell : List (Wake Exc)) : List (Input Exc) :=
  List.replicate 16 (.wake .resume) ++ .flag false :: cell.map (.child 0) ++
    List.replicate 8 (.wake .resume)

theorem completions_recorded_answered :
    let s := ((soleCompany [forbidsTool] [answers]).run (.fresh plainRequest) {}
      (throughCell (List.replicate 8 .resume))).state
    .verified ∈ outcomes s.log ∧
      (∀ id ∈ s.completedIds,
        id ∈ (soleCompany [forbidsTool] [answers]).initiallyCompleted (.fresh plainRequest) ∨
          Completes s id) ∧
      (MarksBacked [] → .verified ∈ outcomes s.log →
        ∀ v cells edges milestones, .graphAccepted v cells edges milestones ∈ s.log →
          ∀ c ∈ cells, HasCompleted s.log c.id) :=
  ⟨by decide +kernel, completions_recorded (soleCompany [forbidsTool] [answers])
    (.fresh plainRequest) {} (throughCell (List.replicate 8 .resume)) .none (by decide +kernel)⟩

/-- Cancelled while its route is being recorded, the only cell is counted, and
the run is VERIFIED, without a `CellCompleted`. -/
theorem cancelled_cell_completes :
    ¬ ∀ (co : Company) (launch : Launch) (shared : Shared) (inputs : List (Input Exc)),
      RunLog launch.source →
      (∀ id ∈ (co.run launch shared inputs).state.completedIds,
        id ∈ co.initiallyCompleted launch ∨ Completes (co.run launch shared inputs).state id) ∧
      (.verified ∈ outcomes (co.run launch shared inputs).state.log →
        ∀ v cells edges milestones,
          .graphAccepted v cells edges milestones ∈ (co.run launch shared inputs).state.log →
          ∀ c ∈ cells, HasCompleted (co.run launch shared inputs).state.log c.id) := by
  intro h
  let inputs := throughCell [.resume, .raise (.cancelled none)]
  have hrun := h (soleCompany [forbidsTool] []) (.fresh plainRequest) {} inputs .none
  have hnone : ((soleCompany [forbidsTool] []).run (.fresh plainRequest) {} inputs).state.log.any
      Company.isCompletion = false := by decide +kernel
  rcases hrun.1 "c" (by decide +kernel) with hinit | ⟨-, ref, usage, hrow⟩
  · cases hinit
  · rw [List.any_eq_false] at hnone
    exact hnone _ hrow rfl

end Northstack
