import Northstack.Application.Chains
import Northstack.Application.Hardening

/-!
# The ids that are read back

Ids are texts of a payload like any other, so the ledger redacts those that look
like a credential (adapters/sqlite_ledger.py:38-60). The planners build them of
the run's id: `cell-{run_id}` and `cell-{run_id}-{i}`.

**Results.**
* `plan_plain_iff`, `harden_plain_iff`: which of the planners' graphs name no cell
  that looks like a credential.
* `ids_read_back_iff`: along a chain of resumes, the ids, dependencies and edges
  of the accepted graph are the ones read back, and rows about different cells
  stay apart, exactly if the log folds and none of these texts looks like a
  credential.
-/
namespace Northstack

open Coop Trace

theorem redactText_eq_iff {s : String} :
    redactText s = s ↔ looksLikeSecretValue s = false := by
  refine ⟨fun h => ?_, redactText_of_not_secret⟩
  by_contra hs
  rw [Bool.not_eq_false] at hs
  have hredacted : redacted = s := by
    rw [← h]
    exact (if_pos hs).symm
  rw [← hredacted] at hs
  exact absurd hs (by decide)

theorem map_redact_eq_iff {α : Type} {f : α → α} {P : α → Prop} (h : ∀ a, f a = a ↔ P a)
    {xs : List α} : xs.map f = xs ↔ ∀ x ∈ xs, P x := by
  have hpoint : xs.map f = xs.map id ↔ ∀ x ∈ xs, f x = x := List.map_inj_left
  rw [List.map_id] at hpoint
  exact hpoint.trans (forall₂_congr fun x _ => h x)

/-! ## What names cells -/

/-- A cell's id, its dependencies and its acceptance links. -/
structure CellLinks where
  id : String
  dependencies : List String
  criteria : List Int
  deriving DecidableEq

def GraphCell.links (c : GraphCell) : CellLinks where
  id := c.id
  dependencies := c.dependencies
  criteria := c.acceptanceCriterionIndices

theorem GraphCell.links_id (c : GraphCell) : c.links.id = c.id := rfl

/-- The links of a graph's cells, and its edges. -/
structure Links where
  cells : List CellLinks
  edges : List GraphEdge
  deriving DecidableEq

def Links.ids (l : Links) : List String := l.cells.map (·.id)

def GraphVersion.links (graph : GraphVersion) : Links where
  cells := graph.cells.map (·.links)
  edges := graph.edges

theorem GraphVersion.links_ids (graph : GraphVersion) : graph.links.ids = graph.ids := by
  unfold GraphVersion.links Links.ids GraphVersion.ids
  rw [List.map_map]
  rfl

/-- The links of the graph that a row accepts. -/
def EventPayload.links? : EventPayload → Option Links
  | .graphAccepted _ cells edges _ => some ⟨cells.map (·.links), edges⟩
  | _ => none

/-- The cell a row is about. -/
def EventPayload.cellId? : EventPayload → Option String
  | .cellCreated cell => some cell.id
  | .cellAdvanced id _ | .routeSelected id _ _ | .cellStarted id _ | .cellProgress id _ _ _ _
  | .cellCompleted id _ _ | .cellFailed id _ _ | .claimRecorded id _ _
  | .recoveryTransition id _ _ _ _ | .stallDetected id => some id
  | _ => none

/-- None of the texts looks like a credential. -/
structure Links.Plain (l : Links) : Prop where
  ids : ∀ c ∈ l.cells, looksLikeSecretValue c.id = false
  dependencies : ∀ c ∈ l.cells, ∀ d ∈ c.dependencies, looksLikeSecretValue d = false
  edges : ∀ e ∈ l.edges, looksLikeSecretValue e.fromId = false ∧
    looksLikeSecretValue e.toId = false ∧ looksLikeSecretValue e.kind = false

/-- Any two rows about different cells of the graph are stored under different
ids. -/
def Links.Apart (l : Links) : Prop :=
  ∀ p q : EventPayload, ∀ i ∈ p.cellId?, ∀ j ∈ q.cellId?,
    i ∈ l.ids → j ∈ l.ids → i ≠ j → p.stored.cellId? ≠ q.stored.cellId?

/-! ## Links as they are stored -/

def CellLinks.stored (c : CellLinks) : CellLinks where
  id := redactText c.id
  dependencies := redactTexts c.dependencies
  criteria := c.criteria

def Links.stored (l : Links) : Links where
  cells := l.cells.map (·.stored)
  edges := l.edges.map (·.stored)

theorem links?_stored (p : EventPayload) : p.stored.links? = p.links?.map (·.stored) := by
  cases p with
  | graphAccepted v cells edges milestones =>
    simp only [EventPayload.stored, EventPayload.links?, Option.map_some, Links.stored,
      List.map_map]
    rfl
  | _ => rfl

theorem cellId?_stored (p : EventPayload) : p.stored.cellId? = p.cellId?.map redactText := by
  cases p <;> rfl

theorem redactTexts_eq_iff {xs : List String} :
    redactTexts xs = xs ↔ ∀ x ∈ xs, looksLikeSecretValue x = false :=
  map_redact_eq_iff fun _ => redactText_eq_iff

theorem GraphEdge.stored_eq_iff {e : GraphEdge} : e.stored = e ↔
    looksLikeSecretValue e.fromId = false ∧ looksLikeSecretValue e.toId = false ∧
      looksLikeSecretValue e.kind = false := by
  rw [← redactText_eq_iff, ← redactText_eq_iff, ← redactText_eq_iff]
  cases e
  simp [GraphEdge.stored]

theorem CellLinks.stored_eq_iff {c : CellLinks} : c.stored = c ↔
    looksLikeSecretValue c.id = false ∧ ∀ d ∈ c.dependencies, looksLikeSecretValue d = false := by
  rw [← redactText_eq_iff, ← redactTexts_eq_iff]
  cases c
  simp [CellLinks.stored]

/-- The links that are stored as they are. -/
theorem Links.stored_eq_iff {l : Links} : l.stored = l ↔ l.Plain := by
  have hcells : l.cells.map (·.stored) = l.cells ↔ _ :=
    map_redact_eq_iff fun c => CellLinks.stored_eq_iff
  have hedges : l.edges.map (·.stored) = l.edges ↔ _ :=
    map_redact_eq_iff fun e => GraphEdge.stored_eq_iff
  constructor
  · intro h
    have hc := hcells.mp (congrArg Links.cells h)
    have he := hedges.mp (congrArg Links.edges h)
    exact ⟨fun c hm => (hc c hm).1, fun c hm => (hc c hm).2, he⟩
  · intro h
    cases l
    rw [Links.stored, hcells.mpr fun c hm => ⟨h.ids c hm, h.dependencies c hm⟩,
      hedges.mpr h.edges]

theorem Links.stored_plain (l : Links) : l.stored.Plain where
  ids c hc := by
    obtain ⟨c', -, rfl⟩ := List.mem_map.mp hc
    exact redactText_clean c'.id
  dependencies c hc d hd := by
    obtain ⟨c', -, rfl⟩ := List.mem_map.mp hc
    obtain ⟨d', -, rfl⟩ := List.mem_map.mp hd
    exact redactText_clean d'
  edges e he := by
    obtain ⟨e', -, rfl⟩ := List.mem_map.mp he
    exact ⟨redactText_clean e'.fromId, redactText_clean e'.toId, redactText_clean e'.kind⟩

/-- What redaction leaves alone stays apart. -/
theorem Links.Plain.apart {l : Links} (h : l.Plain) : l.Apart := by
  intro p q i hi j hj hmem hmem' hne he
  have hplain : ∀ k ∈ l.ids, redactText k = k := by
    intro k hk
    obtain ⟨c, hc, rfl⟩ := List.mem_map.mp hk
    exact redactText_of_not_secret (h.ids c hc)
  rw [cellId?_stored, cellId?_stored, hi, hj, Option.map_some, Option.map_some, hplain i hmem,
    hplain j hmem'] at he
  exact hne (Option.some.inj he)

/-! ## The planners' ids -/

theorem GraphPlanner.plan_plain_iff {contract : WorkContract} {runId : String} :
    (GraphPlanner.plan contract runId).links.Plain ↔
      looksLikeSecretValue s!"cell-{runId}" = false := by
  have hlinks : (GraphPlanner.plan contract runId).links =
      ⟨[⟨s!"cell-{runId}", [],
        (List.range contract.acceptanceCriteria.length).map (↑)⟩], []⟩ := rfl
  rw [hlinks]
  generalize s!"cell-{runId}" = id
  constructor
  · intro h
    have hid := h.ids _ (List.mem_singleton_self _)
    exact hid
  · intro h
    refine ⟨fun c hc => ?_, fun c hc d hd => ?_, List.forall_mem_nil _⟩
    · rw [List.mem_singleton.mp hc]
      exact h
    · rw [List.mem_singleton.mp hc] at hd
      cases hd

namespace ModelBackedPlanner

variable {proposed : List ProposedCell} {contract : WorkContract} {runId : String} {l : Layout}

theorem Settles.dependency (h : Settles proposed contract runId l) {deps : List String} {d : String}
    (hdeps : deps ∈ l.deps) (hd : d ∈ deps) : ∃ i < proposed.length, d = cellId runId i := by
  rw [h.deps, h.ids] at hdeps
  obtain ⟨i, hi, rfl⟩ := List.mem_mapIdx.mp hdeps
  obtain ⟨j, hj, rfl, -⟩ := (mem_resolveDeps hi.le).mp hd
  exact ⟨j, hj.trans hi, rfl⟩

/-- The cells of a hardened graph are named by their places. -/
theorem harden_plain_iff {p : Proposal} {graph : GraphVersion}
    (h : harden p contract runId = some graph) :
    graph.links.Plain ↔ ∀ i < (named p).length, looksLikeSecretValue (cellId runId i) = false := by
  obtain ⟨l, hl, rfl⟩ := harden_iff.mp h
  constructor
  · intro hplain i hi
    have hcell : (hardenedGraph contract (named p) l).cells[i]? =
        some (hardenedCell contract l ((named p)[i], i)) :=
      getElem?_hardenedGraph.mpr ⟨_, List.getElem?_eq_getElem hi, rfl⟩
    have hid := hplain.ids _ (List.mem_map_of_mem (f := GraphCell.links)
      (List.mem_of_getElem? hcell))
    rwa [GraphCell.links_id, hl.id_at (List.getElem?_eq_getElem hi)] at hid
  · intro hplain
    have hat : ∀ c ∈ (hardenedGraph contract (named p) l).links.cells, ∃ i c',
        i < (named p).length ∧ (named p)[i]? = some c' ∧
          c = (hardenedCell contract l (c', i)).links := by
      intro c hc
      obtain ⟨g, hg, rfl⟩ := List.mem_map.mp hc
      obtain ⟨i, hi⟩ := List.mem_iff_getElem?.mp hg
      obtain ⟨c', hc', rfl⟩ := getElem?_hardenedGraph.mp hi
      exact ⟨i, c', (List.getElem?_eq_some_iff.mp hc').1, hc', rfl⟩
    refine ⟨fun c hc => ?_, fun c hc d hd => ?_, fun e he => ?_⟩
    · obtain ⟨i, c', hi, hc', rfl⟩ := hat c hc
      rw [GraphCell.links_id, hl.id_at hc']
      exact hplain i hi
    · obtain ⟨i, c', hi, hc', rfl⟩ := hat c hc
      obtain ⟨j, hj, rfl, -⟩ := (hl.mem_dependencies hc').mp hd
      exact hplain j (hj.trans hi)
    · obtain ⟨x, hx, hxe⟩ := List.mem_flatMap.mp he
      obtain ⟨dep, hdep, rfl⟩ := List.mem_map.mp hxe
      obtain ⟨hdeps, hid⟩ := List.of_mem_zip hx
      unfold sortStrings at hdep
      rw [List.mem_insertionSort] at hdep
      obtain ⟨i, hi, rfl⟩ := hl.dependency hdeps hdep
      rw [hl.ids, cellIds_eq] at hid
      obtain ⟨j, hj, hj'⟩ := List.mem_map.mp hid
      rw [← hj']
      exact ⟨hplain i hi, hplain j (List.mem_range.mp hj),
        show looksLikeSecretValue "blocks" = false by decide⟩

end ModelBackedPlanner

/-! ## The projected links -/

theorem fold_links {state s : RunState} {seq : Nat} {p : EventPayload}
    (h : fold state seq p = .ok s) :
    s.graph.map (·.links) = p.links?.or (state.graph.map (·.links)) := by
  have hset : ∀ id status, (setCellStatus state id status).graph.map (·.links) =
      state.graph.map (·.links) := by
    intro id status
    unfold setCellStatus
    rw [Option.map_map]
    refine congrArg (fun f => state.graph.map f) (funext fun g => ?_)
    show (⟨(setStatus id status g.cells).map (·.links), g.edges⟩ : Links) = g.links
    unfold setStatus
    rw [List.map_map]
    refine congrArg (fun cells => (⟨cells, g.edges⟩ : Links)) (List.map_congr_left fun c _ => ?_)
    simp only [Function.comp]
    split <;> rfl
  cases p with
  | statusChanged t =>
    rw [fold_statusChanged h]
    rfl
  | _ =>
    cases h
    first
      | rfl
      | exact hset _ _

/-- The projected graph has the links of the last graph the log accepted. -/
theorem replay_links {log : List EventPayload} {s : RunState} (h : replayRun log = .ok s) :
    s.graph.map (·.links) = (log.filterMap (·.links?)).getLast? := by
  have hlast := foldEvents_last (f := fun s : RunState => s.graph.map (·.links))
    (g := (·.links?)) (fun _ _ => rfl) (fun hs => fold_links hs) log h
  rw [hlast]
  exact Option.or_none

/-! ## Along a chain -/

/-- A run accepts its own graph if it is a fresh one, else its source's. -/
theorem Setting.Emits.links? {r : Setting} {p : EventPayload} (h : r.Emits p) :
    ∀ l ∈ p.links?, (∃ request, r.launch = .fresh request ∧ l = r.job.graph.links) ∨
      ∃ q ∈ r.source, q.links? = some l := by
  intro l hl
  cases h with
  | plain hp =>
    cases p with
    | graphAccepted => cases hp
    | _ => cases hl
  | contract => cases hl
  | graph hr =>
    cases hl
    exact .inl ⟨_, hr, rfl⟩
  | @again p q hp hq =>
    cases p with
    | graphAccepted v cells edges milestones =>
      cases hq
      cases hl
      refine .inr ⟨_, hp, congrArg (fun cells => some (⟨cells, edges⟩ : Links)) ?_⟩
      rw [List.map_map]
      refine List.map_congr_left fun c _ => ?_
      simp only [Function.comp]
      split <;> rfl
    | analysisRequested | analysisCompleted | contractProposed | contractValidated =>
      cases hq
      cases hl
    | _ => cases hq
  | completion hp hcomp =>
    cases p with
    | cellCompleted => cases hl
    | _ => cases hcomp

theorem EventPayload.OfCell.links? {id : String} {p : EventPayload} (h : p.OfCell id) :
    p.links? = none := by
  cases p with
  | graphAccepted => exact h.elim
  | _ => rfl

/-- A run records the links `k` if its source does, and they are its graph's if it
is a fresh one. -/
theorem Reach.links {r : Setting} {ph : Phase} {s : St} {k : Links} (h : Reach r ph s)
    (hfresh : ∀ request, r.launch = .fresh request → r.job.graph.links = k)
    (hsource : ∀ q ∈ r.source, ∀ l ∈ q.links?, l = k.stored) :
    ∀ p ∈ s.log, ∀ l ∈ p.links?, l = k.stored := by
  refine h.forall_rows (fun p hp l hl => ?_) (fun _ _ p hp l hl => ?_)
  · rw [links?_stored] at hl
    obtain ⟨l', hl', rfl⟩ := Option.map_eq_some_iff.mp hl
    rcases hp.links? l' hl' with ⟨request, hr, rfl⟩ | ⟨q, hq, hlq⟩
    · rw [hfresh request hr]
    · rw [hsource q hq l' hlq, Links.stored_eq_iff.mpr k.stored_plain]
  · rw [links?_stored, hp.links?] at hl
    cases hl

section

variable {co : Company} {request : ProjectRequest} {log : List EventPayload}

/-- Every link of a chain records the graph of its request, redacted. -/
theorem Lineage.links (h : Lineage co request log) :
    ∀ p ∈ log, ∀ l ∈ p.links?, l = (co.freshJob request).graph.links.stored := by
  induction h with
  | run shared inputs =>
    have hr : co.setting? (.fresh request) shared = some _ := rfl
    obtain ⟨ph, h⟩ := (Company.run_reach hr inputs).1
    exact h.links (fun _ _ => rfl) (List.forall_mem_nil _)
  | @resume source _ next shared inputs ih =>
    cases hr : next.setting? (.resume source) shared with
    | none =>
      rw [Company.run_rejected hr]
      exact List.forall_mem_nil _
    | some r =>
      obtain ⟨ph, h⟩ := (Company.run_reach hr inputs).1
      obtain ⟨state, contract, graph, -, -, -, rfl⟩ := setting_resume hr
      exact h.links nofun ih

/-- The projected graph of a link is the planned one, redacted. -/
theorem Lineage.projected_links (h : Lineage co request log) {state : RunState}
    (hrun : replayRun log = .ok state) :
    ∀ graph ∈ state.graph, graph.links = (co.freshJob request).graph.links.stored := by
  intro graph hg
  have hlast := replay_links hrun
  rw [hg, Option.map_some] at hlast
  obtain ⟨p, hp, hpl⟩ := List.mem_filterMap.mp (List.mem_of_getLast? hlast.symm)
  exact h.links p hp _ hpl

/-- **Ids.** Take any link of a chain that accepted a graph. The log folds into a
graph with the cell ids, dependencies and edges of the one that was planned, and
rows about different cells stay apart, if and only if the statuses are a legal
path (else the fold raises) and no id, dependency or edge looks like a credential.
A resume works on the planned ids exactly if none does. -/
theorem ids_read_back_iff (h : Lineage co request log) (hacc : ∃ p ∈ log, p.links?.isSome) :
    ((∃ state graph, replayRun log = .ok state ∧ state.graph = some graph ∧
        graph.links = (co.freshJob request).graph.links) ∧
        (co.freshJob request).graph.links.Apart ↔
      RunStatus.legalFrom .intake (statuses log) ∧ (co.freshJob request).graph.links.Plain) ∧
    ∀ next : Company, ∀ job ∈ next.job? (.resume log),
      (job.graph.links = (co.freshJob request).graph.links ↔
        (co.freshJob request).graph.links.Plain) := by
  constructor
  · rw [← replay_ok_iff]
    constructor
    · rintro ⟨⟨state, graph, hrun, hg, hsame⟩, -⟩
      refine ⟨⟨state, hrun⟩, Links.stored_eq_iff.mp ?_⟩
      rw [← h.projected_links hrun graph hg, hsame]
    · rintro ⟨⟨state, hrun⟩, hplain⟩
      obtain ⟨p, hp, hpl⟩ := hacc
      obtain ⟨l, hl⟩ := Option.isSome_iff_exists.mp hpl
      have hne : log.filterMap (·.links?) ≠ [] :=
        List.ne_nil_of_mem (List.mem_filterMap.mpr ⟨p, hp, hl⟩)
      have hlast := (replay_links hrun).trans (List.getLast?_eq_getLast_of_ne_nil hne)
      obtain ⟨graph, hg, -⟩ := Option.map_eq_some_iff.mp hlast
      refine ⟨⟨state, graph, hrun, hg, ?_⟩, hplain.apart⟩
      rw [h.projected_links hrun graph hg, Links.stored_eq_iff.mpr hplain]
  · intro next job hjob
    have hr : next.setting? (.resume log) {} = some _ := Option.map_eq_some_iff.mpr ⟨job, hjob, rfl⟩
    obtain ⟨state, contract, graph, hrun, -, hgraph, hset⟩ := setting_resume hr
    have hsame : job.graph = graph := congrArg (fun r => r.job.graph) hset
    rw [hsame, h.projected_links hrun graph hgraph, Links.stored_eq_iff]

end

theorem ids_read_back_iff_two :
    ∃ state graph, replayRun (prefixedRun "").state.log = .ok state ∧ state.graph = some graph ∧
      graph.links = ((prefixedCompany "").freshJob budgetedRequest).graph.links :=
  ((ids_read_back_iff (.run {} throughTwoCells) (by decide +kernel)).1.mpr
    ⟨by decide +kernel, Links.stored_eq_iff.mp (by decide +kernel)⟩).1

/-- The company of a benchmark's task "task". -/
def benchCompany : Company :=
  { soleCompany [] [answers] with
    planner := fun contract => .inl (GraphPlanner.plan contract "bench-task-0-company") }

/-- The log of its run. -/
def benchLog : List EventPayload :=
  (benchCompany.run (.fresh plainRequest) {} (throughCell (List.replicate 8 .resume))).state.log

/-- The cell of the run bench-task-0-company is read back as `[REDACTED]`. -/
theorem bench_cell_redacted :
    ¬ ∀ (co : Company) (request : ProjectRequest) (log : List EventPayload),
      Lineage co request log → (∃ p ∈ log, p.links?.isSome) →
      RunStatus.legalFrom .intake (statuses log) →
      ∃ state graph, replayRun log = .ok state ∧ state.graph = some graph ∧
        graph.links = (co.freshJob request).graph.links := by
  intro h
  obtain ⟨state, graph, hrun, hg, hsame⟩ := h benchCompany plainRequest benchLog (.run {} _)
    (by decide +kernel) (by decide +kernel)
  have hids : ((replayRun benchLog).toOption.bind (·.graph)).map (·.ids) = some [redacted] := by
    decide +kernel
  have hplanned : (benchCompany.freshJob plainRequest).graph.links.ids =
      ["cell-bench-task-0-company"] := by decide +kernel
  rw [hrun] at hids
  simp only [Except.toOption, Option.bind_some, hg, Option.map_some, Option.some.injEq] at hids
  rw [← hsame, GraphVersion.links_ids, hids] at hplanned
  exact absurd hplanned (by decide)

end Northstack
