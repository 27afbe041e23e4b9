import Mathlib
import Northstack.Application.Completion

/-!
# In which order the waves start the cells

The scheduler lists the cells whose dependencies are done, and of the mutating
ones only the first. Whatever order the awaits end in, the wave loop starts a
listed cell once, and a mutating one beside no other.

How many rounds that takes is another matter. The planner bounds the number of
mutating cells by `max_waves` (`_wave_budget_errors`), the loop counts rounds:
a chain of read-only cells takes as many rounds as it is long. A resume counts
to the default of `max_waves`, whatever the request had.

**Results.**
* `waves_in_order`: with as many rounds as cells, the loop starts every open
  cell once and in order, and some cell is ready as long as one is open.
* `rounds_suffice_iff`: the loop of a run runs every cell exactly if the rounds
  of the scheduler, `max_waves + 1` of them, cover the graph.
* `chain_runs_out`: an accepted chain that they do not cover.
-/
namespace Northstack

open Coop Relation Trace

/-- How a cell is started, `h` being what was observed before: once, behind its
dependencies, and beside no other cell if one of the two is mutating. -/
structure InOrder (job : Job) (s : St) (c : GraphCell) (h : List Obs) : Prop where
  once : .entered c.id ∉ h
  fresh : c.id ∉ s.completedIds
  deps : ∀ d ∈ c.dependencies, d ∈ s.completedIds ∨ .collected d (.ok .completed) ∈ h
  apart : ∀ d ∈ job.graph.cells, .entered d.id ∈ h → c.mode = .mutating ∨ d.mode = .mutating →
    .collected d.id (.ok .completed) ∈ h

/-- A round lists one mutating cell at most. -/
def OneMutating (job : Job) (ready : List String) : Prop :=
  ∀ c ∈ job.graph.cells, ∀ d ∈ job.graph.cells, c.mode = .mutating → d.mode = .mutating →
    c.id ∈ ready → d.id ∈ ready → c = d

/-- What the waves that began in `s` may observe next. -/
def Schedules (job : Job) (s : St) (h : List Obs) : Obs → Prop
  | .entered id => id ∈ lastRound h ∧ ∃ c ∈ job.graph.cells, c.id = id ∧ InOrder job s c h
  | .round ready => OneMutating job ready
  | _ => True

/-- What holds in the waves as long as nothing goes wrong. -/
structure Orderly (job : Job) (s t : St) : Prop where
  legal : Legal (Schedules job s) t.history
  counted : ∀ id ∈ t.completedIds,
    id ∈ s.completedIds ∨ .collected id (.ok .completed) ∈ t.history
  kept : s.completedIds ⊆ t.completedIds
  failedIds : t.failedIds = []
  collected : ∀ id, .collected id (.ok .completed) ∈ t.history → .entered id ∈ t.history
  nodup : s.completedIds.Nodup → t.completedIds.Nodup
  subset : s.completedIds ⊆ job.graph.ids → t.completedIds ⊆ job.graph.ids

section

variable {co : Company} {job : Job} {s t u : St} {n : Nat} {inputs : List (Input Exc)}

/-- What no wave observes is always allowed. -/
theorem schedules_free {o : Obs} (h : List Obs) (ho : o.ofWave = false) : Schedules job s h o := by
  cases o with
  | entered id => cases ho
  | round ready => cases ho
  | _ => trivial

theorem Fresh.orderly (h : Fresh s) : Orderly job s s where
  legal := by
    have hl : Legal (Schedules job s) ([] ++ s.history) :=
      Legal.nil.append fun k x hx => schedules_free k (h.idle x hx)
    rwa [List.nil_append] at hl
  counted _ hid := .inl hid
  kept := List.Subset.refl _
  failedIds := h.failedIds
  collected id hid := by cases h.idle _ hid
  nodup := id
  subset := id

/-- One more observation that collects nothing. -/
theorem Orderly.snoc {o : Obs} (h : Orderly job s t) (ho : Schedules job s t.history o)
    (hne : ∀ id x, o ≠ .collected id x) (hh : u.history = t.history ++ [o])
    (hc : u.completedIds = t.completedIds) (hf : u.failedIds = t.failedIds) : Orderly job s u where
  legal := hh ▸ h.legal.snoc ho
  counted id hid := by
    rw [hh]
    exact (h.counted id (hc ▸ hid)).imp_right (List.mem_append_left _)
  kept := hc ▸ h.kept
  failedIds := hf ▸ h.failedIds
  collected id hid := by
    rw [hh] at hid ⊢
    rcases List.mem_append.mp hid with hid | hid
    · exact List.mem_append_left _ (h.collected id hid)
    · exact absurd (List.mem_singleton.mp hid).symm (hne _ _)
  nodup hn := hc ▸ h.nodup hn
  subset hs := hc ▸ h.subset hs

/-- What a cell's step observes is in order. -/
theorem MayRun.schedules {c : GraphCell} {o : Obs} (hD : job.Distinct) (hm : MayRun job c t)
    (h : Orderly job s t) (ha : (co.terms job c).Allows t.history o) :
    Schedules job s t.history o := by
  cases o with
  | entered id =>
    obtain ⟨rfl, hown⟩ := ha
    have hnew : .entered c.id ∉ t.history := by
      intro hmem
      have hin : .entered c.id ∈ (co.terms job c).own t.history := mem_account.mpr ⟨hmem, rfl⟩
      rw [hown hD] at hin
      cases hin
    refine ⟨hm.listed, c, hm.mem, rfl, hnew, fun hid => (hm.fresh hD).1 (h.kept hid),
      fun d hd => h.counted d (hm.deps d hd), fun d hd hent hmode => ?_⟩
    rcases hm.alone _ hent with hdone | hfail | heq | ⟨hro, e, he, hid, hero⟩
    · refine (h.counted _ hdone).resolve_left fun hinit => ?_
      obtain ⟨pre, post, hsplit⟩ := List.append_of_mem hent
      obtain ⟨-, e, he, hid, hin⟩ := (hsplit ▸ h.legal).split
      exact hin.fresh (hid ▸ hinit)
    · rw [h.failedIds] at hfail
      cases hfail
    · exact absurd (heq ▸ hent) hnew
    · rcases hmode with hmode | hmode
      · exact absurd hmode hro
      · rw [List.inj_on_of_nodup_map hD he hd hid] at hero
        exact absurd hmode hero
  | round ready => exact ha.elim
  | _ => trivial

theorem WaveStep.orderly (hD : job.Distinct) (h : Orderly job s t) (hst : WaveStep co job t u)
    (ha : Avoids Obs.rough u) : Orderly job s u := by
  cases hst with
  | round =>
    refine h.snoc (o := .round (t.readyIds job)) ?_ nofun rfl rfl rfl
    exact fun c hc d hd hcm hdm hcr hdr => ready_mutating_unique hD hc hd hcm hdm hcr hdr
  | @cell c _ _ hm hs =>
    rcases hs.observes with hh | ⟨o, hh, hallow⟩
    · exact ⟨hh ▸ h.legal, fun id hid => hh ▸ h.counted id (hs.frame.completedIds ▸ hid),
        hs.frame.completedIds ▸ h.kept, hs.frame.failedIds ▸ h.failedIds,
        fun id hid => hh ▸ h.collected id (hh ▸ hid), hs.frame.completedIds ▸ h.nodup,
        hs.frame.completedIds ▸ h.subset⟩
    · refine h.snoc (hm.schedules hD h hallow) ?_ hh hs.frame.completedIds hs.frame.failedIds
      rintro id x rfl
      exact hallow
  | @collect c x _ hc hr =>
    have hx := ha _ (t.collected_mem c.id x)
    match x, hx, hr with
    | .ok .completed, _, hr =>
      have hent : .entered c.id ∈ t.history := (hr _ rfl).2.1
      refine ⟨h.legal.snoc trivial, fun id hid => ?_, fun id hid => ?_, h.failedIds,
        fun id hid => ?_, fun hn => (h.nodup hn).insert, fun hs id hid => ?_⟩
      · rcases List.mem_insert_iff.mp hid with rfl | hid
        · exact .inr (List.mem_append_right _ List.mem_cons_self)
        · exact (h.counted id hid).imp_right (List.mem_append_left _)
      · exact List.mem_insert_of_mem (h.kept hid)
      · refine List.mem_append_left _ ?_
        rcases List.mem_append.mp hid with hid | hid
        · exact h.collected id hid
        · cases List.mem_singleton.mp hid
          exact hent
      · rcases List.mem_insert_iff.mp hid with rfl | hid
        · exact List.mem_map_of_mem hc
        · exact h.subset hs hid
    | .ok (.outcome _), hx, _ => cases hx
    | .error _, hx, _ => cases hx
  | boundary he => exact h.snoc (o := .boundary t.usage) trivial nofun rfl rfl rfl

theorem waving_orderly (hD : job.Distinct) (hf : Fresh s) (hw : Waving co job s t)
    (ha : Avoids Obs.rough t) : Orderly job s t := by
  induction hw with
  | refl => exact hf.orderly
  | tail _ hst ih => exact hst.orderly hD (ih (ha.of_grows hst.grows)) ha

/-- The listed ids of a legal history are of a round with one mutating cell. -/
theorem lastRound_oneMutating {h : List Obs} (hl : Legal (Schedules job s) h) :
    OneMutating job (lastRound h) := by
  induction hl with
  | nil => exact fun c _ d _ _ _ hc => absurd hc List.not_mem_nil
  | @snoc h o _ ho ih =>
    cases o with
    | round ready =>
      rw [lastRound_round]
      exact ho
    | _ =>
      rw [lastRound_snoc (by simp)]
      exact ih

theorem lastRound_append {h k : List Obs} (hk : ∀ ready, .round ready ∉ k) :
    lastRound (h ++ k) = lastRound h := by
  induction k generalizing h with
  | nil => rw [List.append_nil]
  | cons o k ih =>
    rw [← List.singleton_append, ← List.append_assoc,
      ih fun ready hmem => hk ready (List.mem_cons_of_mem _ hmem)]
    exact lastRound_snoc (fun ready he => hk ready (he ▸ List.mem_cons_self)) h

/-- **One mutating cell a round.** Between the starts of two mutating cells a
round begins. -/
theorem mutating_rounds {pre mid post : List Obs} {c d : GraphCell} (hc : c ∈ job.graph.cells)
    (hd : d ∈ job.graph.cells) (hcm : c.mode = .mutating) (hdm : d.mode = .mutating)
    (hl : Legal (Schedules job s) (pre ++ .entered c.id :: (mid ++ .entered d.id :: post))) :
    ∃ ready, .round ready ∈ mid := by
  by_contra hno
  push Not at hno
  have hfirst := hl.split
  rw [← List.cons_append, ← List.append_assoc] at hl
  obtain ⟨hlist, e, he, hid, hin⟩ := hl.split
  have hsame : lastRound (pre ++ .entered c.id :: mid) = lastRound pre := by
    refine lastRound_append fun ready hmem => ?_
    rcases List.mem_cons.mp hmem with heq | hmem
    · cases heq
    · exact hno ready hmem
  rw [hsame] at hlist
  have hone := lastRound_oneMutating (hl.of_prefix
    ((List.prefix_append pre _).trans (List.prefix_append _ _)))
  rw [hone c hc d hd hcm hdm hfirst.1 hlist, ← hid] at hin
  exact hin.once (List.mem_append_right _ List.mem_cons_self)

/-- The history of a loop in which nothing went wrong is in order. -/
theorem executeCells_legal (hD : job.Distinct) (hf : Fresh s)
    (ha : Avoids Obs.rough (co.executeCells job n inputs s).state) :
    Legal (Schedules job s) (co.executeCells job n inputs s).state.history := by
  obtain ⟨u, hw, xs, hx, hfree⟩ := executeCells_state co job n inputs hf.tidy
  rw [hx]
  refine Legal.append (waving_orderly hD hf hw fun o ho => ha o ?_).legal
    fun k x hmem => schedules_free k (hfree x hmem)
  rw [hx]
  exact List.mem_append_left _ ho

/-- A cell was started, and never twice. -/
def StartedOnce (id : String) (h : List Obs) : Prop :=
  ∃ pre post, h = pre ++ .entered id :: post ∧ .entered id ∉ pre ∧ .entered id ∉ post

theorem startedOnce_of_legal {h : List Obs} {id : String} (hl : Legal (Schedules job s) h)
    (hmem : .entered id ∈ h) : StartedOnce id h := by
  obtain ⟨pre, post, rfl⟩ := List.append_of_mem hmem
  have honce : ∀ {a b : List Obs}, Legal (Schedules job s) (a ++ .entered id :: b) →
      .entered id ∉ a := by
    intro a b hab
    obtain ⟨-, c, -, rfl, hin⟩ := hab.split
    exact hin.once
  refine ⟨pre, post, rfl, honce hl, fun hpost => ?_⟩
  obtain ⟨a, b, rfl⟩ := List.append_of_mem hpost
  rw [← List.cons_append, ← List.append_assoc] at hl
  exact honce hl (List.mem_append_right _ List.mem_cons_self)

/-! ## How the loop returns -/

/-- A set of cells of the graph. -/
def GraphVersion.Part (graph : GraphVersion) (done : List String) : Prop :=
  done.Nodup ∧ done ⊆ graph.ids

/-- A part of the graph is all of it exactly if it has as many cells. -/
theorem GraphVersion.Part.whole {graph : GraphVersion} {done : List String} (h : graph.Part done)
    (hD : graph.ids.Nodup) : done.length = graph.cells.length ↔ graph.ids ⊆ done := by
  have hlen : graph.ids.length = graph.cells.length := List.length_map _
  rw [← hlen]
  have hsub := List.subperm_of_subset h.1 h.2
  constructor
  · exact fun he => (hsub.perm_of_length_le (le_of_eq he.symm)).symm.subset
  · exact fun hall => le_antisymm hsub.length_le (List.subperm_of_subset hD hall).length_le

/-- What a loop that returned without trouble has done. -/
theorem executeCells_returned {o : Option RunOutcome} (hD : job.Distinct) (hf : Fresh s)
    (hpart : job.graph.Part s.completedIds)
    (hret : (co.executeCells job n inputs s).returned = some o)
    (ha : Avoids Obs.rough (co.executeCells job n inputs s).state) :
    (o = none ↔ job.graph.ids ⊆ afterRounds job.graph n s.completedIds) ∧
      ∀ id ∈ afterRounds job.graph n s.completedIds, id ∉ s.completedIds →
        StartedOnce id (co.executeCells job n inputs s).state.history := by
  have hm := executeCells_waves co job n .refl hf.tidy inputs
  cases hout : co.executeCells job n inputs s with
  | raise e is t => simp [hout, Out.returned] at hret
  | wait t => simp [hout, Out.returned] at hret
  | ret o' is t =>
  rw [hout] at hm hret ha
  obtain rfl := Option.some.inj hret
  obtain ⟨hend, hsmooth⟩ := hm
  have hrounds := (hsmooth ha).2 hf.failedIds
  have hord := waving_orderly hD hf hrounds.waving ha
  have hwhole := GraphVersion.Part.whole ⟨hord.nodup hpart.1, hord.subset hpart.2⟩ hD
  refine ⟨hrounds.returns.trans (hwhole.trans ?_), fun id hid hnew => ?_⟩
  · exact forall_congr' fun id => imp_congr_right fun _ => hrounds.completed id
  · have hdone := (hord.counted id ((hrounds.completed id).mpr hid)).resolve_left hnew
    exact startedOnce_of_legal hord.legal (hord.collected id hdone)

end

/-! ## The loop -/

/-- **The waves.** In a graph that validates, with as many rounds as it has
cells, and where no cell fails, the loop starts each cell in order, rounds
begin between the starts of mutating cells, some cell is ready as long as one is
open, and a loop that returns has started every open cell once and returns
`None`. -/
theorem waves_in_order (co : Company) (job : Job) (n : Nat) (s : St) (inputs : List (Input Exc))
    (runBudget : Option Budget) (maxWaves : Option Nat)
    (hgraph : GraphPlanner.validate job.graph runBudget maxWaves = [])
    (hrounds : job.graph.cells.length ≤ n) (hstart : Fresh s)
    (hpart : job.graph.Part s.completedIds)
    (hsmooth : Avoids Obs.rough (co.executeCells job n inputs s).state) :
    (∀ pre id post, (co.executeCells job n inputs s).state.history = pre ++ .entered id :: post →
      ∃ c ∈ job.graph.cells, c.id = id ∧ InOrder job s c pre) ∧
    (∀ c ∈ job.graph.cells, ∀ d ∈ job.graph.cells, c.mode = .mutating → d.mode = .mutating →
      ∀ pre mid post, (co.executeCells job n inputs s).state.history =
        pre ++ .entered c.id :: (mid ++ .entered d.id :: post) → ∃ ready, .round ready ∈ mid) ∧
    (∀ done, (∃ c ∈ job.graph.cells, c.id ∉ done) →
      readyCells job.graph (some done) (some []) ≠ []) ∧
    ∀ o, (co.executeCells job n inputs s).returned = some o → o = none ∧
      ∀ c ∈ job.graph.cells, c.id ∉ s.completedIds →
        StartedOnce c.id (co.executeCells job n inputs s).state.history := by
  have hD : job.Distinct := GraphPlanner.validate_nil_nodup hgraph
  have hlayered := GraphPlanner.validate_nil_layered hgraph
  have hlegal : Legal (Schedules job s) (co.executeCells job n inputs s).state.history :=
    executeCells_legal hD hstart hsmooth
  refine ⟨?_, ?_, fun done hopen => ready_progress hlayered hopen, ?_⟩
  · intro pre id post hsplit
    obtain ⟨-, hc⟩ := (hsplit ▸ hlegal).split
    exact hc
  · intro c hc d hd hcm hdm pre mid post hsplit
    exact mutating_rounds hc hd hcm hdm (hsplit ▸ hlegal)
  · intro o hret
    have hcovers : job.graph.ids ⊆ afterRounds job.graph n s.completedIds :=
      afterRounds_covers hlayered n ((List.length_filter_le _ _).trans hrounds)
    obtain ⟨hnone, honce⟩ := executeCells_returned hD hstart hpart hret hsmooth
    exact ⟨hnone.mpr hcovers, fun c hc hnew => honce _ (hcovers (List.mem_map_of_mem hc)) hnew⟩

/-- Five read-only cells, each behind the one before. -/
def chain (contract : WorkContract) : GraphVersion where
  cells :=
    [{ id := "a", contract := contract },
     { id := "b", contract := contract, wave := 1, dependencies := ["a"] },
     { id := "c", contract := contract, wave := 2, dependencies := ["b"] },
     { id := "d", contract := contract, wave := 3, dependencies := ["c"] },
     { id := "e", contract := contract, wave := 4, dependencies := ["d"] }]
  edges :=
    [{ fromId := "a", toId := "b" }, { fromId := "b", toId := "c" },
     { fromId := "c", toId := "d" }, { fromId := "d", toId := "e" }]
  currentHorizon := 4

/-- A company whose plan is the chain, for a model that answers at once. -/
def chainCompany : Company :=
  { soleCompany [forbidsTool] [answers] with planner := fun contract => .inl (chain contract) }

/-- Rounds in which one read-only cell runs without trouble. -/
def calmRounds (n : Nat) : List (Input Exc) :=
  (List.replicate n (.flag false :: List.replicate 8 (.child 0 .resume) ++ [.wake .resume])).flatten

/-- A run of the chain with `max_waves`. -/
def chainJob (maxWaves : Nat) : Job :=
  { chainCompany.freshJob plainRequest with maxWaves := maxWaves }

/-- Its loop over `n` rounds. -/
def chainLoop (maxWaves n : Nat) : Out St Exc (Option RunOutcome) :=
  chainCompany.executeCells (chainJob maxWaves) n (calmRounds n)
    (Company.begin (chainJob maxWaves) {})

theorem begin_fresh {job : Job} {s : St} : Fresh (Company.begin job s) :=
  ⟨rfl, List.forall_mem_nil _, List.forall_mem_nil _⟩

theorem waves_in_order_chain : (chainLoop 3 5).returned = some none ∧
    ∀ c ∈ (chainJob 3).graph.cells, StartedOnce c.id (chainLoop 3 5).state.history := by
  have h := waves_in_order chainCompany (chainJob 3) 5 (Company.begin (chainJob 3) {})
    (calmRounds 5) none (some 3) (by decide +kernel) (by decide) begin_fresh
    ⟨List.nodup_nil, List.nil_subset _⟩ (by decide +kernel)
  have hret : (chainLoop 3 5).returned = some none := by decide +kernel
  exact ⟨hret, fun c hc => (h.2.2.2 none hret).2 c hc List.not_mem_nil⟩

/-- **Rounds.** A loop of `max_waves + 1` rounds over a graph that validates,
in which no cell fails, returns `None`, with every open cell started once,
exactly if that many rounds of the scheduler cover the graph. -/
theorem rounds_suffice_iff (co : Company) (job : Job) (s : St) (inputs : List (Input Exc))
    (o : Option RunOutcome) (runBudget : Option Budget) (maxWaves : Option Nat)
    (hgraph : GraphPlanner.validate job.graph runBudget maxWaves = []) (hstart : Fresh s)
    (hpart : job.graph.Part s.completedIds)
    (hret : (co.executeCells job (job.maxWaves + 1) inputs s).returned = some o)
    (hsmooth : Avoids Obs.rough (co.executeCells job (job.maxWaves + 1) inputs s).state) :
    (o = none ∧ ∀ c ∈ job.graph.cells, c.id ∉ s.completedIds →
      StartedOnce c.id (co.executeCells job (job.maxWaves + 1) inputs s).state.history) ↔
      job.graph.ids ⊆ afterRounds job.graph (job.maxWaves + 1) s.completedIds := by
  obtain ⟨hnone, honce⟩ := executeCells_returned (GraphPlanner.validate_nil_nodup hgraph) hstart
    hpart hret hsmooth
  refine ⟨fun h => hnone.mp h.1, fun hcovers => ⟨hnone.mpr hcovers, fun c hc hnew => ?_⟩⟩
  exact honce _ (hcovers (List.mem_map_of_mem hc)) hnew

theorem rounds_suffice_iff_chain : (none : Option RunOutcome) = none ∧
    ∀ c ∈ (chainJob 4).graph.cells, c.id ∉ (Company.begin (chainJob 4) {}).completedIds →
      StartedOnce c.id (chainLoop 4 5).state.history :=
  (rounds_suffice_iff chainCompany (chainJob 4) (Company.begin (chainJob 4) {}) (calmRounds 5) none
    none (some 4) (by decide +kernel) begin_fresh ⟨List.nodup_nil, List.nil_subset _⟩
    (by decide +kernel) (by decide +kernel)).mpr (by decide +kernel)

/-- The chain is accepted with three waves and takes five rounds: its loop ends
with FAILED before its last cell. -/
theorem chain_runs_out :
    ¬ ∀ (co : Company) (request : ProjectRequest) (inputs : List (Input Exc))
        (o : Option RunOutcome),
      let job := co.freshJob request
      let out := co.executeCells job (request.maxWaves + 1) inputs (Company.begin job {})
      GraphPlanner.validate job.graph (some job.contract.budget) (some request.maxWaves) = [] →
      job.limits.tokenLimit = none ∧ job.limits.costLimitUsd = none →
      out.returned = some o → Avoids Obs.rough out.state →
      o = none ∧ ∀ c ∈ job.graph.cells, StartedOnce c.id out.state.history := by
  intro h
  have hrun := h chainCompany plainRequest (calmRounds 4) (some .failed) (by decide +kernel)
    ⟨rfl, rfl⟩ (by decide +kernel) (by decide +kernel)
  cases hrun.1

end Northstack
