import Northstack.Application.CellAudit
import Northstack.Application.Orchestrator

/-!
# The waves of a run

`_execute_cells` as a transition system: what the wave loop and the cells it
runs do between two awaits (`WaveStep`). `MayRun` says when a cell takes a step:
the current round has listed it, its dependencies are done, and nothing runs
beside it that must not. A loop stops (`Stop`) behind such steps, with the
outcome of a cell or a stall, or behind a boundary at which the budget was
exhausted.

**Result.** `executeCells_waves`: over all inputs the loop only takes these
steps, from any state in which no cell is unfinished. If it returns and nothing
went wrong on the way, what is completed is what the rounds of the scheduler
complete.
-/
namespace Northstack

open Coop Relation

/-! ## What the cells of a job work under -/

/-- The cell ids are distinct. -/
def Job.Distinct (job : Job) : Prop := job.graph.ids.Nodup

namespace Company

variable (co : Company)

/-- A tool that a response to the cell calls, with arguments that validate. -/
def May (contract : WorkContract) (cell : GraphCell) (name : String) : Prop :=
  ∃ a ∈ co.script cell, ∃ turn ∈ a.turns, ∃ r, turn.reply = .response r ∧
    ∃ call ∈ r.toolCalls, call.name = name ∧
      validateToolArgs call (buildToolDefs co contract) = none ∧
      (co.toolRegistry.get name).isSome = true

def terms (job : Job) (cell : GraphCell) : Terms := ⟨cell, job.Distinct, co.May job.contract cell⟩

theorem permits (contract : WorkContract) (cell : GraphCell) :
    (cellInput co contract cell).Permits (co.May contract cell) (co.script cell) :=
  fun a ha turn ht r hr call hcall hv hreg =>
    ⟨a, ha, turn, ht, r, hr, call, hcall, rfl, hv, hreg⟩

end Company

/-! ## Collecting a result -/

/-- A gathered result is classified. -/
def St.collected (id : String) (result : Except Exc CellResult) (s : St) : St :=
  match result with
  | .error (.exception _ _) => Company.addFailed id (s.note (.collected id result))
  | .ok (.outcome _) => s.note (.collected id result)
  | .ok .completed | .error (.cancelled _) =>
    Company.addCompleted id (s.note (.collected id result))

namespace St

variable (id : String) (result : Except Exc CellResult) (s : St)

theorem collected_currentStatus : (s.collected id result).currentStatus = s.currentStatus := by
  unfold St.collected
  split <;> rfl

theorem collected_log : (s.collected id result).log = s.log ∧
    (s.collected id result).terminalOutcome = s.terminalOutcome := by
  unfold St.collected
  split <;> exact ⟨rfl, rfl⟩

/-- Collecting a result spends nothing. -/
theorem collected_spent : (s.collected id result).usage = s.usage ∧
    (s.collected id result).auth = s.auth ∧ (s.collected id result).toolsUsed = s.toolsUsed ∧
    (s.collected id result).shared = s.shared := by
  unfold St.collected
  split <;> exact ⟨rfl, rfl, rfl, rfl⟩

theorem collected_evidence : (s.collected id result).evidenceDigests = s.evidenceDigests := by
  unfold St.collected
  split <;> rfl

theorem collected_history :
    (s.collected id result).history = s.history ++ [.collected id result] := by
  unfold St.collected
  split <;> rfl

/-- The id is added for a cell that returned `True` or ended in a
`CancelledError`, and for no other. -/
theorem collected_cases : (s.collected id result).completedIds = s.completedIds ∨
    (s.collected id result).completedIds = s.completedIds.insert id ∧
      (result = .ok .completed ∨ ∃ note, result = .error (.cancelled note)) := by
  unfold St.collected
  split
  · exact .inl rfl
  · exact .inl rfl
  · exact .inr ⟨rfl, .inl rfl⟩
  · exact .inr ⟨rfl, .inr ⟨_, rfl⟩⟩

/-- An id is added to the failed ones for a cell that raised. -/
theorem collected_failedIds : (s.collected id result).failedIds = s.failedIds ∨
    (s.collected id result).failedIds = s.failedIds.insert id := by
  unfold St.collected
  split
  · exact .inr rfl
  · exact .inl rfl
  · exact .inl rfl
  · exact .inl rfl

theorem collected_grows : Grows s (s.collected id result) where
  log := (s.collected_log id result).1 ▸ List.prefix_rfl
  history := (s.collected_history id result) ▸ List.prefix_append _ _
  toolsUsed := (s.collected_spent id result).2.2.1 ▸ List.prefix_rfl

theorem collected_aside (T : Terms) : Aside T s (s.collected id result) where
  toGrows := s.collected_grows id result
  executedFor _ := by rw [(s.collected_spent id result).2.2.2]
  own _ := by
    rw [collected_history]
    exact account_snoc_of_ne nofun

theorem collected_mem : .collected id result ∈ (s.collected id result).history := by
  rw [St.collected_history]
  exact List.mem_append_right _ List.mem_cons_self

end St

/-! ## Rounds -/

/-- The ids the last round listed. -/
def lastRound (h : List Obs) : List String :=
  h.foldl (fun listed o => match o with
    | .round ready => ready
    | _ => listed) []

theorem lastRound_round (h : List Obs) (ready : List String) :
    lastRound (h ++ [.round ready]) = ready := by
  simp [lastRound]

theorem lastRound_snoc {o : Obs} (ho : ∀ ready, o ≠ .round ready) (h : List Obs) :
    lastRound (h ++ [o]) = lastRound h := by
  unfold lastRound
  rw [List.foldl_append]
  cases o with
  | round ready => exact absurd rfl (ho ready)
  | _ => rfl

/-- What a cell's step observes begins no round. -/
theorem CellStep.lastRound_eq {T : Terms} {s t : St} (h : CellStep T s t) :
    lastRound t.history = lastRound s.history := by
  rcases h.observes with he | ⟨o, he, ha⟩
  · rw [he]
  · rw [he, lastRound_snoc]
    rintro ready rfl
    exact ha

/-- The cells a history speaks of have completed or failed, or are running. -/
def TidyBut (running : List GraphCell) (s : St) : Prop :=
  ∀ o ∈ s.history, ∀ id ∈ o.cell?,
    id ∈ s.completedIds ∨ id ∈ s.failedIds ∨ id ∈ running.map (·.id)

/-- No cell is unfinished. -/
def Tidy (s : St) : Prop := TidyBut [] s

/-- What the waves observe of themselves. -/
def Obs.ofWave : Obs → Bool
  | .entered _ | .round _ | .collected _ _ => true
  | _ => false

/-- No wave has begun: what is known of cells, and of none that failed, is what
was completed before. -/
structure Fresh (s : St) : Prop where
  failedIds : s.failedIds = []
  cells : ∀ o ∈ s.history, ∀ id ∈ o.cell?, id ∈ s.completedIds
  idle : Avoids Obs.ofWave s

theorem Fresh.tidy {s : St} (h : Fresh s) : Tidy s := fun o ho id hid => .inl (h.cells o ho id hid)

/-- A cell of the graph may take a step. -/
structure MayRun (job : Job) (c : GraphCell) (s : St) : Prop where
  mem : c ∈ job.graph.cells
  fresh : job.Distinct → c.id ∉ s.completedIds ∧ c.id ∉ s.failedIds
  deps : ∀ d ∈ c.dependencies, d ∈ s.completedIds
  listed : c.id ∈ lastRound s.history
  /-- What was entered has ended, or is the cell itself, or runs beside it as
  one read-only cell beside another. -/
  alone : ∀ id, .entered id ∈ s.history → id ∈ s.completedIds ∨ id ∈ s.failedIds ∨ id = c.id ∨
    c.mode ≠ .mutating ∧ ∃ d ∈ job.graph.cells, d.id = id ∧ d.mode ≠ .mutating

/-- The ids of the cells that are ready. -/
def St.readyIds (job : Job) (s : St) : List String :=
  (readyCells job.graph (some s.completedIds) (some s.failedIds)).map (·.id)

/-- One atomic step of the waves. -/
inductive WaveStep (co : Company) (job : Job) : St → St → Prop where
  | round (s : St) : WaveStep co job s (s.note (.round (s.readyIds job)))
  | cell {c : GraphCell} {s t : St} (hm : MayRun job c s) (hs : CellStep (co.terms job c) s t) :
    WaveStep co job s t
  | collect {c : GraphCell} {result : Except Exc CellResult} {s : St}
    (hc : c ∈ job.graph.cells) (hr : CellRunner.Ended (co.terms job c) result s) :
    WaveStep co job s (s.collected c.id result)
  | boundary {s : St} (he : s.auth.exhausted = false) :
    WaveStep co job s (s.note (.boundary s.usage))

theorem WaveStep.grows {co : Company} {job : Job} {s t : St} (h : WaveStep co job s t) :
    Grows s t := by
  cases h with
  | cell hm hs => exact hs.frame.toGrows
  | collect hc hr => exact s.collected_grows _ _
  | _ => exact (s.frame_note _).toGrows

/-- Any number of steps of the waves. -/
def Waving (co : Company) (job : Job) : St → St → Prop := ReflTransGen (WaveStep co job)

/-- Behind the waves, with an outcome that ends them. -/
def Stop (co : Company) (job : Job) (s : St) (o : RunOutcome) (t : St) : Prop :=
  o ≠ .verified ∧ ∃ u, Waving co job s u ∧
    (t = u ∨ o = .abstained ∧ t = u.note (.boundary u.usage))

/-- The row that says why the waves end. -/
def LastRow (s : St) (p : EventPayload) : Prop :=
  (∃ id, p = .stallDetected id) ∨ p = .budgetUpdated s.usage true ∧ s.auth.exhausted = true

/-- The waves ended with an outcome, behind their last row if there is one. -/
def Stopped (co : Company) (job : Job) (s : St) (o : RunOutcome) (t : St) : Prop :=
  ∃ u, Stop co job s o u ∧ (t = u ∨ ∃ p, LastRow u p ∧ t = u.append false p)

/-- An exception ended the waves, at an await or behind the last row. -/
def Broken (co : Company) (job : Job) (s t : St) : Prop :=
  Waving co job s t ∨ ∃ u p, Stop co job s .abstained u ∧ LastRow u p ∧
    (t = u.append true p ∨ t = u.appendFailed p)

/-- The waves are at an await. -/
def Paused (co : Company) (job : Job) (s t : St) : Prop :=
  Waving co job s t ∨ Stop co job s .abstained t

/-- Something that ends the waves: a cell that did not return `True`, a stall,
an exhausted budget. -/
def Obs.rough : Obs → Bool
  | .collected _ (.ok .completed) => false
  | .collected _ _ => true
  | .appended (.stallDetected _) _ _ _ => true
  | .appended (.budgetUpdated _ true) _ _ _ => true
  | _ => false

section

variable {co : Company} {job : Job} {s₀ s t u : St} {cells : List GraphCell}

/-! ## Unfinished cells -/

theorem TidyBut.note {o : Obs} (h : TidyBut cells s) (ho : o.cell? = none) :
    TidyBut cells (s.note o) := by
  intro o' ho' id hid
  rcases List.mem_append.mp ho' with ho' | ho'
  · exact h o' ho' id hid
  · rw [List.mem_singleton.mp ho', ho] at hid
    cases hid

/-- A running cell's step speaks of no other cell. -/
theorem TidyBut.step {c : GraphCell} (h : TidyBut cells s) (hc : c ∈ cells)
    (hs : CellStep (co.terms job c) s t) : TidyBut cells t := by
  have hold : ∀ o ∈ s.history, ∀ id ∈ o.cell?,
      id ∈ t.completedIds ∨ id ∈ t.failedIds ∨ id ∈ cells.map (·.id) := by
    rw [hs.frame.completedIds, hs.frame.failedIds]
    exact h
  rcases hs.observes with he | ⟨o, he, ha⟩
  · exact fun o' ho' => hold o' (he ▸ ho')
  · intro o' ho' id hid
    rw [he] at ho'
    rcases List.mem_append.mp ho' with ho' | ho'
    · exact hold o' ho' id hid
    · rw [List.mem_singleton.mp ho'] at hid
      rcases ha.cell? with hn | hn
      · rw [hn] at hid
        cases hid
      · rw [hn] at hid
        cases hid
        exact .inr (.inr (List.mem_map_of_mem hc))

theorem TidyBut.of_tidy (h : Tidy s) : TidyBut cells s := by
  intro o ho id hid
  rcases h o ho id hid with h | h | h
  · exact .inl h
  · exact .inr (.inl h)
  · cases h

/-- A cell whose result is collected, and that is counted, is not running. -/
theorem TidyBut.collected {c : GraphCell} {x : Except Exc CellResult}
    (h : TidyBut (c :: cells) s) (hx : ∀ o, x ≠ .ok (.outcome o)) :
    TidyBut cells (s.collected c.id x) := by
  have hcount : ∀ id, id ∈ s.completedIds ∨ id ∈ s.failedIds ∨ id = c.id →
      id ∈ (s.collected c.id x).completedIds ∨ id ∈ (s.collected c.id x).failedIds := by
    intro id hid
    unfold St.collected
    split
    · rcases hid with hid | hid | rfl
      · exact .inl hid
      · exact .inr (List.mem_insert_of_mem hid)
      · exact .inr List.mem_insert_self
    · exact absurd rfl (hx _)
    all_goals
      rcases hid with hid | hid | rfl
      · exact .inl (List.mem_insert_of_mem hid)
      · exact .inr hid
      · exact .inl List.mem_insert_self
  intro o ho id hid
  rw [St.collected_history] at ho
  rcases List.mem_append.mp ho with ho | ho
  · rcases h o ho id hid with hi | hi | hi
    · exact (hcount id (.inl hi)).imp_right .inl
    · exact (hcount id (.inr (.inl hi))).imp_right .inl
    · rcases List.mem_cons.mp hi with rfl | hi
      · exact (hcount _ (.inr (.inr rfl))).imp_right .inl
      · exact .inr (.inr hi)
  · rw [List.mem_singleton.mp ho] at hid
    cases hid

/-- Cells that may start together, in the graph's order. -/
structure Runnable (job : Job) (cells : List GraphCell) (s : St) : Prop where
  sublist : cells.Sublist job.graph.cells
  fresh : ∀ c ∈ cells, job.Distinct → c.id ∉ s.completedIds ∧ c.id ∉ s.failedIds
  deps : ∀ c ∈ cells, ∀ d ∈ c.dependencies, d ∈ s.completedIds
  listed : ∀ c ∈ cells, c.id ∈ lastRound s.history
  tidy : Tidy s

/-- Several read-only cells, or one cell. -/
def Together (cells : List GraphCell) : Prop :=
  (∀ c ∈ cells, c.mode ≠ .mutating) ∨ ∃ c, cells = [c]

theorem Runnable.mem (h : Runnable job cells s) {c : GraphCell} (hc : c ∈ cells) :
    c ∈ job.graph.cells := h.sublist.subset hc

/-- Distinct ids keep the cells apart. -/
theorem Runnable.pairwise (h : Runnable job cells s) :
    cells.Pairwise fun c d => job.Distinct → c.id ≠ d.id := by
  by_cases hd : job.Distinct
  · have hn : (cells.map (·.id)).Nodup := hd.sublist (h.sublist.map _)
    exact (List.pairwise_map.mp hn).imp fun hne _ => hne
  · exact List.pairwise_of_forall fun _ _ h => absurd h hd

/-- While they run, each of them may take a step. -/
theorem Runnable.mayRun (h : Runnable job cells s) (htog : Together cells) {c : GraphCell}
    (hc : c ∈ cells) (hf : Frame s t) (ht : TidyBut cells t)
    (hl : lastRound t.history = lastRound s.history) : MayRun job c t where
  mem := h.mem hc
  fresh := by
    rw [hf.completedIds, hf.failedIds]
    exact h.fresh c hc
  deps := by
    rw [hf.completedIds]
    exact h.deps c hc
  listed := hl ▸ h.listed c hc
  alone id hid := by
    rcases ht _ hid id rfl with hi | hi | hi
    · exact .inl hi
    · exact .inr (.inl hi)
    · obtain ⟨d, hd, rfl⟩ := List.mem_map.mp hi
      rcases htog with hro | ⟨x, rfl⟩
      · exact .inr (.inr (.inr ⟨hro c hc, d, h.mem hd, rfl, hro d hd⟩))
      · rw [List.mem_singleton.mp hd, List.mem_singleton.mp hc]
        exact .inr (.inr (.inl rfl))

/-- Nothing is known yet of a cell that may start. -/
theorem Runnable.own_nil (h : Runnable job cells s) {c : GraphCell} (hc : c ∈ cells)
    (hD : job.Distinct) : (co.terms job c).own s.history = [] := by
  rw [List.eq_nil_iff_forall_not_mem]
  intro o ho
  obtain ⟨hmem, hid⟩ := mem_account.mp ho
  have hfresh := h.fresh c hc hD
  rcases h.tidy o hmem _ hid with hi | hi | hi
  · exact hfresh.1 hi
  · exact hfresh.2 hi
  · cases hi

/-! ## The cells of a group -/

/-- From `s` the code only takes steps of the waves that began in `s₀`. -/
abbrev Waves (co : Company) (job : Job) (s₀ : St) {α : Type} (m : RunTask α)
    (Q : α → St → Prop) (s : St) : Prop :=
  Main.Steady (Broken co job s₀) (Paused co job s₀) m Q s

/-- What a group of running cells has come to. -/
structure Running (co : Company) (job : Job) (s₀ : St) (cells : List GraphCell) (s t : St) :
    Prop where
  waving : Waving co job s₀ t
  frame : Frame s t
  tidy : TidyBut cells t
  listed : lastRound t.history = lastRound s.history

theorem Runnable.running (h : Runnable job cells s) (hw : Waving co job s₀ s) :
    Running co job s₀ cells s s :=
  ⟨hw, Frame.refl s, .of_tidy h.tidy, rfl⟩

/-- Whatever the cells of a group do, they take steps of the waves. -/
theorem group_running (hw : Waving co job s₀ s) (hr : Runnable job cells s)
    (htog : Together cells)
    (hst : ReflTransGen (fun s t => ∃ c ∈ cells, CellStep (co.terms job c) s t) s t) :
    Running co job s₀ cells s t := by
  induction hst with
  | refl => exact hr.running hw
  | tail _ hstep ih =>
    obtain ⟨c, hc, hs⟩ := hstep
    have hm := hr.mayRun htog hc ih.frame ih.tidy ih.listed
    exact ⟨ReflTransGen.tail ih.waving (.cell hm hs), ih.frame.trans hs.frame, ih.tidy.step hc hs,
      hs.lastRound_eq.trans ih.listed⟩

theorem gather_waves {α : Type} {g : List (Except Exc CellResult) × Bool → RunTask α}
    {Q : α → St → Prop} (hw : Waving co job s₀ s) (hr : Runnable job cells s)
    (htog : Together cells)
    (hg : ∀ rs req t, Running co job s₀ cells s t →
      List.Forall₂ (fun c x => CellRunner.Ended (co.terms job c) x t) cells rs →
      Waves co job s₀ (g (rs, req)) Q t) :
    Waves co job s₀
      (Main.gather (.cancelled none) (cells.map (co.runCell job.contract)) >>= g) Q s := by
  have hpair : cells.Pairwise (Compatible (fun c => Own (co.terms job c))
      fun c => Others (co.terms job c)) := by
    refine hr.pairwise.imp fun {c d} hne => ⟨?_, ?_⟩
    · exact fun _ _ ho => Others.of_own (T := co.terms job d) (U := co.terms job c) hne ho
    · exact fun _ _ ho => Others.of_own (T := co.terms job c) (U := co.terms job d)
        (fun hd => (hne hd).symm) ho
  refine Main.wp_bind (Main.wp_gather (.cancelled none)
    (A := ReflTransGen fun s t => ∃ c ∈ cells, CellStep (co.terms job c) s t)
    (fun c => CellRunner.ended_contract (co.terms job c)) hpair (fun _ => .refl) .trans
    ?_ ?_ ?_ ?_)
  · exact fun c hc _ _ ho => ReflTransGen.mono (fun _ _ hs => ⟨c, hc, hs⟩) _ _ ho
  · refine List.forall₂_map_right_iff.mpr (List.forall₂_same.mpr fun c hc => ⟨?_, ?_⟩)
    · intro t ht
      refine CellRunner.runCell_sat (c := co.cellInput job.contract c) _
        (co.permits job.contract c) fun hD => ?_
      exact (ht.aside.own hD).trans (hr.own_nil hc hD)
    · intro e t _ x hx
      cases hx
  · intro rs req t hA hall
    exact hg rs req t (group_running hw hr htog hA) hall
  · exact fun t hA => .inl (group_running hw hr htog hA).waving

theorem cancelledOrStalled_waves {α : Type} {e : Exc} {Q : Company.Watched α → St → Prop}
    (hw : Waving co job s₀ s) (hQ : Q .stalled s) :
    Waves co job s₀ (Company.cancelledOrStalled e) Q s := by
  refine Main.steady_observe (.inl hw) fun b => ?_
  cases b with
  | true => exact Main.steady_pure hQ
  | false => exact Main.steady_throw (.inl hw)

/-- What the watchdog lets through: the results of cells that have ended. -/
def GroupEnded (co : Company) (job : Job) (cells : List GraphCell) (t : St) :
    Company.Watched (List (Except Exc CellResult)) → Prop
  | .stalled => True
  | .finished rs => List.Forall₂ (fun c x => CellRunner.Ended (co.terms job c) x t) cells rs

def CellEnded (co : Company) (job : Job) (cell : GraphCell) (t : St) :
    Company.Watched CellResult → Prop
  | .stalled => True
  | .finished x => CellRunner.Returned (co.terms job cell) x t

/-- A wave's batch under the watchdog. -/
theorem watchGroup_waves (hw : Waving co job s₀ s) (hr : Runnable job cells s)
    (htog : Together cells) :
    Waves co job s₀ (Company.watchGroup (cells.map (co.runCell job.contract)))
      (fun w t => Running co job s₀ cells s t ∧ GroupEnded co job cells t w) s := by
  refine Main.steady_observe (.inl hw) fun b => ?_
  cases b with
  | true => exact Main.steady_pure ⟨hr.running hw, trivial⟩
  | false =>
    refine gather_waves hw hr htog fun rs req t ht hall => ?_
    cases req with
    | true => exact cancelledOrStalled_waves ht.waving ⟨ht, trivial⟩
    | false =>
      refine Main.steady_await (.inl ht.waving) fun w => ?_
      cases w with
      | resume => exact Main.steady_pure ⟨ht, hall⟩
      | raise e =>
        cases e with
        | cancelled note => exact cancelledOrStalled_waves ht.waving ⟨ht, trivial⟩
        | exception kind message => exact Main.steady_throw (.inl ht.waving)

/-- A mutating cell under the watchdog. -/
theorem watchCell_waves {cell : GraphCell} (hw : Waving co job s₀ s)
    (hr : Runnable job [cell] s) :
    Waves co job s₀ (Company.watchCell (co.runCell job.contract cell))
      (fun w t => Running co job s₀ [cell] s t ∧ CellEnded co job cell t w) s := by
  refine Main.steady_observe (.inl hw) fun b => ?_
  cases b with
  | true => exact Main.steady_pure ⟨hr.running hw, trivial⟩
  | false =>
    refine gather_waves hw hr (.inr ⟨cell, rfl⟩) fun rs req t ht hall => ?_
    obtain ⟨x, hx, rfl⟩ : ∃ x, CellRunner.Ended (co.terms job cell) x t ∧ rs = [x] := by
      cases hall with
      | cons hx hnil =>
        cases hnil
        exact ⟨_, hx, rfl⟩
    refine Main.steady_await (.inl ht.waving) fun w => ?_
    cases w with
    | raise e =>
      cases e with
      | cancelled note => exact cancelledOrStalled_waves ht.waving ⟨ht, trivial⟩
      | exception kind message => exact Main.steady_throw (.inl ht.waving)
    | resume =>
      cases x with
      | ok x => exact Main.steady_pure ⟨ht, hx x rfl⟩
      | error e =>
        cases e with
        | cancelled note => exact cancelledOrStalled_waves ht.waving ⟨ht, trivial⟩
        | exception kind message => exact Main.steady_throw (.inl ht.waving)

/-! ## Collecting the results -/

/-- The results of the cells have been collected since `s`, and none of them
was an outcome. -/
structure Gathered (cells : List GraphCell) (s t : St) : Prop where
  grows : Grows s t
  listed : lastRound t.history = lastRound s.history
  kept : s.completedIds ⊆ t.completedIds
  completed : ∀ id ∈ t.completedIds, id ∈ s.completedIds ∨ id ∈ cells.map (·.id)
  failed : ∀ id ∈ t.failedIds, id ∈ s.failedIds ∨ id ∈ cells.map (·.id)
  smooth : Avoids Obs.rough t → t.failedIds = s.failedIds ∧ ∀ c ∈ cells, c.id ∈ t.completedIds

theorem Gathered.of_frame (hf : Frame s t) (hl : lastRound t.history = lastRound s.history) :
    Gathered [] s t where
  grows := hf.toGrows
  listed := hl
  kept := hf.completedIds ▸ List.Subset.refl _
  completed _ hid := .inl (hf.completedIds ▸ hid)
  failed _ hid := .inl (hf.failedIds ▸ hid)
  smooth _ := ⟨hf.failedIds, List.forall_mem_nil _⟩

theorem Gathered.append {cells' : List GraphCell} (h : Gathered cells s t)
    (h' : Gathered cells' t u) : Gathered (cells ++ cells') s u where
  grows := h.grows.trans h'.grows
  listed := h'.listed.trans h.listed
  kept := List.Subset.trans h.kept h'.kept
  completed id hid := by
    rw [List.map_append, List.mem_append]
    rcases h'.completed id hid with hid | hid
    · exact (h.completed id hid).imp_right .inl
    · exact .inr (.inr hid)
  failed id hid := by
    rw [List.map_append, List.mem_append]
    rcases h'.failed id hid with hid | hid
    · exact (h.failed id hid).imp_right .inl
    · exact .inr (.inr hid)
  smooth ha := by
    obtain ⟨hf, hc⟩ := h.smooth (ha.of_grows h'.grows)
    obtain ⟨hf', hc'⟩ := h'.smooth ha
    refine ⟨hf'.trans hf, fun c hcell => ?_⟩
    rcases List.mem_append.mp hcell with hcell | hcell
    · exact h'.kept (hc c hcell)
    · exact hc' c hcell

/-- A cell's result is collected. -/
theorem Gathered.collected (c : GraphCell) (x : Except Exc CellResult) (s : St) :
    Gathered [c] s (s.collected c.id x) where
  grows := s.collected_grows c.id x
  listed := by
    rw [St.collected_history]
    exact lastRound_snoc (by simp) _
  kept := by
    rcases s.collected_cases c.id x with h | ⟨h, -⟩
    · rw [h]
      exact List.Subset.refl _
    · rw [h]
      exact fun id hid => List.mem_insert_of_mem hid
  completed id hid := by
    rcases s.collected_cases c.id x with h | ⟨h, -⟩
    · exact .inl (h ▸ hid)
    · rcases List.mem_insert_iff.mp (h ▸ hid) with rfl | hid
      · exact .inr List.mem_cons_self
      · exact .inl hid
  failed id hid := by
    rcases s.collected_failedIds c.id x with h | h
    · exact .inl (h ▸ hid)
    · rcases List.mem_insert_iff.mp (h ▸ hid) with rfl | hid
      · exact .inr List.mem_cons_self
      · exact .inl hid
  smooth ha := by
    have hx := ha _ (s.collected_mem c.id x)
    match x, hx with
    | .ok .completed, _ =>
      refine ⟨rfl, fun d hd => ?_⟩
      rw [List.mem_singleton.mp hd]
      exact List.mem_insert_self
    | .ok (.outcome _), hx => cases hx
    | .error _, hx => cases hx

/-- How a part of a wave goes on or ends. -/
def PartEnd (co : Company) (job : Job) (s₀ : St) (cells : List GraphCell) (s : St) :
    Option RunOutcome → St → Prop
  | some o, t => Stopped co job s₀ o t ∧ ¬ Avoids Obs.rough t
  | none, t => Waving co job s₀ t ∧ Tidy t ∧ Gathered cells s t

theorem PartEnd.after {cells' : List GraphCell} {o : Option RunOutcome}
    (h : Gathered cells s t) (h' : PartEnd co job s₀ cells' t o u) :
    PartEnd co job s₀ (cells ++ cells') s o u := by
  cases o with
  | some o => exact h'
  | none => exact ⟨h'.1, h'.2.1, h.append h'.2.2⟩

/-- A cell's outcome, which is not VERIFIED, stops the waves. -/
theorem collected_outcome {c : GraphCell} {o : RunOutcome} (hw : Waving co job s₀ s)
    (hc : c ∈ job.graph.cells)
    (hx : CellRunner.Ended (co.terms job c) (.ok (.outcome o)) s) :
    PartEnd co job s₀ cells u (some o) (s.collected c.id (.ok (.outcome o))) := by
  refine ⟨⟨_, ⟨hx _ rfl, _, ReflTransGen.tail hw (.collect hc hx), .inl rfl⟩, .inl rfl⟩, ?_⟩
  intro ha
  cases ha _ (s.collected_mem c.id (.ok (.outcome o)))

theorem collect_waves (cells : List GraphCell) :
    ∀ {rs : List (Except Exc CellResult)} {s : St}, Waving co job s₀ s →
    (∀ c ∈ cells, c ∈ job.graph.cells) → TidyBut cells s →
    List.Forall₂ (fun c x => CellRunner.Ended (co.terms job c) x s) cells rs →
    Waves co job s₀ (Company.collect (cells.zip rs)) (PartEnd co job s₀ cells s) s := by
  induction cells with
  | nil =>
    exact fun hw _ ht _ => Main.steady_pure ⟨hw, ht, .of_frame (Frame.refl _) rfl⟩
  | cons c cells ih =>
    intro rs s hw hmem ht hall
    cases hall with
    | @cons _ x _ xs hx hall =>
      have hc := hmem c List.mem_cons_self
      have hrest : (∀ o, x ≠ .ok (.outcome o)) →
          Waves co job s₀ (Company.collect (cells.zip xs)) (PartEnd co job s₀ (c :: cells) s)
            (s.collected c.id x) := by
        intro hne
        refine (ih (ReflTransGen.tail hw (.collect hc hx))
          (fun d hd => hmem d (List.mem_cons_of_mem _ hd)) (ht.collected hne) ?_).mono ?_
        · exact hall.imp fun d y hy => hy.mono (s.collected_aside _ _ _)
        · exact fun o t h => PartEnd.after (.collected c x s) h
      unfold Company.collect
      refine Main.steady_modify ?_
      match x, hx, hrest with
      | .ok (.outcome o), hx, _ => exact Main.steady_pure (collected_outcome hw hc hx)
      | .error (.exception _ _), _, hrest => exact Main.steady_modify (hrest nofun)
      | .ok .completed, _, hrest => exact Main.steady_modify (hrest (by simp))
      | .error (.cancelled _), _, hrest => exact Main.steady_modify (hrest nofun)

/-! ## The last row -/

/-- The row that says why the waves end is recorded, or refused. -/
theorem lastRow_waves {p : EventPayload} (hs : Stop co job s₀ .abstained s) (hp : LastRow s p)
    (hrough : ∀ current terminal, Obs.rough (.appended p current terminal false) = true) :
    Waves co job s₀ (emit p >>= fun _ => pure (some .abstained)) (PartEnd co job s₀ cells u) s := by
  refine Main.wp_bind (wp_emit (.inr hs) (Main.wp_pure ?_) ?_ ?_)
  · refine ⟨⟨s, hs, .inr ⟨p, hp, rfl⟩⟩, fun ha => ?_⟩
    have := (avoids_append.mp ha).2
    rw [hrough] at this
    cases this
  · exact fun _ => .inr ⟨s, p, hs, hp, .inl rfl⟩
  · exact fun _ => .inr ⟨s, p, hs, hp, .inr rfl⟩

theorem stalled_waves (id : String) (hw : Waving co job s₀ s) :
    Waves co job s₀ (emit (.stallDetected id) >>= fun _ => pure (some .abstained))
      (PartEnd co job s₀ cells u) s :=
  lastRow_waves ⟨by decide, s, hw, .inl rfl⟩ (.inl ⟨id, rfl⟩) fun _ _ => rfl

theorem checkBudget_waves (hw : Waving co job s₀ s) (ht : Tidy s) :
    Waves co job s₀ Company.checkBudget (PartEnd co job s₀ [] s) s := by
  unfold Company.checkBudget
  refine Main.steady_get (Main.steady_modify ?_)
  split
  · rename_i he
    exact lastRow_waves ⟨by decide, s, hw, .inr ⟨rfl, rfl⟩⟩ (.inr ⟨rfl, he⟩) fun _ _ => rfl
  · rename_i he
    refine Main.steady_pure ⟨ReflTransGen.tail hw (.boundary (by simpa using he)), ht.note rfl, ?_⟩
    exact .of_frame (s.frame_note _) (lastRound_snoc (by simp) _)

/-! ## Rounds of the loop -/

theorem runReadOnly_waves (hw : Waving co job s₀ s) (hr : Runnable job cells s)
    (hro : ∀ c ∈ cells, c.mode ≠ .mutating) :
    Waves co job s₀ (co.runReadOnly job.contract cells) (PartEnd co job s₀ cells s) s := by
  cases cells with
  | nil => exact Main.steady_pure ⟨hw, hr.tidy, .of_frame (Frame.refl s) rfl⟩
  | cons c cells =>
    unfold Company.runReadOnly
    refine (watchGroup_waves hw hr (.inl hro)).seq fun w t ht => ?_
    obtain ⟨ht, hend⟩ := ht
    cases w with
    | stalled => exact stalled_waves _ ht.waving
    | finished rs =>
      refine (collect_waves (c :: cells) ht.waving (fun d hd => hr.mem hd) ht.tidy hend).seq
        fun o u hu => ?_
      have hsu := PartEnd.after (.of_frame ht.frame ht.listed) hu
      cases o with
      | some o => exact Main.steady_pure hsu
      | none =>
        refine (checkBudget_waves hsu.1 hsu.2.1).mono fun o v hv => ?_
        simpa using PartEnd.after hsu.2.2 hv

/-- What may start after other cells of the round. -/
theorem Runnable.later {cells' : List GraphCell} (h : Runnable job cells s)
    (hsub : cells'.Sublist cells) {done : List GraphCell} (hg : Gathered done s t) (ht : Tidy t)
    (hne : ∀ c ∈ cells', job.Distinct → c.id ∉ done.map (·.id)) : Runnable job cells' t where
  sublist := hsub.trans h.sublist
  fresh c hc hD := by
    have hfresh := h.fresh c (hsub.subset hc) hD
    refine ⟨fun hid => ?_, fun hid => ?_⟩
    · exact (hg.completed _ hid).elim hfresh.1 (hne c hc hD)
    · exact (hg.failed _ hid).elim hfresh.2 (hne c hc hD)
  deps c hc d hd := hg.kept (h.deps c (hsub.subset hc) d hd)
  listed c hc := hg.listed ▸ h.listed c (hsub.subset hc)
  tidy := ht

theorem runMutating_waves (cells : List GraphCell) :
    ∀ {s : St}, Waving co job s₀ s → Runnable job cells s →
    Waves co job s₀ (co.runMutating job.contract cells) (PartEnd co job s₀ cells s) s := by
  induction cells with
  | nil => exact fun hw hr => Main.steady_pure ⟨hw, hr.tidy, .of_frame (Frame.refl _) rfl⟩
  | cons c cells ih =>
    intro s hw hr
    unfold Company.runMutating
    have hr1 : Runnable job [c] s :=
      hr.later (List.singleton_sublist.mpr List.mem_cons_self) (.of_frame (Frame.refl s) rfl)
        hr.tidy fun _ _ _ => List.not_mem_nil
    have hc := hr.mem List.mem_cons_self
    refine (watchCell_waves hw hr1).seq fun w t ht => ?_
    obtain ⟨ht, hend⟩ := ht
    have hended : ∀ {x}, CellRunner.Returned (co.terms job c) x t →
        CellRunner.Ended (co.terms job c) (.ok x) t := by
      intro x hx y hy
      cases hy
      exact hx
    cases w with
    | stalled => exact stalled_waves _ ht.waving
    | finished x =>
      cases x with
      | outcome o =>
        exact Main.steady_modify (Main.steady_pure (collected_outcome ht.waving hc (hended hend)))
      | completed =>
        refine Main.steady_modify (Main.steady_modify ?_)
        have hwc : Waving co job s₀ (t.collected c.id (.ok .completed)) :=
          ReflTransGen.tail ht.waving (.collect hc (hended hend))
        have hg := (Gathered.of_frame ht.frame ht.listed).append (.collected c (.ok .completed) t)
        refine (checkBudget_waves hwc (ht.tidy.collected (by simp))).seq fun o u hu => ?_
        have hsu := PartEnd.after hg hu
        cases o with
        | some o => exact Main.steady_pure hsu
        | none =>
          have hrest : Runnable job cells u := by
            refine hr.later (List.sublist_cons_self c cells) hsu.2.2 hsu.2.1 fun d hd hD => ?_
            simpa using ((List.pairwise_cons.mp hr.pairwise).1 d hd hD).symm
          exact (ih hsu.1 hrest).mono fun o v hv => by simpa using PartEnd.after hsu.2.2 hv

/-- How the loop ends. -/
def LoopEnd (co : Company) (job : Job) (s₀ : St) : Option RunOutcome → St → Prop
  | some o, t => Stopped co job s₀ o t
  | none, t => Waving co job s₀ t ∧ t.completedIds.length = job.graph.cells.length

/-- What `n` rounds have done since `s` if nothing went wrong. -/
structure Rounds (co : Company) (job : Job) (s₀ : St) (n : Nat) (s : St) (o : Option RunOutcome)
    (t : St) : Prop where
  waving : Waving co job s₀ t
  failedIds : t.failedIds = []
  completed : ∀ id, id ∈ t.completedIds ↔ id ∈ afterRounds job.graph n s.completedIds
  returns : o = none ↔ t.completedIds.length = job.graph.cells.length

/-- The loop ends because no round is left, or no cell is ready. -/
theorem loop_rest (hw : Waving co job s₀ s) {p : Prop} [Decidable p]
    (hp : p → s.completedIds.length = job.graph.cells.length) :
    LoopEnd co job s₀ (if p then none else some .failed) s := by
  split
  · rename_i h
    exact ⟨hw, hp h⟩
  · exact ⟨s, ⟨by decide, s, hw, .inl rfl⟩, .inl rfl⟩

theorem executeCells_waves (co : Company) (job : Job) (n : Nat) :
    ∀ {s : St}, Waving co job s₀ s → Tidy s →
    Waves co job s₀ (co.executeCells job n) (fun o t => LoopEnd co job s₀ o t ∧
      (Avoids Obs.rough t → Grows s t ∧ (s.failedIds = [] →
        Rounds co job s₀ n s o t))) s := by
  induction n with
  | zero =>
    intro s hw _
    unfold Company.executeCells
    refine Main.steady_get (Main.steady_pure ?_)
    rw [ite_not]
    refine ⟨loop_rest hw id, fun _ => ⟨Grows.refl s, fun hf => ⟨hw, hf, fun _ => Iff.rfl, ?_⟩⟩⟩
    split <;> simp_all
  | succ n ih =>
    intro s hw ht
    unfold Company.executeCells
    refine Main.steady_get ?_
    dsimp only
    split
    · rename_i hready
      refine Main.steady_pure ⟨loop_rest hw And.right, fun _ => ⟨Grows.refl s, fun hf =>
        ⟨hw, hf, fun id => ?_, ?_⟩⟩⟩
      · rw [hf, List.isEmpty_iff] at hready
        exact (afterRounds_stuck (n + 1) hready id).symm
      · split <;> simp_all
    · have hsub := readyCells_sublist job.graph (some s.completedIds) (some s.failedIds)
      have hnew := ready_not_done job.graph s.completedIds s.failedIds
      have hdeps := ready_deps job.graph s.completedIds s.failedIds
      generalize hready : readyCells job.graph (some s.completedIds) (some s.failedIds) = ready
        at hsub hnew hdeps
      refine Main.steady_modify ?_
      have hw1 : Waving co job s₀ (s.note (.round (ready.map (·.id)))) := by
        rw [← hready]
        exact ReflTransGen.tail hw (.round s)
      have hr : Runnable job ready (s.note (.round (ready.map (·.id)))) := by
        refine ⟨hsub, fun c hc _ => hnew c hc, hdeps, fun c hc => ?_, ht.note rfl⟩
        rw [show (s.note _).history = s.history ++ [_] from rfl, lastRound_round]
        exact List.mem_map_of_mem hc
      have hro : Runnable job (ready.filter (·.mode ≠ .mutating))
          (s.note (.round (ready.map (·.id)))) :=
        hr.later List.filter_sublist (.of_frame (Frame.refl _) rfl) hr.tidy
          fun _ _ _ => List.not_mem_nil
      have hmode : ∀ c ∈ ready.filter (·.mode ≠ .mutating), c.mode ≠ .mutating :=
        fun c hc => of_decide_eq_true (List.mem_filter.mp hc).2
      refine (runReadOnly_waves hw1 hro hmode).seq fun o t h1 => ?_
      cases o with
      | some o => exact Main.steady_pure ⟨h1.1, fun ha => absurd ha h1.2⟩
      | none =>
        obtain ⟨hw2, ht2, hg2⟩ := h1
        have hmut : Runnable job (ready.filter (·.mode = .mutating)) t := by
          refine hr.later List.filter_sublist hg2 ht2 fun c hc hD hid => ?_
          obtain ⟨d, hd, hde⟩ := List.mem_map.mp hid
          have hcd := List.inj_on_of_nodup_map hD (hsub.subset (List.mem_filter.mp hd).1)
            (hsub.subset (List.mem_filter.mp hc).1) hde
          exact hmode d hd (hcd ▸ of_decide_eq_true (List.mem_filter.mp hc).2)
        refine (runMutating_waves _ hw2 hmut).seq fun o u h2 => ?_
        cases o with
        | some o => exact Main.steady_pure ⟨h2.1, fun ha => absurd ha h2.2⟩
        | none =>
          obtain ⟨hw3, ht3, hg3⟩ := h2
          refine (ih hw3 ht3).mono fun o v hv => ⟨hv.1, fun ha => ?_⟩
          obtain ⟨hgrows, hrounds⟩ := hv.2 ha
          have hg := hg2.append hg3
          refine ⟨((s.frame_note _).toGrows.trans hg.grows).trans hgrows, fun hf => ?_⟩
          obtain ⟨hfail, hdone⟩ := hg.smooth (ha.of_grows hgrows)
          have hr3 := hrounds (hfail.trans hf)
          refine ⟨hr3.waving, hr3.failedIds, fun id => (hr3.completed id).trans ?_, hr3.returns⟩
          rw [afterRounds, ← hf, hready]
          refine afterRounds_congr n (fun id => ?_) id
          rw [List.mem_union_iff]
          constructor
          · intro hid
            refine (hg.completed id hid).imp_right fun hid => ?_
            obtain ⟨c, hc, rfl⟩ := List.mem_map.mp hid
            rcases List.mem_append.mp hc with hc | hc
            · exact List.mem_map_of_mem (List.mem_filter.mp hc).1
            · exact List.mem_map_of_mem (List.mem_filter.mp hc).1
          · rintro (hid | hid)
            · exact hg.kept hid
            · obtain ⟨c, hc, rfl⟩ := List.mem_map.mp hid
              refine hdone c (List.mem_append.mpr ?_)
              by_cases hm : c.mode = .mutating
              · exact .inr (List.mem_filter.mpr ⟨hc, by simpa using hm⟩)
              · exact .inl (List.mem_filter.mpr ⟨hc, by simpa using hm⟩)

/-! ## Every state of the loop -/

/-- What is observed behind the waves: a boundary, a row, a refused row. -/
def Trailing (u t : St) : Prop :=
  ∃ xs, t.history = u.history ++ xs ∧ ∀ x ∈ xs, x.ofWave = false

theorem Trailing.refl (u : St) : Trailing u u := ⟨[], by simp, List.forall_mem_nil _⟩

theorem Trailing.note {o : Obs} (h : Trailing u t) (ho : o.ofWave = false) :
    Trailing u (t.note o) := by
  obtain ⟨xs, hx, hf⟩ := h
  refine ⟨xs ++ [o], by rw [← List.append_assoc, ← hx]; rfl, fun x hmem => ?_⟩
  rcases List.mem_append.mp hmem with hmem | hmem
  · exact hf x hmem
  · rw [List.mem_singleton.mp hmem]
    exact ho

theorem Stop.trailing {o : RunOutcome} (h : Stop co job s o t) :
    ∃ u, Waving co job s u ∧ Trailing u t := by
  obtain ⟨-, u, hw, rfl | ⟨-, rfl⟩⟩ := h
  · exact ⟨t, hw, .refl t⟩
  · exact ⟨u, hw, (Trailing.refl u).note rfl⟩

/-- Every state of the loop is one of the waves, but for what trails behind. -/
theorem executeCells_state (co : Company) (job : Job) (n : Nat) (inputs : List (Input Exc))
    (ht : Tidy s) :
    ∃ u, Waving co job s u ∧ Trailing u (co.executeCells job n inputs s).state := by
  have hm := executeCells_waves co job n .refl ht inputs
  cases hout : co.executeCells job n inputs s with
  | ret o is t =>
    rw [hout] at hm
    cases o with
    | none => exact ⟨t, hm.1.1, .refl t⟩
    | some o =>
      obtain ⟨v, hs, rfl | ⟨p, -, rfl⟩⟩ := hm.1
      · exact hs.trailing
      · obtain ⟨u, hw, hu⟩ := hs.trailing
        exact ⟨u, hw, hu.note rfl⟩
  | raise e is t =>
    rw [hout] at hm
    rcases hm with hw | ⟨v, p, hs, -, rfl | rfl⟩
    · exact ⟨t, hw, .refl t⟩
    all_goals
      obtain ⟨u, hw, hu⟩ := hs.trailing
      exact ⟨u, hw, hu.note rfl⟩
  | wait t =>
    rw [hout] at hm
    rcases hm with hw | hs
    · exact ⟨t, hw, .refl t⟩
    · exact hs.trailing

end
end Northstack
