import Mathlib
import Northstack.Adapters.Pairing
import Northstack.Application.Accounts
import Northstack.Core.TaskRules

/-!
# What a cell can do to a run

`CellStep T` lists every atomic step the code of one cell takes: it appends
rows about itself, keeps its account, starts tools, rewrites its conversation
and, at its end, hands its tool names to the run. `Terms` says what the cell
works under, `Terms.Allows` what may be observed of it next. `Own T` and
`Others T` are the guarantee and the rely of the cell among its siblings.

* `CellStep.frame`: logs, audits and the model's history only grow, and the
  statuses, the outcome and the two id sets are untouched.
* `Others.aside`: siblings leave a cell's tools and its account alone.
* `Ens`: what the code of a cell ensures of its result when it returns, and of
  the state when it raises, over everything its siblings do at its awaits.
-/
namespace Northstack

open Coop Relation Trace

/-- A row a cell appends about itself. -/
def EventPayload.OfCell (id : String) : EventPayload → Prop
  | .routeSelected i _ _ | .cellStarted i _ | .cellProgress i _ _ _ _ | .cellCompleted i _ _
  | .cellFailed i _ _ | .recoveryTransition i _ _ _ _ => i = id
  | _ => False

/-- No cost without a call. -/
def Spend.Metered (s : Spend) : Prop := s.calls = 0 → s.costUsd = 0

/-- The conversations taken from checkpoints so far were paired. -/
def RestoredPaired (h : List Obs) : Prop := ∀ id ms, .restored id ms ∈ h → Paired ms

/-! ## Terms -/

/-- What a cell works under: whether the ids of its graph are distinct, and the
tools it may execute. -/
structure Terms where
  cell : GraphCell
  distinct : Prop
  may : String → Prop

namespace Terms

variable (T : Terms)

def id : String := T.cell.id

def limit : Option Nat := T.cell.contract.budget.tokenLimit

/-- The cell's account in a history. -/
def own (h : List Obs) : List Obs := account T.id h

/-- What may be observed of the cell next. Its account is only its own if ids
are distinct. -/
def Allows (h : List Obs) : Obs → Prop
  | .entered id => id = T.id ∧ (T.distinct → T.own h = [])
  | .restored id _ | .called id _ => id = T.id
  | .requested id n ms => id = T.id ∧ (RestoredPaired h → Paired ms) ∧
      (T.distinct → Live T.id (T.own h) ∧ Uncharged T.id n (T.own h))
  | .responded id n _ estimate allowed => id = T.id ∧ (T.distinct → Live T.id (T.own h) ∧
      Uncharged T.id n (T.own h) ∧ ∀ l ∈ T.limit,
        estimate + allowed + (total (ofAttempt Obs.response T.id n) (T.own h)).tokens ≤ l)
  | .charged id n spend => id = T.id ∧ (T.distinct → Live T.id (T.own h) ∧
      Uncharged T.id n (T.own h) ∧
      spend.expense = (total (ofAttempt Obs.response T.id n) (T.own h),
        total (ofAttempt Obs.request T.id n) (T.own h)))
  | .decided _ sig _ => sig.cellId = T.id
  | .appended p _ _ _ => p.OfCell T.id ∧ (T.distinct → ∀ f ∈ p.figure?, Live T.id (T.own h) ∧
      Figure T.id h f.2) ∧ ∀ ref ∈ p.artifact?, ∃ indices, .finished T.id indices ref.digest ∈ h
  | .finished id indices _ => id = T.id ∧ indices = T.cell.acceptanceCriterionIndices
  | .rewrote id _ _ | .passed id _ _ _ => id = T.id
  | .appendFailed _ => True
  | _ => False

variable {T}

/-- A cell's observations belong to its own account or to none. -/
theorem Allows.cell? {h : List Obs} {o : Obs} (ha : T.Allows h o) :
    o.cell? = none ∨ o.cell? = some T.id := by
  cases o with
  | entered id => exact .inr (congrArg some ha.1)
  | requested id n ms => exact .inr (congrArg some ha.1)
  | responded id n spend estimate allowed => exact .inr (congrArg some ha.1)
  | charged id n spend => exact .inr (congrArg some ha.1)
  | appended p current terminal c =>
    obtain ⟨hp, -⟩ := ha
    cases p with
    | cellCompleted id ref usage => exact .inr (congrArg some hp)
    | _ => exact .inl rfl
  | _ => exact .inl rfl

end Terms

theorem Terms.own_note {T : Terms} {o : Obs} (ho : o.cell? = some T.id) (s : St) :
    T.own (s.note o).history = T.own s.history ++ [o] := account_snoc ho

theorem Terms.own_charge (T : Terms) (n : Nat) (spend : Spend) (s : St) :
    T.own (s.charge T.id n spend).history = T.own s.history ++ [.charged T.id n spend] :=
  account_snoc rfl

/-! ## Steps -/

/-- One atomic step of the code of a cell. -/
inductive CellStep (T : Terms) : St → St → Prop where
  | enter (s : St) (h : T.Allows s.history (.entered T.id)) :
    CellStep T s (s.note (.entered T.id))
  | restore {ms : List ModelMessage} (s : St) (h : s.shared.checkpoints.lookup T.id = some ms) :
    CellStep T s (s.note (.restored T.id ms))
  | call (n : Nat) (s : St) : CellStep T s (s.note (.called T.id n))
  | request {n : Nat} {ms : List ModelMessage} (s : St)
    (h : T.Allows s.history (.requested T.id n ms)) : CellStep T s (s.note (.requested T.id n ms))
  | respond {n estimate allowed : Nat} {spend : Spend} (s : St)
    (h : T.Allows s.history (.responded T.id n spend estimate allowed)) :
    CellStep T s (s.note (.responded T.id n spend estimate allowed))
  | row (c : Bool) {p : EventPayload} (s : St)
    (h : T.Allows s.history (.appended p s.currentStatus s.terminalOutcome c)) :
    CellStep T s (s.append c p)
  | rowFailed (p : EventPayload) (s : St) : CellStep T s (s.appendFailed p)
  | charge {n : Nat} {spend : Spend} (s : St) (hm : spend.Metered)
    (h : T.Allows s.history (.charged T.id n spend)) : CellStep T s (s.charge T.id n spend)
  | execute (names : List String) (s : St) (h : ∀ x ∈ names, T.may x) :
    CellStep T s (s.markExecuted T.id names)
  | rewrite (ms : List ModelMessage) (s : St) : CellStep T s (s.noteRewrite T.id ms)
  | pass (n : Nat) (passage : Passage) (ms : List ModelMessage) (s : St) :
    CellStep T s (s.pass T.id n passage ms)
  | decide (failure : FailureType) {sig : AttemptSignature} (s : St) (h : sig.cellId = T.id) :
    CellStep T s (s.decide failure sig)
  | checkpoint {ms : List ModelMessage} (s : St) (h : RestoredPaired s.history → Paired ms) :
    CellStep T s (s.writeCheckpoint T.id ms)
  | clear (s : St) : CellStep T s (s.clearCheckpoint T.id)
  | finish (names : List String) (digest : String) (s : St) :
    CellStep T s (s.finishCell T.id names T.cell.acceptanceCriterionIndices digest)

/-! ## Frame -/

/-- What only grows while a run goes on. -/
structure Grows (s t : St) : Prop where
  log : s.log <+: t.log
  history : s.history <+: t.history
  toolsUsed : s.toolsUsed <+: t.toolsUsed

/-- Besides, what no cell touches. -/
structure Frame (s t : St) : Prop extends Grows s t where
  currentStatus : t.currentStatus = s.currentStatus
  terminalOutcome : t.terminalOutcome = s.terminalOutcome
  completedIds : t.completedIds = s.completedIds
  failedIds : t.failedIds = s.failedIds

theorem Grows.of_eq {s t : St} (hl : t.log = s.log) (hh : t.history = s.history)
    (ht : t.toolsUsed = s.toolsUsed) : Grows s t :=
  ⟨hl ▸ List.prefix_rfl, hh ▸ List.prefix_rfl, ht ▸ List.prefix_rfl⟩

theorem Grows.refl (s : St) : Grows s s := Grows.of_eq rfl rfl rfl

theorem Grows.trans {s t u : St} (h : Grows s t) (h' : Grows t u) : Grows s u :=
  ⟨h.log.trans h'.log, h.history.trans h'.history, h.toolsUsed.trans h'.toolsUsed⟩

theorem Avoids.of_grows {bad : Obs → Bool} {s t : St} (h : Avoids bad t) (hg : Grows s t) :
    Avoids bad s := fun o ho => h o (hg.history.subset ho)

theorem Frame.refl (s : St) : Frame s s := ⟨Grows.refl s, rfl, rfl, rfl, rfl⟩

theorem Frame.trans {s t u : St} (h : Frame s t) (h' : Frame t u) : Frame s u where
  toGrows := h.toGrows.trans h'.toGrows
  currentStatus := h'.currentStatus.trans h.currentStatus
  terminalOutcome := h'.terminalOutcome.trans h.terminalOutcome
  completedIds := h'.completedIds.trans h.completedIds
  failedIds := h'.failedIds.trans h.failedIds

theorem St.frame_note (o : Obs) (s : St) : Frame s (s.note o) :=
  ⟨⟨List.prefix_rfl, List.prefix_append _ _, List.prefix_rfl⟩, rfl, rfl, rfl, rfl⟩

theorem St.frame_append (c : Bool) (p : EventPayload) (s : St) : Frame s (s.append c p) :=
  ⟨⟨List.prefix_append _ _, List.prefix_append _ _, List.prefix_rfl⟩, rfl, rfl, rfl, rfl⟩

theorem St.frame_charge (id : String) (n : Nat) (spend : Spend) (s : St) :
    Frame s (s.charge id n spend) :=
  ⟨⟨List.prefix_rfl, List.prefix_append _ _, List.prefix_rfl⟩, rfl, rfl, rfl, rfl⟩

section

variable {T : Terms} {s t u : St}

theorem CellStep.frame (h : CellStep T s t) : Frame s t := by
  cases h with
  | enter => exact s.frame_note _
  | restore => exact s.frame_note _
  | call => exact s.frame_note _
  | request => exact s.frame_note _
  | respond => exact s.frame_note _
  | row c h => exact s.frame_append c _
  | rowFailed p => exact s.frame_note _
  | charge => exact s.frame_charge _ _ _
  | execute => exact ⟨Grows.of_eq rfl rfl rfl, rfl, rfl, rfl, rfl⟩
  | rewrite | pass => exact s.frame_note _
  | decide failure h =>
    exact ⟨⟨List.prefix_rfl, List.prefix_append _ _, List.prefix_rfl⟩, rfl, rfl, rfl, rfl⟩
  | checkpoint => exact ⟨Grows.of_eq rfl rfl rfl, rfl, rfl, rfl, rfl⟩
  | clear => exact ⟨Grows.of_eq rfl rfl rfl, rfl, rfl, rfl, rfl⟩
  | finish names digest =>
    exact ⟨⟨List.prefix_rfl, List.prefix_append _ _, List.prefix_append _ _⟩, rfl, rfl, rfl, rfl⟩

/-- A step observes at most one thing, which the cell's terms allow. -/
theorem CellStep.observes (h : CellStep T s t) :
    t.history = s.history ∨ ∃ o, t.history = s.history ++ [o] ∧ T.Allows s.history o := by
  cases h with
  | enter _ h => exact .inr ⟨_, rfl, h⟩
  | restore _ h => exact .inr ⟨_, rfl, rfl⟩
  | call n => exact .inr ⟨_, rfl, rfl⟩
  | request _ h => exact .inr ⟨_, rfl, h⟩
  | decide _ _ h => exact .inr ⟨_, rfl, h⟩
  | respond _ h => exact .inr ⟨_, rfl, h⟩
  | row c _ h => exact .inr ⟨_, rfl, h⟩
  | rowFailed p => exact .inr ⟨_, rfl, trivial⟩
  | charge _ _ h => exact .inr ⟨_, rfl, h⟩
  | rewrite | pass => exact .inr ⟨_, rfl, rfl⟩
  | finish names digest => exact .inr ⟨_, rfl, rfl, rfl⟩
  | _ => exact .inl rfl

/-- What holds of a history holds behind a step, if it holds of what the cell's
terms allow. -/
theorem CellStep.forall_history {P : Obs → Prop} (h : CellStep T s t)
    (hs : ∀ o ∈ s.history, P o) (hn : ∀ o, T.Allows s.history o → P o) : ∀ o ∈ t.history, P o := by
  rcases h.observes with he | ⟨o, he, ha⟩
  · exact he ▸ hs
  · intro x hx
    rw [he] at hx
    rcases List.mem_append.mp hx with hx | hx
    · exact hs x hx
    · exact List.mem_singleton.mp hx ▸ hn o ha

/-- A step records at most one row, about the cell. -/
theorem CellStep.log (h : CellStep T s t) :
    t.log = s.log ∨ ∃ p : EventPayload, t.log = s.log ++ [p.stored] ∧ p.OfCell T.id := by
  cases h with
  | row c _ h => exact .inr ⟨_, rfl, h.1⟩
  | _ => exact .inl rfl

theorem CellStep.recorded (h : CellStep T s t) (hs : s.Recorded) : t.Recorded := by
  cases h with
  | row c _ _ => exact hs.append c _
  | enter | restore | call | request | respond | rowFailed | rewrite | pass => exact hs.note rfl
  | decide => exact St.Recorded.note (s := { s with shared := _ }) hs rfl
  | charge => exact St.Recorded.note (s := { s with usage := _, auth := _ }) hs rfl
  | finish => exact St.Recorded.note (s := { s with toolsUsed := _, evidenceDigests := _ }) hs rfl
  | _ => exact hs

/-- A step of one cell executes nothing for another. -/
theorem CellStep.executedFor {id : String} (h : CellStep T s t) (hj : T.id ≠ id) :
    t.shared.executedFor id = s.shared.executedFor id := by
  cases h with
  | execute names =>
    simp [St.markExecuted, Shared.executedFor, List.filter_append, List.filter_map,
      Function.comp_def, hj]
  | _ => rfl

/-- A step of one cell adds nothing to another's account. -/
theorem CellStep.account_eq {id : String} (h : CellStep T s t) (hj : T.id ≠ id) :
    account id t.history = account id s.history := by
  rcases h.observes with he | ⟨o, he, ha⟩
  · rw [he]
  · rw [he, account_snoc_of_ne]
    rcases ha.cell? with hc | hc
    · simp [hc]
    · simpa [hc] using hj

/-! ## Usage and charges -/

/-- The usage went up by what the history was charged. -/
def Accrues (s t : St) : Prop :=
  ∃ new, t.history = s.history ++ new ∧ t.usage.expense = s.usage.expense + total Obs.charge new

theorem Accrues.refl (s : St) : Accrues s s := ⟨[], by simp, by simp⟩

theorem Accrues.trans (h : Accrues s t) (h' : Accrues t u) : Accrues s u := by
  obtain ⟨new, hh, hu⟩ := h
  obtain ⟨new', hh', hu'⟩ := h'
  refine ⟨new ++ new', by rw [hh', hh, List.append_assoc], ?_⟩
  rw [hu', hu, total_append, add_assoc]

theorem Accrues.of_eq (hh : t.history = s.history) (hu : t.usage = s.usage) : Accrues s t :=
  ⟨[], by simp [hh], by simp [hu]⟩

theorem St.accrues_note {o : Obs} (ho : o.charge = 0) (s : St) : Accrues s (s.note o) :=
  ⟨[o], rfl, by simp [ho, St.note]⟩

theorem CellStep.accrues (h : CellStep T s t) : Accrues s t := by
  cases h with
  | enter => exact s.accrues_note rfl
  | restore => exact s.accrues_note rfl
  | call => exact s.accrues_note rfl
  | request => exact s.accrues_note rfl
  | decide => exact ⟨[_], rfl, by simp [St.decide, St.note, Obs.charge]⟩
  | respond => exact s.accrues_note rfl
  | row c h => exact ⟨[_], rfl, by simp [St.append, St.note, Obs.charge]⟩
  | rowFailed p => exact s.accrues_note rfl
  | charge => exact ⟨[_], rfl, by simp [St.charge, St.note, Obs.charge]⟩
  | rewrite | pass => exact s.accrues_note rfl
  | finish names digest =>
    exact ⟨[_], rfl, by simp [St.finishCell, St.note, Obs.charge]⟩
  | _ => exact .of_eq rfl rfl

end

/-! ## Guarantee and rely -/

/-- Any number of steps of the cell. -/
def Own (T : Terms) : St → St → Prop := ReflTransGen (CellStep T)

/-- Any number of steps of its siblings; their ids differ from the cell's if
the graph's ids are distinct. -/
def Others (T : Terms) : St → St → Prop :=
  ReflTransGen fun s t => ∃ U : Terms, (T.distinct → U.id ≠ T.id) ∧ CellStep U s t

/-- What siblings leave alone: the tools executed for a cell, and its account. -/
structure Aside (T : Terms) (s t : St) : Prop extends Grows s t where
  executedFor : T.distinct → t.shared.executedFor T.id = s.shared.executedFor T.id
  own : T.distinct → T.own t.history = T.own s.history

section

variable {T : Terms} {s t u : St}

theorem Aside.refl (s : St) : Aside T s s := ⟨Grows.refl s, fun _ => rfl, fun _ => rfl⟩

theorem Aside.trans (h : Aside T s t) (h' : Aside T t u) : Aside T s u where
  toGrows := h.toGrows.trans h'.toGrows
  executedFor hD := (h'.executedFor hD).trans (h.executedFor hD)
  own hD := (h'.own hD).trans (h.own hD)

theorem Aside.note {o : Obs} (ho : o.cell? = none) (s : St) : Aside T s (s.note o) where
  toGrows := (s.frame_note o).toGrows
  executedFor _ := rfl
  own _ := account_snoc_of_ne (by simp [ho])

theorem Aside.of_eq (hg : Grows s t) (hh : t.history = s.history)
    (he : t.shared.executed = s.shared.executed) : Aside T s t where
  toGrows := hg
  executedFor _ := by simp only [Shared.executedFor, he]
  own _ := by rw [hh]

theorem aside_finishCell (names : List String) (indices : List Int) (digest : String) (s : St) :
    Aside T s (s.finishCell T.id names indices digest) where
  toGrows := ⟨List.prefix_rfl, List.prefix_append _ _, List.prefix_append _ _⟩
  executedFor _ := rfl
  own _ := account_snoc_of_ne (by simp [Obs.cell?])

theorem Others.frame (h : Others T s t) : Frame s t := by
  induction h with
  | refl => exact Frame.refl s
  | tail _ hst ih =>
    obtain ⟨U, -, hU⟩ := hst
    exact ih.trans hU.frame

theorem Others.aside (h : Others T s t) : Aside T s t := by
  induction h with
  | refl => exact Aside.refl s
  | tail _ hst ih =>
    obtain ⟨U, hne, hU⟩ := hst
    exact ih.trans ⟨hU.frame.toGrows, fun hD => hU.executedFor (hne hD),
      fun hD => hU.account_eq (hne hD)⟩

theorem Others.of_own {U : Terms} (hne : T.distinct → U.id ≠ T.id) (h : Own U s t) :
    Others T s t :=
  ReflTransGen.mono (fun _ _ hst => ⟨U, hne, hst⟩) _ _ h

theorem Own.accrues (h : Own T s t) : Accrues s t := by
  induction h with
  | refl => exact Accrues.refl s
  | tail _ hst ih => exact ih.trans hst.accrues

theorem Others.accrues (h : Others T s t) : Accrues s t := by
  induction h with
  | refl => exact Accrues.refl s
  | tail _ hst ih =>
    obtain ⟨U, -, hU⟩ := hst
    exact ih.trans hU.accrues

end

/-! ## The audit of one cell -/

/-- No conversation of the history was started, restarted or compacted without
naming every tool executed for its cell. -/
def KeepsNames (history : List Obs) : Prop :=
  ∀ o ∈ history, ∀ id executed named, o = .rewrote id executed named → executed ⊆ named

theorem KeepsNames.of_prefix {h h' : List Obs} (hp : h <+: h') (hk : KeepsNames h') :
    KeepsNames h :=
  fun o ho => hk o (hp.subset ho)

/-- The conversation names every tool executed for the cell. -/
def Audited (T : Terms) (ms : List ModelMessage) (s : St) : Prop :=
  T.distinct → KeepsNames s.history → s.shared.executedFor T.id ⊆ toolNames ms

/-- The run's audit has every tool executed for the cell. -/
def Kept (T : Terms) (s : St) : Prop :=
  T.distinct → KeepsNames s.history → s.shared.executedFor T.id ⊆ s.toolsUsed

section

variable {T : Terms} {ms : List ModelMessage} {s t : St}

theorem Audited.mono (h : Audited T ms s) (ha : Aside T s t) : Audited T ms t := by
  intro hD hk
  rw [ha.executedFor hD]
  exact h hD (hk.of_prefix ha.history)

theorem Audited.more {ns : List ModelMessage} (h : Audited T ms s)
    (hn : toolNames ms ⊆ toolNames ns) : Audited T ns s :=
  fun hD hk => List.Subset.trans (h hD hk) hn

theorem Kept.mono (h : Kept T s) (ha : Aside T s t) : Kept T t := by
  intro hD hk
  rw [ha.executedFor hD]
  exact List.Subset.trans (h hD (hk.of_prefix ha.history)) ha.toolsUsed.subset

/-- A conversation just (re)started is audited: if it lost a name, the history
is not one that keeps names. -/
theorem audited_noteRewrite : Audited T ms (s.noteRewrite T.id ms) := by
  intro _ hk
  exact hk (.rewrote T.id (s.shared.executedFor T.id) (toolNames ms))
    (by simp [St.noteRewrite, St.note]) _ _ _ rfl

theorem Audited.markExecuted {names : List String} (h : Audited T ms s)
    (hn : names ⊆ toolNames ms) : Audited T ms (s.markExecuted T.id names) := by
  intro hD hk t ht
  simp only [St.markExecuted, Shared.executedFor, List.filter_append, List.map_append,
    List.mem_append] at ht
  rcases ht with ht | ht
  · exact h hD hk ht
  · simp only [List.filter_map, Function.comp_def, decide_true, List.filter_true, List.map_map,
      List.mem_map] at ht
    obtain ⟨a, ha, rfl⟩ := ht
    exact hn ha

theorem Audited.finishCell (h : Audited T ms s) (indices : List Int) (digest : String) :
    Kept T (s.finishCell T.id (toolNames ms) indices digest) :=
  fun hD hk => List.Subset.trans (h hD (hk.of_prefix (List.prefix_append _ _)))
    (List.subset_append_right _ _)

end

/-! ## Rules for the code of a cell -/

/-- If the task returns, its result and the state meet `P`; if it raises, the
state meets `E`. -/
def Ens (T : Terms) (E : St → Prop) {α : Type} (c : CellTask α) (P : α → St → Prop) (s : St) :
    Prop :=
  c.Sat (Own T) (Others T) (fun r t => match r with
    | .ok a => P a t
    | .error _ => E t) s

section Rules

variable {T : Terms} {E : St → Prop} {α β : Type} {s : St}

theorem Ens.mono {c : CellTask α} {P P' : α → St → Prop} (h : ∀ a t, P a t → P' a t)
    (hc : Ens T E c P s) : Ens T E c P' s := by
  refine Co.Sat.mono (fun r t hr => ?_) hc
  cases r with
  | ok a => exact h a t hr
  | error e => exact hr

theorem ens_pure {a : α} {P : α → St → Prop} (h : P a s) : Ens T E (pure a) P s := h

theorem ens_throw {e : Exc} {P : α → St → Prop} (h : E s) :
    Ens T E (throw e : CellTask α) P s := h

theorem ens_block {P : α → St → Prop} (h : ∀ t, Others T s t → E t) :
    Ens T E (.block fun e => .done (.error e) : CellTask α) P s :=
  fun _ t ht => h t ht

theorem ens_bind {c : CellTask β} {g : β → CellTask α} {P : α → St → Prop}
    (h : Ens T E c (fun b t => Ens T E (g b) P t) s) : Ens T E (c >>= g) P s := by
  refine Co.sat_bind (Co.Sat.mono (fun r t hr => ?_) h)
  cases r with
  | ok b => exact hr
  | error e => exact hr

/-- Sequencing behind a specification of the first task. -/
theorem Ens.seq {c : CellTask β} {g : β → CellTask α} {P : β → St → Prop} {P' : α → St → Prop}
    (hc : Ens T E c P s) (h : ∀ b t, P b t → Ens T E (g b) P' t) : Ens T E (c >>= g) P' s :=
  ens_bind (hc.mono h)

theorem ens_get {P : St → St → Prop} (h : P s s) : Ens T E Co.get P s :=
  Co.sat_get ReflTransGen.refl h

theorem ens_modify {f : St → St} {P : Unit → St → Prop} (hstep : CellStep T s (f s))
    (h : P () (f s)) : Ens T E (Co.modify f) P s :=
  Co.sat_modify (ReflTransGen.single hstep) h

theorem ens_suspend {P : Unit → St → Prop} (h : ∀ t, Others T s t → P () t)
    (he : ∀ t, Others T s t → E t) : Ens T E Co.suspend P s :=
  Co.sat_suspend h fun _ t ht => he t ht

/-- The usage accrues what is charged, whoever is charged. -/
theorem Ens.accrues {c : CellTask α} {P : α → St → Prop} (hc : Ens T E c P s) :
    Ens T E c (fun a t => P a t ∧ Accrues s t) s := by
  refine Co.Sat.mono (fun r t hr => ?_) (Co.Sat.frame Accrues.refl Accrues.trans
    (fun _ _ => Own.accrues) (fun _ _ => Others.accrues) hc)
  cases r with
  | ok a => exact hr
  | error e => exact hr.1

/-- An append: the row is stored behind whatever the siblings did before. -/
theorem emitCell_sat {p : EventPayload} {Q : Except Exc Unit → St → Prop}
    (hp : ∀ t c, Others T s t → T.Allows t.history (.appended p t.currentStatus t.terminalOutcome c))
    (hok : ∀ t, Others T s t → Q (.ok ()) (t.append false p))
    (hc : ∀ e t, Others T s t → Q (.error e) (t.append true p))
    (hf : ∀ e t, Others T s t → Q (.error e) (t.appendFailed p)) :
    (emitCell p).Sat (Own T) (Others T) Q s := by
  intro w t ht
  have hrow := fun c => ReflTransGen.single (CellStep.row c t (hp t c ht))
  have hfail := ReflTransGen.single (CellStep.rowFailed p t : CellStep T t _)
  cases w with
  | resume => exact ⟨hrow false, hok t ht⟩
  | raise e =>
    cases e with
    | cancelled note =>
      cases note with
      | none => exact ⟨hrow true, hc _ t ht⟩
      | some n => exact ⟨hfail, hf _ t ht⟩
    | exception kind message => exact ⟨hfail, hf _ t ht⟩

/-- A row that reports no usage. -/
theorem allows_row {p : EventPayload} {h : List Obs} {current : RunStatus}
    {terminal : Option RunOutcome} {c : Bool} (hp : p.OfCell T.id) (hf : p.figure? = none) :
    T.Allows h (.appended p current terminal c) :=
  ⟨hp, fun _ f hf' => (by rw [hf] at hf'; cases hf'),
    fun ref href => (by rw [EventPayload.artifact?_of_figure hf] at href; cases href)⟩

theorem aside_append {p : EventPayload} (hf : p.figure? = none) (c : Bool) (s : St) :
    Aside T s (s.append c p) where
  toGrows := (s.frame_append c p).toGrows
  executedFor _ := rfl
  own _ := account_snoc_of_ne (by simp [Obs.cell?, hf])

theorem Others.append {p : EventPayload} {t : St} (ht : Others T s t) (hf : p.figure? = none)
    (c : Bool) : Aside T s (t.append c p) :=
  ht.aside.trans (aside_append hf c t)

theorem Others.appendFailed {t : St} (ht : Others T s t) (p : EventPayload) :
    Aside T s (t.appendFailed p) :=
  ht.aside.trans (Aside.note rfl t)

/-- A row that reports no usage leaves alone what siblings leave alone. -/
theorem ens_emitCell {p : EventPayload} {P : Unit → St → Prop} (hp : p.OfCell T.id)
    (hf : p.figure? = none) (h : ∀ t, Aside T s t → P () t) (he : ∀ t, Aside T s t → E t) :
    Ens T E (emitCell p) P s := by
  refine emitCell_sat (fun t c _ => allows_row hp hf) ?_ ?_ ?_
  · exact fun t ht => h _ (ht.append hf false)
  · exact fun e t ht => he _ (ht.append hf true)
  · exact fun e t ht => he _ (ht.appendFailed p)

end Rules
end Northstack
