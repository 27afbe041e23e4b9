import Mathlib
import Northstack.Application.CellSteps
import Northstack.Application.RouteOrder
import Northstack.Application.WorkerSteps

/-!
# How often a cell calls its worker

`run_cell` goes round its loop until an attempt succeeds or an action ends the
cell. What ends it is the policy's table: an action that goes on was chosen for
a signature seen less than twice (`nextAction_continues`), a choice counts its
signature once more, and nothing ever lowers a count (`Raises`). The signatures
of a cell differ only in the profile, and every profile it is ever routed to
was eligible from the start (`route_eligible`).

**Result.** `run_cell_calls`: whatever happens in the attempts and at the awaits
between them, with `P` eligible profiles the worker is called at most `2 P + 1`
times, and at most `max_retries + 1` times if `max_retries` is set.
-/
namespace Northstack

open Coop CellRunner Relation

/-! ## The table -/

/-- Nothing was taken out of the table. -/
def Raises (s t : St) : Prop := ∀ key, s.shared.seen.count key ≤ t.shared.seen.count key

theorem Raises.refl (s : St) : Raises s s := fun _ => le_refl _

theorem Raises.trans {s t u : St} (h : Raises s t) (h' : Raises t u) : Raises s u :=
  fun key => (h key).trans (h' key)

theorem count_nextAction (seen : Seen) (failure : FailureType) (sig : AttemptSignature)
    (key : String) : (nextAction seen failure sig).2.count key =
      seen.count key + if key = sigKey sig then 1 else 0 := by
  unfold nextAction Seen.count
  dsimp only
  rw [List.lookup_cons]
  by_cases hk : key = sigKey sig
  · subst hk
    simp
  · rw [if_neg hk, beq_eq_false_iff_ne.mpr hk]
    rfl

theorem St.raises_decide (failure : FailureType) (sig : AttemptSignature) (s : St) :
    Raises s (s.decide failure sig) := by
  intro key
  show _ ≤ (nextAction s.shared.seen failure sig).2.count key
  rw [count_nextAction]
  omega

/-- What siblings do to the table. -/
theorem CellStep.raises {T : Terms} {s t : St} (h : CellStep T s t) : Raises s t := by
  cases h with
  | decide failure _ => exact s.raises_decide failure _
  | _ => exact Raises.refl s

theorem Others.raises {T : Terms} {s t : St} (h : Others T s t) : Raises s t := by
  induction h with
  | refl => exact Raises.refl s
  | tail _ hst ih =>
    obtain ⟨U, -, hU⟩ := hst
    exact ih.trans hU.raises

theorem recoveryPolicy_ends (failure : FailureType) : ∀ i < 4,
    2 ≤ i ∨ i = (recoveryPolicy failure).length - 1 → i < (recoveryPolicy failure).length →
      ¬ Continues ((recoveryPolicy failure).getD i .terminate) := by
  cases failure <;> decide

theorem recoveryPolicy_length (failure : FailureType) :
    0 < (recoveryPolicy failure).length ∧ (recoveryPolicy failure).length ≤ 4 := by
  cases failure <;> decide

/-- **Ladders.** From its third rung on every ladder ends the cell. -/
theorem nextAction_continues {seen : Seen} {failure : FailureType} {sig : AttemptSignature}
    (h : Continues (nextAction seen failure sig).1) : seen.count (sigKey sig) < 2 := by
  by_contra hge
  have hlen := recoveryPolicy_length failure
  refine recoveryPolicy_ends failure
    (min (seen.count (sigKey sig)) ((recoveryPolicy failure).length - 1)) ?_ ?_ ?_ h
  · omega
  · omega
  · omega

/-! ## Eligible profiles -/

/-- The profiles the router may select for the cell, whatever was spent. -/
def eligible (c : CellInput) : List ModelProfile :=
  c.config.profiles.filter fun profile =>
    (scoreProfile c.config profile c.cell none
      (needs c ++ c.cell.requiredCapabilities.filterMap Capability.ofValue)).isSome

/-- A budget only takes candidates away. -/
theorem scoreProfile_budget {config : NorthStackConfig} {profile : ModelProfile} {cell : GraphCell}
    {remaining : Option RemainingBudget} {caps : List Capability} {x : Candidate}
    (h : scoreProfile config profile cell remaining caps = some x) :
    scoreProfile config profile cell none caps = some x := by
  obtain ⟨order, horder, hcaps, -, rfl⟩ := Routing.scoreProfile_eq_some.mp h
  have hafforded : ¬ Routing.CutByBudget profile none := by simp [Routing.CutByBudget]
  exact Routing.scoreProfile_eq_some.mpr ⟨order, horder, hcaps, hafforded, rfl⟩

/-- **Routes.** A decision that did not abstain names an eligible profile. -/
theorem route_eligible {c : CellInput} {remaining : Option RemainingBudget} {excluded : List String}
    (h : (route c.config c.cell remaining excluded (needs c)).abstained = false) :
    (route c.config c.cell remaining excluded (needs c)).selectedProfile ∈
      (eligible c).map (·.name) := by
  obtain ⟨profile, hmem, -, hname, hscore⟩ := route_selected h
  obtain ⟨x, hx⟩ := Option.isSome_iff_exists.mp hscore
  rw [hname]
  refine List.mem_map_of_mem (List.mem_filter.mpr ⟨hmem, ?_⟩)
  rw [scoreProfile_budget hx]
  rfl

/-! ## What a profile has left -/

/-- The table's key for an attempt with a profile. -/
def profileKey (c : CellInput) (name : String) : String :=
  sigKey (signature c { cellId := c.cell.id, selectedProfile := name })

/-- How many failures the table still lets pass for a profile. -/
def left (c : CellInput) (s : St) (name : String) : Nat :=
  2 - s.shared.seen.count (profileKey c name)

/-- How many it still lets pass for the cell. -/
def slack (c : CellInput) (s : St) : Nat := (((eligible c).map (·.name)).map (left c s)).sum

section

variable {c : CellInput} {s t u : St}

theorem left_mono (h : Raises s t) (name : String) : left c t name ≤ left c s name := by
  have hk := h (profileKey c name)
  unfold left
  omega

theorem slack_mono (h : Raises s t) : slack c t ≤ slack c s :=
  List.sum_le_sum fun name _ => left_mono h name

theorem slack_le (c : CellInput) (s : St) : slack c s ≤ 2 * (eligible c).length := by
  have h : (((eligible c).map (·.name)).map (left c s)).sum ≤
      (((eligible c).map (·.name)).map fun _ => 2).sum :=
    List.sum_le_sum fun name _ => Nat.sub_le 2 _
  simp only [List.map_map, List.map_const', Function.comp_def, List.sum_replicate,
    smul_eq_mul] at h
  unfold slack
  simp only [List.map_map, Function.comp_def] at h ⊢
  omega

/-- A failure that does not end the cell takes one from what is left. -/
theorem slack_decide {failure : FailureType} {d : RouteDecision}
    (hd : d.selectedProfile ∈ (eligible c).map (·.name)) (hsu : Raises s u)
    (hgo : Continues (nextAction u.shared.seen failure (signature c d)).1)
    (hut : Raises (u.decide failure (signature c d)) t) : slack c t + 1 ≤ slack c s := by
  have hcount := nextAction_continues hgo
  have hkey : sigKey (signature c d) = profileKey c d.selectedProfile := rfl
  have hone : left c t d.selectedProfile < left c s d.selectedProfile := by
    have h1 := hsu (profileKey c d.selectedProfile)
    have h2 : (nextAction u.shared.seen failure (signature c d)).2.count
        (profileKey c d.selectedProfile) ≤ _ := hut (profileKey c d.selectedProfile)
    rw [count_nextAction, if_pos hkey.symm] at h2
    rw [hkey] at hcount
    unfold left
    omega
  have hle : Raises s t := hsu.trans ((u.raises_decide failure _).trans hut)
  exact List.sum_lt_sum _ _ (fun name _ => left_mono hle name) ⟨_, hd, hone⟩

end

/-! ## What calls no worker -/

def Obs.calls (cell : String) : Obs → Bool
  | .called i _ => i = cell
  | _ => false

/-- How often a step called the worker for the cell. -/
def newCalls (cell : String) (s t : St) : Nat :=
  ((t.history.drop s.history.length).filter (Obs.calls cell)).length

/-- An update that calls no worker and takes nothing out of the table. -/
def Idle (cell : String) (f : St → St) : Prop := ∀ s, newCalls cell s (f s) = 0 ∧ Raises s (f s)

section

variable {cell : String}

theorem newCalls_note (o : Obs) (s t : St) (h : t.history = s.history ++ [o]) :
    newCalls cell s t = if o.calls cell then 1 else 0 := by
  unfold newCalls
  rw [h, List.drop_left]
  by_cases ho : o.calls cell = true <;> simp [ho]

theorem idle_of_eq {f : St → St} (hh : ∀ s, (f s).history = s.history)
    (hs : ∀ s, (f s).shared.seen = s.shared.seen) : Idle cell f := by
  refine fun s => ⟨?_, fun key => by rw [hs]⟩
  unfold newCalls
  rw [hh, List.drop_length]
  rfl

theorem idle_of_note {f : St → St} {o : St → Obs} (hh : ∀ s, (f s).history = s.history ++ [o s])
    (ho : ∀ s, (o s).calls cell = false) (hs : ∀ s, (f s).shared.seen = s.shared.seen) :
    Idle cell f := by
  refine fun s => ⟨?_, fun key => by rw [hs]⟩
  rw [newCalls_note (o s) s _ (hh s), ho]
  rfl

theorem idle_id : Idle cell id := idle_of_eq (fun _ => rfl) fun _ => rfl

theorem idle_note {o : Obs} (ho : o.calls cell = false) : Idle cell (St.note o) :=
  idle_of_note (o := fun _ => o) (fun _ => rfl) (fun _ => ho) fun _ => rfl

theorem idle_decide (failure : FailureType) (sig : AttemptSignature) :
    Idle cell (St.decide failure sig) := by
  intro s
  refine ⟨?_, s.raises_decide failure sig⟩
  rw [newCalls_note _ s _ rfl]
  rfl

theorem idle_noteRestored (i : String) (ms : Option (List ModelMessage)) :
    Idle cell (St.noteRestored i ms) := by
  cases ms with
  | none => exact idle_id
  | some ms => exact idle_note rfl

theorem idle_append (cancelled : Bool) (p : EventPayload) : Idle cell (St.append cancelled p) :=
  idle_of_note (o := fun s => .appended p s.currentStatus s.terminalOutcome cancelled)
    (fun _ => rfl) (fun _ => rfl) fun _ => rfl

theorem emitCell_idle (p : EventPayload) : (emitCell p).All (Idle cell) :=
  emitCell_all (fun c => idle_append c p) (idle_note rfl)


/-- An attempt calls no worker itself. -/
theorem workerSteps_idle (w : WorkerInput) : WorkerSteps w (Idle cell) where
  passed _ _ := idle_note rfl
  requested _ := idle_note rfl
  responded _ _ _ := idle_note rfl
  rewrote _ := idle_of_note (o := fun s => .rewrote w.cell.id (s.shared.executedFor w.cell.id) _)
    (fun _ => rfl) (fun _ => rfl) fun _ => rfl
  executed _ := idle_of_eq (fun _ => rfl) fun _ => rfl
  saved _ := idle_of_eq (fun _ => rfl) fun _ => rfl
  progressed c _ _ _ := idle_append c _
  failed _ := idle_note rfl

end

/-! ## The loop -/

/-- The task may call the worker `n` times more; if it returns, its result, what
is left of the `n`, and the state meet `P`. -/
def Spends (c : CellInput) {α : Type} (task : CellTask α) (P : α → Nat → St → Prop) (n : Nat)
    (s : St) : Prop :=
  task.Costs (newCalls c.cell.id) Raises (fun r m t => match r with
    | .ok a => P a m t
    | .error _ => True) n s

section

variable {c : CellInput} {α β : Type} {n k : Nat} {s : St}

theorem spends_pure {a : α} {P : α → Nat → St → Prop} (h : P a n s) :
    Spends c (pure a) P n s := h

theorem spends_bind {m : CellTask β} {g : β → CellTask α} {P : β → Nat → St → Prop}
    {Q : α → Nat → St → Prop} (hm : Spends c m P n s)
    (hg : ∀ b k t, P b k t → Spends c (g b) Q k t) : Spends c (m >>= g) Q n s := by
  refine Co.costs_bind (Co.Costs.mono (fun r k t hr => ?_) hm)
  cases r with
  | ok b => exact hg b k t hr
  | error e => trivial

theorem spends_get {g : St → CellTask α} {Q : α → Nat → St → Prop} (hg : Spends c (g s) Q n s) :
    Spends c (Co.get >>= g) Q n s := by
  refine Co.costs_bind (Co.costs_get ?_ hg)
  unfold newCalls
  rw [List.drop_length]
  rfl

theorem spends_modify {f : St → St} {g : Unit → CellTask α} {Q : α → Nat → St → Prop}
    (hf : Idle c.cell.id f) (hg : Spends c (g ()) Q n (f s)) :
    Spends c (Co.modify f >>= g) Q n s := by
  have hfree := (hf s).1
  refine Co.costs_bind (Co.costs_modify (by omega) ?_)
  rw [hfree]
  exact hg

/-- What calls no worker leaves what is allowed. -/
theorem spends_idle {m : CellTask α} (hm : m.All (Idle c.cell.id)) :
    Spends c m (fun _ k t => k = n ∧ Raises s t) n s := by
  refine hm.costs Raises.refl Raises.trans (fun f hf u => hf u) fun r t ht => ?_
  cases r with
  | ok a => exact ⟨rfl, ht⟩
  | error e => trivial

theorem spends_then {m : CellTask β} {g : β → CellTask α} {Q : α → Nat → St → Prop}
    (hm : m.All (Idle c.cell.id)) (hg : ∀ b t, Raises s t → Spends c (g b) Q n t) :
    Spends c (m >>= g) Q n s := by
  refine spends_bind (spends_idle hm) fun b k t ht => ?_
  obtain ⟨rfl, ht⟩ := ht
  exact hg b t ht

/-- The chosen action goes on only below the cap, and the policy chose it for
the attempt's signature. -/
def Chosen (c : CellInput) (d : RouteDecision) (n : Nat) (s : St) (action : RecoveryAction)
    (t : St) : Prop :=
  Continues action → (c.contract.budget.maxRetries ≠ 0 → n < c.contract.budget.maxRetries) ∧
    ∃ u failure, Raises s u ∧ action = (nextAction u.shared.seen failure (signature c d)).1 ∧
      Raises (u.decide failure (signature c d)) t

theorem emitRecovery_idle (f : AttemptFailure) (action : RecoveryAction) (n : Nat) :
    (emitRecovery c f action n).All (Idle c.cell.id) := emitCell_idle _

theorem handleCellFailure_spends (f : AttemptFailure) (d : RouteDecision)
    (hcap : c.contract.budget.maxRetries ≠ 0 → n < c.contract.budget.maxRetries) :
    Spends c (handleCellFailure c f d n) (fun action m t => m = k ∧ Chosen c d n s action t)
      k s := by
  unfold handleCellFailure
  split
  · exact spends_then (emitRecovery_idle _ _ _) fun _ t ht =>
      spends_pure ⟨rfl, fun hgo => absurd hgo (by decide)⟩
  · rename_i hbudget
    refine spends_get (spends_then (emitRecovery_idle _ _ _) fun _ t ht => spends_pure ⟨rfl, ?_⟩)
    exact fun hgo => absurd hgo (decideRecovery_stops hbudget _ _)
  · refine spends_get (spends_modify (idle_decide _ _) ?_)
    refine spends_then (emitRecovery_idle _ _ _) fun _ t ht => spends_pure ⟨rfl, fun _ => ?_⟩
    exact ⟨hcap, s, _, Raises.refl s, rfl, ht⟩

theorem chooseAction_spends (f : AttemptFailure) (d : RouteDecision) :
    Spends c (chooseAction c f d n) (fun action m t => m = k ∧ Chosen c d n s action t) k s := by
  unfold chooseAction
  split
  · exact spends_then (emitRecovery_idle _ _ _) fun _ t ht =>
      spends_pure ⟨rfl, fun hgo => absurd hgo (by decide)⟩
  · rename_i hcap
    refine handleCellFailure_spends f d fun hne => ?_
    by_contra hge
    exact hcap ⟨hne, by omega⟩

/-- What a failed attempt leads to: behind each further attempt less is left. -/
def Further (c : CellInput) (n : Nat) (s : St) : CellResult ⊕ RouteDecision → St → Prop
  | .inl _, _ => True
  | .inr d, t => d.selectedProfile ∈ (eligible c).map (·.name) ∧ slack c t + 1 ≤ slack c s ∧
      (c.contract.budget.maxRetries ≠ 0 → n < c.contract.budget.maxRetries)

theorem recover_spends (f : AttemptFailure) {d : RouteDecision}
    (hd : d.selectedProfile ∈ (eligible c).map (·.name)) :
    Spends c (recover c f d n) (fun next m t => m = k ∧ Further c n s next t) k s := by
  unfold recover
  refine spends_bind (chooseAction_spends f d) fun action m t ht => ?_
  obtain ⟨rfl, ht⟩ := ht
  have hfar : Continues action → ∀ {d' : RouteDecision} {v : St}, Raises t v →
      d'.selectedProfile ∈ (eligible c).map (·.name) → Further c n s (.inr d') v := by
    intro hgo d' v htv hd'
    obtain ⟨hcap, u, failure, hsu, haction, hut⟩ := ht hgo
    rw [haction] at hgo
    exact ⟨hd', slack_decide hd hsu hgo (hut.trans htv), hcap⟩
  have hfail : ∀ {v : St} {detail : String}, Spends c
      (failCell c f detail action >>= fun r => pure (.inl r))
      (fun next m' v' => m' = m ∧ Further c n s next v') m v :=
    spends_then (Co.all_bind (emitCell_idle _) fun _ => Co.all_pure)
      fun _ _ _ => spends_pure ⟨rfl, trivial⟩
  split
  · rename_i hretry
    exact spends_then Co.all_suspend fun _ v hv => spends_pure ⟨rfl, hfar (.inl hretry) hv hd⟩
  · split
    · rename_i hreroute
      refine spends_get ?_
      dsimp only
      split
      · rename_i hroute
        exact spends_then (emitCell_idle _) fun _ v hv =>
          spends_pure ⟨rfl, hfar (.inr hreroute) hv (route_eligible hroute)⟩
      · split
        · refine spends_then (emitRecovery_idle _ _ _) fun _ v hv => ?_
          exact spends_then Co.all_suspend fun _ x hx =>
            spends_pure ⟨rfl, hfar (.inr hreroute) (hv.trans hx) hd⟩
        · exact hfail
    · exact hfail

theorem completeCell_idle (before : BudgetUsage) (r : WorkerResult) :
    (completeCell c before r).All (Idle c.cell.id) := by
  unfold completeCell
  refine Co.all_bind Co.all_suspend fun _ => ?_
  refine Co.all_bind (Co.all_modify (idle_of_eq (fun _ => rfl) fun _ => rfl)) fun _ => ?_
  have hfinish : Idle c.cell.id (St.finishCell c.cell.id (toolNames r.messages)
      c.cell.acceptanceCriterionIndices (c.store (if r.text = "" then "{}" else r.text)).digest) :=
    idle_of_note (fun _ => rfl) (fun _ => rfl) fun _ => rfl
  refine Co.all_bind (Co.all_modify hfinish) fun _ => ?_
  exact Co.all_bind (Co.all_get idle_id) fun _ =>
    Co.all_bind (emitCell_idle _) fun _ => Co.all_pure

/-- Enough is allowed for the attempts from the `n`-th on. -/
def Enough (c : CellInput) (n : Nat) (s : St) (m : Nat) : Prop :=
  slack c s + 1 ≤ m ∨ c.contract.budget.maxRetries ≠ 0 ∧
    n ≤ c.contract.budget.maxRetries ∧ c.contract.budget.maxRetries + 1 - n ≤ m

theorem attempts_spends (before : BudgetUsage) (script : List Attempt) :
    ∀ {n m : Nat} {d : RouteDecision} {resume : Option (List ModelMessage)} {s : St},
    d.selectedProfile ∈ (eligible c).map (·.name) → Enough c n s m →
    Spends c (attempts c before script n d resume) (fun _ _ _ => True) m s := by
  have hcall : ∀ (n : Nat) (s : St), newCalls c.cell.id s (s.note (.called c.cell.id n)) = 1 := by
    intro n s
    rw [newCalls_note _ s _ rfl, if_pos (by simp [Obs.calls])]
  induction script with
  | nil =>
    intro n m d resume s hd hm
    refine Co.costs_bind (Co.costs_modify ?_ fun _ _ _ => trivial)
    rw [hcall]
    unfold Enough at hm
    omega
  | cons a script ih =>
    intro n m d resume s hd hm
    have hpos : 1 ≤ m := by
      unfold Enough at hm
      omega
    unfold attempts
    refine Co.costs_bind (Co.costs_modify (by rwa [hcall]) ?_)
    rw [hcall]
    have hrec : ∀ {f : AttemptFailure} {p : Passage} {ms : List ModelMessage}
        {carried : Option (List ModelMessage)} {t : St},
        Raises s t → Spends c (recover c f d n >>= fun next =>
          next.elim pure fun d' => Co.modify (St.pass c.cell.id n p ms) >>= fun _ =>
            attempts c before script (n + 1) d' carried)
          (fun _ _ _ => True) (m - 1) t := by
      intro f p ms carried t hst
      refine spends_bind (recover_spends f hd) fun next k u hu => ?_
      obtain ⟨rfl, hu⟩ := hu
      cases next with
      | inl r => exact spends_pure trivial
      | inr d' =>
        obtain ⟨hd', hslack, hcap⟩ := hu
        have hs := slack_mono (c := c) hst
        have hnote : Idle c.cell.id (St.pass c.cell.id n p ms) := idle_note rfl
        have hpass := slack_mono (c := c) (hnote u).2
        refine spends_modify hnote (ih hd' ?_)
        rcases hm with hm | ⟨hne, hn, hm⟩
        · exact .inl (by omega)
        · have hlt := hcap hne
          exact .inr ⟨hne, by omega, by omega⟩
    refine spends_then (runAttempt_all (workerSteps_idle _) a resume) fun attempt t ht => ?_
    cases attempt with
    | error message => exact hrec ht
    | ok r =>
      have hcharge : Idle c.cell.id (St.charge c.cell.id n (WorkerResult.spend r)) :=
        idle_of_note (o := fun _ => .charged c.cell.id n _) (fun _ => rfl) (fun _ => rfl)
          fun _ => rfl
      refine spends_modify hcharge ?_
      split
      · exact Co.Costs.mono (fun r _ _ _ => by cases r <;> trivial)
          (spends_idle (completeCell_idle before r))
      · exact spends_get (hrec ht)

/-- The whole of `run_cell`. -/
theorem runCell_spends (script : List Attempt) {m : Nat}
    (hm : 2 * (eligible c).length + 1 ≤ m ∨ c.contract.budget.maxRetries ≠ 0 ∧
      c.contract.budget.maxRetries + 1 ≤ m) :
    Spends c (runCell c script) (fun _ _ _ => True) m s := by
  unfold runCell
  refine spends_modify (idle_note rfl) (spends_get ?_)
  refine spends_then (emitCell_idle _) fun _ t _ => ?_
  split
  · refine spends_then (emitCell_idle _) fun _ _ _ => spends_pure trivial
  · rename_i hroute
    refine spends_then (emitCell_idle _) fun _ u _ => spends_get ?_
    refine spends_modify (idle_noteRestored _ _) ?_
    refine attempts_spends _ script (route_eligible (by simpa using hroute)) ?_
    have hslack := slack_le c (u.noteRestored c.cell.id (u.shared.checkpoints.lookup c.cell.id))
    rcases hm with hm | ⟨hne, hm⟩
    · exact .inl (by omega)
    · exact .inr ⟨hne, by omega, by omega⟩

end

/-! ## Every run of a cell -/

/-- What the other tasks of a run do at an await of a cell: the table of the
policy they share only grows. -/
structure Siblings extends Gap St Exc where
  raises : ∀ s, Raises s (others s)

/-- The calls of the worker in a run of a cell. -/
def callsIn (c : CellInput) (script : List Attempt) (gaps : List Siblings) (s : St) : Nat :=
  (((runCell c script).play (gaps.map (·.toGap)) s).map fun p =>
    newCalls c.cell.id p.1 p.2).sum

/-- **Attempts.** For every script of attempts, which may return or raise
anything, every table, and whatever the siblings do and wherever exceptions
arrive at the awaits, `run_cell` calls the worker at most twice for each
eligible profile and once more, and at most `max_retries + 1` times if
`max_retries` is set. So it ends: a script of that length is never run out. -/
theorem run_cell_calls (c : CellInput) (script : List Attempt) (gaps : List Siblings) (s : St) :
    callsIn c script gaps s ≤ 2 * (eligible c).length + 1 ∧
      (0 < c.contract.budget.maxRetries →
        callsIn c script gaps s ≤ c.contract.budget.maxRetries + 1) := by
  have hR : ∀ g ∈ gaps.map (·.toGap), ∀ s, Raises s (g.others s) := by
    intro g hg
    obtain ⟨x, -, rfl⟩ := List.mem_map.mp hg
    exact x.raises
  refine ⟨?_, fun hpos => ?_⟩
  · exact Co.Costs.play_le (R := Raises) Raises.trans hR
      (runCell_spends script (.inl (le_refl _)))
  · have hne : c.contract.budget.maxRetries ≠ 0 := by omega
    exact Co.Costs.play_le (R := Raises) Raises.trans hR
      (runCell_spends script (.inr ⟨hne, le_refl _⟩))

end Northstack
