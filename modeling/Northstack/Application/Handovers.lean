import Northstack.Application.Turns
import Northstack.Application.Compaction

/-!
# From attempt to attempt

`run_cell` starts an attempt from what the checkpoint held or from what the
failed attempt before it left. A `Handover` says what holds before and behind
each attempt of a cell and what of it the handing on keeps.

**Result.** `Handover.heard`: what a handover keeps is kept by every run of the
cell.
-/
namespace Northstack

open Coop CellRunner

/-- What is handed on of a failed attempt. -/
def carriedOf (messages : List ModelMessage) : Option (List ModelMessage) :=
  if messages = [] then none else some messages

/-- What holds of the notes of a cell: before its attempts, which resume from a
conversation or from none, and behind them, where they left a result or raised. -/
structure Handover (c : CellInput) where
  keeps : List Obs → Prop
  before : Nat → Option (List ModelMessage) → List Obs → Prop
  behind : Nat → Option WorkerResult → List Obs → Prop
  fresh : keeps [] ∧ before 0 none []
  restored : ∀ ms, keeps [.restored c.cell.id ms] ∧ before 0 (some ms) [.restored c.cell.id ms]
  attempt : ∀ {a n resume told notes result}, before n resume told → keeps told →
    Worked (workerInput c n) a resume notes result →
    (∀ p, p <+: notes → keeps (told ++ p) ∧ behind n none (told ++ p)) ∧
      ∀ r ∈ result, behind n (some r) (told ++ notes)
  handed : ∀ {n r told}, behind n (some r) told → keeps told → r.ok = false →
    r.errorKind ≠ "budget" →
    keeps (told ++ [.passed c.cell.id n (.retried (some r.text)) r.messages]) ∧
      before (n + 1) (carriedOf r.messages)
        (told ++ [.passed c.cell.id n (.retried (some r.text)) r.messages])
  raised : ∀ {n told}, behind n none told → keeps told →
    keeps (told ++ [.passed c.cell.id n (.retried none) []]) ∧
      before (n + 1) none (told ++ [.passed c.cell.id n (.retried none) []])

section

variable {c : CellInput} {I : List Obs → Prop} {told : List Obs}

theorem hears_silent {f : St → St} {Q : Except Exc Unit → List Obs → Prop}
    (hf : ∀ s, turnNotes s (f s) = []) (hI : I told) (hQ : Q (.ok ()) told) :
    (Co.modify f : CellTask Unit).Hears turnNotes I Q told := by
  refine Co.hears_modify fun s => ?_
  rw [hf s, List.append_nil]
  exact ⟨hI, hQ⟩

theorem hears_note {o : Obs} (ho : o.ofTurn = true) {Q : Except Exc Unit → List Obs → Prop}
    (hI : I (told ++ [o])) (hQ : Q (.ok ()) (told ++ [o])) :
    (Co.modify (St.note o) : CellTask Unit).Hears turnNotes I Q told := by
  refine Co.hears_modify fun s => ?_
  rw [turnNotes_note, List.filter_cons_of_pos ho, List.filter_nil]
  exact ⟨hI, hQ⟩

theorem hears_get {α : Type} {g : St → CellTask α} {Q : Except Exc α → List Obs → Prop}
    (hI : I told) (h : ∀ s, (g s).Hears turnNotes I Q told) :
    (Co.get >>= g).Hears turnNotes I Q told := by
  refine Co.hears_bind fun s => ?_
  rw [show turnNotes s (id s) = [] from turnNotes_of_eq rfl, List.append_nil]
  exact ⟨hI, h s⟩

theorem hears_suspend {Q : Except Exc Unit → List Obs → Prop} (hQ : ∀ r, Q r told) :
    (Co.suspend : CellTask Unit).Hears turnNotes I Q told := by
  intro w
  cases w with
  | resume => exact hQ _
  | raise e => exact hQ _

theorem hears_emit (p : EventPayload) {Q : Except Exc Unit → List Obs → Prop} (hI : I told)
    (hQ : ∀ r, Q r told) : (emitCell p).Hears turnNotes I Q told :=
  Co.All.hears (emitCell_silent p) hI hQ

/-! ## What is silent -/

theorem failCell_silent (f : AttemptFailure) (detail : String) (action : RecoveryAction) :
    (failCell c f detail action).All fun g => ∀ s, turnNotes s (g s) = [] :=
  Co.all_bind (emitCell_silent _) fun _ => Co.all_pure

theorem completeCell_silent (before : BudgetUsage) (r : WorkerResult) :
    (completeCell c before r).All fun g => ∀ s, turnNotes s (g s) = [] := by
  unfold completeCell
  refine Co.all_bind Co.all_suspend fun _ => ?_
  refine Co.all_bind (Co.all_modify fun s => turnNotes_of_eq rfl) fun _ => ?_
  refine Co.all_bind (Co.all_modify fun s => ?_) fun _ => ?_
  · exact turnNotes_of_note (f := St.finishCell c.cell.id (toolNames r.messages)
      c.cell.acceptanceCriterionIndices (c.store (if r.text = "" then "{}" else r.text)).digest) rfl
  · exact Co.all_bind (Co.all_get fun s => turnNotes_of_eq rfl) fun _ =>
      Co.all_bind (emitCell_silent _) fun _ => Co.all_pure

theorem handleCellFailure_hears (f : AttemptFailure) (d : RouteDecision) (n : Nat)
    {Q : Except Exc RecoveryAction → List Obs → Prop} (hI : I told)
    (hQ : ∀ action, (Continues action → f.kind ≠ "budget") → Q (.ok action) told)
    (hE : ∀ e, Q (.error e) told) : (handleCellFailure c f d n).Hears turnNotes I Q told := by
  have hemit {action : RecoveryAction} (h : Continues action → f.kind ≠ "budget") :
      (emitRecovery c f action n >>= fun _ => pure action : CellTask RecoveryAction).Hears
        turnNotes I Q told := by
    refine Co.hears_bind (hears_emit _ hI fun r => ?_)
    cases r with
    | ok _ => exact Co.hears_pure (hQ action h)
    | error e => exact hE e
  unfold handleCellFailure
  split
  · exact hemit fun hgo => absurd hgo (by decide)
  · rename_i hbudget
    exact hears_get hI fun s => hemit fun hgo => absurd hgo (decideRecovery_stops hbudget _ _)
  · rename_i hbudget
    refine hears_get hI fun s => Co.hears_bind (hears_silent (fun t => ?_) hI ?_)
    · exact turnNotes_of_note (f := St.decide _ (signature c d)) rfl
    · refine hemit fun _ hk => hbudget ?_
      rw [hk]
      rfl

theorem chooseAction_hears (f : AttemptFailure) (d : RouteDecision) (n : Nat)
    {Q : Except Exc RecoveryAction → List Obs → Prop} (hI : I told)
    (hQ : ∀ action, (Continues action → f.kind ≠ "budget") → Q (.ok action) told)
    (hE : ∀ e, Q (.error e) told) : (chooseAction c f d n).Hears turnNotes I Q told := by
  unfold chooseAction
  split
  · refine Co.hears_bind (hears_emit _ hI fun r => ?_)
    cases r with
    | ok _ => exact Co.hears_pure (hQ _ fun hgo => absurd hgo (by decide))
    | error e => exact hE e
  · exact handleCellFailure_hears f d n hI hQ hE

/-- No attempt follows one that ran out of its budget. -/
theorem recover_hears (f : AttemptFailure) (d : RouteDecision) (n : Nat)
    {Q : Except Exc (CellResult ⊕ RouteDecision) → List Obs → Prop} (hI : I told)
    (hQ : ∀ next, (∀ d', next = .inr d' → f.kind ≠ "budget") → Q (.ok next) told)
    (hE : ∀ e, Q (.error e) told) : (recover c f d n).Hears turnNotes I Q told := by
  have hfail (detail : String) (action : RecoveryAction) :
      (failCell c f detail action >>= fun r => pure (.inl r) :
        CellTask (CellResult ⊕ RouteDecision)).Hears turnNotes I Q told := by
    refine Co.hears_bind (Co.All.hears (failCell_silent f detail action) hI fun r => ?_)
    cases r with
    | ok r => exact Co.hears_pure (hQ _ nofun)
    | error e => exact hE e
  have hgo (d' : RouteDecision) (hk : f.kind ≠ "budget") :
      (Co.suspend >>= fun _ => pure (.inr d') : CellTask (CellResult ⊕ RouteDecision)).Hears
        turnNotes I Q told := by
    refine Co.hears_bind (hears_suspend fun r => ?_)
    cases r with
    | ok _ => exact Co.hears_pure (hQ _ fun _ _ => hk)
    | error e => exact hE e
  unfold recover
  refine Co.hears_bind (chooseAction_hears f d n hI (fun action hk => ?_) hE)
  dsimp only
  split
  · rename_i hretry
    exact hgo d (hk (.inl hretry))
  · split
    · rename_i hreroute
      refine hears_get hI fun s => ?_
      split
      · refine Co.hears_bind (hears_emit _ hI fun r => ?_)
        cases r with
        | ok _ => exact Co.hears_pure (hQ _ fun _ _ => hk (.inr hreroute))
        | error e => exact hE e
      · split
        · refine Co.hears_bind (hears_emit _ hI fun r => ?_)
          cases r with
          | ok _ => exact hgo d (hk (.inr hreroute))
          | error e => exact hE e
        · exact hfail _ _
    · exact hfail _ _

/-! ## The attempts -/

/-- An attempt keeps what the handover keeps, wherever an exception ends it. -/
theorem Handover.runAttempt_hears (H : Handover c) (a : Attempt) (n : Nat)
    (resume : Option (List ModelMessage)) {Q : Except Exc (Except String WorkerResult) →
      List Obs → Prop} (hk : H.keeps told) (hb : H.before n resume told)
    (hok : ∀ r t, H.keeps t → H.behind n (some r) t → Q (.ok (.ok r)) t)
    (hraise : ∀ m t, H.keeps t → H.behind n none t → Q (.ok (.error m)) t)
    (hcancel : ∀ e t, Q (.error e) t) :
    (runAttempt c a n resume).Hears turnNotes H.keeps Q told := by
  obtain ⟨notes, r, htells, hworked⟩ := run_tells (w := workerInput c n) a resume
  obtain ⟨hcut, hdone⟩ := H.attempt hb hk hworked
  refine Co.hears_tryCatch (Co.hears_bind (htells.hears (fun p hp => (hcut p hp).1) ?_ ?_))
  · intro result hr
    exact Co.hears_pure (hok result _ (hcut notes List.prefix_rfl).1 (hdone result hr))
  · intro e p hp
    cases e with
    | cancelled note => exact Co.hears_throw (hcancel _ _)
    | exception k m => exact Co.hears_pure (hraise m _ (hcut p hp).1 (hcut p hp).2)

theorem Handover.attempts_hears (H : Handover c) (before : BudgetUsage) (script : List Attempt)
    {n : Nat} {d : RouteDecision} {resume : Option (List ModelMessage)} (hk : H.keeps told)
    (hb : H.before n resume told) :
    (attempts c before script n d resume).Hears turnNotes H.keeps (fun _ _ => True) told := by
  have hcall (n : Nat) : ∀ s : St, turnNotes s (s.note (.called c.cell.id n)) = [] :=
    fun s => turnNotes_note _ s
  induction script generalizing n d resume told with
  | nil =>
    unfold attempts
    exact Co.hears_bind (hears_silent (hcall n) hk fun _ => trivial)
  | cons a script ih =>
    unfold attempts
    refine Co.hears_bind (hears_silent (hcall n) hk (Co.hears_bind ?_))
    have hnext {f : AttemptFailure} {p : Passage} {ms : List ModelMessage}
        {carried : Option (List ModelMessage)} {t : List Obs} (ht : H.keeps t)
        (hhand : f.kind ≠ "budget" → H.keeps (t ++ [.passed c.cell.id n p ms]) ∧
          H.before (n + 1) carried (t ++ [.passed c.cell.id n p ms])) :
        (recover c f d n >>= fun next => next.elim pure fun d' =>
          Co.modify (St.pass c.cell.id n p ms) >>= fun _ =>
            attempts c before script (n + 1) d' carried).Hears turnNotes H.keeps
          (fun _ _ => True) t := by
      refine Co.hears_bind (recover_hears f d n ht (fun next hkind => ?_) fun _ => trivial)
      cases next with
      | inl r => exact Co.hears_pure trivial
      | inr d' =>
        obtain ⟨hkeeps, hbefore⟩ := hhand (hkind d' rfl)
        exact Co.hears_bind (hears_note (o := .passed c.cell.id n p ms) rfl hkeeps
          (ih hkeeps hbefore))
    refine H.runAttempt_hears a n resume hk hb (fun r t ht hr => ?_) (fun m t ht hr => ?_)
      fun _ _ => trivial
    · have hcharge : ∀ s : St, turnNotes s (s.charge c.cell.id n (WorkerResult.spend r)) = [] :=
        fun s => turnNotes_of_note (f := St.charge c.cell.id n (WorkerResult.spend r)) rfl
      refine Co.hears_bind (hears_silent hcharge ht ?_)
      dsimp only
      split
      · exact Co.All.hears (completeCell_silent before r) ht fun _ => trivial
      · rename_i hfail
        refine hears_get ht fun s => ?_
        have hcarried : (resultFailure c r s.usage).carried = carriedOf r.messages :=
          resultFailure_carried r s.usage
        have hms : ((resultFailure c r s.usage).carried.getD []) = r.messages := by
          rw [hcarried]
          unfold carriedOf
          split
          · rename_i he
            exact he.symm
          · rfl
        rw [hms, hcarried]
        exact hnext ht fun hne => H.handed hr ht (by simpa using hfail)
          (resultFailure_kind hne)
    · exact hnext ht fun _ => H.raised hr ht

/-- **Handing on.** What a handover keeps is kept by every run of the cell,
whatever its siblings do and wherever exceptions arrive. -/
theorem Handover.heard (H : Handover c) (script : List Attempt) (gaps : List (Gap St Exc))
    (s : St) : H.keeps ((runCell c script).heard turnNotes gaps s) := by
  have hempty := H.fresh.1
  have hears : (runCell c script).Hears turnNotes H.keeps (fun _ _ => True) [] := by
    unfold runCell
    refine Co.hears_bind (hears_silent (fun s => turnNotes_note _ s) hempty (hears_get hempty ?_))
    intro s
    dsimp only
    refine Co.hears_bind (hears_emit _ hempty fun r => ?_)
    cases r with
    | error e => trivial
    | ok _ =>
      dsimp only
      split
      · refine Co.hears_bind (hears_emit _ hempty fun r => ?_)
        cases r with
        | error e => trivial
        | ok _ => exact Co.hears_pure trivial
      · refine Co.hears_bind (hears_emit _ hempty fun r => ?_)
        cases r with
        | error e => trivial
        | ok _ =>
          refine hears_get hempty fun s' => Co.hears_bind ?_
          cases hr : s'.shared.checkpoints.lookup c.cell.id with
          | none =>
            exact hears_silent (fun t => turnNotes_of_eq rfl) hempty
              (H.attempts_hears _ script H.fresh.1 H.fresh.2)
          | some ms =>
            obtain ⟨hk, hb⟩ := H.restored ms
            exact hears_note (o := .restored c.cell.id ms) rfl hk (H.attempts_hears _ script hk hb)
  have h := hears.heard hempty gaps s
  rwa [List.nil_append] at h

end
end Northstack
