import Northstack.Adapters.Ledger
import Northstack.Application.Run
import Northstack.Core.Shielding

/-!
# Emitting under cancellation

Mirrors `EventStream.emit_async` (events/stream.py:53-73) and
`_finish_despite_cancellation` (application/orchestrator.py:92-101), turn by turn of the
event loop. An append runs in a thread of its own; other calls of the ledger come before
it, behind it, and between its effect and the moment the loop hears of its end.

**Results.**
* `emit_async_once`: however often an emitter is cancelled, its event is appended once,
  and the cancellation is raised unless the append failed in a way nobody expects.
* `finish_despite_cancellation`: a task waited for so is not disturbed, and the last
  cancellation is returned, as `Main.shield` has it.
-/
namespace Northstack

namespace Emitting

open Ledger Runs Shielding

/-! ## The append -/

/-- The task `to_thread(append_next, ...)`: the call is queued, has had its effect, or the
loop has heard of its end. -/
inductive Progress where
  | queued
  | performed (result : Except LedgerError Row)
  | ended (result : Except LedgerError Row)

def Progress.result? : Progress → Option (Except LedgerError Row)
  | .queued => none
  | .performed r => some r
  | .ended r => some r

structure Appending where
  table : List Row
  progress : Progress := .queued

/-- The thread calls `append_next`, with what its clock reads and where the database raises;
the loop hears of the end; somebody else calls the ledger. -/
inductive AppendMove (π : Type) where
  | perform (fault : Option Ledger.Fault) (now : Double)
  | complete
  | others (c : Ledger.Call π)

def AppendMove.others? {π : Type} : AppendMove π → Option (Ledger.Call π)
  | .others c => some c
  | _ => none

section

variable {π : Type} (sha256 : String → String) (cat : Catalog π) (runId : String) (payload : π)

def Appending.step (s : Appending) : AppendMove π → Option Appending
  | .perform fault now =>
    match s.progress with
    | .queued =>
      let (table, r) := Ledger.perform sha256 cat s.table (.appendNext fault runId payload now)
      some { table := table, progress := .performed r }
    | _ => none
  | .complete =>
    match s.progress with
    | .performed r => some { s with progress := .ended r }
    | _ => none
  | .others c => some { s with table := (Ledger.perform sha256 cat s.table c).1 }

/-- `append.done()`, and `append.result()` -/
def Appending.ended (s : Appending) : Option (Except LedgerError Row) :=
  match s.progress with
  | .ended r => some r
  | _ => none

theorem appending_stays (s : Appending) (m : AppendMove π) (s' : Appending)
    (r : Except LedgerError Row) (hr : s.ended = some r)
    (h : s.step sha256 cat runId payload m = some s') : s'.ended = some r := by
  unfold Appending.ended at hr
  split at hr
  · rename_i r' hp
    cases hr
    cases m with
    | perform fault now =>
      unfold Appending.step at h
      rw [hp] at h
      cases h
    | complete =>
      unfold Appending.step at h
      rw [hp] at h
      cases h
    | others c =>
      cases h
      unfold Appending.ended
      rw [hp]
  · cases hr

/-- `asyncio.create_task(asyncio.to_thread(self._ledger.append_next, ...))` -/
def appendTask : Operation Appending (AppendMove π) (Except LedgerError Row) where
  step := Appending.step sha256 cat runId payload
  ended := Appending.ended
  stays := appending_stays sha256 cat runId payload

end

/-! ## The emitter -/

/-- One of `_APPEND_ERRORS`: a `ValidationError` is a `ValueError`, an `OverflowError` none
of them. -/
def appendError : LedgerError → Bool
  | .overflow => false
  | _ => true

/-- How `emit_async` ends; the note is the one added to the cancellation that is raised. -/
inductive EmitEnd (γ : Type) where
  | returned (row : Row)
  | cancelled (c : γ) (note : Option String)
  | raised (e : LedgerError)

section

variable {γ : Type} (describe : LedgerError → String)

/-- The end behind a cancellation, where `describe` is `{type(exc).__name__}: {exc}`. -/
def settleCancelled (c : γ) : Except LedgerError Row → EmitEnd γ
  | .ok _ => .cancelled c none
  | .error e =>
    if appendError e then .cancelled c (some ("append completion failed: " ++ describe e))
    else .raised e

/-- `append.result()` where nothing was raised at the await. -/
def settlePlain : Except LedgerError Row → EmitEnd γ
  | .ok row => .returned row
  | .error e => .raised e

/-- `EventStream.emit_async` from its first await on (stream.py:59-73). Its phase is the
cancellation it has caught. -/
def emitAsync : Waiter (Option γ) γ (Except LedgerError Row) (EmitEnd γ) where
  start := none
  woken
    | none, r => settlePlain r
    | some c, r => settleCancelled describe c r
  again
    | none, c => some c
    | some c, _ => some c
  late
    | none, c, r => settleCancelled describe c r
    | some c, _, r => settleCancelled describe c r

/-- The end for the cancellation that is raised, if there is one. -/
def emitEnd : Option γ → Except LedgerError Row → EmitEnd γ
  | none, r => settlePlain r
  | some c, r => settleCancelled describe c r

end

/-! ## An append, once -/

section

variable {π : Type} {sha256 : String → String} {cat : Catalog π} {runId : String} {payload : π}
  {s s' : Appending} {moves : List (AppendMove π)} {first : List (Ledger.Call π)}

theorem tableAfter_append (calls : List (Ledger.Call π)) (c : Ledger.Call π)
    (after : List (Ledger.Call π)) :
    tableAfter sha256 cat (calls ++ c :: after) =
      after.foldl (fun table c => (perform sha256 cat table c).1)
        (perform sha256 cat (tableAfter sha256 cat calls) c).1 := by
  unfold tableAfter
  rw [List.foldl_append]
  rfl

/-- Behind the effect of the append the table is the others' affair. -/
theorem run_performed {r : Except LedgerError Row} (hr : s.progress.result? = some r)
    (h : run (Appending.step sha256 cat runId payload) s moves = some s') :
    s'.progress.result? = some r ∧ s'.table = (moves.filterMap AppendMove.others?).foldl
      (fun table c => (perform sha256 cat table c).1) s.table := by
  induction moves generalizing s with
  | nil =>
    cases h
    exact ⟨hr, rfl⟩
  | cons m moves ih =>
    unfold run at h
    split at h
    · rename_i u hu
      cases m with
      | perform fault now =>
        unfold Appending.step at hu
        dsimp only at hu
        split at hu
        · rename_i hqueued
          rw [hqueued] at hr
          cases hr
        · cases hu
      | complete =>
        unfold Appending.step at hu
        dsimp only at hu
        split at hu
        · rename_i r' hperformed
          cases hu
          rw [hperformed] at hr
          have hrest := ih (show (Progress.ended r').result? = some r from hr) h
          exact hrest
        · cases hu
      | others c =>
        cases hu
        have hrest := ih (s := { s with table := (perform sha256 cat s.table c).1 }) hr h
        exact hrest
    · cases h

/-- An append is still queued, or stands between the calls of the others. -/
theorem run_queued (hq : s.progress = .queued) (hs : s.table = tableAfter sha256 cat first)
    (h : run (Appending.step sha256 cat runId payload) s moves = some s') :
    s'.progress = .queued ∨ ∃ fault now before after,
      moves.filterMap AppendMove.others? = before ++ after ∧
      s'.progress.result? = some (perform sha256 cat (tableAfter sha256 cat (first ++ before))
        (.appendNext fault runId payload now)).2 ∧
      s'.table = tableAfter sha256 cat
        (first ++ before ++ .appendNext fault runId payload now :: after) := by
  induction moves generalizing s first with
  | nil =>
    cases h
    exact .inl hq
  | cons m moves ih =>
    unfold run at h
    split at h
    · rename_i u hu
      cases m with
      | perform fault now =>
        unfold Appending.step at hu
        dsimp only at hu
        rw [hq] at hu
        cases hu
        obtain ⟨hresult, htable⟩ := run_performed rfl h
        refine .inr ⟨fault, now, [], moves.filterMap AppendMove.others?, rfl, ?_, ?_⟩
        · rw [List.append_nil, ← hs]
          exact hresult
        · rw [List.append_nil, tableAfter_append, ← hs]
          exact htable
      | complete =>
        unfold Appending.step at hu
        dsimp only at hu
        rw [hq] at hu
        cases hu
      | others c =>
        cases hu
        have hnext : (perform sha256 cat s.table c).1 = tableAfter sha256 cat (first ++ [c]) := by
          rw [tableAfter_snoc, hs]
        rcases ih (s := { s with table := (perform sha256 cat s.table c).1 }) hq hnext h with
          hqueued | ⟨fault, now, before, after, hothers, hresult, htable⟩
        · exact .inl hqueued
        · have hassoc : first ++ [c] ++ before = first ++ c :: before := by
            rw [List.append_assoc, List.singleton_append]
          rw [hassoc] at hresult htable
          refine .inr ⟨fault, now, c :: before, after, ?_, hresult, htable⟩
          rw [List.filterMap_cons_some (by rfl : (AppendMove.others c).others? = some c), hothers]
          rfl
    · cases h

/-- The row of a call that returned stands behind the table. -/
theorem perform_row {table : List Row} {c : Ledger.Call π} {row : Row}
    (h : (perform sha256 cat table c).2 = .ok row) :
    (perform sha256 cat table c).1 = table ++ [row] ∧ row.runId = c.runId := by
  have hperform : perform sha256 cat table c = ((perform sha256 cat table c).1, .ok row) :=
    Prod.ext rfl h
  obtain ⟨event, -, hrun, -, hpersisted, hinsert⟩ := perform_cases hperform
  obtain ⟨_, _, _, -, -, -, -, hfields⟩ := persisted_cases hpersisted
  exact ⟨insertRow_ok hinsert, by rw [hfields, hrun]⟩

/-- What calls leave in the table stays there. -/
theorem mem_tableAfter {calls after : List (Ledger.Call π)} {row : Row}
    (h : row ∈ tableAfter sha256 cat calls) : row ∈ tableAfter sha256 cat (calls ++ after) := by
  induction after using List.reverseRecOn with
  | nil => rwa [List.append_nil]
  | append_singleton after c ih =>
    rw [← List.append_assoc, tableAfter_snoc]
    cases hr : (perform sha256 cat (tableAfter sha256 cat (calls ++ after)) c).2 with
    | error e => rwa [call_failed hr]
    | ok row' =>
      rw [(perform_row hr).1]
      exact List.mem_append_left _ ih

/-- A call that returned has left its row, one that raised nothing. -/
theorem call_left {calls after : List (Ledger.Call π)} {c : Ledger.Call π} :
    (∀ row, (perform sha256 cat (tableAfter sha256 cat calls) c).2 = .ok row →
      row.runId = c.runId ∧ row ∈ tableAfter sha256 cat (calls ++ c :: after)) ∧
    (∀ e, (perform sha256 cat (tableAfter sha256 cat calls) c).2 = .error e →
      tableAfter sha256 cat (calls ++ c :: after) = tableAfter sha256 cat (calls ++ after)) := by
  refine ⟨fun row hrow => ?_, fun e he => ?_⟩
  · obtain ⟨htable, hrun⟩ := perform_row hrow
    have hthere : row ∈ tableAfter sha256 cat (calls ++ [c]) := by
      rw [tableAfter_snoc, htable]
      exact List.mem_append_right _ (List.mem_singleton.mpr rfl)
    rw [List.append_cons]
    exact ⟨hrun, mem_tableAfter hthere⟩
  · rw [tableAfter_append, call_failed he]
    unfold tableAfter
    rw [List.foldl_append]

end

/-! ## Under cancellation -/

section

variable {γ : Type} {describe : LedgerError → String}

/-- The cancellation caught first is the one raised. -/
theorem foldl_emitAsync (heard : List γ) :
    heard.foldl (emitAsync describe).again (emitAsync describe).start = heard.head? := by
  cases heard with
  | nil => rfl
  | cons c heard =>
    change heard.foldl (emitAsync describe).again (some c) = some c
    induction heard with
    | nil => rfl
    | cons c' heard ih => exact ih

theorem close_emitAsync (heard : List γ) (last : Option γ) (r : Except LedgerError Row) :
    (emitAsync describe).close heard last r =
      emitEnd describe (heard ++ last.toList).head? r := by
  unfold Waiter.close
  cases last with
  | none =>
    rw [foldl_emitAsync, Option.toList_none, List.append_nil]
    cases heard.head? <;> rfl
  | some c =>
    rw [foldl_emitAsync, Option.toList_some, List.head?_append]
    cases heard.head? <;> rfl

variable {π : Type}

/-- **Emitting once.** Whatever is called on the ledger meanwhile and however often the
emitter is cancelled: when it ends, its event was handed to `append_next` once, between
the calls of the others. It returns the row if nobody asked for a cancellation. Otherwise
a cancellation that was asked for is raised, with a note if the append failed, unless the
append failed with an error that is none of `_APPEND_ERRORS`, which is then raised itself.
A row given out, or passed over for the cancellation, is in the table; an append that
failed left nothing there. And an emitter whose append has ended ends on its next turn.
`stream.py:53-73` -/
theorem emit_async_once (sha256 : String → String) (cat : Catalog π) (runId : String)
    (payload : π) (first : List (Ledger.Call π)) (moves : List (Move (AppendMove π) γ))
    {s : Wait Appending (Option γ) γ (EmitEnd γ)}
    (h : run (step (appendTask sha256 cat runId payload) (emitAsync describe))
      (begin (emitAsync describe) { table := tableAfter sha256 cat first }) moves = some s) :
    (∀ o, s.outcome = some o → ∃ fault now before after r,
      (moves.filterMap Move.inner?).filterMap AppendMove.others? = before ++ after ∧
      s.inner.table = tableAfter sha256 cat
        (first ++ before ++ .appendNext fault runId payload now :: after) ∧
      r = (perform sha256 cat (tableAfter sha256 cat (first ++ before))
        (.appendNext fault runId payload now)).2 ∧
      (∀ row, r = .ok row → row.runId = runId ∧ row ∈ s.inner.table) ∧
      (∀ e, r = .error e → s.inner.table = tableAfter sha256 cat (first ++ before ++ after)) ∧
      ∃ c : Option γ, (c = none ↔ s.asked = []) ∧ (∀ x ∈ c, x ∈ s.asked) ∧
        o = emitEnd describe c r) ∧
    (s.outcome = none → ∀ r, s.inner.ended = some r →
      ∃ s' o, step (appendTask sha256 cat runId payload) (emitAsync describe) s .turn = some s' ∧
        s'.outcome = some o) := by
  refine ⟨fun o ho => ?_, fun hnone r hr => turn_ends hnone hr⟩
  obtain ⟨r, hended, heard, last, hasked, hlast, rfl⟩ := (heard_run h).closed ho
  have hresult : s.inner.progress.result? = some r := by
    change s.inner.ended = some r at hended
    unfold Appending.ended at hended
    split at hended
    · rename_i r' hp
      rw [hp]
      exact hended
    · cases hended
  rcases run_queued rfl rfl (undisturbed h) with hqueued |
    ⟨fault, now, before, after, hothers, hresult', htable⟩
  · rw [hqueued] at hresult
    cases hresult
  · have heq : r = _ := Option.some.inj (hresult.symm.trans hresult')
    obtain ⟨hreturned, hraised⟩ := @call_left π sha256 cat (first ++ before) after
      (.appendNext fault runId payload now)
    refine ⟨fault, now, before, after, r, hothers, htable, heq, fun row hrow => ?_,
      fun e he => ?_, (heard ++ last.toList).head?, ?_, fun x hx => ?_, close_emitAsync ..⟩
    · rw [htable]
      exact hreturned row (heq ▸ hrow)
    · rw [htable]
      exact hraised e (heq ▸ he)
    · rw [List.head?_eq_none_iff]
      refine ⟨fun hnil => ?_, fun hnil => List.sublist_nil.mp (hnil ▸ hasked)⟩
      rw [hnil] at hlast
      exact List.getLast?_eq_none_iff.mp hlast.symm
    · exact hasked.subset (List.mem_of_mem_head? hx)

/-- Cancelled twice, the append failing in between. -/
def cancelledTwice : List (Move (AppendMove Unit) String) :=
  [.cancel "stop", .turn, .inner (.perform (some .begin) Double.zero), .cancel "shutdown",
    .inner .complete, .turn]

/-- A catalog without events. -/
def noEvents : Catalog Unit where
  kind _ := ""
  schemaVersion _ := 1
  dump _ := []
  parse _ := none

theorem emit_async_once_cancelledTwice :
    ∃ s, run (step (appendTask id noEvents "r" ()) (emitAsync fun _ => "database is locked"))
        (begin (emitAsync fun _ => "database is locked") { table := tableAfter id noEvents [] })
        cancelledTwice = some s ∧ s.asked = ["stop", "shutdown"] ∧
      ∀ o, s.outcome = some o → ∃ c ∈ s.asked, ∃ r,
        o = emitEnd (fun _ => "database is locked") (some c) r := by
  have hsome : (run (step (appendTask id noEvents "r" ())
      (emitAsync (γ := String) fun _ => "database is locked"))
      (begin (emitAsync fun _ => "database is locked") { table := tableAfter id noEvents [] })
      cancelledTwice).map (·.asked) = some ["stop", "shutdown"] := rfl
  obtain ⟨s, hs, hasked⟩ := Option.map_eq_some_iff.mp hsome
  refine ⟨s, hs, hasked, fun o ho => ?_⟩
  obtain ⟨_, _, _, _, r, -, -, -, -, -, c, hnone, hmem, rfl⟩ :=
    (emit_async_once id noEvents "r" () [] cancelledTwice hs).1 o ho
  cases c with
  | none =>
    rw [hnone.mp rfl] at hasked
    cases hasked
  | some c => exact ⟨c, hmem c rfl, r, rfl⟩

end

/-! ## The run's own account -/

/-- The class of what `append_next` raises, as far as a handler of the run tells it. -/
def excKind : LedgerError → ExcKind
  | .valueError _ => .valueError
  | .validation => .valueError
  | .overflow => .other
  | .database => .sqliteError

def EmitEnd.result {γ : Type} (message : LedgerError → String) : EmitEnd γ → Except Exc Unit
  | .returned _ => .ok ()
  | .cancelled _ note => .error (.cancelled note)
  | .raised e => .error (.exception (excKind e) (message e))

/-- Each end of an emitter is one that a run allows an append, which stores its row or not
as the emitter did. -/
theorem emitEnd_appendEnd {γ : Type} (describe message : LedgerError → String) (p : EventPayload)
    (s : St) (c : Option γ) (r : Except LedgerError Row) :
    ∃ w : Coop.Wake Exc, (appendEnd p w).2 = (emitEnd describe c r).result message ∧
      ((appendEnd p w).1 s).log = s.log ++ if r.toBool then [p.stored] else [] := by
  cases r with
  | ok row =>
    cases c with
    | none => exact ⟨.resume, rfl, rfl⟩
    | some c => exact ⟨.raise (.cancelled none), rfl, rfl⟩
  | error e =>
    have hnothing : s.log = s.log ++ if (Except.error e : Except LedgerError Row).toBool then
        [p.stored] else [] := (List.append_nil _).symm
    cases c with
    | none => exact ⟨.raise (.exception (excKind e) (message e)), rfl, hnothing⟩
    | some c =>
      unfold emitEnd settleCancelled
      dsimp only
      split
      · exact ⟨.raise (.cancelled (some ("append completion failed: " ++ describe e))), rfl,
          hnothing⟩
      · exact ⟨.raise (.exception (excKind e) (message e)), rfl, hnothing⟩

/-! ## Finishing despite cancellation -/

/-- `_finish_despite_cancellation` (orchestrator.py:92-101); its phase is `cancelled`. -/
def finishDespiteCancellation (ε γ : Type) :
    Waiter (Option γ) γ (Except ε Unit) (Except ε (Option γ)) where
  start := none
  woken c r := r.map fun _ => c
  again _ c := some c
  late _ c r := r.map fun _ => some c

section

variable {ε γ : Type}

theorem foldl_finish (heard : List γ) (c : Option γ) :
    heard.foldl (finishDespiteCancellation ε γ).again c = heard.getLast?.or c := by
  induction heard generalizing c with
  | nil => rfl
  | cons x heard ih =>
    rw [List.foldl_cons, ih, List.getLast?_cons]
    cases heard.getLast? <;> rfl

theorem close_finish (heard : List γ) (last : Option γ) (r : Except ε Unit) :
    (finishDespiteCancellation ε γ).close heard last r =
      r.map fun _ => (heard ++ last.toList).getLast? := by
  unfold Waiter.close
  cases last with
  | none =>
    rw [foldl_finish, Option.toList_none, List.append_nil]
    cases heard.getLast? <;> rfl
  | some c =>
    rw [Option.toList_some, List.getLast?_concat]
    rfl

/-- How an awaited task ends for the one awaiting it. -/
def wakeOf : Except ε Unit → Coop.Wake ε
  | .ok () => .resume
  | .error e => .raise e

/-- `Main.shield` passes over every cancellation and keeps the last. -/
theorem shield_cancelled {σ : Type} {isCancel : ε → Bool} {asked : List ε}
    (hasked : ∀ c ∈ asked, isCancel c = true) {r : Except ε Unit}
    (hr : ∀ e, r = .error e → isCancel e = false) (c : Option ε) (rest : List (Coop.Input ε))
    (s : σ) :
    Coop.Main.shield isCancel c (asked.map (fun x => .wake (.raise x)) ++ .wake (wakeOf r) :: rest)
      s = .ret (wakeOf r, asked.getLast?.or c) rest s := by
  induction asked generalizing c with
  | nil =>
    cases r with
    | ok u => rfl
    | error e =>
      unfold wakeOf
      rw [List.map_nil, List.nil_append, Coop.Main.shield, if_neg (by rw [hr e rfl]; decide)]
      rfl
  | cons x asked ih =>
    rw [List.map_cons, List.cons_append, Coop.Main.shield,
      if_pos (hasked x List.mem_cons_self), ih fun c hc => hasked c (List.mem_cons_of_mem _ hc),
      List.getLast?_cons]
    cases asked.getLast? <;> rfl

/-- A task that ends with what the loop says. -/
def endsWith (ε : Type) : Operation (Option (Except ε Unit)) (Except ε Unit) (Except ε Unit) where
  step
    | none, r => some (some r)
    | some _, _ => none
  ended t := t
  stays t m t' r hr h := by
    cases t with
    | none => cases hr
    | some r' => cases h

end

end Emitting

end Northstack
