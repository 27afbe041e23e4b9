import Northstack.Core.TaskTraces
import Northstack.Application.WorkerSteps
import Northstack.Application.Conversations

/-!
# What an attempt tells

Of its notes an attempt's own conversation are the passages, the requests and
the responses. They depend on the script alone: `Turned` says once what one
turn can come to, `Looped` and `Worked` what the loop and the attempt can, each
with the notes on the way.

**Results.**
* `turn_tells`, `loop_tells`, `run_tells`: the worker's code does what they say.
-/
namespace Northstack

open Coop

/-- What a cell notes of its conversation. -/
def Obs.ofTurn : Obs → Bool
  | .restored .. | .passed .. | .requested .. | .responded .. => true
  | _ => false

/-- What a step notes of a conversation. -/
def turnNotes (s t : St) : List Obs := (t.history.drop s.history.length).filter Obs.ofTurn

theorem turnNotes_note (o : Obs) (s : St) : turnNotes s (s.note o) = [o].filter Obs.ofTurn := by
  unfold turnNotes St.note
  rw [List.drop_left]

theorem turnNotes_of_note {f : St → St} {o : Obs} {s : St}
    (hf : (f s).history = s.history ++ [o]) : turnNotes s (f s) = [o].filter Obs.ofTurn := by
  unfold turnNotes
  rw [hf, List.drop_left]

theorem turnNotes_of_eq {f : St → St} {s : St} (hf : (f s).history = s.history) :
    turnNotes s (f s) = [] := by
  unfold turnNotes
  rw [hf, List.drop_length]
  rfl

/-! ## What one turn can come to -/

section Told

variable (w : WorkerInput)

/-- A passage of the attempt. -/
def WorkerInput.passed (p : Passage) (messages : List ModelMessage) : Obs :=
  .passed w.cell.id w.attempt p messages

/-- Compaction at the head of a turn. -/
inductive Compacted (window : Nat) (c : Conv) : List Obs → Conv → Prop where
  | kept (h : (compactMessages w.estimate window c.messages).2 = 0) : Compacted window c [] c
  | elided {messages : List ModelMessage} {elided : Nat}
    (h : compactMessages w.estimate window c.messages = (messages, elided + 1)) :
    Compacted window c
      [w.passed (.compacted c.messages (elided + 1))
        (noteElision messages (c.totalElided + (elided + 1)))]
      { c with
        messages := noteElision messages (c.totalElided + (elided + 1))
        totalElided := c.totalElided + (elided + 1) }

/-- The results of these calls join the conversation. -/
def answerCalls (t : Turn) : List (ToolCall × Nat) → Conv → List Obs × Conv
  | [], c => ([], c)
  | call :: calls, c =>
    let r := Worker.resolve w (t.tool call.2) call.1
    let c := c.addToolResult call.1 r
    let rest := answerCalls t calls c
    (w.passed (.answered r) c.messages :: rest.1, rest.2)

/-- The conversation with a response's calls. -/
def Conv.called (c : Conv) (r : ModelResponse) : Conv :=
  { c with
    truncatedTurns := 0
    messages := c.messages ++ [{ role := .assistant, content := r.text, toolCalls := r.toolCalls }] }

def Conv.charged (c : Conv) (profile : ModelProfile) (r : ModelResponse) : Conv :=
  c.recordCall r.usage
    (computeCostUsd r.usage profile.inputPricePerMillionUsd profile.outputPricePerMillionUsd)

/-- What a request asks for at most. -/
def requestedOutput (profile : ModelProfile) (c : Conv) : Nat :=
  min (Worker.availableOutput w profile c) profile.maxOutputTokens

/-- A response, noted with what its request was estimated and allowed. -/
def WorkerInput.respondedTo (profile : ModelProfile) (c : Conv) (r : ModelResponse) : Obs :=
  .responded w.cell.id w.attempt (Worker.responseSpend profile r.usage) (w.estimate c.messages)
    (requestedOutput w profile c)

/-- What a response to the request with `c` leads to. -/
inductive Replied (profile : ModelProfile) (t : Turn) (r : ModelResponse) (c : Conv) :
    List Obs → WorkerResult ⊕ Conv → Prop where
  | ended {result : WorkerResult} (hcalls : r.toolCalls = [])
    (h : Worker.afterText w profile r (c.charged profile r) = .inl result) :
    Replied profile t r c [w.respondedTo profile c r] (.inl result)
  | continued {next : Conv} (hcalls : r.toolCalls = [])
    (h : Worker.afterText w profile r (c.charged profile r) = .inr next) :
    Replied profile t r c
      [w.respondedTo profile c r, w.passed (.continued r.text w.outputSchema) c.messages]
      (.inr next)
  | cut {calls rest : List (ToolCall × Nat)} (h : calls ++ rest = r.toolCalls.zipIdx) :
    Replied profile t r c
      (w.respondedTo profile c r :: (answerCalls w t calls ((c.charged profile r).called r)).1)
      (.inl ((answerCalls w t calls ((c.charged profile r).called r)).2.failure "budget"
        "Wall time limit exceeded during tool call"))
  | round {answered : List Obs × Conv} (hcalls : r.toolCalls ≠ [])
    (h : answered = answerCalls w t r.toolCalls.zipIdx ((c.charged profile r).called r)) :
    Replied profile t r c
      (w.respondedTo profile c r :: (answered.1 ++ [w.passed .rounded answered.2.messages]))
      (.inr answered.2.recordRound)

/-- What a turn leads to behind its compaction. -/
inductive Sent (profile : ModelProfile) (t : Turn) (c : Conv) :
    List Obs → WorkerResult ⊕ Conv → Prop where
  | starved (h : Worker.availableOutput w profile c = 0) :
    Sent profile t c []
      (.inl (c.failure "budget" "Token budget cannot cover the next request input"))
  | unanswered {kind detail : String} (h : Worker.availableOutput w profile c ≠ 0)
    (hr : ∀ r, t.reply ≠ .response r) :
    Sent profile t c
      [w.passed (.sent (requestedOutput w profile c)) c.messages,
        .requested w.cell.id w.attempt c.messages]
      (.inl (c.recordAttempt.failure kind detail))
  | answered {r : ModelResponse} {notes : List Obs} {next : WorkerResult ⊕ Conv}
    (h : Worker.availableOutput w profile c ≠ 0) (hr : t.reply = .response r)
    (hnext : Replied w profile t r c.recordAttempt notes next) :
    Sent profile t c
      (w.passed (.sent (requestedOutput w profile c)) c.messages ::
        .requested w.cell.id w.attempt c.messages :: notes) next

/-- **One turn.** -/
inductive Turned (profile : ModelProfile) (t : Turn) (c : Conv) :
    List Obs → WorkerResult ⊕ Conv → Prop where
  | stopped {detail : String}
    (h : Worker.turnBudgetError w t.overTime { c with turn := c.turn + 1 } = some detail) :
    Turned profile t c [] (.inl (c.failure "budget" detail))
  | went {c' : Conv} {notes notes' : List Obs} {next : WorkerResult ⊕ Conv}
    (h : Worker.turnBudgetError w t.overTime { c with turn := c.turn + 1 } = none)
    (hc : Compacted w profile.contextWindowTokens { c with turn := c.turn + 1 } notes c')
    (hs : Sent w profile t c' notes' next) : Turned profile t c (notes ++ notes') next

/-- The loop, which runs out of turns if it has no result. -/
inductive Looped (profile : ModelProfile) :
    List Turn → Conv → List Obs → Option WorkerResult → Prop where
  | out (c : Conv) : Looped profile [] c [] none
  | last {t : Turn} {ts : List Turn} {c : Conv} {notes : List Obs} {r : WorkerResult}
    (h : Turned w profile t c notes (.inl r)) : Looped profile (t :: ts) c notes (some r)
  | more {t : Turn} {ts : List Turn} {c c' : Conv} {notes notes' : List Obs}
    {r : Option WorkerResult} (h : Turned w profile t c notes (.inr c'))
    (hs : Looped profile ts c' notes' r) : Looped profile (t :: ts) c (notes ++ notes') r

/-- One attempt. -/
inductive Worked (a : Attempt) (resume : Option (List ModelMessage)) :
    List Obs → Option WorkerResult → Prop where
  | unresolved {e : ProviderError} (h : a.profile = .error e) :
    Worked a resume [] (some (({ messages := [] } : Conv).failure (providerErrorKind e) e.message))
  | looped {profile : ModelProfile} {notes : List Obs} {r : Option WorkerResult}
    (h : a.profile = .ok profile)
    (hs : Looped w profile a.turns { messages := Worker.initialMessages w resume } notes r) :
    Worked a resume (w.passed .began (Worker.initialMessages w resume) :: notes) r

end Told

section

variable {w : WorkerInput} {profile : ModelProfile} {window : Nat} {t : Turn} {r : ModelResponse}
  {c c' next : Conv} {notes : List Obs} {result : WorkerResult}

/-- Compaction only touches the messages. -/
theorem Compacted.keeps (h : Compacted w window c notes c') :
    c'.acct = c.acct ∧ c'.truncatedTurns = c.truncatedTurns ∧
      c'.schemaRepairAttempted = c.schemaRepairAttempted := by
  cases h with
  | kept => exact ⟨rfl, rfl, rfl⟩
  | elided => exact ⟨rfl, rfl, rfl⟩

/-- The message with which a result joins the conversation. -/
def toolMessage (call : ToolCall) (r : ToolResultMessage) : ModelMessage :=
  { role := .tool, content := r.content, toolCallId := call.id }

/-- The results of these calls. -/
def answersTo (w : WorkerInput) (t : Turn) (calls : List (ToolCall × Nat)) :
    List (ToolCall × ToolResultMessage) :=
  calls.map fun call => (call.1, Worker.resolve w (t.tool call.2) call.1)

theorem answerCalls_conv (t : Turn) (calls : List (ToolCall × Nat)) (c : Conv) :
    (answerCalls w t calls c).2 =
      { c with
        acct := { c.acct with
          toolResults := c.acct.toolResults ++ (answersTo w t calls).map (·.2) }
        messages := c.messages ++ (answersTo w t calls).map fun x => toolMessage x.1 x.2 } := by
  induction calls generalizing c with
  | nil => simp [answerCalls, answersTo]
  | cons call calls ih =>
    unfold answerCalls
    dsimp only
    rw [ih]
    simp [answersTo, Conv.addToolResult, toolMessage]

/-- Each answer is noted with the conversation that it extends. -/
theorem answerCalls_notes (t : Turn) (calls : List (ToolCall × Nat)) (c : Conv) :
    ∀ o ∈ (answerCalls w t calls c).1, ∃ r more,
      o = w.passed (.answered r) (c.messages ++ more) := by
  induction calls generalizing c with
  | nil => exact List.forall_mem_nil _
  | cons call calls ih =>
    intro o ho
    rcases List.mem_cons.mp ho with rfl | ho
    · exact ⟨_, _, rfl⟩
    · obtain ⟨r, more, rfl⟩ := ih _ o ho
      refine ⟨r, toolMessage call.1 (Worker.resolve w (t.tool call.2) call.1) :: more, ?_⟩
      exact congrArg (w.passed _) (List.append_assoc c.messages [_] more)

/-- Another turn follows a text that needs repair, once, or that was cut off. -/
theorem afterText_inr (h : Worker.afterText w profile r c = .inr next) :
    next.acct = c.acct ∧
      (w.outputSchema = true ∧ c.schemaRepairAttempted = false ∧
          next.schemaRepairAttempted = true ∧ next.truncatedTurns = c.truncatedTurns ∧
          (∃ prompt, next.messages = c.messages ++
            [{ role := .assistant, content := r.text }, { role := .user, content := prompt }]) ∨
        w.outputSchema = false ∧ next.schemaRepairAttempted = c.schemaRepairAttempted ∧
          next.truncatedTurns = c.truncatedTurns + 1 ∧
          next.truncatedTurns < maxConsecutiveTruncations ∧
          next.messages = c.messages ++
            (if r.text = "" then [] else [{ role := .assistant, content := r.text }]) ++
            [{ role := .user, content := truncationNudge (c.truncatedTurns + 1) }]) := by
  unfold Worker.afterText at h
  dsimp only at h
  split at h
  · rename_i hschema
    split at h
    · split at h
      · cases h
      · rename_i hrepaired
        split at h
        · cases h
        · cases h
          exact ⟨rfl, .inl ⟨hschema, by simpa using hrepaired, rfl, rfl, _,
            List.append_assoc _ _ _⟩⟩
    · split at h <;> cases h
  · rename_i hschema
    split at h
    · split at h
      · cases h
      · rename_i hcut
        rw [not_or, not_le] at hcut
        split at h
        · rename_i htext
          cases h
          refine ⟨rfl, .inr ⟨by simpa using hschema, rfl, rfl, hcut.2, ?_⟩⟩
          rw [if_pos htext, List.append_nil]
          rfl
        · rename_i htext
          cases h
          refine ⟨rfl, .inr ⟨by simpa using hschema, rfl, rfl, hcut.2, ?_⟩⟩
          rw [if_neg htext]
          rfl
    · cases h

/-- A text that ends the attempt is its result's, and joins its messages. -/
theorem afterText_inl (h : Worker.afterText w profile r c = .inl result) :
    result.text = r.text ∧ result.messages = c.withFinal r.text := by
  unfold Worker.afterText at h
  dsimp only at h
  split at h
  · split at h
    · split at h
      · cases h
        exact ⟨rfl, rfl⟩
      · split at h
        · cases h
          exact ⟨rfl, rfl⟩
        · cases h
    · split at h <;> cases h <;> exact ⟨rfl, rfl⟩
  · split at h
    · split at h
      · cases h
        exact ⟨rfl, rfl⟩
      · cases h
    · cases h
      exact ⟨rfl, rfl⟩

end

/-! ## The worker's code -/

section Worker

open Worker

variable {w : WorkerInput}

theorem tells_note {o : Obs} (ho : o.ofTurn = true) :
    (Co.modify (St.note o) : CellTask Unit).Tells turnNotes [o] (some ()) :=
  Co.tells_modify fun s => by rw [turnNotes_note, List.filter_cons_of_pos ho, List.filter_nil]

theorem tells_silent {f : St → St} (hf : ∀ s, turnNotes s (f s) = []) :
    (Co.modify f : CellTask Unit).Tells turnNotes [] (some ()) := Co.tells_modify hf

theorem tells_pass (p : Passage) (ms : List ModelMessage) :
    (Co.modify (St.pass w.cell.id w.attempt p ms) : CellTask Unit).Tells turnNotes
      [w.passed p ms] (some ()) := tells_note rfl

theorem tells_rewrite (id : String) (ms : List ModelMessage) :
    (Co.modify (St.noteRewrite id ms) : CellTask Unit).Tells turnNotes [] (some ()) :=
  tells_silent fun s => turnNotes_of_note (o := .rewrote id (s.shared.executedFor id) _) rfl

/-- An append is silent, also where it fails. -/
theorem emitCell_silent (p : EventPayload) :
    (emitCell p).All fun f => ∀ s, turnNotes s (f s) = [] :=
  emitCell_all (fun c s => turnNotes_of_note (f := St.append c p)
    (o := .appended p s.currentStatus s.terminalOutcome c) rfl) fun s => turnNotes_note _ s

theorem emitEvent_tells (k : Nat) (step : String) (detail : List (String × Json)) :
    (emitEvent w k step detail).Tells turnNotes [] (some ()) := by
  refine Co.All.tells (Co.all_tryCatch (emitCell_silent _) fun e => ?_) ?_
  · cases e with
    | cancelled n => exact Co.all_throw
    | exception k m => exact Co.all_pure
  · intro x
    cases x with
    | resume => exact fun _ => trivial
    | raise e =>
      cases e with
      | cancelled n =>
        cases n with
        | none => exact fun _ => trivial
        | some n => exact fun _ => trivial
      | exception k m => exact fun _ => trivial

theorem compact_tells (window : Nat) (c : Conv) :
    ∃ notes c', (compact w window c).Tells turnNotes notes (some c') ∧
      Compacted w window c notes c' := by
  unfold compact
  split
  · rename_i ms hcompact
    exact ⟨[], c, Co.tells_pure, .kept (by rw [hcompact])⟩
  · rename_i messages elided hcompact
    refine ⟨_, _, ?_, .elided hcompact⟩
    refine (tells_rewrite _ _).seq (Co.tells_bind (tells_pass _ _) ?_)
    exact (emitEvent_tells _ _ _).seq Co.tells_pure

theorem collectBatch_tells (t : Turn) (calls : List (ToolCall × Nat)) (c : Conv) :
    (collectBatch w t calls c).Tells turnNotes (answerCalls w t calls c).1
      (some (answerCalls w t calls c).2) := by
  induction calls generalizing c with
  | nil => exact Co.tells_pure
  | cons call calls ih =>
    exact Co.tells_bind (tells_pass _ _) ((emitEvent_tells _ _ _).seq (ih _))

theorem answerCalls_append (t : Turn) (calls calls' : List (ToolCall × Nat)) (c : Conv) :
    answerCalls w t (calls ++ calls') c =
      ((answerCalls w t calls c).1 ++ (answerCalls w t calls' (answerCalls w t calls c).2).1,
        (answerCalls w t calls' (answerCalls w t calls c).2).2) := by
  induction calls generalizing c with
  | nil => rfl
  | cons call calls ih => simp only [List.cons_append, answerCalls, ih]

/-- The batches are answered in order, up to where the wall clock runs out. -/
theorem runBatches_tells (t : Turn) (batches : List (List (ToolCall × Nat))) (k : Nat) (c : Conv) :
    ∃ calls rest, calls ++ rest = batches.flatten ∧
      ((runBatches w t k batches c).Tells turnNotes (answerCalls w t calls c).1
          (some (.inl (answerCalls w t calls c).2)) ∨
        rest = [] ∧ (runBatches w t k batches c).Tells turnNotes (answerCalls w t calls c).1
          (some (.inr (answerCalls w t calls c).2))) := by
  induction batches generalizing k c with
  | nil => exact ⟨[], [], rfl, .inr ⟨rfl, Co.tells_pure⟩⟩
  | cons batch batches ih =>
    have hmark : ∀ s : St, turnNotes s (s.markExecuted w.cell.id
        ((batch.filter fun x => dispatched w (t.tool x.2) x.1).map (·.1.name))) = [] :=
      fun s => turnNotes_of_eq rfl
    by_cases hover : t.batchOverTime k = true
    · refine ⟨[], (batch :: batches).flatten, rfl, .inl ?_⟩
      unfold runBatches
      rw [if_pos hover]
      exact Co.tells_suspend.seq ((tells_silent hmark).seq (Co.tells_suspend.seq Co.tells_pure))
    · obtain ⟨calls, rest, hflat, htells⟩ := ih (k + 1) (answerCalls w t batch c).2
      refine ⟨batch ++ calls, rest, by rw [List.append_assoc, hflat, List.flatten_cons], ?_⟩
      rw [answerCalls_append]
      unfold runBatches
      rw [if_neg hover]
      have hbatch := collectBatch_tells (w := w) t batch c
      rcases htells with h | ⟨hrest, h⟩
      · exact .inl (Co.tells_suspend.seq
          ((tells_silent hmark).seq (Co.tells_suspend.seq (Co.tells_bind hbatch h))))
      · exact .inr ⟨hrest, Co.tells_suspend.seq
          ((tells_silent hmark).seq (Co.tells_suspend.seq (Co.tells_bind hbatch h)))⟩

theorem afterToolCalls_tells (profile : ModelProfile) (t : Turn) (r : ModelResponse) (c : Conv)
    (hcalls : r.toolCalls ≠ []) :
    ∃ notes next, (afterToolCalls w t r (c.charged profile r)).Tells turnNotes notes (some next) ∧
      Replied w profile t r c (w.respondedTo profile c r :: notes) next := by
  obtain ⟨calls, rest, hflat, htells⟩ := runBatches_tells (w := w) t
    (toolBatches (isMutating w) r.toolCalls.zipIdx) 0 ((c.charged profile r).called r)
  rw [toolBatches_flatten] at hflat
  unfold afterToolCalls
  rcases htells with h | ⟨rfl, h⟩
  · exact ⟨_, _, Co.tells_bind h Co.tells_pure, by rw [List.append_nil]; exact .cut hflat⟩
  · rw [List.append_nil] at hflat
    subst hflat
    refine ⟨_, _, Co.tells_bind h (Co.tells_bind (tells_pass _ _) ?_), .round hcalls rfl⟩
    split
    · exact (tells_silent fun s => turnNotes_of_eq rfl).seq Co.tells_pure
    · exact Co.tells_pure

theorem afterResponse_tells (profile : ModelProfile) (t : Turn) (r : ModelResponse) (c : Conv) :
    ∃ notes next, (afterResponse w profile t r c).Tells turnNotes notes (some next) ∧
      Replied w profile t r c notes next := by
  unfold afterResponse
  have hnote : (Co.modify (St.note (w.respondedTo profile c r)) : CellTask Unit).Tells turnNotes
      [w.respondedTo profile c r] (some ()) := tells_note rfl
  have hcharged : c.recordCall r.usage (computeCostUsd r.usage profile.inputPricePerMillionUsd
      profile.outputPricePerMillionUsd) = c.charged profile r := rfl
  cases hcalls : r.toolCalls with
  | nil =>
    cases htext : afterText w profile r (c.charged profile r) with
    | inl result =>
      refine ⟨_, _, Co.tells_bind hnote ((emitEvent_tells _ _ _).seq ?_),
        .ended hcalls htext⟩
      rw [hcharged, htext]
      exact Co.tells_pure
    | inr next =>
      refine ⟨_, _, Co.tells_bind hnote ((emitEvent_tells _ _ _).seq ?_),
        .continued hcalls htext⟩
      rw [hcharged, htext]
      exact Co.tells_bind (tells_pass _ _) Co.tells_pure
  | cons call calls =>
    obtain ⟨notes, next, htells, hnext⟩ :=
      afterToolCalls_tells (w := w) profile t r c (by rw [hcalls]; exact List.cons_ne_nil _ _)
    exact ⟨_, _, Co.tells_bind hnote ((emitEvent_tells _ _ _).seq htells), hnext⟩

theorem turn_tells (profile : ModelProfile) (t : Turn) (c : Conv) :
    ∃ notes next, (turn w profile t c).Tells turnNotes notes (some next) ∧
      Turned w profile t c notes next := by
  unfold turn
  dsimp only
  cases hbudget : turnBudgetError w t.overTime { c with turn := c.turn + 1 } with
  | some detail => exact ⟨_, _, Co.tells_pure, .stopped hbudget⟩
  | none =>
    obtain ⟨notes, c', hcompact, hc⟩ := compact_tells (w := w) profile.contextWindowTokens
      { c with turn := c.turn + 1 }
    have hsent : (Co.modify (St.pass w.cell.id w.attempt
        (.sent (min (availableOutput w profile c'.recordAttempt) profile.maxOutputTokens))
        c'.recordAttempt.messages) : CellTask Unit).Tells turnNotes
        [w.passed (.sent (requestedOutput w profile c')) c'.messages] (some ()) := tells_note rfl
    have hasked : (Co.modify (St.note (.requested w.cell.id w.attempt c'.recordAttempt.messages)) :
        CellTask Unit).Tells turnNotes [.requested w.cell.id w.attempt c'.messages] (some ()) :=
      tells_note rfl
    by_cases hstarved : availableOutput w profile c' = 0
    · refine ⟨_, _, Co.tells_bind hcompact ((emitEvent_tells _ _ _).seq ?_),
        .went hbudget hc (.starved hstarved)⟩
      rw [if_pos hstarved]
      exact Co.tells_pure
    · have hlost (kind detail : String) (hr : ∀ r, t.reply ≠ .response r) :
          Turned w profile t c _ (.inl (c'.recordAttempt.failure kind detail)) :=
        .went hbudget hc (.unanswered hstarved hr)
      cases hreply : t.reply with
      | overTime =>
        refine ⟨_, _, Co.tells_bind hcompact ((emitEvent_tells _ _ _).seq ?_),
          hlost "budget" "Wall time limit exceeded during provider call" ?_⟩
        · rw [if_neg hstarved]
          exact Co.tells_bind hsent <| Co.tells_bind hasked <| Co.tells_suspend.seq <|
            (emitEvent_tells _ _ _).seq Co.tells_pure
        · intro r hr
          rw [hreply] at hr
          cases hr
      | providerError e =>
        refine ⟨_, _, Co.tells_bind hcompact ((emitEvent_tells _ _ _).seq ?_),
          hlost (providerErrorKind e) e.message ?_⟩
        · rw [if_neg hstarved]
          exact Co.tells_bind hsent <| Co.tells_bind hasked <| Co.tells_suspend.seq <|
            (emitEvent_tells _ _ _).seq Co.tells_pure
        · intro r hr
          rw [hreply] at hr
          cases hr
      | response r =>
        obtain ⟨notes', next, htells, hnext⟩ := afterResponse_tells profile t r c'.recordAttempt
        refine ⟨_, _, Co.tells_bind hcompact ((emitEvent_tells _ _ _).seq ?_),
          .went hbudget hc (.answered hstarved hreply hnext)⟩
        rw [if_neg hstarved]
        exact Co.tells_bind hsent <| Co.tells_bind hasked (Co.tells_suspend.seq htells)

theorem loop_tells (profile : ModelProfile) (ts : List Turn) (c : Conv) :
    ∃ notes r, (loop w profile ts c).Tells turnNotes notes r ∧ Looped w profile ts c notes r := by
  induction ts generalizing c with
  | nil => exact ⟨[], none, Co.tells_block, .out c⟩
  | cons t ts ih =>
    obtain ⟨notes, next, htells, hnext⟩ := turn_tells (w := w) profile t c
    cases next with
    | inl r =>
      refine ⟨_, _, ?_, .last hnext⟩
      rw [← List.append_nil notes]
      exact Co.tells_bind htells Co.tells_pure
    | inr c' =>
      obtain ⟨notes', r, hloop, hlooped⟩ := ih c'
      exact ⟨_, _, Co.tells_bind htells hloop, .more hnext hlooped⟩

/-- **An attempt.** The worker's code tells what an attempt can come to. -/
theorem run_tells (a : Attempt) (resume : Option (List ModelMessage)) :
    ∃ notes r, (run w a resume).Tells turnNotes notes r ∧ Worked w a resume notes r := by
  unfold run
  cases hprofile : a.profile with
  | error e => exact ⟨_, _, Co.tells_pure, .unresolved hprofile⟩
  | ok profile =>
    obtain ⟨notes, r, hloop, hlooped⟩ := loop_tells (w := w) profile a.turns
      { messages := initialMessages w resume }
    exact ⟨_, _, (tells_rewrite _ _).seq (Co.tells_bind (tells_pass _ _) hloop),
      .looped hprofile hlooped⟩

end Worker
end Northstack
