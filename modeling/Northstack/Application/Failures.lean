import Mathlib
import Northstack.Adapters.ResultMarks
import Northstack.Application.Durability

/-!
# Failed tools in later requests

A result joins the conversation as a tool message that the loop builds itself
(worker.py:919-925), without the flag that `ModelMessage.from_tool_result` would
keep. So no adapter is told of a failure.

**Results.**
* `Worked.joins`: with which message a result joins a conversation.
* `failures_marked_iff`: in the runs of any cells each protocol marks the failed
  results, and no others, in all later requests if and only if no failed result,
  and no text that begins with OpenAI's marker, is sent again.
-/
namespace Northstack

open Coop CellRunner

/-- The message of a result: its content and its call. -/
def ToolResultMessage.message (r : ToolResultMessage) : ModelMessage :=
  { role := .tool, content := r.content, toolCallId := r.toolCallId }

/-- A result's message is the last of the conversation it has joined. -/
def Obs.Joins : Obs → Prop
  | .passed _ _ (.answered r) ms => ms.getLast? = some r.message
  | _ => True

theorem resolve_toolCallId (w : WorkerInput) (answer : ToolAnswer) (call : ToolCall) :
    (Worker.resolve w answer call).toolCallId = call.id := by
  unfold Worker.resolve
  split
  · rfl
  · split
    · rfl
    · split <;> rfl
    · rfl
    · rfl

section Attempt

variable {w : WorkerInput} {profile : ModelProfile} {window : Nat} {t : Turn} {ts : List Turn}
  {r : ModelResponse} {c c' : Conv} {notes : List Obs} {next : WorkerResult ⊕ Conv}

theorem answerCalls_joins (t : Turn) (calls : List (ToolCall × Nat)) (c : Conv) :
    ∀ o ∈ (answerCalls w t calls c).1, o.Joins := by
  induction calls generalizing c with
  | nil => exact List.forall_mem_nil _
  | cons call calls ih =>
    intro o ho
    rcases List.mem_cons.mp ho with rfl | ho
    · unfold WorkerInput.passed Obs.Joins ToolResultMessage.message Conv.addToolResult
      dsimp only
      rw [List.getLast?_concat, resolve_toolCallId]
    · exact ih _ o ho

theorem Compacted.joins (h : Compacted w window c notes c') : ∀ o ∈ notes, o.Joins := by
  cases h with
  | kept => exact List.forall_mem_nil _
  | elided => exact List.forall_mem_singleton.mpr trivial

theorem Replied.joins (h : Replied w profile t r c notes next) : ∀ o ∈ notes, o.Joins := by
  cases h with
  | ended => exact List.forall_mem_singleton.mpr trivial
  | continued => exact List.forall_mem_cons.mpr ⟨trivial, List.forall_mem_singleton.mpr trivial⟩
  | cut => exact List.forall_mem_cons.mpr ⟨trivial, answerCalls_joins t _ _⟩
  | round hcalls h =>
    subst h
    refine List.forall_mem_cons.mpr ⟨trivial, List.forall_mem_append.mpr ⟨?_, ?_⟩⟩
    · exact answerCalls_joins t _ _
    · exact List.forall_mem_singleton.mpr trivial

theorem Sent.joins (h : Sent w profile t c notes next) : ∀ o ∈ notes, o.Joins := by
  cases h with
  | starved => exact List.forall_mem_nil _
  | unanswered => exact List.forall_mem_cons.mpr ⟨trivial, List.forall_mem_singleton.mpr trivial⟩
  | answered _ _ hnext =>
    exact List.forall_mem_cons.mpr ⟨trivial, List.forall_mem_cons.mpr ⟨trivial, hnext.joins⟩⟩

theorem Turned.joins (h : Turned w profile t c notes next) : ∀ o ∈ notes, o.Joins := by
  cases h with
  | stopped => exact List.forall_mem_nil _
  | went _ hc hs => exact List.forall_mem_append.mpr ⟨hc.joins, hs.joins⟩

theorem Looped.joins {result : Option WorkerResult} (h : Looped w profile ts c notes result) :
    ∀ o ∈ notes, o.Joins := by
  induction h with
  | out => exact List.forall_mem_nil _
  | last h => exact h.joins
  | more h _ ih => exact List.forall_mem_append.mpr ⟨h.joins, ih⟩

/-- In an attempt each result joins with its message. -/
theorem Worked.joins {a : Attempt} {resume : Option (List ModelMessage)}
    {result : Option WorkerResult} (h : Worked w a resume notes result) :
    ∀ o ∈ notes, o.Joins := by
  cases h with
  | unresolved => exact List.forall_mem_nil _
  | looped _ hs => exact List.forall_mem_cons.mpr ⟨trivial, hs.joins⟩

end Attempt

/-- Nothing of it depends on the attempts before. -/
def joinsHandover (c : CellInput) : Handover c where
  keeps told := ∀ o ∈ told, o.Joins
  before _ _ _ := True
  behind _ _ _ := True
  fresh := ⟨List.forall_mem_nil _, trivial⟩
  restored _ := ⟨List.forall_mem_singleton.mpr trivial, trivial⟩
  attempt _ hk hworked :=
    ⟨fun _ hp => ⟨List.forall_mem_append.mpr ⟨hk, fun o ho => hworked.joins o (hp.subset ho)⟩,
      trivial⟩, fun _ _ => trivial⟩
  handed _ hk _ _ :=
    ⟨List.forall_mem_append.mpr ⟨hk, List.forall_mem_singleton.mpr trivial⟩, trivial⟩
  raised _ hk :=
    ⟨List.forall_mem_append.mpr ⟨hk, List.forall_mem_singleton.mpr trivial⟩, trivial⟩

/-! ## Runs one after another -/

/-- A run of `run_cell`, among others and interrupted anywhere. -/
structure CellRun where
  cell : CellInput
  script : List Attempt
  gaps : List (Gap St Exc)
  state : St

def CellRun.told (run : CellRun) : List Obs :=
  (runCell run.cell run.script).heard turnNotes run.gaps run.state

theorem told_joins (runs : List CellRun) : ∀ o ∈ runs.flatMap CellRun.told, o.Joins := by
  intro o ho
  obtain ⟨run, -, ho⟩ := List.mem_flatMap.mp ho
  exact (joinsHandover run.cell).heard run.script run.gaps run.state o ho

/-- The message with which the result of a call joined its conversation is in a
later request. -/
structure Resent (told : List Obs) (r : ToolResultMessage) (m : ModelMessage)
    (request : List ModelMessage) : Prop where
  later : ∃ before id n ms between id' n' after, m ∈ ms.getLast? ∧
    told = before ++ .passed id n (.answered r) ms :: (between ++ .requested id' n' request :: after)
  sent : m ∈ request

/-- In every later request a result is marked as an error exactly if it is one. -/
def MarksFailures (p : Protocol) (told : List Obs) : Prop :=
  ∀ r m request, Resent told r m request → ∀ i : Nat, (toolMessages request)[i]? = some m →
    (p.marks (p.convertMessages request))[i]? = some r.isError

/-- The message says nothing of a failure. -/
theorem Resent.message {told : List Obs} {r : ToolResultMessage} {m : ModelMessage}
    {request : List ModelMessage} (h : Resent told r m request) (hj : ∀ o ∈ told, o.Joins) :
    m = r.message := by
  obtain ⟨before, id, n, ms, between, id', n', after, hm, rfl⟩ := h.later
  have hlast := hj _ (List.mem_append_right _ List.mem_cons_self)
  exact Option.some.inj (hm.symm.trans hlast)

/-- It is some result of the request. -/
theorem Resent.place {told : List Obs} {r : ToolResultMessage} {m : ModelMessage}
    {request : List ModelMessage} (h : Resent told r m request) (hj : ∀ o ∈ told, o.Joins) :
    ∃ i : Nat, (toolMessages request)[i]? = some m := by
  refine List.mem_iff_getElem?.mp (List.mem_filter.mpr ⟨h.sent, ?_⟩)
  rw [h.message hj]
  rfl

/-- What a protocol makes of a result's message. -/
theorem mark_message (p : Protocol) (r : ToolResultMessage) :
    p.mark r.message = (decide (p = .openai) && startsMarked r.content) := by
  cases p <;> rfl

theorem Resent.mark {told : List Obs} {r : ToolResultMessage} {m : ModelMessage}
    {request : List ModelMessage} (h : Resent told r m request) (hj : ∀ o ∈ told, o.Joins)
    (p : Protocol) {i : Nat} (hi : (toolMessages request)[i]? = some m) :
    (p.marks (p.convertMessages request))[i]? =
      some (decide (p = .openai) && startsMarked r.content) := by
  rw [p.marks_convert, List.getElem?_map, hi, ← mark_message, ← h.message hj]
  rfl

/-- **Failures on the wire.** In the runs of any cells one after another, each
protocol marks exactly the failed results in all later requests if and only if
no failed result is sent again, and no text that begins with OpenAI's marker. -/
theorem failures_marked_iff (runs : List CellRun) :
    (∀ p, MarksFailures p (runs.flatMap CellRun.told)) ↔
      ∀ r m request, Resent (runs.flatMap CellRun.told) r m request →
        r.isError = false ∧ startsMarked r.content = false := by
  have hj := told_joins runs
  constructor
  · intro h r m request hr
    obtain ⟨i, hi⟩ := hr.place hj
    have herror : r.isError = false := by
      have he := h .anthropic r m request hr i hi
      rw [hr.mark hj .anthropic hi] at he
      exact (Option.some.inj he).symm
    have hopen := h .openai r m request hr i hi
    rw [hr.mark hj .openai hi, herror] at hopen
    exact ⟨herror, Option.some.inj hopen⟩
  · intro h p r m request hr i hi
    obtain ⟨herror, htext⟩ := h r m request hr
    rw [hr.mark hj p hi, htext, herror, Bool.and_false]

/-! ## A failure that goes unmarked -/

/-- A message that has what a result's message has. -/
def ToolResultMessage.isMessage (r : ToolResultMessage) (m : ModelMessage) : Bool :=
  m.role = .tool && m.content = r.content && m.toolCalls.isEmpty && m.toolCallId = r.toolCallId &&
    !m.isError

theorem ToolResultMessage.eq_message {r : ToolResultMessage} {m : ModelMessage}
    (h : r.isMessage m = true) : m = r.message := by
  obtain ⟨role, content, calls, id, isError⟩ := m
  simp only [isMessage, Bool.and_eq_true, decide_eq_true_eq, List.isEmpty_iff,
    Bool.not_eq_true'] at h
  obtain ⟨⟨⟨⟨rfl, rfl⟩, rfl⟩, rfl⟩, rfl⟩ := h
  rfl

/-- Whether a request has the message of a result. -/
def Obs.resends (r : ToolResultMessage) : Obs → Bool
  | .requested _ _ request => request.any r.isMessage
  | _ => false

/-- Whether a failed result is sent again. -/
def resendsFailure : List Obs → Bool
  | [] => false
  | .passed _ _ (.answered r) _ :: told => r.isError && told.any (Obs.resends r) || resendsFailure told
  | _ :: told => resendsFailure told

theorem Resent.behind {told : List Obs} {r : ToolResultMessage} {m : ModelMessage}
    {request : List ModelMessage} (h : Resent told r m request) (o : Obs) :
    Resent (o :: told) r m request := by
  obtain ⟨⟨before, id, n, ms, between, id', n', after, hm, rfl⟩, hsent⟩ := h
  exact ⟨⟨o :: before, id, n, ms, between, id', n', after, hm, rfl⟩, hsent⟩

theorem exists_resent {told : List Obs} (hj : ∀ o ∈ told, o.Joins)
    (h : resendsFailure told = true) : ∃ r m request, Resent told r m request ∧ r.isError = true := by
  induction told with
  | nil => cases h
  | cons o told ih =>
    have hrest (h : resendsFailure told = true) :
        ∃ r m request, Resent (o :: told) r m request ∧ r.isError = true := by
      obtain ⟨r, m, request, hr, he⟩ := ih (fun x hx => hj x (List.mem_cons_of_mem _ hx)) h
      exact ⟨r, m, request, hr.behind o, he⟩
    unfold resendsFailure at h
    split at h
    · cases h
    · rename_i id n r ms told' he
      obtain ⟨rfl, rfl⟩ := List.cons.inj he
      rcases Bool.or_eq_true_iff.mp h with h | h
      · obtain ⟨herror, hany⟩ := (Bool.and_eq_true _ _).mp h
        obtain ⟨o', ho', hresends⟩ := List.any_eq_true.mp hany
        obtain ⟨between, after, rfl⟩ := List.append_of_mem ho'
        cases o' with
        | requested id' n' request =>
          obtain ⟨m, hm, hmessage⟩ := List.any_eq_true.mp hresends
          have hlast := hj _ List.mem_cons_self
          refine ⟨r, m, request, ⟨⟨[], id, n, ms, between, id', n', after, ?_, rfl⟩, hm⟩, herror⟩
          rw [ToolResultMessage.eq_message hmessage]
          exact hlast
        | _ => cases hresends
      · exact hrest h
    · rename_i he
      obtain ⟨rfl, rfl⟩ := List.cons.inj he
      exact hrest h

/-- An unknown tool is called, and its failure is sent with the next turn. -/
def failureRun : CellRun where
  cell := turnCell []
  script := [attemptOf 100 [callsUnknown, repliesWith "done"]]
  gaps := List.replicate 60 ⟨id, .resume⟩
  state := {}

/-- No block of the second request says so. -/
theorem failure_unmarked : ¬ MarksFailures .anthropic ([failureRun].flatMap CellRun.told) := by
  intro h
  have hj := told_joins [failureRun]
  obtain ⟨r, m, request, hr, herror⟩ := exists_resent hj (by decide +kernel)
  obtain ⟨i, hi⟩ := hr.place hj
  have hmark := h r m request hr i hi
  rw [hr.mark hj .anthropic hi, herror] at hmark
  cases hmark

end Northstack
