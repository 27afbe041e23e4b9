import Northstack.Adapters.Exchange
import Northstack.Core.JsonRoundTrip

/-!
# Conversations on the wire

`_convert_messages` of the three adapters (adapters/providers/gateway.py) for
conversations without images, and a reader of what each puts on the wire.

**Results.**
* `anthropic_converts`, `gemini_converts`: the wire messages are the
  conversation's entries, the results of one turn merged, one message each.
* `conversations_read_back`: read back in order, the wire messages say what the
  conversation says.
-/
namespace Northstack

open JsonText

/-- `MessageRole.value` -/
def MessageRole.value : MessageRole → String
  | .system => "system"
  | .user => "user"
  | .assistant => "assistant"
  | .tool => "tool"

/-- `_TOOL_ERROR_PREFIX` -/
def toolErrorPrefix : String := "[tool_error] "

/-- `_tool_result_text` (gateway.py:378-381) -/
def toolResultText (m : ModelMessage) : String :=
  if m.isError then toolErrorPrefix ++ m.content else m.content

/-! ## OpenAI -/

namespace OpenAIAdapter

def rawCall (tc : ToolCall) : Json :=
  .obj
    [("id", .str tc.id), ("type", .str "function"),
      ("function", .obj
        [("name", .str tc.name), ("arguments", .str (dumps .default (.obj tc.arguments)))])]

def convertMessage (m : ModelMessage) : Json :=
  if m.role = .assistant ∧ ¬ m.toolCalls.isEmpty then
    .obj
      [("role", .str "assistant"),
        ("content", if m.content = "" then .null else .str m.content),
        ("tool_calls", .arr (m.toolCalls.map rawCall))]
  else if m.role = .tool then
    .obj
      [("role", .str "tool"), ("tool_call_id", .str m.toolCallId),
        ("content", .str (toolResultText m))]
  else .obj [("role", .str m.role.value), ("content", .str m.content)]

/-- `OpenAIAdapter._convert_messages` (gateway.py:1342-1384) -/
def convertMessages (ms : List ModelMessage) : List Json := ms.map convertMessage

/-- A call's arguments are a JSON text. -/
def readCall (j : Json) : Option SaidCall := do
  let id ← j.str? "id"
  let function ← j.get? "function"
  let name ← function.str? "name"
  let text ← function.str? "arguments"
  match loads text with
  | .ok (.obj arguments) => some ⟨id, name, arguments⟩
  | _ => none

/-- A result that starts with the marker is a failure. -/
def readResult (id text : String) : SaidResult :=
  if toolErrorPrefix.toList <+: text.toList then
    ⟨id, String.ofList (text.toList.drop toolErrorPrefix.length), true⟩
  else ⟨id, text, false⟩

def readMessage (j : Json) : Option Entry := do
  match ← j.str? "role" with
  | "tool" =>
    let id ← j.str? "tool_call_id"
    let text ← j.str? "content"
    some (.results [readResult id text])
  | "assistant" =>
    let calls ← ((j.list? "tool_calls").getD []).mapM readCall
    some (.said .assistant ((j.str? "content").getD "") calls)
  | "user" => some (.said .user ((j.str? "content").getD "") [])
  | _ => none

/-- The system's instructions stay in the list of messages. -/
def isSystem (j : Json) : Bool := j.str? "role" = some "system"

end OpenAIAdapter

/-! ## Anthropic -/

namespace AnthropicAdapter

def textBlock (text : String) : Json := .obj [("type", .str "text"), ("text", .str text)]

def toolUse (tc : ToolCall) : Json :=
  .obj [("type", .str "tool_use"), ("id", .str tc.id), ("name", .str tc.name),
    ("input", .obj tc.arguments)]

def resultBlock (m : ModelMessage) : Json :=
  .obj ([("type", .str "tool_result"), ("tool_use_id", .str m.toolCallId)] ++
    (if m.content = "" then [] else [("content", .str m.content)]) ++
    (if m.isError then [("is_error", .bool true)] else []))

/-- The last message is one of the user's with a list of blocks. -/
def takesResult (messages : List Json) : Bool :=
  match messages.getLast? with
  | some last => last.str? "role" = some "user" ∧ (last.list? "content").isSome
  | none => false

def convertStep (messages : List Json) (m : ModelMessage) : List Json :=
  if m.role = .system then messages
  else if m.role = .assistant ∧ ¬ m.toolCalls.isEmpty then
    messages ++ [.obj
      [("role", .str "assistant"),
        ("content", .arr ((if m.content = "" then [] else [textBlock m.content]) ++
          m.toolCalls.map toolUse))]]
  else if m.role = .tool then
    if takesResult messages then
      messages.dropLast ++ messages.getLast?.toList.map (Json.extend "content" [resultBlock m])
    else messages ++ [.obj [("role", .str "user"), ("content", .arr [resultBlock m])]]
  else messages ++ [.obj [("role", .str m.role.value), ("content", .str m.content)]]

/-- `AnthropicAdapter._convert_messages` (gateway.py:1570-1636) -/
def convertMessages (ms : List ModelMessage) : List Json := ms.foldl convertStep []

def readCall (j : Json) : Option SaidCall := do
  let id ← j.str? "id"
  let name ← j.str? "name"
  let input ← j.obj? "input"
  some ⟨id, name, input⟩

def readResult (j : Json) : Option SaidResult := do
  let id ← j.str? "tool_use_id"
  some ⟨id, (j.str? "content").getD "", (j.get? "is_error").isSome⟩

/-- Text blocks stand before the calls. -/
def readBlocks : List Json → Option Entry
  | [] => some (.said .assistant "" [])
  | b :: bs =>
    match b.str? "text" with
    | some text => (bs.mapM readCall).map (.said .assistant text)
    | none => ((b :: bs).mapM readCall).map (.said .assistant "")

def readMessage (j : Json) : Option Entry := do
  match ← j.str? "role", ← j.get? "content" with
  | "user", .str text => some (.said .user text [])
  | "user", .arr blocks => (blocks.mapM readResult).map .results
  | "assistant", .str text => some (.said .assistant text [])
  | "assistant", .arr blocks => readBlocks blocks
  | _, _ => none

end AnthropicAdapter

/-! ## Gemini -/

namespace GeminiAdapter

/-- `_GEMINI_ROLES.get(role, "user")` (gateway.py:1696) -/
def role : MessageRole → String
  | .assistant => "model"
  | _ => "user"

/-- What the loop keeps: the names of the calls so far and the contents. -/
structure Conversion where
  callNames : List (String × String) := []
  contents : List Json := []

def callPart (tc : ToolCall) : Json :=
  .obj (("functionCall", .obj [("name", .str tc.name), ("args", .obj tc.arguments)]) ::
    if tc.signature = "" then [] else [("thoughtSignature", .str tc.signature)])

def responsePart (callNames : List (String × String)) (m : ModelMessage) : Json :=
  .obj [("functionResponse", .obj
    [("name", .str ((callNames.lookup m.toolCallId).getD m.toolCallId)),
      ("response", .obj [(if m.isError then "error" else "result", .str m.content)])])]

/-- The last content is one of the user's. -/
def takesResult (contents : List Json) : Bool :=
  match contents.getLast? with
  | some last => last.str? "role" = some "user"
  | none => false

def convertStep (c : Conversion) (m : ModelMessage) : Conversion :=
  if m.role = .system then c
  else if m.role = .tool then
    let parts := [responsePart c.callNames m]
    if takesResult c.contents then
      { c with
        contents := c.contents.dropLast ++
          c.contents.getLast?.toList.map (Json.extend "parts" parts) }
    else
      { c with
        contents := c.contents ++ [.obj [("role", .str (role m.role)), ("parts", .arr parts)]] }
  else
    let parts := (if m.content = "" then [] else [.obj [("text", .str m.content)]]) ++
      m.toolCalls.map callPart
    { callNames := m.toolCalls.foldl (fun names tc => (tc.id, tc.name) :: names) c.callNames
      contents := c.contents ++ [.obj [("role", .str (role m.role)), ("parts", .arr parts)]] }

/-- `GeminiAdapter._convert_messages` (gateway.py:1789-1833) -/
def convertMessages (ms : List ModelMessage) : List Json := (ms.foldl convertStep {}).contents

def readCall (j : Json) : Option SaidCall := do
  let call ← j.get? "functionCall"
  let name ← call.str? "name"
  let args ← call.obj? "args"
  some ⟨(j.str? "thoughtSignature").getD "", name, args⟩

def readResult (j : Json) : Option SaidResult := do
  let response ← j.get? "functionResponse"
  let name ← response.str? "name"
  let outcome ← response.get? "response"
  match outcome.str? "error" with
  | some text => some ⟨name, text, true⟩
  | none => (outcome.str? "result").map fun text => ⟨name, text, false⟩

/-- A text stands before the calls. -/
def readParts (role : MessageRole) : List Json → Option Entry
  | [] => some (.said role "" [])
  | p :: ps =>
    match p.str? "text" with
    | some text => (ps.mapM readCall).map (.said role text)
    | none => ((p :: ps).mapM readCall).map (.said role "")

def readContent (j : Json) : Option Entry := do
  match ← j.str? "role", ← j.list? "parts" with
  | "model", parts => readParts .assistant parts
  | "user", [] => some (.said .user "" [])
  | "user", p :: ps =>
    match p.get? "functionResponse" with
    | some _ => ((p :: ps).mapM readResult).map .results
    | none => readParts .user (p :: ps)
  | _, _ => none

end GeminiAdapter

/-! ## Entries that are sent -/

/-- The user only says something, and there is a result where there are any. -/
def Entry.Sendable : Entry → Prop
  | .said role _ calls => role = .assistant ∨ role = .user ∧ calls = []
  | .results rs => rs ≠ []

theorem joined_sendable {rs : List SaidResult} {es : List Entry} (hr : rs ≠ [])
    (h : ∀ e ∈ es, e.Sendable) : ∀ e ∈ joined rs es, e.Sendable := by
  have hcons : ∀ e ∈ Entry.results rs :: es, e.Sendable := by
    intro e he
    rcases List.mem_cons.mp he with rfl | he
    · exact hr
    · exact h e he
  rcases es with _ | ⟨e, es⟩
  · exact hcons
  · cases e with
    | said => exact hcons
    | results rs' =>
      intro e he
      rcases List.mem_cons.mp he with rfl | he
      · exact List.append_ne_nil_of_left_ne_nil hr rs'
      · exact h e (List.mem_cons_of_mem _ he)

theorem merged_sendable {es : List Entry} (h : ∀ e ∈ es, e.Sendable) :
    ∀ e ∈ merged es, e.Sendable := by
  induction es with
  | nil => exact h
  | cons e es ih =>
    have ih := ih fun x hx => h x (List.mem_cons_of_mem _ hx)
    have he := h e List.mem_cons_self
    cases e with
    | results rs => exact joined_sendable he ih
    | said =>
      intro x hx
      rcases List.mem_cons.mp hx with rfl | hx
      · exact he
      · exact ih x hx

theorem entries_sendable {N : Naming} {opened : List ToolCall} {ms : List ModelMessage}
    (ho : (opened.map (·.id)).Nodup) (h : Answering opened ms) :
    ∀ e ∈ entries N opened ms, e.Sendable := by
  induction ms generalizing opened with
  | nil => exact List.forall_mem_nil _
  | cons m ms ih =>
    obtain ⟨ht, hc, hn, hms⟩ := h
    intro e he
    rcases List.mem_append.mp he with he | he
    · cases hr : m.role with
      | system =>
        rw [entry_system hr] at he
        cases he
      | tool =>
        obtain ⟨c, hc, hid⟩ := ht hr
        rw [entry_result hr ho hc hid] at he
        rw [List.mem_singleton.mp he]
        exact List.cons_ne_nil _ _
      | user =>
        rw [entry_said (by simp [hr]) (by simp [hr]), hc (by simp [hr])] at he
        rw [List.mem_singleton.mp he]
        exact .inr ⟨hr, rfl⟩
      | assistant =>
        rw [entry_said (by simp [hr]) (by simp [hr])] at he
        rw [List.mem_singleton.mp he]
        exact .inl hr
    · exact ih (opens_nodup ho hn) hms e he

/-- Reading each of what was written. -/
theorem mapM_written {α : Type} {write : α → Json} {read : Json → Option α}
    (h : ∀ x, read (write x) = some x) (xs : List α) : (xs.map write).mapM read = some xs := by
  induction xs with
  | nil => rfl
  | cons x xs ih => simp [h, ih]

/-! ## Anthropic's messages -/

namespace AnthropicAdapter

def wireCall (c : SaidCall) : Json :=
  toolUse { id := c.key, name := c.name, arguments := c.arguments }

def wireResult (r : SaidResult) : Json :=
  resultBlock { role := .tool, content := r.content, toolCallId := r.call, isError := r.isError }

/-- The message of an entry. -/
def wireMessage : Entry → Json
  | .said role content calls =>
    if role = .assistant ∧ ¬ calls.isEmpty then
      .obj [("role", .str "assistant"),
        ("content", .arr ((if content = "" then [] else [textBlock content]) ++
          calls.map wireCall))]
    else .obj [("role", .str role.value), ("content", .str content)]
  | .results rs => .obj [("role", .str "user"), ("content", .arr (rs.map wireResult))]

/-- No result joins what the user or the model said. -/
theorem takesResult_said (pre : List Entry) (role : MessageRole) (content : String)
    (calls : List SaidCall) :
    takesResult (pre.map wireMessage ++ [.said role content calls].map wireMessage) = false := by
  unfold takesResult
  rw [List.map_singleton, List.getLast?_concat]
  simp only [wireMessage]
  split
  · simp [Json.str?, Json.get?, Json.lookup]
  · simp [Json.list?, Json.get?, Json.lookup]

theorem convertStep_wire {opened : List ToolCall} {m : ModelMessage} (es : List Entry)
    (ho : (opened.map (·.id)).Nodup) (ht : m.role = .tool → ∃ c ∈ opened, c.id = m.toolCallId) :
    convertStep (es.map wireMessage) m =
      ((m.entry .byId opened).foldl push es).map wireMessage := by
  by_cases hs : m.role = .system
  · rw [entry_system hs, convertStep, if_pos hs]
    rfl
  by_cases hr : m.role = .tool
  · obtain ⟨c, hc, hid⟩ := ht hr
    rw [entry_result hr ho hc hid, convertStep, if_neg hs, if_neg (by simp [hr]), if_pos hr]
    show _ = (pushResults es [⟨c.id, m.content, m.isError⟩]).map wireMessage
    have hblock : resultBlock m = wireResult ⟨c.id, m.content, m.isError⟩ := by
      rw [hid]
      rfl
    rcases List.eq_nil_or_concat es with rfl | ⟨pre, e, rfl⟩
    · rw [hblock]
      rfl
    · rw [List.concat_eq_append]
      cases e with
      | said role content calls =>
        have htakes : takesResult ((pre ++ [Entry.said role content calls]).map wireMessage) =
            false := by
          rw [List.map_append]
          exact takesResult_said pre role content calls
        rw [htakes, if_neg Bool.false_ne_true, pushResults_new (by simp), hblock]
        simp [wireMessage]
      | results rs =>
        rw [pushResults_join, hblock]
        simp [takesResult, wireMessage, Json.str?, Json.list?, Json.get?, Json.lookup, Json.extend]
  · rw [entry_said hs hr, convertStep, if_neg hs, if_neg hr]
    simp only [List.foldl_cons, List.foldl_nil, push, List.map_append, List.map_cons, List.map_nil,
      wireMessage, List.isEmpty_map, List.map_map]
    split
    · rfl
    · rfl

theorem foldl_convertStep {opened : List ToolCall} {ms : List ModelMessage} (es : List Entry)
    (ho : (opened.map (·.id)).Nodup) (h : Answering opened ms) :
    ms.foldl convertStep (es.map wireMessage) =
      ((entries .byId opened ms).foldl push es).map wireMessage := by
  induction ms generalizing opened es with
  | nil => rfl
  | cons m ms ih =>
    obtain ⟨ht, hc, hn, hms⟩ := h
    rw [List.foldl_cons, convertStep_wire es ho ht, ih _ (opens_nodup ho hn) hms, entries,
      List.foldl_append]

/-- **Anthropic.** The messages are the entries, merged. -/
theorem anthropic_converts {ms : List ModelMessage} (h : Answering [] ms) :
    convertMessages ms = (merged (entries .byId [] ms)).map wireMessage := by
  rw [← foldl_push]
  exact foldl_convertStep [] List.nodup_nil h

theorem readCall_wire (c : SaidCall) : readCall (wireCall c) = some c := rfl

theorem readResult_wire (r : SaidResult) : readResult (wireResult r) = some r := by
  obtain ⟨call, content, isError⟩ := r
  by_cases hc : content = ""
  · cases isError <;>
      simp [wireResult, resultBlock, readResult, hc, Json.str?, Json.get?, Json.lookup]
  · cases isError <;>
      simp [wireResult, resultBlock, readResult, hc, Json.str?, Json.get?, Json.lookup]

theorem readMessage_wire {e : Entry} (h : e.Sendable) : readMessage (wireMessage e) = some e := by
  cases e with
  | results rs =>
    simp [wireMessage, readMessage, Json.str?, Json.get?, Json.lookup,
      mapM_written readResult_wire]
  | said role content calls =>
    rcases h with rfl | ⟨rfl, rfl⟩
    · cases calls with
      | nil =>
        simp [wireMessage, readMessage, MessageRole.value, Json.str?, Json.get?, Json.lookup]
      | cons c cs =>
        have hblocks : readBlocks ((if content = "" then [] else [textBlock content]) ++
            (c :: cs).map wireCall) = some (.said .assistant content (c :: cs)) := by
          have hcalls := mapM_written readCall_wire (c :: cs)
          have htext : (wireCall c).str? "text" = none := rfl
          by_cases hc : content = ""
          · rw [if_pos hc, List.nil_append, List.map_cons, readBlocks, htext, ← List.map_cons,
              hcalls, hc]
            rfl
          · rw [if_neg hc, List.singleton_append, readBlocks,
              show (textBlock content).str? "text" = some content from rfl, hcalls]
            rfl
        exact hblocks
    · simp [wireMessage, readMessage, MessageRole.value, Json.str?, Json.get?, Json.lookup]

end AnthropicAdapter

/-! ## Gemini's contents -/

namespace GeminiAdapter

def wireCall (c : SaidCall) : Json :=
  callPart { id := "", name := c.name, arguments := c.arguments, signature := c.key }

def wireResult (r : SaidResult) : Json :=
  .obj [("functionResponse", .obj
    [("name", .str r.call),
      ("response", .obj [(if r.isError then "error" else "result", .str r.content)])])]

/-- The content of an entry. -/
def wireContent : Entry → Json
  | .said r content calls =>
    .obj [("role", .str (role r)),
      ("parts", .arr ((if content = "" then [] else [.obj [("text", .str content)]]) ++
        calls.map wireCall))]
  | .results rs => .obj [("role", .str "user"), ("parts", .arr (rs.map wireResult))]

/-- The names of the open calls are the last ones kept. -/
def Knows (callNames : List (String × String)) (opened : List ToolCall) : Prop :=
  ∀ c ∈ opened, callNames.lookup c.id = some c.name

/-- The calls of a turn are kept over those of earlier turns. -/
theorem knows_calls (callNames : List (String × String)) {calls : List ToolCall}
    (hn : (calls.map (·.id)).Nodup) :
    Knows (calls.foldl (fun names tc => (tc.id, tc.name) :: names) callNames) calls := by
  have hkeep (calls : List ToolCall) (id : String) (hid : id ∉ calls.map (·.id)) :
      ∀ names : List (String × String),
        (calls.foldl (fun names tc => (tc.id, tc.name) :: names) names).lookup id =
          names.lookup id := by
    induction calls with
    | nil => exact fun _ => rfl
    | cons c cs ih =>
      intro names
      rw [List.map_cons, List.mem_cons, not_or] at hid
      rw [List.foldl_cons, ih hid.2, List.lookup_cons, beq_false_of_ne hid.1]
  induction calls generalizing callNames with
  | nil => exact List.forall_mem_nil _
  | cons c cs ih =>
    rw [List.map_cons, List.nodup_cons] at hn
    intro d hd
    rw [List.foldl_cons]
    rcases List.mem_cons.mp hd with rfl | hd
    · rw [hkeep cs d.id hn.1, List.lookup_cons_self]
    · exact ih _ hn.2 d hd

/-- A result joins what stands last exactly if that is results, for a call is
open. -/
theorem takesResult_open {opened : List ToolCall} {es : List Entry} (hb : OpenBehind opened es)
    (ho : opened ≠ []) (r : MessageRole) (content : String) (calls : List SaidCall)
    (hl : es.getLast? = some (.said r content calls)) :
    takesResult (es.map wireContent) = false := by
  have hr : r = .assistant := by
    by_contra hne
    exact ho (hb r content calls hl hne)
  unfold takesResult
  rw [List.getLast?_map, hl, hr]
  simp [wireContent, role, Json.str?, Json.get?, Json.lookup]

theorem convertStep_wire {opened : List ToolCall} {m : ModelMessage} {es : List Entry}
    {callNames : List (String × String)} (ho : (opened.map (·.id)).Nodup)
    (hk : Knows callNames opened) (hb : OpenBehind opened es)
    (ht : m.role = .tool → ∃ c ∈ opened, c.id = m.toolCallId)
    (hn : (m.toolCalls.map (·.id)).Nodup) :
    ∃ callNames', Knows callNames' (m.opens opened) ∧
      convertStep ⟨callNames, es.map wireContent⟩ m =
        ⟨callNames', ((m.entry .byName opened).foldl push es).map wireContent⟩ := by
  by_cases hs : m.role = .system
  · rw [opens_kept (.inl hs), entry_system hs, convertStep, if_pos hs]
    exact ⟨callNames, hk, rfl⟩
  by_cases hr : m.role = .tool
  · obtain ⟨c, hc, hid⟩ := ht hr
    rw [opens_kept (.inr hr)]
    refine ⟨callNames, hk, ?_⟩
    rw [entry_result hr ho hc hid, convertStep, if_neg hs, if_pos hr]
    have hpart : responsePart callNames m = wireResult ⟨c.name, m.content, m.isError⟩ := by
      unfold responsePart
      rw [← hid, hk c hc]
      rfl
    show _ = Conversion.mk callNames
      ((pushResults es [⟨c.name, m.content, m.isError⟩]).map wireContent)
    rw [hpart]
    rcases List.eq_nil_or_concat es with rfl | ⟨pre, e, rfl⟩
    · simp [takesResult, pushResults, wireContent, role, hr]
    · rw [List.concat_eq_append] at hb ⊢
      cases e with
      | said r content calls =>
        have htakes := takesResult_open hb (List.ne_nil_of_mem hc) r content calls
          List.getLast?_concat
        simp only [htakes, if_neg Bool.false_ne_true]
        rw [pushResults_new (by simp)]
        simp [wireContent, role, hr]
      | results rs =>
        rw [pushResults_join]
        simp [takesResult, wireContent, Json.str?, Json.get?, Json.lookup, Json.extend]
  · rw [opens_said hs hr, entry_said hs hr, convertStep, if_neg hs, if_neg hr]
    refine ⟨_, knows_calls callNames hn, ?_⟩
    simp only [List.foldl_cons, List.foldl_nil, push, List.map_append, List.map_cons, List.map_nil,
      wireContent, List.map_map]
    rfl

theorem foldl_convertStep {opened : List ToolCall} {ms : List ModelMessage} (es : List Entry)
    {callNames : List (String × String)} (ho : (opened.map (·.id)).Nodup)
    (hk : Knows callNames opened) (hb : OpenBehind opened es) (h : Answering opened ms) :
    (ms.foldl convertStep ⟨callNames, es.map wireContent⟩).contents =
      ((entries .byName opened ms).foldl push es).map wireContent := by
  induction ms generalizing opened es callNames with
  | nil => rfl
  | cons m ms ih =>
    obtain ⟨ht, hc, hn, hms⟩ := h
    obtain ⟨callNames', hk', hstep⟩ := convertStep_wire ho hk hb ht hn
    rw [List.foldl_cons, hstep, ih _ (opens_nodup ho hn) hk' (hb.push hc) hms, entries,
      List.foldl_append]

/-- **Gemini.** The contents are the entries, merged. -/
theorem gemini_converts {ms : List ModelMessage} (h : Answering [] ms) :
    convertMessages ms = (merged (entries .byName [] ms)).map wireContent := by
  rw [← foldl_push]
  exact foldl_convertStep [] List.nodup_nil (List.forall_mem_nil _) nofun h

theorem readCall_wire (c : SaidCall) : readCall (wireCall c) = some c := by
  obtain ⟨key, name, arguments⟩ := c
  by_cases hk : key = ""
  · simp [wireCall, callPart, readCall, hk, Json.str?, Json.obj?, Json.get?, Json.lookup]
  · simp [wireCall, callPart, readCall, hk, Json.str?, Json.obj?, Json.get?, Json.lookup]

theorem readResult_wire (r : SaidResult) : readResult (wireResult r) = some r := by
  obtain ⟨call, content, isError⟩ := r
  cases isError <;>
    simp [wireResult, readResult, Json.str?, Json.get?, Json.lookup]

theorem readParts_wire (r : MessageRole) (content : String) (calls : List SaidCall) :
    readParts r ((if content = "" then [] else [.obj [("text", .str content)]]) ++
      calls.map wireCall) = some (.said r content calls) := by
  have hcalls := mapM_written readCall_wire calls
  by_cases hc : content = ""
  · rw [if_pos hc, List.nil_append, hc]
    cases calls with
    | nil => rfl
    | cons c cs =>
      have htext : (wireCall c).str? "text" = none := by
        unfold wireCall callPart
        split <;> simp [Json.str?, Json.get?, Json.lookup]
      rw [List.map_cons, readParts, htext, ← List.map_cons, hcalls]
      rfl
  · rw [if_neg hc, List.singleton_append, readParts,
      show (Json.obj [("text", .str content)]).str? "text" = some content from rfl, hcalls]
    rfl

theorem readContent_wire {e : Entry} (h : e.Sendable) : readContent (wireContent e) = some e := by
  cases e with
  | results rs =>
    obtain ⟨r, rs, rfl⟩ := List.exists_cons_of_ne_nil h
    have hresults := mapM_written readResult_wire (r :: rs)
    rw [List.map_cons] at hresults
    show ((wireResult r :: rs.map wireResult).mapM readResult).map Entry.results = _
    rw [hresults]
    rfl
  | said r content calls =>
    rcases h with rfl | ⟨rfl, rfl⟩
    · exact readParts_wire .assistant content calls
    · by_cases hc : content = ""
      · subst hc
        rfl
      · have hparts := readParts_wire .user content []
        rw [if_neg hc] at hparts
        simp only [wireContent, if_neg hc]
        exact hparts

end GeminiAdapter

/-! ## OpenAI's messages -/

/-- A successful result does not start with the marker of a failure. -/
def ModelMessage.Unmarked (m : ModelMessage) : Prop :=
  m.role = .tool → m.isError = false → ¬ toolErrorPrefix.toList <+: m.content.toList

namespace OpenAIAdapter

theorem readResult_text {m : ModelMessage} (hr : m.role = .tool) (h : m.Unmarked) (id : String) :
    readResult id (toolResultText m) = ⟨id, m.content, m.isError⟩ := by
  unfold readResult toolResultText
  cases he : m.isError with
  | true =>
    simp only [if_true]
    rw [if_pos (by rw [String.toList_append]; exact List.prefix_append _ _),
      String.toList_append, ← String.length_toList, List.drop_left, String.ofList_toList]
  | false =>
    simp only [Bool.false_eq_true, if_false]
    rw [if_neg (h hr he)]

theorem readCall_raw {tc : ToolCall} (h : Held (.obj tc.arguments)) :
    readCall (rawCall tc) = some (Naming.byId.said tc) := by
  simp [readCall, rawCall, Json.str?, Json.get?, Json.lookup,
    loads_write Separators.spaced_default h]
  rfl

theorem mapM_readCall {calls : List ToolCall} (h : ∀ c ∈ calls, Held (.obj c.arguments)) :
    (calls.map rawCall).mapM readCall = some (calls.map Naming.byId.said) := by
  induction calls with
  | nil => rfl
  | cons c cs ih =>
    simp [readCall_raw (h c List.mem_cons_self), ih fun d hd => h d (List.mem_cons_of_mem _ hd)]

theorem isSystem_convert (m : ModelMessage) :
    isSystem (convertMessage m) = decide (m.role = .system) := by
  unfold convertMessage
  split
  · rename_i h
    simp [h.1, isSystem, Json.str?, Json.get?, Json.lookup]
  · split
    · rename_i h
      simp [h, isSystem, Json.str?, Json.get?, Json.lookup]
    · cases m.role <;> simp [MessageRole.value, isSystem, Json.str?, Json.get?, Json.lookup]

/-- A message is read back as what it says. -/
theorem readMessage_convert {opened : List ToolCall} {m : ModelMessage}
    (ho : (opened.map (·.id)).Nodup) (hs : m.role ≠ .system)
    (ht : m.role = .tool → ∃ c ∈ opened, c.id = m.toolCallId)
    (hc : m.role ≠ .assistant → m.toolCalls = [])
    (hh : ∀ c ∈ m.toolCalls, Held (.obj c.arguments)) (hu : m.Unmarked) :
    ∃ e, m.entry .byId opened = [e] ∧ readMessage (convertMessage m) = some e := by
  cases hr : m.role with
  | system => exact absurd hr hs
  | tool =>
    obtain ⟨c, hmem, hid⟩ := ht hr
    refine ⟨_, entry_result hr ho hmem hid, ?_⟩
    have hres := readResult_text hr hu m.toolCallId
    simp [convertMessage, hr, readMessage, Json.str?, Json.get?, Json.lookup, hres]
    exact hid.symm
  | user =>
    refine ⟨_, entry_said (by simp [hr]) (by simp [hr]), ?_⟩
    simp [convertMessage, hr, readMessage, MessageRole.value, Json.str?, Json.get?, Json.lookup,
      hc (by simp [hr])]
  | assistant =>
    refine ⟨_, entry_said (by simp [hr]) (by simp [hr]), ?_⟩
    cases hcs : m.toolCalls with
    | nil =>
      simp [convertMessage, hr, hcs, readMessage, MessageRole.value, Json.str?, Json.list?,
        Json.get?, Json.lookup]
    | cons c cs =>
      have hcalls := mapM_readCall hh
      have hform : convertMessage m = .obj
          [("role", .str "assistant"),
            ("content", if m.content = "" then .null else .str m.content),
            ("tool_calls", .arr (m.toolCalls.map rawCall))] := by
        unfold convertMessage
        rw [if_pos ⟨hr, by simp [hcs]⟩]
      have hrole : (convertMessage m).str? "role" = some "assistant" := by
        rw [hform]
        rfl
      have hlist : ((convertMessage m).list? "tool_calls").getD [] = m.toolCalls.map rawCall := by
        rw [hform]
        rfl
      have htext : ((convertMessage m).str? "content").getD "" = m.content := by
        rw [hform]
        by_cases he : m.content = ""
        · rw [if_pos he, he]
          rfl
        · rw [if_neg he]
          rfl
      rw [← hcs]
      simp [readMessage, hrole, hlist, htext, hcalls, hr]

/-- The messages that are not the system's, in order. -/
theorem filterMap_convert {opened : List ToolCall} {ms : List ModelMessage}
    (ho : (opened.map (·.id)).Nodup) (h : Answering opened ms)
    (hh : ∀ m ∈ ms, ∀ c ∈ m.toolCalls, Held (.obj c.arguments)) (hu : ∀ m ∈ ms, m.Unmarked) :
    ((convertMessages ms).filter fun j => !isSystem j).map readMessage =
      (entries .byId opened ms).map some := by
  induction ms generalizing opened with
  | nil => rfl
  | cons m ms ih =>
    obtain ⟨ht, hc, hn, hms⟩ := h
    have ih := ih (opens_nodup ho hn) hms (fun x hx => hh x (List.mem_cons_of_mem _ hx))
      fun x hx => hu x (List.mem_cons_of_mem _ hx)
    have hsys := isSystem_convert m
    unfold convertMessages at ih ⊢
    rw [List.map_cons, entries, List.map_append, ← ih]
    by_cases hs : m.role = .system
    · rw [List.filter_cons_of_neg (by simp [hsys, hs]), entry_system hs]
      rfl
    · obtain ⟨e, he, hread⟩ := readMessage_convert ho hs ht hc (hh m List.mem_cons_self)
        (hu m List.mem_cons_self)
      rw [List.filter_cons_of_pos (by simp [hsys, hs]), List.map_cons, hread, he]
      rfl

end OpenAIAdapter

/-! ## Every conversation -/

/-- **Conversations.** Take any conversation without images in which only the
model calls, under distinct ids in a turn, and each result answers a call of the
turn before. Read back in order, its wire messages say what it says: every text
of the user and the model, every call with its name, arguments and id (its
signature with Gemini), and every result under the id (with Gemini the name) of
the call it answers, the results of one turn merged by Anthropic and Gemini.
With OpenAI a call's arguments are written and read as JSON text, and no
successful result may start with the marker of a failure. -/
theorem conversations_read_back (ms : List ModelMessage) (h : Answering [] ms) :
    ((∀ m ∈ ms, ∀ c ∈ m.toolCalls, Held (.obj c.arguments)) → (∀ m ∈ ms, m.Unmarked) →
      ((OpenAIAdapter.convertMessages ms).filter fun j => !OpenAIAdapter.isSystem j).map
        OpenAIAdapter.readMessage = (entries .byId [] ms).map some) ∧
    (AnthropicAdapter.convertMessages ms).map AnthropicAdapter.readMessage =
      (merged (entries .byId [] ms)).map some ∧
    (GeminiAdapter.convertMessages ms).map GeminiAdapter.readContent =
      (merged (entries .byName [] ms)).map some := by
  refine ⟨OpenAIAdapter.filterMap_convert List.nodup_nil h, ?_, ?_⟩
  · have hentries : ∀ e ∈ entries .byId [] ms, e.Sendable := entries_sendable List.nodup_nil h
    have hs := merged_sendable hentries
    rw [AnthropicAdapter.anthropic_converts h, List.map_map]
    exact List.map_congr_left fun e he => AnthropicAdapter.readMessage_wire (hs e he)
  · have hentries : ∀ e ∈ entries .byName [] ms, e.Sendable := entries_sendable List.nodup_nil h
    have hs := merged_sendable hentries
    rw [GeminiAdapter.gemini_converts h, List.map_map]
    exact List.map_congr_left fun e he => GeminiAdapter.readContent_wire (hs e he)

/-- Two rounds that use one id, the second of two calls of which one fails. -/
def twoRounds : List ModelMessage :=
  [{ role := .user, content := "go" },
    { role := .assistant, toolCalls := [{ id := "1", name := "a", arguments := [("n", .int 1)] }] },
    { role := .tool, toolCallId := "1", content := "one" },
    { role := .assistant, content := "again"
      toolCalls := [{ id := "1", name := "b" }, { id := "2", name := "c", signature := "s" }] },
    { role := .tool, toolCallId := "1" },
    { role := .tool, toolCallId := "2", content := "two", isError := true }]

theorem conversations_read_back_rounds :
    ((OpenAIAdapter.convertMessages twoRounds).filter fun j => !OpenAIAdapter.isSystem j).map
        OpenAIAdapter.readMessage = (entries .byId [] twoRounds).map some ∧
    (AnthropicAdapter.convertMessages twoRounds).map AnthropicAdapter.readMessage =
      (merged (entries .byId [] twoRounds)).map some ∧
    (GeminiAdapter.convertMessages twoRounds).map GeminiAdapter.readContent =
      (merged (entries .byName [] twoRounds)).map some := by
  have hanswering : Answering [] twoRounds := by
    simp [twoRounds, Answering, ModelMessage.opens]
  have hread := conversations_read_back twoRounds hanswering
  refine ⟨hread.1 ?_ ?_, hread.2⟩
  · have hempty : Held (.obj []) := .obj List.nodup_nil (List.forall_mem_nil _)
    have hone : Held (.obj [("n", .int 1)]) := by
      refine .obj (List.nodup_singleton _) fun f hf => ?_
      rw [List.mem_singleton.mp hf]
      exact .int (by decide)
    simp [twoRounds, hempty, hone]
  · unfold ModelMessage.Unmarked
    decide

/-- A failed result, and a successful one whose text starts with the marker. -/
def oneResult (content : String) (isError : Bool) : List ModelMessage :=
  [{ role := .assistant, toolCalls := [{ id := "1", name := "t" }] },
    { role := .tool, toolCallId := "1", content := content, isError := isError }]

/-- OpenAI is sent the same messages for both, so nothing reads them back. -/
theorem marker_hides_failure :
    ¬ ∃ read : List Json → List Entry, ∀ ms, Answering [] ms →
      (∀ m ∈ ms, ∀ c ∈ m.toolCalls, Held (.obj c.arguments)) →
      read (OpenAIAdapter.convertMessages ms) = entries .byId [] ms := by
  rintro ⟨read, h⟩
  have hread := fun content isError => h (oneResult content isError)
    (by simp [oneResult, Answering, ModelMessage.opens]) (by
      have hempty : Held (.obj []) := .obj List.nodup_nil (List.forall_mem_nil _)
      simp [oneResult, hempty])
  have hsame : OpenAIAdapter.convertMessages (oneResult "x" true) =
      OpenAIAdapter.convertMessages (oneResult "[tool_error] x" false) := rfl
  have hentries := (hread "x" true).symm.trans ((congrArg read hsame).trans (hread _ false))
  simp [oneResult, entries, ModelMessage.entry, ModelMessage.opens] at hentries

end Northstack
