import Northstack.Application.Routing
import Northstack.Application.Run

/-!
# The bounded model/tool loop

Mirrors `NativeWorker.run` and its helpers (application/worker.py). One attempt
at a cell is driven by a script of the world's answers: how `gateway.profile`
ended and, for each turn, what the clock, the provider and the tools said. A
turn whose answer is missing never ends, so only an exception leaves it; every
finite run is a run of some script. Exceptions and cancellations arrive at the
awaits.

* `compactMessages` drops whole rounds behind the pinned prefix; `toolNames`
  of what is left is what a later audit can still see.
* `Worker.run` is the loop: budget checks, compaction, provider call,
  accounting, schema repair, truncation nudges, tool batches, checkpoint.
-/
namespace Northstack

open Coop

/-! ## Provider errors and cost -/

/-- The classes `_provider_error_kind` tells apart (worker.py:67-77). -/
inductive ProviderErrorClass where
  | authentication | capability | configuration | transient | permanent
  deriving DecidableEq, Repr

structure ProviderError where
  cls : ProviderErrorClass
  message : String

def providerErrorKind (e : ProviderError) : String :=
  match e.cls with
  | .authentication => "authentication"
  | .capability => "capability"
  | .configuration => "configuration"
  | .transient => "provider"
  | .permanent => "configuration"

/-- `compute_cost_usd` (providers/pricing.py), rounded to ten decimals. -/
def computeCostUsd (usage : Usage) (inputPrice outputPrice : ℚ≥0) : ℚ≥0 :=
  let total : ℚ≥0 :=
    usage.inputTokens / 1e6 * inputPrice +
      usage.cacheCreationTokens / 1e6 * (inputPrice * 1.25) +
      usage.cacheReadTokens / 1e6 * (inputPrice * 0.1) +
      usage.outputTokens / 1e6 * outputPrice
  (PyText.roundHalfEven ((total : ℚ) * 1e10)).toNat / 1e10

/-! ## Compaction -/

def contextTriggerRatio : ℚ≥0 := 0.78
def contextTargetRatio : ℚ≥0 := 0.62
def minRetainedSpans : Nat := 3
def elisionSentinel : String := "\n\n[context management:"

/-- The pinned prefix: the system messages and one user message behind them
(worker.py:129-133). -/
def pinnedLength (messages : List ModelMessage) : Nat :=
  let sys := (messages.takeWhile (·.role = .system)).length
  match messages[sys]? with
  | some m => if m.role = .user then sys + 1 else sys
  | none => sys

/-- The lengths of the spans of a suffix: one turn and the tool results behind
it; `n` is the span being read. -/
def spanLengths : Nat → List ModelMessage → List Nat
  | 0, [] => []
  | n + 1, [] => [n + 1]
  | 0, _ :: ms => spanLengths 1 ms
  | n + 1, m :: ms =>
    if m.role = .tool then spanLengths (n + 2) ms else (n + 1) :: spanLengths 1 ms

/-- `_evictable_spans`: the spans behind the pinned prefix. -/
def evictableSpans (messages : List ModelMessage) : List Nat :=
  spanLengths 0 (messages.drop (pinnedLength messages))

/-- `del messages[start:end]` of the first span. -/
def dropFirstSpan (messages : List ModelMessage) (len : Nat) : List ModelMessage :=
  messages.take (pinnedLength messages) ++ messages.drop (pinnedLength messages + len)

/-- The eviction loop (worker.py:186-195); each round drops a message, so their
number is fuel enough. Returns the messages and how many rounds went. -/
def evict (estimate : List ModelMessage → Nat) (target : ℚ≥0) :
    Nat → List ModelMessage → List ModelMessage × Nat
  | 0, messages => (messages, 0)
  | fuel + 1, messages =>
    if (estimate messages : ℚ≥0) ≤ target then (messages, 0)
    else match evictableSpans messages with
      | len :: rest =>
        if (len :: rest).length ≤ minRetainedSpans then (messages, 0)
        else
          let r := evict estimate target fuel (dropFirstSpan messages len)
          (r.1, r.2 + 1)
      | [] => (messages, 0)

/-- `_compact_messages` (worker.py:172-197) -/
def compactMessages (estimate : List ModelMessage → Nat) (windowTokens : Nat)
    (messages : List ModelMessage) : List ModelMessage × Nat :=
  if (estimate messages : ℚ≥0) ≤ windowTokens * contextTriggerRatio then (messages, 0)
  else evict estimate (windowTokens * contextTargetRatio) messages.length messages

/-- The content of the pinned objective after an elision. -/
def elisionNote (content : String) (elided : Nat) : String :=
  String.ofList (PyText.beforeFirst elisionSentinel.toList content.toList) ++ elisionSentinel ++
    s!" {elided} earlier tool round(s) were dropped to fit the model's context window. " ++
    "Re-read any file you need rather than relying on memory of it.]"

/-- `_note_elision` (worker.py:148-169) -/
def noteElision (messages : List ModelMessage) (elided : Nat) : List ModelMessage :=
  let pinned := pinnedLength messages
  messages.mapIdx fun i m =>
    if i + 1 = pinned ∧ m.role = .user then { m with content := elisionNote m.content elided }
    else m

/-! ## Tools -/

/-- One registered tool (application/tools/registry.py). -/
structure Tool where
  name : String
  description : String := ""
  parameters : List (String × Json) := []
  mutating : Bool := false

abbrev ToolRegistry := List Tool

/-- `ToolRegistry.get` -/
def ToolRegistry.get (registry : ToolRegistry) (name : String) : Option Tool :=
  registry.find? (·.name = name)

/-- `ToolRegistry.advertised` -/
def ToolRegistry.advertised (registry : ToolRegistry) : List ToolDefinition :=
  registry.map fun t => { name := t.name, description := t.description, parameters := t.parameters }

/-- The workspace's typed result of one tool, its bytes decoded. -/
structure ToolResult where
  ok : Bool
  data : String := ""
  truncated : Bool := false
  totalBytes : Nat := 0
  error : String := ""

/-- What the world answers to one tool call. -/
inductive ToolAnswer where
  | leaseRefused
  | returned (result : ToolResult)
  | raised (message : String)

/-- The JSON type a schema names, checked as `isinstance` does: `True` is an
integer too. -/
def hasJsonType (expected : String) : Json → Bool
  | .str _ => expected ≠ "integer" && expected ≠ "number" && expected ≠ "boolean"
  | .int _ => expected ≠ "string" && expected ≠ "boolean"
  | .bool _ => expected ≠ "string"
  | .float _ => expected ≠ "string" && expected ≠ "integer" && expected ≠ "boolean"
  | _ => expected ≠ "string" && expected ≠ "integer" && expected ≠ "number" &&
      expected ≠ "boolean"

/-- The expected type of a declared argument, if its schema names one. -/
def declaredType (params : List (String × Json)) (arg : String) : Option String :=
  match Json.lookup "properties" params with
  | some (.obj props) =>
    match Json.lookup arg props with
    | some (.obj schema) =>
      match Json.lookup "type" schema with
      | some (.str t) => some t
      | _ => none
    | _ => none
  | _ => none

def requiredArgs (params : List (String × Json)) : List String :=
  match Json.lookup "required" params with
  | some (.arr xs) => xs.filterMap fun
    | .str s => some s
    | _ => none
  | _ => []

/-- `_validate_tool_args` (worker.py:412-447) -/
def validateToolArgs (call : ToolCall) (toolDefs : List ToolDefinition) : Option String :=
  match toolDefs.reverse.find? (·.name = call.name) with
  | none => some s!"Unknown tool: {call.name}"
  | some d =>
    match (requiredArgs d.parameters).find? fun r => (Json.lookup r call.arguments).isNone with
    | some r => some s!"Missing required argument '{r}' for tool '{call.name}'"
    | none =>
      (call.arguments.find? fun (a, v) =>
          (declaredType d.parameters a).any fun t => !hasJsonType t v).map fun (a, _) =>
        s!"Argument '{a}' for tool '{call.name}' must be " ++
          (declaredType d.parameters a).getD ""

def maxParallelToolCalls : Nat := 6

/-- One step of `_tool_batches` (worker.py:462-469): the batches so far and
whether the previous call was mutating. -/
def addToBatches {α : Type} (mutating : α → Bool) (st : List (List α) × Bool) (call : α) :
    List (List α) × Bool :=
  let batches :=
    if mutating call || st.2 || maxParallelToolCalls ≤ (st.1.getLastD []).length then
      st.1 ++ [[call]]
    else st.1.dropLast ++ [st.1.getLastD [] ++ [call]]
  (batches, mutating call)

/-- `_tool_batches` (worker.py:450-469) -/
def toolBatches {α : Type} (mutating : α → Bool) (calls : List α) : List (List α) :=
  (calls.foldl (addToBatches mutating) ([], true)).1

/-- The text of a tool's result (worker.py:975-996). -/
def renderToolResult (name : String) (r : ToolResult) : String × Bool :=
  let marker := if r.truncated then s!"\n[truncated, {r.totalBytes} total bytes]" else ""
  if r.ok then (r.data ++ marker, false)
  else
    let detail := if r.error = "" then s!"Tool '{name}' failed" else r.error
    (if r.data = "" then detail else detail ++ "\n" ++ r.data ++ marker, true)

/-! ## One attempt's script -/

inductive Reply where
  | response (r : ModelResponse)
  | providerError (e : ProviderError)
  | overTime

/-- The answers to one turn. `tool i` answers the response's `i`-th call and
`batchOverTime i` says the wall clock ran out during the `i`-th batch. -/
structure Turn where
  overTime : Bool := false
  reply : Reply
  tool : Nat → ToolAnswer := fun _ => .raised ""
  durationMs : Nat → PyFloat := fun _ => .finite false 0
  batchOverTime : Nat → Bool := fun _ => false
  checkpointWritten : Bool := true

structure Attempt where
  profile : Except ProviderError ModelProfile
  turns : List Turn

/-! ## Accounting and results -/

/-- `WorkerResult` (worker.py:238-280) -/
structure WorkerResult where
  ok : Bool
  text : String := ""
  toolCallsMade : Nat := 0
  toolRounds : Nat := 0
  apiCalls : Nat := 0
  successfulApiCalls : Nat := 0
  totalInputTokens : Nat := 0
  totalOutputTokens : Nat := 0
  totalCostUsd : ℚ≥0 := 0
  error : String := ""
  errorKind : String := ""
  toolResults : List ToolResultMessage := []
  messages : List ModelMessage := []

/-- `AttemptAccounting` (worker.py:283-404) -/
structure AttemptAccounting where
  toolResults : List ToolResultMessage := []
  inputTokens : Nat := 0
  outputTokens : Nat := 0
  cost : ℚ≥0 := 0
  rounds : Nat := 0
  apiCalls : Nat := 0
  successfulApiCalls : Nat := 0

/-- The loop's locals: the conversation, the tallies and the three counters. -/
structure Conv where
  messages : List ModelMessage
  acct : AttemptAccounting := {}
  turn : Nat := 0
  totalElided : Nat := 0
  truncatedTurns : Nat := 0
  schemaRepairAttempted : Bool := false

namespace Conv

/-- `_with_final` -/
def withFinal (c : Conv) (text : String) : List ModelMessage :=
  if text = "" then c.messages else c.messages ++ [{ role := .assistant, content := text }]

def result (c : Conv) (ok : Bool) (text kind detail : String) (messages : List ModelMessage) :
    WorkerResult where
  ok := ok
  text := text
  toolCallsMade := c.acct.toolResults.length
  toolRounds := c.acct.rounds
  apiCalls := c.acct.apiCalls
  successfulApiCalls := c.acct.successfulApiCalls
  totalInputTokens := c.acct.inputTokens
  totalOutputTokens := c.acct.outputTokens
  totalCostUsd := c.acct.cost
  error := detail
  errorKind := kind
  toolResults := c.acct.toolResults
  messages := messages

/-- `AttemptAccounting.success` -/
def success (c : Conv) (text : String) : WorkerResult :=
  c.result true text "" "" (c.withFinal text)

/-- `AttemptAccounting.failure` without a final message. -/
def failure (c : Conv) (kind detail : String) : WorkerResult :=
  c.result false "" kind detail c.messages

/-- `AttemptAccounting.failure` with `append_final=True`. -/
def failureWith (c : Conv) (kind detail text : String) : WorkerResult :=
  c.result false text kind detail (c.withFinal text)

def recordAttempt (c : Conv) : Conv :=
  { c with acct := { c.acct with apiCalls := c.acct.apiCalls + 1 } }

/-- `record_call` with the response's usage and cost. -/
def recordCall (c : Conv) (usage : Usage) (cost : ℚ≥0) : Conv :=
  { c with acct := { c.acct with
      successfulApiCalls := c.acct.successfulApiCalls + 1
      inputTokens := c.acct.inputTokens + usage.inputTokens
      outputTokens := c.acct.outputTokens + usage.outputTokens
      cost := c.acct.cost + cost } }

def recordRound (c : Conv) : Conv :=
  { c with acct := { c.acct with rounds := c.acct.rounds + 1 } }

/-- A tool result joins the conversation and the tally (worker.py:909-916). -/
def addToolResult (c : Conv) (call : ToolCall) (r : ToolResultMessage) : Conv :=
  { c with
    acct := { c.acct with toolResults := c.acct.toolResults ++ [r] }
    messages := c.messages ++
      [{ role := .tool, content := r.content, toolCallId := call.id }] }

def say (c : Conv) (role : MessageRole) (content : String) : Conv :=
  { c with messages := c.messages ++ [{ role := role, content := content }] }

end Conv

/-! ## The loop -/

/-- What `_try_parse_json_response` makes of a text: an error, or a value,
which may be JSON's `null`. -/
inductive SchemaAnswer where
  | invalid (error : String)
  | value (isNull : Bool)

/-- What one attempt is given. `estimate` is the token estimate of a request
with these messages, `parse` the schema check of a final text. -/
structure WorkerInput where
  cell : GraphCell
  attempt : Nat
  toolDefs : List ToolDefinition
  registry : ToolRegistry
  systemPrompt : String := ""
  userPrompt : String := ""
  outputSchema : Bool := false
  estimate : List ModelMessage → Nat
  parse : String → SchemaAnswer

def maxConsecutiveTruncations : Nat := 3

/-- `_TRUNCATION_NUDGES[min(n, 2) - 1]` -/
def truncationNudge (n : Nat) : String :=
  if n ≤ 1 then
    "Your previous response was truncated before you finished (the output token limit was " ++
    "reached). Continue and give the complete final answer now, more concisely if needed."
  else
    "Truncated again. Stop explaining and act: reply with a single tool call, or a final answer " ++
    "under 200 words. No preamble, no restating the plan."

namespace Worker

variable (w : WorkerInput)

/-- The worker's `emit` (worker.py:681-687): the progress sink appends a
`CellProgress`, and an exception it raises is dropped. -/
def emitEvent (turn : Nat) (step : String) (detail : List (String × Json)) : CellTask Unit :=
  tryCatch (emitCell (.cellProgress w.cell.id step w.attempt turn detail)) fun
    | .exception _ _ => pure ()
    | .cancelled n => throw (.cancelled n)

/-- Compaction at the head of a turn (worker.py:703-718). -/
def compact (window : Nat) (c : Conv) : CellTask Conv :=
  match compactMessages w.estimate window c.messages with
  | (_, 0) => pure c
  | (messages, elided + 1) => do
    let whole := c.messages
    let total := c.totalElided + (elided + 1)
    let c := { c with messages := noteElision messages total, totalElided := total }
    Co.modify (St.noteRewrite w.cell.id c.messages)
    Co.modify (St.pass w.cell.id w.attempt (.compacted whole (elided + 1)) c.messages)
    emitEvent w c.turn "context_compacted"
      [("rounds_dropped", .int (elided + 1)), ("rounds_dropped_total", .int total),
       ("window_tokens", .int window)]
    pure c

/-- The budget checks at the head of a turn (worker.py:691-701). -/
def turnBudgetError (overTime : Bool) (c : Conv) : Option String :=
  let b := w.cell.contract.budget
  if 0 < b.maxWallTimeSeconds ∧ overTime then some "Wall time limit exceeded"
  else if 0 < b.maxCalls ∧ b.maxCalls ≤ c.acct.apiCalls then some "API call limit exceeded"
  else if 0 < b.maxToolRounds ∧ b.maxToolRounds ≤ c.acct.rounds then
    some "Tool round limit exceeded"
  else none

/-- `available_output` (worker.py:727-738) -/
def availableOutput (profile : ModelProfile) (c : Conv) : Nat :=
  match w.cell.contract.budget.tokenLimit with
  | some l => l - c.acct.inputTokens - c.acct.outputTokens - w.estimate c.messages
  | none => profile.maxOutputTokens

/-- A response without tool calls (worker.py:788-865): the attempt's result, or
the conversation with which the next turn starts. -/
def afterText (profile : ModelProfile) (r : ModelResponse) (c : Conv) : WorkerResult ⊕ Conv :=
  let b := w.cell.contract.budget
  let outOfCalls : Bool := 0 < b.maxCalls ∧ b.maxCalls ≤ c.acct.apiCalls
  if w.outputSchema then
    match w.parse r.text with
    | .invalid error =>
      if c.schemaRepairAttempted then
        .inl (c.failureWith "schema" s!"Schema validation failed after repair: {error}" r.text)
      else if outOfCalls then
        .inl (c.failureWith "schema"
          s!"Schema validation failed and no budget for repair: {error}" r.text)
      else
        .inr { (c.say .assistant r.text).say .user
            (s!"Your response failed schema validation: {error}\nPlease fix and output valid " ++
              "JSON matching the schema.") with schemaRepairAttempted := true }
    | .value isNull =>
      if isNull then
        .inl (c.failureWith "schema" "Schema validation failed after repair: None" r.text)
      else .inl (c.success r.text)
  else if r.finishReason = .maxTokens then
    let n := c.truncatedTurns + 1
    if outOfCalls ∨ maxConsecutiveTruncations ≤ n then
      .inl (c.failureWith "provider"
        (s!"Model response truncated (finish=max_tokens) with no tool calls on {n} consecutive " ++
          s!"turn(s); output budget was {profile.maxOutputTokens} tokens") r.text)
    else
      let c := { c with truncatedTurns := n }
      let c := if r.text = "" then c else c.say .assistant r.text
      .inr (c.say .user (truncationNudge n))
  else .inl (c.success r.text)

/-- A call that is dispatched: its arguments validate, its lease, if it needs
one, is granted, and the registry knows it (worker.py:878-902). -/
def dispatched (answer : ToolAnswer) (call : ToolCall) : Bool :=
  match validateToolArgs call w.toolDefs, w.registry.get call.name with
  | none, some tool => match answer with
    | .leaseRefused => !tool.mutating
    | _ => true
  | _, _ => false

/-- `resolve` (worker.py:878-902) with `_execute_tool` (worker.py:943-1007). -/
def resolve (answer : ToolAnswer) (call : ToolCall) : ToolResultMessage :=
  match validateToolArgs call w.toolDefs with
  | some error => { toolCallId := call.id, content := error, isError := true }
  | none =>
    match w.registry.get call.name, answer with
    | none, _ => { toolCallId := call.id, content := s!"Unknown tool: {call.name}", isError := true }
    | some tool, .leaseRefused =>
      if tool.mutating then
        { toolCallId := call.id
          content := "Cannot acquire mutation lease -- workspace is locked by another process"
          isError := true }
      else { toolCallId := call.id, content := "Tool execution error: ", isError := true }
    | some _, .returned r =>
      let (content, isError) := renderToolResult call.name r
      { toolCallId := call.id, content := content, isError := isError }
    | some _, .raised message =>
      { toolCallId := call.id, content := s!"Tool execution error: {message}", isError := true }

/-- The results of one batch, in order (worker.py:908-924). -/
def collectBatch (t : Turn) : List (ToolCall × Nat) → Conv → CellTask Conv
  | [], c => pure c
  | (call, i) :: calls, c => do
    let r := resolve w (t.tool i) call
    let c := c.addToolResult call r
    Co.modify (St.pass w.cell.id w.attempt (.answered r) c.messages)
    emitEvent w c.turn "tool_call_completed"
      [("tool", .str call.name), ("ok", .bool !r.isError),
       ("duration_ms", .float (t.durationMs i)), ("result_bytes", .int r.content.length)]
    collectBatch t calls c

/-- The batches of one response (worker.py:904-924); the left side is what was
collected when the wall clock ran out. A batch's calls are started together
once the loop lets its tasks run, and awaited together. -/
def runBatches (t : Turn) : Nat → List (List (ToolCall × Nat)) → Conv → CellTask (Conv ⊕ Conv)
  | _, [], c => pure (.inr c)
  | k, batch :: batches, c => do
    Co.suspend
    Co.modify (St.markExecuted w.cell.id
      ((batch.filter fun x => dispatched w (t.tool x.2) x.1).map (·.1.name)))
    Co.suspend
    if t.batchOverTime k then pure (.inl c)
    else do
      let c ← collectBatch w t batch c
      runBatches t (k + 1) batches c

/-- Whether the registry declares a call's tool mutating. -/
def isMutating (call : ToolCall × Nat) : Bool :=
  match w.registry.get call.1.name with
  | some tool => tool.mutating
  | none => false

/-- A response with tool calls (worker.py:867-928). -/
def afterToolCalls (t : Turn) (r : ModelResponse) (c : Conv) : CellTask (WorkerResult ⊕ Conv) := do
  let c := { c with
    truncatedTurns := 0
    messages := c.messages ++ [{ role := .assistant, content := r.text, toolCalls := r.toolCalls }] }
  let done ← runBatches w t 0 (toolBatches (isMutating w) r.toolCalls.zipIdx) c
  match done with
  | .inl c => pure (.inl (c.failure "budget" "Wall time limit exceeded during tool call"))
  | .inr c => do
    let c := c.recordRound
    Co.modify (St.pass w.cell.id w.attempt .rounded c.messages)
    if t.checkpointWritten then Co.modify (St.writeCheckpoint w.cell.id c.messages)
    pure (.inr c)

/-- What a response costs the run. -/
def responseSpend (profile : ModelProfile) (usage : Usage) : Spend where
  inputTokens := usage.inputTokens
  outputTokens := usage.outputTokens
  costUsd := computeCostUsd usage profile.inputPricePerMillionUsd profile.outputPricePerMillionUsd
  calls := 1

/-- A response's accounting and what follows from it (worker.py:764-928); its
request had `max_output_tokens` capped by the profile's (worker.py:739-741). -/
def afterResponse (profile : ModelProfile) (t : Turn) (r : ModelResponse) (c : Conv) :
    CellTask (WorkerResult ⊕ Conv) := do
  Co.modify (St.note (.responded w.cell.id w.attempt (responseSpend profile r.usage)
    (w.estimate c.messages) (min (availableOutput w profile c) profile.maxOutputTokens)))
  let cost := computeCostUsd r.usage profile.inputPricePerMillionUsd
    profile.outputPricePerMillionUsd
  let c := c.recordCall r.usage cost
  emitEvent w c.turn "model_call_completed"
    [("finish_reason", .str r.finishReason.value), ("input_tokens", .int r.usage.inputTokens),
     ("output_tokens", .int r.usage.outputTokens),
     ("cache_read_tokens", .int r.usage.cacheReadTokens),
     ("cache_creation_tokens", .int r.usage.cacheCreationTokens),
     ("cost_usd", .float (.finite false cost)), ("tool_calls", .int r.toolCalls.length)]
  match r.toolCalls with
  | [] =>
    match afterText w profile r c with
    | .inl result => pure (.inl result)
    | .inr next => do
      Co.modify (St.pass w.cell.id w.attempt (.continued r.text w.outputSchema) c.messages)
      pure (.inr next)
  | _ :: _ => afterToolCalls w t r c

/-- One turn (worker.py:689-928): the attempt's result, or the conversation
with which the next turn starts. -/
def turn (profile : ModelProfile) (t : Turn) (c : Conv) : CellTask (WorkerResult ⊕ Conv) := do
  let c := { c with turn := c.turn + 1 }
  match turnBudgetError w t.overTime c with
  | some detail => pure (.inl (c.failure "budget" detail))
  | none => do
    let c ← compact w profile.contextWindowTokens c
    emitEvent w c.turn "turn_started"
      [("messages", .int c.messages.length), ("input_tokens_estimate", .int (w.estimate c.messages))]
    if availableOutput w profile c = 0 then
      pure (.inl (c.failure "budget" "Token budget cannot cover the next request input"))
    else do
      let c := c.recordAttempt
      Co.modify (St.pass w.cell.id w.attempt
        (.sent (min (availableOutput w profile c) profile.maxOutputTokens)) c.messages)
      Co.modify (St.note (.requested w.cell.id w.attempt c.messages))
      Co.suspend
      match t.reply with
      | .overTime => do
        emitEvent w c.turn "model_call_failed" [("error_kind", .str "budget")]
        pure (.inl (c.failure "budget" "Wall time limit exceeded during provider call"))
      | .providerError e => do
        emitEvent w c.turn "model_call_failed"
          [("error_kind", .str (providerErrorKind e)), ("error", .str e.message)]
        pure (.inl (c.failure (providerErrorKind e) e.message))
      | .response r => afterResponse w profile t r c

/-- The `while True` loop, one turn of the script after another. -/
def loop (profile : ModelProfile) : List Turn → Conv → CellTask WorkerResult
  | [], _ => .block fun e => .done (.error e)
  | t :: ts, c => do
    let next ← turn w profile t c
    match next with
    | .inl result => pure result
    | .inr c => loop profile ts c

/-- The messages the loop starts from (worker.py:637-654). -/
def initialMessages (resumeFrom : Option (List ModelMessage)) : List ModelMessage :=
  match resumeFrom with
  | some (m :: ms) => m :: ms
  | _ =>
    (if w.systemPrompt = "" then [] else [{ role := .system, content := w.systemPrompt }]) ++
      [{ role := .user, content := w.userPrompt }]

/-- `NativeWorker.run` (worker.py:559-932) -/
def run (a : Attempt) (resumeFrom : Option (List ModelMessage)) : CellTask WorkerResult :=
  match a.profile with
  | .error e => pure (({ messages := [] } : Conv).failure (providerErrorKind e) e.message)
  | .ok profile => do
    let messages := initialMessages w resumeFrom
    Co.modify (St.noteRewrite w.cell.id messages)
    Co.modify (St.pass w.cell.id w.attempt .began messages)
    loop w profile a.turns { messages := messages }

end Worker
end Northstack
