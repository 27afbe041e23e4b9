import Mathlib
import Northstack.Adapters.Wire
import Northstack.Core.JsonText

/-!
# Reading provider responses

Mirrors the response side of adapters/providers/gateway.py: the three
`_parse_response`, the three stream parsers over the payloads of the server-sent
events, and `StreamAssembler`.

An event is its name and its payload, `none` for `[DONE]`. What a stream yields
before it raises is not kept, for nothing is assembled of it. An id a provider
leaves out is drawn at random: `uuid n` is the one drawn for the `n`-th call.
-/
namespace Northstack

abbrev Fields := List (String × Json)

/-- What the parsers raise: `malformed` stands for the `AttributeError`,
`KeyError`, `TypeError` or `ValueError` of a value of the wrong shape. -/
inductive Fault where
  | malformed
  | protocol (message fieldPath : String)
  deriving DecidableEq, Repr

structure ProviderProtocolError where
  provider : String
  message : String
  fieldPath : String := "response"
  deriving DecidableEq, Repr

/-- `_protocol_parser` (gateway.py:98-115) -/
def protocolParser {α : Type} (provider : String) :
    Except Fault α → Except ProviderProtocolError α
  | .ok x => .ok x
  | .error (.protocol message fieldPath) => .error ⟨provider, message, fieldPath⟩
  | .error .malformed =>
    .error ⟨provider, s!"Malformed {provider} response at response", "response"⟩

/-- `_protocol_stream` (gateway.py:118-146) -/
def protocolStream {α : Type} (provider : String) :
    Except Fault α → Except ProviderProtocolError α
  | .ok x => .ok x
  | .error (.protocol message fieldPath) => .error ⟨provider, message, fieldPath⟩
  | .error .malformed => .error ⟨provider, s!"Malformed {provider} stream event", "stream event"⟩

/-! ## Dictionary accesses -/

namespace Wire

open Json

/-- Python's truth of a value that is there. -/
def truthy : Json → Bool
  | .null => false
  | .bool b => b
  | .int i => i ≠ 0
  | .float x => x ≠ .finite false 0 ∧ x ≠ .finite true 0
  | .str s => s ≠ ""
  | .arr xs => !xs.isEmpty
  | .obj fs => !fs.isEmpty

/-- A value whose `.get` is called. -/
def dict : Json → Except Fault Fields
  | .obj fs => .ok fs
  | _ => .error .malformed

/-- `d.get(key, {})` -/
def dictOr (j : Option Json) : Except Fault Fields := dict (j.getD (.obj []))

/-- `d.get(key) or {}` -/
def orDict (j : Option Json) : Except Fault Fields :=
  match j with
  | some v => if truthy v then dict v else .ok []
  | none => .ok []

/-- `d.get(key) or []`, as a list to index or loop over. -/
def orList (j : Option Json) : Except Fault (List Json) :=
  match j with
  | some (.arr xs) => .ok xs
  | some v => if truthy v then .error .malformed else .ok []
  | none => .ok []

/-- `d.get(key, [])`, looped over for dictionaries. -/
def loop (j : Option Json) : Except Fault (List Json) :=
  match j with
  | none => .ok []
  | some (.arr xs) => .ok xs
  | some (.str "") | some (.obj []) => .ok []
  | some _ => .error .malformed

/-- `d.get(key) or ""`, as the text of a field. -/
def orStr (j : Option Json) : Except Fault String :=
  match j with
  | some (.str s) => .ok s
  | some v => if truthy v then .error .malformed else .ok ""
  | none => .ok ""

/-- `d.get(key, default)` as the text of a field. -/
def strOr (default : String) (j : Option Json) : Except Fault String :=
  match j with
  | some (.str s) => .ok s
  | some _ => .error .malformed
  | none => .ok default

/-- A number that is whole. -/
def whole : Json → Except Fault Int
  | .int i => .ok i
  | .bool b => .ok (if b then 1 else 0)
  | .float (.finite neg q) =>
    if q.den = 1 then .ok (if neg then -(q.num : Int) else q.num) else .error .malformed
  | _ => .error .malformed

/-- `int(value)`; strings with underscores apart. -/
def pyInt : Json → Except Fault Int
  | .float (.finite neg q) => .ok (if neg then -(⌊q⌋₊ : Int) else ⌊q⌋₊)
  | .str s =>
    let (neg, ds) := match (PyText.strip s).toList with
      | '-' :: ds => (true, ds)
      | '+' :: ds => (false, ds)
      | ds => (false, ds)
    if !ds.isEmpty && ds.all JsonText.isDigit then
      .ok (if neg then -(JsonText.readDigits ds : Int) else JsonText.readDigits ds)
    else .error .malformed
  | j => whole j

/-- `int(d.get(key, 0))`, as an index (`ge=0`). -/
def index (j : Option Json) : Except Fault Nat :=
  match pyInt (j.getD (.int 0)) with
  | .ok i => if i < 0 then .error .malformed else .ok i.toNat
  | .error e => .error e

/-- `d.get(key, 0)` as a number. -/
def intOr (j : Option Json) : Except Fault Int := whole (j.getD (.int 0))

/-- A count of tokens (`ge=0`). -/
def count (i : Int) : Except Fault Nat := if i < 0 then .error .malformed else .ok i.toNat

/-- `TABLE.get(value, FinishReason.END_TURN)`; a list or a dictionary is no key. -/
def finishOf (table : String → Option FinishReason) : Json → Except Fault FinishReason
  | .str s => .ok ((table s).getD .endTurn)
  | .arr _ | .obj _ => .error .malformed
  | _ => .ok .endTurn

/-- The finish reason a chunk has, or the one before. -/
def finishFrom (table : String → Option FinishReason) (old : Option FinishReason) :
    Option Json → Except Fault (Option FinishReason)
  | none | some .null => .ok old
  | some reason => (finishOf table reason).map some

/-- `d.get(key)`, which must be a dictionary or null. -/
def nullable (error : Fault) : Option Json → Except Fault Fields
  | none | some .null => .ok []
  | some (.obj fs) => .ok fs
  | some _ => .error error

end Wire

open Wire Json

/-- `_OPENAI_FINISH` (gateway.py:589-594) -/
def openaiFinish : String → Option FinishReason
  | "stop" => some .endTurn
  | "tool_calls" => some .toolUse
  | "length" => some .maxTokens
  | "content_filter" => some .error
  | _ => none

/-- `_ANTHROPIC_FINISH` (gateway.py:595-600) -/
def anthropicFinish : String → Option FinishReason
  | "end_turn" => some .endTurn
  | "tool_use" => some .toolUse
  | "max_tokens" => some .maxTokens
  | "stop_sequence" => some .stopSequence
  | _ => none

/-- `_GEMINI_FINISH` (gateway.py:601-610) -/
def geminiFinish : String → Option FinishReason
  | "STOP" => some .endTurn
  | "MAX_TOKENS" => some .maxTokens
  | "SAFETY" | "RECITATION" | "PROHIBITED_CONTENT" | "SPII" | "MALFORMED_FUNCTION_CALL" | "OTHER" =>
    some .error
  | _ => none

/-- `ToolCall(...)`: ids and names have at least one character. -/
def toolCall (id name : String) (arguments : Fields) (signature : String) :
    Except Fault ToolCall :=
  if id = "" ∨ name = "" then .error .malformed else .ok ⟨id, name, arguments, signature⟩

/-! ## Deltas and their assembly -/

/-- wire.py:142-194 -/
inductive StreamDelta where
  | text (text : String)
  | toolCall (index : Nat) (id name argumentsFragment signature : String)
  | usage (usage : Usage)
  | finish (finishReason : FinishReason)

/-- `_safe_json_object` (gateway.py:1233-1238) -/
def safeJsonObject (raw : String) : Except Fault Fields :=
  if raw = "" then .ok []
  else
    match JsonText.loads raw with
    | .ok (.obj fs) => .ok fs
    | .ok _ => .ok []
    | .error .malformed => .ok []
    | .error .tooManyDigits => .error .malformed

/-- What is gathered of one call. -/
structure ToolBuffer where
  id : String := ""
  name : String := ""
  args : String := ""
  signature : String := ""

/-- `buf[field] = value` if `value` is not empty. -/
def keepLast (old new : String) : String := if new = "" then old else new

def ToolBuffer.add (b : ToolBuffer) (id name fragment signature : String) : ToolBuffer where
  id := keepLast b.id id
  name := keepLast b.name name
  args := b.args ++ fragment
  signature := keepLast b.signature signature

/-- `tools.setdefault(index, {...})`, changed in place. -/
def alterBuffer (index : Nat) (f : ToolBuffer → ToolBuffer) :
    List (Nat × ToolBuffer) → List (Nat × ToolBuffer)
  | [] => [(index, f {})]
  | (i, b) :: bs => if i = index then (i, f b) :: bs else (i, b) :: alterBuffer index f bs

/-- gateway.py:1170-1219 -/
structure StreamAssembler where
  text : List String := []
  tools : List (Nat × ToolBuffer) := []
  usage : Usage := {}
  finish : Option FinishReason := none

namespace StreamAssembler

def update (a : StreamAssembler) : StreamDelta → StreamAssembler
  | .text t => { a with text := a.text ++ [t] }
  | .toolCall index id name fragment signature =>
    { a with tools := alterBuffer index (·.add id name fragment signature) a.tools }
  | .usage u => { a with usage := u }
  | .finish f => { a with finish := some f }

/-- The call of a buffer, the `n`-th one. -/
def buildCall (uuid : Nat → String) (n : Nat) (b : ToolBuffer) : Except Fault ToolCall := do
  let arguments ← safeJsonObject b.args
  toolCall (if b.id = "" then uuid n else b.id) b.name arguments b.signature

/-- The buffers in the order of their indices. -/
def sorted (a : StreamAssembler) : List ToolBuffer :=
  (a.tools.insertionSort fun x y => x.1 ≤ y.1).map Prod.snd

def build (uuid : Nat → String) (a : StreamAssembler) : Except Fault ModelResponse := do
  let toolCalls ← a.sorted.zipIdx.mapM fun p => buildCall uuid p.2 p.1
  return { text := String.join a.text, toolCalls := toolCalls
           finishReason := a.finish.getD .endTurn, usage := a.usage }

end StreamAssembler

/-- `assemble_streamed_response` (gateway.py:1222-1230); a stream that raises
raises through it. -/
def assembleStreamedResponse (uuid : Nat → String)
    (deltas : Except ProviderProtocolError (List StreamDelta)) :
    Except (ProviderProtocolError ⊕ Fault) ModelResponse :=
  match deltas with
  | .error e => .error (.inl e)
  | .ok ds =>
    match (ds.foldl StreamAssembler.update {}).build uuid with
    | .error e => .error (.inr e)
    | .ok r => .ok r

/-- `_require_stream_terminal` (gateway.py:787-793), if the stream is `strict`. -/
def requireTerminal (provider : String) (strict terminal : Bool) : Except Fault Unit :=
  if strict && !terminal then
    .error (.protocol s!"{provider} stream ended before its terminal frame" "stream.terminal")
  else .ok ()

/-- `choices[0] if choices else {}` -/
def firstOf (xs : List Json) : Except Fault Fields :=
  match xs with
  | x :: _ => dict x
  | [] => .ok []

/-! ## OpenAI -/

namespace OpenAIAdapter

/-- The arguments of a call; an undecodable text has none. -/
def parseArguments (func : Fields) : Except Fault Fields := do
  match JsonText.loads (← strOr "\x7b\x7d" (lookup "arguments" func)) with
  | .ok (.obj fs) => .ok fs
  | .ok _ => .error .malformed
  | .error .malformed => .ok []
  | .error .tooManyDigits => .error .malformed

def parseCall (uuid : Nat → String) (n : Nat) (raw : Json) : Except Fault ToolCall := do
  let tc ← dict raw
  let func ← dictOr (lookup "function" tc)
  let args ← parseArguments func
  let id ← strOr (uuid n) (lookup "id" tc)
  let name ← strOr "" (lookup "name" func)
  toolCall id name args ""

def cachedTokens (raw : Fields) : Except Fault Int :=
  match lookup "prompt_tokens_details" raw with
  | some (.obj details) => intOr (lookup "cached_tokens" details)
  | _ => .ok 0

/-- The usage of a response or of a chunk. -/
def parseUsage (raw : Fields) : Except Fault Usage := do
  let cached ← cachedTokens raw
  let prompt ← intOr (lookup "prompt_tokens" raw)
  let output ← count (← intOr (lookup "completion_tokens" raw))
  let cacheRead ← count cached
  return { inputTokens := (prompt - cached).toNat, outputTokens := output
           cacheReadTokens := cacheRead }

/-- `OpenAIAdapter._parse_response` (gateway.py:1386-1441) -/
def parseResponse (uuid : Nat → String) (data : Fields) :
    Except ProviderProtocolError ModelResponse :=
  protocolParser "openai" do
    let choices := (lookup "choices" data).getD (.arr [])
    if !truthy choices then .error (.protocol "Response contains empty choices" "choices")
    else
      let choice ← firstOf (← orList choices)
      let message ← dictOr (lookup "message" choice)
      let text ← orStr (lookup "content" message)
      let finish ← finishOf openaiFinish ((lookup "finish_reason" choice).getD (.str "stop"))
      let rawCalls ← loop (lookup "tool_calls" message)
      let toolCalls ← rawCalls.zipIdx.mapM fun p => parseCall uuid p.2 p.1
      let usage ← parseUsage (← dictOr (lookup "usage" data))
      return { text := text, toolCalls := toolCalls
               finishReason := if toolCalls.isEmpty then finish else .toolUse, usage := usage }

/-- What the stream parser keeps from chunk to chunk. -/
structure Stream where
  toolNames : List (Nat × String) := []
  finish : Option FinishReason := none

/-- One call of a chunk. -/
def streamCall (toolNames : List (Nat × String)) (raw : Json) :
    Except Fault (List (Nat × String) × StreamDelta) := do
  let tc ← dict raw
  let idx ← index (lookup "index" tc)
  let fn ← orDict (lookup "function" tc)
  let given ← orStr (lookup "name" fn)
  let name := if given = "" then (toolNames.lookup idx).getD "" else given
  let names := if given = "" then toolNames else (idx, given) :: toolNames
  let id ← orStr (lookup "id" tc)
  let fragment ← orStr (lookup "arguments" fn)
  return (names, .toolCall idx id name fragment "")

def streamCalls (toolNames : List (Nat × String)) : List Json →
    Except Fault (List (Nat × String) × List StreamDelta)
  | [] => .ok (toolNames, [])
  | raw :: raws => do
    let (names, d) ← streamCall toolNames raw
    let (names, ds) ← streamCalls names raws
    return (names, d :: ds)

/-- The usage of a chunk, unless it counts nothing. -/
def streamUsage (j : Option Json) : Except Fault (List StreamDelta) :=
  match j with
  | some (.obj raw) =>
    if ((lookup "prompt_tokens" raw).any truthy || (lookup "completion_tokens" raw).any truthy) then
      (parseUsage raw).map fun u => [.usage u]
    else .ok []
  | _ => .ok []

/-- `if text: yield TextDelta(text=text)` -/
def streamText (j : Option Json) : Except Fault (List StreamDelta) := do
  let text ← orStr j
  return if text = "" then [] else [.text text]

def streamChunk (s : Stream) (data : Fields) : Except Fault (Stream × List StreamDelta) := do
  let choice ← firstOf (← orList (lookup "choices" data))
  let delta ← orDict (lookup "delta" choice)
  let text ← streamText (lookup "content" delta)
  let (names, calls) ← streamCalls s.toolNames (← orList (lookup "tool_calls" delta))
  let finish ← finishFrom openaiFinish s.finish (lookup "finish_reason" choice)
  let usage ← streamUsage (lookup "usage" data)
  return (⟨names, finish⟩, text ++ calls ++ usage)

/-- The loop over the events, up to `[DONE]`, and whether that was seen. -/
def streamEvents (s : Stream) : List (String × Option Fields) →
    Except Fault (Stream × List StreamDelta × Bool)
  | [] => .ok (s, [], false)
  | (_, none) :: _ => .ok (s, [], true)
  | (_, some data) :: es => do
    let (s, ds) ← streamChunk s data
    let (s, ds', terminal) ← streamEvents s es
    return (s, ds ++ ds', terminal)

/-- `_openai_stream_chunks` (gateway.py:796-855) -/
def streamChunks (strict : Bool) (events : List (String × Option Fields)) :
    Except ProviderProtocolError (List StreamDelta) :=
  protocolStream "openai" do
    let (s, ds, terminal) ← streamEvents {} events
    requireTerminal "openai" strict terminal
    return ds ++ [.finish (s.finish.getD .endTurn)]

end OpenAIAdapter

/-! ## Anthropic -/

namespace AnthropicAdapter

/-- A block's text, or the call it makes. -/
inductive Block where
  | text (text : String)
  | call (call : ToolCall)
  | other

/-- One block, behind `n` calls. -/
def parseBlock (uuid : Nat → String) (n : Nat) (raw : Json) : Except Fault Block := do
  let block ← dict raw
  match lookup "type" block with
  | some (.str "text") => return .text (← strOr "" (lookup "text" block))
  | some (.str "tool_use") =>
    let id ← strOr (uuid n) (lookup "id" block)
    let name ← strOr "" (lookup "name" block)
    let input ← dictOr (lookup "input" block)
    return .call (← toolCall id name input "")
  | _ => return .other

/-- The texts and the calls of the blocks. -/
def parseBlocks (uuid : Nat → String) (n : Nat) : List Json →
    Except Fault (List String × List ToolCall)
  | [] => .ok ([], [])
  | raw :: raws => do
    match ← parseBlock uuid n raw with
    | .text t => return (← parseBlocks uuid n raws).map (t :: ·) id
    | .call c => return (← parseBlocks uuid (n + 1) raws).map id (c :: ·)
    | .other => parseBlocks uuid n raws

/-- `Usage(...)` of the counts a response or a `message_start` has. -/
def parseUsage (raw : Fields) (output : Nat) : Except Fault Usage := do
  let input ← count (← intOr (lookup "input_tokens" raw))
  let creation ← count (← intOr (lookup "cache_creation_input_tokens" raw))
  let read ← count (← intOr (lookup "cache_read_input_tokens" raw))
  return ⟨input, output, creation, read⟩

/-- `AnthropicAdapter._parse_response` (gateway.py:1638-1693) -/
def parseResponse (uuid : Nat → String) (data : Fields) :
    Except ProviderProtocolError ModelResponse :=
  protocolParser "anthropic" do
    let content := (lookup "content" data).getD (.arr [])
    if !truthy content then
      match lookup "stop_reason" data with
      | some (.str "max_tokens") => .ok { finishReason := .maxTokens }
      | _ => .error (.protocol "Response contains empty content" "content")
    else
      let finish ← finishOf anthropicFinish ((lookup "stop_reason" data).getD (.str "end_turn"))
      let (texts, toolCalls) ← parseBlocks uuid 0 (← orList (some content))
      let raw ← dictOr (lookup "usage" data)
      let output ← count (← intOr (lookup "output_tokens" raw))
      let usage ← parseUsage raw output
      return { text := String.join texts, toolCalls := toolCalls
               finishReason := if toolCalls.isEmpty then finish else .toolUse, usage := usage }

/-- What the stream parser keeps from event to event. -/
structure Stream where
  finish : Option FinishReason := none
  inputUsage : Option Usage := none
  outputTokens : Nat := 0

/-- `data.get("type") or event_name` -/
def eventType (name : String) (data : Fields) : String :=
  match lookup "type" data with
  | some (.str t) => if t = "" then name else t
  | some v => if truthy v then "" else name
  | none => name

def onMessageStart (s : Stream) (data : Fields) : Except Fault (Stream × List StreamDelta) := do
  let message ← nullable .malformed (lookup "message" data)
  let raw ← orDict (lookup "usage" message)
  if raw.isEmpty then return (s, [])
  else return ({ s with inputUsage := some (← parseUsage raw 0) }, [])

def onBlockStart (s : Stream) (data : Fields) : Except Fault (Stream × List StreamDelta) := do
  let block ← orDict (lookup "content_block" data)
  match lookup "type" block with
  | some (.str "tool_use") =>
    let index ← index (lookup "index" data)
    let id ← strOr "" (lookup "id" block)
    let name ← strOr "" (lookup "name" block)
    return (s, [.toolCall index id name "" ""])
  | _ => return (s, [])

def onBlockDelta (s : Stream) (data : Fields) : Except Fault (Stream × List StreamDelta) := do
  let delta ← orDict (lookup "delta" data)
  match lookup "type" delta with
  | some (.str "text_delta") => return (s, [.text (← strOr "" (lookup "text" delta))])
  | some (.str "input_json_delta") =>
    let index ← index (lookup "index" data)
    let fragment ← strOr "" (lookup "partial_json" delta)
    return (s, [.toolCall index "" "" fragment ""])
  | _ => return (s, [])

def onMessageDelta (s : Stream) (data : Fields) : Except Fault (Stream × List StreamDelta) := do
  let delta ← orDict (lookup "delta" data)
  let finish ← finishFrom anthropicFinish s.finish (lookup "stop_reason" delta)
  let raw ← orDict (lookup "usage" data)
  let output ← intOr (lookup "output_tokens" raw)
  return ({ s with finish := finish, outputTokens := max s.outputTokens output.toNat }, [])

def onEvent (s : Stream) (etype : String) (data : Fields) :
    Except Fault (Stream × List StreamDelta) :=
  if etype = "message_start" then onMessageStart s data
  else if etype = "content_block_start" then onBlockStart s data
  else if etype = "content_block_delta" then onBlockDelta s data
  else if etype = "message_delta" then onMessageDelta s data
  else .ok (s, [])

/-- The loop over the events, up to `message_stop`. -/
def streamEvents (s : Stream) : List (String × Option Fields) →
    Except Fault (Stream × List StreamDelta × Bool)
  | [] => .ok (s, [], false)
  | (name, data) :: es =>
    let data := data.getD []
    let etype := eventType name data
    if etype = "message_stop" then .ok (s, [], true)
    else do
      let (s, ds) ← onEvent s etype data
      let (s, ds', terminal) ← streamEvents s es
      return (s, ds ++ ds', terminal)

/-- `_anthropic_stream_chunks` (gateway.py:857-912) -/
def streamChunks (strict : Bool) (events : List (String × Option Fields)) :
    Except ProviderProtocolError (List StreamDelta) :=
  protocolStream "anthropic" do
    let (s, ds, terminal) ← streamEvents {} events
    requireTerminal "anthropic" strict terminal
    return ds ++ [.usage { s.inputUsage.getD {} with outputTokens := s.outputTokens },
      .finish (s.finish.getD .endTurn)]

end AnthropicAdapter

/-! ## Gemini -/

namespace GeminiAdapter

/-- `_gemini_usage` (gateway.py:915-927) -/
def parseUsage (raw : Fields) : Except Fault Usage := do
  let cached ← intOr (lookup "cachedContentTokenCount" raw)
  let prompt ← intOr (lookup "promptTokenCount" raw)
  let candidates ← intOr (lookup "candidatesTokenCount" raw)
  let thoughts ← intOr (lookup "thoughtsTokenCount" raw)
  let output ← count (candidates + thoughts)
  let cacheRead ← count cached
  return { inputTokens := (prompt - cached).toNat, outputTokens := output
           cacheReadTokens := cacheRead }

/-- The text of a part, thoughts apart. -/
def partText (part : Fields) : Except Fault (List String) :=
  if (lookup "thought" part).any truthy then .ok []
  else do
    let text ← orStr (lookup "text" part)
    return if text = "" then [] else [text]

/-- The call of a part, the `n`-th one. -/
def parseCall (uuid : Nat → String) (n : Nat) (part : Fields) : Except Fault (List ToolCall) :=
  match lookup "functionCall" part with
  | none => .ok []
  | some raw =>
    if !truthy raw then .ok []
    else do
      let call ← dict raw
      let id ← orStr (lookup "id" call)
      let name ← strOr "" (lookup "name" call)
      let args ← orDict (lookup "args" call)
      let signature ← orStr (lookup "thoughtSignature" part)
      return [← toolCall (if id = "" then uuid n else id) name args signature]

/-- The texts and the calls of the parts. -/
def parseParts (uuid : Nat → String) (n : Nat) : List Json →
    Except Fault (List String × List ToolCall)
  | [] => .ok ([], [])
  | raw :: raws => do
    let part ← dict raw
    let texts ← partText part
    let calls ← parseCall uuid n part
    let (texts', calls') ← parseParts uuid (n + calls.length) raws
    return (texts ++ texts', calls ++ calls')

/-- `GeminiAdapter._parse_response` (gateway.py:1835-1886) -/
def parseResponse (uuid : Nat → String) (data : Fields) :
    Except ProviderProtocolError ModelResponse :=
  protocolParser "gemini" do
    let candidates := (lookup "candidates" data).getD (.arr [])
    if !truthy candidates then .error (.protocol "Response contains empty candidates" "candidates")
    else
      let candidate ← firstOf (← orList candidates)
      let content ← nullable (.protocol "Malformed gemini response at candidates[0].content"
        "candidates[0].content") (lookup "content" candidate)
      let (texts, toolCalls) ← parseParts uuid 0 (← orList (lookup "parts" content))
      let finish ← finishOf geminiFinish ((lookup "finishReason" candidate).getD (.str "STOP"))
      let usage ← parseUsage (← dictOr (lookup "usageMetadata" data))
      return { text := String.join texts, toolCalls := toolCalls
               finishReason := if toolCalls.isEmpty then finish else .toolUse, usage := usage }

/-- What the stream parser keeps from chunk to chunk. -/
structure Stream where
  finish : Option FinishReason := none
  usage : Usage := {}
  toolIndex : Nat := 0

/-- The call of a part, whole. -/
def streamCall (uuid : Nat → String) (toolIndex : Nat) (part : Fields) :
    Except Fault (List StreamDelta) :=
  match lookup "functionCall" part with
  | none => .ok []
  | some raw =>
    if !truthy raw then .ok []
    else do
      let call ← dict raw
      let id ← orStr (lookup "id" call)
      let name ← strOr "" (lookup "name" call)
      let args := match lookup "args" call with
        | some v => if truthy v then v else .obj []
        | none => .obj []
      let signature ← orStr (lookup "thoughtSignature" part)
      return [.toolCall toolIndex (if id = "" then uuid toolIndex else id) name
        (JsonText.dumps .default args) signature]

def streamParts (uuid : Nat → String) (toolIndex : Nat) : List Json →
    Except Fault (Nat × List StreamDelta)
  | [] => .ok (toolIndex, [])
  | raw :: raws => do
    let part ← dict raw
    let texts ← partText part
    let calls ← streamCall uuid toolIndex part
    let (toolIndex, ds) ← streamParts uuid (toolIndex + calls.length) raws
    return (toolIndex, texts.map .text ++ calls ++ ds)

/-- The usage a chunk has, or the one before. -/
def streamUsage (old : Usage) : Option Json → Except Fault Usage
  | some (.obj raw) => if raw.isEmpty then .ok old else parseUsage raw
  | _ => .ok old

def streamChunk (uuid : Nat → String) (s : Stream) (data : Fields) :
    Except Fault (Stream × List StreamDelta) := do
  let candidate ← firstOf (← orList (lookup "candidates" data))
  let content ← orDict (lookup "content" candidate)
  let (toolIndex, ds) ← streamParts uuid s.toolIndex (← orList (lookup "parts" content))
  let finish ← finishFrom geminiFinish s.finish (lookup "finishReason" candidate)
  let usage ← streamUsage s.usage (lookup "usageMetadata" data)
  return (⟨finish, usage, toolIndex⟩, ds)

/-- The loop over the events, up to a finish reason. -/
def streamEvents (uuid : Nat → String) (s : Stream) : List (String × Option Fields) →
    Except Fault (Stream × List StreamDelta × Bool)
  | [] => .ok (s, [], false)
  | (_, none) :: _ => .ok (s, [], false)
  | (_, some data) :: es => do
    let (s, ds) ← streamChunk uuid s data
    if s.finish.isSome then return (s, ds, true)
    else
      let (s, ds', terminal) ← streamEvents uuid s es
      return (s, ds ++ ds', terminal)

/-- `_gemini_stream_chunks` (gateway.py:930-980) -/
def streamChunks (uuid : Nat → String) (strict : Bool) (events : List (String × Option Fields)) :
    Except ProviderProtocolError (List StreamDelta) :=
  protocolStream "gemini" do
    let (s, ds, terminal) ← streamEvents uuid {} events
    requireTerminal "gemini" strict terminal
    return ds ++ [.usage s.usage, .finish (s.finish.getD .endTurn)]

end GeminiAdapter

end Northstack
