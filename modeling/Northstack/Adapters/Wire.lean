import Northstack.Core.Json

/-!
# Provider-neutral wire models

Mirrors adapters/providers/wire.py: what the worker sends to a gateway and gets
back. Images and the provider's identity are read by no code modelled here.
-/
namespace Northstack

inductive MessageRole where
  | system | user | assistant | tool
  deriving DecidableEq, Repr

inductive FinishReason where
  | endTurn | toolUse | maxTokens | stopSequence | error
  deriving DecidableEq, Repr

def FinishReason.value : FinishReason → String
  | .endTurn => "end_turn"
  | .toolUse => "tool_use"
  | .maxTokens => "max_tokens"
  | .stopSequence => "stop_sequence"
  | .error => "error"

structure ToolDefinition where
  name : String
  description : String := ""
  parameters : List (String × Json) := []

structure ToolCall where
  id : String
  name : String
  arguments : List (String × Json) := []
  signature : String := ""

structure ToolResultMessage where
  toolCallId : String
  content : String := ""
  isError : Bool := false

structure ModelMessage where
  role : MessageRole
  content : String := ""
  toolCalls : List ToolCall := []
  toolCallId : String := ""
  isError : Bool := false

structure Usage where
  inputTokens : Nat := 0
  outputTokens : Nat := 0
  cacheCreationTokens : Nat := 0
  cacheReadTokens : Nat := 0

structure ModelResponse where
  text : String := ""
  toolCalls : List ToolCall := []
  finishReason : FinishReason := .endTurn
  usage : Usage := {}

/-- `_tool_names_used` (cell_runner.py:521-523): the names of the calls a
conversation carries. -/
def toolNames (messages : List ModelMessage) : List String :=
  messages.flatMap fun m => m.toolCalls.map (·.name)

theorem toolNames_append (ms ns : List ModelMessage) :
    toolNames (ms ++ ns) = toolNames ms ++ toolNames ns :=
  List.flatMap_append

end Northstack
