import Mathlib
import Northstack.Adapters.OpenAIResponses
import Northstack.Adapters.AnthropicResponses
import Northstack.Adapters.GeminiResponses

/-!
# Streamed and whole responses

Whether folding a stream through `StreamAssembler` gives what `_parse_response`
gives of the same answer whole.

**Result.** `streamed_responses`: for each provider, on which answers it does.
All three parsers of whole answers say `TOOL_USE` whenever there are calls; the
assembler only says what the provider said.
-/
namespace Northstack

open Json

/-- **Streamed responses.** A stream is assembled to the response parsed of the
whole answer, if and only if the answer makes no calls or its provider itself
gave calls as the reason to finish (which Gemini never does), an OpenAI answer
with cached tokens counts others too, and an Anthropic answer without content
ran out of tokens and has no counts. The ids drawn on either side do not matter. -/
theorem streamed_responses {parsing streaming : Nat → String} (hparsing : ∀ n, parsing n ≠ "")
    (hstreaming : ∀ n, streaming n ≠ "") (assembling : Nat → String) (strict : Bool) :
    (∀ (a : OpenAIAdapter.Answer) (data : Fields) (events : List (String × Option Fields)),
      a.Wire data → a.StreamedBy events →
      (SameResponse
        (assembleStreamedResponse assembling (OpenAIAdapter.streamChunks strict events))
        (OpenAIAdapter.parseResponse parsing data) ↔
      (a.calls = [] ∨ openaiFinish a.finish = some .toolUse) ∧
        (¬ a.usage.Empty ∨ a.usage.cached.getD 0 = 0))) ∧
    (∀ (a : AnthropicAdapter.Answer) (data : Fields) (events : List (String × Option Fields)),
      a.Wire data → a.StreamedBy events →
      (SameResponse
        (assembleStreamedResponse assembling (AnthropicAdapter.streamChunks strict events))
        (AnthropicAdapter.parseResponse parsing data) ↔
      (a.calls = [] ∨ anthropicFinish a.stop = some .toolUse) ∧
        (a.blocks ≠ [] ∨ a.stop = "max_tokens" ∧ a.counts.Empty ∧ a.output = 0))) ∧
    ∀ (a : GeminiAdapter.Answer) (data : Fields) (events : List (String × Option Fields)),
      a.chunk.Wire data → a.StreamedBy events →
      (SameResponse
        (assembleStreamedResponse assembling (GeminiAdapter.streamChunks streaming strict events))
        (GeminiAdapter.parseResponse parsing data) ↔
      GeminiAdapter.callsOf a.parts = []) := by
  refine ⟨fun a data events h hs => ?_, fun a data events h hs => ?_, fun a data events h hs => ?_⟩
  · exact OpenAIAdapter.same_iff parsing assembling strict h hs
  · exact AnthropicAdapter.same_iff parsing assembling strict h hs
  · exact GeminiAdapter.same_iff hparsing hstreaming assembling strict h hs

/-! ## A call in two fragments, and a text in two -/

namespace OpenAIAdapter

def searchAnswer : Answer where
  content := some "Hm"
  calls := [⟨"c", "search", "\x7b\x7d", [], by decide, by decide, rfl⟩]
  finish := "tool_calls"
  usage := ⟨3, 2, none⟩

def searchUsage : Json := .obj [("prompt_tokens", .int 3), ("completion_tokens", .int 2)]

def searchData : Fields :=
  [("choices", .arr [.obj [("message", .obj [("content", .str "Hm"), ("tool_calls", .arr [.obj
      [("id", .str "c"), ("function", .obj [("name", .str "search"),
        ("arguments", .str "\x7b\x7d")])]])]),
    ("finish_reason", .str "tool_calls")]]), ("usage", searchUsage)]

def searchChunks : List Chunk :=
  [{ content := some "Hm", calls := [⟨0, some "c", some "search", some "\x7b"⟩] },
    { calls := [⟨0, none, none, some "\x7d"⟩], finish := some "tool_calls" },
    { usage := some ⟨3, 2, none⟩ }]

def searchStream : List (String × Fields) :=
  [("", [("choices", .arr [.obj [("delta", .obj [("content", .str "Hm"), ("tool_calls", .arr [.obj
      [("index", .int 0), ("id", .str "c"), ("function", .obj [("name", .str "search"),
        ("arguments", .str "\x7b")])]])])]])]),
    ("", [("choices", .arr [.obj [("delta", .obj [("tool_calls", .arr [.obj
      [("index", .int 0), ("function", .obj [("arguments", .str "\x7d")])]])]),
      ("finish_reason", .str "tool_calls")]])]),
    ("", [("choices", .arr []), ("usage", searchUsage)])]

theorem searchAnswer_wire : searchAnswer.Wire searchData :=
  ⟨_, _, _, _, rfl, rfl, rfl, rfl, .inr ⟨_, rfl, .cons ⟨_, _, rfl, rfl, rfl, rfl, rfl⟩ .nil⟩, rfl,
    rfl, rfl, .inl rfl⟩

/-- Its only call. -/
theorem searchAnswer_call {i : Nat} {c : AnswerCall} (h : searchAnswer.calls[i]? = some c) :
    i = 0 ∧ searchAnswer.calls[0]? = some c := by
  cases i with
  | zero => exact ⟨rfl, h⟩
  | succ i => cases h

theorem searchAnswer_delivered : Delivers searchAnswer searchChunks where
  text := rfl
  calls := by
    intro p hp
    rcases List.mem_cons.mp hp with rfl | hp
    · exact ⟨_, rfl, .inr rfl, .inr rfl⟩
    · rw [List.mem_singleton.mp hp]
      exact ⟨_, rfl, .inl rfl, .inl rfl⟩
  ids := by
    intro i c hc
    obtain ⟨rfl, hc⟩ := searchAnswer_call hc
    obtain rfl := Option.some.inj hc
    exact ⟨_, List.mem_cons_self, rfl, rfl⟩
  names := by
    intro i c hc
    obtain ⟨rfl, hc⟩ := searchAnswer_call hc
    obtain rfl := Option.some.inj hc
    exact ⟨_, List.mem_cons_self, rfl, rfl⟩
  arguments := by
    intro i c hc
    obtain ⟨rfl, hc⟩ := searchAnswer_call hc
    obtain rfl := Option.some.inj hc
    rfl
  finish := ⟨nofun, fun f hf => List.mem_singleton.mp hf⟩
  usage := ⟨nofun, fun u hu => List.mem_singleton.mp hu⟩

theorem searchAnswer_streamed : searchAnswer.StreamedBy
    ((searchStream.map fun d => (d.1, some d.2)) ++ [("", none)]) := by
  refine ⟨searchChunks, searchStream, "", [], searchAnswer_delivered, ?_, rfl⟩
  refine .cons ⟨.inl ⟨_, _, _, rfl, rfl, rfl, .inr ⟨_, rfl, ?_⟩, .inl rfl⟩, .inl rfl⟩ <| .cons
    ⟨.inl ⟨_, _, _, rfl, rfl, .inl rfl, .inr ⟨_, rfl, ?_⟩, rfl⟩, .inl rfl⟩ <| .cons
    ⟨.inr ⟨rfl, rfl, rfl, rfl⟩, ⟨_, rfl, rfl, rfl, .inl rfl⟩⟩ .nil
  · exact .cons ⟨_, _, rfl, rfl, rfl, rfl, rfl, rfl⟩ .nil
  · exact .cons ⟨_, _, rfl, rfl, .inl rfl, rfl, .inl rfl, rfl⟩ .nil

end OpenAIAdapter

namespace AnthropicAdapter

def greeting : Answer := ⟨[.text "Hi"], "end_turn", ⟨3, none, none⟩, 2⟩

def greetingData : Fields :=
  [("content", .arr [.obj [("type", .str "text"), ("text", .str "Hi")]]),
    ("stop_reason", .str "end_turn"),
    ("usage", .obj [("input_tokens", .int 3), ("output_tokens", .int 2)])]

def greetingEvents : List Event :=
  [.messageStart ⟨3, none, none⟩, .text "H", .text "i", .messageDelta (some "end_turn") 2]

def greetingStream : List (String × Fields) :=
  [("", [("type", .str "message_start"),
      ("message", .obj [("usage", .obj [("input_tokens", .int 3)])])]),
    ("", [("type", .str "content_block_delta"),
      ("delta", .obj [("type", .str "text_delta"), ("text", .str "H")])]),
    ("", [("type", .str "content_block_delta"),
      ("delta", .obj [("type", .str "text_delta"), ("text", .str "i")])]),
    ("", [("type", .str "message_delta"), ("delta", .obj [("stop_reason", .str "end_turn")]),
      ("usage", .obj [("output_tokens", .int 2)])])]

theorem greeting_wire : greeting.Wire greetingData :=
  ⟨_, _, rfl, .cons ⟨_, rfl, rfl, rfl⟩ .nil, rfl, rfl, ⟨rfl, rfl, rfl⟩, rfl⟩

theorem greeting_delivered : Delivers greeting greetingEvents where
  text := rfl
  blocks := nofun
  calls := by
    intro i c hc
    cases i with
    | zero => cases hc
    | succ i => cases hc
  stop := ⟨nofun, fun s hs => List.mem_singleton.mp hs⟩
  counts := ⟨nofun, fun c hc => List.mem_singleton.mp hc⟩
  output := ⟨List.mem_singleton_self _, fun n hn => (List.mem_singleton.mp hn).le⟩

theorem greeting_streamed : greeting.StreamedBy
    ((greetingStream.map fun d => (d.1, some d.2)) ++
      [("", some [("type", .str "message_stop")])]) := by
  refine ⟨greetingEvents, greetingStream, "", _, [], greeting_delivered, ?_, rfl, rfl⟩
  exact .cons ⟨_, _, ⟨rfl, rfl⟩, rfl, rfl, rfl, rfl⟩ <| .cons ⟨_, ⟨rfl, rfl⟩, rfl, rfl⟩ <|
    .cons ⟨_, ⟨rfl, rfl⟩, rfl, rfl⟩ <| .cons ⟨_, _, ⟨rfl, rfl⟩, rfl, rfl, rfl⟩ .nil

end AnthropicAdapter

namespace GeminiAdapter

/-- A call, after which the provider says that it stopped. -/
def lookupAnswer : Answer where
  parts := [{ call := some ⟨none, "search", [], by decide, .obj List.nodup_nil nofun⟩ }]
  finish := "STOP"
  usage := ⟨3, some 2, none, none⟩

def lookupData : Fields :=
  [("candidates", .arr [.obj [
      ("content", .obj [("parts", .arr [.obj
        [("functionCall", .obj [("name", .str "search"), ("args", .obj [])])]])]),
      ("finishReason", .str "STOP")]]),
    ("usageMetadata", .obj [("promptTokenCount", .int 3), ("candidatesTokenCount", .int 2)])]

theorem lookupAnswer_wire : lookupAnswer.chunk.Wire lookupData :=
  ⟨⟨_, _, rfl, .inr ⟨_, rfl, .inr ⟨_, rfl, .cons ⟨_, rfl, .inl rfl, .inr ⟨rfl, rfl⟩,
    ⟨_, rfl, .inl rfl, rfl, .inl rfl⟩, .inl rfl⟩ .nil⟩⟩, rfl⟩, _, rfl, rfl, rfl, rfl, rfl⟩

theorem lookupAnswer_delivered : Delivers lookupAnswer [] lookupAnswer.chunk :=
  ⟨rfl, rfl, nofun, rfl, rfl⟩

theorem lookupAnswer_streamed : lookupAnswer.StreamedBy [("", some lookupData)] :=
  ⟨[], lookupAnswer.chunk, [], "", lookupData, [], lookupAnswer_delivered, .nil,
    lookupAnswer_wire, rfl⟩

end GeminiAdapter

theorem streamed_responses_search :
    SameResponse
      (assembleStreamedResponse (fun _ => "i") (OpenAIAdapter.streamChunks true
        ((OpenAIAdapter.searchStream.map fun d => (d.1, some d.2)) ++ [("", none)])))
      (OpenAIAdapter.parseResponse (fun _ => "p") OpenAIAdapter.searchData) ∧
    SameResponse
      (assembleStreamedResponse (fun _ => "i") (AnthropicAdapter.streamChunks true
        ((AnthropicAdapter.greetingStream.map fun d => (d.1, some d.2)) ++
          [("", some [("type", .str "message_stop")])])))
      (AnthropicAdapter.parseResponse (fun _ => "p") AnthropicAdapter.greetingData) ∧
    ¬ SameResponse
      (assembleStreamedResponse (fun _ => "i") (GeminiAdapter.streamChunks (fun _ => "s") true
        [("", some GeminiAdapter.lookupData)]))
      (GeminiAdapter.parseResponse (fun _ => "p") GeminiAdapter.lookupData) := by
  obtain ⟨hopenai, hanthropic, hgemini⟩ := @streamed_responses (fun _ => "p") (fun _ => "s")
    (fun _ => by decide) (fun _ => by decide) (fun _ => "i") true
  refine ⟨?_, ?_, fun h => ?_⟩
  · exact (hopenai _ _ _ OpenAIAdapter.searchAnswer_wire OpenAIAdapter.searchAnswer_streamed).mpr
      ⟨.inr rfl, .inl (by decide)⟩
  · exact (hanthropic _ _ _ AnthropicAdapter.greeting_wire AnthropicAdapter.greeting_streamed).mpr
      ⟨.inl rfl, .inl (by simp [AnthropicAdapter.greeting])⟩
  · cases (hgemini _ _ _ GeminiAdapter.lookupAnswer_wire GeminiAdapter.lookupAnswer_streamed).mp h

/-- **A call lost to its reason.** Gemini says `STOP` behind a call: the parser
says `TOOL_USE`, the assembler `END_TURN`. -/
theorem gemini_call_streams_apart :
    ∃ a data events, GeminiAdapter.Chunk.Wire (GeminiAdapter.Answer.chunk a) data ∧
      a.StreamedBy events ∧
      (∃ parsed, GeminiAdapter.parseResponse (fun _ => "u") data = .ok parsed ∧
        parsed.finishReason = .toolUse) ∧
      (∃ streamed, assembleStreamedResponse (fun _ => "u")
          (GeminiAdapter.streamChunks (fun _ => "u") true events) = .ok streamed ∧
        streamed.finishReason = .endTurn) ∧
      ¬ SameResponse
        (assembleStreamedResponse (fun _ => "u")
          (GeminiAdapter.streamChunks (fun _ => "u") true events))
        (GeminiAdapter.parseResponse (fun _ => "u") data) := by
  have huuid : ∀ _ : Nat, "u" ≠ "" := fun _ => by decide
  refine ⟨GeminiAdapter.lookupAnswer, GeminiAdapter.lookupData, _, GeminiAdapter.lookupAnswer_wire,
    GeminiAdapter.lookupAnswer_streamed, ⟨_, GeminiAdapter.parseResponse_answer huuid
      GeminiAdapter.lookupAnswer_wire, rfl⟩,
    ⟨GeminiAdapter.lookupAnswer.streamed fun _ => "u", ?_, rfl⟩, fun h => ?_⟩
  · exact GeminiAdapter.streamed_answer huuid GeminiAdapter.lookupAnswer_delivered .nil true
      GeminiAdapter.lookupAnswer_wire []
  · cases (GeminiAdapter.same_iff huuid huuid _ true GeminiAdapter.lookupAnswer_wire
      GeminiAdapter.lookupAnswer_streamed).mp h

end Northstack
