import Northstack.Adapters.StreamedResponses
import Northstack.Application.Routing

/-!
# The gateway's streams

Mirrors `complete`, `stream_complete` and `complete_stream` of `ModelGateway`
(adapters/providers/gateway.py:2036-2192). What the provider does with a request
is given: what the request returns whole and what it streams, or why it fails.
The limiter only makes callers wait, and a response's artifact is no part of
what is compared.

**Result.** `streamComplete_agrees_iff`: when the deltas of `stream_complete` are
assembled to what `complete` and `complete_stream` return.
-/
namespace Northstack

namespace Gateway

inductive Protocol where
  | openaiChat | anthropicMessages | geminiGenerateContent
  deriving DecidableEq, Repr

/-- A profile with what the gateway reads of it. -/
structure ModelProfile extends Northstack.ModelProfile where
  protocol : Protocol := .openaiChat
  apiKeyEnv : Option String := none
  strictStreamCompletion : Bool := true

inductive Error where
  | configuration (message : String)
  | auth (message : String)
  | transport (message : String)
  | protocol (error : ProviderProtocolError)
  | assembly (fault : Fault)

/-- What a provider does with a request: what `_execute_request` returns, and the
events of the stream that is opened. -/
structure Endpoint where
  whole : Except String Fields
  events : Except String (List (String × Option Fields))

/-- The ids drawn where a provider leaves them out. -/
structure Draws where
  parsing : Nat → String
  streaming : Nat → String
  assembling : Nat → String
  parsing_ne : ∀ n, parsing n ≠ ""
  streaming_ne : ∀ n, streaming n ≠ ""

structure ModelGateway where
  profiles : List ModelProfile
  environ : String → Option String

/-! ## The adapters -/

/-- `_parse_response` of the protocol's adapter. -/
def parseResponse (draws : Draws) :
    Protocol → Fields → Except ProviderProtocolError ModelResponse
  | .openaiChat => OpenAIAdapter.parseResponse draws.parsing
  | .anthropicMessages => AnthropicAdapter.parseResponse draws.parsing
  | .geminiGenerateContent => GeminiAdapter.parseResponse draws.parsing

/-- The stream parser of the protocol's adapter. -/
def streamChunks (draws : Draws) (strict : Bool) :
    Protocol → List (String × Option Fields) → Except ProviderProtocolError (List StreamDelta)
  | .openaiChat => OpenAIAdapter.streamChunks strict
  | .anthropicMessages => AnthropicAdapter.streamChunks strict
  | .geminiGenerateContent => GeminiAdapter.streamChunks draws.streaming strict

/-- `adapter.complete` -/
def adapterComplete (draws : Draws) (p : ModelProfile) (e : Endpoint) :
    Except Error ModelResponse := do
  let data ← e.whole.mapError .transport
  (parseResponse draws p.protocol data).mapError .protocol

/-- `adapter.stream` -/
def adapterStream (draws : Draws) (p : ModelProfile) (e : Endpoint) :
    Except Error (List StreamDelta) := do
  let events ← e.events.mapError .transport
  (streamChunks draws p.strictStreamCompletion p.protocol events).mapError .protocol

/-- `StreamAssembler` over all the deltas. -/
def assemble (draws : Draws) (deltas : List StreamDelta) : Except Error ModelResponse :=
  ((deltas.foldl StreamAssembler.update {}).build draws.assembling).mapError .assembly

/-! ## The gateway -/

namespace ModelGateway

/-- `_get_profile` (gateway.py:2040-2045) -/
def getProfile (gw : ModelGateway) (name : String) : Except Error ModelProfile :=
  match gw.profiles.find? fun p => p.name = name with
  | some p => .ok p
  | none => .error (.configuration s!"Profile not found: {name}")

/-- `_require_api_key` (gateway.py:457-476), where a key is declared. -/
def requireApiKey (gw : ModelGateway) (p : ModelProfile) : Except Error Unit :=
  match p.apiKeyEnv with
  | none => .ok ()
  | some var =>
    match gw.environ var with
    | some _ => .ok ()
    | none => .error (.auth s!"API key environment variable {var} is not set")

variable (gw : ModelGateway) (draws : Draws) (profileName : String) (e : Endpoint)

/-- `complete` (gateway.py:2053-2075, 2108-2117) -/
def complete : Except Error ModelResponse := do
  let p ← gw.getProfile profileName
  gw.requireApiKey p
  adapterComplete draws p e

/-- `stream_complete` (gateway.py:2123-2153): the deltas, if it raises nothing. -/
def streamComplete : Except Error (List StreamDelta) := do
  let p ← gw.getProfile profileName
  if .streaming ∈ p.capabilities then
    gw.requireApiKey p
    let deltas ← adapterStream draws p e
    let _ ← assemble draws deltas
    return deltas
  else
    let response ← gw.complete draws profileName e
    return [.usage response.usage, .finish response.finishReason]

/-- `complete_stream` (gateway.py:2155-2192) -/
def completeStream : Except Error ModelResponse := do
  let p ← gw.getProfile profileName
  if .streaming ∈ p.capabilities then
    gw.requireApiKey p
    let deltas ← adapterStream draws p e
    assemble draws deltas
  else gw.complete draws profileName e

/-- What a caller of `stream_complete` assembles. -/
def assembled : Except Error ModelResponse := do
  let deltas ← gw.streamComplete draws profileName e
  assemble draws deltas

end ModelGateway

/-! ## A provider's answers -/

/-- An answer of one of the providers. -/
inductive Answer where
  | openai (a : OpenAIAdapter.Answer)
  | anthropic (a : AnthropicAdapter.Answer)
  | gemini (a : GeminiAdapter.Answer)

/-- The provider answers `a`, whole or streamed. -/
def Answer.Sent (protocol : Protocol) (e : Endpoint) : Answer → Prop
  | .openai a => protocol = .openaiChat ∧ ∃ data events, e.whole = .ok data ∧
      e.events = .ok events ∧ a.Wire data ∧ a.StreamedBy events
  | .anthropic a => protocol = .anthropicMessages ∧ ∃ data events, e.whole = .ok data ∧
      e.events = .ok events ∧ a.Wire data ∧ a.StreamedBy events
  | .gemini a => protocol = .geminiGenerateContent ∧ ∃ data events, e.whole = .ok data ∧
      e.events = .ok events ∧ a.chunk.Wire data ∧ a.StreamedBy events

/-- No text and no calls. -/
def Answer.Bare : Answer → Prop
  | .openai a => a.content.getD "" = "" ∧ a.calls = []
  | .anthropic a => String.join (a.blocks.filterMap AnthropicAdapter.AnswerBlock.text?) = "" ∧
      a.calls = []
  | .gemini a => String.join (a.parts.flatMap GeminiAdapter.Part.visible) = "" ∧
      GeminiAdapter.callsOf a.parts = []

/-- The parser of a stream and the parser of whole answers agree on it. -/
def Answer.Faithful : Answer → Prop
  | .openai a => (a.calls = [] ∨ openaiFinish a.finish = some .toolUse) ∧
      (¬ a.usage.Empty ∨ a.usage.cached.getD 0 = 0)
  | .anthropic a => (a.calls = [] ∨ anthropicFinish a.stop = some .toolUse) ∧
      (a.blocks ≠ [] ∨ a.stop = "max_tokens" ∧ a.counts.Empty ∧ a.output = 0)
  | .gemini a => GeminiAdapter.callsOf a.parts = []

/-- Both return the same, or neither returns. -/
def Agrees (x y : Except Error ModelResponse) : Prop := ∀ r, x = .ok r ↔ y = .ok r

variable {gw : ModelGateway} {draws : Draws} {profileName : String} {e : Endpoint}
  {p : ModelProfile} {a : Answer} {x y : Except Error ModelResponse}

theorem forall_ok {ε α : Type} {x : α} {P : α → Prop} :
    (∀ y, (.ok x : Except ε α) = .ok y → P y) ↔ P x := by
  simp only [Except.ok.injEq, forall_eq']

theorem Agrees.refl : Agrees x x := fun _ => Iff.rfl

theorem agrees_ok {r : ModelResponse} : Agrees (.ok r) y ↔ y = .ok r := by
  constructor
  · intro h
    exact (h r).mp rfl
  · intro h r'
    rw [h]

theorem agrees_error {error error' : Error} : Agrees (.error error) (.error error') := by
  intro r
  constructor
  · intro h
    cases h
  · intro h
    cases h

/-! ## Profiles that do not stream -/

theorem assemble_finish (u : Usage) (f : FinishReason) :
    assemble draws [.usage u, .finish f] = .ok { usage := u, finishReason := f } := rfl

/-- Of a response without text and calls the two deltas say all. -/
theorem fallback_iff {r : ModelResponse} :
    ({ usage := r.usage, finishReason := r.finishReason } : ModelResponse) = r ↔
      r.text = "" ∧ r.toolCalls = [] := by
  cases r with
  | mk text calls finish usage => simp [eq_comm]

theorem whole_agrees_iff (hp : gw.getProfile profileName = .ok p)
    (hplain : ¬ .streaming ∈ p.capabilities) :
    Agrees (gw.assembled draws profileName e) (gw.complete draws profileName e) ↔
      ∀ r, gw.complete draws profileName e = .ok r → r.text = "" ∧ r.toolCalls = [] := by
  unfold ModelGateway.assembled ModelGateway.streamComplete
  rw [hp]
  simp only [ok_bind, if_neg hplain]
  cases hcomplete : gw.complete draws profileName e with
  | error error =>
    constructor
    · intro _ r h
      cases h
    · intro _
      exact agrees_error
  | ok r =>
    simp only [ok_bind, pure, Except.pure, assemble_finish, agrees_ok, Except.ok.injEq, forall_eq']
    rw [eq_comm, fallback_iff]

/-! ## Profiles that stream -/

theorem assembled_streaming (hp : gw.getProfile profileName = .ok p)
    (hstreams : .streaming ∈ p.capabilities) :
    gw.assembled draws profileName e = gw.completeStream draws profileName e := by
  unfold ModelGateway.assembled ModelGateway.streamComplete ModelGateway.completeStream
  rw [hp]
  simp only [ok_bind, if_pos hstreams]
  cases gw.requireApiKey p with
  | error error => rfl
  | ok u =>
    cases adapterStream draws p e with
    | error error => rfl
    | ok deltas =>
      simp only [ok_bind]
      cases hassemble : assemble draws deltas with
      | error error => rfl
      | ok r => simp [pure, Except.pure, hassemble]

variable {protocol : Protocol}

/-- What the provider sends of an answer. -/
theorem Answer.Sent.reads (draws : Draws) (strict : Bool) (h : a.Sent protocol e) :
    ∃ data events, e.whole = .ok data ∧ e.events = .ok events ∧
      (a.Bare ↔ ∀ r, parseResponse draws protocol data = .ok r →
        r.text = "" ∧ r.toolCalls = []) ∧
      (∃ r, assembleStreamedResponse draws.assembling
        (streamChunks draws strict protocol events) = .ok r) ∧
      (SameResponse (assembleStreamedResponse draws.assembling
          (streamChunks draws strict protocol events))
        (parseResponse draws protocol data) ↔ a.Faithful) := by
  cases a with
  | openai a =>
    obtain ⟨rfl, data, events, hdata, hevents, hw, hs⟩ := h
    refine ⟨data, events, hdata, hevents, ?_, ?_, OpenAIAdapter.same_iff _ _ strict hw hs⟩
    · simp only [parseResponse, OpenAIAdapter.parseResponse_answer hw, Bare]
      rw [forall_ok]
      simp [OpenAIAdapter.Answer.response]
    · obtain ⟨chunks, datas, done, rest, hdelivers, hchunks, rfl⟩ := hs
      exact ⟨_, OpenAIAdapter.streamed_answer hdelivers hchunks strict done rest⟩
  | anthropic a =>
    obtain ⟨rfl, data, events, hdata, hevents, hw, hs⟩ := h
    refine ⟨data, events, hdata, hevents, ?_, ?_, AnthropicAdapter.same_iff _ _ strict hw hs⟩
    · simp only [parseResponse, Bare]
      by_cases hblocks : a.blocks = []
      · rw [AnthropicAdapter.parseResponse_empty hw hblocks]
        have hbare : a.calls = [] := by
          unfold AnthropicAdapter.Answer.calls
          rw [hblocks]
          rfl
        rw [hblocks]
        split
        · simp [hbare]
        · simp [hbare]
      · rw [AnthropicAdapter.parseResponse_answer hw hblocks, forall_ok]
        simp [AnthropicAdapter.Answer.response]
    · obtain ⟨said, datas, name, stop, rest, hdelivers, hchunks, hstop, rfl⟩ := hs
      exact ⟨_, AnthropicAdapter.streamed_answer hdelivers hchunks strict name hstop rest⟩
  | gemini a =>
    obtain ⟨rfl, data, events, hdata, hevents, hw, hs⟩ := h
    refine ⟨data, events, hdata, hevents, ?_, ?_,
      GeminiAdapter.same_iff draws.parsing_ne draws.streaming_ne _ strict hw hs⟩
    · simp only [parseResponse, GeminiAdapter.parseResponse_answer draws.parsing_ne hw, Bare]
      rw [forall_ok]
      simp [GeminiAdapter.Answer.response, GeminiAdapter.toolCalls]
    · obtain ⟨chunks, last, datas, name, data', rest, hdelivers, hchunks, hlast, rfl⟩ := hs
      exact ⟨_, GeminiAdapter.streamed_answer draws.streaming_ne hdelivers hchunks strict hlast
        rest⟩

/-- What is assembled of a stream, in the gateway's errors. -/
theorem agrees_iff_same {deltas : Except ProviderProtocolError (List StreamDelta)}
    {parsed : Except ProviderProtocolError ModelResponse}
    (h : ∃ r, assembleStreamedResponse draws.assembling deltas = .ok r) :
    Agrees (deltas.mapError .protocol >>= assemble draws) (parsed.mapError .protocol) ↔
      SameResponse (assembleStreamedResponse draws.assembling deltas) parsed := by
  obtain ⟨r, hr⟩ := h
  cases deltas with
  | error error => cases hr
  | ok ds =>
    unfold assembleStreamedResponse at hr ⊢
    cases hbuild : (ds.foldl StreamAssembler.update {}).build draws.assembling with
    | error fault =>
      dsimp only at hr
      rw [hbuild] at hr
      cases hr
    | ok r =>
      unfold assemble
      simp only [Except.mapError, ok_bind, hbuild, agrees_ok]
      cases parsed with
      | error error => simp [SameResponse]
      | ok r' => simp [SameResponse, eq_comm]

/-- **A provider's answer.** Where a profile's key can be resolved, assembling the
deltas of `stream_complete` agrees with `complete` and with `complete_stream`, if
and only if, for a profile that streams, the parsers of its adapter agree on the
answer, and for another one the answer has neither text nor calls. -/
theorem streamComplete_agrees_iff (hp : gw.getProfile profileName = .ok p)
    (hsent : a.Sent p.protocol e) :
    (Agrees (gw.assembled draws profileName e) (gw.complete draws profileName e) ∧
      Agrees (gw.assembled draws profileName e) (gw.completeStream draws profileName e)) ↔
      (gw.requireApiKey p = .ok () →
        .streaming ∈ p.capabilities ∧ a.Faithful ∨ ¬ .streaming ∈ p.capabilities ∧ a.Bare) := by
  obtain ⟨data, events, hdata, hevents, hbare, hreturns, hsame⟩ :=
    hsent.reads draws p.strictStreamCompletion
  have hcomplete : gw.complete draws profileName e = (do
      gw.requireApiKey p
      (parseResponse draws p.protocol data).mapError .protocol) := by
    unfold ModelGateway.complete adapterComplete
    rw [hp, hdata]
    rfl
  by_cases hstreams : .streaming ∈ p.capabilities
  · rw [assembled_streaming hp hstreams]
    have hstream : gw.completeStream draws profileName e = (do
        gw.requireApiKey p
        (streamChunks draws p.strictStreamCompletion p.protocol events).mapError .protocol >>=
          assemble draws) := by
      unfold ModelGateway.completeStream adapterStream
      rw [hp, hevents]
      simp only [ok_bind, if_pos hstreams]
      rfl
    rw [hcomplete, hstream]
    cases hkey : gw.requireApiKey p with
    | error error =>
      simp only [reduceCtorEq, false_implies, iff_true]
      exact ⟨agrees_error, Agrees.refl⟩
    | ok u =>
      have hagrees := (agrees_iff_same hreturns).trans hsame
      simp only [ok_bind, forall_const, hstreams, true_and, not_true_eq_false, false_and, or_false]
      constructor
      · intro h
        exact hagrees.mp h.1
      · intro h
        exact ⟨hagrees.mpr h, Agrees.refl⟩
  · have hsc : gw.completeStream draws profileName e = gw.complete draws profileName e := by
      unfold ModelGateway.completeStream
      rw [hp]
      simp only [ok_bind, if_neg hstreams]
    rw [hsc, and_self, whole_agrees_iff hp hstreams, hcomplete]
    cases hkey : gw.requireApiKey p with
    | error error =>
      simp only [reduceCtorEq, false_implies, iff_true]
      intro r h
      cases h
    | ok u =>
      simp only [ok_bind, forall_const, hstreams, false_and, not_false_eq_true, true_and, false_or]
      rw [hbare]
      cases parseResponse draws p.protocol data with
      | error error => simp [Except.mapError]
      | ok r => simp [Except.mapError]

/-! ### A text and a call, with and without the capability -/

def fixedDraws : Draws where
  parsing := fun _ => "u"
  streaming := fun _ => "u"
  assembling := fun _ => "u"
  parsing_ne := fun _ => by decide
  streaming_ne := fun _ => by decide

def soloProfile (capabilities : List Capability) : ModelProfile where
  name := "p"
  capabilities := capabilities

def soloGateway (capabilities : List Capability) : ModelGateway where
  profiles := [soloProfile capabilities]
  environ := fun _ => none

def searchEndpoint : Endpoint where
  whole := .ok OpenAIAdapter.searchData
  events := .ok ((OpenAIAdapter.searchStream.map fun d => (d.1, some d.2)) ++ [("", none)])

theorem searchAnswer_sent :
    (Answer.openai OpenAIAdapter.searchAnswer).Sent .openaiChat searchEndpoint :=
  ⟨rfl, _, _, rfl, rfl, OpenAIAdapter.searchAnswer_wire, OpenAIAdapter.searchAnswer_streamed⟩

theorem streamComplete_agrees_search :
    Agrees ((soloGateway [.streaming]).assembled fixedDraws "p" searchEndpoint)
        ((soloGateway [.streaming]).complete fixedDraws "p" searchEndpoint) ∧
      Agrees ((soloGateway [.streaming]).assembled fixedDraws "p" searchEndpoint)
        ((soloGateway [.streaming]).completeStream fixedDraws "p" searchEndpoint) := by
  have hprofile : (soloGateway [.streaming]).getProfile "p" = .ok (soloProfile [.streaming]) := rfl
  refine (streamComplete_agrees_iff hprofile searchAnswer_sent).mpr fun _ => ?_
  exact .inl ⟨by decide, .inr rfl, .inl (by decide)⟩

/-- Without the capability the text and the call are gone. -/
theorem fallback_loses :
    ¬ ∀ (gw : ModelGateway) (draws : Draws) (profileName : String) (e : Endpoint)
      (p : ModelProfile) (a : Answer), gw.getProfile profileName = .ok p → a.Sent p.protocol e →
      gw.requireApiKey p = .ok () →
      Agrees (gw.assembled draws profileName e) (gw.complete draws profileName e) := by
  intro h
  have hagrees := h (soloGateway []) fixedDraws "p" searchEndpoint (soloProfile []) _ rfl
    searchAnswer_sent rfl
  have hplain : ¬ .streaming ∈ (soloProfile []).capabilities := by decide
  have hcomplete : (soloGateway []).complete fixedDraws "p" searchEndpoint =
      .ok OpenAIAdapter.searchAnswer.response := by
    unfold ModelGateway.complete adapterComplete
    rw [show (soloGateway []).getProfile "p" = .ok (soloProfile []) from rfl]
    exact congrArg (Except.mapError Error.protocol)
      (@OpenAIAdapter.parseResponse_answer fixedDraws.parsing _ _ OpenAIAdapter.searchAnswer_wire)
  have hbare := (whole_agrees_iff rfl hplain).mp hagrees _ hcomplete
  exact absurd hbare.1 (by decide)

end Gateway

end Northstack
