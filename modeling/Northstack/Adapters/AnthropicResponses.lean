import Northstack.Adapters.Assembly

/-!
# Anthropic responses, whole and streamed

What a well-formed message holds, the events that deliver it, and what the two
parsers make of either.

**Results.**
* `parseResponse_answer`, `parseResponse_empty`: what is parsed of the whole answer.
* `streamed_answer`: the response assembled of any of its deliveries.
-/
namespace Northstack

open Json Wire

namespace AnthropicAdapter

structure AnswerCall where
  id : String
  name : String
  input : Fields
  id_ne : id ≠ ""
  name_ne : name ≠ ""

def AnswerCall.toolCall (c : AnswerCall) : ToolCall := ⟨c.id, c.name, c.input, ""⟩

/-- A block of the content; thinking and the like are `other`. -/
inductive AnswerBlock where
  | text (text : String)
  | toolUse (call : AnswerCall)
  | other

namespace AnswerBlock

def text? : AnswerBlock → Option String
  | .text t => some t
  | _ => none

def call? : AnswerBlock → Option AnswerCall
  | .toolUse c => some c
  | _ => none

end AnswerBlock

/-- The counts of a response and of a `message_start`. -/
structure Counts where
  input : Nat
  creation : Option Nat
  read : Option Nat

def Counts.usage (u : Counts) (output : Nat) : Usage :=
  ⟨u.input, output, u.creation.getD 0, u.read.getD 0⟩

/-- A whole answer. -/
structure Answer where
  blocks : List AnswerBlock
  stop : String
  counts : Counts
  output : Nat

/-- What an event says. -/
inductive Event where
  | messageStart (counts : Counts)
  | toolStart (index : Nat) (id name : String)
  | text (text : String)
  | json (index : Nat) (fragment : String)
  | messageDelta (stop : Option String) (output : Nat)
  | other

namespace Event

def text? : Event → Option String
  | .text t => some t
  | _ => none

/-- What an event says of the call of a block. -/
def piece? : Event → Option (Nat × Piece)
  | .toolStart i id name => some (i, ⟨id, name, "", ""⟩)
  | .json i fragment => some (i, ⟨"", "", fragment, ""⟩)
  | _ => none

def counts? : Event → Option Counts
  | .messageStart c => some c
  | _ => none

def stop? : Event → Option String
  | .messageDelta stop _ => stop
  | _ => none

def output? : Event → Option Nat
  | .messageDelta _ output => some output
  | _ => none

end Event

/-! ## On the wire -/

def Counts.Wire (u : Counts) (raw : Fields) : Prop :=
  lookup "input_tokens" raw = some (.int u.input) ∧
    Counted (lookup "cache_creation_input_tokens" raw) u.creation ∧
    Counted (lookup "cache_read_input_tokens" raw) u.read

def AnswerBlock.Wire (b : AnswerBlock) (raw : Json) : Prop :=
  ∃ block, raw = .obj block ∧
    match b with
    | .text t => lookup "type" block = some (.str "text") ∧ lookup "text" block = some (.str t)
    | .toolUse c => lookup "type" block = some (.str "tool_use") ∧
        lookup "id" block = some (.str c.id) ∧ lookup "name" block = some (.str c.name) ∧
        lookup "input" block = some (.obj c.input)
    | .other => ∃ kind, lookup "type" block = some (.str kind) ∧ kind ≠ "text" ∧ kind ≠ "tool_use"

def Answer.Wire (a : Answer) (data : Fields) : Prop :=
  ∃ raws usage, lookup "content" data = some (.arr raws) ∧
    List.Forall₂ AnswerBlock.Wire a.blocks raws ∧
    lookup "stop_reason" data = some (.str a.stop) ∧ lookup "usage" data = some (.obj usage) ∧
    a.counts.Wire usage ∧ lookup "output_tokens" usage = some (.int a.output)

/-- An event of a type, whose payload has a dictionary at a key. -/
def Holds (data : Fields) (type key : String) (fs : Fields) : Prop :=
  lookup "type" data = some (.str type) ∧ lookup key data = some (.obj fs)

/-- An event the parser passes over. -/
def Passed (data : Fields) : Prop :=
  (∃ type, lookup "type" data = some (.str type) ∧ type ∉ ["", "message_start",
    "content_block_start", "content_block_delta", "message_delta", "message_stop"]) ∨
  (∃ block kind, Holds data "content_block_start" "content_block" block ∧
    lookup "type" block = some (.str kind) ∧ kind ≠ "tool_use") ∨
  ∃ delta kind, Holds data "content_block_delta" "delta" delta ∧
    lookup "type" delta = some (.str kind) ∧ kind ≠ "text_delta" ∧ kind ≠ "input_json_delta"

def Event.Wire (e : Event) (data : Fields) : Prop :=
  match e with
  | .messageStart c => ∃ message usage, Holds data "message_start" "message" message ∧
      lookup "usage" message = some (.obj usage) ∧ c.Wire usage
  | .toolStart i id name => ∃ block, Holds data "content_block_start" "content_block" block ∧
      lookup "index" data = some (.int i) ∧ lookup "type" block = some (.str "tool_use") ∧
      lookup "id" block = some (.str id) ∧ lookup "name" block = some (.str name)
  | .text t => ∃ delta, Holds data "content_block_delta" "delta" delta ∧
      lookup "type" delta = some (.str "text_delta") ∧ lookup "text" delta = some (.str t)
  | .json i fragment => ∃ delta, Holds data "content_block_delta" "delta" delta ∧
      lookup "index" data = some (.int i) ∧
      lookup "type" delta = some (.str "input_json_delta") ∧
      lookup "partial_json" delta = some (.str fragment)
  | .messageDelta stop output => ∃ delta usage, Holds data "message_delta" "delta" delta ∧
      Said (lookup "stop_reason" delta) stop ∧ lookup "usage" data = some (.obj usage) ∧
      lookup "output_tokens" usage = some (.int output)
  | .other => Passed data

/-! ## Deliveries -/

/-- What the events say of calls, in order. -/
def told (events : List Event) : List (Nat × Piece) := events.filterMap Event.piece?

/-- The events deliver `a`: its text, each call under the index of its block and
its input in fragments, its stop reason and its counts, the output's growing. -/
structure Delivers (a : Answer) (events : List Event) : Prop where
  text : String.join (events.filterMap Event.text?) =
    String.join (a.blocks.filterMap AnswerBlock.text?)
  blocks : ∀ i ∈ (told events).map Prod.fst, ∃ c, a.blocks[i]? = some (.toolUse c)
  calls : ∀ i c, a.blocks[i]? = some (.toolUse c) →
    ∃ raw, ReadsAs raw c.input ∧ Tells (piecesOf i (told events)) ⟨c.id, c.name, raw, ""⟩
  stop : events.filterMap Event.stop? ≠ [] ∧ ∀ s ∈ events.filterMap Event.stop?, s = a.stop
  counts : events.filterMap Event.counts? ≠ [] ∧
    ∀ c ∈ events.filterMap Event.counts?, c = a.counts
  output : a.output ∈ events.filterMap Event.output? ∧
    ∀ n ∈ events.filterMap Event.output?, n ≤ a.output

/-- A stream that delivers `a`: its events, `message_stop`, and whatever follows. -/
def Answer.StreamedBy (a : Answer) (events : List (String × Option Fields)) : Prop :=
  ∃ said datas name stop rest, Delivers a said ∧
    List.Forall₂ (fun e (d : String × Fields) => Event.Wire e d.2) said datas ∧
    lookup "type" stop = some (.str "message_stop") ∧
    events = (datas.map fun d => (d.1, some d.2)) ++ (name, some stop) :: rest

/-! ## The whole answer -/

theorem parseUsage_wire {u : Counts} {raw : Fields} (h : u.Wire raw) (output : Nat) :
    parseUsage raw output = .ok (u.usage output) := by
  obtain ⟨hi, hc, hr⟩ := h
  have hinput : intOr (lookup "input_tokens" raw) = .ok (u.input : Int) := by
    rw [hi]
    rfl
  unfold parseUsage
  simp only [hinput, hc.intOr, hr.intOr, ok_bind, count_nat]
  rfl

theorem parseBlock_other {uuid : Nat → String} {n : Nat} {block : Fields} {kind : String}
    (htype : lookup "type" block = some (.str kind)) (htext : kind ≠ "text")
    (htool : kind ≠ "tool_use") : parseBlock uuid n (.obj block) = .ok .other := by
  unfold parseBlock
  simp only [dict, ok_bind, htype]
  split
  · rename_i heq
    exact absurd (Json.str.inj (Option.some.inj heq)) htext
  · rename_i heq
    exact absurd (Json.str.inj (Option.some.inj heq)) htool
  · rfl

theorem parseBlocks_wire {uuid : Nat → String} {bs : List AnswerBlock} {raws : List Json}
    (h : List.Forall₂ AnswerBlock.Wire bs raws) (n : Nat) :
    parseBlocks uuid n raws = .ok (bs.filterMap AnswerBlock.text?,
      (bs.filterMap AnswerBlock.call?).map AnswerCall.toolCall) := by
  induction h generalizing n with
  | nil => rfl
  | @cons b raw bs raws hb _ ih =>
    obtain ⟨block, rfl, hb⟩ := hb
    unfold parseBlocks
    cases b with
    | text t =>
      obtain ⟨htype, ht⟩ := hb
      unfold parseBlock
      simp only [dict, ok_bind, htype, ht, strOr, ih]
      rfl
    | toolUse c =>
      obtain ⟨htype, hid, hname, hinput⟩ := hb
      have hcall : Northstack.toolCall c.id c.name c.input "" = .ok c.toolCall := by
        unfold Northstack.toolCall
        rw [if_neg (by simp [c.id_ne, c.name_ne])]
        rfl
      unfold parseBlock
      simp only [dict, ok_bind, htype, hid, hname, hinput, strOr, dictOr_obj, hcall, ih]
      rfl
    | other =>
      obtain ⟨kind, htype, htext, htool⟩ := hb
      rw [parseBlock_other htype htext htool]
      exact ih n

/-- The calls of an answer. -/
def Answer.calls (a : Answer) : List AnswerCall := a.blocks.filterMap AnswerBlock.call?

/-- What the parser makes of an answer that has blocks. -/
def Answer.response (a : Answer) : ModelResponse where
  text := String.join (a.blocks.filterMap AnswerBlock.text?)
  toolCalls := a.calls.map AnswerCall.toolCall
  finishReason := if a.calls.isEmpty then reasonOf anthropicFinish a.stop else .toolUse
  usage := a.counts.usage a.output

/-- **Parsing.** The response parsed of the whole answer. -/
theorem parseResponse_answer {uuid : Nat → String} {a : Answer} {data : Fields} (h : a.Wire data)
    (hb : a.blocks ≠ []) : parseResponse uuid data = .ok a.response := by
  obtain ⟨raws, usage, hcontent, hall, hstop, husage, hcounts, houtput⟩ := h
  have hne : raws.isEmpty = false := by
    rw [List.isEmpty_eq_false_iff, ← List.length_pos_iff, ← hall.length_eq, List.length_pos_iff]
    exact hb
  have hout : intOr (lookup "output_tokens" usage) = .ok (a.output : Int) := by
    rw [houtput]
    rfl
  unfold parseResponse
  simp only [hcontent, Option.getD_some, truthy, hne, Bool.not_false, Bool.not_true,
    Bool.false_eq_true, if_false, hstop, finishOf, orList_arr, ok_bind, parseBlocks_wire hall,
    husage, dictOr_obj, hout, count_nat, parseUsage_wire hcounts]
  simp only [protocolParser, pure, Except.pure, List.isEmpty_map]
  rfl

/-- An answer without blocks is refused, unless no token was left for one. -/
theorem parseResponse_empty {uuid : Nat → String} {a : Answer} {data : Fields} (h : a.Wire data)
    (hb : a.blocks = []) : parseResponse uuid data =
      if a.stop = "max_tokens" then .ok { finishReason := .maxTokens }
      else .error ⟨"anthropic", "Response contains empty content", "content"⟩ := by
  obtain ⟨raws, usage, hcontent, hall, hstop, -⟩ := h
  have hnil : raws = [] := by
    rw [hb] at hall
    exact List.forall₂_nil_left_iff.mp hall
  unfold parseResponse
  simp only [hcontent, hnil, Option.getD_some, truthy, List.isEmpty_nil, Bool.not_true,
    Bool.not_false, if_true, hstop]
  by_cases hs : a.stop = "max_tokens"
  · rw [hs]
    rfl
  · rw [if_neg hs]
    split
    · rename_i heq
      exact absurd (Json.str.inj (Option.some.inj heq)) hs
    · rfl

/-! ## Its deliveries -/

/-- What the parser yields of an event. -/
def Event.deltas : Event → List StreamDelta
  | .text t => [.text t]
  | .toolStart i id name => [.toolCall i id name "" ""]
  | .json i fragment => [.toolCall i "" "" fragment ""]
  | _ => []

/-- What the parser keeps of an event. -/
def Event.next (s : Stream) : Event → Stream
  | .messageStart c => { s with inputUsage := some (c.usage 0) }
  | .messageDelta stop output =>
    { s with finish := (stop.map (reasonOf anthropicFinish)).or s.finish
             outputTokens := max s.outputTokens output }
  | _ => s

theorem eventType_str {data : Fields} {type : String} (h : lookup "type" data = some (.str type))
    (hne : type ≠ "") (name : String) : eventType name data = type := by
  unfold eventType
  rw [h]
  exact if_neg hne

section

variable {s : Stream} {data : Fields}

theorem onEvent_passed (h : Passed data) (name : String) :
    eventType name data ≠ "message_stop" ∧
      onEvent s (eventType name data) data = .ok (s, []) := by
  rcases h with ⟨type, htype, hmem⟩ | ⟨block, kind, ⟨htype, hblock⟩, hkind, hne⟩ |
    ⟨delta, kind, ⟨htype, hdelta⟩, hkind, hne, hne'⟩
  · simp only [List.mem_cons, List.not_mem_nil, or_false, not_or] at hmem
    obtain ⟨hempty, hstart, hblock, hdelta, hmessage, hstop⟩ := hmem
    rw [eventType_str htype hempty]
    refine ⟨hstop, ?_⟩
    unfold onEvent
    rw [if_neg hstart, if_neg hblock, if_neg hdelta, if_neg hmessage]
  · rw [eventType_str htype (by decide)]
    refine ⟨by decide, ?_⟩
    show onBlockStart s data = _
    unfold onBlockStart
    simp only [hblock, orDict_obj, ok_bind, hkind]
    split
    · rename_i heq
      exact absurd (Json.str.inj (Option.some.inj heq)) hne
    · rfl
  · rw [eventType_str htype (by decide)]
    refine ⟨by decide, ?_⟩
    show onBlockDelta s data = _
    unfold onBlockDelta
    simp only [hdelta, orDict_obj, ok_bind, hkind]
    split
    · rename_i heq
      exact absurd (Json.str.inj (Option.some.inj heq)) hne
    · rename_i heq
      exact absurd (Json.str.inj (Option.some.inj heq)) hne'
    · rfl

theorem onEvent_wire {e : Event} (h : e.Wire data) (name : String) :
    eventType name data ≠ "message_stop" ∧
      onEvent s (eventType name data) data = .ok (e.next s, e.deltas) := by
  cases e with
  | messageStart c =>
    obtain ⟨message, usage, ⟨htype, hmessage⟩, husage, hcounts⟩ := h
    have hne : usage.isEmpty = false := by
      cases usage with
      | nil => cases hcounts.1
      | cons => rfl
    rw [eventType_str htype (by decide)]
    refine ⟨by decide, ?_⟩
    show onMessageStart s data = _
    unfold onMessageStart
    simp only [hmessage, nullable, ok_bind, husage, orDict_obj, hne, Bool.false_eq_true, if_false,
      parseUsage_wire hcounts]
    rfl
  | toolStart i id name' =>
    obtain ⟨block, ⟨htype, hblock⟩, hindex, hkind, hid, hname⟩ := h
    rw [eventType_str htype (by decide)]
    refine ⟨by decide, ?_⟩
    show onBlockStart s data = _
    unfold onBlockStart
    simp only [hblock, orDict_obj, ok_bind, hkind, hindex, index_nat, hid, hname, strOr]
    rfl
  | text t =>
    obtain ⟨delta, ⟨htype, hdelta⟩, hkind, ht⟩ := h
    rw [eventType_str htype (by decide)]
    refine ⟨by decide, ?_⟩
    show onBlockDelta s data = _
    unfold onBlockDelta
    simp only [hdelta, orDict_obj, ok_bind, hkind, ht, strOr]
    rfl
  | json i fragment =>
    obtain ⟨delta, ⟨htype, hdelta⟩, hindex, hkind, hfragment⟩ := h
    rw [eventType_str htype (by decide)]
    refine ⟨by decide, ?_⟩
    show onBlockDelta s data = _
    unfold onBlockDelta
    simp only [hdelta, orDict_obj, ok_bind, hkind, hindex, index_nat, hfragment, strOr]
    rfl
  | messageDelta stop output =>
    obtain ⟨delta, usage, ⟨htype, hdelta⟩, hstop, husage, houtput⟩ := h
    rw [eventType_str htype (by decide)]
    refine ⟨by decide, ?_⟩
    have hout : intOr (lookup "output_tokens" usage) = .ok (output : Int) := by
      rw [houtput]
      rfl
    show onMessageDelta s data = _
    unfold onMessageDelta
    simp only [hdelta, orDict_obj, ok_bind, finishFrom_said hstop, husage, hout, Int.toNat_natCast]
    rfl
  | other => exact onEvent_passed h name

end

/-- The whole stream, up to `message_stop`. -/
theorem streamEvents_wire {events : List Event} {datas : List (String × Fields)}
    (h : List.Forall₂ (fun e d => e.Wire d.2) events datas) (s : Stream) (name : String)
    {stop : Fields} (hstop : lookup "type" stop = some (.str "message_stop"))
    (rest : List (String × Option Fields)) :
    streamEvents s ((datas.map fun d => (d.1, some d.2)) ++ (name, some stop) :: rest) =
      .ok (events.foldl Event.next s, events.flatMap Event.deltas, true) := by
  induction h generalizing s with
  | nil =>
    rw [List.map_nil, List.nil_append, streamEvents]
    simp only [Option.getD_some, eventType_str hstop (by decide : "message_stop" ≠ ""), if_true]
    rfl
  | @cons e d events datas he _ ih =>
    obtain ⟨hgoing, hevent⟩ := onEvent_wire (s := s) he d.1
    rw [List.map_cons, List.cons_append, streamEvents]
    simp only [Option.getD_some, if_neg hgoing, hevent, ok_bind, ih]
    rfl

section

variable (events : List Event) (s : Stream)

theorem foldl_finish : (events.foldl Event.next s).finish =
    ((events.filterMap Event.stop?).getLast?.map (reasonOf anthropicFinish)).or s.finish := by
  induction events generalizing s with
  | nil => rfl
  | cons e events ih =>
    rw [List.foldl_cons, ih]
    cases e with
    | messageDelta stop output =>
      cases stop with
      | none => rfl
      | some stop =>
        rw [List.filterMap_cons_some
          (show (Event.messageDelta (some stop) output).stop? = some stop from rfl),
          List.getLast?_cons]
        cases (events.filterMap Event.stop?).getLast? <;> rfl
    | _ => rfl

theorem foldl_inputUsage : (events.foldl Event.next s).inputUsage =
    ((events.filterMap Event.counts?).getLast?.map (·.usage 0)).or s.inputUsage := by
  induction events generalizing s with
  | nil => rfl
  | cons e events ih =>
    rw [List.foldl_cons, ih]
    cases e with
    | messageStart c =>
      rw [List.filterMap_cons_some (show (Event.messageStart c).counts? = some c from rfl),
        List.getLast?_cons]
      cases (events.filterMap Event.counts?).getLast? <;> rfl
    | _ => rfl

theorem foldl_outputTokens : (events.foldl Event.next s).outputTokens =
    (events.filterMap Event.output?).foldl max s.outputTokens := by
  induction events generalizing s with
  | nil => rfl
  | cons e events ih =>
    rw [List.foldl_cons, ih]
    cases e <;> rfl

theorem texts_deltas : (events.flatMap Event.deltas).filterMap StreamDelta.text? =
    events.filterMap Event.text? := by
  induction events with
  | nil => rfl
  | cons e events ih =>
    rw [List.flatMap_cons, List.filterMap_append, ih]
    cases e <;> rfl

theorem pieces_events : pieces (events.flatMap Event.deltas) = told events := by
  unfold pieces told
  induction events with
  | nil => rfl
  | cons e events ih =>
    rw [List.flatMap_cons, List.filterMap_append, ih]
    cases e <;> rfl

end

/-- Among numbers of which one is the largest. -/
theorem foldl_max {xs : List Nat} {n : Nat} (hmem : n ∈ xs) (hle : ∀ x ∈ xs, x ≤ n) {b : Nat}
    (hb : b ≤ n) : xs.foldl max b = n := by
  have hmax : xs.max? = some n := List.max?_eq_some_iff.mpr ⟨hmem, hle⟩
  rw [List.foldl_max, hmax]
  exact max_eq_right hb

/-- What is assembled of an answer's deliveries. -/
def Answer.streamed (a : Answer) : ModelResponse where
  text := String.join (a.blocks.filterMap AnswerBlock.text?)
  toolCalls := a.calls.map AnswerCall.toolCall
  finishReason := reasonOf anthropicFinish a.stop
  usage := a.counts.usage a.output

/-- The calls with the indices of their blocks. -/
def Answer.places (a : Answer) : List (AnswerCall × Nat) :=
  a.blocks.zipIdx.filterMap fun p => p.1.call?.map fun c => (c, p.2)

theorem Answer.places_calls (a : Answer) : a.places.map Prod.fst = a.calls := by
  unfold places calls
  conv_rhs => rw [← List.zipIdx_map_fst 0 a.blocks]
  rw [List.map_filterMap, List.filterMap_map]
  refine List.filterMap_congr fun p _ => ?_
  rw [Option.map_map]
  exact Option.map_id'

theorem Answer.places_increasing (a : Answer) : (a.places.map Prod.snd).Pairwise (· < ·) := by
  unfold places
  rw [List.pairwise_map, List.pairwise_filterMap]
  have hindices : (a.blocks.zipIdx.map Prod.snd).Pairwise (· < ·) := by
    rw [List.zipIdx_map_snd]
    exact List.pairwise_lt_range'
  refine (List.pairwise_map.mp hindices).imp fun {p q} hlt x hx y hy => ?_
  obtain ⟨c, -, rfl⟩ := Option.map_eq_some_iff.mp hx
  obtain ⟨c', -, rfl⟩ := Option.map_eq_some_iff.mp hy
  exact hlt

theorem Answer.mem_places {a : Answer} {c : AnswerCall} {i : Nat} :
    (c, i) ∈ a.places ↔ a.blocks[i]? = some (.toolUse c) := by
  unfold places
  rw [List.mem_filterMap]
  constructor
  · rintro ⟨⟨b, j⟩, hmem, hb⟩
    obtain ⟨c', hc, he⟩ := Option.map_eq_some_iff.mp hb
    obtain ⟨rfl, rfl⟩ := Prod.mk.inj he
    rw [List.mk_mem_zipIdx_iff_getElem?.mp hmem]
    cases b with
    | toolUse c => rw [Option.some.inj hc]
    | _ => cases hc
  · intro hb
    exact ⟨(.toolUse c, i), List.mk_mem_zipIdx_iff_getElem?.mpr hb, rfl⟩

/-- **Assembling.** The response assembled of any delivery of an answer. -/
theorem streamed_answer {uuid : Nat → String} {a : Answer} {events : List Event}
    {datas : List (String × Fields)} (h : Delivers a events)
    (hw : List.Forall₂ (fun e d => e.Wire d.2) events datas) (strict : Bool) (name : String)
    {stop : Fields} (hstop : lookup "type" stop = some (.str "message_stop"))
    (rest : List (String × Option Fields)) :
    assembleStreamedResponse uuid
      (streamChunks strict ((datas.map fun d => (d.1, some d.2)) ++ (name, some stop) :: rest)) =
      .ok a.streamed := by
  have hstream : streamChunks strict
      ((datas.map fun d => (d.1, some d.2)) ++ (name, some stop) :: rest) =
      .ok (events.flatMap Event.deltas ++ [.usage (a.counts.usage a.output),
        .finish (reasonOf anthropicFinish a.stop)]) := by
    unfold streamChunks requireTerminal
    rw [streamEvents_wire hw {} name hstop rest]
    simp only [ok_bind, Bool.not_true, Bool.and_false, Bool.false_eq_true, if_false]
    rw [foldl_finish, foldl_inputUsage, foldl_outputTokens, getLast?_constant h.stop.1 h.stop.2,
      getLast?_constant h.counts.1 h.counts.2, foldl_max h.output.1 h.output.2 (Nat.zero_le _)]
    rfl
  have hplace {n : Nat} (hn : n < a.places.length) :
      a.blocks[a.places[n].2]? = some (.toolUse a.places[n].1) :=
    Answer.mem_places.mp (List.getElem_mem hn)
  have hindices (i : Nat) : i ∈ a.places.map Prod.snd ↔
      i ∈ (pieces (events.flatMap Event.deltas)).map Prod.fst := by
    rw [pieces_events]
    constructor
    · intro hi
      obtain ⟨⟨c, i⟩, hmem, rfl⟩ := List.mem_map.mp hi
      obtain ⟨raw, -, htells⟩ := h.calls i c (Answer.mem_places.mp hmem)
      obtain ⟨p, hp, -⟩ := htells.id.2.resolve_left c.id_ne
      obtain ⟨q, hq, -⟩ := List.mem_map.mp hp
      obtain ⟨hq, hi⟩ := List.mem_filter.mp hq
      exact List.mem_map.mpr ⟨q, hq, of_decide_eq_true hi⟩
    · intro hi
      obtain ⟨c, hc⟩ := h.blocks i hi
      exact List.mem_map.mpr ⟨(c, i), Answer.mem_places.mpr hc, rfl⟩
  have hlength : (a.places.map Prod.snd).length = (a.calls.map AnswerCall.toolCall).length := by
    rw [← a.places_calls]
    simp
  have hcalls : ∀ n, ∀ hx : n < (a.places.map Prod.snd).length,
      ∀ hy : n < (a.calls.map AnswerCall.toolCall).length,
      StreamAssembler.buildCall uuid n (gathered (piecesOf (a.places.map Prod.snd)[n]
        (pieces (events.flatMap Event.deltas)))) =
        .ok (a.calls.map AnswerCall.toolCall)[n] := by
    intro n hx hn
    have hn : n < a.places.length := by simpa using hx
    obtain ⟨raw, hreads, htells⟩ := h.calls _ _ (hplace hn)
    rw [pieces_events, List.getElem_map, buildCall_tells htells a.places[n].1.id_ne
      a.places[n].1.name_ne hreads]
    simp only [← a.places_calls, List.getElem_map]
    rfl
  rw [hstream, assembled_ended a.places_increasing hindices hlength hcalls, texts_deltas, h.text]
  rfl

/-- Where the two responses are the same, for an answer that has blocks. -/
theorem streamed_iff (a : Answer) : a.streamed = a.response ↔
    a.calls = [] ∨ anthropicFinish a.stop = some .toolUse := by
  have hfinish : a.streamed.finishReason = a.response.finishReason ↔
      a.calls = [] ∨ anthropicFinish a.stop = some .toolUse := by
    show reasonOf anthropicFinish a.stop =
      (if a.calls.isEmpty then reasonOf anthropicFinish a.stop else .toolUse) ↔ _
    rw [← reasonOf_toolUse]
    cases a.calls with
    | nil => simp
    | cons c cs => simp
  rw [← hfinish]
  constructor
  · intro he
    rw [he]
  · intro hf
    have hrest : a.streamed = { a.response with finishReason := a.streamed.finishReason } := rfl
    rw [hrest, hf]

/-- Nothing was counted. -/
def Counts.Empty (u : Counts) : Prop := u.input = 0 ∧ u.creation.getD 0 = 0 ∧ u.read.getD 0 = 0

theorem streamed_empty {a : Answer} (hb : a.blocks = []) (hs : a.stop = "max_tokens") :
    a.streamed = { finishReason := .maxTokens } ↔ a.counts.Empty ∧ a.output = 0 := by
  unfold Answer.streamed Answer.calls Counts.usage Counts.Empty
  rw [hb, hs]
  constructor
  · intro he
    obtain ⟨hi, ho, hc, hr⟩ := Usage.mk.inj (congrArg ModelResponse.usage he)
    exact ⟨⟨hi, hc, hr⟩, ho⟩
  · rintro ⟨⟨hi, hc, hr⟩, ho⟩
    rw [hi, hc, hr, ho]
    rfl

/-- **Agreement.** The two parsers agree on an answer and any stream of it. -/
theorem same_iff (uuid uuid' : Nat → String) (strict : Bool) {a : Answer} {data : Fields}
    {events : List (String × Option Fields)} (h : a.Wire data) (hs : a.StreamedBy events) :
    SameResponse (assembleStreamedResponse uuid' (streamChunks strict events))
        (parseResponse uuid data) ↔
      (a.calls = [] ∨ anthropicFinish a.stop = some .toolUse) ∧
        (a.blocks ≠ [] ∨ a.stop = "max_tokens" ∧ a.counts.Empty ∧ a.output = 0) := by
  obtain ⟨said, datas, name, stop, rest, hdelivers, hw, hstop, rfl⟩ := hs
  rw [streamed_answer hdelivers hw strict name hstop]
  by_cases hb : a.blocks = []
  · have hcalls : a.calls = [] := by
      unfold Answer.calls
      rw [hb]
      rfl
    rw [parseResponse_empty h hb]
    by_cases hs : a.stop = "max_tokens"
    · rw [if_pos hs, sameResponse_ok, streamed_empty hb hs]
      simp [hcalls, hb, hs]
    · rw [if_neg hs]
      simp [not_sameResponse_error, hb, hs]
  · rw [parseResponse_answer h hb, sameResponse_ok, streamed_iff]
    simp [hb]

end AnthropicAdapter

end Northstack
