import Northstack.Adapters.Assembly
import Northstack.Core.JsonRoundTrip

/-!
# Gemini responses, whole and streamed

What a well-formed `GenerateContentResponse` holds, the ways in which chunks of
the same shape deliver it, and what the two parsers make of either.

**Results.**
* `parseResponse_answer`: the response parsed of the whole answer.
* `streamed_answer`: the response assembled of any of its deliveries.
-/
namespace Northstack

open Json Wire

namespace GeminiAdapter

/-- A call with a name and any arguments; Gemini need not give it an id. -/
structure AnswerCall where
  id : Option String
  name : String
  args : Fields
  name_ne : name ≠ ""
  held : JsonText.Held (.obj args)

structure Part where
  text : Option String := none
  thought : Bool := false
  call : Option AnswerCall := none
  signature : Option String := none

/-- Token counts as the provider reports them. -/
structure Counts where
  prompt : Nat
  candidates : Option Nat
  thoughts : Option Nat
  cached : Option Nat

def Counts.usage (u : Counts) : Usage where
  inputTokens := u.prompt - u.cached.getD 0
  outputTokens := u.candidates.getD 0 + u.thoughts.getD 0
  cacheReadTokens := u.cached.getD 0

structure Chunk where
  parts : List Part
  finish : Option String
  usage : Option Counts

/-- A whole answer. -/
structure Answer where
  parts : List Part
  finish : String
  usage : Counts

/-- An answer is a chunk that has everything. -/
def Answer.chunk (a : Answer) : Chunk := ⟨a.parts, some a.finish, some a.usage⟩

/-- The text of a part that is shown. -/
def Part.visible (p : Part) : List String :=
  if p.thought ∨ p.text.getD "" = "" then [] else [p.text.getD ""]

/-- The calls of the parts, each with its signature. -/
def callsOf (ps : List Part) : List (AnswerCall × String) :=
  ps.filterMap fun p => p.call.map fun c => (c, p.signature.getD "")

/-- The id of the `n`-th call. -/
def AnswerCall.idAt (uuid : Nat → String) (n : Nat) (c : AnswerCall) : String :=
  if c.id.getD "" = "" then uuid n else c.id.getD ""

/-- The tool calls made of calls, the first of them the `n`-th. -/
def toolCalls (uuid : Nat → String) (n : Nat) (cs : List (AnswerCall × String)) : List ToolCall :=
  (cs.zipIdx n).map fun p => ⟨p.1.1.idAt uuid p.2, p.1.1.name, p.1.1.args, p.1.2⟩

/-! ## On the wire -/

def Counts.Wire (u : Counts) (raw : Fields) : Prop :=
  lookup "promptTokenCount" raw = some (.int u.prompt) ∧
    Counted (lookup "candidatesTokenCount" raw) u.candidates ∧
    Counted (lookup "thoughtsTokenCount" raw) u.thoughts ∧
    Counted (lookup "cachedContentTokenCount" raw) u.cached

def AnswerCall.Wire (c : AnswerCall) (raw : Fields) : Prop :=
  Said (lookup "id" raw) c.id ∧ lookup "name" raw = some (.str c.name) ∧
    (lookup "args" raw = some (.obj c.args) ∨
      c.args = [] ∧ (lookup "args" raw = none ∨ lookup "args" raw = some .null))

def Part.CallWire (p : Part) (part : Fields) : Prop :=
  match p.call with
  | none => lookup "functionCall" part = none
  | some c => ∃ call, lookup "functionCall" part = some (.obj call) ∧ c.Wire call

def Part.Wire (p : Part) (raw : Json) : Prop :=
  ∃ part, raw = .obj part ∧ Said (lookup "text" part) p.text ∧
    (lookup "thought" part = some (.bool p.thought) ∨
      p.thought = false ∧ lookup "thought" part = none) ∧
    p.CallWire part ∧ Said (lookup "thoughtSignature" part) p.signature

def Chunk.Wire (c : Chunk) (data : Fields) : Prop :=
  (∃ candidate others, lookup "candidates" data = some (.arr (.obj candidate :: others)) ∧
    (c.parts = [] ∧ lookup "content" candidate = none ∨
      ∃ content, lookup "content" candidate = some (.obj content) ∧
        (c.parts = [] ∧ lookup "parts" content = none ∨
          ∃ raws, lookup "parts" content = some (.arr raws) ∧
            List.Forall₂ Part.Wire c.parts raws)) ∧
    Said (lookup "finishReason" candidate) c.finish) ∧
  match c.usage with
  | none => lookup "usageMetadata" data = none
  | some u => ∃ raw, lookup "usageMetadata" data = some (.obj raw) ∧ u.Wire raw

/-- The parts of all chunks. -/
def partsOf (chunks : List Chunk) : List Part := chunks.flatMap (·.parts)

/-- The chunks and the last one deliver `a`: its visible text in any pieces, its
calls whole and in order, and its finish reason and usage with the last. -/
structure Delivers (a : Answer) (chunks : List Chunk) (last : Chunk) : Prop where
  text : String.join ((partsOf (chunks ++ [last])).flatMap Part.visible) =
    String.join (a.parts.flatMap Part.visible)
  calls : callsOf (partsOf (chunks ++ [last])) = callsOf a.parts
  going : ∀ c ∈ chunks, c.finish = none
  finish : last.finish = some a.finish
  usage : last.usage = some a.usage

/-- A stream that delivers `a`: its chunks and whatever follows the last. -/
def Answer.StreamedBy (a : Answer) (events : List (String × Option Fields)) : Prop :=
  ∃ chunks last datas name data rest, Delivers a chunks last ∧
    List.Forall₂ (fun c (d : String × Fields) => Chunk.Wire c d.2) chunks datas ∧
    Chunk.Wire last data ∧
    events = (datas.map fun d => (d.1, some d.2)) ++ (name, some data) :: rest

/-! ## Parts -/

theorem parseUsage_wire {u : Counts} {raw : Fields} (h : u.Wire raw) :
    parseUsage raw = .ok u.usage := by
  obtain ⟨hp, hc, ht, hcached⟩ := h
  have hprompt : intOr (lookup "promptTokenCount" raw) = .ok (u.prompt : Int) := by rw [hp]; rfl
  unfold parseUsage
  simp only [hcached.intOr, hprompt, hc.intOr, ht.intOr, ok_bind, count_nat, ← Nat.cast_add]
  have hsub : ((u.prompt : Int) - (u.cached.getD 0 : Nat)).toNat = u.prompt - u.cached.getD 0 := by
    omega
  rw [hsub]
  rfl

theorem partText_wire {p : Part} {part : Fields} (ht : Said (lookup "text" part) p.text)
    (hthought : lookup "thought" part = some (.bool p.thought) ∨
      p.thought = false ∧ lookup "thought" part = none) :
    partText part = .ok p.visible := by
  have hany : (lookup "thought" part).any truthy = p.thought := by
    rcases hthought with hb | ⟨hb, hn⟩
    · rw [hb]
      rfl
    · rw [hn, hb]
      rfl
  unfold partText Part.visible
  rw [hany]
  cases p.thought with
  | true => simp
  | false =>
    simp only [Bool.false_eq_true, if_false, false_or, ht.orStr, ok_bind]
    rfl

theorem truthy_call {c : AnswerCall} {call : Fields} (h : c.Wire call) :
    truthy (.obj call) = true := by
  cases call with
  | nil => cases h.2.1
  | cons => rfl

section

variable {uuid : Nat → String} (huuid : ∀ n, uuid n ≠ "") (n : Nat)

theorem toolCalls_append (cs ds : List (AnswerCall × String)) :
    toolCalls uuid n (cs ++ ds) = toolCalls uuid n cs ++ toolCalls uuid (n + cs.length) ds := by
  unfold toolCalls
  rw [List.zipIdx_append, List.map_append]

include huuid in
theorem AnswerCall.idAt_ne (c : AnswerCall) : c.idAt uuid n ≠ "" := by
  unfold idAt
  split
  · exact huuid n
  · assumption

include huuid in
theorem parseCall_wire {p : Part} {part : Fields} (hcall : p.CallWire part)
    (hs : Said (lookup "thoughtSignature" part) p.signature) :
    parseCall uuid n part = .ok (toolCalls uuid n (callsOf [p])) := by
  unfold Part.CallWire at hcall
  unfold parseCall
  cases hc : p.call with
  | none =>
    rw [hc] at hcall
    rw [hcall]
    simp [callsOf, hc, toolCalls]
  | some c =>
    rw [hc] at hcall
    obtain ⟨call, hlookup, hwire⟩ := hcall
    have htruthy := truthy_call hwire
    have hidne := c.idAt_ne huuid n
    obtain ⟨hid, hname, hargs⟩ := hwire
    have hdict : orDict (lookup "args" call) = .ok c.args := by
      rcases hargs with ha | ⟨he, ha | ha⟩
      · rw [ha, orDict_obj]
      · rw [ha, he]
        rfl
      · rw [ha, he]
        rfl
    rw [hlookup]
    simp only [htruthy, Bool.not_true, Bool.false_eq_true, if_false, dict, ok_bind, hid.orStr,
      hname, strOr, hdict, hs.orStr, toolCall]
    unfold AnswerCall.idAt at hidne
    rw [if_neg (by simp [hidne, c.name_ne])]
    simp [callsOf, hc, toolCalls, AnswerCall.idAt]

theorem toolCalls_length (cs : List (AnswerCall × String)) :
    (toolCalls uuid n cs).length = cs.length := by
  simp [toolCalls]

theorem callsOf_cons (p : Part) (ps : List Part) : callsOf (p :: ps) = callsOf [p] ++ callsOf ps :=
  List.filterMap_append (l := [p])

include huuid in
theorem parseParts_wire {ps : List Part} {raws : List Json} (h : List.Forall₂ Part.Wire ps raws) :
    parseParts uuid n raws = .ok (ps.flatMap Part.visible, toolCalls uuid n (callsOf ps)) := by
  induction h generalizing n with
  | nil => rfl
  | @cons p raw ps raws hp _ ih =>
    obtain ⟨part, rfl, ht, hthought, hcall, hs⟩ := hp
    unfold parseParts
    simp only [dict, ok_bind, partText_wire ht hthought, parseCall_wire huuid n hcall hs,
      toolCalls_length, ih]
    rw [callsOf_cons p ps, toolCalls_append]
    rfl

end

/-! ## The whole answer -/

/-- What the parser makes of an answer. -/
def Answer.response (uuid : Nat → String) (a : Answer) : ModelResponse where
  text := String.join (a.parts.flatMap Part.visible)
  toolCalls := toolCalls uuid 0 (callsOf a.parts)
  finishReason := if (callsOf a.parts).isEmpty then reasonOf geminiFinish a.finish else .toolUse
  usage := a.usage.usage

/-- **Parsing.** The response parsed of the whole answer. -/
theorem parseResponse_answer {uuid : Nat → String} (huuid : ∀ n, uuid n ≠ "") {a : Answer}
    {data : Fields} (h : a.chunk.Wire data) : parseResponse uuid data = .ok (a.response uuid) := by
  obtain ⟨⟨candidate, others, hcandidates, hcontent, hfinish⟩, hu⟩ := h
  obtain ⟨raw, hraw, hcounts⟩ : ∃ raw, lookup "usageMetadata" data = some (.obj raw) ∧
    a.usage.Wire raw := hu
  obtain ⟨content, raws, hcontent, hraws, hall⟩ : ∃ content raws,
      nullable (.protocol "Malformed gemini response at candidates[0].content"
        "candidates[0].content") (lookup "content" candidate) = .ok content ∧
      orList (lookup "parts" content) = .ok raws ∧ List.Forall₂ Part.Wire a.parts raws := by
    rcases hcontent with ⟨he, hc⟩ | ⟨content, hc, ⟨he, hp⟩ | ⟨raws, hp, hall⟩⟩
    · exact ⟨[], [], by rw [hc]; rfl, rfl, by rw [show a.parts = [] from he]; exact .nil⟩
    · exact ⟨content, [], by rw [hc]; rfl, by rw [hp]; rfl,
        by rw [show a.parts = [] from he]; exact .nil⟩
    · exact ⟨content, raws, by rw [hc]; rfl, by rw [hp]; rfl, hall⟩
  have hfinish : lookup "finishReason" candidate = some (.str a.finish) := hfinish
  unfold parseResponse
  rw [hcandidates]
  simp only [Option.getD_some, truthy, List.isEmpty_cons, Bool.not_false, Bool.not_true,
    Bool.false_eq_true, if_false, orList_arr, ok_bind, firstOf, dict, hcontent, hraws,
    parseParts_wire huuid 0 hall, hfinish, finishOf, hraw, dictOr_obj, parseUsage_wire hcounts]
  have hempty : (toolCalls uuid 0 (callsOf a.parts)).isEmpty = (callsOf a.parts).isEmpty := by
    rw [Bool.eq_iff_iff, List.isEmpty_iff_length_eq_zero, List.isEmpty_iff_length_eq_zero,
      toolCalls_length]
  rw [hempty]
  rfl

/-! ## Its deliveries -/

/-- What the stream says of the call at an index. -/
def callPiece (uuid : Nat → String) (z : (AnswerCall × String) × Nat) : Piece :=
  ⟨z.1.1.idAt uuid z.2, z.1.1.name, JsonText.dumps .default (.obj z.1.1.args), z.1.2⟩

/-- The deltas of calls, the first of them the `n`-th. -/
def callDeltas (uuid : Nat → String) (n : Nat) (cs : List (AnswerCall × String)) :
    List StreamDelta :=
  (cs.zipIdx n).map fun z => (callPiece uuid z).delta z.2

/-- What the parser yields of parts behind `n` calls. -/
structure Yields (uuid : Nat → String) (n : Nat) (ps : List Part) (ds : List StreamDelta) :
    Prop where
  text : ds.filterMap StreamDelta.text? = ps.flatMap Part.visible
  pieces : pieces ds = ((callsOf ps).zipIdx n).map fun z => (z.2, callPiece uuid z)

section

variable {uuid : Nat → String} {n : Nat}

theorem Yields.nil : Yields uuid n [] [] := ⟨rfl, rfl⟩

theorem Yields.append {ps qs : List Part} {ds es : List StreamDelta} (h : Yields uuid n ps ds)
    (h' : Yields uuid (n + (callsOf ps).length) qs es) : Yields uuid n (ps ++ qs) (ds ++ es) where
  text := by rw [List.filterMap_append, h.text, h'.text, List.flatMap_append]
  pieces := by
    have hp := h.pieces
    have hp' := h'.pieces
    have happend : callsOf (ps ++ qs) = callsOf ps ++ callsOf qs := List.filterMap_append
    unfold Northstack.pieces at hp hp' ⊢
    rw [List.filterMap_append, hp, hp', happend, List.zipIdx_append, List.map_append]

theorem silent_texts {β : Type} {f : StreamDelta → Option β} (hf : ∀ t, f (.text t) = none)
    (ts : List String) : (ts.map StreamDelta.text).filterMap f = [] := by
  rw [List.filterMap_map, List.filterMap_eq_nil_iff]
  exact fun t _ => hf t

theorem Part.yields (p : Part) :
    Yields uuid n [p] (p.visible.map .text ++ callDeltas uuid n (callsOf [p])) where
  text := by
    unfold callDeltas
    rw [List.filterMap_append, silent_deltas _ _ _ fun _ _ => rfl, List.append_nil,
      List.filterMap_map, List.flatMap_singleton]
    exact List.filterMap_some
  pieces := by
    unfold Northstack.pieces callDeltas
    rw [List.filterMap_append, silent_texts fun _ => rfl, List.nil_append]
    exact pieces_deltas _ _ _

theorem streamCall_wire {p : Part} {part : Fields} (hcall : p.CallWire part)
    (hs : Said (lookup "thoughtSignature" part) p.signature) :
    streamCall uuid n part = .ok (callDeltas uuid n (callsOf [p])) := by
  unfold Part.CallWire at hcall
  unfold streamCall
  cases hc : p.call with
  | none =>
    rw [hc] at hcall
    rw [hcall]
    simp [callsOf, hc, callDeltas]
  | some c =>
    rw [hc] at hcall
    obtain ⟨call, hlookup, hwire⟩ := hcall
    have htruthy := truthy_call hwire
    obtain ⟨hid, hname, hargs⟩ := hwire
    rw [hlookup]
    simp only [htruthy, Bool.not_true, Bool.false_eq_true, if_false, dict, ok_bind, hid.orStr,
      hname, strOr, hs.orStr]
    simp only [callsOf, hc, callDeltas, callPiece, Piece.delta, AnswerCall.idAt, Option.map_some,
      List.filterMap_cons, List.filterMap_nil, List.zipIdx_cons, List.zipIdx_nil, List.map_cons,
      List.map_nil]
    rcases hargs with ha | ⟨he, ha | ha⟩
    · rw [ha]
      cases c.args <;> rfl
    · rw [ha, he]
      rfl
    · rw [ha, he]
      rfl

theorem streamParts_wire (uuid : Nat → String) (n : Nat) {ps : List Part} {raws : List Json}
    (h : List.Forall₂ Part.Wire ps raws) :
    ∃ ds, streamParts uuid n raws = .ok (n + (callsOf ps).length, ds) ∧ Yields uuid n ps ds := by
  induction h generalizing n with
  | nil => exact ⟨[], rfl, .nil⟩
  | @cons p raw ps raws hp _ ih =>
    obtain ⟨part, rfl, ht, hthought, hcall, hs⟩ := hp
    obtain ⟨ds, hds, hy⟩ := ih (n + (callsOf [p]).length)
    refine ⟨_, ?_, p.yields.append hy⟩
    have hlength : (callDeltas uuid n (callsOf [p])).length = (callsOf [p]).length := by
      simp [callDeltas]
    unfold streamParts
    simp only [dict, ok_bind, partText_wire ht hthought, streamCall_wire hcall hs, hlength, hds]
    rw [callsOf_cons p ps, List.length_append, ← Nat.add_assoc]
    rfl

theorem streamChunk_wire (uuid : Nat → String) (s : Stream) {c : Chunk} {data : Fields}
    (h : c.Wire data) :
    ∃ ds, streamChunk uuid s data =
        .ok (⟨(c.finish.map (reasonOf geminiFinish)).or s.finish,
          (c.usage.map Counts.usage).getD s.usage, s.toolIndex + (callsOf c.parts).length⟩, ds) ∧
      Yields uuid s.toolIndex c.parts ds := by
  obtain ⟨⟨candidate, others, hcandidates, hcontent, hfinish⟩, hu⟩ := h
  obtain ⟨content, raws, hcontent, hraws, hall⟩ : ∃ content raws,
      orDict (lookup "content" candidate) = .ok content ∧
      orList (lookup "parts" content) = .ok raws ∧ List.Forall₂ Part.Wire c.parts raws := by
    rcases hcontent with ⟨he, hc⟩ | ⟨content, hc, ⟨he, hp⟩ | ⟨raws, hp, hall⟩⟩
    · exact ⟨[], [], by rw [hc]; rfl, rfl, by rw [he]; exact .nil⟩
    · exact ⟨content, [], by rw [hc, orDict_obj], by rw [hp]; rfl, by rw [he]; exact .nil⟩
    · exact ⟨content, raws, by rw [hc, orDict_obj], by rw [hp]; rfl, hall⟩
  have husage : streamUsage s.usage (lookup "usageMetadata" data) =
      .ok ((c.usage.map Counts.usage).getD s.usage) := by
    cases hc : c.usage with
    | none =>
      rw [hc] at hu
      rw [hu]
      rfl
    | some u =>
      rw [hc] at hu
      obtain ⟨raw, hraw, hcounts⟩ := hu
      have hne : raw.isEmpty = false := by
        cases raw with
        | nil => cases hcounts.1
        | cons => rfl
      rw [hraw]
      unfold streamUsage
      simp only [hne, Bool.false_eq_true, if_false, parseUsage_wire hcounts]
      rfl
  obtain ⟨ds, hds, hy⟩ := streamParts_wire uuid s.toolIndex hall
  refine ⟨ds, ?_, hy⟩
  unfold streamChunk
  simp only [hcandidates, orList_arr, ok_bind, firstOf, dict, hcontent, hraws, hds,
    finishFrom_said hfinish, husage]
  rfl

/-- The whole stream, up to the chunk that finishes it. -/
theorem streamEvents_wire (uuid : Nat → String) {a : Answer} {chunks : List Chunk} {last : Chunk}
    {datas : List (String × Fields)} (h : List.Forall₂ (fun c d => c.Wire d.2) chunks datas)
    (hgoing : ∀ c ∈ chunks, c.finish = none) (name : String) {data : Fields}
    (hlast : last.Wire data) (hfinish : last.finish = some a.finish)
    (husage : last.usage = some a.usage) {s : Stream} (hs : s.finish = none)
    (rest : List (String × Option Fields)) :
    ∃ toolIndex ds, streamEvents uuid s
        ((datas.map fun d => (d.1, some d.2)) ++ (name, some data) :: rest) =
        .ok (⟨some (reasonOf geminiFinish a.finish), a.usage.usage, toolIndex⟩, ds, true) ∧
      Yields uuid s.toolIndex (partsOf (chunks ++ [last])) ds := by
  induction h generalizing s with
  | nil =>
    obtain ⟨ds, hds, hy⟩ := streamChunk_wire uuid s hlast
    refine ⟨s.toolIndex + (callsOf last.parts).length, ds, ?_, by simpa [partsOf] using hy⟩
    rw [List.map_nil, List.nil_append, streamEvents, hds, hfinish, husage]
    rfl
  | @cons c d chunks datas hc _ ih =>
    obtain ⟨ds, hds, hy⟩ := streamChunk_wire uuid s hc
    have hnone : c.finish = none := hgoing c List.mem_cons_self
    obtain ⟨toolIndex, ds', hds', hy'⟩ := ih (fun x hx => hgoing x (List.mem_cons_of_mem _ hx))
      (s := ⟨none, (c.usage.map Counts.usage).getD s.usage, s.toolIndex + (callsOf c.parts).length⟩)
      rfl
    refine ⟨toolIndex, ds ++ ds', ?_, hy.append hy'⟩
    rw [List.map_cons, List.cons_append, streamEvents, hds, hnone, hs]
    simp only [ok_bind, Option.map_none, Option.or_none, Option.isSome_none, Bool.false_eq_true,
      if_false, hds']
    rfl

end

/-- What is assembled of an answer's deliveries. -/
def Answer.streamed (uuid : Nat → String) (a : Answer) : ModelResponse where
  text := String.join (a.parts.flatMap Part.visible)
  toolCalls := toolCalls uuid 0 (callsOf a.parts)
  finishReason := reasonOf geminiFinish a.finish
  usage := a.usage.usage

/-- The element at one place, picked by its index. -/
theorem filter_zipIdx {α : Type} {xs : List α} {k n : Nat} (hn : n < xs.length) :
    ((xs.zipIdx k).filter fun z => z.2 = k + n) = [(xs[n], k + n)] := by
  induction xs generalizing k n with
  | nil => cases hn
  | cons x xs ih =>
    rw [List.zipIdx_cons, List.filter_cons]
    cases n with
    | zero =>
      have hrest : ((xs.zipIdx (k + 1)).filter fun z => z.2 = k + 0) = [] := by
        refine List.filter_eq_nil_iff.mpr fun z hz => ?_
        have hle := List.le_snd_of_mem_zipIdx hz
        rw [decide_eq_true_eq]
        omega
      rw [hrest]
      simp
    | succ n =>
      rw [if_neg (by simp)]
      have hih := ih (k := k + 1) (n := n) (by simpa using hn)
      rw [show k + (n + 1) = k + 1 + n by omega, hih, List.getElem_cons_succ]

/-- **Assembling.** The response assembled of any delivery of an answer. -/
theorem streamed_answer {uuid uuid' : Nat → String} (huuid : ∀ n, uuid n ≠ "") {a : Answer}
    {chunks : List Chunk} {last : Chunk} {datas : List (String × Fields)}
    (h : Delivers a chunks last) (hw : List.Forall₂ (fun c d => c.Wire d.2) chunks datas)
    (strict : Bool) {name : String} {data : Fields} (hlast : last.Wire data)
    (rest : List (String × Option Fields)) :
    assembleStreamedResponse uuid' (streamChunks uuid strict
      ((datas.map fun d => (d.1, some d.2)) ++ (name, some data) :: rest)) =
      .ok (a.streamed uuid) := by
  obtain ⟨toolIndex, ds, hevents, hy⟩ := streamEvents_wire uuid (s := {}) hw h.going name hlast
    h.finish h.usage rfl rest
  have hstream : streamChunks uuid strict
      ((datas.map fun d => (d.1, some d.2)) ++ (name, some data) :: rest) =
      .ok (ds ++ [.usage a.usage.usage, .finish (reasonOf geminiFinish a.finish)]) := by
    unfold streamChunks requireTerminal
    rw [hevents]
    simp only [ok_bind, Bool.not_true, Bool.and_false, Bool.false_eq_true, if_false]
    rfl
  have hpieces := hy.pieces
  rw [h.calls] at hpieces
  have hindices (i : Nat) : i ∈ List.range (callsOf a.parts).length ↔
      i ∈ (pieces ds).map Prod.fst := by
    rw [hpieces, List.map_map, List.range_eq_range', ← List.zipIdx_map_snd]
    rfl
  have hcalls : ∀ n, ∀ hx : n < (List.range (callsOf a.parts).length).length,
      ∀ hy : n < (toolCalls uuid 0 (callsOf a.parts)).length,
      StreamAssembler.buildCall uuid' n (gathered
        (piecesOf (List.range (callsOf a.parts).length)[n] (pieces ds))) =
        .ok (toolCalls uuid 0 (callsOf a.parts))[n] := by
    intro n hx hn
    have hn : n < (callsOf a.parts).length := by rwa [toolCalls_length] at hn
    have hfilter := filter_zipIdx (k := 0) hn
    rw [Nat.zero_add] at hfilter
    rw [hpieces, List.getElem_range, piecesOf_map (fun z : (AnswerCall × String) × Nat => z.2),
      hfilter, List.map_singleton]
    have hargs : ReadsAs (JsonText.dumps .default (.obj (callsOf a.parts)[n].1.args))
        (callsOf a.parts)[n].1.args :=
      .inr (JsonText.loads_write JsonText.Separators.spaced_default (callsOf a.parts)[n].1.held)
    rw [buildCall_tells (.single _) ((callsOf a.parts)[n].1.idAt_ne huuid n)
      (callsOf a.parts)[n].1.name_ne hargs]
    simp [toolCalls, callPiece]
  rw [hstream, assembled_ended List.pairwise_lt_range hindices (by simp [toolCalls_length]) hcalls,
    hy.text, h.text]
  rfl

theorem geminiFinish_ne_toolUse (raw : String) : geminiFinish raw ≠ some .toolUse := by
  unfold geminiFinish
  split <;> simp

/-- Where the two responses are the same, whatever ids were drawn for either. -/
theorem streamed_iff (uuid uuid' : Nat → String) (a : Answer) :
    a.streamed uuid' = a.response uuid ↔ callsOf a.parts = [] := by
  constructor
  · intro he
    have hfinish : (a.streamed uuid').finishReason = (a.response uuid).finishReason := by rw [he]
    by_contra hne
    have htoolUse : reasonOf geminiFinish a.finish = .toolUse := by
      have hempty : (callsOf a.parts).isEmpty = false := by simpa using hne
      unfold Answer.streamed Answer.response at hfinish
      simpa [hempty] using hfinish
    exact geminiFinish_ne_toolUse a.finish (reasonOf_toolUse.mp htoolUse)
  · intro hnil
    unfold Answer.streamed Answer.response
    rw [hnil]
    rfl

/-- **Agreement.** The two parsers agree on an answer and any stream of it. -/
theorem same_iff {uuid uuid' : Nat → String} (huuid : ∀ n, uuid n ≠ "") (huuid' : ∀ n, uuid' n ≠ "")
    (uuid'' : Nat → String) (strict : Bool) {a : Answer} {data : Fields}
    {events : List (String × Option Fields)} (h : a.chunk.Wire data) (hs : a.StreamedBy events) :
    SameResponse (assembleStreamedResponse uuid'' (streamChunks uuid' strict events))
        (parseResponse uuid data) ↔ callsOf a.parts = [] := by
  obtain ⟨chunks, last, datas, name, data', rest, hdelivers, hw, hlast, rfl⟩ := hs
  rw [parseResponse_answer huuid h, streamed_answer huuid' hdelivers hw strict hlast,
    sameResponse_ok, streamed_iff]

end GeminiAdapter

end Northstack
