import Northstack.Adapters.Assembly

/-!
# OpenAI responses, whole and streamed

What a well-formed chat completion holds, the ways in which its chunks deliver
it, and what the two parsers make of either.

**Results.**
* `parseResponse_answer`: the response parsed of the whole answer.
* `streamed_answer`: the response assembled of any of its deliveries.
-/
namespace Northstack

open Json Wire

namespace OpenAIAdapter

/-- A call with an id, a name and the text of a JSON object. -/
structure AnswerCall where
  id : String
  name : String
  arguments : String
  parsed : Fields
  id_ne : id ≠ ""
  name_ne : name ≠ ""
  reads : JsonText.loads arguments = .ok (.obj parsed)

def AnswerCall.toolCall (c : AnswerCall) : ToolCall := ⟨c.id, c.name, c.parsed, ""⟩

/-- Token counts as the provider reports them. -/
structure Counts where
  prompt : Nat
  completion : Nat
  cached : Option Nat

def Counts.usage (u : Counts) : Usage where
  inputTokens := u.prompt - u.cached.getD 0
  outputTokens := u.completion
  cacheReadTokens := u.cached.getD 0

/-- A whole answer. -/
structure Answer where
  content : Option String
  calls : List AnswerCall
  finish : String
  usage : Counts

/-- What a chunk says of a call. -/
structure CallPiece where
  index : Nat
  id : Option String
  name : Option String
  fragment : Option String

structure Chunk where
  content : Option String := none
  calls : List CallPiece := []
  finish : Option String := none
  usage : Option Counts := none

/-! ## On the wire -/

def Counts.Wire (u : Counts) (raw : Fields) : Prop :=
  lookup "prompt_tokens" raw = some (.int u.prompt) ∧
    lookup "completion_tokens" raw = some (.int u.completion) ∧
    match u.cached with
    | none => lookup "prompt_tokens_details" raw = none ∨
        lookup "prompt_tokens_details" raw = some .null
    | some n => ∃ details, lookup "prompt_tokens_details" raw = some (.obj details) ∧
        lookup "cached_tokens" details = some (.int n)

def AnswerCall.Wire (c : AnswerCall) (raw : Json) : Prop :=
  ∃ tc func, raw = .obj tc ∧ lookup "id" tc = some (.str c.id) ∧
    lookup "function" tc = some (.obj func) ∧ lookup "name" func = some (.str c.name) ∧
    lookup "arguments" func = some (.str c.arguments)

def Answer.Wire (a : Answer) (data : Fields) : Prop :=
  ∃ choice others message usage, lookup "choices" data = some (.arr (.obj choice :: others)) ∧
    lookup "message" choice = some (.obj message) ∧ Said (lookup "content" message) a.content ∧
    lookup "finish_reason" choice = some (.str a.finish) ∧
    (a.calls = [] ∧ lookup "tool_calls" message = none ∨
      ∃ raws, lookup "tool_calls" message = some (.arr raws) ∧
        List.Forall₂ AnswerCall.Wire a.calls raws) ∧
    lookup "usage" data = some (.obj usage) ∧ a.usage.Wire usage

def CallPiece.Wire (p : CallPiece) (raw : Json) : Prop :=
  ∃ tc fn, raw = .obj tc ∧ lookup "index" tc = some (.int p.index) ∧
    Said (lookup "id" tc) p.id ∧ lookup "function" tc = some (.obj fn) ∧
    Said (lookup "name" fn) p.name ∧ Said (lookup "arguments" fn) p.fragment

/-- A chunk that says something of the message, or has no choice. -/
def Chunk.Says (c : Chunk) (data : Fields) : Prop :=
  (∃ choice others delta, lookup "choices" data = some (.arr (.obj choice :: others)) ∧
    lookup "delta" choice = some (.obj delta) ∧ Said (lookup "content" delta) c.content ∧
    (c.calls = [] ∧ (lookup "tool_calls" delta = none ∨ lookup "tool_calls" delta = some .null) ∨
      ∃ raws, lookup "tool_calls" delta = some (.arr raws) ∧
        List.Forall₂ CallPiece.Wire c.calls raws) ∧
    Said (lookup "finish_reason" choice) c.finish) ∨
  (lookup "choices" data = some (.arr []) ∧ c.content = none ∧ c.calls = [] ∧ c.finish = none)

def Chunk.Wire (c : Chunk) (data : Fields) : Prop :=
  c.Says data ∧
    match c.usage with
    | none => lookup "usage" data = none ∨ lookup "usage" data = some .null
    | some u => ∃ raw, lookup "usage" data = some (.obj raw) ∧ u.Wire raw

/-! ## Deliveries -/

/-- What the chunks say of calls, in order. -/
def told (chunks : List Chunk) : List CallPiece := chunks.flatMap (·.calls)

/-- The pieces of `ps` with index `i`. -/
def toldOf (i : Nat) (ps : List CallPiece) : List CallPiece := ps.filter fun p => p.index = i

/-- The chunks deliver `a`: its text and each call's arguments in fragments, each
call's id and name at least once, its finish reason and its usage. -/
structure Delivers (a : Answer) (chunks : List Chunk) : Prop where
  text : String.join (chunks.map fun c => c.content.getD "") = a.content.getD ""
  calls : ∀ p ∈ told chunks, ∃ c, a.calls[p.index]? = some c ∧
    (p.id.getD "" = "" ∨ p.id = some c.id) ∧ (p.name.getD "" = "" ∨ p.name = some c.name)
  ids : ∀ i c, a.calls[i]? = some c → ∃ p ∈ told chunks, p.index = i ∧ p.id = some c.id
  names : ∀ i c, a.calls[i]? = some c → ∃ p ∈ told chunks, p.index = i ∧ p.name = some c.name
  arguments : ∀ i c, a.calls[i]? = some c →
    String.join ((toldOf i (told chunks)).map fun p => p.fragment.getD "") = c.arguments
  finish : chunks.filterMap (·.finish) ≠ [] ∧ ∀ f ∈ chunks.filterMap (·.finish), f = a.finish
  usage : chunks.filterMap (·.usage) ≠ [] ∧ ∀ u ∈ chunks.filterMap (·.usage), u = a.usage

/-- A stream that delivers `a`: its chunks, `[DONE]`, and whatever follows. -/
def Answer.StreamedBy (a : Answer) (events : List (String × Option Fields)) : Prop :=
  ∃ chunks datas done rest, Delivers a chunks ∧
    List.Forall₂ (fun c (d : String × Fields) => Chunk.Wire c d.2) chunks datas ∧
    events = (datas.map fun d => (d.1, some d.2)) ++ (done, none) :: rest

/-! ## The whole answer -/

theorem parseUsage_wire {u : Counts} {raw : Fields} (h : u.Wire raw) :
    parseUsage raw = .ok u.usage := by
  obtain ⟨hp, hc, hd⟩ := h
  have hprompt : intOr (lookup "prompt_tokens" raw) = .ok (u.prompt : Int) := by rw [hp]; rfl
  have houtput : intOr (lookup "completion_tokens" raw) = .ok (u.completion : Int) := by
    rw [hc]
    rfl
  have hcached : cachedTokens raw = .ok ((u.cached.getD 0 : Nat) : Int) := by
    unfold cachedTokens
    cases hn : u.cached with
    | none =>
      rw [hn] at hd
      rcases hd with hd | hd <;> rw [hd] <;> rfl
    | some n =>
      rw [hn] at hd
      obtain ⟨details, hd, hn⟩ := hd
      rw [hd]
      dsimp only
      rw [hn]
      rfl
  unfold parseUsage
  rw [hcached, hprompt, houtput]
  simp only [ok_bind, count_nat]
  have hsub : ((u.prompt : Int) - (u.cached.getD 0 : Nat)).toNat = u.prompt - u.cached.getD 0 := by
    omega
  rw [hsub]
  rfl

theorem parseCall_wire {uuid : Nat → String} {n : Nat} {c : AnswerCall} {raw : Json}
    (h : c.Wire raw) : parseCall uuid n raw = .ok c.toolCall := by
  obtain ⟨tc, func, rfl, hid, hfunc, hname, hargs⟩ := h
  have hparse : parseArguments func = .ok c.parsed := by
    unfold parseArguments
    simp only [hargs, strOr, ok_bind, c.reads]
  unfold parseCall toolCall
  simp only [dict, hid, hfunc, dictOr_obj, ok_bind, hparse, hname, strOr]
  rw [if_neg (by simp [c.id_ne, c.name_ne])]
  rfl

/-- What the parser makes of an answer. -/
def Answer.response (a : Answer) : ModelResponse where
  text := a.content.getD ""
  toolCalls := a.calls.map AnswerCall.toolCall
  finishReason := if a.calls.isEmpty then reasonOf openaiFinish a.finish else .toolUse
  usage := a.usage.usage

/-- **Parsing.** The response parsed of the whole answer. -/
theorem parseResponse_answer {uuid : Nat → String} {a : Answer} {data : Fields} (h : a.Wire data) :
    parseResponse uuid data = .ok a.response := by
  obtain ⟨choice, others, message, usage, hchoices, hmessage, hcontent, hfinish, hcalls, husage,
    hcounts⟩ := h
  have hloop : ∃ raws, loop (lookup "tool_calls" message) = .ok raws ∧
      List.Forall₂ AnswerCall.Wire a.calls raws := by
    rcases hcalls with ⟨hnil, hnone⟩ | ⟨raws, hraws, hall⟩
    · exact ⟨[], by rw [hnone]; rfl, by rw [hnil]; exact .nil⟩
    · exact ⟨raws, by rw [hraws]; rfl, hall⟩
  obtain ⟨raws, hraws, hall⟩ := hloop
  have hparsed : (raws.zipIdx.mapM fun p => parseCall uuid p.2 p.1) =
      .ok (a.calls.map AnswerCall.toolCall) := by
    refine mapM_zipIdx (by simpa using hall.length_eq.symm) fun n hx hy => ?_
    rw [List.getElem_map]
    exact parseCall_wire (hall.get (by simpa using hy) hx)
  unfold parseResponse
  rw [hchoices]
  simp only [Option.getD_some, truthy, List.isEmpty_cons, Bool.not_false, Bool.not_true,
    Bool.false_eq_true, if_false, orList_arr, ok_bind, firstOf, dict, hmessage, dictOr_obj,
    hcontent.orStr, hfinish, finishOf, hraws, hparsed, husage, parseUsage_wire hcounts]
  simp only [protocolParser, pure, Except.pure, List.isEmpty_map]
  rfl

/-! ## Its deliveries -/

/-- The names kept are names of calls. -/
def Answer.Knows (a : Answer) (toolNames : List (Nat × String)) : Prop :=
  ∀ i name, toolNames.lookup i = some name → ∃ c, a.calls[i]? = some c ∧ name = c.name

/-- What may be said of a call of `a`. -/
def Answer.Admits (a : Answer) (p : CallPiece) : Prop :=
  ∃ c, a.calls[p.index]? = some c ∧ (p.id.getD "" = "" ∨ p.id = some c.id) ∧
    (p.name.getD "" = "" ∨ p.name = some c.name)

/-- `q` is what the parser makes of `p`. -/
structure Emits (a : Answer) (p : CallPiece) (q : Piece) : Prop where
  id : q.id = p.id.getD ""
  fragment : q.fragment = p.fragment.getD ""
  signature : q.signature = ""
  name : q.name = "" ∨ ∃ c, a.calls[p.index]? = some c ∧ q.name = c.name
  told : ∀ name, p.name = some name → name ≠ "" → q.name = name

section

variable {a : Answer} {toolNames : List (Nat × String)}

theorem streamCall_wire {p : CallPiece} {raw : Json} (h : p.Wire raw) (ha : a.Admits p)
    (hk : a.Knows toolNames) :
    ∃ toolNames' q, streamCall toolNames raw = .ok (toolNames', q.delta p.index) ∧
      a.Knows toolNames' ∧ Emits a p q := by
  obtain ⟨tc, fn, rfl, hidx, hid, hfn, hname, hargs⟩ := h
  obtain ⟨c, hc, -, hn⟩ := ha
  unfold streamCall
  simp only [dict, ok_bind, hidx, index_nat, hfn, orDict_obj, hname.orStr, hid.orStr, hargs.orStr]
  by_cases he : p.name.getD "" = ""
  · refine ⟨toolNames, ⟨p.id.getD "", (toolNames.lookup p.index).getD "", p.fragment.getD "", ""⟩,
      by simp [he, Piece.delta]; rfl, hk, rfl, rfl, rfl, ?_, ?_⟩
    · cases hl : toolNames.lookup p.index with
      | none => exact .inl rfl
      | some name => exact .inr (hk _ _ hl)
    · intro name hs hne
      rw [hs] at he
      exact absurd he hne
  · have hs : p.name = some c.name := hn.resolve_left he
    refine ⟨(p.index, p.name.getD "") :: toolNames,
      ⟨p.id.getD "", p.name.getD "", p.fragment.getD "", ""⟩,
      by simp [he, Piece.delta]; rfl, ?_, rfl, rfl, rfl, .inr ⟨c, hc, by rw [hs]; rfl⟩, ?_⟩
    · intro i name hl
      rw [List.lookup_cons] at hl
      by_cases hi : i = p.index
      · subst hi
        rw [beq_self_eq_true] at hl
        obtain rfl := Option.some.inj hl
        exact ⟨c, hc, by rw [hs]; rfl⟩
      · rw [beq_false_of_ne hi] at hl
        exact hk i name hl
    · intro name hs' _
      rw [hs']
      rfl

/-- What the parser makes of several pieces, each with the one it is made of. -/
theorem streamCalls_wire {ps : List CallPiece} {raws : List Json}
    (h : List.Forall₂ CallPiece.Wire ps raws) (ha : ∀ p ∈ ps, a.Admits p)
    (hk : a.Knows toolNames) :
    ∃ toolNames', ∃ zs : List (CallPiece × Piece), streamCalls toolNames raws =
        .ok (toolNames', zs.map fun z => z.2.delta z.1.index) ∧
      a.Knows toolNames' ∧ zs.map Prod.fst = ps ∧ ∀ z ∈ zs, Emits a z.1 z.2 := by
  induction h generalizing toolNames with
  | nil => exact ⟨toolNames, [], rfl, hk, rfl, List.forall_mem_nil _⟩
  | @cons p raw ps raws hp _ ih =>
    obtain ⟨names, q, hcall, hk, hq⟩ := streamCall_wire hp (ha p List.mem_cons_self) hk
    obtain ⟨names', zs, hcalls, hk', hmap, hzs⟩ :=
      ih (fun x hx => ha x (List.mem_cons_of_mem _ hx)) hk
    refine ⟨names', (p, q) :: zs, ?_, hk', by rw [List.map_cons, hmap], ?_⟩
    · unfold streamCalls
      rw [hcall]
      simp only [ok_bind, hcalls]
      rfl
    · intro z hz
      rcases List.mem_cons.mp hz with rfl | hz
      · exact hq
      · exact hzs z hz

end

/-- A usage that counts nothing is not reported. -/
def Counts.Empty (u : Counts) : Prop := u.prompt = 0 ∧ u.completion = 0

instance (u : Counts) : Decidable u.Empty := inferInstanceAs (Decidable (_ ∧ _))

def Chunk.textDeltas (c : Chunk) : List StreamDelta :=
  if c.content.getD "" = "" then [] else [.text (c.content.getD "")]

def Chunk.usageDeltas (c : Chunk) : List StreamDelta :=
  (c.usage.toList.filter fun u => ¬ u.Empty).map fun u => .usage u.usage

theorem streamUsage_wire {c : Chunk} {data : Fields} (h : c.Wire data) :
    streamUsage (lookup "usage" data) = .ok c.usageDeltas := by
  obtain ⟨-, hu⟩ := h
  unfold Chunk.usageDeltas
  cases hc : c.usage with
  | none =>
    rw [hc] at hu
    rcases hu with hu | hu <;> rw [hu] <;> rfl
  | some u =>
    rw [hc] at hu
    obtain ⟨raw, hraw, hcounts⟩ := hu
    have hparse := parseUsage_wire hcounts
    obtain ⟨hp, hcompl, -⟩ := hcounts
    rw [hraw]
    unfold streamUsage
    simp only [hp, hcompl, Option.any_some, truthy, hparse]
    by_cases he : u.Empty
    · obtain ⟨hp0, hc0⟩ := he
      simp [hp0, hc0, Counts.Empty]
    · have hne : (u.prompt : Int) ≠ 0 ∨ (u.completion : Int) ≠ 0 := by
        unfold Counts.Empty at he
        omega
      rw [if_pos (by simpa using hne)]
      simp [he, Except.map]

theorem streamChunk_wire {a : Answer} {s : Stream} {c : Chunk} {data : Fields} (h : c.Wire data)
    (ha : ∀ p ∈ c.calls, a.Admits p) (hk : a.Knows s.toolNames) :
    ∃ toolNames, ∃ zs : List (CallPiece × Piece), streamChunk s data =
        .ok (⟨toolNames, (c.finish.map (reasonOf openaiFinish)).or s.finish⟩,
        c.textDeltas ++ (zs.map fun z => z.2.delta z.1.index) ++ c.usageDeltas) ∧
      a.Knows toolNames ∧ zs.map Prod.fst = c.calls ∧ ∀ z ∈ zs, Emits a z.1 z.2 := by
  have husage := streamUsage_wire h
  rcases h.1 with ⟨choice, others, delta, hchoices, hdelta, hcontent, hcalls, hfinish⟩ |
    ⟨hchoices, hcontent, hcalls, hfinish⟩
  · obtain ⟨raws, hraws, hall⟩ : ∃ raws, orList (lookup "tool_calls" delta) = .ok raws ∧
        List.Forall₂ CallPiece.Wire c.calls raws := by
      rcases hcalls with ⟨hnil, hnone | hnull⟩ | ⟨raws, hraws, hall⟩
      · exact ⟨[], by rw [hnone]; rfl, by rw [hnil]; exact .nil⟩
      · exact ⟨[], by rw [hnull]; rfl, by rw [hnil]; exact .nil⟩
      · exact ⟨raws, by rw [hraws]; rfl, hall⟩
    obtain ⟨names, zs, hstream, hk', hmap, hzs⟩ := streamCalls_wire hall ha hk
    refine ⟨names, zs, ?_, hk', hmap, hzs⟩
    unfold streamChunk streamText
    simp only [hchoices, orList_arr, ok_bind, firstOf, dict, hdelta, orDict_obj, hcontent.orStr,
      hraws, hstream, finishFrom_said hfinish, husage]
    rfl
  · refine ⟨s.toolNames, [], ?_, hk, by rw [hcalls]; rfl, List.forall_mem_nil _⟩
    unfold streamChunk streamText Chunk.textDeltas
    rw [hchoices, hcontent, hfinish, husage]
    rfl

/-- What the parser yields of the whole stream. -/
structure Yields (a : Answer) (chunks : List Chunk) (zs : List (CallPiece × Piece))
    (ds : List StreamDelta) : Prop where
  text : String.join (ds.filterMap StreamDelta.text?) =
    String.join (chunks.map fun c => c.content.getD "")
  pieces : pieces ds = zs.map fun z => (z.1.index, z.2)
  usage : ds.filterMap StreamDelta.usage? =
    ((chunks.filterMap (·.usage)).filter fun u => ¬ u.Empty).map Counts.usage
  finish : ds.filterMap StreamDelta.finish? = []
  told : zs.map Prod.fst = told chunks
  emits : ∀ z ∈ zs, Emits a z.1 z.2

theorem Chunk.silent_text {β : Type} {f : StreamDelta → Option β} (hf : ∀ t, f (.text t) = none)
    (c : Chunk) : c.textDeltas.filterMap f = [] := by
  unfold textDeltas
  split
  · rfl
  · rw [List.filterMap_cons_none (hf _), List.filterMap_nil]

theorem Chunk.silent_usage {β : Type} {f : StreamDelta → Option β} (hf : ∀ u, f (.usage u) = none)
    (c : Chunk) : c.usageDeltas.filterMap f = [] := by
  unfold usageDeltas
  rw [List.filterMap_map, List.filterMap_eq_nil_iff]
  exact fun u _ => hf _

theorem Chunk.join_text (c : Chunk) :
    String.join (c.textDeltas.filterMap StreamDelta.text?) = c.content.getD "" := by
  unfold textDeltas
  by_cases he : c.content.getD "" = ""
  · rw [if_pos he, he]
    rfl
  · rw [if_neg he, List.filterMap_cons_some
      (show StreamDelta.text? _ = some (c.content.getD "") from rfl)]
    simp

theorem Chunk.usages (c : Chunk) : c.usageDeltas.filterMap StreamDelta.usage? =
    (c.usage.toList.filter fun u => ¬ u.Empty).map Counts.usage := by
  unfold usageDeltas
  rw [List.filterMap_map, ← List.filterMap_eq_map]
  rfl

theorem Chunk.yields {a : Answer} {c : Chunk} {zs : List (CallPiece × Piece)}
    (hmap : zs.map Prod.fst = c.calls) (hzs : ∀ z ∈ zs, Emits a z.1 z.2) :
    Yields a [c] zs
      (c.textDeltas ++ (zs.map fun z => z.2.delta z.1.index) ++ c.usageDeltas) where
  text := by
    rw [List.filterMap_append, List.filterMap_append, silent_deltas _ _ _ fun _ _ => rfl,
      c.silent_usage fun _ => rfl, List.append_nil, List.append_nil, c.join_text]
    simp
  pieces := by
    unfold Northstack.pieces
    rw [List.filterMap_append, List.filterMap_append, c.silent_text fun _ => rfl,
      c.silent_usage fun _ => rfl, List.append_nil, List.nil_append]
    exact pieces_deltas _ _ _
  usage := by
    rw [List.filterMap_append, List.filterMap_append, silent_deltas _ _ _ fun _ _ => rfl,
      c.silent_text fun _ => rfl, List.nil_append, List.nil_append, c.usages]
    have hone : [c].filterMap (·.usage) = c.usage.toList := by
      cases hu : c.usage <;> simp [hu]
    rw [hone]
  finish := by
    rw [List.filterMap_append, List.filterMap_append, silent_deltas _ _ _ fun _ _ => rfl,
      c.silent_text fun _ => rfl, c.silent_usage fun _ => rfl]
    rfl
  told := by
    rw [hmap]
    simp [OpenAIAdapter.told]
  emits := hzs

theorem Yields.append {a : Answer} {cs cs' : List Chunk} {zs zs' : List (CallPiece × Piece)}
    {ds ds' : List StreamDelta} (h : Yields a cs zs ds) (h' : Yields a cs' zs' ds') :
    Yields a (cs ++ cs') (zs ++ zs') (ds ++ ds') where
  text := by simp [h.text, h'.text]
  pieces := by
    have hp := h.pieces
    have hp' := h'.pieces
    unfold Northstack.pieces at hp hp' ⊢
    rw [List.filterMap_append, List.map_append, hp, hp']
  usage := by simp [h.usage, h'.usage]
  finish := by rw [List.filterMap_append, h.finish, h'.finish, List.append_nil]
  told := by
    rw [List.map_append, h.told, h'.told]
    exact List.flatMap_append.symm
  emits := by
    intro z hz
    rcases List.mem_append.mp hz with hz | hz
    · exact h.emits z hz
    · exact h'.emits z hz

/-- The whole stream, up to `[DONE]`. -/
theorem streamEvents_wire {a : Answer} {chunks : List Chunk} {datas : List (String × Fields)}
    (h : List.Forall₂ (fun c d => c.Wire d.2) chunks datas) (ha : ∀ p ∈ told chunks, a.Admits p)
    {s : Stream} (hk : a.Knows s.toolNames) (done : String)
    (rest : List (String × Option Fields)) :
    ∃ toolNames zs ds,
      streamEvents s ((datas.map fun d => (d.1, some d.2)) ++ (done, none) :: rest) =
        .ok (⟨toolNames, ((chunks.filterMap (·.finish)).getLast?.map (reasonOf openaiFinish)).or
          s.finish⟩, ds, true) ∧
      Yields a chunks zs ds := by
  induction h generalizing s with
  | nil =>
    exact ⟨s.toolNames, [], [], rfl, rfl, rfl, rfl, rfl, rfl, List.forall_mem_nil _⟩
  | @cons c d chunks datas hc _ ih =>
    obtain ⟨names, zs, hchunk, hk', hmap, hzs⟩ :=
      streamChunk_wire hc (fun p hp => ha p (List.mem_append_left _ hp)) hk
    obtain ⟨names', zs', ds', hevents, hyields⟩ :=
      ih (fun p hp => ha p (List.mem_append_right _ hp))
        (s := ⟨names, (c.finish.map (reasonOf openaiFinish)).or s.finish⟩) hk'
    refine ⟨names', zs ++ zs', _, ?_, (Chunk.yields hmap hzs).append hyields⟩
    rw [List.map_cons, List.cons_append, streamEvents, hchunk]
    simp only [ok_bind, hevents]
    have hfinish : ((chunks.filterMap (·.finish)).getLast?.map (reasonOf openaiFinish)).or
        ((c.finish.map (reasonOf openaiFinish)).or s.finish) =
        (((c :: chunks).filterMap (·.finish)).getLast?.map (reasonOf openaiFinish)).or
          s.finish := by
      cases hf : c.finish with
      | none => rw [List.filterMap_cons_none hf]; rfl
      | some f =>
        rw [List.filterMap_cons_some hf, List.getLast?_cons]
        cases (chunks.filterMap (·.finish)).getLast? <;> rfl
    rw [hfinish]
    rfl

/-- What is assembled of an answer's deliveries. -/
def Answer.streamed (a : Answer) : ModelResponse where
  text := a.content.getD ""
  toolCalls := a.calls.map AnswerCall.toolCall
  finishReason := reasonOf openaiFinish a.finish
  usage := if a.usage.Empty then {} else a.usage.usage

theorem Delivers.admits {a : Answer} {chunks : List Chunk} (h : Delivers a chunks) :
    ∀ p ∈ told chunks, a.Admits p := h.calls

/-- All that is said of one call. -/
theorem Delivers.tells {a : Answer} {chunks : List Chunk} (h : Delivers a chunks)
    {zs : List (CallPiece × Piece)} (hz : zs.map Prod.fst = told chunks)
    (he : ∀ z ∈ zs, Emits a z.1 z.2) {i : Nat} {c : AnswerCall} (hc : a.calls[i]? = some c) :
    Tells (piecesOf i (zs.map fun z => (z.1.index, z.2))) ⟨c.id, c.name, c.arguments, ""⟩ := by
  rw [piecesOf_map (fun z : CallPiece × Piece => z.1.index)]
  have hmem {z : CallPiece × Piece} (hz' : z ∈ zs.filter fun z => z.1.index = i) :
      z ∈ zs ∧ z.1.index = i ∧ z.1 ∈ told chunks := by
    obtain ⟨h1, h2⟩ := List.mem_filter.mp hz'
    exact ⟨h1, of_decide_eq_true h2, hz ▸ List.mem_map_of_mem h1⟩
  have hpick {p : CallPiece} (hp : p ∈ told chunks) (hi : p.index = i) :
      ∃ z ∈ zs.filter (fun z => z.1.index = i), z.1 = p := by
    rw [← hz] at hp
    obtain ⟨z, hz', rfl⟩ := List.mem_map.mp hp
    exact ⟨z, List.mem_filter.mpr ⟨hz', decide_eq_true hi⟩, rfl⟩
  refine ⟨⟨?_, .inr ?_⟩, ⟨?_, .inr ?_⟩, ⟨?_, .inl rfl⟩, ?_⟩
  · refine List.forall_mem_map.mpr fun z hz' => ?_
    obtain ⟨h1, h2, h3⟩ := hmem hz'
    obtain ⟨c', hc', hid, -⟩ := h.calls z.1 h3
    rw [h2, hc] at hc'
    obtain rfl := Option.some.inj hc'
    rw [(he z h1).id]
    exact hid.imp_right fun heq => by rw [heq]; rfl
  · obtain ⟨p, hp, hi, hid⟩ := h.ids i c hc
    obtain ⟨z, hz', rfl⟩ := hpick hp hi
    exact ⟨z.2, List.mem_map_of_mem hz', by rw [(he z (hmem hz').1).id, hid]; rfl⟩
  · refine List.forall_mem_map.mpr fun z hz' => ?_
    obtain ⟨h1, h2, -⟩ := hmem hz'
    rcases (he z h1).name with hn | ⟨c', hc', hn⟩
    · exact .inl hn
    · rw [h2, hc] at hc'
      obtain rfl := Option.some.inj hc'
      exact .inr hn
  · obtain ⟨p, hp, hi, hname⟩ := h.names i c hc
    obtain ⟨z, hz', rfl⟩ := hpick hp hi
    exact ⟨z.2, List.mem_map_of_mem hz', (he z (hmem hz').1).told _ hname c.name_ne⟩
  · exact List.forall_mem_map.mpr fun z hz' => .inl (he z (hmem hz').1).signature
  · have hfrag := h.arguments i c hc
    have hfilter : toldOf i (told chunks) = (zs.filter fun z => z.1.index = i).map Prod.fst := by
      rw [← hz]
      unfold toldOf
      rw [List.filter_map]
      rfl
    rw [hfilter, List.map_map] at hfrag
    rw [List.map_map, ← hfrag]
    refine congrArg String.join (List.map_congr_left fun z hz' => ?_)
    exact (he z (hmem hz').1).fragment

/-- **Assembling.** The response assembled of any delivery of an answer. -/
theorem streamed_answer {uuid : Nat → String} {a : Answer} {chunks : List Chunk}
    {datas : List (String × Fields)} (h : Delivers a chunks)
    (hw : List.Forall₂ (fun c d => c.Wire d.2) chunks datas) (strict : Bool) (done : String)
    (rest : List (String × Option Fields)) :
    assembleStreamedResponse uuid
      (streamChunks strict ((datas.map fun d => (d.1, some d.2)) ++ (done, none) :: rest)) =
      .ok a.streamed := by
  obtain ⟨names, zs, ds, hevents, hy⟩ := streamEvents_wire hw h.admits (s := {}) nofun done rest
  have hstream : streamChunks strict
      ((datas.map fun d => (d.1, some d.2)) ++ (done, none) :: rest) =
      .ok (ds ++ [.finish (reasonOf openaiFinish a.finish)]) := by
    unfold streamChunks requireTerminal
    rw [hevents, getLast?_constant h.finish.1 h.finish.2]
    simp only [ok_bind, Bool.not_true, Bool.and_false, Bool.false_eq_true, if_false]
    rfl
  have hpieces : pieces (ds ++ [.finish (reasonOf openaiFinish a.finish)]) =
      zs.map fun z => (z.1.index, z.2) := by
    have hp := hy.pieces
    unfold pieces at hp ⊢
    rw [List.filterMap_append, hp, List.filterMap_cons_none rfl, List.filterMap_nil,
      List.append_nil]
  have hindices (i : Nat) : i ∈ List.range a.calls.length ↔
      i ∈ (pieces (ds ++ [.finish (reasonOf openaiFinish a.finish)])).map Prod.fst := by
    rw [hpieces, List.mem_range, List.map_map]
    constructor
    · intro hi
      obtain ⟨p, hp, hpi, -⟩ := h.ids i a.calls[i] (List.getElem?_eq_getElem hi)
      rw [← hy.told] at hp
      obtain ⟨z, hz, rfl⟩ := List.mem_map.mp hp
      exact List.mem_map.mpr ⟨z, hz, hpi⟩
    · intro hi
      obtain ⟨z, hz, rfl⟩ := List.mem_map.mp hi
      obtain ⟨c, hc, -⟩ := h.calls z.1 (hy.told ▸ List.mem_map_of_mem hz)
      exact (List.getElem?_eq_some_iff.mp hc).1
  have hcalls : ∀ n, ∀ hx : n < (List.range a.calls.length).length,
      ∀ hy : n < (a.calls.map AnswerCall.toolCall).length,
      StreamAssembler.buildCall uuid n (gathered (piecesOf (List.range a.calls.length)[n]
        (pieces (ds ++ [.finish (reasonOf openaiFinish a.finish)])))) =
        .ok (a.calls.map AnswerCall.toolCall)[n] := by
    intro n hx hn
    rw [hpieces, List.getElem_range, List.getElem_map]
    have hn : n < a.calls.length := by simpa using hn
    have htells := h.tells hy.told hy.emits (List.getElem?_eq_getElem hn)
    exact buildCall_tells htells a.calls[n].id_ne a.calls[n].name_ne (.inr a.calls[n].reads)
  rw [hstream, assembled_spec List.pairwise_lt_range hindices (by simp) hcalls]
  have htext : String.join ((ds ++ [StreamDelta.finish (reasonOf openaiFinish a.finish)]).filterMap
      StreamDelta.text?) = a.content.getD "" := by
    rw [List.filterMap_append, List.filterMap_cons_none rfl, List.filterMap_nil, List.append_nil,
      hy.text, h.text]
  have hfinish : ((ds ++ [StreamDelta.finish (reasonOf openaiFinish a.finish)]).filterMap
      StreamDelta.finish?).getLast?.getD .endTurn = reasonOf openaiFinish a.finish := by
    rw [List.filterMap_append, hy.finish]
    rfl
  have husage : ((ds ++ [StreamDelta.finish (reasonOf openaiFinish a.finish)]).filterMap
      StreamDelta.usage?).getLastD {} = if a.usage.Empty then {} else a.usage.usage := by
    rw [List.filterMap_append, List.filterMap_cons_none rfl, List.filterMap_nil, List.append_nil,
      hy.usage]
    by_cases he : a.usage.Empty
    · rw [if_pos he, List.filter_eq_nil_iff.mpr fun u hu => by simp [h.usage.2 u hu, he]]
      rfl
    · rw [if_neg he, List.filter_eq_self.mpr fun u hu => by simp [h.usage.2 u hu, he],
        List.getLastD_eq_getLast?, List.getLast?_map, getLast?_constant h.usage.1 h.usage.2]
      rfl
  rw [htext, hfinish, husage]
  rfl

/-- Where the two responses are the same. -/
theorem streamed_iff (a : Answer) : a.streamed = a.response ↔
    (a.calls = [] ∨ openaiFinish a.finish = some .toolUse) ∧
      (¬ a.usage.Empty ∨ a.usage.cached.getD 0 = 0) := by
  have hfinish : a.streamed.finishReason = a.response.finishReason ↔
      a.calls = [] ∨ openaiFinish a.finish = some .toolUse := by
    show reasonOf openaiFinish a.finish =
      (if a.calls.isEmpty then reasonOf openaiFinish a.finish else .toolUse) ↔ _
    rw [← reasonOf_toolUse]
    cases a.calls with
    | nil => simp
    | cons c cs => simp
  have husage : a.streamed.usage = a.response.usage ↔
      ¬ a.usage.Empty ∨ a.usage.cached.getD 0 = 0 := by
    show (if a.usage.Empty then {} else a.usage.usage) = a.usage.usage ↔ _
    by_cases he : a.usage.Empty
    · rw [if_pos he]
      obtain ⟨hp, hc⟩ := he
      unfold Counts.usage Counts.Empty
      rw [hp, hc]
      simp [eq_comm]
    · simp [he]
  rw [← hfinish, ← husage]
  constructor
  · intro he
    exact ⟨by rw [he], by rw [he]⟩
  · rintro ⟨hf, hu⟩
    have hrest : a.streamed = { a.response with
        finishReason := a.streamed.finishReason, usage := a.streamed.usage } := rfl
    rw [hrest, hf, hu]

/-- **Agreement.** The two parsers agree on an answer and any stream of it. -/
theorem same_iff (uuid uuid' : Nat → String) (strict : Bool) {a : Answer} {data : Fields}
    {events : List (String × Option Fields)} (h : a.Wire data) (hs : a.StreamedBy events) :
    SameResponse (assembleStreamedResponse uuid' (streamChunks strict events))
        (parseResponse uuid data) ↔
      (a.calls = [] ∨ openaiFinish a.finish = some .toolUse) ∧
        (¬ a.usage.Empty ∨ a.usage.cached.getD 0 = 0) := by
  obtain ⟨chunks, datas, done, rest, hdelivers, hw, rfl⟩ := hs
  rw [parseResponse_answer h, streamed_answer hdelivers hw, sameResponse_ok, streamed_iff]

end OpenAIAdapter

end Northstack
