import Northstack.Adapters.MessageConversion

/-!
# How a failed result is told on the wire

OpenAI's tool role has no flag: a failed result's text begins with a marker
(gateway.py:378-381). Anthropic's result block has `is_error`, and Gemini's
response an `error` in place of a `result`.

**Result.** `marks_convert`: the results of a request are those of its tool
messages, in order, and each is marked if and only if its message's flag is set,
or, for OpenAI, its text begins with the marker all the same.
-/
namespace Northstack

/-- The text begins with OpenAI's marker. -/
def startsMarked (text : String) : Bool := toolErrorPrefix.toList.isPrefixOf text.toList

/-! ## What is told of the results -/

/-- Of a tool message: whether its text is marked. -/
def OpenAIAdapter.messageMarks (j : Json) : List Bool :=
  if j.str? "role" = some "tool" then [startsMarked ((j.str? "content").getD "")] else []

/-- Of a result block: whether it has the flag. -/
def AnthropicAdapter.blockMarks (j : Json) : List Bool :=
  if j.str? "type" = some "tool_result" then [(j.get? "is_error").isSome] else []

/-- Of the response to a call: whether it is an error. -/
def GeminiAdapter.partMarks (j : Json) : List Bool :=
  match j.get? "functionResponse" with
  | some r => [((r.get? "response").bind (Json.get? "error")).isSome]
  | none => []

def OpenAIAdapter.marks (wire : List Json) : List Bool := wire.flatMap messageMarks

def AnthropicAdapter.marks (wire : List Json) : List Bool :=
  wire.flatMap fun j => ((j.list? "content").getD []).flatMap blockMarks

def GeminiAdapter.marks (wire : List Json) : List Bool :=
  wire.flatMap fun j => ((j.list? "parts").getD []).flatMap partMarks

/-- The wire formats a profile may name. -/
inductive Protocol where
  | openai | anthropic | gemini
  deriving DecidableEq, Repr

/-- `_convert_messages` of the protocol's adapter. -/
def Protocol.convertMessages : Protocol → List ModelMessage → List Json
  | .openai => OpenAIAdapter.convertMessages
  | .anthropic => AnthropicAdapter.convertMessages
  | .gemini => GeminiAdapter.convertMessages

/-- What a request's wire messages tell of its results, in order. -/
def Protocol.marks : Protocol → List Json → List Bool
  | .openai => OpenAIAdapter.marks
  | .anthropic => AnthropicAdapter.marks
  | .gemini => GeminiAdapter.marks

/-- What becomes of one tool message. -/
def Protocol.mark : Protocol → ModelMessage → Bool
  | .openai, m => m.isError || startsMarked m.content
  | .anthropic, m => m.isError
  | .gemini, m => m.isError

/-- The tool messages of a conversation, in order. -/
def toolMessages (ms : List ModelMessage) : List ModelMessage := ms.filter (·.role = .tool)

/-- What a message adds to the marks. -/
def Protocol.marksOf (p : Protocol) (m : ModelMessage) : List Bool :=
  if m.role = .tool then [p.mark m] else []

theorem Protocol.map_mark (p : Protocol) (ms : List ModelMessage) :
    (toolMessages ms).map p.mark = ms.flatMap p.marksOf := by
  unfold toolMessages
  induction ms with
  | nil => rfl
  | cons m ms ih =>
    rw [List.flatMap_cons, ← ih]
    unfold Protocol.marksOf
    by_cases h : m.role = .tool
    · rw [List.filter_cons_of_pos (by simpa using h), if_pos h]
      rfl
    · rw [List.filter_cons_of_neg (by simpa using h), if_neg h]
      rfl

/-! ## OpenAI -/

theorem startsMarked_toolResultText (m : ModelMessage) :
    startsMarked (toolResultText m) = (m.isError || startsMarked m.content) := by
  unfold toolResultText
  cases m.isError with
  | true =>
    rw [if_pos rfl, Bool.true_or]
    unfold startsMarked
    rw [String.toList_append, List.isPrefixOf_iff_prefix]
    exact List.prefix_append _ _
  | false => rfl

namespace OpenAIAdapter

theorem messageMarks_convert (m : ModelMessage) :
    messageMarks (convertMessage m) = Protocol.marksOf .openai m := by
  unfold Protocol.marksOf convertMessage
  by_cases ht : m.role = .tool
  · rw [if_neg (by simp [ht]), if_pos ht, if_pos ht]
    show [startsMarked (toolResultText m)] = _
    rw [startsMarked_toolResultText]
    rfl
  · rw [if_neg ht, if_neg ht]
    split
    · rfl
    · cases hr : m.role with
      | tool => exact absurd hr ht
      | _ => rfl

theorem marks_convert (ms : List ModelMessage) :
    marks (convertMessages ms) = ms.flatMap (Protocol.marksOf .openai) := by
  unfold marks convertMessages
  rw [List.flatMap_map]
  exact List.flatMap_congr fun m _ => messageMarks_convert m

end OpenAIAdapter

/-! ## Lists of blocks -/

/-- What `extend` makes of the value a key is bound to. -/
def extended (xs : List Json) : Json → Json
  | .arr ys => .arr (ys ++ xs)
  | j => j

theorem get?_extend (key : String) (xs : List Json) (j : Json) :
    (j.extend key xs).get? key = (j.get? key).map (extended xs) := by
  cases j with
  | obj fields =>
    show Json.lookup key (fields.map _) = (Json.lookup key fields).map _
    induction fields with
    | nil => rfl
    | cons f fields ih =>
      obtain ⟨k, v⟩ := f
      rw [List.map_cons]
      by_cases hk : k = key
      · subst hk
        have hcons (v : Json) (fs : List (String × Json)) :
            Json.lookup k ((k, v) :: fs) = (Json.lookup k fs).or (some v) := by
          rw [Json.lookup, if_pos rfl]
        cases v with
        | arr ys =>
          simp only [if_true]
          rw [hcons, hcons, ih]
          cases Json.lookup k fields <;> rfl
        | _ =>
          dsimp only
          rw [hcons, hcons, ih]
          cases Json.lookup k fields <;> rfl
      · have hcons (v : Json) (fs : List (String × Json)) :
            Json.lookup key ((k, v) :: fs) = Json.lookup key fs := by
          rw [Json.lookup, if_neg hk, Option.or_none]
        cases v with
        | arr ys =>
          dsimp only
          rw [if_neg hk, hcons, hcons, ih]
        | _ =>
          dsimp only
          rw [hcons, hcons, ih]
  | _ => rfl

theorem list?_extend {key : String} {xs ys : List Json} {j : Json} (h : j.list? key = some ys) :
    (j.extend key xs).list? key = some (ys ++ xs) := by
  unfold Json.list? at h ⊢
  rw [get?_extend]
  split at h
  · rename_i zs hz
    cases h
    rw [hz]
    rfl
  · cases h

/-- What the last of a list's items tells grows by what is put into it. -/
theorem flatMap_extend_last {key : String} {marks : Json → List Bool} {pre : List Json} {last : Json}
    {ys xs : List Json} (h : last.list? key = some ys) :
    (pre ++ [last.extend key xs]).flatMap (fun j => ((j.list? key).getD []).flatMap marks) =
      (pre ++ [last]).flatMap (fun j => ((j.list? key).getD []).flatMap marks) ++
        xs.flatMap marks := by
  rw [List.flatMap_append, List.flatMap_append, List.flatMap_singleton, List.flatMap_singleton,
    list?_extend h, h, Option.getD_some, Option.getD_some, List.flatMap_append, List.append_assoc]

/-! ## Anthropic -/

namespace AnthropicAdapter

theorem blockMarks_resultBlock (m : ModelMessage) : blockMarks (resultBlock m) = [m.isError] := by
  unfold resultBlock
  cases m.isError <;> by_cases hc : m.content = "" <;>
    simp [hc, blockMarks, Json.str?, Json.get?, Json.lookup]

theorem marks_concat (messages : List Json) (fields : List (String × Json)) (blocks : List Json)
    (h : (Json.obj fields).list? "content" = some blocks) :
    marks (messages ++ [.obj fields]) = marks messages ++ blocks.flatMap blockMarks := by
  unfold marks
  rw [List.flatMap_append, List.flatMap_singleton, h, Option.getD_some]

theorem marks_convertStep (messages : List Json) (m : ModelMessage) :
    marks (convertStep messages m) = marks messages ++ Protocol.marksOf .anthropic m := by
  unfold Protocol.marksOf convertStep
  by_cases hs : m.role = .system
  · rw [if_pos hs, if_neg (by simp [hs]), List.append_nil]
  rw [if_neg hs]
  by_cases ht : m.role = .tool
  · rw [if_neg (by simp [ht]), if_pos ht, if_pos ht]
    show _ = marks messages ++ [m.isError]
    rw [← blockMarks_resultBlock m]
    by_cases htakes : takesResult messages = true
    · rw [if_pos htakes]
      rcases List.eq_nil_or_concat messages with rfl | ⟨pre, last, rfl⟩
      · cases htakes
      · unfold takesResult at htakes
        rw [List.concat_eq_append, List.getLast?_concat] at htakes
        simp only [decide_eq_true_eq] at htakes
        obtain ⟨ys, hys⟩ := Option.isSome_iff_exists.mp htakes.2
        rw [List.concat_eq_append, List.dropLast_concat, List.getLast?_concat, Option.toList_some,
          List.map_singleton]
        unfold marks
        rw [flatMap_extend_last hys, List.flatMap_singleton]
    · rw [if_neg htakes, marks_concat _ _ [resultBlock m] rfl, List.flatMap_singleton]
  · rw [if_neg ht, if_neg ht, List.append_nil]
    split
    · rw [marks_concat _ _ ((if m.content = "" then [] else [textBlock m.content]) ++
        m.toolCalls.map toolUse) rfl]
      have hnone : ((if m.content = "" then [] else [textBlock m.content]) ++
          m.toolCalls.map toolUse).flatMap blockMarks = [] := by
        refine List.flatMap_eq_nil_iff.mpr fun b hb => ?_
        rcases List.mem_append.mp hb with hb | hb
        · split at hb
          · cases hb
          · rw [List.mem_singleton.mp hb]
            rfl
        · obtain ⟨tc, -, rfl⟩ := List.mem_map.mp hb
          rfl
      rw [hnone, List.append_nil]
    · unfold marks
      rw [List.flatMap_append, List.flatMap_singleton]
      exact List.append_nil _

theorem marks_convert (ms : List ModelMessage) :
    marks (convertMessages ms) = ms.flatMap (Protocol.marksOf .anthropic) := by
  have hfold (messages : List Json) :
      marks (ms.foldl convertStep messages) =
        marks messages ++ ms.flatMap (Protocol.marksOf .anthropic) := by
    induction ms generalizing messages with
    | nil => exact (List.append_nil _).symm
    | cons m ms ih =>
      rw [List.foldl_cons, ih, marks_convertStep, List.append_assoc, List.flatMap_cons]
  exact hfold []

end AnthropicAdapter

/-! ## Gemini -/

namespace GeminiAdapter

theorem partMarks_responsePart (callNames : List (String × String)) (m : ModelMessage) :
    partMarks (responsePart callNames m) = [m.isError] := by
  unfold responsePart
  cases m.isError <;> simp [partMarks, Json.get?, Json.lookup]

theorem partMarks_said (m : ModelMessage) :
    ((if m.content = "" then [] else [Json.obj [("text", .str m.content)]]) ++
      m.toolCalls.map callPart).flatMap partMarks = [] := by
  refine List.flatMap_eq_nil_iff.mpr fun b hb => ?_
  rcases List.mem_append.mp hb with hb | hb
  · split at hb
    · cases hb
    · rw [List.mem_singleton.mp hb]
      rfl
  · obtain ⟨tc, -, rfl⟩ := List.mem_map.mp hb
    unfold callPart partMarks
    by_cases hsig : tc.signature = "" <;> simp [hsig, Json.get?, Json.lookup]

/-- Every content has its parts. -/
def Parted (contents : List Json) : Prop := ∀ j ∈ contents, (j.list? "parts").isSome

theorem Parted.concat {contents : List Json} (h : Parted contents) {j : Json}
    (hj : (j.list? "parts").isSome) : Parted (contents ++ [j]) := by
  intro x hx
  rcases List.mem_append.mp hx with hx | hx
  · exact h x hx
  · rw [List.mem_singleton.mp hx]
    exact hj

theorem marks_concat (contents : List Json) (r : String) (parts : List Json) :
    marks (contents ++ [.obj [("role", .str r), ("parts", .arr parts)]]) =
      marks contents ++ parts.flatMap partMarks := by
  unfold marks
  rw [List.flatMap_append, List.flatMap_singleton]
  rfl

theorem marks_convertStep (c : Conversion) (m : ModelMessage) (h : Parted c.contents) :
    marks (convertStep c m).contents = marks c.contents ++ Protocol.marksOf .gemini m ∧
      Parted (convertStep c m).contents := by
  unfold Protocol.marksOf convertStep
  by_cases hs : m.role = .system
  · rw [if_pos hs, if_neg (by simp [hs]), List.append_nil]
    exact ⟨rfl, h⟩
  rw [if_neg hs]
  by_cases ht : m.role = .tool
  · rw [if_pos ht, if_pos ht]
    show _ = marks c.contents ++ [m.isError] ∧ _
    rw [← partMarks_responsePart c.callNames m]
    dsimp only
    by_cases htakes : takesResult c.contents = true
    · rw [if_pos htakes]
      dsimp only
      rcases List.eq_nil_or_concat c.contents with hnil | ⟨pre, last, hc⟩
      · rw [hnil] at htakes
        cases htakes
      · rw [hc, List.concat_eq_append] at h ⊢
        obtain ⟨ys, hys⟩ := Option.isSome_iff_exists.mp
          (h last (List.mem_append_right _ (List.mem_singleton.mpr rfl)))
        rw [List.dropLast_concat, List.getLast?_concat, Option.toList_some, List.map_singleton]
        refine ⟨?_, Parted.concat (fun j hj => h j (List.mem_append_left _ hj)) ?_⟩
        · unfold marks
          rw [flatMap_extend_last hys, List.flatMap_singleton]
        · rw [list?_extend hys]
          rfl
    · rw [if_neg htakes]
      dsimp only
      rw [marks_concat, List.flatMap_singleton]
      exact ⟨rfl, h.concat rfl⟩
  · rw [if_neg ht, if_neg ht, List.append_nil]
    dsimp only
    rw [marks_concat, partMarks_said, List.append_nil]
    exact ⟨rfl, h.concat rfl⟩

theorem marks_convert (ms : List ModelMessage) :
    marks (convertMessages ms) = ms.flatMap (Protocol.marksOf .gemini) := by
  have hfold (c : Conversion) (h : Parted c.contents) :
      marks (ms.foldl convertStep c).contents =
        marks c.contents ++ ms.flatMap (Protocol.marksOf .gemini) := by
    induction ms generalizing c with
    | nil => exact (List.append_nil _).symm
    | cons m ms ih =>
      obtain ⟨hm, hparted⟩ := marks_convertStep c m h
      rw [List.foldl_cons, ih _ hparted, hm, List.append_assoc, List.flatMap_cons]
  exact hfold {} (List.forall_mem_nil _)

end GeminiAdapter

/-- **Results on the wire.** A request's results are those of its tool messages,
in order, each marked as its message is. -/
theorem Protocol.marks_convert (p : Protocol) (ms : List ModelMessage) :
    p.marks (p.convertMessages ms) = (toolMessages ms).map p.mark := by
  rw [p.map_mark]
  cases p with
  | openai => exact OpenAIAdapter.marks_convert ms
  | anthropic => exact AnthropicAdapter.marks_convert ms
  | gemini => exact GeminiAdapter.marks_convert ms

end Northstack
