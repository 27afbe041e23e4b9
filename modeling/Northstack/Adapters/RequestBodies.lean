import Northstack.Adapters.MessageConversion
import Northstack.Domain.ModelProfile

/-!
# Request bodies

`_build_body` of the three adapters (adapters/providers/gateway.py) for requests without tools
and images, and the encoding of what they build. The caller's schema is a Python value and put
into the body as it is, so it may hold a set, for which `json.dumps` raises. An integer is taken
to be short enough to write, as one read from a configuration is.

**Result.** `buildBody_encodes`: whatever the protocol, a body can be encoded if and only if no
schema is put into it or the schema can be.
-/
namespace Northstack

/-- A Python value that may become a part of a body. -/
inductive PyValue where
  | null
  | bool (b : Bool)
  | int (i : Int)
  | float (x : PyFloat)
  | str (s : String)
  | list (xs : List PyValue)
  | dict (fields : List (String × PyValue))
  | set (xs : List PyValue)

namespace PyValue

mutual

def ofJson : Json → PyValue
  | .null => .null
  | .bool b => .bool b
  | .int i => .int i
  | .float x => .float x
  | .str s => .str s
  | .arr xs => .list (ofItems xs)
  | .obj fields => .dict (ofFields fields)

def ofItems : List Json → List PyValue
  | [] => []
  | x :: xs => ofJson x :: ofItems xs

def ofFields : List (String × Json) → List (String × PyValue)
  | [] => []
  | (k, x) :: fs => (k, ofJson x) :: ofFields fs

end

mutual

/-- What `json.dumps` writes; it raises on a set. -/
def encode : PyValue → Option Json
  | .null => some .null
  | .bool b => some (.bool b)
  | .int i => some (.int i)
  | .float x => some (.float x)
  | .str s => some (.str s)
  | .list xs => (encodeItems xs).map .arr
  | .dict fields => (encodeFields fields).map .obj
  | .set _ => none

def encodeItems : List PyValue → Option (List Json)
  | [] => some []
  | v :: vs =>
    match encode v, encodeItems vs with
    | some x, some xs => some (x :: xs)
    | _, _ => none

def encodeFields : List (String × PyValue) → Option (List (String × Json))
  | [] => some []
  | (k, v) :: fs =>
    match encode v, encodeFields fs with
    | some x, some xs => some ((k, x) :: xs)
    | _, _ => none

end

/-- `json.dumps` does not raise. -/
def Encodable (v : PyValue) : Prop := v.encode.isSome = true

instance (v : PyValue) : Decidable v.Encodable := inferInstanceAs (Decidable (_ = _))

section

variable {vs : List PyValue} {fields : List (String × PyValue)}

@[simp] theorem encodable_bool (b : Bool) : (PyValue.bool b).Encodable := by
  simp [Encodable, encode]

@[simp] theorem encodable_int (i : Int) : (PyValue.int i).Encodable := by
  simp [Encodable, encode]

@[simp] theorem encodable_float (x : PyFloat) : (PyValue.float x).Encodable := by
  simp [Encodable, encode]

@[simp] theorem encodable_str (s : String) : (PyValue.str s).Encodable := by
  simp [Encodable, encode]

@[simp] theorem not_encodable_set : ¬ (PyValue.set vs).Encodable := by simp [Encodable, encode]

theorem encodeItems_isSome : (encodeItems vs).isSome = true ↔ ∀ v ∈ vs, v.Encodable := by
  induction vs with
  | nil => simp [encodeItems]
  | cons v vs ih =>
    rw [List.forall_mem_cons, ← ih, encodeItems, Encodable]
    cases encode v with
    | none => simp
    | some x => cases encodeItems vs <;> simp

theorem encodeFields_isSome :
    (encodeFields fields).isSome = true ↔ ∀ f ∈ fields, f.2.Encodable := by
  induction fields with
  | nil => simp [encodeFields]
  | cons f fields ih =>
    rw [List.forall_mem_cons, ← ih, encodeFields, Encodable]
    cases encode f.2 with
    | none => simp
    | some x => cases encodeFields fields <;> simp

@[simp] theorem encodable_list : (PyValue.list vs).Encodable ↔ ∀ v ∈ vs, v.Encodable := by
  rw [← encodeItems_isSome, Encodable, encode, Option.isSome_map]

@[simp] theorem encodable_dict :
    (PyValue.dict fields).Encodable ↔ ∀ f ∈ fields, f.2.Encodable := by
  rw [← encodeFields_isSome, Encodable, encode, Option.isSome_map]

end

mutual

/-- JSON is encoded as it was. -/
theorem encode_ofJson (j : Json) : encode (ofJson j) = some j := by
  cases j with
  | arr xs => rw [ofJson, encode, encodeItems_ofItems]; rfl
  | obj fields => rw [ofJson, encode, encodeFields_ofFields]; rfl
  | _ => rfl

theorem encodeItems_ofItems (xs : List Json) : encodeItems (ofItems xs) = some xs := by
  cases xs with
  | nil => rfl
  | cons x xs => rw [ofItems, encodeItems, encode_ofJson, encodeItems_ofItems]

theorem encodeFields_ofFields (fs : List (String × Json)) :
    encodeFields (ofFields fs) = some fs := by
  cases fs with
  | nil => rfl
  | cons f fs =>
    obtain ⟨k, x⟩ := f
    rw [ofFields, encodeFields, encode_ofJson, encodeFields_ofFields]

end

@[simp] theorem encodable_ofJson (j : Json) : (ofJson j).Encodable := by
  unfold Encodable
  rw [encode_ofJson]
  rfl

theorem encodable_items (xs : List Json) : (PyValue.list (xs.map ofJson)).Encodable := by
  rw [encodable_list, List.forall_mem_map]
  exact fun x _ => encodable_ofJson x

/-- `fields.get(key)`; a `dict` has one value for a key. -/
def field (key : String) (fields : List (String × PyValue)) : PyValue :=
  (fields.lookup key).getD .null

/-- The names a list of texts holds. -/
def names : PyValue → List String
  | .list xs => xs.filterMap fun
      | .str s => some s
      | _ => none
  | _ => []

def keys : PyValue → List String
  | .dict fields => fields.map Prod.fst
  | _ => []

/-- An object that is closed and requires all its properties, or something else. -/
def closed (fields : List (String × PyValue)) : Bool :=
  match field "type" fields, field "additionalProperties" fields with
  | .str "object", .bool false =>
    let properties := keys (field "properties" fields)
    let required := names (field "required" fields)
    properties.all (· ∈ required) && required.all (· ∈ properties)
  | .str "object", _ => false
  | _, _ => true

mutual

/-- `_strict_ready` (gateway.py:246-275), for keywords with values of the kinds a JSON schema
has under them. -/
def strictReady : PyValue → Bool
  | .dict fields => closed fields && nestedReady fields
  | _ => true

/-- What is nested under the keywords. -/
def nestedReady : List (String × PyValue) → Bool
  | [] => true
  | (key, v) :: fs =>
    (if key ∈ ["properties", "$defs", "definitions"] then
      match v with
      | .dict nested => valuesReady nested
      | _ => true
    else if key ∈ ["anyOf", "allOf", "oneOf", "prefixItems"] then
      match v with
      | .list nested => allReady nested
      | _ => true
    else if key = "items" then strictReady v
    else true) && nestedReady fs

def valuesReady : List (String × PyValue) → Bool
  | [] => true
  | (_, v) :: fs => strictReady v && valuesReady fs

def allReady : List PyValue → Bool
  | [] => true
  | v :: vs => strictReady v && allReady vs

end

end PyValue

/-! ## Requests -/

/-- `ModelRequest` (wire.py:195-234) without tools; its profile is given apart. -/
structure ModelRequest where
  messages : List ModelMessage
  system : String := ""
  outputJsonSchema : Option (List (String × PyValue)) := none
  maxOutputTokens : Option Int := none
  temperature : Option PyFloat := none
  seed : Option Int := none

namespace ModelRequest

def getMaxTokens (r : ModelRequest) (profileMax : Int) : Int := r.maxOutputTokens.getD profileMax

/-- `_should_send_json_schema` (gateway.py:238-243), with what is sent. -/
def sentSchema (r : ModelRequest) (profile : Config.ModelProfile) :
    Option (List (String × PyValue)) :=
  if .nativeJsonSchema ∈ profile.capabilities then r.outputJsonSchema else none

/-- The system's prompt and messages, if they have a text. -/
def systemParts (r : ModelRequest) : List String :=
  (if r.system = "" then [] else [r.system]) ++
    (r.messages.filter fun m => m.role = .system ∧ m.content ≠ "").map (·.content)

end ModelRequest

/-- `body[key] = value`, if there is a value. -/
def optionalField {α : Type} (key : String) (write : α → PyValue) (value : Option α) :
    List (String × PyValue) :=
  value.toList.map fun x => (key, write x)

/-- `OpenAIAdapter._build_body` (gateway.py:1284-1325) -/
def OpenAIAdapter.buildBody (r : ModelRequest) (profile : Config.ModelProfile) : PyValue :=
  let system := if r.system = "" then [] else
    [Json.obj [("role", .str "system"), ("content", .str r.system)]]
  .dict ([("model", .str profile.model),
      ("messages", .list ((system ++ convertMessages r.messages).map .ofJson)),
      (profile.tokenLimitParam.value, .int (r.getMaxTokens profile.maxOutputTokens))] ++
    optionalField "response_format" (fun schema =>
      .dict [("type", .str "json_schema"),
        ("json_schema", .dict [("name", .str "output"),
          ("strict", .bool (PyValue.strictReady (.dict schema))), ("schema", .dict schema)])])
      (r.sentSchema profile) ++
    optionalField "temperature" .float r.temperature ++
    optionalField "seed" .int r.seed)

namespace AnthropicAdapter

/-- `_EPHEMERAL` -/
def ephemeral : Json := .obj [("type", .str "ephemeral")]

/-- `content[-1]["cache_control"] = _EPHEMERAL` -/
def markBlock : Json → Json
  | .obj fields => .obj (fields ++ [("cache_control", ephemeral)])
  | j => j

def markContent : Json → Json
  | .str "" => .str ""
  | .str text => .arr [markBlock (textBlock text)]
  | .arr blocks => .arr (blocks.dropLast ++ blocks.getLast?.toList.map markBlock)
  | j => j

/-- `_mark_cache_breakpoint` (gateway.py:1450-1466) -/
def markCacheBreakpoint : Json → Json
  | .obj fields => .obj (fields.map fun f => if f.1 = "content" then (f.1, markContent f.2) else f)
  | j => j

/-- `AnthropicAdapter._build_body` (gateway.py:1518-1568) -/
def buildBody (r : ModelRequest) (profile : Config.ModelProfile) : PyValue :=
  let messages := convertMessages r.messages
  let caching := Capability.promptCaching ∈ profile.capabilities
  let marked :=
    if caching then messages.dropLast ++ messages.getLast?.toList.map markCacheBreakpoint
    else messages
  let system :=
    if r.systemParts = [] then none
    else
      let text := PyText.join "\n\n" r.systemParts
      some (if caching then Json.arr [markBlock (textBlock text)] else .str text)
  .dict ([("model", .str profile.model),
      ("max_tokens", .int (r.getMaxTokens profile.maxOutputTokens)),
      ("messages", .list (marked.map .ofJson))] ++
    optionalField "system" .ofJson system ++
    optionalField "output_config" (fun schema =>
      .dict [("format", .dict [("type", .str "json_schema"), ("schema", .dict schema)])])
      (r.sentSchema profile) ++
    optionalField "temperature" .float r.temperature)

end AnthropicAdapter

/-- `GeminiAdapter._build_body` (gateway.py:1747-1787) -/
def GeminiAdapter.buildBody (r : ModelRequest) (profile : Config.ModelProfile) : PyValue :=
  let generation := [("maxOutputTokens", .int (r.getMaxTokens profile.maxOutputTokens))] ++
    optionalField "temperature" .float r.temperature ++
    optionalField "seed" .int r.seed ++
    optionalField "responseMimeType" .str
      ((r.sentSchema profile).map fun _ => "application/json") ++
    optionalField "responseJsonSchema" .dict (r.sentSchema profile)
  let system :=
    if r.systemParts = [] then none
    else some (Json.obj
      [("parts", .arr [.obj [("text", .str (PyText.join "\n\n" r.systemParts))]])])
  .dict ([("contents", .list ((convertMessages r.messages).map .ofJson)),
      ("generationConfig", .dict generation)] ++
    optionalField "systemInstruction" .ofJson system)

/-- The body for the profile's protocol. -/
def buildBody (r : ModelRequest) (profile : Config.ModelProfile) : PyValue :=
  match profile.protocol with
  | .openaiChat => OpenAIAdapter.buildBody r profile
  | .anthropicMessages => AnthropicAdapter.buildBody r profile
  | .geminiGenerateContent => GeminiAdapter.buildBody r profile

/-! ## Encoding -/

section

variable {α : Type} {key : String} {write : α → PyValue} {value : Option α} {r : ModelRequest}
  {profile : Config.ModelProfile}

theorem forall_mem_optionalField :
    (∀ f ∈ optionalField key write value, f.2.Encodable) ↔ ∀ x ∈ value, (write x).Encodable := by
  cases value <;> simp [optionalField]

/-- **Encoding a body** fails over a schema that is put into it, and over nothing else. -/
theorem buildBody_encodes : (buildBody r profile).Encodable ↔
    ∀ schema ∈ r.sentSchema profile, (PyValue.dict schema).Encodable := by
  unfold buildBody
  split
  · unfold OpenAIAdapter.buildBody
    simp only [PyValue.encodable_dict, List.forall_mem_append, forall_mem_optionalField,
      List.forall_mem_cons, PyValue.encodable_items]
    simp
  · unfold AnthropicAdapter.buildBody
    simp only [PyValue.encodable_dict, List.forall_mem_append, forall_mem_optionalField]
    simp
  · unfold GeminiAdapter.buildBody
    simp only [PyValue.encodable_dict, List.forall_mem_append, forall_mem_optionalField,
      List.forall_mem_cons]
    simp

end

end Northstack
