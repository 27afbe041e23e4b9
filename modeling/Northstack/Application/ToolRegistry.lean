import Northstack.Adapters.GeminiSchemas
import Northstack.Application.Worker
import Northstack.Domain.NorthStackConfig

/-!
# The registry of tools

The tools are declared once: seven fixed ones and one for each command profile. What a
model is offered, what the worker dispatches, which calls need the mutation lease and
what a call does are all read off this list.

**Results.**
* `withDefaults_nodup`, `mem_dispatchable`: the advertised tools have distinct names, and
  these are the names dispatched.
* `declared_iff_accepted`: the declared schema of a tool admits exactly the arguments the
  worker's own check accepts.
* `effects_declared`: only a call of a tool marked mutating writes or runs a command, and
  it carries the lease where it writes.
-/
namespace Northstack

open Config JsonSchema

/-! ## The declarations -/

def stringSchema : Json := .obj [("type", .str "string")]

/-- The names of the properties `_schema` declares. `registry.py:49-51` -/
def schemaNames (required : List String) (optional : String) : List String :=
  if optional = "" ∨ optional ∈ required then required else required ++ [optional]

/-- `_schema` (registry.py:41-57) -/
def toolSchema (required : List String) (optional : String := "") : List (String × Json) :=
  [("type", .str "object"),
    ("properties", .obj ((schemaNames required optional).map fun f => (f, stringSchema))),
    ("required", .arr (required.map .str)), ("additionalProperties", .bool false)]

/-- `registry.py:66-71` -/
def commandParams : List (String × Json) :=
  [("type", .str "object"), ("properties", .obj []), ("required", .arr []),
    ("additionalProperties", .bool false)]

/-- The classes of tools, a command with the name it has in the configuration. -/
inductive ToolKind
  | read
  | write
  | create
  | replace
  | list
  | search
  | webFetch
  | command (cmdName : String) (profile : CommandConfig)

/-- What a tool declares of itself. `registry.py:136-277` -/
def ToolKind.tool : ToolKind → Tool
  | .read =>
    { name := "read", description := "Read a file at a workspace-relative path."
      parameters := toolSchema ["path"], mutating := false }
  | .write =>
    { name := "write"
      description := "Write bytes to an existing file at a workspace-relative path."
      parameters := toolSchema ["path", "content"], mutating := true }
  | .create =>
    { name := "create"
      description := "Atomically create a new file at a workspace-relative path."
      parameters := toolSchema ["path", "content"], mutating := true }
  | .replace =>
    { name := "replace"
      description := "Replace all occurrences of ``old`` with ``new`` in a file."
      parameters := toolSchema ["path", "old", "new"], mutating := true }
  | .list =>
    { name := "list", description := "List entries under a workspace-relative directory path."
      parameters := toolSchema ["path"], mutating := false }
  | .search =>
    { name := "search", description := "Search file names for a pattern under a directory."
      parameters := toolSchema ["pattern"] "path", mutating := false }
  | .webFetch =>
    { name := "web_fetch"
      description := "Fetch a public URL with SSRF protection; returns the body text."
      parameters := toolSchema ["url"], mutating := false }
  | .command cmdName profile =>
    { name := "cmd_" ++ cmdName
      description := "Execute configured command: " ++ cmdName ++ " (" ++
        " ".intercalate (profile.argv.take 2) ++ ")"
      parameters := commandParams, mutating := true }

/-- The `dict` of command profiles, which `from_config` copies from the configuration. -/
structure CommandProfiles where
  entries : List (String × CommandConfig)
  distinct : (entries.map Prod.fst).Nodup

/-- `command_profiles.get(name)` -/
def CommandProfiles.get? (profiles : CommandProfiles) (name : String) : Option CommandConfig :=
  (profiles.entries.find? fun p => p.1 = name).map Prod.snd

/-- `ToolRegistry.with_defaults` (registry.py:287-312) -/
def ToolKind.withDefaults (profiles : CommandProfiles) : List ToolKind :=
  [.read, .write, .create, .replace, .list, .search, .webFetch] ++
    profiles.entries.map fun p => .command p.1 p.2

/-- The registry as the worker has it. -/
def ToolRegistry.withDefaults (profiles : CommandProfiles) : ToolRegistry :=
  (ToolKind.withDefaults profiles).map ToolKind.tool

/-- `_by_name`: the last tool of a name. `registry.py:285` -/
def ToolKind.byName (kinds : List ToolKind) (name : String) : Option ToolKind :=
  kinds.reverse.find? (·.tool.name = name)

/-- `ToolRegistry.dispatchable_names` -/
def ToolKind.dispatchableNames (kinds : List ToolKind) : Finset String :=
  (kinds.map (·.tool.name)).toFinset

/-! ## Execution -/

/-- `ToolContext`, as far as it decides what a call does. -/
structure ToolContext where
  webReader : Bool
  commandProfiles : CommandProfiles
  lease : Option String

/-- What a call asks of the workspace or of the web, with the values passed on; `failed`
and `raised` ask nothing. -/
inductive ToolAction
  | read (path : Json)
  | list (path : Json)
  | search (pattern path : Json)
  | write (path : Json) (content : String) (lease : Option String)
  | create (path : Json) (content : String) (lease : Option String)
  | replace (path old new : Json) (lease : Option String)
  | fetch (url : Json)
  | executeCommand (profile : CommandConfig)
  | failed (operation error : String)
  | raised

/-- `args.get(key, default)` -/
def argument (args : List (String × Json)) (key default : String) : Json :=
  (Json.lookup key args).getD (.str default)

/-- What is done with `args.get("content", "").encode("utf-8")`, which only a text has. -/
def withContent (args : List (String × Json)) (f : String → ToolAction) : ToolAction :=
  match argument args "content" "" with
  | .str content => f content
  | _ => .raised

/-- `execute` of each class. `registry.py:145-277` -/
def ToolKind.execute (ctx : ToolContext) (args : List (String × Json)) : ToolKind → ToolAction
  | .read => .read (argument args "path" ".")
  | .list => .list (argument args "path" ".")
  | .search => .search (argument args "pattern" "") (argument args "path" ".")
  | .write => withContent args fun content => .write (argument args "path" "") content ctx.lease
  | .create => withContent args fun content => .create (argument args "path" "") content ctx.lease
  | .replace =>
    .replace (argument args "path" "") (argument args "old" "") (argument args "new" "") ctx.lease
  | .webFetch =>
    if ctx.webReader then .fetch (argument args "url" "")
    else .failed "web_fetch" "Web fetch not available"
  | .command cmdName _ =>
    match ctx.commandProfiles.get? cmdName with
    | some profile => .executeCommand profile
    | none => .failed "cmd" ("Unknown command profile: " ++ cmdName)

/-- `ToolRegistry.execute` (registry.py:340-347); `none` for a name without a tool. -/
def ToolKind.dispatch (kinds : List ToolKind) (name : String) (ctx : ToolContext)
    (args : List (String × Json)) : Option ToolAction :=
  (byName kinds name).map (·.execute ctx args)

/-- The lease a call that changes the workspace is made under, if it is one; a command
runs without being asked for one. -/
def ToolAction.writesUnder : ToolAction → Option (Option String)
  | .write _ _ lease => some lease
  | .create _ _ lease => some lease
  | .replace _ _ _ lease => some lease
  | _ => none

/-- The action may change the workspace. -/
def ToolAction.changes : ToolAction → Bool
  | .executeCommand _ => true
  | action => action.writesUnder.isSome

/-! ## One list -/

theorem name_fixed {cmdName name : String} (h : name.toList.take 4 ≠ "cmd_".toList) :
    "cmd_" ++ cmdName ≠ name := by
  intro heq
  apply h
  rw [← heq, String.toList_append]
  exact List.take_left' (by decide)

theorem cmd_inj {a b : String} (h : "cmd_" ++ a = "cmd_" ++ b) : a = b := by
  have hlist := congrArg String.toList h
  rw [String.toList_append, String.toList_append] at hlist
  exact String.toList_inj.mp (List.append_cancel_left hlist)

theorem withDefaults_nodup (profiles : CommandProfiles) :
    ((ToolKind.withDefaults profiles).map (·.tool.name)).Nodup := by
  unfold ToolKind.withDefaults
  rw [List.map_append, List.map_map, List.nodup_append]
  refine ⟨by decide, ?_, ?_⟩
  · have hmap : profiles.entries.map ((fun k => k.tool.name) ∘ fun p => ToolKind.command p.1 p.2) =
        (profiles.entries.map Prod.fst).map ("cmd_" ++ ·) := by
      rw [List.map_map]
      rfl
    rw [hmap]
    exact profiles.distinct.map fun _ _ h => cmd_inj h
  · intro a ha b hb
    obtain ⟨p, -, rfl⟩ := List.mem_map.mp hb
    have hfixed : ∀ name ∈ [ToolKind.read, .write, .create, .replace, .list, .search,
        .webFetch].map (·.tool.name), name.toList.take 4 ≠ "cmd_".toList := by decide
    exact (name_fixed (hfixed a ha)).symm

/-- The only tool of its name in a list of distinct names. -/
theorem find_of_nodup {α : Type} (name : α → String) {xs : List α} (h : (xs.map name).Nodup)
    {x : α} (hx : x ∈ xs) : xs.find? (fun y => name y = name x) = some x := by
  induction xs with
  | nil => cases hx
  | cons y ys ih =>
    rw [List.map_cons, List.nodup_cons] at h
    rcases List.mem_cons.mp hx with rfl | hmem
    · rw [List.find?_cons_of_pos (by simp)]
    · have hne : name y ≠ name x := by
        intro heq
        exact h.1 (heq ▸ List.mem_map_of_mem hmem)
      rw [List.find?_cons_of_neg (by simpa using hne), ih h.2 hmem]

variable {profiles : CommandProfiles} {kind : ToolKind} {name : String}

theorem byName_mem (h : kind ∈ ToolKind.withDefaults profiles) :
    ToolKind.byName (ToolKind.withDefaults profiles) kind.tool.name = some kind := by
  have hnodup : ((ToolKind.withDefaults profiles).reverse.map (·.tool.name)).Nodup := by
    rw [List.map_reverse]
    exact List.nodup_reverse.mpr (withDefaults_nodup profiles)
  exact find_of_nodup (fun k : ToolKind => k.tool.name) hnodup (List.mem_reverse.mpr h)

theorem byName_cases (h : ToolKind.byName (ToolKind.withDefaults profiles) name = some kind) :
    kind ∈ ToolKind.withDefaults profiles ∧ kind.tool.name = name :=
  ⟨List.mem_reverse.mp (List.mem_of_find?_eq_some h), by simpa using List.find?_some h⟩

theorem get_mem (h : kind ∈ ToolKind.withDefaults profiles) :
    (ToolRegistry.withDefaults profiles).get kind.tool.name = some kind.tool := by
  have hnodup : ((ToolRegistry.withDefaults profiles).map (·.name)).Nodup := by
    unfold ToolRegistry.withDefaults
    rw [List.map_map]
    exact withDefaults_nodup profiles
  exact find_of_nodup Tool.name hnodup (List.mem_map_of_mem h)

theorem mem_advertised {t : ToolDefinition} :
    t ∈ (ToolRegistry.withDefaults profiles).advertised ↔
      ∃ kind ∈ ToolKind.withDefaults profiles, t =
        { name := kind.tool.name, description := kind.tool.description
          parameters := kind.tool.parameters } := by
  unfold ToolRegistry.advertised ToolRegistry.withDefaults
  rw [List.map_map, List.mem_map]
  apply exists_congr
  intro kind
  exact and_congr Iff.rfl eq_comm

/-- The dispatched names are the advertised ones. -/
theorem mem_dispatchable : name ∈ ToolKind.dispatchableNames (ToolKind.withDefaults profiles) ↔
    ∃ t ∈ (ToolRegistry.withDefaults profiles).advertised, t.name = name := by
  unfold ToolKind.dispatchableNames
  rw [List.mem_toFinset, List.mem_map]
  apply Iff.intro
  · intro h
    obtain ⟨kind, hkind, hname⟩ := h
    exact ⟨_, mem_advertised.mpr ⟨kind, hkind, rfl⟩, hname⟩
  · intro h
    obtain ⟨t, ht, hname⟩ := h
    obtain ⟨kind, hkind, rfl⟩ := mem_advertised.mp ht
    exact ⟨kind, hkind, hname⟩

/-! ## What a call does -/

theorem get_profile {p : String × CommandConfig} (h : p ∈ profiles.entries) :
    profiles.get? p.1 = some p.2 := by
  unfold CommandProfiles.get?
  rw [find_of_nodup Prod.fst profiles.distinct h]
  rfl

/-- What is done with a content writes it under the lease, unless there is no text. -/
theorem withContent_cases (ctx : ToolContext) (args : List (String × Json))
    {f : String → ToolAction} (hf : ∀ c, (f c).writesUnder = some ctx.lease ∧
      (f c).changes = true) :
    withContent args f = .raised ∨
      (withContent args f).writesUnder = some ctx.lease ∧ (withContent args f).changes = true := by
  unfold withContent
  split
  · exact .inr (hf _)
  · exact .inl rfl

/-- A tool marked mutating changes something or raises; one not marked changes nothing. -/
theorem execute_effects {ctx : ToolContext} (args : List (String × Json))
    (hctx : ctx.commandProfiles = profiles) (h : kind ∈ ToolKind.withDefaults profiles) :
    (kind.tool.mutating = false ∧ (kind.execute ctx args).changes = false) ∨
      kind.tool.mutating = true ∧ (kind.execute ctx args = .raised ∨
        (kind.execute ctx args).changes = true ∧
          ∀ lease, (kind.execute ctx args).writesUnder = some lease → lease = ctx.lease) := by
  cases kind with
  | read => exact .inl ⟨rfl, rfl⟩
  | list => exact .inl ⟨rfl, rfl⟩
  | search => exact .inl ⟨rfl, rfl⟩
  | webFetch =>
    refine .inl ⟨rfl, ?_⟩
    rw [ToolKind.execute]
    split <;> rfl
  | write =>
    refine .inr ⟨rfl, ?_⟩
    rcases withContent_cases ctx args (f := fun content =>
        .write (argument args "path" "") content ctx.lease) (fun _ => ⟨rfl, rfl⟩)
      with hr | ⟨hl, hc⟩
    · exact .inl hr
    · exact .inr ⟨hc, fun lease hlease => Option.some.inj (hlease.symm.trans hl)⟩
  | create =>
    refine .inr ⟨rfl, ?_⟩
    rcases withContent_cases ctx args (f := fun content =>
        .create (argument args "path" "") content ctx.lease) (fun _ => ⟨rfl, rfl⟩)
      with hr | ⟨hl, hc⟩
    · exact .inl hr
    · exact .inr ⟨hc, fun lease hlease => Option.some.inj (hlease.symm.trans hl)⟩
  | replace => exact .inr ⟨rfl, .inr ⟨rfl, fun lease hlease => (Option.some.inj hlease).symm⟩⟩
  | command cmdName profile =>
    refine .inr ⟨rfl, .inr ?_⟩
    have hentry : (cmdName, profile) ∈ profiles.entries := by
      unfold ToolKind.withDefaults at h
      rcases List.mem_append.mp h with hfixed | hcommand
      · simp at hfixed
      · obtain ⟨p, hp, heq⟩ := List.mem_map.mp hcommand
        cases heq
        exact hp
    rw [ToolKind.execute, hctx, get_profile hentry]
    exact ⟨rfl, fun lease hlease => by cases hlease⟩

/-- The object a tool declares: properties that are texts, some of them required. -/
def objectSchema (names required : List String) : List (String × Json) :=
  [("type", .str "object"), ("properties", .obj (names.map fun f => (f, stringSchema))),
    ("required", .arr (required.map .str))]

/-- The arguments such a declaration asks for. -/
def Fits (names required : List String) (args : List (String × Json)) : Prop :=
  (∀ r ∈ required, (Json.lookup r args).isSome) ∧
    ∀ n ∈ names, ∀ w, Json.lookup n args = some w → ∃ s, w = .str s

theorem parameters_eq (kind : ToolKind) : ∃ names required, kind.tool.parameters =
    objectSchema names required ++ [("additionalProperties", .bool false)] := by
  cases kind with
  | read => exact ⟨["path"], ["path"], rfl⟩
  | list => exact ⟨["path"], ["path"], rfl⟩
  | search => exact ⟨["pattern", "path"], ["pattern"], rfl⟩
  | write => exact ⟨["path", "content"], ["path", "content"], rfl⟩
  | create => exact ⟨["path", "content"], ["path", "content"], rfl⟩
  | replace => exact ⟨["path", "old", "new"], ["path", "old", "new"], rfl⟩
  | webFetch => exact ⟨["url"], ["url"], rfl⟩
  | command => exact ⟨[], [], rfl⟩

variable {names required : List String} {args : List (String × Json)}

theorem subset_stringSchema : geminiSchemaSubset stringSchema = stringSchema := by
  simp [stringSchema, geminiSchemaSubset, subsetFields, geminiSchemaFields]

/-- Gemini is told all but that further arguments are refused. -/
theorem gemini_objectSchema (names required : List String) :
    geminiToolParameters
        (.obj (objectSchema names required ++ [("additionalProperties", .bool false)])) =
      ("parameters", .obj (objectSchema names required)) := by
  have hneed : geminiNeedsJsonSchema
      (.obj (objectSchema names required ++ [("additionalProperties", .bool false)])) = false := by
    simp [objectSchema, geminiNeedsJsonSchema, childrenNeed, geminiStructuralKeywords,
      propertiesNeed_iff, stringSchema]
  unfold geminiToolParameters
  rw [hneed]
  simp [objectSchema, geminiSchemaSubset, subsetFields, geminiSchemaFields, subsetProperties_eq,
    List.map_map, Function.comp_def, subset_stringSchema]

theorem valid_stringSchema {d : Dialect} {v : Json} :
    Valid d stringSchema v ↔ ∃ s, v = .str s := by
  unfold stringSchema
  rw [valid_obj, List.forall_mem_singleton, demands_type]
  apply Iff.intro
  · intro h
    rcases h with htype | ⟨⟨-, hnull⟩, -⟩
    · cases v with
      | str s => exact ⟨s, rfl⟩
      | _ => simp [HasType] at htype
    · simp [Json.lookup] at hnull
  · intro h
    obtain ⟨s, rfl⟩ := h
    exact .inl rfl

theorem valid_objectSchema {d : Dialect} :
    Valid d (.obj (objectSchema names required)) (.obj args) ↔ Fits names required args := by
  unfold objectSchema Fits
  rw [valid_obj, List.forall_mem_cons, List.forall_mem_cons, List.forall_mem_singleton,
    demands_type, demands_object, demands_required, List.forall_mem_map]
  simp only [valid_stringSchema, Json.get?]
  apply Iff.intro
  · intro h
    exact ⟨fun r hr => h.2.2 r (List.mem_map_of_mem hr), h.2.1⟩
  · intro h
    refine ⟨.inl rfl, h.2, fun name hname => ?_⟩
    obtain ⟨r, hr, heq⟩ := List.mem_map.mp hname
    cases heq
    exact h.1 _ hr

/-! ## The worker's check -/

theorem requiredArgs_objectSchema (names required : List String) : requiredArgs
    (objectSchema names required ++ [("additionalProperties", .bool false)]) = required := by
  simp [requiredArgs, objectSchema, Json.lookup]

theorem lookup_names (n : String) :
    Json.lookup n (names.map fun f => (f, stringSchema)) =
      if n ∈ names then some stringSchema else none := by
  induction names with
  | nil => rfl
  | cons m names ih =>
    rw [List.map_cons, Json.lookup, ih]
    by_cases hmem : n ∈ names
    · rw [if_pos hmem, if_pos (List.mem_cons_of_mem m hmem), Option.some_or]
    · rw [if_neg hmem, Option.none_or]
      by_cases hm : m = n
      · rw [if_pos hm, if_pos (hm ▸ List.mem_cons_self)]
      · rw [if_neg hm, if_neg (by simp [hmem, Ne.symm hm])]

theorem declaredType_objectSchema (n : String) : declaredType
    (objectSchema names required ++ [("additionalProperties", .bool false)]) n =
      if n ∈ names then some "string" else none := by
  have hprops : Json.lookup "properties"
      (objectSchema names required ++ [("additionalProperties", .bool false)]) =
        some (.obj (names.map fun f => (f, stringSchema))) := by
    simp [objectSchema, Json.lookup]
  unfold declaredType
  rw [hprops]
  dsimp only
  rw [lookup_names]
  by_cases hmem : n ∈ names
  · rw [if_pos hmem, if_pos hmem]
    simp [stringSchema, Json.lookup]
  · rw [if_neg hmem, if_neg hmem]

theorem hasJsonType_string {v : Json} : hasJsonType "string" v = true ↔ ∃ s, v = .str s := by
  cases v <;> simp [hasJsonType]

/-- The arguments the worker's check lets through for such a declaration. -/
theorem validateToolArgs_objectSchema {call : ToolCall} {defs : List ToolDefinition}
    {t : ToolDefinition} (hfind : defs.reverse.find? (·.name = call.name) = some t)
    (hparams : t.parameters =
      objectSchema names required ++ [("additionalProperties", .bool false)])
    (hargs : (call.arguments.map Prod.fst).Nodup) :
    validateToolArgs call defs = none ↔ Fits names required call.arguments := by
  unfold validateToolArgs
  rw [hfind]
  dsimp only
  rw [hparams, requiredArgs_objectSchema]
  unfold Fits
  split
  · rename_i r hmissing
    have hnone : (Json.lookup r call.arguments).isNone = true := by
      simpa using List.find?_some hmissing
    refine ⟨fun h => (by cases h), fun h => ?_⟩
    have hsome := h.1 r (List.mem_of_find?_eq_some hmissing)
    rw [Option.isNone_iff_eq_none.mp hnone] at hsome
    cases hsome
  · rename_i hpresent
    rw [List.find?_eq_none] at hpresent
    rw [Option.map_eq_none_iff, List.find?_eq_none]
    simp only [declaredType_objectSchema]
    refine ⟨fun h => ⟨fun r hr => ?_, fun n hn w hw => ?_⟩, fun h f hf => ?_⟩
    · simpa [Option.isSome_iff_ne_none] using hpresent r hr
    · have hcheck := h (n, w) (JsonText.mem_of_lookup hw)
      simp only [if_pos hn, Option.any_some, Bool.not_eq_true, Bool.not_eq_false'] at hcheck
      exact hasJsonType_string.mp hcheck
    · by_cases hn : f.1 ∈ names
      · obtain ⟨s, hs⟩ := h.2 f.1 hn f.2 (JsonText.lookup_of_mem_nodup hargs hf)
        simp [hn, hs, hasJsonType]
      · simp [hn]

/-- **Declared is accepted.** Whatever commands are configured and whichever of the tools a
cell is offered: the schema Gemini is given for a tool admits exactly the arguments the
worker's own check lets through, and what the schema the other providers are given admits
is among them. -/
theorem declared_iff_accepted (profiles : CommandProfiles) (d : Dialect)
    {defs : List ToolDefinition}
    (hdefs : ∀ t ∈ defs, t ∈ (ToolRegistry.withDefaults profiles).advertised)
    {t : ToolDefinition} (ht : t ∈ defs) (call : ToolCall) (hname : call.name = t.name)
    (hargs : (call.arguments.map Prod.fst).Nodup) :
    (Valid d (geminiToolParameters (.obj t.parameters)).2 (.obj call.arguments) ↔
      validateToolArgs call defs = none) ∧
    (Valid d (.obj t.parameters) (.obj call.arguments) → validateToolArgs call defs = none) := by
  obtain ⟨kind, hkind, rfl⟩ := mem_advertised.mp (hdefs t ht)
  obtain ⟨names, required, hparams⟩ := parameters_eq kind
  have hsome : (defs.reverse.find? (·.name = call.name)).isSome := by
    rw [List.find?_isSome]
    exact ⟨_, List.mem_reverse.mpr ht, decide_eq_true hname.symm⟩
  obtain ⟨t', hfind⟩ := Option.isSome_iff_exists.mp hsome
  -- Tools of one name are one tool, so the check reads the declaration of `kind`.
  have hsame : t'.parameters = kind.tool.parameters := by
    have ht' := hdefs t' (List.mem_reverse.mp (List.mem_of_find?_eq_some hfind))
    obtain ⟨kind', hkind', rfl⟩ := mem_advertised.mp ht'
    have hname' : kind'.tool.name = call.name := by simpa using List.find?_some hfind
    have hkinds := byName_mem hkind'
    rw [hname', hname, byName_mem hkind] at hkinds
    cases hkinds
    rfl
  have hcheck := validateToolArgs_objectSchema hfind (hsame.trans hparams) hargs
  have hvalid : Valid d (.obj (objectSchema names required)) (.obj call.arguments) ↔ _ :=
    valid_objectSchema
  dsimp only
  rw [hparams, gemini_objectSchema, hcheck]
  refine ⟨hvalid, fun h => hvalid.mp ?_⟩
  have hlooser := (tool_parameters_looser d (.obj (objectSchema names required ++
    [("additionalProperties", .bool false)]))).1 _ h
  rwa [gemini_objectSchema] at hlooser

/-- A registry with one command, and what a plain validator makes of the rest. -/
def onePytest : CommandProfiles where
  entries := [("tests", { name := "tests", argv := ["pytest"] })]
  distinct := by decide

def plainDialect : Dialect where
  equal := (· = ·)
  fits _ _ := True
  formatted _ _ := True
  nullable := False
  tuple _ _ := True
  more _ _ _ _ := True

def searchCall : ToolCall :=
  { id := "1", name := "search", arguments := [("pattern", .str "def "), ("path", .str "src")] }

theorem declared_iff_accepted_search :
    (Valid plainDialect (geminiToolParameters (.obj ToolKind.search.tool.parameters)).2
        (.obj searchCall.arguments) ↔
      validateToolArgs searchCall (ToolRegistry.withDefaults onePytest).advertised = none) ∧
    (Valid plainDialect (.obj ToolKind.search.tool.parameters) (.obj searchCall.arguments) →
      validateToolArgs searchCall (ToolRegistry.withDefaults onePytest).advertised = none) :=
  declared_iff_accepted onePytest plainDialect (fun _ h => h)
    (mem_advertised.mpr ⟨.search, by simp [ToolKind.withDefaults], rfl⟩) searchCall rfl
    (by decide)

end Northstack
