import Northstack.Core.Fallible
import Northstack.Core.Toml
import Northstack.Domain.NorthStackConfig

/-!
# Writing a configuration as TOML

`config_to_toml` writes a configuration field by field, the required fields always and the
others where they are not the default; `from_toml` reads the document through the models,
which fill the defaults in again. The two lists of fields are kept by hand.

**Results.**
* `readProfile_written`, `readCommand_written`, `readRouting_written`: a profile, a command
  and an entry of the routing table are read as they were written.
* `fromTable_written`: a configuration is, but for the setting of the run that the writer
  leaves out.
-/
namespace Northstack

namespace Config

open Toml Gateway

/-! ## Names of the values -/

/-- The value of a member of `Protocol`. -/
def protocolValue : Gateway.Protocol → String
  | .openaiChat => "openai_chat"
  | .anthropicMessages => "anthropic_messages"
  | .geminiGenerateContent => "gemini_generate_content"

/-- The value of a member of `Capability`. -/
def capabilityValue : Capability → String
  | .toolUse => "tool_use"
  | .nativeJsonSchema => "native_json_schema"
  | .vision => "vision"
  | .streaming => "streaming"
  | .promptCaching => "prompt_caching"

def PlannerMode.value : PlannerMode → String
  | .single => "single"
  | .model => "model"

def FalsifierMode.value : FalsifierMode → String
  | .off => "off"
  | .model => "model"

def Isolation.value : Isolation → String
  | .host => "host"
  | .docker => "docker"

def protocols : List Gateway.Protocol :=
  [.openaiChat, .anthropicMessages, .geminiGenerateContent]

def capabilities : List Capability :=
  [.toolUse, .nativeJsonSchema, .vision, .streaming, .promptCaching]

def roles : List Role := [.worker, .reviewer, .planner, .specialist, .orchestrator]

/-! ## Writing -/

/-- The entry of a field that is written where it is not the default. -/
def unlessDefault {α : Type} [DecidableEq α] (default value : α) (write : α → Toml) :
    Option Toml :=
  if value ≠ default then some (write value) else none

/-- `sorted(m.value for m in members)` -/
def writeSet {α : Type} (value : α → String) (members : Finset α) : Toml :=
  .array ((sortNames (members.image value)).map .str)

def writeStrings (xs : List String) : Toml := .array (xs.map .str)

def writeFloats (xs : List ℚ) : Toml := .array (xs.map ofRat)

def writeMember {α : Type} (value : α → String) (m : α) : Toml := .str (value m)

def writeTable (t : Mapping String String) : Toml := .table (t.map .str)

/-- A profile whose fields with a default have it: `_default(ModelProfile, ...)`. -/
def defaultProfile : ModelProfile where
  name := ""
  protocol := .openaiChat
  baseUrl := ""
  model := ""
  maxConcurrency := 1

/-- `_profile_to_dict`, `config_toml.py:60-95` -/
def profileToDict (p : ModelProfile) : Mapping String Toml :=
  .ofEntries [
    ("name", some (.str p.name)),
    ("protocol", some (writeMember protocolValue p.protocol)),
    ("base_url", some (.str p.baseUrl)),
    ("model", some (.str p.model)),
    ("max_concurrency", some (.int p.maxConcurrency)),
    ("api_key_env", p.apiKeyEnv.map .str),
    ("allow_insecure_http", if p.allowInsecureHttp then some (.bool true) else none),
    ("roles", some (writeSet Role.value p.roles)),
    ("capabilities", some (writeSet capabilityValue p.capabilities)),
    ("requests_per_minute",
      unlessDefault defaultProfile.requestsPerMinute p.requestsPerMinute .int),
    ("context_window_tokens",
      unlessDefault defaultProfile.contextWindowTokens p.contextWindowTokens .int),
    ("max_output_tokens", unlessDefault defaultProfile.maxOutputTokens p.maxOutputTokens .int),
    ("request_timeout_seconds",
      unlessDefault defaultProfile.requestTimeoutSeconds p.requestTimeoutSeconds ofRat),
    ("strict_stream_completion",
      unlessDefault defaultProfile.strictStreamCompletion p.strictStreamCompletion .bool),
    ("transport_retries",
      unlessDefault defaultProfile.transportRetries p.transportRetries .int),
    ("transport_retry_backoff_seconds",
      unlessDefault defaultProfile.transportRetryBackoffSeconds
        p.transportRetryBackoffSeconds writeFloats),
    ("input_price_per_million_usd",
      unlessDefault defaultProfile.inputPricePerMillionUsd p.inputPricePerMillionUsd ofRat),
    ("output_price_per_million_usd",
      unlessDefault defaultProfile.outputPricePerMillionUsd p.outputPricePerMillionUsd ofRat),
    -- the default is none
    ("auth_header", p.authHeader.map .str),
    ("extra_headers", unlessDefault defaultProfile.extraHeaders p.extraHeaders writeTable),
    ("extra_query", unlessDefault defaultProfile.extraQuery p.extraQuery writeTable),
    ("token_limit_param",
      unlessDefault defaultProfile.tokenLimitParam p.tokenLimitParam
        (writeMember TokenLimitParam.value))]

/-- `_command_to_dict`, `config_toml.py:98-113` -/
def commandToDict (command : CommandConfig) : Mapping String Toml :=
  .ofEntries [
    ("name", some (.str command.name)),
    ("argv", some (writeStrings command.argv)),
    ("timeout_seconds", some (ofRat command.timeoutSeconds)),
    ("max_output_bytes", some (.int command.maxOutputBytes)),
    ("env_allowlist", some (writeStrings command.envAllowlist)),
    ("isolation",
      if command.isolation ≠ .host then some (.str command.isolation.value) else none),
    ("docker_image",
      if command.dockerImage ≠ "" then some (.str command.dockerImage) else none)]

/-- `_routing_to_dict`, `config_toml.py:116-121` -/
def routingToDict (entry : RouteMapping) : Mapping String Toml :=
  .ofEntries [
    ("role", some (writeMember Role.value entry.role)),
    ("profiles", some (writeStrings entry.profiles))]

/-- What is written of the run's settings, `config_toml.py:133-144`. -/
def runToDict (run : RunConfig) : Mapping String Toml :=
  let default : RunConfig := {}
  .ofEntries [
    ("default_budget_tokens",
      unlessDefault default.defaultBudgetTokens run.defaultBudgetTokens .int),
    ("default_budget_cost_usd",
      unlessDefault default.defaultBudgetCostUsd run.defaultBudgetCostUsd ofRat),
    ("stall_window_seconds",
      unlessDefault default.stallWindowSeconds run.stallWindowSeconds ofRat),
    ("planner_mode",
      unlessDefault default.plannerMode run.plannerMode (writeMember PlannerMode.value)),
    ("falsifier_mode",
      unlessDefault default.falsifierMode run.falsifierMode (writeMember FalsifierMode.value)),
    ("calibration_path", unlessDefault default.calibrationPath run.calibrationPath .str)]

/-- A list that is written where it is not empty. -/
def writeItems {α : Type} (write : α → Mapping String Toml) (xs : List α) : Option Toml :=
  if xs ≠ [] then some (.array (xs.map fun a => .table (write a))) else none

/-- The `[northstack]` table that `config_to_toml` writes, `config_toml.py:124-149`. -/
def companyDict (c : NorthStackConfig) : Mapping String Toml :=
  .ofEntries [
    ("name", some (.str c.name)),
    ("profiles", writeItems profileToDict c.profiles),
    ("commands", writeItems commandToDict c.commands),
    ("run", if (runToDict c.run).keys ≠ ∅ then some (.table (runToDict c.run)) else none),
    ("routing", writeItems routingToDict c.routing)]

/-- `config_to_toml`, `config_toml.py:124-151` -/
def configToToml (toml : Library) (c : NorthStackConfig) : toml.Document :=
  toml.dumps (Mapping.empty.insert "northstack" (.table (companyDict c)))

/-! ## Reading -/

/-- A member of an enumeration, by its value. -/
def readMember {α : Type} (members : List α) (value : α → String) : Toml → Option α
  | .str s => members.find? fun m => value m = s
  | _ => none

def readSet {α : Type} [DecidableEq α] (members : List α) (value : α → String) (t : Toml) :
    Option (Finset α) :=
  (readList (readMember members value) t).map List.toFinset

/-- A `SecretEnvRef`, or its name alone: `_coerce_api_key_env`, `config.py:235-246`. -/
def readEnvRef : Toml → Option (Option String)
  | .str s => some (some s)
  | .table t =>
    if t.keys ⊆ {"env_var"} then ((t.get? "env_var").bind readStr).map some else none
  | _ => none

def orField {α : Type} (key : String) : Option α → Except ConfigError α
  | some a => .ok a
  | none => .error (.field key)

/-- A field of a model: its value read, or its default. -/
def field {α : Type} (t : Mapping String Toml) (key : String) (read : Toml → Option α)
    (default : Option α) : Except ConfigError α :=
  match t.get? key with
  | some v => orField key (read v)
  | none => orField key default

/-- A field that holds models. -/
def part {α : Type} (t : Mapping String Toml) (key : String)
    (read : Toml → Except ConfigError α) (default : α) : Except ConfigError α :=
  match t.get? key with
  | some v => read v
  | none => .ok default

def readItem {α : Type} (key : String) (read : Mapping String Toml → Except ConfigError α) :
    Toml → Except ConfigError α
  | .table t => read t
  | _ => .error (.field key)

/-- A list of models. -/
def readItems {α : Type} (key : String) (read : Mapping String Toml → Except ConfigError α) :
    Toml → Except ConfigError (List α)
  | .array xs => xs.mapM (readItem key read)
  | _ => .error (.field key)

section

variable (lib : Platform) (lax : Lax)

/-- The fields of a profile, not checked. -/
def profileFields (t : Mapping String Toml) : Except ConfigError ModelProfile := do
  let d := defaultProfile
  let name ← field t "name" readStr none
  let protocol ← field t "protocol" (readMember protocols protocolValue) none
  let baseUrl ← field t "base_url" readStr none
  let model ← field t "model" readStr none
  let apiKeyEnv ← field t "api_key_env" readEnvRef (some d.apiKeyEnv)
  let allowInsecureHttp ← field t "allow_insecure_http" (readBool lax) (some d.allowInsecureHttp)
  let roles ← field t "roles" (readSet roles Role.value) (some d.roles)
  let capabilities ←
    field t "capabilities" (readSet capabilities capabilityValue) (some d.capabilities)
  let maxConcurrency ← field t "max_concurrency" (readInt lax) none
  let requestsPerMinute ←
    field t "requests_per_minute" (readInt lax) (some d.requestsPerMinute)
  let contextWindowTokens ←
    field t "context_window_tokens" (readInt lax) (some d.contextWindowTokens)
  let maxOutputTokens ← field t "max_output_tokens" (readInt lax) (some d.maxOutputTokens)
  let requestTimeoutSeconds ←
    field t "request_timeout_seconds" (readFloat lax) (some d.requestTimeoutSeconds)
  let strictStreamCompletion ←
    field t "strict_stream_completion" (readBool lax) (some d.strictStreamCompletion)
  let transportRetries ← field t "transport_retries" (readInt lax) (some d.transportRetries)
  let transportRetryBackoffSeconds ← field t "transport_retry_backoff_seconds"
    (readList (readFloat lax)) (some d.transportRetryBackoffSeconds)
  let inputPricePerMillionUsd ←
    field t "input_price_per_million_usd" (readFloat lax) (some d.inputPricePerMillionUsd)
  let outputPricePerMillionUsd ←
    field t "output_price_per_million_usd" (readFloat lax) (some d.outputPricePerMillionUsd)
  let authHeader ←
    field t "auth_header" (fun v => (readStr v).map some) (some d.authHeader)
  let extraHeaders ← field t "extra_headers" (readTable readStr) (some d.extraHeaders)
  let extraQuery ← field t "extra_query" (readTable readStr) (some d.extraQuery)
  let tokenLimitParam ← field t "token_limit_param"
    (readMember [.maxTokens, .maxCompletionTokens] TokenLimitParam.value)
    (some d.tokenLimitParam)
  return {
    name, protocol, baseUrl, model, apiKeyEnv, allowInsecureHttp, roles, capabilities,
    maxConcurrency, requestsPerMinute, contextWindowTokens, maxOutputTokens,
    requestTimeoutSeconds, strictStreamCompletion, transportRetries,
    transportRetryBackoffSeconds, inputPricePerMillionUsd, outputPricePerMillionUsd,
    authHeader, extraHeaders, extraQuery, tokenLimitParam }

/-- `ModelProfile.model_validate` -/
def readProfile (t : Mapping String Toml) : Except ConfigError ModelProfile := do
  let p ← profileFields lax t
  ModelProfile.build lib p

/-- The fields of a command, not checked. -/
def commandFields (t : Mapping String Toml) : Except ConfigError CommandConfig := do
  let d : CommandConfig := { name := "", argv := [] }
  let name ← field t "name" readStr none
  let argv ← field t "argv" (readList readStr) none
  let timeoutSeconds ← field t "timeout_seconds" (readFloat lax) (some d.timeoutSeconds)
  let maxOutputBytes ← field t "max_output_bytes" (readInt lax) (some d.maxOutputBytes)
  let envAllowlist ← field t "env_allowlist" (readList readStr) (some d.envAllowlist)
  let isolation ←
    field t "isolation" (readMember [.host, .docker] Isolation.value) (some d.isolation)
  let dockerImage ← field t "docker_image" readStr (some d.dockerImage)
  return { name, argv, timeoutSeconds, maxOutputBytes, envAllowlist, isolation, dockerImage }

/-- `CommandConfig.model_validate` -/
def readCommand (t : Mapping String Toml) : Except ConfigError CommandConfig := do
  let command ← commandFields lax t
  command.check
  return command

/-- The fields of an entry of the routing table, which takes no other keys. -/
def routingFields (t : Mapping String Toml) : Except ConfigError RouteMapping := do
  require (t.keys ⊆ {"role", "profiles"}) (.field "routing")
  let role ← field t "role" (readMember roles Role.value) none
  let profiles ← field t "profiles" (readList readStr) none
  return { role, profiles }

/-- `RouteMapping.model_validate` -/
def readRouting (t : Mapping String Toml) : Except ConfigError RouteMapping := do
  let entry ← routingFields t
  entry.check
  return entry

/-- The fields of the run's settings, not checked. -/
def runFields (t : Mapping String Toml) : Except ConfigError RunConfig := do
  let d : RunConfig := {}
  let defaultBudgetTokens ←
    field t "default_budget_tokens" (readInt lax) (some d.defaultBudgetTokens)
  let defaultBudgetCostUsd ←
    field t "default_budget_cost_usd" (readFloat lax) (some d.defaultBudgetCostUsd)
  let stallWindowSeconds ←
    field t "stall_window_seconds" (readFloat lax) (some d.stallWindowSeconds)
  let plannerMode ←
    field t "planner_mode" (readMember [.single, .model] PlannerMode.value) (some d.plannerMode)
  let falsifierMode ←
    field t "falsifier_mode" (readMember [.off, .model] FalsifierMode.value)
      (some d.falsifierMode)
  let calibrationPath ← field t "calibration_path" readStr (some d.calibrationPath)
  let memoryEnabled ← field t "memory_enabled" (readBool lax) (some d.memoryEnabled)
  return {
    defaultBudgetTokens, defaultBudgetCostUsd, stallWindowSeconds, plannerMode, falsifierMode,
    calibrationPath, memoryEnabled }

/-- `RunConfig.model_validate` -/
def readRun : Toml → Except ConfigError RunConfig
  | .table t => do
    let run ← runFields lax t
    run.check
    return run
  | _ => .error (.field "run")

/-- `NorthStackConfig.model_validate` of the `[northstack]` table -/
def fromTable (company : Mapping String Toml) : Except ConfigError NorthStackConfig := do
  let name ← field company "name" readStr none
  let profiles ← part company "profiles" (readItems "profiles" (readProfile lib lax)) []
  let commands ← part company "commands" (readItems "commands" (readCommand lax)) []
  let run ← part company "run" (readRun lax) {}
  let routing ← part company "routing" (readItems "routing" readRouting) []
  NorthStackConfig.build lib { name, profiles, commands, run, routing }

/-- `from_toml` of a file with this document, `config.py:417-441` -/
def fromToml (toml : Library) (document : toml.Document) :
    Except ConfigError NorthStackConfig :=
  match toml.loads document with
  | none => .error .library
  | some raw =>
    match raw.get? "northstack" with
    | none => fromTable lib lax .empty
    | some (.table company) => fromTable lib lax company
    | some _ => .error (.field "northstack")

end

/-! ## What is read is valid -/

section

variable {lib : Platform} {lax : Lax}

theorem bind_ok {α β : Type} {x : Except ConfigError α} {f : α → Except ConfigError β} {b : β}
    (h : (x >>= f) = .ok b) : ∃ a, x = .ok a ∧ f a = .ok b := by
  cases x with
  | error e => cases h
  | ok a => exact ⟨a, rfl, h⟩

/-- A reader that checks what it read returns what passes the check. -/
theorem read_checked {α : Type} {x : Except ConfigError α} {check : α → Except ConfigError Unit}
    {a : α} (h : (x >>= fun q => check q >>= fun _ => .ok q) = .ok a) : check a = .ok () := by
  obtain ⟨q, _, hbuild⟩ := bind_ok h
  obtain ⟨hcheck, heq⟩ := check_bind_ok.mp hbuild
  cases heq
  exact hcheck

theorem readProfile_valid {t : Mapping String Toml} {p : ModelProfile}
    (h : readProfile lib lax t = .ok p) : p.Valid lib :=
  read_checked h

theorem readCommand_valid {t : Mapping String Toml} {command : CommandConfig}
    (h : readCommand lax t = .ok command) : command.Valid :=
  read_checked h

theorem readRouting_valid {t : Mapping String Toml} {entry : RouteMapping}
    (h : readRouting t = .ok entry) : entry.Valid :=
  read_checked h

theorem readRun_valid {t : Toml} {run : RunConfig} (h : readRun lax t = .ok run) : run.Valid := by
  unfold readRun at h
  split at h
  · exact read_checked h
  · cases h

/-- What is read of a part holds, if it does of the default. -/
theorem part_valid {α : Type} {company : Mapping String Toml} {key : String}
    {read : Toml → Except ConfigError α} {default a : α} {P : α → Prop}
    (hread : ∀ t b, read t = .ok b → P b) (hdefault : P default)
    (h : part company key read default = .ok a) : P a := by
  unfold part at h
  split at h
  · exact hread _ _ h
  · cases h
    exact hdefault

theorem readItems_valid {α : Type} {key : String}
    {read : Mapping String Toml → Except ConfigError α} {P : α → Prop}
    (hread : ∀ t a, read t = .ok a → P a) (t : Toml) (xs : List α)
    (h : readItems key read t = .ok xs) : ∀ a ∈ xs, P a := by
  unfold readItems at h
  split at h
  · intro a ha
    obtain ⟨item, _, hitem⟩ := (Fallible.mapM_ok h).1 a ha
    unfold readItem at hitem
    split at hitem
    · exact hread _ _ hitem
    · cases hitem
  · cases h

/-- A configuration that was read has passed every validator. -/
theorem fromTable_valid {company : Mapping String Toml} {c : NorthStackConfig}
    (h : fromTable lib lax company = .ok c) : c.Valid lib := by
  obtain ⟨name, _, h⟩ := bind_ok h
  obtain ⟨profiles, hprofiles, h⟩ := bind_ok h
  obtain ⟨commands, hcommands, h⟩ := bind_ok h
  obtain ⟨run, hrun, h⟩ := bind_ok h
  obtain ⟨routing, hrouting, h⟩ := bind_ok h
  obtain ⟨rfl, hconsistent⟩ := NorthStackConfig.build_ok.mp h
  exact {
    profiles := part_valid (readItems_valid fun _ _ => readProfile_valid) (by simp) hprofiles
    commands := part_valid (readItems_valid fun _ _ => readCommand_valid) (by simp) hcommands
    run := part_valid (fun _ _ => readRun_valid) (by decide) hrun
    routing := part_valid (readItems_valid fun _ _ => readRouting_valid) (by simp) hrouting
    consistent := hconsistent }

end

/-! ## What is written is read -/

theorem protocolValue_injective : ∀ a b, protocolValue a = protocolValue b → a = b := by
  intro a b
  cases a <;> cases b <;> decide

theorem capabilityValue_injective : ∀ a b, capabilityValue a = capabilityValue b → a = b := by
  intro a b
  cases a <;> cases b <;> decide

theorem roleValue_injective : ∀ a b, Role.value a = Role.value b → a = b := by
  intro a b
  cases a <;> cases b <;> decide

theorem mem_protocols (a : Gateway.Protocol) : a ∈ protocols := by
  cases a <;> decide

theorem mem_capabilities (a : Capability) : a ∈ capabilities := by
  cases a <;> decide

theorem mem_roles (a : Role) : a ∈ roles := by
  cases a <;> decide

section

variable {α : Type} {t : Mapping String Toml} {key : String} {read : Toml → Option α}
  {write : α → Toml} {value default : α} {v : Toml}

theorem field_some {o : Option α} (h : t.get? key = some v) (hread : read v = some value) :
    field t key read o = .ok value := by
  unfold field
  rw [h]
  dsimp only
  rw [hread]
  rfl

theorem field_none (h : t.get? key = none) : field t key read (some value) = .ok value := by
  unfold field
  rw [h]
  rfl

/-- The default is not written, and filled in. -/
theorem field_unless [DecidableEq α] (h : t.get? key = unlessDefault default value write)
    (hread : read (write value) = some value) : field t key read (some default) = .ok value := by
  unfold unlessDefault at h
  split at h
  · exact field_some h hread
  · next heq =>
    rw [not_not.mp heq]
    exact field_none h

theorem readMember_value {members : List α} {name : α → String}
    (hinj : ∀ a b, name a = name b → a = b) (hmem : value ∈ members) :
    readMember members name (writeMember name value) = some value := by
  unfold readMember writeMember
  dsimp only
  cases hfound : members.find? (fun m => name m = name value) with
  | none =>
    have hnone := List.find?_eq_none.mp hfound value hmem
    simp at hnone
  | some m =>
    have hname : name m = name value := by simpa using List.find?_some hfound
    rw [hinj m value hname]

theorem exists_map_eq {name : α → String} {names : List String}
    (h : ∀ n ∈ names, ∃ a, name a = n) : ∃ xs : List α, xs.map name = names := by
  induction names with
  | nil => exact ⟨[], rfl⟩
  | cons n names ih =>
    obtain ⟨a, ha⟩ := h n List.mem_cons_self
    obtain ⟨xs, hxs⟩ := ih fun m hm => h m (.tail _ hm)
    exact ⟨a :: xs, by rw [List.map_cons, ha, hxs]⟩

/-- A set is written as its sorted values. -/
theorem readSet_writeSet [DecidableEq α] {members : List α} {name : α → String}
    (hinj : ∀ a b, name a = name b → a = b) (hall : ∀ a, a ∈ members) (s : Finset α) :
    readSet members name (writeSet name s) = some s := by
  have hnames : ∀ n, n ∈ sortNames (s.image name) ↔ ∃ a ∈ s, name a = n := by
    intro n
    rw [sortNames, Finset.mem_sort, Finset.mem_image]
  obtain ⟨xs, hxs⟩ : ∃ xs : List α, xs.map name = sortNames (s.image name) := by
    apply exists_map_eq
    intro n hn
    obtain ⟨a, _, ha⟩ := (hnames n).mp hn
    exact ⟨a, ha⟩
  unfold readSet writeSet
  rw [← hxs, List.map_map]
  have hread : readList (readMember members name) (.array (xs.map (Toml.str ∘ name))) = some xs :=
    readList_map fun a _ => readMember_value hinj (hall a)
  rw [hread, Option.map_some, Option.some_inj]
  ext a
  rw [List.mem_toFinset]
  constructor
  · intro ha
    have hmem : name a ∈ sortNames (s.image name) := hxs ▸ List.mem_map_of_mem ha
    obtain ⟨b, hb, heq⟩ := (hnames _).mp hmem
    rwa [← hinj b a heq]
  · intro ha
    have hmem := (hnames (name a)).mpr ⟨a, ha, rfl⟩
    rw [← hxs] at hmem
    obtain ⟨b, hb, heq⟩ := List.mem_map.mp hmem
    rwa [← hinj b a heq]

theorem readStrings_written (xs : List String) :
    readList readStr (writeStrings xs) = some xs :=
  readList_map fun _ _ => rfl

theorem readFloats_written (lax : Lax) (xs : List ℚ) :
    readList (readFloat lax) (writeFloats xs) = some xs :=
  readList_map fun x _ => readFloat_ofRat lax x

theorem readStringTable_written (t : Mapping String String) :
    readTable readStr (writeTable t) = some t :=
  readTable_map readStr_str t

end

variable {lib : Platform} {lax : Lax} {p : ModelProfile}

/-- A profile is read as it was written. -/
theorem readProfile_written (h : p.Valid lib) :
    readProfile lib lax (profileToDict p) = .ok p := by
  have hget : ∀ key, (profileToDict p).get? key = _ := fun _ => Mapping.get?_ofEntries _
  have hname : field (profileToDict p) "name" readStr none = .ok p.name :=
    field_some (hget _) rfl
  have hprotocol : field (profileToDict p) "protocol" (readMember protocols protocolValue) none =
      .ok p.protocol :=
    field_some (hget _) (readMember_value protocolValue_injective (mem_protocols _))
  have hbaseUrl : field (profileToDict p) "base_url" readStr none = .ok p.baseUrl :=
    field_some (hget _) rfl
  have hmodel : field (profileToDict p) "model" readStr none = .ok p.model :=
    field_some (hget _) rfl
  have hapiKeyEnv : field (profileToDict p) "api_key_env" readEnvRef
      (some defaultProfile.apiKeyEnv) = .ok p.apiKeyEnv := by
    cases hkey : p.apiKeyEnv with
    | none => exact field_none ((hget _).trans (by rw [hkey]; rfl))
    | some s => exact field_some ((hget _).trans (by rw [hkey]; rfl)) rfl
  have hinsecure : field (profileToDict p) "allow_insecure_http" (readBool lax)
      (some defaultProfile.allowInsecureHttp) = .ok p.allowInsecureHttp := by
    cases hb : p.allowInsecureHttp with
    | false => exact field_none ((hget _).trans (by rw [hb]; rfl))
    | true => exact field_some ((hget _).trans (by rw [hb]; rfl)) rfl
  have hroles : field (profileToDict p) "roles" (readSet roles Role.value)
      (some defaultProfile.roles) = .ok p.roles :=
    field_some (hget _) (readSet_writeSet roleValue_injective mem_roles _)
  have hcapabilities : field (profileToDict p) "capabilities" (readSet capabilities capabilityValue)
      (some defaultProfile.capabilities) = .ok p.capabilities :=
    field_some (hget _) (readSet_writeSet capabilityValue_injective mem_capabilities _)
  have hmaxConcurrency : field (profileToDict p) "max_concurrency" (readInt lax) none =
      .ok p.maxConcurrency := field_some (hget _) rfl
  have hrequests : field (profileToDict p) "requests_per_minute" (readInt lax)
      (some defaultProfile.requestsPerMinute) = .ok p.requestsPerMinute :=
    field_unless (hget _) rfl
  have hwindow : field (profileToDict p) "context_window_tokens" (readInt lax)
      (some defaultProfile.contextWindowTokens) = .ok p.contextWindowTokens :=
    field_unless (hget _) rfl
  have hmaxOutput : field (profileToDict p) "max_output_tokens" (readInt lax)
      (some defaultProfile.maxOutputTokens) = .ok p.maxOutputTokens :=
    field_unless (hget _) rfl
  have htimeout : field (profileToDict p) "request_timeout_seconds" (readFloat lax)
      (some defaultProfile.requestTimeoutSeconds) = .ok p.requestTimeoutSeconds :=
    field_unless (hget _) (readFloat_ofRat lax _)
  have hstrict : field (profileToDict p) "strict_stream_completion" (readBool lax)
      (some defaultProfile.strictStreamCompletion) = .ok p.strictStreamCompletion :=
    field_unless (hget _) rfl
  have hretries : field (profileToDict p) "transport_retries" (readInt lax)
      (some defaultProfile.transportRetries) = .ok p.transportRetries :=
    field_unless (hget _) rfl
  have hbackoff : field (profileToDict p) "transport_retry_backoff_seconds"
      (readList (readFloat lax)) (some defaultProfile.transportRetryBackoffSeconds) =
      .ok p.transportRetryBackoffSeconds := field_unless (hget _) (readFloats_written lax _)
  have hinput : field (profileToDict p) "input_price_per_million_usd" (readFloat lax)
      (some defaultProfile.inputPricePerMillionUsd) = .ok p.inputPricePerMillionUsd :=
    field_unless (hget _) (readFloat_ofRat lax _)
  have houtput : field (profileToDict p) "output_price_per_million_usd" (readFloat lax)
      (some defaultProfile.outputPricePerMillionUsd) = .ok p.outputPricePerMillionUsd :=
    field_unless (hget _) (readFloat_ofRat lax _)
  have hauth : field (profileToDict p) "auth_header" (fun v => (readStr v).map some)
      (some defaultProfile.authHeader) = .ok p.authHeader := by
    cases hheader : p.authHeader with
    | none => exact field_none ((hget _).trans (by rw [hheader]; rfl))
    | some s => exact field_some ((hget _).trans (by rw [hheader]; rfl)) rfl
  have hheaders : field (profileToDict p) "extra_headers" (readTable readStr)
      (some defaultProfile.extraHeaders) = .ok p.extraHeaders :=
    field_unless (hget _) (readStringTable_written _)
  have hquery : field (profileToDict p) "extra_query" (readTable readStr)
      (some defaultProfile.extraQuery) = .ok p.extraQuery :=
    field_unless (hget _) (readStringTable_written _)
  have hparam : field (profileToDict p) "token_limit_param"
      (readMember [.maxTokens, .maxCompletionTokens] TokenLimitParam.value)
      (some defaultProfile.tokenLimitParam) = .ok p.tokenLimitParam := by
    refine field_unless (hget _) (readMember_value ?_ ?_)
    · intro a b
      cases a <;> cases b <;> decide
    · cases p.tokenLimitParam <;> decide
  have hfields : profileFields lax (profileToDict p) = .ok p := by
    unfold profileFields
    simp only [hname, hprotocol, hbaseUrl, hmodel, hapiKeyEnv, hinsecure, hroles, hcapabilities,
      hmaxConcurrency, hrequests, hwindow, hmaxOutput, htimeout, hstrict, hretries, hbackoff,
      hinput, houtput, hauth, hheaders, hquery, hparam]
    rfl
  unfold readProfile
  rw [hfields]
  exact check_bind_ok.mpr ⟨h, rfl⟩

/-- A command is read as it was written. -/
theorem readCommand_written {command : CommandConfig} (h : command.Valid) :
    readCommand lax (commandToDict command) = .ok command := by
  have hget : ∀ key, (commandToDict command).get? key = _ := fun _ => Mapping.get?_ofEntries _
  have hname : field (commandToDict command) "name" readStr none = .ok command.name :=
    field_some (hget _) rfl
  have hargv : field (commandToDict command) "argv" (readList readStr) none = .ok command.argv :=
    field_some (hget _) (readStrings_written _)
  have htimeout : ∀ o, field (commandToDict command) "timeout_seconds" (readFloat lax) o =
      .ok command.timeoutSeconds := fun o => field_some (hget _) (readFloat_ofRat lax _)
  have hbytes : ∀ o, field (commandToDict command) "max_output_bytes" (readInt lax) o =
      .ok command.maxOutputBytes := fun o => field_some (hget _) rfl
  have hallowlist : ∀ o, field (commandToDict command) "env_allowlist" (readList readStr) o =
      .ok command.envAllowlist := fun o => field_some (hget _) (readStrings_written _)
  have hisolation : field (commandToDict command) "isolation"
      (readMember [.host, .docker] Isolation.value) (some .host) = .ok command.isolation := by
    cases hi : command.isolation with
    | host => exact field_none ((hget _).trans (by rw [hi]; rfl))
    | docker => exact field_some ((hget _).trans (by rw [hi]; rfl)) (by decide)
  have himage : field (commandToDict command) "docker_image" readStr (some "") =
      .ok command.dockerImage := by
    by_cases hi : command.dockerImage = ""
    · rw [hi]
      exact field_none ((hget _).trans (by rw [hi]; rfl))
    · exact field_some ((hget _).trans (by rw [if_pos hi]; rfl)) rfl
  have hfields : commandFields lax (commandToDict command) = .ok command := by
    unfold commandFields
    simp only [hname, hargv, htimeout, hbytes, hallowlist, hisolation, himage]
    rfl
  unfold readCommand
  rw [hfields]
  exact check_bind_ok.mpr ⟨h, rfl⟩

/-- An entry of the routing table is read as it was written. -/
theorem readRouting_written {entry : RouteMapping} (h : entry.Valid) :
    readRouting (routingToDict entry) = .ok entry := by
  have hget : ∀ key, (routingToDict entry).get? key = _ := fun _ => Mapping.get?_ofEntries _
  have hkeys : (routingToDict entry).keys ⊆ {"role", "profiles"} := Mapping.keys_ofEntries _
  have hrole : field (routingToDict entry) "role" (readMember roles Role.value) none =
      .ok entry.role :=
    field_some (hget _) (readMember_value roleValue_injective (mem_roles _))
  have hprofiles : field (routingToDict entry) "profiles" (readList readStr) none =
      .ok entry.profiles := field_some (hget _) (readStrings_written _)
  have hfields : routingFields (routingToDict entry) = .ok entry := by
    unfold routingFields
    simp only [hrole, hprofiles]
    exact check_bind_ok.mpr ⟨require_ok.mpr hkeys, rfl⟩
  unfold readRouting
  rw [hfields]
  exact check_bind_ok.mpr ⟨h, rfl⟩

/-- The run's settings are read as they were written, without the one that is left out. -/
theorem readRun_written {run : RunConfig} (h : run.Valid) :
    readRun lax (.table (runToDict run)) = .ok { run with memoryEnabled := false } := by
  have hget : ∀ key, (runToDict run).get? key = _ := fun _ => Mapping.get?_ofEntries _
  have htokens : field (runToDict run) "default_budget_tokens" (readInt lax) (some 100000) =
      .ok run.defaultBudgetTokens := field_unless (hget _) rfl
  have hcost : field (runToDict run) "default_budget_cost_usd" (readFloat lax) (some 5) =
      .ok run.defaultBudgetCostUsd := field_unless (hget _) (readFloat_ofRat lax _)
  have hstall : field (runToDict run) "stall_window_seconds" (readFloat lax) (some 0) =
      .ok run.stallWindowSeconds := field_unless (hget _) (readFloat_ofRat lax _)
  have hplanner : field (runToDict run) "planner_mode"
      (readMember [.single, .model] PlannerMode.value) (some .single) = .ok run.plannerMode := by
    refine field_unless (hget _) (readMember_value ?_ ?_)
    · intro a b
      cases a <;> cases b <;> decide
    · cases run.plannerMode <;> decide
  have hfalsifier : field (runToDict run) "falsifier_mode"
      (readMember [.off, .model] FalsifierMode.value) (some .off) = .ok run.falsifierMode := by
    refine field_unless (hget _) (readMember_value ?_ ?_)
    · intro a b
      cases a <;> cases b <;> decide
    · cases run.falsifierMode <;> decide
  have hcalibration : field (runToDict run) "calibration_path" readStr (some "") =
      .ok run.calibrationPath := field_unless (hget _) rfl
  -- the writer's list of fields does not name it
  have hmemory : field (runToDict run) "memory_enabled" (readBool lax) (some false) = .ok false :=
    field_none (hget _)
  have hfields : runFields lax (runToDict run) = .ok { run with memoryEnabled := false } := by
    unfold runFields
    simp only [htokens, hcost, hstall, hplanner, hfalsifier, hcalibration, hmemory]
    rfl
  unfold readRun
  dsimp only
  rw [hfields]
  exact check_bind_ok.mpr ⟨h, rfl⟩

/-- Settings that are all the default are not written, and read as the default. -/
theorem readRun_default (lax : Lax) {run : RunConfig} (h : run.Valid)
    (hempty : (runToDict run).keys = ∅) :
    ({} : RunConfig) = { run with memoryEnabled := false } := by
  have hnone : runToDict run = .empty := by
    apply Mapping.ext_get
    intro key
    rw [Mapping.get?_empty, Mapping.get?_eq_none, hempty]
    exact Finset.notMem_empty key
  have hread : readRun lax (.table .empty) = .ok {} := by
    simp only [readRun, runFields, field, Mapping.get?_empty]
    rfl
  rw [← hnone, readRun_written h] at hread
  exact (Except.ok.inj hread).symm

/-- A list of models is read as it was written. -/
theorem readItems_written {α : Type} {company : Mapping String Toml} {key : String}
    {read : Mapping String Toml → Except ConfigError α} {write : α → Mapping String Toml}
    {xs : List α} (hget : company.get? key = writeItems write xs)
    (hread : ∀ a ∈ xs, read (write a) = .ok a) :
    part company key (readItems key read) [] = .ok xs := by
  have hitems : (xs.map fun a => Toml.table (write a)).mapM (readItem key read) = .ok xs := by
    clear hget
    induction xs with
    | nil => rfl
    | cons a xs ih =>
      have ha : readItem key read (.table (write a)) = .ok a := hread a List.mem_cons_self
      rw [List.map_cons, Fallible.mapM_cons, ha, ih fun b hb => hread b (.tail _ hb)]
  unfold part
  rw [hget]
  unfold writeItems
  by_cases hxs : xs = []
  · simp [hxs]
  · rw [if_pos hxs]
    exact hitems

/-- What is read of what was written is the configuration, but for one setting. -/
theorem fromTable_written {c : NorthStackConfig} (h : c.Valid lib) :
    fromTable lib lax (companyDict c) =
      .ok { c with run := { c.run with memoryEnabled := false } } := by
  have hget : ∀ key, (companyDict c).get? key = _ := fun _ => Mapping.get?_ofEntries _
  have hname : field (companyDict c) "name" readStr none = .ok c.name := field_some (hget _) rfl
  have hprofiles : part (companyDict c) "profiles" (readItems "profiles" (readProfile lib lax)) [] =
      .ok c.profiles :=
    readItems_written (hget _) fun p hp => readProfile_written (h.profiles p hp)
  have hcommands : part (companyDict c) "commands" (readItems "commands" (readCommand lax)) [] =
      .ok c.commands :=
    readItems_written (hget _) fun command hc => readCommand_written (h.commands command hc)
  have hrouting : part (companyDict c) "routing" (readItems "routing" readRouting) [] =
      .ok c.routing :=
    readItems_written (hget _) fun entry he => readRouting_written (h.routing entry he)
  have hrun : part (companyDict c) "run" (readRun lax) {} =
      .ok { c.run with memoryEnabled := false } := by
    unfold part
    rw [hget]
    by_cases hempty : (runToDict c.run).keys = ∅
    · rw [← readRun_default lax h.run hempty]
      simp [List.lookup, hempty]
    · simp only [List.lookup, ne_eq, hempty, not_false_eq_true, if_true]
      exact readRun_written h.run
  unfold fromTable
  simp only [hname, hprofiles, hcommands, hrun, hrouting]
  exact NorthStackConfig.build_ok.mpr ⟨rfl, ⟨h.consistent.named, h.consistent.profiles,
    h.consistent.commands, h.consistent.roles, h.consistent.declared⟩⟩

/-- What is read of the document that was written. -/
theorem fromToml_written (toml : Library) {c : NorthStackConfig} (h : c.Valid lib) :
    fromToml lib lax toml (configToToml toml c) =
      .ok { c with run := { c.run with memoryEnabled := false } } := by
  unfold fromToml configToToml
  rw [toml.loads_dumps]
  simp only [Mapping.get?_insert, if_true]
  exact fromTable_written h

end Config

end Northstack
