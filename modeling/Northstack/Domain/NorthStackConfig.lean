import Northstack.Domain.ModelProfile
import Northstack.Domain.SensitiveNames

/-!
# The configuration

`RunConfig`, `CommandConfig`, `RouteMapping` and `NorthStackConfig` of config.py with all
their fields and validators.

**Result.** `NorthStackConfig.check_ok`: a configuration passes its own validators exactly
if its names are unique, no role is routed twice, and every routed profile exists and
declares the role.
-/
namespace Northstack

namespace Config

open TextFiles

/-! ## The parts -/

/-- The values of `planner_mode` -/
inductive PlannerMode
  | single
  | model
deriving DecidableEq, Repr

/-- The values of `falsifier_mode` -/
inductive FalsifierMode
  | off
  | model
deriving DecidableEq, Repr

/-- The values of `isolation` -/
inductive Isolation
  | host
  | docker
deriving DecidableEq, Repr

/-- `RunConfig`, `config.py:287-298` -/
structure RunConfig where
  defaultBudgetTokens : Int := 100000
  defaultBudgetCostUsd : ℚ := 5
  stallWindowSeconds : ℚ := 0
  plannerMode : PlannerMode := .single
  falsifierMode : FalsifierMode := .off
  calibrationPath : String := ""
  memoryEnabled : Bool := false
deriving DecidableEq

/-- `CommandConfig`, `config.py:315-326` -/
structure CommandConfig where
  name : String
  argv : List String
  timeoutSeconds : ℚ := 10
  maxOutputBytes : Int := 65536
  envAllowlist : List String := ["PATH"]
  isolation : Isolation := .host
  dockerImage : String := ""
deriving DecidableEq

/-- `RouteMapping`, `config.py:346-363` -/
structure RouteMapping where
  role : Role
  profiles : List String
deriving DecidableEq

/-- What is checked of the run's settings. -/
def RunConfig.check (run : RunConfig) : Except ConfigError Unit := do
  require (0 ≤ run.defaultBudgetTokens) (.field "default_budget_tokens")
  require (0 ≤ run.defaultBudgetCostUsd) (.field "default_budget_cost_usd")
  require (0 ≤ run.stallWindowSeconds) (.field "stall_window_seconds")

/-- `validate_docker_image`, `container_policy.py:6-11` -/
def validateDockerImage (image : String) : Except String String :=
  if PyText.strip image = "" then
    .error "docker isolation requires docker_image: non-empty image"
  else if image ≠ PyText.strip image ∨ image.toList.head? = some '-' ∨
      image.toList.any (fun c => c.toNat ≤ 32) then
    .error "docker image must be a single non-option reference without whitespace"
  else .ok image

/-- `_validate_env_allowlist`, `config.py:328-332` -/
def checkEnvAllowlist (names : List String) : Except ConfigError Unit :=
  match validateEnvAllowlist (names.map text) with
  | .ok _ => .ok ()
  | .error message => .error (.value (String.ofList (message.filterMap CodePoint.scalar?)))

/-- `_validate_docker_isolation`, `config.py:334-341` -/
def CommandConfig.checkIsolation (command : CommandConfig) : Except ConfigError Unit :=
  if command.isolation = .docker then
    match validateDockerImage command.dockerImage with
    | .ok _ => .ok ()
    | .error error =>
      .error (.value ("command " ++ PyText.repr command.name ++ ": " ++ error))
  else .ok ()

/-- What is checked of a command. -/
def CommandConfig.check (command : CommandConfig) : Except ConfigError Unit := do
  require (command.name.length ≤ 60 ∧ safeIdentifier command.name) (.field "name")
  require (command.argv ≠ []) (.field "argv")
  require (0 ≤ command.timeoutSeconds) (.field "timeout_seconds")
  require (0 ≤ command.maxOutputBytes) (.field "max_output_bytes")
  checkEnvAllowlist command.envAllowlist
  command.checkIsolation

/-- What is checked of an entry of the routing table. -/
def RouteMapping.check (entry : RouteMapping) : Except ConfigError Unit :=
  require (entry.profiles ≠ []) (.field "profiles")

def RunConfig.Valid (run : RunConfig) : Prop := run.check = .ok ()

def CommandConfig.Valid (command : CommandConfig) : Prop := command.check = .ok ()

def RouteMapping.Valid (entry : RouteMapping) : Prop := entry.check = .ok ()

instance (run : RunConfig) : Decidable run.Valid := inferInstanceAs (Decidable (_ = _))

instance (command : CommandConfig) : Decidable command.Valid :=
  inferInstanceAs (Decidable (_ = _))

instance (entry : RouteMapping) : Decidable entry.Valid := inferInstanceAs (Decidable (_ = _))

/-! ## The whole -/

/-- `NorthStackConfig`, `config.py:366-376` -/
structure NorthStackConfig where
  name : String
  profiles : List ModelProfile := []
  commands : List CommandConfig := []
  run : RunConfig := {}
  routing : List RouteMapping := []
deriving DecidableEq

/-- `profile`, `config.py:378-383` -/
def NorthStackConfig.profile (c : NorthStackConfig) (name : String) : Option ModelProfile :=
  c.profiles.find? fun p => p.name = name

section

variable (lib : Platform)

/-- `_check_unique`, `config.py:28-32` -/
def checkUnique (items : List String) (kind : String) : Except ConfigError Unit :=
  let folded := items.map (casefold lib)
  let dupes := items.toFinset.filter fun item => 1 < folded.count (casefold lib item)
  require folded.Nodup (.duplicates kind dupes)

/-- The profiles of one entry, `config.py:405-414` -/
def NorthStackConfig.checkDeclared (c : NorthStackConfig) (role : Role) :
    List String → Except ConfigError Unit
  | [] => .ok ()
  | name :: names =>
    match c.profile name with
    | none => .error .library
    | some p => do
      require (role ∈ p.roles)
        (.value ("profile " ++ PyText.repr name ++ " is routed to role " ++
          PyText.repr role.value ++ " but does not declare that role (roles=" ++
          PyText.reprList (sortNames (p.roles.image Role.value)) ++ ")"))
      c.checkDeclared role names

/-- `_validate_routing` after the roles that were seen, `config.py:393-415` -/
def NorthStackConfig.validateRouting (c : NorthStackConfig) (seen : List Role) :
    List RouteMapping → Except ConfigError Unit
  | [] => .ok ()
  | entry :: entries => do
    require (entry.role ∉ seen)
      (.value ("Duplicate routing entry for role " ++ PyText.repr entry.role.value))
    let missing := entry.profiles.filter fun n => n ∉ c.profiles.map ModelProfile.name
    require (missing = [])
      (.value ("routing entry for role " ++ PyText.repr entry.role.value ++
        " references unknown profile(s): " ++ PyText.reprList missing))
    c.checkDeclared entry.role entry.profiles
    c.validateRouting (entry.role :: seen) entries

/-- What is checked of a configuration whose parts are instances. -/
def NorthStackConfig.check (c : NorthStackConfig) : Except ConfigError Unit := do
  require (c.name ≠ "") (.field "name")
  checkUnique lib (c.profiles.map ModelProfile.name) "profile names"
  checkUnique lib (c.commands.map CommandConfig.name) "command names"
  c.validateRouting [] c.routing

/-- `NorthStackConfig(...)` with these instances. -/
def NorthStackConfig.build (c : NorthStackConfig) : Except ConfigError NorthStackConfig := do
  c.check lib
  return c

/-- What the configuration's own validators are to hold. -/
structure NorthStackConfig.Consistent (c : NorthStackConfig) : Prop where
  named : c.name ≠ ""
  profiles : (c.profiles.map fun p => casefold lib p.name).Nodup
  commands : (c.commands.map fun cmd => casefold lib cmd.name).Nodup
  roles : (c.routing.map RouteMapping.role).Nodup
  declared : ∀ entry ∈ c.routing, ∀ name ∈ entry.profiles,
    ∃ p ∈ c.profiles, p.name = name ∧ entry.role ∈ p.roles

/-- The configuration and all its parts are instances of their models. -/
structure NorthStackConfig.Valid (c : NorthStackConfig) : Prop where
  profiles : ∀ p ∈ c.profiles, p.Valid lib
  commands : ∀ command ∈ c.commands, command.Valid
  run : c.run.Valid
  routing : ∀ entry ∈ c.routing, entry.Valid
  consistent : c.Consistent lib

end

/-! ## What the validators hold -/

variable {lib : Platform} {c : NorthStackConfig} {name : String} {p : ModelProfile}

theorem profile_eq_some (h : c.profile name = some p) : p ∈ c.profiles ∧ p.name = name :=
  ⟨List.mem_of_find?_eq_some h, by simpa using List.find?_some h⟩

/-- Where the names are unique without regard to case, a profile is found by its name. -/
theorem profile_eq_some_iff (hunique : (c.profiles.map fun p => casefold lib p.name).Nodup) :
    c.profile name = some p ↔ p ∈ c.profiles ∧ p.name = name := by
  refine ⟨profile_eq_some, ?_⟩
  intro h
  obtain ⟨hmem, hname⟩ := h
  cases hfound : c.profile name with
  | none =>
    have hnone := List.find?_eq_none.mp hfound p hmem
    simp [hname] at hnone
  | some q =>
    obtain ⟨hq, hqname⟩ := profile_eq_some hfound
    rw [List.inj_on_of_nodup_map hunique hq hmem (by rw [hqname, hname])]

theorem checkUnique_ok {items : List String} {kind : String} :
    checkUnique lib items kind = .ok () ↔ (items.map (casefold lib)).Nodup := by
  unfold checkUnique
  rw [require_ok]

theorem checkDeclared_ok {role : Role} {names : List String} :
    c.checkDeclared role names = .ok () ↔
      ∀ name ∈ names, ∃ p, c.profile name = some p ∧ role ∈ p.roles := by
  induction names with
  | nil => simp [NorthStackConfig.checkDeclared]
  | cons name names ih =>
    unfold NorthStackConfig.checkDeclared
    split
    · next hnone => simp [hnone]
    · next p hsome =>
      rw [check_bind_ok, require_ok, ih, List.forall_mem_cons]
      simp [hsome]

theorem validateRouting_ok {seen : List Role} {entries : List RouteMapping} :
    c.validateRouting seen entries = .ok () ↔
      (∀ entry ∈ entries, entry.role ∉ seen) ∧ (entries.map RouteMapping.role).Nodup ∧
      ∀ entry ∈ entries, ∀ name ∈ entry.profiles,
        ∃ p, c.profile name = some p ∧ entry.role ∈ p.roles := by
  induction entries generalizing seen with
  | nil => simp [NorthStackConfig.validateRouting]
  | cons entry entries ih =>
    have hmissing : (∀ name ∈ entry.profiles, ∃ p, c.profile name = some p ∧ entry.role ∈ p.roles) →
        entry.profiles.filter (fun n => n ∉ c.profiles.map ModelProfile.name) = [] := by
      intro h
      rw [List.filter_eq_nil_iff]
      intro name hname
      obtain ⟨p, hp, _⟩ := h name hname
      obtain ⟨hmem, hpname⟩ := profile_eq_some hp
      simp only [decide_not, Bool.not_eq_true', decide_eq_false_iff_not, not_not]
      exact List.mem_map.mpr ⟨p, hmem, hpname⟩
    unfold NorthStackConfig.validateRouting
    simp only [check_bind_ok, require_ok, checkDeclared_ok, ih, List.forall_mem_cons,
      List.map_cons, List.nodup_cons]
    constructor
    · intro h
      obtain ⟨hseen, -, hentry, hrest, hnodup, hdeclared⟩ := h
      have hfirst : entry.role ∉ entries.map RouteMapping.role := by
        intro hmem
        obtain ⟨e, he, heq⟩ := List.mem_map.mp hmem
        exact hrest e he (heq ▸ List.mem_cons_self)
      exact ⟨⟨hseen, fun e he hmem => hrest e he (.tail _ hmem)⟩, ⟨hfirst, hnodup⟩, hentry,
        hdeclared⟩
    · intro h
      obtain ⟨⟨hseen, hrest⟩, ⟨hfirst, hnodup⟩, hentry, hdeclared⟩ := h
      refine ⟨hseen, hmissing hentry, hentry, ?_, hnodup, hdeclared⟩
      intro e he hmem
      rcases List.mem_cons.mp hmem with heq | hmem
      · exact hfirst (heq ▸ List.mem_map_of_mem he)
      · exact hrest e he hmem

/-- A configuration is built exactly if it is consistent. -/
theorem NorthStackConfig.check_ok : c.check lib = .ok () ↔ c.Consistent lib := by
  unfold NorthStackConfig.check
  simp only [check_bind_ok, require_ok, checkUnique_ok, validateRouting_ok, List.map_map,
    List.not_mem_nil, not_false_eq_true, implies_true, true_and]
  constructor
  · intro h
    obtain ⟨hname, hprofiles, hcommands, hroles, hdeclared⟩ := h
    refine ⟨hname, hprofiles, hcommands, hroles, ?_⟩
    intro entry hentry name hmem
    obtain ⟨p, hp, hrole⟩ := hdeclared entry hentry name hmem
    obtain ⟨hin, hpname⟩ := profile_eq_some hp
    exact ⟨p, hin, hpname, hrole⟩
  · intro h
    refine ⟨h.named, h.profiles, h.commands, h.roles, ?_⟩
    intro entry hentry name hmem
    obtain ⟨p, hin, hpname, hrole⟩ := h.declared entry hentry name hmem
    exact ⟨p, (profile_eq_some_iff h.profiles).mpr ⟨hin, hpname⟩, hrole⟩

theorem NorthStackConfig.build_ok {built : NorthStackConfig} :
    c.build lib = .ok built ↔ built = c ∧ c.Consistent lib := by
  unfold NorthStackConfig.build
  rw [check_bind_ok, NorthStackConfig.check_ok]
  constructor
  · intro h
    obtain ⟨hcheck, heq⟩ := h
    cases heq
    exact ⟨rfl, hcheck⟩
  · intro h
    obtain ⟨rfl, hcheck⟩ := h
    exact ⟨hcheck, rfl⟩

end Config

end Northstack
