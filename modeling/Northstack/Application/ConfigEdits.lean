import Northstack.Application.ConfigStore

/-!
# What saving and editing lose

A configuration that is saved and loaded again, a profile that is cloned and the settings
of the run that the web surface shows and takes back all go through lists of fields that
are kept by hand. The lists of the writer, of the view and of the request do not name
`memory_enabled`, and the list of the clone does not name the settings of the transport.

**Results.**
* `round_trip_iff`: saving and loading leave the configuration and the unknown sections as
  they are exactly if memory is off.
* `edits_keep_iff`: a clone is its source exactly if the source's transport has the default
  settings, and putting the run's settings leaves the hidden one alone exactly if it is off.
-/
namespace Northstack

namespace Config

open Toml

variable {lib : Platform} {lax : Lax} {toml : Library} {s s' : ConfigStore toml}

/-! ## Documents of the store -/

theorem forgetMemory_eq {c : NorthStackConfig} :
    { c with run := { c.run with memoryEnabled := false } } = c ↔ c.run.memoryEnabled = false := by
  constructor
  · intro h
    rw [← h]
  · intro h
    rw [← h]

theorem companyDict_modeled (c : NorthStackConfig) {key : String}
    (hkey : key ∉ modeledCompanyKeys) : (companyDict c).get? key = none := by
  rw [Mapping.get?_eq_none]
  intro hmem
  have hsub : (companyDict c).keys ⊆ modeledCompanyKeys := Mapping.keys_ofEntries _
  exact hkey (hsub hmem)

/-- The document holds the table that the writer makes, with the unknown sections. -/
theorem mergeLocked_eq (s : ConfigStore toml) : ∃ raw : Mapping String Toml,
    mergeLocked s = .ok (toml.dumps raw) ∧
      raw.get? "northstack" = some (.table (s.unknown.update (companyDict s.config))) := by
  unfold mergeLocked configToToml
  rw [toml.loads_dumps]
  simp only [Mapping.get?_insert, if_true]
  exact ⟨_, rfl, by simp [Mapping.get?_insert]⟩

/-- What is read of the store's document. -/
theorem parseDocument_merged (hs : s.config.Valid lib) (hunknown : Unmodeled s.unknown) :
    ∃ text, mergeLocked s = .ok text ∧ parseDocument lib lax text =
      .ok ({ s.config with run := { s.config.run with memoryEnabled := false } }, s.unknown) := by
  obtain ⟨raw, hmerged, hraw⟩ := mergeLocked_eq s
  refine ⟨_, hmerged, ?_⟩
  have hmodeled : (s.unknown.update (companyDict s.config)).restrict
      (fun key => key ∈ modeledCompanyKeys) = companyDict s.config := by
    apply Mapping.ext_get
    intro key
    rw [Mapping.get?_restrict, Mapping.get?_update]
    by_cases hkey : key ∈ modeledCompanyKeys
    · simp [hkey, hunknown key hkey]
    · simp [hkey, companyDict_modeled s.config hkey]
  have hrest : unknownFromCompany (s.unknown.update (companyDict s.config)) = s.unknown := by
    apply Mapping.ext_get
    intro key
    unfold unknownFromCompany
    rw [Mapping.get?_restrict, Mapping.get?_update]
    by_cases hkey : key ∈ modeledCompanyKeys
    · simp [hkey, hunknown key hkey]
    · simp [hkey, companyDict_modeled s.config hkey]
  unfold parseDocument parseRaw
  rw [toml.loads_dumps]
  dsimp only
  rw [hraw]
  dsimp only
  rw [hmodeled, hrest, fromTable_written hs]
  rfl

/-! ## Saving and loading -/

/-- The store after it was saved and loaded again. -/
theorem saved_and_reloaded (lax : Lax) (hs : s.config.Valid lib) (hunknown : Unmodeled s.unknown) :
    ∃ s', (saveToToml false >>= fun _ => reload lib lax) s = .ok () s' ∧
      s'.config = { s.config with run := { s.config.run with memoryEnabled := false } } ∧
      s'.unknown = s.unknown := by
  obtain ⟨text, hmerged, hparsed⟩ := @parseDocument_merged lib lax toml s hs hunknown
  have hsaved : saveToToml false s = .ok () { s with file := some text, dirty := false } := by
    rw [saveToToml_eq, hmerged]
    rfl
  rw [bind_of_ok hsaved, reload_eq]
  dsimp only
  rw [hparsed]
  exact ⟨_, rfl, rfl, rfl⟩

/-- The store after its own document was applied to it. -/
theorem applied_own (lax : Lax) (hs : s.config.Valid lib) (hunknown : Unmodeled s.unknown) :
    ∃ s', (tomlDocument >>= applyToml lib lax) s = .ok () s' ∧
      s'.config = { s.config with run := { s.config.run with memoryEnabled := false } } ∧
      s'.unknown = s.unknown := by
  obtain ⟨text, hmerged, hparsed⟩ := @parseDocument_merged lib lax toml s hs hunknown
  have hdocument : tomlDocument s = .ok text s := by
    unfold tomlDocument
    rw [get_bind, hmerged]
    rfl
  rw [bind_of_ok hdocument, applyToml_eq, hparsed]
  exact ⟨_, rfl, rfl, rfl⟩

/-- The store is as it was if the setting that is lost was off. -/
theorem unchanged_iff {op : StoreM toml Unit} (h : ∃ s', op s = .ok () s' ∧
      s'.config = { s.config with run := { s.config.run with memoryEnabled := false } } ∧
      s'.unknown = s.unknown) :
    (∃ s', op s = .ok () s' ∧ s'.config = s.config ∧ s'.unknown = s.unknown) ↔
      s.config.run.memoryEnabled = false := by
  obtain ⟨after, hok, hconfig, hunknown⟩ := h
  constructor
  · intro h
    obtain ⟨s', hok', hsame, _⟩ := h
    rw [hok] at hok'
    cases hok'
    rw [hconfig] at hsame
    exact forgetMemory_eq.mp hsame
  · intro h
    exact ⟨after, hok, hconfig.trans (forgetMemory_eq.mpr h), hunknown⟩

/-- A configuration whose run enables memory. -/
def memoryConfig : NorthStackConfig := { name := "northstack", run := { memoryEnabled := true } }

theorem memoryConfig_valid (lib : Platform) : memoryConfig.Valid lib where
  profiles := by simp [memoryConfig]
  commands := by simp [memoryConfig]
  run := by decide
  routing := by simp [memoryConfig]
  consistent := by
    constructor <;> simp [memoryConfig]

/-- The settings of the transport are the defaults. -/
structure DefaultTransport (p : ModelProfile) : Prop where
  timeout : p.requestTimeoutSeconds = 300
  strict : p.strictStreamCompletion = true
  retries : p.transportRetries = 2
  backoff : p.transportRetryBackoffSeconds = [3 / 2, 6]

theorem clone_eq_iff {src : ModelProfile} {newName : String} :
    clone src newName = { src with name := newName } ↔ DefaultTransport src := by
  constructor
  · intro h
    exact ⟨(congrArg ModelProfile.requestTimeoutSeconds h).symm,
      (congrArg ModelProfile.strictStreamCompletion h).symm,
      (congrArg ModelProfile.transportRetries h).symm,
      (congrArg ModelProfile.transportRetryBackoffSeconds h).symm⟩
  · intro h
    unfold clone
    rw [← h.timeout, ← h.strict, ← h.retries, ← h.backoff]

/-- A name that a profile may have. -/
def ProfileName (name : String) : Prop := name.length ≤ 64 ∧ safeIdentifier name

theorem clone_valid {src : ModelProfile} {newName : String} (h : src.Valid lib)
    (hname : ProfileName newName) : (clone src newName).Valid lib := by
  unfold ModelProfile.Valid ModelProfile.check at h ⊢
  simp only [check_bind_ok, require_ok] at h ⊢
  obtain ⟨-, hurl, hmodel, hkey, hconcurrency, hrequests, hwindow, houtput, -, -, -, hinput, hprice,
    hauth, hheaders, hquery, hpolicy⟩ := h
  unfold ModelProfile.validateBaseUrlPolicy at hpolicy ⊢
  simp only [check_bind_ok, require_ok] at hpolicy ⊢
  -- the settings that the clone does not take over are the defaults, which pass
  have htimeout : (0 : ℚ) < 300 := by decide
  have hretries : (0 : Int) ≤ 2 ∧ (2 : Int) ≤ 5 := by decide
  have hbackoff : [(3 / 2 : ℚ), 6].length ≤ 5 ∧ ∀ x ∈ [(3 / 2 : ℚ), 6], 0 ≤ x := by
    decide +kernel
  have hdurations : (2 : Int) = 0 ∨ [(3 / 2 : ℚ), 6] ≠ [] := by decide
  exact ⟨hname, hurl, hmodel, hkey, hconcurrency, hrequests, hwindow, houtput, htimeout, hretries,
    hbackoff, hinput, hprice, hauth, hheaders, hquery, hdurations, hpolicy.2⟩

theorem duplicateProfile_ok {name newName : String}
    (h : duplicateProfile lib name newName s = .ok () s') :
    ∃ src, s.config.profile name = some src ∧
      s'.config = { s.config with profiles := s.config.profiles ++ [clone src newName] } := by
  obtain ⟨c, hbuild, rfl⟩ := attempt_ok h
  split at hbuild
  · cases hbuild
  · next src hsrc =>
    obtain ⟨_, hbuild⟩ := check_bind_ok.mp hbuild
    obtain ⟨cloned, hcloned, hbuild⟩ := bind_ok hbuild
    obtain ⟨_, heq⟩ := check_bind_ok.mp hcloned
    cases heq
    obtain ⟨rfl, _⟩ := NorthStackConfig.build_ok.mp hbuild
    exact ⟨src, hsrc, rfl⟩

/-- A profile can be cloned under every name that no other profile has. -/
theorem duplicateProfile_accepted (hs : s.config.Valid lib) {name newName : String}
    {src : ModelProfile} (hsrc : s.config.profile name = some src) (hname : ProfileName newName)
    (hnew : casefold lib newName ∉ s.config.profiles.map fun p => casefold lib p.name) :
    ∃ s', duplicateProfile lib name newName s = .ok () s' := by
  have habsent : s.config.profile newName = none := by
    cases hfound : s.config.profile newName with
    | none => rfl
    | some p =>
      obtain ⟨hmem, hpname⟩ := profile_eq_some hfound
      exact absurd (List.mem_map.mpr ⟨p, hmem, by rw [hpname]⟩) hnew
  have hcloned : ModelProfile.build lib (clone src newName) = .ok (clone src newName) :=
    check_bind_ok.mpr ⟨clone_valid (hs.profiles src (profile_eq_some hsrc).1) hname, rfl⟩
  have hbuilt : NorthStackConfig.build lib
      { s.config with profiles := s.config.profiles ++ [clone src newName] } =
      .ok { s.config with profiles := s.config.profiles ++ [clone src newName] } := by
    refine NorthStackConfig.build_ok.mpr ⟨rfl, hs.consistent.named, ?_, hs.consistent.commands,
      hs.consistent.roles, ?_⟩
    · rw [List.map_append]
      exact hs.consistent.profiles.append (List.nodup_singleton _) (by simpa [clone] using hnew)
    · intro entry hentry n hn
      obtain ⟨p, hp, hdeclared⟩ := hs.consistent.declared entry hentry n hn
      exact ⟨p, List.mem_append_left _ hp, hdeclared⟩
  have hok : duplicateProfile lib name newName s = .ok () { s with
      config := { s.config with profiles := s.config.profiles ++ [clone src newName] }
      dirty := true } := by
    apply attempt_of_ok
    dsimp only
    rw [hsrc]
    refine check_bind_ok.mpr ⟨require_ok.mpr (by simp [habsent]), ?_⟩
    rw [hcloned]
    exact hbuilt
  exact ⟨_, hok⟩

/-! ## The run's settings -/

/-- The `run` section of the view, `config_store.py:121-128`, and `RunBody`,
`routes_config.py:182-188`: they have the same fields. -/
structure RunBody where
  defaultBudgetTokens : Int := 100000
  defaultBudgetCostUsd : ℚ := 5
  stallWindowSeconds : ℚ := 0
  plannerMode : PlannerMode := .single
  falsifierMode : FalsifierMode := .off
  calibrationPath : String := ""

/-- `GET /config`, its `run` section. -/
def runView (run : RunConfig) : RunBody where
  defaultBudgetTokens := run.defaultBudgetTokens
  defaultBudgetCostUsd := run.defaultBudgetCostUsd
  stallWindowSeconds := run.stallWindowSeconds
  plannerMode := run.plannerMode
  falsifierMode := run.falsifierMode
  calibrationPath := run.calibrationPath

/-- `RunConfig(...)` with these values. -/
def RunConfig.build (run : RunConfig) : Except ConfigError RunConfig := do
  run.check
  return run

/-- `PUT /config/run`, `routes_config.py:287-302` -/
def putRun (lib : Platform) (body : RunBody) : StoreM toml Unit := do
  let run ← lift (RunConfig.build {
    defaultBudgetTokens := body.defaultBudgetTokens
    defaultBudgetCostUsd := body.defaultBudgetCostUsd
    stallWindowSeconds := body.stallWindowSeconds
    plannerMode := body.plannerMode
    falsifierMode := body.falsifierMode
    calibrationPath := body.calibrationPath })
  updateRun lib run

/-- The settings that were put are the body's, and memory is off. -/
theorem putRun_ok {body : RunBody} (h : putRun lib body s = .ok () s') :
    ∃ run, s'.config = { s.config with run := run } ∧ runView run = body ∧
      run.memoryEnabled = false := by
  unfold putRun at h
  cases hbuild : RunConfig.build {
      defaultBudgetTokens := body.defaultBudgetTokens
      defaultBudgetCostUsd := body.defaultBudgetCostUsd
      stallWindowSeconds := body.stallWindowSeconds
      plannerMode := body.plannerMode
      falsifierMode := body.falsifierMode
      calibrationPath := body.calibrationPath } with
  | error e =>
    rw [hbuild, lift_error_bind] at h
    cases h
  | ok run =>
    rw [hbuild, lift_ok_bind] at h
    obtain ⟨_, heq⟩ := check_bind_ok.mp hbuild
    cases heq
    obtain ⟨c, hbuilt, rfl⟩ := attempt_ok h
    obtain ⟨rfl, _⟩ := NorthStackConfig.build_ok.mp hbuilt
    exact ⟨_, rfl, rfl, rfl⟩

/-- The view's own settings are accepted. -/
theorem putRun_view (hs : s.config.Valid lib) :
    ∃ s', putRun lib (runView s.config.run) s = .ok () s' := by
  have hbuild : RunConfig.build { s.config.run with memoryEnabled := false } =
      .ok { s.config.run with memoryEnabled := false } := check_bind_ok.mpr ⟨hs.run, rfl⟩
  have hput : putRun lib (runView s.config.run) s =
      (lift (.ok { s.config.run with memoryEnabled := false }) >>= updateRun lib) s := by
    rw [← hbuild]
    rfl
  rw [hput, lift_ok_bind]
  refine ⟨_, attempt_of_ok (NorthStackConfig.build_ok.mpr ⟨rfl, ?_⟩)⟩
  exact ⟨hs.consistent.named, hs.consistent.profiles, hs.consistent.commands, hs.consistent.roles,
    hs.consistent.declared⟩

/-- **What edits keep.** A clone that is accepted, as it is under every name that is a
profile's and that no profile has without regard to case, is its source under the new name
exactly if the source's transport has the default settings. Putting the run's settings, as
the view shows them or edited, leaves the setting that the view does not show unchanged
exactly if it is off. -/
theorem edits_keep_iff (lib : Platform) (toml : Library) (s : ConfigStore toml)
    (hs : s.config.Valid lib) :
    ((∀ name newName s', duplicateProfile lib name newName s = .ok () s' →
        ∃ src cloned, s.config.profile name = some src ∧
          s'.config = { s.config with profiles := s.config.profiles ++ [cloned] } ∧
          (cloned = { src with name := newName } ↔ DefaultTransport src)) ∧
      ∀ name newName src, s.config.profile name = some src → ProfileName newName →
        casefold lib newName ∉ (s.config.profiles.map fun p => casefold lib p.name) →
        ∃ s', duplicateProfile lib name newName s = .ok () s') ∧
    (∀ body s', putRun lib body s = .ok () s' →
        runView s'.config.run = body ∧
        s'.config = { s.config with run := s'.config.run } ∧
        (s'.config.run.memoryEnabled = s.config.run.memoryEnabled ↔
          s.config.run.memoryEnabled = false)) ∧
      ∃ s', putRun lib (runView s.config.run) s = .ok () s' := by
  refine ⟨⟨?_, ?_⟩, ?_, putRun_view hs⟩
  · intro name newName s' hok
    obtain ⟨src, hsrc, hconfig⟩ := duplicateProfile_ok hok
    exact ⟨src, _, hsrc, hconfig, clone_eq_iff⟩
  · intro name newName src hsrc hname hnew
    exact duplicateProfile_accepted hs hsrc hname hnew
  · intro body s' hok
    obtain ⟨run, hconfig, hview, hmemory⟩ := putRun_ok hok
    rw [hconfig]
    refine ⟨hview, rfl, ?_⟩
    rw [hmemory]
    exact eq_comm

/-! ## A clone that waits less -/

/-- A profile of a model that takes its time. -/
def slowProfile : ModelProfile where
  name := "slow"
  protocol := .openaiChat
  baseUrl := "https://example.com/v1"
  model := "m"
  apiKeyEnv := some "KEY"
  maxConcurrency := 1
  requestTimeoutSeconds := 600

def slowStore : ConfigStore plainToml :=
  ConfigStore.init { memoryConfig with profiles := [slowProfile] } "northstack.toml" none

theorem slowStore_valid : slowStore.config.Valid asciiPlatform where
  profiles := by
    have hslow : slowProfile.Valid asciiPlatform := by decide +kernel
    intro p hp
    rw [List.mem_singleton.mp hp]
    exact hslow
  commands := (memoryConfig_valid asciiPlatform).commands
  run := (memoryConfig_valid asciiPlatform).run
  routing := (memoryConfig_valid asciiPlatform).routing
  consistent := NorthStackConfig.check_ok.mp (by decide +kernel)

theorem edits_keep_slow : slowStore.config.Valid asciiPlatform ∧
    ∃ s', putRun asciiPlatform (runView slowStore.config.run) slowStore = .ok () s' :=
  ⟨slowStore_valid, (edits_keep_iff asciiPlatform plainToml slowStore slowStore_valid).2.2⟩

/-- The clone's timeout is the default, and putting the run's settings as they were shown
turns memory off. -/
theorem clone_waits_less : slowStore.config.Valid asciiPlatform ∧
    (∃ s', duplicateProfile asciiPlatform "slow" "copy" slowStore = .ok () s' ∧
      ¬ ∃ src, slowStore.config.profile "slow" = some src ∧
        s'.config = { slowStore.config with
          profiles := slowStore.config.profiles ++ [{ src with name := "copy" }] }) ∧
    ∃ s', putRun asciiPlatform (runView slowStore.config.run) slowStore = .ok () s' ∧
      s'.config.run.memoryEnabled ≠ slowStore.config.run.memoryEnabled := by
  have hsrc : slowStore.config.profile "slow" = some slowProfile := by decide +kernel
  have hcopy : ProfileName "copy" := by
    unfold ProfileName
    decide
  refine ⟨slowStore_valid, ?_, ?_⟩
  · obtain ⟨s', hok⟩ := duplicateProfile_accepted slowStore_valid hsrc hcopy (by decide +kernel)
    refine ⟨s', hok, ?_⟩
    intro h
    obtain ⟨src, hsome, hconfig⟩ := h
    obtain ⟨src', hsome', hcloned⟩ := duplicateProfile_ok hok
    rw [hsrc] at hsome hsome'
    cases hsome
    cases hsome'
    rw [hcloned] at hconfig
    have hlast := List.append_cancel_left (congrArg NorthStackConfig.profiles hconfig)
    have htimeout := (clone_eq_iff.mp (List.singleton_inj.mp hlast)).timeout
    revert htimeout
    decide
  · obtain ⟨s', hok⟩ := putRun_view slowStore_valid
    obtain ⟨run, hconfig, _, hmemory⟩ := putRun_ok hok
    refine ⟨s', hok, ?_⟩
    rw [hconfig, hmemory]
    decide

end Config

end Northstack
