import Northstack.Application.TypedCriteria

/-!
# From the value of the model to a contract

Mirrors `DeterministicSynthesizer.synthesize` of application/contracting.py, and what is done
with the acceptance analysis before it: `run_acceptance`, `_normalize_command_criteria` and
`_upgrade_test_goal_criterion`. The id of the contract is made by the clock and left out;
the request and the two other analyses are valid, so that only what comes from the value can
be refused.

**Result** (`blameless_iff`). The value is to blame for no exception exactly when it is
`Sound`: what is looked up in a set is hashable, the paths looked at can be encoded, and
risks, ambiguities and threshold are what they should be.
-/
namespace Northstack

open TextFiles Posix TestGoals FileGates

namespace Acceptance

/-! ## The contract -/

/-- `RequirementsAnalysis` -/
structure RequirementsAnalysis where
  scope : Text := []
  deliverables : List Text := []
  constraints : List Text := []
  assumptions : List Text := []
  ambiguities : List Text := []

/-- `RepoAnalysis`, as far as the contract takes from it. -/
structure RepoAnalysis where
  workspaceScope : Text := []
  conventions : List Text := []

/-- `ProjectRequest`, as far as the contract takes from it. -/
structure Request where
  goal : Text
  workspaceRoot : Text
  toolPolicy : List Text := []

/-- `WorkContract` -/
structure Contract where
  objective : Text
  scope : Text
  deliverables : List Text
  constraints : List Text
  assumptions : List Text
  allowedTools : List Text
  workspaceScope : Text
  budget : Budget
  acceptanceCriteria : List Criterion
  unresolvedAmbiguity : List Text
  abstentionThreshold : PyFloat

/-- `ge=0.0, le=1.0` -/
def inUnit : PyFloat → Bool
  | .finite neg mag => (neg → mag = 0) ∧ mag ≤ 1
  | _ => false

def defaultCriterion : Criterion := ⟨text "default quality rubric", .softRubric []⟩

/-- Everything the pipeline is given beside the value. -/
structure Intake where
  request : Request
  requirements : RequirementsAnalysis := {}
  repo : RepoAnalysis := {}
  budget : Budget
  config : Option (List CommandConfig)
  /-- `_deterministic_file_content_analysis` -/
  fileContentGoal : Text → Option (Text × Text)
  /-- `_TEST_GOAL_RE.search` -/
  testGoal : Text → Bool
  printable : Char → Bool
  lax : Lax
  sha256 : ByteArray → Digest
  fs : FileSystem
  limits : TreeLimits := {}
  links : Nat
  root : Path

namespace Intake

variable (I : Intake)

/-- `synthesize` (contracting.py:546-587) -/
def synthesize (criteria : List Dict) (ambiguities : List Text) (threshold : PyFloat) :
    Except AcceptanceError Contract :=
  let parsed := (criteria.mapIdx fun i c => criterionFromDict I.lax c i).reduceOption
  if inUnit threshold then
    .ok
      { objective := I.request.goal
        scope := I.requirements.scope
        deliverables :=
          if I.requirements.deliverables = [] then [text "deliverable_1"]
          else I.requirements.deliverables
        constraints := I.requirements.constraints ++ I.repo.conventions
        assumptions := I.requirements.assumptions
        allowedTools := I.request.toolPolicy
        workspaceScope :=
          if I.repo.workspaceScope = [] then I.request.workspaceRoot else I.repo.workspaceScope
        budget := I.budget
        acceptanceCriteria := if parsed.isEmpty then [defaultCriterion] else parsed
        unresolvedAmbiguity := I.requirements.ambiguities ++ ambiguities
        abstentionThreshold := threshold }
  else .error .invalidContract

/-- `run_acceptance` on the value. -/
def analyse (data : Data) : Except AcceptanceError Analysis :=
  runAcceptance I.printable I.fs I.root I.request.goal I.lax I.fileContentGoal data

/-- `_upgrade_test_goal_criterion` -/
def upgrade (fuel : Nat) (criteria : List Proposed) : Except AcceptanceError (List Dict) :=
  (upgradeTestGoalCriterion I.sha256 I.fs I.limits I.links fuel I.root I.testGoal I.request.goal
    I.config (criteria.map Proposed.toDict)).mapError .upgrade

/-- From the value to the contract (contracting.py:778-820). -/
def compile (fuel : Nat) (data : Data) : Except AcceptanceError Contract := do
  let analysis ← I.analyse data
  let criteria ← normalizeCommandCriteria I.config analysis.criteria
  let upgraded ← I.upgrade fuel criteria
  I.synthesize upgraded analysis.ambiguities analysis.recommendedAbstentionThreshold

end Intake

/-! ## Blame -/

/-- The exception is none of the workspace's own. -/
def AcceptanceError.ofValue : AcceptanceError → Bool
  | .upgrade e => !e.ofWorkspace
  | _ => true

/-- The criteria of the analysis, if the drop leaves these. -/
def orDefault (out : List Proposed) : List Proposed :=
  if out.isEmpty then [defaultRubric] else out

namespace Intake

variable (I : Intake)

/-- The walk over the suite has come to its end. -/
def Walks (fuel : Nat) : Prop := (rglobTests I.fs fuel (I.root ++ [testsDir])).isSome

/-- The dictionary is a criterion of the value, without its needle or with its command repaired
if need be; or it is the default, or a guard. -/
def Comes (data : Data) (d : Dict) : Prop :=
  d = defaultRubric.toDict ∨ (∃ g : Guard, d = g.toDict) ∨
    ∃ p ∈ proposals I.printable data, ∃ c, d = c.toDict ∧
      (c = p.kept I.printable I.fs I.root I.request.goal ∨ ∃ commands, I.config = some commands ∧
        normalized? commands (p.kept I.printable I.fs I.root I.request.goal) = some c)

/-- The contract has of the value what is valid in it, and defaults for the rest. -/
structure Degrades (data : Data) (contract : Contract) : Prop where
  nonempty : contract.acceptanceCriteria ≠ []
  criteria : ∀ c ∈ contract.acceptanceCriteria, c = defaultCriterion ∨
    ∃ d i, I.Comes data d ∧ criterionFromDict I.lax d i = some c
  ambiguities : contract.unresolvedAmbiguity = I.requirements.ambiguities ++
    (texts? (field "ambiguities" (.list []) data)).getD []
  threshold : contract.abstentionThreshold =
    ((float? I.lax (field "recommended_abstention_threshold" (.float half) data)).filter
      inUnit).getD half

/-- A contract is made, and what of the value is malformed is left out of it; or it is the
workspace that raises. -/
def Blameless (data : Data) : Prop :=
  ∀ fuel, I.Walks fuel →
    (∃ contract, I.compile fuel data = .ok contract ∧
      (I.fileContentGoal I.request.goal = none → I.Degrades data contract)) ∨
    ∃ e : UpgradeError, I.compile fuel data = .error (.upgrade e) ∧ e.ofWorkspace = true

/-- What the pipeline asks of a value of the model. -/
structure Sound (data : Data) : Prop where
  kinds : ∀ d ∈ rawCriteria data, kindHashable d = true
  paths : ∀ c ∈ proposals I.printable data, c.Openable I.printable
  risks : (texts? (field "risks" (.list []) data)).isSome
  ambiguities : (texts? (field "ambiguities" (.list []) data)).isSome
  threshold : ∃ t, float? I.lax (field "recommended_abstention_threshold" (.float half) data) =
    some t ∧ inUnit t = true
  commands : ∀ commands, I.config = some commands → commands ≠ [] →
    ∀ c ∈ proposals I.printable data, c.kind = .command →
      (c.param "command_name").hashable = true
  names : ∀ commands, I.config = some commands →
    Upgrades I.fs I.root I.testGoal I.request.goal commands →
    ∀ pre c post, proposals I.printable data = pre ++ c :: post →
      ¬ c.Dropped I.printable I.fs I.root I.request.goal [] pre → c.Namable commands

/-- The workspace raises nothing by itself: whatever criteria can be in `have`, the upgrade comes
to its end; and no directory of the suite is endlessly deep. -/
structure Answers : Prop where
  upgrade : ∀ fuel, I.Walks fuel → ∀ criteria known, criteria.mapM namedBy = .ok known →
    ∃ out, upgradeGuards I.sha256 I.fs I.limits I.links fuel I.root I.testGoal I.request.goal
      I.config criteria = .ok out
  depth : ∃ n, ∀ d, Worklist.Reached (fun d => globDirs I.fs (I.root ++ [testsDir] ++ d)) d →
    d.length ≤ n

end Intake

section

variable {I : Intake} {data : Data} {fuel : Nat} {cs out : List Proposed} {a : Analysis}
  {commands : List CommandConfig} {e : AcceptanceError} {contract : Contract}

/-! ### The analysis -/

/-- What an analysis of the value comes to. -/
theorem analyse_ok (hmodel : I.fileContentGoal I.request.goal = none)
    (h : I.analyse data = .ok a) :
    (∀ d ∈ rawCriteria data, kindHashable d = true) ∧
      (∀ c ∈ proposals I.printable data, c.Openable I.printable) ∧
      (∃ out, dropUngrounded I.printable I.fs I.root I.request.goal []
        (proposals I.printable data) = .ok out ∧ a.criteria = orDefault out) ∧
      texts? (field "risks" (.list []) data) = some a.risks ∧
      texts? (field "ambiguities" (.list []) data) = some a.ambiguities ∧
      float? I.lax (field "recommended_abstention_threshold" (.float half) data) =
        some a.recommendedAbstentionThreshold := by
  unfold Intake.analyse runAcceptance at h
  rw [hmodel] at h
  by_cases hkinds : ∀ d ∈ rawCriteria data, kindHashable d = true
  · by_cases hpaths : ∀ c ∈ proposals I.printable data, c.Openable I.printable
    · have hdrop : ∃ out, dropUngrounded I.printable I.fs I.root I.request.goal []
          (proposals I.printable data) = .ok out := dropUngrounded_isOk hpaths
      obtain ⟨out, hout⟩ := hdrop
      simp only [coerceCriteria_ok hkinds, hout, bind, Except.bind] at h
      split at h
      · rename_i risks ambiguities threshold hrisks hambiguities hthreshold
        cases h
        exact ⟨hkinds, hpaths, ⟨out, hout, rfl⟩, hrisks, hambiguities, hthreshold⟩
      · cases h
    · simp only [coerceCriteria_ok hkinds, dropUngrounded_error hpaths, bind, Except.bind] at h
      cases h
  · simp only [coerceCriteria_error hkinds, bind, Except.bind] at h
    cases h

/-- What an analysis raises is for the value's sake. -/
theorem analyse_error (h : I.analyse data = .error e) : e.ofValue = true := by
  unfold Intake.analyse runAcceptance at h
  split at h
  · cases h
  · by_cases hkinds : ∀ d ∈ rawCriteria data, kindHashable d = true
    · by_cases hpaths : ∀ c ∈ proposals I.printable data, c.Openable I.printable
      · have hdrop : ∃ out, dropUngrounded I.printable I.fs I.root I.request.goal []
            (proposals I.printable data) = .ok out := dropUngrounded_isOk hpaths
        obtain ⟨out, hout⟩ := hdrop
        simp only [coerceCriteria_ok hkinds, hout, bind, Except.bind] at h
        split at h
        · cases h
        · cases h
          rfl
      · simp only [coerceCriteria_ok hkinds, dropUngrounded_error hpaths, bind, Except.bind] at h
        cases h
        rfl
    · simp only [coerceCriteria_error hkinds, bind, Except.bind] at h
      cases h
      rfl

/-- A sound value has its analysis. -/
theorem analyse_sound (hmodel : I.fileContentGoal I.request.goal = none) (h : I.Sound data) :
    ∃ a, I.analyse data = .ok a := by
  have hdrop : ∃ out, dropUngrounded I.printable I.fs I.root I.request.goal []
      (proposals I.printable data) = .ok out := dropUngrounded_isOk h.paths
  obtain ⟨out, hout⟩ := hdrop
  obtain ⟨risks, hrisks⟩ := Option.isSome_iff_exists.mp h.risks
  obtain ⟨ambiguities, hambiguities⟩ := Option.isSome_iff_exists.mp h.ambiguities
  obtain ⟨threshold, hthreshold, -⟩ := h.threshold
  unfold Intake.analyse runAcceptance
  simp only [hmodel, coerceCriteria_ok h.kinds, hout, bind, Except.bind, hrisks, hambiguities,
    hthreshold]
  exact ⟨_, rfl⟩

/-- The commands of the criteria that are left are those of the value. -/
theorem commands_left (hopen : ∀ c ∈ proposals I.printable data, c.Openable I.printable)
    (hout : dropUngrounded I.printable I.fs I.root I.request.goal []
      (proposals I.printable data) = .ok out) :
    (∀ c ∈ orDefault out, c.kind = .command → (c.param "command_name").hashable = true) ↔
      ∀ c ∈ proposals I.printable data, c.kind = .command →
        (c.param "command_name").hashable = true := by
  have hmem (c : Proposed) (hkind : c.kind = .command) :
      c ∈ orDefault out ↔ c ∈ proposals I.printable data := by
    have hleft : c ∈ orDefault out ↔ c ∈ out := by
      unfold orDefault
      split
      · rename_i hempty
        rw [List.isEmpty_iff.mp hempty, List.mem_singleton]
        constructor
        · rintro rfl
          cases hkind
        · intro hc
          cases hc
      · rfl
    rw [hleft, mem_dropUngrounded hopen hout]
    constructor
    · rintro ⟨pre, d, post, heq, -, rfl⟩
      rw [kept_kind] at hkind
      rw [kept_command hkind, heq]
      simp
    · intro hc
      obtain ⟨pre, post, heq⟩ := List.append_of_mem hc
      refine ⟨pre, c, post, heq, ?_, (kept_command hkind).symm⟩
      rintro ⟨hstrips, -⟩
      rw [strips_kind hstrips] at hkind
      cases hkind
  constructor
  · intro h c hc hkind
    exact h c ((hmem c hkind).mpr hc) hkind
  · intro h c hc hkind
    exact h c ((hmem c hkind).mp hc) hkind

theorem defaultRubric_namable : defaultRubric.Namable commands := by
  have hother : defaultRubric.kind ≠ .command := by decide
  intro c hc
  rw [normalized_other hother] at hc
  cases hc
  decide

/-- The criteria that are left can be in `have` if those can that are not dropped. -/
theorem names_left (hopen : ∀ c ∈ proposals I.printable data, c.Openable I.printable)
    (hout : dropUngrounded I.printable I.fs I.root I.request.goal []
      (proposals I.printable data) = .ok out) :
    (∀ c ∈ orDefault out, c.Namable commands) ↔
      ∀ pre c post, proposals I.printable data = pre ++ c :: post →
        ¬ c.Dropped I.printable I.fs I.root I.request.goal [] pre → c.Namable commands := by
  have hleft : (∀ c ∈ orDefault out, c.Namable commands) ↔ ∀ c ∈ out, c.Namable commands := by
    unfold orDefault
    split
    · rename_i hempty
      rw [List.isEmpty_iff.mp hempty]
      simp [defaultRubric_namable]
    · rfl
  rw [hleft]
  constructor
  · intro h pre c post heq hkeep
    apply namable_kept.mp
    exact h _ ((mem_dropUngrounded hopen hout).mpr ⟨pre, c, post, heq, hkeep, rfl⟩)
  · intro h c hc
    obtain ⟨pre, d, post, heq, hkeep, rfl⟩ := (mem_dropUngrounded hopen hout).mp hc
    exact namable_kept.mpr (h pre d post heq hkeep)

/-! ### After the analysis -/

/-- The commands are repaired, where they can be looked up. -/
theorem normalize_ok (h : ∀ commands, I.config = some commands → commands ≠ [] →
      ∀ c ∈ cs, c.kind = .command → (c.param "command_name").hashable = true) :
    ∃ out, normalizeCommandCriteria I.config cs = .ok out ∧ ∀ commands,
      I.config = some commands → commands ≠ [] → out = cs.filterMap (normalized? commands) := by
  cases hconfig : I.config with
  | none => exact ⟨cs, rfl, by simp⟩
  | some commands =>
    by_cases hcommands : commands = []
    · subst hcommands
      exact ⟨cs, rfl, by simp⟩
    · refine ⟨_, normalizeCommandCriteria_ok hcommands (h commands hconfig hcommands), ?_⟩
      intro other hother _
      cases hother
      rfl

theorem upgrades_commands {fs : FileSystem} {root : Path} {testGoal : Text → Bool} {goal : Text}
    (h : Upgrades fs root testGoal goal commands) : commands ≠ [] := by
  rintro rfl
  obtain ⟨-, hcmd, -⟩ := h
  cases hcmd

theorem upgrade_eq (fuel : Nat) (cs : List Proposed) : I.upgrade fuel cs =
    match upgradeGuards I.sha256 I.fs I.limits I.links fuel I.root I.testGoal I.request.goal
      I.config (cs.map Proposed.toDict) with
    | .error e => .error (.upgrade e)
    | .ok none => .ok (cs.map Proposed.toDict)
    | .ok (some added) => .ok (cs.map Proposed.toDict ++ added.map Guard.toDict) := by
  unfold Intake.upgrade upgradeTestGoalCriterion
  cases upgradeGuards I.sha256 I.fs I.limits I.links fuel I.root I.testGoal I.request.goal
    I.config (cs.map Proposed.toDict) with
  | error e => rfl
  | ok added => cases added <;> rfl

/-- If the criteria can be in `have`, only the workspace makes the upgrade raise. -/
theorem upgrade_cases (hwalk : I.Walks fuel) (h : ∀ commands, I.config = some commands →
      Upgrades I.fs I.root I.testGoal I.request.goal commands → ∀ c ∈ cs, c.nameable = true) :
    (∃ upgraded, I.upgrade fuel cs = .ok upgraded) ∨
      ∃ e : UpgradeError, I.upgrade fuel cs = .error (.upgrade e) ∧ e.ofWorkspace = true := by
  rw [upgrade_eq]
  cases hguards : upgradeGuards I.sha256 I.fs I.limits I.links fuel I.root I.testGoal
      I.request.goal I.config (cs.map Proposed.toDict) with
  | ok added => cases added <;> exact .inl ⟨_, rfl⟩
  | error e =>
    right
    refine ⟨e, rfl, ?_⟩
    cases hconfig : I.config with
    | none =>
      rw [hconfig] at hguards
      cases hguards
    | some commands =>
      rw [hconfig] at hguards
      exact upgradeGuards_error hwalk (fun hgo => namedBy_all (h commands hconfig hgo)) hguards

theorem synthesize_ok {criteria : List Dict} {ambiguities : List Text} {threshold : PyFloat}
    (h : I.synthesize criteria ambiguities threshold = .ok contract) :
    (contract.acceptanceCriteria ≠ [] ∧ ∀ c ∈ contract.acceptanceCriteria,
      c = defaultCriterion ∨ ∃ d i, d ∈ criteria ∧ criterionFromDict I.lax d i = some c) ∧
      contract.unresolvedAmbiguity = I.requirements.ambiguities ++ ambiguities ∧
      contract.abstentionThreshold = threshold ∧ inUnit threshold = true := by
  unfold Intake.synthesize at h
  split at h
  · rename_i hunit
    cases h
    refine ⟨?_, rfl, rfl, hunit⟩
    simp only
    split
    · exact ⟨by simp, fun c hc => .inl (List.mem_singleton.mp hc)⟩
    · rename_i hsome
      refine ⟨fun hnil => hsome (by rw [hnil]; rfl), ?_⟩
      intro c hc
      rw [List.reduceOption_mem_iff, List.mem_mapIdx] at hc
      obtain ⟨i, hi, hparsed⟩ := hc
      exact .inr ⟨_, i, List.getElem_mem hi, hparsed⟩
  · cases h

/-- After an analysis that is sound a contract is made, if the workspace lets it. -/
theorem compile_cases (ha : I.analyse data = .ok a)
    (hcommands : ∀ commands, I.config = some commands → commands ≠ [] →
      ∀ c ∈ a.criteria, c.kind = .command → (c.param "command_name").hashable = true)
    (hnames : ∀ commands, I.config = some commands →
      Upgrades I.fs I.root I.testGoal I.request.goal commands →
      ∀ c ∈ a.criteria, c.Namable commands)
    (hunit : inUnit a.recommendedAbstentionThreshold = true) (hwalk : I.Walks fuel) :
    (∃ contract, I.compile fuel data = .ok contract) ∨
      ∃ e : UpgradeError, I.compile fuel data = .error (.upgrade e) ∧ e.ofWorkspace = true := by
  obtain ⟨criteria, hcriteria, heq⟩ := normalize_ok hcommands
  have hnameable : ∀ commands, I.config = some commands →
      Upgrades I.fs I.root I.testGoal I.request.goal commands →
      ∀ c ∈ criteria, c.nameable = true := by
    intro commands hconfig hgo
    rw [heq commands hconfig (upgrades_commands hgo)]
    exact namable_all.mpr (hnames commands hconfig hgo)
  unfold Intake.compile
  simp only [ha, hcriteria, bind, Except.bind]
  obtain ⟨upgraded, hupgraded⟩ | ⟨e, hupgrade, hworkspace⟩ := upgrade_cases hwalk hnameable
  · left
    simp only [hupgraded]
    unfold Intake.synthesize
    rw [if_pos hunit]
    exact ⟨_, rfl⟩
  · right
    simp only [hupgrade]
    exact ⟨e, rfl, hworkspace⟩

/-- Where the criteria of the contract come from. -/
theorem comes_upgraded {upgraded : List Dict} {criteria : List Proposed} {d : Dict}
    (hopen : ∀ c ∈ proposals I.printable data, c.Openable I.printable)
    (hout : dropUngrounded I.printable I.fs I.root I.request.goal []
      (proposals I.printable data) = .ok out)
    (hcriteria : normalizeCommandCriteria I.config (orDefault out) = .ok criteria)
    (hupgraded : I.upgrade fuel criteria = .ok upgraded) (hd : d ∈ upgraded) :
    I.Comes data d := by
  -- a criterion left by the drop is the default or one of the value's
  have hleft (c : Proposed) (hc : c ∈ orDefault out) : c = defaultRubric ∨
      ∃ p ∈ proposals I.printable data, c = p.kept I.printable I.fs I.root I.request.goal := by
    unfold orDefault at hc
    split at hc
    · exact .inl (List.mem_singleton.mp hc)
    · obtain ⟨pre, p, post, heq, -, rfl⟩ := (mem_dropUngrounded hopen hout).mp hc
      exact .inr ⟨p, by rw [heq]; simp, rfl⟩
  have hnormal (c : Proposed) (hc : c ∈ criteria) : c ∈ orDefault out ∨
      ∃ commands, I.config = some commands ∧ ∃ c₀ ∈ orDefault out,
        normalized? commands c₀ = some c := by
    unfold normalizeCommandCriteria at hcriteria
    split at hcriteria
    · cases hcriteria
      exact .inl hc
    · cases hcriteria
      exact .inl hc
    · rename_i commands _ hconfig
      cases hall : (orDefault out).mapM (normalize commands) with
      | error e =>
        rw [hall] at hcriteria
        cases hcriteria
      | ok all =>
        rw [hall] at hcriteria
        cases hcriteria
        obtain ⟨c₀, hc₀, hstep⟩ := (Fallible.mapM_ok hall).1 _ (List.reduceOption_mem_iff.mp hc)
        unfold normalize at hstep
        split at hstep
        · cases hstep
        · exact .inr ⟨commands, hconfig, c₀, hc₀, Except.ok.inj hstep⟩
  have hmem : d ∈ criteria.map Proposed.toDict ∨ ∃ g : Guard, d = g.toDict := by
    rw [upgrade_eq] at hupgraded
    split at hupgraded
    · cases hupgraded
    · cases hupgraded
      exact .inl hd
    · cases hupgraded
      obtain hd | hd := List.mem_append.mp hd
      · exact .inl hd
      · obtain ⟨g, -, hg⟩ := List.mem_map.mp hd
        exact .inr ⟨g, hg.symm⟩
  obtain hmem | hguard := hmem
  · obtain ⟨c, hc, rfl⟩ := List.mem_map.mp hmem
    obtain hc | ⟨commands, hconfig, c₀, hc₀, hstep⟩ := hnormal c hc
    · obtain rfl | ⟨p, hp, rfl⟩ := hleft c hc
      · exact .inl rfl
      · exact .inr (.inr ⟨p, hp, _, rfl, .inl rfl⟩)
    · obtain rfl | ⟨p, hp, rfl⟩ := hleft c₀ hc₀
      · rw [normalized_other CriterionKind.noConfusion] at hstep
        cases hstep
        exact .inl rfl
      · exact .inr (.inr ⟨p, hp, c, rfl, .inr ⟨commands, hconfig, hstep⟩⟩)
  · exact .inr (.inl hguard)

/-- What a contract has of the value. -/
theorem compile_degrades (hmodel : I.fileContentGoal I.request.goal = none)
    (h : I.compile fuel data = .ok contract) : I.Degrades data contract := by
  unfold Intake.compile at h
  cases ha : I.analyse data with
  | error e =>
    rw [ha] at h
    cases h
  | ok a =>
    simp only [ha, bind, Except.bind] at h
    obtain ⟨-, hopen, ⟨out, hout, hcriteria⟩, -, hambiguities, hthreshold⟩ :=
      analyse_ok hmodel ha
    split at h
    · cases h
    rename_i criteria hnormal
    split at h
    · cases h
    rename_i upgraded hupgraded
    rw [hcriteria] at hnormal
    obtain ⟨⟨hsome, hall⟩, hunresolved, habstention, hunit⟩ := synthesize_ok h
    refine ⟨hsome, ?_, ?_, ?_⟩
    · intro c hc
      obtain rfl | ⟨d, i, hd, hparsed⟩ := hall c hc
      · exact .inl rfl
      · exact .inr ⟨d, i, comes_upgraded hopen hout hnormal hupgraded hd, hparsed⟩
    · rw [hunresolved, hambiguities]
      rfl
    · rw [habstention, hthreshold, Option.filter_some, if_pos hunit]
      rfl

/-- What the model is not asked for is sound. -/
theorem fileContent_blameless {path content : Text}
    (hgoal : I.fileContentGoal I.request.goal = some (path, content)) : I.Blameless data := by
  have ha : I.analyse data = .ok ⟨[fileContentCriterion path content], [], [], half⟩ := by
    unfold Intake.analyse runAcceptance
    rw [hgoal]
  have hkind (commands : List CommandConfig) :
      normalized? commands (fileContentCriterion path content) =
        some (fileContentCriterion path content) := by
    apply normalized_other
    exact CriterionKind.noConfusion
  have hunit : inUnit half = true := by decide +kernel
  have hcommands : ∀ commands, I.config = some commands → commands ≠ [] →
      ∀ c ∈ [fileContentCriterion path content], c.kind = .command →
        (c.param "command_name").hashable = true := by
    intro commands _ _ c hc hcommand
    rw [List.mem_singleton.mp hc] at hcommand
    cases hcommand
  have hnames : ∀ commands, I.config = some commands →
      Upgrades I.fs I.root I.testGoal I.request.goal commands →
      ∀ c ∈ [fileContentCriterion path content], c.Namable commands := by
    intro commands _ _ c hc c' hc'
    rw [List.mem_singleton.mp hc, hkind] at hc'
    cases hc'
    simp [Proposed.nameable, Proposed.name, Proposed.exitCode, Proposed.param,
      fileContentCriterion, Dict.getD, text_inj, Data.truthy, Data.hashable]
  intro fuel hwalk
  obtain ⟨contract, hcontract⟩ | hraised := compile_cases ha hcommands hnames hunit hwalk
  · refine .inl ⟨contract, hcontract, ?_⟩
    intro hmodel
    rw [hgoal] at hmodel
    cases hmodel
  · exact .inr hraised

theorem sound_blameless (hmodel : I.fileContentGoal I.request.goal = none) (h : I.Sound data) :
    I.Blameless data := by
  obtain ⟨a, ha⟩ := analyse_sound hmodel h
  obtain ⟨-, hopen, ⟨out, hout, hcriteria⟩, -, -, hthreshold⟩ := analyse_ok hmodel ha
  obtain ⟨t, ht, hunit⟩ := h.threshold
  rw [hthreshold] at ht
  cases ht
  have hcommands : ∀ commands, I.config = some commands → commands ≠ [] →
      ∀ c ∈ a.criteria, c.kind = .command → (c.param "command_name").hashable = true := by
    intro commands hconfig hne
    rw [hcriteria]
    exact (commands_left hopen hout).mpr (h.commands commands hconfig hne)
  have hnames : ∀ commands, I.config = some commands →
      Upgrades I.fs I.root I.testGoal I.request.goal commands →
      ∀ c ∈ a.criteria, c.Namable commands := by
    intro commands hconfig hgo
    rw [hcriteria]
    exact (names_left hopen hout).mpr (h.names commands hconfig hgo)
  intro fuel hwalk
  obtain ⟨contract, hcontract⟩ | hraised := compile_cases ha hcommands hnames hunit hwalk
  · exact .inl ⟨contract, hcontract, fun _ => compile_degrades hmodel hcontract⟩
  · exact .inr hraised

/-- In a workspace that answers, a value to blame for nothing is sound. -/
theorem blameless_sound (hmodel : I.fileContentGoal I.request.goal = none) (hanswers : I.Answers)
    (h : I.Blameless data) : I.Sound data := by
  obtain ⟨n, hdepth⟩ := hanswers.depth
  obtain ⟨fuel, hends⟩ := rglobTests_ends hdepth
  have hwalk : I.Walks fuel := hends fuel le_rfl
  have hstop (e : AcceptanceError) (he : I.compile fuel data = .error e)
      (hvalue : e.ofValue = true) : False := by
    obtain ⟨contract, hcontract, -⟩ | ⟨e', hraised, hworkspace⟩ := h fuel hwalk
    · rw [he] at hcontract
      cases hcontract
    · rw [he] at hraised
      cases hraised
      simp [AcceptanceError.ofValue, hworkspace] at hvalue
  cases ha : I.analyse data with
  | error e =>
    exfalso
    refine hstop e ?_ (analyse_error ha)
    unfold Intake.compile
    rw [ha]
    rfl
  | ok a =>
    obtain ⟨hkinds, hopen, ⟨out, hout, hcriteria⟩, hrisks, hambiguities, hthreshold⟩ :=
      analyse_ok hmodel ha
    have hcommands : ∀ commands, I.config = some commands → commands ≠ [] →
        ∀ c ∈ a.criteria, c.kind = .command → (c.param "command_name").hashable = true := by
      intro commands hconfig hne
      by_contra hbad
      refine hstop .typeError ?_ rfl
      unfold Intake.compile
      rw [ha, hconfig]
      simp only [bind, Except.bind, normalizeCommandCriteria_error hne hbad]
    obtain ⟨criteria, hnormal, heq⟩ := normalize_ok hcommands
    have hnames : ∀ commands, I.config = some commands →
        Upgrades I.fs I.root I.testGoal I.request.goal commands →
        ∀ c ∈ a.criteria, c.Namable commands := by
      intro commands hconfig hgo
      by_contra hbad
      rw [← namable_all, ← heq commands hconfig (upgrades_commands hgo)] at hbad
      refine hstop (.upgrade .typeError) ?_ rfl
      unfold Intake.compile
      simp only [ha, hnormal, bind, Except.bind, upgrade_eq]
      rw [hconfig, upgradeGuards_raises hgo (namedBy_error hbad)]
    -- the upgrade comes to its end, so that the contract is built
    have hupgraded : ∃ upgraded, I.upgrade fuel criteria = .ok upgraded := by
      have hguards : ∃ added, upgradeGuards I.sha256 I.fs I.limits I.links fuel I.root I.testGoal
          I.request.goal I.config (criteria.map Proposed.toDict) = .ok added := by
        cases hconfig : I.config with
        | none => exact ⟨none, rfl⟩
        | some commands =>
          rw [← hconfig]
          by_cases hgo : Upgrades I.fs I.root I.testGoal I.request.goal commands
          · have hall := namable_all.mpr (hnames commands hconfig hgo)
            rw [← heq commands hconfig (upgrades_commands hgo)] at hall
            obtain ⟨known, hknown⟩ := namedBy_all hall
            exact hanswers.upgrade fuel hwalk _ known hknown
          · have hnone := hanswers.upgrade fuel hwalk [] [] rfl
            rw [hconfig] at hnone ⊢
            rw [upgradeGuards_other hgo]
            exact hnone
      obtain ⟨added, hadded⟩ := hguards
      rw [upgrade_eq, hadded]
      cases added <;> exact ⟨_, rfl⟩
    obtain ⟨upgraded, hupgraded⟩ := hupgraded
    refine ⟨hkinds, hopen, by rw [hrisks]; rfl, by rw [hambiguities]; rfl,
      ⟨_, hthreshold, ?_⟩, ?_, ?_⟩
    · by_contra hunit
      refine hstop .invalidContract ?_ rfl
      unfold Intake.compile
      simp only [ha, hnormal, hupgraded, bind, Except.bind]
      unfold Intake.synthesize
      rw [if_neg hunit]
    · intro commands hconfig hne
      rw [← commands_left hopen hout, ← hcriteria]
      exact hcommands commands hconfig hne
    · intro commands hconfig hgo
      rw [← names_left hopen hout, ← hcriteria]
      exact hnames commands hconfig hgo

end

/-- An empty workspace and a goal of no kind that is known; no other types are converted. -/
def plainIntake : Intake where
  request := { goal := text "tidy up", workspaceRoot := text "/w" }
  budget := Budget.default
  config := none
  fileContentGoal := fun _ => none
  testGoal := fun _ => false
  printable := fun _ => true
  lax := ⟨fun _ => none, fun _ => none, fun _ => none⟩
  sha256 := fun _ => ⟨⟨Array.replicate 32 0⟩, rfl⟩
  fs := Workspace.emptyWorkspace
  links := 0
  root := [text "w"]

/-- `{"criteria": [{"kind": [], "parameters": {}}]}` -/
def listKind : Data :=
  .dict [(text "criteria", .list
    [.dict [(text "kind", .list []), (text "parameters", .dict [])]])]

end Acceptance

end Northstack
