import Mathlib
import Northstack.Core.PyText
import Northstack.Domain.Graph

/-!
# Rule-based routing of a cell onto a model profile

Mirrors application/routing.py, `ModelProfile.tier` and the routing table of
config.py. Scores are exact rationals; the candidates keep the configuration's
order among equal scores, as the source's stable sort does.

**Result.** `route_selected_ne`: a decision that did not abstain never names an
excluded profile.
-/
namespace Northstack

inductive Capability where
  | toolUse | nativeJsonSchema | vision | streaming | promptCaching
  deriving DecidableEq, Repr

/-- `Capability(value)`; `none` where the source raises `ValueError`. -/
def Capability.ofValue (value : String) : Option Capability :=
  if value = "tool_use" then some .toolUse
  else if value = "native_json_schema" then some .nativeJsonSchema
  else if value = "vision" then some .vision
  else if value = "streaming" then some .streaming
  else if value = "prompt_caching" then some .promptCaching
  else none

inductive Role where
  | worker | reviewer | planner | specialist | orchestrator
  deriving DecidableEq, Repr

def Role.value : Role → String
  | .worker => "worker"
  | .reviewer => "reviewer"
  | .planner => "planner"
  | .specialist => "specialist"
  | .orchestrator => "orchestrator"

/-- The fields of `ModelProfile` (config.py:101-284) routing and the worker read. -/
structure ModelProfile where
  name : String
  roles : List Role := [.worker]
  capabilities : List Capability := [.toolUse]
  maxConcurrency : Nat := 1
  contextWindowTokens : Nat := 128000
  maxOutputTokens : Nat := 4096
  inputPricePerMillionUsd : ℚ≥0 := 0
  outputPricePerMillionUsd : ℚ≥0 := 0

/-- `ModelProfile.tier` -/
def ModelProfile.tier (p : ModelProfile) : Nat :=
  let avgPrice := (p.inputPricePerMillionUsd + p.outputPricePerMillionUsd) / 2.0
  if avgPrice = 0 then 1 else if avgPrice < 2.0 then 1 else if avgPrice < 15.0 then 2 else 3

/-- The part of the configuration the pipeline reads; `routing` maps a role's
name to its ordered profiles. -/
structure NorthStackConfig where
  profiles : List ModelProfile := []
  routing : List (String × List String) := []
  run : RunConfig := {}

/-- One scored candidate. -/
structure Candidate where
  profileName : String
  score : ℚ
  reason : String
  tier : Nat

structure RouteDecision where
  cellId : String
  candidates : List Candidate := []
  selectedProfile : String := ""
  reason : String := ""
  abstained : Bool := false

def sortStrings (xs : List String) : List String := xs.insertionSort (· ≤ ·)

/-- `role_order` (routing.py:92-97): the profile's place in the chain of each
required role that lists it. -/
def roleOrder (config : NorthStackConfig) (profile : ModelProfile) (requiredRoles : List String) :
    List (String × Nat) :=
  requiredRoles.dedup.filterMap fun role =>
    let ordered := (config.routing.lookup role).getD []
    if profile.name ∈ ordered then some (role, ordered.idxOf profile.name) else none

/-- `_TIER_SCORE` -/
def tierScore (mode : CellMode) (tier : Nat) : ℚ :=
  match mode, tier with
  | .mutating, 1 => 1
  | .mutating, 2 => 2
  | .mutating, 3 => 3
  | .readOnly, 1 => 3
  | .readOnly, 2 => 2
  | .readOnly, 3 => 1
  | _, _ => 1

/-- The score of a profile that passed the filters (routing.py:113-133). -/
def scoreEligible (profile : ModelProfile) (cell : GraphCell) (order : List (String × Nat)) :
    Candidate :=
  let bonus : ℚ := if 1 < profile.maxConcurrency then 1 / 2 else 0
  let bonusReason := if 1 < profile.maxConcurrency then "; high concurrency" else ""
  match order with
  | (_, o) :: rest =>
    let bestOrder := rest.foldl (fun b r => min b r.2) o
    { profileName := profile.name
      score := (1000 - (bestOrder : ℚ)) * 10 + bonus
      reason := s!"role order {bestOrder} for " ++
        PyText.reprList (sortStrings (order.map (·.1))) ++ bonusReason
      tier := profile.tier }
  | [] =>
    { profileName := profile.name
      score := tierScore cell.mode profile.tier + bonus
      reason := s!"tier-{profile.tier} for {cell.mode.value}{bonusReason}"
      tier := profile.tier }

/-- The role filter (routing.py:89-102): the profile's place in the required
roles' chains, `none` if it fills none of them. -/
def eligibleRoles (config : NorthStackConfig) (profile : ModelProfile)
    (requiredRoles : List String) : Option (List (String × Nat)) :=
  if config.routing ≠ [] ∧ requiredRoles ≠ [] then
    match roleOrder config profile requiredRoles with
    | [] => none
    | o :: os => some (o :: os)
  else if requiredRoles ≠ [] ∧ ¬ ∃ r ∈ profile.roles, r.value ∈ requiredRoles then none
  else some []

/-- `Router._score_profile` (routing.py:81-135) -/
def scoreProfile (config : NorthStackConfig) (profile : ModelProfile) (cell : GraphCell)
    (remainingBudget : Option RemainingBudget) (requiredCaps : List Capability) :
    Option Candidate :=
  match eligibleRoles config profile cell.requiredProfileRoles with
  | none => none
  | some order =>
    if ∀ cap ∈ requiredCaps, cap ∈ profile.capabilities then
      if 3 ≤ profile.tier ∧
          ((remainingBudget.bind (·.costUsd)).any fun c => 0 < c && c < 1) = true then none
      else some (scoreEligible profile cell order)
    else none

/-- `Router.route` (routing.py:43-79) -/
def route (config : NorthStackConfig) (cell : GraphCell)
    (remainingBudget : Option RemainingBudget) (excludedProfiles : List String)
    (requireCapabilities : List Capability) : RouteDecision :=
  let requiredCaps := requireCapabilities ++ cell.requiredCapabilities.filterMap Capability.ofValue
  let candidates := (config.profiles.filter (·.name ∉ excludedProfiles)).filterMap fun profile =>
    scoreProfile config profile cell remainingBudget requiredCaps
  match candidates.insertionSort (fun a b => b.score ≤ a.score) with
  | [] => { cellId := cell.id, reason := "no eligible profile found", abstained := true }
  | best :: rest =>
    { cellId := cell.id
      candidates := best :: rest
      selectedProfile := best.profileName
      reason := best.reason }

theorem scoreEligible_name (profile : ModelProfile) (cell : GraphCell)
    (order : List (String × Nat)) :
    (scoreEligible profile cell order).profileName = profile.name := by
  cases order <;> rfl

theorem scoreProfile_name {config : NorthStackConfig} {profile : ModelProfile} {cell : GraphCell}
    {remaining : Option RemainingBudget} {caps : List Capability} {c : Candidate}
    (h : scoreProfile config profile cell remaining caps = some c) :
    c.profileName = profile.name := by
  unfold scoreProfile at h
  split at h
  · cases h
  · split at h
    · split at h
      · cases h
      · rw [← Option.some.inj h, scoreEligible_name]
    · cases h

/-- A decision that did not abstain names a profile that passed the filters. -/
theorem route_selected {config : NorthStackConfig} {cell : GraphCell}
    {remaining : Option RemainingBudget} {excluded : List String} {caps : List Capability}
    (h : (route config cell remaining excluded caps).abstained = false) :
    ∃ profile ∈ config.profiles, profile.name ∉ excluded ∧
      (route config cell remaining excluded caps).selectedProfile = profile.name ∧
      (scoreProfile config profile cell remaining
        (caps ++ cell.requiredCapabilities.filterMap Capability.ofValue)).isSome = true := by
  unfold route at h ⊢
  dsimp only at h ⊢
  split at h
  · cases h
  · rename_i best rest hsort
    have hmem := List.mem_insertionSort (fun a b : Candidate => b.score ≤ a.score)
      |>.mp (hsort ▸ List.mem_cons_self : best ∈ _)
    obtain ⟨profile, hp, hs⟩ := List.mem_filterMap.mp hmem
    obtain ⟨hprofile, hexcluded⟩ := List.mem_filter.mp hp
    exact ⟨profile, hprofile, by simpa using hexcluded, scoreProfile_name hs, by rw [hs]; rfl⟩

/-- A selected profile was not excluded. -/
theorem route_selected_ne {config : NorthStackConfig} {cell : GraphCell}
    {remaining : Option RemainingBudget} {excluded : List String} {caps : List Capability}
    (h : (route config cell remaining excluded caps).abstained = false) :
    (route config cell remaining excluded caps).selectedProfile ∉ excluded := by
  obtain ⟨profile, -, hexcluded, hname, -⟩ := route_selected h
  rwa [hname]

end Northstack
