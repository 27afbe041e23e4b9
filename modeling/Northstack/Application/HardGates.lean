import Northstack.Application.ReleaseLaw
import Northstack.Core.PyText

/-!
# Hard acceptance gates

Mirrors the parts of application/verification/hard_gates.py that do not touch
the file system: the policy gate and the shape of every result. A command,
file, tree or schema gate is answered by the environment.

**Result.** `checkPolicy_passed`: a `forbidden_tools` gate passes exactly when
no forbidden tool is in the audit it is given.
-/
namespace Northstack

/-- What the workspace and the artifact store make of a gate. -/
structure GateAnswer where
  passed : Bool
  detail : String := ""
  evidenceRef : Option ArtifactRef := none

/-- `_check_policy` (hard_gates.py:388-413) -/
def checkPolicy (check : String) (tools : List String) (index : Nat) (toolsUsed : List String) :
    HardCheckResult :=
  if check = "forbidden_tools" then
    let violations := toolsUsed.filter (· ∈ tools)
    { criterionIndex := index
      kind := .policy
      passed := violations = []
      detail := if violations = [] then "policy ok"
        else s!"forbidden tools: {PyText.reprList violations}" }
  else
    { criterionIndex := index
      kind := .policy
      passed := false
      detail := s!"unsupported policy check '{check}'" }

/-- `_check_criterion` (hard_gates.py:206-230); `gate` answers the four gates
that read the world. -/
def checkCriterion (gate : Nat → AcceptanceCriterion → String → GateAnswer)
    (criterion : AcceptanceCriterion) (index : Nat) (evidenceDigest : String)
    (toolsUsed : List String) : HardCheckResult :=
  match criterion.spec with
  | .policy check tools => checkPolicy check tools index toolsUsed
  | .softRubric _ =>
    { criterionIndex := index, kind := .softRubric, passed := true
      detail := "not a hard gate; evaluated by the soft rubric" }
  | _ =>
    let answer := gate index criterion evidenceDigest
    { criterionIndex := index, kind := criterion.kind, passed := answer.passed
      detail := answer.detail, evidenceRef := answer.evidenceRef }

/-- The result standing for a checker that raised (hard_gates.py:190-196). -/
def crashedCheck (criterion : AcceptanceCriterion) (index : Nat) (kind message : String) :
    HardCheckResult where
  criterionIndex := index
  kind := criterion.kind
  passed := false
  detail := s!"checker crashed: {kind}: {PyText.slice 200 message}"

/-- A forbidden-tools gate passes exactly when its audit names none of them. -/
theorem checkPolicy_passed (tools : List String) (index : Nat) (toolsUsed : List String) :
    (checkPolicy "forbidden_tools" tools index toolsUsed).passed = true ↔
      ∀ t ∈ toolsUsed, t ∉ tools := by
  simp [checkPolicy, List.filter_eq_nil_iff]

end Northstack
