import Northstack.Core.Json
import Northstack.Domain.Budget

/-!
# Work contracts and their acceptance criteria

Mirrors domain/contract.py. A criterion is its description and one of six
variants; its kind is read off the variant, as the source's discriminator is.
-/
namespace Northstack

inductive CriterionKind where
  | command | fileDiff | treeDigest | schema | policy | softRubric
  deriving DecidableEq, Repr

/-- The enum's values. -/
def CriterionKind.value : CriterionKind → String
  | .command => "command"
  | .fileDiff => "file_diff"
  | .treeDigest => "tree_digest"
  | .schema => "schema"
  | .policy => "policy"
  | .softRubric => "soft_rubric"

/-- The fields of the six criterion models (contract.py:44-105). -/
inductive CriterionSpec where
  | command (commandName : String) (exitCode : Int)
  | fileDiff (path : String) (mustExist : Bool)
      (contentHash contentContains contentEquals : Option String)
  | treeDigest (path treeHash : String)
  | schema (artifactDigest : String) (jsonSchema : List (String × Json))
  | policy (check : String) (tools : List String)
  | softRubric (prompt : String)

def CriterionSpec.kind : CriterionSpec → CriterionKind
  | .command _ _ => .command
  | .fileDiff _ _ _ _ _ => .fileDiff
  | .treeDigest _ _ => .treeDigest
  | .schema _ _ => .schema
  | .policy _ _ => .policy
  | .softRubric _ => .softRubric

structure AcceptanceCriterion where
  description : String := ""
  spec : CriterionSpec

def AcceptanceCriterion.kind (c : AcceptanceCriterion) : CriterionKind := c.spec.kind

/-- `WorkContract` (contract.py:118-147) -/
structure WorkContract where
  id : String
  version : Nat := 1
  objective : String
  scope : String := ""
  deliverables : List String := []
  constraints : List String := []
  assumptions : List String := []
  forbiddenOutcomes : List String := []
  allowedTools : List String := []
  workspaceScope : String := ""
  budget : Budget
  acceptanceCriteria : List AcceptanceCriterion := []
  unresolvedAmbiguity : List String := []
  abstentionThreshold : ℚ≥0 := 0.5

end Northstack
