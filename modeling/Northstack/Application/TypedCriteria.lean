import Northstack.Application.Acceptance
import Northstack.Application.AddedGates

/-!
# Typed criteria

Mirrors the six criterion models of domain/contract.py as pydantic validates them, and
`_criterion_from_dict` of application/contracting.py, which builds one from a dictionary
of the analysis. A text with a length bound is taken only if it can be encoded.

**Result** (`criterionFromDict_guard`). The criteria the upgrade adds become the gates they
are meant to be; one with a name that cannot be encoded is dropped.
-/
namespace Northstack

open TextFiles Posix TestGoals FileGates

namespace Acceptance

/-- The fields of the six models (contract.py:44-105). -/
inductive Spec where
  | command (commandName : Text) (exitCode : Int)
  | fileDiff (criterion : FileDiffCriterion)
  | treeDigest (criterion : TreeDigestCriterion)
  | schema (artifactDigest : Text) (jsonSchema : Dict)
  | policy (check : Text) (tools : List Text)
  | softRubric (prompt : Text)

structure Criterion where
  description : Text
  spec : Spec

/-! ## Fields -/

section

variable (flat : Dict)

/-- `str` -/
def asText : Data → Option Text
  | .str s => some s
  | _ => none

/-- `str`, with `min_length=1` -/
def asName : Data → Option Text
  | .str s => if s ≠ [] ∧ encodes s then some s else none
  | _ => none

/-- `str | None` -/
def asOptional : Data → Option (Option Text)
  | .null => some none
  | .str s => some (some s)
  | _ => none

/-- `dict[str, Any]` -/
def asDict : Data → Option Dict
  | .dict d => some d
  | _ => none

/-- `int` -/
def asInt (lax : Lax) : Data → Option Int
  | .int i => some i
  | d => lax.int d

/-- `bool` -/
def asBool (lax : Lax) : Data → Option Bool
  | .bool b => some b
  | d => lax.bool d

/-- A field with a default. -/
def optionalField {α : Type} (read : Data → Option α) (key : String) (default : α) : Option α :=
  match flat.get? (text key) with
  | none => some default
  | some d => read d

/-- A field that must be there. -/
def requiredField {α : Type} (read : Data → Option α) (key : String) : Option α :=
  (flat.get? (text key)).bind read

/-- The names of the fields of a model. -/
def fieldNames : CriterionKind → List String
  | .command => ["kind", "description", "command_name", "exit_code"]
  | .fileDiff => ["kind", "description", "path", "must_exist", "content_hash", "content_contains",
      "content_equals"]
  | .treeDigest => ["kind", "description", "path", "tree_hash"]
  | .schema => ["kind", "description", "artifact_digest", "json_schema"]
  | .policy => ["kind", "description", "check", "tools"]
  | .softRubric => ["kind", "description", "prompt"]

/-- The fields of a model, where each is valid. -/
def spec? (lax : Lax) : CriterionKind → Option Spec
  | .command => do
    return .command (← requiredField flat asName "command_name")
      (← optionalField flat (asInt lax) "exit_code" 0)
  | .fileDiff => do
    return .fileDiff
      { path := ← requiredField flat asName "path"
        mustExist := ← optionalField flat (asBool lax) "must_exist" true
        contentHash := ← optionalField flat asOptional "content_hash" none
        contentContains := ← optionalField flat asOptional "content_contains" none
        contentEquals := ← optionalField flat asOptional "content_equals" none }
  | .treeDigest => do
    return .treeDigest ⟨← requiredField flat asName "path", ← requiredField flat asName "tree_hash"⟩
  | .schema => do
    return .schema (← requiredField flat asName "artifact_digest")
      (← optionalField flat asDict "json_schema" [])
  | .policy => do
    return .policy (← requiredField flat asName "check") (← optionalField flat texts? "tools" [])
  | .softRubric => do return .softRubric (← optionalField flat asText "prompt" [])

/-- The keys that are no field of the model. -/
def extras (kind : CriterionKind) : List Text :=
  (flat.map Prod.fst).filter fun key => key ∉ (fieldNames kind).map text

/-- `_CRITERION_ADAPTER.validate_python`: the criterion, or the extra keys it is refused for. A
key that cannot be encoded ends the validation. -/
def validate (lax : Lax) : Except (List Text) Criterion :=
  match kindOf (flat.getD (text "kind") .null) with
  | none => .error []
  | some kind =>
    let unknown := extras flat kind
    if unknown.any (!encodes ·) then .error []
    else
      match optionalField flat asText "description" [], spec? flat lax kind with
      | some description, some spec =>
        if unknown = [] then .ok ⟨description, spec⟩ else .error unknown
      | _, _ => .error unknown

end

/-! ## From a dictionary -/

/-- The names a model gives the command (contracting.py:76). -/
def commandAliases : List Text := [text "command", text "argv", text "cmd"]

/-- The parameters, with the command under its own name. -/
def commandParams (params : Dict) : Dict :=
  if (params.get? (text "command_name")).isSome then params
  else
    match commandAliases.findSome? fun other =>
      (params.get? other).bind fun d => (asText d).map (other, ·) with
    | some (other, name) => (text "command_name", .str name) :: params.erase other
    | none => params

/-- The dictionary that is validated, `none` for a criterion that is malformed before. -/
def flatten (c : Dict) (index : Nat) : Option Dict :=
  match c.getD (text "kind") (.str (text "soft_rubric")), c.getD (text "parameters") (.dict []) with
  | .str kind, .dict params =>
    (kindOf (.str kind)).map fun k =>
      Dict.update
        [(text "kind", .str kind),
          (text "description", c.getD (text "description")
            (.str (text "criterion_" ++ text (toString index))))]
        (if k = .command then commandParams params else params)
  | _, _ => none

/-- `_criterion_from_dict` (contracting.py:61-98); `none` where it raises, which is always a
`ValueError` or a `TypeError`. -/
def criterionFromDict (lax : Lax) (c : Dict) (index : Nat) : Option Criterion :=
  (flatten c index).bind fun flat =>
    match validate flat lax with
    | .ok criterion => some criterion
    | .error unknown =>
      if unknown = [] then none
      else (validate (flat.filter fun f => f.1 ∉ unknown) lax).toOption

/-- The gate of a typed criterion, of those the guards have. -/
def Spec.gate : Spec → Option Gate
  | .command name exitCode => some (.command name exitCode)
  | .fileDiff criterion => some (.fileDiff criterion)
  | .treeDigest criterion => some (.treeDigest criterion)
  | .softRubric _ => some .softRubric
  | _ => none

section

variable {lax : Lax} {index : Nat}

theorem encodes_text (s : String) : encodes (text s) = true := by
  have hencoded : encode? (text s) = some s.toList.utf8Encode :=
    encode?_eq_some.mpr ⟨s.toList, rfl, rfl⟩
  unfold encodes
  rw [hencoded]
  rfl

/-- A guard says what it is about. -/
def Guard.Says : Guard → Prop
  | .fileDiff path _ _ _ => joinPath path ≠ []
  | .treeDigest treeHash => treeHash ≠ ""
  | _ => True

theorem kindOf_value (kind : CriterionKind) :
    kindOf (.str (text kind.value)) = some kind := by
  cases kind <;> decide

/-- How a criterion that has only fields of its model is read. -/
theorem criterionFromDict_fields {kind : CriterionKind} {description : Text} {params : Option Dict}
    (hkeys : (text "kind" :: text "description" :: (params.getD []).map Prod.fst).Nodup)
    (hfields : ∀ key ∈ (params.getD []).map Prod.fst, key ∈ (fieldNames kind).map text)
    (hcommand : kind = .command → ((params.getD []).get? (text "command_name")).isSome) :
    criterionFromDict lax (criterion kind.value description params) index =
      (spec? ([(text "kind", .str (text kind.value)), (text "description", .str description)] ++
        params.getD []) lax kind).map fun spec => ⟨description, spec⟩ := by
  have hparams : Dict.getD (text "parameters") (.dict [])
      (criterion kind.value description params) = .dict (params.getD []) := by
    cases params <;> simp [criterion, Dict.getD, text_inj]
  have hflat : flatten (criterion kind.value description params) index =
      some ([(text "kind", .str (text kind.value)), (text "description", .str description)] ++
        params.getD []) := by
    have hkind : Dict.getD (text "kind") (.str (text "soft_rubric"))
        (criterion kind.value description params) = .str (text kind.value) := by
      simp [criterion, Dict.getD]
    have hsaid (default : Data) : Dict.getD (text "description") default
        (criterion kind.value description params) = .str description := by
      simp [criterion, Dict.getD, text_inj]
    have hnamed : (if kind = .command then commandParams (params.getD []) else params.getD []) =
        params.getD [] := by
      split
      · rename_i hc
        unfold commandParams
        rw [if_pos (hcommand hc)]
      · rfl
    unfold flatten
    rw [hkind, hparams]
    simp only [kindOf_value, Option.map_some, hsaid, hnamed]
    rw [Dict.update_fresh (by simpa using hkeys)]
  have hextras : extras ([(text "kind", .str (text kind.value)),
      (text "description", .str description)] ++ params.getD []) kind = [] := by
    unfold extras
    rw [List.filter_eq_nil_iff]
    intro key hkey
    have hin : key ∈ (fieldNames kind).map text := by
      rw [List.map_append, List.mem_append] at hkey
      obtain hkey | hkey := hkey
      · simp only [List.map_cons, List.map_nil, List.mem_cons, List.not_mem_nil, or_false] at hkey
        obtain rfl | rfl := hkey <;> cases kind <;> simp [fieldNames]
      · exact hfields key hkey
    simpa using hin
  unfold criterionFromDict
  rw [hflat, Option.bind_some]
  have hkind : kindOf (Dict.getD (text "kind") .null
      ([(text "kind", .str (text kind.value)), (text "description", .str description)] ++
        params.getD [])) = some kind := by
    simp [Dict.getD, kindOf_value]
  have hsaid : optionalField ([(text "kind", .str (text kind.value)),
      (text "description", .str description)] ++ params.getD []) asText "description" [] =
        some description := by
    simp [optionalField, text_inj, asText]
  unfold validate
  simp only [hkind, hextras, hsaid, List.any_nil, Bool.false_eq_true, if_false, if_true]
  cases spec? _ lax kind <;> rfl

theorem criterionFromDict_command (name : Text) :
    (criterionFromDict lax (Guard.command name).toDict index).bind (·.spec.gate) =
      (Guard.command name).gate := by
  have hdict : (Guard.command name).toDict = criterion CriterionKind.command.value
      (text "command '" ++ name ++ text "' exits 0 -- full test suite passes")
      (some [(text "command_name", .str name), (text "exit_code", .int 0)]) := rfl
  rw [hdict, criterionFromDict_fields (by simp [text_inj]) (by simp [fieldNames])
    (by simp)]
  by_cases hname : name ≠ [] ∧ encodes name = true
  · simp [spec?, requiredField, optionalField, text_inj, asName, asInt, hname, Spec.gate,
      Guard.gate]
  · simp only [Guard.gate, and_comm, hname, if_false]
    simp [spec?, requiredField, text_inj, asName, hname]

theorem criterionFromDict_softRubric :
    (criterionFromDict lax Guard.softRubric.toDict index).bind (·.spec.gate) =
      Guard.softRubric.gate := by
  have hdict : Guard.softRubric.toDict = criterion CriterionKind.softRubric.value
      (text "genuine fix: the product code addresses the reported defect generally, not by " ++
        text "hardcoding outputs for the exact inputs the tests assert") none := rfl
  rw [hdict, criterionFromDict_fields (by simp [text_inj]) (by simp) (by simp)]
  simp [spec?, optionalField, text_inj, Spec.gate, Guard.gate]

theorem criterionFromDict_fileDiff (path : Path) (mustExist : Bool) (contentHash : Option String)
    (description : Text) (hpath : joinPath path ≠ []) :
    (criterionFromDict lax (Guard.fileDiff path mustExist contentHash description).toDict
      index).bind (·.spec.gate) = (Guard.fileDiff path mustExist contentHash description).gate := by
  have hdict : (Guard.fileDiff path mustExist contentHash description).toDict =
      criterion CriterionKind.fileDiff.value description
        (some ([(text "path", .str (joinPath path)), (text "must_exist", .bool mustExist)] ++
          (contentHash.map fun hash => (text "content_hash", Data.str (text hash))).toList)) := rfl
  rw [hdict, criterionFromDict_fields (by cases contentHash <;> simp [text_inj])
    (by cases contentHash <;> simp [fieldNames]) (by simp)]
  cases hname : encodes (joinPath path) <;> cases contentHash <;>
    simp [spec?, requiredField, optionalField, text_inj, asName, asBool, asOptional, hname, hpath,
      Spec.gate, Guard.gate]

theorem criterionFromDict_treeDigest (treeHash : String) (h : treeHash ≠ "") :
    (criterionFromDict lax (Guard.treeDigest treeHash).toDict index).bind (·.spec.gate) =
      (Guard.treeDigest treeHash).gate := by
  have hhash : text treeHash ≠ [] := by
    intro hnil
    exact h (text_injective hnil)
  have hdir : testsDir ≠ [] := by decide
  have hencodes : encodes testsDir = true := encodes_text "tests"
  have hdict : (Guard.treeDigest treeHash).toDict = criterion CriterionKind.treeDigest.value
      (text "'tests/' tree is byte-identical to compile time (no edits, deletions, or added files)")
      (some [(text "path", .str testsDir), (text "tree_hash", .str (text treeHash))]) := rfl
  rw [hdict, criterionFromDict_fields (by simp [text_inj]) (by simp [fieldNames]) (by simp)]
  simp [spec?, requiredField, text_inj, asName, Spec.gate, Guard.gate, hencodes, encodes_text,
    hhash, hdir]

/-- **The guards become their gates.** A criterion the upgrade adds is read as what it says, if
the name in it can be encoded, and dropped otherwise. -/
theorem criterionFromDict_guard (g : Guard) (h : Guard.Says g) :
    (criterionFromDict lax g.toDict index).bind (·.spec.gate) = g.gate := by
  cases g with
  | command name => exact criterionFromDict_command name
  | softRubric => exact criterionFromDict_softRubric
  | fileDiff path mustExist contentHash description =>
    exact criterionFromDict_fileDiff path mustExist contentHash description h
  | treeDigest treeHash => exact criterionFromDict_treeDigest treeHash h

end

end Acceptance

end Northstack
