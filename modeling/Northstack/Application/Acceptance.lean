import Northstack.Core.DataText
import Northstack.Core.Fallible
import Northstack.Application.TestGoals
import Northstack.Domain.Contract

/-!
# The acceptance analysis of the model

Mirrors `run_acceptance`, `_coerce_criteria` and `_drop_ungrounded_content_checks` of
application/contracting.py, and `_normalize_command_criteria` after them: what becomes of
the value the model returned, up to the criteria the upgrade is given.

The patterns of the goal, the Unicode table behind `repr` and pydantic's conversion of
other values to a float are parameters. A value is nested less deeply than the
interpreter recurses.
-/
namespace Northstack

open TextFiles Posix TestGoals

namespace Acceptance

/-- What leaves the pipeline as an exception. -/
inductive AcceptanceError where
  /-- A value cannot be in a set. -/
  | typeError
  /-- The operating system does not take a path. -/
  | valueError
  /-- `ValidationError`, from `AcceptanceAnalysis`. -/
  | invalidAnalysis
  | upgrade (e : UpgradeError)
  /-- `ValidationError`, from `WorkContract`. -/
  | invalidContract
  deriving DecidableEq

/-- A criterion as `_coerce_criteria` makes it: a dictionary of these three. -/
structure Proposed where
  kind : CriterionKind
  description : Text
  parameters : Dict

def Proposed.toDict (c : Proposed) : Dict :=
  [(text "kind", .str (text c.kind.value)), (text "description", .str c.description),
    (text "parameters", .dict c.parameters)]

def Proposed.param (c : Proposed) (key : String) : Data := c.parameters.getD (text key) .null

def kinds : List CriterionKind :=
  [.command, .fileDiff, .treeDigest, .schema, .policy, .softRubric]

/-- The kind with this value. -/
def kindOf (d : Data) : Option CriterionKind := kinds.find? fun k => d.isText (text k.value)

/-! ## Coercion -/

section

variable (printable : Char → Bool)

/-- The entries of `data["criteria"]`; none where there is no such list. -/
def rawCriteria : Data → List Data
  | .dict fields =>
    match Dict.get? (text "criteria") fields with
    | some (.list raw) => raw
    | _ => []
  | _ => []

/-- What becomes of an entry whose kind can be looked up. -/
def proposed? : Data → Option Proposed
  | .dict c =>
    match kindOf (Dict.getD (text "kind") .null c), Dict.get? (text "parameters") c with
    | some kind, some (.dict params) =>
      some ⟨kind, (Dict.getD (text "description") (.str []) c).toText printable, params⟩
    | _, _ => none
  | _ => none

/-- The entry's kind can be looked up. -/
def kindHashable : Data → Bool
  | .dict c => (Dict.getD (text "kind") .null c).hashable
  | _ => true

/-- One turn of the loop of `_coerce_criteria`. -/
def coerce (d : Data) : Except AcceptanceError (Option Proposed) :=
  if kindHashable d then .ok (proposed? printable d) else .error .typeError

/-- `_coerce_criteria` (contracting.py:531-556) -/
def coerceCriteria (data : Data) : Except AcceptanceError (List Proposed) := do
  return (← (rawCriteria data).mapM (coerce printable)).reduceOption

/-! ## Content checks -/

variable (fs : FileSystem) (root : Path) (goal : Text)

/-- `str(params.get("path", ""))` -/
def Proposed.path (c : Proposed) : Text :=
  (c.parameters.getD (text "path") (.str [])).toText printable

/-- `root / path`; an absolute path stands for itself. -/
def underRoot (path : Text) : Path :=
  if isAbsolute path then components path else root ++ components path

/-- What `read_text` finds, nothing where it raises an `OSError`. -/
def contents (path : Text) : Text :=
  let p := underRoot root path
  if fs.opens p then
    match fs.stat p with
    | .file content _ => universalNewlines (decodeIgnore content.data.toList)
    | _ => []
  else []

/-- The needle of a content check, if the criterion has one that says something. -/
def Proposed.needle (c : Proposed) : Option Text :=
  match c.kind, c.param "content_contains" with
  | .fileDiff, .str needle => if needle = [] then none else some needle
  | _, _ => none

/-- An identifier of the needle is neither in the goal nor in the file. -/
def invented (path needle : Text) : Bool :=
  (identifiers needle).any fun t => t ∉ keywords ∧ ¬ t <:+: goal ++ contents fs root path

/-- The needle is to be stripped; a path the operating system does not take raises a
`ValueError`, which is no `OSError`. -/
def ungrounded (c : Proposed) : Except AcceptanceError Bool :=
  match c.needle with
  | none => .ok false
  | some needle =>
    if encodable (c.path printable) then .ok (invented fs root goal (c.path printable) needle)
    else .error .valueError

/-- The criterion without its content check. -/
def Proposed.stripped (c : Proposed) : Proposed :=
  { c with parameters := c.parameters.erase (text "content_contains") }

/-- The criterion asserts that its file exists. -/
def Proposed.asserts (c : Proposed) : Bool := c.kind = .fileDiff ∧ (c.param "must_exist").truthy

/-- Without its content check the criterion says nothing that is not asserted. -/
def Proposed.redundant (asserted : List Text) (c : Proposed) : Bool :=
  c.path printable ∈ asserted ∧
    ¬ ((c.param "content_hash").truthy ∨ (c.param "content_equals").truthy)

/-- The paths asserted to exist after the criterion. -/
def assertedAfter (asserted : List Text) (c : Proposed) : List Text :=
  if c.asserts then c.path printable :: asserted else asserted

/-- `_drop_ungrounded_content_checks` (contracting.py:157-188) -/
def dropUngrounded : List Text → List Proposed → Except AcceptanceError (List Proposed)
  | _, [] => .ok []
  | asserted, c :: cs => do
    let strip ← ungrounded printable fs root goal c
    if strip ∧ c.redundant printable asserted then dropUngrounded asserted cs
    else
      let rest ← dropUngrounded (assertedAfter printable asserted c) cs
      return (if strip then c.stripped else c) :: rest

/-! ## The analysis -/

/-- `AcceptanceAnalysis` -/
structure Analysis where
  criteria : List Proposed
  risks : List Text
  ambiguities : List Text
  recommendedAbstentionThreshold : PyFloat

/-- pydantic's conversions of values of another type than the field's; a float is finite. -/
structure Lax where
  float : Data → Option (Bool × ℚ≥0)
  int : Data → Option Int
  bool : Data → Option Bool

/-- `list[str]` -/
def texts? : Data → Option (List Text)
  | .list xs => xs.mapM fun
    | .str s => some s
    | _ => none
  | _ => none

variable (lax : Lax)

/-- `float`, where `allow_inf_nan` is false. -/
def float? : Data → Option PyFloat
  | .float (.finite neg mag) => some (.finite neg mag)
  | .float _ => none
  | d => (lax.float d).map fun x => .finite x.1 x.2

/-- `(data or {}).get(key, default) if isinstance(data, dict) else default` -/
def field (key : String) (default data : Data) : Data :=
  match data with
  | .dict fields => Dict.getD (text key) default fields
  | _ => default

def half : PyFloat := .finite false 0.5

def defaultRubric : Proposed := ⟨.softRubric, text "default quality rubric", []⟩

/-- The criterion of a goal that says what a file is to contain. -/
def fileContentCriterion (path content : Text) : Proposed where
  kind := .fileDiff
  description := text "file '" ++ path ++ text "' contains the required text"
  parameters := [(text "path", .str path), (text "must_exist", .bool true),
    (text "content_contains", .str content)]

/-- `run_acceptance` (contracting.py:417-482); `fileContentGoal` is
`_deterministic_file_content_analysis`, and `data` is what the model returned. -/
def runAcceptance (fileContentGoal : Text → Option (Text × Text)) (data : Data) :
    Except AcceptanceError Analysis :=
  match fileContentGoal goal with
  | some (path, content) => .ok ⟨[fileContentCriterion path content], [], [], half⟩
  | none => do
    let criteria ← dropUngrounded printable fs root goal [] (← coerceCriteria printable data)
    let criteria := if criteria.isEmpty then [defaultRubric] else criteria
    match texts? (field "risks" (.list []) data), texts? (field "ambiguities" (.list []) data),
      float? lax (field "recommended_abstention_threshold" (.float half) data) with
    | some risks, some ambiguities, some threshold => .ok ⟨criteria, risks, ambiguities, threshold⟩
    | _, _, _ => .error .invalidAnalysis

/-! ## Command criteria -/

/-- The names of the profiles that run pytest. -/
def pytestProfiles (commands : List CommandConfig) : List Text :=
  (commands.filter fun c => c.argv.any fun part => text "pytest" <:+: part).map (·.name)

/-- What becomes of a criterion whose command name can be looked up. -/
def normalized? (commands : List CommandConfig) (c : Proposed) : Option Proposed :=
  if c.kind = .command ∧ ¬ commands.any fun k => (c.param "command_name").isText k.name then
    match pytestProfiles commands with
    | [name] => some { c with parameters := c.parameters.set (text "command_name") (.str name) }
    | _ => none
  else some c

/-- One turn of the loop of `_normalize_command_criteria`. -/
def normalize (commands : List CommandConfig) (c : Proposed) :
    Except AcceptanceError (Option Proposed) :=
  if c.kind = .command ∧ ¬ (c.param "command_name").hashable then .error .typeError
  else .ok (normalized? commands c)

/-- `_normalize_command_criteria` (contracting.py:872-919) -/
def normalizeCommandCriteria (config : Option (List CommandConfig)) (criteria : List Proposed) :
    Except AcceptanceError (List Proposed) :=
  match config with
  | none => .ok criteria
  | some [] => .ok criteria
  | some commands => do return (← criteria.mapM (normalize commands)).reduceOption

end

/-! ## What the steps come to -/

section

variable {printable : Char → Bool} {fs : FileSystem} {root : Path} {goal : Text} {data : Data}
  {asserted : List Text} {cs out pre : List Proposed} {c c' : Proposed} {lax : Lax}
  {commands : List CommandConfig} {config : Option (List CommandConfig)} {e : AcceptanceError}

/-- The criteria of the value that have a known kind and parameters. -/
def proposals (printable : Char → Bool) (data : Data) : List Proposed :=
  (rawCriteria data).filterMap (proposed? printable)

theorem reduceOption_map {α β : Type} (g : α → Option β) (l : List α) :
    (l.map g).reduceOption = l.filterMap g := by
  unfold List.reduceOption
  rw [List.filterMap_map]
  rfl

theorem coerceCriteria_ok (h : ∀ d ∈ rawCriteria data, kindHashable d = true) :
    coerceCriteria printable data = .ok (proposals printable data) := by
  have hraw : (rawCriteria data).mapM (coerce printable) =
      .ok ((rawCriteria data).map (proposed? printable)) :=
    Fallible.mapM_map fun d hd => by rw [coerce, if_pos (h d hd)]
  unfold coerceCriteria
  rw [hraw]
  exact congrArg _ (reduceOption_map _ _)

theorem coerceCriteria_error (h : ¬ ∀ d ∈ rawCriteria data, kindHashable d = true) :
    coerceCriteria printable data = .error .typeError := by
  unfold coerceCriteria
  cases hraw : (rawCriteria data).mapM (coerce printable) with
  | error e =>
    obtain ⟨d, -, hd⟩ := Fallible.mapM_error hraw
    unfold coerce at hd
    split at hd
    · cases hd
    · cases hd
      rfl
  | ok all =>
    exfalso
    apply h
    intro d hd
    obtain ⟨b, -, hb⟩ := (Fallible.mapM_ok hraw).2 d hd
    by_contra hnot
    rw [coerce, if_neg hnot] at hb
    cases hb

/-- The file that is looked at for the criterion's needle has a path that can be encoded. -/
def Proposed.Openable (printable : Char → Bool) (c : Proposed) : Prop :=
  c.needle.isSome → encodable (c.path printable) = true

/-- The criterion loses its needle. -/
def Proposed.strips (printable : Char → Bool) (fs : FileSystem) (root : Path) (goal : Text)
    (c : Proposed) : Bool :=
  c.needle.any (invented fs root goal (c.path printable))

theorem ungrounded_openable (h : c.Openable printable) :
    ungrounded printable fs root goal c = .ok (c.strips printable fs root goal) := by
  unfold ungrounded Proposed.strips
  unfold Proposed.Openable at h
  cases hneedle : c.needle with
  | none => rfl
  | some needle =>
    rw [hneedle] at h
    simp only [h rfl, if_true, Option.any_some]

theorem ungrounded_raises (h : ¬ c.Openable printable) :
    ungrounded printable fs root goal c = .error .valueError := by
  unfold ungrounded
  unfold Proposed.Openable at h
  cases hneedle : c.needle with
  | none => simp [hneedle] at h
  | some needle =>
    rw [hneedle] at h
    have hpath : ¬ encodable (c.path printable) = true := by simpa using h
    simp only [hpath, if_false, Bool.false_eq_true]

/-- What is left of the criterion. -/
def Proposed.kept (printable : Char → Bool) (fs : FileSystem) (root : Path) (goal : Text)
    (c : Proposed) : Proposed :=
  if c.strips printable fs root goal then c.stripped else c

/-- The criterion is left out: without its needle it says nothing that one before it, or an
assertion made already, does not say. -/
def Proposed.Dropped (printable : Char → Bool) (fs : FileSystem) (root : Path) (goal : Text)
    (asserted : List Text) (pre : List Proposed) (c : Proposed) : Prop :=
  c.strips printable fs root goal = true ∧
    (c.path printable ∈ asserted ∨
      ∃ e ∈ pre, e.asserts = true ∧ e.path printable = c.path printable) ∧
    (c.param "content_hash").truthy = false ∧ (c.param "content_equals").truthy = false

theorem dropUngrounded_cons (h : c.Openable printable) :
    dropUngrounded printable fs root goal asserted (c :: cs) =
      if c.strips printable fs root goal ∧ c.redundant printable asserted then
        dropUngrounded printable fs root goal asserted cs
      else (dropUngrounded printable fs root goal (assertedAfter printable asserted c) cs).map
        (c.kept printable fs root goal :: ·) := by
  rw [dropUngrounded, ungrounded_openable h]
  simp only [bind, Except.bind]
  split
  · rfl
  · cases dropUngrounded printable fs root goal (assertedAfter printable asserted c) cs <;> rfl

theorem dropUngrounded_isOk (h : ∀ c ∈ cs, c.Openable printable) :
    ∃ out, dropUngrounded printable fs root goal asserted cs = .ok out := by
  induction cs generalizing asserted with
  | nil => exact ⟨[], rfl⟩
  | cons c cs ih =>
    have hrest (known : List Text) :
        ∃ out, dropUngrounded printable fs root goal known cs = .ok out :=
      ih fun e he => h e (List.mem_cons_of_mem _ he)
    rw [dropUngrounded_cons (h c List.mem_cons_self)]
    split
    · exact hrest asserted
    · obtain ⟨out, hout⟩ := hrest (assertedAfter printable asserted c)
      rw [hout]
      exact ⟨_, rfl⟩

theorem dropUngrounded_error (h : ¬ ∀ c ∈ cs, c.Openable printable) :
    dropUngrounded printable fs root goal asserted cs = .error .valueError := by
  induction cs generalizing asserted with
  | nil => simp at h
  | cons c cs ih =>
    by_cases hc : c.Openable printable
    · have hcs : ¬ ∀ e ∈ cs, e.Openable printable := by
        intro hall
        apply h
        intro e he
        rcases List.mem_cons.mp he with rfl | he
        · exact hc
        · exact hall e he
      rw [dropUngrounded_cons hc]
      split
      · exact ih hcs
      · rw [ih hcs]
        rfl
    · rw [dropUngrounded, ungrounded_raises hc]
      rfl

/-- What the drop leaves. -/
theorem mem_dropUngrounded (hopen : ∀ c ∈ cs, c.Openable printable)
    (h : dropUngrounded printable fs root goal asserted cs = .ok out) :
    c' ∈ out ↔ ∃ pre c post, cs = pre ++ c :: post ∧
      ¬ c.Dropped printable fs root goal asserted pre ∧ c' = c.kept printable fs root goal := by
  induction cs generalizing asserted out with
  | nil =>
    cases h
    simp
  | cons c cs ih =>
    have hcs : ∀ e ∈ cs, e.Openable printable := fun e he => hopen e (List.mem_cons_of_mem _ he)
    rw [dropUngrounded_cons (hopen c List.mem_cons_self)] at h
    have hsplit (P : List Proposed → Proposed → Prop) :
        (∃ pre d post, c :: cs = pre ++ d :: post ∧ P pre d) ↔
          P [] c ∨ ∃ pre d post, cs = pre ++ d :: post ∧ P (c :: pre) d := by
      constructor
      · rintro ⟨pre, d, post, heq, hP⟩
        cases pre with
        | nil =>
          cases heq
          exact .inl hP
        | cons first pre =>
          cases heq
          exact .inr ⟨pre, d, post, rfl, hP⟩
      · rintro (hP | ⟨pre, d, post, rfl, hP⟩)
        · exact ⟨[], c, cs, rfl, hP⟩
        · exact ⟨c :: pre, d, post, rfl, hP⟩
    rw [hsplit]
    split at h
    · rename_i hdrop
      have hdropped : c.Dropped printable fs root goal asserted [] := by
        obtain ⟨hstrips, hredundant⟩ := hdrop
        unfold Proposed.redundant at hredundant
        simp at hredundant
        exact ⟨hstrips, .inl hredundant.1, hredundant.2⟩
      have hin : c.path printable ∈ asserted := by
        obtain ⟨-, hin | ⟨e, he, -⟩, -⟩ := hdropped
        · exact hin
        · cases he
      rw [ih hcs h]
      simp only [hdropped, not_true_eq_false, false_and, false_or]
      refine exists_congr fun pre => exists_congr fun d => exists_congr fun post =>
        and_congr_right fun _ => and_congr_left fun _ => not_congr ?_
      refine and_congr_right fun _ => and_congr_left fun _ => ?_
      constructor
      · rintro (hmem | ⟨e, he, hasserts⟩)
        · exact .inl hmem
        · exact .inr ⟨e, List.mem_cons_of_mem _ he, hasserts⟩
      · rintro (hmem | ⟨e, he, hasserts, hpath⟩)
        · exact .inl hmem
        · rcases List.mem_cons.mp he with rfl | he
          · exact .inl (hpath ▸ hin)
          · exact .inr ⟨e, he, hasserts, hpath⟩
    · rename_i hkeep
      have hkept : ¬ c.Dropped printable fs root goal asserted [] := by
        rintro ⟨hstrips, hin | ⟨e, he, -⟩, hhash⟩
        · apply hkeep
          refine ⟨hstrips, ?_⟩
          unfold Proposed.redundant
          simp [hin, hhash]
        · cases he
      cases hrest : dropUngrounded printable fs root goal
        (assertedAfter printable asserted c) cs with
      | error e =>
        rw [hrest] at h
        cases h
      | ok rest =>
        rw [hrest] at h
        cases h
        rw [List.mem_cons, ih hcs hrest]
        simp only [hkept, not_false_eq_true, true_and]
        refine or_congr_right ?_
        refine exists_congr fun pre => exists_congr fun d => exists_congr fun post =>
          and_congr_right fun _ => and_congr_left fun _ => not_congr ?_
        refine and_congr_right fun _ => and_congr_left fun _ => ?_
        unfold assertedAfter
        cases hasserts : c.asserts with
        | true =>
          simp only [if_true, List.mem_cons, exists_eq_or_imp, hasserts, true_and]
          rw [or_assoc, or_left_comm, @eq_comm _ (d.path printable)]
        | false => simp [hasserts]

/-! ### Commands and names -/

theorem normalizeCommandCriteria_ok (hcommands : commands ≠ [])
    (h : ∀ c ∈ cs, c.kind = .command → (c.param "command_name").hashable = true) :
    normalizeCommandCriteria (some commands) cs = .ok (cs.filterMap (normalized? commands)) := by
  have hall : cs.mapM (normalize commands) = .ok (cs.map (normalized? commands)) := by
    apply Fallible.mapM_map
    intro c hc
    unfold normalize
    rw [if_neg]
    rintro ⟨hkind, hname⟩
    exact hname (h c hc hkind)
  cases commands with
  | nil => exact absurd rfl hcommands
  | cons first rest =>
    unfold normalizeCommandCriteria
    simp only [hall]
    exact congrArg _ (reduceOption_map _ _)

theorem normalizeCommandCriteria_error (hcommands : commands ≠ [])
    (h : ¬ ∀ c ∈ cs, c.kind = .command → (c.param "command_name").hashable = true) :
    normalizeCommandCriteria (some commands) cs = .error .typeError := by
  cases commands with
  | nil => exact absurd rfl hcommands
  | cons first rest =>
    unfold normalizeCommandCriteria
    cases hall : cs.mapM (normalize (first :: rest)) with
    | error e =>
      simp only [hall]
      obtain ⟨c, -, hc⟩ := Fallible.mapM_error hall
      unfold normalize at hc
      split at hc
      · cases hc
        rfl
      · cases hc
    | ok out =>
      exfalso
      apply h
      intro c hc hkind
      obtain ⟨b, -, hb⟩ := (Fallible.mapM_ok hall).2 c hc
      by_contra hname
      rw [normalize, if_pos ⟨hkind, hname⟩] at hb
      cases hb

/-- What `have` names the criterion by (contracting.py:956-962). -/
def Proposed.name (c : Proposed) : Data :=
  if (c.param "command_name").truthy then c.param "command_name"
  else c.parameters.getD (text "path") (.str [])

def Proposed.exitCode (c : Proposed) : Data := c.parameters.getD (text "exit_code") (.int 0)

/-- The criterion can be in `have`. -/
def Proposed.nameable (c : Proposed) : Bool := c.name.hashable ∧ c.exitCode.hashable

theorem namedBy_toDict (c : Proposed) : namedBy c.toDict =
    if c.nameable then .ok (.str (text c.kind.value), c.name, c.exitCode)
    else .error .typeError := by
  have hparams : c.toDict.getD (text "parameters") (.dict []) = .dict c.parameters := by
    simp [Proposed.toDict, Dict.getD, text_inj]
  have hkind : c.toDict.getD (text "kind") .null = .str (text c.kind.value) := by
    simp [Proposed.toDict, Dict.getD]
  unfold namedBy
  rw [hparams]
  have hhashable : (Data.str (text c.kind.value)).hashable = true := rfl
  simp only [hkind, hhashable, true_and]
  unfold Proposed.nameable Proposed.name Proposed.exitCode Proposed.param
  simp only [Bool.decide_and, Bool.decide_eq_true, Bool.and_eq_true]

/-- The loss of the needle changes nothing else. -/
theorem stripped_getD {key : String} {default : Data} (h : key ≠ "content_contains") :
    c.stripped.parameters.getD (text key) default = c.parameters.getD (text key) default :=
  Dict.getD_erase fun heq => h (text_injective heq)

theorem strips_kind (h : c.strips printable fs root goal = true) : c.kind = .fileDiff := by
  unfold Proposed.strips Proposed.needle at h
  split at h
  · rename_i hkind _
    exact hkind
  · cases h

/-- What is left of a criterion that is no content check is the criterion. -/
theorem kept_command (h : c.kind = .command) : c.kept printable fs root goal = c := by
  unfold Proposed.kept
  rw [if_neg]
  intro hstrips
  rw [strips_kind hstrips] at h
  cases h

theorem kept_kind : (c.kept printable fs root goal).kind = c.kind := by
  unfold Proposed.kept
  split <;> rfl

theorem nameable_kept : (c.kept printable fs root goal).nameable = c.nameable := by
  unfold Proposed.kept
  split
  · unfold Proposed.nameable Proposed.name Proposed.exitCode Proposed.param
    rw [stripped_getD (by decide), stripped_getD (by decide), stripped_getD (by decide)]
  · rfl

/-- Whether the criterion can be in `have`, once it is repaired. -/
def Proposed.Namable (commands : List CommandConfig) (c : Proposed) : Prop :=
  ∀ c', normalized? commands c = some c' → c'.nameable = true

theorem normalized_other (h : c.kind ≠ .command) : normalized? commands c = some c := by
  unfold normalized?
  rw [if_neg fun hcommand => h hcommand.1]

theorem namable_kept :
    (c.kept printable fs root goal).Namable commands ↔ c.Namable commands := by
  by_cases hkind : c.kind = .command
  · rw [kept_command hkind]
  · unfold Proposed.Namable
    rw [normalized_other hkind, normalized_other (by rw [kept_kind]; exact hkind)]
    simp [nameable_kept]

/-- All criteria of a list can be in `have` as they are given to the upgrade. -/
theorem namable_all : (∀ c ∈ cs.filterMap (normalized? commands), c.nameable = true) ↔
    ∀ c ∈ cs, c.Namable commands := by
  unfold Proposed.Namable
  simp only [List.mem_filterMap, forall_exists_index, and_imp]
  exact ⟨fun h c hc c' hc' => h c' c hc hc', fun h c' c hc hc' => h c hc c' hc'⟩

theorem namedBy_all (h : ∀ c ∈ cs, c.nameable = true) :
    ∃ known, (cs.map Proposed.toDict).mapM namedBy = .ok known := by
  apply Fallible.mapM_isOk_iff.mpr
  intro d hd
  obtain ⟨c, hc, rfl⟩ := List.mem_map.mp hd
  rw [namedBy_toDict, if_pos (h c hc)]
  exact ⟨_, rfl⟩

theorem namedBy_error (h : ¬ ∀ c ∈ cs, c.nameable = true) :
    (cs.map Proposed.toDict).mapM namedBy = .error .typeError := by
  cases hall : (cs.map Proposed.toDict).mapM namedBy with
  | error e =>
    obtain ⟨d, hd, herror⟩ := Fallible.mapM_error hall
    obtain ⟨c, -, rfl⟩ := List.mem_map.mp hd
    rw [namedBy_toDict] at herror
    split at herror
    · cases herror
    · cases herror
      rfl
  | ok known =>
    exfalso
    apply h
    intro c hc
    obtain ⟨b, -, hb⟩ := (Fallible.mapM_ok hall).2 _ (List.mem_map_of_mem hc)
    by_contra hnot
    rw [namedBy_toDict, if_neg hnot] at hb
    cases hb

end

end Acceptance

end Northstack
