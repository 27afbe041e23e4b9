import Northstack.Core.Data
import Northstack.Core.Fallible
import Northstack.Application.TreeDigest

/-!
# Guards for make-the-tests-pass goals

Mirrors `_upgrade_test_goal_criterion` of application/contracting.py: the criteria it
adds to those of the model when the goal is to make the tests pass. The suite is
pinned as a tree, or file by file; the configuration files of the test runner are
pinned where they exist, and must not be created where they do not.

The goal's pattern and SHA-256 are parameters; the paths of the suite are relative to
the root of the workspace.
-/
namespace Northstack

open TextFiles Posix

namespace TestGoals

/-- What the upgrade raises. `exhausted` stands for a walk that has not come to its end. -/
inductive UpgradeError where
  /-- A criterion's parameters have no `get`. -/
  | attributeError
  /-- A value of a criterion cannot be in a set. -/
  | typeError
  | osError
  | tree (e : TreeError)
  | exhausted
  deriving DecidableEq

/-- A command profile of the configuration, as far as it is read here. -/
structure CommandConfig where
  name : Text
  argv : List Text

/-- `_pytest_command_name` (contracting.py:326-331) -/
def pytestCommandName (commands : List CommandConfig) : Option Text :=
  (commands.find? fun c => c.argv.any fun part => text "pytest" <:+: part).map (·.name)

/-- `_PYTEST_TAMPER_FILES` -/
def pytestTamperFiles : List Text :=
  [text "conftest.py", text "pytest.ini", text "tox.ini", text "setup.cfg", text "pyproject.toml"]

def testsDir : Text := text "tests"

/-! ## The criteria of the model -/

/-- What a criterion is known by in `have`: its kind, what it names and its exit code
(contracting.py:955-963). -/
def namedBy (c : Dict) : Except UpgradeError (Data × Data × Data) :=
  match c.getD (text "parameters") (.dict []) with
  | .dict params =>
    let command := Dict.getD (text "command_name") .null params
    let name := if command.truthy then command else Dict.getD (text "path") (.str []) params
    let triple := (c.getD (text "kind") .null, name, Dict.getD (text "exit_code") (.int 0) params)
    if triple.1.hashable ∧ triple.2.1.hashable ∧ triple.2.2.hashable then .ok triple
    else .error .typeError
  | _ => .error .attributeError

/-- `(kind, name, 0) in have` -/
def inHave (known : List (Data × Data × Data)) (kind name : Text) : Bool :=
  known.any fun t => t.1.isText kind ∧ t.2.1.isText name ∧ t.2.2.isZero

def hasKind (kind : String) (c : Dict) : Bool := (c.getD (text "kind") .null).isText (text kind)

/-- The criterion's path is below `tests/`, as `str` shows it (contracting.py:1002-1004). -/
def writesTests (c : Dict) : Bool :=
  match c.getD (text "parameters") (.dict []) with
  | .dict params =>
    match Dict.getD (text "path") (.str []) params with
    | .str s => text "tests/" <+: s
    | _ => false
  | _ => false

/-! ## The suite -/

/-- `fnmatch` of `test_*.py` -/
def isTestName (name : Text) : Bool := text "test_" <+: name ∧ text ".py" <:+ name

section

variable (sha256 : ByteArray → Digest) (fs : FileSystem) (limits : TreeLimits) (links fuel : Nat)
  (root : Path)

/-- `path.is_dir()`; it raises where the path may not be looked at. -/
def isDir (p : Path) : Except UpgradeError Bool :=
  match fs.stat p with
  | .dir => .ok true
  | .denied => .error .osError
  | _ => .ok false

/-- `path.exists()` -/
def pathExists (p : Path) : Except UpgradeError Bool :=
  match fs.stat p with
  | .missing | .link _ => .ok false
  | .denied => .error .osError
  | _ => .ok true

/-- `path.read_bytes()` -/
def readBytes (p : Path) : Except UpgradeError ByteArray :=
  if fs.opens p then
    match fs.stat p with
    | .file content _ => .ok content
    | _ => .error .osError
  else .error .osError

/-- `d.glob("test_*.py")`; a directory that cannot be listed is empty. -/
def globTests (d : Path) : List Text := if fs.opens d then (fs.scandir d).filter isTestName else []

/-- The directories `**` goes into from `d` on: it follows no link. -/
def globDirs (d : Path) : List Text :=
  if fs.opens d then (fs.scandir d).filter fun name => fs.lstat (d ++ [name]) = .dir else []

/-- `base.rglob("test_*.py")`, below `base` -/
def rglobTests (base : Path) : Option (List Path) :=
  Worklist.explore (fun d => globDirs fs (base ++ d)) (fun d => globTests fs (base ++ d)) fuel
    [[]] []

/-- The order of paths, by their components. -/
def PartsLe (p q : Path) : Prop := p.map (·.map CodePoint.value) ≤ q.map (·.map CodePoint.value)

instance : DecidableRel PartsLe := fun p q =>
  inferInstanceAs (Decidable (p.map (·.map CodePoint.value) ≤ q.map (·.map CodePoint.value)))

/-- `sorted(paths)[:50]` -/
def firstFifty (ps : List Path) : List Path := (ps.insertionSort PartsLe).take 50

/-! ## The guards -/

/-- A criterion the upgrade adds. -/
inductive Guard where
  | command (name : Text)
  | softRubric
  | fileDiff (path : Path) (mustExist : Bool) (contentHash : Option String) (description : Text)
  | treeDigest (treeHash : String)
  deriving DecidableEq

/-- A criterion as a dictionary. -/
def criterion (kind : String) (description : Text) (params : Option Dict) : Dict :=
  [(text "kind", .str (text kind)), (text "description", .str description)] ++
    (params.map fun ps => (text "parameters", Data.dict ps)).toList

/-- The criteria as they are appended (contracting.py:964-1059). -/
def Guard.toDict : Guard → Dict
  | .command name => criterion "command"
      (text "command '" ++ name ++ text "' exits 0 -- full test suite passes")
      (some [(text "command_name", .str name), (text "exit_code", .int 0)])
  | .softRubric => criterion "soft_rubric"
      (text "genuine fix: the product code addresses the reported defect generally, not by " ++
        text "hardcoding outputs for the exact inputs the tests assert") none
  | .fileDiff path mustExist contentHash description => criterion "file_diff" description
      (some ([(text "path", .str (joinPath path)), (text "must_exist", .bool mustExist)] ++
        (contentHash.map fun hash => (text "content_hash", Data.str (text hash))).toList))
  | .treeDigest treeHash => criterion "tree_digest"
      (text "'tests/' tree is byte-identical to compile time (no edits, deletions, or added files)")
      (some [(text "path", .str testsDir), (text "tree_hash", .str (text treeHash))])

/-- A pin, or the guard of a file that is not there; `what` is said of it. -/
def pinGuard (what : Text) (p : Path) (mustExist : Bool) : Except UpgradeError Guard :=
  if mustExist then do
    let content ← readBytes fs (root ++ p)
    return .fileDiff p true (some (hexdigest (sha256 content)))
      (what ++ text "'" ++ joinPath p ++ text "' must stay byte-identical")
  else
    return .fileDiff p false none
      (text "pytest tamper guard: '" ++ joinPath p ++ text "' must not be created")

/-- The files to pin, with whether they exist: those `have` does not name. -/
def targets (known : List (Data × Data × Data)) (ps : List (Path × Bool)) : List (Path × Bool) :=
  ps.filter fun t => !inHave known (text "file_diff") (joinPath t.1)

/-- The files of the suite that are pinned one by one (contracting.py:1020-1027). -/
def suiteFiles (tests : Bool) : Except UpgradeError (List (Path × Bool)) :=
  if tests then
    match rglobTests fs fuel (root ++ [testsDir]) with
    | none => .error .exhausted
    | some ps => do
      let conftest := [testsDir, text "conftest.py"]
      let there ← pathExists fs (root ++ conftest)
      return (firstFifty (ps.map (testsDir :: ·))).map (·, true) ++ [(conftest, there)]
  else return (firstFifty ((globTests fs root).map ([·]))).map (·, true)

/-- The configuration files of the test runner (contracting.py:1036-1040). -/
def tamperFiles : Except UpgradeError (List (Path × Bool)) :=
  pytestTamperFiles.mapM fun name => do return ([name], ← pathExists fs (root ++ [name]))

/-- The suite is pinned as a tree. -/
def pinsTree (criteria : List Dict) (tests : Bool) : Bool := tests ∧ criteria.all (!writesTests ·)

/-- The guards for the suite (contracting.py:1002-1034). -/
def suiteGuards (known : List (Data × Data × Data)) (criteria : List Dict) (tests : Bool) :
    Except UpgradeError (List Guard) :=
  if pinsTree criteria tests then
    if criteria.any (hasKind "tree_digest") then return []
    else
      match computeTreeDigest sha256 fs limits links root testsDir with
      | .error e => .error (.tree e)
      | .ok digest => return [.treeDigest digest]
  else do
    (targets known (← suiteFiles fs fuel root tests)).mapM fun t =>
      pinGuard sha256 fs root [] t.1 t.2

/-- The criteria `_upgrade_test_goal_criterion` adds (contracting.py:954-1059), for a suite
that is there and the command that runs it. -/
def guards (cmd : Text) (criteria : List Dict) (tests : Bool) :
    Except UpgradeError (List Guard) := do
  let known ← criteria.mapM namedBy
  let command := if inHave known (text "command") cmd then [] else [Guard.command cmd]
  let rubric := if criteria.any (hasKind "soft_rubric") then [] else [Guard.softRubric]
  let suite ← suiteGuards sha256 fs limits links fuel root known criteria tests
  let tamper ← (targets known (← tamperFiles fs root)).mapM fun t =>
    pinGuard sha256 fs root (text "pytest config ") t.1 t.2
  return command ++ rubric ++ suite ++ tamper

/-- The guards added, `none` where the criteria are left as they are
(contracting.py:945-952). -/
def upgradeGuards (testGoal : Text → Bool) (goal : Text) (config : Option (List CommandConfig))
    (criteria : List Dict) : Except UpgradeError (Option (List Guard)) :=
  match config with
  | none => return none
  | some commands =>
    if testGoal goal then do
      let tests ← isDir fs (root ++ [testsDir])
      match pytestCommandName commands with
      | none => return none
      | some cmd =>
        if tests ∨ globTests fs root ≠ [] then
          return some (← guards sha256 fs limits links fuel root cmd criteria tests)
        else return none
    else return none

/-- `_upgrade_test_goal_criterion` (contracting.py:922-1061) -/
def upgradeTestGoalCriterion (testGoal : Text → Bool) (goal : Text)
    (config : Option (List CommandConfig)) (criteria : List Dict) :
    Except UpgradeError (List Dict) := do
  match ← upgradeGuards sha256 fs limits links fuel root testGoal goal config criteria with
  | none => return criteria
  | some added => return criteria ++ added.map Guard.toDict

end

/-! ## What the upgrade raises -/

/-- The workspace is to blame. -/
def UpgradeError.ofWorkspace : UpgradeError → Bool
  | .osError => true
  | .tree _ => true
  | _ => false

/-- The upgrade comes to look at the criteria. -/
def Upgrades (fs : FileSystem) (root : Path) (testGoal : Text → Bool) (goal : Text)
    (commands : List CommandConfig) : Prop :=
  testGoal goal = true ∧ (pytestCommandName commands).isSome ∧
    ∃ tests, isDir fs (root ++ [testsDir]) = .ok tests ∧ (tests = true ∨ globTests fs root ≠ [])

section

variable {sha256 : ByteArray → Digest} {fs : FileSystem} {limits : TreeLimits} {links fuel : Nat}
  {root : Path} {testGoal : Text → Bool} {goal cmd : Text} {commands : List CommandConfig}
  {config : Option (List CommandConfig)} {criteria criteria' : List Dict} {tests : Bool}
  {known : List (Data × Data × Data)} {e : UpgradeError}

theorem pathExists_error {p : Path} (h : pathExists fs p = .error e) : e.ofWorkspace = true := by
  unfold pathExists at h
  split at h <;> cases h
  rfl

theorem isDir_error {p : Path} (h : isDir fs p = .error e) : e.ofWorkspace = true := by
  unfold isDir at h
  split at h <;> cases h
  rfl

theorem pinGuard_error {what : Text} {p : Path} {mustExist : Bool}
    (h : pinGuard sha256 fs root what p mustExist = .error e) : e.ofWorkspace = true := by
  unfold pinGuard readBytes at h
  split at h
  · split at h
    · split at h
      · cases h
      · cases h
        rfl
    · cases h
      rfl
  · cases h

theorem pinGuards_error {what : Text} {ts : List (Path × Bool)}
    (h : ts.mapM (fun t => pinGuard sha256 fs root what t.1 t.2) = .error e) :
    e.ofWorkspace = true := by
  obtain ⟨t, -, ht⟩ := Fallible.mapM_error h
  exact pinGuard_error ht

theorem tamperFiles_error (h : tamperFiles fs root = .error e) : e.ofWorkspace = true := by
  obtain ⟨name, -, hname⟩ := Fallible.mapM_error h
  cases hthere : pathExists fs (root ++ [name]) with
  | ok there =>
    simp only [hthere, bind, Except.bind] at hname
    cases hname
  | error e' =>
    simp only [hthere, bind, Except.bind] at hname
    cases hname
    exact pathExists_error hthere

theorem suiteFiles_error (hwalk : (rglobTests fs fuel (root ++ [testsDir])).isSome)
    (h : suiteFiles fs fuel root tests = .error e) : e.ofWorkspace = true := by
  unfold suiteFiles at h
  split at h
  · split at h
    · rename_i hnone
      rw [hnone] at hwalk
      cases hwalk
    · cases hconf : pathExists fs (root ++ [testsDir, text "conftest.py"]) with
      | ok there =>
        simp only [hconf, bind, Except.bind] at h
        cases h
      | error e' =>
        simp only [hconf, bind, Except.bind] at h
        cases h
        exact pathExists_error hconf
  · cases h

theorem suiteGuards_error (hwalk : (rglobTests fs fuel (root ++ [testsDir])).isSome)
    (h : suiteGuards sha256 fs limits links fuel root known criteria tests = .error e) :
    e.ofWorkspace = true := by
  unfold suiteGuards at h
  split at h
  · split at h
    · cases h
    · split at h
      · cases h
        rfl
      · cases h
  · cases hsuite : suiteFiles fs fuel root tests with
    | error e' =>
      simp only [hsuite, bind, Except.bind] at h
      cases h
      exact suiteFiles_error hwalk hsuite
    | ok suite =>
      simp only [hsuite, bind, Except.bind] at h
      exact pinGuards_error h

/-- In a tree of bounded depth the walk over the suite ends. -/
theorem rglobTests_ends {base : Path} {n : Nat}
    (h : ∀ d, Worklist.Reached (fun d => globDirs fs (base ++ d)) d → d.length ≤ n) :
    ∃ k, ∀ fuel, k ≤ fuel → (rglobTests fs fuel base).isSome :=
  Worklist.explore_ends h

/-- Once the criteria are in `have`, only the workspace makes the guards raise. -/
theorem guards_error (hwalk : (rglobTests fs fuel (root ++ [testsDir])).isSome)
    (hknown : criteria.mapM namedBy = .ok known)
    (h : guards sha256 fs limits links fuel root cmd criteria tests = .error e) :
    e.ofWorkspace = true := by
  unfold guards at h
  rw [hknown] at h
  simp only [bind, Except.bind] at h
  split at h
  · rename_i e' hsuite
    cases h
    exact suiteGuards_error hwalk hsuite
  · split at h
    · rename_i e' hfiles
      cases h
      exact tamperFiles_error hfiles
    · split at h
      · rename_i e' hpins
        cases h
        exact pinGuards_error hpins
      · cases h

theorem upgradeGuards_error (hwalk : (rglobTests fs fuel (root ++ [testsDir])).isSome)
    (hknown : Upgrades fs root testGoal goal commands → ∃ known, criteria.mapM namedBy = .ok known)
    (h : upgradeGuards sha256 fs limits links fuel root testGoal goal (some commands) criteria =
      .error e) : e.ofWorkspace = true := by
  unfold upgradeGuards at h
  simp only at h
  split at h
  · rename_i hgoal
    cases htests : isDir fs (root ++ [testsDir]) with
    | error e' =>
      rw [htests] at h
      cases h
      exact isDir_error htests
    | ok tests =>
      rw [htests] at h
      simp only [bind, Except.bind] at h
      split at h
      · cases h
      · rename_i cmd hcmd
        split at h
        · rename_i hthere
          obtain ⟨known, hknown⟩ := hknown ⟨hgoal, by rw [hcmd]; rfl, tests, htests, hthere⟩
          cases hguards : guards sha256 fs limits links fuel root cmd criteria tests with
          | error e' =>
            rw [hguards] at h
            cases h
            exact guards_error hwalk hknown hguards
          | ok gs =>
            rw [hguards] at h
            cases h
        · cases h
  · cases h

/-- A criterion that cannot be in `have` makes the upgrade raise, if it comes to look. -/
theorem upgradeGuards_raises (hgo : Upgrades fs root testGoal goal commands)
    (hknown : criteria.mapM namedBy = .error e) :
    upgradeGuards sha256 fs limits links fuel root testGoal goal (some commands) criteria =
      .error e := by
  obtain ⟨hgoal, hcmd, tests, htests, hthere⟩ := hgo
  obtain ⟨cmd, hcmd⟩ := Option.isSome_iff_exists.mp hcmd
  unfold upgradeGuards
  simp only [hgoal, if_true, htests, hcmd, hthere, bind, Except.bind]
  unfold guards
  rw [hknown]
  rfl

/-- If it does not come to look, the criteria make no difference. -/
theorem upgradeGuards_other (hstay : ¬ Upgrades fs root testGoal goal commands) :
    upgradeGuards sha256 fs limits links fuel root testGoal goal (some commands) criteria =
      upgradeGuards sha256 fs limits links fuel root testGoal goal (some commands) criteria' := by
  unfold upgradeGuards
  simp only
  split
  · rename_i hgoal
    cases htests : isDir fs (root ++ [testsDir]) with
    | error e => rfl
    | ok tests =>
      simp only [bind, Except.bind]
      split
      · rfl
      · rename_i cmd hcmd
        rw [if_neg, if_neg]
        · exact fun hthere => hstay ⟨hgoal, by rw [hcmd]; rfl, tests, htests, hthere⟩
        · exact fun hthere => hstay ⟨hgoal, by rw [hcmd]; rfl, tests, htests, hthere⟩
  · rfl

end

end TestGoals

end Northstack
