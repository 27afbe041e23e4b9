import Northstack.Application.FileGates
import Northstack.Core.Fallible

/-!
# The gates of the guards

What becomes of the criteria the upgrade adds: the gates they are at verification, and
which guards there are for a workspace and the model's criteria.

**Results.**
* `upgradeGuards_some`: the guards added are the command, the rubric, the pin of the tree
  and a guard for each target.
* `mem_pinTargets`: what the targets are.
-/
namespace Northstack

namespace TestGoals

open TextFiles Posix Workspace FileGates

/-! ## Gates -/

/-- A typed criterion that is checked. -/
inductive Gate where
  | command (name : Text) (exitCode : Int)
  | softRubric
  | fileDiff (criterion : FileDiffCriterion)
  | treeDigest (criterion : TreeDigestCriterion)

/-- The text is encoded where a model of the contract takes it. -/
def encodes (s : Text) : Bool := (encode? s).isSome

/-- The gate of an added criterion; one whose name cannot be encoded is dropped. -/
def Guard.gate : Guard → Option Gate
  | .command name => if encodes name ∧ name ≠ [] then some (.command name 0) else none
  | .softRubric => some .softRubric
  | .fileDiff path mustExist contentHash _ =>
    if encodes (joinPath path) then
      some (.fileDiff { path := joinPath path, mustExist := mustExist
                        contentHash := contentHash.map text })
    else none
  | .treeDigest treeHash => some (.treeDigest ⟨testsDir, text treeHash⟩)

section

variable (lower : Text → Text) (maxReadBytes links : Nat) {fs : FileSystem} (root : Root fs)
  (sha256 : ByteArray → Digest) (limits : TreeLimits) (run : Text → Option Int)

/-- Whether a gate passes; `run` gives the exit code of a command. -/
def Gate.passes : Gate → Bool
  | .command name exitCode => run name = some exitCode
  | .softRubric => true
  | .fileDiff criterion => checkFileDiff lower maxReadBytes links root sha256 criterion
  | .treeDigest criterion => checkTreeDigest links root sha256 limits criterion

/-- Whether the gate of a guard passes, if it has one. -/
def Guard.passes (g : Guard) : Bool :=
  (g.gate.map (Gate.passes lower maxReadBytes links root sha256 limits run)).getD true

end

/-! ## Which guards there are -/

section

variable (fs : FileSystem) (fuel : Nat) (root : Path)

/-- The files that are pinned one by one, or must not be there. -/
def pinTargets (known : List (Data × Data × Data)) (criteria : List Dict) (tests : Bool) :
    Except UpgradeError (List (Path × Bool)) := do
  let suite ← if pinsTree criteria tests then pure [] else suiteFiles fs fuel root tests
  let tamper ← tamperFiles fs root
  return targets known (suite ++ tamper)

/-- The files the upgrade watches one by one, with whether they exist. -/
def watched (criteria : List Dict) : Except UpgradeError (List (Path × Bool)) := do
  let known ← criteria.mapM namedBy
  let tests ← isDir fs (root ++ [testsDir])
  pinTargets fs fuel root known criteria tests

/-- The guard of a target. -/
def Pins (sha256 : ByteArray → Digest) (t : Path × Bool) (g : Guard) : Prop :=
  (t.2 = true ∧ fs.opens (root ++ t.1) = true ∧ ∃ content n description,
      fs.stat (root ++ t.1) = .file content n ∧
        g = .fileDiff t.1 true (some (hexdigest (sha256 content))) description) ∨
    t.2 = false ∧ ∃ description, g = .fileDiff t.1 false none description

end

section

variable {sha256 : ByteArray → Digest} {fs : FileSystem} {limits : TreeLimits} {links fuel : Nat}
  {root : Path} {known : List (Data × Data × Data)} {criteria : List Dict} {tests : Bool}
  {ts : List (Path × Bool)} {t : Path × Bool} {g : Guard} {cmd goal : Text} {added : List Guard}
  {testGoal : Text → Bool} {config : Option (List CommandConfig)}

theorem pinGuard_ok {what : Text} (h : pinGuard sha256 fs root what t.1 t.2 = .ok g) :
    Pins fs root sha256 t g := by
  obtain ⟨p, mustExist⟩ := t
  cases mustExist with
  | false =>
    cases h
    exact .inr ⟨rfl, _, rfl⟩
  | true =>
    unfold pinGuard readBytes at h
    rw [if_pos rfl] at h
    split at h
    · rename_i hopens
      split at h
      · rename_i content n hfile
        cases h
        exact .inl ⟨rfl, hopens, content, n, _, hfile, rfl⟩
      · cases h
    · cases h

/-- Each target has its guard, and each guard its target. -/
theorem pinGuards_ok {what : Text} {gs : List Guard}
    (h : ts.mapM (fun t => pinGuard sha256 fs root what t.1 t.2) = .ok gs) :
    (∀ g ∈ gs, ∃ t ∈ ts, Pins fs root sha256 t g) ∧
      ∀ t ∈ ts, ∃ g ∈ gs, Pins fs root sha256 t g := by
  obtain ⟨hright, hleft⟩ := Fallible.mapM_ok h
  constructor
  · intro g hg
    obtain ⟨t, ht, hok⟩ := hright g hg
    exact ⟨t, ht, pinGuard_ok hok⟩
  · intro t ht
    obtain ⟨g, hg, hok⟩ := hleft t ht
    exact ⟨g, hg, pinGuard_ok hok⟩

/-- The guards the upgrade adds to the criteria. -/
structure Adds (sha256 : ByteArray → Digest) (fs : FileSystem) (limits : TreeLimits)
    (links fuel : Nat) (root : Path) (criteria : List Dict) (cmd : Text)
    (known : List (Data × Data × Data)) (tests : Bool) (ts : List (Path × Bool))
    (added : List Guard) : Prop where
  names : criteria.mapM namedBy = .ok known
  isDir : isDir fs (root ++ [testsDir]) = .ok tests
  targets : pinTargets fs fuel root known criteria tests = .ok ts
  guards : ∀ g ∈ added, g = .command cmd ∨ g = .softRubric ∨
    (∃ digest, g = .treeDigest digest ∧ pinsTree criteria tests = true ∧
      criteria.any (hasKind "tree_digest") = false ∧
      computeTreeDigest sha256 fs limits links root testsDir = .ok digest) ∨
    ∃ t ∈ ts, Pins fs root sha256 t g
  tree : pinsTree criteria tests = true → criteria.any (hasKind "tree_digest") = false →
    ∃ digest, computeTreeDigest sha256 fs limits links root testsDir = .ok digest ∧
      .treeDigest digest ∈ added
  pins : ∀ t ∈ ts, ∃ g ∈ added, Pins fs root sha256 t g

/-- What the guards for the suite are. -/
theorem suiteGuards_ok {gs : List Guard}
    (h : suiteGuards sha256 fs limits links fuel root known criteria tests = .ok gs) :
    (pinsTree criteria tests = true ∧ (gs = [] ∧ criteria.any (hasKind "tree_digest") = true ∨
      ∃ digest, gs = [.treeDigest digest] ∧ criteria.any (hasKind "tree_digest") = false ∧
        computeTreeDigest sha256 fs limits links root testsDir = .ok digest)) ∨
    (pinsTree criteria tests = false ∧ ∃ suite, suiteFiles fs fuel root tests = .ok suite ∧
      (∀ g ∈ gs, ∃ t ∈ targets known suite, Pins fs root sha256 t g) ∧
      ∀ t ∈ targets known suite, ∃ g ∈ gs, Pins fs root sha256 t g) := by
  unfold suiteGuards at h
  split at h
  · rename_i hpins
    refine .inl ⟨hpins, ?_⟩
    split at h
    · rename_i hany
      cases h
      exact .inl ⟨rfl, hany⟩
    · rename_i hany
      rw [Bool.not_eq_true] at hany
      split at h
      · cases h
      · rename_i digest hdigest
        cases h
        exact .inr ⟨digest, rfl, hany, hdigest⟩
  · rename_i hpins
    rw [Bool.not_eq_true] at hpins
    refine .inr ⟨hpins, ?_⟩
    cases hsuite : suiteFiles fs fuel root tests with
    | error e =>
      rw [hsuite] at h
      cases h
    | ok suite =>
      rw [hsuite] at h
      exact ⟨suite, rfl, pinGuards_ok h⟩

theorem Adds.watched (h : Adds sha256 fs limits links fuel root criteria cmd known tests ts added) :
    TestGoals.watched fs fuel root criteria = .ok ts := by
  unfold TestGoals.watched
  rw [h.names, ← h.targets]
  simp only [bind, Except.bind, h.isDir]

theorem targets_append (known : List (Data × Data × Data)) (ps qs : List (Path × Bool)) :
    targets known (ps ++ qs) = targets known ps ++ targets known qs :=
  List.filter_append ps qs

/-- The guards, guard by guard. -/
theorem guards_ok (htests : isDir fs (root ++ [testsDir]) = .ok tests)
    (h : guards sha256 fs limits links fuel root cmd criteria tests = .ok added) :
    ∃ known ts, Adds sha256 fs limits links fuel root criteria cmd known tests ts added := by
  unfold guards at h
  cases hknown : criteria.mapM namedBy with
  | error e =>
    rw [hknown] at h
    cases h
  | ok known =>
    cases hsuite : suiteGuards sha256 fs limits links fuel root known criteria tests with
    | error e =>
      rw [hknown] at h
      simp only [bind, Except.bind, hsuite] at h
      cases h
    | ok suite =>
      cases hfiles : tamperFiles fs root with
      | error e =>
        rw [hknown] at h
        simp only [bind, Except.bind, hsuite, hfiles] at h
        cases h
      | ok files =>
        rw [hknown] at h
        simp only [bind, Except.bind, hsuite, hfiles] at h
        split at h
        · cases h
        rename_i tamper htamper
        cases h
        obtain ⟨htamperGuards, htamperPins⟩ := pinGuards_ok htamper
        have hfirst : ∀ g ∈
            (if inHave known (text "command") cmd then [] else [Guard.command cmd]) ++
            (if criteria.any (hasKind "soft_rubric") then [] else [Guard.softRubric]),
            g = .command cmd ∨ g = .softRubric := by
          intro g hg
          rw [List.mem_append] at hg
          obtain hg | hg := hg
          · split at hg
            · cases hg
            · exact .inl (List.mem_singleton.mp hg)
          · split at hg
            · cases hg
            · exact .inr (List.mem_singleton.mp hg)
        rcases suiteGuards_ok hsuite with
          ⟨hpins, hsuite⟩ | ⟨hpins, targeted, htargeted, hall, heach⟩
        · -- the suite is a tree
          refine ⟨known, targets known files, hknown, htests, ?_, ?_, ?_, ?_⟩
          · simp [pinTargets, hpins, hfiles, bind, Except.bind, pure, Except.pure]
          · intro g hg
            rw [List.mem_append, List.mem_append] at hg
            obtain (hg | hg) | hg := hg
            · exact (hfirst g hg).imp_right .inl
            · obtain ⟨rfl, -⟩ | ⟨digest, rfl, hany, hdigest⟩ := hsuite
              · cases hg
              · rw [List.mem_singleton.mp hg]
                exact .inr (.inr (.inl ⟨digest, rfl, hpins, hany, hdigest⟩))
            · exact .inr (.inr (.inr (htamperGuards g hg)))
          · intro _ hnone
            obtain ⟨-, hany⟩ | ⟨digest, rfl, -, hdigest⟩ := hsuite
            · rw [hnone] at hany
              cases hany
            · exact ⟨digest, hdigest, by simp⟩
          · intro t ht
            obtain ⟨g, hg, hpin⟩ := htamperPins t ht
            exact ⟨g, List.mem_append_right _ hg, hpin⟩
        · -- the suite is files
          refine ⟨known, targets known (targeted ++ files), hknown, htests, ?_, ?_, ?_, ?_⟩
          · simp [pinTargets, hpins, htargeted, hfiles, bind, Except.bind, pure, Except.pure]
          · intro g hg
            rw [List.mem_append, List.mem_append] at hg
            rw [targets_append]
            obtain (hg | hg) | hg := hg
            · exact (hfirst g hg).imp_right .inl
            · obtain ⟨t, ht, hpin⟩ := hall g hg
              exact .inr (.inr (.inr ⟨t, List.mem_append_left _ ht, hpin⟩))
            · obtain ⟨t, ht, hpin⟩ := htamperGuards g hg
              exact .inr (.inr (.inr ⟨t, List.mem_append_right _ ht, hpin⟩))
          · intro hyes
            rw [hpins] at hyes
            cases hyes
          · intro t ht
            rw [targets_append, List.mem_append] at ht
            obtain ht | ht := ht
            · obtain ⟨g, hg, hpin⟩ := heach t ht
              exact ⟨g, List.mem_append_left _ (List.mem_append_right _ hg), hpin⟩
            · obtain ⟨g, hg, hpin⟩ := htamperPins t ht
              exact ⟨g, List.mem_append_right _ hg, hpin⟩

/-- What the upgrade adds, guard by guard. -/
theorem upgradeGuards_some
    (h : upgradeGuards sha256 fs limits links fuel root testGoal goal config criteria =
      .ok (some added)) :
    ∃ cmd known tests ts,
      Adds sha256 fs limits links fuel root criteria cmd known tests ts added := by
  unfold upgradeGuards at h
  split at h
  · cases h
  split at h
  · cases htests : isDir fs (root ++ [testsDir]) with
    | error e =>
      rw [htests] at h
      cases h
    | ok tests =>
      rw [htests] at h
      simp only [bind, Except.bind] at h
      split at h
      · cases h
      · rename_i cmd hcmd
        split at h
        · cases hguards : guards sha256 fs limits links fuel root cmd criteria tests with
          | error e =>
            rw [hguards] at h
            cases h
          | ok gs =>
            rw [hguards] at h
            cases h
            obtain ⟨known, ts, hadds⟩ := guards_ok htests hguards
            exact ⟨cmd, known, tests, ts, hadds⟩
        · cases h
  · cases h

/-! ## The targets -/

/-- A file of the suite that is pinned on its own, by its path. -/
def SuitePath (fs : FileSystem) (root : Path) (tests : Bool) (p : Path) : Prop :=
  ∃ d name, p = (if tests then testsDir :: (d ++ [name]) else [name]) ∧
    (tests = false → d = []) ∧ ProperName name ∧ isTestName name = true ∧
    ∀ e m, e ++ [m] <+: d → ProperName m ∧ fs.lstat (root ++ testsDir :: (e ++ [m])) = .dir

/-- What is pinned, or must not be there: a file of the suite, or a configuration file. -/
def Target (fs : FileSystem) (root : Path) (tests : Bool) (t : Path × Bool) : Prop :=
  (t.2 = true ∧ SuitePath fs root tests t.1) ∨
    ((∃ name ∈ pytestTamperFiles, t.1 = [name]) ∨
      tests = true ∧ t.1 = [testsDir, text "conftest.py"]) ∧
      pathExists fs (root ++ t.1) = .ok t.2

theorem mem_globTests {d : Path} {name : Text} (h : name ∈ globTests fs d) :
    ProperName name ∧ (fs.lstat (d ++ [name])).found ∧ isTestName name = true := by
  unfold globTests at h
  split at h
  · rw [List.mem_filter, fs.mem_scandir] at h
    exact ⟨h.1.1, h.1.2, h.2⟩
  · cases h

theorem mem_globDirs {d : Path} {name : Text} (h : name ∈ globDirs fs d) :
    ProperName name ∧ fs.lstat (d ++ [name]) = .dir := by
  unfold globDirs at h
  split at h
  · rw [List.mem_filter, fs.mem_scandir, decide_eq_true_iff] at h
    exact ⟨h.1.1, h.2⟩
  · cases h

/-- The directories `**` goes into hold no link. -/
theorem reached_globDirs {base d : Path}
    (h : Worklist.Reached (fun d => globDirs fs (base ++ d)) d) (e : Path) (m : Text)
    (hpre : e ++ [m] <+: d) : ProperName m ∧ fs.lstat (base ++ (e ++ [m])) = .dir := by
  induction h with
  | root => simp at hpre
  | @sub d n hd hn ih =>
    rcases List.prefix_concat_iff.mp hpre with heq | hpre
    · obtain ⟨rfl, hname⟩ := List.append_inj' heq rfl
      cases hname
      have hdir := mem_globDirs hn
      rw [List.append_assoc] at hdir
      exact hdir
    · exact ih hpre

theorem mem_firstFifty {ps : List Path} {p : Path} (h : p ∈ firstFifty ps) : p ∈ ps :=
  (List.mem_insertionSort PartsLe).mp (List.mem_of_mem_take h)

theorem mem_suiteFiles {suite : List (Path × Bool)} (h : suiteFiles fs fuel root tests = .ok suite)
    (ht : t ∈ suite) : Target fs root tests t := by
  unfold suiteFiles at h
  cases tests with
  | false =>
    cases h
    obtain ⟨p, hp, rfl⟩ := List.mem_map.mp ht
    obtain ⟨name, hname, rfl⟩ := List.mem_map.mp (mem_firstFifty hp)
    obtain ⟨hproper, -, htest⟩ := mem_globTests hname
    refine .inl ⟨rfl, [], name, rfl, fun _ => rfl, hproper, htest, ?_⟩
    intro e m hpre
    simp at hpre
  | true =>
    rw [if_pos rfl] at h
    split at h
    · cases h
    rename_i ps hps
    cases hconf : pathExists fs (root ++ [testsDir, text "conftest.py"]) with
    | error e =>
      simp only [hconf, bind, Except.bind] at h
      cases h
    | ok conf =>
      simp only [hconf, bind, Except.bind, pure, Except.pure] at h
      cases h
      rcases List.mem_append.mp ht with ht | ht
      · obtain ⟨p, hp, rfl⟩ := List.mem_map.mp ht
        obtain ⟨q, hq, rfl⟩ := List.mem_map.mp (mem_firstFifty hp)
        obtain ⟨d, name, rfl, hd, hname⟩ := (Worklist.mem_explore hps).mp hq
        obtain ⟨hproper, -, htest⟩ := mem_globTests hname
        refine .inl ⟨rfl, d, name, rfl, fun h => (by cases h), hproper, htest, ?_⟩
        intro e m hpre
        have hdir := reached_globDirs hd e m hpre
        rw [List.append_assoc, List.singleton_append] at hdir
        exact hdir
      · rw [List.mem_singleton.mp ht]
        exact .inr ⟨.inr ⟨rfl, rfl⟩, hconf⟩

theorem tamperFiles_named {files : List (Path × Bool)} (h : tamperFiles fs root = .ok files)
    (ht : t ∈ files) :
    ∃ name ∈ pytestTamperFiles, t.1 = [name] ∧ pathExists fs (root ++ [name]) = .ok t.2 := by
  obtain ⟨name, hname, hok⟩ := (Fallible.mapM_ok h).1 t ht
  cases hthere : pathExists fs (root ++ [name]) with
  | error e =>
    simp only [hthere, bind, Except.bind] at hok
    cases hok
  | ok there =>
    simp only [hthere, bind, Except.bind, pure, Except.pure] at hok
    cases hok
    exact ⟨name, hname, rfl, hthere⟩

theorem mem_tamperFiles {files : List (Path × Bool)} (h : tamperFiles fs root = .ok files)
    (ht : t ∈ files) : Target fs root tests t := by
  obtain ⟨name, hname, hpath, hthere⟩ := tamperFiles_named h ht
  rw [← hpath] at hthere
  exact .inr ⟨.inl ⟨name, hname, hpath⟩, hthere⟩

/-- What the targets are, and that `have` does not name them. -/
theorem mem_pinTargets (h : pinTargets fs fuel root known criteria tests = .ok ts) (ht : t ∈ ts) :
    Target fs root tests t ∧ inHave known (text "file_diff") (joinPath t.1) = false := by
  unfold pinTargets at h
  cases hfiles : tamperFiles fs root with
  | error e =>
    cases hpins : pinsTree criteria tests with
    | true => simp [hpins, hfiles, bind, Except.bind, pure, Except.pure] at h
    | false =>
      cases hsuite : suiteFiles fs fuel root tests with
      | error e' => simp [hpins, hsuite, bind, Except.bind] at h
      | ok suite => simp [hpins, hsuite, hfiles, bind, Except.bind] at h
  | ok files =>
    cases hpins : pinsTree criteria tests with
    | true =>
      simp [hpins, hfiles, bind, Except.bind, pure, Except.pure] at h
      rw [← h] at ht
      obtain ⟨hmem, hnot⟩ := List.mem_filter.mp ht
      exact ⟨mem_tamperFiles hfiles hmem, by simpa using hnot⟩
    | false =>
      cases hsuite : suiteFiles fs fuel root tests with
      | error e => simp [hpins, hsuite, bind, Except.bind] at h
      | ok suite =>
        simp [hpins, hsuite, hfiles, bind, Except.bind, pure, Except.pure] at h
        rw [← h] at ht
        obtain ⟨hmem, hnot⟩ := List.mem_filter.mp ht
        refine ⟨?_, by simpa using hnot⟩
        rcases List.mem_append.mp hmem with hmem | hmem
        · exact mem_suiteFiles hsuite hmem
        · exact mem_tamperFiles hfiles hmem

/-- Beside the pin of a tree only configuration files are targets. -/
theorem mem_pinTargets_tree (hpins : pinsTree criteria tests = true)
    (h : pinTargets fs fuel root known criteria tests = .ok ts) (ht : t ∈ ts) :
    ∃ name ∈ pytestTamperFiles, t.1 = [name] := by
  unfold pinTargets at h
  cases hfiles : tamperFiles fs root with
  | error e => simp [hpins, hfiles, bind, Except.bind, pure, Except.pure] at h
  | ok files =>
    simp [hpins, hfiles, bind, Except.bind, pure, Except.pure] at h
    rw [← h] at ht
    obtain ⟨name, hname, hpath, -⟩ := tamperFiles_named hfiles (List.mem_filter.mp ht).1
    exact ⟨name, hname, hpath⟩

/-- A target is a path below the root. -/
theorem Target.proper (h : Target fs root tests t) : ProperPath t.1 := by
  have htests : ProperName testsDir := by decide
  obtain ⟨-, d, name, hp, -, hname, -, hd⟩ | ⟨hplace, -⟩ := h
  · rw [hp]
    split
    · refine ⟨by simp, ?_⟩
      intro n hn
      rcases List.mem_cons.mp hn with rfl | hn
      · exact htests
      rcases List.mem_append.mp hn with hn | hn
      · obtain ⟨e, rest, rfl⟩ := List.append_of_mem hn
        exact (hd e n ⟨rest, by simp⟩).1
      · rw [List.mem_singleton.mp hn]
        exact hname
    · refine ⟨by simp, ?_⟩
      intro n hn
      rw [List.mem_singleton.mp hn]
      exact hname
  · obtain ⟨name, hname, hp⟩ | ⟨-, hp⟩ := hplace
    · rw [hp]
      refine ⟨by simp, ?_⟩
      intro n hn
      rw [List.mem_singleton.mp hn]
      have hall : ∀ n ∈ pytestTamperFiles, ProperName n := by decide
      exact hall name hname
    · rw [hp]
      exact ⟨by simp, by decide⟩

end

end TestGoals

end Northstack
