import Northstack.Application.AddedGates
import Northstack.Application.TreeStability

/-!
# Guards on an honest run

The upgrade reads the files it pins with `read_bytes`, whatever they are; at verification
they are read through the workspace, which refuses links, sensitive names, hard links and
some texts of paths, cuts off what is long, and has them decoded. A file that must not be
there is looked for with `exists`, which follows links, and then with `read`, which does
not.

**Result** (`honestRunsPass_iff`). On a run that leaves all the guards watch as it was, the
file and tree gates pass exactly if every file watched is `Steady`: the workspace reads it
in full, or nothing stands in its place.
-/
namespace Northstack

namespace TestGoals

open TextFiles Posix Workspace FileGates

/-- The guard is a gate on files. -/
def Guard.readsFiles : Guard → Bool
  | .fileDiff _ _ _ _ => true
  | .treeDigest _ => true
  | _ => false

/-- Between two states of the workspace nothing has changed that the guards watch: the
files, the way to them, and the tree. -/
structure Honest (A B : FileSystem) (root : Path) (added : List Guard) : Prop where
  files : ∀ p mustExist hash description, .fileDiff p mustExist hash description ∈ added →
    ∀ q, q <+: p → q ≠ [] →
      B.lstat (root ++ q) = A.lstat (root ++ q) ∧ B.opens (root ++ q) = A.opens (root ++ q)
  tree : ∀ treeHash, .treeDigest treeHash ∈ added →
    B.lstat (root ++ [testsDir]) = A.lstat (root ++ [testsDir]) ∧
      SameTree A B (root ++ [testsDir])

section

variable (sha256 : ByteArray → Digest) (limits : TreeLimits) (links fuel : Nat)
  (lower : Text → Text) (maxReadBytes : Nat) {A : FileSystem} (root : Root A)
  (testGoal : Text → Bool) (goal : Text) (config : Option (List CommandConfig))
  (criteria : List Dict)

/-- Where the upgrade adds guards, each of their file and tree gates passes on every honest
run. -/
def HonestRunsPass : Prop :=
  ∀ added, upgradeGuards sha256 A limits links fuel root.path testGoal goal config criteria =
      .ok (some added) →
    ∀ (B : FileSystem) (root' : Root B) (run : Text → Option Int), root'.path = root.path →
      Honest A B root.path added → ∀ g ∈ added, g.readsFiles = true →
        g.passes lower maxReadBytes links root' sha256 limits run = true

/-- A file that is watched is reached without a link, and the workspace reads it in full; one
that must not be there has nothing in its place. -/
def Steady (t : Path × Bool) : Prop :=
  Clear A root.path t.1 ∧
    (t.2 = true → ∃ content n, A.lstat (root.path ++ t.1) = .file content n ∧ n ≤ 1 ∧
      Readable lower maxReadBytes root.path t.1 content) ∧
    (t.2 = false → A.lstat (root.path ++ t.1) = .missing)

end

section

variable {sha256 : ByteArray → Digest} {limits : TreeLimits} {links fuel maxReadBytes : Nat}
  {lower : Text → Text} {A B : FileSystem} {root : Root A} {root' : Root B}
  {run : Text → Option Int} {t : Path × Bool} {g : Guard} {tests : Bool}

/-- The texts of the files that must not be there are none that is refused. -/
theorem Target.text (h : Target A root.path tests t) (habsent : t.2 = false) :
    refusedText (joinPath t.1) = false := by
  obtain ⟨htrue, -⟩ | ⟨hplace, -⟩ := h
  · rw [habsent] at htrue
    cases htrue
  obtain ⟨name, hname, hp⟩ | ⟨-, hp⟩ := hplace
  · have hall : ∀ n ∈ pytestTamperFiles, refusedText (joinPath [n]) = false := by decide
    rw [hp]
    exact hall name hname
  · rw [hp]
    decide

/-- When the guard of a target passes in a state of the workspace that has no other file with
the digest of the one pinned. -/
theorem pins_passes (hproper : ProperPath t.1)
    (htext : t.2 = false → refusedText (joinPath t.1) = false)
    (hpin : Pins A root.path sha256 t g) (hencodes : encodes (joinPath t.1) = true)
    (hroot : root'.path = root.path)
    (hapart : ∀ a n, A.stat (root.path ++ t.1) = .file a n → ∀ b m,
      B.lstat (root.path ++ t.1) = .file b m → sha256 b = sha256 a → b = a) :
    g.passes lower maxReadBytes links root' sha256 limits run = true ↔
      Clear B root.path t.1 ∧
        (t.2 = true → B.opens (root.path ++ t.1) = true ∧ ∃ content n m,
          A.stat (root.path ++ t.1) = .file content n ∧
          B.lstat (root.path ++ t.1) = .file content m ∧ m ≤ 1 ∧
          Readable lower maxReadBytes root.path t.1 content) ∧
        (t.2 = false → B.lstat (root.path ++ t.1) = .missing) := by
  obtain ⟨htrue, hopens, content, n, description, hfile, rfl⟩ | ⟨hfalse, description, rfl⟩ := hpin
  · have hpass : checkFileDiff lower maxReadBytes links root' sha256
        { path := joinPath t.1, contentHash := some (text (hexdigest (sha256 content))) } = true ↔
        _ := checkFileDiff_pin sha256 hproper (by rw [hroot]; exact hapart content n hfile)
    rw [hroot] at hpass
    simp only [Guard.passes, Guard.gate, hencodes, if_true, Option.map_some, Option.getD_some,
      Gate.passes, hpass, htrue, true_implies, Bool.true_eq_false, false_implies, and_true]
    constructor
    · rintro ⟨hclear, ⟨m, hstill, hm⟩, hopen, hreadable⟩
      exact ⟨hclear, hopen, content, n, m, hfile, hstill, hm, hreadable⟩
    · rintro ⟨hclear, hopen, c, k, m, hpinned, hstill, hm, hreadable⟩
      rw [hfile] at hpinned
      cases hpinned
      exact ⟨hclear, ⟨m, hstill, hm⟩, hopen, hreadable⟩
  · have hpass : checkFileDiff lower maxReadBytes links root' sha256
        { path := joinPath t.1, mustExist := false } = true ↔ _ :=
      checkFileDiff_absent sha256 hproper
    rw [hroot] at hpass
    simp only [Guard.passes, Guard.gate, hencodes, if_true, Option.map_some, Option.getD_some,
      Gate.passes, Option.map_none, hpass, htext hfalse, hfalse, true_and, Bool.false_eq_true,
      false_implies, true_implies]

/-- A walk meets the same in a state that agrees with the first on the way. -/
theorem clear_congr {current : Path} {parts : List Text} (h : Clear A current parts)
    (hsame : ∀ q, q <+: parts → q ≠ [] → B.lstat (current ++ q) = A.lstat (current ++ q)) :
    Clear B current parts := by
  rw [clear_iff] at h ⊢
  intro q name hpre
  rw [hsame (q ++ [name]) hpre (by simp)]
  exact h q name hpre

theorem Honest.refl (A : FileSystem) (root : Path) (added : List Guard) : Honest A A root added :=
  ⟨fun _ _ _ _ _ _ _ _ => ⟨rfl, rfl⟩, fun _ _ => ⟨rfl, fun _ _ => ⟨rfl, fun _ => ⟨rfl, rfl⟩⟩⟩⟩

/-- What is the same for a target on an honest run. -/
theorem Honest.target {added : List Guard} (h : Honest A B root.path added)
    (hpin : Pins A root.path sha256 t g) (hg : g ∈ added) (q : Path) (hq : q <+: t.1)
    (hne : q ≠ []) : B.lstat (root.path ++ q) = A.lstat (root.path ++ q) ∧
      B.opens (root.path ++ q) = A.opens (root.path ++ q) := by
  obtain ⟨-, -, content, n, description, -, rfl⟩ | ⟨-, description, rfl⟩ := hpin
  · exact h.files _ _ _ _ hg q hq hne
  · exact h.files _ _ _ _ hg q hq hne

/-- The guard of a target passes on honest runs exactly if the target is steady. -/
theorem target_passes {added : List Guard} (h : Honest A B root.path added)
    (hpin : Pins A root.path sha256 t g) (hg : g ∈ added) (hproper : ProperPath t.1)
    (htext : t.2 = false → refusedText (joinPath t.1) = false)
    (hencodes : encodes (joinPath t.1) = true) (hroot : root'.path = root.path) :
    g.passes lower maxReadBytes links root' sha256 limits run = true ↔
      Steady lower maxReadBytes root t := by
  obtain ⟨hlstat, hopens⟩ := h.target hpin hg t.1 List.prefix_rfl hproper.1
  have hstat (a : ByteArray) (n : Nat) (b : ByteArray) (m : Nat)
      (hpinned : A.stat (root.path ++ t.1) = .file a n)
      (hfile : A.lstat (root.path ++ t.1) = .file b m) : b = a := by
    rw [A.stat_eq _ (by rw [hfile]; rfl), hfile] at hpinned
    cases hpinned
    rfl
  rw [pins_passes hproper htext hpin hencodes hroot, hlstat, hopens]
  · unfold Steady
    constructor
    · rintro ⟨hclear, hexists, habsent⟩
      refine ⟨clear_congr hclear fun q hq hne => (h.target hpin hg q hq hne).1.symm, ?_, habsent⟩
      intro hthere
      obtain ⟨-, content, n, m, -, hfile, hm, hreadable⟩ := hexists hthere
      exact ⟨content, m, hfile, hm, hreadable⟩
    · rintro ⟨hclear, hexists, habsent⟩
      refine ⟨clear_congr hclear fun q hq hne => (h.target hpin hg q hq hne).1, ?_, habsent⟩
      intro hthere
      obtain ⟨content, m, hfile, hm, hreadable⟩ := hexists hthere
      obtain ⟨-, hopen, content', n, -, hpinned, -⟩ | ⟨hfalse, -⟩ := hpin
      · obtain rfl := hstat content' n content m hpinned hfile
        exact ⟨hopen, content, n, m, hpinned, hfile, hm, hreadable⟩
      · rw [hthere] at hfalse
        cases hfalse
  · intro a n hpinned b m hfile _
    rw [hlstat] at hfile
    exact hstat a n b m hpinned hfile

end

/-- **Guards pass on honest runs when the files are steady.** Where the upgrade adds guards,
all its file and tree gates pass on every honest run if and only if each file watched is
steady; one with a path that has no UTF-8 has no gate. -/
theorem honestRunsPass_iff (sha256 : ByteArray → Digest) (limits : TreeLimits) (links fuel : Nat)
    (lower : Text → Text) (maxReadBytes : Nat) {A : FileSystem} (root : Root A)
    (testGoal : Text → Bool) (goal : Text) (config : Option (List CommandConfig))
    (criteria : List Dict) :
    HonestRunsPass sha256 limits links fuel lower maxReadBytes root testGoal goal config
        criteria ↔
      ∀ added, upgradeGuards sha256 A limits links fuel root.path testGoal goal config criteria =
          .ok (some added) →
        ∀ ts, watched A fuel root.path criteria = .ok ts → ∀ t ∈ ts, encodes (joinPath t.1) →
          Steady lower maxReadBytes root t := by
  constructor
  · intro h added hadded ts hts t ht hencodes
    obtain ⟨cmd, known, tests, ts', hadds⟩ := upgradeGuards_some hadded
    obtain rfl : ts' = ts := Except.ok.inj (hadds.watched.symm.trans hts)
    obtain ⟨htarget, -⟩ := mem_pinTargets hadds.targets ht
    obtain ⟨g, hg, hpin⟩ := hadds.pins t ht
    have hreads : g.readsFiles = true := by
      obtain ⟨-, -, content, n, description, -, rfl⟩ | ⟨-, description, rfl⟩ := hpin <;> rfl
    have hhonest := Honest.refl A root.path added
    have hpass := h added hadded A root (fun _ => none) rfl hhonest g hg hreads
    exact (target_passes hhonest hpin hg htarget.proper htarget.text hencodes rfl).mp hpass
  · intro h added hadded B root' run hroot hhonest g hg hreads
    obtain ⟨cmd, known, tests, ts, hadds⟩ := upgradeGuards_some hadded
    obtain rfl | rfl | ⟨digest, rfl, -, -, hdigest⟩ | ⟨t, ht, hpin⟩ := hadds.guards g hg
    · cases hreads
    · cases hreads
    · -- the pin of the tree
      obtain ⟨hdir, htree⟩ := hhonest.tree digest hg
      have hsame := computeTreeDigest_same root.resolved (hroot ▸ root'.resolved) hdir htree hdigest
      rw [← hroot] at hsame
      simp [Guard.passes, Guard.gate, Gate.passes, checkTreeDigest, testsDir, hsame]
    · obtain ⟨htarget, -⟩ := mem_pinTargets hadds.targets ht
      cases hencodes : encodes (joinPath t.1) with
      | true =>
        exact (target_passes hhonest hpin hg htarget.proper htarget.text hencodes hroot).mpr
          (h added hadded ts hadds.watched t ht hencodes)
      | false =>
        obtain ⟨-, -, content, n, description, -, rfl⟩ | ⟨-, description, rfl⟩ := hpin <;>
          simp [Guard.passes, Guard.gate, hencodes]

/-! ### A test file in Latin-1 -/

def zeroSha256 (_ : ByteArray) : Digest := ⟨⟨Array.replicate 32 0⟩, by decide⟩

/-- A workspace that holds these entries, at `/w`. -/
abbrev workspaceOf (entries : List (Path × Posix.Entry)) : FileSystem :=
  .ofEntries (([text "w"], .dir) :: entries)

def rootOf (entries : List (Path × Posix.Entry)) : Root (workspaceOf entries) where
  path := [text "w"]
  resolved := by
    refine ⟨?_, by decide⟩
    intro q hq
    rcases List.prefix_concat_iff.mp (show q <+: [] ++ [text "w"] from hq) with rfl | hq
    · rfl
    · rw [List.prefix_nil.mp hq]
      rfl

/-- A test file of two bytes, `#` and `é` in Latin-1. -/
def latinEntries : List (Path × Posix.Entry) :=
  [([text "w", text "test_a.py"], .file [0x23, 0xE9].toByteArray 1)]

def latinPin : Guard :=
  .fileDiff [text "test_a.py"] true (some (hexdigest (zeroSha256 ByteArray.empty)))
    (text "'test_a.py' must stay byte-identical")

def absentGuard (name : Text) : Guard :=
  .fileDiff [name] false none
    (text "pytest tamper guard: '" ++ name ++ text "' must not be created")

def latinGuards : List Guard :=
  [.command (text "tests"), .softRubric, latinPin] ++ pytestTamperFiles.map absentGuard

/-- The pinned file is not valid UTF-8 at verification either. -/
theorem latin_fails : ¬ HonestRunsPass zeroSha256 {} 0 1 id 1000 (rootOf latinEntries)
    (fun _ => true) (text "make the tests pass") (some [⟨text "tests", [text "pytest"]⟩]) [] := by
  intro h
  have hadded : upgradeGuards zeroSha256 (workspaceOf latinEntries) {} 0 1 [text "w"]
      (fun _ => true) (text "make the tests pass") (some [⟨text "tests", [text "pytest"]⟩]) [] =
        .ok (some latinGuards) := by decide +kernel
  have hpass : latinPin.passes id 1000 0 (rootOf latinEntries) zeroSha256 {} (fun _ => none) =
      true :=
    h latinGuards hadded (workspaceOf latinEntries) (rootOf latinEntries) (fun _ => none) rfl
      (Honest.refl _ _ _) latinPin (by simp [latinGuards]) rfl
  have hfails : latinPin.passes id 1000 0 (rootOf latinEntries) zeroSha256 {} (fun _ => none) =
      false := by decide +kernel
  rw [hfails] at hpass
  cases hpass

end TestGoals

end Northstack
