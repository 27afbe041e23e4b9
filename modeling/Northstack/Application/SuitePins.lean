import Northstack.Application.HonestRuns
import Northstack.Core.Changes

/-!
# What the guards protect

A test file of the suite that no criterion of the model names must not change without a
gate failing. With a `tests` directory the suite is all of `test_*.py` in it, else that of
the root.

**Result** (`suiteProtected_iff`). This is so exactly if every such file is covered, by the
pin of the tree or by one of its own; or some pin can never be read, so that its gate fails
whatever is done. The pin of the tree leaves out the excluded directories, and is not added
when the model has any `tree_digest` criterion; of the files, at most fifty get a pin.
-/
namespace Northstack

namespace TestGoals

open TextFiles Posix Workspace FileGates

/-- A criterion of the model names the path, as its `path` or as its `command_name`. -/
def Names (criteria : List Dict) (p : Path) : Prop :=
  ∃ c ∈ criteria, ∃ params, c.getD (text "parameters") (.dict []) = .dict params ∧
    (Dict.getD (text "path") (.str []) params = .str (joinPath p) ∨
      Dict.getD (text "command_name") .null params = .str (joinPath p))

/-- A `test_*.py` of the suite and its content: below `tests`, or in the root if there is no
such directory. -/
def SuiteFile (fs : FileSystem) (root : Path) (tests : Bool) (p : Path) (content : ByteArray) :
    Prop :=
  ∃ d name n, p = (if tests then testsDir :: (d ++ [name]) else [name]) ∧
    ProperName name ∧ isTestName name = true ∧
    (∀ e m, e ++ [m] <+: d → ProperName m ∧ fs.stat (root ++ testsDir :: (e ++ [m])) = .dir) ∧
    fs.stat (root ++ p) = .file content n

/-- The hash function takes no file of the one state for another file in the same place of the
other, nor the tree, if it is pinned. -/
structure Apart (sha256 : ByteArray → Digest) (limits : TreeLimits) (A B : FileSystem)
    (root : Path) (added : List Guard) : Prop where
  files : ∀ p a n b m, A.stat (root ++ p) = .file a n → B.lstat (root ++ p) = .file b m →
    sha256 b = sha256 a → b = a
  tree : ∀ treeHash, .treeDigest treeHash ∈ added → ∀ a b,
    treeStream sha256 A (root ++ [testsDir]) limits = .ok a →
    treeStream sha256 B (root ++ [testsDir]) limits = .ok b → sha256 b = sha256 a → b = a

section

variable (sha256 : ByteArray → Digest) (limits : TreeLimits) (links fuel : Nat)
  (lower : Text → Text) (maxReadBytes : Nat) {A : FileSystem} (root : Root A)
  (testGoal : Text → Bool) (goal : Text) (config : Option (List CommandConfig))
  (criteria : List Dict)

/-- Where the upgrade adds guards, one of their gates fails in every state in which a file of
the suite, that no criterion names, is gone or another. -/
def SuiteProtected : Prop :=
  ∀ added, upgradeGuards sha256 A limits links fuel root.path testGoal goal config criteria =
      .ok (some added) →
    ∀ tests, isDir A (root.path ++ [testsDir]) = .ok tests →
    ∀ p content, SuiteFile A root.path tests p content → ¬ Names criteria p →
    ∀ (B : FileSystem) (root' : Root B) (run : Text → Option Int), root'.path = root.path →
      Apart sha256 limits A B root.path added →
      (∀ n, B.stat (root.path ++ p) ≠ .file content n) →
      ∃ g ∈ added, g.passes lower maxReadBytes links root' sha256 limits run = false

/-- The pin of the tree covers the file, or a pin of its own does. -/
def Covered (tests : Bool) (p : Path) : Prop :=
  if pinsTree criteria tests then
    criteria.any (hasKind "tree_digest") = false ∧ ∀ m ∈ p.dropLast, m ∉ treeExcludeDirs
  else ∃ ts, watched A fuel root.path criteria = .ok ts ∧ (p, true) ∈ ts ∧
    encodes (joinPath p) = true

/-- The gate of a pinned file fails whatever is done: the workspace never reads this content at
this path in full. -/
def Doomed : Prop :=
  ∃ ts, watched A fuel root.path criteria = .ok ts ∧ ∃ t ∈ ts, t.2 = true ∧
    encodes (joinPath t.1) = true ∧ ∃ content n, A.stat (root.path ++ t.1) = .file content n ∧
      ¬ Readable lower maxReadBytes root.path t.1 content

end

section

variable {sha256 : ByteArray → Digest} {limits : TreeLimits} {links fuel maxReadBytes : Nat}
  {lower : Text → Text} {A B : FileSystem} {root : Root A} {root' : Root B}
  {run : Text → Option Int} {t : Path × Bool} {g : Guard} {tests : Bool} {p : Path}
  {content : ByteArray} {criteria : List Dict} {known : List (Data × Data × Data)} {cmd : Text}
  {ts : List (Path × Bool)} {added : List Guard}

/-! ## What is covered is protected -/

theorem Pins.passes (h : Pins A root.path sha256 t g) (htarget : Target A root.path tests t)
    (hencodes : encodes (joinPath t.1) = true) (hroot : root'.path = root.path)
    (hapart : Apart sha256 limits A B root.path added) :
    g.passes lower maxReadBytes links root' sha256 limits run = true ↔
      Clear B root.path t.1 ∧
        (t.2 = true → B.opens (root.path ++ t.1) = true ∧ ∃ content n m,
          A.stat (root.path ++ t.1) = .file content n ∧
          B.lstat (root.path ++ t.1) = .file content m ∧ m ≤ 1 ∧
          Readable lower maxReadBytes root.path t.1 content) ∧
        (t.2 = false → B.lstat (root.path ++ t.1) = .missing) :=
  pins_passes htarget.proper htarget.text h hencodes hroot
    fun a n ha b m hb heq => hapart.files t.1 a n b m ha hb heq

/-- A file of the suite below no excluded directory is in the tree that was walked. -/
theorem SuiteFile.treeFile {files : List Path} (h : SuiteFile A root.path true p content)
    (hscan : scanTree A (root.path ++ [testsDir]) limits = .ok files)
    (hkept : ∀ m ∈ p.dropLast, m ∉ treeExcludeDirs) :
    ∃ q, p = testsDir :: q ∧ TreeFile A (root.path ++ [testsDir]) q content := by
  obtain ⟨d, name, n, rfl, hname, -, hdirs, hfile⟩ := h
  have hdrop : (testsDir :: (d ++ [name])).dropLast = testsDir :: d := by
    rw [← List.cons_append, List.dropLast_concat]
  simp only [if_true, hdrop, List.mem_cons, forall_eq_or_imp] at hkept
  have hdir : TreeDir A (root.path ++ [testsDir]) d := by
    clear hfile
    induction d using List.reverseRecOn with
    | nil => exact .nil
    | append_singleton d m ih =>
      have hprev : TreeDir A (root.path ++ [testsDir]) d := by
        apply ih
        · intro e x hpre
          exact hdirs e x (hpre.trans (List.prefix_append _ _))
        · rw [← List.cons_append, List.dropLast_concat]
        · exact ⟨hkept.1, fun x hx => hkept.2 x (List.mem_append_left _ hx)⟩
      obtain ⟨hm, hstat⟩ := hdirs d m List.prefix_rfl
      have hplain := scanTree_noLink hscan hprev hm
      intro e x hpre
      rcases List.prefix_concat_iff.mp hpre with heq | hpre
      · obtain ⟨rfl, hx⟩ := List.append_inj' heq rfl
        cases hx
        refine ⟨hm, ?_, hkept.2 m (by simp)⟩
        rw [← A.stat_eq _ hplain, List.append_assoc]
        exact hstat
      · exact hprev e x hpre
  have hplain := scanTree_noLink hscan hdir hname
  refine ⟨d ++ [name], rfl, d, name, n, rfl, hdir, hname, ?_⟩
  rw [← A.stat_eq _ hplain, List.append_assoc]
  exact hfile

/-- The pin of the tree keeps the files in it. -/
theorem tree_keeps {digest : String} {q : Path}
    (hdigest : computeTreeDigest sha256 A limits links root.path testsDir = .ok digest)
    (hpass : (Guard.treeDigest digest).passes lower maxReadBytes links root' sha256 limits run =
      true)
    (hroot : root'.path = root.path) (hapart : Apart sha256 limits A B root.path added)
    (hg : .treeDigest digest ∈ added) (hfile : TreeFile A (root.path ++ [testsDir]) q content) :
    ∃ n, B.stat (root.path ++ testsDir :: q) = .file content n := by
  obtain ⟨a, streamA, hbaseA, hstreamA, rfl⟩ := computeTreeDigest_ok.mp hdigest
  obtain ⟨rfl, -⟩ := (treeBase_iff root.resolved).mp hbaseA
  simp only [Guard.passes, Guard.gate, Option.map_some, Option.getD_some, Gate.passes,
    checkTreeDigest] at hpass
  split at hpass
  · rename_i actual hactual
    obtain ⟨b, streamB, hbaseB, hstreamB, rfl⟩ := computeTreeDigest_ok.mp hactual
    rw [hroot] at hbaseB
    obtain ⟨rfl, -⟩ := (treeBase_iff (hroot ▸ root'.resolved)).mp hbaseB
    have hsame : sha256 streamB = sha256 streamA :=
      hexdigest_injective (text_injective (of_decide_eq_true hpass))
    obtain rfl := hapart.tree _ hg streamA streamB hstreamA hstreamB hsame
    have hkept : TreeFile B (root.path ++ [testsDir]) q content := by
      refine treeFile_of_stream hstreamA hstreamB ?_ hfile
      rintro r c c' ⟨-, -, n, -, -, -, hc⟩ ⟨-, -, m, -, -, -, hc'⟩ heq
      rw [List.append_assoc] at hc hc'
      exact hapart.files _ c n c' m ((A.stat_eq _ (by rw [hc]; rfl)).trans hc) hc' heq
    obtain ⟨-, -, n, -, -, -, hentry⟩ := hkept
    rw [List.append_assoc] at hentry
    have hplain : (B.lstat (root.path ++ testsDir :: q)).isLink = false := by
      rw [List.singleton_append] at hentry
      rw [hentry]
      rfl
    exact ⟨n, (B.stat_eq _ hplain).trans hentry⟩
  · cases hpass

/-- A covered file that is gone or another fails a gate. -/
theorem Covered.protects
    (hadds : Adds sha256 A limits links fuel root.path criteria cmd known tests ts added)
    (hcovered : Covered fuel root criteria tests p)
    (hfile : SuiteFile A root.path tests p content) (hroot : root'.path = root.path)
    (hapart : Apart sha256 limits A B root.path added)
    (hedited : ∀ n, B.stat (root.path ++ p) ≠ .file content n) :
    ∃ g ∈ added, g.passes lower maxReadBytes links root' sha256 limits run = false := by
  unfold Covered at hcovered
  split at hcovered
  · rename_i hpins
    obtain ⟨hnone, hkept⟩ := hcovered
    obtain ⟨digest, hdigest, hg⟩ := hadds.tree hpins hnone
    refine ⟨_, hg, ?_⟩
    by_contra hpass
    rw [Bool.not_eq_false] at hpass
    obtain ⟨a, stream, hbase, hstream, -⟩ := computeTreeDigest_ok.mp hdigest
    obtain ⟨rfl, -⟩ := (treeBase_iff root.resolved).mp hbase
    obtain rfl : tests = true := by
      unfold pinsTree at hpins
      exact (of_decide_eq_true hpins).1
    unfold treeStream at hstream
    split at hstream
    · cases hstream
    · rename_i files hscan
      obtain ⟨q, rfl, htree⟩ := hfile.treeFile hscan hkept
      obtain ⟨n, hstat⟩ := tree_keeps hdigest hpass hroot hapart hg htree
      exact hedited n hstat
  · obtain ⟨ts', hts, ht, hencodes⟩ := hcovered
    obtain rfl : ts = ts' := Except.ok.inj (hadds.watched.symm.trans hts)
    obtain ⟨g, hg, hpin⟩ := hadds.pins _ ht
    obtain ⟨htarget, -⟩ := mem_pinTargets hadds.targets ht
    refine ⟨g, hg, ?_⟩
    by_contra hpass
    rw [Bool.not_eq_false, hpin.passes htarget hencodes hroot hapart] at hpass
    obtain ⟨-, c, n, m, hstat, hlstat, -⟩ := hpass.2.1 rfl
    obtain ⟨-, -, k, -, -, -, -, hthere⟩ := hfile
    rw [hthere] at hstat
    cases hstat
    exact hedited m ((B.stat_eq _ (by rw [hlstat]; rfl)).trans hlstat)

/-- Where a gate fails whatever is done, one fails. -/
theorem Doomed.fails
    (hadds : Adds sha256 A limits links fuel root.path criteria cmd known tests ts added)
    (hdoomed : Doomed fuel lower maxReadBytes root criteria) (hroot : root'.path = root.path)
    (hapart : Apart sha256 limits A B root.path added) :
    ∃ g ∈ added, g.passes lower maxReadBytes links root' sha256 limits run = false := by
  obtain ⟨ts', hts, t, ht, hthere, hencodes, c, n, hstat, hnot⟩ := hdoomed
  obtain rfl : ts = ts' := Except.ok.inj (hadds.watched.symm.trans hts)
  obtain ⟨g, hg, hpin⟩ := hadds.pins t ht
  obtain ⟨htarget, -⟩ := mem_pinTargets hadds.targets ht
  refine ⟨g, hg, ?_⟩
  by_contra hpass
  rw [Bool.not_eq_false, hpin.passes htarget hencodes hroot hapart] at hpass
  obtain ⟨-, c', n', m, hstat', -, -, hreadable⟩ := hpass.2.1 hthere
  rw [hstat] at hstat'
  cases hstat'
  exact hnot hreadable

/-! ## What is not covered can go -/

/-- What stands at a path once the file `p` is gone and the rest is put in its place. -/
def sweptEntry (A : FileSystem) (root p q : Path) : Posix.Entry :=
  if q = root ++ p then .missing
  else if q = root ++ [testsDir] then .dir
  else
    match A.stat q with
    | .file content _ => .file content 1
    | _ => .missing

/-- The workspace without the file `p`, where each target has its content and one link, and no
link stands in the way. -/
def swept (A : FileSystem) (root : Path) (ts : List (Path × Bool)) (p : Path) : FileSystem :=
  A.change ((root ++ p) :: (root ++ [testsDir]) :: ts.map fun t => root ++ t.1)
    (sweptEntry A root p)

theorem sweptEntry_plain (A : FileSystem) (root p q : Path) :
    (sweptEntry A root p q).isLink = false ∧ sweptEntry A root p q ≠ .denied := by
  unfold sweptEntry
  split
  · simp [Posix.Entry.isLink]
  split
  · simp [Posix.Entry.isLink]
  split
  · simp [Posix.Entry.isLink]
  · simp [Posix.Entry.isLink]

theorem swept_lstat (q : Path) : (swept A root.path ts p).lstat q =
    if q ∈ (root.path ++ p) :: (root.path ++ [testsDir]) :: ts.map (fun t => root.path ++ t.1) then
      sweptEntry A root.path p q else A.lstat q :=
  FileSystem.change_lstat

/-- The root is the same: nothing changed on the way to it. -/
def sweptRoot (root : Root A) (ts : List (Path × Bool)) (p : Path) :
    Root (swept A root.path ts p) where
  path := root.path
  resolved := by
    refine ⟨?_, root.resolved.2⟩
    intro q hq
    rw [swept_lstat]
    split
    · exact (sweptEntry_plain A root.path p q).1
    · exact root.resolved.1 q hq

/-- Where nothing stands that is pinned or must not be there, what is changed in the tree is the
file that is gone. -/
theorem mem_sweptKeys {e : Path} (htamper : ∀ t ∈ ts, ∃ name ∈ pytestTamperFiles, t.1 = [name])
    (hne : e ≠ [])
    (h : root.path ++ [testsDir] ++ e ∈
      (root.path ++ p) :: (root.path ++ [testsDir]) :: ts.map (fun t => root.path ++ t.1)) :
    testsDir :: e = p := by
  rw [List.append_assoc, List.singleton_append, List.mem_cons, List.mem_cons, List.mem_map] at h
  obtain h | h | ⟨t, ht, h⟩ := h
  · exact List.append_cancel_left h
  · have heq := List.append_cancel_left h
    exact absurd (List.cons.inj heq).2 hne
  · obtain ⟨name, -, hname⟩ := htamper t ht
    have heq := List.append_cancel_left h
    rw [hname] at heq
    exact absurd (List.cons.inj heq).2.symm hne

/-- The tree is as it was, when the file that is gone lies below an excluded directory. -/
theorem swept_tree {digest : String} {d : Path} {name m : Text}
    (hdigest : computeTreeDigest sha256 A limits links root.path testsDir = .ok digest)
    (htamper : ∀ t ∈ ts, ∃ name ∈ pytestTamperFiles, t.1 = [name])
    (hp : p = testsDir :: (d ++ [name])) (hm : m ∈ d) (hexcluded : m ∈ treeExcludeDirs) :
    (swept A root.path ts p).lstat (root.path ++ [testsDir]) =
        A.lstat (root.path ++ [testsDir]) ∧
      SameTree A (swept A root.path ts p) (root.path ++ [testsDir]) := by
  obtain ⟨base, stream, hbase, hstream, -⟩ := computeTreeDigest_ok.mp hdigest
  obtain ⟨rfl, hdir⟩ := (treeBase_iff root.resolved).mp hbase
  -- below a directory of the tree the file that is gone is not found
  have houtside (e x : Path) (he : TreeDir A (root.path ++ [testsDir]) e) (hx : x <+: e) :
      d ≠ x := by
    rintro rfl
    obtain ⟨front, rest, rfl⟩ := List.append_of_mem hm
    exact (he front m (List.IsPrefix.trans ⟨rest, by simp⟩ hx)).2.2 hexcluded
  refine ⟨?_, ?_⟩
  · rw [swept_lstat, if_pos (by simp)]
    unfold sweptEntry
    rw [if_neg, if_pos rfl]
    · exact hdir.symm
    · rw [hp]
      intro heq
      have hnames := List.append_cancel_left heq
      simp at hnames
  intro e he
  have hnot (n : Text) : root.path ++ [testsDir] ++ (e ++ [n]) ∉
      (root.path ++ p) :: (root.path ++ [testsDir]) :: ts.map (fun t => root.path ++ t.1) := by
    intro hmem
    have heq := mem_sweptKeys htamper (by simp) hmem
    rw [hp] at heq
    exact houtside e e he List.prefix_rfl (List.append_inj' (List.cons.inj heq).2 rfl).1.symm
  refine ⟨?_, fun n => ⟨?_, ?_⟩⟩
  · rw [Bool.eq_iff_iff, swept, FileSystem.change_opens, or_iff_right_iff_imp]
    intro hmem
    cases e with
    | nil =>
      unfold treeStream at hstream
      split at hstream
      · cases hstream
      · rename_i files hscan
        rw [List.append_nil]
        exact scanTree_opens hscan
    | cons x e =>
      have heq := mem_sweptKeys htamper (by simp) hmem
      rw [hp] at heq
      exact absurd rfl (houtside _ d he ⟨[name], (List.cons.inj heq).2.symm⟩)
  · rw [swept_lstat, if_neg (hnot n)]
  · rw [Bool.eq_iff_iff, swept, FileSystem.change_opens, or_iff_right (hnot n)]

/-- No file of the one state is taken for another of the other: they are the same. -/
theorem swept_apart
    (htree : ∀ treeHash, .treeDigest treeHash ∈ added →
      SameTree A (swept A root.path ts p) (root.path ++ [testsDir])) :
    Apart sha256 limits A (swept A root.path ts p) root.path added := by
  refine ⟨?_, ?_⟩
  · intro q a n b m ha hb _
    rw [swept_lstat] at hb
    split at hb
    · unfold sweptEntry at hb
      split at hb
      · cases hb
      split at hb
      · cases hb
      split at hb
      · rename_i c k hc
        rw [ha] at hc
        cases hc
        cases hb
        rfl
      · cases hb
    · rw [A.stat_eq _ (by rw [hb]; rfl), hb] at ha
      cases ha
      rfl
  · intro treeHash hg a b ha hb _
    rw [(htree treeHash hg).stream, ha] at hb
    cases hb
    rfl

/-- On the way to a target there is nothing but directories, `tests` apart. -/
theorem Target.parent (h : Target A root.path tests t) {q : Path} {name : Text}
    (hpre : q ++ [name] <+: t.1) : q ++ [name] = t.1 ∨ q ++ [name] = [testsDir] ∨
      A.lstat (root.path ++ (q ++ [name])) = .dir := by
  have hlong (first : Text) (hfirst : t.1 = [first]) : q ++ [name] = t.1 := by
    apply hpre.eq_of_length
    have hle := hpre.length_le
    rw [hfirst] at hle ⊢
    simp at hle ⊢
    exact hle
  obtain ⟨-, d, last, hp, -, -, -, hdirs⟩ | ⟨⟨first, -, hfirst⟩ | ⟨-, hconf⟩, -⟩ := h
  · split at hp
    · cases q with
      | nil =>
        right
        left
        rw [hp] at hpre
        obtain ⟨heq, -⟩ := List.cons_prefix_cons.mp hpre
        rw [heq]
        rfl
      | cons first q =>
        rw [hp, List.cons_append] at hpre
        obtain ⟨rfl, hsub⟩ := List.cons_prefix_cons.mp hpre
        rcases List.prefix_concat_iff.mp hsub with heq | hsub
        · left
          rw [hp, ← heq]
          rfl
        · right
          right
          exact (hdirs q name hsub).2
    · exact .inl (hlong last hp)
  · exact .inl (hlong first hfirst)
  · rw [hconf] at hpre ⊢
    cases q with
    | nil =>
      obtain ⟨heq, -⟩ := List.cons_prefix_cons.mp hpre
      right
      left
      rw [heq]
      rfl
    | cons first q =>
      left
      apply hpre.eq_of_length
      have hle := hpre.length_le
      simp at hle ⊢
      omega

/-- The guards of the targets pass, if none is the file that is gone. -/
theorem swept_passes (hpin : Pins A root.path sha256 t g)
    (htarget : Target A root.path tests t) (ht : t ∈ ts) (hne : t.1 = p → t.2 = false)
    (hnames : t.1 ≠ [testsDir])
    (hreadable : t.2 = true → ∀ content n, A.stat (root.path ++ t.1) = .file content n →
      Readable lower maxReadBytes root.path t.1 content)
    (hencodes : encodes (joinPath t.1) = true)
    (hapart : Apart sha256 limits A (swept A root.path ts p) root.path added) :
    g.passes lower maxReadBytes links (sweptRoot root ts p) sha256 limits run = true := by
  have hkey : root.path ++ t.1 ∈
      (root.path ++ p) :: (root.path ++ [testsDir]) :: ts.map (fun t => root.path ++ t.1) :=
    List.mem_cons_of_mem _ (List.mem_cons_of_mem _ (List.mem_map_of_mem ht))
  have hroot : (sweptRoot root ts p).path = root.path := rfl
  rw [hpin.passes htarget hencodes hroot hapart]
  refine ⟨?_, ?_, ?_⟩
  · rw [clear_iff]
    intro q name hpre
    have hname : encodable name = true :=
      (htarget.proper.2 name (hpre.subset (by simp))).2.2.2.2
    have hentry : ∃ e, (swept A root.path ts p).lstat (root.path ++ (q ++ [name])) = e ∧
        e.isLink = false ∧ e ≠ .denied := by
      rw [swept_lstat]
      split
      · exact ⟨_, rfl, sweptEntry_plain A root.path p _⟩
      · rename_i hno
        refine ⟨_, rfl, ?_⟩
        obtain heq | heq | hdir := htarget.parent hpre
        · rw [heq] at hno
          exact absurd hkey hno
        · rw [heq] at hno
          simp at hno
        · rw [hdir]
          simp [Posix.Entry.isLink]
    obtain ⟨e, heq, hplain⟩ := hentry
    rw [heq]
    exact ⟨hname, hplain⟩
  · intro hthere
    obtain ⟨-, -, c, n, description, hstat, -⟩ | ⟨hfalse, -⟩ := hpin
    · refine ⟨FileSystem.change_opens.mpr (.inl hkey), c, n, 1, hstat, ?_, le_refl 1,
        hreadable hthere c n hstat⟩
      rw [swept_lstat, if_pos hkey]
      unfold sweptEntry
      rw [if_neg, if_neg, hstat]
      · intro heq
        exact hnames (List.append_cancel_left heq)
      · intro heq
        rw [hne (List.append_cancel_left heq)] at hthere
        cases hthere
    · rw [hthere] at hfalse
      cases hfalse
  · intro habsent
    rw [swept_lstat, if_pos hkey]
    unfold sweptEntry
    split
    · rfl
    rw [if_neg fun heq => hnames (List.append_cancel_left heq)]
    obtain ⟨htrue, -⟩ | ⟨-, hexists⟩ := htarget
    · rw [habsent] at htrue
      cases htrue
    · rw [habsent] at hexists
      unfold pathExists at hexists
      split
      · rename_i c n hfile
        rw [hfile] at hexists
        cases hexists
      · rfl

theorem Target.ne_tests (h : Target A root.path tests t) : t.1 ≠ [testsDir] := by
  intro heq
  obtain ⟨-, d, last, hp, -, -, hlast, -⟩ | ⟨⟨name, hname, hp⟩ | ⟨-, hp⟩, -⟩ := h
  · rw [heq] at hp
    split at hp
    · simp at hp
    · rw [← (List.cons.inj hp).1] at hlast
      revert hlast
      decide
  · rw [heq] at hp
    rw [← (List.cons.inj hp).1] at hname
    revert hname
    decide
  · rw [heq] at hp
    cases hp

/-- A guard whose path cannot be encoded has no gate. -/
theorem Pins.unencoded (h : Pins A root.path sha256 t g)
    (hencodes : encodes (joinPath t.1) = false) :
    g.passes lower maxReadBytes links root' sha256 limits run = true := by
  obtain ⟨-, -, c, n, description, -, rfl⟩ | ⟨-, description, rfl⟩ := h <;>
    simp [Guard.passes, Guard.gate, hencodes]

/-- A file that is pinned below an excluded directory is in no tree. -/
theorem swept_keeps_tree {treeHash : String}
    (hadds : Adds sha256 A limits links fuel root.path criteria cmd known tests ts added)
    (hfile : SuiteFile A root.path tests p content)
    (huncovered : ¬ Covered fuel root criteria tests p) (hg : .treeDigest treeHash ∈ added) :
    computeTreeDigest sha256 A limits links root.path testsDir = .ok treeHash ∧
      (swept A root.path ts p).lstat (root.path ++ [testsDir]) =
        A.lstat (root.path ++ [testsDir]) ∧
      SameTree A (swept A root.path ts p) (root.path ++ [testsDir]) := by
  obtain hno | hno | ⟨digest, heq, hpins, hnone, hdigest⟩ | ⟨t, -, hpin⟩ := hadds.guards _ hg
  · cases hno
  · cases hno
  · cases heq
    obtain rfl : tests = true := by
      unfold pinsTree at hpins
      exact (of_decide_eq_true hpins).1
    obtain ⟨d, name, n, rfl, -⟩ := hfile
    unfold Covered at huncovered
    rw [if_pos hpins] at huncovered
    simp only [hnone, true_and, not_forall, not_not] at huncovered
    obtain ⟨m, hm, hexcluded⟩ := huncovered
    have hdrop : (testsDir :: (d ++ [name])).dropLast = testsDir :: d := by
      rw [← List.cons_append, List.dropLast_concat]
    simp only [if_true, hdrop] at hm
    rcases List.mem_cons.mp hm with rfl | hm
    · exact absurd hexcluded (by decide)
    · exact ⟨hdigest, swept_tree hdigest (fun t ht => mem_pinTargets_tree hpins hadds.targets ht)
        rfl hm hexcluded⟩
  · obtain ⟨-, -, c, n, description, -, hno⟩ | ⟨-, description, hno⟩ := hpin <;> cases hno

/-- Once a file that is not covered is gone, all gates can pass. -/
theorem swept_all_pass
    (hadds : Adds sha256 A limits links fuel root.path criteria cmd known tests ts added)
    (hfile : SuiteFile A root.path tests p content)
    (huncovered : ¬ Covered fuel root criteria tests p)
    (hgo : ¬ Doomed fuel lower maxReadBytes root criteria) :
    Apart sha256 limits A (swept A root.path ts p) root.path added ∧ ∀ g ∈ added,
      g.passes lower maxReadBytes links (sweptRoot root ts p) sha256 limits (fun _ => some 0) =
        true := by
  have hapart : Apart sha256 limits A (swept A root.path ts p) root.path added :=
    swept_apart fun _ hg => (swept_keeps_tree hadds hfile huncovered hg).2.2
  refine ⟨hapart, ?_⟩
  intro g hg
  obtain rfl | rfl | ⟨digest, rfl, -⟩ | ⟨t, ht, hpin⟩ := hadds.guards g hg
  · simp only [Guard.passes, Guard.gate]
    split
    · simp [Gate.passes]
    · rfl
  · rfl
  · obtain ⟨hdigest, hdir, htree⟩ := swept_keeps_tree hadds hfile huncovered hg
    have hsame : computeTreeDigest sha256 (swept A root.path ts p) limits links root.path
        testsDir = .ok digest :=
      computeTreeDigest_same root.resolved (sweptRoot root ts p).resolved hdir htree hdigest
    have hroot : (sweptRoot root ts p).path = root.path := rfl
    simp only [Guard.passes, Guard.gate, Option.map_some, Option.getD_some, Gate.passes,
      checkTreeDigest, hroot, hsame, decide_true]
  · cases hencodes : encodes (joinPath t.1) with
    | false => exact hpin.unencoded hencodes
    | true =>
      obtain ⟨htarget, -⟩ := mem_pinTargets hadds.targets ht
      refine swept_passes hpin htarget ht ?_ htarget.ne_tests ?_ hencodes hapart
      · intro heq
        by_contra hthere
        rw [Bool.not_eq_false] at hthere
        apply huncovered
        unfold Covered
        split
        · rename_i hpins
          obtain ⟨name, -, hname⟩ := mem_pinTargets_tree hpins hadds.targets ht
          obtain rfl : tests = true := by
            unfold pinsTree at hpins
            exact (of_decide_eq_true hpins).1
          obtain ⟨d, last, n, hp, -⟩ := hfile
          rw [← heq, hname] at hp
          simp at hp
        · refine ⟨ts, hadds.watched, ?_, by rw [← heq]; exact hencodes⟩
          rw [← heq, ← hthere]
          exact ht
      · intro hthere c n hstat
        by_contra hnot
        exact hgo ⟨ts, hadds.watched, t, ht, hthere, hencodes, c, n, hstat, hnot⟩

end

/-- **A suite is protected when it is covered.** Where the upgrade adds guards, a gate fails
whenever an unnamed test file of the suite is gone or another, if and only if each such file is
covered, or some gate fails whatever is done. -/
theorem suiteProtected_iff (sha256 : ByteArray → Digest) (limits : TreeLimits)
    (links fuel : Nat) (lower : Text → Text) (maxReadBytes : Nat) {A : FileSystem} (root : Root A)
    (testGoal : Text → Bool) (goal : Text) (config : Option (List CommandConfig))
    (criteria : List Dict) :
    SuiteProtected sha256 limits links fuel lower maxReadBytes root testGoal goal config
        criteria ↔
      ∀ added, upgradeGuards sha256 A limits links fuel root.path testGoal goal config criteria =
          .ok (some added) →
        ∀ tests, isDir A (root.path ++ [testsDir]) = .ok tests →
          (∀ p content, SuiteFile A root.path tests p content → ¬ Names criteria p →
            Covered fuel root criteria tests p) ∨
          Doomed fuel lower maxReadBytes root criteria := by
  constructor
  · intro h added hadded tests htests
    by_contra hnot
    simp only [not_or, not_forall] at hnot
    obtain ⟨⟨p, content, hfile, hunnamed, huncovered⟩, hgo⟩ := hnot
    obtain ⟨cmd, known, tests', ts, hadds⟩ := upgradeGuards_some hadded
    obtain rfl : tests' = tests := Except.ok.inj (hadds.isDir.symm.trans htests)
    obtain ⟨hapart, hpass⟩ := swept_all_pass hadds hfile huncovered hgo
    have hgone (n : Nat) : (swept A root.path ts p).stat (root.path ++ p) ≠ .file content n := by
      have hlstat : (swept A root.path ts p).lstat (root.path ++ p) = .missing := by
        rw [swept_lstat, if_pos List.mem_cons_self]
        unfold sweptEntry
        rw [if_pos rfl]
      rw [(swept A root.path ts p).stat_eq _ (by rw [hlstat]; rfl), hlstat]
      exact Posix.Entry.noConfusion
    obtain ⟨g, hg, hfails⟩ := h added hadded tests' htests p content hfile hunnamed _
      (sweptRoot root ts p) (fun _ => some 0) rfl hapart hgone
    rw [hpass g hg] at hfails
    cases hfails
  · intro h added hadded tests htests p content hfile hunnamed B root' run hroot hapart hedited
    obtain ⟨cmd, known, tests', ts, hadds⟩ := upgradeGuards_some hadded
    obtain rfl : tests' = tests := Except.ok.inj (hadds.isDir.symm.trans htests)
    obtain hcovered | hdoomed := h added hadded tests' htests
    · exact (hcovered p content hfile hunnamed).protects hadds hfile hroot hapart hedited
    · exact hdoomed.fails hadds hroot hapart

/-! ### A suite that is not pinned -/

/-- A criterion of the model on another tree. -/
def docsDigest : Dict :=
  [(text "kind", .str (text "tree_digest")), (text "description", .str (text "docs are kept")),
   (text "parameters", .dict [(text "path", .str (text "docs")),
     (text "tree_hash", .str (text "00"))])]

def oneTest : List (Path × Posix.Entry) :=
  [([text "w", text "tests"], .dir),
   ([text "w", text "tests", text "test_a.py"], .file "assert f(1) == 2".toUTF8 1)]

def noTest : List (Path × Posix.Entry) := [([text "w", text "tests"], .dir)]

def docsGuards : List Guard :=
  [.command (text "tests"), .softRubric] ++ pytestTamperFiles.map absentGuard

/-- The test file is deleted, and all the gates pass. -/
theorem docsDigest_fails : ¬ SuiteProtected zeroSha256 {} 0 1 id 1000 (rootOf oneTest)
    (fun _ => true) (text "make the tests pass") (some [⟨text "tests", [text "pytest"]⟩])
    [docsDigest] := by
  intro h
  have hadded : upgradeGuards zeroSha256 (workspaceOf oneTest) {} 0 1 [text "w"] (fun _ => true)
      (text "make the tests pass") (some [⟨text "tests", [text "pytest"]⟩]) [docsDigest] =
        .ok (some docsGuards) := by decide +kernel
  have htests : isDir (workspaceOf oneTest) [text "w", text "tests"] = .ok true := by
    decide +kernel
  have hfile : SuiteFile (workspaceOf oneTest) [text "w"] true [text "tests", text "test_a.py"]
      "assert f(1) == 2".toUTF8 := by
    refine ⟨[], text "test_a.py", 1, rfl, by decide, by decide, ?_, by decide +kernel⟩
    intro e m hpre
    simp at hpre
  have hunnamed : ¬ Names [docsDigest] [text "tests", text "test_a.py"] := by
    rintro ⟨c, hc, params, hparams, hname⟩
    rw [List.mem_singleton.mp hc] at hparams
    cases hparams
    obtain hname | hname := hname
    · exact absurd (Data.str.inj hname) (by decide)
    · cases hname
  have hnone (q : Path) (b : ByteArray) (n : Nat) :
      (workspaceOf noTest).lstat q ≠ .file b n := by
    intro hentry
    have hin := mem_of_lookupEntry hentry
    simp [noTest] at hin
  have hgone (n : Nat) : (workspaceOf noTest).stat [text "w", text "tests", text "test_a.py"] ≠
      .file "assert f(1) == 2".toUTF8 n := by
    intro hentry
    have hmissing : (workspaceOf noTest).stat [text "w", text "tests", text "test_a.py"] =
        .missing := by decide +kernel
    rw [hmissing] at hentry
    cases hentry
  have hpass : ∀ g ∈ docsGuards,
      g.passes id 1000 0 (rootOf noTest) zeroSha256 {} (fun _ => some 0) = true := by
    decide +kernel
  obtain ⟨g, hg, hfails⟩ := h docsGuards hadded true htests _ _ hfile hunnamed
    (workspaceOf noTest) (rootOf noTest) (fun _ => some 0) rfl
    ⟨fun q _ _ b m _ hb _ => absurd hb (hnone _ b m), fun treeHash hin => by
      simp [docsGuards, absentGuard] at hin⟩ hgone
  rw [hpass g hg] at hfails
  cases hfails

end TestGoals

end Northstack
