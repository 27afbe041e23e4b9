import Northstack.Core.FileSystem
import Northstack.Core.Worklist

/-!
# The files of a directory tree

Mirrors the walk of `compute_tree_digest` in application/verification/hard_gates.py:
the directory it starts from, its worklist with the limits it keeps, and the files it
comes back with.

**Results.**
* `scanTree_total`: the walk ends.
* `mem_scanTree`, `nodup_scanTree`: it finds the files outside the excluded
  directories, each once.
* `joinPath_inj`: a file's path can be read off its text.
-/
namespace Northstack

open TextFiles Posix

/-- hard_gates.py:36-38 -/
structure TreeLimits where
  maxEntries : Nat := 10000
  maxBytes : Nat := 64 * 1024 * 1024
  maxDepth : Nat := 64

/-- `_TREE_EXCLUDE_DIRS` -/
def treeExcludeDirs : List Text :=
  [text "__pycache__", text ".pytest_cache", text ".northstack"]

/-- Why there is no digest. `exhausted` never happens: `scanLoop_total`. -/
inductive TreeError where
  | unsafePath (relDir : Text)
  | containsLink (relDir : Text)
  | escapes (relDir : Text)
  | symlinkLoop
  | nullByte
  | notFound
  | notDirectory
  | osError
  | entryLimit (maxEntries : Nat)
  | linkInside (path : Path)
  | depthLimit (maxDepth : Nat)
  | unsupported (path : Path)
  | byteLimit (maxBytes : Nat)
  | unicodeEncodeError
  | exhausted
  deriving DecidableEq

/-- Whether a component of the path is a link; one that cannot be looked at raises, and
one the operating system does not take is none. -/
def linkOnPath (fs : FileSystem) : Path → List Text → Except TreeError Bool
  | _, [] => .ok false
  | cursor, part :: parts =>
    if encodable part then
      match fs.lstat (cursor ++ [part]) with
      | .link _ => .ok true
      | .denied => .error .osError
      | _ => linkOnPath fs (cursor ++ [part]) parts
    else linkOnPath fs (cursor ++ [part]) parts

/-- The directory whose tree is to be hashed (hard_gates.py:57-69). -/
def treeBase (fs : FileSystem) (links : Nat) (root : Path) (relDir : Text) :
    Except TreeError Path :=
  match realpath fs.lstat links [] root with
  | none => .error .symlinkLoop
  | some root =>
    let parts := components relDir
    if isAbsolute relDir ∨ dotdot ∈ parts then .error (.unsafePath relDir)
    else
      match linkOnPath fs root parts with
      | .error e => .error e
      | .ok true => .error (.containsLink relDir)
      | .ok false =>
        if ¬ parts.all encodable then .error .nullByte
        else
          match realpath fs.lstat links [] (root ++ parts) with
          | none => .error .symlinkLoop
          | some base =>
            match fs.lstat base with
            | .missing => .error .notFound
            | .denied => .error .osError
            | entry =>
              if ¬ root.isPrefixOf base then .error (.escapes relDir)
              else
                match entry with
                | .dir => .ok base
                | _ => .error .notDirectory

/-! ## The walk -/

/-- The state of the walk; paths are relative to the base. -/
structure Scan where
  stack : List (Path × Nat)
  entries : Nat
  files : List Path

/-- The text of a relative path. -/
def joinPath (p : Path) : Text := [slash].intercalate p

/-- The order of texts, by code points. -/
def TextLe (s t : Text) : Prop := s.map CodePoint.value ≤ t.map CodePoint.value

instance : DecidableRel TextLe := fun s t =>
  inferInstanceAs (Decidable (s.map CodePoint.value ≤ t.map CodePoint.value))

section

variable (fs : FileSystem) (base : Path) (limits : TreeLimits)

/-- The names in a directory, sorted. -/
def childNames (d : Path) : List Text := (fs.scandir (base ++ d)).insertionSort TextLe

/-- One entry of directory `d` (hard_gates.py:76-92). -/
def scanEntry (d : Path) (depth : Nat) (st : Scan) (name : Text) : Except TreeError Scan :=
  let entry := fs.lstat (base ++ (d ++ [name]))
  if entry = .dir ∧ name ∈ treeExcludeDirs then .ok st
  else if limits.maxEntries < st.entries + 1 then .error (.entryLimit limits.maxEntries)
  else
    let st := { st with entries := st.entries + 1 }
    match entry with
    | .link _ => .error (.linkInside (base ++ (d ++ [name])))
    | .dir =>
      if limits.maxDepth ≤ depth then .error (.depthLimit limits.maxDepth)
      else .ok { st with stack := (d ++ [name], depth + 1) :: st.stack }
    | .file _ _ => .ok { st with files := st.files ++ [d ++ [name]] }
    | _ => .error (.unsupported (base ++ (d ++ [name])))

/-- The walk (hard_gates.py:70-92). -/
def scanLoop : Nat → Scan → Except TreeError (List Path)
  | _, ⟨[], _, files⟩ => .ok files
  | 0, ⟨_ :: _, _, _⟩ => .error .exhausted
  | fuel + 1, ⟨(d, depth) :: stack, entries, files⟩ =>
    if fs.opens (base ++ d) then
      match (childNames fs base d).foldlM (scanEntry fs base limits d depth)
        ⟨stack, entries, files⟩ with
      | .error e => .error e
      | .ok st => scanLoop fuel st
    else .error .osError

/-- Every directory walked but the first is one of the entries counted. -/
def scanTree : Except TreeError (List Path) :=
  scanLoop fs base limits (limits.maxEntries + 1) ⟨[([], 0)], 0, []⟩

/-- The directories below `d` that are walked, and its files, in order. -/
def subdirs (d : Path) : List Text :=
  (childNames fs base d).filter fun name =>
    fs.lstat (base ++ (d ++ [name])) = .dir ∧ name ∉ treeExcludeDirs

def subfiles (d : Path) : List Text :=
  (childNames fs base d).filter fun name => (fs.lstat (base ++ (d ++ [name]))).isFile

end

section

variable {fs : FileSystem} {base : Path} {limits : TreeLimits} {d : Path} {depth fuel : Nat}
  {st st' : Scan} {name : Text} {names : List Text} {files : List Path}

/-- What an entry does to the walk. -/
theorem scanEntry_ok (h : scanEntry fs base limits d depth st name = .ok st') :
    (if fs.lstat (base ++ (d ++ [name])) = .dir ∧ name ∉ treeExcludeDirs then
      st'.stack = (d ++ [name], depth + 1) :: st.stack ∧ st'.entries = st.entries + 1
      else st'.stack = st.stack ∧ st.entries ≤ st'.entries) ∧
    st'.files = st.files ++
      (if (fs.lstat (base ++ (d ++ [name]))).isFile then [d ++ [name]] else []) ∧
    (st.entries ≤ limits.maxEntries → st'.entries ≤ limits.maxEntries) := by
  unfold scanEntry at h
  dsimp only at h
  split at h
  · rename_i hexcluded
    cases h
    rw [if_neg fun hdir => hdir.2 hexcluded.2, hexcluded.1]
    simp [Entry.isFile]
  · rename_i hkept
    split at h
    · cases h
    · rename_i hentries
      cases hentry : fs.lstat (base ++ (d ++ [name])) with
      | dir =>
        rw [hentry] at h hkept
        simp only at h
        split at h
        · cases h
        · cases h
          rw [if_pos ⟨rfl, fun hin => hkept ⟨rfl, hin⟩⟩]
          simp [Entry.isFile]
          omega
      | file content links =>
        rw [hentry] at h
        cases h
        simp [Entry.isFile]
        omega
      | _ =>
        rw [hentry] at h
        cases h

/-- What a directory's entries do to the walk. -/
theorem scanEntries_ok (h : names.foldlM (scanEntry fs base limits d depth) st = .ok st') :
    st'.stack.map Prod.fst = ((names.filter fun name =>
        fs.lstat (base ++ (d ++ [name])) = .dir ∧ name ∉ treeExcludeDirs).map
          fun name => d ++ [name]).reverse ++ st.stack.map Prod.fst ∧
    st'.files = st.files ++ (names.filter fun name =>
        (fs.lstat (base ++ (d ++ [name]))).isFile).map (fun name => d ++ [name]) ∧
    (st.entries ≤ limits.maxEntries → st'.entries ≤ limits.maxEntries) ∧
    st'.stack.length + st.entries ≤ st.stack.length + st'.entries := by
  induction names generalizing st with
  | nil =>
    cases h
    simp
  | cons name names ih =>
    rw [List.foldlM_cons] at h
    cases hstep : scanEntry fs base limits d depth st name with
    | error e =>
      rw [hstep] at h
      cases h
    | ok st₁ =>
      rw [hstep] at h
      obtain ⟨hstack, hfiles, hlimit, hcount⟩ := ih h
      obtain ⟨hstack₁, hfiles₁, hlimit₁⟩ := scanEntry_ok hstep
      refine ⟨?_, ?_, fun hle => hlimit (hlimit₁ hle), ?_⟩
      · rw [hstack]
        split at hstack₁
        · rename_i hdir
          rw [hstack₁.1, List.filter_cons_of_pos (by simpa using hdir)]
          simp
        · rename_i hdir
          rw [hstack₁.1, List.filter_cons_of_neg (by simpa using hdir)]
      · rw [hfiles, hfiles₁, List.filter_cons, List.append_assoc]
        split <;> simp
      · split at hstack₁
        · rw [hstack₁.1, hstack₁.2] at hcount
          simp only [List.length_cons] at hcount
          omega
        · rw [hstack₁.1] at hcount
          omega

/-- A walk that ends is the worklist's. -/
theorem scanLoop_explore (h : scanLoop fs base limits fuel st = .ok files) :
    Worklist.explore (subdirs fs base) (subfiles fs base) fuel (st.stack.map Prod.fst) st.files =
      some files := by
  induction fuel generalizing st with
  | zero =>
    obtain ⟨_ | ⟨⟨d, depth⟩, stack⟩, entries, found⟩ := st
    · cases h
      rfl
    · cases h
  | succ fuel ih =>
    obtain ⟨_ | ⟨⟨d, depth⟩, stack⟩, entries, found⟩ := st
    · cases h
      rfl
    · unfold scanLoop at h
      split at h
      · split at h
        · cases h
        · rename_i st' hentries
          obtain ⟨hstack, hfiles, -, -⟩ := scanEntries_ok hentries
          have hrest := ih h
          rw [hstack, hfiles] at hrest
          exact hrest
      · cases h

/-- A walk that ends has met no link. -/
theorem scanEntries_noLink (h : names.foldlM (scanEntry fs base limits d depth) st = .ok st') :
    ∀ name ∈ names, (fs.lstat (base ++ (d ++ [name]))).isLink = false := by
  induction names generalizing st with
  | nil => simp
  | cons name names ih =>
    rw [List.foldlM_cons] at h
    cases hstep : scanEntry fs base limits d depth st name with
    | error e =>
      rw [hstep] at h
      cases h
    | ok st₁ =>
      rw [hstep] at h
      intro n hn
      rcases List.mem_cons.mp hn with rfl | hn
      · cases hentry : fs.lstat (base ++ (d ++ [n])) with
        | link target =>
          simp only [scanEntry, hentry, reduceCtorEq, false_and, if_false] at hstep
          split at hstep <;> cases hstep
        | _ => rfl
      · exact ih h n hn

theorem scanLoop_noLinks (h : scanLoop fs base limits fuel st = .ok files) :
    Worklist.explore (subdirs fs base) (fun d => (childNames fs base d).filter fun name =>
      (fs.lstat (base ++ (d ++ [name]))).isLink) fuel (st.stack.map Prod.fst) [] = some [] := by
  induction fuel generalizing st with
  | zero =>
    obtain ⟨_ | ⟨⟨d, depth⟩, stack⟩, entries, found⟩ := st
    · rfl
    · cases h
  | succ fuel ih =>
    obtain ⟨_ | ⟨⟨d, depth⟩, stack⟩, entries, found⟩ := st
    · rfl
    · unfold scanLoop at h
      split at h
      · split at h
        · cases h
        · rename_i st' hentries
          have hnone : (childNames fs base d).filter
              (fun name => (fs.lstat (base ++ (d ++ [name]))).isLink) = [] := by
            rw [List.filter_eq_nil_iff]
            intro name hname
            rw [scanEntries_noLink hentries name hname]
            exact Bool.false_ne_true
          obtain ⟨hstack, -⟩ := scanEntries_ok hentries
          have hrest := ih h
          rw [hstack] at hrest
          simp only [List.map_cons, Worklist.explore, hnone]
          exact hrest
      · cases h

theorem foldlM_exhausted (st : Scan) :
    names.foldlM (scanEntry fs base limits d depth) st ≠ .error .exhausted := by
  induction names generalizing st with
  | nil => exact nofun
  | cons name names ih =>
    rw [List.foldlM_cons]
    cases hstep : scanEntry fs base limits d depth st name with
    | ok st₁ => exact ih st₁
    | error e =>
      intro heq
      cases heq
      unfold scanEntry at hstep
      dsimp only at hstep
      split at hstep
      · cases hstep
      split at hstep
      · cases hstep
      split at hstep
      · cases hstep
      · split at hstep <;> cases hstep
      · cases hstep
      · cases hstep

/-- The walk never runs out: each step that adds a directory has counted it. -/
theorem scanLoop_total (hentries : st.entries ≤ limits.maxEntries)
    (hfuel : st.stack.length + limits.maxEntries ≤ fuel + st.entries) :
    scanLoop fs base limits fuel st ≠ .error .exhausted := by
  induction fuel generalizing st with
  | zero =>
    obtain ⟨_ | ⟨⟨d, depth⟩, stack⟩, entries, found⟩ := st
    · exact nofun
    · simp only [List.length_cons] at hfuel hentries
      omega
  | succ fuel ih =>
    obtain ⟨_ | ⟨⟨d, depth⟩, stack⟩, entries, found⟩ := st
    · exact nofun
    · unfold scanLoop
      split
      · split
        · rename_i e he
          intro heq
          cases heq
          exact foldlM_exhausted _ he
        · rename_i st' hscan
          obtain ⟨-, -, hlimit, hcount⟩ := scanEntries_ok hscan
          simp only [List.length_cons] at hfuel hcount
          exact ih (hlimit hentries) (by omega)
      · exact nofun

theorem scanTree_total : scanTree fs base limits ≠ .error .exhausted :=
  scanLoop_total (Nat.zero_le _) (by simp [Nat.add_comm])

end

/-! ## The files of a tree -/

/-- A directory of the tree, below no excluded one. -/
def TreeDir (fs : FileSystem) (base d : Path) : Prop :=
  ∀ e name, e ++ [name] <+: d →
    ProperName name ∧ fs.lstat (base ++ (e ++ [name])) = .dir ∧ name ∉ treeExcludeDirs

/-- A file of the tree outside the excluded directories, and its content. -/
def TreeFile (fs : FileSystem) (base p : Path) (content : ByteArray) : Prop :=
  ∃ d name links, p = d ++ [name] ∧ TreeDir fs base d ∧ ProperName name ∧
    fs.lstat (base ++ p) = .file content links

section

variable {fs : FileSystem} {base d p : Path} {limits : TreeLimits} {name : Text}
  {content : ByteArray} {files : List Path}

theorem mem_childNames : name ∈ childNames fs base d ↔
    ProperName name ∧ (fs.lstat (base ++ (d ++ [name]))).found := by
  unfold childNames
  rw [List.mem_insertionSort, fs.mem_scandir, List.append_assoc]

theorem mem_subdirs : name ∈ subdirs fs base d ↔
    ProperName name ∧ fs.lstat (base ++ (d ++ [name])) = .dir ∧ name ∉ treeExcludeDirs := by
  unfold subdirs
  rw [List.mem_filter, mem_childNames, decide_eq_true_iff]
  constructor
  · rintro ⟨⟨hproper, -⟩, hdir⟩
    exact ⟨hproper, hdir⟩
  · rintro ⟨hproper, hdir, hkept⟩
    exact ⟨⟨hproper, by rw [hdir]; rfl⟩, hdir, hkept⟩

theorem mem_subfiles : name ∈ subfiles fs base d ↔
    ProperName name ∧ ∃ content links, fs.lstat (base ++ (d ++ [name])) = .file content links := by
  unfold subfiles
  rw [List.mem_filter, mem_childNames]
  constructor
  · rintro ⟨⟨hproper, -⟩, hfile⟩
    refine ⟨hproper, ?_⟩
    cases hentry : fs.lstat (base ++ (d ++ [name])) with
    | file content links => exact ⟨content, links, rfl⟩
    | _ =>
      rw [hentry] at hfile
      cases hfile
  · rintro ⟨hproper, content, links, hentry⟩
    rw [hentry]
    exact ⟨⟨hproper, rfl⟩, rfl⟩

theorem reached_iff : Worklist.Reached (subdirs fs base) d ↔ TreeDir fs base d := by
  constructor
  · intro h
    induction h with
    | root =>
      intro e name hpre
      simp at hpre
    | @sub d n hd hn ih =>
      intro e name hpre
      rcases List.prefix_concat_iff.mp hpre with heq | hpre
      · obtain ⟨rfl, hname⟩ := List.append_inj' heq rfl
        cases hname
        exact mem_subdirs.mp hn
      · exact ih e name hpre
  · intro h
    induction d using List.reverseRecOn with
    | nil => exact .root
    | append_singleton d n ih =>
      exact .sub (ih fun e name hpre => h e name (hpre.trans (List.prefix_append _ _)))
        (mem_subdirs.mpr (h d n List.prefix_rfl))

theorem leaf_iff : Worklist.Leaf (subdirs fs base) (subfiles fs base) p ↔
    ∃ content, TreeFile fs base p content := by
  constructor
  · rintro ⟨d, n, rfl, hd, hn⟩
    obtain ⟨hproper, content, links, hentry⟩ := mem_subfiles.mp hn
    exact ⟨content, d, n, links, rfl, reached_iff.mp hd, hproper, hentry⟩
  · rintro ⟨content, d, n, links, rfl, hd, hproper, hentry⟩
    exact ⟨d, n, rfl, reached_iff.mpr hd, mem_subfiles.mpr ⟨hproper, content, links, hentry⟩⟩

/-- No name is listed both as a directory and as a file. -/
theorem nodup_names (d : Path) : (subdirs fs base d ++ subfiles fs base d).Nodup := by
  have hnames : (childNames fs base d).Nodup :=
    (List.perm_insertionSort _ _).nodup_iff.mpr (fs.nodup_scandir _)
  refine List.nodup_append.mpr ⟨hnames.filter _, hnames.filter _, ?_⟩
  rintro name hdir _ hfile rfl
  obtain ⟨-, hentry, -⟩ := mem_subdirs.mp hdir
  obtain ⟨-, content, links, hentry'⟩ := mem_subfiles.mp hfile
  rw [hentry] at hentry'
  cases hentry'

/-- The walk finds the files of the tree, each once. -/
theorem mem_scanTree (h : scanTree fs base limits = .ok files) :
    p ∈ files ↔ ∃ content, TreeFile fs base p content :=
  (Worklist.mem_explore (scanLoop_explore h)).trans leaf_iff

theorem nodup_scanTree (h : scanTree fs base limits = .ok files) : files.Nodup :=
  Worklist.nodup_explore nodup_names (scanLoop_explore h)

/-- No entry of a directory walked is a link. -/
theorem scanTree_noLink (h : scanTree fs base limits = .ok files) (hd : TreeDir fs base d)
    (hname : ProperName name) : (fs.lstat (base ++ (d ++ [name]))).isLink = false := by
  by_contra hlink
  rw [Bool.not_eq_false] at hlink
  have hchild : name ∈ childNames fs base d := by
    rw [mem_childNames]
    refine ⟨hname, ?_⟩
    cases hentry : fs.lstat (base ++ (d ++ [name])) with
    | link target => rfl
    | _ =>
      rw [hentry] at hlink
      cases hlink
  have hleaf : d ++ [name] ∈ ([] : List Path) := by
    apply (Worklist.mem_explore (scanLoop_noLinks h)).mpr
    exact ⟨d, name, rfl, reached_iff.mpr hd, List.mem_filter.mpr ⟨hchild, hlink⟩⟩
  cases hleaf

theorem scanTree_opens (h : scanTree fs base limits = .ok files) : fs.opens base = true := by
  unfold scanTree scanLoop at h
  split at h
  · rename_i hopens
    rwa [List.append_nil] at hopens
  · cases h

/-! ### Their texts -/

theorem TreeFile.proper (h : TreeFile fs base p content) : p ≠ [] ∧ ∀ n ∈ p, ProperName n := by
  obtain ⟨d, name, links, rfl, hd, hproper, -⟩ := h
  refine ⟨by simp, ?_⟩
  intro n hn
  rcases List.mem_append.mp hn with hn | hn
  · obtain ⟨e, rest, rfl⟩ := List.append_of_mem hn
    exact (hd e n ⟨rest, by simp⟩).1
  · rw [List.mem_singleton.mp hn]
    exact hproper

/-- A path can be read off its text. -/
theorem joinPath_inj {q : Path} (hp : p ≠ [] ∧ ∀ n ∈ p, ProperName n)
    (hq : q ≠ [] ∧ ∀ n ∈ q, ProperName n) (h : joinPath p = joinPath q) : p = q := by
  unfold joinPath at h
  have hsplit : ([slash].intercalate p).splitOn slash = p :=
    List.splitOn_intercalate slash (fun n hn => (hp.2 n hn).2.2.2.1) hp.1
  rw [h, List.splitOn_intercalate slash (fun n hn => (hq.2 n hn).2.2.2.1) hq.1] at hsplit
  exact hsplit.symm

theorem mem_intercalate_slash {c : CodePoint} (hc : c ∈ joinPath p) : c = slash ∨ ∃ n ∈ p, c ∈ n := by
  unfold joinPath at hc
  induction p with
  | nil => simp [List.intercalate] at hc
  | cons n p ih =>
    cases p with
    | nil =>
      rw [List.intercalate_singleton] at hc
      exact .inr ⟨n, List.mem_cons_self, hc⟩
    | cons m p =>
      rw [List.intercalate_cons_cons] at hc
      simp only [List.mem_append, List.mem_singleton] at hc
      rcases hc with (hc | hc) | hc
      · exact .inr ⟨n, List.mem_cons_self, hc⟩
      · exact .inl hc
      · rcases ih hc with hc | ⟨k, hk, hc⟩
        · exact .inl hc
        · exact .inr ⟨k, List.mem_cons_of_mem _ hk, hc⟩

/-- The text of a path holds no NUL. -/
theorem joinPath_nul (hp : ∀ n ∈ p, ProperName n) (c : Char) (hc : .scalar c ∈ joinPath p) :
    c.toNat ≠ 0 := by
  rcases mem_intercalate_slash hc with heq | ⟨n, hn, hc⟩
  · cases heq
    decide
  · have henc := (hp n hn).2.2.2.2
    have hchar := List.all_eq_true.mp henc _ hc
    simpa using hchar

end

end Northstack
