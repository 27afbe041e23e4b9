import Northstack.Application.TreeDigest

/-!
# A tree that stays as it is

The digest of a tree looks at nothing but the tree: the directories outside the
excluded ones, their entries, and the way to it.

**Results.**
* `computeTreeDigest_same`: on a file system that agrees with another on the tree and on
  the way to it, the digest is the same.
* `treeBase_iff`: where the tree of a directory of the root is.
-/
namespace Northstack

open TextFiles Posix

/-- Two file systems agree on the tree at `base`, outside its excluded directories. -/
def SameTree (A B : FileSystem) (base : Path) : Prop :=
  ∀ d, TreeDir A base d → B.opens (base ++ d) = A.opens (base ++ d) ∧
    ∀ name, B.lstat (base ++ (d ++ [name])) = A.lstat (base ++ (d ++ [name])) ∧
      B.opens (base ++ (d ++ [name])) = A.opens (base ++ (d ++ [name]))

instance : Std.Total TextLe := ⟨fun _ _ => le_total (α := List Nat) _ _⟩

instance : IsTrans Text TextLe := ⟨fun _ _ _ => le_trans (α := List Nat)⟩

section

variable {sha256 : ByteArray → Digest} {A B : FileSystem} {base d p root : Path}
  {limits : TreeLimits} {links fuel : Nat} {st : Scan} {ps : List Path}

theorem TreeDir.nil : TreeDir A base [] := by
  intro e name hpre
  simp at hpre

theorem TreeDir.sub {name : Text} (hd : TreeDir A base d) (hname : name ∈ subdirs A base d) :
    TreeDir A base (d ++ [name]) :=
  reached_iff.mp (.sub (reached_iff.mpr hd) hname)

theorem SameTree.names (h : SameTree A B base) (hd : TreeDir A base d) :
    childNames B base d = childNames A base d := by
  have hmem (name : Text) : name ∈ childNames B base d ↔ name ∈ childNames A base d := by
    rw [mem_childNames, mem_childNames, ((h d hd).2 name).1]
  have hnodup (fs : FileSystem) : (childNames fs base d).Nodup :=
    (List.perm_insertionSort _ _).nodup_iff.mpr (fs.nodup_scandir _)
  refine List.Perm.eq_of_pairwise ?_ (List.pairwise_insertionSort _ _)
    (List.pairwise_insertionSort _ _) ((List.perm_ext_iff_of_nodup (hnodup B) (hnodup A)).mpr hmem)
  intro s t _ _ hst hts
  exact TextLe.antisymm hst hts

theorem SameTree.scanEntries (h : SameTree A B base) (hd : TreeDir A base d) (depth : Nat)
    (names : List Text) : names.foldlM (scanEntry B base limits d depth) st =
      names.foldlM (scanEntry A base limits d depth) st := by
  induction names generalizing st with
  | nil => rfl
  | cons name names ih =>
    have hentry : scanEntry B base limits d depth st name =
        scanEntry A base limits d depth st name := by
      unfold scanEntry
      rw [((h d hd).2 name).1]
    rw [List.foldlM_cons, List.foldlM_cons, hentry]
    exact bind_congr fun st' => ih

/-- The walk over one tree is that over the other. -/
theorem SameTree.walk (h : SameTree A B base) (hst : ∀ e ∈ st.stack, TreeDir A base e.1) :
    scanLoop B base limits fuel st = scanLoop A base limits fuel st := by
  induction fuel generalizing st with
  | zero =>
    obtain ⟨_ | ⟨⟨d, depth⟩, stack⟩, entries, found⟩ := st <;> rfl
  | succ fuel ih =>
    obtain ⟨_ | ⟨⟨d, depth⟩, stack⟩, entries, found⟩ := st
    · rfl
    · have hd : TreeDir A base d := hst (d, depth) List.mem_cons_self
      rw [scanLoop, scanLoop, (h d hd).1, h.names hd,
        h.scanEntries hd]
      cases hscan : (childNames A base d).foldlM (scanEntry A base limits d depth)
          ⟨stack, entries, found⟩ with
      | error e => rfl
      | ok st' =>
        obtain ⟨hstack, -⟩ := scanEntries_ok hscan
        have hsub : ∀ e ∈ st'.stack, TreeDir A base e.1 := by
          intro e he
          have hmem : e.1 ∈ st'.stack.map Prod.fst := List.mem_map_of_mem he
          rw [hstack, List.mem_append, List.mem_reverse] at hmem
          obtain hchild | hrest := hmem
          · obtain ⟨name, hname, heq⟩ := List.mem_map.mp hchild
            rw [← heq]
            exact hd.sub hname
          · obtain ⟨e', he', heq⟩ := List.mem_map.mp hrest
            rw [← heq]
            exact hst e' (List.mem_cons_of_mem _ he')
        simp only [ih hsub]

theorem hashFiles_same {total : Nat} {stream : ByteArray}
    (h : ∀ p ∈ ps, B.lstat (base ++ p) = A.lstat (base ++ p) ∧
      B.opens (base ++ p) = A.opens (base ++ p)) :
    hashFiles sha256 B base limits ps total stream =
      hashFiles sha256 A base limits ps total stream := by
  induction ps generalizing total stream with
  | nil => rfl
  | cons p ps ih =>
    obtain ⟨hlstat, hopens⟩ := h p List.mem_cons_self
    have hrest (n : Nat) (out : ByteArray) : hashFiles sha256 B base limits ps n out =
        hashFiles sha256 A base limits ps n out :=
      ih fun q hq => h q (List.mem_cons_of_mem _ hq)
    unfold hashFiles
    rw [hlstat, hopens]
    simp only [hrest]

theorem SameTree.stream (h : SameTree A B base) :
    treeStream sha256 B base limits = treeStream sha256 A base limits := by
  have hscan : scanTree B base limits = scanTree A base limits := by
    refine h.walk ?_
    intro e he
    rw [List.mem_singleton.mp he]
    exact .nil
  unfold treeStream
  rw [hscan]
  cases hfiles : scanTree A base limits with
  | error e => rfl
  | ok files =>
    refine hashFiles_same fun p hp => ?_
    rw [List.mem_insertionSort, mem_scanTree hfiles] at hp
    obtain ⟨content, d, name, n, rfl, hd, -⟩ := hp
    exact (h d hd).2 name

theorem SameTree.treeDir (h : SameTree A B base) (hd : TreeDir B base d) : TreeDir A base d := by
  induction d using List.reverseRecOn with
  | nil => exact .nil
  | append_singleton d m ih =>
    have hprev : TreeDir A base d := ih fun e name hpre =>
      hd e name (hpre.trans (List.prefix_append _ _))
    obtain ⟨hproper, hdir, hkept⟩ := hd d m List.prefix_rfl
    intro e name hpre
    rcases List.prefix_concat_iff.mp hpre with heq | hpre
    · obtain ⟨rfl, hname⟩ := List.append_inj' heq rfl
      cases hname
      exact ⟨hproper, by rw [← ((h e hprev).2 m).1, hdir], hkept⟩
    · exact hprev e name hpre

theorem SameTree.treeFile {content : ByteArray} (h : SameTree A B base)
    (hfile : TreeFile B base p content) : TreeFile A base p content := by
  obtain ⟨d, name, n, rfl, hd, hproper, hentry⟩ := hfile
  have hdA := h.treeDir hd
  exact ⟨d, name, n, rfl, hdA, hproper, by rw [← ((h d hdA).2 name).1, hentry]⟩

/-- What is hashed for the one tree is hashed for the other. -/
theorem SameTree.messages (h : SameTree A B base) :
    hashedMessages sha256 B base limits ⊆ hashedMessages sha256 A base limits := by
  rintro m (hstream | ⟨p, hfile⟩)
  · rw [h.stream] at hstream
    exact .inl hstream
  · exact .inr ⟨p, h.treeFile hfile⟩

/-! ## The way to the tree -/

/-- The tree of a directory of the root is where the directory is, if it is one. -/
theorem treeBase_iff (hroot : Resolved A.lstat root) :
    treeBase A links root (text "tests") = .ok base ↔
      base = root ++ [text "tests"] ∧ A.lstat (root ++ [text "tests"]) = .dir := by
  have hself : realpath A.lstat links [] root = some root := realpath_plain hroot.2 hroot.1
  have hparts : components (text "tests") = [text "tests"] := by decide
  have hrelative : isAbsolute (text "tests") = false := by decide
  have hname : encodable (text "tests") = true := by decide
  have hdots : dotdot ∉ [text "tests"] := by decide
  have hnext (hlink : (A.lstat (root ++ [text "tests"])).isLink = false) :
      realpath A.lstat links [] (root ++ [text "tests"]) = some (root ++ [text "tests"]) := by
    refine realpath_plain ?_ (linkFree_snoc.mpr ⟨hroot.1, hlink⟩)
    rw [List.mem_append, not_or]
    exact ⟨hroot.2, hdots⟩
  unfold treeBase
  simp only [hself, hparts, hrelative, hdots, Bool.false_eq_true, or_self, if_false, linkOnPath,
    hname, if_true]
  cases hentry : A.lstat (root ++ [text "tests"]) with
  | link target => simp
  | denied => simp
  | dir =>
    rw [hnext (by rw [hentry]; rfl)]
    simp only [hentry]
    constructor
    · intro h
      split at h
      · cases h
      split at h
      · cases h
      · cases h
        exact ⟨rfl, trivial⟩
    · rintro ⟨rfl, -⟩
      simp [hname]
  | missing => simp [hnext (by rw [hentry]; rfl), hentry, hname]
  | file content n => simp [hnext (by rw [hentry]; rfl), hentry, hname]
  | special => simp [hnext (by rw [hentry]; rfl), hentry, hname]

/-- **A tree that stays as it is keeps its digest.** -/
theorem computeTreeDigest_same (hA : Resolved A.lstat root) (hB : Resolved B.lstat root)
    (hdir : B.lstat (root ++ [text "tests"]) = A.lstat (root ++ [text "tests"]))
    (h : SameTree A B (root ++ [text "tests"])) {digest : String}
    (hdigest : computeTreeDigest sha256 A limits links root (text "tests") = .ok digest) :
    computeTreeDigest sha256 B limits links root (text "tests") = .ok digest := by
  obtain ⟨base, stream, hbase, hstream, rfl⟩ := computeTreeDigest_ok.mp hdigest
  obtain ⟨rfl, hentry⟩ := (treeBase_iff hA).mp hbase
  refine computeTreeDigest_ok.mpr ⟨root ++ [text "tests"], stream, ?_, ?_, rfl⟩
  · exact (treeBase_iff hB).mpr ⟨rfl, by rw [hdir, hentry]⟩
  · rw [h.stream]
    exact hstream

end

end Northstack
