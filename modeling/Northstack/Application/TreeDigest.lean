import Northstack.Core.Records
import Northstack.Application.TreeWalk

/-!
# The digest of a directory tree

Mirrors `compute_tree_digest` of application/verification/hard_gates.py on a file
system that does not change meanwhile, so that the three looks it takes at a file
agree. The files of the tree are sorted by their relative paths, and each is fed as
a record of its path and the digest of its content.

**Result.** `treeDigest_eq_iff`: two trees have one digest exactly when they hold
the same files with the same contents, if the hash function does not collide on
what it is given for them.
-/
namespace Northstack

open TextFiles Posix

/-- What the hash function makes of some bytes: 32 of them. -/
structure Digest where
  bytes : ByteArray
  size : bytes.size = 32
  deriving DecidableEq

/-- `hexdigest()` -/
def hexdigest (d : Digest) : String :=
  String.ofList (d.bytes.data.toList.flatMap fun b =>
    [Nat.digitChar (b.toNat / 16), Nat.digitChar (b.toNat % 16)])

/-! ## The digest -/

section

variable (sha256 : ByteArray → Digest) (fs : FileSystem) (base : Path) (limits : TreeLimits)

/-- The files fed to the hash, after `total` bytes of others (hard_gates.py:93-117). -/
def hashFiles : List Path → Nat → ByteArray → Except TreeError ByteArray
  | [], _, stream => .ok stream
  | p :: ps, total, stream =>
    match fs.lstat (base ++ p) with
    | .file content _ =>
      if limits.maxBytes < total + content.size then .error (.byteLimit limits.maxBytes)
      else if ¬ fs.opens (base ++ p) then .error .osError
      else
        match encode? (joinPath p) with
        | none => .error .unicodeEncodeError
        | some relative =>
          hashFiles ps (total + content.size)
            (stream ++ relative ++ [0].toByteArray ++ (sha256 content).bytes)
    | _ => .error (.byteLimit limits.maxBytes)

/-- `b"northstack-tree-v2\0"` -/
def treeHeader : ByteArray := "northstack-tree-v2".toUTF8 ++ [0].toByteArray

/-- The order of paths by their texts. -/
def PathLe (p q : Path) : Prop := TextLe (joinPath p) (joinPath q)

instance : DecidableRel PathLe := fun p q =>
  inferInstanceAs (Decidable (TextLe (joinPath p) (joinPath q)))

/-- All the bytes fed to the hash for the tree at `base`. -/
def treeStream : Except TreeError ByteArray :=
  match scanTree fs base limits with
  | .error e => .error e
  | .ok files => hashFiles sha256 fs base limits (files.insertionSort PathLe) 0 treeHeader

/-- `compute_tree_digest` (hard_gates.py:41-117) -/
def computeTreeDigest (links : Nat) (root : Path) (relDir : Text) : Except TreeError String :=
  match treeBase fs links root relDir with
  | .error e => .error e
  | .ok base =>
    match treeStream sha256 fs base limits with
    | .error e => .error e
    | .ok stream => .ok (hexdigest (sha256 stream))

/-- The record of a file. -/
def fileRecord (p : Path) : List UInt8 × List UInt8 :=
  (((encode? (joinPath p)).getD ByteArray.empty).data.toList,
    match fs.lstat (base ++ p) with
    | .file content _ => (sha256 content).bytes.data.toList
    | _ => [])

/-- Everything the hash function is given for the tree at `base`. -/
def hashedMessages : Set ByteArray :=
  {m | treeStream sha256 fs base limits = .ok m ∨ ∃ p, TreeFile fs base p m}

end

section

variable {sha256 : ByteArray → Digest} {fs : FileSystem} {base p : Path} {limits : TreeLimits}
  {total : Nat} {stream out content : ByteArray} {ps : List Path}

theorem hexdigest_injective : Function.Injective hexdigest := by
  have hdigit : ∀ a b : Fin 16, Nat.digitChar a = Nat.digitChar b → a = b := by decide
  have hdigit' (a b : Nat) (ha : a < 16) (hb : b < 16) (h : Nat.digitChar a = Nat.digitChar b) :
      a = b := congrArg Fin.val (hdigit ⟨a, ha⟩ ⟨b, hb⟩ h)
  have hbytes : ∀ bs cs : List UInt8,
      bs.flatMap (fun b => [Nat.digitChar (b.toNat / 16), Nat.digitChar (b.toNat % 16)]) =
        cs.flatMap (fun b => [Nat.digitChar (b.toNat / 16), Nat.digitChar (b.toNat % 16)]) →
      bs = cs := by
    intro bs
    induction bs with
    | nil =>
      intro cs h
      cases cs with
      | nil => rfl
      | cons c cs => simp at h
    | cons b bs ih =>
      intro cs h
      cases cs with
      | nil => simp at h
      | cons c cs =>
        simp only [List.flatMap_cons, List.cons_append, List.nil_append, List.cons.injEq] at h
        obtain ⟨hhigh, hlow, hrest⟩ := h
        have hb := b.toNat_lt
        have hc := c.toNat_lt
        have hhigh := hdigit' _ _ (by omega) (by omega) hhigh
        have hlow := hdigit' _ _ (by omega) (by omega) hlow
        have hbc : b = c := UInt8.toNat_inj.mp (by omega)
        rw [hbc, ih cs hrest]
  rintro ⟨a, ha⟩ ⟨b, hb⟩ h
  have hlist := hbytes _ _ (String.ofList_injective h)
  have hab : a = b := ByteArray.ext (Array.ext' hlist)
  subst hab
  rfl

theorem computeTreeDigest_ok {links : Nat} {root : Path} {relDir : Text} {digest : String} :
    computeTreeDigest sha256 fs limits links root relDir = .ok digest ↔
      ∃ base stream, treeBase fs links root relDir = .ok base ∧
        treeStream sha256 fs base limits = .ok stream ∧ digest = hexdigest (sha256 stream) := by
  unfold computeTreeDigest
  cases hbase : treeBase fs links root relDir with
  | error e => simp
  | ok b =>
    cases hstream : treeStream sha256 fs b limits with
    | error e => simp [hstream]
    | ok m => simp [hstream, eq_comm]

/-- What is fed for some files is the stream of their records; each is a file whose path
can be encoded. -/
theorem hashFiles_ok (h : hashFiles sha256 fs base limits ps total stream = .ok out) :
    out.data.toList = stream.data.toList ++
        Records.stream 0 (ps.map (fileRecord sha256 fs base)) ∧
      ∀ p ∈ ps, ∃ name content links, encode? (joinPath p) = some name ∧
        fs.lstat (base ++ p) = .file content links := by
  induction ps generalizing total stream with
  | nil =>
    cases h
    simp [Records.stream]
  | cons p ps ih =>
    unfold hashFiles at h
    cases hentry : fs.lstat (base ++ p) with
    | file content links =>
      simp only [hentry] at h
      split at h
      · cases h
      split at h
      · cases h
      cases hname : encode? (joinPath p) with
      | none =>
        rw [hname] at h
        cases h
      | some name =>
        rw [hname] at h
        obtain ⟨hout, hps⟩ := ih h
        constructor
        · rw [hout]
          simp [Records.stream, Records.record, fileRecord, hname, hentry]
        · intro q hq
          rcases List.mem_cons.mp hq with rfl | hq
          · exact ⟨name, content, links, hname, hentry⟩
          · exact hps q hq
    | _ =>
      simp only [hentry] at h
      cases h

theorem TextLe.antisymm {s t : Text} (h : TextLe s t) (h' : TextLe t s) : s = t :=
  List.map_injective_iff.mpr CodePoint.value_injective (le_antisymm h h')

instance : Std.Total PathLe := ⟨fun _ _ => le_total (α := List Nat) _ _⟩

instance : IsTrans Path PathLe := ⟨fun _ _ _ => le_trans (α := List Nat)⟩

/-- The stream of a tree: its header and the records of its files in order. -/
theorem treeStream_ok (h : treeStream sha256 fs base limits = .ok stream) :
    ∃ sorted : List Path, sorted.Nodup ∧ sorted.Pairwise PathLe ∧
      (∀ p, p ∈ sorted ↔ ∃ content, TreeFile fs base p content) ∧
      (∀ p ∈ sorted, ∃ name, encode? (joinPath p) = some name) ∧
      stream.data.toList = treeHeader.data.toList ++
        Records.stream 0 (sorted.map (fileRecord sha256 fs base)) := by
  unfold treeStream at h
  split at h
  · cases h
  · rename_i files hscan
    obtain ⟨hstream, hfiles⟩ := hashFiles_ok h
    refine ⟨files.insertionSort PathLe, ?_, List.pairwise_insertionSort _ _, ?_, ?_, hstream⟩
    · exact (List.perm_insertionSort _ _).nodup_iff.mpr (nodup_scanTree hscan)
    · intro p
      rw [List.mem_insertionSort, mem_scanTree hscan]
    · intro p hp
      obtain ⟨name, -, -, hname, -⟩ := hfiles p hp
      exact ⟨name, hname⟩

/-- The record of a file of the tree. -/
theorem fileRecord_eq {name : ByteArray} (h : TreeFile fs base p content)
    (hname : encode? (joinPath p) = some name) :
    fileRecord sha256 fs base p = (name.data.toList, (sha256 content).bytes.data.toList) := by
  obtain ⟨d, n, links, -, -, -, hentry⟩ := h
  unfold fileRecord
  rw [hname, hentry]
  rfl

theorem readable_records (hmem : ∀ p ∈ ps, ∃ content, TreeFile fs base p content)
    (hname : ∀ p ∈ ps, ∃ name, encode? (joinPath p) = some name) :
    Records.Readable 0 32 (ps.map (fileRecord sha256 fs base)) := by
  intro r hr
  obtain ⟨p, hp, rfl⟩ := List.mem_map.mp hr
  obtain ⟨content, hfile⟩ := hmem p hp
  obtain ⟨name, hname⟩ := hname p hp
  rw [fileRecord_eq hfile hname]
  refine ⟨zero_notMem_encode? hname (joinPath_nul hfile.proper.2), ?_⟩
  simpa using (sha256 content).size

/-- A tree holds one file at a path. -/
theorem TreeFile.content_eq {content' : ByteArray} (h : TreeFile fs base p content)
    (h' : TreeFile fs base p content') : content = content' := by
  obtain ⟨-, -, links, -, -, -, hentry⟩ := h
  obtain ⟨-, -, links', -, -, -, hentry'⟩ := h'
  rw [hentry] at hentry'
  cases hentry'
  rfl

end

section

variable {sha256 : ByteArray → Digest} {A B : FileSystem} {a b : Path}
  {limitsA limitsB : TreeLimits} {streamA streamB : ByteArray}

/-- Trees with the same files feed the same stream. -/
theorem treeStream_congr (hA : treeStream sha256 A a limitsA = .ok streamA)
    (hB : treeStream sha256 B b limitsB = .ok streamB)
    (hsame : ∀ p content, TreeFile A a p content ↔ TreeFile B b p content) :
    streamA = streamB := by
  obtain ⟨sortedA, hnodupA, hordA, hmemA, hnameA, heqA⟩ := treeStream_ok hA
  obtain ⟨sortedB, hnodupB, hordB, hmemB, -, heqB⟩ := treeStream_ok hB
  have hmem (p : Path) : p ∈ sortedA ↔ p ∈ sortedB := by
    rw [hmemA, hmemB]
    exact exists_congr fun content => hsame p content
  have hsorted : sortedA = sortedB := by
    refine List.Perm.eq_of_pairwise ?_ hordA hordB
      ((List.perm_ext_iff_of_nodup hnodupA hnodupB).mpr hmem)
    intro p q hp hq hpq hqp
    obtain ⟨c, hpfile⟩ := (hmemA p).mp hp
    obtain ⟨c', hqfile⟩ := (hmemB q).mp hq
    exact joinPath_inj hpfile.proper hqfile.proper (TextLe.antisymm hpq hqp)
  have hrecords : sortedA.map (fileRecord sha256 A a) = sortedB.map (fileRecord sha256 B b) := by
    rw [← hsorted]
    refine List.map_congr_left fun p hp => ?_
    obtain ⟨content, hfile⟩ := (hmemA p).mp hp
    obtain ⟨name, hname⟩ := hnameA p hp
    rw [fileRecord_eq hfile hname, fileRecord_eq ((hsame p content).mp hfile) hname]
  apply ByteArray.ext
  apply Array.ext'
  rw [heqA, heqB, hrecords]

/-- A file of one of two trees that feed the same stream is in the other. -/
theorem treeFile_of_stream (hA : treeStream sha256 A a limitsA = .ok streamA)
    (hB : treeStream sha256 B b limitsB = .ok streamA)
    (hapart : ∀ p c c', TreeFile A a p c → TreeFile B b p c' → sha256 c' = sha256 c → c' = c)
    {p : Path} {content : ByteArray} (hfile : TreeFile A a p content) : TreeFile B b p content := by
  obtain ⟨sortedA, -, -, hmemA, hnameA, heqA⟩ := treeStream_ok hA
  obtain ⟨sortedB, -, -, hmemB, hnameB, heqB⟩ := treeStream_ok hB
  have hrecords : sortedA.map (fileRecord sha256 A a) = sortedB.map (fileRecord sha256 B b) := by
    refine Records.stream_inj (readable_records (fun p hp => (hmemA p).mp hp) hnameA)
      (readable_records (fun p hp => (hmemB p).mp hp) hnameB) ?_
    exact List.append_cancel_left (heqA.symm.trans heqB)
  have hp : p ∈ sortedA := (hmemA p).mpr ⟨content, hfile⟩
  obtain ⟨name, hname⟩ := hnameA p hp
  have hin : fileRecord sha256 A a p ∈ sortedB.map (fileRecord sha256 B b) :=
    hrecords ▸ List.mem_map_of_mem hp
  obtain ⟨q, hq, hrecord⟩ := List.mem_map.mp hin
  obtain ⟨content', hfile'⟩ := (hmemB q).mp hq
  obtain ⟨name', hname'⟩ := hnameB q hq
  rw [fileRecord_eq hfile hname, fileRecord_eq hfile' hname', Prod.mk.injEq] at hrecord
  have hnames : name' = name := ByteArray.ext (Array.ext' hrecord.1)
  have hpq : q = p := by
    apply joinPath_inj hfile'.proper hfile.proper
    rw [hnames] at hname'
    exact encode?_inj hname' hname
  have hdigest : sha256 content' = sha256 content := by
    have hbytes : (sha256 content').bytes = (sha256 content).bytes :=
      ByteArray.ext (Array.ext' hrecord.2)
    cases hc' : sha256 content'
    cases hc : sha256 content
    rw [hc', hc] at hbytes
    simpa using hbytes
  rw [hpq] at hfile'
  rwa [← hapart p content content' hfile hfile' hdigest]

/-- **The digest of a tree is that of its files.** Where a digest is computed for two
trees, and the hash function makes no two of the messages it is given for them alike,
the digests are equal exactly when the trees hold the same files with the same contents
outside the excluded directories, in whatever order their directories are listed. -/
theorem treeDigest_eq_iff (sha256 : ByteArray → Digest) {A B : FileSystem} {linksA linksB : Nat}
    {rootA rootB a b : Path} {relA relB : Text} {limitsA limitsB : TreeLimits} {da db : String}
    (ha : treeBase A linksA rootA relA = .ok a) (hb : treeBase B linksB rootB relB = .ok b)
    (hda : computeTreeDigest sha256 A limitsA linksA rootA relA = .ok da)
    (hdb : computeTreeDigest sha256 B limitsB linksB rootB relB = .ok db)
    (hfree : Set.InjOn sha256
      (hashedMessages sha256 A a limitsA ∪ hashedMessages sha256 B b limitsB)) :
    da = db ↔ ∀ p content, TreeFile A a p content ↔ TreeFile B b p content := by
  unfold computeTreeDigest at hda hdb
  rw [ha] at hda
  rw [hb] at hdb
  cases hA : treeStream sha256 A a limitsA with
  | error e =>
    simp only [hA] at hda
    cases hda
  | ok streamA =>
    cases hB : treeStream sha256 B b limitsB with
    | error e =>
      simp only [hB] at hdb
      cases hdb
    | ok streamB =>
      simp only [hA, Except.ok.injEq] at hda
      simp only [hB, Except.ok.injEq] at hdb
      subst hda hdb
      constructor
      · intro hdigest
        have hstream : streamA = streamB :=
          hfree (.inl (.inl hA)) (.inr (.inl hB)) (hexdigest_injective hdigest)
        subst hstream
        intro p content
        refine ⟨treeFile_of_stream hA hB fun p c c' hc hc' heq => ?_,
          treeFile_of_stream hB hA fun p c c' hc hc' heq => ?_⟩
        · exact hfree (.inr (.inr ⟨p, hc'⟩)) (.inl (.inr ⟨p, hc⟩)) heq
        · exact hfree (.inl (.inr ⟨p, hc'⟩)) (.inr (.inr ⟨p, hc⟩)) heq
      · intro hsame
        rw [treeStream_congr hA hB hsame]

end

/-! ### Two listings of one tree -/

/-- The digest with this number. -/
def digestOf (n : Nat) : Digest where
  bytes := ((List.range 32).map fun i => UInt8.ofNat (n >>> (8 * (31 - i)))).toByteArray
  size := by simp

def digestOfOne : Digest :=
  digestOf 0x6b86b273ff34fce19d6b804eff5a3f5747ada4eaa22f1d49c01e52ddb7875b4b

def digestOfTwo : Digest :=
  digestOf 0xd4735e3a265e16eee03f59718b9b5d03019c07d8b6c51f90da3a666eec13ab35

/-- What is fed for a tree of two files, that hold `1` and `2`. -/
def twoFileStream : ByteArray :=
  treeHeader ++ "a.py".toUTF8 ++ [0].toByteArray ++ digestOfOne.bytes ++
    "b.py".toUTF8 ++ [0].toByteArray ++ digestOfTwo.bytes

/-- SHA-256 of these three messages. -/
def twoFileSha256 (m : ByteArray) : Digest :=
  if m = "1".toUTF8 then digestOfOne
  else if m = "2".toUTF8 then digestOfTwo
  else if m = twoFileStream then
    digestOf 0x069ebf26d1a076ba0b34adc7c6ed8c7594de9534b186be78b3fc5069298b5175
  else digestOf 0

def twoFileEntries : List (Path × Posix.Entry) :=
  [([text "w"], .dir), ([text "w", text "t"], .dir),
   ([text "w", text "t", text "a.py"], .file "1".toUTF8 1),
   ([text "w", text "t", text "b.py"], .file "2".toUTF8 1)]

/-- The same files, listed the other way round, and a cache beside them. -/
def cachedEntries : List (Path × Posix.Entry) :=
  [([text "w"], .dir), ([text "w", text "t"], .dir),
   ([text "w", text "t", text "b.py"], .file "2".toUTF8 1),
   ([text "w", text "t", text "__pycache__"], .dir),
   ([text "w", text "t", text "__pycache__", text "a.pyc"], .file "1".toUTF8 1),
   ([text "w", text "t", text "a.py"], .file "1".toUTF8 1)]

theorem treeDigest_twoFiles :
    computeTreeDigest twoFileSha256 (.ofEntries twoFileEntries) {} 0 [text "w"] (text "t") =
      computeTreeDigest twoFileSha256 (.ofEntries cachedEntries) {} 0 [text "w"] (text "t") ∧
    ∀ p content, TreeFile (.ofEntries twoFileEntries) [text "w", text "t"] p content ↔
      TreeFile (.ofEntries cachedEntries) [text "w", text "t"] p content := by
  have hmessages (entries : List (Path × Posix.Entry))
      (hentries : ∀ e ∈ entries, ∀ c l, e.2 = .file c l → c = "1".toUTF8 ∨ c = "2".toUTF8)
      (hstream : treeStream twoFileSha256 (.ofEntries entries) [text "w", text "t"] {} =
        .ok twoFileStream) :
      hashedMessages twoFileSha256 (.ofEntries entries) [text "w", text "t"] {} ⊆
        {m | m ∈ ["1".toUTF8, "2".toUTF8, twoFileStream]} := by
    rintro m (hm | ⟨p, d, name, links, -, -, -, hentry⟩)
    · rw [hstream] at hm
      cases hm
      simp
    · have hin : ([text "w", text "t"] ++ p, Posix.Entry.file m links) ∈ entries :=
        mem_of_lookupEntry hentry
      rcases hentries _ hin m links rfl with rfl | rfl <;> simp
  have hfree : ∀ x ∈ ["1".toUTF8, "2".toUTF8, twoFileStream],
      ∀ y ∈ ["1".toUTF8, "2".toUTF8, twoFileStream], twoFileSha256 x = twoFileSha256 y → x = y := by
    decide +kernel
  have hbaseA : treeBase (.ofEntries twoFileEntries) 0 [text "w"] (text "t") =
      .ok [text "w", text "t"] := by decide +kernel
  have hbaseB : treeBase (.ofEntries cachedEntries) 0 [text "w"] (text "t") =
      .ok [text "w", text "t"] := by decide +kernel
  have hdigestA : computeTreeDigest twoFileSha256 (.ofEntries twoFileEntries) {} 0 [text "w"]
      (text "t") = .ok (hexdigest (twoFileSha256 twoFileStream)) := by decide +kernel
  have hdigestB : computeTreeDigest twoFileSha256 (.ofEntries cachedEntries) {} 0 [text "w"]
      (text "t") = .ok (hexdigest (twoFileSha256 twoFileStream)) := by decide +kernel
  refine ⟨hdigestA.trans hdigestB.symm,
    (treeDigest_eq_iff twoFileSha256 hbaseA hbaseB hdigestA hdigestB ?_).mp rfl⟩
  intro x hx y hy hxy
  have hfiles (entries : List (Path × Posix.Entry)) (h : ∀ e ∈ entries,
      e.2 = .dir ∨ e.2 = .file "1".toUTF8 1 ∨ e.2 = .file "2".toUTF8 1) :
      ∀ e ∈ entries, ∀ c l, e.2 = .file c l → c = "1".toUTF8 ∨ c = "2".toUTF8 := by
    intro e he c l hc
    rcases h e he with h | h | h <;> rw [h] at hc <;> cases hc
    · exact .inl rfl
    · exact .inr rfl
  have hA := hmessages twoFileEntries (hfiles _ (by decide +kernel)) (by decide +kernel)
  have hB := hmessages cachedEntries (hfiles _ (by decide +kernel)) (by decide +kernel)
  have hsub := Set.union_subset hA hB
  exact hfree x (hsub hx) y (hsub hy) hxy

end Northstack
