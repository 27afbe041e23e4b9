import Northstack.Adapters.SafePaths
import Northstack.Application.TestGoals

/-!
# The gates that read files

Mirrors `RestrictedWorkspace.read` of adapters/workspace/restricted.py and the checks
of application/verification/hard_gates.py that read the workspace through it or hash a
tree, on a file system that does not change meanwhile. A check that raises fails
(hard_gates.py:189-196).

**Results.**
* `checkFileDiff_pin`, `checkFileDiff_absent`: when the gate of a pinned file passes,
  and that of a file that must not be there.
* `components_joinPath`: a path is read off its text.
-/
namespace Northstack

namespace FileGates

open TextFiles Posix Workspace

/-! ## Reading -/

def sensitiveFilenames : List Text :=
  [text "id_rsa", text "id_dsa", text "id_ecdsa", text "id_ed25519", text ".htpasswd",
    text "credentials.json"]

def sensitiveSuffixes : List Text := [text ".pem", text ".key", text ".p12", text ".pfx"]

/-- `is_sensitive_path` (restricted.py:58-68); `lower` is `str.lower`. -/
def isSensitivePath (lower : Text → Text) (p : Path) : Bool :=
  let parts := p.map lower
  let name := parts.getLast?.getD []
  text ".git" ∈ parts ∨ text ".ssh" ∈ parts ∨ name = text "ledger.db" ∨
    name ∈ sensitiveFilenames ∨ name = text ".env" ∨ text ".env." <+: name ∨
    ∃ suffix ∈ sensitiveSuffixes, suffix <:+ name

/-- `error_kind`, for `read` -/
inductive ErrorKind where
  | unsafePath | notFound | notFile | sensitiveDenied | ioError
  deriving DecidableEq

/-- What `read` returns, as far as the gates look at it. -/
inductive ReadResult where
  | failed (kind : ErrorKind)
  | ok (data : ByteArray) (truncated : Bool)
  deriving DecidableEq

section

variable (lower : Text → Text) (maxReadBytes links : Nat) {fs : FileSystem} (root : Root fs)

/-- `read` (restricted.py:597-655); `none` where it raises. -/
def read (relPath : Text) : Option ReadResult :=
  match resolveSafe links root relPath with
  | .error _ => none
  | .ok none => some (.failed .unsafePath)
  | .ok (some resolved) =>
    match fs.stat resolved with
    | .missing | .link _ => some (.failed .notFound)
    | .denied => none
    | .file content hardLinks =>
      if isSensitivePath lower resolved ∨ 1 < hardLinks then some (.failed .sensitiveDenied)
      else if ¬ fs.opens resolved then some (.failed .ioError)
      else some (.ok (content.extract 0 maxReadBytes) (maxReadBytes < content.size))
    | .dir | .special => some (.failed .notFile)

/-! ## The gates -/

/-- `FileDiffCriterion` -/
structure FileDiffCriterion where
  path : Text
  mustExist : Bool := true
  contentHash : Option Text := none
  contentContains : Option Text := none
  contentEquals : Option Text := none
  deriving DecidableEq

/-- `TreeDigestCriterion` -/
structure TreeDigestCriterion where
  path : Text
  treeHash : Text
  deriving DecidableEq

variable (sha256 : ByteArray → Digest) (limits : TreeLimits)

/-- Whether `_check_file_diff` passes (hard_gates.py:299-350). -/
def checkFileDiff (criterion : FileDiffCriterion) : Bool :=
  match read lower maxReadBytes links root criterion.path with
  | none => false
  | some (.failed kind) => !criterion.mustExist && kind = .notFound
  | some (.ok data truncated) =>
    let hash := criterion.contentHash.getD []
    if !criterion.mustExist ∨ truncated ∨ hash ≠ [] ∧ text (hexdigest (sha256 data)) ≠ hash then
      false
    else
      match decode? data with
      | none => false
      | some t => (∀ s ∈ criterion.contentEquals, t = s) ∧ ∀ s ∈ criterion.contentContains, s <:+: t

/-- Whether `_check_tree_digest` passes (hard_gates.py:271-297). -/
def checkTreeDigest (criterion : TreeDigestCriterion) : Bool :=
  match computeTreeDigest sha256 fs limits links root.path criterion.path with
  | .ok actual => text actual = criterion.treeHash
  | .error _ => false

end

/-! ## Paths and their texts -/

section

variable {lower : Text → Text} {maxReadBytes links : Nat} {fs : FileSystem} {root : Root fs}
  {p : Path} {content : ByteArray} {hardLinks : Nat}

/-- A path below the root, by names of directory entries. -/
def ProperPath (p : Path) : Prop := p ≠ [] ∧ ∀ n ∈ p, ProperName n

theorem components_joinPath (h : ProperPath p) : components (joinPath p) = p := by
  have hsplit : ([slash].intercalate p).splitOn slash = p :=
    List.splitOn_intercalate slash (fun n hn => (h.2 n hn).2.2.2.1) h.1
  unfold components joinPath
  rw [hsplit, List.filter_eq_self]
  intro n hn
  obtain ⟨hne, hdot, -⟩ := h.2 n hn
  simp [hne, hdot]

theorem joinPath_ne_nil (h : ProperPath p) : joinPath p ≠ [] := by
  intro hnil
  have hcomponents := components_joinPath h
  rw [hnil] at hcomponents
  exact h.1 (hcomponents.symm.trans (by decide))

theorem joinPath_ne_dot (h : ProperPath p) : joinPath p ≠ dot := by
  intro hdot
  have hcomponents := components_joinPath h
  rw [hdot] at hcomponents
  exact h.1 (hcomponents.symm.trans (by decide))

/-- What a walk over the names meets, name by name. -/
theorem clear_iff {current : Path} {parts : List Text} : Clear fs current parts ↔
    ∀ q name, q ++ [name] <+: parts → encodable name = true ∧
      (fs.lstat (current ++ (q ++ [name]))).isLink = false ∧
      fs.lstat (current ++ (q ++ [name])) ≠ .denied := by
  induction parts generalizing current with
  | nil => simp [Clear]
  | cons part parts ih =>
    unfold Clear
    rw [ih]
    constructor
    · rintro ⟨hname, hlink, hdenied, hrest⟩ q name hpre
      cases q with
      | nil =>
        obtain ⟨rfl, -⟩ := List.cons_prefix_cons.mp hpre
        exact ⟨hname, hlink, hdenied⟩
      | cons first q =>
        rw [List.cons_append] at hpre
        obtain ⟨rfl, hsub⟩ := List.cons_prefix_cons.mp hpre
        have hdeep := hrest q name hsub
        rw [List.append_assoc] at hdeep
        exact hdeep
    · intro h
      obtain ⟨hname, hlink, hdenied⟩ := h [] part (by simp)
      refine ⟨hname, hlink, hdenied, ?_⟩
      intro q name hpre
      have hdeep := h (part :: q) name
        (by rw [List.cons_append]; exact List.cons_prefix_cons.mpr ⟨rfl, hpre⟩)
      rw [List.append_assoc]
      exact hdeep

/-- What `read` finds at a path it does not refuse. -/
theorem read_clear (links : Nat) (h : ProperPath p) (htext : refusedText (joinPath p) = false)
    (hclear : Clear fs root.path p) :
    resolveSafe links root (joinPath p) = .ok (some (root.path ++ p)) ∧
      fs.stat (root.path ++ p) = fs.lstat (root.path ++ p) := by
  have hcomponents := components_joinPath h
  have hserved : resolveSafe links root (joinPath p) =
      .ok (some (root.path ++ components (joinPath p))) :=
    resolveSafe_served (joinPath_ne_nil h) (joinPath_ne_dot h) htext
      (walkParts_true.mpr (by rwa [hcomponents]))
  rw [hcomponents] at hserved
  exact ⟨hserved, fs.stat_eq _ ((hclear.linkFree root.resolved.1) _ List.prefix_rfl)⟩

/-- What `read` serves is at a path it does not refuse. -/
theorem read_stopped (lower : Text → Text) (maxReadBytes links : Nat) (h : ProperPath p)
    (hstop : refusedText (joinPath p) = true ∨ ¬ Clear fs root.path p) :
    read lower maxReadBytes links root (joinPath p) = none ∨
      read lower maxReadBytes links root (joinPath p) = some (.failed .unsafePath) := by
  have hcomponents := components_joinPath h
  unfold read
  cases htext : refusedText (joinPath p) with
  | true =>
    right
    unfold resolveSafe
    rw [if_neg (joinPath_ne_nil h), if_neg (joinPath_ne_dot h), htext]
    rfl
  | false =>
    rw [htext] at hstop
    obtain hstop | hstop := hstop
    · cases hstop
    cases hwalk : walkParts fs root.path (components (joinPath p)) with
    | error e =>
      rw [resolveSafe_error (joinPath_ne_nil h) (joinPath_ne_dot h) htext hwalk]
      exact .inl rfl
    | ok clear =>
      cases clear with
      | false =>
        rw [resolveSafe_stopped (joinPath_ne_nil h) (joinPath_ne_dot h) htext hwalk]
        exact .inr rfl
      | true =>
        rw [hcomponents] at hwalk
        exact absurd (walkParts_true.mp hwalk) hstop

/-! ## The gates of pins -/

/-- A path and its content that `read` serves in full. -/
structure Readable (lower : Text → Text) (maxReadBytes : Nat) (root : Path) (p : Path)
    (content : ByteArray) : Prop where
  text : refusedText (joinPath p) = false
  plain : isSensitivePath lower (root ++ p) = false
  size : content.size ≤ maxReadBytes
  utf8 : (decode? content).isSome

theorem extract_all (h : content.size ≤ maxReadBytes) :
    content.extract 0 maxReadBytes = content := by
  apply ByteArray.ext
  rw [ByteArray.data_extract]
  exact Array.extract_eq_self_of_le h

/-- What `read` serves where it does not refuse the path. -/
theorem read_file {n : Nat} (h : ProperPath p) (htext : refusedText (joinPath p) = false)
    (hclear : Clear fs root.path p) (hfile : fs.lstat (root.path ++ p) = .file content n) :
    read lower maxReadBytes links root (joinPath p) =
      if isSensitivePath lower (root.path ++ p) ∨ 1 < n then some (.failed .sensitiveDenied)
      else if ¬ fs.opens (root.path ++ p) then some (.failed .ioError)
      else some (.ok (content.extract 0 maxReadBytes) (maxReadBytes < content.size)) := by
  obtain ⟨hserved, hstat⟩ := read_clear links h htext hclear
  unfold read
  rw [hserved]
  simp only [hstat, hfile]

/-- What `read` serves is the content of a file it reaches. -/
theorem read_ok {data : ByteArray} {truncated : Bool} (h : ProperPath p)
    (hread : read lower maxReadBytes links root (joinPath p) = some (.ok data truncated)) :
    Clear fs root.path p ∧ refusedText (joinPath p) = false ∧
      isSensitivePath lower (root.path ++ p) = false ∧ fs.opens (root.path ++ p) = true ∧
      ∃ c n, fs.lstat (root.path ++ p) = .file c n ∧ n ≤ 1 ∧
        data = c.extract 0 maxReadBytes ∧ truncated = decide (maxReadBytes < c.size) := by
  have hgo : refusedText (joinPath p) = false ∧ Clear fs root.path p := by
    by_contra hstop
    rw [not_and_or, Bool.not_eq_false] at hstop
    obtain hnone | hrefused := read_stopped lower maxReadBytes links h hstop
    · rw [hnone] at hread
      cases hread
    · rw [hrefused] at hread
      cases hread
  obtain ⟨htext, hclear⟩ := hgo
  obtain ⟨hserved, hstat⟩ := read_clear links h htext hclear
  unfold read at hread
  rw [hserved] at hread
  simp only [hstat] at hread
  split at hread
  · cases hread
  · cases hread
  · cases hread
  · rename_i c n hfile
    split at hread
    · cases hread
    rename_i hdenied
    split at hread
    · cases hread
    rename_i hopens
    rw [not_or, not_lt, Bool.not_eq_true] at hdenied
    cases hread
    exact ⟨hclear, htext, hdenied.1, by simpa using hopens, c, n, hfile, hdenied.2, rfl, rfl⟩
  · cases hread
  · cases hread

theorem hexdigest_ne_nil (d : Digest) : text (hexdigest d) ≠ [] := by
  intro hnil
  have hchars : (hexdigest d).toList = [] := by simpa [text] using hnil
  unfold hexdigest at hchars
  rw [String.toList_ofList, List.flatMap_eq_nil_iff] at hchars
  have hsize : d.bytes.data.toList.length = 32 := by simpa using d.size
  obtain ⟨b, bs, hbytes⟩ : ∃ b bs, d.bytes.data.toList = b :: bs :=
    List.exists_cons_of_length_pos (by omega)
  have hb := hchars b (by rw [hbytes]; exact List.mem_cons_self)
  simp at hb

/-- The gate of a pinned file passes exactly when the file is there, reached without links and
under one name, with the content that was pinned, and this can be read. -/
theorem checkFileDiff_pin (sha256 : ByteArray → Digest) (h : ProperPath p)
    (hapart : ∀ c n, fs.lstat (root.path ++ p) = .file c n → sha256 c = sha256 content →
      c = content) :
    checkFileDiff lower maxReadBytes links root sha256
        { path := joinPath p, contentHash := some (text (hexdigest (sha256 content))) } = true ↔
      Clear fs root.path p ∧ (∃ n, fs.lstat (root.path ++ p) = .file content n ∧ n ≤ 1) ∧
        fs.opens (root.path ++ p) = true ∧
        Readable lower maxReadBytes root.path p content := by
  unfold checkFileDiff
  constructor
  · intro hpass
    simp only at hpass
    split at hpass
    · cases hpass
    · simp at hpass
    · rename_i data truncated hread
      obtain ⟨hclear, htext, hplain, hopens, c, n, hfile, hn, rfl, rfl⟩ := read_ok h hread
      split at hpass
      · cases hpass
      rename_i hchecks
      rw [not_or, not_or] at hchecks
      obtain ⟨-, hfull, hhash⟩ := hchecks
      have hsize : c.size ≤ maxReadBytes := by simpa using hfull
      rw [extract_all hsize] at hpass hhash
      have hsame : sha256 c = sha256 content := by
        by_contra hne
        apply hhash
        refine ⟨hexdigest_ne_nil _, fun heq => hne ?_⟩
        exact hexdigest_injective (text_injective heq)
      obtain rfl := hapart c n hfile hsame
      refine ⟨hclear, ⟨n, hfile, hn⟩, hopens, htext, hplain, hsize, ?_⟩
      split at hpass
      · cases hpass
      · rename_i t ht
        rw [ht]
        rfl
  · rintro ⟨hclear, ⟨n, hfile, hn⟩, hopens, hreadable⟩
    obtain ⟨t, ht⟩ := Option.isSome_iff_exists.mp hreadable.utf8
    have hsize := hreadable.size
    rw [read_file h hreadable.text hclear hfile, if_neg, if_neg]
    · simp only [extract_all hreadable.size, ht]
      simp [hsize]
    · simpa using hopens
    · rw [hreadable.plain]
      simpa using hn

/-- The gate of a file that must not be there passes exactly when it is not, and the path to it
is not refused. -/
theorem checkFileDiff_absent (sha256 : ByteArray → Digest) (h : ProperPath p) :
    checkFileDiff lower maxReadBytes links root sha256
        { path := joinPath p, mustExist := false } = true ↔
      refusedText (joinPath p) = false ∧ Clear fs root.path p ∧
        fs.lstat (root.path ++ p) = .missing := by
  unfold checkFileDiff
  constructor
  · intro hpass
    simp only at hpass
    have hgo : refusedText (joinPath p) = false ∧ Clear fs root.path p := by
      by_contra hstop
      rw [not_and_or, Bool.not_eq_false] at hstop
      obtain hnone | hrefused := read_stopped lower maxReadBytes links h hstop
      · rw [hnone] at hpass
        cases hpass
      · rw [hrefused] at hpass
        simp at hpass
    obtain ⟨htext, hclear⟩ := hgo
    refine ⟨htext, hclear, ?_⟩
    obtain ⟨hserved, hstat⟩ := read_clear links h htext hclear
    have hnolink := (hclear.linkFree root.resolved.1) _ List.prefix_rfl
    cases hentry : fs.lstat (root.path ++ p) with
    | missing => rfl
    | link target =>
      rw [hentry] at hnolink
      cases hnolink
    | file c n =>
      rw [read_file h htext hclear hentry] at hpass
      split_ifs at hpass <;> simp at hpass
    | _ => simp [read, hserved, hstat, hentry] at hpass
  · rintro ⟨htext, hclear, hmissing⟩
    obtain ⟨hserved, hstat⟩ := read_clear links h htext hclear
    unfold read
    rw [hserved]
    simp [hstat, hmissing]

end

end FileGates

end Northstack
