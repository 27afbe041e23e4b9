import Northstack.Core.TextFiles

/-!
# Paths and the file system

A path is the list of its components from the root of the file system on. What
stands at a path is found with or without following a link there; a directory
is listed in an order of its own.

**Results.**
* `realpath_plain`: a path none of whose components is a link is its own
  resolution; `realpath_linkFree`: no resolution holds a link.
* `FileSystem.ofEntries`: a file system made of a list of entries.
-/
namespace Posix

open TextFiles

/-- A path from the root, by its components. -/
abbrev Path := List Text

instance : LawfulBEq Path := inferInstance

def slash : CodePoint := .scalar '/'
def dot : Text := text "."
def dotdot : Text := text ".."

/-- The `parts` of a relative path: empty components and `.` stand for nothing. -/
def components (s : Text) : List Text :=
  (s.splitOn slash).filter fun c => c ≠ [] ∧ c ≠ dot

def isAbsolute (s : Text) : Bool := s.head? = some slash

/-- The operating system takes the name: it holds no NUL and can be encoded, lone
surrogates standing for the bytes they escape. -/
def encodable (name : Text) : Bool :=
  name.all fun
    | .scalar c => c.toNat ≠ 0
    | .surrogate n => 0x480 ≤ n.val ∧ n.val < 0x500

/-- A name an entry of a directory may have. -/
def ProperName (name : Text) : Prop :=
  name ≠ [] ∧ name ≠ dot ∧ name ≠ dotdot ∧ slash ∉ name ∧ encodable name

instance (name : Text) : Decidable (ProperName name) := inferInstanceAs (Decidable (_ ∧ _))

/-- What stands at a path; `denied` where one is not told. -/
inductive Entry where
  | missing
  | denied
  | link (target : Text)
  | dir
  | file (content : ByteArray) (links : Nat)
  | special
  deriving DecidableEq

def Entry.isFile : Entry → Bool
  | .file _ _ => true
  | _ => false

def Entry.isLink : Entry → Bool
  | .link _ => true
  | _ => false

/-- Something stands there. -/
def Entry.found : Entry → Bool
  | .missing => false
  | .denied => false
  | _ => true

/-- A file system: what `lstat` and `stat` find at a path, how a directory is listed,
and which directories and files can be opened. -/
structure FileSystem where
  lstat : Path → Entry
  stat : Path → Entry
  scandir : Path → List Text
  opens : Path → Bool
  stat_eq : ∀ p, (lstat p).isLink = false → stat p = lstat p
  mem_scandir : ∀ p name, name ∈ scandir p ↔ ProperName name ∧ (lstat (p ++ [name])).found
  nodup_scandir : ∀ p, (scandir p).Nodup

/-! ## Resolution -/

section

variable (lstat : Path → Entry)

/-- A resolution up to the first link, where `follow` goes on. -/
def resolveWith (follow : Path → List Text → Option Path) : Path → List Text → Option Path
  | path, [] => some path
  | path, name :: rest =>
    if name = dotdot then resolveWith follow path.dropLast rest
    else
      match lstat (path ++ [name]) with
      | .link target => follow (if isAbsolute target then [] else path) (components target ++ rest)
      | _ => resolveWith follow (path ++ [name]) rest

/-- `os.path.realpath`, not strict: `path` is resolved and `rest` is to follow. `none` for
a path with more than `links` links to follow, which is taken for a loop. -/
def realpath : Nat → Path → List Text → Option Path
  | 0 => resolveWith lstat fun _ _ => none
  | links + 1 => resolveWith lstat (realpath links)

/-- No component of the path is a link. -/
def LinkFree (p : Path) : Prop := ∀ q, q <+: p → (lstat q).isLink = false

end

section

variable {lstat : Path → Entry} {p q : Path} {names : List Text} {links : Nat}

theorem LinkFree.of_isPrefix (h : LinkFree lstat p) (hq : q <+: p) : LinkFree lstat q :=
  fun r hr => h r (hr.trans hq)

theorem linkFree_snoc {name : Text} : LinkFree lstat (p ++ [name]) ↔
    LinkFree lstat p ∧ (lstat (p ++ [name])).isLink = false := by
  constructor
  · intro h
    exact ⟨h.of_isPrefix (List.prefix_append _ _), h _ List.prefix_rfl⟩
  · rintro ⟨hp, hname⟩ q hq
    rcases List.prefix_concat_iff.mp hq with rfl | hq
    · exact hname
    · exact hp q hq

theorem resolveWith_plain {follow : Path → List Text → Option Path} (hdots : dotdot ∉ names)
    (h : LinkFree lstat (p ++ names)) : resolveWith lstat follow p names = some (p ++ names) := by
  induction names generalizing p with
  | nil => simp [resolveWith]
  | cons name names ih =>
    rw [List.mem_cons, not_or] at hdots
    rw [List.append_cons] at h ⊢
    have hlink : (lstat (p ++ [name])).isLink = false := h _ (List.prefix_append _ _)
    unfold resolveWith
    rw [if_neg fun hname => hdots.1 hname.symm]
    cases hentry : lstat (p ++ [name]) with
    | link target =>
      rw [hentry] at hlink
      cases hlink
    | _ => exact ih hdots.2 h

/-- A path without links or `..` is its own resolution. -/
theorem realpath_plain (hdots : dotdot ∉ names) (h : LinkFree lstat (p ++ names)) :
    realpath lstat links p names = some (p ++ names) := by
  cases links with
  | zero => exact resolveWith_plain hdots h
  | succ links => exact resolveWith_plain hdots h

/-- A resolved path: no links and no `..` in it. -/
def Resolved (lstat : Path → Entry) (p : Path) : Prop := LinkFree lstat p ∧ dotdot ∉ p

theorem Resolved.dropLast (h : Resolved lstat p) : Resolved lstat p.dropLast :=
  ⟨h.1.of_isPrefix (List.dropLast_prefix p), fun hin => h.2 (List.mem_of_mem_dropLast hin)⟩

theorem Resolved.nil (hroot : (lstat []).isLink = false) : Resolved lstat [] := by
  refine ⟨?_, List.not_mem_nil⟩
  intro q hq
  rw [List.prefix_nil.mp hq]
  exact hroot

theorem resolveWith_resolved {follow : Path → List Text → Option Path}
    (hroot : (lstat []).isLink = false)
    (hfollow : ∀ path rest q, Resolved lstat path → follow path rest = some q → Resolved lstat q)
    (hp : Resolved lstat p) (h : resolveWith lstat follow p names = some q) :
    Resolved lstat q := by
  induction names generalizing p with
  | nil =>
    cases h
    exact hp
  | cons name names ih =>
    unfold resolveWith at h
    split at h
    · exact ih hp.dropLast h
    · rename_i hname
      split at h
      · rename_i target hentry
        refine hfollow _ _ _ ?_ h
        split
        · exact .nil hroot
        · exact hp
      · rename_i hlink
        have hnot : (lstat (p ++ [name])).isLink = false := by
          cases hentry : lstat (p ++ [name]) with
          | link target => exact absurd hentry (hlink target)
          | _ => rfl
        refine ih ⟨linkFree_snoc.mpr ⟨hp.1, hnot⟩, ?_⟩ h
        rw [List.mem_append, List.mem_singleton, not_or]
        exact ⟨hp.2, fun heq => hname heq.symm⟩

/-- A resolution holds no link, wherever the links of the path lead. -/
theorem realpath_linkFree (hroot : (lstat []).isLink = false) (hp : Resolved lstat p)
    (h : realpath lstat links p names = some q) : Resolved lstat q := by
  induction links generalizing p q names with
  | zero => exact resolveWith_resolved hroot (fun _ _ _ _ h => by cases h) hp h
  | succ links ih => exact resolveWith_resolved hroot (fun _ _ _ hp h => ih hp h) hp h

end

/-! ## A file system from a list -/

/-- What stands at a path, by a list of what there is. -/
def lookupEntry (entries : List (Path × Entry)) (p : Path) : Entry :=
  if p = [] then .dir else (entries.lookup p).getD .missing

/-- The names listed for a directory. -/
def listNames (entries : List (Path × Entry)) (p : Path) : List Text :=
  ((entries.map Prod.fst).filterMap fun q => if q.dropLast = p then q.getLast? else none).dedup.filter
    fun name => ProperName name ∧ (lookupEntry entries (p ++ [name])).found

theorem mem_listNames {entries : List (Path × Entry)} {p : Path} {name : Text} :
    name ∈ listNames entries p ↔
      ProperName name ∧ (lookupEntry entries (p ++ [name])).found := by
  unfold listNames
  simp only [List.mem_filter, List.mem_dedup, List.mem_filterMap, decide_eq_true_eq,
    and_iff_right_iff_imp]
  rintro ⟨-, hfound⟩
  refine ⟨p ++ [name], ?_, by simp⟩
  unfold lookupEntry at hfound
  rw [if_neg (by simp)] at hfound
  cases hentry : entries.lookup (p ++ [name]) with
  | none =>
    rw [hentry] at hfound
    cases hfound
  | some e =>
    obtain ⟨l₁, l₂, rfl, -⟩ := List.lookup_eq_some_iff.mp hentry
    simp

/-- A file that is there is in the list. -/
theorem mem_of_lookupEntry {entries : List (Path × Entry)} {p : Path} {content : ByteArray}
    {links : Nat} (h : lookupEntry entries p = .file content links) :
    (p, .file content links) ∈ entries := by
  unfold lookupEntry at h
  split at h
  · cases h
  · cases hentry : entries.lookup p with
    | none =>
      rw [hentry] at h
      cases h
    | some e =>
      rw [hentry] at h
      obtain ⟨l₁, l₂, rfl, -⟩ := List.lookup_eq_some_iff.mp hentry
      cases h
      simp

/-- A file system that holds these entries; links lead where `realpath` says. -/
def FileSystem.ofEntries (entries : List (Path × Entry)) : FileSystem where
  lstat := lookupEntry entries
  stat p :=
    if (lookupEntry entries p).isLink then
      match realpath (lookupEntry entries) entries.length [] p with
      | some q => lookupEntry entries q
      | none => .denied
    else lookupEntry entries p
  scandir := listNames entries
  opens _ := true
  stat_eq p h := by
    rw [h]
    rfl
  mem_scandir p name := mem_listNames
  nodup_scandir p := (List.nodup_dedup _).filter _

end Posix
