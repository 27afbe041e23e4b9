import Northstack.Core.FileSystem

/-!
# The paths a workspace serves

Mirrors `_is_reparse_point` and `_resolve_safe` of adapters/workspace/restricted.py
on a POSIX system. Every tool of the workspace is given a path as a string, by the
model, and turns it into a path under the root this way.

**Result.** `resolveSafe_confined_iff`: a path served is the root or the root
extended by the components of the string, holds no `..` and no link below the root,
and resolves to itself; and a path is served or refused exactly unless the walk
comes to a name the operating system does not take.
-/
namespace Northstack

namespace Workspace

open TextFiles Posix

/-- What leaves `_resolve_safe` as an exception: the operating system does not take a
name, or a resolution is a loop. -/
inductive PathError where
  | valueError
  | runtimeError
  deriving DecidableEq

/-- `_is_reparse_point` (restricted.py:356-376), at the path `parent / name`; the
`lstat` of a name that cannot be encoded raises a `ValueError`, which is no `OSError`. -/
def isReparsePoint (fs : FileSystem) (parent : Path) (name : Text) : Except PathError Bool :=
  if encodable name then
    match fs.lstat (parent ++ [name]) with
    | .missing => .ok false
    | .denied => .ok true
    | .link _ => .ok true
    | _ => .ok false
  else .error .valueError

/-- A workspace root: `__init__` resolves it (restricted.py:338-341). -/
structure Root (fs : FileSystem) where
  path : Path
  resolved : Resolved fs.lstat path

/-- The root `__init__` comes to, `none` where it raises; `/` itself is no link. -/
def Root.init? (fs : FileSystem) (hroot : (fs.lstat []).isLink = false) (links : Nat)
    (path : Path) : Option (Root fs) :=
  if (fs.lstat path).isLink then none
  else
    match h : realpath fs.lstat links [] path with
    | some q => some ⟨q, realpath_linkFree hroot (.nil hroot) h⟩
    | none => none

/-- The walk over the components: whether none of them is a link. -/
def walkParts (fs : FileSystem) : Path → List Text → Except PathError Bool
  | _, [] => .ok true
  | current, part :: parts => do
    if ← isReparsePoint fs current part then return false
    walkParts fs (current ++ [part]) parts

/-- What two paths begin with: `os.path.commonpath` of absolute ones. -/
def commonPath : Path → Path → Path
  | a :: as, b :: bs => if a = b then a :: commonPath as bs else []
  | _, _ => []

/-- The string is refused before the file system is looked at (restricted.py:392-404):
it is absolute, or has a colon in its second place, or a `..`, or a backslash. -/
def refusedText (relPath : Text) : Bool :=
  isAbsolute relPath ∨ relPath[1]? = some (.scalar ':') ∨
    (dotdot ∈ components relPath ∨ dot ∈ components relPath) ∨ .scalar '\\' ∈ relPath

/-- `_resolve_safe` (restricted.py:378-422) -/
def resolveSafe {fs : FileSystem} (links : Nat) (root : Root fs) (relPath : Text) :
    Except PathError (Option Path) := do
  if relPath = [] then return none
  if relPath = dot then return some root.path
  if refusedText relPath then return none
  let parts := components relPath
  if !(← walkParts fs root.path parts) then return none
  match realpath fs.lstat links [] (root.path ++ parts) with
  | none => throw .runtimeError
  | some resolved => return if commonPath root.path resolved = root.path then some resolved else none

/-! ## The walk -/

/-- A walk over these names meets no link, and nothing it cannot look at. -/
def Clear (fs : FileSystem) : Path → List Text → Prop
  | _, [] => True
  | current, name :: names =>
    encodable name ∧ (fs.lstat (current ++ [name])).isLink = false ∧
      fs.lstat (current ++ [name]) ≠ .denied ∧ Clear fs (current ++ [name]) names

section

variable {fs : FileSystem} {current : Path} {name : Text} {parts : List Text} {root : Root fs}
  {relPath : Text} {links : Nat}

/-- What is asked of one component. -/
theorem isReparsePoint_cases (fs : FileSystem) (current : Path) (name : Text) :
    (encodable name = false ∧ isReparsePoint fs current name = .error .valueError) ∨
      encodable name = true ∧
        (((fs.lstat (current ++ [name])).isLink = false ∧ fs.lstat (current ++ [name]) ≠ .denied ∧
            isReparsePoint fs current name = .ok false) ∨
          (((fs.lstat (current ++ [name])).isLink = true ∨ fs.lstat (current ++ [name]) = .denied) ∧
            isReparsePoint fs current name = .ok true)) := by
  unfold isReparsePoint
  cases hname : encodable name with
  | false => exact .inl ⟨rfl, rfl⟩
  | true =>
    right
    refine ⟨rfl, ?_⟩
    cases fs.lstat (current ++ [name]) <;> simp [Entry.isLink]

theorem walkParts_true : walkParts fs current parts = .ok true ↔ Clear fs current parts := by
  induction parts generalizing current with
  | nil => simp [walkParts, Clear]
  | cons name parts ih =>
    unfold walkParts Clear
    rcases isReparsePoint_cases fs current name with
      ⟨hname, heq⟩ | ⟨hname, ⟨hlink, hdenied, heq⟩ | ⟨hbad, heq⟩⟩
    · simp [heq, hname, bind, Except.bind]
    · simp [heq, hname, hlink, hdenied, bind, Except.bind, ih]
    · rw [heq]
      constructor
      · intro h
        cases h
      · rintro ⟨-, hlink, hdenied, -⟩
        rcases hbad with hbad | hbad
        · rw [hlink] at hbad
          cases hbad
        · exact absurd hbad hdenied

/-- The walk raises at the first name that cannot be encoded, if it comes so far. -/
theorem walkParts_error : (∃ e, walkParts fs current parts = .error e) ↔
    ∃ pre name post, parts = pre ++ name :: post ∧ Clear fs current pre ∧
      encodable name = false := by
  induction parts generalizing current with
  | nil => simp [walkParts]
  | cons name parts ih =>
    unfold walkParts
    rcases isReparsePoint_cases fs current name with
      ⟨hname, heq⟩ | ⟨hname, ⟨hlink, hdenied, heq⟩ | ⟨hbad, heq⟩⟩
    · rw [heq]
      exact ⟨fun _ => ⟨[], name, parts, rfl, trivial, hname⟩, fun _ => ⟨_, rfl⟩⟩
    · have hrest : (∃ e, walkParts fs (current ++ [name]) parts = .error e) ↔
          ∃ pre bad post, name :: parts = pre ++ bad :: post ∧ Clear fs current pre ∧
            encodable bad = false := by
        rw [ih]
        constructor
        · rintro ⟨pre, bad, post, rfl, hclear, hbad⟩
          exact ⟨name :: pre, bad, post, rfl, ⟨hname, hlink, hdenied, hclear⟩, hbad⟩
        · rintro ⟨pre, bad, post, hparts, hclear, hbad⟩
          cases pre with
          | nil =>
            cases hparts
            rw [hname] at hbad
            cases hbad
          | cons first pre =>
            cases hparts
            exact ⟨pre, bad, post, rfl, hclear.2.2.2, hbad⟩
      rw [heq]
      exact hrest
    · rw [heq]
      constructor
      · rintro ⟨e, h⟩
        cases h
      · rintro ⟨pre, bad, post, hparts, hclear, hnot⟩
        cases pre with
        | nil =>
          cases hparts
          rw [hname] at hnot
          cases hnot
        | cons first pre =>
          cases hparts
          obtain ⟨-, hlink, hdenied, -⟩ := hclear
          rcases hbad with hbad | hbad
          · rw [hlink] at hbad
            cases hbad
          · exact absurd hbad hdenied

theorem Clear.linkFree (h : Clear fs current parts) (hcurrent : LinkFree fs.lstat current) :
    LinkFree fs.lstat (current ++ parts) := by
  induction parts generalizing current with
  | nil => rwa [List.append_nil]
  | cons name parts ih =>
    obtain ⟨-, hlink, -, hclear⟩ := h
    rw [List.append_cons]
    exact ih hclear (linkFree_snoc.mpr ⟨hcurrent, hlink⟩)

theorem commonPath_append (p q : Path) : commonPath p (p ++ q) = p := by
  induction p with
  | nil => cases q <;> rfl
  | cons a p ih => simp [commonPath, ih]

/-! ## What is served -/

/-- A path under the root, and no way out of it. -/
structure Served (root : Root fs) (relPath : Text) (p : Path) : Prop where
  under : p = root.path ∨ p = root.path ++ components relPath
  noDots : dotdot ∉ p
  noLinks : LinkFree fs.lstat p
  inside : ∀ links, ∃ q, realpath fs.lstat links [] p = some q ∧ root.path <+: q

/-- The string is refused, or the path it is served as is confined to the root. -/
def Confined (links : Nat) (root : Root fs) (relPath : Text) : Prop :=
  ∃ served, resolveSafe links root relPath = .ok served ∧ ∀ p ∈ served, Served root relPath p

/-- The text is not refused, and the walk over its components comes to one that holds a
NUL or cannot be encoded. -/
def MeetsBadName (root : Root fs) (relPath : Text) : Prop :=
  refusedText relPath = false ∧
    ∃ pre name post, components relPath = pre ++ name :: post ∧ Clear fs root.path pre ∧
      encodable name = false

theorem Served.of_resolved {p : Path} (hunder : p = root.path ∨ p = root.path ++ components relPath)
    (hp : Resolved fs.lstat p) : Served root relPath p := by
  refine ⟨hunder, hp.2, hp.1, ?_⟩
  intro links
  refine ⟨p, realpath_plain hp.2 hp.1, ?_⟩
  rcases hunder with rfl | rfl
  · exact List.prefix_rfl
  · exact List.prefix_append _ _

/-- After the checks of the text, the walk decides. -/
theorem resolveSafe_error {e : PathError} (hne : relPath ≠ []) (hdot : relPath ≠ dot)
    (htext : refusedText relPath = false)
    (h : walkParts fs root.path (components relPath) = .error e) :
    resolveSafe links root relPath = .error e := by
  unfold resolveSafe
  rw [if_neg hne, if_neg hdot, htext]
  simp [h, bind, Except.bind]

theorem resolveSafe_stopped (hne : relPath ≠ []) (hdot : relPath ≠ dot)
    (htext : refusedText relPath = false)
    (h : walkParts fs root.path (components relPath) = .ok false) :
    resolveSafe links root relPath = .ok none := by
  unfold resolveSafe
  rw [if_neg hne, if_neg hdot, htext]
  simp [h, bind, Except.bind, pure, Except.pure]

theorem refusedText_dots (htext : refusedText relPath = false) : dotdot ∉ components relPath := by
  unfold refusedText at htext
  rw [decide_eq_false_iff_not] at htext
  exact fun hin => htext (.inr (.inr (.inl (.inl hin))))

/-- What the walk lets pass is its own resolution. -/
theorem resolved_of_clear (htext : refusedText relPath = false)
    (h : Clear fs root.path (components relPath)) :
    Resolved fs.lstat (root.path ++ components relPath) := by
  refine ⟨h.linkFree root.resolved.1, ?_⟩
  rw [List.mem_append, not_or]
  exact ⟨root.resolved.2, refusedText_dots htext⟩

theorem resolveSafe_served (hne : relPath ≠ []) (hdot : relPath ≠ dot)
    (htext : refusedText relPath = false)
    (h : walkParts fs root.path (components relPath) = .ok true) :
    resolveSafe links root relPath = .ok (some (root.path ++ components relPath)) := by
  have hresolved := resolved_of_clear htext (walkParts_true.mp h)
  have hreal : realpath fs.lstat links [] (root.path ++ components relPath) =
      some (root.path ++ components relPath) := realpath_plain hresolved.2 hresolved.1
  unfold resolveSafe
  rw [if_neg hne, if_neg hdot, htext]
  simp [h, hreal, commonPath_append, bind, Except.bind, pure, Except.pure]

/-- **Paths are confined to the root.** `_resolve_safe` refuses a string, or serves it as
a path that is the root or the root extended by the components of the string, without
`..` and without links, inside the root however links are followed; exactly unless its
walk comes to a name the operating system does not take, at which it raises. -/
theorem resolveSafe_confined_iff (links : Nat) (root : Root fs) (relPath : Text) :
    Confined links root relPath ↔ ¬ MeetsBadName root relPath := by
  have hempty : components [] = [] := by decide
  have hdotted : components dot = [] := by decide
  constructor
  · rintro ⟨served, hserved, -⟩ ⟨htext, hbad⟩
    have hne : relPath ≠ [] := by
      rintro rfl
      obtain ⟨pre, name, post, hparts, -⟩ := hbad
      rw [hempty] at hparts
      simp at hparts
    have hdot : relPath ≠ dot := by
      rintro rfl
      obtain ⟨pre, name, post, hparts, -⟩ := hbad
      rw [hdotted] at hparts
      simp at hparts
    obtain ⟨e, he⟩ := walkParts_error.mpr hbad
    rw [resolveSafe_error hne hdot htext he] at hserved
    cases hserved
  · intro hgood
    by_cases hne : relPath = []
    · exact ⟨none, by simp [resolveSafe, hne, pure, Except.pure], by simp⟩
    by_cases hdot : relPath = dot
    · refine ⟨some root.path, ?_, ?_⟩
      · unfold resolveSafe
        rw [if_neg hne, if_pos hdot]
        rfl
      · rintro p ⟨⟩
        exact .of_resolved (.inl rfl) root.resolved
    cases htext : refusedText relPath with
    | true =>
      refine ⟨none, ?_, by simp⟩
      unfold resolveSafe
      rw [if_neg hne, if_neg hdot, htext]
      rfl
    | false =>
      cases hwalk : walkParts fs root.path (components relPath) with
      | error e => exact absurd ⟨htext, walkParts_error.mp ⟨e, hwalk⟩⟩ hgood
      | ok clear =>
        cases clear with
        | false => exact ⟨none, resolveSafe_stopped hne hdot htext hwalk, by simp⟩
        | true =>
          refine ⟨_, resolveSafe_served hne hdot htext hwalk, ?_⟩
          rintro p ⟨⟩
          exact .of_resolved (.inr rfl) (resolved_of_clear htext (walkParts_true.mp hwalk))

end

/-- An empty root at `/w`. -/
def emptyWorkspace : FileSystem := .ofEntries [([text "w"], .dir)]

def emptyRoot : Root emptyWorkspace where
  path := [text "w"]
  resolved := by
    refine ⟨?_, by decide⟩
    intro q hq
    rcases List.prefix_concat_iff.mp (show q <+: [] ++ [text "w"] from hq) with rfl | hq
    · rfl
    · rw [List.prefix_nil.mp hq]
      rfl

/-- A string that holds a NUL is not refused: it raises. -/
theorem resolveSafe_raises : ¬ Confined 0 emptyRoot [.scalar 'a', .scalar (Char.ofNat 0)] := by
  rintro ⟨served, hserved, -⟩
  have hraises : resolveSafe 0 emptyRoot [.scalar 'a', .scalar (Char.ofNat 0)] =
      .error .valueError := by decide +kernel
  rw [hraises] at hserved
  cases hserved

end Workspace

end Northstack
