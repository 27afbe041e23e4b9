import Northstack.Adapters.Commands
import Northstack.Application.FileGates
import Northstack.Application.TreeStability
import Northstack.Core.StackWalk
import Northstack.Core.TextLines

/-!
# Listing and searching a workspace

Mirrors `list` and `search` of adapters/workspace/restricted.py, on a file system that
does not change meanwhile.

**Results.**
* `search_reads`: what a search reports are lines that `read` gives out too; they come in
  the order of their files, as many as are allowed.
* `search_complete`: a search that is not truncated reports all of them.
* `list_names`: a listing has the first names of the directory, in order.
* `same_tree`: how the system orders the entries of a directory makes no difference.
-/
namespace Northstack

namespace WorkspaceReads

open TextFiles Posix Workspace FileGates PyText StackWalk

/-! ## Listing -/

inductive ListResult where
  | unsafePath
  | notDirectory
  | ioError
  | ok (entries : List Text) (total : Nat)
  deriving DecidableEq

section

variable (maxListEntries links : Nat) {fs : FileSystem} (root : Root fs)

/-- `list` (restricted.py:471-515); `none` where it raises: the path, or a name that has
no UTF-8. -/
def list (relPath : Text) : Option ListResult :=
  match resolveSafe links root relPath with
  | .error _ => none
  | .ok none => some .unsafePath
  | .ok (some resolved) =>
    match fs.stat resolved with
    | .denied => none
    | .dir =>
      if fs.opens resolved then
        let entries := (childNames fs [] resolved).take maxListEntries
        if entries.all fun name => (encode? name).isSome then
          some (.ok entries (fs.scandir resolved).length)
        else none
      else some .ioError
    | _ => some .notDirectory

end

/-! ## Searching -/

/-- The lines of a file; what `decodeReplace` gives holds no surrogates. -/
def textLines (data : ByteArray) : List (List Char) :=
  splitLines [] ((decodeReplace data.data.toList).filterMap CodePoint.scalar?)

structure SearchLimits where
  maxSearchResults : Nat := 100
  maxSearchFileBytes : Nat := 1048576
  maxSearchFiles : Nat := 10000
  maxSearchDirectories : Nat := 1000

/-- `truncation_reason` -/
inductive Reason where
  | directoryLimit | fileLimit | fileByteLimit | resultLimit
  deriving DecidableEq

structure Match where
  path : Text
  line : Nat
  text : List Char
  deriving DecidableEq

/-- The variables of `search`. -/
structure Search where
  found : List Match := []
  total : Nat := 0
  files : Nat := 0
  directories : Nat := 0
  reason : Option Reason := none
  deriving DecidableEq

/-- `reason = reason or ...` -/
def Search.limited (st : Search) (r : Reason) : Search :=
  { st with reason := st.reason.or (some r) }

def holds (pattern : Text) (line : List Char) : Bool :=
  decide (pattern <:+: line.map .scalar)

def matchAt (rel : Text) (line : List Char) (n : Nat) : Match :=
  { path := rel, line := n, text := (stripChars line).take 200 }

/-- The loop over the lines of a file, from the `n`th on; whether it cleared the stack. -/
def matchLines (limits : SearchLimits) (pattern rel : Text) :
    Nat → List (List Char) → Search → Search × Bool
  | _, [], st => (st, false)
  | n, line :: lines, st =>
    if holds pattern line then
      let st := { st with total := st.total + 1 }
      if limits.maxSearchResults < st.total then (st.limited .resultLimit, true)
      else
        matchLines limits pattern rel (n + 1) lines
          { st with found := st.found ++ [matchAt rel line n] }
    else matchLines limits pattern rel (n + 1) lines st

/-- `str(entry.relative_to(root))`, `none` for a `ValueError`. -/
def relativeTo (root entry : Path) : Option Text :=
  if root <+: entry then
    if entry = root then some dot else some (joinPath (entry.drop root.length))
  else none

/-- What an entry makes of the search: it goes on, with these entries on the stack; it is
over; or an exception leaves it. -/
inductive Visit where
  | next (st : Search) (children : List Path)
  | stop (st : Search)
  | raised

section

variable (lower : Text → Text) (limits : SearchLimits) (links : Nat) {fs : FileSystem}
  (root : Root fs) (pattern : Text)

/-- One entry of the stack (restricted.py:542-583). -/
def visit (st : Search) (entry : Path) : Visit :=
  match relativeTo root.path entry with
  | none => .next st []
  | some rel =>
    match resolveSafe links root rel with
    | .error _ => .raised
    | .ok none => .next st []
    | .ok (some safe) =>
      match fs.stat safe with
      | .dir =>
        if limits.maxSearchDirectories ≤ st.directories then .stop (st.limited .directoryLimit)
        else
          .next { st with directories := st.directories + 1 }
            (if fs.opens safe then (childNames fs [] safe).map fun name => safe ++ [name] else [])
      | .file content hardLinks =>
        if isSensitivePath lower safe ∨ 1 < hardLinks then .next st []
        else if limits.maxSearchFiles ≤ st.files then .stop (st.limited .fileLimit)
        else
          let st := { st with files := st.files + 1 }
          if fs.opens safe then
            let st := if limits.maxSearchFileBytes < content.size then st.limited .fileByteLimit
              else st
            match matchLines limits pattern rel 1
              (textLines (content.extract 0 limits.maxSearchFileBytes)) st with
            | (st, true) => .stop st
            | (st, false) => .next st []
          else .next st []
      | _ => .next st []

theorem matchLines_directories {rel : Text} {n : Nat} {lines : List (List Char)} {st : Search} :
    (matchLines limits pattern rel n lines st).1.directories = st.directories := by
  induction lines generalizing n st with
  | nil => rfl
  | cons line lines ih =>
    unfold matchLines
    split
    · dsimp only
      split
      · rfl
      · rw [ih]
    · rw [ih]

/-- A search goes into directories only so often. -/
theorem visit_directories {st st' : Search} {entry : Path} {children : List Path}
    (h : visit lower limits links root pattern st entry = .next st' children) :
    children = [] ∧ st'.directories = st.directories ∨
      st.directories < limits.maxSearchDirectories ∧ st'.directories = st.directories + 1 := by
  unfold visit at h
  split at h
  · cases h
    exact .inl ⟨rfl, rfl⟩
  split at h
  · cases h
  · cases h
    exact .inl ⟨rfl, rfl⟩
  split at h
  · split at h
    · cases h
    · rename_i hroom
      cases h
      exact .inr ⟨Nat.lt_of_not_le hroom, rfl⟩
  · split at h
    · cases h
      exact .inl ⟨rfl, rfl⟩
    split at h
    · cases h
    dsimp only at h
    split at h
    · split at h
      · cases h
      · rename_i st'' hlines
        cases h
        refine .inl ⟨rfl, ?_⟩
        have hsame := congrArg (fun r => r.1.directories) hlines
        dsimp only at hsame
        rw [matchLines_directories] at hsame
        rw [← hsame]
        split <;> rfl
    · cases h
      exact .inl ⟨rfl, rfl⟩
  · cases h
    exact .inl ⟨rfl, rfl⟩

/-- The loop (restricted.py:540-583); `none` where it raises. -/
def searchLoop (st : Search) : List Path → Option Search
  | [] => some st
  | entry :: stack =>
    match _h : visit lower limits links root pattern st entry with
    | .next st' children => searchLoop st' (children ++ stack)
    | .stop st' => some st'
    | .raised => none
termination_by stack => (limits.maxSearchDirectories - st.directories, stack.length)
decreasing_by
  rcases visit_directories lower limits links root pattern _h with ⟨rfl, hsame⟩ | ⟨hlt, hsucc⟩
  · rw [hsame]
    exact Prod.Lex.right _ (Nat.lt_succ_self _)
  · exact Prod.Lex.left _ _ (by omega)

inductive SearchResult where
  | unsafePath
  | notFound
  | ok (found : List Match) (reason : Option Reason) (total : Nat)
  deriving DecidableEq

/-- `search` (restricted.py:517-595); `none` where it raises: the path, or that of a match
that has no UTF-8. -/
def search (path : Text) : Option SearchResult :=
  match resolveSafe links root path with
  | .error _ => none
  | .ok none => some .unsafePath
  | .ok (some resolved) =>
    match fs.stat resolved with
    | .missing | .link _ => some .notFound
    | .denied => none
    | _ => do
      let st ← searchLoop lower limits links root pattern {} [resolved]
      if st.found.all fun m => (encode? m.path).isSome then some (.ok st.found st.reason st.total)
      else none

end

/-! ## What there is to find -/

/-- The matches in lines of which the first is the `n`th of the file. -/
def matchesFrom (pattern rel : Text) : Nat → List (List Char) → List Match
  | _, [] => []
  | n, line :: lines =>
    if holds pattern line then matchAt rel line n :: matchesFrom pattern rel (n + 1) lines
    else matchesFrom pattern rel (n + 1) lines

section

variable (lower : Text → Text) (limits : SearchLimits) (links : Nat) {fs : FileSystem}
  (root : Root fs) (pattern : Text)

/-- The matches in what `read` gives out of an entry. -/
def hits (entry : Path) : List Match :=
  match relativeTo root.path entry with
  | none => []
  | some rel =>
    match read lower limits.maxSearchFileBytes links root rel with
    | some (.ok data _) => matchesFrom pattern rel 1 (textLines data)
    | _ => []

/-- The names a search goes on to from an entry. -/
def listed (entry : Path) : List Text :=
  match relativeTo root.path entry with
  | none => []
  | some rel =>
    match resolveSafe links root rel with
    | .ok (some safe) =>
      if fs.stat safe = .dir ∧ fs.opens safe = true then childNames fs [] safe else []
    | _ => []

def nextEntries (entry : Path) : List Path := (listed links root entry).map fun n => entry ++ [n]

/-- Nothing of the entry is passed over. -/
def Whole (entry : Path) : Prop :=
  ∀ rel data, relativeTo root.path entry = some rel →
    read lower limits.maxSearchFileBytes links root rel ≠ some (.ok data true)

/-- An entry a search may come to. -/
def At (entry : Path) : Prop := ∃ rel, entry = root.path ++ rel ∧ (rel = [] ∨ ProperPath rel)

/-- A search that goes on. -/
structure Sized (st : Search) : Prop where
  total : st.total = st.found.length
  results : st.total ≤ limits.maxSearchResults
  files : st.files ≤ limits.maxSearchFiles
  directories : st.directories ≤ limits.maxSearchDirectories

/-- A search that is over. -/
structure Bounded (st : Search) : Prop where
  found : st.found.length ≤ limits.maxSearchResults
  total : st.found.length ≤ st.total ∧ st.total ≤ limits.maxSearchResults + 1
  files : st.files ≤ limits.maxSearchFiles
  directories : st.directories ≤ limits.maxSearchDirectories

end

section

variable {lower : Text → Text} {limits : SearchLimits} {links : Nat} {fs : FileSystem}
  {root : Root fs} {pattern rel : Text} {st : Search} {entry : Path} {m : Match} {n : Nat}
  {lines : List (List Char)}

theorem mem_matchesFrom : m ∈ matchesFrom pattern rel n lines ↔
    ∃ k line, lines[k]? = some line ∧ holds pattern line = true ∧ m = matchAt rel line (n + k) := by
  induction lines generalizing n with
  | nil => simp [matchesFrom]
  | cons line lines ih =>
    have hrest : (∃ (k : Nat) (l : List Char), lines[k]? = some l ∧ holds pattern l = true ∧
        m = matchAt rel l (n + 1 + k)) ↔ ∃ (k : Nat) (l : List Char),
        (line :: lines)[k + 1]? = some l ∧ holds pattern l = true ∧
          m = matchAt rel l (n + (k + 1)) := by
      simp only [List.getElem?_cons_succ, Nat.add_assoc, Nat.add_comm 1]
    unfold matchesFrom
    split
    · rename_i hholds
      rw [List.mem_cons, ih, hrest]
      refine ⟨fun h => ?_, fun h => ?_⟩
      · rcases h with rfl | ⟨k, h⟩
        · exact ⟨0, line, rfl, hholds, rfl⟩
        · exact ⟨k + 1, h⟩
      · obtain ⟨k, l, hl, hh, heq⟩ := h
        cases k with
        | zero =>
          cases hl
          exact .inl heq
        | succ k => exact .inr ⟨k, l, hl, hh, heq⟩
    · rename_i hholds
      rw [ih, hrest]
      refine ⟨fun ⟨k, h⟩ => ⟨k + 1, h⟩, fun h => ?_⟩
      obtain ⟨k, l, hl, hh, heq⟩ := h
      cases k with
      | zero =>
        cases hl
        exact absurd hh hholds
      | succ k => exact ⟨k, l, hl, hh, heq⟩

theorem Sized.bounded (h : Sized limits st) : Bounded limits st where
  found := h.total ▸ h.results
  total := ⟨h.total.ge, h.results.trans (Nat.le_succ _)⟩
  files := h.files
  directories := h.directories

theorem limited_bounded (h : Bounded limits st) (r : Reason) :
    Bounded limits (st.limited r) ∧ (st.limited r).reason ≠ none := by
  refine ⟨⟨h.found, h.total, h.files, h.directories⟩, ?_⟩
  unfold Search.limited
  cases st.reason <;> simp

/-- The lines of a file are gone through, or as many as there is room for. -/
theorem matchLines_cases (pattern rel : Text) (n : Nat) (lines : List (List Char))
    (h : Sized limits st) :
    (∃ st', matchLines limits pattern rel n lines st = (st', false) ∧ Sized limits st' ∧
      st'.found = st.found ++ matchesFrom pattern rel n lines ∧ st'.reason = st.reason) ∨
    ∃ st', matchLines limits pattern rel n lines st = (st', true) ∧ Bounded limits st' ∧
      st'.reason ≠ none ∧ st'.found <+: st.found ++ matchesFrom pattern rel n lines := by
  induction lines generalizing n st with
  | nil => exact .inl ⟨st, rfl, h, (List.append_nil _).symm, rfl⟩
  | cons line lines ih =>
    unfold matchLines matchesFrom
    by_cases hholds : holds pattern line = true
    · rw [if_pos hholds, if_pos hholds]
      dsimp only
      split
      · rename_i hmore
        right
        have hbounded : Bounded limits { st with total := st.total + 1 } := by
          refine ⟨h.bounded.found, ⟨?_, ?_⟩, h.files, h.directories⟩
          · exact h.total.ge.trans (Nat.le_succ _)
          · exact Nat.succ_le_succ h.results
        obtain ⟨hlimited, hreason⟩ := limited_bounded hbounded .resultLimit
        exact ⟨_, rfl, hlimited, hreason, List.prefix_append _ _⟩
      · rename_i hroom
        have hsized : Sized limits { st with
            total := st.total + 1, found := st.found ++ [matchAt rel line n] } := by
          refine ⟨?_, Nat.le_of_not_lt hroom, h.files, h.directories⟩
          rw [List.length_append, h.total]
          rfl
        have hassoc (rest : List Match) : st.found ++ [matchAt rel line n] ++ rest =
            st.found ++ matchAt rel line n :: rest := by
          rw [List.append_assoc, List.singleton_append]
        rcases ih (n + 1) hsized with ⟨st', hgo, hst', hfound, hreason⟩ |
          ⟨st', hstop, hst', hreason, hfound⟩
        · exact .inl ⟨st', hgo, hst', hfound.trans (hassoc _), hreason⟩
        · exact .inr ⟨st', hstop, hst', hreason, hassoc _ ▸ hfound⟩
    · rw [if_neg hholds, if_neg hholds]
      exact ih (n + 1) h

/-- How an entry of the search is resolved: not at all, or to itself. -/
theorem At.resolve (h : At root entry) (links : Nat) :
    ∃ rel, relativeTo root.path entry = some rel ∧
    (resolveSafe links root rel = .ok none ∨ resolveSafe links root rel = .ok (some entry)) := by
  obtain ⟨p, rfl, hp⟩ := h
  unfold relativeTo
  rw [if_pos (List.prefix_append _ _)]
  rcases hp with rfl | hp
  · rw [List.append_nil, if_pos rfl]
    exact ⟨dot, rfl, .inr rfl⟩
  · have hne : root.path ++ p ≠ root.path := by simpa using hp.1
    rw [if_neg hne, List.drop_left]
    refine ⟨joinPath p, rfl, ?_⟩
    by_cases htext : refusedText (joinPath p) = true
    · left
      unfold resolveSafe
      rw [if_neg (joinPath_ne_nil hp), if_neg (joinPath_ne_dot hp), htext]
      rfl
    · rw [Bool.not_eq_true] at htext
      cases hwalk : walkParts fs root.path (components (joinPath p)) with
      | error e =>
        obtain ⟨pre, name, post, hparts, -, hbad⟩ := walkParts_error.mp ⟨e, hwalk⟩
        rw [components_joinPath hp] at hparts
        have hproper := hp.2 name (by rw [hparts]; simp)
        rw [hproper.2.2.2.2] at hbad
        cases hbad
      | ok clear =>
        cases clear with
        | false =>
          exact .inl (resolveSafe_stopped (joinPath_ne_nil hp) (joinPath_ne_dot hp) htext hwalk)
        | true =>
          have hserved : resolveSafe links root (joinPath p) =
              .ok (some (root.path ++ components (joinPath p))) :=
            resolveSafe_served (joinPath_ne_nil hp) (joinPath_ne_dot hp) htext hwalk
          rw [components_joinPath hp] at hserved
          exact .inr hserved

theorem At.next (h : At root entry) {q : Path} (hq : q ∈ nextEntries links root entry) :
    At root q := by
  obtain ⟨name, hname, rfl⟩ := List.mem_map.mp hq
  obtain ⟨p, rfl, hp⟩ := h
  have hproper : ProperName name := by
    unfold listed at hname
    split at hname
    · cases hname
    · split at hname
      · split at hname
        · exact (mem_childNames.mp hname).1
        · cases hname
      · cases hname
  refine ⟨p ++ [name], List.append_assoc _ _ _, .inr ⟨by simp, fun n hn => ?_⟩⟩
  rcases List.mem_append.mp hn with hn | hn
  · rcases hp with rfl | hp
    · cases hn
    · exact hp.2 n hn
  · rw [List.mem_singleton.mp hn]
    exact hproper

/-- What `read` makes of what stands at a path. -/
def readEntry (lower : Text → Text) (n : Nat) (entry : Path) (opens : Bool) :
    Posix.Entry → Option ReadResult
  | .missing | .link _ => some (.failed .notFound)
  | .denied => none
  | .file content hardLinks =>
    if isSensitivePath lower entry ∨ 1 < hardLinks then some (.failed .sensitiveDenied)
    else if ¬ opens then some (.failed .ioError)
    else some (.ok (content.extract 0 n) (n < content.size))
  | .dir | .special => some (.failed .notFile)

theorem read_at (lower : Text → Text) (n : Nat)
    (hres : resolveSafe links root rel = .ok (some entry)) :
    FileGates.read lower n links root rel =
      readEntry lower n entry (fs.opens entry) (fs.stat entry) := by
  unfold FileGates.read
  rw [hres]
  dsimp only
  cases fs.stat entry <;> rfl

/-- What a search does about an entry. -/
def Does (lower : Text → Text) (limits : SearchLimits) (links : Nat) (root : Root fs)
    (pattern : Text) (st : Search) (entry : Path) : Visit → Prop
  | .next st' children => children = nextEntries links root entry ∧ Sized limits st' ∧
      st'.found = st.found ++ hits lower limits links root pattern entry ∧
      (st'.reason = none → st.reason = none ∧ Whole lower limits links root entry)
  | .stop st' => Bounded limits st' ∧ st'.reason ≠ none ∧
      st'.found <+: st.found ++ hits lower limits links root pattern entry
  | .raised => False

/-- An entry of which `read` gives nothing. -/
theorem hits_nil (pattern : Text) (hrel : relativeTo root.path entry = some rel)
    (hread : ∀ data t, FileGates.read lower limits.maxSearchFileBytes links root rel ≠
      some (.ok data t)) :
    hits lower limits links root pattern entry = [] ∧ Whole lower limits links root entry := by
  unfold hits Whole
  rw [hrel]
  refine ⟨?_, fun rel' data hrel' => ?_⟩
  · dsimp only
    split
    · rename_i data t heq
      exact absurd heq (hread data t)
    · rfl
  · cases hrel'
    exact hread data true

/-- An entry of a directory that is not gone into, or no entry to read. -/
theorem does_nothing (pattern : Text) (hrel : relativeTo root.path entry = some rel)
    (h : Sized limits st)
    (hread : ∀ data t, FileGates.read lower limits.maxSearchFileBytes links root rel ≠
      some (.ok data t))
    (hlisted : listed links root entry = []) :
    Does lower limits links root pattern st entry (.next st []) := by
  obtain ⟨hnone, hwhole⟩ := hits_nil pattern hrel hread
  unfold Does nextEntries
  rw [hlisted, hnone]
  exact ⟨rfl, h, (List.append_nil _).symm, fun hr => ⟨hr, hwhole⟩⟩

/-- A file of the search: its matches are found, as far as there is room. -/
theorem visit_file {content : ByteArray} {hardLinks : Nat} (h : Sized limits st)
    (hrel : relativeTo root.path entry = some rel)
    (hres : resolveSafe links root rel = .ok (some entry))
    (hstat : fs.stat entry = .file content hardLinks) :
    Does lower limits links root pattern st entry
      (visit lower limits links root pattern st entry) := by
  have hlisted : listed links root entry = [] := by
    unfold listed
    rw [hrel]
    dsimp only
    rw [hres]
    dsimp only
    rw [hstat, if_neg (by simp)]
  have hread := read_at lower limits.maxSearchFileBytes hres
  rw [hstat, readEntry] at hread
  unfold visit
  rw [hrel]
  dsimp only
  rw [hres]
  dsimp only
  rw [hstat]
  dsimp only
  split
  · rename_i hdenied
    rw [if_pos hdenied] at hread
    exact does_nothing pattern hrel h (by rw [hread]; simp) hlisted
  · rename_i hdenied
    rw [if_neg hdenied] at hread
    split
    · obtain ⟨hbounded, hreason⟩ := limited_bounded h.bounded .fileLimit
      exact ⟨hbounded, hreason, List.prefix_append _ _⟩
    · rename_i hroom
      have hopened : Sized limits { st with files := st.files + 1 } :=
        ⟨h.total, h.results, Nat.lt_of_not_le hroom, h.directories⟩
      split
      · rename_i hopens
        rw [if_neg (by simpa using hopens)] at hread
        have hhits : hits lower limits links root pattern entry = matchesFrom pattern rel 1
            (textLines (content.extract 0 limits.maxSearchFileBytes)) := by
          unfold hits
          rw [hrel]
          dsimp only
          rw [hread]
        have hlimited : Sized limits (if limits.maxSearchFileBytes < content.size then
            { st with files := st.files + 1 }.limited .fileByteLimit
            else { st with files := st.files + 1 }) := by
          split
          · exact ⟨hopened.total, hopened.results, hopened.files, hopened.directories⟩
          · exact hopened
        have hfound : (if limits.maxSearchFileBytes < content.size then
            { st with files := st.files + 1 }.limited .fileByteLimit
            else { st with files := st.files + 1 }).found = st.found := by
          split <;> rfl
        have hreason : (if limits.maxSearchFileBytes < content.size then
            { st with files := st.files + 1 }.limited .fileByteLimit
            else { st with files := st.files + 1 }).reason = none →
            st.reason = none ∧ Whole lower limits links root entry := by
          intro hnone
          split at hnone
          · exact absurd hnone (limited_bounded hopened.bounded .fileByteLimit).2
          · rename_i hsmall
            refine ⟨hnone, fun rel' data hrel' => ?_⟩
            cases hrel.symm.trans hrel'
            rw [hread]
            simp [hsmall]
        generalize (if limits.maxSearchFileBytes < content.size then
            { st with files := st.files + 1 }.limited .fileByteLimit
            else { st with files := st.files + 1 }) = st₁ at hlimited hfound hreason ⊢
        rcases matchLines_cases pattern rel 1 (textLines
            (content.extract 0 limits.maxSearchFileBytes)) hlimited with
          ⟨st', hgo, hst', hfound', hreason'⟩ | ⟨st', hstop, hst', hreason', hfound'⟩
        · rw [hgo]
          refine ⟨?_, hst', ?_, fun hr => hreason (hreason' ▸ hr)⟩
          · unfold nextEntries
            rw [hlisted]
            rfl
          · rw [hfound', hfound, hhits]
        · rw [hstop]
          refine ⟨hst', hreason', ?_⟩
          rw [hhits, ← hfound]
          exact hfound'
      · rename_i hopens
        rw [if_pos (by simpa using hopens)] at hread
        obtain ⟨hnone, hwhole⟩ := hits_nil pattern hrel (by rw [hread]; simp)
        unfold Does nextEntries
        rw [hlisted, hnone]
        exact ⟨rfl, hopened, (List.append_nil _).symm, fun hr => ⟨hr, hwhole⟩⟩

/-- What becomes of an entry: its hits are found and the names in it come next, or the
search is over with some of them. -/
theorem visit_does (lower : Text → Text) (links : Nat) (pattern : Text)
    (hat : At root entry) (h : Sized limits st) :
    Does lower limits links root pattern st entry
      (visit lower limits links root pattern st entry) := by
  obtain ⟨rel, hrel, hres | hres⟩ := hat.resolve links
  · have hread : FileGates.read lower limits.maxSearchFileBytes links root rel =
        some (.failed .unsafePath) := by
      unfold FileGates.read
      rw [hres]
    have hlisted : listed links root entry = [] := by
      unfold listed
      rw [hrel]
      dsimp only
      rw [hres]
    unfold visit
    rw [hrel]
    dsimp only
    rw [hres]
    exact does_nothing pattern hrel h (by rw [hread]; simp) hlisted
  · have hread := read_at lower limits.maxSearchFileBytes hres
    have hlisted (hdir : ¬ (fs.stat entry = .dir ∧ fs.opens entry = true)) :
        listed links root entry = [] := by
      unfold listed
      rw [hrel]
      dsimp only
      rw [hres]
      exact if_neg hdir
    cases hstat : fs.stat entry with
    | file content hardLinks => exact visit_file h hrel hres hstat
    | dir =>
      rw [hstat, readEntry] at hread
      obtain ⟨hnone, hwhole⟩ := hits_nil pattern hrel (by rw [hread]; simp)
      unfold visit
      rw [hrel]
      dsimp only
      rw [hres]
      dsimp only
      rw [hstat]
      dsimp only
      split
      · obtain ⟨hbounded, hreason⟩ := limited_bounded h.bounded .directoryLimit
        exact ⟨hbounded, hreason, List.prefix_append _ _⟩
      · rename_i hroom
        refine ⟨?_, ⟨h.total, h.results, h.files, Nat.lt_of_not_le hroom⟩, ?_,
          fun hr => ⟨hr, hwhole⟩⟩
        · unfold nextEntries listed
          rw [hrel]
          dsimp only
          rw [hres]
          dsimp only
          by_cases hopens : fs.opens entry = true
          · rw [if_pos hopens, if_pos ⟨hstat, hopens⟩]
          · rw [if_neg hopens, if_neg fun hboth => hopens hboth.2]
            rfl
        · rw [hnone, List.append_nil]
    | missing | denied | link target | special =>
      rw [hstat, readEntry] at hread
      have hnothing := does_nothing pattern hrel h (by rw [hread]; simp) (hlisted (by simp [hstat]))
      unfold visit
      rw [hrel]
      dsimp only
      rw [hres]
      dsimp only
      rw [hstat]
      exact hnothing

/-- The loop goes through the entries of a walk, and ends. -/
theorem searchLoop_visits (lower : Text → Text) (pattern : Text) {stack : List Path}
    (hat : ∀ p ∈ stack, At root p)
    (h : Sized limits st) : ∃ out seen rest,
      searchLoop lower limits links root pattern st stack = some out ∧
      Visits (nextEntries links root) stack seen rest ∧ Bounded limits out ∧
      out.found <+: st.found ++ seen.flatMap (hits lower limits links root pattern) ∧
      (out.reason = none → st.reason = none ∧ rest = [] ∧
        out.found = st.found ++ seen.flatMap (hits lower limits links root pattern) ∧
        ∀ p ∈ seen, Whole lower limits links root p) := by
  induction st, stack using searchLoop.induct lower limits links root pattern with
  | case1 st =>
    refine ⟨st, [], [], by rw [searchLoop], .done, h.bounded, List.prefix_append _ _, fun hr => ?_⟩
    exact ⟨hr, rfl, (List.append_nil _).symm, fun p hp => by cases hp⟩
  | case2 st entry stack st' children hvisit ih =>
    have hdoes := visit_does lower links pattern
      (hat entry List.mem_cons_self) h
    rw [hvisit] at hdoes
    obtain ⟨rfl, hsized, hfound, hreason⟩ := hdoes
    have hnext : ∀ p ∈ nextEntries links root entry ++ stack, At root p := by
      intro p hp
      rcases List.mem_append.mp hp with hp | hp
      · exact (hat entry List.mem_cons_self).next hp
      · exact hat p (List.mem_cons_of_mem _ hp)
    obtain ⟨out, seen, rest, hout, hvisits, hbounded, hstarts, hall⟩ := ih hnext hsized
    rw [hfound, List.append_assoc] at hstarts hall
    refine ⟨out, entry :: seen, rest, ?_, .visit hvisits, hbounded, hstarts, fun hr => ?_⟩
    · rw [searchLoop, hvisit]
      exact hout
    · obtain ⟨hnone, hrest, hfull, hwhole⟩ := hall hr
      obtain ⟨hstart, hentry⟩ := hreason hnone
      exact ⟨hstart, hrest, hfull, List.forall_mem_cons.mpr ⟨hentry, hwhole⟩⟩
  | case3 st entry stack st' hvisit =>
    have hdoes := visit_does lower links pattern
      (hat entry List.mem_cons_self) h
    rw [hvisit] at hdoes
    obtain ⟨hbounded, hreason, hfound⟩ := hdoes
    refine ⟨st', [entry], _, ?_, .visit .done, hbounded, ?_, fun hr => absurd hr hreason⟩
    · rw [searchLoop, hvisit]
    · rw [List.flatMap_singleton]
      exact hfound
  | case4 st entry stack hvisit =>
    have hdoes := visit_does lower links pattern
      (hat entry List.mem_cons_self) h
    rw [hvisit] at hdoes
    exact hdoes.elim

/-! ## From a path -/

theorem mem_splitOnP {α : Type} {p : α → Bool} {xs part : List α} (h : part ∈ xs.splitOnP p) :
    ∀ x ∈ part, p x = false := by
  induction xs generalizing part with
  | nil =>
    rw [List.splitOnP_nil, List.mem_singleton] at h
    rw [h]
    exact List.forall_mem_nil _
  | cons y ys ih =>
    rw [List.splitOnP_cons_eq_if_modifyHead] at h
    split at h
    · rcases List.mem_cons.mp h with rfl | h
      · exact List.forall_mem_nil _
      · exact ih h
    · rename_i hy
      cases hparts : ys.splitOnP p with
      | nil =>
        rw [hparts] at h
        cases h
      | cons first rest =>
        rw [hparts] at ih h
        rcases List.mem_cons.mp h with rfl | h
        · exact List.forall_mem_cons.mpr
            ⟨by simpa using hy, ih List.mem_cons_self⟩
        · exact ih (List.mem_cons_of_mem _ h)

/-- What a text is resolved to is an entry a search may come to. -/
theorem At.of_resolved {path : Text} (h : resolveSafe links root path = .ok (some entry)) :
    At root entry := by
  by_cases hne : path = []
  · rw [hne] at h
    cases h
  by_cases hdot : path = dot
  · unfold resolveSafe at h
    rw [if_neg hne, if_pos hdot] at h
    cases h
    exact ⟨[], (List.append_nil _).symm, .inl rfl⟩
  cases htext : refusedText path with
  | true =>
    unfold resolveSafe at h
    rw [if_neg hne, if_neg hdot, htext] at h
    cases h
  | false =>
    cases hwalk : walkParts fs root.path (components path) with
    | error e =>
      rw [resolveSafe_error hne hdot htext hwalk] at h
      cases h
    | ok clear =>
      cases clear with
      | false =>
        rw [resolveSafe_stopped hne hdot htext hwalk] at h
        cases h
      | true =>
        rw [resolveSafe_served hne hdot htext hwalk] at h
        cases h
        refine ⟨components path, rfl, ?_⟩
        by_cases hnil : components path = []
        · exact .inl hnil
        refine .inr ⟨hnil, fun name hname => ?_⟩
        have hkept := hname
        unfold components at hkept
        obtain ⟨hpart, hproper⟩ := List.mem_filter.mp hkept
        have hslash := mem_splitOnP hpart
        obtain ⟨pre, post, hsplit⟩ := List.append_of_mem hname
        have hencodable := (clear_iff.mp (walkParts_true.mp hwalk) pre name
          ⟨post, by rw [hsplit]; simp⟩).1
        obtain ⟨hne', hdot'⟩ := of_decide_eq_true hproper
        refine ⟨hne', hdot', fun heq => refusedText_dots htext (heq ▸ hname), fun hin => ?_,
          hencodable⟩
        simpa using hslash slash hin

/-- The order of the entries of a directory. -/
def NameLt (s t : Text) : Prop := TextLe s t ∧ s ≠ t

theorem childNames_ordered (fs : FileSystem) (p : Path) :
    (childNames fs [] p).Pairwise NameLt := by
  have hnodup : (childNames fs [] p).Nodup :=
    (List.perm_insertionSort _ _).nodup_iff.mpr (fs.nodup_scandir _)
  exact List.Pairwise.and (List.pairwise_insertionSort _ _) hnodup

theorem listed_ordered (entry : Path) : (listed links root entry).Pairwise NameLt := by
  unfold listed
  split
  · exact .nil
  · split
    · split
      · exact childNames_ordered fs _
      · exact .nil
    · exact .nil

/-- A search is a walk from the entry its path is resolved to. -/
theorem search_walk {path : Text} {found : List Match} {reason : Option Reason} {total : Nat}
    (h : search lower limits links root pattern path = some (.ok found reason total)) :
    ∃ start seen rest, resolveSafe links root path = .ok (some start) ∧
      Visits (nextEntries links root) [start] seen rest ∧
      found.length ≤ limits.maxSearchResults ∧
      (found.length ≤ total ∧ total ≤ limits.maxSearchResults + 1) ∧
      found <+: seen.flatMap (hits lower limits links root pattern) ∧
      (reason = none → rest = [] ∧
        found = seen.flatMap (hits lower limits links root pattern) ∧
        ∀ p ∈ seen, Whole lower limits links root p) := by
  unfold search at h
  split at h
  · cases h
  · cases h
  · rename_i start hstart
    have hempty : Sized limits {} := ⟨rfl, Nat.zero_le _, Nat.zero_le _, Nat.zero_le _⟩
    have hat : ∀ p ∈ [start], At root p := List.forall_mem_singleton.mpr (At.of_resolved hstart)
    obtain ⟨out, seen, rest, hout, hvisits, hbounded, hstarts, hall⟩ :=
      searchLoop_visits lower pattern hat hempty
    split at h
    · cases h
    · cases h
    · cases h
    · rw [hout] at h
      simp only [Option.bind_eq_bind, Option.bind_some] at h
      split at h
      · cases h
        refine ⟨start, seen, rest, hstart, hvisits, hbounded.found, hbounded.total, hstarts,
          fun hr => ?_⟩
        obtain ⟨-, hrest, hfull, hwhole⟩ := hall hr
        exact ⟨hrest, hfull, hwhole⟩
      · cases h

/-- A text is read as it was written. -/
theorem decodeReplace_bytes (cs : List Char) :
    decodeReplace (Utf8Stream.bytes cs) = cs.map .scalar := by
  induction cs with
  | nil =>
    rw [Utf8Stream.bytes_nil, decodeReplace]
    rfl
  | cons c cs ih =>
    have hlength : (String.utf8EncodeChar c).length = c.utf8Size := String.length_utf8EncodeChar c
    obtain ⟨b, bs, hbs⟩ : ∃ b bs, String.utf8EncodeChar c = b :: bs :=
      List.exists_cons_of_length_pos (by rw [hlength]; exact Char.utf8Size_pos c)
    have hchar : (b :: (bs ++ Utf8Stream.bytes cs)).toByteArray.utf8DecodeChar? 0 = some c := by
      rw [← List.cons_append, ← hbs]
      exact Utf8Stream.decodeChar_append
    have hrest : bs.length = c.utf8Size - 1 := by
      rw [hbs, List.length_cons] at hlength
      omega
    rw [Utf8Stream.bytes_cons, hbs, List.cons_append, decodeReplace, hchar]
    dsimp only
    rw [List.drop_left' hrest, ih]
    rfl

/-- A workspace with one file. -/
def hitFile : FileSystem := .ofEntries
  [([text "w"], .dir), ([text "w", text "a"], .file (Utf8Stream.bytes "hit".toList).toByteArray 1)]

def hitRoot : Root hitFile where
  path := [text "w"]
  resolved := by
    refine ⟨?_, by decide⟩
    intro q hq
    rcases List.prefix_cons_iff.mp hq with rfl | ⟨q', rfl, hq'⟩
    · rfl
    · rw [List.prefix_nil.mp hq']
      rfl

theorem hitFile_lines : textLines ((Utf8Stream.bytes "hit".toList).toByteArray.extract 0 1048576) =
    ["hit".toList] := by
  unfold textLines
  rw [show ((Utf8Stream.bytes "hit".toList).toByteArray.extract 0 1048576).data.toList =
    Utf8Stream.bytes "hit".toList by decide +kernel, decodeReplace_bytes]
  rfl

theorem search_hitFile : search id {} 0 hitRoot (text "hit") dot =
    some (.ok [{ path := text "a", line := 1, text := "hit".toList }] none 1) := by
  have hroot : visit id {} 0 hitRoot (text "hit") {} [text "w"] =
      .next { directories := 1 } [[text "w", text "a"]] := rfl
  have hfile : visit id {} 0 hitRoot (text "hit") { directories := 1 } [text "w", text "a"] =
      .next { found := [{ path := text "a", line := 1, text := "hit".toList }], total := 1
              files := 1, directories := 1 } [] := by
    unfold visit
    rw [show relativeTo hitRoot.path [text "w", text "a"] = some (text "a") from rfl]
    dsimp only
    rw [show resolveSafe 0 hitRoot (text "a") = .ok (some [text "w", text "a"]) from rfl]
    dsimp only
    rw [show hitFile.stat [text "w", text "a"] =
      .file (Utf8Stream.bytes "hit".toList).toByteArray 1 from rfl]
    dsimp only
    rw [if_neg (by decide +kernel), if_neg (by decide),
      if_pos (show hitFile.opens [text "w", text "a"] = true from rfl), if_neg (by decide +kernel),
      hitFile_lines]
    rfl
  unfold search
  rw [show resolveSafe 0 hitRoot dot = .ok (some [text "w"]) from rfl]
  dsimp only
  rw [show hitFile.stat [text "w"] = .dir from rfl]
  dsimp only
  rw [searchLoop, hroot]
  dsimp only
  rw [List.append_nil, searchLoop, hfile]
  dsimp only
  rw [List.append_nil, searchLoop]
  rfl

theorem joinPath_append {p q : Path} (hp : p ≠ []) (hq : q ≠ []) :
    joinPath (p ++ q) = joinPath p ++ slash :: joinPath q := by
  unfold joinPath
  induction p with
  | nil => exact absurd rfl hp
  | cons n p ih =>
    cases p with
    | nil =>
      cases q with
      | nil => exact absurd rfl hq
      | cons m q => simp [List.intercalate_cons_cons]
    | cons n' p =>
      rw [List.cons_append, List.cons_append, List.intercalate_cons_cons, ← List.cons_append,
        ih (by simp), List.intercalate_cons_cons]
      simp

/-- What is not refused is not refused further up. -/
theorem refusedText_above {p r : Path} (hp : ProperPath p) (hr : r <+: p) (hne : r ≠ [])
    (htext : refusedText (joinPath p) = false) : refusedText (joinPath r) = false := by
  have hproper : ProperPath r := ⟨hne, fun n hn => hp.2 n (hr.subset hn)⟩
  obtain ⟨t, rfl⟩ := hr
  have hjoin : joinPath r <+: joinPath (r ++ t) := by
    by_cases ht : t = []
    · rw [ht, List.append_nil]
    · rw [joinPath_append hne ht]
      exact List.prefix_append _ _
  obtain ⟨rest, hrest⟩ := hjoin
  unfold refusedText at htext ⊢
  rw [decide_eq_false_iff_not] at htext ⊢
  rw [components_joinPath hproper]
  rw [components_joinPath hp] at htext
  intro hbad
  refine htext ?_
  rw [← hrest]
  rcases hbad with habs | hcolon | hdots | hback
  · refine .inl ?_
    unfold isAbsolute at habs ⊢
    rw [List.head?_append_of_ne_nil _ (joinPath_ne_nil hproper)]
    exact habs
  · refine .inr (.inl ?_)
    obtain ⟨hlt, -⟩ := List.getElem?_eq_some_iff.mp hcolon
    rw [List.getElem?_append_left hlt]
    exact hcolon
  · exact .inr (.inr (.inl (hdots.imp (List.mem_append_left _) (List.mem_append_left _))))
  · exact .inr (.inr (.inr (List.mem_append_left _ hback)))

/-- What lies on the way to a path that is read is resolved to itself. -/
theorem resolve_prefix (links : Nat) {p r : Path} (hp : ProperPath p) (hr : r <+: p) (hne : r ≠ [])
    (htext : refusedText (joinPath p) = false) (hclear : Clear fs root.path p) :
    resolveSafe links root (joinPath r) = .ok (some (root.path ++ r)) ∧
      fs.stat (root.path ++ r) = fs.lstat (root.path ++ r) :=
  read_clear links ⟨hne, fun n hn => hp.2 n (hr.subset hn)⟩ (refusedText_above hp hr hne htext)
    (clear_iff.mpr fun q name hpre => clear_iff.mp hclear q name (hpre.trans hr))

theorem relativeTo_root (p : Path) : relativeTo root.path (root.path ++ p) =
    if p = [] then some dot else some (joinPath p) := by
  unfold relativeTo
  rw [if_pos (List.prefix_append _ _), List.drop_left]
  by_cases hp : p = []
  · rw [if_pos (by rw [hp, List.append_nil]), if_pos hp]
  · rw [if_neg (by simpa using hp), if_neg hp]

/-- The entries of a directory on the way to what is read come next. -/
theorem listed_of_read {p r : Path} {name : Text} (hp : ProperPath p)
    (hpre : r ++ [name] <+: p) (htext : refusedText (joinPath p) = false)
    (hclear : Clear fs root.path p) (hdir : fs.lstat (root.path ++ r) = .dir)
    (hopens : fs.opens (root.path ++ r) = true)
    (hfound : (fs.lstat (root.path ++ (r ++ [name]))).found = true) :
    name ∈ listed links root (root.path ++ r) := by
  have hname : name ∈ childNames fs [] (root.path ++ r) := by
    refine mem_childNames.mpr ⟨hp.2 name (hpre.subset (by simp)), ?_⟩
    rw [List.nil_append, List.append_assoc]
    exact hfound
  unfold listed
  rw [relativeTo_root]
  by_cases hr : r = []
  · subst hr
    rw [List.append_nil] at hdir hopens hname
    have hstat : fs.stat root.path = .dir :=
      (fs.stat_eq _ (root.resolved.1 _ List.prefix_rfl)).trans hdir
    have hroot : resolveSafe links root dot = .ok (some root.path) := by
      unfold resolveSafe
      rw [if_neg (by decide), if_pos rfl]
      rfl
    rw [if_pos rfl]
    dsimp only
    rw [hroot]
    dsimp only
    rwa [if_pos ⟨hstat, hopens⟩]
  · obtain ⟨hres, hstat⟩ := resolve_prefix links hp
      ((List.prefix_append r [name]).trans hpre) hr htext hclear
    rw [if_neg hr]
    dsimp only
    rw [hres]
    dsimp only
    rwa [if_pos ⟨hstat.trans hdir, hopens⟩]

/-- **What a search misses.** Nothing, if it is not marked truncated: below the entry it
starts from, where one can list the directories on the way, each line with the pattern in
it of a file that `read` gives out is a match, and `read` gives out the whole file.
`restricted.py:517-595` -/
theorem search_complete (lower : Text → Text) (limits : SearchLimits) (links : Nat)
    (root : Root fs) (pattern path : Text) {found : List Match} {total : Nat} {start q : Path}
    (h : search lower limits links root pattern path = some (.ok found none total))
    (hstart : resolveSafe links root path = .ok (some start)) (hq : ∀ n ∈ q, ProperName n)
    (hdirs : ∀ r, r <+: q → r ≠ q →
      fs.lstat (start ++ r) = .dir ∧ fs.opens (start ++ r) = true)
    {rel : Text} (hrel : relativeTo root.path (start ++ q) = some rel) {data : ByteArray}
    {truncated : Bool} (hread : FileGates.read lower limits.maxSearchFileBytes links root rel =
      some (.ok data truncated)) :
    truncated = false ∧ ∀ (k : Nat) line, (textLines data)[k]? = some line →
      pattern <:+: line.map .scalar → matchAt rel line (k + 1) ∈ found := by
  obtain ⟨start', seen, rest, hstart', hvisits, -, -, -, hall⟩ := search_walk h
  cases hstart.symm.trans hstart'
  obtain ⟨rfl, rfl, hwhole⟩ := hall rfl
  obtain ⟨s, rfl, hs⟩ := At.of_resolved hstart
  have hbelow : Below (nextEntries links root) (root.path ++ s) (root.path ++ s ++ q) := by
    by_cases hnil : q = []
    · rw [hnil, List.append_nil]
      exact .refl _
    have hp : ProperPath (s ++ q) := by
      refine ⟨by simp [hnil], fun n hn => ?_⟩
      rcases List.mem_append.mp hn with hn | hn
      · rcases hs with rfl | hs
        · cases hn
        · exact hs.2 n hn
      · exact hq n hn
    rw [List.append_assoc, relativeTo_root, if_neg hp.1] at hrel
    cases hrel
    obtain ⟨hclear, htext, -, -, c, n, hfile, -⟩ := read_ok hp hread
    have hsteps (r : Path) (hr : r <+: q) :
        Below (nextEntries links root) (root.path ++ s) (root.path ++ s ++ r) := by
      induction r using List.reverseRecOn with
      | nil =>
        rw [List.append_nil]
        exact .refl _
      | append_singleton r name ih =>
        have hshort : r <+: q := (List.prefix_append r [name]).trans hr
        have hne : r ≠ q := by
          rintro rfl
          simpa using hr.length_le
        obtain ⟨hdir, hopens⟩ := hdirs r hshort hne
        have hthere : (fs.lstat (root.path ++ (s ++ r ++ [name]))).found = true := by
          by_cases hend : r ++ [name] = q
          · rw [List.append_assoc, hend, hfile]
            rfl
          · obtain ⟨hsub, -⟩ := hdirs (r ++ [name]) hr hend
            rw [List.append_assoc] at hsub
            rw [List.append_assoc, hsub]
            rfl
        rw [List.append_assoc] at hdir hopens
        have hlisted : name ∈ listed links root (root.path ++ (s ++ r)) := by
          refine listed_of_read hp ?_ htext hclear hdir hopens hthere
          rw [List.append_assoc]
          exact (List.prefix_append_right_inj s).mpr hr
        refine (ih hshort).trans (.step ?_ (.refl _))
        rw [← List.append_assoc (root.path ++ s), List.append_assoc root.path]
        exact List.mem_map_of_mem hlisted
    exact hsteps q List.prefix_rfl
  have hseen : root.path ++ s ++ q ∈ seen :=
    hvisits.complete (List.mem_singleton.mpr rfl) hbelow
  refine ⟨?_, fun k line hline hpattern => ?_⟩
  · cases truncated with
    | false => rfl
    | true => exact absurd hread (hwhole _ hseen rel data hrel)
  · refine List.mem_flatMap.mpr ⟨_, hseen, ?_⟩
    unfold hits
    rw [hrel]
    dsimp only
    rw [hread]
    exact mem_matchesFrom.mpr ⟨k, line, hline, decide_eq_true hpattern, by rw [Nat.add_comm]⟩

theorem search_complete_hitFile :
    matchAt (text "a") "hit".toList 1 ∈
      [({ path := text "a", line := 1, text := "hit".toList } : Match)] := by
  have hread : FileGates.read id 1048576 0 hitRoot (text "a") =
      some (.ok ((Utf8Stream.bytes "hit".toList).toByteArray.extract 0 1048576) false) := by
    unfold FileGates.read
    rw [show resolveSafe 0 hitRoot (text "a") = .ok (some [text "w", text "a"]) from rfl]
    dsimp only
    rw [show hitFile.stat [text "w", text "a"] =
      .file (Utf8Stream.bytes "hit".toList).toByteArray 1 from rfl]
    dsimp only
    rw [if_neg (by decide +kernel), if_neg (by decide)]
    rfl
  have hdirs : ∀ r, r <+: [text "a"] → r ≠ [text "a"] →
      hitFile.lstat ([text "w"] ++ r) = .dir ∧ hitFile.opens ([text "w"] ++ r) = true := by
    intro r hr hne
    rcases List.prefix_cons_iff.mp hr with rfl | ⟨r', rfl, hr'⟩
    · exact ⟨rfl, rfl⟩
    · rw [List.prefix_nil.mp hr'] at hne
      exact absurd rfl hne
  exact (search_complete id {} 0 hitRoot (text "hit") dot search_hitFile rfl
    (List.forall_mem_singleton.mpr (by decide)) hdirs rfl hread).2 0 _
    (by rw [hitFile_lines]; rfl) List.infix_rfl

end

/-! ## One tree -/

section

variable {A B : FileSystem} {rootA : Root A} {rootB : Root B}

/-- Two file systems show the same, whatever the order of their entries. -/
structure Alike (A B : FileSystem) : Prop where
  lstat : A.lstat = B.lstat
  stat : A.stat = B.stat
  opens : A.opens = B.opens

theorem Alike.scandir (h : Alike A B) (p : Path) : (A.scandir p).Perm (B.scandir p) := by
  refine (List.perm_ext_iff_of_nodup (A.nodup_scandir p) (B.nodup_scandir p)).mpr fun name => ?_
  rw [A.mem_scandir, B.mem_scandir, h.lstat]

theorem Alike.names (h : Alike A B) (p : Path) : childNames A [] p = childNames B [] p := by
  refine List.Perm.eq_of_pairwise ?_ (List.pairwise_insertionSort _ _)
    (List.pairwise_insertionSort _ _) ?_
  · intro s t _ _ hst hts
    exact TextLe.antisymm hst hts
  · exact (List.perm_insertionSort _ _).trans
      ((h.scandir p).trans (List.perm_insertionSort _ _).symm)

theorem Alike.walkParts (h : Alike A B) (p : Path) (parts : List Text) :
    walkParts A p parts = walkParts B p parts := by
  induction parts generalizing p with
  | nil => rfl
  | cons part parts ih =>
    unfold Workspace.walkParts isReparsePoint
    rw [h.lstat, ih]

theorem Alike.resolveSafe (h : Alike A B) (hroot : rootA.path = rootB.path) (links : Nat)
    (rel : Text) : resolveSafe links rootA rel = resolveSafe links rootB rel := by
  unfold Workspace.resolveSafe
  rw [hroot, h.lstat]
  simp only [h.walkParts]

theorem Alike.visit (h : Alike A B) (hroot : rootA.path = rootB.path) (lower : Text → Text)
    (limits : SearchLimits) (links : Nat) (pattern : Text) (st : Search) (entry : Path) :
    visit lower limits links rootA pattern st entry =
      visit lower limits links rootB pattern st entry := by
  unfold WorkspaceReads.visit
  rw [hroot, h.stat, h.opens]
  simp only [h.resolveSafe hroot, h.names]

theorem Alike.searchLoop (h : Alike A B) (hroot : rootA.path = rootB.path) (lower : Text → Text)
    (limits : SearchLimits) (links : Nat) (pattern : Text) (st : Search) (stack : List Path) :
    searchLoop lower limits links rootA pattern st stack =
      searchLoop lower limits links rootB pattern st stack := by
  induction st, stack using searchLoop.induct lower limits links rootA pattern with
  | case1 st => rw [WorkspaceReads.searchLoop, WorkspaceReads.searchLoop]
  | case2 st entry stack st' children hvisit ih =>
    rw [WorkspaceReads.searchLoop, hvisit, WorkspaceReads.searchLoop, ← h.visit hroot, hvisit]
    exact ih
  | case3 st entry stack st' hvisit =>
    rw [WorkspaceReads.searchLoop, hvisit, WorkspaceReads.searchLoop, ← h.visit hroot, hvisit]
  | case4 st entry stack hvisit =>
    rw [WorkspaceReads.searchLoop, hvisit, WorkspaceReads.searchLoop, ← h.visit hroot, hvisit]

theorem Alike.list (h : Alike A B) (hroot : rootA.path = rootB.path) (maxListEntries links : Nat)
    (path : Text) :
    list maxListEntries links rootA path = list maxListEntries links rootB path := by
  unfold WorkspaceReads.list
  rw [h.resolveSafe hroot, h.stat, h.opens]
  simp only [h.names, (h.scandir _).length_eq]

/-- **One tree.** A listing and a search tell nothing of the order in which the system
gives the entries of a directory. `restricted.py:471-595` -/
theorem same_tree (h : Alike A B) (hroot : rootA.path = rootB.path) (maxListEntries : Nat)
    (lower : Text → Text) (limits : SearchLimits) (links : Nat) (pattern path : Text) :
    list maxListEntries links rootA path = list maxListEntries links rootB path ∧
      search lower limits links rootA pattern path =
        search lower limits links rootB pattern path := by
  refine ⟨h.list hroot _ _ _, ?_⟩
  unfold search
  rw [h.resolveSafe hroot, h.stat]
  simp only [h.searchLoop hroot]

end

/-- Two files, listed either way. -/
def twoFiles (first second : Text) : FileSystem := .ofEntries
  [([text "w"], .dir), ([text "w", first], .file .empty 1), ([text "w", second], .file .empty 1)]

def twoRoot (first second : Text) : Root (twoFiles first second) where
  path := [text "w"]
  resolved := by
    refine ⟨?_, by decide⟩
    intro q hq
    rcases List.prefix_cons_iff.mp hq with rfl | ⟨q', rfl, hq'⟩
    · rfl
    · rw [List.prefix_nil.mp hq']
      rfl

theorem twoFiles_alike (first second : Text) :
    Alike (twoFiles first second) (twoFiles second first) := by
  have hlookup : lookupEntry
        [([text "w"], .dir), ([text "w", first], .file .empty 1),
          ([text "w", second], .file .empty 1)] =
      lookupEntry
        [([text "w"], .dir), ([text "w", second], .file .empty 1),
          ([text "w", first], .file .empty 1)] := by
    funext p
    unfold lookupEntry
    simp only [List.lookup_cons, List.lookup_nil]
    cases p == [text "w"] <;> cases p == [text "w", first] <;> cases p == [text "w", second] <;> rfl
  refine ⟨hlookup, ?_, rfl⟩
  funext p
  unfold twoFiles FileSystem.ofEntries
  dsimp only
  rw [hlookup]
  rfl

theorem same_tree_twoFiles :
    list 1 0 (twoRoot (text "a") (text "b")) dot = list 1 0 (twoRoot (text "b") (text "a")) dot :=
  (same_tree (twoFiles_alike (text "a") (text "b")) rfl 1 id {} 0 (text "x") dot).1

end WorkspaceReads

end Northstack
