import Northstack.Adapters.Lease
import Northstack.Core.Substrings
import Northstack.Core.TextFiles

/-!
# Edits of a workspace file

Mirrors `replace`, `patch` and `_atomic_write` of adapters/workspace/restricted.py
and `atomic_write_bytes` of adapters/atomic_io.py. What the operating system
answers is part of the call: what the path leads to, and which step of a write
fails. Nothing else touches the file meanwhile.

**Results.** `prepare_ok`: what a call has passed when it comes to write, and
what it writes; `atomicWrite_existing`: how the write of a file that must be
there ends; `edit_refused`, `edit_raised`, `edit_wrote`: an edit is one of these
three.
-/
namespace Northstack

namespace Workspace

open TextFiles Substrings

/-- `ToolResult` (restricted.py:91-128), the fields an edit sets. -/
structure ToolResult where
  ok : Bool
  operation : String
  error : String := ""
  digestBefore : Option String := none
  digestAfter : Option String := none
  deriving DecidableEq

/-! ## The atomic write -/

/-- The steps of `atomic_write_bytes` that can raise an `OSError`, in order. -/
inductive WriteStep where
  | parent
  | stat
  | mkstemp
  | chmod
  | write
  | fsync
  | close
  | replace
  | syncDirectory
  deriving DecidableEq

/-- The target and the temporary file beside it. -/
structure Disk where
  target : Option ByteArray
  temp : Option ByteArray := none

/-- A step that succeeds. -/
def Disk.step (content : ByteArray) (d : Disk) : WriteStep → Disk
  | .mkstemp => { d with temp := some ByteArray.empty }
  | .write => { d with temp := some content }
  | .replace => { target := d.temp, temp := none }
  | _ => d

/-- The steps in turn, up to the first that fails. -/
def runSteps (fails : WriteStep → Option String) (content : ByteArray) :
    List WriteStep → Disk → Disk × Option String
  | [], d => (d, none)
  | s :: ss, d =>
    match fails s with
    | some error => (d, some error)
    | none => runSteps fails content ss (d.step content s)

/-- The steps before `os.replace`; the mode is copied from a target that exists. -/
def stepsBefore (d : Disk) : List WriteStep :=
  [.parent, .stat, .mkstemp] ++ (if d.target.isSome then [.chmod] else []) ++
    [.write, .fsync, .close]

/-- `atomic_write_bytes` (atomic_io.py:32-62) with `create_parents=False`: the
disk after it, the temporary file unlinked, and the `OSError` it raises. -/
def atomicWriteBytes (fails : WriteStep → Option String) (content : ByteArray) (d : Disk) :
    Disk × Option String :=
  let r := runSteps fails content (stepsBefore d ++ [.replace, .syncDirectory]) d
  ({ r.1 with temp := none }, r.2)

section AtomicWrite

variable {fails : WriteStep → Option String} {content bytes : ByteArray} {d : Disk}
  {ss ts : List WriteStep}

theorem runSteps_append : runSteps fails content (ss ++ ts) d =
    match runSteps fails content ss d with
    | (d', some error) => (d', some error)
    | (d', none) => runSteps fails content ts d' := by
  induction ss generalizing d with
  | nil => rfl
  | cons s ss ih =>
    simp only [List.cons_append, runSteps]
    cases fails s with
    | some error => rfl
    | none => exact ih

theorem runSteps_ok (h : ∀ s ∈ ss, fails s = none) :
    runSteps fails content ss d = (ss.foldl (Disk.step content) d, none) := by
  induction ss generalizing d with
  | nil => rfl
  | cons s ss ih =>
    rw [runSteps, h s List.mem_cons_self]
    exact ih fun t ht => h t (List.mem_cons_of_mem _ ht)

/-- Only `os.replace` touches the target. -/
theorem runSteps_target (h : .replace ∉ ss) :
    (runSteps fails content ss d).1.target = d.target := by
  induction ss generalizing d with
  | nil => rfl
  | cons s ss ih =>
    rw [List.mem_cons, not_or] at h
    unfold runSteps
    cases fails s with
    | some error => rfl
    | none =>
      simp only
      rw [ih h.2]
      cases s with
      | replace => exact absurd rfl h.1
      | _ => rfl

theorem runSteps_failed (content : ByteArray) (d : Disk) (h : ¬ ∀ s ∈ ss, fails s = none) :
    ∃ error, (runSteps fails content ss d).2 = some error := by
  induction ss generalizing d with
  | nil => exact absurd (fun _ hs => nomatch hs) h
  | cons s ss ih =>
    unfold runSteps
    cases hs : fails s with
    | some error => exact ⟨error, rfl⟩
    | none =>
      apply ih
      intro hall
      apply h
      intro t ht
      rcases List.mem_cons.mp ht with rfl | ht
      · exact hs
      · exact hall t ht

/-- Every step up to and with `os.replace` succeeds. -/
def stepsThrough (fails : WriteStep → Option String) (d : Disk) : Bool :=
  (stepsBefore d ++ [WriteStep.replace]).all fun s => fails s = none

/-- Every step up to and with `os.replace` succeeds on a file that is there. -/
def stepsReplace (fails : WriteStep → Option String) : Bool :=
  [WriteStep.parent, .stat, .mkstemp, .chmod, .write, .fsync, .close, .replace].all
    fun s => fails s = none

theorem stepsThrough_existing (htarget : d.target = some bytes) :
    stepsThrough fails d = stepsReplace fails := by
  simp [stepsThrough, stepsReplace, stepsBefore, htarget]

theorem stepsThrough_iff : stepsThrough fails d = true ↔
    ∀ s ∈ stepsBefore d ++ [.replace], fails s = none := by
  unfold stepsThrough
  rw [List.all_eq_true]
  simp only [decide_eq_true_eq]

theorem replace_notMem_stepsBefore (d : Disk) : WriteStep.replace ∉ stepsBefore d := by
  unfold stepsBefore
  split <;> simp

theorem stepsBefore_done (content : ByteArray) (d : Disk) :
    (stepsBefore d).foldl (Disk.step content) d = ⟨d.target, some content⟩ := by
  unfold stepsBefore
  split <;> rfl

theorem stepsBefore_replace (d : Disk) : stepsBefore d ++ [.replace, .syncDirectory] =
    (stepsBefore d ++ [.replace]) ++ [.syncDirectory] := by simp

theorem atomicWriteBytes_through (content : ByteArray) (h : stepsThrough fails d = true) :
    atomicWriteBytes fails content d = (⟨some content, none⟩, fails .syncDirectory) := by
  unfold atomicWriteBytes
  rw [stepsBefore_replace, runSteps_append, runSteps_ok (stepsThrough_iff.mp h), List.foldl_append,
    stepsBefore_done]
  simp only [runSteps]
  cases fails .syncDirectory <;> rfl

theorem atomicWriteBytes_short (content : ByteArray) (h : stepsThrough fails d = false) :
    ∃ error, atomicWriteBytes fails content d = (⟨d.target, none⟩, some error) := by
  have hsteps : ¬ ∀ s ∈ stepsBefore d ++ [.replace], fails s = none := by
    rw [← stepsThrough_iff, h]
    exact Bool.false_ne_true
  obtain ⟨error, herror⟩ := runSteps_failed content d hsteps
  have hkept : (runSteps fails content (stepsBefore d ++ [.replace]) d).1.target = d.target := by
    have hbefore : (runSteps fails content (stepsBefore d) d).1.target = d.target :=
      runSteps_target (replace_notMem_stepsBefore d)
    rw [runSteps_append] at herror ⊢
    cases hrun : runSteps fails content (stepsBefore d) d with
    | mk d' failed =>
      rw [hrun] at hbefore herror
      cases failed with
      | some e => exact hbefore
      | none =>
        simp only [runSteps] at herror ⊢
        cases hreplace : fails .replace with
        | some e => exact hbefore
        | none => simp [hreplace] at herror
  refine ⟨error, ?_⟩
  unfold atomicWriteBytes
  rw [stepsBefore_replace, runSteps_append]
  cases hrun : runSteps fails content (stepsBefore d ++ [.replace]) d with
  | mk d' failed =>
    rw [hrun] at hkept herror
    simp only at hkept herror
    rw [herror]
    simp [hkept]

theorem atomicWriteBytes_replaced (content : ByteArray) (htarget : d.target = some bytes)
    (h : stepsReplace fails = true) :
    atomicWriteBytes fails content d = (⟨some content, none⟩, fails .syncDirectory) :=
  atomicWriteBytes_through content ((stepsThrough_existing htarget).trans h)

theorem atomicWriteBytes_kept (content : ByteArray) (htarget : d.target = some bytes)
    (h : stepsReplace fails = false) :
    ∃ error, atomicWriteBytes fails content d = (⟨some bytes, none⟩, some error) := by
  rw [← htarget]
  exact atomicWriteBytes_short content ((stepsThrough_existing htarget).trans h)

end AtomicWrite

/-- What the file system answers to the checks of `_atomic_write` itself. -/
structure WriteCalls where
  parent : String
  name : String
  parentIsDir : Bool
  mkdirFails : Option String
  present : Bool
  readable : Bool
  parentStays : Bool
  fails : WriteStep → Option String

/-- What `_atomic_write` returns. -/
structure Written where
  ok : Bool
  error : String
  digestBefore : Option String
  digestAfter : Option String

/-- `RestrictedWorkspace._digest` -/
def digest (sha256 : ByteArray → String) (content : ByteArray) : String :=
  "sha256:" ++ sha256 content

/-- The digest of what a write finds, `None` when it cannot read it. -/
def digestBefore (sha256 : ByteArray → String) (calls : WriteCalls) (d : Disk) : Option String :=
  if calls.present ∧ calls.readable then d.target.map (digest sha256) else none

/-- `RestrictedWorkspace._atomic_write` (restricted.py:424-469); an error is the
`OSError` of the `mkdir`, which nothing catches. -/
def atomicWrite (sha256 : ByteArray → String) (calls : WriteCalls) (content : ByteArray)
    (requireExists : Option Bool) (operation : String) (d : Disk) :
    Disk × Except String Written :=
  if calls.parentIsDir = false ∧ requireExists = some true then
    (d, .ok ⟨false, "Parent directory does not exist: " ++ calls.parent, none, none⟩)
  else if let (false, some error) := (calls.parentIsDir, calls.mkdirFails) then (d, .error error)
  else if calls.present ∧ requireExists = some false then
    (d, .ok ⟨false, "File already exists: " ++ calls.name, none, none⟩)
  else if ¬ calls.present ∧ requireExists = some true then
    (d, .ok ⟨false, "File not found: " ++ calls.name, none, none⟩)
  else
    let before := digestBefore sha256 calls d
    if ¬ calls.parentStays then
      (d, .ok ⟨false, operation ++ " failed: Parent directory disappeared: " ++ calls.parent,
        before, none⟩)
    else
      match atomicWriteBytes calls.fails content d with
      | (d', none) => (d', .ok ⟨true, "", before, some (digest sha256 content)⟩)
      | (d', some error) => (d', .ok ⟨false, operation ++ " failed: " ++ error, before, none⟩)

/-- The write of a file that must be there comes to replace it. -/
def WriteCalls.replaces (calls : WriteCalls) : Bool :=
  calls.parentIsDir && calls.present && calls.parentStays && stepsReplace calls.fails

/-- It replaces the file and syncs the directory. -/
def WriteCalls.completes (calls : WriteCalls) : Bool :=
  calls.replaces && (calls.fails .syncDirectory).isNone

/-- How the write of a file that must be there ends; it never raises. -/
theorem atomicWrite_existing (sha256 : ByteArray → String) (calls : WriteCalls)
    (content bytes : ByteArray) (operation : String) :
    ∃ w, (atomicWrite sha256 calls content (some true) operation ⟨some bytes, none⟩) =
        (⟨some (if calls.replaces then content else bytes), none⟩, .ok w) ∧
      w.ok = calls.completes := by
  unfold atomicWrite WriteCalls.completes WriteCalls.replaces
  generalize digestBefore sha256 calls ⟨some bytes, none⟩ = before
  cases calls.parentIsDir with
  | false => exact ⟨_, rfl, rfl⟩
  | true =>
    cases calls.present with
    | false => exact ⟨_, rfl, rfl⟩
    | true =>
      cases calls.parentStays with
      | false => exact ⟨_, rfl, rfl⟩
      | true =>
        cases hsteps : stepsReplace calls.fails with
        | false =>
          obtain ⟨error, hkept⟩ :=
            atomicWriteBytes_kept content (d := ⟨some bytes, none⟩) rfl hsteps
          refine ⟨⟨false, operation ++ " failed: " ++ error, before, none⟩, ?_, rfl⟩
          simp [hkept]
        | true =>
          have hreplaced :=
            atomicWriteBytes_replaced content (d := ⟨some bytes, none⟩) rfl hsteps
          cases hsync : calls.fails .syncDirectory with
          | some error =>
            rw [hsync] at hreplaced
            refine ⟨⟨false, operation ++ " failed: " ++ error, before, none⟩, ?_, rfl⟩
            simp [hreplaced]
          | none =>
            rw [hsync] at hreplaced
            refine ⟨⟨true, "", before, some (digest sha256 content)⟩, ?_, rfl⟩
            simp [hreplaced]

/-! ## The edits -/

/-- An exception that leaves an edit. -/
inductive Raised where
  | valueError (error : String)
  | osError (error : String)
  | unicodeDecodeError
  | unicodeEncodeError
  | keyError (key : String)
  deriving DecidableEq

/-- An edit that ends before the write: with a result that names the error, or
with an exception. -/
inductive Stop where
  | refused (error : String)
  | raised (e : Raised)
  deriving DecidableEq

/-- What the path of a call leads to: `_resolve_safe` raises at a path that is
none, or refuses it; the file is not there; it cannot be read; its bytes. -/
inductive Lookup where
  | malformed (error : String)
  | unsafePath
  | missing
  | unreadable (error : String)
  | file (content : ByteArray)

/-- The file a path leads to. -/
def Lookup.content : Lookup → Option ByteArray
  | .file content => some content
  | _ => none

/-- What a call is made with and what it meets; `now` is the clock at the lease
check. -/
structure EditCall where
  relPath : String
  token : Option String
  now : ℚ
  lookup : Lookup
  writes : WriteCalls

/-- The workspace, `_lease` and `max_write_bytes` of it. -/
structure RestrictedWorkspace where
  lease : Option Lease
  maxWriteBytes : Nat

/-- What an edit leaves: the lease slot, the file, and its result or exception. -/
structure Edited where
  lease : Option Lease
  file : Option ByteArray
  ended : Except Raised ToolResult

/-- The path checks and the `read_text` of an edit. -/
def readText (call : EditCall) : Except Stop Text :=
  match call.lookup with
  | .malformed error => .error (.raised (.valueError error))
  | .unsafePath => .error (.refused "Invalid or unsafe path")
  | .missing => .error (.refused ("File not found: " ++ call.relPath))
  | .unreadable error => .error (.refused ("Read failed: " ++ error))
  | .file content =>
    match decode? content with
    | none => .error (.raised .unicodeDecodeError)
    | some s => .ok (universalNewlines s)

/-- The bytes an edit comes to write: `early` is an error found before the path
is looked at, `change` what the edit does to the text. -/
def prepare (ws : RestrictedWorkspace) (call : EditCall) (early : Option String)
    (change : Text → Except Stop Text) (tooLarge : String) : Except Stop ByteArray := do
  if let some error := (checkLease ws.lease call.token call.now).2 then throw (.refused error)
  if let some error := early then throw (.refused error)
  let content ← readText call
  let newContent ← change content
  match encode? newContent with
  | none => throw (.raised .unicodeEncodeError)
  | some newBytes =>
    if ws.maxWriteBytes < newBytes.size then throw (.refused tooLarge)
    return newBytes

/-- The body `replace` and `patch` share. -/
def edit (sha256 : ByteArray → String) (operation : String) (ws : RestrictedWorkspace)
    (call : EditCall) (early : Option String) (change : Text → Except Stop Text)
    (tooLarge : String) : Edited :=
  let lease := (checkLease ws.lease call.token call.now).1
  match prepare ws call early change tooLarge with
  | .error (.refused error) =>
    ⟨lease, call.lookup.content, .ok { ok := false, operation := operation, error := error }⟩
  | .error (.raised e) => ⟨lease, call.lookup.content, .error e⟩
  | .ok newBytes =>
    match atomicWrite sha256 call.writes newBytes (some true) operation
      { target := call.lookup.content } with
    | (d, .error error) => ⟨lease, d.target, .error (.osError error)⟩
    | (d, .ok w) => ⟨lease, d.target, .ok ⟨w.ok, operation, w.error, w.digestBefore, w.digestAfter⟩⟩

section Edit

variable {ws : RestrictedWorkspace} {call : EditCall} {early : Option String}
  {change : Text → Except Stop Text} {tooLarge : String} {newBytes : ByteArray}

theorem readText_ok {content : Text} : readText call = .ok content ↔
    ∃ bytes s, call.lookup = .file bytes ∧ decode? bytes = some s ∧
      content = universalNewlines s := by
  unfold readText
  cases call.lookup with
  | file bytes =>
    cases hdecode : decode? bytes with
    | none => simp [hdecode]
    | some s => simp [hdecode, eq_comm]
  | _ => simp

/-- What an edit that comes to write has passed, and what it writes. -/
theorem prepare_ok : prepare ws call early change tooLarge = .ok newBytes ↔
    (checkLease ws.lease call.token call.now).2 = none ∧ early = none ∧
      ∃ bytes s newContent, call.lookup = .file bytes ∧ decode? bytes = some s ∧
        change (universalNewlines s) = .ok newContent ∧ encode? newContent = some newBytes ∧
        newBytes.size ≤ ws.maxWriteBytes := by
  unfold prepare
  cases (checkLease ws.lease call.token call.now).2 with
  | some error => simp [throw, throwThe, MonadExceptOf.throw, bind, Except.bind]
  | none =>
    cases early with
    | some error => simp [throw, throwThe, MonadExceptOf.throw, bind, Except.bind]
    | none =>
      simp only [bind, Except.bind, pure, Except.pure, throw, throwThe, MonadExceptOf.throw,
        true_and]
      constructor
      · intro h
        cases hread : readText call with
        | error e => simp [hread] at h
        | ok content =>
          obtain ⟨bytes, s, hlookup, hdecode, rfl⟩ := readText_ok.mp hread
          cases hchange : change (universalNewlines s) with
          | error e => simp [hread, hchange] at h
          | ok newContent =>
            cases hencode : encode? newContent with
            | none => simp [hread, hchange, hencode] at h
            | some b =>
              simp only [hread, hchange, hencode] at h
              split at h
              · cases h
              · rename_i hsize
                cases h
                exact ⟨bytes, s, newContent, hlookup, hdecode, hchange, hencode,
                  Nat.le_of_not_lt hsize⟩
      · rintro ⟨bytes, s, newContent, hlookup, hdecode, hchange, hencode, hsize⟩
        have hread : readText call = .ok (universalNewlines s) :=
          readText_ok.mpr ⟨bytes, s, hlookup, hdecode, rfl⟩
        simp [hread, hchange, hencode, Nat.not_lt.mpr hsize]

/-- When an edit raises: at a path that is none, at a file that is not UTF-8, in
the change, and at a text that cannot be encoded. -/
theorem prepare_raised : (∃ e, prepare ws call early change tooLarge = .error (.raised e)) ↔
    (checkLease ws.lease call.token call.now).2 = none ∧ early = none ∧
      ((∃ error, call.lookup = .malformed error) ∨
        ∃ bytes, call.lookup = .file bytes ∧ (decode? bytes = none ∨
          ∃ s, decode? bytes = some s ∧ ((∃ e, change (universalNewlines s) = .error (.raised e)) ∨
            ∃ newContent, change (universalNewlines s) = .ok newContent ∧
              encode? newContent = none))) := by
  unfold prepare
  cases (checkLease ws.lease call.token call.now).2 with
  | some error => simp [throw, throwThe, MonadExceptOf.throw, bind, Except.bind]
  | none =>
    cases early with
    | some error => simp [throw, throwThe, MonadExceptOf.throw, bind, Except.bind]
    | none =>
      simp only [bind, Except.bind, pure, Except.pure, throw, throwThe, MonadExceptOf.throw,
        true_and]
      unfold readText
      cases call.lookup with
      | malformed error => simp
      | unsafePath => simp
      | missing => simp
      | unreadable error => simp
      | file bytes =>
        cases hdecode : decode? bytes with
        | none => simp [hdecode]
        | some s =>
          cases hchange : change (universalNewlines s) with
          | error stop => simp [hdecode, hchange]
          | ok newContent =>
            cases hencode : encode? newContent with
            | none => simp [hdecode, hchange, hencode]
            | some b =>
              simp only [hdecode, hchange, hencode]
              split <;> simp [hdecode, hchange, hencode]

/-- An edit that refuses says so and leaves the file. -/
theorem edit_refused (sha256 : ByteArray → String) (operation : String) {error : String}
    (h : prepare ws call early change tooLarge = .error (.refused error)) :
    (edit sha256 operation ws call early change tooLarge).file = call.lookup.content ∧
      ∃ r, (edit sha256 operation ws call early change tooLarge).ended = .ok r ∧
        r.ok = false := by
  unfold edit
  rw [h]
  exact ⟨rfl, _, rfl, rfl⟩

theorem edit_raised (sha256 : ByteArray → String) (operation : String) {e : Raised}
    (h : prepare ws call early change tooLarge = .error (.raised e)) :
    (edit sha256 operation ws call early change tooLarge).ended = .error e := by
  unfold edit
  rw [h]

/-- An edit that comes to write replaces the file or not, as the write goes. -/
theorem edit_wrote (sha256 : ByteArray → String) (operation : String) {bytes : ByteArray}
    (hlookup : call.lookup = .file bytes)
    (h : prepare ws call early change tooLarge = .ok newBytes) :
    (edit sha256 operation ws call early change tooLarge).file =
        some (if call.writes.replaces then newBytes else bytes) ∧
      ∃ r, (edit sha256 operation ws call early change tooLarge).ended = .ok r ∧
        r.ok = call.writes.completes := by
  obtain ⟨w, hwrite, hok⟩ := atomicWrite_existing sha256 call.writes newBytes bytes operation
  unfold edit
  rw [h, hlookup]
  simp only [Lookup.content]
  rw [hwrite]
  exact ⟨rfl, _, rfl, hok⟩

/-- An edit that succeeds came to write, and the write succeeded. -/
theorem edit_succeeded {sha256 : ByteArray → String} {operation : String} {r : ToolResult}
    (hended : (edit sha256 operation ws call early change tooLarge).ended = .ok r)
    (hok : r.ok = true) :
    ∃ b, prepare ws call early change tooLarge = .ok b ∧ call.writes.completes = true := by
  cases hprepared : prepare ws call early change tooLarge with
  | error stop =>
    cases stop with
    | refused error =>
      obtain ⟨-, r', hended', hnot⟩ := edit_refused sha256 operation hprepared
      rw [hended] at hended'
      cases hended'
      rw [hok] at hnot
      cases hnot
    | raised e =>
      rw [edit_raised sha256 operation hprepared] at hended
      cases hended
  | ok b =>
    obtain ⟨-, -, bytes, -, -, hlookup, -⟩ := prepare_ok.mp hprepared
    obtain ⟨-, r', hended', hwritten⟩ := edit_wrote sha256 operation hlookup hprepared
    rw [hended] at hended'
    cases hended'
    exact ⟨b, rfl, hwritten.symm.trans hok⟩

end Edit

/-- A text inside a message. -/
def shown (s : Text) : String :=
  String.ofList (s.filterMap CodePoint.scalar?)

/-- The text after a `replace`, or why there is none (restricted.py:755-773). -/
def replaced (relPath : String) (old new content : Text) : Except Stop Text :=
  let found := count old content
  if found = 0 then .error (.refused ("Target string not found in " ++ relPath))
  else if 1 < found then
    .error (.refused ("Ambiguous replacement: '" ++ shown old ++ "' appears " ++ toString found ++
      " times in " ++ relPath))
  else .ok (replaceFirst old new content)

/-- `RestrictedWorkspace.replace` (restricted.py:722-797) -/
def RestrictedWorkspace.replace (sha256 : ByteArray → String) (ws : RestrictedWorkspace)
    (call : EditCall) (old new : Text) : Edited :=
  edit sha256 "replace" ws call none (replaced call.relPath old new)
    "Replacement would exceed write size limit"

/-- One of the `patches`, a dictionary: its two keys. -/
structure Patch where
  old : Option Text
  new : Option Text
  deriving DecidableEq

/-- The validating loop of `patch` from patch `i` on (restricted.py:850-858). -/
def validatePatches (relPath : String) (content : Text) : Nat → List Patch → Except Stop Unit
  | _, [] => .ok ()
  | i, p :: ps =>
    if p.old.getD [] <:+: content then validatePatches relPath content (i + 1) ps
    else .error (.refused ("Patch " ++ toString i ++ ": old text not found in " ++ relPath))

/-- `p[key]` -/
def lookupKey (key : String) : Option Text → Except Stop Text
  | none => .error (.raised (.keyError key))
  | some value => .ok value

/-- The applying loop of `patch` (restricted.py:860-863). -/
def applyPatches : Text → List Patch → Except Stop Text
  | content, [] => .ok content
  | content, p :: ps => do
    let old ← lookupKey "old" p.old
    let new ← lookupKey "new" p.new
    applyPatches (replaceFirst old new content) ps

/-- The text after a `patch`. -/
def patched (relPath : String) (patches : List Patch) (content : Text) : Except Stop Text := do
  validatePatches relPath content 0 patches
  applyPatches content patches

/-- `RestrictedWorkspace.patch` (restricted.py:799-887) -/
def RestrictedWorkspace.patch (sha256 : ByteArray → String) (ws : RestrictedWorkspace)
    (call : EditCall) (patches : List Patch) : Edited :=
  edit sha256 "patch" ws call (if patches = [] then some "No patches provided" else none)
    (patched call.relPath patches) "Patched content would exceed write size limit"

end Workspace

end Northstack
