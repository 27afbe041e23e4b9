import Northstack.Adapters.Edits

/-!
# What a write leaves behind

`create` and `write` of the workspace write the bytes they are given, `replace`
and `patch` the bytes they compute; all four go through `_atomic_write`. A write
can fail at each of its steps, and the process can stop between any two of them
or within the writing of the temporary file.

**Results.**
* `atomicWrite_ends`: how a write ends, whatever it finds and wherever it fails.
* `op_atomic_iff`: at every point of an operation its file holds the old content
  or all of the new; and a failed operation leaves the old content, exactly
  unless the sync of the directory fails after a replacement that changed it.
-/
namespace Northstack

namespace Workspace

open TextFiles Substrings

/-! ## A write that is stopped -/

/-- What the disk may hold within a step: the temporary file grows as it is written. -/
def Disk.within (content : ByteArray) (d : Disk) : WriteStep → List Disk
  | .write =>
    (List.range (content.size + 1)).map fun n => { d with temp := some (content.extract 0 n) }
  | _ => []

/-- Every disk there is from the first of the steps to the last or one that fails. -/
def stepsSeen (fails : WriteStep → Option String) (content : ByteArray) :
    List WriteStep → Disk → List Disk
  | [], d => [d]
  | s :: ss, d =>
    d :: d.within content s ++
      match fails s with
      | some _ => []
      | none => stepsSeen fails content ss (d.step content s)

/-- Every disk there is while `atomic_write_bytes` runs. -/
def atomicWriteBytesSeen (fails : WriteStep → Option String) (content : ByteArray) (d : Disk) :
    List Disk :=
  stepsSeen fails content (stepsBefore d ++ [.replace, .syncDirectory]) d ++
    [(atomicWriteBytes fails content d).1]

/-- Every disk there is while `_atomic_write` runs. -/
def atomicWriteSeen (calls : WriteCalls) (content : ByteArray) (requireExists : Option Bool)
    (d : Disk) : List Disk :=
  if calls.parentIsDir = false ∧ requireExists = some true then [d]
  else if let (false, some _) := (calls.parentIsDir, calls.mkdirFails) then [d]
  else if calls.present ∧ requireExists = some false then [d]
  else if ¬ calls.present ∧ requireExists = some true then [d]
  else if ¬ calls.parentStays then [d]
  else d :: atomicWriteBytesSeen calls.fails content d

section Seen

variable {fails : WriteStep → Option String} {content : ByteArray} {d x : Disk}
  {ss ts : List WriteStep}

theorem Disk.within_target {s : WriteStep} (h : x ∈ d.within content s) : x.target = d.target := by
  cases s with
  | write =>
    obtain ⟨n, -, rfl⟩ := List.mem_map.mp h
    rfl
  | _ => cases h

theorem mem_stepsSeen_append : x ∈ stepsSeen fails content (ss ++ ts) d →
    x ∈ stepsSeen fails content ss d ∨
      (runSteps fails content ss d).2 = none ∧
        x ∈ stepsSeen fails content ts (runSteps fails content ss d).1 := by
  induction ss generalizing d with
  | nil => exact fun h => .inr ⟨rfl, h⟩
  | cons s ss ih =>
    intro h
    simp only [List.cons_append, stepsSeen, runSteps, List.mem_cons, List.mem_append] at h ⊢
    cases hs : fails s with
    | some error =>
      rw [hs] at h
      exact .inl h
    | none =>
      rw [hs] at h
      rcases h with h | h | h
      · exact .inl (.inl h)
      · exact .inl (.inr (.inl h))
      · rcases ih h with h | h
        · exact .inl (.inr (.inr h))
        · exact .inr h

/-- Before `os.replace` nothing touches the target. -/
theorem stepsSeen_target (h : .replace ∉ ss) (hx : x ∈ stepsSeen fails content ss d) :
    x.target = d.target := by
  induction ss generalizing d with
  | nil =>
    rw [List.mem_singleton.mp hx]
  | cons s ss ih =>
    rw [List.mem_cons, not_or] at h
    simp only [stepsSeen, List.mem_cons, List.mem_append] at hx
    rcases hx with (rfl | hx) | hx
    · rfl
    · exact Disk.within_target hx
    · cases hs : fails s with
      | some error =>
        rw [hs] at hx
        cases hx
      | none =>
        rw [hs] at hx
        rw [ih h.2 hx]
        cases s with
        | replace => exact absurd rfl h.1
        | _ => rfl

/-- Whoever looks while a file is written finds the old content or all of the new. -/
theorem atomicWriteBytesSeen_target (h : x ∈ atomicWriteBytesSeen fails content d) :
    x.target = d.target ∨ x.target = some content := by
  rcases List.mem_append.mp h with h | h
  · rcases mem_stepsSeen_append h with h | ⟨hdone, h⟩
    · exact .inl (stepsSeen_target (replace_notMem_stepsBefore d) h)
    · -- from here on the temporary file holds all of the content
      have hall : ∀ s ∈ stepsBefore d, fails s = none := by
        by_contra hnot
        obtain ⟨error, herror⟩ := runSteps_failed content d hnot
        rw [hdone] at herror
        cases herror
      rw [runSteps_ok hall, stepsBefore_done] at h
      cases hreplace : fails .replace with
      | some error =>
        simp only [stepsSeen, Disk.within, hreplace, List.append_nil, List.mem_singleton] at h
        rw [h]
        exact .inl rfl
      | none =>
        simp only [stepsSeen, Disk.within, hreplace, Disk.step, List.singleton_append,
          List.mem_cons] at h
        rcases h with rfl | rfl | h
        · exact .inl rfl
        · exact .inr rfl
        · cases hsync : fails .syncDirectory with
          | some error =>
            rw [hsync] at h
            cases h
          | none =>
            rw [hsync] at h
            rw [List.mem_singleton.mp h]
            exact .inr rfl
  · rw [List.mem_singleton.mp h]
    cases hthrough : stepsThrough fails d with
    | true =>
      rw [atomicWriteBytes_through content hthrough]
      exact .inr rfl
    | false =>
      obtain ⟨error, hshort⟩ := atomicWriteBytes_short content hthrough
      rw [hshort]
      exact .inl rfl

end Seen

/-! ## How a write ends -/

/-- The checks of `_atomic_write` let it come to the write itself. -/
def WriteCalls.admits (calls : WriteCalls) (requireExists : Option Bool) : Bool :=
  (calls.parentIsDir || (requireExists != some true && calls.mkdirFails.isNone)) &&
    (if calls.present then requireExists != some false else requireExists != some true) &&
    calls.parentStays

/-- A write that replaces the file says whether the sync of the directory went well;
one that does not leaves the file, and raises or says that it failed. -/
theorem atomicWrite_ends (sha256 : ByteArray → String) (calls : WriteCalls) (content : ByteArray)
    (requireExists : Option Bool) (operation : String) (d : Disk) :
    let out := atomicWrite sha256 calls content requireExists operation d
    if calls.admits requireExists ∧ stepsThrough calls.fails d then
      out.1.target = some content ∧
        ∃ w, out.2 = .ok w ∧ w.ok = (calls.fails .syncDirectory).isNone
    else out.1.target = d.target ∧ ∀ w, out.2 = .ok w → w.ok = false := by
  intro out
  simp only [out]
  unfold atomicWrite WriteCalls.admits
  generalize digestBefore sha256 calls d = before
  cases hthrough : stepsThrough calls.fails d with
  | true =>
    have hwritten := atomicWriteBytes_through content hthrough
    cases hsync : calls.fails .syncDirectory <;> rw [hsync] at hwritten <;>
      cases calls.parentIsDir <;> cases calls.mkdirFails <;> cases calls.present <;>
      cases calls.parentStays <;> rcases requireExists with _ | _ | _ <;> simp [hwritten]
  | false =>
    obtain ⟨error, hwritten⟩ := atomicWriteBytes_short content hthrough
    cases calls.parentIsDir <;> cases calls.mkdirFails <;> cases calls.present <;>
      cases calls.parentStays <;> rcases requireExists with _ | _ | _ <;> simp [hwritten]

/-- The disk a write leaves is the last there is. -/
theorem atomicWrite_seen (sha256 : ByteArray → String) (calls : WriteCalls) (content : ByteArray)
    (requireExists : Option Bool) (operation : String) (d : Disk) :
    (atomicWrite sha256 calls content requireExists operation d).1 ∈
      atomicWriteSeen calls content requireExists d := by
  have hlast : (atomicWriteBytes calls.fails content d).1 ∈
      d :: atomicWriteBytesSeen calls.fails content d := by
    simp [atomicWriteBytesSeen]
  unfold atomicWrite atomicWriteSeen
  generalize digestBefore sha256 calls d = before
  generalize atomicWriteBytes calls.fails content d = out at hlast ⊢
  rw [List.mem_cons] at hlast
  obtain ⟨d', _ | error⟩ := out <;> cases calls.parentIsDir <;> cases calls.mkdirFails <;>
    cases calls.present <;> cases calls.parentStays <;>
    rcases requireExists with _ | _ | _ <;> simp [hlast]

/-! ## The four operations -/

/-- What `_mutate_file` has checked when it comes to write. A target that is there but
cannot be read is a `.file` found `unreadable`. -/
def prepareContent (ws : RestrictedWorkspace) (call : EditCall) (content : ByteArray) :
    Except Stop ByteArray := do
  if let some error := (checkLease ws.lease call.token call.now).2 then throw (.refused error)
  if ws.maxWriteBytes < content.size then
    throw (.refused ("Content size " ++ toString content.size ++ " exceeds limit " ++
      toString ws.maxWriteBytes))
  match call.lookup with
  | .malformed error => throw (.raised (.valueError error))
  | .unsafePath => throw (.refused "Invalid or unsafe path")
  | _ => return content

/-- An operation ends as it was refused, or raised, or as its write ends. -/
def writeBack (sha256 : ByteArray → String) (operation : String) (requireExists : Option Bool)
    (ws : RestrictedWorkspace) (call : EditCall) (prepared : Except Stop ByteArray) : Edited :=
  let lease := (checkLease ws.lease call.token call.now).1
  match prepared with
  | .error (.refused error) =>
    ⟨lease, call.lookup.content, .ok { ok := false, operation := operation, error := error }⟩
  | .error (.raised e) => ⟨lease, call.lookup.content, .error e⟩
  | .ok newBytes =>
    match atomicWrite sha256 call.writes newBytes requireExists operation
      { target := call.lookup.content } with
    | (d, .error error) => ⟨lease, d.target, .error (.osError error)⟩
    | (d, .ok w) => ⟨lease, d.target, .ok ⟨w.ok, operation, w.error, w.digestBefore, w.digestAfter⟩⟩

/-- `RestrictedWorkspace._mutate_file` (restricted.py:672-712) -/
def RestrictedWorkspace.mutateFile (sha256 : ByteArray → String) (ws : RestrictedWorkspace)
    (call : EditCall) (content : ByteArray) (operation : String) (requireExists : Option Bool) :
    Edited :=
  writeBack sha256 operation requireExists ws call (prepareContent ws call content)

/-- `RestrictedWorkspace.create` (restricted.py:714-716) -/
def RestrictedWorkspace.create (sha256 : ByteArray → String) (ws : RestrictedWorkspace)
    (call : EditCall) (content : ByteArray) : Edited :=
  ws.mutateFile sha256 call content "create" (some false)

/-- `RestrictedWorkspace.write` (restricted.py:718-720) -/
def RestrictedWorkspace.write (sha256 : ByteArray → String) (ws : RestrictedWorkspace)
    (call : EditCall) (content : ByteArray) : Edited :=
  ws.mutateFile sha256 call content "write" none

/-- An operation that changes a file. -/
inductive FileOp
  | create (content : ByteArray)
  | write (content : ByteArray)
  | replace (old new : Text)
  | patch (patches : List Patch)

namespace FileOp

def run (sha256 : ByteArray → String) (ws : RestrictedWorkspace) (call : EditCall) :
    FileOp → Edited
  | .create content => ws.create sha256 call content
  | .write content => ws.write sha256 call content
  | .replace old new => ws.replace sha256 call old new
  | .patch patches => ws.patch sha256 call patches

def operation : FileOp → String
  | .create _ => "create"
  | .write _ => "write"
  | .replace _ _ => "replace"
  | .patch _ => "patch"

/-- The `require_exists` of the operation's `_atomic_write`. -/
def requireExists : FileOp → Option Bool
  | .create _ => some false
  | .write _ => none
  | .replace _ _ => some true
  | .patch _ => some true

/-- The bytes the operation comes to write. -/
def prepared (ws : RestrictedWorkspace) (call : EditCall) : FileOp → Except Stop ByteArray
  | .create content => prepareContent ws call content
  | .write content => prepareContent ws call content
  | .replace old new =>
    prepare ws call none (replaced call.relPath old new)
      "Replacement would exceed write size limit"
  | .patch patches =>
    prepare ws call (if patches = [] then some "No patches provided" else none)
      (patched call.relPath patches) "Patched content would exceed write size limit"

/-- Every disk there is while the operation runs. -/
def seen (ws : RestrictedWorkspace) (call : EditCall) (op : FileOp) : List Disk :=
  match op.prepared ws call with
  | .error _ => [{ target := call.lookup.content }]
  | .ok newBytes =>
    atomicWriteSeen call.writes newBytes op.requireExists { target := call.lookup.content }

theorem run_eq (sha256 : ByteArray → String) (ws : RestrictedWorkspace) (call : EditCall)
    (op : FileOp) : op.run sha256 ws call =
      writeBack sha256 op.operation op.requireExists ws call (op.prepared ws call) := by
  cases op <;> rfl

/-- The operation passes its checks, and the complete new content of its file is `new`. -/
def Accepts (ws : RestrictedWorkspace) (call : EditCall) (new : ByteArray) : FileOp → Prop
  | .create content | .write content =>
    (checkLease ws.lease call.token call.now).2 = none ∧ content.size ≤ ws.maxWriteBytes ∧
      (∀ error, call.lookup ≠ .malformed error) ∧ call.lookup ≠ .unsafePath ∧ new = content
  | .replace old text =>
    (checkLease ws.lease call.token call.now).2 = none ∧
      ∃ bytes s, call.lookup = .file bytes ∧ decode? bytes = some s ∧
        count old (universalNewlines s) = 1 ∧
        encode? (replaceFirst old text (universalNewlines s)) = some new ∧
        new.size ≤ ws.maxWriteBytes
  | .patch patches =>
    (checkLease ws.lease call.token call.now).2 = none ∧ patches ≠ [] ∧
      ∃ bytes s, call.lookup = .file bytes ∧ decode? bytes = some s ∧
        (∀ p ∈ patches, p.old.getD [] <:+: universalNewlines s) ∧ (∀ p ∈ patches, p.Keyed) ∧
        encode? (contentAfter (universalNewlines s) patches) = some new ∧
        new.size ≤ ws.maxWriteBytes

end FileOp

section Operations

variable {sha256 : ByteArray → String} {ws : RestrictedWorkspace} {call : EditCall} {op : FileOp}
  {content new : ByteArray}

theorem prepareContent_ok : prepareContent ws call content = .ok new ↔
    (checkLease ws.lease call.token call.now).2 = none ∧ content.size ≤ ws.maxWriteBytes ∧
      (∀ error, call.lookup ≠ .malformed error) ∧ call.lookup ≠ .unsafePath ∧ new = content := by
  unfold prepareContent
  cases (checkLease ws.lease call.token call.now).2 with
  | some error => simp [throw, throwThe, MonadExceptOf.throw, bind, Except.bind]
  | none =>
    by_cases hsize : ws.maxWriteBytes < content.size
    · simp [hsize, Nat.not_le.mpr hsize, throw, throwThe, MonadExceptOf.throw, bind, Except.bind]
    · have hle := Nat.le_of_not_lt hsize
      cases call.lookup <;>
        simp [hsize, hle, throw, throwThe, MonadExceptOf.throw, pure, Except.pure, eq_comm]

/-- An operation comes to write what it accepts. -/
theorem FileOp.prepared_ok : op.prepared ws call = .ok new ↔ op.Accepts ws call new := by
  cases op with
  | create content => exact prepareContent_ok
  | write content => exact prepareContent_ok
  | replace old text =>
    unfold FileOp.prepared FileOp.Accepts
    rw [prepare_ok]
    constructor
    · rintro ⟨hleased, -, bytes, s, out, hlookup, hdecode, hchange, hencode, hsize⟩
      obtain ⟨hcount, rfl⟩ := replaced_ok.mp hchange
      exact ⟨hleased, bytes, s, hlookup, hdecode, hcount, hencode, hsize⟩
    · rintro ⟨hleased, bytes, s, hlookup, hdecode, hcount, hencode, hsize⟩
      exact ⟨hleased, rfl, bytes, s, _, hlookup, hdecode, replaced_ok.mpr ⟨hcount, rfl⟩,
        hencode, hsize⟩
  | patch patches =>
    unfold FileOp.prepared FileOp.Accepts
    rw [prepare_ok, early_none]
    constructor
    · rintro ⟨hleased, hne, bytes, s, out, hlookup, hdecode, hchange, hencode, hsize⟩
      obtain ⟨hfound, hkeyed, rfl⟩ := patched_ok.mp hchange
      exact ⟨hleased, hne, bytes, s, hlookup, hdecode, hfound, hkeyed, hencode, hsize⟩
    · rintro ⟨hleased, hne, bytes, s, hlookup, hdecode, hfound, hkeyed, hencode, hsize⟩
      exact ⟨hleased, hne, bytes, s, _, hlookup, hdecode,
        patched_ok.mpr ⟨hfound, hkeyed, rfl⟩, hencode, hsize⟩

/-- An operation that passed its checks ends as its write does. -/
theorem FileOp.run_accepted (sha256 : ByteArray → String) (h : op.Accepts ws call new) :
    if call.writes.admits op.requireExists ∧
        stepsThrough call.writes.fails { target := call.lookup.content } then
      (op.run sha256 ws call).file = some new ∧ ∃ r, (op.run sha256 ws call).ended = .ok r ∧
        r.ok = (call.writes.fails .syncDirectory).isNone
    else (op.run sha256 ws call).file = call.lookup.content ∧
      ∀ r, (op.run sha256 ws call).ended = .ok r → r.ok = false := by
  have hends := atomicWrite_ends sha256 call.writes new op.requireExists op.operation
    { target := call.lookup.content }
  rw [FileOp.run_eq, FileOp.prepared_ok.mpr h]
  unfold writeBack
  simp only at hends ⊢
  generalize atomicWrite sha256 call.writes new op.requireExists op.operation
    { target := call.lookup.content } = out at hends ⊢
  obtain ⟨d, error | w⟩ := out
  · simpa using hends
  · simpa using hends

/-- An operation that did not leaves its file, and does not succeed. -/
theorem FileOp.run_stopped (sha256 : ByteArray → String) (h : ∀ new, ¬ op.Accepts ws call new) :
    (op.run sha256 ws call).file = call.lookup.content ∧
      ∀ r, (op.run sha256 ws call).ended = .ok r → r.ok = false := by
  rw [FileOp.run_eq]
  unfold writeBack
  cases hprepared : op.prepared ws call with
  | ok new => exact absurd (FileOp.prepared_ok.mp hprepared) (h new)
  | error stop =>
    cases stop with
    | refused error => exact ⟨rfl, by rintro r ⟨⟩; rfl⟩
    | raised e => exact ⟨rfl, nofun⟩

/-- What an operation leaves is among the disks there are while it runs. -/
theorem FileOp.run_seen (sha256 : ByteArray → String) (ws : RestrictedWorkspace) (call : EditCall)
    (op : FileOp) : ∃ d ∈ op.seen ws call, d.target = (op.run sha256 ws call).file := by
  rw [FileOp.run_eq]
  unfold FileOp.seen writeBack
  cases op.prepared ws call with
  | error stop => cases stop <;> exact ⟨_, List.mem_singleton_self _, rfl⟩
  | ok new =>
    refine ⟨_, atomicWrite_seen sha256 call.writes new op.requireExists op.operation _, ?_⟩
    simp only
    generalize atomicWrite sha256 call.writes new op.requireExists op.operation
      { target := call.lookup.content } = out
    obtain ⟨d, error | w⟩ := out <;> rfl

/-! ## Old or new, and which -/

/-- Whenever one looks the file holds the old content or all of the new, and a result
that is not `ok` leaves the old. -/
def FileOp.Atomic (sha256 : ByteArray → String) (ws : RestrictedWorkspace) (call : EditCall)
    (op : FileOp) : Prop :=
  (∀ d ∈ op.seen ws call, d.target = call.lookup.content ∨
    ∃ new, op.Accepts ws call new ∧ d.target = some new) ∧
  ∀ r, (op.run sha256 ws call).ended = .ok r → r.ok = false →
    (op.run sha256 ws call).file = call.lookup.content

/-- The file is replaced by something else, and then the sync of its directory fails. -/
def FileOp.SyncFailsLate (ws : RestrictedWorkspace) (call : EditCall) (op : FileOp) : Prop :=
  ∃ new, op.Accepts ws call new ∧ call.writes.admits op.requireExists ∧
    stepsThrough call.writes.fails { target := call.lookup.content } ∧
    call.writes.fails .syncDirectory ≠ none ∧ call.lookup.content ≠ some new

theorem atomicWriteSeen_target {calls : WriteCalls} {requireExists : Option Bool} {d x : Disk}
    (h : x ∈ atomicWriteSeen calls content requireExists d) :
    x.target = d.target ∨ x.target = some content := by
  unfold atomicWriteSeen at h
  have hsame (hx : x ∈ [d]) : x.target = d.target ∨ x.target = some content := by
    rw [List.mem_singleton.mp hx]
    exact .inl rfl
  split at h
  · exact hsame h
  split at h
  · exact hsame h
  split at h
  · exact hsame h
  split at h
  · exact hsame h
  split at h
  · exact hsame h
  rcases List.mem_cons.mp h with rfl | h
  · exact .inl rfl
  · exact atomicWriteBytesSeen_target h

/-- Every operation shows the old content or all of the new. -/
theorem FileOp.seen_target {d : Disk} (h : d ∈ op.seen ws call) :
    d.target = call.lookup.content ∨ ∃ new, op.Accepts ws call new ∧ d.target = some new := by
  unfold FileOp.seen at h
  split at h
  · rw [List.mem_singleton.mp h]
    exact .inl rfl
  · rename_i new hprepared
    rcases atomicWriteSeen_target h with h | h
    · exact .inl h
    · exact .inr ⟨new, FileOp.prepared_ok.mp hprepared, h⟩

/-- **A file operation is atomic.** Wherever it fails or is stopped, its file holds the
old content or all of the new; and where it returns a failure it has left the old,
exactly unless the sync of the directory failed after the file was replaced by
something else. -/
theorem op_atomic_iff (sha256 : ByteArray → String) (ws : RestrictedWorkspace) (call : EditCall)
    (op : FileOp) : op.Atomic sha256 ws call ↔ ¬ op.SyncFailsLate ws call := by
  constructor
  · rintro ⟨-, hfailed⟩ ⟨new, haccepts, hadmits, hthrough, hsync, hne⟩
    have hends := FileOp.run_accepted sha256 haccepts
    rw [if_pos ⟨hadmits, hthrough⟩] at hends
    obtain ⟨hfile, r, hended, hok⟩ := hends
    have hnot : r.ok = false := by
      rw [hok, Option.isNone_eq_false_iff, Option.isSome_iff_ne_none]
      exact hsync
    exact hne ((hfailed r hended hnot).symm.trans hfile)
  · intro hlate
    refine ⟨fun d hd => FileOp.seen_target hd, ?_⟩
    intro r hended hok
    by_cases haccepts : ∃ new, op.Accepts ws call new
    · obtain ⟨new, haccepts⟩ := haccepts
      have hends := FileOp.run_accepted sha256 haccepts
      split at hends
      · rename_i hwritten
        obtain ⟨hfile, r', hended', hok'⟩ := hends
        rw [hended] at hended'
        cases hended'
        have hsync : call.writes.fails .syncDirectory ≠ none := by
          rw [← Option.isSome_iff_ne_none, ← Option.isNone_eq_false_iff, ← hok']
          exact hok
        by_contra hne
        rw [hfile] at hne
        exact hlate ⟨new, haccepts, hwritten.1, hwritten.2, hsync, fun h => hne h.symm⟩
      · exact hends.1
    · exact (FileOp.run_stopped sha256 fun new h => haccepts ⟨new, h⟩).1

end Operations

/-- The directory cannot be synced. -/
def unsynced : EditCall :=
  { onFile "old" with
    writes :=
      { unfailing with
        fails := fun s => if s = .syncDirectory then some "Input/output error" else none } }

/-- A `write` says that it failed, and has written. -/
theorem write_failed_yet_written :
    ¬ (FileOp.write "new".toUTF8).Atomic (fun _ => "") leasedWorkspace unsynced := by
  rintro ⟨-, hfailed⟩
  exact absurd (hfailed _ rfl (by decide +kernel)) (by decide +kernel)

end Workspace

end Northstack
