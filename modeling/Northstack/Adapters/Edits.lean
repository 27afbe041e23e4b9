import Northstack.Adapters.Workspace

/-!
# What an edit changes

`replace` promises to swap the one place where `old` stands, `patch` to apply
all its patches or none. Both read the file as text, so a carriage return is a
line feed by the time the edit sees it; `replace` counts occurrences that do not
overlap; and `patch` looks for every `old` before the first is replaced.

**Results.** `replace_exact_iff`: a `replace` keeps its promise exactly when no
call that passes every check meets a carriage return or a second, overlapping
occurrence; `patch_all_or_nothing_iff`: the calls on which `patch` keeps its
own.
-/
namespace Northstack

namespace Workspace

open TextFiles Substrings

variable {sha256 : ByteArray → String} {ws : RestrictedWorkspace} {call : EditCall}
  {old new s : Text} {patches : List Patch}

/-! ## One replacement -/

/-- `after` is `before` with the one place where `old` stands swapped for `new`. -/
def ReplacedOnce (old new : Text) (before after : ByteArray) : Prop :=
  ∃ pre post a o n b, encode? pre = some a ∧ encode? old = some o ∧ encode? new = some n ∧
    encode? post = some b ∧ before = a ++ o ++ b ∧ after = a ++ n ++ b ∧
    positions old (pre ++ old ++ post) = [pre.length]

/-- A `replace` that succeeds has changed that place of the file and no other byte. -/
def ReplacesExactly (call : EditCall) (old new : Text) (e : Edited) : Prop :=
  ∀ r, e.ended = .ok r → r.ok = true →
    ∃ before after, call.lookup = .file before ∧ e.file = some after ∧
      ReplacedOnce old new before after

/-- The call passes every check of `replace` on a file whose text is `s`, and
its write succeeds. -/
structure Passes (ws : RestrictedWorkspace) (call : EditCall) (old new s : Text) : Prop where
  leased : (checkLease ws.lease call.token call.now).2 = none
  found : ∃ bytes, call.lookup = .file bytes ∧ decode? bytes = some s
  counted : count old (universalNewlines s) = 1
  fits : ∃ b, encode? (replaceFirst old new (universalNewlines s)) = some b ∧
    b.size ≤ ws.maxWriteBytes
  written : call.writes.completes = true

theorem encode?_cut {pre mid post : Text} {bytes : ByteArray}
    (h : encode? (pre ++ mid ++ post) = some bytes) :
    ∃ a m b, encode? pre = some a ∧ encode? mid = some m ∧ encode? post = some b ∧
      bytes = a ++ m ++ b := by
  rw [encode?_append, encode?_append] at h
  simp only [Option.bind_eq_some_iff, Option.map_eq_some_iff] at h
  obtain ⟨_, ⟨a, ha, m, hm, rfl⟩, b, hb, rfl⟩ := h
  exact ⟨a, m, b, ha, hm, hb, rfl⟩

theorem encode?_paste {pre mid post : Text} {a m b : ByteArray} (ha : encode? pre = some a)
    (hm : encode? mid = some m) (hb : encode? post = some b) :
    encode? (pre ++ mid ++ post) = some (a ++ m ++ b) := by
  simp [encode?_append, ha, hm, hb, ByteArray.append_assoc]

theorem WriteCalls.replaces_of_completes {calls : WriteCalls} (h : calls.completes = true) :
    calls.replaces = true := by
  unfold WriteCalls.completes at h
  exact (Bool.and_eq_true_iff.mp h).1

theorem replaced_ok {relPath : String} {content newContent : Text} :
    replaced relPath old new content = .ok newContent ↔
      count old content = 1 ∧ newContent = replaceFirst old new content := by
  unfold replaced
  by_cases hzero : count old content = 0
  · simp [hzero]
  · by_cases hmany : 1 < count old content
    · have hne : count old content ≠ 1 := by omega
      simp [hzero, hmany, hne]
    · have hone : count old content = 1 := by omega
      simp [hone, eq_comm]

/-- A call that passes writes the text with the first occurrence replaced. -/
theorem Passes.wrote (sha256 : ByteArray → String) (h : Passes ws call old new s) :
    ∃ after r, encode? (replaceFirst old new (universalNewlines s)) = some after ∧
      (ws.replace sha256 call old new).ended = .ok r ∧ r.ok = true ∧
      (ws.replace sha256 call old new).file = some after := by
  obtain ⟨bytes, hlookup, hdecode⟩ := h.found
  obtain ⟨after, hencode, hsize⟩ := h.fits
  have hprepared : prepare ws call none (replaced call.relPath old new)
      "Replacement would exceed write size limit" = .ok after :=
    prepare_ok.mpr ⟨h.leased, rfl, bytes, s, _, hlookup, hdecode,
      replaced_ok.mpr ⟨h.counted, rfl⟩, hencode, hsize⟩
  obtain ⟨hfile, r, hended, hok⟩ := edit_wrote sha256 "replace" hlookup hprepared
  refine ⟨after, r, hencode, hended, hok.trans h.written, ?_⟩
  rw [WriteCalls.replaces_of_completes h.written] at hfile
  exact hfile

/-- A `replace` that succeeds has passed. -/
theorem passes_of_ok {r : ToolResult} (hended : (ws.replace sha256 call old new).ended = .ok r)
    (hok : r.ok = true) : ∃ s, Passes ws call old new s := by
  obtain ⟨b, hprepared, hwritten⟩ := edit_succeeded hended hok
  obtain ⟨hleased, -, bytes, s, newContent, hlookup, hdecode, hchange, hencode, hsize⟩ :=
    prepare_ok.mp hprepared
  obtain ⟨hcounted, rfl⟩ := replaced_ok.mp hchange
  exact ⟨s, hleased, ⟨bytes, hlookup, hdecode⟩, hcounted, ⟨b, hencode, hsize⟩, hwritten⟩

/-- A call that keeps the promise meets neither defect. -/
theorem Passes.clean_of_exact (h : Passes ws call old new s)
    (hexact : ReplacesExactly call old new (ws.replace sha256 call old new)) :
    carriageReturn ∉ s ∧ (positions old s).length ≤ 1 := by
  obtain ⟨after, r, hencode, hended, hok, hfile⟩ := h.wrote sha256
  obtain ⟨before, after', hlookup, hfile', pre, post, a, o, n, b, ha, ho, hn, hb, rfl, rfl,
    honce⟩ := hexact r hended hok
  obtain ⟨bytes, hlookup', hdecode⟩ := h.found
  have hbytes : a ++ o ++ b = bytes := by
    rw [hlookup] at hlookup'
    exact Lookup.file.inj hlookup'
  have hs : s = pre ++ old ++ post :=
    encode?_inj (decode?_eq_some.mp hdecode) (by rw [← hbytes]; exact encode?_paste ha ho hb)
  have hnew : replaceFirst old new (universalNewlines s) = pre ++ new ++ post := by
    rw [hfile] at hfile'
    rw [Option.some.inj hfile'] at hencode
    exact encode?_inj hencode (encode?_paste ha hn hb)
  constructor
  · -- the text written holds the carriage returns of `new` and no others
    have hinfix : old <:+: universalNewlines s :=
      infix_of_count (by rw [h.counted]; exact Nat.one_ne_zero)
    have hcount := count_elem_replaceFirst carriageReturn new hinfix
    have hnone := List.count_eq_zero.mpr (carriageReturn_notMem s)
    rw [hnew, hnone] at hcount
    rw [← List.count_eq_zero, hs]
    simp only [List.count_append] at hcount ⊢
    omega
  · rw [hs, honce]
    rfl

/-- Without them the call keeps it. -/
theorem Passes.exact_of_clean (h : Passes ws call old new s) (hclean : carriageReturn ∉ s)
    (honce : (positions old s).length ≤ 1) :
    ReplacesExactly call old new (ws.replace sha256 call old new) := by
  obtain ⟨after, r, hencode, hended, hok, hfile⟩ := h.wrote sha256
  obtain ⟨bytes, hlookup, hdecode⟩ := h.found
  have hcounted := h.counted
  rw [universalNewlines_eq_self hclean] at hencode hcounted
  obtain ⟨pre, post, hs⟩ :=
    infix_iff_cut.mp (infix_of_count (by rw [hcounted]; exact Nat.one_ne_zero))
  intro _ _ _
  rw [replaceFirst_cut honce hs] at hencode
  have hread := decode?_eq_some.mp hdecode
  rw [hs] at hread
  obtain ⟨a, o, b, ha, ho, hb, rfl⟩ := encode?_cut hread
  obtain ⟨a', n, b', ha', hn, hb', rfl⟩ := encode?_cut hencode
  rw [ha] at ha'
  rw [hb] at hb'
  cases ha'
  cases hb'
  exact ⟨_, _, hlookup, hfile, pre, post, a, o, n, b, ha, ho, hn, hb, rfl, rfl,
    positions_eq_singleton (by rw [← hs]; exact honce) rfl⟩

/-- **When `replace` swaps one occurrence and nothing else.** It does exactly
when no text it is let to write over holds a carriage return, which the read
turns into a line feed everywhere, or `old` in a second place that overlaps the
one it counts. -/
theorem replace_exact_iff (sha256 : ByteArray → String) (ws : RestrictedWorkspace)
    (call : EditCall) (old new : Text) :
    ReplacesExactly call old new (ws.replace sha256 call old new) ↔
      ∀ s, Passes ws call old new s → carriageReturn ∉ s ∧ (positions old s).length ≤ 1 := by
  constructor
  · intro hexact s h
    exact h.clean_of_exact hexact
  · intro hclean r hended hok
    obtain ⟨s, h⟩ := passes_of_ok hended hok
    obtain ⟨hreturns, honce⟩ := hclean s h
    exact h.exact_of_clean hreturns honce r hended hok

/-- A write that meets no failure. -/
def unfailing : WriteCalls where
  parent := "root"
  name := "a.txt"
  parentIsDir := true
  mkdirFails := none
  present := true
  readable := true
  parentStays := true
  fails := fun _ => none

/-- The holder of the lease edits the file `a.txt`. -/
def onFile (content : String) : EditCall where
  relPath := "a.txt"
  token := some "token"
  now := 0
  lookup := .file content.toUTF8
  writes := unfailing

def leasedWorkspace : RestrictedWorkspace where
  lease := some ⟨"token", "worker", 0, 0⟩
  maxWriteBytes := 100

/-- Replacing `a` in a file of two lines rewrites the ending of the first, and
`aa` is taken to occur once in `aaa`. -/
theorem replace_not_exact :
    ¬ ReplacesExactly (onFile "a\r\nb") (text "a") (text "c")
        (leasedWorkspace.replace (fun _ => "") (onFile "a\r\nb") (text "a") (text "c")) ∧
      ¬ ReplacesExactly (onFile "aaa") (text "aa") (text "b")
        (leasedWorkspace.replace (fun _ => "") (onFile "aaa") (text "aa") (text "b")) := by
  constructor
  · intro hexact
    have hpasses : Passes leasedWorkspace (onFile "a\r\nb") (text "a") (text "c")
        (text "a\r\nb") :=
      ⟨by decide +kernel, ⟨_, rfl, decode?_text _⟩, by decide +kernel,
        ⟨"c\nb".toUTF8, by decide +kernel, by decide +kernel⟩, by decide⟩
    exact absurd (hpasses.clean_of_exact hexact).1 (by decide +kernel)
  · intro hexact
    have hpasses : Passes leasedWorkspace (onFile "aaa") (text "aa") (text "b") (text "aaa") :=
      ⟨by decide +kernel, ⟨_, rfl, decode?_text _⟩, by decide +kernel,
        ⟨"ba".toUTF8, by decide +kernel, by decide +kernel⟩, by decide⟩
    exact absurd (hpasses.clean_of_exact hexact).2 (by decide +kernel)

/-! ## A list of patches -/

/-- The content a patch produces. -/
def produced (content : Text) (p : Patch) : Text :=
  replaceFirst (p.old.getD []) (p.new.getD []) content

/-- The content the patches produce, one after the other. -/
def contentAfter (content : Text) (patches : List Patch) : Text :=
  patches.foldl produced content

/-- Every patch replaces an occurrence of its old text in the content produced
by the ones before it. -/
def AppliesAll : Text → List Patch → Prop
  | _, [] => True
  | content, p :: ps =>
    (∃ old new pre post, p.old = some old ∧ p.new = some new ∧ content = pre ++ old ++ post ∧
      produced content p = pre ++ new ++ post) ∧ AppliesAll (produced content p) ps

/-- The old text of every patch stands in the content produced by the ones
before it. -/
def FoundInTurn : Text → List Patch → Prop
  | _, [] => True
  | content, p :: ps => p.old.getD [] <:+: content ∧ FoundInTurn (produced content p) ps

/-- The patch has its two keys. -/
def Patch.Keyed (p : Patch) : Prop := p.old.isSome ∧ p.new.isSome

/-- `patch` returns, with the file patched throughout or left alone. -/
def AllOrNothing (call : EditCall) (patches : List Patch) (e : Edited) : Prop :=
  ∃ r, e.ended = .ok r ∧
    (r.ok = true → ∃ before content after, call.lookup = .file before ∧
      decode? before = some content ∧ AppliesAll content patches ∧
      encode? (contentAfter content patches) = some after ∧ e.file = some after) ∧
    (r.ok = false → e.file = call.lookup.content)

/-- The patches are applied to the text `s` of the file, and how that may end:
the file is left alone, or it holds no carriage return and every patch finds its
text when its turn comes, or the write replaces it with what it was and fails. -/
structure Applicable (ws : RestrictedWorkspace) (call : EditCall) (patches : List Patch)
    (bytes : ByteArray) (s : Text) : Prop where
  keyed : ∀ p ∈ patches, p.Keyed
  encodes : ∃ b, encode? (contentAfter (universalNewlines s) patches) = some b ∧
    (b.size ≤ ws.maxWriteBytes →
      (call.writes.completes = true → carriageReturn ∉ s ∧ FoundInTurn s patches) ∧
      (call.writes.completes = false → call.writes.replaces = true → b = bytes))

/-- The calls on which `patch` keeps its promise. -/
def Safe (ws : RestrictedWorkspace) (call : EditCall) (patches : List Patch) : Prop :=
  (checkLease ws.lease call.token call.now).2 = none → patches ≠ [] →
    (∀ error, call.lookup ≠ .malformed error) ∧
    ∀ bytes, call.lookup = .file bytes → ∃ s, decode? bytes = some s ∧
      ((∀ p ∈ patches, p.old.getD [] <:+: universalNewlines s) →
        Applicable ws call patches bytes s)

variable {content newContent : Text} {i : Nat} {relPath : String}

theorem validatePatches_ok (relPath : String) (i : Nat) :
    validatePatches relPath content i patches = .ok () ↔
    ∀ p ∈ patches, p.old.getD [] <:+: content := by
  induction patches generalizing i with
  | nil => simp [validatePatches]
  | cons p ps ih =>
    unfold validatePatches
    by_cases hfound : p.old.getD [] <:+: content
    · rw [if_pos hfound, ih (i + 1)]
      simp [hfound]
    · rw [if_neg hfound]
      simp [hfound]

/-- The validation refuses, it never raises. -/
theorem validatePatches_error {stop : Stop}
    (h : validatePatches relPath content i patches = .error stop) :
    ∃ error, stop = .refused error := by
  induction patches generalizing i with
  | nil => cases h
  | cons p ps ih =>
    unfold validatePatches at h
    split at h
    · exact ih h
    · cases h
      exact ⟨_, rfl⟩

theorem applyPatches_ok : applyPatches content patches = .ok newContent ↔
    (∀ p ∈ patches, p.Keyed) ∧ newContent = contentAfter content patches := by
  induction patches generalizing content with
  | nil => simp [applyPatches, contentAfter, eq_comm]
  | cons p ps ih =>
    obtain ⟨old, new⟩ := p
    unfold applyPatches
    cases old with
    | none => simp [lookupKey, Patch.Keyed, bind, Except.bind]
    | some old =>
      cases new with
      | none => simp [lookupKey, Patch.Keyed, bind, Except.bind]
      | some new =>
        simp only [lookupKey, bind, Except.bind, ih, List.forall_mem_cons]
        simp [Patch.Keyed, contentAfter, produced]

/-- The application raises, it never refuses. -/
theorem applyPatches_error {stop : Stop} (h : applyPatches content patches = .error stop) :
    ∃ e, stop = .raised e := by
  induction patches generalizing content with
  | nil => cases h
  | cons p ps ih =>
    obtain ⟨old, new⟩ := p
    unfold applyPatches at h
    cases old with
    | none =>
      cases h
      exact ⟨_, rfl⟩
    | some old =>
      cases new with
      | none =>
        cases h
        exact ⟨_, rfl⟩
      | some new => exact ih h

theorem patched_ok : patched relPath patches content = .ok newContent ↔
    (∀ p ∈ patches, p.old.getD [] <:+: content) ∧ (∀ p ∈ patches, p.Keyed) ∧
      newContent = contentAfter content patches := by
  rw [← applyPatches_ok, ← validatePatches_ok relPath 0]
  unfold patched
  cases validatePatches relPath content 0 patches with
  | error stop => simp [bind, Except.bind]
  | ok u => simp [bind, Except.bind]

theorem patched_raised : (∃ e, patched relPath patches content = .error (.raised e)) ↔
    (∀ p ∈ patches, p.old.getD [] <:+: content) ∧ ¬ ∀ p ∈ patches, p.Keyed := by
  have happly : (∀ p ∈ patches, p.Keyed) ↔ ∃ newContent,
      applyPatches content patches = .ok newContent := by
    simp [applyPatches_ok]
  rw [happly, ← validatePatches_ok relPath 0]
  unfold patched
  cases hvalid : validatePatches relPath content 0 patches with
  | error stop =>
    obtain ⟨error, rfl⟩ := validatePatches_error hvalid
    simp [bind, Except.bind]
  | ok u =>
    cases happly : applyPatches content patches with
    | error stop =>
      obtain ⟨e, rfl⟩ := applyPatches_error happly
      simp [bind, Except.bind]
    | ok out => simp [bind, Except.bind]

theorem AppliesAll.found (h : AppliesAll content patches) : FoundInTurn content patches := by
  induction patches generalizing content with
  | nil => trivial
  | cons p ps ih =>
    obtain ⟨⟨old, new, pre, post, hold, -, hcut, -⟩, hrest⟩ := h
    refine ⟨?_, ih hrest⟩
    rw [hold]
    exact infix_iff_cut.mpr ⟨pre, post, hcut⟩

theorem FoundInTurn.applies (h : FoundInTurn content patches) (hkeyed : ∀ p ∈ patches, p.Keyed) :
    AppliesAll content patches := by
  induction patches generalizing content with
  | nil => trivial
  | cons p ps ih =>
    obtain ⟨hfound, hrest⟩ := h
    obtain ⟨hold, hnew⟩ := hkeyed p List.mem_cons_self
    refine ⟨?_, ih hrest fun q hq => hkeyed q (List.mem_cons_of_mem _ hq)⟩
    obtain ⟨pre, post, hcut, hreplaced⟩ := replaceFirst_found (p.new.getD []) hfound
    obtain ⟨old, hold⟩ := Option.isSome_iff_exists.mp hold
    obtain ⟨new, hnew⟩ := Option.isSome_iff_exists.mp hnew
    simp only [hold, hnew, Option.getD_some] at hcut hreplaced
    exact ⟨old, new, pre, post, hold, hnew, hcut, by simp [produced, hold, hnew, hreplaced]⟩

/-- The carriage returns the patches bring. -/
def returnsOf (patches : List Patch) : Nat :=
  (patches.map fun p => (p.new.getD []).count carriageReturn).sum

theorem produced_returns {p : Patch} (content : Text) (hp : carriageReturn ∉ p.old.getD []) :
    (produced content p).count carriageReturn ≤
        content.count carriageReturn + (p.new.getD []).count carriageReturn ∧
      (p.old.getD [] <:+: content → (produced content p).count carriageReturn =
        content.count carriageReturn + (p.new.getD []).count carriageReturn) := by
  have hnone := List.count_eq_zero.mpr hp
  by_cases hfound : p.old.getD [] <:+: content
  · have hcount := count_elem_replaceFirst carriageReturn (p.new.getD []) hfound
    unfold produced
    omega
  · unfold produced
    rw [replaceFirst_missing hfound]
    exact ⟨Nat.le_add_right _ _, fun h => absurd h hfound⟩

/-- Patches whose old texts hold no carriage return take none away; those that
are all found add what they bring. -/
theorem contentAfter_returns (content : Text) (hold : ∀ p ∈ patches, carriageReturn ∉ p.old.getD []) :
    (contentAfter content patches).count carriageReturn ≤
        content.count carriageReturn + returnsOf patches ∧
      (FoundInTurn content patches → (contentAfter content patches).count carriageReturn =
        content.count carriageReturn + returnsOf patches) := by
  induction patches generalizing content with
  | nil => simp [contentAfter, returnsOf]
  | cons p ps ih =>
    obtain ⟨hle, heq⟩ := produced_returns content (hold p List.mem_cons_self)
    obtain ⟨hles, heqs⟩ :=
      ih (produced content p) fun q hq => hold q (List.mem_cons_of_mem _ hq)
    have hsum : returnsOf (p :: ps) =
        (p.new.getD []).count carriageReturn + returnsOf ps := by
      simp [returnsOf]
    have hstep : contentAfter content (p :: ps) = contentAfter (produced content p) ps := rfl
    rw [hsum, hstep]
    constructor
    · omega
    · rintro ⟨hfound, hrest⟩
      rw [heqs hrest, heq hfound]
      omega

/-- The patched file of a text read with its carriage returns is never the one
the code writes. -/
theorem clean_of_contentAfter_eq
    (hvalid : ∀ p ∈ patches, p.old.getD [] <:+: universalNewlines s)
    (hfound : FoundInTurn s patches)
    (heq : contentAfter s patches = contentAfter (universalNewlines s) patches) :
    carriageReturn ∉ s := by
  have hold : ∀ p ∈ patches, carriageReturn ∉ p.old.getD [] :=
    fun p hp hin => carriageReturn_notMem s ((hvalid p hp).subset hin)
  have hraw := (contentAfter_returns s hold).2 hfound
  have hread := (contentAfter_returns (universalNewlines s) hold).1
  rw [List.count_eq_zero.mpr (carriageReturn_notMem s), ← heq, hraw] at hread
  rw [← List.count_eq_zero]
  omega

theorem early_none : (if patches = [] then some "No patches provided" else none) =
    (none : Option String) ↔ patches ≠ [] := by
  by_cases h : patches = [] <;> simp [h]

/-- An edit ends in the write, in a refusal or in an exception. -/
theorem prepare_cases (ws : RestrictedWorkspace) (call : EditCall) (early : Option String)
    (change : Text → Except Stop Text) (tooLarge : String) :
    (∃ b, prepare ws call early change tooLarge = .ok b) ∨
      (∃ error, prepare ws call early change tooLarge = .error (.refused error)) ∨
      (∃ e, prepare ws call early change tooLarge = .error (.raised e)) := by
  match prepare ws call early change tooLarge with
  | .ok b => exact .inl ⟨b, rfl⟩
  | .error (.refused error) => exact .inr (.inl ⟨error, rfl⟩)
  | .error (.raised e) => exact .inr (.inr ⟨e, rfl⟩)

/-- A `patch` that keeps its promise met none of the defects. -/
theorem safe_of_allOrNothing
    (h : AllOrNothing call patches (ws.patch sha256 call patches)) : Safe ws call patches := by
  obtain ⟨r, hended, hdone, hundone⟩ := h
  intro hleased hne
  have hreturns : ¬ ∃ e, prepare ws call
      (if patches = [] then some "No patches provided" else none)
      (patched call.relPath patches) "Patched content would exceed write size limit" =
        .error (.raised e) := by
    rintro ⟨e, hraised⟩
    have hraise := edit_raised sha256 "patch" hraised
    rw [RestrictedWorkspace.patch, hraise] at hended
    cases hended
  rw [prepare_raised] at hreturns
  have hdefect := fun h => hreturns ⟨hleased, early_none.mpr hne, h⟩
  obtain ⟨hformed, hread⟩ := not_or.mp hdefect
  refine ⟨fun error herror => hformed ⟨error, herror⟩, ?_⟩
  intro bytes hlookup
  have hnone : decode? bytes ≠ none := fun h => hread ⟨bytes, hlookup, .inl h⟩
  obtain ⟨s, hdecode⟩ := Option.ne_none_iff_exists'.mp hnone
  refine ⟨s, hdecode, ?_⟩
  intro hvalid
  have hkeyed : ∀ p ∈ patches, p.Keyed := by
    by_contra hnot
    exact hread ⟨bytes, hlookup, .inr ⟨s, hdecode, .inl (patched_raised.mpr ⟨hvalid, hnot⟩)⟩⟩
  have hpatched : patched call.relPath patches (universalNewlines s) =
      .ok (contentAfter (universalNewlines s) patches) :=
    patched_ok.mpr ⟨hvalid, hkeyed, rfl⟩
  have hencodes : encode? (contentAfter (universalNewlines s) patches) ≠ none :=
    fun h => hread ⟨bytes, hlookup, .inr ⟨s, hdecode, .inr ⟨_, hpatched, h⟩⟩⟩
  obtain ⟨b, hencode⟩ := Option.ne_none_iff_exists'.mp hencodes
  refine ⟨hkeyed, b, hencode, ?_⟩
  intro hsize
  obtain ⟨hfile, r', hended', hok⟩ := edit_wrote sha256 "patch" hlookup
    (prepare_ok.mpr ⟨hleased, early_none.mpr hne, bytes, s, _, hlookup, hdecode, hpatched,
      hencode, hsize⟩)
  rw [RestrictedWorkspace.patch, hended'] at hended
  cases hended
  rw [RestrictedWorkspace.patch, hfile] at hdone hundone
  constructor
  · intro hwritten
    obtain ⟨before, content, after, hlookup', hdecode', happlied, hafter, hfile'⟩ :=
      hdone (hok.trans hwritten)
    rw [hlookup] at hlookup'
    cases hlookup'
    rw [hdecode] at hdecode'
    cases hdecode'
    rw [if_pos (WriteCalls.replaces_of_completes hwritten)] at hfile'
    cases hfile'
    exact ⟨clean_of_contentAfter_eq hvalid happlied.found (encode?_inj hafter hencode),
      happlied.found⟩
  · intro hwritten hreplaced
    have hkept := hundone (hok.trans hwritten)
    rw [if_pos hreplaced, hlookup] at hkept
    exact Option.some.inj hkept

theorem allOrNothing_of_safe (sha256 : ByteArray → String) (h : Safe ws call patches) :
    AllOrNothing call patches (ws.patch sha256 call patches) := by
  rcases prepare_cases ws call (if patches = [] then some "No patches provided" else none)
    (patched call.relPath patches) "Patched content would exceed write size limit" with
    ⟨b, hprepared⟩ | ⟨error, hrefused⟩ | hraised
  · obtain ⟨hleased, hearly, bytes, s, out, hlookup, hdecode, hpatched, hencode, hsize⟩ :=
      prepare_ok.mp hprepared
    obtain ⟨hvalid, hkeyed, rfl⟩ := patched_ok.mp hpatched
    obtain ⟨hfile, r, hended, hok⟩ := edit_wrote sha256 "patch" hlookup hprepared
    obtain ⟨-, hsafe⟩ := h hleased (early_none.mp hearly)
    obtain ⟨s', hdecode', happlicable⟩ := hsafe bytes hlookup
    rw [hdecode] at hdecode'
    cases hdecode'
    obtain ⟨-, b', hencode', hends⟩ := happlicable hvalid
    rw [hencode] at hencode'
    cases hencode'
    obtain ⟨hdone, hundone⟩ := hends hsize
    refine ⟨r, hended, ?_, ?_⟩
    · intro hr
      have hwritten := hok.symm.trans hr
      obtain ⟨hclean, hfound⟩ := hdone hwritten
      rw [if_pos (WriteCalls.replaces_of_completes hwritten)] at hfile
      rw [universalNewlines_eq_self hclean] at hencode
      exact ⟨bytes, s, b, hlookup, hdecode, hfound.applies hkeyed, hencode, hfile⟩
    · intro hr
      have hfailed := hok.symm.trans hr
      rw [RestrictedWorkspace.patch, hfile, hlookup, Lookup.content]
      by_cases hreplaced : call.writes.replaces = true
      · rw [if_pos hreplaced, hundone hfailed hreplaced]
      · rw [if_neg hreplaced]
  · obtain ⟨hfile, r, hended, hr⟩ := edit_refused sha256 "patch" hrefused
    refine ⟨r, hended, ?_, fun _ => hfile⟩
    intro hok
    rw [hr] at hok
    cases hok
  · exfalso
    obtain ⟨hleased, hearly, hdefect⟩ := prepare_raised.mp hraised
    obtain ⟨hformed, hsafe⟩ := h hleased (early_none.mp hearly)
    rcases hdefect with ⟨error, herror⟩ | ⟨bytes, hlookup, hread⟩
    · exact hformed error herror
    · obtain ⟨s, hdecode, happlicable⟩ := hsafe bytes hlookup
      rcases hread with hnone | ⟨s', hdecode', hchange⟩
      · rw [hdecode] at hnone
        cases hnone
      · rw [hdecode] at hdecode'
        cases hdecode'
        rcases hchange with hraises | ⟨out, hpatched, hnone⟩
        · obtain ⟨hvalid, hnot⟩ := patched_raised.mp hraises
          exact hnot (happlicable hvalid).keyed
        · obtain ⟨hvalid, -, rfl⟩ := patched_ok.mp hpatched
          obtain ⟨b, hencode, -⟩ := (happlicable hvalid).encodes
          rw [hencode] at hnone
          cases hnone

/-- **When `patch` applies every patch or none.** Exactly on the calls that are
`Safe`: refused before the file is read, or reading a file in UTF-8 in which
either some old text is missing, or every patch has its keys, the patched text
can be encoded, and it is too large, or its write fails before the replacement,
or there is no carriage return in the file and each patch finds its text in its
turn; a write that fails after the replacement has to write what was there. -/
theorem patch_all_or_nothing_iff (sha256 : ByteArray → String) (ws : RestrictedWorkspace)
    (call : EditCall) (patches : List Patch) :
    AllOrNothing call patches (ws.patch sha256 call patches) ↔ Safe ws call patches :=
  ⟨safe_of_allOrNothing, allOrNothing_of_safe sha256⟩

/-- The second of two patches is dropped, the first having consumed its text,
and the call succeeds. -/
theorem patch_consumes_target :
    ¬ AllOrNothing (onFile "ab")
      [⟨some (text "ab"), some (text "x")⟩, ⟨some (text "b"), some (text "y")⟩]
      (leasedWorkspace.patch (fun _ => "") (onFile "ab")
        [⟨some (text "ab"), some (text "x")⟩, ⟨some (text "b"), some (text "y")⟩]) := by
  intro hkept
  obtain ⟨-, hsafe⟩ := safe_of_allOrNothing hkept (by decide +kernel) (by decide)
  obtain ⟨s, hdecode, happlicable⟩ := hsafe _ rfl
  rw [decode?_text] at hdecode
  cases hdecode
  have hvalid : ∀ p ∈ [(⟨some (text "ab"), some (text "x")⟩ : Patch),
      ⟨some (text "b"), some (text "y")⟩], p.old.getD [] <:+: universalNewlines (text "ab") := by
    decide +kernel
  obtain ⟨b, hencode, hends⟩ := (happlicable hvalid).encodes
  have hb : some b = some "x".toUTF8 := hencode.symm.trans (by decide +kernel)
  cases hb
  obtain ⟨-, -, hsecond, -⟩ := (hends (by decide +kernel)).1 (by decide)
  exact absurd hsecond (by decide +kernel)

end Workspace

end Northstack
