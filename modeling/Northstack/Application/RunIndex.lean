import Northstack.Adapters.Ledger
import Northstack.Core.Fallible
import Northstack.Core.Sightings

/-!
# The run index

`RunIndex` maps a run id to the workspace whose ledger has the run. At startup it
pages through the ledgers of the workspaces it is given and takes an id out again
when it comes up in a second workspace.

**Results.**
* `loadPages_eq`: paging sees every run of a readable ledger, whatever the page size.
* `load_historical_index`: what the index holds is decided by where the runs are, not
  by the order of the roots; registering keeps what is mapped and refuses what is
  ambiguous.
-/
namespace Northstack

open Sightings

/-- `RunSummary`, as far as `_list_runs` reads the events for it. -/
structure RunSummary where
  runId : String
  status : String
  outcome : Option String
  eventCount : Nat
  deriving DecidableEq

/-- The tables of a ledger, the events in the order of their ids. -/
structure LedgerFile where
  events : List Ledger.Row
  tombstones : List String

/-- `_typed_payload` of a status and of an outcome event; `none` if it raises. -/
structure PayloadReader where
  status : Ledger.Row → Option String
  outcome : Ledger.Row → Option String

namespace LedgerFile

/-- The highest id of the run's events. -/
def lastRowid (f : LedgerFile) (runId : String) : Nat :=
  f.events.length - (f.events.reverse.map (·.runId)).idxOf runId

/-- The runs the grouped query gives without limit, `sqlite_ledger.py:323-331` -/
def runIds (f : LedgerFile) : List String :=
  ((f.events.map (·.runId)).dedup.filter (· ∉ f.tombstones)).mergeSort fun a b =>
    f.lastRowid b ≤ f.lastRowid a

/-- The most recent event of a kind, `sqlite_ledger.py:339-360` -/
def latest (f : LedgerFile) (runId kind : String) : Option Ledger.Row :=
  ((Ledger.rowsOf f.events runId).filter (·.kind = kind)).getLast?

/-- `latest_status.get(rid, "unknown")`, `none` if the event cannot be read. -/
def statusOf (reader : PayloadReader) (f : LedgerFile) (runId : String) : Option String :=
  match f.latest runId "status_changed" with
  | none => some "unknown"
  | some row => reader.status row

/-- `latest_outcome.get(rid)`, `none` if the event cannot be read. -/
def outcomeOf (reader : PayloadReader) (f : LedgerFile) (runId : String) :
    Option (Option String) :=
  match f.latest runId "outcome_emitted" with
  | none => some none
  | some row => (reader.outcome row).map some

/-- The summary of one run, `sqlite_ledger.py:339-374` -/
def summary? (reader : PayloadReader) (f : LedgerFile) (runId : String) : Option RunSummary := do
  let status ← statusOf reader f runId
  let outcome ← outcomeOf reader f runId
  return {
    runId, status, outcome
    eventCount := (Ledger.rowsOf f.events runId).length }

/-- `Ledger.list_runs`; `none` if it raises. `sqlite_ledger.py:294-374` -/
def listRuns (reader : PayloadReader) (f : LedgerFile) (limit offset : Nat) :
    Option (List RunSummary) :=
  ((f.runIds.drop offset).take limit).mapM (f.summary? reader)

/-- Every run has a summary. -/
def Readable (reader : PayloadReader) (f : LedgerFile) : Prop :=
  ∀ runId ∈ f.runIds, (f.summary? reader runId).isSome

theorem mem_runIds {f : LedgerFile} {runId : String} :
    runId ∈ f.runIds ↔ (∃ row ∈ f.events, row.runId = runId) ∧ runId ∉ f.tombstones := by
  unfold runIds
  rw [List.mem_mergeSort, List.mem_filter, List.mem_dedup, List.mem_map, decide_eq_true_eq]

theorem summary?_runId {reader : PayloadReader} {f : LedgerFile} {runId : String} {s : RunSummary}
    (h : f.summary? reader runId = some s) : s.runId = runId := by
  unfold summary? at h
  simp only [Option.bind_eq_bind, Option.bind_eq_some_iff, Option.pure_def, Option.some.injEq] at h
  obtain ⟨status, -, outcome, -, rfl⟩ := h
  rfl

theorem mapM_summary {reader : PayloadReader} {f : LedgerFile} {ids : List String}
    {page : List RunSummary} (h : ids.mapM (f.summary? reader) = some page) :
    page.map (·.runId) = ids := by
  induction ids generalizing page with
  | nil =>
    obtain rfl : [] = page := Option.some.inj h
    rfl
  | cons runId ids ih =>
    rw [List.mapM_cons] at h
    simp only [Option.bind_eq_bind, Option.bind_eq_some_iff, Option.pure_def,
      Option.some.injEq] at h
    obtain ⟨s, hs, rest, hrest, rfl⟩ := h
    rw [List.map_cons, ih hrest, summary?_runId hs]

/-- The ids of a page. -/
theorem listRuns_ids {reader : PayloadReader} {f : LedgerFile} {limit offset : Nat}
    {page : List RunSummary} (h : f.listRuns reader limit offset = some page) :
    page.map (·.runId) = (f.runIds.drop offset).take limit := mapM_summary h

theorem listRuns_isSome {reader : PayloadReader} {f : LedgerFile} (h : f.Readable reader)
    (limit offset : Nat) : ∃ page, f.listRuns reader limit offset = some page := by
  have hids : ∀ ids : List String, (∀ runId ∈ ids, runId ∈ f.runIds) →
      ∃ page, ids.mapM (f.summary? reader) = some page := by
    intro ids hmem
    induction ids with
    | nil => exact ⟨[], rfl⟩
    | cons runId ids ih =>
      obtain ⟨page, hpage⟩ := ih fun r hr => hmem r (List.mem_cons_of_mem _ hr)
      obtain ⟨s, hs⟩ := Option.isSome_iff_exists.mp (h runId (hmem runId List.mem_cons_self))
      exact ⟨s :: page, by rw [List.mapM_cons, hs, hpage]; rfl⟩
  exact hids _ fun runId hr => List.mem_of_mem_drop (List.mem_of_mem_take hr)

end LedgerFile

/-! ## The index -/

/-- `run_index.py:51-58` -/
structure RunIndex where
  runs : String → Option String
  workspaces : Finset String
  ambiguous : Finset String

/-- `RunIndex()` -/
def RunIndex.empty : RunIndex := { runs := fun _ => none, workspaces := ∅, ambiguous := ∅ }

/-- What a workspace directory has for a ledger: no file, one that cannot be opened, or one. -/
inductive LedgerAt
  | absent
  | unopenable
  | ledger (f : LedgerFile)

/-- The file system: `str(Path(p).resolve())`, and the ledger of a resolved root. -/
structure LedgerDirs where
  resolve : String → String
  ledgerAt : String → LedgerAt

namespace RunIndex

/-- `register`, `run_index.py:60-66`; `none` for the `DuplicateRunIdError`. -/
def register (dirs : LedgerDirs) (idx : RunIndex) (runId workspace : String) : Option RunIndex :=
  let root := dirs.resolve workspace
  let existing := idx.runs runId
  if runId ∈ idx.ambiguous ∨ (existing ≠ none ∧ existing ≠ some root) then none
  else some { idx with
    runs := Function.update idx.runs runId (some root)
    workspaces := insert root idx.workspaces }

/-- `forget`, `run_index.py:68-69` -/
def forget (idx : RunIndex) (runId : String) : RunIndex :=
  { idx with runs := Function.update idx.runs runId none }

/-- One summary of a page, `run_index.py:108-124` -/
def sight (resolved : String) (idx : RunIndex) (runId : String) : RunIndex :=
  let existing := idx.runs runId
  if runId ∈ idx.ambiguous then idx
  else if existing ≠ none ∧ existing ≠ some resolved then
    { idx with
      runs := Function.update idx.runs runId none
      ambiguous := insert runId idx.ambiguous }
  else { idx with runs := Function.update idx.runs runId (some resolved) }

/-- The loop over the pages of a ledger from an offset on; it ends where `list_runs` raises.
`run_index.py:104-125` -/
def loadPages (reader : PayloadReader) (f : LedgerFile) (pageSize : ℕ+) (resolved : String)
    (idx : RunIndex) (offset : Nat) : RunIndex :=
  match _h : f.listRuns reader pageSize offset with
  | none => idx
  | some [] => idx
  | some (s :: page) =>
    loadPages reader f pageSize resolved
      ((s :: page).foldl (fun idx s => idx.sight resolved s.runId) idx)
      (offset + (s :: page).length)
termination_by f.runIds.length - offset
decreasing_by
  have hlen := congrArg List.length (LedgerFile.listRuns_ids _h)
  simp only [List.length_map, List.length_take, List.length_drop, List.length_cons] at hlen ⊢
  omega

/-- One root, `run_index.py:95-129` -/
def loadRoot (reader : PayloadReader) (dirs : LedgerDirs) (pageSize : ℕ+) (idx : RunIndex)
    (root : String) : RunIndex :=
  let resolved := dirs.resolve root
  match dirs.ledgerAt resolved with
  | .absent => idx
  | .unopenable => idx
  | .ledger f =>
    loadPages reader f pageSize resolved
      { idx with workspaces := insert resolved idx.workspaces } 0

/-- `load_historical`, `run_index.py:89-129` -/
def loadHistorical (reader : PayloadReader) (dirs : LedgerDirs) (pageSize : ℕ+) (idx : RunIndex)
    (roots : List String) : RunIndex :=
  roots.foldl (loadRoot reader dirs pageSize) idx

/-! ## What is loaded -/

variable {reader : PayloadReader} {f : LedgerFile} {dirs : LedgerDirs} {idx : RunIndex}
  {resolved : String}

/-- The map and the ambiguous ids, as an index of sightings. -/
def index (idx : RunIndex) : Index String String :=
  { place := idx.runs, ambiguous := idx.ambiguous }

theorem sight_index (runId : String) :
    (idx.sight resolved runId).index = idx.index.see runId resolved := by
  unfold sight Index.see index
  dsimp only
  split
  · rfl
  · cases hruns : idx.runs runId with
    | none => simp
    | some w =>
      by_cases hw : w = resolved
      · subst hw
        simp only [ne_eq, reduceCtorEq, not_false_eq_true, not_true_eq_false, and_false,
          if_false, if_true]
        rw [← hruns, Function.update_eq_self]
      · simp [hw]

theorem foldl_sight_index (page : List RunSummary) :
    (page.foldl (fun idx s => idx.sight resolved s.runId) idx).index =
      idx.index.seeAll (page.map fun s => (s.runId, resolved)) := by
  induction page generalizing idx with
  | nil => rfl
  | cons s page ih =>
    rw [List.foldl_cons, ih, sight_index]
    rfl

/-- Paging sees every run from the offset on. -/
theorem loadPages_eq (h : f.Readable reader) (pageSize : ℕ+) (offset : Nat) :
    (loadPages reader f pageSize resolved idx offset).index =
      idx.index.seeAll ((f.runIds.drop offset).map fun runId => (runId, resolved)) := by
  fun_induction loadPages reader f pageSize resolved idx offset with
  | case1 idx offset hnone =>
    obtain ⟨page, hpage⟩ := LedgerFile.listRuns_isSome h pageSize offset
    rw [hpage] at hnone
    cases hnone
  | case2 idx offset hpage =>
    -- an empty page is one behind the end
    have hids := LedgerFile.listRuns_ids hpage
    rw [List.map_nil, eq_comm, List.take_eq_nil_iff] at hids
    rw [hids.resolve_left pageSize.ne_zero]
    rfl
  | case3 idx offset s page hpage ih =>
    have hids := LedgerFile.listRuns_ids hpage
    have hlen : (f.runIds.drop offset).drop (s :: page).length =
        (f.runIds.drop offset).drop pageSize := by
      have hlength := congrArg List.length hids
      rw [List.length_map, List.length_take] at hlength
      rcases Nat.le_total (pageSize : Nat) (f.runIds.drop offset).length with hle | hle
      · rw [hlength, Nat.min_eq_left hle]
      · rw [hlength, Nat.min_eq_right hle, List.drop_length, List.drop_of_length_le hle]
    rw [ih, foldl_sight_index, ← List.drop_drop, hlen, ← Index.seeAll_append]
    congr 1
    rw [← List.take_append_drop pageSize (f.runIds.drop offset), List.map_append,
      List.take_append_drop, ← hids, List.map_map]
    rfl

/-! ## Loading the history -/

/-- There is no ledger, or one each run of which can be listed. -/
def ReadableAt (reader : PayloadReader) : LedgerAt → Prop
  | .absent => True
  | .unopenable => False
  | .ledger f => f.Readable reader

/-- The runs of a workspace. -/
def runsAt : LedgerAt → List String
  | .absent => []
  | .unopenable => []
  | .ledger f => f.runIds

/-- Where the runs of the roots are seen. -/
def sightings (dirs : LedgerDirs) (roots : List String) : List (String × String) :=
  roots.flatMap fun root =>
    (runsAt (dirs.ledgerAt (dirs.resolve root))).map fun runId => (runId, dirs.resolve root)

/-- A run that is not hidden, in the ledger of a workspace one of the roots resolves to. -/
def Holds (dirs : LedgerDirs) (roots : List String) (runId workspace : String) : Prop :=
  ∃ root ∈ roots, dirs.resolve root = workspace ∧ ∃ f, dirs.ledgerAt workspace = .ledger f ∧
    (∃ row ∈ f.events, row.runId = runId) ∧ runId ∉ f.tombstones

theorem mem_sightings {roots : List String} {runId workspace : String} :
    (runId, workspace) ∈ sightings dirs roots ↔ Holds dirs roots runId workspace := by
  unfold sightings Holds
  rw [List.mem_flatMap]
  constructor
  · intro h
    obtain ⟨root, hroot, hmem⟩ := h
    obtain ⟨r, hr, heq⟩ := List.mem_map.mp hmem
    obtain ⟨rfl, rfl⟩ := Prod.mk.inj heq
    refine ⟨root, hroot, rfl, ?_⟩
    cases hat : dirs.ledgerAt (dirs.resolve root) with
    | absent =>
      rw [hat] at hr
      cases hr
    | unopenable =>
      rw [hat] at hr
      cases hr
    | ledger f =>
      rw [hat] at hr
      exact ⟨f, rfl, LedgerFile.mem_runIds.mp hr⟩
  · intro h
    obtain ⟨root, hroot, rfl, f, hat, hrun⟩ := h
    refine ⟨root, hroot, List.mem_map.mpr ⟨runId, ?_, rfl⟩⟩
    rw [hat]
    exact LedgerFile.mem_runIds.mpr hrun

theorem loadRoot_index {root : String} (pageSize : ℕ+)
    (h : ReadableAt reader (dirs.ledgerAt (dirs.resolve root))) :
    (loadRoot reader dirs pageSize idx root).index =
      idx.index.seeAll ((runsAt (dirs.ledgerAt (dirs.resolve root))).map fun runId =>
        (runId, dirs.resolve root)) := by
  unfold loadRoot
  dsimp only
  cases hat : dirs.ledgerAt (dirs.resolve root) with
  | absent => rfl
  | unopenable =>
    rw [hat] at h
    exact h.elim
  | ledger f =>
    rw [hat] at h
    exact loadPages_eq h pageSize 0

theorem loadHistorical_index {roots : List String} (pageSize : ℕ+)
    (h : ∀ root ∈ roots, ReadableAt reader (dirs.ledgerAt (dirs.resolve root))) :
    (loadHistorical reader dirs pageSize idx roots).index =
      idx.index.seeAll (sightings dirs roots) := by
  unfold loadHistorical
  induction roots generalizing idx with
  | nil => rfl
  | cons root roots ih =>
    rw [List.foldl_cons, ih fun r hr => h r (List.mem_cons_of_mem _ hr),
      loadRoot_index pageSize (h root List.mem_cons_self), ← Index.seeAll_append]
    rfl

theorem loadHistorical_indexes (roots : List String) (pageSize : ℕ+)
    (h : ∀ root ∈ roots, ReadableAt reader (dirs.ledgerAt (dirs.resolve root))) :
    Indexes (loadHistorical reader dirs pageSize .empty roots).index (sightings dirs roots) := by
  rw [loadHistorical_index pageSize h]
  exact indexes_empty.seeAll (sightings dirs roots)

/-! ## Later registrations -/

/-- What is done to an index once it is loaded. -/
inductive IndexMove
  | register (runId workspace : String)
  | forget (runId : String)

/-- A move; what `register` refuses changes nothing. -/
def move (dirs : LedgerDirs) (idx : RunIndex) : IndexMove → RunIndex
  | .register runId workspace => (idx.register dirs runId workspace).getD idx
  | .forget runId => idx.forget runId

theorem register_eq_some {runId workspace : String} {next : RunIndex}
    (h : idx.register dirs runId workspace = some next) :
    runId ∉ idx.ambiguous ∧ next.ambiguous = idx.ambiguous ∧
      ∀ other w, idx.runs other = some w → next.runs other = some w := by
  unfold register at h
  dsimp only at h
  split at h
  · cases h
  · rename_i hfree
    rw [not_or] at hfree
    obtain rfl := Option.some.inj h
    refine ⟨hfree.1, rfl, ?_⟩
    intro other w hw
    dsimp only
    by_cases heq : other = runId
    · subst heq
      rw [Function.update_self]
      have hsame := hfree.2
      simp only [hw, ne_eq, reduceCtorEq, not_false_eq_true, true_and, not_not] at hsame
      exact hsame.symm
    · rwa [Function.update_of_ne heq]

theorem move_ambiguous (m : IndexMove) : (idx.move dirs m).ambiguous = idx.ambiguous := by
  cases m with
  | forget runId => rfl
  | register runId workspace =>
    rw [move]
    cases hr : idx.register dirs runId workspace with
    | none => rfl
    | some next => exact (register_eq_some hr).2.1

theorem moves_ambiguous (moves : List IndexMove) :
    (moves.foldl (move dirs) idx).ambiguous = idx.ambiguous := by
  induction moves generalizing idx with
  | nil => rfl
  | cons m moves ih => rw [List.foldl_cons, ih, move_ambiguous]

/-- **The run index.** After loading, an id is mapped if one workspace has it and
ambiguous if several do; after any registrations since, a registration changes no
mapping and an ambiguous id is refused. -/
theorem load_historical_index (reader : PayloadReader) (dirs : LedgerDirs) (pageSize : ℕ+)
    (roots : List String)
    (h : ∀ root ∈ roots, ReadableAt reader (dirs.ledgerAt (dirs.resolve root))) :
    (∀ roots', (∀ root, root ∈ roots' ↔ root ∈ roots) →
      (loadHistorical reader dirs pageSize .empty roots').runs =
          (loadHistorical reader dirs pageSize .empty roots).runs ∧
        (loadHistorical reader dirs pageSize .empty roots').ambiguous =
          (loadHistorical reader dirs pageSize .empty roots).ambiguous) ∧
    (∀ runId workspace,
      (loadHistorical reader dirs pageSize .empty roots).runs runId = some workspace ↔
        Holds dirs roots runId workspace ∧
          ∀ other, Holds dirs roots runId other → other = workspace) ∧
    (∀ runId, runId ∈ (loadHistorical reader dirs pageSize .empty roots).ambiguous ↔
      ∃ workspace other, Holds dirs roots runId workspace ∧ Holds dirs roots runId other ∧
        workspace ≠ other) ∧
    (∀ runId ∈ (loadHistorical reader dirs pageSize .empty roots).ambiguous,
      (loadHistorical reader dirs pageSize .empty roots).runs runId = none) ∧
    ∀ (moves : List IndexMove) (now : RunIndex),
      moves.foldl (move dirs) (loadHistorical reader dirs pageSize .empty roots) = now →
      ∀ runId workspace,
        (runId ∈ (loadHistorical reader dirs pageSize .empty roots).ambiguous →
          now.register dirs runId workspace = none) ∧
        ∀ next, now.register dirs runId workspace = some next →
          ∀ other w, now.runs other = some w → next.runs other = some w := by
  have hloaded := loadHistorical_indexes roots pageSize h
  refine ⟨?_, ?_, ?_, fun runId hr => hloaded.not_both hr, ?_⟩
  · intro roots' hsame
    have hloaded' := loadHistorical_indexes roots' pageSize
      fun root hroot => h root ((hsame root).mp hroot)
    refine hloaded'.unique hloaded fun s => ?_
    rw [mem_sightings, mem_sightings]
    simp only [Holds, hsame]
  · intro runId workspace
    have hplace := hloaded.place runId workspace
    simp only [mem_sightings] at hplace
    exact hplace
  · intro runId
    have hambiguous := hloaded.ambiguous runId
    simp only [mem_sightings] at hambiguous
    exact hambiguous
  · intro moves now hnow runId workspace
    have hkept : now.ambiguous = (loadHistorical reader dirs pageSize .empty roots).ambiguous := by
      rw [← hnow, moves_ambiguous]
    refine ⟨?_, fun next hnext => (register_eq_some hnext).2.2⟩
    intro hr
    cases hregister : now.register dirs runId workspace with
    | none => rfl
    | some next =>
      rw [← hkept] at hr
      exact absurd hr (register_eq_some hregister).1

/-- The first event of a run. -/
def created (runId : String) : Ledger.Row :=
  { runId, seq := 1, kind := "run_created", payload := "\x7b\x7d", schemaVersion := 1,
    timestamp := Double.zero, prevHash := "", hashChain := "" }

/-- One run in two workspaces. -/
def copied : LedgerDirs :=
  { resolve := fun p => p
    ledgerAt := fun _ => .ledger { events := [created "run-1"], tombstones := [] } }

/-- A reader of events none of which is corrupt. -/
def lenient : PayloadReader :=
  { status := fun _ => some "verified", outcome := fun _ => some "verified" }

theorem readable_lenient (f : LedgerFile) : f.Readable lenient := by
  intro runId _
  unfold LedgerFile.summary? LedgerFile.statusOf LedgerFile.outcomeOf
  cases f.latest runId "status_changed" <;> cases f.latest runId "outcome_emitted" <;> rfl

theorem load_historical_copied :
    "run-1" ∈ (loadHistorical lenient copied 500 .empty ["/work/a", "/work/b"]).ambiguous := by
  have hholds : ∀ root ∈ ["/work/a", "/work/b"],
      Holds copied ["/work/a", "/work/b"] "run-1" root :=
    fun root hroot => ⟨root, hroot, rfl, _, rfl, ⟨_, List.mem_singleton.mpr rfl, rfl⟩, by decide⟩
  have hindex := load_historical_index lenient copied 500 ["/work/a", "/work/b"]
    fun root _ => readable_lenient _
  exact (hindex.2.2.1 "run-1").mpr ⟨"/work/a", "/work/b", hholds _ (by decide),
    hholds _ (by decide), by decide⟩

end RunIndex

end Northstack
