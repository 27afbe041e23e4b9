import Northstack.Adapters.LedgerIntegrity

/-!
# Reading the ledger

Mirrors `Ledger.events`, `Ledger.events_since` and `_row_to_event`
(adapters/sqlite_ledger.py:270-292, 483-531). A read is one statement under the
lock; `none` where a row is refused.

**Results.**
* `kept_after`, `Kept.legible`: after any calls every run can be read, and its events are
  numbered.
* `Legible.since`: what `events_since` gives of the events of a run.
* `Kept.appendNext`: `append_next` stores what can be stored.
-/
namespace Northstack

open JsonText

namespace Ledger

/-- `EventEnvelope` as it is read back. -/
structure StoredEvent (π : Type) where
  runId : String
  seq : Int
  payload : π
  timestamp : Double
  prevHash : String
  hashChain : String

section

variable {π : Type} (cat : Catalog π)

/-- `_row_to_event` (sqlite_ledger.py:483-491), with `_row_payload`. -/
def rowToEvent (row : Row) : Option (StoredEvent π) :=
  match loads row.payload with
  | .ok (.obj data) =>
    if 1 ≤ row.seq ∧ row.timestamp.isFinite = true then
      (rowPayload cat row.kind data).map fun payload =>
        { runId := row.runId, seq := row.seq, payload := payload, timestamp := row.timestamp
          prevHash := row.prevHash, hashChain := row.hashChain }
    else none
  | _ => none

/-- `Ledger.events` (sqlite_ledger.py:270-279) -/
def events (table : List Row) (runId : String) : Option (List (StoredEvent π)) :=
  (rowsOf table runId).mapM (rowToEvent cat)

/-- `Ledger.events_since` (sqlite_ledger.py:281-292) -/
def eventsSince (table : List Row) (runId : String) (since : Int := 0) (limit : Nat := 500) :
    Option (List (StoredEvent π)) :=
  (((rowsOf table runId).filter (since < ·.seq)).take limit).mapM (rowToEvent cat)

/-- The run's rows are numbered and all of them can be read. -/
structure Legible (table : List Row) (runId : String) (log : List (StoredEvent π)) : Prop where
  numbered : Numbered (rowsOf table runId)
  reads : events cat table runId = some log

/-- The rows of every run are numbered, and all rows can be read. -/
structure Kept (table : List Row) : Prop where
  numbered : ∀ runId, Numbered (table.filter (·.runId = runId))
  reads : ∀ row ∈ table, (rowToEvent cat row).isSome = true

end

variable {sha256 : String → String} {π : Type} {cat : Catalog π} {table table' rows : List Row}
  {calls : List (Call π)} {c : Call π} {row : Row} {runId : String}
  {log : List (StoredEvent π)} {event : StoredEvent π}

/-! ## Reading rows -/

theorem mapM_eq_some {α β : Type} {f : α → Option β} {as : List α} {bs : List β} :
    as.mapM f = some bs ↔ List.Forall₂ (fun a b => f a = some b) as bs := by
  induction as generalizing bs with
  | nil => cases bs <;> simp
  | cons a as ih =>
    rw [List.mapM_cons]
    constructor
    · intro h
      obtain ⟨b, hb, h⟩ := Option.bind_eq_some_iff.mp h
      obtain ⟨bs', hbs, h⟩ := Option.bind_eq_some_iff.mp h
      cases h
      exact .cons hb (ih.mp hbs)
    · intro h
      cases h with
      | cons hb hbs =>
        rw [hb, ih.mpr hbs]
        rfl

theorem mapM_of_isSome {α β : Type} {f : α → Option β} {as : List α}
    (h : ∀ a ∈ as, (f a).isSome = true) : ∃ bs, as.mapM f = some bs := by
  induction as with
  | nil => exact ⟨[], rfl⟩
  | cons a as ih =>
    obtain ⟨b, hb⟩ := Option.isSome_iff_exists.mp (h a List.mem_cons_self)
    obtain ⟨bs, hbs⟩ := ih fun a' ha' => h a' (List.mem_cons_of_mem a ha')
    exact ⟨b :: bs, mapM_eq_some.mpr (.cons hb (mapM_eq_some.mp hbs))⟩

theorem rowToEvent_seq (h : rowToEvent cat row = some event) : event.seq = row.seq := by
  unfold rowToEvent at h
  split at h
  · split at h
    · obtain ⟨payload, -, rfl⟩ := Option.map_eq_some_iff.mp h
      rfl
    · cases h
  · cases h

/-- In a numbered history the rows behind a number are those behind a place. -/
theorem filter_seq {k since : Nat} (h : rows.map (·.seq) =
    (List.range' k rows.length).map fun i : Nat => (i : Int) + 1) :
    rows.filter ((since : Int) < ·.seq) = rows.drop (since - k) := by
  induction rows generalizing k with
  | nil => simp
  | cons r rows ih =>
    rw [List.length_cons, List.range'_succ, List.map_cons, List.map_cons] at h
    obtain ⟨hr, hrows⟩ := List.cons.inj h
    have htail := ih hrows
    by_cases hle : since ≤ k
    · have hkept : (since : Int) < r.seq := by omega
      have hzero : since - (k + 1) = 0 := by omega
      have hzero' : since - k = 0 := by omega
      rw [List.filter_cons_of_pos (by simpa using hkept), htail, hzero, hzero', List.drop_zero,
        List.drop_zero]
    · have hdropped : ¬ (since : Int) < r.seq := by omega
      have hsucc : since - k = since - (k + 1) + 1 := by omega
      rw [List.filter_cons_of_neg (by simpa using hdropped), htail, hsucc, List.drop_succ_cons]

theorem Numbered.filter_since (h : Numbered rows) (since : Nat) :
    rows.filter ((since : Int) < ·.seq) = rows.drop since := by
  unfold Numbered at h
  rw [List.range_eq_range'] at h
  exact filter_seq h

/-! ## What a reader sees -/

theorem Legible.byRow (h : Legible cat table runId log) :
    List.Forall₂ (fun row event => rowToEvent cat row = some event) (rowsOf table runId) log :=
  mapM_eq_some.mp h.reads

theorem Legible.length (h : Legible cat table runId log) :
    (rowsOf table runId).length = log.length := h.byRow.length_eq

/-- **Reading on.** The events behind the first `since`, and no more than the limit. -/
theorem Legible.since (h : Legible cat table runId log) (since limit : Nat) :
    eventsSince cat table runId since limit = some ((log.drop since).take limit) := by
  unfold eventsSince
  rw [h.numbered.filter_since]
  exact mapM_eq_some.mpr (List.forall₂_take limit (List.forall₂_drop since h.byRow))

theorem seqs_of_rows
    (h : List.Forall₂ (fun row event => rowToEvent cat row = some event) rows log) :
    log.map (·.seq) = rows.map (·.seq) := by
  induction h with
  | nil => rfl
  | cons hread _ ih => rw [List.map_cons, List.map_cons, ih, rowToEvent_seq hread]

/-- The events are numbered as the rows are. -/
theorem Legible.seq (h : Legible cat table runId log) :
    log.map (·.seq) = (List.range log.length).map fun i : Nat => (i : Int) + 1 := by
  rw [seqs_of_rows h.byRow, ← h.length]
  exact h.numbered

/-! ## What the calls keep -/

theorem realColumn_finite {x : Double} (h : x.isFinite = true) :
    (realColumn x).isFinite = true := by
  unfold realColumn
  split
  · rfl
  · exact h

/-- A stored row is read back. -/
theorem persisted_event {event : EventEnvelope π} (hcat : cat.Lawful)
    (h : persisted sha256 cat table event = .ok row) : (rowToEvent cat row).isSome = true := by
  obtain ⟨hload, hpayload⟩ := persisted_reads hcat h
  obtain ⟨_, _, _, -, -, -, -, rfl⟩ := persisted_cases h
  unfold rowToEvent
  rw [hload]
  dsimp only
  rw [if_pos ⟨event.seq_pos, realColumn_finite event.timestamp_finite⟩, Option.isSome_map]
  exact hpayload

theorem Kept.nil : Kept cat [] := ⟨fun _ => rfl, fun _ h => (by cases h)⟩

theorem Kept.rowsOf_eq (h : Kept cat table) (runId : String) :
    rowsOf table runId = table.filter (·.runId = runId) := (h.numbered runId).rowsOf_eq

theorem Kept.legible (h : Kept cat table) (runId : String) :
    ∃ log, Legible cat table runId log := by
  have hread : ∀ row ∈ rowsOf table runId, (rowToEvent cat row).isSome = true := by
    intro row hrow
    rw [h.rowsOf_eq] at hrow
    exact h.reads row (List.mem_of_mem_filter hrow)
  obtain ⟨log, hlog⟩ := mapM_of_isSome hread
  exact ⟨log, by rw [h.rowsOf_eq]; exact h.numbered runId, hlog⟩

/-- **One call.** A call that returns keeps every run readable and puts one row
behind the others of its run. -/
theorem Kept.perform (hcat : cat.Lawful) (h : Kept cat table)
    (hperform : perform sha256 cat table c = (table', .ok row)) :
    Kept cat table' ∧ ∀ runId, rowsOf table' runId =
      rowsOf table runId ++ if row.runId = runId then [row] else [] := by
  obtain ⟨event, -, -, -, hpersisted, hinsert⟩ := perform_cases hperform
  have hrun : row.runId = event.runId := by
    obtain ⟨_, _, _, -, -, -, -, rfl⟩ := persisted_cases hpersisted
    rfl
  obtain rfl := insertRow_ok hinsert
  have hfilter : ∀ runId, (table ++ [row]).filter (·.runId = runId) =
      table.filter (·.runId = runId) ++ if row.runId = runId then [row] else [] := by
    intro runId
    rw [List.filter_append]
    by_cases heq : row.runId = runId
    · simp [heq]
    · simp [heq]
  have hkept : Kept cat (table ++ [row]) := by
    constructor
    · intro runId
      rw [hfilter]
      split
      · rename_i heq
        subst heq
        refine (h.numbered _).snoc ?_
        rw [hrun]
        exact (persisted_place (h.numbered event.runId) hpersisted).1
      · rw [List.append_nil]
        exact h.numbered runId
    · intro r hr
      rcases List.mem_append.mp hr with hr | hr
      · exact h.reads r hr
      · rw [List.mem_singleton.mp hr]
        exact persisted_event hcat hpersisted
  refine ⟨hkept, fun runId => ?_⟩
  rw [hkept.rowsOf_eq, h.rowsOf_eq, hfilter]

/-- **Growing.** Whatever a call does, the events of a run stay, and at most others
follow. -/
theorem Kept.grows (sha256 : String → String) (hcat : cat.Lawful) (h : Kept cat table)
    (c : Call π) :
    Kept cat (Ledger.perform sha256 cat table c).1 ∧ ∀ runId log, Legible cat table runId log →
      ∃ more, Legible cat (Ledger.perform sha256 cat table c).1 runId (log ++ more) := by
  cases hr : (Ledger.perform sha256 cat table c).2 with
  | error e =>
    rw [call_failed hr]
    exact ⟨h, fun runId log hlog => ⟨[], by rwa [List.append_nil]⟩⟩
  | ok row =>
    obtain ⟨hkept, hrows⟩ := h.perform hcat (Prod.ext rfl hr)
    refine ⟨hkept, fun runId log hlog => ?_⟩
    obtain ⟨log', hlog'⟩ := hkept.legible runId
    have hread := hlog'.reads
    unfold events at hread
    rw [hrows, List.mapM_append] at hread
    obtain ⟨log₁, hlog₁, hread⟩ := Option.bind_eq_some_iff.mp hread
    obtain ⟨more, -, hread⟩ := Option.bind_eq_some_iff.mp hread
    obtain rfl : log = log₁ := Option.some.inj (hlog.reads.symm.trans hlog₁)
    obtain rfl : log ++ more = log' := Option.some.inj hread
    exact ⟨more, hlog'⟩

/-- What is kept is kept after any calls. -/
theorem kept_after (hcat : cat.Lawful) (calls : List (Call π)) :
    Kept cat (tableAfter sha256 cat calls) :=
  tableAfter_rule .nil fun _ _ _ _ _ h hperform => (h.perform hcat hperform).1

/-! ## Appending -/

/-- What is left of the payload after redaction is still one that can be stored. -/
structure Storable (cat : Catalog π) (payload : π) : Prop where
  version : cat.schemaVersion payload ≤ currentSchemaVersion
  written : writable (.obj (redactFields (cat.dump payload))) = true
  parsed : (cat.parse (redactFields (cat.dump payload))).isSome = true

theorem Numbered.next (h : Numbered rows) :
    (rows.getLast?.map (·.seq + 1)).getD 1 = (rows.length : Int) + 1 := by
  cases rows using List.reverseRecOn with
  | nil => rfl
  | append_singleton rows row =>
    rw [List.getLast?_concat, Option.map_some, Option.getD_some, h.last, List.length_append,
      List.length_singleton]
    push_cast
    rfl

/-- The place `append_next` computes is the one `_store` asks for. -/
theorem link_next {event : EventEnvelope π} {prev : Option Row}
    (hseq : event.seq = (prev.map (·.seq + 1)).getD 1)
    (hprev : event.prevHash = (prev.map (·.hashChain)).getD "") :
    link event prev = .ok ((prev.map (·.hashChain)).getD "") := by
  unfold link
  cases prev with
  | none => simp [hseq]
  | some r => simp [hseq, hprev]

theorem persisted_ok {event : EventEnvelope π} {prevHash : String}
    (hp : Storable cat event.payload) (hdigits : writable (.int event.seq) = true)
    (hversion : writable (.int (cat.schemaVersion event.payload)) = true)
    (hlink : link event (prevEvent table event.runId) = .ok prevHash) :
    ∃ row, persisted sha256 cat table event = .ok row ∧ row.runId = event.runId ∧
      row.seq = event.seq := by
  obtain ⟨parsed, hparsed⟩ := Option.isSome_iff_exists.mp hp.parsed
  unfold persisted computeHash
  dsimp only
  rw [if_neg (not_lt.mpr hp.version), hlink]
  dsimp only
  rw [if_pos (hashed_writable.mpr ⟨hdigits, hp.written, hversion⟩)]
  dsimp only
  rw [hparsed]
  exact ⟨_, rfl, rfl, rfl⟩

theorem Kept.fresh (h : Kept cat table) {seq : Int}
    (hseq : ((rowsOf table runId).length : Int) < seq) :
    table.any (fun r => r.runId = runId ∧ r.seq = seq) = false := by
  rw [List.any_eq_false]
  intro r hr hsame
  rw [decide_eq_true_iff] at hsame
  have hmem : r ∈ rowsOf table runId := by
    rw [h.rowsOf_eq]
    exact List.mem_filter.mpr ⟨hr, decide_eq_true hsame.1⟩
  have hnumbered := h.numbered runId
  rw [← h.rowsOf_eq] at hnumbered
  have hin : r.seq ∈ (rowsOf table runId).map (·.seq) := List.mem_map_of_mem hmem
  rw [hnumbered] at hin
  obtain ⟨i, hi, heq⟩ := List.mem_map.mp hin
  rw [List.mem_range] at hi
  omega

theorem transaction_returns {body : List Row → List Row × Except LedgerError Row}
    (h : body table = (table', .ok row)) : transaction none body table = (table', .ok row) := by
  unfold transaction
  simp [h]

theorem Kept.insertRow (h : Kept cat table) (hrun : row.runId = runId)
    (hseq : row.seq = (rowsOf table runId).length + 1)
    (hroom : (rowsOf table runId).length + 1 < 2 ^ 63) :
    Ledger.insertRow table row = .ok (table ++ [row]) := by
  have hfresh : table.any (fun r => r.runId = row.runId ∧ r.seq = row.seq) = false := by
    rw [hrun]
    exact h.fresh (by omega)
  unfold Ledger.insertRow
  rw [if_neg (by omega), hfresh]
  rfl

/-- **Appending.** `append_next` stores what can be stored, as long as the database
does not fail and the number fits its column. -/
theorem Kept.appendNext {payload : π} {now : Double} (sha256 : String → String)
    (hcat : cat.Lawful) (h : Kept cat table) (hp : Storable cat payload)
    (hnow : now.isFinite = true) (hroom : (rowsOf table runId).length + 1 < 2 ^ 63) :
    ∃ table' row, Ledger.perform sha256 cat table (.appendNext none runId payload now) =
      (table', .ok row) ∧ row.runId = runId := by
  have hnumbered : Numbered (rowsOf table runId) := by
    rw [h.rowsOf_eq]
    exact h.numbered runId
  have hseq : ((prevEvent table runId).map (·.seq + 1)).getD 1 =
      ((rowsOf table runId).length : Int) + 1 := hnumbered.next
  have hpos : 1 ≤ ((prevEvent table runId).map (·.seq + 1)).getD 1 ∧ now.isFinite = true := by
    rw [hseq]
    exact ⟨by omega, hnow⟩
  have hdigits : writable (.int (((prevEvent table runId).map (·.seq + 1)).getD 1)) = true := by
    rw [hseq]
    have hlength : (decimal ((rowsOf table runId).length + 1 : Int).natAbs).length ≤ 63 := by
      apply length_decimal_le (by decide)
      calc ((rowsOf table runId).length + 1 : Int).natAbs < 2 ^ 63 := by omega
        _ ≤ 10 ^ 63 := Nat.pow_le_pow_left (by decide) 63
    exact decide_eq_true (hlength.trans (by decide))
  have hone : cat.schemaVersion payload = 1 := le_antisymm hp.version (hcat.version_pos payload)
  have hversion : writable (.int (cat.schemaVersion payload)) = true := by
    rw [hone]
    decide
  let event : EventEnvelope π :=
    { runId := runId, seq := ((prevEvent table runId).map (·.seq + 1)).getD 1
      payload := payload, timestamp := now
      prevHash := ((prevEvent table runId).map (·.hashChain)).getD ""
      seq_pos := hpos.1, timestamp_finite := hpos.2 }
  have hstored : ∃ row, persisted sha256 cat table event = .ok row ∧ row.runId = runId ∧
      row.seq = event.seq := persisted_ok hp hdigits hversion (link_next rfl rfl)
  obtain ⟨row, hrow, hrun, hrowseq⟩ := hstored
  have hinsert := h.insertRow hrun (hrowseq.trans hseq) hroom
  have hstore : store sha256 cat none event table = (table ++ [row], .ok row) := by
    unfold store
    rw [hrow]
    simp [hinsert]
  refine ⟨table ++ [row], row, ?_, hrun⟩
  unfold Ledger.perform Ledger.appendNext
  apply transaction_returns
  dsimp only
  rw [dif_pos hpos]
  exact hstore

end Ledger

end Northstack
