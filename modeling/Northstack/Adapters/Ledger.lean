import Northstack.Core.JsonValues
import Northstack.Domain.SecretsPolicy

/-!
# The event ledger

Mirrors `Ledger` (adapters/sqlite_ledger.py): `append` and `append_next` share
`_store`, which redacts the payload, checks the sequence and the link, hashes,
parses what it is about to store and inserts a row; `_verify_integrity` reads the
rows of a run back and recomputes every hash.

The table is the list of its rows in the order of insertion; a call is atomic
under the lock and `BEGIN IMMEDIATE`. The hash and the pydantic models of the
catalog are parameters. A row read back has the values that were bound, except
that SQLite keeps a float of integral value in a REAL column as an integer, so
that the sign of a zero is lost.

**Results.**
* `call_failed`: a call that raises leaves the table as it was.
* `perform_cases`: what a call that returns has added.
-/
namespace Northstack

open JsonText

/-- A float of the language. -/
abbrev Double := {x : PyFloat // x.IsDouble}

def Double.zero : Double := ⟨.finite false 0, rfl⟩

def Double.negZero : Double := ⟨.finite true 0, rfl⟩

/-- `math.isfinite` -/
def Double.isFinite : Double → Bool
  | ⟨.finite _ _, _⟩ => true
  | _ => false

instance : DecidableEq Double := inferInstanceAs (DecidableEq {x : PyFloat // x.IsDouble})

namespace Ledger

/-- `CURRENT_SCHEMA_VERSION` -/
def currentSchemaVersion : Int := 1

/-- The values of `EventKind` (catalog.py:40-68). -/
def eventKinds : List String :=
  ["run_created", "status_changed", "cell_created", "cell_advanced", "claim_recorded",
   "artifact_stored", "budget_updated", "request_accepted", "workspace_snapshot",
   "analysis_requested", "analysis_completed", "contract_proposed", "contract_validated",
   "contract_amended", "graph_proposed", "graph_accepted", "route_selected", "cell_started",
   "cell_progress", "cell_completed", "cell_failed", "evidence_recorded", "verification_check",
   "recovery_transition", "outcome_emitted", "stall_detected"]

/-- The payload models: `model_dump(mode="json")`, and `parse_payload`, which is
`none` for a `ValidationError`. -/
structure Catalog (π : Type) where
  kind : π → String
  schemaVersion : π → Int
  dump : π → List (String × Json)
  parse : List (String × Json) → Option π

/-- `EventEnvelope` (envelope.py:19-44), neither infinite nor `nan` in time;
`hash_chain` is the ledger's to fill. -/
structure EventEnvelope (π : Type) where
  runId : String
  seq : Int
  payload : π
  timestamp : Double
  prevHash : String := ""
  seq_pos : 1 ≤ seq
  timestamp_finite : timestamp.isFinite = true

/-- A row of the table `events`. -/
structure Row where
  runId : String
  seq : Int
  kind : String
  payload : String
  schemaVersion : Int
  timestamp : Double
  prevHash : String
  hashChain : String

inductive LedgerError where
  | valueError (message : String)
  /-- A `ValidationError`. -/
  | validation
  /-- An integer too large for SQLite. -/
  | overflow
  /-- Whatever the database raises. -/
  | database
  deriving DecidableEq

/-- What a float comes back as from a REAL column. -/
def realColumn (x : Double) : Double := if x = Double.negZero then Double.zero else x

/-- The rows of a run, `ORDER BY seq`. -/
def rowsOf (table : List Row) (runId : String) : List Row :=
  (table.filter (·.runId = runId)).insertionSort fun r s => r.seq ≤ s.seq

/-- `_prev_event` (sqlite_ledger.py:483-489) -/
def prevEvent (table : List Row) (runId : String) : Option Row := (rowsOf table runId).getLast?

/-! ## Hashing -/

/-- The object that is hashed (sqlite_ledger.py:557-566). -/
def hashed (runId : String) (seq : Int) (kind : String) (payload : List (String × Json))
    (prevHash : String) (schemaVersion : Int) (timestamp : Double) : Json :=
  .obj [("run_id", .str runId), ("seq", .int seq), ("kind", .str kind), ("payload", .obj payload),
    ("prev_hash", .str prevHash), ("schema_version", .int schemaVersion),
    ("timestamp", .float timestamp.1)]

section

variable (sha256 : String → String)

/-- `_compute_hash` (sqlite_ledger.py:546-569), `none` where `json.dumps` raises. -/
def computeHash (j : Json) : Option String :=
  if writable j then some (sha256 (dumpsSorted .compact j)) else none

variable {π : Type} (cat : Catalog π)

/-! ## Storing -/

def digitsMessage : String :=
  "Exceeds the limit (4300 digits) for integer string conversion; " ++
    "use sys.set_int_max_str_digits() to increase the limit"

/-- The link to the row before, or what is wrong with the event's place
(sqlite_ledger.py:214-230). -/
def link (event : EventEnvelope π) : Option Row → Except LedgerError String
  | none =>
    if event.seq ≠ 1 then
      .error (.valueError
        s!"First event for run {event.runId} must have seq=1, got {event.seq}")
    else .ok ""
  | some prev =>
    if event.seq ≠ prev.seq + 1 then
      .error (.valueError
        s!"Sequence must be monotonic: expected {prev.seq + 1}, got {event.seq}")
    else if event.prevHash ≠ "" ∧ event.prevHash ≠ prev.hashChain then
      .error (.valueError
        (s!"Hash chain broken: expected prev_hash={PyText.slice 16 prev.hashChain}..., " ++
          s!"got {PyText.slice 16 event.prevHash}..."))
    else .ok prev.hashChain

/-- `_store` up to the insertion (sqlite_ledger.py:208-248). -/
def persisted (table : List Row) (event : EventEnvelope π) : Except LedgerError Row :=
  let version := cat.schemaVersion event.payload
  if currentSchemaVersion < version then
    .error (.valueError s!"Schema version {version} exceeds max {currentSchemaVersion}")
  else
    let payload := redactFields (cat.dump event.payload)
    match link event (prevEvent table event.runId) with
    | .error e => .error e
    | .ok prevHash =>
      match computeHash sha256 (hashed event.runId event.seq (cat.kind event.payload) payload
          prevHash version event.timestamp) with
      | none => .error (.valueError digitsMessage)
      | some storedHash =>
        match cat.parse payload with
        | none => .error .validation
        | some parsed => .ok
          { runId := event.runId
            seq := event.seq
            kind := cat.kind parsed
            payload := dumpsSorted .default (.obj payload)
            schemaVersion := cat.schemaVersion parsed
            timestamp := realColumn event.timestamp
            prevHash := prevHash
            hashChain := storedHash }

/-- `INSERT INTO events`, with the column's range and `UNIQUE(run_id, seq)`. -/
def insertRow (table : List Row) (row : Row) : Except LedgerError (List Row) :=
  if 2 ^ 63 ≤ row.seq then .error .overflow
  else if table.any fun r => r.runId = row.runId ∧ r.seq = row.seq then .error .database
  else .ok (table ++ [row])

/-- Where the database raises. -/
inductive Fault where
  | begin | insert | commit
  deriving DecidableEq

/-- `_store`: the table it leaves, committed or not, and the row or the error. -/
def store (fault : Option Fault) (event : EventEnvelope π) (table : List Row) :
    List Row × Except LedgerError Row :=
  match persisted sha256 cat table event with
  | .error e => (table, .error e)
  | .ok row =>
    if fault = some .insert then (table, .error .database)
    else match insertRow table row with
      | .error e => (table, .error e)
      | .ok table' =>
        if fault = some .commit then (table', .error .database) else (table', .ok row)

/-- `BEGIN IMMEDIATE`, and a rollback if the body raises. -/
def transaction (fault : Option Fault) (body : List Row → List Row × Except LedgerError Row)
    (table : List Row) : List Row × Except LedgerError Row :=
  if fault = some .begin then (table, .error .database)
  else match body table with
    | (table', .ok row) => (table', .ok row)
    | (_, .error e) => (table, .error e)

/-- `Ledger.append` (sqlite_ledger.py:175-188) -/
def append (fault : Option Fault) (event : EventEnvelope π) (table : List Row) :
    List Row × Except LedgerError Row :=
  transaction fault (store sha256 cat fault event) table

/-- `Ledger.append_next` (sqlite_ledger.py:190-206), the clock reading `now`. -/
def appendNext (fault : Option Fault) (runId : String) (payload : π) (now : Double)
    (table : List Row) : List Row × Except LedgerError Row :=
  transaction fault (fun table =>
    let prev := prevEvent table runId
    let seq := (prev.map (·.seq + 1)).getD 1
    if h : 1 ≤ seq ∧ now.isFinite = true then
      store sha256 cat fault
        { runId := runId, seq := seq, payload := payload, timestamp := now,
          prevHash := (prev.map (·.hashChain)).getD "", seq_pos := h.1,
          timestamp_finite := h.2 } table
    else (table, .error .validation)) table

/-- A call of the ledger, and where the database raises in it. -/
inductive Call (π : Type) where
  | append (fault : Option Fault) (event : EventEnvelope π)
  | appendNext (fault : Option Fault) (runId : String) (payload : π) (now : Double)

def Call.timestamp : Call π → Double
  | .append _ event => event.timestamp
  | .appendNext _ _ _ now => now

def Call.runId : Call π → String
  | .append _ event => event.runId
  | .appendNext _ runId _ _ => runId

def Call.payload : Call π → π
  | .append _ event => event.payload
  | .appendNext _ _ payload _ => payload

def perform (table : List Row) : Call π → List Row × Except LedgerError Row
  | .append fault event => append sha256 cat fault event table
  | .appendNext fault runId payload now => appendNext sha256 cat fault runId payload now table

/-- The table after some calls, whoever made them. -/
def tableAfter (calls : List (Call π)) : List Row :=
  calls.foldl (fun table c => (perform sha256 cat table c).1) []

/-! ## Verifying -/

/-- `upcast` (upcast.py:42-58): no version but the current one can be read. -/
def upcast (data : List (String × Json)) : Option (List (String × Json)) :=
  let version := match Json.lookup "schema_version" data with
    | none => some 1
    | some (.int v) => some v
    | some (.bool b) => some (if b then 1 else 0)
    | some _ => none
  if version = some currentSchemaVersion then some data else none

/-- `_row_payload` (sqlite_ledger.py:505-531), `none` for `LedgerCorruption`. -/
def rowPayload (kind : String) (data : List (String × Json)) : Option π :=
  if kind ∉ eventKinds then none
  else if (Json.lookup "kind" data).isNone then none
  else (upcast data).bind cat.parse

/-- What the loop of `_verify_integrity` finds of a row. -/
inductive RowCheck where
  | passed
  | failed (category : String)
  /-- The check itself raises: an integer past the digit limit. -/
  | raised
  deriving DecidableEq

/-- The body of the loop (sqlite_ledger.py:399-470). -/
def checkRow (prevHash : String) (row : Row) : RowCheck :=
  if row.prevHash ≠ prevHash then .failed "prev_hash"
  else match loads row.payload with
    | .error .malformed => .failed "payload_json"
    | .error .tooManyDigits => .raised
    | .ok (.obj payload) =>
      match computeHash sha256 (hashed row.runId row.seq row.kind payload row.prevHash
          row.schemaVersion row.timestamp) with
      | none => .raised
      | some recomputed =>
        if recomputed ≠ row.hashChain then .failed "hash_mismatch"
        else if (rowPayload cat row.kind payload).isNone then .failed "event_schema"
        else .passed
    | .ok _ => .failed "payload_type"

/-- `IntegrityResult`, without its message. -/
inductive IntegrityResult where
  | ok (eventsChecked : Nat)
  | broken (eventsChecked : Nat) (errorAtSeq : Int) (category : String)
  | raised
  deriving DecidableEq

/-- The loop of `_verify_integrity`, `n` rows being checked. -/
def verifyRows : String → Nat → List Row → IntegrityResult
  | _, n, [] => .ok n
  | prevHash, n, row :: rows =>
    match checkRow sha256 cat prevHash row with
    | .passed => verifyRows row.hashChain (n + 1) rows
    | .failed category => .broken n row.seq category
    | .raised => .raised

/-- `_verify_integrity` (sqlite_ledger.py:381-473) on the rows of a run. -/
def verifyIntegrity (rows : List Row) : IntegrityResult := verifyRows sha256 cat "" 0 rows

/-! ## What a call leaves -/

variable {sha256} {cat}

/-- **Failing calls.** Whatever a call raises, the table is as it was. -/
theorem call_failed {table : List Row} {c : Call π} {e : LedgerError}
    (h : (perform sha256 cat table c).2 = .error e) : (perform sha256 cat table c).1 = table := by
  have htransaction : ∀ (fault : Option Fault)
      (body : List Row → List Row × Except LedgerError Row),
      (transaction fault body table).2 = .error e → (transaction fault body table).1 = table := by
    intro fault body h
    unfold transaction at h ⊢
    split
    · rfl
    · rename_i hfault
      rw [if_neg hfault] at h
      split
      · rename_i table' row hbody
        rw [hbody] at h
        cases h
      · rfl
  cases c with
  | append fault event => exact htransaction _ _ h
  | appendNext fault runId payload now => exact htransaction _ _ h

theorem tableAfter_snoc {calls : List (Call π)} {c : Call π} :
    tableAfter sha256 cat (calls ++ [c]) =
      (perform sha256 cat (tableAfter sha256 cat calls) c).1 := by
  unfold tableAfter
  rw [List.foldl_append]
  rfl

/-- An accepted event is stored behind the rows of the table. -/
theorem store_cases {fault : Option Fault} {event : EventEnvelope π} {table table' : List Row}
    {row : Row} (h : store sha256 cat fault event table = (table', .ok row)) :
    persisted sha256 cat table event = .ok row ∧ insertRow table row = .ok table' := by
  unfold store at h
  split at h
  · cases h
  · rename_i row' hrow
    split at h
    · cases h
    · split at h
      · cases h
      · rename_i table'' hinsert
        split at h
        · cases h
        · cases h
          exact ⟨hrow, hinsert⟩

theorem transaction_ok {fault : Option Fault} {body : List Row → List Row × Except LedgerError Row}
    {table table' : List Row} {row : Row} (h : transaction fault body table = (table', .ok row)) :
    body table = (table', .ok row) := by
  unfold transaction at h
  split at h
  · cases h
  · split at h
    · rename_i hbody
      cases h
      exact hbody
    · cases h

/-- The place an accepted event is given. -/
theorem link_cases {event : EventEnvelope π} {prev : Option Row} {p : String}
    (h : link event prev = .ok p) :
    (prev = none ∧ event.seq = 1 ∧ p = "") ∨
      ∃ r, prev = some r ∧ event.seq = r.seq + 1 ∧ p = r.hashChain := by
  cases prev with
  | none =>
    unfold link at h
    dsimp only at h
    split at h
    · cases h
    · rename_i hseq
      cases h
      exact .inl ⟨rfl, not_not.mp hseq, rfl⟩
  | some r =>
    unfold link at h
    dsimp only at h
    split at h
    · cases h
    · rename_i hseq
      split at h
      · cases h
      · cases h
        exact .inr ⟨r, rfl, not_not.mp hseq, rfl⟩

theorem persisted_cases {event : EventEnvelope π} {table : List Row} {row : Row}
    (h : persisted sha256 cat table event = .ok row) :
    ∃ prevHash storedHash parsed, cat.schemaVersion event.payload ≤ currentSchemaVersion ∧
      link event (prevEvent table event.runId) = .ok prevHash ∧
      computeHash sha256 (hashed event.runId event.seq (cat.kind event.payload)
        (redactFields (cat.dump event.payload)) prevHash (cat.schemaVersion event.payload)
        event.timestamp) = some storedHash ∧
      cat.parse (redactFields (cat.dump event.payload)) = some parsed ∧
      row =
        { runId := event.runId
          seq := event.seq
          kind := cat.kind parsed
          payload := dumpsSorted .default (.obj (redactFields (cat.dump event.payload)))
          schemaVersion := cat.schemaVersion parsed
          timestamp := realColumn event.timestamp
          prevHash := prevHash
          hashChain := storedHash } := by
  unfold persisted at h
  dsimp only at h
  split at h
  · cases h
  · rename_i hversion
    split at h
    · cases h
    · rename_i prevHash hlink
      split at h
      · cases h
      · rename_i storedHash hhash
        split at h
        · cases h
        · rename_i parsed hparse
          cases h
          exact ⟨prevHash, storedHash, parsed, not_lt.mp hversion, hlink, hhash, hparse, rfl⟩

theorem computeHash_some {j : Json} {h : String} (hh : computeHash sha256 j = some h) :
    writable j = true ∧ h = sha256 (dumpsSorted .compact j) := by
  unfold computeHash at hh
  split at hh
  · rename_i hw
    exact ⟨hw, (Option.some.inj hh).symm⟩
  · cases hh

theorem insertRow_ok {table table' : List Row} {row : Row} (h : insertRow table row = .ok table') :
    table' = table ++ [row] := by
  unfold insertRow at h
  split at h
  · cases h
  · split at h
    · cases h
    · cases h
      rfl

theorem mem_of_prevEvent {table : List Row} {runId : String} {r : Row}
    (h : prevEvent table runId = some r) : r ∈ table := by
  have hmem : r ∈ rowsOf table runId := List.mem_of_getLast? h
  unfold rowsOf at hmem
  rw [List.mem_insertionSort] at hmem
  exact List.mem_of_mem_filter hmem

/-- **Calls that return.** Such a call has stored one event, of the run, with the
payload and at the time it was given, behind the rows of the table. -/
theorem perform_cases {c : Call π} {table table' : List Row} {row : Row}
    (h : perform sha256 cat table c = (table', .ok row)) :
    ∃ event : EventEnvelope π, event.timestamp = c.timestamp ∧ event.runId = c.runId ∧
      event.payload = c.payload ∧ persisted sha256 cat table event = .ok row ∧
      insertRow table row = .ok table' := by
  cases c with
  | append fault event => exact ⟨event, rfl, rfl, rfl, store_cases (transaction_ok h)⟩
  | appendNext fault runId payload now =>
    unfold perform at h
    dsimp only at h
    unfold appendNext at h
    have hbody := transaction_ok h
    dsimp only at hbody
    split at hbody
    · exact ⟨_, rfl, rfl, rfl, store_cases hbody⟩
    · cases hbody

/-- What holds of the empty table and survives the calls that return holds after
any calls. -/
theorem tableAfter_rule {P : List Row → Prop} {calls : List (Call π)} (h0 : P [])
    (hstep : ∀ c ∈ calls, ∀ table table' row, P table →
      perform sha256 cat table c = (table', .ok row) → P table') :
    P (tableAfter sha256 cat calls) := by
  induction calls using List.reverseRecOn with
  | nil => exact h0
  | append_singleton calls c ih =>
    have hbefore := ih fun c hc => hstep c (List.mem_append_left _ hc)
    rw [tableAfter_snoc]
    cases hr : (perform sha256 cat (tableAfter sha256 cat calls) c).2 with
    | error e =>
      rw [call_failed hr]
      exact hbefore
    | ok row =>
      have hperform : perform sha256 cat (tableAfter sha256 cat calls) c =
          ((perform sha256 cat (tableAfter sha256 cat calls) c).1, .ok row) :=
        Prod.ext rfl hr
      exact hstep c (by simp) _ _ row hbefore hperform

end

end Ledger

end Northstack
