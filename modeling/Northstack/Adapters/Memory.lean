import Northstack.Core.DataText
import Northstack.Core.UniqueRows
import Northstack.Domain.SecretsPolicy

/-!
# Long-term memory

`SqliteMemory` keeps what earlier runs learned. A text is stored once in a namespace,
under its digest, and its hits say how often it was remembered. The texts are searched
through a full-text index that has no content of its own: `remember` adds the text of a
new row to it and `forget` takes out the texts of the rows it deletes.

**Result.** `memory_law`: after any calls the index holds the ids and texts of the rows,
there is one row for a digest, its hits are the remembers that were accepted since the
namespace was last forgotten, and no text is empty or looks secret.
-/
namespace Northstack

open TextFiles UniqueRows

/-! ## The two tables -/

/-- `MAX_MEMORY_BYTES` -/
def maxMemoryBytes : Nat := 8192

/-- A row of `memories`, `sqlite_memory.py:32-43` -/
structure MemoryRow where
  id : Nat
  nameSpace : Text
  digest : Text
  text : Text
  source : Text
  hits : Nat
  createdAt : PyFloat
  updatedAt : PyFloat

/-- `UNIQUE(namespace, digest)` -/
def MemoryRow.key (row : MemoryRow) : Text × Text := (row.nameSpace, row.digest)

/-- What the full-text index knows of a row. -/
def MemoryRow.entry (row : MemoryRow) : Nat × Text := (row.id, row.text)

/-- `memories`, `memories_fts`, and the largest id that was given out. -/
structure MemoryDb where
  memories : Table MemoryRow.key
  fts : List (Nat × Text)
  lastId : Nat

def MemoryDb.empty : MemoryDb := { memories := .empty, fts := [], lastId := 0 }

/-- `sqlite_memory.py:50-58` -/
structure MemoryRecord where
  text : Text
  source : Text
  hits : Nat
  createdAt : PyFloat

inductive MemoryFailure
  | unicodeEncode
  | database
deriving DecidableEq, Repr

/-- What a transaction depends on: the clock, the ids that are skipped, and whether one
of its statements fails, so that it is rolled back. -/
structure MemoryEnv where
  now : PyFloat
  skipped : Nat
  fails : Bool

/-! ## Remembering and forgetting -/

section

-- `hashlib.sha256(b).hexdigest()`
variable (sha256 : ByteArray → Text)

/-- `_digest`, `sqlite_memory.py:61-62` -/
def memoryDigest? (s : Text) : Option Text := (encode? (stripText s)).map sha256

/-- `looks_like_secret_value` of a text that may hold surrogates, which no pattern
speaks of. -/
def looksSecret (s : Text) : Bool :=
  looksLikeSecretValue (String.ofList (s.map fun c => c.scalar?.getD (Char.ofNat 0xFFFD)))

/-- The parameters of a statement are texts that can be encoded. -/
def bindable (params : List Text) : Bool := params.all fun s => (encode? s).isSome

/-- The text that is stored, `sqlite_memory.py:112` -/
def memoryText (s : Text) : Text := (stripText s).take maxMemoryBytes

/-- The row that `RETURNING` speaks of: a new one, or the old one with another hit.
`sqlite_memory.py:119-125` -/
def upsertedRow (db : MemoryDb) (nameSpace digest text source : Text) (env : MemoryEnv) :
    MemoryRow :=
  match db.memories.get? (nameSpace, digest) with
  | some row => { row with hits := row.hits + 1, updatedAt := env.now }
  | none =>
    { id := db.lastId + 1 + env.skipped
      nameSpace, digest, text, source
      hits := 1
      createdAt := env.now
      updatedAt := env.now }

/-- `SqliteMemory.remember`, `sqlite_memory.py:100-138` -/
def remember (db : MemoryDb) (nameSpace text source : Text) (env : MemoryEnv) :
    Except MemoryFailure (Option MemoryRecord) × MemoryDb :=
  let text := memoryText text
  if text = [] ∨ looksSecret text then (.ok none, db)
  else match memoryDigest? sha256 text with
    | none => (.error .unicodeEncode, db)
    | some digest =>
      if env.fails ∨ ¬ bindable [nameSpace, text, source] then (.error .database, db)
      else
        let row := upsertedRow db nameSpace digest text source env
        let db := {
          memories := db.memories.put row
          fts := if row.hits = 1 then db.fts ++ [(row.id, text)] else db.fts
          lastId := max db.lastId row.id }
        (.ok (some { text, source, hits := row.hits, createdAt := row.createdAt }), db)

/-- `SqliteMemory.forget`, `sqlite_memory.py:159-180` -/
def forget (db : MemoryDb) (nameSpace : Text) (fails : Bool) :
    Except MemoryFailure Nat × MemoryDb :=
  if fails ∨ ¬ bindable [nameSpace] then (.error .database, db)
  else
    let ids := (db.memories.rows.filter fun row => row.nameSpace = nameSpace).map MemoryRow.id
    let deleted := ids.flatMap fun i => db.memories.rows.filter fun row => row.id = i
    (.ok ids.length,
      { db with
        memories := db.memories.delete fun key => key.1 = nameSpace
        fts := db.fts.diff (deleted.map MemoryRow.entry) })

/-! ## Calls one after another -/

inductive MemoryCall
  | remember (nameSpace text source : Text) (env : MemoryEnv)
  | forget (nameSpace : Text) (fails : Bool)

/-- What a call that was accepted did: a text of a digest was remembered, or a namespace
forgotten. -/
inductive MemoryEvent
  | accepted (nameSpace digest : Text)
  | forgotten (nameSpace : Text)

/-- The state after a call, and what the call says it did. -/
def MemoryCall.run (db : MemoryDb) : MemoryCall → Option MemoryEvent × MemoryDb
  | .remember nameSpace text source env =>
    match Northstack.remember sha256 db nameSpace text source env with
    | (.ok (some record), db) =>
      ((memoryDigest? sha256 record.text).map (.accepted nameSpace ·), db)
    | (_, db) => (none, db)
  | .forget nameSpace fails =>
    match Northstack.forget db nameSpace fails with
    | (.ok _, db) => (some (.forgotten nameSpace), db)
    | (.error _, db) => (none, db)

/-- What the calls did, the first first, and the state after them. -/
def runMemory (db : MemoryDb) : List MemoryCall → List MemoryEvent × MemoryDb
  | [] => ([], db)
  | call :: calls =>
    let first := call.run sha256 db
    let rest := runMemory first.2 calls
    (first.1.toList ++ rest.1, rest.2)

end

/-- What an event does to the number of accepted remembers of a digest in a namespace. -/
def MemoryEvent.count (key : Text × Text) (n : Nat) : MemoryEvent → Nat
  | .accepted nameSpace digest => if key = (nameSpace, digest) then n + 1 else n
  | .forgotten nameSpace => if key.1 = nameSpace then 0 else n

/-- The accepted remembers of a digest in a namespace since the namespace's last forget. -/
def acceptedSince (events : List MemoryEvent) (key : Text × Text) : Nat :=
  events.foldl (MemoryEvent.count key) 0

/-! ## The invariant -/

variable {sha256 : ByteArray → Text}

/-- What holds of a row that was stored. -/
structure MemoryRow.Sound (sha256 : ByteArray → Text) (row : MemoryRow) : Prop where
  digest : memoryDigest? sha256 row.text = some row.digest
  text : row.text ≠ []
  plain : looksSecret row.text = false
  hits : 0 < row.hits

/-- The two tables agree, and the rows count the remembers. -/
structure MemoryDb.Sound (sha256 : ByteArray → Text) (counts : Text × Text → Nat)
    (db : MemoryDb) : Prop where
  index : Mirrors MemoryRow.entry db.fts db.memories.rows
  ids : (db.memories.rows.map MemoryRow.id).Nodup
  given : ∀ row ∈ db.memories.rows, row.id ≤ db.lastId
  rows : ∀ row ∈ db.memories.rows, row.Sound sha256
  hits : ∀ key, (db.memories.get? key).elim 0 MemoryRow.hits = counts key

theorem MemoryDb.sound_empty : MemoryDb.empty.Sound sha256 fun _ => 0 where
  index := List.Perm.refl []
  ids := List.nodup_nil
  given := by simp [empty, Table.empty]
  rows := by simp [empty, Table.empty]
  hits := by simp [empty]

variable {counts : Text × Text → Nat} {db : MemoryDb}

/-- A new row is stored. -/
theorem MemoryDb.Sound.insert (h : db.Sound sha256 counts) {row : MemoryRow}
    (hrow : row.Sound sha256) (hnew : db.memories.get? row.key = none) (hid : db.lastId < row.id)
    (hhits : row.hits = 1) :
    MemoryDb.Sound sha256 (fun key => if key = row.key then counts key + 1 else counts key)
      { memories := db.memories.put row
        fts := db.fts ++ [row.entry]
        lastId := max db.lastId row.id } where
  index := h.index.put_new hnew
  ids := by
    dsimp only
    rw [db.memories.rows_put_of_none hnew, List.map_append]
    refine h.ids.append (List.nodup_singleton _) ?_
    simp only [List.map_cons, List.map_nil, List.disjoint_singleton, List.mem_map, not_exists,
      not_and]
    intro other hother heq
    have := h.given other hother
    omega
  given := by
    intro other hother
    dsimp only
    rcases Table.mem_put _ hother with rfl | hother
    · omega
    · have := h.given other hother
      omega
  rows := by
    intro other hother
    rcases Table.mem_put _ hother with rfl | hother
    · exact hrow
    · exact h.rows other hother
  hits := by
    intro key
    dsimp only
    rw [Table.get?_put]
    split
    · next hkey =>
      have hzero := h.hits key
      rw [hkey, hnew] at hzero
      rw [hkey, ← hzero]
      simpa using hhits
    · exact h.hits key

/-- Another hit of a row. -/
theorem MemoryDb.Sound.bump (h : db.Sound sha256 counts) {row old : MemoryRow}
    (hold : db.memories.get? row.key = some old) (hrow : row = { old with
      hits := old.hits + 1, updatedAt := row.updatedAt }) :
    MemoryDb.Sound sha256 (fun key => if key = row.key then counts key + 1 else counts key)
      { memories := db.memories.put row
        fts := db.fts
        lastId := max db.lastId row.id } := by
  have hmem := ((Table.get?_eq_some _).mp hold).1
  have hid : row.id = old.id := by rw [hrow]
  have hgiven := h.given old hmem
  constructor
  · exact h.index.put_known hold (by rw [hrow]; rfl)
  · dsimp only
    rw [db.memories.map_put_of_some hold hid]
    exact h.ids
  · intro other hother
    dsimp only
    rcases Table.mem_put _ hother with rfl | hother
    · omega
    · have := h.given other hother
      omega
  · intro other hother
    rcases Table.mem_put _ hother with rfl | hother
    · have hsound := h.rows old hmem
      rw [hrow]
      exact ⟨hsound.digest, hsound.text, hsound.plain, Nat.succ_pos _⟩
    · exact h.rows other hother
  · intro key
    dsimp only
    rw [Table.get?_put]
    split
    · next hkey =>
      have hcount := h.hits key
      rw [hkey, hold] at hcount
      rw [hkey, ← hcount, hrow]
      rfl
    · exact h.hits key

/-- The row of a text that is remembered, with the count of its digest. -/
theorem MemoryDb.Sound.upsert (h : db.Sound sha256 counts) {nameSpace digest text source : Text}
    {env : MemoryEnv} (hdigest : memoryDigest? sha256 text = some digest) (htext : text ≠ [])
    (hplain : looksSecret text = false) :
    let row := upsertedRow db nameSpace digest text source env
    MemoryDb.Sound sha256
      (fun key => if key = (nameSpace, digest) then counts key + 1 else counts key)
      { memories := db.memories.put row
        fts := if row.hits = 1 then db.fts ++ [(row.id, text)] else db.fts
        lastId := max db.lastId row.id } := by
  intro row
  cases hold : db.memories.get? (nameSpace, digest) with
  | none =>
    have hrow : row = {
        id := db.lastId + 1 + env.skipped, nameSpace, digest, text, source
        hits := 1, createdAt := env.now, updatedAt := env.now } := by
      simp only [row, upsertedRow, hold]
    have hkey : row.key = (nameSpace, digest) := by rw [hrow]; rfl
    have hentry : row.entry = (row.id, text) := by rw [hrow]; rfl
    have hhits : row.hits = 1 := by rw [hrow]
    have hid : db.lastId < row.id := by
      rw [hrow]
      dsimp only
      omega
    rw [if_pos hhits, ← hkey, ← hentry]
    refine h.insert ?_ (by rw [hkey, hold]) hid hhits
    rw [hrow]
    exact ⟨hdigest, htext, hplain, Nat.one_pos⟩
  | some old =>
    have hrow : row = { old with hits := old.hits + 1, updatedAt := env.now } := by
      simp only [row, upsertedRow, hold]
    obtain ⟨hmem, hkey⟩ := (Table.get?_eq_some _).mp hold
    have hkey' : row.key = (nameSpace, digest) := by
      rw [hrow, ← hkey]
      rfl
    have hhits : row.hits ≠ 1 := by
      have := (h.rows old hmem).hits
      rw [hrow]
      dsimp only
      omega
    rw [if_neg hhits, ← hkey']
    exact h.bump (by rw [hkey', hold]) (by rw [hrow])

/-- A text that is not accepted changes nothing; one that is gets its hit. -/
theorem remember_cases (h : db.Sound sha256 counts) (nameSpace s source : Text) (env : MemoryEnv) :
    (remember sha256 db nameSpace s source env).2 = db ∧
      (∀ record, (remember sha256 db nameSpace s source env).1 ≠ .ok (some record)) ∨
    ∃ record digest, (remember sha256 db nameSpace s source env).1 = .ok (some record) ∧
      memoryDigest? sha256 record.text = some digest ∧
      MemoryDb.Sound sha256
        (fun key => if key = (nameSpace, digest) then counts key + 1 else counts key)
        (remember sha256 db nameSpace s source env).2 := by
  unfold remember
  dsimp only
  split
  · exact .inl ⟨rfl, by simp⟩
  · next hkept =>
    simp only [not_or, Bool.not_eq_true] at hkept
    split
    · exact .inl ⟨rfl, by simp⟩
    · next digest hdigest =>
      split
      · exact .inl ⟨rfl, by simp⟩
      · exact .inr ⟨_, digest, rfl, hdigest, h.upsert hdigest hkept.1 hkept.2⟩

/-- The rows of a namespace are the ones that `forget` reads again by their ids. -/
theorem MemoryDb.Sound.deleted (h : db.Sound sha256 counts) (nameSpace : Text) :
    ((db.memories.rows.filter fun row => row.nameSpace = nameSpace).map MemoryRow.id).flatMap
      (fun i => db.memories.rows.filter fun row => row.id = i) =
    db.memories.rows.filter fun row => row.nameSpace = nameSpace :=
  flatMap_filter_id h.ids fun _ hrow => List.mem_of_mem_filter hrow

/-- A namespace is forgotten, or nothing happens. -/
theorem forget_cases (h : db.Sound sha256 counts) (nameSpace : Text) (fails : Bool) :
    (∃ failure, forget db nameSpace fails = (.error failure, db)) ∨
    ∃ n, (forget db nameSpace fails).1 = .ok n ∧
      (forget db nameSpace fails).2.memories =
        db.memories.delete (fun key => key.1 = nameSpace) ∧
      MemoryDb.Sound sha256 (fun key => if key.1 = nameSpace then 0 else counts key)
        (forget db nameSpace fails).2 := by
  unfold forget
  split
  · exact .inl ⟨_, rfl⟩
  · refine .inr ⟨_, rfl, rfl, ?_⟩
    dsimp only
    rw [h.deleted nameSpace]
    constructor
    · exact h.index.delete fun key => key.1 = nameSpace
    · exact nodup_filter h.ids _
    · intro row hrow
      exact h.given row (List.mem_of_mem_filter hrow)
    · intro row hrow
      exact h.rows row (List.mem_of_mem_filter hrow)
    · intro key
      dsimp only
      rw [Table.get?_delete]
      by_cases hkey : key.1 = nameSpace
      · simp [hkey]
      · simp [hkey, h.hits key]

theorem MemoryDb.Sound.run (h : db.Sound sha256 counts) (call : MemoryCall) :
    MemoryDb.Sound sha256
      (fun key => (call.run sha256 db).1.toList.foldl (MemoryEvent.count key) (counts key))
      (call.run sha256 db).2 := by
  cases call with
  | remember nameSpace s source env =>
    have hcases := remember_cases h nameSpace s source env
    simp only [MemoryCall.run]
    generalize remember sha256 db nameSpace s source env = out at hcases ⊢
    obtain ⟨reply, after⟩ := out
    rcases hcases with ⟨hsame, hnot⟩ | ⟨record, digest, hrecord, hdigest, hsound⟩
    · dsimp only at hsame hnot
      subst hsame
      split
      · next record _ hout =>
        cases hout
        exact absurd rfl (hnot record)
      · next hout =>
        cases hout
        exact h
    · dsimp only at hrecord
      subst hrecord
      dsimp only
      rw [hdigest]
      exact hsound
  | forget nameSpace fails =>
    have hcases := forget_cases h nameSpace fails
    simp only [MemoryCall.run]
    generalize forget db nameSpace fails = out at hcases ⊢
    obtain ⟨reply, after⟩ := out
    rcases hcases with ⟨failure, hout⟩ | ⟨n, hok, _, hsound⟩
    · cases hout
      exact h
    · dsimp only at hok
      subst hok
      exact hsound

/-- The tables agree after any calls, and the rows count what the calls did. -/
theorem MemoryDb.Sound.runMemory (h : db.Sound sha256 counts) (calls : List MemoryCall) :
    MemoryDb.Sound sha256
      (fun key => (runMemory sha256 db calls).1.foldl (MemoryEvent.count key) (counts key))
      (runMemory sha256 db calls).2 := by
  induction calls generalizing db counts with
  | nil => exact h
  | cons call calls ih =>
    have hrest := ih (h.run call)
    simp only [← List.foldl_append] at hrest
    exact hrest

/-- The index knows every row once. -/
theorem MemoryDb.Sound.count_entry (h : db.Sound sha256 counts) {row : MemoryRow}
    (hrow : row ∈ db.memories.rows) : db.fts.count row.entry = 1 := by
  have hentries : (db.memories.rows.map MemoryRow.entry).Nodup := by
    apply List.Nodup.of_map Prod.fst
    rw [List.map_map]
    exact h.ids
  rw [h.index.count_eq]
  exact List.count_eq_one_of_mem hentries (List.mem_map_of_mem hrow)

/-- The rows of the namespaces that are not forgotten are as they were, and so is what the
index holds of them. -/
theorem forget_others (h : db.Sound sha256 counts) (nameSpace : Text) (fails : Bool) :
    let after := (forget db nameSpace fails).2
    (after.memories.rows.filter fun row => row.nameSpace ≠ nameSpace) =
      (db.memories.rows.filter fun row => row.nameSpace ≠ nameSpace) ∧
    ∀ row ∈ db.memories.rows, row.nameSpace ≠ nameSpace →
      after.fts.count row.entry = db.fts.count row.entry := by
  intro after
  rcases forget_cases h nameSpace fails with ⟨failure, hrun⟩ | ⟨n, _, hrows, hsound⟩
  · have hafter : after = db := congrArg Prod.snd hrun
    rw [hafter]
    exact ⟨rfl, fun _ _ _ => rfl⟩
  · have hdelete : after.memories.rows =
        db.memories.rows.filter fun row => !decide (row.nameSpace = nameSpace) :=
      congrArg Table.rows hrows
    constructor
    · rw [hdelete, List.filter_filter]
      congr 1
      funext row
      simp
    · intro row hrow hne
      have hkept : row ∈ after.memories.rows := by
        rw [hdelete]
        exact List.mem_filter.mpr ⟨hrow, by simpa using hne⟩
      rw [hsound.count_entry hkept, h.count_entry hrow]

end Northstack
