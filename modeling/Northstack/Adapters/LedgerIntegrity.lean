import Northstack.Adapters.Redaction

/-!
# The hash chain

What the verifier's acceptance of the rows of a run means, and that the rows the
ledger writes are accepted.

**Results.**
* `accepted_rows_agree`: two accepted lists of rows that end in the same hash are
  the same history.
* `ledger_sound`: in every run of calls none of which is timed `-0.0`, the rows of
  every run are numbered, linked and accepted, and a call that raises changes
  nothing.
-/
namespace Northstack

open JsonText

namespace Ledger

/-! ## What is hashed -/

section Hashed

variable {runId runId' kind kind' prevHash prevHash' : String} {seq seq' version version' : Int}
  {payload payload' : List (String × Json)} {timestamp timestamp' : Double}

theorem hashed_sound (h : Sound (.obj payload)) :
    Sound (hashed runId seq kind payload prevHash version timestamp) := by
  refine .obj (show List.Nodup ["run_id", "seq", "kind", "payload", "prev_hash", "schema_version",
    "timestamp"] by decide) fun f hf => ?_
  simp only [List.mem_cons, List.not_mem_nil, or_false] at hf
  rcases hf with rfl | rfl | rfl | rfl | rfl | rfl | rfl
  · exact .str _
  · exact .int _
  · exact .str _
  · exact h
  · exact .str _
  · exact .int _
  · exact .float timestamp.2

/-- A field of a value has its like in every value with the same sorted keys. -/
theorem sorted_field {fs gs : List (String × Json)} {k : String} {v : Json}
    (h : sortKeys (.obj fs) = sortKeys (.obj gs)) (hv : (k, v) ∈ fs) :
    ∃ w, (k, w) ∈ gs ∧ sortKeys v = sortKeys w := by
  have hsort : sortFields fs = sortFields gs := Json.obj.inj h
  have hmem : (k, sortKeys v) ∈ sortFields fs :=
    (sortFields_perm fs).mem_iff.mpr (List.mem_map_of_mem (f := fun f => (f.1, sortKeys f.2)) hv)
  rw [hsort] at hmem
  exact mem_sortFields hmem

theorem hashed_inj (h : sortKeys (hashed runId seq kind payload prevHash version timestamp) =
      sortKeys (hashed runId' seq' kind' payload' prevHash' version' timestamp')) :
    runId = runId' ∧ seq = seq' ∧ kind = kind' ∧
      sortKeys (.obj payload) = sortKeys (.obj payload') ∧ prevHash = prevHash' ∧
      version = version' ∧ timestamp = timestamp' := by
  unfold hashed at h
  obtain ⟨w1, hm1, h1⟩ := sorted_field (k := "run_id") (v := .str runId) h (by simp)
  obtain ⟨w2, hm2, h2⟩ := sorted_field (k := "seq") (v := .int seq) h (by simp)
  obtain ⟨w3, hm3, h3⟩ := sorted_field (k := "kind") (v := .str kind) h (by simp)
  obtain ⟨w4, hm4, h4⟩ := sorted_field (k := "payload") (v := .obj payload) h (by simp)
  obtain ⟨w5, hm5, h5⟩ := sorted_field (k := "prev_hash") (v := .str prevHash) h (by simp)
  obtain ⟨w6, hm6, h6⟩ := sorted_field (k := "schema_version") (v := .int version) h (by simp)
  obtain ⟨w7, hm7, h7⟩ := sorted_field (k := "timestamp") (v := .float timestamp.1) h (by simp)
  simp at hm1 hm2 hm3 hm4 hm5 hm6 hm7
  subst hm1 hm2 hm3 hm4 hm5 hm6 hm7
  refine ⟨Json.str.inj h1, Json.int.inj h2, Json.str.inj h3, h4, Json.str.inj h5, Json.int.inj h6,
    Subtype.ext (Json.float.inj h7)⟩

end Hashed

/-! ## What the verifier accepts -/

section Verifier

variable {sha256 : String → String} {π : Type} {cat : Catalog π} {prevHash : String} {n m : Nat}
  {row : Row} {rows : List Row}

theorem checkRow_passed : checkRow sha256 cat prevHash row = .passed ↔
    row.prevHash = prevHash ∧ ∃ payload, loads row.payload = .ok (.obj payload) ∧
      computeHash sha256 (hashed row.runId row.seq row.kind payload row.prevHash
        row.schemaVersion row.timestamp) = some row.hashChain ∧
      (rowPayload cat row.kind payload).isSome = true := by
  unfold checkRow
  constructor
  · intro h
    split at h
    · cases h
    · rename_i hprev
      refine ⟨not_not.mp hprev, ?_⟩
      split at h
      · cases h
      · cases h
      · rename_i payload hloads
        split at h
        · cases h
        · rename_i recomputed hhash
          split at h
          · cases h
          · rename_i hsame
            split at h
            · cases h
            · rename_i hpayload
              refine ⟨payload, hloads, not_not.mp hsame ▸ hhash, ?_⟩
              exact Option.isSome_iff_ne_none.mpr fun hnone => hpayload (hnone ▸ rfl)
      · cases h
  · rintro ⟨hprev, payload, hloads, hhash, hpayload⟩
    have hne : (rowPayload cat row.kind payload).isNone = false := by
      rw [← Option.not_isSome, hpayload]
      rfl
    rw [if_neg (not_not.mpr hprev), hloads]
    dsimp only
    rw [hhash]
    dsimp only
    rw [if_neg (not_not.mpr rfl), if_neg (hne ▸ Bool.false_ne_true)]

/-- The hash a list of rows ends in. -/
def headHash (prevHash : String) (rows : List Row) : String :=
  (rows.getLast?.map (·.hashChain)).getD prevHash

theorem headHash_snoc : headHash prevHash (rows ++ [row]) = row.hashChain := by
  unfold headHash
  rw [List.getLast?_append_of_ne_nil _ (List.cons_ne_nil _ _)]
  rfl

theorem headHash_cons : headHash prevHash (row :: rows) = headHash row.hashChain rows := by
  unfold headHash
  cases rows with
  | nil => rfl
  | cons r rows =>
    rw [List.getLast?_cons_cons, List.getLast?_eq_some_getLast (List.cons_ne_nil r rows)]
    rfl

theorem verify_count (h : verifyRows sha256 cat prevHash n rows = .ok m) : m = n + rows.length := by
  induction rows generalizing prevHash n with
  | nil =>
    cases h
    rfl
  | cons row rows ih =>
    unfold verifyRows at h
    split at h
    · rw [ih h, List.length_cons]
      omega
    · cases h
    · cases h

theorem verify_snoc : (∃ m, verifyRows sha256 cat prevHash n (rows ++ [row]) = .ok m) ↔
    (∃ m, verifyRows sha256 cat prevHash n rows = .ok m) ∧
      checkRow sha256 cat (headHash prevHash rows) row = .passed := by
  induction rows generalizing prevHash n with
  | nil =>
    show (∃ m, verifyRows sha256 cat prevHash n [row] = .ok m) ↔
      (∃ m, verifyRows sha256 cat prevHash n [] = .ok m) ∧
        checkRow sha256 cat prevHash row = .passed
    unfold verifyRows
    split
    · rename_i hcheck
      exact ⟨fun _ => ⟨⟨n, rfl⟩, hcheck⟩, fun _ => ⟨_, rfl⟩⟩
    · rename_i hcheck
      rw [hcheck]
      exact ⟨fun ⟨_, h⟩ => (by cases h), fun ⟨_, h⟩ => (by cases h)⟩
    · rename_i hcheck
      rw [hcheck]
      exact ⟨fun ⟨_, h⟩ => (by cases h), fun ⟨_, h⟩ => (by cases h)⟩
  | cons r rows ih =>
    rw [List.cons_append, headHash_cons]
    unfold verifyRows
    split
    · exact ih
    · exact ⟨fun ⟨_, h⟩ => (by cases h), fun ⟨⟨_, h⟩, _⟩ => (by cases h)⟩
    · exact ⟨fun ⟨_, h⟩ => (by cases h), fun ⟨⟨_, h⟩, _⟩ => (by cases h)⟩

end Verifier

/-! ## One head, one history -/

/-- `_verify_integrity` accepts the rows. -/
def Accepted (sha256 : String → String) {π : Type} (cat : Catalog π) (rows : List Row) : Prop :=
  ∃ n, verifyIntegrity sha256 cat rows = .ok n

/-- Two rows say the same: their payloads as parsed are the same up to the order
of keys, every other column is equal. -/
structure SameEvent (r s : Row) : Prop where
  runId : r.runId = s.runId
  seq : r.seq = s.seq
  kind : r.kind = s.kind
  payload : ∃ j k, loads r.payload = .ok j ∧ loads s.payload = .ok k ∧ sortKeys j = sortKeys k
  schemaVersion : r.schemaVersion = s.schemaVersion
  timestamp : r.timestamp = s.timestamp
  prevHash : r.prevHash = s.prevHash
  hashChain : r.hashChain = s.hashChain

section Heads

variable {sha256 : String → String} {π : Type} {cat : Catalog π} {rows rows' : List Row}
  {row row' : Row} {p p' : String}

/-- A row that passes has a hash of the ledger's making. -/
theorem checkRow_hash (h : checkRow sha256 cat p row = .passed) :
    ∃ text, row.hashChain = sha256 text := by
  obtain ⟨-, payload, -, hhash, -⟩ := checkRow_passed.mp h
  exact ⟨_, (computeHash_some hhash).2⟩

/-- Two rows that pass and have one hash say the same. -/
theorem sameEvent_of_hash (hinj : Function.Injective sha256)
    (h : checkRow sha256 cat p row = .passed) (h' : checkRow sha256 cat p' row' = .passed)
    (hhash : row.hashChain = row'.hashChain) : SameEvent row row' := by
  obtain ⟨-, payload, hloads, hcompute, -⟩ := checkRow_passed.mp h
  obtain ⟨-, payload', hloads', hcompute', -⟩ := checkRow_passed.mp h'
  obtain ⟨hw, he⟩ := computeHash_some hcompute
  obtain ⟨hw', he'⟩ := computeHash_some hcompute'
  rw [he, he'] at hhash
  have hheld : Held (hashed row.runId row.seq row.kind payload row.prevHash row.schemaVersion
      row.timestamp) := (hashed_sound (loads_held hloads).sound).held hw
  have hheld' : Held (hashed row'.runId row'.seq row'.kind payload' row'.prevHash
      row'.schemaVersion row'.timestamp) := (hashed_sound (loads_held hloads').sound).held hw'
  have hsorted := dumpsSorted_inj Separators.spaced_compact hheld hheld' (hinj hhash)
  obtain ⟨h1, h2, h3, h4, h5, h6, h7⟩ := hashed_inj hsorted
  exact ⟨h1, h2, h3, ⟨_, _, hloads, hloads', h4⟩, h6, h7, h5, by rw [he, he', hinj hhash]⟩

/-- **One head, one history.** Two lists of rows that the verifier accepts and
that end in the same hash have the same length and say the same row by row. -/
theorem accepted_rows_agree (hinj : Function.Injective sha256) (hne : ∀ text, sha256 text ≠ "")
    (h : Accepted sha256 cat rows) (h' : Accepted sha256 cat rows')
    (hhead : headHash "" rows = headHash "" rows') :
    rows.length = rows'.length ∧ List.Forall₂ SameEvent rows rows' := by
  suffices hall : List.Forall₂ SameEvent rows rows' from ⟨hall.length_eq, hall⟩
  unfold Accepted verifyIntegrity at h h'
  induction rows using List.reverseRecOn generalizing rows' with
  | nil =>
    cases rows' using List.reverseRecOn with
    | nil => exact .nil
    | append_singleton rows' row' =>
      obtain ⟨text, ht⟩ := checkRow_hash (verify_snoc.mp h').2
      rw [headHash_snoc] at hhead
      exact absurd (ht.symm.trans hhead.symm) (hne text)
  | append_singleton rows row ih =>
    obtain ⟨hrows, hrow⟩ := verify_snoc.mp h
    cases rows' using List.reverseRecOn with
    | nil =>
      obtain ⟨text, ht⟩ := checkRow_hash hrow
      rw [headHash_snoc] at hhead
      exact absurd (ht.symm.trans hhead) (hne text)
    | append_singleton rows' row' =>
      obtain ⟨hrows', hrow'⟩ := verify_snoc.mp h'
      rw [headHash_snoc, headHash_snoc] at hhead
      have hsame := sameEvent_of_hash hinj hrow hrow' hhead
      -- the links of the two rows are the heads of the rows before them
      have hprev := (checkRow_passed.mp hrow).1
      have hprev' := (checkRow_passed.mp hrow').1
      have hbefore : headHash "" rows = headHash "" rows' := by
        rw [← hprev, ← hprev', hsame.prevHash]
      exact (List.rel_append (ih hrows hrows' hbefore)) (.cons hsame .nil)

end Heads

/-! ## The digests of a finding -/

/-- What is hashed of a finding timed at a zero. -/
def findingText (zero : String) : String :=
  "\x7b\"kind\":\"analysis_completed\",\"payload\":\x7b\"analysis\":\x7b\"imports\":true\x7d," ++
  "\"kind\":\"analysis_completed\",\"profile\":\"scout\",\"schema_version\":1\x7d," ++
  "\"prev_hash\":\"\",\"run_id\":\"r\",\"schema_version\":1,\"seq\":1,\"timestamp\":" ++ zero ++
  "\x7d"

def minusZeroDigest : String := "356e3d3e0002e2505fb138cca36295e730d5e559d568ceb0342a53d40602b888"

/-- SHA-256 on the texts of the finding; elsewhere it only keeps texts apart. -/
def findingHash (text : String) : String :=
  if text = findingText "0.0" then findingDigest
  else if text = findingText "-0.0" then minusZeroDigest
  else "~" ++ text

theorem tilde_ne {digest text : String} (h : digest.toList.head? ≠ some '~') :
    digest ≠ "~" ++ text := by
  rintro rfl
  exact h (by rw [String.toList_append]; rfl)

theorem findingHash_cases (text : String) :
    (text = findingText "0.0" ∧ findingHash text = findingDigest) ∨
      (text = findingText "-0.0" ∧ findingHash text = minusZeroDigest) ∨
      findingHash text = "~" ++ text := by
  unfold findingHash
  split
  · rename_i h
    exact .inl ⟨h, rfl⟩
  · split
    · rename_i h
      exact .inr (.inl ⟨h, rfl⟩)
    · exact .inr (.inr rfl)

theorem findingHash_injective : Function.Injective findingHash := by
  have hfirst : ∀ text, findingDigest ≠ "~" ++ text := fun _ => tilde_ne (by decide)
  have hsecond : ∀ text, minusZeroDigest ≠ "~" ++ text := fun _ => tilde_ne (by decide)
  have hdigests : findingDigest ≠ minusZeroDigest := by decide
  intro s t h
  rcases findingHash_cases s with ⟨es, hs⟩ | ⟨es, hs⟩ | hs <;>
    rcases findingHash_cases t with ⟨et, ht⟩ | ⟨et, ht⟩ | ht <;> rw [hs, ht] at h
  · rw [es, et]
  · exact absurd h hdigests
  · exact absurd h (hfirst t)
  · exact absurd h.symm hdigests
  · rw [es, et]
  · exact absurd h (hsecond t)
  · exact absurd h.symm (hfirst s)
  · exact absurd h.symm (hsecond s)
  · have hlist := congrArg String.toList h
    rw [String.toList_append, String.toList_append] at hlist
    exact String.toList_injective (List.append_cancel_left hlist)

theorem findingHash_nonempty (text : String) : findingHash text ≠ "" := by
  rcases findingHash_cases text with ⟨-, h⟩ | ⟨-, h⟩ | h <;> rw [h]
  · decide
  · decide
  · intro he
    have hne : "" ≠ "~" ++ text := tilde_ne (by decide)
    exact hne he.symm

/-- A row of the finding, as written or with its keys in another order. -/
def findingRow (payload : String) : Row :=
  { runId := "r", seq := 1, kind := "analysis_completed", payload := payload, schemaVersion := 1
    timestamp := Double.zero, prevHash := "", hashChain := findingDigest }

def writtenPayload : String :=
  "\x7b\"analysis\": \x7b\"imports\": true\x7d, \"kind\": \"analysis_completed\", " ++
    "\"profile\": \"scout\", \"schema_version\": 1\x7d"

def reorderedPayload : String :=
  "\x7b\"schema_version\":1,\"profile\":\"scout\",\"kind\":\"analysis_completed\"," ++
    "\"analysis\":\x7b\"imports\":true\x7d\x7d"

theorem findingRow_accepted :
    verifyIntegrity findingHash findings [findingRow writtenPayload] = .ok 1 ∧
      verifyIntegrity findingHash findings [findingRow reorderedPayload] = .ok 1 := by
  decide +kernel

/-- The finding as written, and with its keys in another order. -/
theorem accepted_rows_agree_finding :
    List.Forall₂ SameEvent [findingRow writtenPayload] [findingRow reorderedPayload] :=
  (accepted_rows_agree findingHash_injective findingHash_nonempty ⟨1, findingRow_accepted.1⟩
    ⟨1, findingRow_accepted.2⟩ rfl).2

/-! ## The catalog -/

/-- What the ledger relies on of the payload models: a dump is a value that names
its kind and version, parsing keeps these and does not look at the order of keys. -/
structure Catalog.Lawful {π : Type} (cat : Catalog π) : Prop where
  sound : ∀ p, Sound (.obj (cat.dump p))
  kind_mem : ∀ p, cat.kind p ∈ eventKinds
  version_pos : ∀ p, 1 ≤ cat.schemaVersion p
  dump_kind : ∀ p, Json.lookup "kind" (cat.dump p) = some (.str (cat.kind p))
  dump_version : ∀ p, Json.lookup "schema_version" (cat.dump p) = some (.int (cat.schemaVersion p))
  parse_kind : ∀ fs p k, cat.parse fs = some p → Json.lookup "kind" fs = some (.str k) →
    cat.kind p = k
  parse_version : ∀ fs p v, cat.parse fs = some p →
    Json.lookup "schema_version" fs = some (.int v) → cat.schemaVersion p = v
  parse_order : ∀ fs, Sound (.obj fs) → (cat.parse (sortFields fs)).isSome = (cat.parse fs).isSome

section Lookup

variable {k : String} {v : Json} {fs : List (String × Json)}

theorem lookup_sortFields (hs : Sound (.obj fs)) (h : Json.lookup k fs = some v) :
    Json.lookup k (sortFields fs) = some (sortKeys v) := by
  cases hs with
  | obj hk _ =>
    refine lookup_of_mem_nodup ((keys_sortFields fs).nodup_iff.mpr hk) ?_
    exact (sortFields_perm fs).mem_iff.mpr
      (List.mem_map_of_mem (f := fun f => (f.1, sortKeys f.2)) (JsonText.mem_of_lookup h))

end Lookup

theorem findings_parse {fs : List (String × Json)} {p : Finding}
    (h : findings.parse fs = some p) :
    sortFields fs = [("analysis", .obj [(p.key, .bool true)]),
      ("kind", .str "analysis_completed"), ("profile", .str "scout"),
      ("schema_version", .int 1)] := by
  have hparse : Finding.parse fs = some p := h
  unfold Finding.parse at hparse
  split at hparse
  · rename_i key hsorted
    cases hparse
    rw [sortKeys] at hsorted
    exact Json.obj.inj hsorted
  · cases hparse

/-- A field of what parses is one of the four, its value sorted. -/
theorem findings_field {fs : List (String × Json)} {p : Finding} {k : String} {v : Json}
    (h : findings.parse fs = some p) (hv : Json.lookup k fs = some v) :
    (k, sortKeys v) ∈ [("analysis", Json.obj [(p.key, .bool true)]),
      ("kind", .str "analysis_completed"), ("profile", .str "scout"),
      ("schema_version", .int 1)] := by
  rw [← findings_parse h]
  exact (sortFields_perm fs).mem_iff.mpr
    (List.mem_map_of_mem (f := fun f => (f.1, sortKeys f.2)) (JsonText.mem_of_lookup hv))

theorem findings_lawful : findings.Lawful where
  sound := findings_sound
  kind_mem := findings_kind
  version_pos _ := le_refl 1
  dump_kind p := rfl
  dump_version p := rfl
  parse_kind fs p k hparse hlookup := by
    have hfield := findings_field hparse hlookup
    rw [sortKeys] at hfield
    · simp at hfield
      exact hfield.symm
    all_goals exact fun _ h => (by cases h)
  parse_version fs p v hparse hlookup := by
    have hfield := findings_field hparse hlookup
    rw [sortKeys] at hfield
    · simp at hfield
      exact hfield.symm
    all_goals exact fun _ h => (by cases h)
  parse_order fs hs := by
    have hidem := hs.sortKeys_idem
    rw [sortKeys] at hidem
    show (Finding.parse (sortFields fs)).isSome = (Finding.parse fs).isSome
    unfold Finding.parse
    rw [hidem, sortKeys]

/-! ## What is stored verifies -/

section Stored

variable {sha256 : String → String} {π : Type} {cat : Catalog π} {table : List Row}
  {event : EventEnvelope π} {row : Row}

theorem hashed_writable {runId kind prevHash : String} {seq version : Int}
    {payload : List (String × Json)} {timestamp : Double} :
    writable (hashed runId seq kind payload prevHash version timestamp) = true ↔
      writable (.int seq) = true ∧ writable (.obj payload) = true ∧
        writable (.int version) = true := by
  simp [hashed, writable, writableFields]

/-- The order of a payload's keys does not enter the hash. -/
theorem computeHash_sortFields {runId kind prevHash storedHash : String} {seq version : Int}
    {payload : List (String × Json)} {timestamp : Double} (hs : Sound (.obj payload))
    (h : computeHash sha256 (hashed runId seq kind payload prevHash version timestamp) =
      some storedHash) :
    computeHash sha256 (hashed runId seq kind (sortFields payload) prevHash version timestamp) =
      some storedHash := by
  obtain ⟨hw, rfl⟩ := computeHash_some h
  obtain ⟨hseq, hpayload, hversion⟩ := hashed_writable.mp hw
  have hheld : Held (.obj payload) := hs.held hpayload
  have hsorted : sortKeys (.obj payload) = .obj (sortFields payload) := by rw [sortKeys]
  have hw' : writable (.obj (sortFields payload)) = true := hsorted ▸ hheld.sortKeys.writable
  have hidem : sortKeys (.obj (sortFields payload)) = sortKeys (.obj payload) := by
    rw [← hsorted, hs.sortKeys_idem]
  unfold computeHash
  rw [if_pos (hashed_writable.mpr ⟨hseq, hw', hversion⟩)]
  have hsame : sortKeys (hashed runId seq kind (sortFields payload) prevHash version timestamp) =
      sortKeys (hashed runId seq kind payload prevHash version timestamp) := by
    simp only [hashed, sortKeys, sortFields] at hidem ⊢
    rw [hidem]
  unfold dumpsSorted
  rw [hsame]

/-- A stored payload can be read under its kind. -/
theorem rowPayload_sortFields {kind : String} {parsed : π} {fs : List (String × Json)}
    (hcat : cat.Lawful) (hs : Sound (.obj fs)) (hkind : kind ∈ eventKinds)
    (hlookup : Json.lookup "kind" fs = some (.str kind))
    (hversion : Json.lookup "schema_version" fs = some (.int currentSchemaVersion))
    (hparse : cat.parse fs = some parsed) :
    (rowPayload cat kind (sortFields fs)).isSome = true := by
  unfold rowPayload upcast
  rw [if_neg (not_not.mpr hkind), lookup_sortFields hs hlookup, lookup_sortFields hs hversion]
  show (cat.parse (sortFields fs)).isSome = true
  rw [hcat.parse_order fs hs, hparse]
  rfl

/-- A payload the ledger stored names its kind and version still. -/
theorem redacted_names (hcat : cat.Lawful) (p : π) :
    Sound (.obj (redactFields (cat.dump p))) ∧
      Json.lookup "kind" (redactFields (cat.dump p)) = some (.str (cat.kind p)) ∧
      Json.lookup "schema_version" (redactFields (cat.dump p)) =
        some (.int (cat.schemaVersion p)) := by
  refine ⟨?_, ?_, ?_⟩
  · have hredacted := redact_sound (hcat.sound p)
    rwa [redactRecursive] at hredacted
  · rw [lookup_redactFields (by decide), hcat.dump_kind, Option.map_some, redactRecursive,
      redactText_of_not_secret (kind_plain _ (hcat.kind_mem p))]
  · rw [lookup_redactFields (by decide), hcat.dump_version]
    rfl

/-- What is stored of a payload can be read back. -/
theorem persisted_reads (hcat : cat.Lawful) (h : persisted sha256 cat table event = .ok row) :
    loads row.payload = .ok (.obj (sortFields (redactFields (cat.dump event.payload)))) ∧
      (rowPayload cat row.kind (sortFields (redactFields (cat.dump event.payload)))).isSome =
        true := by
  obtain ⟨prevHash, storedHash, parsed, hmax, -, hhash, hparse, rfl⟩ := persisted_cases h
  obtain ⟨hs, hlookup, hversion⟩ := redacted_names hcat event.payload
  have hkind : cat.kind parsed = cat.kind event.payload := hcat.parse_kind _ _ _ hparse hlookup
  have hone : cat.schemaVersion event.payload = currentSchemaVersion :=
    le_antisymm hmax (hcat.version_pos _)
  rw [hone] at hversion
  constructor
  · have hheld := hs.held (payload_writable (computeHash_some hhash).1)
    exact (loads_sorted Separators.spaced_default hheld).trans (by rw [sortKeys])
  · dsimp only
    rw [hkind]
    exact rowPayload_sortFields hcat hs (hcat.kind_mem event.payload) hlookup hversion hparse

/-- **Stored rows.** What the ledger stores of an event not timed `-0.0` passes the
verifier's check. -/
theorem persisted_passes (hcat : cat.Lawful) (htime : event.timestamp ≠ Double.negZero)
    (h : persisted sha256 cat table event = .ok row) :
    checkRow sha256 cat row.prevHash row = .passed := by
  obtain ⟨hread, hpayload⟩ := persisted_reads hcat h
  obtain ⟨prevHash, storedHash, parsed, -, -, hhash, hparse, rfl⟩ := persisted_cases h
  obtain ⟨hs, hlookup, hversion⟩ := redacted_names hcat event.payload
  have hkind : cat.kind parsed = cat.kind event.payload := hcat.parse_kind _ _ _ hparse hlookup
  have hsame : cat.schemaVersion parsed = cat.schemaVersion event.payload :=
    hcat.parse_version _ _ _ hparse hversion
  have hreal : realColumn event.timestamp = event.timestamp := if_neg htime
  refine checkRow_passed.mpr ⟨rfl, _, hread, ?_, hpayload⟩
  dsimp only
  rw [hkind, hsame, hreal]
  exact computeHash_sortFields hs hhash

end Stored

/-! ## Every run of calls -/

/-- The rows are numbered `1..n`. -/
def Numbered (rows : List Row) : Prop :=
  rows.map (·.seq) = (List.range rows.length).map fun i : Nat => (i : Int) + 1

/-- The rows of a run are numbered `1..n`, each linked to the one before, and the
verifier accepts them. -/
structure Intact (sha256 : String → String) {π : Type} (cat : Catalog π) (rows : List Row) :
    Prop where
  numbered : rows.map (·.seq) = (List.range rows.length).map fun i : Nat => (i : Int) + 1
  linked : ∀ i row, rows[i]? = some row → row.prevHash = headHash "" (rows.take i)
  accepted : Accepted sha256 cat rows

section Histories

variable {sha256 : String → String} {π : Type} {cat : Catalog π} {table table' rows : List Row}
  {calls : List (Call π)} {c : Call π} {row : Row}

theorem Intact.nil : Intact sha256 cat [] :=
  ⟨rfl, fun _ _ h => (by cases h), 0, rfl⟩

theorem Numbered.last (h : Numbered (rows ++ [row])) : row.seq = rows.length + 1 := by
  unfold Numbered at h
  rw [List.length_append, List.length_singleton, List.range_succ, List.map_append, List.map_append]
    at h
  exact (List.cons.inj (List.append_inj_right' h rfl)).1

theorem Numbered.snoc (h : Numbered rows) (hseq : row.seq = rows.length + 1) :
    Numbered (rows ++ [row]) := by
  unfold Numbered
  rw [List.length_append, List.length_singleton, List.range_succ, List.map_append,
    List.map_append, h, List.map_singleton, List.map_singleton, hseq]

/-- One more row keeps the history intact. -/
theorem Intact.snoc (h : Intact sha256 cat rows) (hseq : row.seq = rows.length + 1)
    (hcheck : checkRow sha256 cat (headHash "" rows) row = .passed) :
    Intact sha256 cat (rows ++ [row]) where
  numbered := Numbered.snoc h.numbered hseq
  linked i r hr := by
    rcases lt_trichotomy i rows.length with hlt | heq | hgt
    · rw [List.getElem?_append_left hlt] at hr
      rw [List.take_append_of_le_length hlt.le]
      exact h.linked i r hr
    · subst heq
      rw [List.getElem?_concat_length] at hr
      cases hr
      rw [List.take_left']
      · exact (checkRow_passed.mp hcheck).1
      · rfl
    · rw [List.getElem?_eq_none (by rw [List.length_append, List.length_singleton]; omega)] at hr
      cases hr
  accepted := verify_snoc.mpr ⟨h.accepted, hcheck⟩

/-- A numbered history is in order. -/
theorem Numbered.rowsOf_eq {runId : String} (h : Numbered (table.filter (·.runId = runId))) :
    rowsOf table runId = table.filter (·.runId = runId) := by
  unfold rowsOf
  refine List.Pairwise.insertionSort_eq ?_
  have hpairs : ((table.filter (·.runId = runId)).map (·.seq)).Pairwise (· ≤ ·) := by
    rw [h, List.pairwise_map]
    exact List.pairwise_le_range.imp fun hle => by omega
  exact List.pairwise_map.mp hpairs

/-- A stored row has the number and the link that its place asks for. -/
theorem persisted_place {event : EventEnvelope π}
    (h : Numbered (table.filter (·.runId = event.runId)))
    (hpersisted : persisted sha256 cat table event = .ok row) :
    row.seq = (table.filter (·.runId = event.runId)).length + 1 ∧
      row.prevHash = headHash "" (table.filter (·.runId = event.runId)) := by
  obtain ⟨prevHash, storedHash, parsed, -, hlink, -, -, rfl⟩ := persisted_cases hpersisted
  unfold prevEvent at hlink
  rw [h.rowsOf_eq] at hlink
  generalize table.filter (·.runId = event.runId) = rows at h hlink
  cases rows using List.reverseRecOn with
  | nil =>
    rcases link_cases hlink with ⟨-, hseq, rfl⟩ | ⟨r, hr, -, -⟩
    · exact ⟨hseq, rfl⟩
    · cases hr
  | append_singleton rows last =>
    rw [List.getLast?_concat] at hlink
    rcases link_cases hlink with ⟨hnone, -, -⟩ | ⟨r, hr, hseq, rfl⟩
    · cases hnone
    · cases hr
      rw [headHash_snoc, List.length_append, List.length_singleton]
      refine ⟨?_, rfl⟩
      show event.seq = _
      rw [hseq, h.last]
      push_cast
      rfl

/-- **The ledger.** After any calls, whoever made them and whichever were refused
or failed, none of them timed `-0.0`: the rows of every run are numbered, linked
and accepted, and a call that raises leaves the table as it is. -/
theorem ledger_sound (hcat : cat.Lawful) (hcalls : ∀ c ∈ calls, c.timestamp ≠ Double.negZero) :
    (∀ runId, Intact sha256 cat (rowsOf (tableAfter sha256 cat calls) runId)) ∧
      ∀ c e, (perform sha256 cat (tableAfter sha256 cat calls) c).2 = .error e →
        (perform sha256 cat (tableAfter sha256 cat calls) c).1 = tableAfter sha256 cat calls := by
  refine ⟨fun runId => ?_, fun c e => call_failed⟩
  suffices hall : ∀ runId,
      Intact sha256 cat ((tableAfter sha256 cat calls).filter (·.runId = runId)) by
    rw [Numbered.rowsOf_eq (hall runId).numbered]
    exact hall runId
  refine tableAfter_rule (P := fun table => ∀ runId, Intact sha256 cat
    (table.filter (·.runId = runId))) (fun _ => .nil) ?_
  intro c hc table table' row hbefore h runId
  obtain ⟨event, htime, -, -, hpersisted, hinsert⟩ := perform_cases h
  have hrun : row.runId = event.runId := by
    obtain ⟨_, _, _, -, -, -, -, rfl⟩ := persisted_cases hpersisted
    rfl
  rw [insertRow_ok hinsert, List.filter_append]
  by_cases heq : event.runId = runId
  · subst heq
    obtain ⟨hseq, hprev⟩ := persisted_place (hbefore event.runId).numbered hpersisted
    have hfilter : [row].filter (·.runId = event.runId) = [row] :=
      List.filter_cons_of_pos (decide_eq_true hrun)
    rw [hfilter]
    refine (hbefore event.runId).snoc hseq (hprev ▸ ?_)
    exact persisted_passes hcat (htime ▸ hcalls c hc) hpersisted
  · have hfilter : [row].filter (·.runId = runId) = [] :=
      List.filter_cons_of_neg fun h => heq (hrun.symm.trans (of_decide_eq_true h))
    rw [hfilter, List.append_nil]
    exact hbefore runId

end Histories

/-- A finding is stored once, though it is appended twice. -/
theorem ledger_sound_finding :
    Intact findingHash findings (rowsOf (tableAfter findingHash findings
      [.append none (findingAt "imports" false), .append none (findingAt "imports" false),
        .appendNext (some .begin) "r" ⟨"exports"⟩ Double.zero]) "r") :=
  (ledger_sound findings_lawful (by decide)).1 "r"

/-- A finding timed `-0.0` is stored, and its run is not accepted any more. -/
theorem minus_zero_refused :
    ¬ ∀ (calls : List (Call Finding)) (runId : String),
      Accepted findingHash findings (rowsOf (tableAfter findingHash findings calls) runId) := by
  intro hall
  obtain ⟨n, hn⟩ := hall [.append none (findingAt "imports" true)] "r"
  have hbroken : verifyIntegrity findingHash findings (rowsOf (tableAfter findingHash findings
      [.append none (findingAt "imports" true)]) "r") = .broken 0 1 "hash_mismatch" := by
    decide +kernel
  rw [hbroken] at hn
  cases hn

end Ledger

end Northstack
