import Northstack.Adapters.Ledger

/-!
# What redaction leaves

`_redact_recursive` (adapters/sqlite_ledger.py:38-60) replaces the values that
look like a credential and the values under a secret field name. Keys stay.

**Result.** `stored_clean_iff`: what the ledger persists of an event is free of
credentials exactly where no key that stays looks like one; redacting it again
changes nothing.
-/
namespace Northstack

open JsonText

theorem redactFields_keys (fs : List (String × Json)) :
    (redactFields fs).map Prod.fst = fs.map Prod.fst := by
  induction fs with
  | nil => rfl
  | cons f fs ih =>
    rw [redactFields, List.map_cons, List.map_cons, ih]

theorem redactItems_eq (xs : List Json) : redactItems xs = xs.map redactRecursive := by
  induction xs with
  | nil => rfl
  | cons x xs ih => rw [redactItems, ih, List.map_cons]

/-- What redaction makes of the value of a field. -/
def redactField (f : String × Json) : String × Json :=
  (f.1, if isSecretFieldName f.1 then .str redacted else redactRecursive f.2)

theorem redactFields_eq (fs : List (String × Json)) : redactFields fs = fs.map redactField := by
  induction fs with
  | nil => rfl
  | cons f fs ih =>
    rw [redactFields, ih]
    rfl

theorem mem_redactFields {fs : List (String × Json)} {f : String × Json}
    (h : f ∈ redactFields fs) : ∃ g ∈ fs, redactField g = f := by
  rw [redactFields_eq] at h
  exact List.mem_map.mp h

theorem redactField_key (f : String × Json) : (redactField f).1 = f.1 := by
  unfold redactField
  dsimp only

theorem redactField_secret {f : String × Json} (h : isSecretFieldName f.1 = true) :
    (redactField f).2 = .str redacted := by
  unfold redactField
  dsimp only
  rw [if_pos h]

theorem redactField_plain {f : String × Json} (h : isSecretFieldName f.1 = false) :
    (redactField f).2 = redactRecursive f.2 := by
  unfold redactField
  dsimp only
  rw [if_neg]
  rw [h]
  exact Bool.false_ne_true

theorem redact_sound {j : Json} (h : Sound j) : Sound (redactRecursive j) := by
  induction h with
  | arr h ih =>
    rw [redactRecursive, redactItems_eq]
    refine .arr fun x hx => ?_
    obtain ⟨y, hy, rfl⟩ := List.mem_map.mp hx
    exact ih y hy
  | @obj fs hk h ih =>
    rw [redactRecursive]
    refine .obj ((redactFields_keys fs).symm ▸ hk) fun f hf => ?_
    obtain ⟨g, hg, rfl⟩ := mem_redactFields hf
    cases hs : isSecretFieldName g.1 with
    | true =>
      rw [redactField_secret hs]
      exact .str _
    | false =>
      rw [redactField_plain hs]
      exact ih g hg
  | null => exact .null
  | bool b => exact .bool b
  | int i => exact .int i
  | float h => exact .float h
  | str s => exact .str _

theorem lookup_redactFields {k : String} {fs : List (String × Json)}
    (hk : isSecretFieldName k = false) :
    Json.lookup k (redactFields fs) = (Json.lookup k fs).map redactRecursive := by
  induction fs with
  | nil => rfl
  | cons f fs ih =>
    obtain ⟨k', v⟩ := f
    rw [redactFields, Json.lookup, Json.lookup, ih]
    cases hl : Json.lookup k fs with
    | some w => rfl
    | none =>
      by_cases hkk : k' = k
      · subst hkk
        rw [if_pos rfl, if_pos rfl, hk]
        rfl
      · rw [if_neg hkk, if_neg hkk]
        rfl

/-! ## Clean values -/

/-- No string, key or value, looks like a credential, and what stands under a
secret field name is the placeholder. -/
inductive Clean : Json → Prop where
  | null : Clean .null
  | bool (b : Bool) : Clean (.bool b)
  | int (i : Int) : Clean (.int i)
  | float (x : PyFloat) : Clean (.float x)
  | str {s : String} (h : looksLikeSecretValue s = false) : Clean (.str s)
  | arr {xs : List Json} (h : ∀ x ∈ xs, Clean x) : Clean (.arr xs)
  | obj {fs : List (String × Json)} (hk : ∀ f ∈ fs, looksLikeSecretValue f.1 = false)
    (hs : ∀ f ∈ fs, isSecretFieldName f.1 = true → f.2 = .str redacted)
    (h : ∀ f ∈ fs, Clean f.2) : Clean (.obj fs)

/-- No key that stays looks like a credential: what stands under a secret field
name goes, with its keys. -/
inductive PlainKeys : Json → Prop where
  | null : PlainKeys .null
  | bool (b : Bool) : PlainKeys (.bool b)
  | int (i : Int) : PlainKeys (.int i)
  | float (x : PyFloat) : PlainKeys (.float x)
  | str (s : String) : PlainKeys (.str s)
  | arr {xs : List Json} (h : ∀ x ∈ xs, PlainKeys x) : PlainKeys (.arr xs)
  | obj {fs : List (String × Json)} (hk : ∀ f ∈ fs, looksLikeSecretValue f.1 = false)
    (h : ∀ f ∈ fs, isSecretFieldName f.1 = false → PlainKeys f.2) : PlainKeys (.obj fs)

theorem PlainKeys.clean {j : Json} (h : PlainKeys j) : Clean (redactRecursive j) := by
  induction h with
  | null => exact .null
  | bool b => exact .bool b
  | int i => exact .int i
  | float x => exact .float x
  | str s => exact .str (redactText_clean s)
  | arr h ih =>
    rw [redactRecursive, redactItems_eq]
    refine .arr fun x hx => ?_
    obtain ⟨y, hy, rfl⟩ := List.mem_map.mp hx
    exact ih y hy
  | obj hk h ih =>
    rw [redactRecursive]
    refine .obj (fun f hf => ?_) (fun f hf hs => ?_) (fun f hf => ?_) <;>
      obtain ⟨g, hg, rfl⟩ := mem_redactFields hf
    · rw [redactField_key]
      exact hk g hg
    · rw [redactField_key] at hs
      exact redactField_secret hs
    · cases hs : isSecretFieldName g.1 with
      | true =>
        rw [redactField_secret hs]
        exact .str (by decide)
      | false =>
        rw [redactField_plain hs]
        exact ih g hg hs

theorem plainKeys_of_clean (j : Json) (h : Clean (redactRecursive j)) : PlainKeys j := by
  induction j using Json.value_induction with
  | null => exact .null
  | bool b => exact .bool b
  | int i => exact .int i
  | float x => exact .float x
  | str s => exact .str s
  | arr xs ih =>
    rw [redactRecursive, redactItems_eq] at h
    cases h with
    | arr h => exact .arr fun x hx => ih x hx (h _ (List.mem_map_of_mem hx))
  | obj fs ih =>
    rw [redactRecursive, redactFields_eq] at h
    cases h with
    | obj hk hs h =>
      refine .obj (fun f hf => ?_) fun f hf hs' => ?_
      · have hkey := hk (redactField f) (List.mem_map_of_mem hf)
        rwa [redactField_key] at hkey
      · have hclean := h (redactField f) (List.mem_map_of_mem hf)
        rw [redactField_plain hs'] at hclean
        exact ih f hf hclean

/-- **Clean values.** A redacted value is clean if and only if no key that stays
looks like a credential. -/
theorem clean_redact_iff {j : Json} : Clean (redactRecursive j) ↔ PlainKeys j :=
  ⟨plainKeys_of_clean j, PlainKeys.clean⟩

theorem redactField_idem {f : String × Json}
    (h : redactRecursive (redactRecursive f.2) = redactRecursive f.2) :
    redactField (redactField f) = redactField f := by
  have hkey : (redactField (redactField f)).1 = (redactField f).1 := redactField_key _
  refine Prod.ext hkey ?_
  cases hs : isSecretFieldName f.1 with
  | true =>
    have hs' : isSecretFieldName (redactField f).1 = true := by rw [redactField_key, hs]
    rw [redactField_secret hs, redactField_secret hs']
  | false =>
    have hs' : isSecretFieldName (redactField f).1 = false := by rw [redactField_key, hs]
    rw [redactField_plain hs', redactField_plain hs, h]

/-- What is redacted stays as it is. -/
theorem redact_idem (j : Json) : redactRecursive (redactRecursive j) = redactRecursive j := by
  induction j using Json.value_induction with
  | str s => rw [redactRecursive, redactRecursive, redactText_idem]
  | arr xs ih =>
    simp only [redactRecursive, redactItems_eq, List.map_map]
    exact congrArg Json.arr (List.map_congr_left ih)
  | obj fs ih =>
    simp only [redactRecursive, redactFields_eq, List.map_map]
    exact congrArg Json.obj (List.map_congr_left fun f hf => redactField_idem (ih f hf))
  | _ => rfl

/-! ## The order of keys -/

/-- A field with the keys of its value sorted. -/
def sortField (f : String × Json) : String × Json := (f.1, sortKeys f.2)

theorem sortField_key (f : String × Json) : (sortField f).1 = f.1 := rfl

theorem sortField_value (f : String × Json) : (sortField f).2 = sortKeys f.2 := rfl

theorem redactField_sorted {f : String × Json}
    (h : redactRecursive (sortKeys f.2) = sortKeys (redactRecursive f.2)) :
    redactField (sortField f) = sortField (redactField f) := by
  have hkey : (redactField (sortField f)).1 = (sortField (redactField f)).1 := by
    rw [redactField_key, sortField_key, sortField_key, redactField_key]
  refine Prod.ext hkey ?_
  rw [sortField_value]
  cases hs : isSecretFieldName f.1 with
  | true =>
    have hs' : isSecretFieldName (sortField f).1 = true := by rw [sortField_key, hs]
    rw [redactField_secret hs, redactField_secret hs']
    rfl
  | false =>
    have hs' : isSecretFieldName (sortField f).1 = false := by rw [sortField_key, hs]
    rw [redactField_plain hs, redactField_plain hs', sortField_value, h]

theorem redactFields_sorted {fs : List (String × Json)}
    (h : ∀ f ∈ fs, redactRecursive (sortKeys f.2) = sortKeys (redactRecursive f.2)) :
    redactFields (sortFields fs) = sortFields (redactFields fs) := by
  have hvalues : (sortValues fs).map redactField = sortValues (redactFields fs) := by
    rw [redactFields_eq]
    unfold sortValues
    rw [List.map_map, List.map_map]
    exact List.map_congr_left fun f hf => redactField_sorted (h f hf)
  have hkeys : ∀ f ∈ sortValues fs, ∀ g ∈ sortValues fs,
      byKey f g ↔ byKey (redactField f) (redactField g) := by
    intro f _ g _
    unfold byKey
    rw [redactField_key, redactField_key]
  rw [sortFields_eq, sortFields_eq, redactFields_eq (List.insertionSort byKey _),
    List.map_insertionSort byKey byKey redactField _ hkeys, hvalues]

/-- Redaction and the sorting of keys can change places. -/
theorem redact_sortKeys (j : Json) :
    redactRecursive (sortKeys j) = sortKeys (redactRecursive j) := by
  induction j using Json.value_induction with
  | arr xs ih =>
    simp only [redactRecursive, sortKeys, redactItems_eq, sortItems_eq, List.map_map]
    exact congrArg Json.arr (List.map_congr_left ih)
  | obj fs ih =>
    simp only [redactRecursive, sortKeys]
    exact congrArg Json.obj (redactFields_sorted ih)
  | _ => rfl

theorem PlainKeys.sorted {j : Json} (h : PlainKeys j) : PlainKeys (sortKeys j) := by
  induction h with
  | arr h ih =>
    rw [sortKeys, sortItems_eq]
    refine .arr fun x hx => ?_
    obtain ⟨y, hy, rfl⟩ := List.mem_map.mp hx
    exact ih y hy
  | obj hk h ih =>
    rw [sortKeys]
    refine .obj (fun f hf => ?_) fun f hf hs => ?_ <;>
      obtain ⟨v, hv, he⟩ := mem_sortFields hf
    · exact hk (f.1, v) hv
    · rw [he]
      exact ih (f.1, v) hv hs
  | null => exact .null
  | bool b => exact .bool b
  | int i => exact .int i
  | float x => exact .float x
  | str s => exact .str s

theorem plainKeys_of_sorted (j : Json) (h : PlainKeys (sortKeys j)) : PlainKeys j := by
  induction j using Json.value_induction with
  | null => exact .null
  | bool b => exact .bool b
  | int i => exact .int i
  | float x => exact .float x
  | str s => exact .str s
  | arr xs ih =>
    rw [sortKeys, sortItems_eq] at h
    cases h with
    | arr h => exact .arr fun x hx => ih x hx (h _ (List.mem_map_of_mem hx))
  | obj fs ih =>
    rw [sortKeys] at h
    cases h with
    | obj hk h =>
      have hmem : ∀ f ∈ fs, (f.1, sortKeys f.2) ∈ sortFields fs := fun f hf =>
        (sortFields_perm fs).mem_iff.mpr
          (List.mem_map_of_mem (f := fun f : String × Json => (f.1, sortKeys f.2)) hf)
      refine .obj (fun f hf => hk (f.1, sortKeys f.2) (hmem f hf)) fun f hf hs => ?_
      exact ih f hf (h (f.1, sortKeys f.2) (hmem f hf) hs)

/-! ## What is persisted -/

namespace Ledger

section

variable {sha256 : String → String} {π : Type} {cat : Catalog π} {table table' : List Row}
  {calls : List (Call π)} {c : Call π} {row : Row}

/-- The columns of a row. -/
def columns : List String :=
  ["run_id", "seq", "kind", "payload", "schema_version", "timestamp", "prev_hash", "hash_chain"]

theorem columns_plain : ∀ k ∈ columns,
    looksLikeSecretValue k = false ∧ isSecretFieldName k = false := by decide

/-- A row as a value, `payload` being what its payload parses as. -/
def Row.record (row : Row) (payload : Json) : Json :=
  .obj [("run_id", .str row.runId), ("seq", .int row.seq), ("kind", .str row.kind),
    ("payload", payload), ("schema_version", .int row.schemaVersion),
    ("timestamp", .float row.timestamp.1), ("prev_hash", .str row.prevHash),
    ("hash_chain", .str row.hashChain)]

theorem kind_plain : ∀ kind ∈ eventKinds, looksLikeSecretValue kind = false := by decide

theorem record_clean {payload : Json} (hkind : row.kind ∈ eventKinds)
    (hprev : looksLikeSecretValue row.prevHash = false)
    (hhash : looksLikeSecretValue row.hashChain = false) :
    Clean (row.record payload) ↔ Clean payload ∧ looksLikeSecretValue row.runId = false := by
  constructor
  · intro h
    cases h with
    | obj hk hs h =>
      refine ⟨h ("payload", payload) (by simp), ?_⟩
      have hrun := h ("run_id", .str row.runId) (by simp)
      cases hrun with
      | str h => exact h
  · rintro ⟨hpayload, hrun⟩
    refine .obj (fun f hf => ?_) (fun f hf hs => ?_) fun f hf => ?_
    · exact (columns_plain f.1 (List.mem_map_of_mem hf)).1
    · rw [(columns_plain f.1 (List.mem_map_of_mem hf)).2] at hs
      cases hs
    · simp only [List.mem_cons, List.not_mem_nil, or_false] at hf
      rcases hf with rfl | rfl | rfl | rfl | rfl | rfl | rfl | rfl
      · exact .str hrun
      · exact .int _
      · exact .str (kind_plain _ hkind)
      · exact hpayload
      · exact .int _
      · exact .float _
      · exact .str hprev
      · exact .str hhash

/-- Every hash of the table is one the ledger made. -/
theorem hash_made : ∀ r ∈ tableAfter sha256 cat calls, ∃ text, r.hashChain = sha256 text := by
  refine tableAfter_rule (P := fun table => ∀ r ∈ table, ∃ text, r.hashChain = sha256 text)
    (List.forall_mem_nil _) fun c _ table table' row hbefore hperform r hr => ?_
  obtain ⟨event, -, -, -, hpersisted, hinsert⟩ := perform_cases hperform
  rw [insertRow_ok hinsert] at hr
  rcases List.mem_append.mp hr with hr | hr
  · exact hbefore r hr
  · obtain ⟨_, _, _, -, -, hhash, -, he⟩ := persisted_cases hpersisted
    rw [List.mem_singleton.mp hr, he]
    exact ⟨_, (computeHash_some hhash).2⟩

theorem payload_writable {runId kind prevHash : String} {seq version : Int}
    {payload : List (String × Json)} {timestamp : Double}
    (h : writable (hashed runId seq kind payload prevHash version timestamp) = true) :
    writable (.obj payload) = true :=
  writableFields_iff.mp h ("payload", .obj payload) (by simp)

/-- What the payload that a call stores parses as. -/
theorem stored_payload (hsound : ∀ p, Sound (.obj (cat.dump p)))
    (h : perform sha256 cat table c = (table', .ok row)) :
    loads row.payload = .ok (sortKeys (redactRecursive (.obj (cat.dump c.payload)))) := by
  obtain ⟨event, -, -, hpayload, hpersisted, -⟩ := perform_cases h
  obtain ⟨prevHash, storedHash, parsed, -, -, hhash, -, rfl⟩ := persisted_cases hpersisted
  have hw := payload_writable (computeHash_some hhash).1
  have hsound' := redact_sound (hsound event.payload)
  rw [← hpayload]
  rw [redactRecursive] at hsound' ⊢
  exact loads_sorted Separators.spaced_default (hsound'.held hw)

/-- **What the ledger keeps.** Whatever calls came before, the row a call stores
has no text, key or value, that looks like a credential, and nothing but the
placeholder under a secret field name, if and only if the id of its run and the
keys of its payload that stay do not look like one. Redacting the payload again
changes nothing. -/
theorem stored_clean_iff (hsound : ∀ p, Sound (.obj (cat.dump p)))
    (hkind : ∀ p, cat.kind p ∈ eventKinds)
    (hsha : ∀ text, looksLikeSecretValue (sha256 text) = false)
    (h : perform sha256 cat (tableAfter sha256 cat calls) c = (table', .ok row)) :
    ∃ payload, loads row.payload = .ok payload ∧
      (Clean (row.record payload) ↔
        PlainKeys (.obj (cat.dump c.payload)) ∧ looksLikeSecretValue c.runId = false) ∧
      redactRecursive payload = payload := by
  refine ⟨_, stored_payload hsound h, ?_, ?_⟩
  · obtain ⟨event, -, hrun, -, hpersisted, -⟩ := perform_cases h
    obtain ⟨prevHash, storedHash, parsed, -, hlink, hhash, -, he⟩ := persisted_cases hpersisted
    have hrunId : row.runId = event.runId := by rw [he]
    have hkind' : row.kind = cat.kind parsed := by rw [he]
    have hprev' : row.prevHash = prevHash := by rw [he]
    have hhash' : row.hashChain = storedHash := by rw [he]
    have hprev : looksLikeSecretValue row.prevHash = false := by
      rw [hprev']
      rcases link_cases hlink with ⟨-, -, rfl⟩ | ⟨r, hr, -, rfl⟩
      · decide
      · obtain ⟨text, ht⟩ := hash_made r (mem_of_prevEvent hr)
        rw [ht, hsha]
    have hhash : looksLikeSecretValue row.hashChain = false := by
      rw [hhash', (computeHash_some hhash).2, hsha]
    have hkindOk : row.kind ∈ eventKinds := hkind' ▸ hkind parsed
    rw [record_clean hkindOk hprev hhash, ← redact_sortKeys, clean_redact_iff, ← hrun, hrunId]
    exact and_congr_left' ⟨plainKeys_of_sorted _, PlainKeys.sorted⟩
  · rw [redact_sortKeys, redact_idem]

end

/-! ## A credential as a key -/

/-- An `AnalysisCompleted` with one finding. -/
structure Finding where
  key : String

def Finding.dump (p : Finding) : List (String × Json) :=
  [("schema_version", .int 1), ("kind", .str "analysis_completed"), ("profile", .str "scout"),
    ("analysis", .obj [(p.key, .bool true)])]

/-- The fields of an `AnalysisCompleted` with one finding, and no others. -/
def Finding.parse (fs : List (String × Json)) : Option Finding :=
  match sortKeys (.obj fs) with
  | .obj [("analysis", .obj [(key, .bool true)]), ("kind", .str "analysis_completed"),
      ("profile", .str "scout"), ("schema_version", .int 1)] => some ⟨key⟩
  | _ => none

/-- The catalog as far as such events go. -/
def findings : Catalog Finding where
  kind _ := "analysis_completed"
  schemaVersion _ := 1
  dump := Finding.dump
  parse := Finding.parse

theorem findings_sound (p : Finding) : Sound (.obj (findings.dump p)) := by
  refine .obj (show List.Nodup ["schema_version", "kind", "profile", "analysis"] by decide)
    fun f hf => ?_
  simp only [findings, Finding.dump, List.mem_cons, List.not_mem_nil, or_false] at hf
  rcases hf with rfl | rfl | rfl | rfl
  · exact .int _
  · exact .str _
  · exact .str _
  · refine .obj (List.nodup_singleton _) fun f hf => ?_
    rw [List.mem_singleton.mp hf]
    exact .bool true

theorem findings_kind (p : Finding) : findings.kind p ∈ eventKinds :=
  show "analysis_completed" ∈ eventKinds by decide

def findingAt (key : String) (neg : Bool) : EventEnvelope Finding :=
  { runId := "r", seq := 1, payload := ⟨key⟩, timestamp := ⟨.finite neg 0, rfl⟩
    seq_pos := le_refl 1, timestamp_finite := rfl }

/-- The digest of the first finding. -/
def findingDigest : String := "b7502aeb5e78e837d8b98a02efcc1e2d49187ac07ed15e7147edd53c073b470d"

theorem finding_stored (key : String) (h : (perform (fun _ => findingDigest) findings []
    (.append none (findingAt key false))).2.toOption.isSome = true) :
    ∃ table row, perform (fun _ => findingDigest) findings
      (tableAfter (fun _ => findingDigest) findings [])
      (.append none (findingAt key false)) = (table, .ok row) := by
  cases hp : perform (fun _ => findingDigest) findings []
    (.append none (findingAt key false)) with
  | mk table r =>
    rw [hp] at h
    cases r with
    | error e => cases h
    | ok row => exact ⟨table, row, hp⟩

/-- A finding with a plain key is kept clean. -/
theorem stored_clean_iff_finding :
    ∃ table row, perform (fun _ => findingDigest) findings []
        (.append none (findingAt "imports" false)) = (table, .ok row) ∧
      ∃ payload, loads row.payload = .ok payload ∧ Clean (row.record payload) := by
  obtain ⟨table, row, hrow⟩ := finding_stored "imports" (by decide +kernel)
  obtain ⟨payload, hloads, hclean, -⟩ := stored_clean_iff findings_sound findings_kind
    (fun _ => by decide) hrow
  refine ⟨table, row, hrow, payload, hloads, hclean.mpr ⟨?_, by decide⟩⟩
  refine .obj (fun f hf => ?_) fun f hf hs => ?_ <;>
    simp only [Call.payload, findings, Finding.dump, findingAt, List.mem_cons, List.not_mem_nil,
      or_false] at hf
  · rcases hf with rfl | rfl | rfl | rfl <;> decide
  · rcases hf with rfl | rfl | rfl | rfl
    · exact .int _
    · exact .str _
    · exact .str _
    · refine .obj (fun f hf => ?_) fun f hf _ => ?_ <;> rw [List.mem_singleton.mp hf]
      · decide
      · exact .bool true

/-- A finding whose key is a credential is kept as it is. -/
theorem secret_key_kept :
    ¬ ∀ (event : EventEnvelope Finding) (table : List Row) (row : Row),
      perform (fun _ => findingDigest) findings [] (.append none event) = (table, .ok row) →
      ∃ payload, loads row.payload = .ok payload ∧ Clean payload := by
  intro hall
  obtain ⟨table, row, hrow⟩ := finding_stored "sk-live" (by decide +kernel)
  obtain ⟨payload, hloads, hclean⟩ := hall _ table row hrow
  rw [stored_payload findings_sound hrow] at hloads
  cases hloads
  rw [← redact_sortKeys, clean_redact_iff] at hclean
  cases plainKeys_of_sorted _ hclean with
  | obj hk h =>
    have hanalysis := h ("analysis", .obj [("sk-live", .bool true)])
      (by simp [Call.payload, findings, Finding.dump, findingAt]) (by decide)
    cases hanalysis with
    | obj hk h =>
      have hkey := hk ("sk-live", .bool true) (List.mem_singleton_self _)
      exact absurd hkey (by decide)

end Ledger

end Northstack
