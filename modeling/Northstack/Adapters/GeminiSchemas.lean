import Northstack.Adapters.Wire
import Northstack.Core.JsonSchema
import Northstack.Core.JsonValues

/-!
# The schemas of tools on Gemini

Gemini declares the arguments of a function either as a `Schema` of its own, in
`parameters`, or as a JSON schema, in `parametersJsonSchema`. The adapter projects a
schema onto the fields `Schema` has, unless it uses a keyword that changes what the
remaining ones mean.

**Results.**
* `tool_parameters_looser`: whatever arguments the schema of a tool admits, the declared
  one admits, under every reading of the keywords the projection drops.
* `geminiSchema_subset`, `subset_fixed`: a projection has only fields Gemini knows, at any
  depth, and such a schema is its own projection.
-/
namespace Northstack

open JsonSchema

/-- `gateway.py:274-299` -/
def geminiSchemaFields : List String :=
  ["type", "format", "title", "description", "nullable", "enum", "maxItems", "minItems",
    "properties", "required", "minProperties", "maxProperties", "minLength", "maxLength",
    "pattern", "example", "anyOf", "propertyOrdering", "default", "items", "minimum", "maximum"]

/-- `gateway.py:301-303` -/
def geminiStructuralKeywords : List String :=
  ["$ref", "$defs", "definitions", "allOf", "oneOf", "not", "prefixItems", "const"]

mutual

/-- `_gemini_needs_json_schema` (gateway.py:306-325); a `dict` has one value for a key. -/
def geminiNeedsJsonSchema : Json → Bool
  | .obj fields =>
    if fields.any fun f => f.1 ∈ geminiStructuralKeywords then true else childrenNeed fields
  | _ => false

/-- One of the schemas under the containers of the subset needs it. -/
def childrenNeed : List (String × Json) → Bool
  | [] => false
  | (key, value) :: fields =>
    (if key = "properties" then
      match value with
      | .obj properties => propertiesNeed properties
      | _ => false
    else if key = "anyOf" then
      match value with
      | .arr anyOf => anyNeeds anyOf
      | _ => false
    else if key = "items" then geminiNeedsJsonSchema value
    else false) || childrenNeed fields

def propertiesNeed : List (String × Json) → Bool
  | [] => false
  | (_, node) :: nodes => geminiNeedsJsonSchema node || propertiesNeed nodes

def anyNeeds : List Json → Bool
  | [] => false
  | node :: nodes => geminiNeedsJsonSchema node || anyNeeds nodes

end

mutual

/-- `_gemini_schema_subset` (gateway.py:328-349) -/
def geminiSchemaSubset : Json → Json
  | .obj fields => .obj (subsetFields fields)
  | schema => schema

def subsetFields : List (String × Json) → List (String × Json)
  | [] => []
  | (key, value) :: fields =>
    if key ∉ geminiSchemaFields then subsetFields fields
    else
      (key,
        if key = "properties" then
          match value with
          | .obj properties => .obj (subsetProperties properties)
          | value => value
        else if key = "anyOf" then
          match value with
          | .arr anyOf => .arr (subsetAll anyOf)
          | value => value
        else if key = "items" then geminiSchemaSubset value
        else value) :: subsetFields fields

def subsetProperties : List (String × Json) → List (String × Json)
  | [] => []
  | (k, v) :: properties => (k, geminiSchemaSubset v) :: subsetProperties properties

def subsetAll : List Json → List Json
  | [] => []
  | v :: vs => geminiSchemaSubset v :: subsetAll vs

end

/-- `_gemini_tool_parameters` (gateway.py:352-361): the field of the declaration, and what
it is bound to. -/
def geminiToolParameters (schema : Json) : String × Json :=
  if geminiNeedsJsonSchema schema then ("parametersJsonSchema", schema)
  else ("parameters", geminiSchemaSubset schema)

/-- The tools of a request body. `gateway.py:1772-1785` -/
def geminiTools (tools : List ToolDefinition) : Json :=
  .arr [.obj [("functionDeclarations", .arr (tools.map fun t => .obj
    [("name", .str t.name), ("description", .str t.description),
      geminiToolParameters (.obj t.parameters)]))]]

/-! ## One keyword at a time -/

/-- What the projection makes of the value of a keyword it keeps. -/
def subsetValue (key : String) (value : Json) : Json :=
  if key = "properties" then
    match value with
    | .obj properties => .obj (properties.map fun p => (p.1, geminiSchemaSubset p.2))
    | value => value
  else if key = "anyOf" then
    match value with
    | .arr anyOf => .arr (anyOf.map geminiSchemaSubset)
    | value => value
  else if key = "items" then geminiSchemaSubset value
  else value

theorem subsetProperties_eq (props : List (String × Json)) :
    subsetProperties props = props.map fun p => (p.1, geminiSchemaSubset p.2) := by
  induction props with
  | nil => rfl
  | cons p props ih => rw [subsetProperties, ih, List.map_cons]

theorem subsetAll_eq (schemas : List Json) :
    subsetAll schemas = schemas.map geminiSchemaSubset := by
  induction schemas with
  | nil => rfl
  | cons s schemas ih => rw [subsetAll, ih, List.map_cons]

theorem subsetFields_eq (fields : List (String × Json)) :
    subsetFields fields = (fields.filter fun f => f.1 ∈ geminiSchemaFields).map fun f =>
      (f.1, subsetValue f.1 f.2) := by
  induction fields with
  | nil => rfl
  | cons f fields ih =>
    obtain ⟨key, value⟩ := f
    unfold subsetFields
    by_cases hkey : key ∈ geminiSchemaFields
    · rw [if_neg (not_not.mpr hkey), List.filter_cons_of_pos (by simpa using hkey), List.map_cons,
        ih]
      unfold subsetValue
      simp only [subsetProperties_eq, subsetAll_eq]
    · rw [if_pos hkey, List.filter_cons_of_neg (by simpa using hkey), ih]

theorem mem_subsetFields {fields : List (String × Json)} {key : String} {value : Json} :
    (key, value) ∈ subsetFields fields ↔ key ∈ geminiSchemaFields ∧
      ∃ value', (key, value') ∈ fields ∧ value = subsetValue key value' := by
  rw [subsetFields_eq, List.mem_map]
  apply Iff.intro
  · intro h
    obtain ⟨f, hf, heq⟩ := h
    obtain ⟨hmem, hkey⟩ := List.mem_filter.mp hf
    cases heq
    exact ⟨of_decide_eq_true hkey, f.2, hmem, rfl⟩
  · intro h
    obtain ⟨hkey, value', hmem, rfl⟩ := h
    exact ⟨(key, value'), List.mem_filter.mpr ⟨hmem, decide_eq_true hkey⟩, rfl⟩

theorem propertiesNeed_iff {props : List (String × Json)} :
    propertiesNeed props = false ↔ ∀ p ∈ props, geminiNeedsJsonSchema p.2 = false := by
  induction props with
  | nil => simp [propertiesNeed]
  | cons p props ih => simp [propertiesNeed, ih]

theorem anyNeeds_iff {schemas : List Json} :
    anyNeeds schemas = false ↔ ∀ s ∈ schemas, geminiNeedsJsonSchema s = false := by
  induction schemas with
  | nil => simp [anyNeeds]
  | cons s schemas ih => simp [anyNeeds, ih]

theorem childrenNeed_iff {fields : List (String × Json)} : childrenNeed fields = false ↔
    ∀ f ∈ fields, ∀ s, Under f.1 f.2 s → geminiNeedsJsonSchema s = false := by
  induction fields with
  | nil => simp [childrenNeed]
  | cons f fields ih =>
    obtain ⟨key, value⟩ := f
    unfold childrenNeed
    rw [Bool.or_eq_false_iff, ih, List.forall_mem_cons]
    refine and_congr ?_ Iff.rfl
    dsimp only
    apply Iff.intro
    · intro h s hs
      cases hs with
      | property hkey hvalue hp =>
        rw [if_pos hkey, hvalue] at h
        exact propertiesNeed_iff.mp h _ hp
      | alternative hkey hvalue hs =>
        rw [if_neg (by rw [hkey]; decide), if_pos hkey, hvalue] at h
        exact anyNeeds_iff.mp h _ hs
      | items hkey =>
        rwa [if_neg (by rw [hkey]; decide), if_neg (by rw [hkey]; decide), if_pos hkey] at h
    · intro h
      split
      · rename_i hkey
        split
        · rename_i props
          exact propertiesNeed_iff.mpr fun p hp => h p.2 (.property hkey rfl hp)
        · rfl
      · split
        · rename_i hkey
          split
          · rename_i schemas
            exact anyNeeds_iff.mpr fun s hs => h s (.alternative hkey rfl hs)
          · rfl
        · split
          · rename_i hkey
            exact h value (.items hkey)
          · rfl

theorem needsJsonSchema_obj {fields : List (String × Json)} :
    geminiNeedsJsonSchema (.obj fields) = false ↔
      (∀ f ∈ fields, f.1 ∉ geminiStructuralKeywords) ∧
        ∀ f ∈ fields, ∀ s, Under f.1 f.2 s → geminiNeedsJsonSchema s = false := by
  rw [← childrenNeed_iff, geminiNeedsJsonSchema]
  split
  · rename_i hany
    obtain ⟨f, hf, hkey⟩ := List.any_eq_true.mp hany
    refine ⟨fun h => absurd h (by decide), fun h => absurd (of_decide_eq_true hkey) (h.1 f hf)⟩
  · rename_i hany
    have hnone : ∀ f ∈ fields, f.1 ∉ geminiStructuralKeywords := by
      intro f hf hkey
      exact hany (List.any_eq_true.mpr ⟨f, hf, decide_eq_true hkey⟩)
    exact ⟨fun h => ⟨hnone, h⟩, fun h => h.2⟩

/-! ## Looser -/

theorem lookup_subsetFields {fields : List (String × Json)} :
    Json.lookup "nullable" (subsetFields fields) = Json.lookup "nullable" fields := by
  induction fields with
  | nil => rfl
  | cons f fields ih =>
    obtain ⟨key, value⟩ := f
    unfold subsetFields
    by_cases hkey : key ∈ geminiSchemaFields
    · rw [if_neg (not_not.mpr hkey), Json.lookup, Json.lookup, ih]
      by_cases hnull : key = "nullable"
      · subst hnull
        rfl
      · rw [if_neg hnull, if_neg hnull]
    · have hne : key ≠ "nullable" := by
        intro h
        rw [h] at hkey
        exact hkey (by decide)
      rw [if_pos hkey, ih, Json.lookup, if_neg hne, Option.or_none]

theorem lookup_none {key : String} {fields : List (String × Json)} (h : ∀ f ∈ fields, f.1 ≠ key) :
    Json.lookup key fields = none := by
  induction fields with
  | nil => rfl
  | cons f fields ih =>
    obtain ⟨k, v⟩ := f
    rw [List.forall_mem_cons] at h
    rw [Json.lookup, ih h.2, if_neg h.1, Option.or_none]

/-- A field the projection keeps holds no schemas or is one of the three that do. -/
theorem kept_cases {key : String} (h : key ∈ geminiSchemaFields) :
    key = "properties" ∨ key = "anyOf" ∨ key = "items" ∨ key ∈ plainKeywords := by
  revert key
  decide

theorem subsetValue_plain {key : String} (h : key ∈ plainKeywords) (value : Json) :
    subsetValue key value = value := by
  unfold subsetValue
  rw [if_neg (plain_ne h (by decide)), if_neg (plain_ne h (by decide)),
    if_neg (plain_ne h (by decide))]

theorem schemaSubset_other {s : Json} (h : ∀ fields, s ≠ .obj fields) :
    geminiSchemaSubset s = s := by
  unfold geminiSchemaSubset
  split
  · exact absurd rfl (h _)
  · rfl

theorem schemaSubset_arr {s : Json} {schemas : List Json} :
    geminiSchemaSubset s = .arr schemas ↔ s = .arr schemas := by
  unfold geminiSchemaSubset
  split
  · exact ⟨fun h => (by cases h), fun h => by cases h⟩
  · rfl

theorem demands_subset {d : Dialect} {fields : List (String × Json)} {key : String}
    {value v : Json}
    (hkey : key ∈ geminiSchemaFields) (hmem : (key, value) ∈ fields)
    (hstruct : ∀ f ∈ fields, f.1 ∉ geminiStructuralKeywords)
    (hunder : ∀ s, Under key value s → Looser d s (geminiSchemaSubset s))
    (hv : Demands d fields key value v) :
    Demands d (subsetFields fields) key (subsetValue key value) v := by
  have htuple : ∀ f ∈ fields, f.1 ≠ "prefixItems" := by
    intro f hf heq
    exact hstruct f hf (heq ▸ by decide)
  have htuple' : ∀ f ∈ subsetFields fields, f.1 ≠ "prefixItems" := by
    intro f hf heq
    obtain ⟨hkept, -⟩ := mem_subsetFields.mp hf
    rw [heq] at hkept
    revert hkept
    decide
  rcases kept_cases hkey with rfl | rfl | rfl | hplain
  · refine demands_properties (fun props' h => ?_) hv
    unfold subsetValue at h
    rw [if_pos rfl] at h
    split at h
    · rename_i props
      cases h
      refine ⟨props, rfl, fun p' hp' => ?_⟩
      obtain ⟨p, hp, rfl⟩ := List.mem_map.mp hp'
      exact ⟨p, hp, rfl, hunder p.2 (.property rfl rfl hp)⟩
    · rename_i hobj
      exact absurd h (hobj props')
  · refine demands_anyOf (fun schemas' h => ?_) hv
    unfold subsetValue at h
    rw [if_neg (by decide), if_pos rfl] at h
    split at h
    · rename_i schemas
      cases h
      refine ⟨schemas, rfl, fun s hs => ?_⟩
      exact ⟨geminiSchemaSubset s, List.mem_map_of_mem hs, hunder s (.alternative rfl rfl hs)⟩
    · rename_i harr
      exact absurd h (harr schemas')
  · unfold subsetValue
    rw [if_neg (by decide), if_neg (by decide), if_pos rfl]
    refine demands_items (fun schemas h => ?_) (fun h => ⟨fun schemas hs => ?_, ?_⟩) ?_ hv
    · rw [h, schemaSubset_arr.mp h]
    · exact h schemas (schemaSubset_arr.mpr hs)
    · exact hunder value (.items rfl)
    · rw [lookup_none htuple, lookup_none htuple']
  · rw [subsetValue_plain hplain]
    exact (demands_plain hplain lookup_subsetFields.symm).mp hv

/-- Where no keyword needs more than the subset has, the projection only drops demands. -/
theorem looser_schemaSubset {d : Dialect} (s : Json) (h : geminiNeedsJsonSchema s = false) :
    Looser d s (geminiSchemaSubset s) := by
  induction s using schema_induction with
  | other s hs =>
    rw [schemaSubset_other hs]
    exact .refl s
  | obj fields ih =>
    obtain ⟨hstruct, hunder⟩ := needsJsonSchema_obj.mp h
    refine looser_obj fun f' hf' v hv => ?_
    obtain ⟨hkey, value, hmem, hvalue⟩ := mem_subsetFields.mp hf'
    rw [hvalue]
    exact demands_subset hkey hmem hstruct
      (fun s hs => ih _ hmem s hs (hunder _ hmem s hs)) (valid_obj.mp hv _ hmem)

/-! ## Well-formed -/

/-- All keywords of the schema, at any depth, are fields of Gemini's `Schema`. -/
def GeminiSchema (s : Json) : Prop :=
  ∀ fields, Within s (.obj fields) → ∀ f ∈ fields, f.1 ∈ geminiSchemaFields

/-- The schemas under a keyword the projection kept are projections. -/
theorem under_subsetValue {key : String} {value t : Json}
    (h : Under key (subsetValue key value) t) :
    ∃ s, Under key value s ∧ t = geminiSchemaSubset s := by
  cases h with
  | property hkey hvalue hp =>
    subst hkey
    unfold subsetValue at hvalue
    rw [if_pos rfl] at hvalue
    split at hvalue
    · cases hvalue
      obtain ⟨p, hmem, rfl⟩ := List.mem_map.mp hp
      exact ⟨p.2, .property rfl rfl hmem, rfl⟩
    · rename_i hobj
      exact absurd hvalue (hobj _)
  | alternative hkey hvalue hs =>
    subst hkey
    unfold subsetValue at hvalue
    rw [if_neg (by decide), if_pos rfl] at hvalue
    split at hvalue
    · cases hvalue
      obtain ⟨s, hmem, rfl⟩ := List.mem_map.mp hs
      exact ⟨s, .alternative rfl rfl hmem, rfl⟩
    · rename_i harr
      exact absurd hvalue (harr _)
  | items hkey =>
    subst hkey
    refine ⟨value, .items rfl, ?_⟩
    unfold subsetValue
    rw [if_neg (by decide), if_neg (by decide), if_pos rfl]

theorem geminiSchema_subset (s : Json) : GeminiSchema (geminiSchemaSubset s) := by
  induction s using schema_induction with
  | other s hs =>
    intro fields hwithin
    rw [schemaSubset_other hs] at hwithin
    exact absurd (within_other hs hwithin).symm (hs fields)
  | obj fields ih =>
    intro gs hwithin g hg
    rw [geminiSchemaSubset] at hwithin
    rcases within_obj.mp hwithin with heq | ⟨f', hf', t, ht, hrest⟩
    · cases heq
      exact (mem_subsetFields.mp hg).1
    · obtain ⟨-, value, hmem, hvalue⟩ := mem_subsetFields.mp hf'
      rw [hvalue] at ht
      obtain ⟨s, hs, rfl⟩ := under_subsetValue ht
      exact ih _ hmem s hs gs hrest g hg

/-- The other field is needed exactly for a schema in which a structural keyword stands
somewhere. -/
theorem needsJsonSchema_iff (s : Json) : geminiNeedsJsonSchema s = true ↔
    ∃ fields, Within s (.obj fields) ∧ ∃ f ∈ fields, f.1 ∈ geminiStructuralKeywords := by
  induction s using schema_induction with
  | other s hs =>
    have hfalse : geminiNeedsJsonSchema s = false := by
      unfold geminiNeedsJsonSchema
      split
      · exact absurd rfl (hs _)
      · rfl
    rw [hfalse]
    refine ⟨fun h => (by cases h), fun h => ?_⟩
    obtain ⟨fields, hwithin, -⟩ := h
    exact absurd (within_other hs hwithin).symm (hs fields)
  | obj fields ih =>
    rw [← Bool.not_eq_false, needsJsonSchema_obj]
    apply Iff.intro
    · intro h
      by_contra hnone
      refine h ⟨fun f hf hkey => hnone ⟨fields, .refl, f, hf, hkey⟩, fun f hf s hs => ?_⟩
      by_contra hneed
      obtain ⟨gs, hwithin, hkey⟩ := (ih f hf s hs).mp (Bool.eq_true_of_not_eq_false hneed)
      exact hnone ⟨gs, within_obj.mpr (.inr ⟨f, hf, s, hs, hwithin⟩), hkey⟩
    · intro h hall
      obtain ⟨gs, hwithin, g, hg, hkey⟩ := h
      rcases within_obj.mp hwithin with heq | ⟨f, hf, s, hs, hrest⟩
      · cases heq
        exact hall.1 g hg hkey
      · have hneed := (ih f hf s hs).mpr ⟨gs, hrest, g, hg, hkey⟩
        rw [hall.2 f hf s hs] at hneed
        cases hneed

theorem subsetValue_fixed {key : String} {value : Json}
    (h : ∀ s, Under key value s → geminiSchemaSubset s = s) : subsetValue key value = value := by
  unfold subsetValue
  split
  · rename_i hkey
    split
    · rename_i props
      have hfix : ∀ p ∈ props, (p.1, geminiSchemaSubset p.2) = p := by
        intro p hp
        rw [h p.2 (.property hkey rfl hp)]
      rw [List.map_congr_left hfix, List.map_id']
    · rfl
  · split
    · rename_i hkey
      split
      · rename_i schemas
        have hfix : ∀ s ∈ schemas, geminiSchemaSubset s = s :=
          fun s hs => h s (.alternative hkey rfl hs)
        rw [List.map_congr_left hfix, List.map_id']
      · rfl
    · split
      · rename_i hkey
        exact h value (.items hkey)
      · rfl

/-- A schema that is one of Gemini's stays as it is. -/
theorem subset_fixed (s : Json) (h : GeminiSchema s) : geminiSchemaSubset s = s := by
  induction s using schema_induction with
  | other s hs => exact schemaSubset_other hs
  | obj fields ih =>
    have hkept : ∀ f ∈ fields, f.1 ∈ geminiSchemaFields := h fields .refl
    have hfix : ∀ f ∈ fields, (f.1, subsetValue f.1 f.2) = f := by
      intro f hf
      rw [subsetValue_fixed fun s hs => ih f hf s hs fun gs hwithin =>
        h gs (within_obj.mpr (.inr ⟨f, hf, s, hs, hwithin⟩))]
    rw [geminiSchemaSubset, subsetFields_eq,
      List.filter_eq_self.mpr fun f hf => decide_eq_true (hkept f hf),
      List.map_congr_left hfix, List.map_id']

theorem needsJsonSchema_geminiSchema {s : Json} (h : GeminiSchema s) :
    geminiNeedsJsonSchema s = false := by
  rw [← Bool.not_eq_true, needsJsonSchema_iff]
  intro hneed
  obtain ⟨fields, hwithin, f, hf, hkey⟩ := hneed
  have hkept := h fields hwithin f hf
  have hdisjoint : ∀ key ∈ geminiSchemaFields, key ∉ geminiStructuralKeywords := by decide
  exact hdisjoint f.1 hkept hkey

/-- **Declared arguments.** Whatever the keywords outside Gemini's subset demand, the schema
declared to Gemini admits all that the schema of the tool admits. It is the schema itself
where a structural keyword stands somewhere in it, and otherwise one with Gemini's fields
alone; a schema that is one of these is declared as it is. `gateway.py:306-361` -/
theorem tool_parameters_looser (d : Dialect) (schema : Json) :
    Looser d schema (geminiToolParameters schema).2 ∧
      ((geminiToolParameters schema).1 = "parameters" ∧
          GeminiSchema (geminiToolParameters schema).2 ∨
        geminiToolParameters schema = ("parametersJsonSchema", schema) ∧
          ∃ fields, Within schema (.obj fields) ∧
            ∃ f ∈ fields, f.1 ∈ geminiStructuralKeywords) ∧
      (GeminiSchema schema → geminiToolParameters schema = ("parameters", schema)) := by
  unfold geminiToolParameters
  refine ⟨?_, ?_, fun h => ?_⟩
  · split
    · exact .refl schema
    · rename_i hneed
      exact looser_schemaSubset schema (Bool.eq_false_of_not_eq_true hneed)
  · split
    · rename_i hneed
      exact .inr ⟨rfl, (needsJsonSchema_iff schema).mp hneed⟩
    · exact .inl ⟨rfl, geminiSchema_subset schema⟩
  · rw [needsJsonSchema_geminiSchema h, subset_fixed schema h]
    rfl

end Northstack
