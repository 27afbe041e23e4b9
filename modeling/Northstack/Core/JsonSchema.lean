import Northstack.Core.JsonValues

/-!
# What a JSON schema admits

A schema is `true`, `false` or an object of keywords, each of which demands something
of a value. Three of them hold schemas themselves: `properties`, `items` and `anyOf`.
The demands of the other keywords a provider's subset of the language has are given
here; those of any further keyword, and what the language leaves to the validator, are
a `Dialect`'s.

`Looser s t`: what `s` admits, `t` admits as well.

**Results.**
* `valid_obj`: an object is the conjunction of its keywords.
* `looser_obj`: an object of keywords that each demand less is looser.
-/
namespace JsonSchema

/-- The keywords that hold no schemas and whose demands do not depend on the dialect's
further ones. -/
def plainKeywords : List String :=
  ["type", "format", "title", "description", "nullable", "enum", "maxItems", "minItems",
    "required", "minProperties", "maxProperties", "minLength", "maxLength", "pattern", "example",
    "propertyOrdering", "default", "minimum", "maximum"]

/-- What a validator decides by itself: which values are equal, what a pattern and a
format match, whether `nullable` is known to it, what a list of schemas for the items demands
of a value, and what any further keyword does, given the schema it stands in. -/
structure Dialect where
  equal : Json → Json → Prop
  fits : String → String → Prop
  formatted : String → String → Prop
  nullable : Prop
  tuple : List Json → Json → Prop
  more : String → Json → List (String × Json) → Json → Prop

/-! ## Values -/

def number? : Json → Option ℚ
  | .int i => some i
  | .float (.finite neg mag) => some (if neg then -(mag : ℚ) else mag)
  | _ => none

/-- The value is of the named type. -/
def HasType (name : String) : Json → Prop
  | .null => name = "null"
  | .bool _ => name = "boolean"
  | .int _ => name = "integer" ∨ name = "number"
  | .float x => name = "number" ∨ name = "integer" ∧ ∃ i : ℤ, number? (.float x) = some i
  | .str _ => name = "string"
  | .arr _ => name = "array"
  | .obj _ => name = "object"

def items : Json → List Json
  | .arr xs => xs
  | _ => []

/-- The count a keyword gives bounds a count of the value, if it has such a count. -/
def Bounds (le : Nat → Int → Prop) (limit : Json) (count : Option Nat) : Prop :=
  ∀ i n, limit = .int i → count = some n → le n i

/-- The number a keyword gives bounds the value, if that is a number. -/
def Limits (le : ℚ → ℚ → Prop) (limit v : Json) : Prop :=
  ∀ b x, number? limit = some b → number? v = some x → le x b

def length? : Json → Option Nat
  | .str s => some s.length
  | _ => none

def size? : Json → Option Nat
  | .arr xs => some xs.length
  | _ => none

def fieldCount? : Json → Option Nat
  | .obj fs => some fs.length
  | _ => none

/-! ## Demands -/

section

variable (d : Dialect)

/-- `nullable` stands in the schema and is known. -/
def NullAllowed (fields : List (String × Json)) : Prop :=
  d.nullable ∧ Json.lookup "nullable" fields = some (.bool true)

/-- The demand of a plain keyword with the value `s`. -/
def Asserts (nullAllowed : Prop) (key : String) (s v : Json) : Prop :=
  if key = "type" then
    (∀ t, s = .str t → HasType t v ∨ nullAllowed ∧ v = .null) ∧
      ∀ ts, s = .arr ts → (∃ t, .str t ∈ ts ∧ HasType t v) ∨ nullAllowed ∧ v = .null
  else if key = "enum" then ∀ vs, s = .arr vs → ∃ w ∈ vs, d.equal w v
  else if key = "required" then
    ∀ names fs, s = .arr names → v = .obj fs →
      ∀ name, .str name ∈ names → (Json.lookup name fs).isSome
  else if key = "pattern" then ∀ p t, s = .str p → v = .str t → d.fits p t
  else if key = "format" then ∀ f t, s = .str f → v = .str t → d.formatted f t
  else if key = "minItems" then Bounds (fun n i => i ≤ n) s (size? v)
  else if key = "maxItems" then Bounds (fun n i => n ≤ i) s (size? v)
  else if key = "minLength" then Bounds (fun n i => i ≤ n) s (length? v)
  else if key = "maxLength" then Bounds (fun n i => n ≤ i) s (length? v)
  else if key = "minProperties" then Bounds (fun n i => i ≤ n) s (fieldCount? v)
  else if key = "maxProperties" then Bounds (fun n i => n ≤ i) s (fieldCount? v)
  else if key = "minimum" then Limits (fun x b => b ≤ x) s v
  else if key = "maximum" then Limits (fun x b => x ≤ b) s v
  else True

/-- The items `items` speaks of: those behind the ones `prefixItems` has schemas for. -/
def restItems (fields : List (String × Json)) (v : Json) : List Json :=
  (items v).drop (((Json.lookup "prefixItems" fields).map items).getD []).length

mutual

/-- The schema admits the value. -/
def Valid : Json → Json → Prop
  | .bool b, _ => b = true
  | .obj fields, v => ValidFields fields fields v
  | _, _ => True
termination_by structural s => s

/-- The keywords admit the value; `all` is the schema they stand in. -/
def ValidFields (all : List (String × Json)) : List (String × Json) → Json → Prop
  | [], _ => True
  | (key, s) :: fields, v =>
    (if key = "properties" then
      match s with
      | .obj props => ValidProperties props v
      | _ => True
    else if key = "anyOf" then
      match s with
      | .arr schemas => ValidAny schemas v
      | _ => True
    else if key = "items" then
      match s with
      | .arr schemas => d.tuple schemas v
      | _ => ∀ x ∈ restItems all v, Valid s x
    else if key ∈ plainKeywords then Asserts d (NullAllowed d all) key s v
    else d.more key s all v) ∧ ValidFields all fields v
termination_by structural fields => fields

def ValidProperties : List (String × Json) → Json → Prop
  | [], _ => True
  | (name, s) :: props, v => (∀ w, v.get? name = some w → Valid s w) ∧ ValidProperties props v
termination_by structural props => props

def ValidAny : List Json → Json → Prop
  | [], _ => False
  | s :: schemas, v => Valid s v ∨ ValidAny schemas v
termination_by structural schemas => schemas

end

/-- The demand of one keyword. -/
def Demands (all : List (String × Json)) (key : String) (s v : Json) : Prop :=
  if key = "properties" then
    ∀ props, s = .obj props → ∀ p ∈ props, ∀ w, v.get? p.1 = some w → Valid d p.2 w
  else if key = "anyOf" then ∀ schemas, s = .arr schemas → ∃ t ∈ schemas, Valid d t v
  else if key = "items" then
    (∀ schemas, s = .arr schemas → d.tuple schemas v) ∧
      ((∀ schemas, s ≠ .arr schemas) → ∀ x ∈ restItems all v, Valid d s x)
  else if key ∈ plainKeywords then Asserts d (NullAllowed d all) key s v
  else d.more key s all v

end

section

variable {d : Dialect} {all fields fields' : List (String × Json)} {v : Json}

theorem validProperties_iff {props : List (String × Json)} : ValidProperties d props v ↔
    ∀ p ∈ props, ∀ w, v.get? p.1 = some w → Valid d p.2 w := by
  induction props with
  | nil => simp [ValidProperties]
  | cons p props ih => simp [ValidProperties, ih]

theorem validAny_iff {schemas : List Json} :
    ValidAny d schemas v ↔ ∃ s ∈ schemas, Valid d s v := by
  induction schemas with
  | nil => simp [ValidAny]
  | cons s schemas ih => simp [ValidAny, ih]

theorem validFields_iff : ValidFields d all fields v ↔
    ∀ f ∈ fields, Demands d all f.1 f.2 v := by
  induction fields with
  | nil => simp [ValidFields]
  | cons f fields ih =>
    obtain ⟨key, s⟩ := f
    unfold ValidFields
    rw [ih, List.forall_mem_cons]
    refine and_congr ?_ Iff.rfl
    unfold Demands
    dsimp only
    by_cases hprops : key = "properties"
    · rw [if_pos hprops, if_pos hprops]
      cases s <;> simp [validProperties_iff]
    · rw [if_neg hprops, if_neg hprops]
      by_cases hany : key = "anyOf"
      · rw [if_pos hany, if_pos hany]
        cases s <;> simp [validAny_iff]
      · rw [if_neg hany, if_neg hany]
        by_cases hitems : key = "items"
        · rw [if_pos hitems, if_pos hitems]
          cases s <;> simp
        · rw [if_neg hitems, if_neg hitems]

/-- An object admits what all its keywords admit. -/
theorem valid_obj : Valid d (.obj fields) v ↔ ∀ f ∈ fields, Demands d fields f.1 f.2 v := by
  rw [Valid, validFields_iff]

theorem demands_type {name : String} : Demands d all "type" (.str name) v ↔
    HasType name v ∨ NullAllowed d all ∧ v = .null := by
  unfold Demands Asserts
  rw [if_neg (by decide), if_neg (by decide), if_neg (by decide), if_pos (by decide), if_pos rfl]
  apply Iff.intro
  · intro h
    exact h.1 name rfl
  · intro h
    refine ⟨fun t ht => ?_, fun ts hts => by cases hts⟩
    cases ht
    exact h

theorem demands_object {props : List (String × Json)} :
    Demands d all "properties" (.obj props) v ↔
      ∀ p ∈ props, ∀ w, v.get? p.1 = some w → Valid d p.2 w := by
  unfold Demands
  rw [if_pos rfl]
  apply Iff.intro
  · intro h
    exact h props rfl
  · intro h props' hprops'
    cases hprops'
    exact h

theorem demands_required {names : List Json} {fs : List (String × Json)} :
    Demands d all "required" (.arr names) (.obj fs) ↔
      ∀ name, .str name ∈ names → (Json.lookup name fs).isSome := by
  unfold Demands Asserts
  rw [if_neg (by decide), if_neg (by decide), if_neg (by decide), if_pos (by decide),
    if_neg (by decide), if_neg (by decide), if_pos rfl]
  apply Iff.intro
  · intro h
    exact h names fs rfl rfl
  · intro h names' fs' hnames' hfs'
    cases hnames'
    cases hfs'
    exact h

/-! ## The schemas in a schema -/

/-- The schemas a keyword with some value holds. -/
inductive Under (key : String) (value : Json) : Json → Prop
  | property (hkey : key = "properties") {props : List (String × Json)}
    (hvalue : value = .obj props) {p : String × Json} (hp : p ∈ props) : Under key value p.2
  | alternative (hkey : key = "anyOf") {schemas : List Json} (hvalue : value = .arr schemas)
    {s : Json} (hs : s ∈ schemas) : Under key value s
  | items (hkey : key = "items") : Under key value value

/-- A schema that stands under a keyword of the other. -/
def Child (s t : Json) : Prop := ∃ fields f, s = .obj fields ∧ f ∈ fields ∧ Under f.1 f.2 t

/-- A schema somewhere in the other, itself included. -/
def Within : Json → Json → Prop := Relation.ReflTransGen Child

theorem within_obj {fields : List (String × Json)} {t : Json} : Within (.obj fields) t ↔
    t = .obj fields ∨ ∃ f ∈ fields, ∃ s, Under f.1 f.2 s ∧ Within s t := by
  apply Iff.intro
  · intro h
    rcases Relation.ReflTransGen.cases_head h with rfl | ⟨s, ⟨fs, f, hfs, hf, hs⟩, hrest⟩
    · exact .inl rfl
    · cases hfs
      exact .inr ⟨f, hf, s, hs, hrest⟩
  · intro h
    rcases h with rfl | ⟨f, hf, s, hs, hrest⟩
    · exact .refl
    · exact .head ⟨fields, f, rfl, hf, hs⟩ hrest

theorem within_other {s t : Json} (hs : ∀ fields, s ≠ .obj fields) (h : Within s t) : t = s := by
  rcases Relation.ReflTransGen.cases_head h with rfl | ⟨u, ⟨fs, f, hfs, -, -⟩, -⟩
  · rfl
  · exact absurd hfs (hs fs)

/-- Induction on the schemas in a schema. -/
@[elab_as_elim]
theorem schema_induction {P : Json → Prop} (other : ∀ s, (∀ fs, s ≠ .obj fs) → P s)
    (obj : ∀ fs : List (String × Json), (∀ f ∈ fs, ∀ s, Under f.1 f.2 s → P s) → P (.obj fs))
    (s : Json) : P s := by
  suffices h : P s ∧ (∀ xs, s = .arr xs → ∀ x ∈ xs, P x) ∧
      ∀ fs : List (String × Json), s = .obj fs → ∀ f ∈ fs, P f.2 from h.1
  induction s using Json.value_induction with
  | arr xs ih =>
    refine ⟨other _ fun _ h => (by cases h), fun ys h y hy => ?_, fun _ h => by cases h⟩
    cases h
    exact (ih y hy).1
  | obj fs ih =>
    refine ⟨obj fs fun f hf s hs => ?_, fun _ h => (by cases h), fun gs h f hf => ?_⟩
    · obtain ⟨hval, harr, hobj⟩ := ih f hf
      cases hs with
      | property _ hvalue hp => exact hobj _ hvalue _ hp
      | alternative _ hvalue hs => exact harr _ hvalue _ hs
      | items _ => exact hval
    · cases h
      exact (ih f hf).1
  | _ => exact ⟨other _ fun _ h => (by cases h), fun _ h => (by cases h), fun _ h => by cases h⟩

/-! ## Looser schemas -/

variable (d) in
/-- What `s` admits, `t` admits as well. -/
def Looser (s t : Json) : Prop := ∀ v, Valid d s v → Valid d t v

theorem Looser.refl (s : Json) : Looser d s s := fun _ h => h

theorem Looser.trans {s t u : Json} (hst : Looser d s t) (htu : Looser d t u) : Looser d s u :=
  fun v h => htu v (hst v h)

/-- A plain keyword is none of the others. -/
theorem plain_ne {key other : String} (h : key ∈ plainKeywords) (hother : other ∉ plainKeywords) :
    key ≠ other := by
  intro heq
  exact hother (heq ▸ h)

/-- A plain keyword demands the same in two schemas that agree on `nullable`. -/
theorem demands_plain {key : String} {s : Json} (hplain : key ∈ plainKeywords)
    (hnull : Json.lookup "nullable" fields = Json.lookup "nullable" fields') :
    Demands d fields key s v ↔ Demands d fields' key s v := by
  have hprops : key ≠ "properties" := plain_ne hplain (by decide)
  have hany : key ≠ "anyOf" := plain_ne hplain (by decide)
  have hitems : key ≠ "items" := plain_ne hplain (by decide)
  unfold Demands NullAllowed
  rw [if_neg hprops, if_neg hany, if_neg hitems, if_pos hplain, if_neg hprops, if_neg hany,
    if_neg hitems, if_pos hplain, hnull]

/-- Every property of the one schema was a property of the other, with a stricter schema. -/
theorem demands_properties {s s' : Json} (h : ∀ props', s' = .obj props' →
      ∃ props, s = .obj props ∧ ∀ p' ∈ props', ∃ p ∈ props, p.1 = p'.1 ∧ Looser d p.2 p'.2)
    (hv : Demands d fields "properties" s v) : Demands d fields' "properties" s' v := by
  unfold Demands at hv ⊢
  rw [if_pos rfl] at hv ⊢
  intro props' hprops' p' hp' w hw
  obtain ⟨props, hprops, hall⟩ := h props' hprops'
  obtain ⟨p, hp, hname, hlooser⟩ := hall p' hp'
  exact hlooser w (hv props hprops p hp w (hname ▸ hw))

/-- Each alternative of the one schema has a looser one in the other. -/
theorem demands_anyOf {s s' : Json} (h : ∀ schemas', s' = .arr schemas' →
      ∃ schemas, s = .arr schemas ∧ ∀ t ∈ schemas, ∃ t' ∈ schemas', Looser d t t')
    (hv : Demands d fields "anyOf" s v) : Demands d fields' "anyOf" s' v := by
  unfold Demands at hv ⊢
  rw [if_neg (by decide), if_pos rfl] at hv ⊢
  intro schemas' hschemas'
  obtain ⟨schemas, hschemas, hall⟩ := h schemas' hschemas'
  obtain ⟨t, ht, hvalid⟩ := hv schemas hschemas
  obtain ⟨t', ht', hlooser⟩ := hall t ht
  exact ⟨t', ht', hlooser v hvalid⟩

/-- A schema for the items is loosened, where neither schema has others for the first. -/
theorem demands_items {s s' : Json} (htuple : ∀ schemas, s' = .arr schemas → s = s')
    (hone : (∀ schemas, s' ≠ .arr schemas) → (∀ schemas, s ≠ .arr schemas) ∧ Looser d s s')
    (hkept : Json.lookup "prefixItems" fields = Json.lookup "prefixItems" fields')
    (hv : Demands d fields "items" s v) : Demands d fields' "items" s' v := by
  unfold Demands restItems at hv ⊢
  rw [if_neg (by decide), if_neg (by decide), if_pos rfl] at hv ⊢
  refine ⟨fun schemas h => hv.1 schemas ((htuple schemas h).trans h), fun h x hx => ?_⟩
  obtain ⟨hs, hlooser⟩ := hone h
  rw [← hkept] at hx
  exact hlooser x (hv.2 hs x hx)

/-- **Demanding less.** An object is looser than another if each of its keywords demands
no more than some keyword of the other. -/
theorem looser_obj (h : ∀ f' ∈ fields', ∀ v, Valid d (.obj fields) v →
    Demands d fields' f'.1 f'.2 v) : Looser d (.obj fields) (.obj fields') :=
  fun v hv => valid_obj.mpr fun f' hf' => h f' hf' v hv

end

end JsonSchema
