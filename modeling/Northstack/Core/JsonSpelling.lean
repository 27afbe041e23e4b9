import Northstack.Core.JsonImages

/-!
# The texts of JSON values

What the readers of `JsonText` consume is a text of the value they give: it is
read as that value wherever it stands, and in any image of it.

**Results.**
* `scan_spelled`: for values, items and fields.
* `rawDecode_image`: the text of an object is read as the object whatever
  follows it, also with other line ends, and never when a boundary inside a
  string was turned into a line feed.
-/
namespace JsonText

variable {t t' : Bool} {c : Char} {x y z a b cs rest more : List Char}

/-! ## Values -/

theorem stops_blank {w : List Char} (h : ∀ c ∈ w, isBlank c = true)
    (hc : c = ',' ∨ c = ']' ∨ c = '}') (cs : List Char) : Stops (w ++ c :: cs) := by
  cases w with
  | nil => exact stops_of hc cs
  | cons d w =>
    intro e he
    obtain rfl := Option.some.inj he
    have hd := h d List.mem_cons_self
    simp only [isBlank, Bool.or_eq_true, decide_eq_true_eq] at hd
    rcases hd with ((rfl | rfl) | rfl) | rfl <;> decide

/-- `used` is a text of the value: so is any image of it. A number's text has to
be stopped by what follows it. -/
structure Spelled (used : List Char) (v : Json) : Prop where
  opens : ∃ c x, used = c :: x ∧ Opens c ∧ Kept c
  object : ∀ fs, v = .obj fs → used.head? = some '{' ∧ used.getLast? = some '}'
  reads : ∀ {t y} more {f}, Image t used y → y.length < f →
    (∃ fs, v = .obj fs) ∨ Stops more → scanValue f (y ++ more) = outcome t v more

/-- The items behind `acc`, up to the closing bracket. -/
structure ItemsSpelled (acc : List Json) (used : List Char) (v : Json) : Prop where
  opens : ∃ c x, used = c :: x ∧ Opens c ∧ Kept c
  array : ∀ fs, v ≠ .obj fs
  reads : ∀ {t y} more {f}, Image t used y → y.length < f →
    scanItems f acc (y ++ more) = outcome t v more

/-- The fields behind `acc`, up to the closing brace. -/
structure FieldsSpelled (acc : List (String × Json)) (used : List Char) (v : Json) : Prop where
  opens : used.head? = some '"'
  closes : used.getLast? = some '}'
  reads : ∀ {t y} more {f}, Image t used y → y.length < f →
    scanFields f acc (y ++ more) = outcome t v more

theorem scanValue_string (f : Nat) (cs : List Char) :
    scanValue (f + 1) ('"' :: cs) =
      (scanString (cs.length + 1) cs).map fun p => (.str (String.ofList p.1), p.2) := by
  simp only [scanValue]
  cases scanString (cs.length + 1) cs <;> rfl

theorem scanValue_object {f : Nat} (h : skipSpace cs = '"' :: rest) :
    scanValue (f + 1) ('{' :: cs) = scanFields f [] ('"' :: rest) := by
  simp only [scanValue, h]
  rfl

theorem scanValue_empty {f : Nat} (h : skipSpace cs = '}' :: rest) :
    scanValue (f + 1) ('{' :: cs) = .ok (.obj [], rest) := by
  simp only [scanValue, h]

theorem scanValue_array {f : Nat} (h : skipSpace cs = c :: rest) (hc : c ≠ ']') :
    scanValue (f + 1) ('[' :: cs) = scanItems f [] (c :: rest) := by
  simp only [scanValue, h]
  split
  · rename_i heq
    exact absurd (List.cons.inj heq).1 hc
  · rfl

theorem isBlank_opens (h : Opens c) : isBlank c = false := by
  obtain ⟨h1, h2, h3, h4, -⟩ := h
  simp [isBlank, h1, h2, h3, h4]

/-- A token that is kept as it is. -/
theorem Spelled.of_kept {used : List Char} {v : Json} (hopens : ∃ c x, used = c :: x ∧ Opens c)
    (hkept : ∀ c ∈ used, Kept c) (hobject : ∀ fs, v ≠ .obj fs)
    (hread : ∀ more f, Stops more → scanValue (f + 1) (used ++ more) = .ok (v, more)) :
    Spelled used v where
  opens := by
    obtain ⟨c, x, rfl, hc⟩ := hopens
    exact ⟨c, x, rfl, hc, hkept c List.mem_cons_self⟩
  object := fun fs h => absurd h (hobject fs)
  reads := by
    intro t y more f himage hf hstop
    obtain ⟨rfl, rfl⟩ := himage.kept hkept
    obtain ⟨f, rfl⟩ : ∃ g, f = g + 1 := ⟨f - 1, by omega⟩
    rcases hstop with ⟨fs, hv⟩ | hstop
    · exact absurd hv (hobject fs)
    · exact hread more f hstop

theorem Spelled.str {cs s rest : List Char} {fuel : Nat} (h : scanString fuel cs = .ok (s, rest)) :
    ∃ used, '"' :: cs = used ++ rest ∧ Spelled used (.str (String.ofList s)) := by
  obtain ⟨used, rfl, -, hused⟩ := scanString_image fuel h
  refine ⟨'"' :: used, rfl, ⟨⟨'"', used, rfl, by decide, by decide⟩, fun fs => nofun, ?_⟩⟩
  intro t y more f himage hf _
  obtain ⟨y, rfl, htail⟩ := himage.cons_kept (by decide)
  obtain ⟨f, rfl⟩ : ∃ g, f = g + 1 := ⟨f - 1, by omega⟩
  obtain ⟨hscan, -⟩ := hused more htail (show y.length < (y ++ more).length + 1 by
    rw [List.length_append]
    omega)
  rw [List.cons_append, scanValue_string, hscan]
  cases t with
  | false => rfl
  | true => rfl

/-- An object between its braces. -/
theorem Spelled.obj {w used : List Char} {v : Json} (hw : ∀ c ∈ w, isBlank c = true)
    (h : FieldsSpelled [] used v) : Spelled ('{' :: (w ++ used)) v where
  opens := ⟨'{', _, rfl, by decide, by decide⟩
  object := by
    intro fs _
    refine ⟨rfl, ?_⟩
    have hne : used ≠ [] := by
      intro hnil
      rw [hnil] at h
      cases h.opens
    rw [List.getLast?_cons, List.getLast?_append_of_ne_nil _ hne, h.closes]
    rfl
  reads := by
    intro t y more f himage hf _
    obtain ⟨z, rfl, h₁⟩ := himage.cons_kept (by decide)
    obtain ⟨t₁, t₂, yw, yf, rfl, rfl, hblank, hfields⟩ := h₁.split
    obtain ⟨rfl, hyw⟩ := hblank.blank hw
    obtain ⟨u, rfl⟩ : ∃ u, used = '"' :: u := by
      cases used with
      | nil => cases h.opens
      | cons c u => exact ⟨u, by rw [Option.some.inj h.opens]⟩
    obtain ⟨yu, rfl, -⟩ := hfields.cons_kept (by decide)
    obtain ⟨f, rfl⟩ : ∃ g, f = g + 1 := ⟨f - 1, by omega⟩
    simp only [List.length_cons, List.length_append] at hf
    have hskip : skipSpace (yw ++ ('"' :: yu ++ more)) = '"' :: (yu ++ more) :=
      skipSpace_before hyw (by decide)
    rw [List.cons_append, List.append_assoc, scanValue_object hskip]
    have hreads := h.reads more hfields (show ('"' :: yu).length < f by simp; omega)
    rw [List.cons_append] at hreads
    rw [hreads, Bool.false_or]

theorem Spelled.empty {w : List Char} (hw : ∀ c ∈ w, isBlank c = true) :
    Spelled ('{' :: (w ++ ['}'])) (.obj []) where
  opens := ⟨'{', _, rfl, by decide, by decide⟩
  object := fun fs _ => ⟨rfl, by rw [← List.cons_append, List.getLast?_concat]⟩
  reads := by
    intro t y more f himage hf _
    obtain ⟨z, rfl, h₁⟩ := himage.cons_kept (by decide)
    obtain ⟨t₁, t₂, yw, yf, rfl, rfl, hblank, hclose⟩ := h₁.split
    obtain ⟨rfl, hyw⟩ := hblank.blank hw
    obtain ⟨rfl, rfl⟩ := hclose.kept (by simp; decide)
    obtain ⟨f, rfl⟩ : ∃ g, f = g + 1 := ⟨f - 1, by omega⟩
    have hskip : skipSpace (yw ++ ('}' :: more)) = '}' :: more :=
      skipSpace_before hyw (by decide)
    rw [List.cons_append, List.append_assoc, List.singleton_append, scanValue_empty hskip]
    rfl

theorem Spelled.arr {w used : List Char} {v : Json} (hw : ∀ c ∈ w, isBlank c = true)
    (h : ItemsSpelled [] used v) : Spelled ('[' :: (w ++ used)) v where
  opens := ⟨'[', _, rfl, by decide, by decide⟩
  object := fun fs hv => absurd hv (h.array fs)
  reads := by
    intro t y more f himage hf _
    obtain ⟨z, rfl, h₁⟩ := himage.cons_kept (by decide)
    obtain ⟨t₁, t₂, yw, yi, rfl, rfl, hblank, hitems⟩ := h₁.split
    obtain ⟨rfl, hyw⟩ := hblank.blank hw
    obtain ⟨c, u, rfl, hopens, hkept⟩ := h.opens
    obtain ⟨yu, rfl, -⟩ := hitems.cons_kept hkept
    obtain ⟨f, rfl⟩ : ∃ g, f = g + 1 := ⟨f - 1, by omega⟩
    simp only [List.length_cons, List.length_append] at hf
    have hskip : skipSpace (yw ++ (c :: yu ++ more)) = c :: (yu ++ more) :=
      skipSpace_before hyw (isBlank_opens hopens)
    rw [List.cons_append, List.append_assoc, scanValue_array hskip hopens.2.2.2.2.1]
    have hreads := h.reads more hitems (show (c :: yu).length < f by simp; omega)
    rw [List.cons_append] at hreads
    rw [hreads, Bool.false_or]

theorem Spelled.emptyArr {w : List Char} (hw : ∀ c ∈ w, isBlank c = true) :
    Spelled ('[' :: (w ++ [']'])) (.arr []) where
  opens := ⟨'[', _, rfl, by decide, by decide⟩
  object := fun fs => nofun
  reads := by
    intro t y more f himage hf _
    obtain ⟨z, rfl, h₁⟩ := himage.cons_kept (by decide)
    obtain ⟨t₁, t₂, yw, yf, rfl, rfl, hblank, hclose⟩ := h₁.split
    obtain ⟨rfl, hyw⟩ := hblank.blank hw
    obtain ⟨rfl, rfl⟩ := hclose.kept (by simp; decide)
    obtain ⟨f, rfl⟩ : ∃ g, f = g + 1 := ⟨f - 1, by omega⟩
    have hskip : skipSpace (yw ++ (']' :: more)) = ']' :: more :=
      skipSpace_before hyw (by decide)
    rw [List.cons_append, List.append_assoc, List.singleton_append]
    simp only [scanValue, hskip]
    rfl

/-- The last item. -/
theorem ItemsSpelled.last {acc : List Json} {u w : List Char} {v : Json} (hu : Spelled u v)
    (hw : ∀ c ∈ w, isBlank c = true) :
    ItemsSpelled acc (u ++ (w ++ [']'])) (.arr (acc ++ [v])) where
  opens := by
    obtain ⟨c, x, rfl, hc, hkept⟩ := hu.opens
    exact ⟨c, _, rfl, hc, hkept⟩
  array := fun fs => nofun
  reads := by
    intro t y more f himage hf
    obtain ⟨t₁, t₂, yu, z, rfl, rfl, hvalue, h₁⟩ := himage.split
    obtain ⟨t₂, t₃, yw, yc, rfl, rfl, hblank, hclose⟩ := h₁.split
    obtain ⟨rfl, hyw⟩ := hblank.blank hw
    obtain ⟨rfl, rfl⟩ := hclose.kept (by simp; decide)
    obtain ⟨f, rfl⟩ : ∃ g, f = g + 1 := ⟨f - 1, by omega⟩
    simp only [List.length_append, List.length_singleton] at hf
    have hstop := stops_blank hyw (.inr (.inl rfl) : ']' = ',' ∨ ']' = ']' ∨ ']' = '}') more
    have hread := hu.reads (yw ++ ']' :: more) hvalue (show yu.length < f by omega) (.inr hstop)
    have hskip : skipSpace (yw ++ (']' :: more)) = ']' :: more :=
      skipSpace_before hyw (by decide)
    rw [List.append_assoc, List.append_assoc, List.singleton_append, scanItems, hread]
    cases t₁ with
    | true => rfl
    | false =>
      simp only [outcome, Bool.false_eq_true, if_false, hskip]
      rfl

/-- An item before others. -/
theorem ItemsSpelled.next {acc : List Json} {u w w' us : List Char} {v vs : Json}
    (hu : Spelled u v) (hw : ∀ c ∈ w, isBlank c = true) (hw' : ∀ c ∈ w', isBlank c = true)
    (hus : ItemsSpelled (acc ++ [v]) us vs) :
    ItemsSpelled acc (u ++ (w ++ ',' :: (w' ++ us))) vs where
  opens := by
    obtain ⟨c, x, rfl, hc, hkept⟩ := hu.opens
    exact ⟨c, _, rfl, hc, hkept⟩
  array := hus.array
  reads := by
    intro t y more f himage hf
    obtain ⟨t₁, t₂, yu, z, rfl, rfl, hvalue, h₁⟩ := himage.split
    obtain ⟨t₂, t₃, yw, z, rfl, rfl, hblank, h₂⟩ := h₁.split
    obtain ⟨rfl, hyw⟩ := hblank.blank hw
    obtain ⟨z, rfl, h₃⟩ := h₂.cons_kept (by decide)
    obtain ⟨t₃, t₄, yw', yus, rfl, rfl, hblank', hitems⟩ := h₃.split
    obtain ⟨rfl, hyw'⟩ := hblank'.blank hw'
    obtain ⟨f, rfl⟩ : ∃ g, f = g + 1 := ⟨f - 1, by omega⟩
    simp only [List.length_append, List.length_cons] at hf
    have hstop := stops_blank hyw (.inl rfl : ',' = ',' ∨ ',' = ']' ∨ ',' = '}')
      (yw' ++ (yus ++ more))
    have hread := hu.reads _ hvalue (show yu.length < f by omega) (.inr hstop)
    have hskip : skipSpace (yw ++ (',' :: (yw' ++ (yus ++ more)))) =
        ',' :: (yw' ++ (yus ++ more)) :=
      skipSpace_before hyw (by decide)
    have hskip' : skipSpace (yw' ++ (yus ++ more)) = yus ++ more := by
      rw [skipSpace_blank hyw']
      obtain ⟨c, x, rfl, hopens, hkept⟩ := hus.opens
      obtain ⟨yx, rfl, -⟩ := hitems.cons_kept hkept
      exact skipSpace_head (isBlank_opens hopens)
    have hrest := hus.reads more hitems (show yus.length < f by omega)
    simp only [List.append_assoc, List.cons_append]
    rw [scanItems, hread]
    cases t₁ with
    | true => rfl
    | false =>
      simp only [outcome, Bool.false_eq_true, if_false, hskip, hskip', Bool.false_or]
      exact hrest

/-- A key: its text up to the closing quote. -/
def KeySpelled (used k : List Char) : Prop :=
  ∀ {t y} more {f}, Image t used y → y.length < f → scanString f (y ++ more) = outcome t k more

/-- A field: its key, a colon and its value, with white space between them. -/
structure Field where
  key : List Char
  value : Json
  keyText : List Char
  before : List Char
  behind : List Char
  valueText : List Char
  key_spelled : KeySpelled keyText key
  value_spelled : Spelled valueText value
  before_blank : ∀ c ∈ before, isBlank c = true
  behind_blank : ∀ c ∈ behind, isBlank c = true

/-- The text of a field, before what follows it. -/
def Field.text (d : Field) (tail : List Char) : List Char :=
  '"' :: (d.keyText ++ (d.before ++ ':' :: (d.behind ++ (d.valueText ++ tail))))

/-- The part of `scanFields` behind a value. -/
def afterField (f : Nat) (acc : List (String × Json)) (tail : List Char) : Scan Json :=
  match skipSpace tail with
  | '}' :: rest => .ok (.obj acc, rest)
  | ',' :: rest => scanFields f acc (skipSpace rest)
  | _ => .error .malformed

theorem afterField_comma {f : Nat} {acc : List (String × Json)} (h : skipSpace cs = ',' :: rest) :
    afterField f acc cs = scanFields f acc (skipSpace rest) := by
  simp only [afterField, h]

theorem scanFields_afterField {f : Nat} {acc : List (String × Json)} {k r₁ r₂ r₃ : List Char}
    {v : Json}
    (hk : scanString (cs.length + 1) cs = .ok (k, r₁)) (hcolon : skipSpace r₁ = ':' :: r₂)
    (hv : scanValue f (skipSpace r₂) = .ok (v, r₃)) :
    scanFields (f + 1) acc ('"' :: cs) = afterField f (bindField (String.ofList k) v acc) r₃ := by
  simp only [scanFields, hk, hcolon, hv]
  rfl

/-- One field of an image, and where the reader stands behind it. -/
theorem Field.reads (d : Field) {z : List Char} (acc : List (String × Json))
    (h : Image t (d.text a) z) :
    ∃ t₁ t₂ y, t = (t₁ || t₂) ∧ Image t₂ a y ∧ y.length + 2 ≤ z.length ∧
      ∀ more f, z.length < f + 1 → Stops (y ++ more) → scanFields (f + 1) acc (z ++ more) =
        if t₁ then .error .malformed
        else afterField f (bindField (String.ofList d.key) d.value acc) (y ++ more) := by
  obtain ⟨z, rfl, h₁⟩ := h.cons_kept (by decide)
  obtain ⟨tk, t₂, yk, z, rfl, rfl, hkey, h₂⟩ := h₁.split
  obtain ⟨t₂, t₃, yb, z, rfl, rfl, hbefore, h₃⟩ := h₂.split
  obtain ⟨rfl, hyb⟩ := hbefore.blank d.before_blank
  obtain ⟨z, rfl, h₄⟩ := h₃.cons_kept (by decide)
  obtain ⟨t₃, t₄, yh, z, rfl, rfl, hbehind, h₅⟩ := h₄.split
  obtain ⟨rfl, hyh⟩ := hbehind.blank d.behind_blank
  obtain ⟨tv, t₅, yv, y, rfl, rfl, hvalue, htail⟩ := h₅.split
  refine ⟨tk || tv, t₅, y, by simp [Bool.or_assoc], htail, ?_, fun more f hf hstop => ?_⟩
  · simp only [List.length_cons, List.length_append]
    omega
  · simp only [List.length_cons, List.length_append] at hf
    have hk := d.key_spelled (yb ++ (':' :: (yh ++ (yv ++ (y ++ more))))) hkey
      (show yk.length < (yk ++ (yb ++ (':' :: (yh ++ (yv ++ (y ++ more)))))).length + 1 by
        rw [List.length_append]
        omega)
    have hcolon : skipSpace (yb ++ (':' :: (yh ++ (yv ++ (y ++ more))))) =
        ':' :: (yh ++ (yv ++ (y ++ more))) :=
      skipSpace_before hyb (by decide)
    have hskip : skipSpace (yh ++ (yv ++ (y ++ more))) = yv ++ (y ++ more) := by
      rw [skipSpace_blank hyh]
      obtain ⟨c, x, hx, hopens, hkept⟩ := d.value_spelled.opens
      rw [hx] at hvalue
      obtain ⟨yx, rfl, -⟩ := hvalue.cons_kept hkept
      exact skipSpace_head (isBlank_opens hopens)
    have hv := d.value_spelled.reads (y ++ more) hvalue (show yv.length < f by omega) (.inr hstop)
    simp only [List.append_assoc, List.cons_append]
    cases tk with
    | true =>
      simp only [outcome, if_true] at hk
      simp only [scanFields, hk, Bool.true_or, if_true]
    | false =>
      simp only [outcome, Bool.false_eq_true, if_false] at hk
      cases tv with
      | true =>
        simp only [outcome, if_true] at hv
        simp only [scanFields, hk, hcolon, hskip, hv, Bool.false_or, if_true]
      | false =>
        simp only [outcome, Bool.false_eq_true, if_false] at hv
        rw [scanFields_afterField hk hcolon (by rw [hskip]; exact hv)]
        rfl

/-- The last field. -/
theorem FieldsSpelled.last (d : Field) {acc : List (String × Json)} {w : List Char}
    (hw : ∀ c ∈ w, isBlank c = true) : FieldsSpelled acc (d.text (w ++ ['}']))
      (.obj (bindField (String.ofList d.key) d.value acc)) where
  opens := rfl
  closes := by
    unfold Field.text
    simp only [← List.cons_append, ← List.append_assoc, List.getLast?_concat]
  reads := by
    intro t y more f himage hf
    obtain ⟨f, rfl⟩ : ∃ g, f = g + 1 := ⟨f - 1, by omega⟩
    obtain ⟨t₁, t₂, tail, rfl, htail, -, hread⟩ := d.reads acc himage
    obtain ⟨t₂, t₃, yw, yc, rfl, rfl, hblank, hclose⟩ := htail.split
    obtain ⟨rfl, hyw⟩ := hblank.blank hw
    obtain ⟨rfl, rfl⟩ := hclose.kept (by simp; decide)
    have hstop : Stops (yw ++ ['}'] ++ more) := by
      rw [List.append_assoc]
      exact stops_blank hyw (.inr (.inr rfl)) more
    have hskip : skipSpace (yw ++ ['}'] ++ more) = '}' :: more := by
      rw [List.append_assoc]
      exact skipSpace_before hyw (by decide)
    rw [hread more f hf hstop]
    unfold afterField
    rw [hskip]
    cases t₁ with
    | true => rfl
    | false => rfl

/-- A field before others. -/
theorem FieldsSpelled.next (d : Field) {acc : List (String × Json)} {w w' us : List Char}
    {vs : Json} (hw : ∀ c ∈ w, isBlank c = true) (hw' : ∀ c ∈ w', isBlank c = true)
    (hus : FieldsSpelled (bindField (String.ofList d.key) d.value acc) us vs) :
    FieldsSpelled acc (d.text (w ++ ',' :: (w' ++ us))) vs where
  opens := rfl
  closes := by
    have hne : us ≠ [] := by
      intro hnil
      rw [hnil] at hus
      cases hus.opens
    unfold Field.text
    simp only [← List.cons_append, ← List.append_assoc]
    rw [List.getLast?_append_of_ne_nil _ hne, hus.closes]
  reads := by
    intro t y more f himage hf
    obtain ⟨f, rfl⟩ : ∃ g, f = g + 1 := ⟨f - 1, by omega⟩
    obtain ⟨t₁, t₂, tail, rfl, htail, hlen, hread⟩ := d.reads acc himage
    obtain ⟨t₂, t₃, yw, z, rfl, rfl, hblank, h₁⟩ := htail.split
    obtain ⟨rfl, hyw⟩ := hblank.blank hw
    obtain ⟨z, rfl, h₂⟩ := h₁.cons_kept (by decide)
    obtain ⟨t₃, t₄, yw', yus, rfl, rfl, hblank', hfields⟩ := h₂.split
    obtain ⟨rfl, hyw'⟩ := hblank'.blank hw'
    simp only [List.length_append, List.length_cons] at hlen
    have hstop : Stops (yw ++ ',' :: (yw' ++ yus) ++ more) := by
      rw [List.append_assoc]
      exact stops_blank hyw (.inl rfl) _
    have hskip : skipSpace (yw ++ ',' :: (yw' ++ yus) ++ more) = ',' :: (yw' ++ (yus ++ more)) := by
      rw [List.append_assoc, skipSpace_blank hyw, List.cons_append, List.append_assoc]
      exact skipSpace_head (by decide)
    have hskip' : skipSpace (yw' ++ (yus ++ more)) = yus ++ more := by
      rw [skipSpace_blank hyw']
      obtain ⟨u, rfl⟩ : ∃ u, us = '"' :: u := by
        cases us with
        | nil => cases hus.opens
        | cons c u => exact ⟨u, by rw [Option.some.inj hus.opens]⟩
      obtain ⟨yu, rfl, -⟩ := hfields.cons_kept (by decide)
      exact skipSpace_head (by decide)
    have hrest := hus.reads more hfields (show yus.length < f by omega)
    rw [hread more f hf hstop, afterField_comma hskip, hskip', hrest]
    cases t₁ with
    | true => rfl
    | false => rfl

theorem keySpelled {s : List Char} {fuel : Nat} (h : scanString fuel cs = .ok (s, rest)) :
    ∃ used, cs = used ++ rest ∧ KeySpelled used s := by
  obtain ⟨used, hcs, -, hused⟩ := scanString_image fuel h
  exact ⟨used, hcs, fun more _ himage hf => (hused more himage hf).1⟩

theorem kept_token (h : (x.all fun c => 32 ≤ c.toNat && c.toNat < 127) = true) :
    ∀ c ∈ x, Kept c := by
  intro c hc
  have hascii := List.all_eq_true.mp h c hc
  simp only [Bool.and_eq_true, decide_eq_true_eq] at hascii
  exact kept_of_ascii hascii.1 hascii.2

theorem head_cons (h : c ∈ x.head?) : ∃ y, x = c :: y := by
  cases x with
  | nil => cases h
  | cons d y => exact ⟨y, by rw [Option.some.inj h]⟩

/-- What a reader consumes with this much fuel spells what it gives. -/
def ReadsValue (fuel : Nat) : Prop :=
  ∀ cs v rest, scanValue fuel cs = .ok (v, rest) → ∃ used, cs = used ++ rest ∧ Spelled used v

def ReadsItems (fuel : Nat) : Prop :=
  ∀ acc cs v rest, scanItems fuel acc cs = .ok (v, rest) →
    ∃ used, cs = used ++ rest ∧ ItemsSpelled acc used v

def ReadsFields (fuel : Nat) : Prop :=
  ∀ acc cs v rest, scanFields fuel acc cs = .ok (v, rest) →
    ∃ used, cs = used ++ rest ∧ FieldsSpelled acc used v

theorem scanValue_spelled {fuel : Nat} (hitems : ReadsItems fuel) (hfields : ReadsFields fuel) :
    ReadsValue (fuel + 1) := by
  intro cs v rest h
  unfold scanValue at h
  split at h
  case h_1 =>
    split at h
    · rename_i hs
      cases h
      exact Spelled.str hs
    · cases h
  case h_2 =>
    rename_i r
    obtain ⟨w, hr, hw, -⟩ := skipSpace_spec r
    split at h
    · rename_i hskip
      cases h
      rw [hskip] at hr
      exact ⟨'{' :: (w ++ ['}']), by rw [hr]; simp, Spelled.empty hw⟩
    · obtain ⟨used, hused, hspelled⟩ := hfields _ _ _ _ h
      exact ⟨'{' :: (w ++ used), by rw [hr, hused]; simp, Spelled.obj hw hspelled⟩
  case h_3 =>
    rename_i r
    obtain ⟨w, hr, hw, -⟩ := skipSpace_spec r
    split at h
    · rename_i hskip
      cases h
      rw [hskip] at hr
      exact ⟨'[' :: (w ++ [']']), by rw [hr]; simp, Spelled.emptyArr hw⟩
    · obtain ⟨used, hused, hspelled⟩ := hitems _ _ _ _ h
      exact ⟨'[' :: (w ++ used), by rw [hr, hused]; simp, Spelled.arr hw hspelled⟩
  case h_4 =>
    cases h
    exact ⟨['n', 'u', 'l', 'l'], rfl, .of_kept ⟨'n', _, rfl, by decide⟩
      (kept_token rfl) (by simp) fun more f _ => rfl⟩
  case h_5 =>
    cases h
    exact ⟨['t', 'r', 'u', 'e'], rfl, .of_kept ⟨'t', _, rfl, by decide⟩
      (kept_token rfl) (by simp) fun more f _ => rfl⟩
  case h_6 =>
    cases h
    exact ⟨['f', 'a', 'l', 's', 'e'], rfl, .of_kept ⟨'f', _, rfl, by decide⟩
      (kept_token rfl) (by simp) fun more f _ => rfl⟩
  case h_7 =>
    cases h
    exact ⟨['N', 'a', 'N'], rfl, .of_kept ⟨'N', _, rfl, by decide⟩
      (kept_token rfl) (by simp) fun more f _ => rfl⟩
  case h_8 =>
    cases h
    exact ⟨['I', 'n', 'f', 'i', 'n', 'i', 't', 'y'], rfl, .of_kept ⟨'I', _, rfl, by decide⟩
      (kept_token rfl) (by simp) fun more f _ => rfl⟩
  case h_9 =>
    cases h
    exact ⟨['-', 'I', 'n', 'f', 'i', 'n', 'i', 't', 'y'], rfl, .of_kept ⟨'-', _, rfl, by decide⟩
      (kept_token rfl) (by simp) fun more f _ => rfl⟩
  case h_10 =>
    obtain ⟨u, rfl, hkept, ⟨c, hc, hdigit⟩, hobj, hread⟩ := scanNumber_local h
    obtain ⟨u, rfl⟩ := head_cons hc
    refine ⟨'-' :: c :: u, rfl, .of_kept ⟨'-', _, rfl, by decide⟩ ?_ hobj
      fun more f hstop => ?_⟩
    · intro d hd
      rcases List.mem_cons.mp hd with rfl | hd
      · decide
      · exact hkept d hd
    · rw [List.cons_append, List.cons_append, scanValue_minus hdigit]
      exact hread more hstop
  case h_11 =>
    obtain ⟨u, rfl, hkept, ⟨c, hc, hdigit⟩, hobj, hread⟩ := scanNumber_local h
    obtain ⟨u, rfl⟩ := head_cons hc
    refine ⟨c :: u, rfl, .of_kept ⟨c, u, rfl, opens_digit hdigit⟩ hkept hobj
      fun more f hstop => ?_⟩
    rw [List.cons_append, scanValue_digit hdigit]
    exact hread more hstop

theorem scanItems_spelled {fuel : Nat} (hvalues : ReadsValue fuel) (hitems : ReadsItems fuel) :
    ReadsItems (fuel + 1) := by
  intro acc cs v rest h
  unfold scanItems at h
  split at h
  · cases h
  · rename_i v' r₁ hv
    obtain ⟨u, rfl, hu⟩ := hvalues _ _ _ hv
    obtain ⟨w, hr, hw, -⟩ := skipSpace_spec r₁
    split at h
    · rename_i r₂ hskip
      cases h
      rw [hskip] at hr
      exact ⟨u ++ (w ++ [']']), by rw [hr]; simp, .last hu hw⟩
    · rename_i r₂ hskip
      rw [hskip] at hr
      obtain ⟨w', hr₂, hw', -⟩ := skipSpace_spec r₂
      obtain ⟨us, hus, hspelled⟩ := hitems _ _ _ _ h
      exact ⟨u ++ (w ++ ',' :: (w' ++ us)), by rw [hr, hr₂, hus]; simp,
        .next hu hw hw' hspelled⟩
    · cases h

theorem scanFields_spelled {fuel : Nat} (hvalues : ReadsValue fuel) (hfields : ReadsFields fuel) :
    ReadsFields (fuel + 1) := by
  intro acc cs v rest h
  unfold scanFields at h
  split at h
  · rename_i r
    split at h
    · cases h
    · rename_i k r₁ hk
      obtain ⟨uk, rfl, hkey⟩ := keySpelled hk
      obtain ⟨wb, hr₁, hwb, -⟩ := skipSpace_spec r₁
      split at h
      · rename_i r₂ hcolon
        rw [hcolon] at hr₁
        obtain ⟨wh, hr₂, hwh, -⟩ := skipSpace_spec r₂
        split at h
        · cases h
        · rename_i v' r₃ hv
          obtain ⟨u, hu, hvalue⟩ := hvalues _ _ _ hv
          obtain ⟨w, hr₃, hw, -⟩ := skipSpace_spec r₃
          let d : Field := ⟨k, v', uk, wb, wh, u, hkey, hvalue, hwb, hwh⟩
          have hd : ∀ tail, '"' :: (uk ++ (wb ++ ':' :: (wh ++ (u ++ tail)))) = d.text tail :=
            fun _ => rfl
          split at h
          · rename_i r₄ hskip
            cases h
            rw [hskip] at hr₃
            refine ⟨d.text (w ++ ['}']), ?_, .last d hw⟩
            rw [← hd, hr₁, hr₂, hu, hr₃]
            simp
          · rename_i r₄ hskip
            rw [hskip] at hr₃
            obtain ⟨w', hr₄, hw', -⟩ := skipSpace_spec r₄
            obtain ⟨us, hus, hspelled⟩ := hfields _ _ _ _ h
            refine ⟨d.text (w ++ ',' :: (w' ++ us)), ?_, .next d hw hw' hspelled⟩
            rw [← hd, hr₁, hr₂, hu, hr₃, hr₄, hus]
            simp
          · cases h
      · cases h
  · cases h

/-- The three readers: what they consume spells what they give. -/
theorem scan_spelled (fuel : Nat) : ReadsValue fuel ∧ ReadsItems fuel ∧ ReadsFields fuel := by
  induction fuel with
  | zero =>
    refine ⟨fun cs v rest h => ?_, fun acc cs v rest h => ?_, fun acc cs v rest h => ?_⟩
    · cases h
    · cases h
    · cases h
  | succ fuel ih =>
    obtain ⟨hvalues, hitems, hfields⟩ := ih
    exact ⟨scanValue_spelled hitems hfields, scanItems_spelled hvalues hitems,
      scanFields_spelled hvalues hfields⟩

/-! ## Objects -/

/-- **Objects.** What `raw_decode` reads as an object is a text between braces;
it is read as the object whatever follows it, and so is any image of it without a
replaced separator. An image with one is not read at all. -/
theorem rawDecode_image {fs : List (String × Json)} (h : rawDecode cs = .ok (.obj fs, rest)) :
    ∃ used, cs = used ++ rest ∧ used.head? = some '{' ∧ used.getLast? = some '}' ∧
      ∀ {t y} more, Image t used y → rawDecode (y ++ more) = outcome t (.obj fs) more := by
  obtain ⟨used, hcs, hspelled⟩ := (scan_spelled _).1 _ _ _ h
  obtain ⟨hopen, hclose⟩ := hspelled.object fs rfl
  refine ⟨used, hcs, hopen, hclose, fun more himage => ?_⟩
  exact hspelled.reads more himage (by rw [List.length_append]; omega) (.inl ⟨fs, rfl⟩)

end JsonText
