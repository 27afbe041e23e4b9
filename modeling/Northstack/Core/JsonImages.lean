import Northstack.Core.JsonRoundTrip

/-!
# JSON texts with other line boundaries

What becomes of a JSON text when its line boundaries are written otherwise. A
carriage return or a line feed is white space there; one of the other boundaries
of `str.splitlines` can only stand in a string, and a line feed in its place is
an error.

**Results.** `scanString_image`, `scanNumber_local`: the text of a string or a
number is read as it whatever follows it (what stops it, for a number), and in
any image; not at all where a separator in a string was replaced.
-/
namespace JsonText

/-- A boundary of `str.splitlines` other than a carriage return or a line feed. -/
def isSeparator (c : Char) : Bool := PyText.isLineBreak c && c ≠ '\n' && c ≠ '\r'

def isBlank (c : Char) : Bool := c = ' ' || c = '\t' || c = '\n' || c = '\r'

/-- The second text is the first one with other line boundaries: white space in
place of a carriage return or a line feed, and a line feed in place of a
separator. The flag says whether there was a separator so replaced. -/
inductive Image : Bool → List Char → List Char → Prop where
  | nil : Image false [] []
  | keep (c : Char) {t : Bool} {x y : List Char} : Image t x y → Image t (c :: x) (c :: y)
  | space (w : List Char) {c : Char} {t : Bool} {x y : List Char} : c = '\n' ∨ c = '\r' →
    (∀ d ∈ w, isBlank d = true) → Image t x y → Image t (c :: x) (w ++ y)
  | separator {c : Char} {t : Bool} {x y : List Char} : isSeparator c = true → Image t x y →
    Image true (c :: x) ('\n' :: y)

/-- A character every image keeps. -/
def Kept (c : Char) : Prop := c ≠ '\n' ∧ c ≠ '\r' ∧ isSeparator c = false

instance (c : Char) : Decidable (Kept c) := inferInstanceAs (Decidable (_ ∧ _))

variable {t t' : Bool} {c : Char} {x y z a b cs rest more : List Char}

theorem Image.refl (x : List Char) : Image false x x := by
  induction x with
  | nil => exact .nil
  | cons c x ih => exact .keep c ih

theorem Image.append (h : Image t a y) (h' : Image t' b z) : Image (t || t') (a ++ b) (y ++ z) := by
  induction h with
  | nil => exact h'
  | keep c _ ih => exact .keep c ih
  | space w hc hw _ ih =>
    rw [List.append_assoc]
    exact .space w hc hw ih
  | separator hc _ ih => exact .separator hc ih

theorem Image.split (h : Image t (a ++ b) z) :
    ∃ t₁ t₂ y₁ y₂, t = (t₁ || t₂) ∧ z = y₁ ++ y₂ ∧ Image t₁ a y₁ ∧ Image t₂ b y₂ := by
  induction a generalizing t z with
  | nil => exact ⟨false, t, [], z, rfl, rfl, .nil, h⟩
  | cons c a ih =>
    cases h with
    | keep c h =>
      obtain ⟨t₁, t₂, y₁, y₂, rfl, rfl, h₁, h₂⟩ := ih h
      exact ⟨t₁, t₂, c :: y₁, y₂, rfl, rfl, .keep c h₁, h₂⟩
    | space w hc hw h =>
      obtain ⟨t₁, t₂, y₁, y₂, rfl, rfl, h₁, h₂⟩ := ih h
      exact ⟨t₁, t₂, w ++ y₁, y₂, rfl, by rw [List.append_assoc], .space w hc hw h₁, h₂⟩
    | separator hc h =>
      obtain ⟨t₁, t₂, y₁, y₂, rfl, rfl, h₁, h₂⟩ := ih h
      exact ⟨true, t₂, '\n' :: y₁, y₂, rfl, rfl, .separator hc h₁, h₂⟩

theorem Image.cons_kept (hc : Kept c) (h : Image t (c :: x) z) : ∃ y, z = c :: y ∧ Image t x y := by
  cases h with
  | keep c h => exact ⟨_, rfl, h⟩
  | space w hspace =>
    rcases hspace with rfl | rfl
    · exact absurd rfl hc.1
    · exact absurd rfl hc.2.1
  | separator hsep =>
    rw [hc.2.2] at hsep
    cases hsep

theorem Image.kept (hx : ∀ c ∈ x, Kept c) (h : Image t x z) : t = false ∧ z = x := by
  induction x generalizing z with
  | nil =>
    cases h with
    | nil => exact ⟨rfl, rfl⟩
  | cons c x ih =>
    obtain ⟨y, rfl, hy⟩ := h.cons_kept (hx c List.mem_cons_self)
    obtain ⟨rfl, rfl⟩ := ih (fun d hd => hx d (List.mem_cons_of_mem c hd)) hy
    exact ⟨rfl, rfl⟩

theorem not_separator_blank (h : isBlank c = true) : isSeparator c = false := by
  simp only [isBlank, Bool.or_eq_true, decide_eq_true_eq] at h
  rcases h with ((rfl | rfl) | rfl) | rfl <;> decide

/-- White space stays white space. -/
theorem Image.blank (hx : ∀ c ∈ x, isBlank c = true) (h : Image t x z) :
    t = false ∧ ∀ c ∈ z, isBlank c = true := by
  induction h with
  | nil => exact ⟨rfl, hx⟩
  | @keep c t x y _ ih =>
    obtain ⟨rfl, hy⟩ := ih fun d hd => hx d (List.mem_cons_of_mem c hd)
    refine ⟨rfl, fun d hd => ?_⟩
    rcases List.mem_cons.mp hd with rfl | hd
    · exact hx d List.mem_cons_self
    · exact hy d hd
  | @space w c t x y _ hw _ ih =>
    obtain ⟨rfl, hy⟩ := ih fun d hd => hx d (List.mem_cons_of_mem c hd)
    refine ⟨rfl, fun d hd => ?_⟩
    rcases List.mem_append.mp hd with hd | hd
    · exact hw d hd
    · exact hy d hd
  | @separator c _ _ _ hsep =>
    rw [not_separator_blank (hx c List.mem_cons_self)] at hsep
    cases hsep

/-- Inside a string, where a carriage return or a line feed is an error. -/
theorem Image.cons_visible (hc : 32 ≤ c.toNat) (h : Image t (c :: x) z) :
    (∃ y, z = c :: y ∧ Image t x y) ∨ (t = true ∧ ∃ y, z = '\n' :: y) := by
  cases h with
  | keep c h => exact .inl ⟨_, rfl, h⟩
  | space w hspace =>
    rcases hspace with rfl | rfl
    · exact absurd hc (by decide)
    · exact absurd hc (by decide)
  | separator => exact .inr ⟨rfl, _, rfl⟩

/-- What is read of an image. -/
def outcome {α : Type} (t : Bool) (v : α) (rest : List Char) : Scan α :=
  if t then .error .malformed else .ok (v, rest)

/-! ## White space -/

theorem skipSpace_cons (c : Char) (cs : List Char) :
    skipSpace (c :: cs) = if isBlank c then skipSpace cs else c :: cs := rfl

theorem skipSpace_spec (cs : List Char) :
    ∃ w, cs = w ++ skipSpace cs ∧ (∀ c ∈ w, isBlank c = true) ∧
      ∀ c ∈ (skipSpace cs).head?, isBlank c = false := by
  induction cs with
  | nil => exact ⟨[], rfl, by simp, by simp [skipSpace]⟩
  | cons c cs ih =>
    rw [skipSpace_cons]
    split
    · rename_i hc
      obtain ⟨w, hw, hblank, hhead⟩ := ih
      refine ⟨c :: w, congrArg (c :: ·) hw, fun d hd => ?_, hhead⟩
      rcases List.mem_cons.mp hd with rfl | hd
      · exact hc
      · exact hblank d hd
    · rename_i hc
      refine ⟨[], rfl, by simp, fun d hd => ?_⟩
      obtain rfl := Option.some.inj hd
      exact Bool.eq_false_iff.mpr hc

theorem skipSpace_blank (h : ∀ c ∈ x, isBlank c = true) : skipSpace (x ++ y) = skipSpace y := by
  induction x with
  | nil => rfl
  | cons c x ih =>
    rw [List.cons_append, skipSpace_cons, if_pos (h c List.mem_cons_self)]
    exact ih fun d hd => h d (List.mem_cons_of_mem c hd)

theorem skipSpace_head (h : isBlank c = false) : skipSpace (c :: x) = c :: x := by
  rw [skipSpace_cons, if_neg (Bool.eq_false_iff.mp h)]

/-- Blanks before a character that is none. -/
theorem skipSpace_before (h : ∀ c ∈ x, isBlank c = true) (hc : isBlank c = false) :
    skipSpace (x ++ c :: y) = c :: y := by
  rw [skipSpace_blank h, skipSpace_head hc]

/-! ## Strings -/

theorem kept_of_isDigit (h : isDigit c = true) : Kept c := by
  have hc := isDigit_cases h
  simp only [List.mem_cons, List.not_mem_nil, or_false] at hc
  rcases hc with rfl | rfl | rfl | rfl | rfl | rfl | rfl | rfl | rfl | rfl <;> decide

/-- ASCII characters that print are kept. -/
theorem kept_of_ascii (h : 32 ≤ c.toNat) (h' : c.toNat < 127) : Kept c := by
  refine ⟨?_, ?_, ?_⟩
  · rintro rfl
    exact absurd h (by decide)
  · rintro rfl
    exact absurd h (by decide)
  · unfold isSeparator PyText.isLineBreak
    simp only [Bool.and_eq_false_iff, Bool.or_eq_false_iff, decide_eq_false_iff_not]
    left
    left
    omega

theorem kept_of_hexValue {n : Nat} (h : hexValue c = some n) : Kept c := by
  unfold hexValue at h
  have hle : ∀ d : Char, (d ≤ c ↔ d.toNat ≤ c.toNat) ∧ (c ≤ d ↔ c.toNat ≤ d.toNat) :=
    fun d => ⟨Iff.rfl, Iff.rfl⟩
  simp only [Bool.and_eq_true, decide_eq_true_eq, hle] at h
  have h0 : '0'.toNat = 48 := rfl
  have h9 : '9'.toNat = 57 := rfl
  have ha : 'a'.toNat = 97 := rfl
  have hf : 'f'.toNat = 102 := rfl
  have hA : 'A'.toNat = 65 := rfl
  have hF : 'F'.toNat = 70 := rfl
  refine kept_of_ascii ?_ ?_
  · split_ifs at h <;> omega
  · split_ifs at h <;> omega

theorem kept_of_simpleEscape {u : Char} (h : simpleEscape c = some u) : Kept c := by
  unfold simpleEscape at h
  split_ifs at h with h1 h2 h3 h4 h5 h6 h7 h8
  all_goals subst_vars
  all_goals decide

theorem readHex4_local {n : Nat} (h : readHex4 cs = some (n, rest)) :
    ∃ ds, cs = ds ++ rest ∧ (∀ c ∈ ds, Kept c) ∧ ∀ z, readHex4 (ds ++ z) = some (n, z) := by
  unfold readHex4 at h
  split at h
  · rename_i a b c d cs
    split at h
    · rename_i x y z w hx hy hz hw
      simp only [Option.some.injEq, Prod.mk.injEq] at h
      obtain ⟨rfl, rfl⟩ := h
      refine ⟨[a, b, c, d], rfl, ?_, fun r => ?_⟩
      · intro e he
        simp only [List.mem_cons, List.not_mem_nil, or_false] at he
        rcases he with rfl | rfl | rfl | rfl
        · exact kept_of_hexValue hx
        · exact kept_of_hexValue hy
        · exact kept_of_hexValue hz
        · exact kept_of_hexValue hw
      · simp [readHex4, hx, hy, hz, hw]
    · cases h
  · cases h

theorem readLow_escape (cs : List Char) : readLow ('\\' :: 'u' :: cs) =
    match readHex4 cs with
    | some (n, rest) => if 0xDC00 ≤ n ∧ n ≤ 0xDFFF then some (n, rest) else none
    | none => none := rfl

theorem readLow_local {n : Nat} (h : readLow cs = some (n, rest)) :
    ∃ ds, cs = ds ++ rest ∧ (∀ c ∈ ds, Kept c) ∧ ∀ z, readLow (ds ++ z) = some (n, z) := by
  unfold readLow at h
  split at h
  · rename_i cs
    split at h
    · rename_i m r hm
      split at h
      · rename_i hrange
        simp only [Option.some.injEq, Prod.mk.injEq] at h
        obtain ⟨rfl, rfl⟩ := h
        obtain ⟨ds, rfl, hkept, hread⟩ := readHex4_local hm
        refine ⟨'\\' :: 'u' :: ds, rfl, ?_, fun z => ?_⟩
        · intro c hc
          rcases List.mem_cons.mp hc with rfl | hc
          · decide
          · rcases List.mem_cons.mp hc with rfl | hc
            · decide
            · exact hkept c hc
        · rw [List.cons_append, List.cons_append, readLow_escape, hread]
          exact if_pos hrange
      · cases h
    · cases h
  · cases h

/-- Whether a text goes on with the low half of a pair is decided by what is
kept. -/
theorem readLow_escape_none {ds : List Char} {n : Nat}
    (hread : ∀ z, readHex4 (ds ++ z) = some (n, z))
    (h : readLow ('\\' :: 'u' :: (ds ++ x)) = none) (y : List Char) :
    readLow ('\\' :: 'u' :: (ds ++ y)) = none := by
  rw [readLow_escape, hread] at h ⊢
  dsimp only at h ⊢
  split at h
  · cases h
  · rename_i hrange
    exact if_neg hrange

/-- The code point of an escape depends on what follows only by its being the low
half of a pair. -/
theorem readUnicode_local {u : Char} (h : readUnicode cs = some (u, rest)) :
    ∃ ds, cs = ds ++ rest ∧ (∀ c ∈ ds, Kept c) ∧
      (readLow ('\\' :: 'u' :: cs) = none → ∀ z, readLow ('\\' :: 'u' :: (ds ++ z)) = none) ∧
      ∀ z, (readLow rest = none → readLow z = none) → readUnicode (ds ++ z) = some (u, z) := by
  unfold readUnicode at h
  split at h
  · cases h
  · rename_i n r hn
    obtain ⟨ds, rfl, hkept, hread⟩ := readHex4_local hn
    split at h
    · rename_i hhigh
      split at h
      · rename_i low r' hlow
        simp only [Option.some.injEq, Prod.mk.injEq] at h
        obtain ⟨rfl, rfl⟩ := h
        obtain ⟨es, rfl, hkept', hlow'⟩ := readLow_local hlow
        refine ⟨ds ++ es, by rw [List.append_assoc], ?_, ?_, fun z _ => ?_⟩
        · intro c hc
          rcases List.mem_append.mp hc with hc | hc
          · exact hkept c hc
          · exact hkept' c hc
        · intro h z
          rw [List.append_assoc]
          exact readLow_escape_none hread h _
        · unfold readUnicode
          rw [List.append_assoc, hread]
          dsimp only
          rw [if_pos hhigh, hlow']
      · rename_i hlow
        simp only [Option.some.injEq, Prod.mk.injEq] at h
        obtain ⟨rfl, rfl⟩ := h
        refine ⟨ds, rfl, hkept, fun h z => readLow_escape_none hread h z, fun z hz => ?_⟩
        unfold readUnicode
        rw [hread]
        dsimp only
        rw [if_pos hhigh, hz hlow]
    · rename_i hhigh
      split at h
      · rename_i hlow
        simp only [Option.some.injEq, Prod.mk.injEq] at h
        obtain ⟨rfl, rfl⟩ := h
        refine ⟨ds, rfl, hkept, fun h z => readLow_escape_none hread h z, fun z hz => ?_⟩
        unfold readUnicode
        rw [hread]
        dsimp only
        rw [if_neg hhigh, if_pos hlow]
      · rename_i hlow
        simp only [Option.some.injEq, Prod.mk.injEq] at h
        obtain ⟨rfl, rfl⟩ := h
        refine ⟨ds, rfl, hkept, fun h z => readLow_escape_none hread h z, fun z hz => ?_⟩
        unfold readUnicode
        rw [hread]
        dsimp only
        rw [if_neg hhigh, if_neg hlow]

theorem readLow_visible (h : c ≠ '\\') : readLow (c :: cs) = none := by
  unfold readLow
  split
  · rename_i heq
    exact absurd (List.cons.inj heq).1 h
  · rfl

theorem readLow_other (h : c ≠ 'u') : readLow ('\\' :: c :: cs) = none := by
  unfold readLow
  split
  · rename_i heq
    exact absurd (List.cons.inj (List.cons.inj heq).2).1 h
  · rfl

/-- A code point before the rest of a string. -/
def consPoint (u : Char) : Scan (List Char) → Scan (List Char)
  | .ok (us, rest) => .ok (u :: us, rest)
  | .error e => .error e

theorem outcome_cons {u : Char} {us : List Char} :
    consPoint u (outcome t us rest) = outcome t (u :: us) rest := by
  cases t with
  | false => rfl
  | true => rfl

theorem scanString_unicode {f : Nat} {u : Char} (h : readUnicode cs = some (u, rest)) :
    scanString (f + 1) ('\\' :: 'u' :: cs) = consPoint u (scanString f rest) := by
  simp only [scanString, h]
  rfl

theorem scanString_simple {f : Nat} {e u : Char} (hne : e ≠ 'u') (h : simpleEscape e = some u) :
    scanString (f + 1) ('\\' :: e :: cs) = consPoint u (scanString f cs) := by
  simp only [scanString, h]
  rfl

theorem scanString_visible {f : Nat} (hq : c ≠ '"') (hb : c ≠ '\\') (hv : 32 ≤ c.toNat) :
    scanString (f + 1) (c :: cs) = consPoint c (scanString f cs) := by
  conv_lhs => unfold scanString
  rw [if_neg hq, if_neg hb, if_neg (not_lt.mpr hv)]
  rfl

/-- A string: its text is the rest of it up to the closing quote. -/
theorem scanString_image (fuel : Nat) : ∀ {cs s rest : List Char},
    scanString fuel cs = .ok (s, rest) → ∃ used, cs = used ++ rest ∧ used ≠ [] ∧
      ∀ {t : Bool} {y : List Char} (more : List Char) {f : Nat}, Image t used y → y.length < f →
        scanString f (y ++ more) = outcome t s more ∧
          (readLow cs = none → readLow (y ++ more) = none) := by
  induction fuel with
  | zero =>
    intro cs s rest h
    cases h
  | succ fuel ih =>
    intro cs s rest h
    cases cs with
    | nil => cases h
    | cons c cs =>
      unfold scanString at h
      split at h
      · rename_i hc
        subst hc
        simp only [Except.ok.injEq, Prod.mk.injEq] at h
        obtain ⟨rfl, rfl⟩ := h
        refine ⟨['"'], rfl, by simp, fun more f himage hf => ?_⟩
        obtain ⟨rfl, rfl⟩ := himage.kept (by simp; decide)
        obtain ⟨f, rfl⟩ : ∃ g, f = g + 1 := ⟨f - 1, by omega⟩
        exact ⟨by simp [scanString, outcome], fun _ => rfl⟩
      · rename_i hquote
        split at h
        · rename_i hc
          subst hc
          split at h
          · cases h
          · rename_i cs
            split at h
            · cases h
            · rename_i u r hu
              split at h
              · rename_i us rest' hs
                simp only [Except.ok.injEq, Prod.mk.injEq] at h
                obtain ⟨rfl, rfl⟩ := h
                obtain ⟨ds, rfl, hkept, hlow, hread⟩ := readUnicode_local hu
                obtain ⟨used, rfl, -, hused⟩ := ih hs
                refine ⟨'\\' :: 'u' :: (ds ++ used), by simp, by simp, fun more f himage hf => ?_⟩
                obtain ⟨z, rfl, h₁⟩ := himage.cons_kept (by decide)
                obtain ⟨z, rfl, h₂⟩ := h₁.cons_kept (by decide)
                obtain ⟨t₁, t₂, z, y, rfl, rfl, hds, h₃⟩ := h₂.split
                obtain ⟨rfl, rfl⟩ := hds.kept hkept
                simp only [List.length_cons, List.length_append] at hf
                obtain ⟨f, rfl⟩ : ∃ g, f = g + 1 := ⟨f - 1, by omega⟩
                obtain ⟨hscan, hnext⟩ := hused more h₃ (show y.length < f by omega)
                rw [List.cons_append, List.cons_append, List.append_assoc]
                refine ⟨?_, fun h => hlow h _⟩
                rw [scanString_unicode (hread _ hnext), hscan]
                exact outcome_cons
              · cases h
          · rename_i e cs hne
            split at h
            · cases h
            · rename_i u hu
              split at h
              · rename_i us rest' hs
                simp only [Except.ok.injEq, Prod.mk.injEq] at h
                obtain ⟨rfl, rfl⟩ := h
                obtain ⟨used, rfl, -, hused⟩ := ih hs
                refine ⟨'\\' :: e :: used, rfl, by simp, fun more f himage hf => ?_⟩
                obtain ⟨z, rfl, h₁⟩ := himage.cons_kept (by decide)
                obtain ⟨y, rfl, h₂⟩ := h₁.cons_kept (kept_of_simpleEscape hu)
                simp only [List.length_cons] at hf
                obtain ⟨f, rfl⟩ : ∃ g, f = g + 1 := ⟨f - 1, by omega⟩
                obtain ⟨hscan, -⟩ := hused more h₂ (show y.length < f by omega)
                rw [List.cons_append, List.cons_append]
                refine ⟨?_, fun _ => readLow_other hne⟩
                rw [scanString_simple hne hu, hscan]
                exact outcome_cons
              · cases h
        · rename_i hescape
          split at h
          · cases h
          · rename_i hvisible
            split at h
            · rename_i us rest' hs
              simp only [Except.ok.injEq, Prod.mk.injEq] at h
              obtain ⟨rfl, rfl⟩ := h
              obtain ⟨used, rfl, -, hused⟩ := ih hs
              refine ⟨c :: used, rfl, by simp, fun more f himage hf => ?_⟩
              obtain ⟨f, rfl⟩ : ∃ g, f = g + 1 := ⟨f - 1, by omega⟩
              have hchar : 32 ≤ c.toNat := not_lt.mp hvisible
              rcases himage.cons_visible hchar with ⟨y, rfl, htail⟩ | ⟨rfl, y, rfl⟩
              · obtain ⟨hscan, -⟩ := hused more htail (by simpa using hf)
                rw [List.cons_append]
                refine ⟨?_, fun _ => readLow_visible hescape⟩
                rw [scanString_visible hquote hescape hchar, hscan]
                exact outcome_cons
              · exact ⟨rfl, fun _ => readLow_visible (by decide)⟩
            · cases h

/-! ## Numbers -/

theorem span_local {p : Char → Bool} {ds : List Char} (h : cs.span p = (ds, rest)) :
    cs = ds ++ rest ∧ ∀ c ∈ ds, p c = true := by
  rw [List.span_eq_takeWhile_dropWhile] at h
  obtain ⟨rfl, rfl⟩ := Prod.mk.inj h
  exact ⟨List.takeWhile_append_dropWhile.symm, fun c hc => List.mem_takeWhile_imp hc⟩

theorem scanInt_local {ds : List Char} (h : scanInt cs = some (ds, rest)) :
    cs = ds ++ rest ∧ Whole ds := by
  unfold scanInt at h
  split at h
  · simp only [Option.some.injEq, Prod.mk.injEq] at h
    obtain ⟨rfl, rfl⟩ := h
    exact ⟨rfl, .inl rfl⟩
  · rename_i c cs hne
    split at h
    · rename_i hc
      obtain ⟨hcs, hd⟩ := span_local (Option.some.inj h)
      refine ⟨hcs, .inr ⟨hd, ?_⟩⟩
      cases ds with
      | nil =>
        rw [List.span_eq_takeWhile_dropWhile, List.takeWhile_cons_of_pos hc] at h
        cases h
      | cons d ds =>
        obtain ⟨rfl, -⟩ := List.cons.inj hcs
        exact ⟨c, ds, rfl, hne⟩
    · cases h
  · cases h

theorem scanFrac_local {frac : List Char} (h : scanFrac cs = (frac, rest)) :
    cs = (if frac = [] then [] else '.' :: frac) ++ rest ∧ ∀ c ∈ frac, isDigit c = true := by
  unfold scanFrac at h
  split at h
  · rename_i cs
    split at h
    · obtain ⟨rfl, rfl⟩ := Prod.mk.inj h
      exact ⟨rfl, by simp⟩
    · rename_i ds r hne hspan
      obtain ⟨rfl, rfl⟩ := Prod.mk.inj h
      obtain ⟨rfl, hd⟩ := span_local hspan
      exact ⟨by rw [if_neg hne]; rfl, hd⟩
  · obtain ⟨rfl, rfl⟩ := Prod.mk.inj h
    exact ⟨rfl, by simp⟩

theorem scanExp_stops (h : Stops z) : scanExp z = (none, z) := by
  cases z with
  | nil => rfl
  | cons c cs =>
    obtain ⟨-, -, he, he'⟩ := h c rfl
    simp [scanExp, he, he']

/-- The sign and the digits behind an exponent's letter. -/
def signedDigits : List Char → Bool × List Char
  | '-' :: r => (true, r)
  | '+' :: r => (false, r)
  | r => (false, r)

theorem scanExp_letter {e : Char} (he : (e = 'e' || e = 'E') = true) (cs : List Char) :
    scanExp (e :: cs) =
      match (signedDigits cs).2.span isDigit with
      | ([], _) => (none, e :: cs)
      | (xs, r) =>
        (some (if (signedDigits cs).1 then -(readDigits xs : Int) else readDigits xs), r) := by
  unfold scanExp
  dsimp only
  rw [if_pos he]
  rfl

/-- What stands behind the letter: a sign, if there is one, and the digits. -/
theorem signedDigits_local (cs : List Char) :
    ∃ sign, cs = sign ++ (signedDigits cs).2 ∧ (∀ c ∈ sign, Kept c) ∧
      ∀ d ds, isDigit d = true →
        signedDigits (sign ++ d :: ds) = ((signedDigits cs).1, d :: ds) := by
  unfold signedDigits
  split
  · exact ⟨['-'], rfl, by simp; decide, fun d ds _ => rfl⟩
  · exact ⟨['+'], rfl, by simp; decide, fun d ds _ => rfl⟩
  · refine ⟨[], rfl, by simp, fun d ds hd => ?_⟩
    rw [List.nil_append]
    split
    · rename_i heq
      rw [(List.cons.inj heq).1] at hd
      cases hd
    · rename_i heq
      rw [(List.cons.inj heq).1] at hd
      cases hd
    · rfl

/-- The text of an exponent: its letter, its sign and its digits. -/
theorem scanExp_local {ex : Option Int} (h : scanExp cs = (ex, rest)) :
    ∃ used, cs = used ++ rest ∧ (∀ c ∈ used, Kept c) ∧
      (∀ c ∈ used.head?, isDigit c = false ∧ c ≠ '.') ∧
      ∀ z, Stops z → scanExp (used ++ z) = (ex, z) := by
  have hempty : (none, cs) = (ex, rest) → ∃ used, cs = used ++ rest ∧ (∀ c ∈ used, Kept c) ∧
      (∀ c ∈ used.head?, isDigit c = false ∧ c ≠ '.') ∧
      ∀ z, Stops z → scanExp (used ++ z) = (ex, z) := by
    intro h
    obtain ⟨rfl, rfl⟩ := Prod.mk.inj h
    exact ⟨[], rfl, by simp, by simp, fun z hz => scanExp_stops hz⟩
  cases cs with
  | nil => exact hempty h
  | cons e r =>
    by_cases he : (e = 'e' || e = 'E') = true
    · rw [scanExp_letter he] at h
      split at h
      · exact hempty h
      · rename_i xs r' hne hspan
        obtain ⟨rfl, rfl⟩ := Prod.mk.inj h
        obtain ⟨sign, hr, hsign, hread⟩ := signedDigits_local r
        obtain ⟨hds, hd⟩ := span_local hspan
        rw [hds] at hr
        have heKept : Kept e ∧ isDigit e = false ∧ e ≠ '.' := by
          simp only [Bool.or_eq_true, decide_eq_true_eq] at he
          rcases he with rfl | rfl <;> decide
        obtain ⟨d, ds, rfl⟩ := List.exists_cons_of_ne_nil hne
        refine ⟨e :: (sign ++ d :: ds), by simp [hr], ?_, ?_, fun z hz => ?_⟩
        · intro c hc
          rcases List.mem_cons.mp hc with rfl | hc
          · exact heKept.1
          · rcases List.mem_append.mp hc with hc | hc
            · exact hsign c hc
            · exact kept_of_isDigit (hd c hc)
        · intro c hc
          obtain rfl := Option.some.inj hc
          exact heKept.2
        · have hdigits := hread d (ds ++ z) (hd d List.mem_cons_self)
          rw [List.cons_append, List.append_assoc, List.cons_append, scanExp_letter he, hdigits]
          have hspan' := span_digits hd fun c hc => (hz c hc).1
          rw [List.cons_append] at hspan'
          dsimp only
          rw [hspan']
    · refine hempty ?_
      rw [← h]
      unfold scanExp
      dsimp only
      rw [if_neg he]

theorem Whole.digits {ds : List Char} (h : Whole ds) : ∀ c ∈ ds, isDigit c = true := by
  rcases h with rfl | ⟨hd, -⟩
  · simp; decide
  · exact hd

/-- A number: its text is read as it wherever nothing continues it. -/
theorem scanNumber_local {neg : Bool} {v : Json} (h : scanNumber neg cs = .ok (v, rest)) :
    ∃ used, cs = used ++ rest ∧ (∀ c ∈ used, Kept c) ∧ (∃ c ∈ used.head?, isDigit c = true) ∧
      (∀ fs, v ≠ .obj fs) ∧ ∀ z, Stops z → scanNumber neg (used ++ z) = .ok (v, z) := by
  unfold scanNumber at h
  split at h
  · cases h
  · rename_i ds r₁ hint
    obtain ⟨rfl, hwhole⟩ := scanInt_local hint
    rcases hfrac : scanFrac r₁ with ⟨frac, r₂⟩
    rcases hexp : scanExp r₂ with ⟨ex, r₃⟩
    simp only [hfrac, hexp] at h
    obtain ⟨rfl, hf⟩ := scanFrac_local hfrac
    obtain ⟨used, rfl, hkept, hhead, hexp'⟩ := scanExp_local hexp
    have hv : r₃ = rest ∧ ∀ fs, v ≠ .obj fs := by
      split at h
      · split at h
        · cases h
        · cases h
          exact ⟨rfl, fun _ => nofun⟩
      · cases h
        exact ⟨rfl, fun _ => nofun⟩
    obtain ⟨rfl, hobj⟩ := hv
    refine ⟨ds ++ ((if frac = [] then [] else '.' :: frac) ++ used), by simp, ?_, ?_, hobj,
      fun z hz => ?_⟩
    · intro c hc
      rcases List.mem_append.mp hc with hc | hc
      · exact kept_of_isDigit (hwhole.digits c hc)
      · rcases List.mem_append.mp hc with hc | hc
        · by_cases hnil : frac = []
          · rw [if_pos hnil] at hc
            cases hc
          · rw [if_neg hnil] at hc
            rcases List.mem_cons.mp hc with rfl | hc
            · decide
            · exact kept_of_isDigit (hf c hc)
        · exact hkept c hc
    · obtain ⟨d, ds', rfl, hd⟩ := whole_head hwhole
      exact ⟨d, rfl, hd⟩
    · have hstop : ∀ c ∈ (used ++ z).head?, isDigit c = false ∧ c ≠ '.' := by
        intro c hc
        cases used with
        | nil => exact ⟨(hz c hc).1, (hz c hc).2.1⟩
        | cons d ds => exact hhead c hc
      have hstop' : ∀ c ∈ ((if frac = [] then [] else '.' :: frac) ++ (used ++ z)).head?,
          isDigit c = false := by
        intro c hc
        by_cases hnil : frac = []
        · rw [if_pos hnil] at hc
          exact (hstop c hc).1
        · rw [if_neg hnil] at hc
          obtain rfl := Option.some.inj hc
          rfl
      unfold scanNumber
      rw [List.append_assoc, List.append_assoc, scanInt_whole hwhole hstop']
      simp only [scanFrac_text frac hf hstop, hexp' z hz]
      split at h
      · rename_i hint
        rw [if_pos hint]
        split at h
        · cases h
        · rename_i hlen
          cases h
          rw [if_neg hlen]
      · rename_i hint
        cases h
        rw [if_neg hint]

end JsonText
