import Mathlib
import Northstack.Core.DoubleRounding

/-!
# Reading back what was written

`loads` after `dumps`: the scanner reads every text the writer writes, with
whatever separators Python writes, as the value it was written from. A value
must be one the source language can hold: an object's keys are distinct, a float
is a double, and an integer keeps to the interpreter's limit on literals.

**Results.**
* `scanValue_write`: the scanner reads a value's text and stops behind it.
* `loads_write`: `json.loads(json.dumps(value)) = value`.
-/

namespace JsonText

/-! ## Hexadecimal escapes -/

theorem hexValue_hexDigit {n : Nat} (h : n < 16) : hexValue (PyText.hexDigit n) = some n := by
  interval_cases n <;> decide

theorem readHex4_hex4 {n : Nat} (h : n < 65536) (rest : List Char) :
    readHex4 (hex4 n ++ rest) = some (n, rest) := by
  have h1 : n / 4096 % 16 < 16 := Nat.mod_lt _ (by omega)
  have h2 : n / 256 % 16 < 16 := Nat.mod_lt _ (by omega)
  have h3 : n / 16 % 16 < 16 := Nat.mod_lt _ (by omega)
  have h4 : n % 16 < 16 := Nat.mod_lt _ (by omega)
  simp only [hex4, List.cons_append, List.nil_append, readHex4, hexValue_hexDigit h1,
    hexValue_hexDigit h2, hexValue_hexDigit h3, hexValue_hexDigit h4, Option.some.injEq,
    Prod.mk.injEq, and_true]
  omega

/-- A code point is no surrogate. -/
theorem not_surrogate (c : Char) : c.toNat < 0xD800 ∨ (0xDFFF < c.toNat ∧ c.toNat < 0x110000) :=
  c.valid

theorem ofNat_toNat (c : Char) : Char.ofNat c.toNat = c := Char.ofNat_toNat c

theorem readUnicode_bmp {c : Char} (h : c.toNat < 0x10000) (rest : List Char) :
    readUnicode (hex4 c.toNat ++ rest) = some (c, rest) := by
  have hs := not_surrogate c
  unfold readUnicode
  rw [readHex4_hex4 h]
  dsimp only
  rw [if_neg (by omega), if_neg (by omega), ofNat_toNat]

theorem readUnicode_pair {c : Char} (h : 0x10000 ≤ c.toNat) (rest : List Char) :
    readUnicode (hex4 (0xD800 + (c.toNat - 0x10000) / 1024) ++ '\\' :: 'u' ::
      hex4 (0xDC00 + (c.toNat - 0x10000) % 1024) ++ rest) = some (c, rest) := by
  have hs := not_surrogate c
  obtain ⟨n, hn⟩ : ∃ n, n = c.toNat - 0x10000 := ⟨_, rfl⟩
  obtain ⟨hi, hhi⟩ : ∃ k, k = 0xD800 + n / 1024 := ⟨_, rfl⟩
  obtain ⟨lo, hlo⟩ : ∃ k, k = 0xDC00 + n % 1024 := ⟨_, rfl⟩
  have hc : 0x10000 + (hi - 0xD800) * 1024 + (lo - 0xDC00) = c.toNat := by omega
  have hhi' : hi < 65536 := by omega
  have hlo' : lo < 65536 := by omega
  have hhr : 0xD800 ≤ hi ∧ hi ≤ 0xDBFF := by omega
  have hlr : 0xDC00 ≤ lo ∧ lo ≤ 0xDFFF := by omega
  rw [← hn, ← hhi, ← hlo]
  clear hhi hlo hn
  unfold readUnicode
  rw [List.append_assoc, readHex4_hex4 hhi']
  dsimp only
  rw [if_pos hhr]
  simp only [List.cons_append, readLow, readHex4_hex4 hlo', if_pos hlr]
  rw [hc, ofNat_toNat]

/-! ## Strings -/

/-- One escaped code point is read back. -/
theorem scanString_escape {fuel : Nat} {c : Char} {cs us rest : List Char}
    (hs : scanString fuel cs = .ok (us, rest)) :
    scanString (fuel + 1) (escapeChar c ++ cs) = .ok (c :: us, rest) := by
  have hchar {n : Nat} (hn : c.toNat = n) : Char.ofNat n = c := by
    rw [← hn]
    exact ofNat_toNat c
  unfold escapeChar
  split
  · rename_i h
    subst h
    simp [scanString, simpleEscape, hs]
  split
  · rename_i h
    subst h
    simp [scanString, simpleEscape, hs]
  split
  · rename_i h
    subst h
    simp [scanString, simpleEscape, hs]
  split
  · rename_i h
    subst h
    simp [scanString, simpleEscape, hs]
  split
  · rename_i h
    subst h
    simp [scanString, simpleEscape, hs]
  split
  · rename_i h
    have hread : simpleEscape 'f' = some c := by
      rw [← hchar h]
      rfl
    simp [scanString, hread, hs]
  split
  · rename_i h
    have hread : simpleEscape 'b' = some c := by
      rw [← hchar h]
      rfl
    simp [scanString, hread, hs]
  split
  · rename_i hq hb _ _ _ _ _ h
    simp only [List.singleton_append, scanString]
    rw [if_neg hq, if_neg hb, if_neg (by omega), hs]
  split
  · rename_i h
    have hu := readUnicode_bmp h cs
    simp [scanString, hu, hs]
  · rename_i h
    have hu := readUnicode_pair (by omega : 0x10000 ≤ c.toNat) cs
    simp only [List.append_assoc, List.cons_append] at hu
    simp [scanString, hu, hs]

theorem scanString_text {s : List Char} {fuel : Nat} (h : s.length < fuel) (rest : List Char) :
    scanString fuel (s.flatMap escapeChar ++ '"' :: rest) = .ok (s, rest) := by
  induction s generalizing fuel with
  | nil =>
    obtain ⟨fuel, rfl⟩ : ∃ f, fuel = f + 1 := ⟨fuel - 1, by simp at h; omega⟩
    simp [scanString]
  | cons c s ih =>
    obtain ⟨fuel, rfl⟩ : ∃ f, fuel = f + 1 := ⟨fuel - 1, by simp at h; omega⟩
    rw [List.flatMap_cons, List.append_assoc]
    exact scanString_escape (ih (by simpa using h))

theorem escapeChar_pos (c : Char) : 0 < (escapeChar c).length := by
  unfold escapeChar
  repeat' split
  all_goals simp [hex4]

theorem length_le_text (s : List Char) : s.length ≤ (s.flatMap escapeChar).length := by
  induction s with
  | nil => simp
  | cons c s ih =>
    have hc := escapeChar_pos c
    simp only [List.flatMap_cons, List.length_append, List.length_cons]
    omega

/-- A string behind its opening quote, read with the fuel the scanner gives. -/
theorem scanString_rest (s : String) (rest : List Char) :
    scanString ((s.toList.flatMap escapeChar ++ '"' :: rest).length + 1)
      (s.toList.flatMap escapeChar ++ '"' :: rest) = .ok (s.toList, rest) := by
  have hl := length_le_text s.toList
  refine scanString_text ?_ rest
  simp only [List.length_append, List.length_cons]
  omega

/-! ## Digits -/

theorem readDigits_append (xs ys : List Char) :
    readDigits (xs ++ ys) = readDigits xs * 10 ^ ys.length + readDigits ys := by
  have hfold (a : Nat) (ys : List Char) :
      ys.foldl (fun a c => a * 10 + (c.toNat - 48)) a =
        a * 10 ^ ys.length + ys.foldl (fun a c => a * 10 + (c.toNat - 48)) 0 := by
    induction ys generalizing a with
    | nil => simp
    | cons y ys ih =>
      simp only [List.foldl_cons, List.length_cons]
      rw [ih, ih (0 * 10 + (y.toNat - 48))]
      ring
  unfold readDigits
  rw [List.foldl_append, hfold]

theorem readDigits_zeros (n : Nat) : readDigits (List.replicate n '0') = 0 := by
  induction n with
  | zero => rfl
  | succ n ih =>
    rw [List.replicate_succ', readDigits_append, ih]
    rfl

theorem digitChar_spec {d : Nat} (h : d < 10) :
    (digitChar d).toNat - 48 = d ∧ isDigit (digitChar d) = true ∧
      (digitChar d = '0' → d = 0) := by
  interval_cases d <;> decide

theorem decimal_pos {n : Nat} (h : n ≠ 0) :
    decimal n = ((Nat.digits 10 n).map digitChar).reverse := if_neg h

theorem readDigits_digits {ds : List Nat} (h : ∀ d ∈ ds, d < 10) :
    readDigits ((ds.map digitChar).reverse) = Nat.ofDigits 10 ds := by
  induction ds with
  | nil => rfl
  | cons d ds ih =>
    have hd := digitChar_spec (h d List.mem_cons_self)
    rw [List.map_cons, List.reverse_cons, readDigits_append,
      ih fun x hx => h x (List.mem_cons_of_mem _ hx), Nat.ofDigits_cons]
    simp only [readDigits, List.foldl_cons, List.foldl_nil, List.length_singleton, pow_one]
    omega

@[simp] theorem readDigits_decimal (n : Nat) : readDigits (decimal n) = n := by
  by_cases h : n = 0
  · subst h
    rfl
  · rw [decimal_pos h, readDigits_digits fun d hd => Nat.digits_lt_base (by omega) hd,
      Nat.ofDigits_digits]

theorem isDigit_decimal (n : Nat) : ∀ c ∈ decimal n, isDigit c = true := by
  intro c hc
  by_cases h : n = 0
  · subst h
    rw [List.mem_singleton.mp hc]
    rfl
  · rw [decimal_pos h, List.mem_reverse, List.mem_map] at hc
    obtain ⟨d, hd, rfl⟩ := hc
    exact (digitChar_spec (Nat.digits_lt_base (by omega) hd)).2.1

/-- A positive number's first digit is not zero. -/
theorem decimal_head {n : Nat} (h : n ≠ 0) :
    ∃ c cs, decimal n = c :: cs ∧ c ≠ '0' ∧ isDigit c = true := by
  have hne : Nat.digits 10 n ≠ [] := Nat.digits_ne_nil_iff_ne_zero.mpr h
  have hlast := Nat.getLast_digit_ne_zero 10 h
  obtain ⟨ds, d, hd⟩ := List.eq_nil_or_concat (Nat.digits 10 n) |>.resolve_left hne
  have hmem : d ∈ Nat.digits 10 n := by simp [hd]
  have hspec := digitChar_spec (Nat.digits_lt_base (by omega) hmem)
  refine ⟨digitChar d, (ds.map digitChar).reverse, ?_, ?_, hspec.2.1⟩
  · rw [decimal_pos h, hd]
    simp
  · intro hz
    have hd0 := hspec.2.2 hz
    simp only [hd, List.concat_eq_append, List.getLast_append_singleton] at hlast
    exact hlast hd0

/-- What may stand behind a number's text: nothing that would continue it. -/
def Stops (rest : List Char) : Prop :=
  ∀ c ∈ rest.head?, isDigit c = false ∧ c ≠ '.' ∧ c ≠ 'e' ∧ c ≠ 'E'

theorem span_digits {ds rest : List Char} (h : ∀ c ∈ ds, isDigit c = true)
    (hr : ∀ c ∈ rest.head?, isDigit c = false) : (ds ++ rest).span isDigit = (ds, rest) := by
  rw [List.span_eq_takeWhile_dropWhile]
  have hrest : rest.takeWhile isDigit = [] ∧ rest.dropWhile isDigit = rest := by
    cases rest with
    | nil => simp
    | cons c cs => simp [hr c rfl]
  rw [List.takeWhile_append_of_pos h, List.dropWhile_append_of_pos h, hrest.1, hrest.2,
    List.append_nil]

/-! ## Numbers -/

/-- The digits of an integer part: `0`, or digits that do not start with it. -/
def Whole (ds : List Char) : Prop :=
  ds = ['0'] ∨ (∀ c ∈ ds, isDigit c = true) ∧ ∃ c cs, ds = c :: cs ∧ c ≠ '0'

theorem whole_decimal (n : Nat) : Whole (decimal n) := by
  by_cases h : n = 0
  · subst h
    exact .inl rfl
  · obtain ⟨c, cs, hd, hc, -⟩ := decimal_head h
    exact .inr ⟨isDigit_decimal n, c, cs, hd, hc⟩

theorem scanInt_whole {ds rest : List Char} (h : Whole ds)
    (hr : ∀ c ∈ rest.head?, isDigit c = false) : scanInt (ds ++ rest) = some (ds, rest) := by
  rcases h with rfl | ⟨hd, c, cs, rfl, hc⟩
  · rfl
  · have hdc := hd c List.mem_cons_self
    have hspan := span_digits hd hr
    rw [List.cons_append] at hspan ⊢
    unfold scanInt
    split
    · rename_i he
      simp only [List.cons.injEq] at he
      exact absurd he.1 hc
    · rename_i he
      cases he
      rw [if_pos hdc, hspan]
    · rename_i he
      cases he

/-- An exponent: its sign and its digits. -/
abbrev Expo := Option (Bool × List Char)

def expText : Expo → List Char
  | none => []
  | some (neg, ds) => 'e' :: (if neg then '-' else '+') :: ds

def expValue : Expo → Int
  | none => 0
  | some (neg, ds) => if neg then -(readDigits ds : Int) else readDigits ds

/-- The exponent has digits, if there is one. -/
def Expo.Digits : Expo → Prop
  | none => True
  | some (_, ds) => ds ≠ [] ∧ ∀ c ∈ ds, isDigit c = true

theorem scanExp_text (ex : Expo) (h : ex.Digits) {rest : List Char} (hr : Stops rest) :
    scanExp (expText ex ++ rest) = (ex.map fun _ => expValue ex, rest) := by
  cases ex with
  | none =>
    cases rest with
    | nil => rfl
    | cons c cs =>
      obtain ⟨-, -, he, he'⟩ := hr c rfl
      simp [expText, scanExp, he, he']
  | some e =>
    obtain ⟨neg, ds⟩ := e
    obtain ⟨hne, hd⟩ := h
    have hspan := span_digits hd fun c hc => (hr c hc).1
    cases neg with
    | true =>
      simp only [expText, expValue, scanExp, List.cons_append, if_true, hspan, decide_true,
        Bool.true_or, Option.map_some]
    | false =>
      simp only [expText, expValue, scanExp, List.cons_append, Bool.false_eq_true, if_false, hspan,
        decide_true, Bool.true_or, Option.map_some, if_true]

/-- What may stand behind the digits of a fraction. -/
theorem stops_expText (ex : Expo) {rest : List Char} (hr : Stops rest) :
    ∀ c ∈ (expText ex ++ rest).head?, isDigit c = false ∧ c ≠ '.' := by
  intro c hc
  cases ex with
  | none => exact ⟨(hr c hc).1, (hr c hc).2.1⟩
  | some e =>
    obtain rfl : 'e' = c := by simpa [expText] using hc
    decide

theorem scanFrac_text (frac : List Char) {rest : List Char} (hd : ∀ c ∈ frac, isDigit c = true)
    (hr : ∀ c ∈ rest.head?, isDigit c = false ∧ c ≠ '.') :
    scanFrac ((if frac = [] then [] else '.' :: frac) ++ rest) = (frac, rest) := by
  cases frac with
  | nil =>
    cases rest with
    | nil => rfl
    | cons c cs =>
      have hc := (hr c rfl).2
      simp only [if_true, List.nil_append]
      unfold scanFrac
      split
      · rename_i he
        simp only [List.cons.injEq] at he
        exact absurd he.1 hc
      · rfl
  | cons d ds =>
    have hspan := span_digits hd fun c hc => (hr c hc).1
    rw [if_neg (List.cons_ne_nil d ds), List.cons_append]
    simp only [scanFrac]
    rw [hspan]

theorem withPoint_eq (ds frac : List Char) :
    PyText.withPoint ds frac = ds ++ if frac = [] then [] else '.' :: frac := by
  unfold PyText.withPoint
  split <;> simp

/-- A number's text with a fraction or an exponent is read as a float. -/
theorem scanNumber_float (neg : Bool) {ds frac : List Char} {ex : Expo} {rest : List Char}
    (hw : Whole ds) (hf : ∀ c ∈ frac, isDigit c = true) (hx : ex.Digits)
    (hne : frac ≠ [] ∨ ex ≠ none) (hr : Stops rest) :
    scanNumber neg (PyText.withPoint ds frac ++ expText ex ++ rest) =
      .ok (.float (roundDouble neg
        (readDigits (ds ++ frac) * 10 ^ (expValue ex - frac.length : Int))), rest) := by
  have hse := stops_expText ex hr
  have hsf : ∀ c ∈ ((if frac = [] then [] else '.' :: frac) ++ (expText ex ++ rest)).head?,
      isDigit c = false := by
    intro c hc
    by_cases hfr : frac = []
    · rw [if_pos hfr, List.nil_append] at hc
      exact (hse c hc).1
    · rw [if_neg hfr, List.cons_append, List.head?_cons, Option.mem_some_iff] at hc
      subst hc
      rfl
  have hex : (ex.map fun _ => expValue ex).getD 0 = expValue ex := by
    cases ex <;> rfl
  have hnone : ¬ (frac = [] ∧ (ex.map fun _ => expValue ex) = none) := by
    rintro ⟨h1, h2⟩
    rcases hne with h | h
    · exact h h1
    · exact h (Option.map_eq_none_iff.mp h2)
  unfold scanNumber
  rw [withPoint_eq, List.append_assoc, List.append_assoc, scanInt_whole hw hsf]
  simp only [scanFrac_text frac hf hse, scanExp_text ex hx hr]
  rw [if_neg hnone, hex]

theorem scanNumber_int (neg : Bool) {n : Nat} (hn : (decimal n).length ≤ 4300) {rest : List Char}
    (hr : Stops rest) :
    scanNumber neg (decimal n ++ rest) = .ok (.int (if neg then -(n : Int) else n), rest) := by
  have hs : ∀ c ∈ rest.head?, isDigit c = false ∧ c ≠ '.' := fun c hc =>
    ⟨(hr c hc).1, (hr c hc).2.1⟩
  have hf := scanFrac_text [] (by simp) hs
  have he := scanExp_text none trivial hr
  simp only [if_true, List.nil_append] at hf
  simp only [expText, List.nil_append, Option.map_none] at he
  unfold scanNumber
  rw [scanInt_whole (whole_decimal n) fun c hc => (hs c hc).1]
  simp only [hf, he, and_self, if_true]
  rw [if_neg (by omega), readDigits_decimal]

/-! ## Floats -/

/-- Stripping takes zeros off the end. -/
theorem stripZeros_spec (ds : List Char) :
    ∃ z, ds = PyText.stripZeros ds ++ List.replicate z '0' := by
  refine ⟨(ds.reverse.takeWhile (· = '0')).length, ?_⟩
  have hz : ds.reverse.takeWhile (· = '0') =
      List.replicate (ds.reverse.takeWhile (· = '0')).length '0' := by
    rw [List.eq_replicate_length]
    intro c hc
    simpa using List.mem_takeWhile_imp hc
  have hsplit := List.takeWhile_append_dropWhile (p := (· = '0')) (l := ds.reverse)
  have hrev := congrArg List.reverse hsplit
  rw [List.reverse_append, List.reverse_reverse] at hrev
  rw [← List.reverse_replicate, ← hz]
  exact hrev.symm

/-- The significant digits of a positive number. -/
theorem stripZeros_decimal {m : Nat} (hm : m ≠ 0) :
    ∃ z c cs, PyText.stripZeros (decimal m) = c :: cs ∧ c ≠ '0' ∧
      (∀ d ∈ c :: cs, isDigit d = true) ∧ (decimal m).length = (c :: cs).length + z ∧
      m = readDigits (c :: cs) * 10 ^ z := by
  obtain ⟨c, cs, hd, hc, -⟩ := decimal_head hm
  obtain ⟨z, hz⟩ := stripZeros_spec (decimal m)
  have hdig := isDigit_decimal m
  have hval := readDigits_decimal m
  have hlen : (decimal m).length = (PyText.stripZeros (decimal m)).length + z := by
    conv_lhs => rw [hz]
    simp
  cases hs : PyText.stripZeros (decimal m) with
  | nil =>
    rw [hs, List.nil_append, hd] at hz
    have hmem : c ∈ List.replicate z '0' := hz ▸ List.mem_cons_self
    exact absurd (List.eq_of_mem_replicate hmem) hc
  | cons c' cs' =>
    rw [hs] at hz hlen
    have hcc : c' = c := by
      rw [hd, List.cons_append] at hz
      exact (List.cons.inj hz).1.symm
    refine ⟨z, c', cs', rfl, hcc ▸ hc, fun d hm => hdig d ?_, hlen, ?_⟩
    · rw [hz]
      exact List.mem_append_left _ hm
    · rw [hz, readDigits_append, readDigits_zeros, List.length_replicate, add_zero] at hval
      exact hval.symm

theorem digits_replicate (n : Nat) : ∀ c ∈ List.replicate n '0', isDigit c = true := by
  intro c hc
  rw [List.eq_of_mem_replicate hc]
  rfl

/-- `repr` of a float is a number's text of the value it is laid out from. -/
theorem layout_text {m : Nat} (hm : m ≠ 0) (k : Int) :
    ∃ ds frac ex, layout m k = PyText.withPoint ds frac ++ expText ex ∧ Whole ds ∧
      (∀ c ∈ frac, isDigit c = true) ∧ ex.Digits ∧ (frac ≠ [] ∨ ex ≠ none) ∧
      (readDigits (ds ++ frac) : ℚ≥0) * 10 ^ (expValue ex - frac.length : Int) =
        m * 10 ^ k := by
  obtain ⟨z, c, cs, hsig, hc, hdig, hlen, hval⟩ := stripZeros_decimal hm
  have hten : (10 : ℚ≥0) ≠ 0 := by norm_num
  have hcast : (m : ℚ≥0) * 10 ^ k =
      (readDigits (c :: cs) : ℚ≥0) * 10 ^ ((decimal m).length + k - (c :: cs).length : Int) := by
    conv_lhs => rw [hval]
    push_cast
    rw [mul_assoc, ← zpow_natCast (10 : ℚ≥0) z, ← zpow_add₀ hten]
    congr 2
    omega
  rw [hcast]
  unfold layout
  dsimp only
  rw [hsig]
  generalize ((decimal m).length : Int) + k = point
  have hzero : readDigits ('0' :: []) = 0 := rfl
  split
  · -- scientific notation
    have hex : ∀ n, (if (decimal n).length < 2 then '0' :: decimal n else decimal n) ≠ [] ∧
        (∀ d ∈ if (decimal n).length < 2 then '0' :: decimal n else decimal n,
          isDigit d = true) ∧
        readDigits (if (decimal n).length < 2 then '0' :: decimal n else decimal n) = n := by
      intro n
      have hdn := isDigit_decimal n
      split
      · refine ⟨List.cons_ne_nil _ _, fun d hd => ?_, ?_⟩
        · rcases List.mem_cons.mp hd with rfl | hd
          · rfl
          · exact hdn d hd
        · rw [← List.singleton_append, readDigits_append, hzero]
          simp
      · refine ⟨?_, hdn, readDigits_decimal n⟩
        rename_i hlt
        intro hnil
        simp [hnil] at hlt
    obtain ⟨hne, hxd, hxv⟩ := hex (point - 1).natAbs
    generalize (if (decimal (point - 1).natAbs).length < 2 then '0' :: decimal (point - 1).natAbs
      else decimal (point - 1).natAbs) = xs at hne hxd hxv ⊢
    refine ⟨[c], cs, some (decide (point - 1 < 0), xs), ?_, .inr ⟨?_, c, [], rfl, hc⟩, ?_, ⟨hne, hxd⟩,
      .inr (by simp), ?_⟩
    · simp [expText]
    · exact fun d hd => hdig d (by rw [List.mem_singleton.mp hd]; exact List.mem_cons_self)
    · exact fun d hd => hdig d (List.mem_cons_of_mem _ hd)
    · have hev : expValue (some (decide (point - 1 < 0), xs)) = point - 1 := by
        simp only [expValue, hxv]
        split
        · rename_i hlt
          simp only [decide_eq_true_eq] at hlt
          omega
        · rename_i hlt
          simp only [decide_eq_true_eq] at hlt
          omega
      rw [hev, List.singleton_append]
      congr 2
      simp only [List.length_cons]
      push_cast
      omega
  split
  · -- a number below one
    rename_i hle
    refine ⟨['0'], List.replicate point.natAbs '0' ++ (c :: cs), none, ?_, .inl rfl, ?_, trivial,
      .inl (by simp), ?_⟩
    · rw [withPoint_eq, if_neg (by simp)]
      simp [expText]
    · intro d hd
      rcases List.mem_append.mp hd with hd | hd
      · exact digits_replicate _ d hd
      · exact hdig d hd
    · rw [readDigits_append, readDigits_append, readDigits_zeros, hzero, zero_mul, zero_mul,
        zero_add, zero_add]
      congr 2
      simp only [expValue, List.length_append, List.length_replicate, Nat.cast_add]
      omega
  split
  · -- a whole number
    rename_i hpos hle
    refine ⟨(c :: cs) ++ List.replicate (point.natAbs - (c :: cs).length) '0', ['0'], none, ?_,
      .inr ⟨?_, c, _, rfl, hc⟩, ?_, trivial, .inl (by simp), ?_⟩
    · rw [withPoint_eq, if_neg (by simp)]
      simp [expText]
    · intro d hd
      rcases List.mem_append.mp hd with hd | hd
      · exact hdig d hd
      · exact digits_replicate _ d hd
    · exact fun d hd => by rw [List.mem_singleton.mp hd]; rfl
    · rw [readDigits_append, readDigits_append, readDigits_zeros, hzero, add_zero, add_zero]
      push_cast
      rw [← zpow_natCast, ← zpow_natCast, mul_assoc, mul_assoc, ← zpow_add₀ hten, ← zpow_add₀ hten]
      congr 2
      simp only [expValue, List.length_replicate, List.length_cons, List.length_nil] at hle ⊢
      push_cast at hle ⊢
      omega
  · -- a point among the digits
    rename_i hpos hlt
    have hlen' : 0 < point.natAbs := by omega
    obtain ⟨n, hn⟩ : ∃ n, point.natAbs = n + 1 := ⟨point.natAbs - 1, by omega⟩
    refine ⟨(c :: cs).take point.natAbs, (c :: cs).drop point.natAbs, none, ?_, .inr ⟨?_, ?_⟩, ?_,
      trivial, .inl ?_, ?_⟩
    · rw [withPoint_eq, if_neg]
      · simp [expText]
      · intro hnil
        rw [List.drop_eq_nil_iff] at hnil
        omega
    · exact fun d hd => hdig d (List.mem_of_mem_take hd)
    · exact ⟨c, cs.take n, by rw [hn, List.take_succ_cons], hc⟩
    · exact fun d hd => hdig d (List.mem_of_mem_drop hd)
    · intro hnil
      rw [List.drop_eq_nil_iff] at hnil
      omega
    · rw [List.take_append_drop]
      congr 2
      simp only [expValue, List.length_drop]
      omega

theorem roundDouble_neg {q m : ℚ≥0} (h : roundDouble false q = .finite false m) (neg : Bool) :
    roundDouble neg q = .finite neg m := by
  by_cases hq : q = 0
  · subst hq
    cases h
    rfl
  · rw [roundDouble_pos hq] at h ⊢
    dsimp only at h ⊢
    by_cases hv : (PyText.roundHalfEven ((q : ℚ) / 2 ^ lastPlace q)).toNat *
        (2 : ℚ≥0) ^ lastPlace q < 2 ^ 1024
    · rw [if_pos hv] at h ⊢
      rw [(PyFloat.finite.inj h).2]
    · rw [if_neg hv] at h
      cases h

theorem shortest_spec {q : ℚ≥0} {fuel m : Nat} {k : Int} (h : shortest q fuel = some (m, k)) :
    roundDouble false (m * 10 ^ k) = .finite false q := by
  induction fuel with
  | zero => cases h
  | succ fuel ih =>
    unfold shortest at h
    dsimp only at h
    split at h
    · rename_i hround
      simp only [Option.some.injEq, Prod.mk.injEq] at h
      obtain ⟨rfl, rfl⟩ := h
      exact hround
    · exact ih h

theorem exactDecimal_spec {neg : Bool} {q : ℚ≥0} (h : (PyFloat.finite neg q).IsDouble) :
    ((exactDecimal q).1 : ℚ≥0) * 10 ^ (exactDecimal q).2 = q := by
  obtain ⟨j, hj⟩ := den_of_double h
  unfold exactDecimal
  rw [hj, Nat.log_pow one_lt_two]
  have hten : (10 : ℚ≥0) ^ j = 2 ^ j * 5 ^ j := by rw [← mul_pow]; norm_num
  have hq : q = q.num / 2 ^ j := by
    conv_lhs => rw [← NNRat.num_div_den q, hj]
    push_cast
    rfl
  rw [zpow_neg, zpow_natCast, hten]
  conv_rhs => rw [hq]
  push_cast
  field_simp

/-- The decimal a double is written with rounds back to it. -/
theorem decimal_rounds {neg : Bool} {q : ℚ≥0} (hq : q ≠ 0) (h : (PyFloat.finite neg q).IsDouble)
    {m : Nat} {k : Int} (he : (shortest q 17).getD (exactDecimal q) = (m, k)) :
    m ≠ 0 ∧ roundDouble neg (m * 10 ^ k) = .finite neg q := by
  have hround : roundDouble neg (m * 10 ^ k) = .finite neg q := by
    cases hs : shortest q 17 with
    | some p =>
      rw [hs, Option.getD_some] at he
      subst he
      exact roundDouble_neg (shortest_spec hs) neg
    | none =>
      rw [hs, Option.getD_none] at he
      have hexact := exactDecimal_spec h
      rw [he] at hexact
      rw [hexact]
      exact h
  refine ⟨?_, hround⟩
  rintro rfl
  rw [Nat.cast_zero, zero_mul] at hround
  exact hq (PyFloat.finite.inj hround).2.symm

/-! ## Where a number starts -/

theorem isDigit_cases {c : Char} (h : isDigit c = true) :
    c ∈ ['0', '1', '2', '3', '4', '5', '6', '7', '8', '9'] := by
  have hb : 48 ≤ c.toNat ∧ c.toNat ≤ 57 := by
    simpa [isDigit, Char.le_def, UInt32.le_iff_toNat_le] using h
  obtain ⟨n, hn⟩ : ∃ n, c.toNat = n := ⟨_, rfl⟩
  have hc := ofNat_toNat c
  rw [hn] at hc hb
  obtain ⟨h1, h2⟩ := hb
  subst hc
  interval_cases n <;> decide

theorem scanValue_digit {c : Char} (h : isDigit c = true) (fuel : Nat) (cs : List Char) :
    scanValue (fuel + 1) (c :: cs) = scanNumber false (c :: cs) := by
  have hc := isDigit_cases h
  simp only [List.mem_cons, List.not_mem_nil, or_false] at hc
  rcases hc with rfl | rfl | rfl | rfl | rfl | rfl | rfl | rfl | rfl | rfl <;> simp [scanValue]

theorem scanValue_minus {c : Char} (h : isDigit c = true) (fuel : Nat) (cs : List Char) :
    scanValue (fuel + 1) ('-' :: c :: cs) = scanNumber true (c :: cs) := by
  have hc := isDigit_cases h
  simp only [List.mem_cons, List.not_mem_nil, or_false] at hc
  rcases hc with rfl | rfl | rfl | rfl | rfl | rfl | rfl | rfl | rfl | rfl <;> simp [scanValue]

/-- A signed number is read by the number scanner. -/
theorem scanValue_number (neg : Bool) {cs : List Char} (h : ∃ c ds, cs = c :: ds ∧ isDigit c = true)
    (fuel : Nat) :
    scanValue (fuel + 1) ((if neg then ['-'] else []) ++ cs) = scanNumber neg cs := by
  obtain ⟨c, ds, rfl, hc⟩ := h
  cases neg with
  | true => exact scanValue_minus hc fuel ds
  | false => exact scanValue_digit hc fuel ds

theorem whole_head {ds : List Char} (h : Whole ds) : ∃ c cs, ds = c :: cs ∧ isDigit c = true := by
  rcases h with rfl | ⟨hd, c, cs, rfl, -⟩
  · exact ⟨'0', [], rfl, rfl⟩
  · exact ⟨c, cs, rfl, hd c List.mem_cons_self⟩

theorem scanValue_int {i : Int} (h : (decimal i.natAbs).length ≤ 4300) (fuel : Nat)
    {rest : List Char} (hr : Stops rest) :
    scanValue (fuel + 1) (intText i ++ rest) = .ok (.int i, rest) := by
  have hhead : ∃ c cs, decimal i.natAbs ++ rest = c :: cs ∧ isDigit c = true := by
    obtain ⟨c, cs, he, hc⟩ := whole_head (whole_decimal i.natAbs)
    exact ⟨c, cs ++ rest, by rw [he]; rfl, hc⟩
  have hsign := scanValue_number (decide (i < 0)) hhead fuel
  simp only [decide_eq_true_eq] at hsign
  unfold intText
  rw [List.append_assoc, hsign, scanNumber_int _ h hr]
  by_cases hi : i < 0
  · rw [if_pos (decide_eq_true hi)]
    congr 3
    omega
  · rw [if_neg (by simpa using hi)]
    congr 3
    omega

/-- A double's text is a sign and a number that reads back as it. -/
theorem floatText_text {neg : Bool} {q : ℚ≥0} (h : (PyFloat.finite neg q).IsDouble) :
    ∃ ds frac ex, floatText (.finite neg q) =
        (if neg then ['-'] else []) ++ (PyText.withPoint ds frac ++ expText ex) ∧ Whole ds ∧
      (∀ c ∈ frac, isDigit c = true) ∧ ex.Digits ∧ (frac ≠ [] ∨ ex ≠ none) ∧
      roundDouble neg (readDigits (ds ++ frac) * 10 ^ (expValue ex - frac.length : Int)) =
        .finite neg q := by
  by_cases hq : q = 0
  · subst hq
    exact ⟨['0'], ['0'], none, rfl, .inl rfl, by simp [isDigit], trivial, .inl (by simp),
      congrArg (roundDouble neg) (zero_mul _)⟩
  · rcases hp : (shortest q 17).getD (exactDecimal q) with ⟨m, k⟩
    obtain ⟨hm, hround⟩ := decimal_rounds hq h hp
    obtain ⟨ds, frac, ex, ht, hw, hf, hx, hne, hv⟩ := layout_text hm k
    refine ⟨ds, frac, ex, ?_, hw, hf, hx, hne, by rw [hv, hround]⟩
    unfold floatText
    dsimp only
    rw [if_neg hq, hp, ← ht]

theorem scanValue_float {x : PyFloat} (h : x.IsDouble) (fuel : Nat) {rest : List Char}
    (hr : Stops rest) :
    scanValue (fuel + 1) (floatText x ++ rest) = .ok (.float x, rest) := by
  cases x with
  | nan => rfl
  | inf neg => cases neg <;> rfl
  | finite neg q =>
    obtain ⟨ds, frac, ex, ht, hw, hf, hx, hne, hv⟩ := floatText_text h
    have hnum := scanNumber_float neg hw hf hx hne hr
    rw [hv] at hnum
    rw [ht, List.append_assoc, scanValue_number, hnum]
    obtain ⟨c, cs, he, hc⟩ := whole_head hw
    refine ⟨c, cs ++ ((if frac = [] then [] else '.' :: frac) ++ (expText ex ++ rest)), ?_, hc⟩
    rw [withPoint_eq, he]
    simp

/-! ## Values -/

/-- A value the source language can hold and write. -/
inductive Held : Json → Prop where
  | null : Held .null
  | bool (b : Bool) : Held (.bool b)
  | int {i : Int} (h : (decimal i.natAbs).length ≤ 4300) : Held (.int i)
  | float {x : PyFloat} (h : x.IsDouble) : Held (.float x)
  | str (s : String) : Held (.str s)
  | arr {xs : List Json} (h : ∀ x ∈ xs, Held x) : Held (.arr xs)
  | obj {fs : List (String × Json)} (hk : (fs.map Prod.fst).Nodup) (h : ∀ f ∈ fs, Held f.2) :
    Held (.obj fs)

/-- A comma and a colon, each with spaces behind it. -/
def Separators.Spaced (sep : Separators) : Prop :=
  (∃ n, sep.item = ',' :: List.replicate n ' ') ∧ ∃ n, sep.key = ':' :: List.replicate n ' '

theorem Separators.spaced_default : Separators.default.Spaced := ⟨⟨1, rfl⟩, ⟨1, rfl⟩⟩

theorem Separators.spaced_compact : Separators.compact.Spaced := ⟨⟨0, rfl⟩, ⟨0, rfl⟩⟩

theorem skipSpace_replicate (n : Nat) (cs : List Char) :
    skipSpace (List.replicate n ' ' ++ cs) = skipSpace cs := by
  induction n with
  | zero => rfl
  | succ n ih =>
    rw [List.replicate_succ, List.cons_append]
    exact ih

/-- What may stand first in a value's text. -/
def Opens (c : Char) : Prop :=
  c ≠ ' ' ∧ c ≠ '\t' ∧ c ≠ '\n' ∧ c ≠ '\r' ∧ c ≠ ']' ∧ c ≠ '}'

instance (c : Char) : Decidable (Opens c) := inferInstanceAs (Decidable (_ ∧ _))

theorem skipSpace_opens {c : Char} (h : Opens c) (cs : List Char) :
    skipSpace (c :: cs) = c :: cs := by
  obtain ⟨h1, h2, h3, h4, -⟩ := h
  simp [skipSpace, h1, h2, h3, h4]

theorem opens_digit {c : Char} (h : isDigit c = true) : Opens c := by
  have hc := isDigit_cases h
  simp only [List.mem_cons, List.not_mem_nil, or_false] at hc
  rcases hc with rfl | rfl | rfl | rfl | rfl | rfl | rfl | rfl | rfl | rfl <;> decide

/-- A signed text starts with its sign or its first digit. -/
theorem signed_opens (neg : Prop) [Decidable neg] {cs : List Char}
    (h : ∃ c ds, cs = c :: ds ∧ isDigit c = true) :
    ∃ c ds, (if neg then ['-'] else []) ++ cs = c :: ds ∧ Opens c := by
  obtain ⟨c, ds, rfl, hc⟩ := h
  by_cases hn : neg
  · exact ⟨'-', c :: ds, by rw [if_pos hn]; rfl, by decide⟩
  · exact ⟨c, ds, by rw [if_neg hn]; rfl, opens_digit hc⟩

/-- What a value's text starts with. -/
theorem write_opens (sep : Separators) {j : Json} (h : Held j) :
    ∃ c cs, write sep j = c :: cs ∧ Opens c := by
  cases h with
  | null => exact ⟨'n', _, by rw [write]; rfl, by decide⟩
  | bool b =>
    cases b with
    | true => exact ⟨'t', _, by rw [write]; rfl, by decide⟩
    | false => exact ⟨'f', _, by rw [write]; rfl, by decide⟩
  | @int i =>
    rw [write]
    exact signed_opens _ (whole_head (whole_decimal i.natAbs))
  | @float x hx =>
    rw [write]
    cases x with
    | nan => exact ⟨'N', _, rfl, by decide⟩
    | inf neg =>
      cases neg with
      | true => exact ⟨'-', _, rfl, by decide⟩
      | false => exact ⟨'I', _, rfl, by decide⟩
    | finite neg q =>
      obtain ⟨ds, frac, ex, ht, hw, -⟩ := floatText_text hx
      obtain ⟨c, cs, he, hc⟩ := whole_head hw
      rw [ht]
      refine signed_opens _ ⟨c, cs ++ ((if frac = [] then [] else '.' :: frac) ++ expText ex), ?_, hc⟩
      rw [withPoint_eq, he]
      simp
  | str s => exact ⟨'"', _, by rw [write]; rfl, by decide⟩
  | arr => exact ⟨'[', _, by rw [write], by decide⟩
  | obj => exact ⟨'{', _, by rw [write], by decide⟩

theorem skipSpace_write (sep : Separators) {j : Json} (h : Held j) (rest : List Char) :
    skipSpace (write sep j ++ rest) = write sep j ++ rest := by
  obtain ⟨c, cs, he, hc⟩ := write_opens sep h
  rw [he, List.cons_append, skipSpace_opens hc]

/-- Binding a new key adds it at the end. -/
theorem bindField_fresh {k : String} {v : Json} {fs : List (String × Json)}
    (h : k ∉ fs.map Prod.fst) : bindField k v fs = fs ++ [(k, v)] := by
  induction fs with
  | nil => rfl
  | cons f fs ih =>
    obtain ⟨k', v'⟩ := f
    rw [List.map_cons, List.mem_cons, not_or] at h
    rw [bindField, if_neg (Ne.symm h.1), ih h.2]
    rfl

theorem stops_of {c : Char} (h : c = ',' ∨ c = ']' ∨ c = '}') (cs : List Char) :
    Stops (c :: cs) := by
  intro d hd
  obtain rfl : c = d := by simpa using hd
  rcases h with rfl | rfl | rfl <;> decide

section

variable {sep : Separators}

/-- The scanner reads the text of `j` and stops behind it. -/
def Reads (sep : Separators) (j : Json) : Prop :=
  ∀ fuel rest, (write sep j).length < fuel → Stops rest →
    scanValue fuel (write sep j ++ rest) = .ok (j, rest)

variable (sep) in
theorem writeItems_opens {x : Json} {xs : List Json} (hh : ∀ y ∈ x :: xs, Held y) :
    ∃ c cs, writeItems sep (x :: xs) = c :: cs ∧ Opens c := by
  obtain ⟨c, cs, he, hc⟩ := write_opens sep (hh x List.mem_cons_self)
  cases xs with
  | nil => exact ⟨c, cs ++ [']'], by rw [writeItems, he]; rfl, hc⟩
  | cons y ys =>
    exact ⟨c, cs ++ sep.item ++ writeItems sep (y :: ys), by rw [writeItems, he]; rfl, hc⟩

theorem writeFields_quote (sep : Separators) (f : String × Json) (fs : List (String × Json)) :
    ∃ cs, writeFields sep (f :: fs) = '"' :: cs := by
  obtain ⟨k, v⟩ := f
  cases fs with
  | nil => exact ⟨_, by rw [writeFields]; rfl⟩
  | cons g gs => exact ⟨_, by rw [writeFields]; rfl⟩

theorem scanItems_write (hsep : sep.Spaced) {x : Json} {xs : List Json}
    (hh : ∀ y ∈ x :: xs, Held y) (hr : ∀ y ∈ x :: xs, Reads sep y) (acc : List Json)
    {fuel : Nat} (hf : (writeItems sep (x :: xs)).length < fuel) (rest : List Char) :
    scanItems fuel acc (writeItems sep (x :: xs) ++ rest) = .ok (.arr (acc ++ x :: xs), rest) := by
  obtain ⟨n, hn⟩ := hsep.1
  induction xs generalizing x acc fuel with
  | nil =>
    obtain ⟨fuel, rfl⟩ : ∃ f, fuel = f + 1 := ⟨fuel - 1, by omega⟩
    rw [writeItems] at hf ⊢
    rw [List.length_append, List.length_singleton] at hf
    rw [List.append_assoc, List.singleton_append, scanItems,
      hr x List.mem_cons_self fuel _ (by omega) (stops_of (.inr (.inl rfl)) _)]
    rfl
  | cons y ys ih =>
    obtain ⟨fuel, rfl⟩ : ∃ f, fuel = f + 1 := ⟨fuel - 1, by omega⟩
    rw [writeItems] at hf ⊢
    simp only [hn, List.length_append, List.length_cons] at hf
    rw [hn, List.append_assoc, List.append_assoc, List.cons_append, scanItems,
      hr x List.mem_cons_self fuel _ (by omega) (stops_of (.inl rfl) _)]
    have hspace : skipSpace (List.replicate n ' ' ++ (writeItems sep (y :: ys) ++ rest)) =
        writeItems sep (y :: ys) ++ rest := by
      obtain ⟨c, cs, he, hc⟩ := writeItems_opens sep
        fun z hz => hh z (List.mem_cons_of_mem _ hz)
      rw [skipSpace_replicate, he, List.cons_append, skipSpace_opens hc]
    have hnext := ih (fun z hz => hh z (List.mem_cons_of_mem _ hz))
      (fun z hz => hr z (List.mem_cons_of_mem _ hz)) (acc ++ [x])
      (show _ < fuel by omega)
    rw [List.append_assoc, List.singleton_append] at hnext
    simp only [skipSpace_opens (c := ',') (by decide)]
    rw [hspace, hnext]

theorem stringText_append (k : String) (rest : List Char) :
    stringText k ++ rest = '"' :: (k.toList.flatMap escapeChar ++ '"' :: rest) := by
  simp [stringText]

/-- One field, up to what stands behind its value. -/
theorem scanFields_field (hsep : sep.Spaced) {k : String} {v : Json} (hh : Held v)
    (hr : Reads sep v) (acc : List (String × Json)) {fuel : Nat}
    (hf : (write sep v).length < fuel) {c : Char} (hc : c = ',' ∨ c = '}') (rest : List Char) :
    scanFields (fuel + 1) acc (stringText k ++ sep.key ++ write sep v ++ c :: rest) =
      if c = ',' then scanFields fuel (bindField k v acc) (skipSpace rest)
      else .ok (.obj (bindField k v acc), rest) := by
  obtain ⟨n, hn⟩ := hsep.2
  have hcolon : skipSpace (':' :: (List.replicate n ' ' ++ (write sep v ++ c :: rest))) =
      ':' :: (List.replicate n ' ' ++ (write sep v ++ c :: rest)) := skipSpace_opens (by decide) _
  have hvalue : skipSpace (List.replicate n ' ' ++ (write sep v ++ c :: rest)) =
      write sep v ++ c :: rest := by rw [skipSpace_replicate, skipSpace_write sep hh]
  have hstop : Stops (c :: rest) := stops_of (hc.imp id .inr) rest
  rw [hn, List.append_assoc, List.append_assoc, stringText_append, List.cons_append, scanFields]
  simp only [scanString_rest, hcolon, hvalue, hr fuel _ hf hstop, String.ofList_toList]
  rcases hc with rfl | rfl
  · simp only [skipSpace_opens (c := ',') (by decide), if_true]
  · rfl

theorem scanFields_write (hsep : sep.Spaced) {f : String × Json} {fs : List (String × Json)}
    (hh : ∀ g ∈ f :: fs, Held g.2) (hr : ∀ g ∈ f :: fs, Reads sep g.2)
    (acc : List (String × Json)) (hk : ((acc ++ f :: fs).map Prod.fst).Nodup) {fuel : Nat}
    (hf : (writeFields sep (f :: fs)).length < fuel) (rest : List Char) :
    scanFields fuel acc (writeFields sep (f :: fs) ++ rest) =
      .ok (.obj (acc ++ f :: fs), rest) := by
  obtain ⟨n, hn⟩ := hsep.1
  induction fs generalizing f acc fuel with
  | nil =>
    obtain ⟨k, v⟩ := f
    have hheld : Held v := hh (k, v) List.mem_cons_self
    have hreads : Reads sep v := hr (k, v) List.mem_cons_self
    have hfresh : k ∉ acc.map Prod.fst := by
      rw [List.map_append, List.nodup_append] at hk
      exact fun hmem => hk.2.2 k hmem k List.mem_cons_self rfl
    obtain ⟨fuel, rfl⟩ : ∃ g, fuel = g + 1 := ⟨fuel - 1, by omega⟩
    rw [writeFields] at hf ⊢
    simp only [List.length_append, List.length_singleton] at hf
    rw [List.append_assoc _ ['}'], List.singleton_append,
      scanFields_field hsep hheld hreads acc (by omega) (.inr rfl), bindField_fresh hfresh]
    rfl
  | cons g gs ih =>
    obtain ⟨k, v⟩ := f
    have hheld : Held v := hh (k, v) List.mem_cons_self
    have hreads : Reads sep v := hr (k, v) List.mem_cons_self
    have hfresh : k ∉ acc.map Prod.fst := by
      rw [List.map_append, List.nodup_append] at hk
      exact fun hmem => hk.2.2 k hmem k List.mem_cons_self rfl
    have hspace : skipSpace (List.replicate n ' ' ++ (writeFields sep (g :: gs) ++ rest)) =
        writeFields sep (g :: gs) ++ rest := by
      obtain ⟨cs, he⟩ := writeFields_quote sep g gs
      rw [skipSpace_replicate, he, List.cons_append, skipSpace_opens (by decide)]
    obtain ⟨fuel, rfl⟩ : ∃ g, fuel = g + 1 := ⟨fuel - 1, by omega⟩
    rw [writeFields] at hf ⊢
    simp only [hn, List.length_append, List.length_cons] at hf
    have hnext := ih (fun h hm => hh h (List.mem_cons_of_mem _ hm))
      (fun h hm => hr h (List.mem_cons_of_mem _ hm)) (acc ++ [(k, v)]) (by simpa using hk)
      (show _ < fuel by omega)
    have hfield := scanFields_field hsep (k := k) hheld hreads acc (show _ < fuel by omega)
      (c := ',') (.inl rfl) (List.replicate n ' ' ++ (writeFields sep (g :: gs) ++ rest))
    rw [if_pos rfl, bindField_fresh hfresh, hspace, hnext, List.append_assoc acc,
      List.singleton_append] at hfield
    rw [hn, ← hfield]
    simp only [List.append_assoc, List.cons_append]

/-- **Reading.** The scanner reads a value's text and stops behind it. -/
theorem scanValue_write (hsep : sep.Spaced) {j : Json} (h : Held j) : Reads sep j := by
  induction h with
  | null =>
    intro fuel rest hf _
    obtain ⟨fuel, rfl⟩ : ∃ f, fuel = f + 1 := ⟨fuel - 1, by omega⟩
    rw [write]
    rfl
  | bool b =>
    intro fuel rest hf _
    obtain ⟨fuel, rfl⟩ : ∃ f, fuel = f + 1 := ⟨fuel - 1, by omega⟩
    cases b <;> rw [write] <;> rfl
  | int h =>
    intro fuel rest hf hr
    obtain ⟨fuel, rfl⟩ : ∃ f, fuel = f + 1 := ⟨fuel - 1, by omega⟩
    rw [write]
    exact scanValue_int h fuel hr
  | float h =>
    intro fuel rest hf hr
    obtain ⟨fuel, rfl⟩ : ∃ f, fuel = f + 1 := ⟨fuel - 1, by omega⟩
    rw [write]
    exact scanValue_float h fuel hr
  | str s =>
    intro fuel rest hf _
    obtain ⟨fuel, rfl⟩ : ∃ f, fuel = f + 1 := ⟨fuel - 1, by omega⟩
    rw [write, stringText_append, scanValue]
    simp only [scanString_rest, String.ofList_toList]
  | @arr xs hh ih =>
    intro fuel rest hf _
    obtain ⟨fuel, rfl⟩ : ∃ f, fuel = f + 1 := ⟨fuel - 1, by omega⟩
    rw [write] at hf ⊢
    rw [List.length_cons] at hf
    cases xs with
    | nil =>
      rw [writeItems]
      rfl
    | cons x xs =>
      have hitems := scanItems_write hsep hh ih [] (show _ < fuel by omega) rest
      obtain ⟨c, cs, he, hc⟩ := writeItems_opens sep hh
      rw [List.nil_append, he, List.cons_append] at hitems
      rw [he, List.cons_append, List.cons_append, scanValue, skipSpace_opens hc]
      · split
        · rename_i heq
          exact absurd (List.cons.inj heq).1 hc.2.2.2.2.1
        · exact hitems
  | @obj fs hk hh ih =>
    intro fuel rest hf _
    obtain ⟨fuel, rfl⟩ : ∃ f, fuel = f + 1 := ⟨fuel - 1, by omega⟩
    rw [write] at hf ⊢
    rw [List.length_cons] at hf
    cases fs with
    | nil =>
      rw [writeFields]
      rfl
    | cons f fs =>
      have hfields := scanFields_write hsep hh ih [] hk (show _ < fuel by omega) rest
      obtain ⟨cs, he⟩ := writeFields_quote sep f fs
      rw [List.nil_append, he, List.cons_append] at hfields
      rw [he, List.cons_append, List.cons_append, scanValue, skipSpace_opens (by decide)]
      exact hfields

end

/-- **Round trip.** `json.loads(json.dumps(value)) = value`. -/
theorem loads_write {sep : Separators} (hsep : sep.Spaced) {j : Json} (h : Held j) :
    loads (dumps sep j) = .ok j := by
  have hread := scanValue_write hsep h ((write sep j).length + 1) [] (by omega)
    (by simp [Stops])
  have hspace := skipSpace_write sep h []
  rw [List.append_nil] at hread hspace
  unfold loads rawDecode dumps
  rw [String.toList_ofList, hspace, hread]
  rfl

end JsonText
