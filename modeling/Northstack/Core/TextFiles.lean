import Mathlib

/-!
# Text files

What `read_text` and `encode` of the source language do to a file in UTF-8: the
bytes are decoded strictly, every line ending is read as one line feed, and what
is written back is encoded as it stands. A text is a list of code points, lone
surrogates among them, for these a program may hold and no file.

**Results.** `decode?_eq_some`: decoding and encoding undo each other;
`universalNewlines_eq_self` and `carriageReturn_notMem`: reading leaves a text
alone when it holds no carriage return, and holds none when it is done.
-/
namespace TextFiles

/-- A code point of a `str`: a Unicode scalar value or a lone surrogate. -/
inductive CodePoint where
  | scalar (c : Char)
  | surrogate (n : Fin 2048)
  deriving DecidableEq

abbrev Text := List CodePoint

instance : LawfulBEq Text := inferInstance

def CodePoint.scalar? : CodePoint → Option Char
  | .scalar c => some c
  | .surrogate _ => none

/-- The number of a code point, by which texts are ordered. -/
def CodePoint.value : CodePoint → Nat
  | .scalar c => c.toNat
  | .surrogate n => 0xD800 + n.val

/-- A literal of the source. -/
def text (s : String) : Text := s.toList.map .scalar

/-- `s.encode("utf-8")`; it raises at a surrogate. -/
def encode? (s : Text) : Option ByteArray :=
  (s.mapM CodePoint.scalar?).map fun cs => (String.ofList cs).toUTF8

/-- `b.decode("utf-8")`; it raises at what is not UTF-8. -/
def decode? (b : ByteArray) : Option Text :=
  b.utf8Decode?.map fun cs => cs.toList.map .scalar

/-- The line endings of a text read with `newline=None`. -/
def universalNewlines : Text → Text
  | [] => []
  | .scalar '\r' :: .scalar '\n' :: s => .scalar '\n' :: universalNewlines s
  | .scalar '\r' :: s => .scalar '\n' :: universalNewlines s
  | c :: s => c :: universalNewlines s

/-- The code point read as a line ending, alone or before a line feed. -/
def carriageReturn : CodePoint := .scalar '\r'

variable {s t : Text} {b : ByteArray} {cs : List Char}

theorem CodePoint.value_injective : Function.Injective CodePoint.value := by
  intro c d h
  cases c with
  | scalar c =>
    cases d with
    | scalar d => exact congrArg _ (Char.toNat_inj.mp h)
    | surrogate n =>
      -- no character is a surrogate
      have hvalid := c.valid
      have hval : c.val.toNat = 0xD800 + n.val := h
      simp only [UInt32.isValidChar, Nat.isValidChar] at hvalid
      omega
  | surrogate m =>
    cases d with
    | scalar d =>
      have hvalid := d.valid
      have hval : 0xD800 + m.val = d.val.toNat := h
      simp only [UInt32.isValidChar, Nat.isValidChar] at hvalid
      omega
    | surrogate n =>
      have hval : 0xD800 + m.val = 0xD800 + n.val := h
      exact congrArg _ (Fin.ext (by omega))

/-! ## Encoding -/

theorem mapM_scalar? : s.mapM CodePoint.scalar? = some cs ↔ s = cs.map .scalar := by
  induction s generalizing cs with
  | nil => simp [eq_comm]
  | cons c s ih =>
    cases c with
    | surrogate n => cases cs <;> simp [CodePoint.scalar?]
    | scalar c =>
      simp only [List.mapM_cons, CodePoint.scalar?, Option.pure_def, Option.bind_eq_bind,
        Option.bind_some, Option.bind_eq_some_iff, Option.some.injEq]
      constructor
      · rintro ⟨ds, hds, rfl⟩
        rw [ih.mp hds, List.map_cons]
      · intro h
        cases cs with
        | nil => cases h
        | cons d ds =>
          obtain ⟨rfl, rfl⟩ := by simpa using h
          exact ⟨ds, ih.mpr rfl, rfl⟩

theorem encode?_eq_some :
    encode? s = some b ↔ ∃ cs : List Char, s = cs.map .scalar ∧ cs.utf8Encode = b := by
  unfold encode?
  simp [mapM_scalar?, String.toByteArray_ofList]

theorem decode?_eq_some : decode? b = some s ↔ encode? s = some b := by
  rw [encode?_eq_some]
  unfold decode?
  simp only [Option.map_eq_some_iff]
  constructor
  · rintro ⟨cs, hcs, rfl⟩
    refine ⟨cs.toList, rfl, ?_⟩
    have hvalid : b.utf8Decode?.isSome := by rw [hcs]; rfl
    have hget := ByteArray.utf8Encode_get_utf8Decode? (h := hvalid)
    simpa [hcs] using hget
  · rintro ⟨cs, rfl, rfl⟩
    exact ⟨cs.toArray, List.utf8Decode?_utf8Encode, rfl⟩

theorem encode?_append : encode? (s ++ t) =
    (encode? s).bind fun a => (encode? t).map fun b => a ++ b := by
  unfold encode?
  rw [List.mapM_append]
  cases s.mapM CodePoint.scalar? with
  | none => rfl
  | some cs =>
    cases t.mapM CodePoint.scalar? with
    | none => rfl
    | some ds => simp

theorem decode?_text (str : String) : decode? str.toUTF8 = some (text str) := by
  rw [decode?_eq_some, encode?_eq_some]
  exact ⟨str.toList, rfl, String.utf8Encode_toList⟩

theorem encode?_inj (hs : encode? s = some b) (ht : encode? t = some b) : s = t := by
  rw [← decode?_eq_some] at hs ht
  exact Option.some.inj (hs.symm.trans ht)

/-- The only character whose encoding holds a zero byte is NUL. -/
theorem zero_notMem_utf8EncodeChar {c : Char} (hc : c.toNat ≠ 0) :
    (0 : UInt8) ∉ String.utf8EncodeChar c := by
  have hbyte (n : Nat) (hn : n % 256 ≠ 0) : (0 : UInt8) ≠ UInt8.ofNat n := by
    intro h
    apply hn
    have hnat := congrArg UInt8.toNat h
    simpa [eq_comm] using hnat
  have hval : c.val.toNat ≠ 0 := hc
  unfold String.utf8EncodeChar
  dsimp only
  split
  · simp only [List.mem_singleton]
    exact hbyte _ (by omega)
  split
  · simp only [List.mem_cons, List.not_mem_nil, or_false, not_or]
    exact ⟨hbyte _ (by omega), hbyte _ (by omega)⟩
  split
  · simp only [List.mem_cons, List.not_mem_nil, or_false, not_or]
    exact ⟨hbyte _ (by omega), hbyte _ (by omega), hbyte _ (by omega)⟩
  · simp only [List.mem_cons, List.not_mem_nil, or_false, not_or]
    exact ⟨hbyte _ (by omega), hbyte _ (by omega), hbyte _ (by omega), hbyte _ (by omega)⟩

/-- A text without NUL is encoded without zero bytes. -/
theorem zero_notMem_encode? (h : encode? s = some b)
    (hs : ∀ c : Char, .scalar c ∈ s → c.toNat ≠ 0) : (0 : UInt8) ∉ b.data.toList := by
  obtain ⟨cs, rfl, rfl⟩ := encode?_eq_some.mp h
  unfold List.utf8Encode
  rw [List.toList_data_toByteArray, List.mem_flatMap]
  rintro ⟨c, hc, hzero⟩
  exact zero_notMem_utf8EncodeChar (hs c (List.mem_map.mpr ⟨c, hc, rfl⟩)) hzero

/-! ## Line endings -/

theorem universalNewlines_eq_self (h : carriageReturn ∉ s) : universalNewlines s = s := by
  fun_induction universalNewlines s with
  | case1 => rfl
  | case2 s ih => exact absurd (List.mem_cons_self) h
  | case3 s _ ih => exact absurd (List.mem_cons_self) h
  | case4 c s _ _ ih => rw [ih fun hs => h (List.mem_cons_of_mem _ hs)]

theorem carriageReturn_notMem (s : Text) : carriageReturn ∉ universalNewlines s := by
  fun_induction universalNewlines s with
  | case1 => simp
  | case2 s ih => simp [carriageReturn] at ih ⊢; exact ih
  | case3 s _ ih => simp [carriageReturn] at ih ⊢; exact ih
  | case4 c s _ hcr ih =>
    rw [List.mem_cons, not_or]
    exact ⟨fun hc => hcr hc.symm, ih⟩

end TextFiles
