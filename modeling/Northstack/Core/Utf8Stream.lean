import Mathlib

/-!
# UTF-8 in pieces

An incremental decoder of UTF-8, as `codecs.getincrementaldecoder("utf-8")` with
`errors="strict"` is one. A piece is decoded behind what is left of the pieces
before it; at the end of a piece that is not the last one, bytes that begin a
character are kept, and bytes that begin none are an error.

**Results.** `Decoder.decode_prefix`: of a piece of the encoding of a text the
decoder returns a piece of the text, and keeps what belongs to the rest;
`Decoder.decode_final`: at the end it has returned the whole text.
-/
namespace Utf8Stream

/-- The bytes of a text. -/
def bytes (cs : List Char) : List UInt8 := cs.flatMap String.utf8EncodeChar

/-- The second bytes that may follow a first one of three or four. -/
def isSecond (lead b : UInt8) : Bool :=
  (if lead.toNat = 0xE0 then 0xA0 else if lead.toNat = 0xF0 then 0x90 else 0x80) ≤ b.toNat &&
    b.toNat ≤ (if lead.toNat = 0xED then 0x9F else if lead.toNat = 0xF4 then 0x8F else 0xBF)

def isContinuation (b : UInt8) : Bool := 0x80 ≤ b.toNat && b.toNat ≤ 0xBF

/-- Bytes that end in the middle of a character. -/
def truncated : List UInt8 → Bool
  | [a] => 0xC2 ≤ a.toNat && a.toNat ≤ 0xF4
  | [a, b] => 0xE0 ≤ a.toNat && a.toNat ≤ 0xF4 && isSecond a b
  | [a, b, c] => 0xF0 ≤ a.toNat && a.toNat ≤ 0xF4 && isSecond a b && isContinuation c
  | _ => false

/-- `_buffer_decode(data, "strict", final)`: the text, and the bytes it does not
consume; `none` if it raises. -/
def decodeBuffer (final : Bool) : List UInt8 → Option (List Char × List UInt8)
  | [] => some ([], [])
  | b :: bs =>
    match (b :: bs).toByteArray.utf8DecodeChar? 0 with
    | some c => (decodeBuffer final (bs.drop (c.utf8Size - 1))).map fun r => (c :: r.1, r.2)
    | none => if truncated (b :: bs) && !final then some ([], b :: bs) else none
termination_by bs => bs.length
decreasing_by
  all_goals simp

/-- The decoder: what it has not consumed so far. -/
structure Decoder where
  buffer : List UInt8 := []

/-- `decoder.decode(input, final)` -/
def Decoder.decode (d : Decoder) (input : List UInt8) (final : Bool) :
    Option (List Char × Decoder) :=
  (decodeBuffer final (d.buffer ++ input)).map fun r => (r.1, ⟨r.2⟩)

variable {c d : Char} {cs : List Char} {bs rest p : List UInt8} {final : Bool}

@[simp] theorem bytes_nil : bytes [] = [] := rfl

@[simp] theorem bytes_cons : bytes (c :: cs) = String.utf8EncodeChar c ++ bytes cs :=
  List.flatMap_cons

/-! ## One character -/

theorem decodeChar_append :
    (String.utf8EncodeChar c ++ rest).toByteArray.utf8DecodeChar? 0 = some c := by
  rw [List.toByteArray_append]
  exact ByteArray.utf8DecodeChar?_utf8EncodeChar_append

theorem exists_of_decodeChar (h : bs.toByteArray.utf8DecodeChar? 0 = some c) :
    ∃ rest, bs = String.utf8EncodeChar c ++ rest := by
  obtain ⟨l, hl⟩ := ByteArray.exists_of_utf8DecodeChar?_eq_some h
  refine ⟨l.data.toList, List.toByteArray_inj.mp ?_⟩
  rw [hl, List.toByteArray_append]
  congr 1
  ext1
  simp

/-- What is cut off inside a character is no character. -/
theorem decodeChar_part (h : p ++ rest = String.utf8EncodeChar c) (hrest : rest ≠ []) :
    p.toByteArray.utf8DecodeChar? 0 = none := by
  cases hd : p.toByteArray.utf8DecodeChar? 0 with
  | none => rfl
  | some d =>
    obtain ⟨more, rfl⟩ := exists_of_decodeChar hd
    have hc : (String.utf8EncodeChar c ++ []).toByteArray.utf8DecodeChar? 0 = some d := by
      rw [List.append_nil, ← h, List.append_assoc]
      exact decodeChar_append
    rw [decodeChar_append, Option.some.injEq] at hc
    subst hc
    have hlen := congrArg List.length h
    simp only [List.length_append] at hlen
    exact absurd (List.length_eq_zero_iff.mp (by omega)) hrest

/-- What is cut off inside a character begins one. -/
theorem truncated_part (h : p ++ rest = String.utf8EncodeChar c) (hrest : rest ≠ [])
    (hp : p ≠ []) : truncated p = true := by
  have hvalid := c.valid
  simp only [UInt32.isValidChar, Nat.isValidChar] at hvalid
  obtain ⟨z, rest, rfl⟩ := List.exists_cons_of_ne_nil hrest
  obtain ⟨a, p, rfl⟩ := List.exists_cons_of_ne_nil hp
  unfold String.utf8EncodeChar at h
  dsimp only at h
  generalize c.val.toNat = v at h hvalid
  rcases p with _ | ⟨b, _ | ⟨d, _ | ⟨e, p⟩⟩⟩
  · simp only [truncated, Bool.and_eq_true, decide_eq_true_eq]
    split at h
    · simp at h
    · split at h
      · simp only [List.cons_append, List.cons.injEq] at h
        rw [h.1, UInt8.toNat_ofNat']
        omega
      · split at h
        · simp only [List.cons_append, List.cons.injEq] at h
          rw [h.1, UInt8.toNat_ofNat']
          omega
        · simp only [List.cons_append, List.cons.injEq] at h
          rw [h.1, UInt8.toNat_ofNat']
          omega
  · simp only [truncated, isSecond, Bool.and_eq_true, decide_eq_true_eq]
    split at h
    · simp at h
    · split at h
      · simp at h
      · split at h
        · simp only [List.cons_append, List.cons.injEq] at h
          rw [h.1, h.2.1, UInt8.toNat_ofNat', UInt8.toNat_ofNat']
          split_ifs <;> omega
        · simp only [List.cons_append, List.cons.injEq] at h
          rw [h.1, h.2.1, UInt8.toNat_ofNat', UInt8.toNat_ofNat']
          split_ifs <;> omega
  · simp only [truncated, isSecond, isContinuation, Bool.and_eq_true, decide_eq_true_eq]
    split at h
    · simp at h
    · split at h
      · simp at h
      · split at h
        · simp at h
        · simp only [List.cons_append, List.cons.injEq] at h
          rw [h.1, h.2.1, h.2.2.1, UInt8.toNat_ofNat', UInt8.toNat_ofNat', UInt8.toNat_ofNat']
          split_ifs <;> omega
  · split at h
    · simp at h
    · split at h
      · simp at h
      · split at h
        · simp at h
        · simp at h

/-! ## A piece -/

theorem decodeBuffer_char : decodeBuffer final (String.utf8EncodeChar c ++ bs) =
    (decodeBuffer final bs).map fun r => (c :: r.1, r.2) := by
  have hlen := String.length_utf8EncodeChar c
  have hchar : (String.utf8EncodeChar c ++ bs).toByteArray.utf8DecodeChar? 0 = some c :=
    decodeChar_append
  cases henc : String.utf8EncodeChar c with
  | nil =>
    rw [henc] at hlen
    exact absurd hlen.symm c.utf8Size_pos.ne'
  | cons b p =>
    rw [henc, List.cons_append] at hchar
    rw [henc, List.length_cons] at hlen
    rw [List.cons_append, decodeBuffer, hchar]
    dsimp only
    have hdrop : (p ++ bs).drop (c.utf8Size - 1) = bs := by
      rw [← hlen]
      exact List.drop_left
    rw [hdrop]

theorem decodeBuffer_part (h : p ++ rest = String.utf8EncodeChar c) (hrest : rest ≠ []) :
    decodeBuffer false p = some ([], p) := by
  cases p with
  | nil => rw [decodeBuffer]
  | cons b p =>
    have hnone := decodeChar_part h hrest
    have htruncated := truncated_part h hrest (by simp)
    rw [decodeBuffer, hnone]
    simp [htruncated]

/-- **One piece.** Of an initial part of the encoding of a text the decoder
returns an initial part of the text; what it keeps and what is to come encode the
rest. -/
theorem decodeBuffer_prefix (h : bs ++ rest = bytes cs) :
    ∃ said left kept, decodeBuffer false bs = some (said, kept) ∧ cs = said ++ left ∧
      kept ++ rest = bytes left := by
  induction cs generalizing bs with
  | nil =>
    obtain ⟨rfl, rfl⟩ := List.append_eq_nil_iff.mp h
    exact ⟨[], [], [], by rw [decodeBuffer], rfl, rfl⟩
  | cons c cs ih =>
    rw [bytes_cons] at h
    have hchar : ∀ more, bs = String.utf8EncodeChar c ++ more → more ++ rest = bytes cs →
        ∃ said left kept, decodeBuffer false bs = some (said, kept) ∧ c :: cs = said ++ left ∧
          kept ++ rest = bytes left := by
      intro more hbs hmore
      obtain ⟨said, left, kept, hdecode, hcs, hkept⟩ := ih hmore
      refine ⟨c :: said, left, kept, ?_, by rw [hcs, List.cons_append], hkept⟩
      rw [hbs, decodeBuffer_char, hdecode]
      rfl
    rcases List.append_eq_append_iff.mp h with ⟨more, henc, hrest⟩ | ⟨more, hbs, hmore⟩
    · by_cases hempty : more = []
      · subst hempty
        rw [List.append_nil] at henc
        rw [List.nil_append] at hrest
        exact hchar [] (by rw [henc, List.append_nil]) hrest
      · exact ⟨[], c :: cs, bs, decodeBuffer_part henc.symm hempty, rfl, by rw [bytes_cons, h]⟩
    · exact hchar more hbs hmore.symm

theorem decodeBuffer_bytes : decodeBuffer true (bytes cs) = some (cs, []) := by
  induction cs with
  | nil => rw [bytes_nil, decodeBuffer]
  | cons c cs ih =>
    rw [bytes_cons, decodeBuffer_char, ih]
    rfl

variable {dec : Decoder} {input : List UInt8}

/-- A piece that is not the last one. -/
theorem Decoder.decode_prefix (h : dec.buffer ++ (input ++ rest) = bytes cs) :
    ∃ said left dec', dec.decode input false = some (said, dec') ∧ cs = said ++ left ∧
      dec'.buffer ++ rest = bytes left := by
  rw [← List.append_assoc] at h
  obtain ⟨said, left, kept, hdecode, hcs, hkept⟩ := decodeBuffer_prefix h
  refine ⟨said, left, ⟨kept⟩, ?_, hcs, hkept⟩
  rw [decode, hdecode]
  rfl

/-- The end of the stream. -/
theorem Decoder.decode_final (h : dec.buffer = bytes cs) :
    dec.decode [] true = some (cs, {}) := by
  rw [decode, List.append_nil, h, decodeBuffer_bytes]
  rfl

end Utf8Stream
