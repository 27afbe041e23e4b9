import Northstack.Adapters.ResponseParsing
import Northstack.Core.Utf8Stream

/-!
# Server-sent events

Mirrors `_split_stream_lines`, `_utf8_stream_lines` and `_sse_events`
(adapters/providers/gateway.py:718-787). A response is the list of the chunks
its `aiter_bytes` gives; a generator is what it yields and what it then raises.

**Result.** `streamLines_chunks`: for valid UTF-8 the lines are those of the
text, however the bytes are cut.
-/
namespace Northstack

namespace EventStream

open Utf8Stream

abbrev Line := List Char

/-- `"UnicodeDecodeError"`, what `json.loads` raises, and `"TypeError"` of a
payload that is no object. -/
inductive Raised where
  | unicodeDecode
  | json (error : JsonText.JsonError)
  | notAnObject

/-- What an asynchronous generator yields, and what it raises at the end. -/
structure Yields (α : Type) where
  items : List α
  raised : Option Raised := none

variable {α : Type}

/-- `for x in xs: yield x`, before the rest. -/
def Yields.after (xs : List α) (y : Yields α) : Yields α := { y with items := xs ++ y.items }

/-! ## Lines -/

/-- `lines.append(text[start:index])`, before the rest. -/
def startLine (seg : Line) (r : List Line × Line) : List Line × Line := (seg :: r.1, r.2)

/-- The loop of `_split_stream_lines` from `index` on, where `seg` is
`text[start:index]`. -/
def splitFrom (final : Bool) (seg : Line) : List Char → List Line × Line
  | [] => if final && !seg.isEmpty then ([seg], []) else ([], seg)
  | '\n' :: cs => startLine seg (splitFrom final [] cs)
  | ['\r'] => if final then ([seg], []) else ([], seg ++ ['\r'])
  | '\r' :: '\n' :: cs => startLine seg (splitFrom final [] cs)
  | '\r' :: c :: cs => startLine seg (splitFrom final [] (c :: cs))
  | c :: cs => splitFrom final (seg ++ [c]) cs

attribute [local simp] splitFrom

/-- `_split_stream_lines` (gateway.py:728-748) -/
def splitStreamLines (text : List Char) (final : Bool) : List Line × Line := splitFrom final [] text

/-- The loop of `_utf8_stream_lines` over the chunks. -/
def linesFrom (decoder : Decoder) (buffered : List Char) : List (List UInt8) → Yields Line
  | [] =>
    match decoder.decode [] true with
    | none => { items := [], raised := some .unicodeDecode }
    | some (said, _) => { items := (splitStreamLines (buffered ++ said) true).1 }
  | chunk :: chunks =>
    match decoder.decode chunk false with
    | none => { items := [], raised := some .unicodeDecode }
    | some (said, decoder) =>
      let (lines, buffered) := splitStreamLines (buffered ++ said) false
      (linesFrom decoder buffered chunks).after lines

/-- `_utf8_stream_lines` (gateway.py:751-760) -/
def utf8StreamLines (chunks : List (List UInt8)) : Yields Line := linesFrom {} [] chunks

/-! ## Events -/

abbrev Event := String × Option Fields

/-- `_sse_payload` (gateway.py:718-725) -/
def ssePayload (dataLines : List String) : Except Raised (Option Fields) :=
  let raw := PyText.join "\n" dataLines
  if raw = "[DONE]" then .ok none
  else
    match JsonText.loads raw with
    | .error e => .error (.json e)
    | .ok (.obj payload) => .ok (some payload)
    | .ok _ => .error .notAnObject

/-- `event_name` and `data_lines`. -/
structure Pending where
  eventName : String := ""
  dataLines : List String := []

/-- The event of the gathered lines, if there are any. -/
def Pending.event (p : Pending) : Except Raised (List Event) :=
  if p.dataLines.isEmpty then .ok []
  else (ssePayload p.dataLines).map fun payload => [(p.eventName, payload)]

/-- `line[len(field):].strip()` -/
def fieldValue (field line : Line) : String :=
  PyText.strip (String.ofList (line.drop field.length))

/-- The body of the loop of `_sse_events`; an event leaves nothing behind it. -/
def onLine (p : Pending) (line : Line) : Except Raised (List Event × Pending) :=
  if line.isEmpty then
    p.event.map fun events => (events, if p.dataLines.isEmpty then p else {})
  else if ":".toList.isPrefixOf line then .ok ([], p)
  else if "event:".toList.isPrefixOf line then
    .ok ([], { p with eventName := fieldValue "event:".toList line })
  else if "data:".toList.isPrefixOf line then
    .ok ([], { p with dataLines := p.dataLines ++ [fieldValue "data:".toList line] })
  else .ok ([], p)

/-- The loop of `_sse_events` over the lines, and what is gathered at their end. -/
def eventsFrom (p : Pending) (raised : Option Raised) : List Line → Yields Event
  | [] =>
    match raised with
    | some e => { items := [], raised := some e }
    | none =>
      match p.event with
      | .error e => { items := [], raised := some e }
      | .ok events => { items := events }
  | line :: lines =>
    match onLine p line with
    | .error e => { items := [], raised := some e }
    | .ok (events, p) => (eventsFrom p raised lines).after events

/-- `_sse_events` (gateway.py:763-787) -/
def sseEvents (chunks : List (List UInt8)) : Yields Event :=
  eventsFrom {} (utf8StreamLines chunks).raised (utf8StreamLines chunks).items

/-! ## The lines of a text -/

/-- A text with `\r\n` and `\r` read as `\n`. -/
def lineFeeds : List Char → List Char
  | [] => []
  | '\r' :: '\n' :: cs => '\n' :: lineFeeds cs
  | '\r' :: cs => '\n' :: lineFeeds cs
  | c :: cs => c :: lineFeeds cs

/-- What stands between the line feeds, and behind the last one if there is
anything. -/
def dropLastEmpty (parts : List Line) : List Line :=
  if parts.getLast? = some [] then parts.dropLast else parts

/-- The text split at LF, CR and CRLF. -/
def textLines (text : List Char) : List Line := dropLastEmpty ((lineFeeds text).splitOn '\n')

/-! ## Splitting -/

/-- No line ends in it. -/
def Plain (s : Line) : Prop := '\n' ∉ s ∧ '\r' ∉ s

variable {final : Bool} {seg s : Line} {cs more : List Char} {c : Char}

theorem Plain.nil : Plain [] := ⟨by simp, by simp⟩

theorem Plain.concat (h : Plain seg) (hn : c ≠ '\n') (hr : c ≠ '\r') : Plain (seg ++ [c]) := by
  constructor
  · simpa using ⟨h.1, hn.symm⟩
  · simpa using ⟨h.2, hr.symm⟩

theorem splitFrom_cons (hn : c ≠ '\n') (hr : c ≠ '\r') :
    splitFrom final seg (c :: cs) = splitFrom final (seg ++ [c]) cs := by
  rw [splitFrom]
  · exact hn
  · intro h
    exact absurd h hr
  · intro _ h
    exact absurd h hr
  · intro _ _ h
    exact absurd h hr

theorem splitFrom_plain (h : Plain s) :
    splitFrom final seg (s ++ cs) = splitFrom final (seg ++ s) cs := by
  induction s generalizing seg with
  | nil => rw [List.nil_append, List.append_nil]
  | cons c s ih =>
    obtain ⟨hn, hr⟩ := h
    rw [List.mem_cons, not_or] at hn hr
    rw [List.cons_append, splitFrom_cons (Ne.symm hn.1) (Ne.symm hr.1), ih ⟨hn.2, hr.2⟩,
      List.append_assoc, List.singleton_append]

theorem splitFrom_cr (h : c ≠ '\n') : splitFrom final seg ('\r' :: c :: cs) =
    startLine seg (splitFrom final [] (c :: cs)) := by
  rw [splitFrom]
  exact h

theorem ne_cr (hlast : c = '\r' → cs = [] → False)
    (hnext : ∀ d ds, c = '\r' → cs = d :: ds → False) : c ≠ '\r' := by
  intro h
  cases cs with
  | nil => exact hlast h rfl
  | cons d ds => exact hnext d ds h rfl

/-- **Splitting in pieces.** The lines of a text are the lines of its first piece,
and then those of the remainder and the second one. -/
theorem splitFrom_append (cs more : List Char) (hseg : Plain seg) :
    splitFrom final seg (cs ++ more) =
      ((splitFrom false seg cs).1 ++ (splitFrom final [] ((splitFrom false seg cs).2 ++ more)).1,
        (splitFrom final [] ((splitFrom false seg cs).2 ++ more)).2) := by
  fun_induction splitFrom false seg cs with
  | case1 seg h => simp at h
  | case2 seg _ => simp [splitFrom_plain hseg]
  | case3 seg cs ih =>
    rw [List.cons_append, splitFrom, ih Plain.nil]
    rfl
  | case4 seg h => simp at h
  | case5 seg _ =>
    -- the carriage return is held back with its line
    simp [splitFrom_plain hseg]
  | case6 seg cs ih =>
    rw [List.cons_append, List.cons_append, splitFrom, ih Plain.nil]
    rfl
  | case7 seg c cs hn ih =>
    rw [List.cons_append, List.cons_append, splitFrom_cr hn, ← List.cons_append, ih Plain.nil]
    rfl
  | case8 seg c cs hn hlast _ hnext ih =>
    have hr := ne_cr hlast hnext
    rw [List.cons_append, splitFrom_cons hn hr, ih (hseg.concat hn hr)]

/-- What is left over holds no whole line. -/
theorem dropLastEmpty_cons {parts : List Line} (h : parts ≠ []) :
    dropLastEmpty (seg :: parts) = seg :: dropLastEmpty parts := by
  unfold dropLastEmpty
  obtain ⟨part, parts, rfl⟩ := List.exists_cons_of_ne_nil h
  rw [List.getLast?_cons_cons]
  split
  · rfl
  · rfl

theorem textLines_start (h : Plain seg) :
    dropLastEmpty ((seg ++ '\n' :: lineFeeds cs).splitOn '\n') = seg :: textLines cs := by
  rw [List.splitOn_append_cons_self_of_not_mem h.1, dropLastEmpty_cons (List.splitOn_ne_nil _ _)]
  rfl

theorem lineFeeds_cons (hr : c ≠ '\r') : lineFeeds (c :: cs) = c :: lineFeeds cs := by
  rw [lineFeeds]
  · intro _ h
    exact absurd h hr
  · exact hr

theorem lineFeeds_cr (hn : c ≠ '\n') :
    lineFeeds ('\r' :: c :: cs) = '\n' :: lineFeeds (c :: cs) := by
  rw [lineFeeds]
  intro _ h
  exact absurd (List.cons.inj h).1 hn

/-- At the end of the stream the lines are those of the text. -/
theorem splitFrom_final (hseg : Plain seg) :
    (splitFrom true seg cs).1 = dropLastEmpty ((seg ++ lineFeeds cs).splitOn '\n') := by
  fun_induction splitFrom true seg cs with
  | case1 seg h =>
    have hne : seg ≠ [] := by simpa using h
    rw [lineFeeds, List.append_nil, List.splitOn_eq_singleton hseg.1]
    simp [dropLastEmpty, hne]
  | case2 seg h =>
    have hempty : seg = [] := by simpa using h
    subst hempty
    rfl
  | case3 seg cs ih =>
    rw [lineFeeds_cons (by decide), textLines_start hseg]
    exact congrArg _ (ih Plain.nil)
  | case4 seg h =>
    rw [show lineFeeds ['\r'] = '\n' :: lineFeeds [] from rfl, textLines_start hseg]
    rfl
  | case5 seg h => exact absurd rfl h
  | case6 seg cs ih =>
    rw [lineFeeds, textLines_start hseg]
    exact congrArg _ (ih Plain.nil)
  | case7 seg c cs hn ih =>
    rw [lineFeeds_cr hn, textLines_start hseg]
    exact congrArg _ (ih Plain.nil)
  | case8 seg c cs hn hlast _ hnext ih =>
    have hr := ne_cr hlast hnext
    rw [lineFeeds_cons hr, ih (hseg.concat hn hr), List.append_assoc, List.singleton_append]

/-! ## Chunks -/

variable {chunks : List (List UInt8)}

/-- **The lines of chunks.** What is buffered and the chunks to come are split as
the text they make up. -/
theorem linesFrom_bytes (decoder : Decoder) (buffered : List Char)
    (h : decoder.buffer ++ chunks.flatten = bytes cs) :
    linesFrom decoder buffered chunks =
      { items := (splitStreamLines (buffered ++ cs) true).1 } := by
  induction chunks generalizing decoder buffered cs with
  | nil =>
    rw [List.flatten_nil, List.append_nil] at h
    rw [linesFrom, Decoder.decode_final h]
  | cons chunk chunks ih =>
    rw [List.flatten_cons] at h
    obtain ⟨said, left, decoder', hdecode, rfl, hleft⟩ := Decoder.decode_prefix h
    rw [linesFrom, hdecode]
    dsimp only
    rw [ih _ _ hleft]
    unfold splitStreamLines Yields.after
    rw [← List.append_assoc buffered said left,
      splitFrom_append (buffered ++ said) left Plain.nil]

/-- **Lines.** For valid UTF-8, however it is cut into chunks, the lines are those
of the single chunk, which are the text split at LF, CR and CRLF, and the events
are those of the single chunk. -/
theorem streamLines_chunks (h : chunks.flatten = bytes cs) :
    utf8StreamLines chunks = { items := textLines cs } ∧
      utf8StreamLines chunks = utf8StreamLines [chunks.flatten] ∧
      sseEvents chunks = sseEvents [chunks.flatten] := by
  have hlines : ∀ chunks : List (List UInt8), chunks.flatten = bytes cs →
      utf8StreamLines chunks = { items := textLines cs } := by
    intro chunks h
    unfold utf8StreamLines
    rw [linesFrom_bytes {} [] h, List.nil_append]
    unfold splitStreamLines
    rw [splitFrom_final Plain.nil]
    rfl
  have hone : utf8StreamLines chunks = utf8StreamLines [chunks.flatten] := by
    rw [hlines chunks h, hlines [chunks.flatten] (by simpa using h)]
  refine ⟨hlines chunks h, hone, ?_⟩
  unfold sseEvents
  rw [hone]

/-- Two lines, cut inside a code point, between CR and LF, and with an empty
chunk. -/
theorem streamLines_chunks_cut :
    utf8StreamLines [[0xC3], [], [0xA9, 0x0D], [0x0A, 0x62]] = { items := [['é'], ['b']] } ∧
      sseEvents [[0xC3], [], [0xA9, 0x0D], [0x0A, 0x62]] =
        sseEvents [[0xC3, 0xA9, 0x0D, 0x0A, 0x62]] := by
  have h := @streamLines_chunks ['é', '\r', '\n', 'b'] [[0xC3], [], [0xA9, 0x0D], [0x0A, 0x62]]
    (by decide +kernel)
  exact ⟨h.1, h.2.2⟩

end EventStream

end Northstack
