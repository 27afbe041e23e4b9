import Northstack.Application.Contracting
import Northstack.Application.JsonExtraction
import Northstack.Core.DataText
import Northstack.Core.JsonValues
import Northstack.Domain.SecretsPolicy

/-!
# Falsifying a contract

Mirrors `ModelBackedFalsifier.check` and `_parse` (application/falsification.py).
The gateway either raises or answers with a text; `str` of a value that is not a
text is `Data.repr`, which needs `str.isprintable`. Of the letters with an ASCII
lower case only the ASCII ones matter for the four words of no objection.

**Results.**
* `candidate_spec`: what of a reply that carries an object is decoded.
* `check_iff`: which replies get the answer their object stands for.
-/
namespace Data

mutual

/-- A decoded JSON value as a value of the program. -/
def ofJson : Json → Data
  | .null => .null
  | .bool b => .bool b
  | .int i => .int i
  | .float x => .float x
  | .str s => .str (TextFiles.text s)
  | .arr xs => .list (ofItems xs)
  | .obj fields => .dict (ofFields fields)

def ofItems : List Json → List Data
  | [] => []
  | x :: xs => ofJson x :: ofItems xs

def ofFields : List (String × Json) → List (TextFiles.Text × Data)
  | [] => []
  | (key, x) :: fields => (TextFiles.text key, ofJson x) :: ofFields fields

end

end Data

namespace Northstack

namespace Falsification

open JsonText PyText JsonExtraction

section

variable (printable : Char → Bool)

/-- `_MAX_COUNTER_CHARS` -/
def maxCounterChars : Nat := 500

/-- The answers that object to nothing (falsification.py:144). -/
def noneLike : List String := ["none", "n/a", "null", "no"]

/-- `cs[cs.find("{") : cs.rfind("}") + 1]`, if the one stands before the other. -/
def outermost (cs : List Char) : Option (List Char) :=
  match cs.findIdx? (· = '{'), (cs.reverse.findIdx? (· = '}')).map (cs.length - 1 - ·) with
  | some start, some stop => if start < stop then some ((cs.take (stop + 1)).drop start) else none
  | _, _ => none

/-- `str(parsed.get("counter_interpretation", ""))` -/
def fieldText (fields : Object) : List Char :=
  match Json.lookup "counter_interpretation" fields with
  | none => []
  | some (.str s) => s.toList
  | some x => Data.repr printable (Data.ofJson x)

/-- What is decoded of the candidate (falsification.py:129-140). -/
def decoded (candidate : List Char) : Except JsonError (List Char) :=
  match outermost candidate with
  | none => .ok []
  | some cs =>
    match loads (String.ofList cs) with
    | .ok (.obj fields) => .ok (fieldText printable fields)
    | .ok _ => .ok []
    | .error .malformed => .ok []
    | .error .tooManyDigits => .error .tooManyDigits

/-- The end of `_parse` (falsification.py:143-146). -/
def objection (counter : List Char) : Option String :=
  let normalized := stripChars counter
  if normalized = [] ∨ normalized.map lowerChar ∈ noneLike.map String.toList then none
  else some (String.ofList (normalized.take maxCounterChars))

/-- `ModelBackedFalsifier._parse` (falsification.py:117-146); the candidate is
taken out of a fence as `strip_code_fence` does. -/
def parse (text : String) : Except JsonError (Option String) :=
  if strip text = "" then .ok none
  else
    let candidate := (stripCodeFence text).toList
    match decoded printable candidate with
    | .ok counter => .ok (objection (if counter = [] then candidate else counter))
    | .error e => .error e

/-- `ModelBackedFalsifier.check` (falsification.py:85-115): no objection where the
gateway raised. -/
def check : Option String → Except JsonError (Option String)
  | none => .ok none
  | some text => parse printable text

end

/-- What the object stands for: its string, stripped and cut, unless it is empty
or none-like. -/
def verdict (fields : Object) : Option String :=
  match Json.lookup "counter_interpretation" fields with
  | some (.str s) => objection s.toList
  | _ => none

/-- The reply carries the content: as it stands, in a fence of one line behind an
info string, or (`lines`) on the lines below the opening one of a fence. -/
inductive Carries (text : String) (content : List Char) : Bool → Prop where
  | bare : stripChars text.toList = content → Carries text content false
  | inline {info close : List Char} : close = [] ∨ close = "```".toList → '{' ∉ info →
    stripChars text.toList = "```".toList ++ info ++ content ++ close →
    afterFirstLine (stripChars text.toList) = none → Carries text content false
  | block {first close : List Char} : close = [] ∨ close = "```".toList →
    Fenced text first (content ++ close) → Carries text content true

variable {printable : Char → Bool} {c : Char} {cs ds pre used post y content : List Char}
  {fields : Object} {text : String} {lines t : Bool}

/-! ## Between the braces -/

theorem findIdx_append {p : Char → Bool} (hpre : ∀ d ∈ pre, p d = false) (hc : p c = true) :
    (pre ++ c :: post).findIdx? p = some pre.length := by
  induction pre with
  | nil =>
    rw [List.nil_append, List.findIdx?_cons, hc]
    rfl
  | cons d pre ih =>
    rw [List.cons_append, List.findIdx?_cons, hpre d List.mem_cons_self,
      ih fun e he => hpre e (List.mem_cons_of_mem d he)]
    simp

theorem outermost_eq (hpre : '{' ∉ pre) (hpost : '}' ∉ post) (hopen : used.head? = some '{')
    (hclose : used.getLast? = some '}') : outermost (pre ++ (used ++ post)) = some used := by
  obtain ⟨mid, rfl⟩ : ∃ mid, used = '{' :: (mid ++ ['}']) := by
    cases used with
    | nil => cases hopen
    | cons c us =>
      obtain rfl := Option.some.inj hopen
      have hne : us ≠ [] := by
        intro hnil
        rw [hnil] at hclose
        revert hclose
        decide
      rw [List.getLast?_cons_of_ne_nil hne, List.getLast?_eq_some_iff] at hclose
      obtain ⟨mid, rfl⟩ := hclose
      exact ⟨mid, rfl⟩
  have hstart : (pre ++ ('{' :: (mid ++ ['}']) ++ post)).findIdx? (· = '{') = some pre.length := by
    rw [List.cons_append]
    refine findIdx_append (fun d hd => decide_eq_false ?_) (by decide)
    rintro rfl
    exact hpre hd
  have hstop : (pre ++ ('{' :: (mid ++ ['}']) ++ post)).reverse.findIdx? (· = '}') =
      some post.length := by
    have hrev : (pre ++ ('{' :: (mid ++ ['}']) ++ post)).reverse =
        post.reverse ++ '}' :: (mid.reverse ++ '{' :: pre.reverse) := by simp
    rw [hrev, findIdx_append (fun d hd => decide_eq_false ?_) (by decide), List.length_reverse]
    rintro rfl
    exact hpost (List.mem_reverse.mp hd)
  have hlength : (pre ++ ('{' :: (mid ++ ['}']) ++ post)).length =
      pre.length + mid.length + 2 + post.length := by
    simp only [List.length_append, List.length_cons, List.length_nil]
    omega
  unfold outermost
  rw [hstart, hstop, hlength, Option.map_some]
  dsimp only
  rw [if_pos (by omega)]
  have htake : pre.length + mid.length + 2 + post.length - 1 - post.length + 1 =
      pre.length + (mid.length + 2) := by omega
  rw [htake, List.take_length_add_append, List.drop_left']
  · congr 1
    rw [List.take_left']
    simp
  · rfl

/-! ## The content -/

/-- A decoded text is an object's and blanks around it. -/
structure Content (content w used w' : List Char) (fields : Object) : Prop where
  text : content = w ++ (used ++ w')
  before : ∀ c ∈ w, isBlank c = true
  after : ∀ c ∈ w', isBlank c = true
  opens : used.head? = some '{'
  closes : used.getLast? = some '}'
  reads : ∀ {t y} more, Image t used y → rawDecode (y ++ more) = outcome t (.obj fields) more

theorem content_of_loads (h : loads (String.ofList content) = .ok (.obj fields)) :
    ∃ w used w', Content content w used w' fields := by
  unfold loads at h
  rw [String.toList_ofList] at h
  split at h
  · cases h
  · rename_i v rest hread
    split at h
    · rename_i hrest
      cases h
      obtain ⟨used, hused, hopen, hclose, himage⟩ := rawDecode_image hread
      obtain ⟨w, hw, hblank, -⟩ := skipSpace_spec content
      obtain ⟨w', hw', hblank', -⟩ := skipSpace_spec rest
      rw [hrest, List.append_nil] at hw'
      subst hw'
      exact ⟨w, used, rest, by rw [← hused, ← hw], hblank, hblank', hopen, hclose, himage⟩
    · cases h

/-- What begins and ends with a brace. -/
def Braced (cs : List Char) : Prop := cs.head? = some '{' ∧ cs.getLast? = some '}'

theorem Braced.trimmed (h : Braced cs) : Trimmed cs := by
  constructor
  · intro c hc
    rw [h.1] at hc
    obtain rfl := Option.some.inj hc
    decide
  · intro c hc
    rw [h.2] at hc
    obtain rfl := Option.some.inj hc
    decide

theorem Braced.cons (h : Braced cs) : ∃ ds, cs = '{' :: ds := by
  obtain ⟨hopen, -⟩ := h
  cases cs with
  | nil => cases hopen
  | cons c ds =>
    obtain rfl := Option.some.inj hopen
    exact ⟨ds, rfl⟩

theorem Braced.image (h : Braced cs) (himage : Image t cs y) : Braced y := by
  constructor
  · obtain ⟨ds, rfl⟩ := h.cons
    obtain ⟨y', rfl, -⟩ := himage.cons_kept (by decide)
    rfl
  · obtain ⟨ds, rfl⟩ := List.getLast?_eq_some_iff.mp h.2
    obtain ⟨t₁, t₂, y₁, y₂, -, rfl, -, himage⟩ := himage.split
    have hbrace : JsonText.Kept '}' := by decide
    obtain ⟨-, rfl⟩ := himage.kept fun c hc => List.mem_singleton.mp hc ▸ hbrace
    exact List.getLast?_concat

variable {w w' : List Char}

theorem Content.braced (h : Content content w used w' fields) : Braced used := ⟨h.opens, h.closes⟩

theorem isSpace_of_isBlank (h : isBlank c = true) : isSpace c = true := by
  simp only [isBlank, Bool.or_eq_true, decide_eq_true_eq] at h
  rcases h with ((rfl | rfl) | rfl) | rfl <;> decide

/-- Any image of the object's text is decoded as it, unless a separator was
replaced. -/
theorem Content.loads (h : Content content w used w' fields) (himage : Image t used y) :
    JsonText.loads (String.ofList y) =
      if t then .error .malformed else .ok (.obj fields) := by
  have hread := h.reads [] himage
  rw [List.append_nil] at hread
  obtain ⟨ds, rfl⟩ := (h.braced.image himage).cons
  unfold JsonText.loads
  rw [String.toList_ofList, skipSpace_head (by decide), hread]
  unfold outcome
  cases t with
  | false => rfl
  | true => rfl

/-- The separators of the content are those of the object. -/
theorem Content.separators (h : Content content w used w' fields) (himage : Image t content y) :
    ∃ u v z, y = u ++ (v ++ z) ∧ (∀ c ∈ u, isBlank c = true) ∧ (∀ c ∈ z, isBlank c = true) ∧
      Image t used v := by
  rw [h.text] at himage
  obtain ⟨t₁, t₂, u, y', rfl, rfl, hu, himage⟩ := himage.split
  obtain ⟨t₃, t₄, v, z, rfl, rfl, hv, hz⟩ := himage.split
  obtain ⟨rfl, hublank⟩ := hu.blank h.before
  obtain ⟨rfl, hzblank⟩ := hz.blank h.after
  rw [Bool.false_or, Bool.or_false]
  exact ⟨u, v, z, rfl, hublank, hzblank, hv⟩

/-! ## The candidate -/

/-- What objects as it stands. -/
def Plain (cs : List Char) : Prop := stripChars cs = cs ∧ ∃ c ds, cs = c :: ds ∧ lowerChar c ≠ 'n'

theorem not_mem_blank (h : ∀ d ∈ cs, isBlank d = true) (hc : isBlank c = false) : c ∉ cs := by
  intro hmem
  rw [h c hmem] at hc
  cases hc

theorem Braced.plain (h : Braced cs) : Plain cs := by
  obtain ⟨ds, hcs⟩ := h.cons
  exact ⟨stripChars_trimmed h.trimmed, '{', ds, hcs, by decide⟩

theorem stripChars_idem (cs : List Char) : stripChars (stripChars cs) = stripChars cs := by
  obtain ⟨-, -, -, -, -, h⟩ := stripChars_spec cs
  exact stripChars_trimmed h

theorem removeSuffix_append (cs suffix : List Char) : removeSuffix suffix (cs ++ suffix) = cs := by
  unfold removeSuffix
  rw [if_pos]
  · simp
  · rw [List.reverse_append, List.isPrefixOf_iff_prefix]
    exact List.prefix_append _ _

/-- An image of the text stands between the outermost braces. -/
def Exposes (cs used : List Char) (t : Bool) : Prop :=
  ∃ pre y post, cs = pre ++ (y ++ post) ∧ '{' ∉ pre ∧ '}' ∉ post ∧ Image t used y

/-- No fence begins with a blank or a brace. -/
theorem not_fenced_of_head {first body : List Char}
    (h : (stripChars text.toList).head? ≠ some '`') : ¬ Fenced text first body := by
  intro hfenced
  obtain ⟨ds, hds⟩ := List.isPrefixOf_iff_prefix.mp hfenced.1
  rw [toList_strip] at hds
  rw [← hds] at h
  exact h rfl

theorem Content.head (h : Content content w used w' fields) :
    ∃ c ds, content = c :: ds ∧ lowerChar c ≠ 'n' ∧ c ≠ '`' := by
  rw [h.text]
  cases hw : w with
  | nil =>
    obtain ⟨ds, rfl⟩ := h.braced.cons
    exact ⟨'{', ds ++ w', rfl, by decide, by decide⟩
  | cons c ds =>
    refine ⟨c, ds ++ (used ++ w'), rfl, ?_⟩
    have hc := h.before c (hw ▸ List.mem_cons_self)
    simp only [isBlank, Bool.or_eq_true, decide_eq_true_eq] at hc
    rcases hc with ((rfl | rfl) | rfl) | rfl <;> decide

theorem candidate_bare (hbare : stripChars text.toList = content)
    (hcontent : Content content w used w' fields) :
    Exposes (stripCodeFence text).toList used false ∧ Plain (stripCodeFence text).toList := by
  obtain ⟨c, ds, hcons, hc, hfence⟩ := hcontent.head
  have hplain : ∀ first body, ¬ Fenced text first body := fun first body =>
    not_fenced_of_head (by rw [hbare, hcons, List.head?_cons]; simpa using hfence)
  rw [stripCodeFence_plain hplain, toList_strip]
  refine ⟨⟨w, used, w', hbare.trans hcontent.text, not_mem_blank hcontent.before (by decide),
    not_mem_blank hcontent.after (by decide), .refl used⟩, stripChars_idem _, c, ds, ?_, hc⟩
  rw [hbare, hcons]

theorem candidate_inline {info close : List Char} (hclose : close = [] ∨ close = "```".toList)
    (hinfo : '{' ∉ info) (htext : stripChars text.toList = "```".toList ++ info ++ content ++ close)
    (hline : afterFirstLine (stripChars text.toList) = none)
    (hcontent : Content content w used w' fields) :
    Exposes (stripCodeFence text).toList used false ∧ Plain (stripCodeFence text).toList := by
  have hplain : ∀ first body, ¬ Fenced text first body := by
    intro first body hfenced
    have hafter := hfenced.2.2
    rw [toList_strip, hline] at hafter
    cases hafter
  rw [stripCodeFence_plain hplain, toList_strip]
  refine ⟨⟨"```".toList ++ info ++ w, used, w' ++ close, ?_, ?_, ?_, .refl used⟩,
    stripChars_idem _, '`', _, htext, by decide⟩
  · rw [htext, hcontent.text]
    simp only [List.append_assoc]
  · rw [List.mem_append, List.mem_append, not_or, not_or]
    exact ⟨⟨by decide, hinfo⟩, not_mem_blank hcontent.before (by decide)⟩
  · rw [List.mem_append, not_or]
    refine ⟨not_mem_blank hcontent.after (by decide), ?_⟩
    rcases hclose with rfl | rfl <;> decide

/-- Nothing but the object is left of the lines of a fence. -/
theorem candidate_block {first close : List Char} (hclose : close = [] ∨ close = "```".toList)
    (hfenced : Fenced text first (content ++ close))
    (hcontent : Content content w used w' fields) :
    (stripCodeFence text).toList = stripChars (unify content) ∧
      Image (content.any isSeparator) used (stripChars (unify content)) := by
  obtain ⟨u, v, z, hunify, hu, hz, himage⟩ := hcontent.separators (image_unify content)
  have hbraced := hcontent.braced.image himage
  have hstrip : stripChars (unify content) = v := by
    rw [hunify]
    obtain ⟨ds, hv⟩ := hbraced.cons
    exact stripChars_eq (fun c hc => isSpace_of_isBlank (hu c hc)) hbraced.trimmed (by simp [hv])
      fun c hc => isSpace_of_isBlank (hz c hc)
  refine ⟨?_, hstrip ▸ himage⟩
  rw [stripCodeFence_fenced hfenced]
  rcases hclose with rfl | rfl
  · rw [List.append_nil]
    rcases removeSuffix_eq "```".toList (unify content) with h | h
    · rw [h]
    · -- the last character is a brace or a blank
      have hlast : '`' ∈ (u ++ (v ++ z)).getLast? := by
        rw [← hunify, h, List.getLast?_append_of_ne_nil _ (by decide)]
        rfl
      exfalso
      cases z with
      | nil =>
        rw [List.append_nil, List.getLast?_append, hbraced.2] at hlast
        simp at hlast
      | cons c z =>
        rw [← List.append_assoc, List.getLast?_append_of_ne_nil _ (by simp)] at hlast
        have hblank := hz _ (List.mem_of_getLast? hlast)
        revert hblank
        decide
  · rw [unify_append (by decide)]
    have hclose : unify "```".toList = "```".toList := by decide
    rw [hclose, removeSuffix_append]

/-- **The candidate.** A reply that carries an object leads to a candidate with
an image of the object's text between its outermost braces; separators are
replaced where it stands on the lines of a fence. -/
theorem candidate_spec (h : Carries text content lines)
    (hcontent : Content content w used w' fields) :
    Exposes (stripCodeFence text).toList used (lines && content.any isSeparator) ∧
      Plain (stripCodeFence text).toList := by
  cases h with
  | bare hbare => exact candidate_bare hbare hcontent
  | inline hclose hinfo htext hline => exact candidate_inline hclose hinfo htext hline hcontent
  | block hclose hfenced =>
    obtain ⟨hcandidate, himage⟩ := candidate_block hclose hfenced hcontent
    rw [hcandidate, Bool.true_and]
    refine ⟨⟨[], _, [], ?_, by simp, by simp, himage⟩, (hcontent.braced.image himage).plain⟩
    rw [List.nil_append, List.append_nil]

/-! ## Objections -/

theorem stripChars_cons (ds : List Char) (h : isSpace c = false) :
    ∃ ds', stripChars (c :: ds) = c :: ds' := by
  obtain ⟨pre, post, hcs, hpre, hpost, -⟩ := stripChars_spec (c :: ds)
  cases pre with
  | cons d pre =>
    rw [List.cons_append] at hcs
    have hd := hpre d List.mem_cons_self
    rw [← (List.cons.inj hcs).1, h] at hd
    cases hd
  | nil =>
    rw [List.nil_append] at hcs
    cases hs : stripChars (c :: ds) with
    | nil =>
      rw [hs, List.nil_append] at hcs
      have hc := hpost c (hcs ▸ List.mem_cons_self)
      rw [h] at hc
      cases hc
    | cons d ds' =>
      rw [hs, List.cons_append] at hcs
      exact ⟨ds', by rw [← (List.cons.inj hcs).1]⟩

/-- All the none-like words begin with the same letter. -/
theorem objection_of_head (h : stripChars cs = c :: ds) (hc : lowerChar c ≠ 'n') :
    objection cs = some (String.ofList ((c :: ds).take maxCounterChars)) := by
  unfold objection
  rw [h]
  refine if_neg ?_
  rw [not_or]
  refine ⟨by simp, fun hmem => hc ?_⟩
  obtain ⟨word, hword, heq⟩ := List.mem_map.mp hmem
  rw [List.map_cons] at heq
  simp only [noneLike, List.mem_cons, List.not_mem_nil, or_false] at hword
  rcases hword with rfl | rfl | rfl | rfl <;> exact ((List.cons.inj heq).1).symm

theorem objection_visible (h : isSpace c = false) (hc : lowerChar c ≠ 'n') :
    ∃ s, objection (c :: ds) = some s := by
  obtain ⟨ds', hstrip⟩ := stripChars_cons ds h
  exact ⟨_, objection_of_head hstrip hc⟩

theorem Plain.objection (h : Plain cs) :
    Falsification.objection cs = some (String.ofList (cs.take maxCounterChars)) := by
  obtain ⟨hstrip, c, ds, rfl, hc⟩ := h
  exact objection_of_head hstrip hc

theorem objection_digit (h : isDigit c = true) : ∃ s, objection (c :: ds) = some s := by
  have hc := isDigit_cases h
  simp only [List.mem_cons, List.not_mem_nil, or_false] at hc
  refine objection_visible ?_ ?_
  · rcases hc with rfl | rfl | rfl | rfl | rfl | rfl | rfl | rfl | rfl | rfl <;> decide
  · rcases hc with rfl | rfl | rfl | rfl | rfl | rfl | rfl | rfl | rfl | rfl <;> decide

/-- A sign and digits object. -/
theorem objection_number (neg : Bool) (ds : List Char) (h : Whole cs) :
    ∃ s, objection ((if neg then ['-'] else []) ++ (cs ++ ds)) = some s := by
  cases neg with
  | true => exact objection_visible (by decide) (by decide)
  | false =>
    obtain ⟨c, cs', rfl, hc⟩ := whole_head h
    exact objection_digit hc

/-- `str` of a value other than a text or `None` is an objection. -/
theorem objection_repr (printable : Char → Bool) {x : Json} (hheld : Held x) (hnull : x ≠ .null)
    (hstr : ∀ s, x ≠ .str s) : ∃ s, objection (Data.repr printable (.ofJson x)) = some s := by
  cases hheld with
  | null => exact absurd rfl hnull
  | bool b => cases b <;> exact objection_visible (by decide) (by decide)
  | int h =>
    rename_i i
    have hnumber := objection_number (decide (i < 0)) [] (whole_decimal i.natAbs)
    simpa [Data.repr, Data.ofJson, intText] using hnumber
  | float h =>
    rename_i x
    cases x with
    | nan =>
      have hnan : objection "nan".toList = some "nan" := by decide
      exact ⟨"nan", hnan⟩
    | inf neg => cases neg <;> exact objection_visible (by decide) (by decide)
    | finite neg mag =>
      obtain ⟨digits, frac, ex, htext, hwhole, -⟩ := floatText_text h
      rw [withPoint_eq, List.append_assoc] at htext
      obtain ⟨s, hs⟩ := objection_number neg _ hwhole
      exact ⟨s, (congrArg objection htext).trans hs⟩
  | str s => exact absurd rfl (hstr s)
  | arr h => exact objection_visible (by decide) (by decide)
  | obj hk h => exact objection_visible (by decide) (by decide)

/-- The compiler, which raises for a text that is not empty
(contracting.py:848-850), raises for every objection. -/
theorem objection_truthy (cs : List Char) : (objection cs).getD "" = "" ↔ objection cs = none := by
  unfold objection
  dsimp only
  split
  · simp
  · rename_i h
    rw [not_or] at h
    obtain ⟨c, ds, hcons⟩ := List.exists_cons_of_ne_nil h.1
    simp [hcons, maxCounterChars]

/-! ## The answer -/

theorem parse_of_decoded {counter : List Char} (hplain : Plain (stripCodeFence text).toList)
    (h : decoded printable (stripCodeFence text).toList = .ok counter) :
    parse printable text = .ok (objection
      (if counter = [] then (stripCodeFence text).toList else counter)) := by
  have hne : strip text ≠ "" := by
    intro hempty
    have hfence : stripCodeFence text = "" := by
      unfold stripCodeFence
      rw [hempty]
      rfl
    obtain ⟨-, c, ds, hcons, -⟩ := hplain
    rw [hfence] at hcons
    cases hcons
  unfold parse
  rw [if_neg hne]
  dsimp only
  rw [h]

theorem decoded_of_exposes (printable : Char → Bool) (h : Exposes cs used t)
    (hcontent : Content content w used w' fields) :
    decoded printable cs = .ok (if t then [] else fieldText printable fields) := by
  obtain ⟨pre, y, post, rfl, hpre, hpost, himage⟩ := h
  obtain ⟨hopen, hclose⟩ := hcontent.braced.image himage
  unfold decoded
  rw [outermost_eq hpre hpost hopen hclose]
  dsimp only
  rw [hcontent.loads himage]
  cases t with
  | false => rfl
  | true => rfl

theorem fieldText_other (printable : Char → Bool) {x : Json}
    (h : Json.lookup "counter_interpretation" fields = some x)
    (hstr : ∀ s, x ≠ .str s) :
    fieldText printable fields = Data.repr printable (.ofJson x) ∧ verdict fields = none := by
  unfold fieldText verdict
  rw [h]
  cases x with
  | str s => exact absurd rfl (hstr s)
  | _ => exact ⟨rfl, rfl⟩

theorem objection_nil : objection [] = none := by decide

/-- With the object decoded, the answer is right for a null and for a string
that is not empty. -/
theorem answer_iff (printable : Char → Bool) (hheld : Held (.obj fields)) (hplain : Plain cs) :
    objection (if fieldText printable fields = [] then cs else fieldText printable fields) =
        verdict fields ↔
      Json.lookup "counter_interpretation" fields = some .null ∨
        ∃ s, s ≠ "" ∧ Json.lookup "counter_interpretation" fields = some (.str s) := by
  cases hlookup : Json.lookup "counter_interpretation" fields with
  | none => simp [fieldText, verdict, hlookup, hplain.objection]
  | some x =>
    by_cases hstr : ∃ s, x = .str s
    · obtain ⟨s, rfl⟩ := hstr
      by_cases hs : s = ""
      · simp [fieldText, verdict, hlookup, hs, hplain.objection, objection_nil]
      · have hchars : s.toList ≠ [] := by simpa using hs
        simp [fieldText, verdict, hlookup, hs]
    · rw [not_exists] at hstr
      obtain ⟨htext, hverdict⟩ := fieldText_other printable hlookup hstr
      rw [htext, hverdict]
      by_cases hnull : x = .null
      · subst hnull
        have hnone : objection "None".toList = none := by decide
        have hrepr : Data.repr printable (.ofJson .null) = "None".toList := rfl
        rw [hrepr, if_neg (by decide), hnone]
        simp
      · have hx : Held x := by
          cases hheld with
          | obj hk h => exact h _ (JsonText.mem_of_lookup hlookup)
        obtain ⟨r, hr⟩ := objection_repr printable hx hnull hstr
        have hne : Data.repr printable (.ofJson x) ≠ [] := by
          intro hnil
          rw [hnil, objection_nil] at hr
          cases hr
        rw [if_neg hne, hr]
        simp [hnull, hstr]

/-- **The answer.** A reply whose content is a JSON object gets the answer its
object stands for in two cases. Where no line boundary but carriage returns and
line feeds stands inside a fence, it does if the field is a null or a string
that is not empty: a missing or empty field turns the reply itself into the
objection, and any other value its `str`. With such a boundary the object is
not decoded and what was on the lines of the fence is the objection, which is
right only for a field that begins with as much of the same text. -/
theorem check_iff (text : String) (content : List Char) (fields : Object) (lines : Bool)
    (hcarries : Carries text content lines)
    (hcontent : loads (String.ofList content) = .ok (.obj fields)) :
    check printable (some text) = .ok (verdict fields) ↔
      (lines && content.any isSeparator) = false ∧
          (Json.lookup "counter_interpretation" fields = some .null ∨
            ∃ s, s ≠ "" ∧ Json.lookup "counter_interpretation" fields = some (.str s)) ∨
        (lines && content.any isSeparator) = true ∧
          verdict fields =
            some (String.ofList ((stripChars (unify content)).take maxCounterChars)) := by
  obtain ⟨w, used, w', hspelled⟩ := content_of_loads hcontent
  obtain ⟨hexposes, hplain⟩ := candidate_spec hcarries hspelled
  have hdecoded := decoded_of_exposes printable hexposes hspelled
  have hparse := parse_of_decoded hplain hdecoded
  unfold check
  dsimp only
  rw [hparse, Except.ok.injEq]
  cases hrewritten : lines && content.any isSeparator with
  | false =>
    have hanswer := answer_iff printable (loads_held hcontent) hplain
    simpa using hanswer
  | true =>
    obtain ⟨rfl, -⟩ := Bool.and_eq_true_iff.mp hrewritten
    cases hcarries with
    | block hclose hfenced =>
      obtain ⟨hcandidate, -⟩ := candidate_block hclose hfenced hspelled
      rw [hcandidate] at hplain ⊢
      simp [hplain.objection, eq_comm]

/-- The reply of a falsifier that keeps to the schema. -/
def reply (counter : String) : String :=
  dumps .default (.obj [("counter_interpretation", .str counter)])

theorem loads_reply (counter : String) :
    loads (reply counter) = .ok (.obj [("counter_interpretation", .str counter)]) :=
  loads_write Separators.spaced_default
    (.obj (by simp) fun f hf => by
      rw [List.mem_singleton.mp hf]
      exact .str counter)

theorem content_reply (counter : String) :
    loads (String.ofList (reply counter).toList) =
      .ok (.obj [("counter_interpretation", .str counter)]) := by
  rw [String.ofList_toList]
  exact loads_reply counter

theorem check_iff_stub :
    verdict [("counter_interpretation", .str "a stub")] = some "a stub" ∧
      check (fun _ => true) (some (reply "a stub")) =
        .ok (verdict [("counter_interpretation", .str "a stub")]) := by
  refine ⟨by decide +kernel, ?_⟩
  have hfield : Json.lookup "counter_interpretation" [("counter_interpretation", .str "a stub")] =
      some (.str "a stub") := by simp [Json.lookup]
  exact (check_iff _ _ _ false (.bare (by decide +kernel)) (content_reply "a stub")).mpr
    (.inl ⟨Bool.false_and _, .inr ⟨"a stub", by decide, hfield⟩⟩)

/-- An empty field makes the reply itself the objection. -/
theorem empty_field_objects :
    reply "" = "\x7b\"counter_interpretation\": \"\"\x7d" ∧
      loads (reply "") = .ok (.obj [("counter_interpretation", .str "")]) ∧
      verdict [("counter_interpretation", .str "")] = none ∧
      check (fun _ => true) (some (reply "")) = .ok (some (reply "")) := by
  refine ⟨by decide +kernel, loads_reply "", by decide +kernel, ?_⟩
  obtain ⟨w, used, w', hspelled⟩ := content_of_loads (content_reply "")
  have hcarries : Carries (reply "") (reply "").toList false := .bare (by decide +kernel)
  obtain ⟨hexposes, hplain⟩ := candidate_spec hcarries hspelled
  have hparse := parse_of_decoded hplain (decoded_of_exposes (fun _ => true) hexposes hspelled)
  have hcandidate : stripCodeFence (reply "") = reply "" := by decide +kernel
  have hcut : String.ofList ((reply "").toList.take maxCounterChars) = reply "" := by
    decide +kernel
  have hfield : fieldText (fun _ => true) [("counter_interpretation", .str "")] = [] := by
    simp [fieldText, Json.lookup]
  rw [Bool.false_and, if_neg Bool.false_ne_true, hfield, if_pos rfl, hplain.objection, hcandidate,
    hcut] at hparse
  exact hparse

end Falsification

end Northstack
