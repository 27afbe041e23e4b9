import Northstack.Application.SoftRubric
import Northstack.Core.JsonSpelling
import Northstack.Core.TextLines

/-!
# Finding the first object

What `strip_code_fence` and `extract_first_json_object` (json_extraction.py:15-39,
modelled with the soft rubric) make of a text. A fence over several lines is
taken off by lines: the opening line goes with all that is on it, and the others
are joined with line feeds.

**Results.**
* `stripCodeFence_fenced`, `stripCodeFence_plain`: what is scanned.
* `extract_first_iff`: when the object returned is the first one of the text.
-/
namespace Northstack

namespace JsonExtraction

open JsonText PyText

abbrev Object := List (String × Json)

/-- The object that begins here, if a complete one does. -/
def objectAt (cs : List Char) : Option Object :=
  match rawDecode cs with
  | .ok (.obj fields, _) => some fields
  | _ => none

/-- The object that begins first. -/
def firstComplete : List Char → Option Object
  | [] => none
  | c :: cs => (objectAt (c :: cs)).or (firstComplete cs)

/-- A complete object begins before the end of `pre`. -/
def BeginsIn (pre cs : List Char) : Prop :=
  ∃ k < pre.length, objectAt ((pre ++ cs).drop k) ≠ none

/-- The scan meets an integer of too many digits before it finds an object. -/
def LimitHit (cs : List Char) : Prop :=
  ∃ pre rest, cs = pre ++ '{' :: rest ∧ ¬ BeginsIn pre ('{' :: rest) ∧
    rawDecode ('{' :: rest) = .error .tooManyDigits

/-- The text, stripped, is a fence of several lines: `first` the opening one. -/
def Fenced (text : String) (first body : List Char) : Prop :=
  "```".toList.isPrefixOf (strip text).toList = true ∧ (strip text).toList = first ++ body ∧
    afterFirstLine (strip text).toList = some body

variable {c : Char} {cs pre post x y rest : List Char} {fields : Object} {text : String}
  {first body : List Char}

/-! ## Objects -/

theorem objectAt_eq_some :
    objectAt cs = some fields ↔ ∃ rest, rawDecode cs = .ok (.obj fields, rest) := by
  unfold objectAt
  constructor
  · intro h
    split at h
    · rename_i heq
      exact ⟨_, Option.some.inj h ▸ heq⟩
    · cases h
  · intro h
    obtain ⟨rest, h⟩ := h
    rw [h]

/-- An object is between braces. -/
theorem objectAt_text (h : objectAt cs = some fields) :
    ∃ used rest, cs = used ++ rest ∧ used.head? = some '{' ∧ used.getLast? = some '}' ∧
      ∀ {y} more, Image false used y → objectAt (y ++ more) = some fields := by
  obtain ⟨rest, h⟩ := objectAt_eq_some.mp h
  obtain ⟨used, hcs, hopen, hclose, hread⟩ := rawDecode_image h
  exact ⟨used, rest, hcs, hopen, hclose,
    fun more himage => objectAt_eq_some.mpr ⟨more, hread more himage⟩⟩

theorem objectAt_other (h : c ≠ '{') : objectAt (c :: cs) = none := by
  cases hobject : objectAt (c :: cs) with
  | none => rfl
  | some fields =>
    obtain ⟨used, rest, hcs, hopen, -⟩ := objectAt_text hobject
    cases used with
    | nil => cases hopen
    | cons d used =>
      obtain rfl := Option.some.inj hopen
      exact absurd (List.cons.inj hcs).1 h

/-- Other line ends leave the object. -/
theorem objectAt_image (himage : Image false x y) (h : objectAt x = some fields) :
    objectAt y = some fields := by
  obtain ⟨used, rest, rfl, -, -, hread⟩ := objectAt_text h
  obtain ⟨t₁, t₂, y₁, y₂, ht, rfl, hused, -⟩ := himage.split
  obtain ⟨rfl, -⟩ := Bool.or_eq_false_iff.mp ht.symm
  exact hread y₂ hused

theorem objectAt_images (h : Image false x y) (h' : Image false y x) : objectAt x = objectAt y := by
  refine Option.ext fun fields => ?_
  constructor
  · exact objectAt_image h
  · exact objectAt_image h'

/-- What follows matters only by its closing braces. -/
theorem objectAt_append (cs : List Char) (h : '}' ∉ post) :
    objectAt (cs ++ post) = objectAt cs := by
  refine Option.ext fun fields => ?_
  constructor
  · intro hobject
    obtain ⟨used, rest, hcs, -, hclose, hread⟩ := objectAt_text hobject
    rcases List.append_eq_append_iff.mp hcs with ⟨more, rfl, hpost⟩ | ⟨more, rfl, -⟩
    · cases more with
      | nil =>
        have hself := hread [] (Image.refl _)
        simpa using hself
      | cons d ds =>
        rw [List.getLast?_append_of_ne_nil _ (by simp)] at hclose
        refine absurd ?_ h
        rw [hpost]
        exact List.mem_append_left _ (List.mem_of_getLast? hclose)
    · exact hread more (Image.refl used)
  · intro hobject
    obtain ⟨used, rest, rfl, -, -, hread⟩ := objectAt_text hobject
    rw [List.append_assoc]
    exact hread _ (Image.refl used)

/-! ## The first one -/

theorem firstComplete_other (h : c ≠ '{') : firstComplete (c :: cs) = firstComplete cs := by
  rw [firstComplete, objectAt_other h, Option.none_or]

theorem firstComplete_skip (h : '{' ∉ pre) : firstComplete (pre ++ cs) = firstComplete cs := by
  induction pre with
  | nil => rfl
  | cons c pre ih =>
    rw [List.mem_cons, not_or] at h
    rw [List.cons_append, firstComplete_other (Ne.symm h.1), ih h.2]

theorem firstComplete_append (h : '}' ∉ post) : firstComplete (cs ++ post) = firstComplete cs := by
  induction cs with
  | nil =>
    rw [List.nil_append]
    have hnone : ∀ ds : List Char, '}' ∉ ds → firstComplete ds = none := by
      intro ds hds
      induction ds with
      | nil => rfl
      | cons d ds ih =>
        have hempty := objectAt_append [] hds
        rw [List.nil_append] at hempty
        rw [firstComplete, hempty, ih fun hmem => hds (List.mem_cons_of_mem d hmem)]
        rfl
    exact hnone post h
  | cons c cs ih =>
    rw [List.cons_append, firstComplete, firstComplete, ih, ← List.cons_append, objectAt_append _ h]

theorem firstComplete_unify (h : cs.any isSeparator = false) :
    firstComplete (unify cs) = firstComplete cs := by
  fun_induction unify cs with
  | case1 => rfl
  | case2 cs ih =>
    rw [firstComplete_other (by decide), firstComplete_other (by decide),
      firstComplete_other (by decide), ih h]
  | case3 c cs hcrlf ih =>
    rw [List.any_cons, Bool.or_eq_false_iff] at h
    by_cases hc : c = '{'
    · subst hc
      rw [if_neg (by decide), firstComplete, firstComplete, ih h.2]
      congr 1
      exact objectAt_images (.keep _ (unify_image h.2))
        (.keep _ (by rw [← h.2]; exact image_unify cs))
    · rw [firstComplete_other hc]
      rw [firstComplete_other, ih h.2]
      split
      · decide
      · exact hc

theorem beginsIn_nil : ¬ BeginsIn [] cs := by
  intro h
  obtain ⟨k, hk, -⟩ := h
  exact Nat.not_lt_zero k hk

theorem beginsIn_cons : BeginsIn (c :: pre) cs ↔
    objectAt (c :: (pre ++ cs)) ≠ none ∨ BeginsIn pre cs := by
  constructor
  · intro h
    obtain ⟨k, hk, hobject⟩ := h
    cases k with
    | zero => exact .inl hobject
    | succ k => exact .inr ⟨k, by simpa using hk, hobject⟩
  · intro h
    rcases h with hobject | ⟨k, hk, hobject⟩
    · exact ⟨0, by simp, hobject⟩
    · exact ⟨k + 1, by simpa using hk, hobject⟩

theorem firstComplete_begins (h : ¬ BeginsIn pre cs) :
    firstComplete (pre ++ cs) = firstComplete cs := by
  induction pre with
  | nil => rfl
  | cons c pre ih =>
    rw [beginsIn_cons, not_or, not_not] at h
    rw [List.cons_append, firstComplete, h.1, Option.none_or, ih h.2]

/-! ## The scan -/

theorem not_limitHit_object (h : objectAt (c :: cs) = some fields) : ¬ LimitHit (c :: cs) := by
  intro hlimit
  obtain ⟨pre, rest, hcs, hbegins, herror⟩ := hlimit
  cases pre with
  | nil =>
    obtain ⟨more, hread⟩ := objectAt_eq_some.mp h
    rw [hcs, List.nil_append, herror] at hread
    cases hread
  | cons d pre =>
    rw [hcs, List.cons_append] at h
    exact hbegins (beginsIn_cons.mpr (.inl (by simp [h])))

theorem limitHit_cons (h : objectAt (c :: cs) = none) :
    LimitHit (c :: cs) ↔ c = '{' ∧ rawDecode (c :: cs) = .error .tooManyDigits ∨ LimitHit cs := by
  constructor
  · intro hlimit
    obtain ⟨pre, rest, hcs, hbegins, herror⟩ := hlimit
    cases pre with
    | nil =>
      rw [List.nil_append] at hcs
      exact .inl ⟨(List.cons.inj hcs).1, hcs ▸ herror⟩
    | cons d pre =>
      refine .inr ⟨pre, rest, (List.cons.inj hcs).2, ?_, herror⟩
      exact fun hlater => hbegins (beginsIn_cons.mpr (.inr hlater))
  · intro hlimit
    rcases hlimit with ⟨rfl, herror⟩ | ⟨pre, rest, rfl, hbegins, herror⟩
    · exact ⟨[], cs, rfl, beginsIn_nil, herror⟩
    · refine ⟨c :: pre, rest, rfl, ?_, herror⟩
      rw [beginsIn_cons, not_or, not_not]
      exact ⟨h, hbegins⟩

/-- The scan finds the first object, unless it meets the digit limit before. -/
theorem firstObject_eq_ok {r : Option Object} :
    firstObject cs = .ok r ↔ ¬ LimitHit cs ∧ r = firstComplete cs := by
  induction cs with
  | nil =>
    have hlimit : ¬ LimitHit [] := by
      intro h
      obtain ⟨pre, rest, hcs, -⟩ := h
      simp at hcs
    simp [firstObject, firstComplete, hlimit, eq_comm]
  | cons c cs ih =>
    by_cases hc : c = '{'
    · subst hc
      cases hobject : objectAt ('{' :: cs) with
      | some fields =>
        obtain ⟨rest, hread⟩ := objectAt_eq_some.mp hobject
        have hlimit := not_limitHit_object hobject
        simp [firstObject, hread, firstComplete, hobject, hlimit, eq_comm]
      | none =>
        rw [limitHit_cons hobject, firstComplete, hobject, Option.none_or]
        by_cases herror : rawDecode ('{' :: cs) = .error .tooManyDigits
        · simp [firstObject, herror]
        · have hnext : firstObject ('{' :: cs) = firstObject cs := by
            rw [firstObject, if_pos rfl]
            split
            · rename_i hread
              rw [objectAt_eq_some.mpr ⟨_, hread⟩] at hobject
              cases hobject
            · rename_i hread
              exact absurd hread herror
            · rfl
          rw [hnext, ih]
          simp [herror]
    · rw [limitHit_cons (objectAt_other hc), firstComplete_other hc]
      simp [firstObject, hc, ih]

/-! ## The fence -/

theorem Fenced.body_ended (h : Fenced text first body) : body ≠ [] ∧ Ended body := by
  obtain ⟨-, htext, hafter⟩ := h
  obtain ⟨-, -, -, -, -, htrimmed⟩ := stripChars_spec text.toList
  rw [toList_strip] at htext hafter
  have hended := htrimmed.ended
  obtain ⟨first', hfirst, c, hc, hbreak⟩ := afterFirstLine_suffix hafter
  have hne : body ≠ [] := by
    intro hbody
    rw [hbody, List.append_nil] at hfirst
    have hlast := hended c (hfirst ▸ hc)
    rw [hbreak] at hlast
    cases hlast
  refine ⟨hne, fun c hc => hended c ?_⟩
  rw [htext, List.getLast?_append_of_ne_nil _ hne]
  exact hc

theorem Fenced.unique {first' body' : List Char} (h : Fenced text first body)
    (h' : Fenced text first' body') : first' = first ∧ body' = body := by
  have hbody : body' = body := Option.some.inj (h'.2.2.symm.trans h.2.2)
  subst hbody
  exact ⟨List.append_cancel_right (h'.2.1.symm.trans h.2.1), rfl⟩

/-- The opening line goes, and the others are joined with line feeds. -/
theorem stripCodeFence_fenced (h : Fenced text first body) :
    (stripCodeFence text).toList = stripChars (removeSuffix "```".toList (unify body)) := by
  obtain ⟨hne, hended⟩ := h.body_ended
  obtain ⟨line, hlines⟩ := splitLines_first [] h.2.2
  have hjoin := join_splitLines [] hended
  have hlines' : splitLines [] body ≠ [] := splitLines_ne_nil (.inr hne)
  obtain ⟨l, ls, hbody⟩ := List.exists_cons_of_ne_nil hlines'
  rw [hbody, List.reverse_nil, List.nil_append] at hjoin
  unfold stripCodeFence
  rw [if_pos h.1, hlines, hbody]
  dsimp only
  simp only [hjoin, toList_strip, String.toList_ofList]

theorem stripCodeFence_plain (h : ∀ first body, ¬ Fenced text first body) :
    stripCodeFence text = strip text := by
  unfold stripCodeFence
  dsimp only
  split
  · rename_i hfence
    cases hafter : afterFirstLine (strip text).toList with
    | none =>
      have hlength := splitLines_single [] hafter
      split
      · rename_i heq
        rw [heq] at hlength
        simp at hlength
      · rfl
    | some body =>
      obtain ⟨first, hfirst, -⟩ := afterFirstLine_suffix hafter
      exact absurd ⟨hfence, hfirst, hafter⟩ (h first body)
  · rfl

theorem not_mem_of_isSpace (hpost : ∀ d ∈ post, isSpace d = true) (h : isSpace c = false) :
    c ∉ post := by
  intro hmem
  rw [hpost c hmem] at h
  cases h

theorem firstComplete_strip (cs : List Char) :
    firstComplete (stripChars cs) = firstComplete cs := by
  obtain ⟨pre, post, hcs, hpre, hpost, -⟩ := stripChars_spec cs
  conv_rhs => rw [hcs]
  rw [firstComplete_skip (not_mem_of_isSpace hpre (by decide)),
    firstComplete_append (not_mem_of_isSpace hpost (by decide))]

theorem removeSuffix_eq (suffix cs : List Char) :
    removeSuffix suffix cs = cs ∨ cs = removeSuffix suffix cs ++ suffix := by
  unfold removeSuffix
  split
  · rename_i h
    obtain ⟨pre, rfl⟩ := List.reverse_prefix.mp (List.isPrefixOf_iff_prefix.mp h)
    exact .inr (by simp)
  · exact .inl rfl

theorem firstComplete_removeSuffix (cs : List Char) :
    firstComplete (removeSuffix "```".toList cs) = firstComplete cs := by
  rcases removeSuffix_eq "```".toList cs with h | h
  · rw [h]
  · conv_rhs => rw [h]
    rw [firstComplete_append (by decide)]

theorem extract_eq {r : Option Object} : extractFirstJsonObject text = .ok r ↔
    ¬ LimitHit (stripCodeFence text).toList ∧ r = firstComplete (stripCodeFence text).toList :=
  firstObject_eq_ok

theorem extract_plain (h : ∀ first body, ¬ Fenced text first body) :
    extractFirstJsonObject text = .ok (firstComplete text.toList) ↔
      ¬ LimitHit (stripChars text.toList) := by
  rw [extract_eq, stripCodeFence_plain h, toList_strip, firstComplete_strip]
  simp

theorem extract_fenced (h : Fenced text first body) :
    extractFirstJsonObject text = .ok (firstComplete text.toList) ↔
      ¬ LimitHit (stripChars (removeSuffix "```".toList (unify body))) ∧
        firstComplete (unify body) = firstComplete (first ++ body) := by
  have htext : firstComplete text.toList = firstComplete (first ++ body) := by
    rw [← firstComplete_strip, ← toList_strip, h.2.1]
  rw [extract_eq, stripCodeFence_fenced h, firstComplete_strip, firstComplete_removeSuffix, htext,
    eq_comm (a := firstComplete (first ++ body))]

end JsonExtraction

end Northstack
