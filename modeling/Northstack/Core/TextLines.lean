import Northstack.Core.JsonImages

/-!
# Lines of texts

`str.strip` and `str.splitlines` on lists of code points: what stripping takes
off, and what becomes of a text whose lines are joined with line feeds again.

**Results.** `join_splitLines`: joining writes a line feed for every boundary;
`image_unify`: which makes an image of the text; `unify_image`: and the other way
where no boundary but a carriage return or a line feed was there.
-/
namespace PyText

/-- `s.strip()` on the code points. -/
def stripChars (cs : List Char) : List Char :=
  ((cs.dropWhile isSpace).reverse.dropWhile isSpace).reverse

/-- A line feed in place of every line boundary. -/
def unify : List Char → List Char
  | [] => []
  | '\r' :: '\n' :: cs => '\n' :: unify cs
  | c :: cs => (if isLineBreak c then '\n' else c) :: unify cs

/-- What stands behind the first line boundary. -/
def afterFirstLine : List Char → Option (List Char)
  | [] => none
  | '\r' :: '\n' :: cs => some cs
  | c :: cs => if isLineBreak c then some cs else afterFirstLine cs

variable {c : Char} {cs pre core post line x y : List Char}

theorem strip_eq (s : String) : strip s = String.ofList (stripChars s.toList) := rfl

@[simp] theorem toList_strip (s : String) : (strip s).toList = stripChars s.toList := by
  rw [strip_eq, String.toList_ofList]

/-! ## Stripping -/

/-- No white space at either end. -/
def Trimmed (cs : List Char) : Prop :=
  (∀ c ∈ cs.head?, isSpace c = false) ∧ ∀ c ∈ cs.getLast?, isSpace c = false

theorem dropWhile_append_eq {p : Char → Bool} (h : ∀ c ∈ x, p c = true)
    (hy : ∀ c ∈ y.head?, p c = false) : (x ++ y).dropWhile p = y := by
  rw [List.dropWhile_append_of_pos h]
  cases y with
  | nil => rfl
  | cons c y => rw [List.dropWhile_cons_of_neg (by simp [hy c rfl])]

theorem stripChars_eq (hpre : ∀ c ∈ pre, isSpace c = true) (hcore : Trimmed core)
    (hne : core ≠ []) (hpost : ∀ c ∈ post, isSpace c = true) :
    stripChars (pre ++ (core ++ post)) = core := by
  unfold stripChars
  have hhead : ∀ c ∈ (core ++ post).head?, isSpace c = false := by
    intro c hc
    rw [List.head?_append_of_ne_nil _ hne] at hc
    exact hcore.1 c hc
  have hlast : ∀ c ∈ core.reverse.head?, isSpace c = false := by
    intro c hc
    rw [List.head?_reverse] at hc
    exact hcore.2 c hc
  rw [dropWhile_append_eq hpre hhead, List.reverse_append,
    dropWhile_append_eq (fun c hc => hpost c (List.mem_reverse.mp hc)) hlast, List.reverse_reverse]

theorem stripChars_trimmed (h : Trimmed core) : stripChars core = core := by
  by_cases hne : core = []
  · rw [hne]
    rfl
  · have hcore : stripChars ([] ++ (core ++ [])) = core :=
      stripChars_eq (by simp) h hne (by simp)
    simpa using hcore

theorem dropWhile_head (cs : List Char) {p : Char → Bool} :
    ∀ c ∈ (cs.dropWhile p).head?, p c = false := by
  intro c hc
  cases h : cs.dropWhile p with
  | nil =>
    rw [h] at hc
    cases hc
  | cons d ds =>
    rw [h] at hc
    obtain rfl := Option.some.inj hc
    have hd := List.head?_dropWhile_not p cs
    rw [h] at hd
    simpa using hd

theorem stripChars_spec (cs : List Char) :
    ∃ pre post, cs = pre ++ (stripChars cs ++ post) ∧ (∀ c ∈ pre, isSpace c = true) ∧
      (∀ c ∈ post, isSpace c = true) ∧ Trimmed (stripChars cs) := by
  have hcs := List.takeWhile_append_dropWhile (p := isSpace) (l := cs)
  have hrev := List.takeWhile_append_dropWhile (p := isSpace) (l := (cs.dropWhile isSpace).reverse)
  have hmid : cs.dropWhile isSpace = stripChars cs ++
      ((cs.dropWhile isSpace).reverse.takeWhile isSpace).reverse := by
    unfold stripChars
    rw [← List.reverse_append, hrev, List.reverse_reverse]
  refine ⟨cs.takeWhile isSpace, ((cs.dropWhile isSpace).reverse.takeWhile isSpace).reverse, ?_,
    fun c hc => List.mem_takeWhile_imp hc,
    fun c hc => List.mem_takeWhile_imp (List.mem_reverse.mp hc), ?_, ?_⟩
  · rw [← hmid, hcs]
  · intro c hc
    refine dropWhile_head cs c ?_
    rw [hmid]
    cases hs : stripChars cs with
    | nil =>
      rw [hs] at hc
      cases hc
    | cons d ds =>
      rw [hs] at hc
      exact hc
  · intro c hc
    unfold stripChars at hc
    rw [List.getLast?_reverse] at hc
    exact dropWhile_head _ c hc

theorem isSpace_of_isLineBreak (h : isLineBreak c = true) : isSpace c = true := by
  unfold isLineBreak at h
  unfold isSpace
  simp only [Bool.or_eq_true, Bool.and_eq_true, decide_eq_true_eq] at h ⊢
  omega

/-! ## Joining lines -/

/-- No line boundary at the end. -/
def Ended (cs : List Char) : Prop := ∀ c ∈ cs.getLast?, isLineBreak c = false

theorem Ended.tail (h : Ended (c :: cs)) : Ended cs := by
  intro d hd
  refine h d ?_
  cases cs with
  | nil => cases hd
  | cons e cs => exact hd

/-- A boundary is not the end of it. -/
theorem Ended.ne_nil (h : Ended (c :: cs)) (hc : isLineBreak c = true) : cs ≠ [] := by
  rintro rfl
  rw [h c rfl] at hc
  cases hc

theorem Trimmed.ended (h : Trimmed cs) : Ended cs := by
  intro c hc
  by_contra hbreak
  have hspace := isSpace_of_isLineBreak (Bool.eq_true_of_not_eq_false hbreak)
  rw [h.2 c hc] at hspace
  cases hspace

theorem splitLines_ne_nil (h : line ≠ [] ∨ cs ≠ []) : splitLines line cs ≠ [] := by
  fun_induction splitLines line cs with
  | case1 => simp at h
  | case2 line hline => simp
  | case3 => simp
  | case4 => simp
  | case5 line c cs _ _ ih => exact ih (.inl (by simp))

theorem join_cons {s : String} {ss : List String} (h : ss ≠ []) :
    join "\n" (s :: ss) = s ++ "\n" ++ join "\n" ss := by
  obtain ⟨t, ts, rfl⟩ := List.exists_cons_of_ne_nil h
  rw [join]

theorem join_lines {ls : List (List Char)} (h : ls ≠ []) :
    join "\n" ((line.reverse :: ls).map String.ofList) =
      String.ofList (line.reverse ++ '\n' :: (join "\n" (ls.map String.ofList)).toList) := by
  rw [List.map_cons, join_cons (by simpa using h)]
  apply String.toList_inj.mp
  simp

theorem unify_append (h : y.head? ≠ some '\n') : unify (x ++ y) = unify x ++ unify y := by
  fun_induction unify x with
  | case1 => rfl
  | case2 x ih => rw [List.cons_append, List.cons_append, unify, ih, List.cons_append]
  | case3 c x hcrlf ih =>
    rw [List.cons_append, unify, ih, List.cons_append]
    intro z hc hz
    cases x with
    | nil =>
      rw [List.nil_append] at hz
      exact h (by rw [hz, List.head?_cons])
    | cons d x => exact hcrlf x hc (by rw [(List.cons.inj hz).1])

/-- Joining the lines writes a line feed for every boundary. -/
theorem join_splitLines (line : List Char) (h : Ended cs) :
    join "\n" ((splitLines line cs).map String.ofList) =
      String.ofList (line.reverse ++ unify cs) := by
  fun_induction splitLines line cs with
  | case1 => rfl
  | case2 line hline => simp [join, unify]
  | case3 line cs ih =>
    have hne : cs ≠ [] := h.tail.ne_nil (by decide)
    rw [join_lines (splitLines_ne_nil (.inr hne)), ih h.tail.tail, String.toList_ofList, unify]
    rfl
  | case4 line c cs hcrlf hbreak ih =>
    have hne : cs ≠ [] := h.ne_nil hbreak
    rw [join_lines (splitLines_ne_nil (.inr hne)), ih h.tail, String.toList_ofList, unify]
    · rw [if_pos hbreak]
      rfl
    · exact hcrlf
  | case5 line c cs hcrlf hbreak ih =>
    rw [ih h.tail, unify]
    · rw [if_neg hbreak, List.reverse_cons, List.append_assoc, List.singleton_append]
    · exact hcrlf

theorem splitLines_first (line : List Char) {body : List Char} (h : afterFirstLine cs = some body) :
    ∃ first, splitLines line cs = first :: splitLines [] body := by
  fun_induction splitLines line cs with
  | case1 => cases h
  | case2 => cases h
  | case3 line cs ih =>
    rw [afterFirstLine] at h
    obtain rfl := Option.some.inj h
    exact ⟨_, rfl⟩
  | case4 line c cs hcrlf hbreak ih =>
    rw [afterFirstLine] at h
    · rw [if_pos hbreak] at h
      obtain rfl := Option.some.inj h
      exact ⟨_, rfl⟩
    · exact hcrlf
  | case5 line c cs hcrlf hbreak ih =>
    rw [afterFirstLine] at h
    · rw [if_neg hbreak] at h
      exact ih h
    · exact hcrlf

theorem splitLines_single (line : List Char) (h : afterFirstLine cs = none) :
    (splitLines line cs).length ≤ 1 := by
  fun_induction splitLines line cs with
  | case1 => simp
  | case2 => simp
  | case3 line cs ih =>
    rw [afterFirstLine] at h
    cases h
  | case4 line c cs hcrlf hbreak ih =>
    rw [afterFirstLine] at h
    · rw [if_pos hbreak] at h
      cases h
    · exact hcrlf
  | case5 line c cs hcrlf hbreak ih =>
    rw [afterFirstLine] at h
    · rw [if_neg hbreak] at h
      exact ih h
    · exact hcrlf

/-- What stands behind the first line ends as the text does. -/
theorem afterFirstLine_suffix {body : List Char} (h : afterFirstLine cs = some body) :
    ∃ first, cs = first ++ body ∧ ∃ c ∈ first.getLast?, isLineBreak c = true := by
  fun_induction afterFirstLine cs with
  | case1 => cases h
  | case2 cs =>
    obtain rfl := Option.some.inj h
    exact ⟨['\r', '\n'], rfl, '\n', rfl, by decide⟩
  | case3 c cs hcrlf hbreak =>
    obtain rfl := Option.some.inj h
    exact ⟨[c], rfl, c, rfl, hbreak⟩
  | case4 c cs hcrlf hbreak ih =>
    obtain ⟨first, rfl, d, hd, hdbreak⟩ := ih h
    refine ⟨c :: first, rfl, d, ?_, hdbreak⟩
    cases first with
    | nil => cases hd
    | cons e first => exact hd

/-! ## As images -/

open JsonText

theorem image_unify (cs : List Char) : Image (cs.any isSeparator) cs (unify cs) := by
  fun_induction unify cs with
  | case1 => exact .nil
  | case2 cs ih =>
    have h : ('\r' :: '\n' :: cs).any isSeparator = cs.any isSeparator := rfl
    rw [h]
    exact .space ['\n'] (.inr rfl) (by simp; decide) (.space [] (.inl rfl) (by simp) ih)
  | case3 c cs hcrlf ih =>
    rw [List.any_cons]
    by_cases hsep : isSeparator c = true
    · have hbreak : isLineBreak c = true := by
        unfold isSeparator at hsep
        simp only [Bool.and_eq_true] at hsep
        exact hsep.1.1
      rw [hsep, Bool.true_or, if_pos hbreak]
      exact .separator hsep ih
    · rw [Bool.eq_false_iff.mpr hsep, Bool.false_or]
      split
      · rename_i hbreak
        have hspace : c = '\n' ∨ c = '\r' := by
          unfold isSeparator at hsep
          simp only [hbreak, Bool.true_and, Bool.and_eq_true, decide_eq_true_eq, not_and_or,
            not_not] at hsep
          exact hsep
        exact .space ['\n'] hspace (by simp; decide) ih
      · exact .keep c ih

/-- Without separators the text is an image of what it becomes. -/
theorem unify_image (h : cs.any isSeparator = false) : Image false (unify cs) cs := by
  fun_induction unify cs with
  | case1 => exact .nil
  | case2 cs ih => exact .space ['\r', '\n'] (.inl rfl) (by simp; decide) (ih h)
  | case3 c cs hcrlf ih =>
    rw [List.any_cons, Bool.or_eq_false_iff] at h
    split
    · rename_i hbreak
      have hspace : c = '\n' ∨ c = '\r' := by
        have hsep := h.1
        unfold isSeparator at hsep
        simp only [hbreak, Bool.true_and, Bool.and_eq_false_iff, decide_eq_false_iff_not,
          not_not] at hsep
        exact hsep
      refine .space [c] (.inl rfl) ?_ (ih h.2)
      rcases hspace with rfl | rfl
      · simp; decide
      · simp; decide
    · exact .keep c (ih h.2)

end PyText
