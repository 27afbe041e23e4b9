import Mathlib

/-!
# Occurrences of one list in another

`positions` is every place where `old` stands in `xs`, places that overlap
included. `count` is the scan that resumes behind each occurrence it finds, and
`replaceFirst` swaps the leftmost one, as the string functions of most languages
do.

**Results.** `count_eq_zero`: the scan finds nothing exactly when `old` is no
infix; `positions_eq_singleton`: one position is one way to cut the list around
`old`; `replaceFirst_found`: what the replacement leaves as it was;
`count_elem_replaceFirst`: how it changes the number of one element.
-/
namespace Substrings

variable {α : Type*} [DecidableEq α]

/-- Where `old` stands in `xs`, overlaps counted. -/
def positions (old xs : List α) : List Nat :=
  (List.range (xs.length + 1)).filter fun i => decide (old <+: xs.drop i)

/-- The left-to-right scan; `skip` elements of the last occurrence are still to
be passed over. -/
def countFrom (old : List α) : Nat → List α → Nat
  | _, [] => if old = [] then 1 else 0
  | 0, x :: xs =>
    if old <+: x :: xs then countFrom old (old.length - 1) xs + 1 else countFrom old 0 xs
  | skip + 1, _ :: xs => countFrom old skip xs

/-- Occurrences that do not overlap, the leftmost taken each time. -/
def count (old xs : List α) : Nat := countFrom old 0 xs

/-- The leftmost occurrence of `old` swapped for `new`. -/
def replaceFirst (old new xs : List α) : List α :=
  match xs.dropInfix? old with
  | some (pre, post) => pre ++ new ++ post
  | none => xs

variable {old new xs pre post : List α} {i : Nat}

/-! ## Positions -/

theorem mem_positions :
    i ∈ positions old xs ↔ ∃ pre post, xs = pre ++ old ++ post ∧ pre.length = i := by
  unfold positions
  simp only [List.mem_filter, List.mem_range, decide_eq_true_eq]
  constructor
  · rintro ⟨hi, post, hpost⟩
    refine ⟨xs.take i, post, ?_, ?_⟩
    · rw [List.append_assoc, hpost, List.take_append_drop]
    · rw [List.length_take]
      omega
  · rintro ⟨pre, post, rfl, rfl⟩
    constructor
    · simp only [List.length_append]
      omega
    · rw [List.append_assoc, List.drop_left]
      exact List.prefix_append old post

omit [DecidableEq α] in
theorem infix_iff_cut : old <:+: xs ↔ ∃ pre post, xs = pre ++ old ++ post :=
  ⟨fun ⟨pre, post, h⟩ => ⟨pre, post, h.symm⟩, fun ⟨pre, post, h⟩ => ⟨pre, post, h.symm⟩⟩

/-- A list cut around `old` that has it once can be cut in no other place. -/
theorem positions_eq_singleton (h : (positions old xs).length ≤ 1)
    (hcut : xs = pre ++ old ++ post) : positions old xs = [pre.length] := by
  have hmem : pre.length ∈ positions old xs := mem_positions.mpr ⟨pre, post, hcut, rfl⟩
  match hp : positions old xs with
  | [] => simp [hp] at hmem
  | [i] => simpa [hp, eq_comm] using hmem
  | i :: j :: is => simp [hp] at h

/-! ## The scan -/

theorem count_eq_zero : count old xs = 0 ↔ ¬ old <:+: xs := by
  unfold count
  induction xs with
  | nil => simp [countFrom]
  | cons x xs ih =>
    unfold countFrom
    by_cases hpre : old <+: x :: xs
    · rw [if_pos hpre]
      simp [hpre.isInfix]
    · rw [if_neg hpre, ih, List.infix_cons_iff]
      simp [hpre]

theorem infix_of_count (h : count old xs ≠ 0) : old <:+: xs := by
  by_contra hnot
  exact h (count_eq_zero.mpr hnot)

/-! ## The replacement -/

theorem dropInfix?_eq_none : xs.dropInfix? old = none ↔ ¬ old <:+: xs := by
  constructor
  · rintro hnone ⟨pre, post, hcut⟩
    have hmem : pre.length ∈ positions old xs := mem_positions.mpr ⟨pre, post, hcut.symm, rfl⟩
    -- the shortest cut is what the search would have returned
    have hsome : ∃ n, n ∈ positions old xs := ⟨_, hmem⟩
    classical
    obtain ⟨pre', post', hcut', hlen⟩ := mem_positions.mp (Nat.find_spec hsome)
    have hfound : xs.dropInfix? old = some (pre', post') := by
      rw [List.dropInfix?_eq_some_iff]
      refine ⟨⟨old, hcut', by simp⟩, ?_⟩
      intro p i s hp hi
      rw [hlen]
      apply Nat.find_min' hsome
      exact mem_positions.mpr ⟨p, s, by rw [hp, eq_of_beq hi], rfl⟩
    rw [hnone] at hfound
    cases hfound
  · intro hnot
    cases hdrop : xs.dropInfix? old with
    | none => rfl
    | some cut =>
      obtain ⟨pre, post⟩ := cut
      obtain ⟨⟨mid, hcut, hmid⟩, -⟩ := List.dropInfix?_eq_some_iff.mp hdrop
      exact absurd ⟨pre, post, by rw [hcut, eq_of_beq hmid]⟩ hnot

/-- Only the occurrence is swapped; what stands around it stays. -/
theorem replaceFirst_found (new : List α) (h : old <:+: xs) :
    ∃ pre post, xs = pre ++ old ++ post ∧ replaceFirst old new xs = pre ++ new ++ post := by
  unfold replaceFirst
  cases hdrop : xs.dropInfix? old with
  | none => exact absurd h (dropInfix?_eq_none.mp hdrop)
  | some cut =>
    obtain ⟨pre, post⟩ := cut
    obtain ⟨⟨mid, hcut, hmid⟩, -⟩ := List.dropInfix?_eq_some_iff.mp hdrop
    exact ⟨pre, post, by rw [hcut, eq_of_beq hmid], rfl⟩

theorem replaceFirst_missing (h : ¬ old <:+: xs) : replaceFirst old new xs = xs := by
  unfold replaceFirst
  rw [dropInfix?_eq_none.mpr h]

/-- A list with one occurrence is cut around it in the one way there is. -/
theorem replaceFirst_cut (h : (positions old xs).length ≤ 1) (hcut : xs = pre ++ old ++ post) :
    replaceFirst old new xs = pre ++ new ++ post := by
  obtain ⟨pre', post', hcut', hreplaced⟩ :=
    replaceFirst_found new (infix_iff_cut.mpr ⟨pre, post, hcut⟩)
  have hlen : pre'.length = pre.length := by
    have hone := positions_eq_singleton h hcut
    have htwo := positions_eq_singleton h hcut'
    rw [hone] at htwo
    simpa [eq_comm] using htwo
  rw [hcut, List.append_assoc, List.append_assoc] at hcut'
  obtain ⟨hpre, hrest⟩ := List.append_inj hcut' hlen.symm
  have hpost := List.append_cancel_left hrest
  rw [hreplaced, hpre, hpost]

theorem count_elem_replaceFirst (a : α) (new : List α) (h : old <:+: xs) :
    (replaceFirst old new xs).count a + old.count a = xs.count a + new.count a := by
  obtain ⟨pre, post, hcut, hreplaced⟩ := replaceFirst_found new h
  rw [hreplaced, hcut]
  simp only [List.count_append]
  omega

end Substrings
