import Mathlib

/-!
# The text before a separator

`before w xs` is what stands in front of the first place where `w` occurs in `xs`, and all of
`xs` where it does not occur. A word is unbordered if no shorter one both begins and ends it:
then no occurrence reaches from a text into the separator behind it.

**Results.**
* `before_insert`: a text without the separator is what stands before one put behind it.
* `before_found`: a text with the separator is cut inside, whatever stands behind it.
-/
namespace Borders

variable {α : Type*} [DecidableEq α] {w p : List α}

/-- What both begins and ends `w` is empty or `w`. -/
def Unbordered (w : List α) : Prop := ∀ r ∈ w.tails, r <+: w → r = [] ∨ r = w

instance (w : List α) : Decidable (Unbordered w) :=
  inferInstanceAs (Decidable (∀ r ∈ w.tails, r <+: w → r = [] ∨ r = w))

def before (w : List α) : List α → List α
  | [] => []
  | c :: cs => if w <+: c :: cs then [] else c :: before w cs

omit [DecidableEq α] in
/-- What begins in front of an unbordered `w` ends in front of it. -/
theorem Unbordered.prefix_left (hw : Unbordered w) (hp : p ≠ []) {x : List α}
    (h : w <+: p ++ (w ++ x)) : w <+: p := by
  rcases le_total w.length p.length with hle | hle
  · exact List.prefix_of_prefix_length_le h (List.prefix_append _ _) hle
  · obtain ⟨r, hr⟩ := List.prefix_of_prefix_length_le (List.prefix_append p _) h hle
    have hrest : r <+: w ++ x := by
      rw [← List.prefix_append_right_inj p, hr]
      exact h
    have hlength : r.length ≤ w.length := by
      rw [← hr, List.length_append]
      omega
    have hborder := List.prefix_of_prefix_length_le hrest (List.prefix_append w x) hlength
    rcases hw r ((List.mem_tails r w).mpr ⟨p, hr⟩) hborder with hnil | hall
    · rw [← hr, hnil, List.append_nil]
    · rw [hall] at hr
      exact absurd (List.append_left_eq_self.mp hr) hp

theorem before_missing (h : ¬ w <:+: p) : before w p = p := by
  induction p with
  | nil => rfl
  | cons c p ih =>
    rw [List.infix_cons_iff, not_or] at h
    unfold before
    rw [if_neg h.1, ih h.2]

/-- A separator behind a text that has none. -/
theorem before_insert (hw : Unbordered w) (hne : w ≠ []) (h : ¬ w <:+: p) (x : List α) :
    before w (p ++ (w ++ x)) = p := by
  induction p with
  | nil =>
    cases w with
    | nil => exact absurd rfl hne
    | cons a w => exact if_pos (List.prefix_append (a :: w) x)
  | cons c p ih =>
    have hstart : ¬ w <+: c :: (p ++ (w ++ x)) := by
      intro hstart
      exact h (hw.prefix_left (List.cons_ne_nil c p) hstart).isInfix
    rw [List.infix_cons_iff, not_or] at h
    rw [List.cons_append, before, if_neg hstart, ih h.2]

/-- A separator inside a text. -/
theorem before_found (hne : w ≠ []) (h : w <:+: p) (x : List α) :
    ∃ rest, p = before w (p ++ x) ++ (w ++ rest) := by
  induction p with
  | nil => exact absurd (List.infix_nil.mp h) hne
  | cons c p ih =>
    rw [List.cons_append, before]
    by_cases hstart : w <+: c :: (p ++ x)
    · obtain ⟨rest, hrest⟩ := List.prefix_of_prefix_length_le hstart
        (List.prefix_append (c :: p) x) h.length_le
      rw [if_pos hstart]
      exact ⟨rest, hrest.symm⟩
    · rw [if_neg hstart]
      rcases List.infix_cons_iff.mp h with hhere | hlater
      · exact absurd (hhere.trans (List.prefix_append (c :: p) x)) hstart
      · obtain ⟨rest, hrest⟩ := ih hlater
        exact ⟨rest, congrArg (c :: ·) hrest⟩

end Borders
