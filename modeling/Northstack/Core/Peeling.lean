import Mathlib

/-!
# Peeling a relation

Removing one element after another, each only behind all that stand before it
in a relation. What can be removed so lies on no cycle; and over finitely many
elements, what cannot be lies on or behind one.

**Results.**
* `Peels.acyclic`: no element of a peeling is on a cycle.
* `exists_first`: without cycles, some element of any finite set is first in it.
-/
namespace Northstack

variable {α : Type} {r : α → α → Prop}

/-- Each element of the list stands behind all its predecessors. -/
inductive Peels (r : α → α → Prop) : List α → Prop where
  | nil : Peels r []
  | snoc {done : List α} {x : α} (h : Peels r done) (hx : ∀ y, r y x → y ∈ done) :
    Peels r (done ++ [x])

theorem Peels.acc {done : List α} (h : Peels r done) {x : α} (hx : x ∈ done) : Acc r x := by
  induction h generalizing x with
  | nil => cases hx
  | snoc _ hp ih =>
    rcases List.mem_append.mp hx with hx | hx
    · exact ih hx
    · rw [List.mem_singleton.mp hx]
      exact ⟨_, fun y hr => ih (hp y hr)⟩

/-- What stands before a peeled element is peeled. -/
theorem Peels.closed {done : List α} (h : Peels r done) {x y : α} (hx : x ∈ done) (hy : r y x) :
    y ∈ done := by
  induction h generalizing x with
  | nil => cases hx
  | snoc _ hp ih =>
    apply List.mem_append_left
    rcases List.mem_append.mp hx with hx | hx
    · exact ih hx hy
    · rw [List.mem_singleton.mp hx] at hy
      exact hp y hy

/-- **Peeled elements are on no cycle.** -/
theorem Peels.acyclic {done : List α} (h : Peels r done) {x : α} (hx : x ∈ done) :
    ¬ Relation.TransGen r x x := by
  have hacc := (h.acc hx).transGen
  clear h hx
  induction hacc with
  | intro x _ ih => exact fun hcycle => ih x hcycle hcycle

/-- **Without cycles there is a first element.** -/
theorem exists_first (h : ∀ x, ¬ Relation.TransGen r x x) {s : Set α} (hs : s.Finite)
    (hne : s.Nonempty) : ∃ x ∈ s, ∀ y ∈ s, ¬ r y x := by
  have : IsStrictOrder α (Relation.TransGen r) := { irrefl := h, trans := fun _ _ _ => .trans }
  obtain ⟨x, hx⟩ := hne
  obtain ⟨y, -, hfirst⟩ :=
    (hs.wellFoundedOn (r := Relation.TransGen r)).has_min Set.univ ⟨⟨x, hx⟩, trivial⟩
  exact ⟨y, y.2, fun z hz hr => hfirst ⟨z, hz⟩ trivial (.single hr)⟩

end Northstack
