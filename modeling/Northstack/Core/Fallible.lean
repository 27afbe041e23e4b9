import Mathlib

/-!
# Steps that may fail

A list is taken through a step that may raise.

**Results.**
* `mapM_ok`: what comes out is what the step makes of the elements.
* `mapM_isOk_iff`: it comes to its end exactly when the step does for each element.
* `mapM_error`: what it raises the step raises for some element.
-/
namespace Fallible

variable {ε α β : Type} {f : α → Except ε β} {l : List α} {out : List β} {e : ε}

theorem mapM_cons (a : α) : (a :: l).mapM f =
    match f a with
    | .error e => .error e
    | .ok b =>
      match l.mapM f with
      | .error e => .error e
      | .ok bs => .ok (b :: bs) := by
  rw [List.mapM_cons]
  cases f a with
  | error e => rfl
  | ok b => cases l.mapM f <;> rfl

theorem mapM_ok (h : l.mapM f = .ok out) :
    (∀ b ∈ out, ∃ a ∈ l, f a = .ok b) ∧ ∀ a ∈ l, ∃ b ∈ out, f a = .ok b := by
  induction l generalizing out with
  | nil =>
    cases h
    simp
  | cons a l ih =>
    rw [mapM_cons] at h
    cases ha : f a with
    | error e =>
      rw [ha] at h
      cases h
    | ok b =>
      cases hl : l.mapM f with
      | error e =>
        rw [ha, hl] at h
        cases h
      | ok bs =>
        rw [ha, hl] at h
        cases h
        obtain ⟨hright, hleft⟩ := ih hl
        constructor
        · intro c hc
          rcases List.mem_cons.mp hc with rfl | hc
          · exact ⟨a, List.mem_cons_self, ha⟩
          · obtain ⟨x, hx, hfx⟩ := hright c hc
            exact ⟨x, List.mem_cons_of_mem _ hx, hfx⟩
        · intro x hx
          rcases List.mem_cons.mp hx with rfl | hx
          · exact ⟨b, List.mem_cons_self, ha⟩
          · obtain ⟨c, hc, hfx⟩ := hleft x hx
            exact ⟨c, List.mem_cons_of_mem _ hc, hfx⟩

theorem mapM_error (h : l.mapM f = .error e) : ∃ a ∈ l, f a = .error e := by
  induction l with
  | nil => cases h
  | cons a l ih =>
    rw [mapM_cons] at h
    cases ha : f a with
    | error e' =>
      rw [ha] at h
      cases h
      exact ⟨a, List.mem_cons_self, ha⟩
    | ok b =>
      cases hl : l.mapM f with
      | error e' =>
        rw [ha, hl] at h
        cases h
        obtain ⟨x, hx, hfx⟩ := ih hl
        exact ⟨x, List.mem_cons_of_mem _ hx, hfx⟩
      | ok bs =>
        rw [ha, hl] at h
        cases h

/-- Where the step of each element is known, so is the whole. -/
theorem mapM_map {g : α → β} (h : ∀ a ∈ l, f a = .ok (g a)) : l.mapM f = .ok (l.map g) := by
  induction l with
  | nil => rfl
  | cons a l ih =>
    rw [mapM_cons, h a List.mem_cons_self, ih fun x hx => h x (List.mem_cons_of_mem _ hx)]
    rfl

theorem mapM_isOk_iff : (∃ out, l.mapM f = .ok out) ↔ ∀ a ∈ l, ∃ b, f a = .ok b := by
  constructor
  · rintro ⟨out, h⟩ a ha
    obtain ⟨b, -, hb⟩ := (mapM_ok h).2 a ha
    exact ⟨b, hb⟩
  · intro h
    cases hl : l.mapM f with
    | ok out => exact ⟨out, rfl⟩
    | error e =>
      obtain ⟨a, ha, hfa⟩ := mapM_error hl
      obtain ⟨b, hb⟩ := h a ha
      rw [hfa] at hb
      cases hb

end Fallible
