import Mathlib

/-!
# Levels of a relation

The level of an element is the length of a longest chain of the relation below it. An
element that has one is on no cycle, and one whose predecessors have levels has the next one
above theirs.

**Results.**
* `Level.succ`: the level of an element with predecessors.
* `Level.le_of_increasing`: no numbering that increases along the relation stays below it.
* `level_map`: a relation over other names has the same levels.
-/
namespace Levels

variable {α : Type*} {r : α → α → Prop} {x d : α} {below : List α} {m n : Nat}

/-- The list goes up to `x` in steps of the relation. -/
def LeadsTo (r : α → α → Prop) (x : α) (below : List α) : Prop := (below ++ [x]).IsChain r

/-- The length of a longest chain below `x`. -/
def Level (r : α → α → Prop) (x : α) (n : Nat) : Prop :=
  IsGreatest { n | ∃ below, LeadsTo r x below ∧ below.length = n } n

theorem leadsTo_nil : LeadsTo r x [] := List.isChain_singleton x

theorem leadsTo_concat : LeadsTo r x (below ++ [d]) ↔ LeadsTo r d below ∧ r d x := by
  unfold LeadsTo
  rw [List.isChain_append]
  simp

theorem Level.unique (h : Level r x m) (h' : Level r x n) : m = n := IsGreatest.unique h h'

theorem level_zero (h : ∀ d, ¬ r d x) : Level r x 0 := by
  refine ⟨⟨[], leadsTo_nil, rfl⟩, ?_⟩
  intro n hn
  obtain ⟨below, hbelow, rfl⟩ := hn
  cases below using List.reverseRecOn with
  | nil => exact le_refl 0
  | append_singleton below d => exact absurd (leadsTo_concat.mp hbelow).2 (h d)

/-- One above the highest of the predecessors. -/
theorem Level.succ (hd : r d x) (h : Level r d m) (hall : ∀ e, r e x → ∃ k ≤ m, Level r e k) :
    Level r x (m + 1) := by
  constructor
  · obtain ⟨below, hbelow, hlength⟩ := h.1
    refine ⟨below ++ [d], leadsTo_concat.mpr ⟨hbelow, hd⟩, ?_⟩
    simp [hlength]
  · intro n hn
    obtain ⟨below, hbelow, rfl⟩ := hn
    cases below using List.reverseRecOn with
    | nil => exact Nat.zero_le _
    | append_singleton below e =>
      obtain ⟨hbelow, he⟩ := leadsTo_concat.mp hbelow
      obtain ⟨k, hk, hlevel⟩ := hall e he
      have hle := hlevel.2 ⟨below, hbelow, rfl⟩
      simp only [List.length_append, List.length_singleton]
      omega

/-- The level grows along the relation. -/
theorem Level.lt (h : Level r d m) (h' : Level r x n) (hd : r d x) : m < n := by
  obtain ⟨below, hbelow, rfl⟩ := h.1
  have hle := h'.2 ⟨below ++ [d], leadsTo_concat.mpr ⟨hbelow, hd⟩, rfl⟩
  simp only [List.length_append, List.length_singleton] at hle
  omega

theorem LeadsTo.length_le (h : LeadsTo r x below) {f : α → Nat}
    (hf : ∀ d x, r d x → f d < f x) : below.length ≤ f x := by
  induction below using List.reverseRecOn generalizing x with
  | nil => exact Nat.zero_le _
  | append_singleton below d ih =>
    obtain ⟨hbelow, hd⟩ := leadsTo_concat.mp h
    have hle := ih hbelow
    have hlt := hf d x hd
    simp only [List.length_append, List.length_singleton]
    omega

/-- A numbering that increases along the relation is nowhere below the levels. -/
theorem Level.le_of_increasing (h : Level r x n) {f : α → Nat}
    (hf : ∀ d x, r d x → f d < f x) : n ≤ f x := by
  obtain ⟨below, hbelow, rfl⟩ := h.1
  exact hbelow.length_le hf

/-! ## Renaming -/

section

variable {β : Type*} {r' : β → β → Prop} {f : α → β}

theorem LeadsTo.map (hf : ∀ y x, r' y (f x) ↔ ∃ z, y = f z ∧ r z x) (h : LeadsTo r x below) :
    LeadsTo r' (f x) (below.map f) := by
  induction below using List.reverseRecOn generalizing x with
  | nil => exact leadsTo_nil
  | append_singleton below d ih =>
    obtain ⟨hbelow, hd⟩ := leadsTo_concat.mp h
    rw [List.map_append, List.map_singleton, leadsTo_concat]
    exact ⟨ih hbelow, (hf _ x).mpr ⟨d, rfl, hd⟩⟩

theorem LeadsTo.of_map (hf : ∀ y x, r' y (f x) ↔ ∃ z, y = f z ∧ r z x) {below' : List β}
    (h : LeadsTo r' (f x) below') : ∃ below, LeadsTo r x below ∧ below.length = below'.length := by
  induction below' using List.reverseRecOn generalizing x with
  | nil => exact ⟨[], leadsTo_nil, rfl⟩
  | append_singleton below' d ih =>
    obtain ⟨hbelow, hd⟩ := leadsTo_concat.mp h
    obtain ⟨z, rfl, hz⟩ := (hf d x).mp hd
    obtain ⟨below, hleads, hlength⟩ := ih hbelow
    refine ⟨below ++ [z], leadsTo_concat.mpr ⟨hleads, hz⟩, ?_⟩
    rw [List.length_append, List.length_append, hlength]
    rfl

/-- Levels do not depend on what the elements are called. -/
theorem level_map (hf : ∀ y x, r' y (f x) ↔ ∃ z, y = f z ∧ r z x) :
    Level r' (f x) n ↔ Level r x n := by
  have hsame : { n | ∃ below, LeadsTo r' (f x) below ∧ below.length = n } =
      { n | ∃ below, LeadsTo r x below ∧ below.length = n } := by
    ext n
    constructor
    · intro h
      obtain ⟨below', hbelow, rfl⟩ := h
      exact LeadsTo.of_map hf hbelow
    · intro h
      obtain ⟨below, hbelow, rfl⟩ := h
      exact ⟨below.map f, hbelow.map hf, List.length_map _⟩
  unfold Level
  rw [hsame]

end

/-! ## The next number above -/

/-- `1 + max(ws, default=-1)` -/
def nextAbove (ws : List Nat) : Nat := ws.foldl (fun m w => max m (w + 1)) 0

theorem foldl_above (ws : List Nat) (m : Nat) :
    m ≤ ws.foldl (fun m w => max m (w + 1)) m ∧
      (∀ w ∈ ws, w < ws.foldl (fun m w => max m (w + 1)) m) ∧
      (ws.foldl (fun m w => max m (w + 1)) m = m ∨
        ∃ w ∈ ws, ws.foldl (fun m w => max m (w + 1)) m = w + 1) := by
  induction ws generalizing m with
  | nil => simp
  | cons v ws ih =>
    rw [List.foldl_cons]
    obtain ⟨hle, hall, hone⟩ := ih (max m (v + 1))
    refine ⟨by omega, ?_, ?_⟩
    · intro w hw
      rcases List.mem_cons.mp hw with rfl | hw
      · omega
      · exact hall w hw
    · rcases hone with heq | ⟨w, hw, heq⟩
      · rcases le_total m (v + 1) with hv | hv
        · exact .inr ⟨v, List.mem_cons_self, by omega⟩
        · exact .inl (by omega)
      · exact .inr ⟨w, .tail _ hw, heq⟩

theorem lt_nextAbove {ws : List Nat} {w : Nat} (h : w ∈ ws) : w < nextAbove ws :=
  (foldl_above ws 0).2.1 w h

theorem nextAbove_cases (ws : List Nat) :
    nextAbove ws = 0 ∧ ws = [] ∨ ∃ w ∈ ws, nextAbove ws = w + 1 := by
  rcases (foldl_above ws 0).2.2 with h | h
  · refine .inl ⟨h, List.eq_nil_iff_forall_not_mem.mpr fun w hw => ?_⟩
    have hlt := lt_nextAbove hw
    unfold nextAbove at hlt
    omega
  · exact .inr h

/-- An element whose predecessors are listed with their levels. -/
theorem level_nextAbove {ws : List Nat} (hws : ∀ w ∈ ws, ∃ d, r d x ∧ Level r d w)
    (hall : ∀ d, r d x → ∃ w ∈ ws, Level r d w) : Level r x (nextAbove ws) := by
  rcases nextAbove_cases ws with ⟨hzero, rfl⟩ | ⟨w, hw, hnext⟩
  · rw [hzero]
    apply level_zero
    intro d hd
    obtain ⟨w, hw, -⟩ := hall d hd
    cases hw
  · obtain ⟨d, hd, hlevel⟩ := hws w hw
    rw [hnext]
    refine hlevel.succ hd ?_
    intro e he
    obtain ⟨k, hk, hk'⟩ := hall e he
    have hlt := lt_nextAbove hk
    exact ⟨k, by omega, hk'⟩

end Levels
