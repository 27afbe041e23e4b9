import Mathlib

/-!
# Walks with a stack

A node is taken from the top of a stack and the nodes that come next are put in its
place. The nodes of a tree are named by the path that leads to them.

**Results.**
* `Visits.sound`, `Visits.complete`: a walk visits what lies below its stack, and all of
  it when the stack is empty at its end.
* `Visits.ordered`: where the nodes next to one another are in order, so is the walk: a
  node comes before those below it, and those below one before those below a later one.
-/
namespace StackWalk

section

variable {α : Type} (next : α → List α)

/-- A node that a walk from `a` can come to. -/
inductive Below : α → α → Prop where
  | refl (a : α) : Below a a
  | step {a b c : α} (hb : b ∈ next a) (hc : Below b c) : Below a c

/-- From this stack a walk visits these nodes, in this order, and leaves that stack. -/
inductive Visits : List α → List α → List α → Prop where
  | done {stack : List α} : Visits stack [] stack
  | visit {a : α} {stack seen rest : List α} (h : Visits (next a ++ stack) seen rest) :
    Visits (a :: stack) (a :: seen) rest

end

section

variable {α : Type} {next : α → List α} {a b c : α} {stack seen rest : List α}

theorem Below.trans (hab : Below next a b) (hbc : Below next b c) : Below next a c := by
  induction hab with
  | refl => exact hbc
  | step hb _ ih => exact .step hb (ih hbc)

theorem Visits.sound (h : Visits next stack seen rest) (ha : a ∈ seen) :
    ∃ s ∈ stack, Below next s a := by
  induction h with
  | done => cases ha
  | @visit b stack seen rest _ ih =>
    rcases List.mem_cons.mp ha with rfl | ha
    · exact ⟨a, List.mem_cons_self, .refl a⟩
    · obtain ⟨s, hs, hbelow⟩ := ih ha
      rcases List.mem_append.mp hs with hs | hs
      · exact ⟨b, List.mem_cons_self, .step hs hbelow⟩
      · exact ⟨s, List.mem_cons_of_mem b hs, hbelow⟩

theorem Visits.complete (h : Visits next stack seen []) (hb : b ∈ stack)
    (hbelow : Below next b a) : a ∈ seen := by
  generalize hrest : ([] : List α) = rest at h
  induction h generalizing b with
  | done =>
    subst hrest
    cases hb
  | @visit c stack seen rest _ ih =>
    rcases List.mem_cons.mp hb with rfl | hb
    · cases hbelow with
      | refl => exact List.mem_cons_self
      | step hc hbelow =>
        exact List.mem_cons_of_mem _ (ih (List.mem_append_left _ hc) hbelow hrest)
    · exact List.mem_cons_of_mem c (ih (List.mem_append_right _ hb) hbelow hrest)

end

/-! ## Paths -/

section

variable {ν : Type} (lt : ν → ν → Prop)

/-- Two paths part, the first towards the lesser name. -/
def Parted (p q : List ν) : Prop := ∃ c m n, lt m n ∧ c ++ [m] <+: p ∧ c ++ [n] <+: q

/-- The order of a walk. -/
def Before (p q : List ν) : Prop := p <+: q ∧ p ≠ q ∨ Parted lt p q

variable {lt} {p q r : List ν} {next : List ν → List (List ν)} {names : List ν → List ν}
  {stack seen rest : List (List ν)}

theorem Parted.extend (h : Parted lt p q) {p' q' : List ν} (hp : p <+: p') (hq : q <+: q') :
    Parted lt p' q' := by
  obtain ⟨c, m, n, hlt, hm, hn⟩ := h
  exact ⟨c, m, n, hlt, hm.trans hp, hn.trans hq⟩

/-- A path does not come before itself. -/
theorem before_irrefl (hirrefl : ∀ n, ¬ lt n n) : ¬ Before lt p p := by
  intro h
  rcases h with ⟨-, hne⟩ | ⟨c, m, n, hlt, hm, hn⟩
  · exact hne rfl
  · have heq : c ++ [m] = c ++ [n] := List.IsPrefix.eq_of_length
      (List.prefix_of_prefix_length_le hm hn (by simp)) (by simp)
    rw [List.append_cancel_left_eq, List.singleton_inj] at heq
    exact hirrefl n (heq ▸ hlt)

theorem Below.isPrefix (hnext : ∀ p q, q ∈ next p → p <+: q) (h : Below next p q) : p <+: q := by
  induction h with
  | refl => exact List.prefix_rfl
  | step hb _ ih => exact (hnext _ _ hb).trans ih

theorem Visits.ordered (hnext : ∀ p, next p = (names p).map fun n => p ++ [n])
    (hnames : ∀ p, (names p).Pairwise lt) (hstack : stack.Pairwise (Parted lt))
    (h : Visits next stack seen rest) : seen.Pairwise (Before lt) := by
  have hstarts {p q : List ν} (hq : q ∈ next p) : p <+: q ∧ p ≠ q := by
    rw [hnext] at hq
    obtain ⟨n, -, rfl⟩ := List.mem_map.mp hq
    exact ⟨List.prefix_append _ _, by simp⟩
  induction h with
  | done => exact .nil
  | @visit p stack seen rest h ih =>
    obtain ⟨hp, hstack⟩ := List.pairwise_cons.mp hstack
    have hchildren : (next p).Pairwise (Parted lt) := by
      rw [hnext, List.pairwise_map]
      exact (hnames p).imp fun {m n} hlt => ⟨p, m, n, hlt, List.prefix_rfl, List.prefix_rfl⟩
    refine .cons (fun q hq => ?_) (ih (List.pairwise_append.mpr ⟨hchildren, hstack, ?_⟩))
    · obtain ⟨s, hs, hbelow⟩ := h.sound hq
      have hsq := hbelow.isPrefix fun _ _ hq => (hstarts hq).1
      rcases List.mem_append.mp hs with hs | hs
      · obtain ⟨hps, hne⟩ := hstarts hs
        refine .inl ⟨hps.trans hsq, fun heq => ?_⟩
        rw [← heq] at hsq
        exact hne (List.IsPrefix.eq_of_length_le hps hsq.length_le)
      · exact .inr ((hp s hs).extend List.prefix_rfl hsq)
    · intro q hq s hs
      exact (hp s hs).extend (hstarts hq).1 List.prefix_rfl

end

end StackWalk
