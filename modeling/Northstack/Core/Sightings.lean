import Mathlib

/-!
# Where things were seen

A key is seen at places. The index remembers the place of a key that was seen at one
place only; at the second place the key is taken out and put among the ambiguous
ones, where it stays.

**Results.**
* `Indexes.seeAll`: the index says which keys were seen at one place and which at
  several.
* `Indexes.unique`: it does not depend on the order of the sightings, nor on how
  often they came.
-/
namespace Sightings

/-- The places of the keys seen at one place, and the keys seen at several. -/
structure Index (κ ω : Type) where
  place : κ → Option ω
  ambiguous : Finset κ

def Index.empty {κ ω : Type} : Index κ ω := { place := fun _ => none, ambiguous := ∅ }

variable {κ ω : Type}

/-- A key is seen at a place. -/
def Index.see [DecidableEq κ] [DecidableEq ω] (i : Index κ ω) (k : κ) (w : ω) : Index κ ω :=
  if k ∈ i.ambiguous then i
  else match i.place k with
    | none => { i with place := Function.update i.place k (some w) }
    | some v =>
      if v = w then i
      else {
        place := Function.update i.place k none
        ambiguous := insert k i.ambiguous }

def Index.seeAll [DecidableEq κ] [DecidableEq ω] (i : Index κ ω) (seen : List (κ × ω)) :
    Index κ ω :=
  seen.foldl (fun i s => i.see s.1 s.2) i

theorem Index.seeAll_append [DecidableEq κ] [DecidableEq ω] (i : Index κ ω)
    (seen more : List (κ × ω)) : i.seeAll (seen ++ more) = (i.seeAll seen).seeAll more :=
  List.foldl_append

/-- What the index says of the sightings so far. -/
structure Indexes (i : Index κ ω) (seen : List (κ × ω)) : Prop where
  place : ∀ k w, i.place k = some w ↔ (k, w) ∈ seen ∧ ∀ v, (k, v) ∈ seen → v = w
  ambiguous : ∀ k, k ∈ i.ambiguous ↔ ∃ v w, (k, v) ∈ seen ∧ (k, w) ∈ seen ∧ v ≠ w

variable {i : Index κ ω} {seen : List (κ × ω)} {k : κ} {w : ω}

theorem Indexes.not_both (h : Indexes i seen) (hk : k ∈ i.ambiguous) : i.place k = none := by
  cases hp : i.place k with
  | none => rfl
  | some w =>
    obtain ⟨u, v, hu, hv, hne⟩ := (h.ambiguous k).mp hk
    have hall := ((h.place k w).mp hp).2
    exact absurd ((hall u hu).trans (hall v hv).symm) hne

/-- A key that is neither placed nor ambiguous was not seen. -/
theorem Indexes.unseen (h : Indexes i seen) (hk : k ∉ i.ambiguous) (hp : i.place k = none) :
    (k, w) ∉ seen := by
  intro hmem
  have hone : ∀ v, (k, v) ∈ seen → v = w := by
    intro v hv
    by_contra hne
    exact hk ((h.ambiguous k).mpr ⟨v, w, hv, hmem, hne⟩)
  rw [(h.place k w).mpr ⟨hmem, hone⟩] at hp
  cases hp

theorem indexes_empty : Indexes (Index.empty : Index κ ω) [] :=
  ⟨by simp [Index.empty], by simp [Index.empty]⟩

theorem mem_snoc {k' : κ} {v : ω} :
    (k', v) ∈ seen ++ [(k, w)] ↔ (k', v) ∈ seen ∨ k' = k ∧ v = w := by
  simp

/-- Another sighting where the index does not change. -/
theorem Indexes.again (h : Indexes i seen) (hk : k ∈ i.ambiguous ∨ i.place k = some w) :
    Indexes i (seen ++ [(k, w)]) := by
  constructor
  · intro k' w'
    rw [h.place]
    constructor
    · intro hw'
      obtain ⟨hmem, hall⟩ := hw'
      refine ⟨mem_snoc.mpr (.inl hmem), ?_⟩
      intro v hv
      rcases mem_snoc.mp hv with hv | ⟨rfl, rfl⟩
      · exact hall v hv
      · rcases hk with hk | hk
        · have hplace := (h.place k' w').mpr ⟨hmem, hall⟩
          rw [h.not_both hk] at hplace
          cases hplace
        · exact hall _ ((h.place k' _).mp hk).1
    · intro hw'
      obtain ⟨hmem, hall⟩ := hw'
      refine ⟨?_, fun v hv => hall v (mem_snoc.mpr (.inl hv))⟩
      rcases mem_snoc.mp hmem with hmem | ⟨rfl, rfl⟩
      · exact hmem
      · rcases hk with hk | hk
        · obtain ⟨u, v, hu, hv, hne⟩ := (h.ambiguous k').mp hk
          exact absurd ((hall u (mem_snoc.mpr (.inl hu))).trans
            (hall v (mem_snoc.mpr (.inl hv))).symm) hne
        · exact ((h.place k' w').mp hk).1
  · intro k'
    rw [h.ambiguous]
    constructor
    · intro hk'
      obtain ⟨u, v, hu, hv, hne⟩ := hk'
      exact ⟨u, v, mem_snoc.mpr (.inl hu), mem_snoc.mpr (.inl hv), hne⟩
    · intro hk'
      obtain ⟨u, v, hu, hv, hne⟩ := hk'
      by_cases hkk : k' = k
      · subst hkk
        rcases hk with hk | hk
        · exact (h.ambiguous k').mp hk
        · -- the sighting was there before
          have hw := ((h.place k' w).mp hk).1
          have hold : ∀ x, (k', x) ∈ seen ++ [(k', w)] → (k', x) ∈ seen := by
            intro x hx
            rcases mem_snoc.mp hx with hx | ⟨-, rfl⟩
            · exact hx
            · exact hw
          exact ⟨u, v, hold u hu, hold v hv, hne⟩
      · simp only [mem_snoc, hkk, false_and, or_false] at hu hv
        exact ⟨u, v, hu, hv, hne⟩

section

variable [DecidableEq κ]

/-- The first sighting of a key. -/
theorem Indexes.first (h : Indexes i seen) (hk : k ∉ i.ambiguous) (hp : i.place k = none) :
    Indexes { i with place := Function.update i.place k (some w) } (seen ++ [(k, w)]) := by
  have hno : ∀ v, (k, v) ∉ seen := fun v => h.unseen hk hp
  constructor
  · intro k' w'
    by_cases hkk : k' = k
    · subst hkk
      simp [hno, eq_comm]
    · simp [h.place, hkk]
  · intro k'
    by_cases hkk : k' = k
    · subst hkk
      simp [hno, hk]
    · simp [h.ambiguous, hkk]

/-- A key is seen at a second place. -/
theorem Indexes.second {v : ω} (h : Indexes i seen) (hp : i.place k = some v) (hne : v ≠ w) :
    Indexes { place := Function.update i.place k none, ambiguous := insert k i.ambiguous }
      (seen ++ [(k, w)]) := by
  obtain ⟨hv, -⟩ := (h.place k v).mp hp
  have hboth : (k, v) ∈ seen ++ [(k, w)] ∧ (k, w) ∈ seen ++ [(k, w)] :=
    ⟨mem_snoc.mpr (.inl hv), mem_snoc.mpr (.inr ⟨rfl, rfl⟩)⟩
  constructor
  · intro k' w'
    by_cases hkk : k' = k
    · subst hkk
      dsimp only
      rw [Function.update_self]
      constructor
      · intro hcase
        cases hcase
      · intro hw'
        exact absurd ((hw'.2 v hboth.1).trans (hw'.2 w hboth.2).symm) hne
    · simp [h.place, hkk]
  · intro k'
    rw [Finset.mem_insert]
    by_cases hkk : k' = k
    · subst hkk
      exact iff_of_true (.inl rfl) ⟨v, w, hboth.1, hboth.2, hne⟩
    · simp [h.ambiguous, hkk]

variable [DecidableEq ω]

theorem Indexes.see (h : Indexes i seen) (k : κ) (w : ω) :
    Indexes (i.see k w) (seen ++ [(k, w)]) := by
  unfold Index.see
  split
  · rename_i hk
    exact h.again (.inl hk)
  · rename_i hk
    split
    · rename_i hp
      exact h.first hk hp
    · rename_i v hp
      split
      · rename_i hv
        exact h.again (.inr (hv ▸ hp))
      · rename_i hne
        exact h.second hp hne

/-- What was seen, in whatever order, is what the index says. -/
theorem Indexes.seeAll (h : Indexes i seen) (more : List (κ × ω)) :
    Indexes (i.seeAll more) (seen ++ more) := by
  induction more generalizing i seen with
  | nil => rwa [List.append_nil]
  | cons s more ih =>
    have := ih (h.see s.1 s.2)
    rwa [List.append_assoc, List.singleton_append] at this

end

/-- Two indexes of the same sightings are the same. -/
theorem Indexes.unique {j : Index κ ω} {seen' : List (κ × ω)} (hi : Indexes i seen)
    (hj : Indexes j seen') (hsame : ∀ s, s ∈ seen ↔ s ∈ seen') :
    i.place = j.place ∧ i.ambiguous = j.ambiguous := by
  constructor
  · funext k
    refine Option.ext fun w => ?_
    simp only [hi.place, hj.place, hsame]
  · ext k
    simp only [hi.ambiguous, hj.ambiguous, hsame]

end Sightings
