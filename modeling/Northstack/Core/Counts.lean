import Mathlib

/-!
# Counting occurrences

A dictionary of counters that is filled one occurrence at a time, as the list of its items.

**Results.**
* `Counts.bump`: each counter says how often its key occurred.
* `Counts.mostFrequent`: cut to the most frequent keys, it shows none that is rarer than
  one it leaves out.
-/
namespace Counting

variable {κ : Type*} [BEq κ]

/-- `d[k] = d.get(k, 0) + 1` -/
def bump (k : κ) : List (κ × Nat) → List (κ × Nat)
  | [] => [(k, 1)]
  | (j, n) :: d => if j == k then (j, n + 1) :: d else (j, n) :: bump k d

/-- The counters of these occurrences. -/
structure Counts (d : List (κ × Nat)) (xs : List κ) : Prop where
  keys : (d.map Prod.fst).Nodup
  mem : ∀ k n, (k, n) ∈ d ↔ 0 < n ∧ xs.count k = n

variable {d e : List (κ × Nat)} {xs : List κ} {j k : κ} {n : Nat}

theorem Counts.nil : Counts ([] : List (κ × Nat)) [] where
  keys := .nil
  mem k n := by simp; omega

/-- The items of a dictionary may stand in any order. -/
theorem Counts.perm (h : Counts d xs) (hde : d.Perm e) : Counts e xs where
  keys := (hde.map Prod.fst).nodup_iff.mp h.keys
  mem k n := by rw [← h.mem k n]; exact hde.symm.mem_iff

variable [LawfulBEq κ]

theorem bump_self : bump k ((k, n) :: d) = (k, n + 1) :: d := if_pos (beq_self_eq_true k)

theorem bump_ne (h : j ≠ k) : bump k ((j, n) :: d) = (j, n) :: bump k d :=
  if_neg fun hj => h (eq_of_beq hj)

theorem keys_bump : (bump k d).map Prod.fst =
    if k ∈ d.map Prod.fst then d.map Prod.fst else d.map Prod.fst ++ [k] := by
  induction d with
  | nil => rfl
  | cons c d ih =>
    obtain ⟨i, m⟩ := c
    by_cases hi : i = k
    · subst hi
      simp [bump_self]
    · have hk : k ≠ i := fun h => hi h.symm
      simp only [bump_ne hi, List.map_cons, ih, List.mem_cons, hk, false_or]
      split <;> rfl

/-- Only the counter of the key goes up. -/
theorem mem_bump_ne (h : j ≠ k) : (j, n) ∈ bump k d ↔ (j, n) ∈ d := by
  induction d with
  | nil => simp [bump, h]
  | cons c d ih =>
    obtain ⟨i, m⟩ := c
    by_cases hi : i = k
    · subst hi
      simp [bump_self, h]
    · simp [bump_ne hi, ih]

theorem mem_bump_self (hd : (d.map Prod.fst).Nodup) : (k, n) ∈ bump k d ↔
    n = 1 ∧ k ∉ d.map Prod.fst ∨ ∃ m, (k, m) ∈ d ∧ n = m + 1 := by
  induction d with
  | nil => simp [bump]
  | cons c d ih =>
    obtain ⟨i, m⟩ := c
    obtain ⟨hi, hd⟩ := List.nodup_cons.mp hd
    by_cases hik : i = k
    · subst hik
      have hnot (m' : Nat) : (i, m') ∉ d := fun hm => hi (List.mem_map.mpr ⟨_, hm, rfl⟩)
      simp [bump_self, hnot]
    · have hki : k ≠ i := fun h => hik h.symm
      simp only [bump_ne hik, List.mem_cons, Prod.mk.injEq, hki, false_and, false_or, ih hd,
        List.map_cons]

theorem Counts.mem_keys (h : Counts d xs) : k ∈ d.map Prod.fst ↔ k ∈ xs := by
  refine ⟨fun hk => ?_, fun hk => ?_⟩
  · obtain ⟨⟨_, n⟩, hmem, rfl⟩ := List.mem_map.mp hk
    obtain ⟨hpos, hn⟩ := (h.mem _ n).mp hmem
    exact List.count_pos_iff.mp (hn ▸ hpos)
  · exact List.mem_map.mpr ⟨_, (h.mem k _).mpr ⟨List.count_pos_iff.mpr hk, rfl⟩, rfl⟩

/-- One more occurrence. -/
theorem Counts.bump (h : Counts d xs) (k : κ) : Counts (bump k d) (xs ++ [k]) where
  keys := by
    rw [keys_bump]
    split
    · exact h.keys
    · rename_i hk
      refine List.nodup_append.mpr ⟨h.keys, List.nodup_singleton _, fun i hi j hj hij => hk ?_⟩
      rw [← List.mem_singleton.mp hj, ← hij]
      exact hi
  mem j n := by
    rw [List.count_append]
    by_cases hj : j = k
    · subst hj
      rw [mem_bump_self h.keys, h.mem_keys, List.count_singleton_self]
      refine ⟨fun hn => ?_, fun hn => ?_⟩
      · rcases hn with ⟨rfl, hk⟩ | ⟨m, hm, rfl⟩
        · exact ⟨Nat.one_pos, by rw [List.count_eq_zero_of_not_mem hk]⟩
        · exact ⟨Nat.succ_pos _, by rw [((h.mem j m).mp hm).2]⟩
      · by_cases hk : j ∈ xs
        · exact .inr ⟨_, (h.mem j _).mpr ⟨List.count_pos_iff.mpr hk, rfl⟩, hn.2.symm⟩
        · rw [List.count_eq_zero_of_not_mem hk] at hn
          exact .inl ⟨by omega, hk⟩
    · rw [mem_bump_ne hj, h.mem, List.count_singleton, if_neg (by simpa using Ne.symm hj),
        Nat.add_zero]

/-- **The most frequent keys.** If a dictionary of counters is ordered by falling counts and
cut, no key that is left out occurs more often than one that is shown. -/
theorem Counts.mostFrequent (h : Counts d xs) (limit : Nat)
    (hd : d.Pairwise fun a b => b.2 ≤ a.2) :
    (∀ k n, (k, n) ∈ d.take limit → 0 < n ∧ xs.count k = n) ∧
    (d.take limit).length ≤ limit ∧
    ∀ k ∈ xs, k ∉ (d.take limit).map Prod.fst → ∀ j n, (j, n) ∈ d.take limit → xs.count k ≤ n := by
  refine ⟨fun k n hk => (h.mem k n).mp (List.mem_of_mem_take hk), List.length_take_le _ _,
    fun k hk hout j n hj => ?_⟩
  have hmem : (k, xs.count k) ∈ d := (h.mem k _).mpr ⟨List.count_pos_iff.mpr hk, rfl⟩
  rw [← List.take_append_drop limit d] at hd hmem
  have hdrop : (k, xs.count k) ∈ d.drop limit :=
    (List.mem_append.mp hmem).resolve_left fun hin => hout (List.mem_map_of_mem hin)
  exact (List.pairwise_append.mp hd).2.2 _ hj _ hdrop

end Counting
