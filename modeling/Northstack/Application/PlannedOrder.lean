import Northstack.Application.ProposedLevels

/-!
# The order of bumped waves

A proposal that has legal waves is given some, but a mutating cell may be sent past a cell that
waits for it: a mutating one then moves on too, while one that only reads stays on its level.

**Results.**
* `Assigns.separates`: where legal waves exist, the loop finds a wave for every cell.
* `waves_increase`: a dependency ends up in an earlier wave unless it overtakes.
-/
namespace Northstack

open Levels Parking

namespace ModelBackedPlanner

/-- Waves that increase along the dependencies, with one mutating cell each. -/
structure Assigns (cells : List ProposedCell) (wave : Nat → Nat) : Prop where
  below : ∀ i < cells.length, wave i < maxPlannedWaves
  increasing : ∀ j i, Needs cells j i → wave j < wave i
  apart : ∀ (i j : Nat) (c e : ProposedCell), cells[i]? = some c → cells[j]? = some e →
    isMutating c = true → isMutating e = true → wave i = wave j → i = j

/-- A cell that only reads waits for a mutating one which the earlier mutating ones crowd out of
the waves before it. -/
def OvertakenAt (cells : List ProposedCell) (levels : List Nat) : Prop :=
  ∃ (j i : Nat) (c e : ProposedCell) (m n : Nat), Needs cells j i ∧
    cells[i]? = some c ∧ isMutating c = false ∧ levels[i]? = some n ∧
    cells[j]? = some e ∧ isMutating e = true ∧ levels[j]? = some m ∧
    ∃ a ≤ m, Crowded (wantedWaves ((cells.zip levels).take j)) a (n - 1)

/-- So it is on the cells' levels. -/
def Overtaken (cells : List ProposedCell) : Prop :=
  ∃ levels, LevelsOf cells levels ∧ OvertakenAt cells levels

section

variable {contract : WorkContract} {cells : List ProposedCell} {runId : String} {i j n m : Nat}
  {c e : ProposedCell} {levels waves : List Nat} {wave : Nat → Nat}

theorem assigns_iff : Assigns cells wave ↔ (∀ i < cells.length, wave i < maxPlannedWaves) ∧
    (∀ j < cells.length, ∀ i < cells.length, Needs cells j i → wave j < wave i) ∧
    ∀ i < cells.length, ∀ j < cells.length, cells[i]?.any isMutating = true →
      cells[j]?.any isMutating = true → wave i = wave j → i = j := by
  simp only [Option.any_eq_true]
  constructor
  · intro h
    refine ⟨h.below, fun j _ i _ => h.increasing j i, ?_⟩
    intro i _ j _ hc he
    obtain ⟨c, hc, hcm⟩ := hc
    obtain ⟨e, he, hem⟩ := he
    exact h.apart i j c e hc he hcm hem
  · intro h
    obtain ⟨hbelow, hincreasing, hapart⟩ := h
    refine ⟨hbelow, ?_, ?_⟩
    · intro j i hneeds
      exact hincreasing j hneeds.lt_length.1 i hneeds.lt_length.2 hneeds
    · intro i j c e hc he hcm hem
      exact hapart i (List.getElem?_eq_some_iff.mp hc).1 j (List.getElem?_eq_some_iff.mp he).1
        ⟨c, hc, hcm⟩ ⟨e, he, hem⟩

instance (cells : List ProposedCell) (wave : Nat → Nat) : Decidable (Assigns cells wave) :=
  decidable_of_iff _ assigns_iff.symm

/-! ## The waves -/

/-- The loop finds a wave for every cell. -/
theorem Assigns.separates (ha : Assigns cells wave) (hl : LevelsOf cells levels) :
    ∃ waves, separateMutating (cells.zip levels) [] = some waves ∧
      ∀ w ∈ waves, w < maxPlannedWaves := by
  obtain ⟨ys, hys⟩ : ∃ ys, ys = (cells.zip levels).zipIdx.map fun x => (x.1, wave x.2) := ⟨_, rfl⟩
  have hfst : ys.map (·.1) = cells.zip levels := by
    rw [hys, List.map_map]
    exact List.zipIdx_map_fst 0 (cells.zip levels)
  have hplace {x : (ProposedCell × Nat) × Nat} (hx : x ∈ (cells.zip levels).zipIdx) :
      cells[x.2]? = some x.1.1 ∧ levels[x.2]? = some x.1.2 :=
    List.getElem?_zip_eq_some.mp (List.mem_zipIdx_iff_getElem?.mp hx)
  have hbelow : ∀ y ∈ ys, y.1.2 ≤ y.2 ∧ y.2 < maxPlannedWaves := by
    intro y hy
    rw [hys] at hy
    obtain ⟨x, hx, rfl⟩ := List.mem_map.mp hy
    obtain ⟨hcell, hlevel⟩ := hplace hx
    exact ⟨(hl.level x.2 x.1.2 hlevel).le_of_increasing ha.increasing,
      ha.below x.2 (List.getElem?_eq_some_iff.mp hcell).1⟩
  have hnodup : ((ys.filter (isMutating ·.1.1)).map (·.2)).Nodup := by
    rw [hys, List.filter_map, List.map_map]
    have hplaces : ((cells.zip levels).zipIdx.map Prod.snd).Nodup := by
      rw [List.zipIdx_map_snd]
      exact List.nodup_range'
    refine ((List.Nodup.of_map _ hplaces).filter _).map_on ?_
    intro x hx y hy hwave
    obtain ⟨hx, hxm⟩ := List.mem_filter.mp hx
    obtain ⟨hy, hym⟩ := List.mem_filter.mp hy
    have hsame := ha.apart x.2 y.2 x.1.1 y.1.1 (hplace hx).1 (hplace hy).1 hxm hym hwave
    exact List.inj_on_of_nodup_map hplaces hx hy hsame
  have hroom := separateMutating_room_nil hbelow hnodup
  rwa [hfst] at hroom

theorem mem_givenWaves {xs : List (ProposedCell × Nat)} {x : ProposedCell × Nat} {w : Nat}
    (hj : j < i) (hx : xs[j]? = some x) (hmutating : isMutating x.1 = true)
    (hw : waves[j]? = some w) : w ∈ givenWaves (xs.take i) waves := by
  unfold givenWaves
  rw [List.mem_reverse, List.mem_map]
  refine ⟨(x, w), List.mem_filter.mpr ⟨?_, hmutating⟩, rfl⟩
  apply List.mem_of_getElem? (i := j)
  rw [List.getElem?_zip_eq_some, List.getElem?_take, if_pos hj]
  exact ⟨hx, hw⟩

theorem givenWaves_take {xs : List (ProposedCell × Nat)} {q : Nat} (hj : j ≤ i)
    (hq : q ∈ givenWaves (xs.take j) waves) : q ∈ givenWaves (xs.take i) waves := by
  unfold givenWaves at hq ⊢
  rw [List.mem_reverse, List.mem_map] at hq ⊢
  obtain ⟨y, hy, rfl⟩ := hq
  obtain ⟨hmem, hmutating⟩ := List.mem_filter.mp hy
  refine ⟨y, List.mem_filter.mpr ⟨?_, hmutating⟩, rfl⟩
  obtain ⟨k, hk⟩ := List.mem_iff_getElem?.mp hmem
  obtain ⟨htake, hw⟩ := List.getElem?_zip_eq_some.mp hk
  rw [List.getElem?_take] at htake
  split at htake
  · apply List.mem_of_getElem? (i := k)
    rw [List.getElem?_zip_eq_some, List.getElem?_take, if_pos (by omega)]
    exact ⟨htake, hw⟩
  · cases htake

theorem exists_placed (hl : levels.length = cells.length) (hc : cells[i]? = some c) :
    ∃ n, levels[i]? = some n ∧ (cells.zip levels)[i]? = some (c, n) := by
  have hlt := (List.getElem?_eq_some_iff.mp hc).1
  obtain ⟨n, hn⟩ : ∃ n, levels[i]? = some n := ⟨_, List.getElem?_eq_getElem (by omega)⟩
  exact ⟨n, hn, List.getElem?_zip_eq_some.mpr ⟨hc, hn⟩⟩

/-- No two mutating cells have one wave. -/
theorem waves_apart (h : separateMutating (cells.zip levels) [] = some waves)
    (hl : levels.length = cells.length) (hij : j < i) (hc : cells[i]? = some c)
    (he : cells[j]? = some e) (hcm : isMutating c = true) (hem : isMutating e = true) {v w : Nat}
    (hv : waves[j]? = some v) (hw : waves[i]? = some w) : v ≠ w := by
  obtain ⟨-, hgiven⟩ := separateMutating_some Parks.nil h
  obtain ⟨n, -, hxi⟩ := exists_placed hl hc
  obtain ⟨m, -, hxj⟩ := exists_placed hl he
  obtain ⟨w', hw', -, hfirst, -⟩ := hgiven i (c, n) hxi
  rw [hw] at hw'
  cases hw'
  have hmem := mem_givenWaves hij hxj hem hv
  intro heq
  apply (hfirst hcm).free
  rw [← heq, List.append_nil]
  exact hmem

/-- **Order.** A dependency ends up in an earlier wave, unless it overtakes a cell that only
reads. -/
theorem waves_increase (hl : LevelsOf cells levels) (hno : ¬ OvertakenAt cells levels)
    (h : separateMutating (cells.zip levels) [] = some waves) (hneeds : Needs cells j i)
    (hji : j < i) {v w : Nat} (hv : waves[j]? = some v) (hw : waves[i]? = some w) : v < w := by
  obtain ⟨-, hgiven⟩ := separateMutating_some Parks.nil h
  simp only [List.append_nil] at hgiven
  obtain ⟨c, e, hc, he, -⟩ := id hneeds
  obtain ⟨n, hn, hxi⟩ := exists_placed hl.length hc
  obtain ⟨m, hm, hxj⟩ := exists_placed hl.length he
  have hmn : m < n := (hl.level j m hm).lt (hl.level i n hn) hneeds
  obtain ⟨w', hw', -, hfirst, hkept⟩ := hgiven i (c, n) hxi
  obtain ⟨v', hv', hparks, hfirst', hkept'⟩ := hgiven j (e, m) hxj
  rw [hw] at hw'
  rw [hv] at hv'
  cases hw'
  cases hv'
  cases hem : isMutating e with
  | false =>
    -- the dependency stays on its level, below which no wave of the cell is
    rw [hkept' hem]
    cases hcm : isMutating c with
    | false =>
      rw [hkept hcm]
      exact hmn
    | true => exact lt_of_lt_of_le hmn (hfirst hcm).le
  | true =>
    cases hcm : isMutating c with
    | false =>
      rw [hkept hcm]
      by_contra hlt
      apply hno
      refine ⟨j, i, c, e, m, n, hneeds, hc, hcm, hn, he, hem, hm, ?_⟩
      exact ((hfirst' hem).lt_iff hparks).mp (by omega)
    | true =>
      -- what the dependency found taken is taken for the cell too, and so is its own wave
      by_contra hlt
      apply (hfirst hcm).free
      rcases Nat.lt_or_ge w v with hwv | hvw
      · have hle := (hfirst hcm).le
        exact givenWaves_take hji.le ((hfirst' hem).first w (by omega) hwv)
      · rw [show w = v by omega]
        exact mem_givenWaves hji hxj hem hv

end

end ModelBackedPlanner
end Northstack
