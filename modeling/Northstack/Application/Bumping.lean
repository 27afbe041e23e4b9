import Northstack.Application.PlannedWaves
import Northstack.Core.Parking

/-!
# Bumped waves

`_separate_mutating` (planning_model.py:294-308) leaves read-only cells on their level and gives
each mutating cell, in the order of the proposal, the first wave from its level on that no
earlier one has. A cell that depends on a bumped one is not bumped with it.

**Results.**
* `separateMutating_some`: what the loop has given the cells.
* `separateMutating_room`: where every cell has a wave of its own in some legal assignment, the
  loop finds one for each.
-/
namespace Northstack

open Parking

namespace ModelBackedPlanner

/-- The levels of the mutating cells, the latest first. -/
def wantedWaves (xs : List (ProposedCell × Nat)) : List Nat :=
  ((xs.filter (isMutating ·.1)).map (·.2)).reverse

/-- The waves they were given. -/
def givenWaves (xs : List (ProposedCell × Nat)) (waves : List Nat) : List Nat :=
  (((xs.zip waves).filter (isMutating ·.1.1)).map (·.2)).reverse

section

variable {xs : List (ProposedCell × Nat)} {x : ProposedCell × Nat} {taken waves ws : List Nat}
  {w i : Nat}

theorem wantedWaves_cons (x : ProposedCell × Nat) (xs : List (ProposedCell × Nat)) :
    wantedWaves (x :: xs) = wantedWaves xs ++ if isMutating x.1 then [x.2] else [] := by
  unfold wantedWaves
  by_cases hx : isMutating x.1 = true
  · simp [hx]
  · simp [hx]

theorem givenWaves_cons (x : ProposedCell × Nat) (xs : List (ProposedCell × Nat)) (w : Nat)
    (waves : List Nat) : givenWaves (x :: xs) (w :: waves) =
      givenWaves xs waves ++ if isMutating x.1 then [w] else [] := by
  unfold givenWaves
  rw [List.zip_cons_cons]
  by_cases hx : isMutating x.1 = true
  · simp [hx]
  · simp [hx]

/-- The search ends at the first free wave, or where all waves there are are taken. -/
theorem freeWave_cases (taken : List Nat) (w fuel : Nat) (hfuel : maxPlannedWaves < w + fuel) :
    (∃ p, freeWave taken fuel w = some p ∧ FirstFree taken w p) ∨
      freeWave taken fuel w = none ∧ ∀ q, w ≤ q → q < maxPlannedWaves → q ∈ taken := by
  induction fuel generalizing w with
  | zero => exact .inr ⟨rfl, fun q hq hlt => absurd hlt (by omega)⟩
  | succ fuel ih =>
    unfold freeWave
    by_cases hw : w ∈ taken
    · rw [if_pos hw]
      by_cases hlast : maxPlannedWaves ≤ w + 1
      · rw [if_pos hlast]
        refine .inr ⟨rfl, ?_⟩
        intro q hq hlt
        rwa [show q = w by omega]
      · rw [if_neg hlast]
        have hnext (q : Nat) (hq : w ≤ q) (hrest : w + 1 ≤ q → q ∈ taken) : q ∈ taken := by
          rcases Nat.eq_or_lt_of_le hq with rfl | hlt
          · exact hw
          · exact hrest hlt
        rcases ih (w + 1) (by omega) with ⟨p, hp, hfirst⟩ | ⟨hnone, hall⟩
        · refine .inl ⟨p, hp, Nat.le_of_succ_le hfirst.le, hfirst.free, ?_⟩
          intro q hq hlt
          exact hnext q hq fun hle => hfirst.first q hle hlt
        · refine .inr ⟨hnone, ?_⟩
          intro q hq hlt
          exact hnext q hq fun hle => hall q hle hlt
    · rw [if_neg hw]
      exact .inl ⟨w, rfl, le_refl w, hw, fun q hq hlt => absurd hlt (by omega)⟩

/-- **Bumping.** What the `i`-th cell has been given, behind what those before it have. -/
theorem separateMutating_some (hp : Parks ws taken)
    (h : separateMutating xs taken = some waves) :
    waves.length = xs.length ∧ ∀ i x, xs[i]? = some x → ∃ w, waves[i]? = some w ∧
      Parks (wantedWaves (xs.take i) ++ ws) (givenWaves (xs.take i) waves ++ taken) ∧
      (isMutating x.1 = true → FirstFree (givenWaves (xs.take i) waves ++ taken) x.2 w) ∧
      (isMutating x.1 = false → w = x.2) := by
  induction xs generalizing taken waves ws with
  | nil =>
    cases h
    simp
  | cons y xs ih =>
    obtain ⟨cell, level⟩ := y
    unfold separateMutating at h
    split at h
    · rename_i hmutating
      have hfirst := freeWave_cases taken level (maxPlannedWaves + 1) (by omega)
      split at h
      · rename_i p hfree
        obtain ⟨rest, hrest, rfl⟩ := Option.map_eq_some_iff.mp h
        rw [hfree] at hfirst
        rcases hfirst with ⟨q, hq, hfirst⟩ | ⟨hnone, -⟩
        · cases hq
          obtain ⟨hlength, hgiven⟩ := ih (hp.cons hfirst) hrest
          refine ⟨by rw [List.length_cons, List.length_cons, hlength], ?_⟩
          intro i x hx
          cases i with
          | zero =>
            cases hx
            refine ⟨p, rfl, hp, fun _ => hfirst, ?_⟩
            intro hread
            rw [hmutating] at hread
            cases hread
          | succ i =>
            rw [List.take_succ_cons, wantedWaves_cons, givenWaves_cons, if_pos hmutating,
              if_pos hmutating, List.append_assoc, List.append_assoc]
            exact hgiven i x hx
        · cases hnone
      · cases h
    · rename_i hread
      obtain ⟨rest, hrest, rfl⟩ := Option.map_eq_some_iff.mp h
      obtain ⟨hlength, hgiven⟩ := ih hp hrest
      refine ⟨by rw [List.length_cons, List.length_cons, hlength], ?_⟩
      intro i x hx
      cases i with
      | zero =>
        cases hx
        exact ⟨level, rfl, hp, fun hmutating => absurd hmutating hread, fun _ => rfl⟩
      | succ i =>
        rw [List.take_succ_cons, wantedWaves_cons, givenWaves_cons, if_neg hread,
          List.append_nil, List.append_nil]
        exact hgiven i x hx

/-- **Room for all.** The pairs hold a cell with its level and its wave in a legal assignment. -/
theorem separateMutating_room {ys : List ((ProposedCell × Nat) × Nat)} {es : List (Nat × Nat)}
    (hp : Parks (es.map Prod.fst) taken) (hes : ∀ e ∈ es, e.1 ≤ e.2 ∧ e.2 < maxPlannedWaves)
    (hys : ∀ y ∈ ys, y.1.2 ≤ y.2 ∧ y.2 < maxPlannedWaves)
    (hn : ((ys.filter (isMutating ·.1.1)).map (·.2) ++ es.map (·.2)).Nodup) :
    ∃ waves, separateMutating (ys.map (·.1)) taken = some waves ∧
      ∀ w ∈ waves, w < maxPlannedWaves := by
  induction ys generalizing taken es with
  | nil => exact ⟨[], rfl, by simp⟩
  | cons y ys ih =>
    obtain ⟨⟨cell, level⟩, v⟩ := y
    obtain ⟨hle, hlt⟩ := hys _ List.mem_cons_self
    have hys' : ∀ y ∈ ys, y.1.2 ≤ y.2 ∧ y.2 < maxPlannedWaves :=
      fun y hy => hys y (List.mem_cons_of_mem _ hy)
    rw [List.map_cons, separateMutating]
    by_cases hmutating : isMutating cell = true
    · rw [List.filter_cons, if_pos hmutating, List.map_cons, List.cons_append] at hn
      have hown : (v :: es.map Prod.snd).Nodup :=
        hn.sublist ((List.sublist_append_right _ _).cons_cons v)
      obtain ⟨q, hq, hqlt, hqfree⟩ := hp.room hes hown hle hlt
      rw [if_pos hmutating]
      rcases freeWave_cases taken level (maxPlannedWaves + 1) (by omega) with
        ⟨p, hfree, hfirst⟩ | ⟨-, hall⟩
      · have hpq : p ≤ q := by
          by_contra hlt
          exact hqfree (hfirst.first q hq (by omega))
        have hn' : ((ys.filter (isMutating ·.1.1)).map (·.2) ++
            ((level, v) :: es).map (·.2)).Nodup := by
          rw [List.map_cons]
          exact List.perm_middle.nodup_iff.mpr hn
        have hparks : Parks (((level, v) :: es).map Prod.fst) (p :: taken) := hp.cons hfirst
        obtain ⟨waves, hwaves, hbound⟩ := ih hparks
          (List.forall_mem_cons.mpr ⟨⟨hle, hlt⟩, hes⟩) hys' hn'
        refine ⟨p :: waves, ?_, List.forall_mem_cons.mpr ⟨by omega, hbound⟩⟩
        rw [hfree]
        exact congrArg (Option.map (p :: ·)) hwaves
      · exact absurd (hall q hq hqlt) hqfree
    · rw [List.filter_cons, if_neg hmutating] at hn
      obtain ⟨waves, hwaves, hbound⟩ := ih hp hes hys' hn
      rw [if_neg hmutating]
      refine ⟨level :: waves, ?_, List.forall_mem_cons.mpr ⟨?_, hbound⟩⟩
      · exact congrArg (Option.map (level :: ·)) hwaves
      · exact lt_of_le_of_lt hle hlt

theorem separateMutating_room_nil {ys : List ((ProposedCell × Nat) × Nat)}
    (hys : ∀ y ∈ ys, y.1.2 ≤ y.2 ∧ y.2 < maxPlannedWaves)
    (hn : ((ys.filter (isMutating ·.1.1)).map (·.2)).Nodup) :
    ∃ waves, separateMutating (ys.map (·.1)) [] = some waves ∧
      ∀ w ∈ waves, w < maxPlannedWaves := by
  have hnone : ∀ e ∈ ([] : List (Nat × Nat)), e.1 ≤ e.2 ∧ e.2 < maxPlannedWaves := by simp
  have hparks : Parks (([] : List (Nat × Nat)).map Prod.fst) [] := Parks.nil
  apply separateMutating_room hparks hnone hys
  rwa [List.map_nil, List.append_nil]

end

end ModelBackedPlanner
end Northstack
