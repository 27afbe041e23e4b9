import Northstack.Core.Runs

/-!
# A rolling window of admissions

An admission is counted for as long as it is less than `w` old. Who admits at
most `n` at a time may forget what has left the window: the admissions kept are
the last of all there were.

**Results.**
* `Keeps.live`, `Keeps.push`: forgetting and admitting keep the last of them.
* `Spaced.push`: where fewer than `n` are kept one more may be admitted, and any
  `n + 1` consecutive admissions still span `w`.
* `Keeps.left`: what is `w` old is not kept.
-/
namespace Window

variable {τ : Type} [AddCommGroup τ] [LinearOrder τ]

/-- The admissions that are less than `w` old. -/
def live (w now : τ) (ts : List τ) : List τ := ts.filter fun t => now - t < w

/-- Any `n + 1` consecutive admissions span at least `w`. -/
def Spaced (n : Nat) (w : τ) (ts : List τ) : Prop :=
  ∀ i a b, ts[i]? = some a → ts[i + n]? = some b → w ≤ b - a

/-- In `all`, the admissions so far, `kept` are the last ones, and the others are `w` old. -/
structure Keeps (w now : τ) (all kept : List τ) : Prop where
  sorted : all.Pairwise (· ≤ ·)
  past : ∀ t ∈ all, t ≤ now
  split : ∃ old, all = old ++ kept ∧ ∀ t ∈ old, w ≤ now - t

section

variable {w now later : τ} {n : Nat} {ts all kept : List τ}

theorem mem_live {t : τ} : t ∈ live w now ts ↔ t ∈ ts ∧ now - t < w := by
  simp [live]

/-- Of admissions in order, the ones that have left the window come first. -/
theorem live_split [IsOrderedAddMonoid τ] (w now : τ) (hs : ts.Pairwise (· ≤ ·)) :
    ∃ old, ts = old ++ live w now ts ∧ ∀ t ∈ old, w ≤ now - t := by
  induction ts with
  | nil => exact ⟨[], rfl, by simp⟩
  | cons t ts ih =>
    rw [List.pairwise_cons] at hs
    by_cases ht : now - t < w
    · have hall : live w now (t :: ts) = t :: ts := by
        refine List.filter_eq_self.mpr fun u hu => ?_
        have hle : t ≤ u := by
          rcases List.mem_cons.mp hu with rfl | hu
          · exact le_refl u
          · exact hs.1 u hu
        exact decide_eq_true ((sub_le_sub_left hle now).trans_lt ht)
      exact ⟨[], by rw [hall, List.nil_append], by simp⟩
    · obtain ⟨old, heq, hold⟩ := ih hs.2
      refine ⟨t :: old, ?_, ?_⟩
      · have hdrop : live w now (t :: ts) = live w now ts := by
          simp [live, ht]
        rw [hdrop, List.cons_append, ← heq]
      · intro u hu
        rcases List.mem_cons.mp hu with rfl | hu
        · exact not_lt.mp ht
        · exact hold u hu

theorem Keeps.nil : Keeps w now [] [] := ⟨.nil, by simp, [], rfl, by simp⟩

theorem Keeps.live [IsOrderedAddMonoid τ] (hk : Keeps w now all kept) (hle : now ≤ later) :
    Keeps w later all (live w later kept) := by
  obtain ⟨old, heq, hold⟩ := hk.split
  have hsorted := hk.sorted
  rw [heq, List.pairwise_append] at hsorted
  obtain ⟨gone, hgone, hout⟩ := live_split w later hsorted.2.1
  refine ⟨hk.sorted, fun t ht => (hk.past t ht).trans hle, old ++ gone, ?_, ?_⟩
  · rw [List.append_assoc, ← hgone, heq]
  · intro t ht
    rcases List.mem_append.mp ht with ht | ht
    · exact (hold t ht).trans (sub_le_sub_right hle t)
    · exact hout t ht

theorem Keeps.push (hk : Keeps w now all kept) : Keeps w now (all ++ [now]) (kept ++ [now]) := by
  obtain ⟨old, heq, hold⟩ := hk.split
  refine ⟨?_, ?_, old, by rw [heq, List.append_assoc], hold⟩
  · refine List.pairwise_append.mpr ⟨hk.sorted, List.pairwise_singleton _ _, ?_⟩
    intro t ht u hu
    rw [List.mem_singleton.mp hu]
    exact hk.past t ht
  · intro t ht
    rcases List.mem_append.mp ht with ht | ht
    · exact hk.past t ht
    · exact (List.mem_singleton.mp ht).le

theorem Spaced.push (hs : Spaced n w all) (hk : Keeps w now all kept) (hlen : kept.length < n) :
    Spaced n w (all ++ [now]) := by
  intro i a b ha hb
  obtain ⟨old, heq, hold⟩ := hk.split
  have hsum : all.length = old.length + kept.length := by rw [heq, List.length_append]
  have hlast : i + n < (all ++ [now]).length := (List.getElem?_eq_some_iff.mp hb).1
  rw [List.length_append, List.length_singleton] at hlast
  rw [List.getElem?_append_left (by omega)] at ha
  rcases Nat.lt_or_ge (i + n) all.length with hin | hout
  · rw [List.getElem?_append_left hin] at hb
    exact hs i a b ha hb
  · -- the new admission: the one `n` before it has been forgotten
    have hnow : b = now := by
      rw [List.getElem?_append_right hout, show i + n - all.length = 0 by omega] at hb
      exact (Option.some.inj hb).symm
    rw [hnow]
    refine hold a (List.mem_of_getElem? (i := i) ?_)
    rw [heq, List.getElem?_append_left (by omega)] at ha
    exact ha

/-- What is `w` old is not among the kept, where all that are kept are in the window. -/
theorem Keeps.left (hk : Keeps w now all kept) (hin : ∀ t ∈ kept, now - t < w) {i : Nat} {t : τ}
    (ht : all[i]? = some t) (hold : w ≤ now - t) : kept <:+ all.drop (i + 1) := by
  obtain ⟨old, heq, -⟩ := hk.split
  have hlt : i < old.length := by
    by_contra hge
    rw [heq, List.getElem?_append_right (by omega)] at ht
    exact absurd (hin t (List.mem_of_getElem? ht)) (not_lt.mpr hold)
  rw [heq, List.drop_append_of_le_length (by omega)]
  exact List.suffix_append _ _

end

end Window
