import Mathlib

/-!
# First free places

One after another takes the first place from a wanted one on that is still free. A place from
`w` to `t` is missing exactly if some stretch that begins at or before `w` and ends at `t` is
crowded: each of its beginnings is wanted by as many as it has places.

**Results.**
* `Parks.full_iff`: which stretches are full.
* `Parks.room`: where every one can have a place of its own below a bound, each finds one.
-/
namespace Parking

variable {ws ps : List Nat} {w p a s t n v : Nat}

/-- The first place from `w` on that is not taken. -/
structure FirstFree (ps : List Nat) (w p : Nat) : Prop where
  le : w ≤ p
  free : p ∉ ps
  first : ∀ q, w ≤ q → q < p → q ∈ ps

/-- The wanted places and the ones taken, the latest first. -/
inductive Parks : List Nat → List Nat → Prop where
  | nil : Parks [] []
  | cons {ws ps : List Nat} {w p : Nat} (h : Parks ws ps) (hp : FirstFree ps w p) :
    Parks (w :: ws) (p :: ps)

/-- Every beginning of the stretch from `a` to `t` is wanted by as many as it has places. -/
def Crowded (ws : List Nat) (a t : Nat) : Prop :=
  ∀ s, a ≤ s → s ≤ t → s + 1 ≤ a + ws.countP fun w => a ≤ w ∧ w ≤ s

instance (ws : List Nat) (a t : Nat) : Decidable (Crowded ws a t) :=
  decidable_of_iff (∀ s < t + 1, a ≤ s → s + 1 ≤ a + ws.countP fun w => a ≤ w ∧ w ≤ s)
    ⟨fun h s ha hs => h s (by omega) ha, fun h s hs ha => h s ha (by omega)⟩

theorem Parks.length_eq (h : Parks ws ps) : ws.length = ps.length := by
  induction h with
  | nil => rfl
  | cons _ _ ih => rw [List.length_cons, List.length_cons, ih]

theorem Parks.nodup (h : Parks ws ps) : ps.Nodup := by
  induction h with
  | nil => exact List.nodup_nil
  | cons _ hp ih => exact List.nodup_cons.mpr ⟨hp.free, ih⟩

/-- No one passes a place that stays free. -/
theorem Parks.stays (h : Parks ws ps) (hs : s ∉ ps) :
    ∀ x ∈ ws.zip ps, x.1 ≤ s → x.2 < s := by
  induction h with
  | nil => simp
  | @cons ws ps w p _ hp ih =>
    rw [List.mem_cons, not_or] at hs
    intro x hx hle
    rcases List.mem_cons.mp hx with rfl | hx
    · by_contra hlt
      exact hs.2 (hp.first s hle (by omega))
    · exact ih hs.2 x hx hle

theorem Parks.le (h : Parks ws ps) : ∀ x ∈ ws.zip ps, x.1 ≤ x.2 := by
  induction h with
  | nil => simp
  | cons _ hp ih =>
    intro x hx
    rcases List.mem_cons.mp hx with rfl | hx
    · exact hp.le
    · exact ih x hx

/-- Different numbers from `a` on and below `b`. -/
theorem length_le_of_mem_Ico {xs : List Nat} {a b : Nat} (hn : xs.Nodup)
    (h : ∀ x ∈ xs, a ≤ x ∧ x < b) : xs.length ≤ b - a := by
  have hsub : xs.toFinset ⊆ Finset.Ico a b := by
    intro x hx
    exact Finset.mem_Ico.mpr (h x (List.mem_toFinset.mp hx))
  have hcard := Finset.card_le_card hsub
  rwa [Nat.card_Ico, List.toFinset_card_of_nodup hn] at hcard

theorem countP_zip_left {f : Nat → Bool} (h : ws.length = ps.length) :
    (ws.zip ps).countP (fun x => f x.1) = ws.countP f := by
  have hmap := List.countP_map (p := f) (f := Prod.fst) (l := ws.zip ps)
  rw [List.map_fst_zip h.le] at hmap
  exact hmap.symm

theorem countP_zip_right {f : Nat → Bool} (h : ws.length = ps.length) :
    (ws.zip ps).countP (fun x => f x.2) = ps.countP f := by
  have hmap := List.countP_map (p := f) (f := Prod.snd) (l := ws.zip ps)
  rw [List.map_snd_zip h.ge] at hmap
  exact hmap.symm

/-- A crowded stretch is full: whoever wants one of its places and cannot pass a free one behind
it is in the part before that. -/
theorem Parks.full_of_crowded (h : Parks ws ps) (hc : Crowded ws a t) (ha : a ≤ s) (hs : s ≤ t) :
    s ∈ ps := by
  by_contra hfree
  obtain ⟨xs, hxs⟩ : ∃ xs, xs = (ws.zip ps).filter fun x => a ≤ x.1 ∧ x.1 ≤ s := ⟨_, rfl⟩
  have hcount : xs.length = ws.countP fun w => a ≤ w ∧ w ≤ s := by
    rw [hxs, ← List.countP_eq_length_filter]
    exact countP_zip_left (f := fun w => a ≤ w ∧ w ≤ s) h.length_eq
  have hnodup : (xs.map Prod.snd).Nodup := by
    have hsub : (xs.map Prod.snd).Sublist ((ws.zip ps).map Prod.snd) := by
      rw [hxs]
      exact List.filter_sublist.map Prod.snd
    rw [List.map_snd_zip h.length_eq.ge] at hsub
    exact h.nodup.sublist hsub
  have hbetween : ∀ q ∈ xs.map Prod.snd, a ≤ q ∧ q < s := by
    intro q hq
    obtain ⟨x, hx, rfl⟩ := List.mem_map.mp hq
    rw [hxs] at hx
    obtain ⟨hmem, hbounds⟩ := List.mem_filter.mp hx
    have hbounds := of_decide_eq_true hbounds
    have hle := h.le x hmem
    exact ⟨by omega, h.stays hfree x hmem hbounds.2⟩
  have hlength := length_le_of_mem_Ico hnodup hbetween
  rw [List.length_map, hcount] at hlength
  have hmany := hc s ha hs
  omega

/-- A full stretch is crowded from the place on behind the last free one before it. -/
theorem Parks.crowded_of_full (h : Parks ws ps)
    (hfull : ∀ s, w ≤ s → s ≤ t → s ∈ ps) : ∃ a ≤ w, Crowded ws a t := by
  classical
  have hex : ∃ a, ∀ s, a ≤ s → s ≤ t → s ∈ ps := ⟨w, hfull⟩
  obtain ⟨a, ha⟩ : ∃ a, a = Nat.find hex := ⟨_, rfl⟩
  have hall : ∀ s, a ≤ s → s ≤ t → s ∈ ps := ha ▸ Nat.find_spec hex
  have haw : a ≤ w := ha ▸ Nat.find_min' hex hfull
  have hbefore : ∀ x ∈ ws.zip ps, a ≤ x.2 → a ≤ x.1 := by
    intro x hx hle2
    by_contra hlt
    have hpred : a - 1 ∉ ps := by
      intro hmem
      apply Nat.find_min hex (m := a - 1) (by omega)
      intro s hs hst
      rcases Nat.lt_or_ge s a with hsa | hsa
      · rwa [show s = a - 1 by omega]
      · exact hall s hsa hst
    have hpassed := h.stays hpred x hx (by omega)
    omega
  refine ⟨a, haw, ?_⟩
  intro s hs hst
  have hrange : (List.range' a (s + 1 - a)).Subperm (ps.filter fun q => a ≤ q ∧ q ≤ s) := by
    refine List.Nodup.subperm List.nodup_range' ?_
    intro q hq
    rw [List.mem_range'_1] at hq
    refine List.mem_filter.mpr ⟨hall q hq.1 (by omega), decide_eq_true ⟨hq.1, by omega⟩⟩
  have hplaces := hrange.length_le
  rw [List.length_range', ← List.countP_eq_length_filter,
    ← countP_zip_right (f := fun q => a ≤ q ∧ q ≤ s) h.length_eq] at hplaces
  have hmono : (ws.zip ps).countP (fun x => decide (a ≤ x.2 ∧ x.2 ≤ s)) ≤
      (ws.zip ps).countP fun x => decide (a ≤ x.1 ∧ x.1 ≤ s) := by
    apply List.countP_mono_left
    intro x hx hin
    have hin := of_decide_eq_true hin
    have hle1 := h.le x hx
    exact decide_eq_true ⟨hbefore x hx hin.1, by omega⟩
  rw [countP_zip_left (f := fun q => a ≤ q ∧ q ≤ s) h.length_eq] at hmono
  omega

/-- **Full stretches.** -/
theorem Parks.full_iff (h : Parks ws ps) :
    (∀ s, w ≤ s → s ≤ t → s ∈ ps) ↔ ∃ a ≤ w, Crowded ws a t := by
  constructor
  · exact h.crowded_of_full
  · intro hex s hs hst
    obtain ⟨a, haw, hc⟩ := hex
    exact h.full_of_crowded hc (by omega) hst

/-- Who wants `w` is sent past `t` exactly if the stretch between is crowded. -/
theorem FirstFree.lt_iff (hp : FirstFree ps w p) (h : Parks ws ps) :
    t < p ↔ ∃ a ≤ w, Crowded ws a t := by
  rw [← h.full_iff]
  constructor
  · intro hlt s hs hst
    exact hp.first s hs (by omega)
  · intro hfull
    by_contra hnot
    exact hp.free (hfull p hp.le (by omega))

/-- **Room.** Where all have places of their own, at or behind the wanted ones and below `n`,
and one more has too, there is a free place for it. -/
theorem Parks.room {es : List (Nat × Nat)} (h : Parks (es.map Prod.fst) ps)
    (hes : ∀ e ∈ es, e.1 ≤ e.2 ∧ e.2 < n) (hn : (v :: es.map Prod.snd).Nodup) (hw : w ≤ v)
    (hv : v < n) : ∃ q, w ≤ q ∧ q < n ∧ q ∉ ps := by
  by_contra hnone
  simp only [not_exists, not_and, not_not] at hnone
  obtain ⟨a, haw, hc⟩ := h.crowded_of_full (w := w) (t := n - 1)
    fun s hs hst => hnone s hs (by omega)
  have hmany := hc (n - 1) (by omega) (le_refl _)
  obtain ⟨xs, hxs⟩ : ∃ xs, xs = es.filter fun e => a ≤ e.1 ∧ e.1 ≤ n - 1 := ⟨_, rfl⟩
  have hcount : (es.map Prod.fst).countP (fun w => decide (a ≤ w ∧ w ≤ n - 1)) = xs.length := by
    rw [List.countP_map, List.countP_eq_length_filter, hxs]
    rfl
  have hsub : (xs.map Prod.snd).Sublist (es.map Prod.snd) := by
    rw [hxs]
    exact List.filter_sublist.map Prod.snd
  have hnodup : (v :: xs.map Prod.snd).Nodup := hn.sublist (hsub.cons_cons v)
  have hbetween : ∀ q ∈ v :: xs.map Prod.snd, a ≤ q ∧ q < n := by
    intro q hq
    rcases List.mem_cons.mp hq with rfl | hq
    · exact ⟨by omega, hv⟩
    · obtain ⟨e, he, rfl⟩ := List.mem_map.mp hq
      rw [hxs] at he
      obtain ⟨hmem, hbounds⟩ := List.mem_filter.mp he
      have hbounds := of_decide_eq_true hbounds
      obtain ⟨hle, hlt⟩ := hes e hmem
      exact ⟨by omega, hlt⟩
  have hlength := length_le_of_mem_Ico hnodup hbetween
  rw [List.length_cons, List.length_map, ← hcount] at hlength
  omega

end Parking
