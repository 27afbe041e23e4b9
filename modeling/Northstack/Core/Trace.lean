import Mathlib

/-!
# Guarded traces

A trace lists what was observed, oldest first. `Legal allows` are the traces in
which each observation was allowed by those before it; `about` keeps what
concerns one key, `total` adds a measure up.

**Results.**
* `Legal.split`: what was observed anywhere in a legal trace was allowed there.
* `total_about`: a measure of one key is a measure of what concerns the key.
* `total_by_key`: a measure is the sum of its shares.
-/
namespace Trace

variable {α κ M : Type}

/-! ## Legal traces -/

inductive Legal (allows : List α → α → Prop) : List α → Prop where
  | nil : Legal allows []
  | snoc {h : List α} {o : α} (hl : Legal allows h) (ho : allows h o) : Legal allows (h ++ [o])

section

variable {allows allows' : List α → α → Prop} {h pre post : List α} {o : α}

theorem Legal.mono (hm : ∀ h o, allows h o → allows' h o) (hl : Legal allows h) :
    Legal allows' h := by
  induction hl with
  | nil => exact .nil
  | snoc _ ho ih => exact .snoc ih (hm _ _ ho)

theorem Legal.of_prefix (hl : Legal allows h) (hp : pre <+: h) : Legal allows pre := by
  induction hl generalizing pre with
  | nil =>
    rw [List.prefix_nil.mp hp]
    exact .nil
  | @snoc h o hl ho ih =>
    rcases List.prefix_concat_iff.mp hp with rfl | hp
    · exact .snoc hl ho
    · exact ih hp

theorem Legal.last (hl : Legal allows (h ++ [o])) : allows h o := by
  generalize hk : h ++ [o] = k at hl
  cases hl with
  | nil => simp at hk
  | @snoc h' o' _ ho =>
    obtain ⟨rfl, he⟩ := List.append_inj' hk rfl
    cases he
    exact ho

theorem Legal.append (hl : Legal allows h) (hp : ∀ k, ∀ x ∈ post, allows k x) :
    Legal allows (h ++ post) := by
  induction post generalizing h with
  | nil => rwa [List.append_nil]
  | cons x post ih =>
    rw [← List.singleton_append, ← List.append_assoc]
    exact ih (.snoc hl (hp _ x List.mem_cons_self))
      fun k y hy => hp k y (List.mem_cons_of_mem _ hy)

/-- What was observed in the middle of a legal trace was allowed there. -/
theorem Legal.split (hl : Legal allows (pre ++ o :: post)) : allows pre o := by
  refine Legal.last (hl.of_prefix ⟨post, ?_⟩)
  simp

theorem legal_iff : Legal allows h ↔ ∀ i, ∀ hi : i < h.length, allows (h.take i) h[i] := by
  constructor
  · intro hl i hi
    have hl : Legal allows (h.take i ++ h[i] :: h.drop (i + 1)) := by
      rwa [List.cons_getElem_drop_succ, List.take_append_drop]
    exact hl.split
  · intro hall
    induction h using List.reverseRecOn with
    | nil => exact .nil
    | append_singleton h o ih =>
      refine .snoc (ih fun i hi => ?_) ?_
      · have ha := hall i (by rw [List.length_append]; omega)
        rwa [List.take_append_of_le_length hi.le, List.getElem_append_left hi] at ha
      · have ha := hall h.length (by simp)
        rwa [List.take_left, List.getElem_concat_length rfl] at ha

instance [∀ h o, Decidable (allows h o)] : Decidable (Legal allows h) :=
  decidable_of_iff _ legal_iff.symm

end

/-! ## What concerns one key -/

section

variable [DecidableEq κ] (key : α → Option κ) (k : κ)

/-- The observations that concern `k`. -/
def about (h : List α) : List α := h.filter fun o => key o = some k

theorem about_append (h h' : List α) :
    about key k (h ++ h') = about key k h ++ about key k h' :=
  List.filter_append _ _

variable {key k}

theorem about_snoc_of_ne {h : List α} {o : α} (ho : key o ≠ some k) :
    about key k (h ++ [o]) = about key k h := by
  simp [about, ho]

theorem about_snoc {h : List α} {o : α} (ho : key o = some k) :
    about key k (h ++ [o]) = about key k h ++ [o] := by
  simp [about, ho]

theorem mem_about {h : List α} {o : α} : o ∈ about key k h ↔ o ∈ h ∧ key o = some k := by
  simp [about]

end

/-! ## Adding up -/

section

variable [AddCommMonoid M]

def total (f : α → M) (h : List α) : M := (h.map f).sum

@[simp] theorem total_nil (f : α → M) : total f [] = 0 := rfl

@[simp] theorem total_cons (f : α → M) (o : α) (h : List α) :
    total f (o :: h) = f o + total f h := by
  simp [total]

@[simp] theorem total_append (f : α → M) (h h' : List α) :
    total f (h ++ h') = total f h + total f h' := by
  simp [total]

theorem total_zero {f : α → M} {h : List α} (hz : ∀ o ∈ h, f o = 0) : total f h = 0 := by
  induction h with
  | nil => rfl
  | cons o h ih =>
    rw [total_cons, hz o List.mem_cons_self, ih fun x hx => hz x (List.mem_cons_of_mem _ hx),
      add_zero]

theorem total_congr {f g : α → M} {h : List α} (he : ∀ o ∈ h, f o = g o) :
    total f h = total g h := by
  unfold total
  rw [List.map_congr_left he]

theorem total_add (f g : α → M) (h : List α) :
    total (fun o => f o + g o) h = total f h + total g h := by
  induction h with
  | nil => simp
  | cons o h ih =>
    simp only [total_cons, ih]
    abel

/-- Where no two have the same key, a measure is one's own and that of those
with another key. -/
theorem total_remove [DecidableEq κ] {key : α → κ} {f : α → M} {h : List α}
    (hn : (h.map key).Nodup) {o : α} (ho : o ∈ h) :
    total f h = f o + total f (h.filter fun x => key x ≠ key o) := by
  induction h with
  | nil => cases ho
  | cons x h ih =>
    rw [List.map_cons, List.nodup_cons] at hn
    rcases List.mem_cons.mp ho with rfl | ho
    · have hrest : (h.filter fun x => key x ≠ key o) = h := by
        rw [List.filter_eq_self]
        intro x hx
        simp only [ne_eq, decide_not, Bool.not_eq_eq_eq_not, Bool.not_true, decide_eq_false_iff_not]
        intro he
        exact hn.1 (he ▸ List.mem_map_of_mem hx)
      rw [List.filter_cons_of_neg (by simp), hrest, total_cons]
    · have hne : key x ≠ key o := by
        intro he
        exact hn.1 (he ▸ List.mem_map_of_mem ho)
      rw [List.filter_cons_of_pos (by simpa using hne), total_cons, total_cons, ih hn.2 ho]
      abel

/-- A measure that vanishes outside a key only counts what concerns it. -/
theorem total_about [DecidableEq κ] {key : α → Option κ} {k : κ} {f : α → M}
    (hf : ∀ o, key o ≠ some k → f o = 0) (h : List α) : total f (about key k h) = total f h := by
  induction h with
  | nil => rfl
  | cons o h ih =>
    by_cases ho : key o = some k
    · rw [show about key k (o :: h) = o :: about key k h by simp [about, ho], total_cons,
        total_cons, ih]
    · rw [show about key k (o :: h) = about key k h by simp [about, ho], total_cons, hf o ho,
        zero_add, ih]

/-- If distinct keys cover everything a measure counts, it is the sum of the
keys' shares. -/
theorem total_by_key [DecidableEq κ] {key : α → Option κ} {f : α → M} {ks : List κ}
    (hn : ks.Nodup) {h : List α} (hks : ∀ o ∈ h, f o ≠ 0 → ∃ k ∈ ks, key o = some k) :
    (ks.map fun k => total (fun o => if key o = some k then f o else 0) h).sum = total f h := by
  induction h with
  | nil => simp
  | cons o h ih =>
    simp only [total_cons, List.sum_map_add]
    rw [ih fun x hx => hks x (List.mem_cons_of_mem _ hx)]
    congr 1
    by_cases ho : f o = 0
    · simp [ho]
    · obtain ⟨k, hk, he⟩ := hks o List.mem_cons_self ho
      rw [List.sum_map_eq_nsmul_single k, List.count_eq_one_of_mem hn hk, one_nsmul, if_pos he]
      intro k' hne _
      rw [if_neg]
      intro he'
      exact hne (Option.some.inj (he'.symm.trans he))

end
end Trace
