import Mathlib

/-!
# The last of a list that has a value

A list of places some of which have a value: the last such value. It is what is
left of a key that is written place after place.

**Results.**
* `latest_append`: of two lists one behind the other.
* `latest_of_last`: a place with a value, behind which no place has one.
* `latest_congr`, `latest_map`: what it depends on.
-/
namespace Latest

variable {γ γ' δ : Type}

/-- The value of the last place that has one. -/
def latest (value : γ → Option δ) (places : List γ) : Option δ :=
  places.foldl (fun v c => (value c).or v) none

variable {value value' : γ → Option δ} {places places' : List γ} {c : γ} {x : δ}

theorem foldl_or (v : Option δ) :
    places.foldl (fun v c => (value c).or v) v = (latest value places).or v := by
  unfold latest
  induction places using List.reverseRecOn with
  | nil => rfl
  | append_singleton places c ih =>
    rw [List.foldl_append, List.foldl_append, ih]
    exact (Option.or_assoc ..).symm

theorem latest_append :
    latest value (places ++ places') = (latest value places').or (latest value places) := by
  unfold latest
  rw [List.foldl_append, foldl_or]
  rfl

theorem latest_cons : latest value (c :: places) = (latest value places).or (value c) := by
  have hone : latest value [c] = value c := by
    unfold latest
    rw [List.foldl_cons, List.foldl_nil, Option.or_none]
  rw [← List.singleton_append, latest_append, hone]

theorem latest_congr (h : ∀ c ∈ places, value c = value' c) :
    latest value places = latest value' places := by
  induction places with
  | nil => rfl
  | cons c places ih =>
    rw [latest_cons, latest_cons, h c List.mem_cons_self,
      ih fun d hd => h d (List.mem_cons_of_mem _ hd)]

theorem latest_map (f : γ' → γ) (places : List γ') :
    latest value (places.map f) = latest (fun c => value (f c)) places := by
  unfold latest
  rw [List.foldl_map]

theorem latest_eq_none (h : ∀ c ∈ places, value c = none) : latest value places = none := by
  induction places with
  | nil => rfl
  | cons c places ih =>
    rw [latest_cons, h c List.mem_cons_self, ih fun d hd => h d (List.mem_cons_of_mem _ hd)]
    rfl

/-- The value of a place behind which no place has one. -/
theorem latest_of_last (hc : value c = some x) (h : ∀ d ∈ places', value d = none) :
    latest value (places ++ c :: places') = some x := by
  rw [latest_append, latest_cons, latest_eq_none h, hc]
  rfl

end Latest
