import Mathlib

/-!
# Mappings

A finite map whose keys have no order: two mappings are equal when they have the same
entries, as dictionaries of the source language are. The values may be mappings again,
for the keys alone carry the finiteness.

**Results.**
* `Mapping.ext_get`: a mapping is what it gives for its keys.
* `get?_insert`, `get?_update`, `get?_restrict`, `get?_ofEntries`: what the operations
  give.
* `traverse_map`: what was written value by value is read value by value.
-/

universe u v w

structure Mapping (κ : Type u) (α : Type v) where
  keys : Finset κ
  value : {k // k ∈ keys} → α

namespace Mapping

variable {κ : Type u} {α : Type v} {β : Type w} [DecidableEq κ]

/-- `m.get(k)` -/
def get? (m : Mapping κ α) (k : κ) : Option α :=
  if h : k ∈ m.keys then some (m.value ⟨k, h⟩) else none

variable {m n : Mapping κ α} {k j : κ} {a : α}

theorem isSome_get? : (m.get? k).isSome ↔ k ∈ m.keys := by
  unfold get?
  split <;> simp [*]

theorem get?_eq_none : m.get? k = none ↔ k ∉ m.keys := by
  rw [← isSome_get?]
  simp

theorem mem_keys_of_get? (h : m.get? k = some a) : k ∈ m.keys := by
  rw [← isSome_get?, h]
  rfl

theorem ext_get (h : ∀ k, m.get? k = n.get? k) : m = n := by
  obtain ⟨keys, value⟩ := m
  obtain ⟨keys', value'⟩ := n
  have hkeys : keys = keys' := by
    ext k
    rw [← isSome_get? (m := ⟨keys, value⟩), ← isSome_get? (m := ⟨keys', value'⟩), h k]
  subst hkeys
  congr 1
  funext k
  have hk := h k.1
  unfold get? at hk
  rw [dif_pos k.2, dif_pos k.2] at hk
  exact Option.some.inj hk

theorem ext_iff_keys : (∀ k ∈ m.keys ∪ n.keys, m.get? k = n.get? k) ↔ m = n := by
  constructor
  · intro h
    apply ext_get
    intro k
    by_cases hk : k ∈ m.keys ∪ n.keys
    · exact h k hk
    · simp only [Finset.mem_union, not_or] at hk
      rw [get?_eq_none.mpr hk.1, get?_eq_none.mpr hk.2]
  · intro h k _
    rw [h]

instance [DecidableEq α] : DecidableEq (Mapping κ α) := fun _ _ =>
  decidable_of_iff _ ext_iff_keys

/-- The entries that a function has for these keys. -/
def ofLookup (keys : Finset κ) (f : κ → Option α) : Mapping κ α where
  keys := keys.filter fun k => (f k).isSome
  value k := (f k.1).get (Finset.mem_filter.mp k.2).2

theorem get?_ofLookup {keys : Finset κ} {f : κ → Option α} :
    (ofLookup keys f).get? k = if k ∈ keys then f k else none := by
  unfold get? ofLookup
  by_cases hk : k ∈ keys
  · cases hf : f k with
    | none => simp [hf]
    | some a => simp [hk, hf]
  · simp [hk]

/-- `{}` -/
def empty : Mapping κ α := ofLookup ∅ fun _ => none

@[simp] theorem get?_empty : (empty : Mapping κ α).get? k = none := by
  simp [empty, get?_ofLookup]

/-- `m[k] = a` -/
def insert (m : Mapping κ α) (k : κ) (a : α) : Mapping κ α :=
  ofLookup (Insert.insert k m.keys) fun j => if j = k then some a else m.get? j

theorem get?_insert : (m.insert k a).get? j = if j = k then some a else m.get? j := by
  unfold insert
  rw [get?_ofLookup]
  split
  · rfl
  · next hj =>
    simp only [Finset.mem_insert, not_or] at hj
    rw [if_neg hj.1, get?_eq_none.mpr hj.2]

@[simp] theorem keys_insert : (m.insert k a).keys = Insert.insert k m.keys := by
  ext j
  rw [← isSome_get?, get?_insert, Finset.mem_insert, ← isSome_get?]
  split <;> simp [*]

/-- `{**m, **n}` -/
def update (m n : Mapping κ α) : Mapping κ α :=
  ofLookup (m.keys ∪ n.keys) fun k => (n.get? k).or (m.get? k)

theorem get?_update : (m.update n).get? k = (n.get? k).or (m.get? k) := by
  unfold update
  rw [get?_ofLookup]
  split
  · rfl
  · next hk =>
    simp only [Finset.mem_union, not_or] at hk
    rw [get?_eq_none.mpr hk.1, get?_eq_none.mpr hk.2]
    rfl

@[simp] theorem keys_update : (m.update n).keys = m.keys ∪ n.keys := by
  ext k
  rw [← isSome_get?, get?_update, Finset.mem_union, ← isSome_get?, ← isSome_get?]
  cases n.get? k <;> simp

/-- The entries whose keys are such. -/
def restrict (m : Mapping κ α) (p : κ → Bool) : Mapping κ α :=
  ofLookup m.keys fun k => if p k then m.get? k else none

theorem get?_restrict (p : κ → Bool) :
    (m.restrict p).get? k = if p k then m.get? k else none := by
  unfold restrict
  rw [get?_ofLookup]
  split
  · rfl
  · next hk => simp [get?_eq_none.mpr hk]

/-- A dictionary display in which some entries may be left out. No key stands twice. -/
def ofEntries (entries : List (κ × Option α)) : Mapping κ α :=
  ofLookup (entries.map Prod.fst).toFinset fun k => (entries.lookup k).join

theorem keys_ofEntries (entries : List (κ × Option α)) :
    (ofEntries entries).keys ⊆ (entries.map Prod.fst).toFinset :=
  Finset.filter_subset _ _

theorem get?_ofEntries (entries : List (κ × Option α)) :
    (ofEntries entries).get? k = (entries.lookup k).join := by
  unfold ofEntries
  rw [get?_ofLookup]
  split
  · rfl
  · next hk =>
    have hnone : entries.lookup k = none := by
      rw [List.lookup_eq_none_iff]
      intro e he
      rw [bne_iff_ne]
      intro heq
      exact hk (List.mem_toFinset.mpr (List.mem_map.mpr ⟨e, he, heq.symm⟩))
    rw [hnone]
    rfl

def map (f : α → β) (m : Mapping κ α) : Mapping κ β where
  keys := m.keys
  value k := f (m.value k)

/-- Every value read, if all of them can be. -/
def traverse (f : α → Option β) (m : Mapping κ α) : Option (Mapping κ β) :=
  if h : ∀ k, (hk : k ∈ m.keys) → (f (m.value ⟨k, hk⟩)).isSome then
    some { keys := m.keys, value := fun k => (f (m.value k)).get (h k.1 k.2) }
  else none

omit [DecidableEq κ] in
theorem traverse_map {f : α → β} {g : β → Option α} (h : ∀ a, g (f a) = some a)
    (m : Mapping κ α) : (m.map f).traverse g = some m := by
  unfold traverse map
  rw [dif_pos (by simp [h])]
  simp [h]

end Mapping
