import Mathlib

/-!
# Tables with a unique key, and an index beside them

A table is a list of rows no two of which have the same key. A row is put into it in
the place of the row with its key, or at the end; rows are deleted by their keys. What
a table means is the row it has for each key.

An index beside a table holds an entry for every row. It is kept by hand: an entry is
added where a row is, and the entries of deleted rows are taken out.

**Results.**
* `Table.get?_put`, `Table.get?_delete`: what the operations do to the row of each key.
* `Mirrors.put_new`, `Mirrors.put_known`, `Mirrors.delete`: what has to be done to the
  index so that it goes on holding exactly the entries of the rows.
-/
namespace UniqueRows

universe u v w

variable {α : Type u} {κ : Type v}

theorem nodup_filter {key : α → κ} {rows : List α} (h : (rows.map key).Nodup) (p : α → Bool) :
    ((rows.filter p).map key).Nodup :=
  (List.filter_sublist.map key).nodup h

variable [DecidableEq κ]

/-- The row in the place of the first row with its key, or at the end. -/
def putRow (key : α → κ) (row : α) : List α → List α
  | [] => [row]
  | r :: rows => if key r = key row then row :: rows else r :: putRow key row rows

theorem keys_putRow (key : α → κ) (row : α) (rows : List α) :
    (putRow key row rows).map key =
      if key row ∈ rows.map key then rows.map key else rows.map key ++ [key row] := by
  induction rows with
  | nil => simp [putRow]
  | cons r rows ih =>
    unfold putRow
    by_cases h : key r = key row
    · simp [h]
    · simp only [if_neg h, List.map_cons, ih, List.mem_cons, Ne.symm h, false_or]
      split <;> simp

theorem nodup_putRow {key : α → κ} {rows : List α} (h : (rows.map key).Nodup) (row : α) :
    ((putRow key row rows).map key).Nodup := by
  rw [keys_putRow]
  split
  · exact h
  · next hmem => exact h.append (List.nodup_singleton _) (by simpa using hmem)

/-- A table whose rows have the key `key`. -/
structure Table (key : α → κ) where
  rows : List α
  unique : (rows.map key).Nodup

namespace Table

variable {key : α → κ}

def empty : Table key := { rows := [], unique := List.nodup_nil }

/-- The row with a key. -/
def get? (t : Table key) (k : κ) : Option α := t.rows.find? fun r => key r = k

/-- The table with the row in it, and without the one that had its key. -/
def put (t : Table key) (row : α) : Table key :=
  { rows := putRow key row t.rows, unique := nodup_putRow t.unique row }

/-- The table without the rows whose keys are in `gone`. -/
def delete (t : Table key) (gone : κ → Bool) : Table key :=
  { rows := t.rows.filter fun r => !gone (key r), unique := nodup_filter t.unique _ }

variable (t : Table key) {k : κ} {r row : α}

@[simp] theorem get?_empty : (empty : Table key).get? k = none := rfl

theorem get?_eq_none : t.get? k = none ↔ k ∉ t.rows.map key := by
  simp [get?]

/-- The rows of a table are those it has for some key. -/
theorem get?_eq_some : t.get? k = some r ↔ r ∈ t.rows ∧ key r = k := by
  constructor
  · intro h
    exact ⟨List.mem_of_find?_eq_some h, by simpa using List.find?_some h⟩
  · intro h
    obtain ⟨hmem, rfl⟩ := h
    cases hr : t.get? (key r) with
    | none => exact absurd (List.mem_map_of_mem hmem) ((get?_eq_none t).mp hr)
    | some q =>
      have hq : key q = key r := by simpa using List.find?_some hr
      rw [List.inj_on_of_nodup_map t.unique (List.mem_of_find?_eq_some hr) hmem hq]

theorem find?_putRow (rows : List α) :
    (putRow key row rows).find? (fun r => key r = k) =
      if k = key row then some row else rows.find? fun r => key r = k := by
  induction rows with
  | nil => simp [putRow, eq_comm]
  | cons r rows ih =>
    unfold putRow
    by_cases hr : key r = key row
    · simp only [if_pos hr, List.find?_cons]
      by_cases hk : k = key row
      · simp [hk]
      · simp [hk, hr, Ne.symm hk]
    · simp only [if_neg hr, List.find?_cons, ih]
      by_cases hk : k = key row
      · simp [hk, hr]
      · simp [hk]

theorem get?_put : (t.put row).get? k = if k = key row then some row else t.get? k :=
  find?_putRow t.rows

theorem get?_delete (gone : κ → Bool) :
    (t.delete gone).get? k = if gone k then none else t.get? k := by
  unfold get? delete
  rw [List.find?_filter]
  split
  · next h =>
    rw [List.find?_eq_none]
    intro r _
    simp only [Bool.not_eq_true', decide_eq_true_eq, not_and]
    intro hr hk
    rw [hk, h] at hr
    cases hr
  · next h =>
    congr 1
    funext r
    by_cases hk : key r = k
    · simp [hk, h]
    · simp [hk]

theorem rows_put_of_none (h : t.get? (key row) = none) : (t.put row).rows = t.rows ++ [row] := by
  have happ : ∀ rows : List α, key row ∉ rows.map key → putRow key row rows = rows ++ [row] := by
    intro rows
    induction rows with
    | nil => simp [putRow]
    | cons r rows ih =>
      intro hmem
      simp only [List.map_cons, List.mem_cons, not_or] at hmem
      unfold putRow
      rw [if_neg (Ne.symm hmem.1), ih hmem.2, List.cons_append]
  exact happ t.rows ((get?_eq_none t).mp h)

/-- What the new row has in common with the old one is the same in the table. -/
theorem map_put_of_some {β : Type w} {f : α → β} (h : t.get? (key row) = some r)
    (hf : f row = f r) : (t.put row).rows.map f = t.rows.map f := by
  have hmap : ∀ rows : List α, rows.find? (fun q => key q = key row) = some r →
      (putRow key row rows).map f = rows.map f := by
    intro rows
    induction rows with
    | nil => simp
    | cons q rows ih =>
      intro hq
      unfold putRow
      rw [List.find?_cons] at hq
      by_cases hk : key q = key row
      · simp only [hk, decide_true, Option.some.injEq] at hq
        subst hq
        simp [hk, hf]
      · simp only [hk, decide_false] at hq
        simp [hk, ih hq]
  exact hmap t.rows h

theorem mem_put (h : r ∈ (t.put row).rows) : r = row ∨ r ∈ t.rows := by
  have hget := ((t.put row).get?_eq_some (k := key r)).mpr ⟨h, rfl⟩
  rw [get?_put] at hget
  split at hget
  · exact .inl (Option.some.inj hget).symm
  · exact .inr ((get?_eq_some t).mp hget).1

end Table

/-! ## An index beside a table -/

section

variable {ε : Type w} {entry : α → ε} {index : List ε}

/-- The index holds the entries of the rows, each as often as there are such rows. -/
def Mirrors (entry : α → ε) (index : List ε) (rows : List α) : Prop :=
  index.Perm (rows.map entry)

variable {key : α → κ} {t : Table key} {r row : α}

theorem Mirrors.put_new (h : Mirrors entry index t.rows) (hrow : t.get? (key row) = none) :
    Mirrors entry (index ++ [entry row]) (t.put row).rows := by
  unfold Mirrors at *
  rw [t.rows_put_of_none hrow, List.map_append]
  exact h.append_right _

theorem Mirrors.put_known (h : Mirrors entry index t.rows) (hr : t.get? (key row) = some r)
    (hentry : entry row = entry r) : Mirrors entry index (t.put row).rows := by
  unfold Mirrors at *
  rwa [t.map_put_of_some hr hentry]

variable [BEq ε] [LawfulBEq ε]

theorem append_diff (xs ys : List ε) : (xs ++ ys).diff xs = ys := by
  induction xs with
  | nil => simp
  | cons x xs ih => rw [List.cons_append, List.diff_cons, List.erase_cons_head, ih]

omit [DecidableEq κ] in
/-- The entries of the deleted rows are taken out. -/
theorem Mirrors.delete (h : Mirrors entry index t.rows) (gone : κ → Bool) :
    Mirrors entry (index.diff ((t.rows.filter fun r => gone (key r)).map entry))
      (t.delete gone).rows := by
  have hrows : (t.rows.map entry).Perm
      ((t.rows.filter fun r => gone (key r)).map entry ++ (t.delete gone).rows.map entry) := by
    rw [← List.map_append]
    exact (List.filter_append_perm _ _).symm.map entry
  have hdiff := (h.trans hrows).diff_right ((t.rows.filter fun r => gone (key r)).map entry)
  rw [append_diff] at hdiff
  exact hdiff

end

/-- The rows with the ids of some rows are these rows, where the ids are unique. -/
theorem flatMap_filter_id {ι : Type w} [DecidableEq ι] {id : α → ι} {rows some : List α}
    (hids : (rows.map id).Nodup) (hsub : some ⊆ rows) :
    (some.map id).flatMap (fun i => rows.filter fun r => id r = i) = some := by
  have hone : ∀ r ∈ rows, rows.filter (fun q => id q = id r) = [r] := by
    clear hsub
    induction rows with
    | nil => simp
    | cons q rows ih =>
      simp only [List.map_cons, List.nodup_cons] at hids
      intro r hr
      rcases List.mem_cons.mp hr with rfl | hr
      · rw [List.filter_cons_of_pos (by simp), List.filter_eq_nil_iff.mpr]
        intro q hq
        simp only [decide_eq_true_eq]
        intro heq
        exact hids.1 (List.mem_map.mpr ⟨q, hq, heq⟩)
      · have hne : id q ≠ id r := by
          intro heq
          exact hids.1 (List.mem_map.mpr ⟨r, hr, heq.symm⟩)
        rw [List.filter_cons_of_neg (by simpa using hne)]
        exact ih hids.2 r hr
  rw [List.flatMap_map]
  induction some with
  | nil => rfl
  | cons r some ih =>
    rw [List.flatMap_cons, hone r (hsub List.mem_cons_self), ih fun q hq => hsub (.tail _ hq)]
    rfl

end UniqueRows
