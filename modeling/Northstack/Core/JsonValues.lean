import Northstack.Core.JsonRoundTrip

/-!
# What reading and sorting make of a value

`Held` values are those the language holds and writes. A value without the digit
limit is `Sound`; `writable` is the limit, past which `json.dumps` raises.

**Results.**
* `loads_held`: what `json.loads` gives is held.
* `loads_sorted`: reading what was written with sorted keys gives the value with
  sorted keys.
* `dumpsSorted_inj`: two held values are written alike with sorted keys only if
  they are the same up to the order of keys.
-/
/-- Induction on the values an array or an object holds. -/
@[elab_as_elim]
theorem Json.value_induction {P : Json → Prop} (null : P .null) (bool : ∀ b, P (.bool b))
    (int : ∀ i, P (.int i)) (float : ∀ x, P (.float x)) (str : ∀ s, P (.str s))
    (arr : ∀ xs, (∀ x ∈ xs, P x) → P (.arr xs))
    (obj : ∀ fs : List (String × Json), (∀ f ∈ fs, P f.2) → P (.obj fs)) : ∀ j, P j
  | .null => null
  | .bool b => bool b
  | .int i => int i
  | .float x => float x
  | .str s => str s
  | .arr xs => arr xs fun x _ => value_induction null bool int float str arr obj x
  | .obj fs => obj fs fun f _ => value_induction null bool int float str arr obj f.2
termination_by j => sizeOf j
decreasing_by
  · have hlt := List.sizeOf_lt_of_mem ‹x ∈ xs›
    simp only [Json.arr.sizeOf_spec]
    omega
  · have hlt := List.sizeOf_lt_of_mem ‹f ∈ fs›
    obtain ⟨k, v⟩ := f
    simp only [Json.obj.sizeOf_spec, Prod.mk.sizeOf_spec] at hlt ⊢
    omega

namespace JsonText

/-! ## The digit limit -/

/-- A value the language holds: distinct keys, floats that are doubles. -/
inductive Sound : Json → Prop where
  | null : Sound .null
  | bool (b : Bool) : Sound (.bool b)
  | int (i : Int) : Sound (.int i)
  | float {x : PyFloat} (h : x.IsDouble) : Sound (.float x)
  | str (s : String) : Sound (.str s)
  | arr {xs : List Json} (h : ∀ x ∈ xs, Sound x) : Sound (.arr xs)
  | obj {fs : List (String × Json)} (hk : (fs.map Prod.fst).Nodup) (h : ∀ f ∈ fs, Sound f.2) :
    Sound (.obj fs)

mutual

/-- `json.dumps` does not raise for an integer of more than 4300 digits. -/
def writable : Json → Bool
  | .int i => (decimal i.natAbs).length ≤ 4300
  | .arr xs => writableItems xs
  | .obj fs => writableFields fs
  | _ => true

def writableItems : List Json → Bool
  | [] => true
  | x :: xs => writable x && writableItems xs

def writableFields : List (String × Json) → Bool
  | [] => true
  | (_, v) :: fs => writable v && writableFields fs

end

theorem writableItems_iff {xs : List Json} :
    writableItems xs = true ↔ ∀ x ∈ xs, writable x = true := by
  induction xs with
  | nil => simp [writableItems]
  | cons x xs ih => simp [writableItems, ih]

theorem writableFields_iff {fs : List (String × Json)} :
    writableFields fs = true ↔ ∀ f ∈ fs, writable f.2 = true := by
  induction fs with
  | nil => simp [writableFields]
  | cons f fs ih => simp [writableFields, ih]

theorem Sound.held {j : Json} (h : Sound j) (hw : writable j = true) : Held j := by
  induction h with
  | null => exact .null
  | bool b => exact .bool b
  | int i => exact .int (of_decide_eq_true hw)
  | float h => exact .float h
  | str s => exact .str s
  | arr h ih => exact .arr fun x hx => ih x hx (writableItems_iff.mp hw x hx)
  | obj hk h ih => exact .obj hk fun f hf => ih f hf (writableFields_iff.mp hw f hf)

theorem Held.sound {j : Json} (h : Held j) : Sound j := by
  induction h with
  | null => exact .null
  | bool b => exact .bool b
  | int h => exact .int _
  | float h => exact .float h
  | str s => exact .str s
  | arr h ih => exact .arr ih
  | obj hk h ih => exact .obj hk ih

theorem Held.writable {j : Json} (h : Held j) : JsonText.writable j = true := by
  induction h with
  | int h => exact decide_eq_true h
  | arr h ih => exact writableItems_iff.mpr ih
  | obj hk h ih => exact writableFields_iff.mpr ih
  | _ => rfl

/-! ## Reading -/

theorem readDigits_lt {cs : List Char} (h : ∀ c ∈ cs, isDigit c = true) :
    readDigits cs < 10 ^ cs.length := by
  induction cs using List.reverseRecOn with
  | nil => decide
  | append_singleton cs c ih =>
    have hlt := ih fun x hx => h x (List.mem_append_left _ hx)
    have hc := h c (by simp)
    have hle : c.toNat - 48 < 10 := by
      simp only [isDigit, Bool.and_eq_true, decide_eq_true_eq] at hc
      have h9 : c.toNat ≤ 57 := hc.2
      omega
    rw [readDigits_append, List.length_append, List.length_singleton, pow_add, pow_one]
    have hone : readDigits [c] = c.toNat - 48 := by simp [readDigits]
    rw [hone]
    omega

theorem length_decimal_le {n k : Nat} (hk : 0 < k) (h : n < 10 ^ k) : (decimal n).length ≤ k := by
  by_cases hn : n = 0
  · subst hn
    exact hk
  · rw [decimal_pos hn, List.length_reverse, List.length_map]
    exact (Nat.digits_length_le_iff (by decide) n).mpr h

theorem scanInt_digits {cs ds rest : List Char} (h : scanInt cs = some (ds, rest)) :
    0 < ds.length ∧ ∀ c ∈ ds, isDigit c = true := by
  unfold scanInt at h
  split at h
  · cases h
    refine ⟨Nat.one_pos, fun c hc => ?_⟩
    rw [List.mem_singleton.mp hc]
    rfl
  · split at h
    · rename_i c cs _ hc
      rw [List.span_eq_takeWhile_dropWhile] at h
      cases h
      refine ⟨?_, fun x hx => List.mem_takeWhile_imp hx⟩
      rw [List.takeWhile_cons_of_pos hc]
      exact Nat.succ_pos _
    · cases h
  · cases h

theorem scanNumber_held {neg : Bool} {cs rest : List Char} {j : Json}
    (h : scanNumber neg cs = .ok (j, rest)) : Held j := by
  unfold scanNumber at h
  split at h
  · cases h
  · rename_i ds r1 hint
    obtain ⟨hpos, hdigits⟩ := scanInt_digits hint
    dsimp only at h
    split at h
    · split at h
      · cases h
      · rename_i hlen
        cases h
        refine .int ?_
        have habs : (if neg = true then -(readDigits ds : Int) else readDigits ds).natAbs =
            readDigits ds := by
          split
          · exact Int.natAbs_neg _
          · rfl
        rw [habs]
        exact (length_decimal_le hpos (readDigits_lt hdigits)).trans (not_lt.mp hlen)
    · cases h
      exact .float (roundDouble_double neg _)

theorem mem_bindField {k : String} {v : Json} {fs : List (String × Json)} {f : String × Json}
    (h : f ∈ bindField k v fs) : f = (k, v) ∨ f ∈ fs := by
  induction fs with
  | nil => exact .inl (List.mem_singleton.mp h)
  | cons g fs ih =>
    unfold bindField at h
    split at h
    · rcases List.mem_cons.mp h with h | h
      · exact .inl h
      · exact .inr (List.mem_cons_of_mem _ h)
    · rcases List.mem_cons.mp h with h | h
      · exact .inr (h ▸ List.mem_cons_self)
      · exact (ih h).imp_right (List.mem_cons_of_mem _)

theorem nodup_bindField {k : String} {v : Json} {fs : List (String × Json)}
    (h : (fs.map Prod.fst).Nodup) : ((bindField k v fs).map Prod.fst).Nodup := by
  induction fs with
  | nil => exact List.nodup_singleton k
  | cons g fs ih =>
    obtain ⟨hg, hfs⟩ := List.nodup_cons.mp h
    unfold bindField
    split
    · rename_i hk
      rw [List.map_cons, List.nodup_cons]
      exact ⟨hk ▸ hg, hfs⟩
    · rename_i hk
      rw [List.map_cons, List.nodup_cons]
      refine ⟨fun hmem => ?_, ih hfs⟩
      obtain ⟨f, hf, he⟩ := List.mem_map.mp hmem
      rcases mem_bindField hf with rfl | hf
      · exact hk he.symm
      · exact hg (he ▸ List.mem_map_of_mem hf)

/-- The three readers give held values. -/
theorem scan_held (fuel : Nat) :
    (∀ cs j rest, scanValue fuel cs = .ok (j, rest) → Held j) ∧
    (∀ acc cs j rest, (∀ x ∈ acc, Held x) → scanItems fuel acc cs = .ok (j, rest) → Held j) ∧
    (∀ acc cs j rest, (acc.map Prod.fst).Nodup → (∀ f ∈ acc, Held f.2) →
      scanFields fuel acc cs = .ok (j, rest) → Held j) := by
  induction fuel with
  | zero =>
    refine ⟨fun cs j rest h => ?_, fun acc cs j rest _ h => ?_, fun acc cs j rest _ _ h => ?_⟩ <;>
      cases h
  | succ fuel ih =>
    obtain ⟨ihv, ihi, ihf⟩ := ih
    refine ⟨fun cs j rest h => ?_, fun acc cs j rest hacc h => ?_,
      fun acc cs j rest hk hacc h => ?_⟩
    · unfold scanValue at h
      split at h
      case h_1 =>
        split at h <;> cases h
        exact .str _
      case h_2 =>
        split at h
        · cases h
          exact .obj List.nodup_nil (List.forall_mem_nil _)
        · exact ihf [] _ _ _ List.nodup_nil (List.forall_mem_nil _) h
      case h_3 =>
        split at h
        · cases h
          exact .arr (List.forall_mem_nil _)
        · exact ihi [] _ _ _ (List.forall_mem_nil _) h
      case h_4 =>
        cases h
        exact .null
      case h_5 | h_6 =>
        cases h
        exact .bool _
      case h_7 | h_8 | h_9 =>
        cases h
        exact .float trivial
      case h_10 | h_11 => exact scanNumber_held h
    · unfold scanItems at h
      split at h
      · cases h
      · rename_i v rest' hv
        have hacc' : ∀ x ∈ acc ++ [v], Held x := by
          intro x hx
          rcases List.mem_append.mp hx with hx | hx
          · exact hacc x hx
          · exact List.mem_singleton.mp hx ▸ ihv _ _ _ hv
        split at h
        · cases h
          exact .arr hacc'
        · exact ihi _ _ _ _ hacc' h
        · cases h
    · unfold scanFields at h
      split at h
      · split at h
        · cases h
        · split at h
          · split at h
            · cases h
            · rename_i v rest' hv
              have hacc' : ∀ k, ∀ f ∈ bindField k v acc, Held f.2 := by
                intro k f hf
                rcases mem_bindField hf with rfl | hf
                · exact ihv _ _ _ hv
                · exact hacc f hf
              split at h
              · cases h
                exact .obj (nodup_bindField hk) (hacc' _)
              · exact ihf _ _ _ _ (nodup_bindField hk) (hacc' _) h
              · cases h
          · cases h
      · cases h

/-- **Reading.** What `json.loads` gives is held. -/
theorem loads_held {text : String} {j : Json} (h : loads text = .ok j) : Held j := by
  unfold loads at h
  split at h
  · cases h
  · rename_i v rest hv
    split at h
    · cases h
      exact (scan_held _).1 _ _ _ hv
    · cases h

theorem mem_of_lookup {k : String} {v : Json} {fs : List (String × Json)}
    (h : Json.lookup k fs = some v) : (k, v) ∈ fs := by
  induction fs with
  | nil => cases h
  | cons f fs ih =>
    obtain ⟨k', w⟩ := f
    rw [Json.lookup] at h
    cases hl : Json.lookup k fs with
    | some u =>
      rw [hl] at h
      cases h
      exact List.mem_cons_of_mem _ (ih hl)
    | none =>
      rw [hl, Option.none_or] at h
      split at h
      · rename_i hk
        cases h
        rw [hk]
        exact List.mem_cons_self
      · cases h

theorem lookup_of_mem_nodup {k : String} {v : Json} {fs : List (String × Json)}
    (hk : (fs.map Prod.fst).Nodup) (h : (k, v) ∈ fs) : Json.lookup k fs = some v := by
  induction fs with
  | nil => cases h
  | cons f fs ih =>
    obtain ⟨hf, hfs⟩ := List.nodup_cons.mp hk
    obtain ⟨k', w⟩ := f
    rw [Json.lookup]
    rcases List.mem_cons.mp h with h | h
    · cases h
      have hnone : Json.lookup k fs = none := by
        cases hl : Json.lookup k fs with
        | none => rfl
        | some u => exact absurd (List.mem_map_of_mem (mem_of_lookup hl)) hf
      rw [hnone, Option.none_or, if_pos rfl]
    · rw [ih hfs h, Option.some_or]

/-! ## Sorted keys -/

/-- The order `sort_keys=True` puts fields in. -/
def byKey (f g : String × Json) : Prop := f.1 ≤ g.1

instance : DecidableRel byKey := fun f g => inferInstanceAs (Decidable (f.1 ≤ g.1))

instance : Std.Total byKey := ⟨fun f g => le_total f.1 g.1⟩

instance : IsTrans (String × Json) byKey := ⟨fun _ _ _ h h' => le_trans h h'⟩

theorem insertField_eq (f : String × Json) (fs : List (String × Json)) :
    insertField f fs = fs.orderedInsert byKey f := by
  induction fs with
  | nil => rfl
  | cons g fs ih =>
    rw [insertField, List.orderedInsert, ih]
    rfl

/-- The fields with their values sorted. -/
def sortValues (fs : List (String × Json)) : List (String × Json) :=
  fs.map fun f => (f.1, sortKeys f.2)

theorem sortFields_eq (fs : List (String × Json)) :
    sortFields fs = (sortValues fs).insertionSort byKey := by
  induction fs with
  | nil => rfl
  | cons f fs ih =>
    rw [sortFields, insertField_eq, ih]
    rfl

theorem sortItems_eq (xs : List Json) : sortItems xs = xs.map sortKeys := by
  induction xs with
  | nil => rfl
  | cons x xs ih => rw [sortItems, ih, List.map_cons]

theorem sortFields_perm (fs : List (String × Json)) : (sortFields fs).Perm (sortValues fs) := by
  rw [sortFields_eq]
  exact List.perm_insertionSort byKey _

theorem mem_sortFields {fs : List (String × Json)} {f : String × Json} (h : f ∈ sortFields fs) :
    ∃ v, (f.1, v) ∈ fs ∧ f.2 = sortKeys v := by
  obtain ⟨g, hg, rfl⟩ := List.mem_map.mp ((sortFields_perm fs).mem_iff.mp h)
  exact ⟨g.2, hg, rfl⟩

theorem keys_sortFields (fs : List (String × Json)) :
    ((sortFields fs).map Prod.fst).Perm (fs.map Prod.fst) := by
  have h := (sortFields_perm fs).map Prod.fst
  rwa [sortValues, List.map_map] at h

theorem Held.sortKeys {j : Json} (h : Held j) : Held (JsonText.sortKeys j) := by
  induction h with
  | arr h ih =>
    rw [JsonText.sortKeys, sortItems_eq]
    refine .arr fun x hx => ?_
    obtain ⟨y, hy, rfl⟩ := List.mem_map.mp hx
    exact ih y hy
  | @obj fs hk h ih =>
    rw [JsonText.sortKeys]
    refine .obj ((keys_sortFields fs).nodup_iff.mpr hk) fun f hf => ?_
    obtain ⟨v, hv, he⟩ := mem_sortFields hf
    exact he ▸ ih _ hv
  | null => exact .null
  | bool b => exact .bool b
  | int h => exact .int h
  | float h => exact .float h
  | str s => exact .str s

/-- Sorting again changes nothing. -/
theorem Sound.sortKeys_idem {j : Json} (h : Sound j) :
    JsonText.sortKeys (JsonText.sortKeys j) = JsonText.sortKeys j := by
  induction h with
  | @arr xs h ih =>
    simp only [JsonText.sortKeys, sortItems_eq, List.map_map]
    congr 1
    exact List.map_congr_left fun x hx => ih x hx
  | @obj fs hk h ih =>
    simp only [JsonText.sortKeys]
    congr 1
    have hvalues : sortValues (sortFields fs) = sortFields fs := by
      refine (List.map_congr_left fun f hf => ?_).trans (List.map_id _)
      obtain ⟨v, hv, he⟩ := mem_sortFields hf
      refine Prod.ext rfl ?_
      show JsonText.sortKeys f.2 = f.2
      rw [he]
      exact ih _ hv
    rw [sortFields_eq (sortFields fs), hvalues, sortFields_eq]
    exact (List.pairwise_insertionSort byKey _).insertionSort_eq
  | _ => rfl

/-- Reading what was written with sorted keys. -/
theorem loads_sorted {sep : Separators} (hsep : sep.Spaced) {j : Json} (h : Held j) :
    loads (dumpsSorted sep j) = .ok (sortKeys j) := loads_write hsep h.sortKeys

/-- **The canonical text.** Held values written alike with sorted keys are the
same up to the order of keys. -/
theorem dumpsSorted_inj {sep : Separators} (hsep : sep.Spaced) {j j' : Json} (h : Held j)
    (h' : Held j') (he : dumpsSorted sep j = dumpsSorted sep j') : sortKeys j = sortKeys j' := by
  have hread := loads_sorted hsep h
  rw [he, loads_sorted hsep h'] at hread
  exact (Except.ok.inj hread).symm

end JsonText
