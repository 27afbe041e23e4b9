import Mathlib

/-!
# A stream of records

A record is a key, a byte that no key holds, and a value of a fixed width. A stream
of records can be read back: the first such byte ends the key, and the width the value.

**Result.** `stream_inj`: two streams are the same only if their records are.
-/
namespace Records

variable {α : Type}

/-- One record. -/
def record (stop : α) (r : List α × List α) : List α := r.1 ++ stop :: r.2

/-- The records one after the other. -/
def stream (stop : α) (rs : List (List α × List α)) : List α := rs.flatMap (record stop)

/-- No key holds the byte that ends it, and all values are as wide. -/
def Readable (stop : α) (width : Nat) (rs : List (List α × List α)) : Prop :=
  ∀ r ∈ rs, stop ∉ r.1 ∧ r.2.length = width

variable {stop : α} {width : Nat} {k l xs ys : List α} {rs ss : List (List α × List α)}

/-- The first `stop` ends the key. -/
theorem append_stop_inj (hk : stop ∉ k) (hl : stop ∉ l) (h : k ++ stop :: xs = l ++ stop :: ys) :
    k = l ∧ xs = ys := by
  induction k generalizing l with
  | nil =>
    cases l with
    | nil => exact ⟨rfl, (List.cons.inj h).2⟩
    | cons b l =>
      obtain ⟨hb, -⟩ := List.cons.inj h
      exact absurd (hb ▸ List.mem_cons_self) hl
  | cons a k ih =>
    cases l with
    | nil =>
      obtain ⟨ha, -⟩ := List.cons.inj h
      exact absurd (ha ▸ List.mem_cons_self) hk
    | cons b l =>
      obtain ⟨rfl, hrest⟩ := List.cons.inj h
      rw [List.mem_cons, not_or] at hk hl
      obtain ⟨rfl, hxs⟩ := ih hk.2 hl.2 hrest
      exact ⟨rfl, hxs⟩

theorem record_ne_nil (r : List α × List α) : record stop r ≠ [] := by
  simp [record]

/-- A stream of records determines them. -/
theorem stream_inj (hr : Readable stop width rs) (hs : Readable stop width ss)
    (h : stream stop rs = stream stop ss) : rs = ss := by
  induction rs generalizing ss with
  | nil =>
    cases ss with
    | nil => rfl
    | cons s ss =>
      have hnil := (List.append_eq_nil_iff.mp h.symm).1
      exact absurd hnil (record_ne_nil s)
  | cons r rs ih =>
    cases ss with
    | nil =>
      have hnil := (List.append_eq_nil_iff.mp h).1
      exact absurd hnil (record_ne_nil r)
    | cons s ss =>
      obtain ⟨hrkey, hrwidth⟩ := hr r List.mem_cons_self
      obtain ⟨hskey, hswidth⟩ := hs s List.mem_cons_self
      have hstep : r.1 ++ stop :: (r.2 ++ stream stop rs) =
          s.1 ++ stop :: (s.2 ++ stream stop ss) := by
        simpa [stream, record] using h
      obtain ⟨hkey, hrest⟩ := append_stop_inj hrkey hskey hstep
      obtain ⟨hvalue, htail⟩ := List.append_inj hrest (hrwidth.trans hswidth.symm)
      have hrss := ih (fun q hq => hr q (List.mem_cons_of_mem _ hq))
        (fun q hq => hs q (List.mem_cons_of_mem _ hq)) htail
      rw [Prod.ext hkey hvalue, hrss]

end Records
