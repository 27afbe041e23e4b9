import Northstack.Application.Run
import Northstack.Core.Trace

/-!
# What a run's history says of its cells

The accounts kept on the history of a run: which observations concern a cell
and its attempts, what the gateway's answers cost, and what was charged.
-/
namespace Northstack

open Trace

/-- Nothing of the kind has happened so far. -/
def Avoids (bad : Obs → Bool) (s : St) : Prop := ∀ o ∈ s.history, bad o = false

theorem avoids_note {bad : Obs → Bool} {o : Obs} {s : St} :
    Avoids bad (s.note o) ↔ Avoids bad s ∧ bad o = false := by
  simp [Avoids, St.note, or_imp, forall_and]

theorem avoids_append {bad : Obs → Bool} {c : Bool} {p : EventPayload} {s : St} :
    Avoids bad (s.append c p) ↔
      Avoids bad s ∧ bad (.appended p s.currentStatus s.terminalOutcome c) = false :=
  avoids_note (s := { s with log := s.log ++ [p.stored] })

/-- A cell's own account of its usage. -/
def EventPayload.figure? : EventPayload → Option (String × Spend)
  | .cellCompleted id _ usage => some (id, usage)
  | _ => none

/-- The artifact a completion hands over. -/
def EventPayload.artifact? : EventPayload → Option ArtifactRef
  | .cellCompleted _ ref _ => some ref
  | _ => none

theorem EventPayload.artifact?_of_figure {p : EventPayload} (h : p.figure? = none) :
    p.artifact? = none := by
  cases p with
  | cellCompleted => cases h
  | _ => rfl

namespace Obs

/-- The row an observation is of. -/
def row? : Obs → Option EventPayload
  | .appended p _ _ _ => some p
  | _ => none

def figure? : Obs → Option (String × Spend)
  | .appended p _ _ _ => p.figure?
  | _ => none

/-- The cell whose account an observation belongs to. -/
def cell? : Obs → Option String
  | .entered id | .requested id _ _ | .responded id _ _ _ _ | .charged id _ _ => some id
  | .appended p _ _ _ => p.figure?.map (·.1)
  | _ => none

/-- The cell an observation enters. -/
def enters? : Obs → Option String
  | .entered id => some id
  | _ => none

def attempt? : Obs → Option Nat
  | .requested _ n _ | .responded _ n _ _ _ | .charged _ n _ => some n
  | _ => none

/-- Whether the gateway was sent a request. -/
def request : Obs → Nat
  | .requested _ _ _ => 1
  | _ => 0

/-- What an answer to a cell's attempt cost. -/
def response : Obs → Bill
  | .responded _ _ spend _ _ => spend.bill
  | _ => 0

/-- What was charged to the run. -/
def charge : Obs → Expense
  | .charged _ _ spend => spend.expense
  | _ => 0

/-- What answers to other components cost. -/
def consultation : Obs → Bill
  | .consulted spends => (spends.map (·.bill)).sum
  | _ => 0

end Obs

section

variable {M : Type} [Zero M]

/-- A cell's share of a measure. -/
def ofCell (f : Obs → M) (id : String) (o : Obs) : M := if o.cell? = some id then f o else 0

/-- An attempt's share of a measure. -/
def ofAttempt (f : Obs → M) (id : String) (n : Nat) (o : Obs) : M :=
  if o.cell? = some id ∧ o.attempt? = some n then f o else 0

end

def Bill.tokens (b : Bill) : Nat := b.1 + b.2.1

@[simp] theorem Bill.tokens_zero : Bill.tokens 0 = 0 := rfl

@[simp] theorem Bill.tokens_add (a b : Bill) : Bill.tokens (a + b) = a.tokens + b.tokens := by
  simp only [Bill.tokens, Prod.fst_add, Prod.snd_add]
  omega

/-- The observations of a history that belong to a cell's account. -/
def account (id : String) (h : List Obs) : List Obs := about Obs.cell? id h

theorem account_append (id : String) (h h' : List Obs) :
    account id (h ++ h') = account id h ++ account id h' := about_append _ _ _ _

theorem account_snoc {id : String} {h : List Obs} {o : Obs} (ho : o.cell? = some id) :
    account id (h ++ [o]) = account id h ++ [o] := about_snoc ho

theorem account_snoc_of_ne {id : String} {h : List Obs} {o : Obs} (ho : o.cell? ≠ some id) :
    account id (h ++ [o]) = account id h := about_snoc_of_ne ho

theorem mem_account {id : String} {h : List Obs} {o : Obs} :
    o ∈ account id h ↔ o ∈ h ∧ o.cell? = some id := mem_about

theorem total_account {M : Type} [AddCommMonoid M] (f : Obs → M) (id : String) (h : List Obs) :
    total (ofCell f id) (account id h) = total (ofCell f id) h :=
  total_about (fun _ ho => if_neg ho) h

theorem total_account_attempt {M : Type} [AddCommMonoid M] (f : Obs → M) (id : String) (n : Nat)
    (h : List Obs) :
    total (ofAttempt f id n) (account id h) = total (ofAttempt f id n) h :=
  total_about (fun _ ho => if_neg fun hc => ho hc.1) h

/-! ## The rows of a history -/

/-- The log has the rows that were appended, as they are stored. -/
def St.Recorded (s : St) : Prop := s.log = (s.history.filterMap Obs.row?).map EventPayload.stored

theorem St.Recorded.append {s : St} (h : s.Recorded) (c : Bool) (p : EventPayload) :
    (s.append c p).Recorded := by
  show s.log ++ [p.stored] = ((s.history ++ [_]).filterMap Obs.row?).map EventPayload.stored
  rw [List.filterMap_append, List.map_append, ← show s.log = _ from h]
  rfl

theorem St.Recorded.note {s : St} {o : Obs} (h : s.Recorded) (ho : o.row? = none) :
    (s.note o).Recorded := by
  show s.log = ((s.history ++ [o]).filterMap Obs.row?).map EventPayload.stored
  rw [List.filterMap_append, List.map_append, ← show s.log = _ from h,
    List.filterMap_cons_none ho, List.filterMap_nil, List.map_nil, List.append_nil]

/-! ## One cell's account -/

/-- The cell has been entered and has not reported its usage. -/
def Live (id : String) (k : List Obs) : Prop :=
  .entered id ∈ k ∧ ∀ o ∈ k, o.figure? = none

def Uncharged (id : String) (n : Nat) (k : List Obs) : Prop := ∀ spend, .charged id n spend ∉ k

/-- The account of a cell whose attempts so far are below `n`. -/
structure Before (id : String) (n : Nat) (k : List Obs) : Prop where
  live : Live id k
  attempts : ∀ o ∈ k, ∀ m ∈ o.attempt?, m < n

/-- The account of a cell in its attempt `n`, whose answers have cost `e.1` for
`e.2` requests. -/
structure During (id : String) (n : Nat) (e : Expense) (k : List Obs) : Prop where
  before : Before id (n + 1) k
  answered : total (ofAttempt Obs.response id n) k = e.1
  requested : total (ofAttempt Obs.request id n) k = e.2
  uncharged : Uncharged id n k

section

variable {id : String} {n : Nat} {e : Expense} {k : List Obs}

theorem Before.mono {m : Nat} (h : Before id n k) (hm : n ≤ m) : Before id m k :=
  ⟨h.live, fun o ho i hi => lt_of_lt_of_le (h.attempts o ho i hi) hm⟩

/-- Nothing is known of an attempt that has not begun. -/
theorem Before.unbegun {M : Type} [AddCommMonoid M] (h : Before id n k) (f : Obs → M) :
    total (ofAttempt f id n) k = 0 := by
  refine total_zero fun o ho => ?_
  unfold ofAttempt
  rw [if_neg]
  exact fun hc => lt_irrefl n (h.attempts o ho n hc.2)

theorem Before.during (h : Before id n k) : During id n 0 k where
  before := h.mono (Nat.le_succ n)
  answered := h.unbegun _
  requested := h.unbegun _
  uncharged := fun _ hmem => lt_irrefl n (h.attempts _ hmem n rfl)

/-- A cell that was entered begins its first attempt. -/
theorem before_entered : Before id 0 [.entered id] where
  live := ⟨List.mem_singleton_self _, fun o ho => by rw [List.mem_singleton.mp ho]; rfl⟩
  attempts := fun o ho m hm => by
    rw [List.mem_singleton.mp ho] at hm
    cases hm

theorem Before.snoc {o : Obs} (h : Before id n k) (hf : o.figure? = none)
    (ho : ∀ m ∈ o.attempt?, m < n) : Before id n (k ++ [o]) where
  live := by
    refine ⟨List.mem_append_left _ h.live.1, fun x hx => ?_⟩
    rcases List.mem_append.mp hx with hx | hx
    · exact h.live.2 x hx
    · rw [List.mem_singleton.mp hx]
      exact hf
  attempts := by
    intro x hx
    rcases List.mem_append.mp hx with hx | hx
    · exact h.attempts x hx
    · rw [List.mem_singleton.mp hx]
      exact ho

/-- A request is sent. -/
theorem During.requests (h : During id n e k) (ms : List ModelMessage) :
    During id n (e.1, e.2 + 1) (k ++ [.requested id n ms]) where
  before := h.before.snoc rfl fun m hm => by
    cases hm
    exact Nat.lt_succ_self n
  answered := by
    rw [total_append, h.answered]
    simp [ofAttempt, Obs.response]
  requested := by
    rw [total_append, h.requested, total_cons, total_nil, add_zero]
    unfold ofAttempt
    rw [if_pos ⟨rfl, rfl⟩]
    rfl
  uncharged := by
    intro s hmem
    rcases List.mem_append.mp hmem with hmem | hmem
    · exact h.uncharged s hmem
    · cases List.mem_singleton.mp hmem

/-- An answer arrives. -/
theorem During.responded (h : During id n e k) (spend : Spend) (estimate allowed : Nat) :
    During id n (e.1 + spend.bill, e.2) (k ++ [.responded id n spend estimate allowed]) where
  before := h.before.snoc rfl fun m hm => by
    cases hm
    exact Nat.lt_succ_self n
  answered := by
    rw [total_append, h.answered, total_cons, total_nil, add_zero]
    unfold ofAttempt
    rw [if_pos ⟨rfl, rfl⟩]
    rfl
  requested := by
    rw [total_append, h.requested]
    simp [ofAttempt, Obs.request]
  uncharged := by
    intro s hmem
    rcases List.mem_append.mp hmem with hmem | hmem
    · exact h.uncharged s hmem
    · cases List.mem_singleton.mp hmem

/-- The attempt is charged and over. -/
theorem During.charged (h : During id n e k) (spend : Spend) :
    Before id (n + 1) (k ++ [.charged id n spend]) :=
  h.before.snoc rfl fun m hm => by
    cases hm
    exact Nat.lt_succ_self n

end

/-- A usage a cell may report for itself: what was charged, to anyone, in a
stretch of the history behind the cell's entry that holds its own charges. -/
def Figure (id : String) (h : List Obs) (usage : Spend) : Prop :=
  ∃ pre mid post, h = pre ++ mid ++ post ∧ .entered id ∈ pre ∧
    total (ofCell Obs.charge id) pre = 0 ∧ total (ofCell Obs.charge id) post = 0 ∧
    usage.expense = total Obs.charge mid

end Northstack
