import Mathlib
import Northstack.Application.BudgetAuthority
import Northstack.Core.JsonText
import Northstack.Core.Trace

/-!
# Reserving, committing and releasing

Mirrors `reserve`, `commit` and `release` of application/budget_authority.py
beside the `record` of `Application.BudgetAuthority`. A `Process` is what the
calls of any number of callers act on, one at a time under the lock: every
`Reservation` object made so far, the module's `_ids` counter, and the
authorities, which share both. A `ref` is an object's identity, its place among
the objects made. A caller may make a `Reservation` of its own (`forge`), and
may pass any object to any authority.

**Results.**
* `reservations_account`: the totals are the sums of what is outstanding and of
  what was accepted, a refused call changes nothing, a handle that is not
  outstanding is refused, and without `record` tokens and calls keep the limit.
* `committed_within_tolerance`: without `record` the committed cost keeps the
  limit up to one `costEpsilon` while no commit charges more above its estimate
  than the headroom left.
-/
namespace Northstack

open Trace

/-! ## The data -/

/-- The fields of a `Reservation` object. -/
structure Reservation where
  reservationId : Nat
  cellId : String
  estimate : Spend

inductive AuthorityError where
  | budgetExhausted (message : String)
  | invalidReservation (message : String)

/-- `_tokens` -/
def Spend.tokens (s : Spend) : Nat := s.inputTokens + s.outputTokens

/-- Tokens, dollars and calls. -/
abbrev Funds := ℕ × ℚ≥0 × ℕ

def Spend.funds (s : Spend) : Funds := (s.tokens, s.costUsd, s.calls)

/-- `f"{q:.6f}"` -/
def fixed6 (q : ℚ≥0) : String :=
  let n := (PyText.roundHalfEven ((q : ℚ) * 1e6)).toNat
  let frac := JsonText.decimal (n % 1000000)
  String.ofList (JsonText.decimal (n / 1000000) ++ '.' :: List.replicate (6 - frac.length) '0' ++ frac)

/-- `f"{q}"` of a cost. -/
def reprCost (q : ℚ≥0) : String := String.ofList (JsonText.floatText (.finite false q))

namespace BudgetAuthority

def reserved (a : BudgetAuthority) : Funds := (a.reservedTokens, a.reservedCost, a.reservedCalls)

def committed (a : BudgetAuthority) : Funds :=
  (a.committedTokens, a.committedCost, a.committedCalls)

/-- `_reservations.get(id)` -/
def holder (a : BudgetAuthority) (id : Nat) : Option Nat :=
  (a.reservations.find? (·.1 = id)).map (·.2)

/-- The three checks of `reserve` (budget_authority.py:88-115): the message of
the first that fails. -/
def refusal (a : BudgetAuthority) (estimate : Spend) : Option String :=
  if a.budget.tokenLimit.any (· < a.committedTokens + a.reservedTokens + estimate.tokens) then
    some <| s!"token budget exhausted: reserved+committed={a.committedTokens + a.reservedTokens}, " ++
      s!"estimate={estimate.tokens}, limit={a.budget.tokenLimit.getD 0}"
  else if a.budget.costLimitUsd.any
      fun l => l + costEpsilon < a.committedCost + a.reservedCost + estimate.costUsd then
    some <| s!"cost budget exhausted: reserved+committed={fixed6 (a.committedCost + a.reservedCost)}, "
      ++ s!"estimate={fixed6 estimate.costUsd}, limit={reprCost (a.budget.costLimitUsd.getD 0)}"
  else if a.budget.maxCalls ≠ 0 ∧
      a.budget.maxCalls < a.committedCalls + a.reservedCalls + estimate.calls then
    some <| s!"call budget exhausted: reserved+committed={a.committedCalls + a.reservedCalls}, " ++
      s!"estimate={estimate.calls}, limit={a.budget.maxCalls}"
  else none

/-- A new reservation holds its estimate (budget_authority.py:116-121). -/
def hold (a : BudgetAuthority) (ref : Nat) (r : Reservation) : BudgetAuthority :=
  { a with
    reservedTokens := a.reservedTokens + r.estimate.tokens
    reservedCost := a.reservedCost + r.estimate.costUsd
    reservedCalls := a.reservedCalls + r.estimate.calls
    reservations := a.reservations ++ [(r.reservationId, ref)] }

/-- The held estimate is let go (budget_authority.py:141-147, 153-156). The
totals cover it (`Sound.covers`), so no difference is cut off at zero. -/
def letGo (a : BudgetAuthority) (r : Reservation) : BudgetAuthority :=
  { a with
    reservedTokens := a.reservedTokens - r.estimate.tokens
    reservedCost := a.reservedCost - r.estimate.costUsd
    reservedCalls := a.reservedCalls - r.estimate.calls
    reservations := a.reservations.filter (·.1 ≠ r.reservationId) }

end BudgetAuthority

/-- `actual` passes the check of `commit` (budget_authority.py:131-135). -/
def Spend.Within (actual estimate : Spend) : Prop :=
  actual.tokens ≤ estimate.tokens ∧ actual.costUsd ≤ estimate.costUsd + costEpsilon ∧
    actual.calls ≤ estimate.calls

instance (actual estimate : Spend) : Decidable (actual.Within estimate) := by
  unfold Spend.Within
  infer_instance

structure Process where
  objects : List Reservation := []
  ids : Nat := 1
  authority : Nat → BudgetAuthority

/-- What a call ends with: the new object if it makes one, or what it raises. -/
abbrev Ending := Except AuthorityError (Option Nat)

namespace Process

variable (p : Process) (k : Nat)

/-- The process with another state of authority `k`. -/
def put (a : BudgetAuthority) : Process := { p with authority := Function.update p.authority k a }

/-- `BudgetAuthority.reserve` (budget_authority.py:79-122) -/
def reserve (cellId : String) (estimate : Spend) : Process × Ending :=
  match (p.authority k).refusal estimate with
  | some message => (p, .error (.budgetExhausted message))
  | none =>
    let r : Reservation := { reservationId := p.ids, cellId := cellId, estimate := estimate }
    let ref := p.objects.length
    ({ (p.put k ((p.authority k).hold ref r)) with objects := p.objects ++ [r], ids := p.ids + 1 },
      .ok (some ref))

/-- `_require_active` (budget_authority.py:74-77): the object, if it is the very
one held under its id. A `ref` that is no object's is nobody's to pass. -/
def requireActive (ref : Nat) : Except AuthorityError Reservation :=
  match p.objects[ref]? with
  | none => .error (.invalidReservation "")
  | some r =>
    if (p.authority k).holder r.reservationId = some ref then .ok r
    else .error (.invalidReservation s!"reservation {r.reservationId} is not active")

/-- `BudgetAuthority.commit` (budget_authority.py:124-147) -/
def commit (ref : Nat) (actual : Spend) : Process × Ending :=
  match p.requireActive k ref with
  | .error e => (p, .error e)
  | .ok r =>
    if actual.Within r.estimate then
      (p.put k (((p.authority k).letGo r).record actual), .ok none)
    else
      (p, .error (.budgetExhausted <| s!"actual spend exceeds reservation for {r.cellId}: " ++
        s!"actual=(tokens={actual.tokens}, cost={fixed6 actual.costUsd}), " ++
        s!"estimate=(tokens={r.estimate.tokens}, cost={fixed6 r.estimate.costUsd})"))

/-- `BudgetAuthority.release` (budget_authority.py:149-156) -/
def release (ref : Nat) : Process × Ending :=
  match p.requireActive k ref with
  | .error e => (p, .error e)
  | .ok r => (p.put k ((p.authority k).letGo r), .ok none)

end Process

inductive Call where
  | reserve (k : Nat) (cellId : String) (estimate : Spend)
  | commit (k : Nat) (ref : Nat) (actual : Spend)
  | release (k : Nat) (ref : Nat)
  | record (k : Nat) (actual : Spend)
  /-- A caller builds a `Reservation` itself. -/
  | forge (r : Reservation)

/-- One call, made under the lock. -/
def Process.step (p : Process) : Call → Process × Ending
  | .reserve k cellId estimate => p.reserve k cellId estimate
  | .commit k ref actual => p.commit k ref actual
  | .release k ref => p.release k ref
  | .record k actual => (p.put k ((p.authority k).record actual), .ok none)
  | .forge r => ({ p with objects := p.objects ++ [r] }, .ok (some p.objects.length))

abbrev Event := Call × Ending

/-- The process after some calls on fresh authorities, and what they ended with. -/
def Process.run (budgets : Nat → Budget) (calls : List Call) : Process × List Event :=
  calls.foldl (fun x c => ((x.1.step c).1, x.2 ++ [(c, (x.1.step c).2)]))
    ({ authority := fun k => { budget := budgets k } }, [])

/-! ## What a call can do -/

/-- The call and what it ends with, one case for each way. -/
inductive Process.Did (p : Process) : Call → Process → Ending → Prop where
  | refused (c : Call) (e : AuthorityError) : p.Did c p (.error e)
  | reserved (k : Nat) (cellId : String) (estimate : Spend)
      (h : (p.authority k).refusal estimate = none) :
      p.Did (.reserve k cellId estimate)
        { (p.put k ((p.authority k).hold p.objects.length ⟨p.ids, cellId, estimate⟩)) with
          objects := p.objects ++ [⟨p.ids, cellId, estimate⟩], ids := p.ids + 1 }
        (.ok (some p.objects.length))
  | committed (k : Nat) (ref : Nat) (actual : Spend) (r : Reservation)
      (ho : p.objects[ref]? = some r) (hr : (p.authority k).holder r.reservationId = some ref)
      (hw : actual.Within r.estimate) :
      p.Did (.commit k ref actual) (p.put k (((p.authority k).letGo r).record actual)) (.ok none)
  | released (k : Nat) (ref : Nat) (r : Reservation) (ho : p.objects[ref]? = some r)
      (hr : (p.authority k).holder r.reservationId = some ref) :
      p.Did (.release k ref) (p.put k ((p.authority k).letGo r)) (.ok none)
  | recorded (k : Nat) (actual : Spend) :
      p.Did (.record k actual) (p.put k ((p.authority k).record actual)) (.ok none)
  | forged (r : Reservation) :
      p.Did (.forge r) { p with objects := p.objects ++ [r] } (.ok (some p.objects.length))

theorem requireActive_ok {p : Process} {k : Nat} {ref : Nat} {r : Reservation}
    (h : p.requireActive k ref = .ok r) :
    p.objects[ref]? = some r ∧ (p.authority k).holder r.reservationId = some ref := by
  unfold Process.requireActive at h
  split at h
  · cases h
  · rename_i r' ho
    split at h
    · cases h
      exact ⟨ho, by assumption⟩
    · cases h

theorem step_did (p : Process) (c : Call) : p.Did c (p.step c).1 (p.step c).2 := by
  cases c with
  | reserve k cellId estimate =>
    simp only [Process.step, Process.reserve]
    split
    · exact .refused _ _
    · exact .reserved k cellId estimate (by assumption)
  | commit k ref actual =>
    simp only [Process.step, Process.commit]
    split
    · exact .refused _ _
    · rename_i r hr
      obtain ⟨ho, hh⟩ := requireActive_ok hr
      split
      · exact .committed k ref actual r ho hh (by assumption)
      · exact .refused _ _
  | release k ref =>
    simp only [Process.step, Process.release]
    split
    · exact .refused _ _
    · rename_i r hr
      obtain ⟨ho, hh⟩ := requireActive_ok hr
      exact .released k ref r ho hh
  | record k actual => exact .recorded k actual
  | forge r => exact .forged r

/-! ## The books -/

/-- What authority `k` holds after an event, oldest first, with its estimates. -/
def settle (k : Nat) (held : List (Nat × Spend)) : Event → List (Nat × Spend)
  | (.reserve k' _ estimate, .ok (some ref)) => if k' = k then held ++ [(ref, estimate)] else held
  | (.commit k' ref _, .ok _) => if k' = k then held.filter (·.1 ≠ ref) else held
  | (.release k' ref, .ok _) => if k' = k then held.filter (·.1 ≠ ref) else held
  | _ => held

/-- The active reservations of authority `k`: reserved there, and neither
committed nor released since. -/
def outstanding (k : Nat) (h : List Event) : List (Nat × Spend) := h.foldl (settle k) []

/-- What an accepted commit or record charges to authority `k`. -/
def spentAt (k : Nat) : Event → Funds
  | (.commit k' _ actual, .ok _) => if k' = k then actual.funds else 0
  | (.record k' actual, .ok _) => if k' = k then actual.funds else 0
  | _ => 0

/-- The object a call made. -/
def Event.made : Event → Option Nat
  | (_, .ok (some ref)) => some ref
  | _ => none

/-- The reservation an accepted commit or release closed. -/
def Event.closed : Event → Option Nat
  | (.commit _ ref _, .ok _) => some ref
  | (.release _ ref, .ok _) => some ref
  | _ => none

/-- Authority `k` handed the object out. -/
def Issued (k : Nat) (ref : Nat) (h : List Event) : Prop :=
  ∃ cellId estimate, (.reserve k cellId estimate, .ok (some ref)) ∈ h

/-- A handle no authority but its issuer may take, and not even that one any
more: it was closed, or a caller made it, or another authority did. -/
inductive Stale (k : Nat) (ref : Nat) (h : List Event) : Prop where
  | closed (e : Event) (he : e ∈ h) (hc : e.closed = some ref)
  | forged (r : Reservation) (he : (.forge r, .ok (some ref)) ∈ h)
  | foreign (k' : Nat) (hk : k' ≠ k) (hi : Issued k' ref h)

theorem outstanding_snoc (k : Nat) (h : List Event) (e : Event) :
    outstanding k (h ++ [e]) = settle k (outstanding k h) e := by
  simp [outstanding]

@[simp] theorem settle_error (k : Nat) (held : List (Nat × Spend)) (c : Call)
    (e : AuthorityError) : settle k held (c, .error e) = held := by
  cases c <;> rfl

@[simp] theorem spentAt_error (k : Nat) (c : Call) (e : AuthorityError) :
    spentAt k (c, .error e) = 0 := by
  cases c <;> rfl

@[simp] theorem closed_error (c : Call) (e : AuthorityError) :
    Event.closed (c, .error e) = none := by
  cases c <;> rfl

theorem outstanding_issued {k : Nat} {h : List Event} {x : Nat × Spend}
    (hx : x ∈ outstanding k h) : Issued k x.1 h := by
  induction h using List.reverseRecOn with
  | nil => cases hx
  | append_singleton h e ih =>
    have hold : x ∈ outstanding k h → Issued k x.1 (h ++ [e]) := by
      intro hm
      obtain ⟨cellId, estimate, hi⟩ := ih hm
      exact ⟨cellId, estimate, List.mem_append_left _ hi⟩
    rw [outstanding_snoc] at hx
    unfold settle at hx
    split at hx
    · rename_i k' cellId estimate ref
      split at hx
      · rename_i hk
        rcases List.mem_append.mp hx with hx | hx
        · exact hold hx
        · rw [List.mem_singleton.mp hx, ← hk]
          exact ⟨cellId, estimate, List.mem_append_right _ List.mem_cons_self⟩
      · exact hold hx
    · split at hx
      · exact hold (List.mem_of_mem_filter hx)
      · exact hold hx
    · split at hx
      · exact hold (List.mem_of_mem_filter hx)
      · exact hold hx
    · exact hold hx

/-- A handle is made stale by the event that closes it or by the one that makes it. -/
theorem Stale.snoc {k : Nat} {ref : Nat} {h : List Event} {e : Event}
    (hs : Stale k ref (h ++ [e])) :
    Stale k ref h ∨ e.closed = some ref ∨
      (e.made = some ref ∧ ∀ cellId estimate, e.1 ≠ .reserve k cellId estimate) := by
  have hmem {x : Event} (hx : x ∈ h ++ [e]) : x ∈ h ∨ x = e := by simpa using hx
  cases hs with
  | closed x hx hc =>
    rcases hmem hx with hx | rfl
    · exact .inl (.closed x hx hc)
    · exact .inr (.inl hc)
  | forged r hx =>
    rcases hmem hx with hx | rfl
    · exact .inl (.forged r hx)
    · exact .inr (.inr ⟨rfl, by simp⟩)
  | foreign k' hk hi =>
    obtain ⟨cellId, estimate, hx⟩ := hi
    rcases hmem hx with hx | rfl
    · exact .inl (.foreign k' hk ⟨cellId, estimate, hx⟩)
    · exact .inr (.inr ⟨rfl, by simp [hk]⟩)

/-- What the state of authority `k` says is what happened to it. -/
structure Books (k : Nat) (p : Process) (h : List Event) : Prop where
  /-- The table holds the outstanding objects under their ids. -/
  table : ∀ id ref, (id, ref) ∈ (p.authority k).reservations ↔ ∃ r, p.objects[ref]? = some r ∧
    r.reservationId = id ∧ (ref, r.estimate) ∈ outstanding k h
  objects : ∀ x ∈ outstanding k h, ∃ r, p.objects[x.1]? = some r ∧ r.estimate = x.2
  ids : ∀ x ∈ (p.authority k).reservations, x.1 < p.ids
  ids_nodup : ((p.authority k).reservations.map (·.1)).Nodup
  refs_nodup : ((outstanding k h).map (·.1)).Nodup
  live : ∀ x ∈ outstanding k h, ¬ Stale k x.1 h
  reserved : (p.authority k).reserved = total (fun x => x.2.funds) (outstanding k h)
  committed : (p.authority k).committed = total (spentAt k) h

structure Process.Sound (p : Process) (h : List Event) : Prop where
  made : ∀ e ∈ h, ∀ ref, e.made = some ref → ref < p.objects.length
  closed : ∀ e ∈ h, ∀ ref, e.closed = some ref → ref < p.objects.length
  books : ∀ k, Books k p h

theorem Books.lt {k : Nat} {p : Process} {h : List Event} (hb : Books k p h) {x : Nat × Spend}
    (hx : x ∈ outstanding k h) : x.1 < p.objects.length := by
  obtain ⟨r, hr, _⟩ := hb.objects x hx
  exact (List.getElem?_eq_some_iff.mp hr).1

/-- The object a caller hands in is active at `k`. -/
theorem Books.active {k : Nat} {p : Process} {h : List Event} (hb : Books k p h) {ref : Nat}
    {r : Reservation} (ho : p.objects[ref]? = some r)
    (hr : (p.authority k).holder r.reservationId = some ref) :
    (r.reservationId, ref) ∈ (p.authority k).reservations ∧
      (ref, r.estimate) ∈ outstanding k h := by
  unfold BudgetAuthority.holder at hr
  obtain ⟨x, hx, rfl⟩ := Option.map_eq_some_iff.mp hr
  have hid : x.1 = r.reservationId := by simpa using List.find?_some hx
  have hm : (r.reservationId, x.2) ∈ (p.authority k).reservations := by
    rw [← hid]
    exact List.mem_of_find?_eq_some hx
  obtain ⟨r', ho', -, hout⟩ := (hb.table _ _).mp hm
  obtain rfl : r = r' := by simpa [ho] using ho'
  exact ⟨hm, hout⟩

/-- The reserved totals cover what is let go, and what stays is what the others
hold. -/
theorem Books.covers {k : Nat} {p : Process} {h : List Event} (hb : Books k p h) {ref : Nat}
    {estimate : Spend} (hm : (ref, estimate) ∈ outstanding k h) :
    (p.authority k).reserved = estimate.funds +
      total (fun x => x.2.funds) ((outstanding k h).filter (·.1 ≠ ref)) := by
  rw [hb.reserved, total_remove (f := fun x : Nat × Spend => x.2.funds) hb.refs_nodup hm]

theorem reserved_letGo {a : BudgetAuthority} {r : Reservation} {rest : Funds}
    (h : a.reserved = r.estimate.funds + rest) : (a.letGo r).reserved = rest := by
  simp only [BudgetAuthority.reserved, Spend.funds, Prod.ext_iff, Prod.fst_add, Prod.snd_add] at h
  obtain ⟨ht, hc, hn⟩ := h
  simp only [BudgetAuthority.reserved, BudgetAuthority.letGo, ht, hc, hn, add_tsub_cancel_left]

/-! ## One call keeps the books -/

section Step

variable {k : Nat} {p p' : Process} {h : List Event} {e : Event}

/-- An event that leaves the table of authority `k` alone. -/
theorem Books.frame (hb : Books k p h)
    (ht : (p'.authority k).reservations = (p.authority k).reservations)
    (hr : (p'.authority k).reserved = (p.authority k).reserved)
    (hc : (p'.authority k).committed = (p.authority k).committed + spentAt k e)
    (hobj : p.objects <+: p'.objects) (hids : p.ids ≤ p'.ids)
    (hs : settle k (outstanding k h) e = outstanding k h)
    (hlive : ∀ x ∈ outstanding k h, ¬ Stale k x.1 (h ++ [e])) : Books k p' (h ++ [e]) := by
  have hout : outstanding k (h ++ [e]) = outstanding k h := by rw [outstanding_snoc, hs]
  have hget {x : Nat × Spend} (hx : x ∈ outstanding k h) : p'.objects[x.1]? = p.objects[x.1]? := by
    obtain ⟨l, hl⟩ := hobj
    rw [← hl, List.getElem?_append_left (hb.lt hx)]
  refine ⟨fun id ref => ?_, fun x hx => ?_, fun x hx => ?_, ?_, ?_, ?_, ?_, ?_⟩
  · rw [ht, hout, hb.table id ref]
    constructor
    · rintro ⟨r, hr, hid, hm⟩
      exact ⟨r, by rw [hget hm]; exact hr, hid, hm⟩
    · rintro ⟨r, hr, hid, hm⟩
      exact ⟨r, by rw [← hget hm]; exact hr, hid, hm⟩
  · rw [hout] at hx
    rw [hget hx]
    exact hb.objects x hx
  · rw [ht] at hx
    have hlt := hb.ids x hx
    omega
  · rw [ht]
    exact hb.ids_nodup
  · rw [hout]
    exact hb.refs_nodup
  · rw [hout]
    exact hlive
  · rw [hr, hout, hb.reserved]
  · rw [hc, hb.committed, total_append, total_cons, total_nil, add_zero]

/-- An event that neither closes nor makes a handle lets every one live on. -/
theorem Books.live_snoc (hb : Books k p h) (hclosed : e.closed = none) (hmade : e.made = none) :
    ∀ x ∈ outstanding k h, ¬ Stale k x.1 (h ++ [e]) := by
  intro x hx hst
  rcases hst.snoc with hst | hc | ⟨hc, -⟩
  · exact hb.live x hx hst
  · simp [hclosed] at hc
  · simp [hmade] at hc

/-- A reservation is added to the books of its authority. -/
theorem Books.hold (hb : Books k p h) (hclosed : ∀ x ∈ h, ∀ ref, x.closed = some ref →
      ref < p.objects.length) (hmade : ∀ x ∈ h, ∀ ref, x.made = some ref → ref < p.objects.length)
    (cellId : String) (estimate : Spend) :
    Books k { (p.put k ((p.authority k).hold p.objects.length ⟨p.ids, cellId, estimate⟩)) with
        objects := p.objects ++ [⟨p.ids, cellId, estimate⟩], ids := p.ids + 1 }
      (h ++ [(.reserve k cellId estimate, .ok (some p.objects.length))]) := by
  have hout : outstanding k (h ++ [(.reserve k cellId estimate, .ok (some p.objects.length))]) =
      outstanding k h ++ [(p.objects.length, estimate)] := by
    rw [outstanding_snoc]
    simp [settle]
  have hnew : ∀ x ∈ outstanding k h, x.1 ≠ p.objects.length := by
    intro x hx
    have hlt := hb.lt hx
    omega
  have hfresh : ¬ Stale k p.objects.length h := by
    intro hs
    have hno : p.objects.length < p.objects.length := by
      cases hs with
      | closed x hx hc => exact hclosed x hx _ hc
      | forged r hx => exact hmade _ hx _ rfl
      | foreign k' _ hi =>
        obtain ⟨cellId, estimate, hx⟩ := hi
        exact hmade _ hx _ rfl
    exact Nat.lt_irrefl _ hno
  refine ⟨fun id ref => ?_, fun x hx => ?_, fun x hx => ?_, ?_, ?_, fun x hx hs => ?_, ?_, ?_⟩
  · rw [hout]
    simp only [Process.put, Function.update_self, BudgetAuthority.hold, List.mem_append,
      List.mem_singleton, Prod.mk.injEq, hb.table id ref]
    constructor
    · rintro (⟨r, hr, hid, hm⟩ | ⟨rfl, rfl⟩)
      · refine ⟨r, ?_, hid, .inl hm⟩
        rw [List.getElem?_append_left (hb.lt hm)]
        exact hr
      · exact ⟨⟨p.ids, cellId, estimate⟩, by simp, rfl, .inr ⟨rfl, rfl⟩⟩
    · rintro ⟨r, hr, hid, hm | ⟨rfl, -⟩⟩
      · rw [List.getElem?_append_left (hb.lt hm)] at hr
        exact .inl ⟨r, hr, hid, hm⟩
      · obtain rfl : _ = r := by simpa using hr
        exact .inr ⟨hid.symm, rfl⟩
  · rw [hout] at hx
    rcases List.mem_append.mp hx with hx | hx
    · obtain ⟨r, hr, he⟩ := hb.objects x hx
      exact ⟨r, by rw [List.getElem?_append_left (hb.lt hx)]; exact hr, he⟩
    · obtain rfl := List.mem_singleton.mp hx
      exact ⟨⟨p.ids, cellId, estimate⟩, by simp, rfl⟩
  · simp only [Process.put, Function.update_self, BudgetAuthority.hold, List.mem_append,
      List.mem_singleton] at hx ⊢
    rcases hx with hx | rfl
    · exact Nat.lt_succ_of_lt (hb.ids x hx)
    · exact Nat.lt_succ_self _
  · simp only [Process.put, Function.update_self, BudgetAuthority.hold, List.map_append,
      List.map_cons, List.map_nil]
    refine hb.ids_nodup.append (List.nodup_singleton _) ?_
    rw [List.disjoint_singleton]
    intro hm
    obtain ⟨x, hx, he⟩ := List.mem_map.mp hm
    have hlt := hb.ids x hx
    omega
  · rw [hout, List.map_append]
    refine hb.refs_nodup.append (List.nodup_singleton _) ?_
    rw [List.map_singleton, List.disjoint_singleton]
    intro hm
    obtain ⟨x, hx, he⟩ := List.mem_map.mp hm
    exact hnew x hx he
  · rw [hout] at hx
    rcases hs.snoc with hs | hc | ⟨hm, hk⟩
    · rcases List.mem_append.mp hx with hx | hx
      · exact hb.live x hx hs
      · rw [List.mem_singleton.mp hx] at hs
        exact hfresh hs
    · simp [Event.closed] at hc
    · exact hk cellId estimate rfl
  · rw [hout, total_append, ← hb.reserved]
    simp [Process.put, BudgetAuthority.hold, BudgetAuthority.reserved, Spend.funds]
  · rw [total_append, ← hb.committed]
    simp [Process.put, BudgetAuthority.hold, BudgetAuthority.committed, spentAt]

/-- A reservation is struck from the books of its authority. -/
theorem Books.strike (hb : Books k p h) {ref : Nat} {r : Reservation} {a : BudgetAuthority}
    (ho : p.objects[ref]? = some r) (hr : (p.authority k).holder r.reservationId = some ref)
    (hs : settle k (outstanding k h) e = (outstanding k h).filter (·.1 ≠ ref))
    (hclosed : e.closed = some ref) (hmade : e.made = none)
    (htable : a.reservations = ((p.authority k).letGo r).reservations)
    (hres : a.reserved = ((p.authority k).letGo r).reserved)
    (hcom : a.committed = (p.authority k).committed + spentAt k e) :
    Books k (p.put k a) (h ++ [e]) := by
  obtain ⟨hheld, hm⟩ := hb.active ho hr
  have hout : outstanding k (h ++ [e]) = (outstanding k h).filter (·.1 ≠ ref) := by
    rw [outstanding_snoc, hs]
  have hput : (p.put k a).authority k = a := by simp [Process.put]
  have hgone : a.reservations = (p.authority k).reservations.filter (·.1 ≠ r.reservationId) := by
    rw [htable]
    rfl
  refine ⟨fun id ref' => ?_, fun x hx => ?_, fun x hx => ?_, ?_, ?_, fun x hx hst => ?_, ?_, ?_⟩
  · rw [hput, hout, hgone, List.mem_filter, hb.table id ref']
    simp only [Process.put, List.mem_filter, ne_eq, decide_eq_true_eq]
    constructor
    · rintro ⟨⟨r', hr', hid, hm'⟩, hne⟩
      refine ⟨r', hr', hid, hm', ?_⟩
      rintro rfl
      obtain rfl : r = r' := by simpa [ho] using hr'
      exact hne hid.symm
    · rintro ⟨r', hr', hid, hm', hne⟩
      refine ⟨⟨r', hr', hid, hm'⟩, ?_⟩
      intro he
      have hsame : (id, ref') ∈ (p.authority k).reservations := (hb.table id ref').mpr
        ⟨r', hr', hid, hm'⟩
      have hpair := List.inj_on_of_nodup_map hb.ids_nodup hsame hheld he
      exact hne (congrArg Prod.snd hpair)
  · rw [hout] at hx
    exact hb.objects x (List.mem_of_mem_filter hx)
  · rw [hput, hgone] at hx
    exact hb.ids x (List.mem_of_mem_filter hx)
  · rw [hput, hgone]
    exact hb.ids_nodup.sublist (List.filter_sublist.map _)
  · rw [hout]
    exact hb.refs_nodup.sublist (List.filter_sublist.map _)
  · rw [hout, List.mem_filter] at hx
    rcases hst.snoc with hst | hc | ⟨hc, -⟩
    · exact hb.live x hx.1 hst
    · have he : ref = x.1 := by simpa [hclosed] using hc
      simp [he] at hx
    · simp [hmade] at hc
  · rw [hput, hout, hres]
    exact reserved_letGo (hb.covers hm)
  · rw [hput, hcom, total_append, total_cons, total_nil, add_zero, hb.committed]

/-- A handle closed at one authority was not outstanding at another. -/
theorem Books.apart {k' : Nat} (hb : Books k p h) (hk : k' ≠ k) {ref : Nat}
    {x : Nat × Spend} (hx : x ∈ outstanding k h) {estimate : Spend}
    (hm : (ref, estimate) ∈ outstanding k' h) : x.1 ≠ ref := by
  intro he
  rw [← he] at hm
  have hi := outstanding_issued hm
  exact hb.live x hx (.foreign k' hk hi)

/-- The bounds on the handles in the history, when the objects grow. -/
theorem Process.Sound.bounds (hs : p.Sound h) (hle : p.objects.length ≤ p'.objects.length)
    (hmade : ∀ ref, e.made = some ref → ref < p'.objects.length)
    (hclosed : ∀ ref, e.closed = some ref → ref < p'.objects.length)
    (hb : ∀ k, Books k p' (h ++ [e])) : p'.Sound (h ++ [e]) := by
  refine ⟨fun x hx ref hm => ?_, fun x hx ref hc => ?_, hb⟩
  · rcases List.mem_append.mp hx with hx | hx
    · have hlt := hs.made x hx ref hm
      omega
    · rw [List.mem_singleton.mp hx] at hm
      exact hmade ref hm
  · rcases List.mem_append.mp hx with hx | hx
    · have hlt := hs.closed x hx ref hc
      omega
    · rw [List.mem_singleton.mp hx] at hc
      exact hclosed ref hc

/-- The books of an authority the closing of `ref` is not about. -/
theorem Books.others (hs : p.Sound h) {k' : Nat} (hk : k' ≠ k) {ref : Nat} {r : Reservation}
    {a : BudgetAuthority} (ho : p.objects[ref]? = some r)
    (hr : (p.authority k).holder r.reservationId = some ref)
    (hset : ∀ held, settle k' held e = held) (hspent : spentAt k' e = 0)
    (hclosed : e.closed = some ref) (hmade : e.made = none) :
    Books k' (p.put k a) (h ++ [e]) := by
  have hb := hs.books k'
  have ha : (p.put k a).authority k' = p.authority k' := by simp [Process.put, hk]
  refine hb.frame (by rw [ha]) (by rw [ha]) (by rw [ha, hspent, add_zero]) (List.prefix_refl _)
    (le_refl _) (hset _) ?_
  intro x hx hst
  have hne := hb.apart hk.symm hx ((hs.books k).active ho hr).2
  rcases hst.snoc with hst | hc | ⟨hc, -⟩
  · exact hb.live x hx hst
  · exact hne (by simpa [hclosed] using hc.symm)
  · simp [hmade] at hc

/-- The books of an authority an object's making is not about. -/
theorem Books.extend {k' : Nat} (hb : Books k' p h) (ha : p'.authority k' = p.authority k')
    {r : Reservation} (hobj : p'.objects = p.objects ++ [r]) (hids : p.ids ≤ p'.ids)
    (hset : ∀ held, settle k' held e = held) (hspent : spentAt k' e = 0)
    (hclosed : e.closed = none) (hmade : e.made = some p.objects.length) :
    Books k' p' (h ++ [e]) := by
  refine hb.frame (by rw [ha]) (by rw [ha]) (by rw [ha, hspent, add_zero])
    (by rw [hobj]; exact List.prefix_append _ _) hids (hset _) ?_
  intro x hx hst
  have hlt := hb.lt hx
  rcases hst.snoc with hst | hc | ⟨hc, -⟩
  · exact hb.live x hx hst
  · simp [hclosed] at hc
  · rw [hmade, Option.some.injEq] at hc
    omega

end Step

/-- **One call keeps the books** of every authority. -/
theorem Process.Sound.step {p : Process} {h : List Event} (hs : p.Sound h) (c : Call) :
    (p.step c).1.Sound (h ++ [(c, (p.step c).2)]) := by
  have hd := step_did p c
  generalize (p.step c).1 = q, (p.step c).2 = r at hd
  cases hd with
  | refused c e =>
    refine hs.bounds (le_refl _) (by simp [Event.made]) (by simp) fun k => ?_
    exact (hs.books k).frame rfl rfl (by simp) (List.prefix_refl _) (le_refl _) (by simp)
      ((hs.books k).live_snoc (by simp) rfl)
  | reserved k cellId estimate hok =>
    refine hs.bounds (by simp) (by simp [Event.made]) (by simp [Event.closed]) fun k' => ?_
    by_cases hk : k' = k
    · subst hk
      exact (hs.books k').hold hs.closed hs.made cellId estimate
    · refine (hs.books k').extend ?_ rfl (Nat.le_succ _) ?_ rfl rfl rfl
      · simp [Process.put, hk]
      · intro held
        simp [settle, Ne.symm hk]
  | committed k ref actual r ho hr hw =>
    have hlt := (List.getElem?_eq_some_iff.mp ho).1
    refine hs.bounds (le_refl _) (by simp [Event.made]) ?_ fun k' => ?_
    · intro x hx
      cases hx
      exact hlt
    · by_cases hk : k' = k
      · subst hk
        refine (hs.books k').strike ho hr (by simp [settle]) rfl rfl rfl rfl ?_
        simp [BudgetAuthority.committed, BudgetAuthority.record, BudgetAuthority.letGo, spentAt,
          Spend.funds, Spend.tokens]
      · exact .others hs hk ho hr (fun held => by simp [settle, Ne.symm hk])
          (by simp [spentAt, Ne.symm hk]) rfl rfl
  | released k ref r ho hr =>
    have hlt := (List.getElem?_eq_some_iff.mp ho).1
    refine hs.bounds (le_refl _) (by simp [Event.made]) ?_ fun k' => ?_
    · intro x hx
      cases hx
      exact hlt
    · by_cases hk : k' = k
      · subst hk
        refine (hs.books k').strike ho hr (by simp [settle]) rfl rfl rfl rfl ?_
        simp [BudgetAuthority.committed, BudgetAuthority.letGo, spentAt]
      · exact .others hs hk ho hr (fun held => by simp [settle, Ne.symm hk]) rfl rfl rfl
  | recorded k actual =>
    refine hs.bounds (le_refl _) (by simp [Event.made]) (by simp [Event.closed]) fun k' => ?_
    have hb := hs.books k'
    have hlive := hb.live_snoc (e := (.record k actual, .ok none)) rfl rfl
    by_cases hk : k' = k
    · subst hk
      refine hb.frame ?_ ?_ ?_ (List.prefix_refl _) (le_refl _) rfl hlive <;>
        simp [Process.put, BudgetAuthority.record, BudgetAuthority.reserved,
          BudgetAuthority.committed, spentAt, Spend.funds, Spend.tokens]
    · refine hb.frame ?_ ?_ ?_ (List.prefix_refl _) (le_refl _) rfl hlive <;>
        simp [Process.put, hk, spentAt, Ne.symm hk]
  | forged r =>
    refine hs.bounds (by simp) (by simp [Event.made]) (by simp [Event.closed]) fun k' => ?_
    exact (hs.books k').extend rfl rfl (le_refl _) (fun _ => rfl) rfl rfl rfl

theorem run_concat (budgets : Nat → Budget) (calls : List Call) (c : Call) :
    Process.run budgets (calls ++ [c]) =
      (((Process.run budgets calls).1.step c).1,
        (Process.run budgets calls).2 ++ [(c, ((Process.run budgets calls).1.step c).2)]) := by
  simp [Process.run]

/-- **Every run keeps the books.** -/
theorem run_sound (budgets : Nat → Budget) (calls : List Call) :
    (Process.run budgets calls).1.Sound (Process.run budgets calls).2 := by
  induction calls using List.reverseRecOn with
  | nil =>
    refine ⟨by simp [Process.run], by simp [Process.run], fun k => ?_⟩
    constructor <;> simp [Process.run, outstanding, BudgetAuthority.reserved,
      BudgetAuthority.committed]
  | append_singleton calls c ih =>
    rw [run_concat]
    exact ih.step c

/-! ## The limits -/

/-- The call is no `record` on authority `k`. -/
def Call.PreAuthorised (k : Nat) : Call → Prop
  | .record k' _ => k' ≠ k
  | _ => True

/-- Committed and reserved together keep the token limit and the call limit. -/
def BudgetAuthority.Fits (a : BudgetAuthority) : Prop :=
  (∀ l ∈ a.budget.tokenLimit, a.committedTokens + a.reservedTokens ≤ l) ∧
    (a.budget.maxCalls ≠ 0 → a.committedCalls + a.reservedCalls ≤ a.budget.maxCalls)

/-- Committed and reserved cost together keep the cost limit, up to one
tolerance. -/
def BudgetAuthority.CostFits (a : BudgetAuthority) : Prop :=
  ∀ l ∈ a.budget.costLimitUsd, a.committedCost + a.reservedCost ≤ l + costEpsilon

theorem refusal_none {a : BudgetAuthority} {estimate : Spend} (h : a.refusal estimate = none) :
    (∀ l ∈ a.budget.tokenLimit, a.committedTokens + a.reservedTokens + estimate.tokens ≤ l) ∧
    (∀ l ∈ a.budget.costLimitUsd,
      a.committedCost + a.reservedCost + estimate.costUsd ≤ l + costEpsilon) ∧
    (a.budget.maxCalls ≠ 0 →
      a.committedCalls + a.reservedCalls + estimate.calls ≤ a.budget.maxCalls) := by
  unfold BudgetAuthority.refusal at h
  split at h
  · cases h
  rename_i ht
  split at h
  · cases h
  rename_i hc
  split at h
  · cases h
  rename_i hn
  refine ⟨fun l hl => ?_, fun l hl => ?_, fun hm => ?_⟩
  · rw [Option.mem_def] at hl
    simpa [hl] using ht
  · rw [Option.mem_def] at hl
    simpa [hl] using hc
  · by_contra hlt
    exact hn ⟨hm, by omega⟩

/-- The reserved totals cover every active estimate. -/
theorem Books.estimate_le {k : Nat} {p : Process} {h : List Event} (hb : Books k p h) {ref : Nat}
    {r : Reservation} (ho : p.objects[ref]? = some r)
    (hr : (p.authority k).holder r.reservationId = some ref) :
    r.estimate.tokens ≤ (p.authority k).reservedTokens ∧
      r.estimate.costUsd ≤ (p.authority k).reservedCost ∧
      r.estimate.calls ≤ (p.authority k).reservedCalls := by
  have hc := hb.covers (hb.active ho hr).2
  simp only [BudgetAuthority.reserved, Spend.funds, Prod.ext_iff, Prod.fst_add, Prod.snd_add] at hc
  obtain ⟨ht, hd, hn⟩ := hc
  exact ⟨by omega, hd ▸ le_self_add, by omega⟩

theorem step_budget (p : Process) (c : Call) (k : Nat) :
    ((p.step c).1.authority k).budget = (p.authority k).budget := by
  have hd := step_did p c
  generalize (p.step c).1 = q, (p.step c).2 = r at hd
  have hput (k' : Nat) (a : BudgetAuthority) (ha : a.budget = (p.authority k').budget) :
      ((p.put k' a).authority k).budget = (p.authority k).budget := by
    by_cases hk : k = k'
    · subst hk
      simp [Process.put, ha]
    · simp [Process.put, hk]
  cases hd with
  | refused => rfl
  | forged => rfl
  | reserved k' => exact hput k' _ rfl
  | committed k' => exact hput k' _ rfl
  | released k' => exact hput k' _ rfl
  | recorded k' => exact hput k' _ rfl

/-- **A call other than `record` keeps the token and call limits.** -/
theorem Process.Sound.fits {p : Process} {h : List Event} (hs : p.Sound h) {k : Nat} {c : Call}
    (hc : c.PreAuthorised k) (hf : (p.authority k).Fits) : ((p.step c).1.authority k).Fits := by
  have hd := step_did p c
  generalize (p.step c).1 = q, (p.step c).2 = r at hd
  have hput (k' : Nat) (a : BudgetAuthority) (ha : k' = k → a.Fits) :
      ((p.put k' a).authority k).Fits := by
    by_cases hk : k = k'
    · subst hk
      simpa [Process.put] using ha rfl
    · simpa [Process.put, hk] using hf
  obtain ⟨hft, hfn⟩ := hf
  cases hd with
  | refused => exact ⟨hft, hfn⟩
  | forged => exact ⟨hft, hfn⟩
  | reserved k' cellId estimate hok =>
    obtain ⟨ht, -, hn⟩ := refusal_none hok
    refine hput k' _ fun hk => ⟨fun l hl => ?_, fun hm => ?_⟩
    · have hle := ht l hl
      simp only [BudgetAuthority.hold]
      omega
    · have hle := hn hm
      simp only [BudgetAuthority.hold]
      omega
  | committed k' ref actual r ho hr hw =>
    refine hput k' _ fun hk => ?_
    subst hk
    obtain ⟨het, -, hen⟩ := (hs.books k').estimate_le ho hr
    obtain ⟨hwt, -, hwn⟩ := hw
    simp only [Spend.tokens] at het hwt
    refine ⟨fun l hl => ?_, fun hm => ?_⟩
    · have hle := hft l hl
      simp only [BudgetAuthority.record, BudgetAuthority.letGo, Spend.tokens]
      omega
    · have hle := hfn hm
      simp only [BudgetAuthority.record, BudgetAuthority.letGo]
      omega
  | released k' ref r ho hr =>
    refine hput k' _ fun hk => ?_
    subst hk
    refine ⟨fun l hl => ?_, fun hm => ?_⟩
    · have hle := hft l hl
      simp only [BudgetAuthority.letGo]
      omega
    · have hle := hfn hm
      simp only [BudgetAuthority.letGo]
      omega
  | recorded k' actual => exact hput k' _ fun hk => absurd hk hc

/-- The commit does not take more above its estimate than the headroom left: an
`actual` that passes the check on its estimate stays within committed,
reserved and free cost. -/
def Call.Covered (k : Nat) (p : Process) : Call → Prop
  | .commit k' ref actual => k' = k → ∀ r ∈ p.objects[ref]?, actual.Within r.estimate →
      ∀ l ∈ (p.authority k).budget.costLimitUsd,
        (p.authority k).committedCost + (p.authority k).reservedCost + actual.costUsd ≤
          l + costEpsilon + r.estimate.costUsd
  | _ => True

/-- **A covered call other than `record` keeps the cost limit**, up to one
tolerance. -/
theorem Process.Sound.costFits {p : Process} {h : List Event} (hs : p.Sound h) {k : Nat} {c : Call}
    (hc : c.PreAuthorised k) (hcov : c.Covered k p) (hf : (p.authority k).CostFits) :
    ((p.step c).1.authority k).CostFits := by
  have hd := step_did p c
  generalize (p.step c).1 = q, (p.step c).2 = r at hd
  have hput (k' : Nat) (a : BudgetAuthority) (ha : k' = k → a.CostFits) :
      ((p.put k' a).authority k).CostFits := by
    by_cases hk : k = k'
    · subst hk
      simpa [Process.put] using ha rfl
    · simpa [Process.put, hk] using hf
  cases hd with
  | refused => exact hf
  | forged => exact hf
  | reserved k' cellId estimate hok =>
    obtain ⟨-, hle, -⟩ := refusal_none hok
    refine hput k' _ fun _ l hl => ?_
    have hle := hle l hl
    rw [add_assoc] at hle
    exact hle
  | committed k' ref actual r ho hr hw =>
    refine hput k' _ fun hk l hl => ?_
    subst hk
    obtain ⟨-, hd, -⟩ := (hs.books k').estimate_le ho hr
    have hle := hcov rfl r ho hw l hl
    have hcancel : (p.authority k').reservedCost - r.estimate.costUsd + r.estimate.costUsd =
        (p.authority k').reservedCost := tsub_add_cancel_of_le hd
    refine le_of_add_le_add_right (a := r.estimate.costUsd) ?_
    calc (p.authority k').committedCost + actual.costUsd +
          ((p.authority k').reservedCost - r.estimate.costUsd) + r.estimate.costUsd
        = (p.authority k').committedCost + (p.authority k').reservedCost + actual.costUsd := by
          rw [add_assoc _ _ r.estimate.costUsd, hcancel]
          abel
      _ ≤ l + costEpsilon + r.estimate.costUsd := hle
  | released k' ref r ho hr =>
    refine hput k' _ fun hk l hl => ?_
    subst hk
    exact (add_le_add_right tsub_le_self _).trans (hf l hl)
  | recorded k' actual => exact hput k' _ fun hk => absurd hk hc

/-! ## Runs -/

/-- The call raised `InvalidReservation`. -/
def Ending.rejected : Ending → Bool
  | .error (.invalidReservation _) => true
  | _ => false

theorem step_error {p : Process} {c : Call} {e : AuthorityError} (h : (p.step c).2 = .error e) :
    (p.step c).1 = p := by
  have hd := step_did p c
  generalize (p.step c).1 = q, (p.step c).2 = r at hd h
  cases hd with
  | refused => rfl
  | reserved => cases h
  | committed => cases h
  | released => cases h
  | recorded => cases h
  | forged => cases h

theorem requireActive_error {p : Process} {k ref : Nat} {e : AuthorityError}
    (h : p.requireActive k ref = .error e) : ∃ message, e = .invalidReservation message := by
  unfold Process.requireActive at h
  split at h
  · cases h
    exact ⟨_, rfl⟩
  · split at h
    · cases h
    · cases h
      exact ⟨_, rfl⟩

/-- A stale handle is refused. -/
theorem Process.Sound.rejects {p : Process} {h : List Event} (hs : p.Sound h) {k ref : Nat}
    (hst : Stale k ref h) (actual : Spend) :
    (p.step (.commit k ref actual)).2.rejected = true ∧
      (p.step (.release k ref)).2.rejected = true := by
  cases ha : p.requireActive k ref with
  | ok r =>
    obtain ⟨ho, hr⟩ := requireActive_ok ha
    exact absurd hst ((hs.books k).live _ ((hs.books k).active ho hr).2)
  | error e =>
    obtain ⟨message, rfl⟩ := requireActive_error ha
    simp [Process.step, Process.commit, Process.release, ha, Ending.rejected]

theorem run_budget (budgets : Nat → Budget) (calls : List Call) (k : Nat) :
    ((Process.run budgets calls).1.authority k).budget = budgets k := by
  induction calls using List.reverseRecOn with
  | nil => rfl
  | append_singleton calls c ih =>
    rw [run_concat, step_budget]
    exact ih

theorem run_fits (budgets : Nat → Budget) {calls : List Call} {k : Nat}
    (hc : ∀ c ∈ calls, c.PreAuthorised k) :
    ((Process.run budgets calls).1.authority k).Fits := by
  induction calls using List.reverseRecOn with
  | nil =>
    refine ⟨fun l _ => ?_, fun _ => ?_⟩
    · exact Nat.zero_le l
    · exact Nat.zero_le _
  | append_singleton calls c ih =>
    rw [run_concat]
    refine (run_sound budgets calls).fits (hc c (by simp)) (ih fun c hm => ?_)
    exact hc c (List.mem_append_left _ hm)

/-- **The authority's accounts.** After any calls on any authorities the
reserved totals are the sums of the active estimates and the committed ones the
sums of what was accepted; a call that raises changes nothing; a handle that was
closed, forged or issued elsewhere is refused; and at an authority nothing is
recorded on, tokens and calls keep their limits. -/
theorem reservations_account (budgets : Nat → Budget) (calls : List Call) :
    (∀ k, ((Process.run budgets calls).1.authority k).reserved =
        total (fun x => x.2.funds) (outstanding k (Process.run budgets calls).2) ∧
      ((Process.run budgets calls).1.authority k).committed =
        total (spentAt k) (Process.run budgets calls).2) ∧
    (∀ c e, ((Process.run budgets calls).1.step c).2 = .error e →
      ((Process.run budgets calls).1.step c).1 = (Process.run budgets calls).1) ∧
    (∀ k ref, Stale k ref (Process.run budgets calls).2 → ∀ actual,
      ((Process.run budgets calls).1.step (.commit k ref actual)).2.rejected = true ∧
        ((Process.run budgets calls).1.step (.release k ref)).2.rejected = true) ∧
    ∀ k, (∀ c ∈ calls, c.PreAuthorised k) →
      ((Process.run budgets calls).1.authority k).budget = budgets k ∧
        ((Process.run budgets calls).1.authority k).Fits := by
  have hs := run_sound budgets calls
  refine ⟨fun k => ⟨(hs.books k).reserved, (hs.books k).committed⟩, fun c e he => step_error he,
    fun k ref hst actual => hs.rejects hst actual, fun k hc => ⟨run_budget budgets calls k, ?_⟩⟩
  exact run_fits budgets hc

/-- The next call after `pre` takes no more than the headroom. -/
def Covers (budgets : Nat → Budget) (k : Nat) (pre : List Call) (c : Call) : Prop :=
  c.Covered k (Process.run budgets pre).1

instance (k : Nat) (p : Process) (c : Call) : Decidable (c.Covered k p) := by
  cases c <;> unfold Call.Covered <;> infer_instance

instance (budgets : Nat → Budget) (k : Nat) (pre : List Call) (c : Call) :
    Decidable (Covers budgets k pre c) :=
  inferInstanceAs (Decidable (c.Covered k (Process.run budgets pre).1))

theorem run_costFits (budgets : Nat → Budget) {k : Nat} {calls : List Call}
    (hc : ∀ c ∈ calls, c.PreAuthorised k) (hcov : Legal (Covers budgets k) calls) :
    ((Process.run budgets calls).1.authority k).CostFits := by
  induction hcov with
  | nil =>
    intro l _
    simp [Process.run]
  | @snoc pre c _ hcov ih =>
    rw [run_concat]
    refine (run_sound budgets pre).costFits (hc c (by simp)) hcov (ih fun c hm => ?_)
    exact hc c (List.mem_append_left _ hm)

/-- **The cost limit, up to one tolerance.** In a run without `record` whose
commits never take more above their estimates than the headroom left, the
committed cost is within the limit and one tolerance in every state reached. -/
theorem committed_within_tolerance (budgets : Nat → Budget) (k : Nat) (limit : ℚ≥0)
    (hl : (budgets k).costLimitUsd = some limit) (calls : List Call)
    (hc : ∀ c ∈ calls, c.PreAuthorised k) (hcov : Legal (Covers budgets k) calls) :
    ∀ pre, pre <+: calls →
      ((Process.run budgets pre).1.authority k).committedCost ≤ limit + costEpsilon := by
  intro pre hpre
  have hf := run_costFits budgets (fun c hm => hc c (hpre.subset hm)) (hcov.of_prefix hpre)
  have hle := hf limit (by rw [run_budget, hl]; rfl)
  exact le_self_add.trans hle

/-- Two reservations of half a dollar under a limit of one; the first commit
takes less than its estimate, the second a little more. -/
theorem committed_within_tolerance_halves :
    ((Process.run (fun _ => { costLimitUsd := some 1 })
        [.reserve 0 "a" { costUsd := 0.5 }, .reserve 0 "b" { costUsd := 0.5 },
          .commit 0 0 { costUsd := 0.4 }, .commit 0 1 { costUsd := 0.5000000005 }]).1.authority
      0).committedCost ≤ 1 + costEpsilon :=
  committed_within_tolerance (fun _ => { costLimitUsd := some 1 }) 0 1 rfl _
    (by simp [Call.PreAuthorised]) (by decide +kernel) _ List.prefix_rfl

/-- Two commits that each use the tolerance on their estimates pass the limit by
two of them. -/
theorem tolerances_add_up :
    ¬ ∀ (budgets : Nat → Budget) (calls : List Call) (k : Nat) (limit : ℚ≥0),
      (budgets k).costLimitUsd = some limit → (∀ c ∈ calls, c.PreAuthorised k) →
      ((Process.run budgets calls).1.authority k).committedCost ≤ limit + costEpsilon := by
  intro hall
  have hle := hall (fun _ => { costLimitUsd := some 1 })
    [.reserve 0 "a" { costUsd := 0.5 }, .reserve 0 "b" { costUsd := 0.5 },
      .commit 0 0 { costUsd := 0.500000001 }, .commit 0 1 { costUsd := 0.500000001 }] 0 1 rfl
    (by simp [Call.PreAuthorised])
  revert hle
  decide +kernel

end Northstack
