import Mathlib
import Northstack.Adapters.Lease
import Northstack.Core.Trace

/-!
# Two workers and one mutation lease

Mirrors the lease handling of `NativeWorker.run` (application/worker.py:885-938)
for two runs that share a workspace. A run acquires before each mutating call,
hands the token to the tool, whose mutation checks it, keeps it in
`mutation_lease`, and gives it back in its `finally`. Whatever the models, the
providers and the tools do, these are the only steps of a run that touch the
lease; they interleave freely, and a run may end at any of its awaits.

**Result.** `lease_exclusive_iff`: the two runs never hold the lease together,
and the end of one never takes it from the other, exactly if no run acquires
while the other holds it. The name they all acquire under does not see to that.
-/
namespace Northstack

open Trace

/-- Where a run is: between mutating calls, inside one, or behind its `finally`. -/
inductive RunPhase where
  | looping
  | mutating (lease : String)
  | ended
  deriving DecidableEq

/-- The token a mutating call was given. -/
def RunPhase.token? : RunPhase → Option String
  | .mutating lease => some lease
  | _ => none

/-- One `NativeWorker.run`: its `mutation_lease` and where it is. -/
structure LeaseUser where
  lease : Option String := none
  phase : RunPhase := .looping
  deriving DecidableEq

/-- The slot of the workspace, the two runs, the last clock reading and the
tokens drawn so far. -/
structure LeasePair where
  slot : Option Lease := none
  user : Bool → LeaseUser := fun _ => {}
  clock : ℚ
  drawn : List String := []

/-- The owner every worker acquires under (worker.py:895). -/
def leaseOwner : String := "native-worker"

inductive LeaseStep where
  /-- A mutating call is resolved (worker.py:893-902). -/
  | acquire (i : Bool) (now acquired : ℚ) (fresh : String)
  /-- Its tool checks the token it was given, and mutates or is refused. -/
  | mutate (i : Bool) (now : ℚ)
  /-- The run returns, raises or is cancelled; its `finally` (worker.py:936-938). -/
  | finish (i : Bool)

namespace LeasePair

variable (timeout : ℚ) (s : LeasePair)

def set (i : Bool) (u : LeaseUser) : LeasePair := { s with user := Function.update s.user i u }

/-- What a run does next, given that it may. -/
def step : LeaseStep → LeasePair
  | .acquire i now acquired fresh =>
    let r := acquireLease timeout s.slot leaseOwner now acquired fresh
    let u : LeaseUser := match r.2.token? with
      | some token => { lease := some token, phase := .mutating token }
      | none => { lease := none, phase := .looping }
    { s.set i u with
      slot := r.1
      clock := match r.2 with
        | .new l => l.acquiredAt
        | _ => now
      drawn := match r.2 with
        | .new l => l.token :: s.drawn
        | _ => s.drawn }
  | .mutate i now =>
    { s.set i { s.user i with phase := .looping } with
      slot := (checkLease s.slot (s.user i).phase.token? now).1
      clock := now }
  | .finish i =>
    { s.set i { s.user i with phase := .ended } with
      slot := match (s.user i).lease with
        | some token => releaseLease s.slot token
        | none => s.slot }

/-- The step is one a run can take there: the clock does not go back, a token is
never drawn twice, and a run goes through its calls one at a time. -/
def Enabled : LeaseStep → Prop
  | .acquire i now acquired fresh =>
    (s.user i).phase = .looping ∧ s.clock ≤ now ∧ now ≤ acquired ∧ fresh ∉ s.drawn
  | .mutate i now => (s.user i).phase.token?.isSome ∧ s.clock ≤ now
  | .finish i => (s.user i).phase ≠ .ended

/-- Run `i` holds the mutation lease at time `now`: it has not ended, and the
token it keeps is that of the lease in the slot, which has not expired. -/
def Holds (i : Bool) (now : ℚ) : Prop :=
  (s.user i).phase ≠ .ended ∧ ∃ l, s.slot = some l ∧ (s.user i).lease = some l.token ∧
    l.isExpired now = false

/-- The two runs do not hold the lease together, now or later. -/
def Exclusive : Prop := ∀ now, s.clock ≤ now → ¬ (s.Holds false now ∧ s.Holds true now)

/-- The step, if it ends a run, leaves the lease to the other one if it has it. -/
def EndsQuietly : LeaseStep → Prop
  | .finish i => ∀ now, s.clock ≤ now → s.Holds (!i) now → (s.step timeout (.finish i)).Holds (!i) now
  | _ => True

/-- The step does not acquire while the other run holds the lease. -/
def Alone : LeaseStep → Prop
  | .acquire i now _ _ => ¬ s.Holds (!i) now
  | _ => True

end LeasePair

/-- The two runs after some steps, from a workspace without a lease. -/
def leasePair (timeout start : ℚ) (steps : List LeaseStep) : LeasePair :=
  steps.foldl (LeasePair.step timeout) { clock := start }

theorem leasePair_concat (timeout start : ℚ) (steps : List LeaseStep) (st : LeaseStep) :
    leasePair timeout start (steps ++ [st]) = (leasePair timeout start steps).step timeout st := by
  simp [leasePair]

instance (s : LeasePair) (st : LeaseStep) : Decidable (s.Enabled st) := by
  cases st <;> unfold LeasePair.Enabled <;> infer_instance

/-! ## What a step does -/

namespace LeasePair

variable {timeout : ℚ} {s : LeasePair}

/-- What every token in sight is: drawn, and drawn under the one name. -/
structure Drawn (s : LeasePair) : Prop where
  user : ∀ i token, (s.user i).lease = some token → token ∈ s.drawn
  slot : ∀ l, s.slot = some l → l.token ∈ s.drawn
  owner : ∀ l, s.slot = some l → l.owner = leaseOwner

theorem Holds.mono {i : Bool} {t t' : ℚ} (h : s.Holds i t') (ht : t ≤ t') : s.Holds i t := by
  obtain ⟨hp, l, hs, hl, he⟩ := h
  refine ⟨hp, l, hs, hl, ?_⟩
  by_contra hne
  rw [Bool.not_eq_false] at hne
  rw [Lease.expired_mono hne ht] at he
  cases he

/-- Whoever shares a token at the last reading shares it from then on. -/
theorem exclusive_iff : s.Exclusive ↔ ∀ i, s.Holds i s.clock → ¬ s.Holds (!i) s.clock := by
  constructor
  · intro hx i hi hj
    cases i with
    | false => exact hx s.clock (le_refl _) ⟨hi, hj⟩
    | true => exact hx s.clock (le_refl _) ⟨hj, hi⟩
  · intro hx now hle hboth
    exact hx false (hboth.1.mono hle) (hboth.2.mono hle)

/-- An acquiring run gets the live lease of the slot, or a new one. -/
theorem acquire_cases (timeout : ℚ) (hd : s.Drawn) (i : Bool) (now acquired : ℚ) (fresh : String) :
    (∃ l, s.slot = some l ∧ l.isExpired now = false ∧
      s.step timeout (.acquire i now acquired fresh) =
        { s.set i { lease := some l.token, phase := .mutating l.token } with clock := now }) ∨
    ((∀ l, s.slot = some l → l.isExpired now = true) ∧
      s.step timeout (.acquire i now acquired fresh) =
        { s.set i { lease := some fresh, phase := .mutating fresh } with
          slot := some ⟨fresh, leaseOwner, acquired, timeout⟩
          clock := acquired
          drawn := fresh :: s.drawn }) := by
  rcases acquireLease_cases timeout s.slot leaseOwner now acquired fresh with
    ⟨l, hs, he, hslot, ha⟩ | ⟨hexp, heq⟩
  · rcases ha with ⟨-, ha⟩ | ⟨ho, -⟩
    · refine .inl ⟨l, hs, he, ?_⟩
      simp only [step, hslot, ha, Acquired.token?]
      rw [← hs]
      rfl
    · exact absurd (hd.owner l hs) ho
  · refine .inr ⟨hexp, ?_⟩
    simp only [step, heq, Acquired.token?]

theorem step_mutate_lease {i j : Bool} {now : ℚ} :
    ((s.step timeout (.mutate i now)).user j).lease = (s.user j).lease := by
  by_cases hj : j = i
  · subst hj
    simp [step, set]
  · simp [step, set, hj]

theorem step_finish_lease {i j : Bool} :
    ((s.step timeout (.finish i)).user j).lease = (s.user j).lease := by
  by_cases hj : j = i
  · subst hj
    simp [step, set]
  · simp [step, set, hj]

/-- The end of a run only empties the slot. -/
theorem finish_slot {i : Bool} {l : Lease} (h : (s.step timeout (.finish i)).slot = some l) :
    s.slot = some l := by
  simp only [step] at h
  split at h
  · exact (releaseLease_slot.mp h).1
  · exact h

/-- A mutation gives nobody the lease. -/
theorem holds_of_mutate {i j : Bool} {now : ℚ} (hle : s.clock ≤ now)
    (h : (s.step timeout (.mutate i now)).Holds j now) (hi : (s.user i).phase.token?.isSome) :
    s.Holds j s.clock := by
  obtain ⟨hp, l, hs, hl, he⟩ := h
  rw [step_mutate_lease] at hl
  refine (show s.Holds j now from ⟨?_, l, checkLease_slot hs, hl, he⟩).mono hle
  by_cases hj : j = i
  · subst hj
    intro hend
    rw [hend] at hi
    cases hi
  · simpa [step, set, hj] using hp

/-- A run that has ended holds nothing. -/
theorem not_holds_finish {i : Bool} {now : ℚ} : ¬ (s.step timeout (.finish i)).Holds i now := by
  rintro ⟨hp, -⟩
  exact hp (by simp [step, set])

theorem Drawn.step (hd : s.Drawn) (st : LeaseStep) : (s.step timeout st).Drawn := by
  cases st with
  | acquire i now acquired fresh =>
    rcases acquire_cases timeout hd i now acquired fresh with ⟨l, hs, -, heq⟩ | ⟨-, heq⟩
    · rw [heq]
      refine ⟨fun j token ht => ?_, hd.slot, hd.owner⟩
      by_cases hj : j = i
      · subst hj
        simp only [set, Function.update_self, Option.some.injEq] at ht
        exact ht ▸ hd.slot l hs
      · simp only [set, Function.update_of_ne hj] at ht
        exact hd.user j token ht
    · rw [heq]
      refine ⟨fun j token ht => ?_, fun l hl => ?_, fun l hl => ?_⟩
      · by_cases hj : j = i
        · subst hj
          simp only [set, Function.update_self, Option.some.injEq] at ht
          simp [ht]
        · simp only [set, Function.update_of_ne hj] at ht
          exact List.mem_cons_of_mem _ (hd.user j token ht)
      · cases hl
        exact List.mem_cons_self
      · cases hl
        rfl
  | mutate i now =>
    refine ⟨fun j token ht => ?_, fun l hl => ?_, fun l hl => ?_⟩
    · rw [step_mutate_lease] at ht
      exact hd.user j token ht
    · exact hd.slot l (checkLease_slot hl)
    · exact hd.owner l (checkLease_slot hl)
  | finish i =>
    refine ⟨fun j token ht => ?_, fun l hl => ?_, fun l hl => ?_⟩
    · rw [step_finish_lease] at ht
      exact hd.user j token ht
    · exact hd.slot l (finish_slot hl)
    · exact hd.owner l (finish_slot hl)

/-- **A step that does not barge in keeps the runs apart.** -/
theorem Exclusive.step (hd : s.Drawn) (hx : s.Exclusive) {st : LeaseStep} (he : s.Enabled st)
    (ha : s.Alone st) : (s.step timeout st).Exclusive := by
  rw [exclusive_iff] at hx ⊢
  cases st with
  | acquire i now acquired fresh =>
    obtain ⟨hp, hle, hle', hfresh⟩ := he
    rcases acquire_cases timeout hd i now acquired fresh with
      ⟨l, hs, hexp, heq⟩ | ⟨hexp, heq⟩
    · have hother : ¬ (s.step timeout (.acquire i now acquired fresh)).Holds (!i) now := by
        rw [heq]
        rintro ⟨hp', l', hs', hl', he'⟩
        simp only [set, Function.update_of_ne (Bool.not_ne_self i)] at hp' hs' hl'
        exact ha ⟨hp', l', hs', hl', he'⟩
      intro j hj hj'
      have hclock : (s.step timeout (.acquire i now acquired fresh)).clock = now := by
        rw [heq]
      rw [hclock] at hj hj'
      by_cases hji : j = i
      · exact hother (hji ▸ hj')
      · have hji' : j = !i := by
          cases i <;> cases j <;> simp_all
        exact hother (hji' ▸ hj)
    · have hother : ∀ t, ¬ (s.step timeout (.acquire i now acquired fresh)).Holds (!i) t := by
        intro t
        rw [heq]
        rintro ⟨hp', l', hs', hl', -⟩
        simp only [set, Function.update_of_ne (Bool.not_ne_self i), Option.some.injEq] at hp' hs' hl'
        rw [← hs'] at hl'
        exact hfresh (hd.user _ _ hl')
      intro j hj hj'
      by_cases hji : j = i
      · exact hother _ (hji ▸ hj')
      · have hji' : j = !i := by
          cases i <;> cases j <;> simp_all
        exact hother _ (hji' ▸ hj)
  | mutate i now =>
    intro j hj hj'
    exact hx j (holds_of_mutate he.2 hj he.1) (holds_of_mutate he.2 hj' he.1)
  | finish i =>
    intro j hj hj'
    by_cases hji : j = i
    · exact not_holds_finish (hji ▸ hj)
    · have hji' : (!j) = i := by
        cases i <;> cases j <;> simp_all
      exact not_holds_finish (hji' ▸ hj')

/-- Where the runs are apart, the end of one leaves the lease to the other. -/
theorem Exclusive.endsQuietly (hx : s.Exclusive) {st : LeaseStep} (he : s.Enabled st) :
    s.EndsQuietly timeout st := by
  cases st with
  | acquire i now acquired fresh => trivial
  | mutate i now => trivial
  | finish i =>
    intro now hle hj
    have hi : ¬ s.Holds i now := by
      intro hi
      refine exclusive_iff.mp hx i (hi.mono hle) (hj.mono hle)
    obtain ⟨hp, l, hs, hl, hexp⟩ := hj
    have hlease : ((s.step timeout (.finish i)).user (!i)).lease = some l.token := by
      rw [step_finish_lease]
      exact hl
    refine ⟨by simpa [LeasePair.step, set] using hp, l, ?_, hlease, hexp⟩
    simp only [LeasePair.step]
    split
    · rename_i token ht
      refine releaseLease_slot.mpr ⟨hs, ?_⟩
      rintro rfl
      exact hi ⟨he, l, hs, ht, hexp⟩
    · exact hs

/-- **Barging in shares the lease**: the acquiring run is handed the other's
token. -/
theorem not_exclusive_of_barge (timeout : ℚ) (hd : s.Drawn) {st : LeaseStep} (ha : ¬ s.Alone st) :
    ¬ (s.step timeout st).Exclusive := by
  cases st with
  | mutate i now => exact absurd trivial ha
  | finish i => exact absurd trivial ha
  | acquire i now acquired fresh =>
    obtain ⟨hp, l, hs, hl, hexp⟩ := not_not.mp ha
    rcases acquire_cases timeout hd i now acquired fresh with ⟨l', hs', hexp', heq⟩ | ⟨hall, -⟩
    · obtain rfl : l = l' := Option.some.inj (hs.symm.trans hs')
      intro hx
      refine exclusive_iff.mp hx i ?_ ?_
      · rw [heq]
        exact ⟨by simp [set], l, hs, by simp [set], hexp⟩
      · rw [heq]
        exact ⟨by simpa [set] using hp, l, hs, by simpa [set] using hl, hexp⟩
    · rw [hall l hs] at hexp
      cases hexp

end LeasePair

/-! ## Runs -/

section Runs

variable {timeout start : ℚ} {steps : List LeaseStep}

/-- The next step after `pre` is one that can be taken. -/
def CanStep (timeout start : ℚ) (pre : List LeaseStep) (st : LeaseStep) : Prop :=
  (leasePair timeout start pre).Enabled st

instance (timeout start : ℚ) (pre : List LeaseStep) (st : LeaseStep) :
    Decidable (CanStep timeout start pre st) :=
  inferInstanceAs (Decidable ((leasePair timeout start pre).Enabled st))

/-- The next step after `pre` does not acquire while the other run holds. -/
def StepsAlone (timeout start : ℚ) (pre : List LeaseStep) (st : LeaseStep) : Prop :=
  (leasePair timeout start pre).Alone st

/-- The next step after `pre`, if it ends a run, leaves the other its lease. -/
def StepsQuietly (timeout start : ℚ) (pre : List LeaseStep) (st : LeaseStep) : Prop :=
  (leasePair timeout start pre).EndsQuietly timeout st

theorem leasePair_drawn (timeout start : ℚ) (steps : List LeaseStep) :
    (leasePair timeout start steps).Drawn := by
  induction steps using List.reverseRecOn with
  | nil => constructor <;> simp [leasePair]
  | append_singleton steps st ih =>
    rw [leasePair_concat]
    exact ih.step st

/-- A run of steps taken alone keeps the runs apart. -/
theorem leasePair_exclusive (hc : Legal (CanStep timeout start) steps)
    (ha : Legal (StepsAlone timeout start) steps) : (leasePair timeout start steps).Exclusive := by
  induction steps using List.reverseRecOn with
  | nil =>
    intro now _ hboth
    obtain ⟨-, l, hs, -⟩ := hboth.1
    cases hs
  | append_singleton steps st ih =>
    have hpre : steps <+: steps ++ [st] := List.prefix_append _ _
    rw [leasePair_concat]
    exact (ih (hc.of_prefix hpre) (ha.of_prefix hpre)).step (leasePair_drawn timeout start steps)
      hc.last ha.last

/-- **When two workers exclude each other.** In any interleaving of two runs,
the runs hold the lease together in no state and the end of one never takes the
lease from the other, exactly if no run acquires while the other holds it. -/
theorem lease_exclusive_iff (hc : Legal (CanStep timeout start) steps) :
    ((∀ pre, pre <+: steps → (leasePair timeout start pre).Exclusive) ∧
        Legal (StepsQuietly timeout start) steps) ↔
      Legal (StepsAlone timeout start) steps := by
  constructor
  · rintro ⟨hx, -⟩
    rw [legal_iff]
    intro i hi
    by_contra hbarge
    refine LeasePair.not_exclusive_of_barge timeout (leasePair_drawn timeout start (steps.take i))
      hbarge ?_
    rw [← leasePair_concat, List.take_append_getElem]
    exact hx _ (List.take_prefix _ _)
  · intro ha
    refine ⟨fun pre hpre => leasePair_exclusive (hc.of_prefix hpre) (ha.of_prefix hpre), ?_⟩
    rw [legal_iff]
    intro i hi
    have hpre : steps.take i <+: steps := List.take_prefix _ _
    refine (leasePair_exclusive (hc.of_prefix hpre) (ha.of_prefix hpre)).endsQuietly ?_
    exact legal_iff.mp hc i hi

end Runs

/-- One run mutates, and another takes over after the first one's lease expired. -/
theorem lease_exclusive_iff_takeover :
    ((∀ pre, pre <+: [.acquire false 0 0 "s", .mutate false 1, .acquire true 40 40 "t",
          .finish false, .mutate true 41, .finish true] → (leasePair 30 0 pre).Exclusive) ∧
        Legal (StepsQuietly 30 0) [.acquire false 0 0 "s", .mutate false 1,
          .acquire true 40 40 "t", .finish false, .mutate true 41, .finish true]) ↔
      Legal (StepsAlone 30 0) [.acquire false 0 0 "s", .mutate false 1, .acquire true 40 40 "t",
        .finish false, .mutate true 41, .finish true] :=
  lease_exclusive_iff (by decide +kernel)

/-- Two runs that each make a mutating call hold the lease together, and the end
of the first takes it from the second. -/
theorem workers_share_lease :
    (¬ ∀ (timeout start : ℚ) (steps : List LeaseStep), Legal (CanStep timeout start) steps →
      ∀ pre, pre <+: steps → (leasePair timeout start pre).Exclusive) ∧
    ¬ ∀ (timeout start : ℚ) (steps : List LeaseStep), Legal (CanStep timeout start) steps →
      Legal (StepsQuietly timeout start) steps := by
  constructor
  · intro hall
    have hx := hall 30 0 [.acquire false 0 0 "s", .mutate false 0, .acquire true 1 1 "t"]
      (by decide +kernel) _ (List.prefix_refl _)
    refine hx 1 (by decide +kernel) ⟨⟨by decide +kernel, ⟨"s", "native-worker", 0, 30⟩, ?_⟩,
      ⟨by decide +kernel, ⟨"s", "native-worker", 0, 30⟩, ?_⟩⟩ <;> decide +kernel
  · intro hall
    have hq := hall 30 0 [.acquire false 0 0 "s", .mutate false 0, .acquire true 1 1 "t",
      .mutate true 1, .finish false] (by decide +kernel)
    have hlast : StepsQuietly 30 0 [.acquire false 0 0 "s", .mutate false 0,
        .acquire true 1 1 "t", .mutate true 1] (.finish false) := Legal.last hq
    obtain ⟨-, l, hs, -⟩ := hlast 1 (by decide +kernel) ⟨by decide +kernel,
      ⟨"s", "native-worker", 0, 30⟩, by decide +kernel⟩
    have hnone : ((leasePair 30 0 [.acquire false 0 0 "s", .mutate false 0,
        .acquire true 1 1 "t", .mutate true 1]).step 30 (.finish false)).slot = none := by
      decide +kernel
    rw [hnone] at hs
    cases hs

end Northstack
