import Mathlib

/-!
# What a task awaits

A task awaits another task, or the future of a group of tasks. Whether one may
still be cancelled, and what becomes of the cancellation, differ: a group passes
it on to its members and, once they have ended, ends cancelled whatever they
returned.

`Awaitable` is what the two have in common: an ended one stays as it is and
refuses a cancellation, and where a cancellation is refused no code is left to
run.
-/
namespace Coop

/-- How a task or a future ends. -/
inductive Ended (ε β : Type) where
  | result (b : β)
  | raised (e : ε)
  | cancelled
  deriving DecidableEq

/-- Something to await in the states `ω`, with the moves `μ` of its own code and
callbacks. `cancel` gives `none` where the method returns `False`. -/
structure Awaitable (ω μ ε β : Type) where
  move : ω → μ → Option ω
  ended : ω → Option (Ended ε β)
  running : ω → Prop
  cancel : ω → Option ω
  move_ended : ∀ w m, (ended w).isSome = true → move w m = none
  not_running : ∀ w, (ended w).isSome = true → ¬ running w
  cancel_ended : ∀ w, (ended w).isSome = true → cancel w = none
  ended_cancel : ∀ w w', cancel w = some w' → ended w' = none
  refused : ∀ w, cancel w = none → ¬ running w

variable {ε α : Type}

/-! ## A task -/

/-- A task: whether a cancellation was requested, and how it ended. -/
structure Single (ε α : Type) where
  cancelRequested : Bool := false
  ended : Option (Ended ε α) := none

namespace Single

/-- The code of a task ends in some way, whether it was cancelled or not. -/
def finish (t : Single ε α) (e : Ended ε α) : Option (Single ε α) :=
  if t.ended.isSome then none else some { t with ended := some e }

/-- `Task.cancel()` -/
def cancel (t : Single ε α) : Option (Single ε α) :=
  if t.ended.isSome then none else some { t with cancelRequested := true }

theorem cancel_some {t t' : Single ε α} (h : t.cancel = some t') :
    t.ended = none ∧ t'.ended = none := by
  unfold cancel at h
  split at h
  · cases h
  · rename_i hnone
    cases h
    exact ⟨Option.not_isSome_iff_eq_none.mp hnone, Option.not_isSome_iff_eq_none.mp hnone⟩

end Single

def single : Awaitable (Single ε α) (Ended ε α) ε α where
  move := Single.finish
  ended := Single.ended
  running t := t.ended = none
  cancel := Single.cancel
  move_ended _ _ h := if_pos h
  not_running t h hnone := by
    rw [hnone] at h
    cases h
  cancel_ended _ h := if_pos h
  ended_cancel _ _ h := (Single.cancel_some h).2
  refused t h hnone := by
    unfold Single.cancel at h
    rw [hnone] at h
    cases h

/-! ## A group -/

/-- The future of `gather(*tasks, return_exceptions=True)`; it ends behind its
members. -/
structure Group (ε α : Type) where
  members : List (Option (Ended ε α))
  cancelRequested : Bool := false
  ended : Option (Ended ε (List (Ended ε α))) := none
  settled : ended.isSome = true → ∀ c ∈ members, c.isSome = true

/-- A member of the group ends, or the last one's callback ends the future. -/
inductive GroupMove (ε α : Type) where
  | member (i : Nat) (e : Ended ε α)
  | collect

namespace Group

/-- All members have ended. -/
def Quiet (g : Group ε α) : Prop := ∀ c ∈ g.members, c.isSome = true

instance (g : Group ε α) : Decidable g.Quiet := inferInstanceAs (Decidable (∀ c ∈ _, _))

def move (g : Group ε α) : GroupMove ε α → Option (Group ε α)
  | .member i e =>
    if g.ended.isSome then none
    else match g.members[i]? with
      | some none => some
        { members := g.members.set i (some e)
          cancelRequested := g.cancelRequested
          ended := none
          settled := by
            intro h
            cases h }
      | _ => none
  | .collect =>
    if g.ended.isSome then none
    else if h : g.Quiet then some
      { g with
        ended := some (if g.cancelRequested then .cancelled else .result (g.members.filterMap id))
        settled := fun _ => h }
    else none

/-- `_GatheringFuture.cancel()`: `False` where no member could be cancelled. -/
def cancel (g : Group ε α) : Option (Group ε α) :=
  if g.Quiet then none else some { g with cancelRequested := true }

end Group

def gathered : Awaitable (Group ε α) (GroupMove ε α) ε (List (Ended ε α)) where
  move := Group.move
  ended := Group.ended
  running g := ¬ g.Quiet
  cancel := Group.cancel
  move_ended g m h := by cases m <;> exact if_pos h
  not_running g h := not_not.mpr (g.settled h)
  cancel_ended g h := if_pos (g.settled h)
  ended_cancel g g' h := by
    unfold Group.cancel at h
    split at h
    · cases h
    · rename_i hq
      cases h
      by_contra hne
      exact hq (g.settled (Option.isSome_iff_ne_none.mpr hne))
  refused g h := by
    unfold Group.cancel at h
    split at h
    · rename_i hq
      exact not_not.mpr hq
    · cases h

end Coop
