import Northstack.Core.Runs

/-!
# Waiting for an operation that is not to be interrupted

An operation is part of some machine: its own moves and those of everybody else change
the state, and from some state on it has ended with a result. A task waits for it, and
can be cancelled while it waits: the cancellation is raised at its await on its next turn,
a second request before that turn takes the place of the first. What the task then makes
of it is its own affair (`Waiter`); the operation goes on.

**Results.**
* `undisturbed`: the machine runs as if nobody waited for the operation and nobody were
  cancelled.
* `heard_run`, `Heard.closed`: a waiter that has ended did so behind the end of the
  operation. Its outcome is what it makes of the one result and of the cancellations it
  heard, the last of those asked for among them.
* `turn_ends`: once the operation has ended, the next turn of the waiter is its last.
-/
namespace Shielding

open Runs

/-- An operation within a machine. -/
structure Operation (τ μ β : Type) where
  step : τ → μ → Option τ
  ended : τ → Option β
  stays : ∀ t m t' r, ended t = some r → step t m = some t' → ended t' = some r

/-- A task that waits. In the phase `w` it hears that the operation has ended with `r`
(`woken w r`), or a cancellation `c`: while the operation runs it goes on waiting
(`again w c`), otherwise it ends (`late w c r`). -/
structure Waiter (ω γ β ο : Type) where
  start : ω
  woken : ω → β → ο
  again : ω → γ → ω
  late : ω → γ → β → ο

/-- A machine with a task that waits. The model alone keeps which cancellations were asked
for and which were raised. -/
structure Wait (τ ω γ ο : Type) where
  inner : τ
  phase : ω
  pending : Option γ := none
  outcome : Option ο := none
  asked : List γ := []
  raised : List γ := []

/-- The machine moves; the waiting task is cancelled; it takes a turn. -/
inductive Move (μ γ : Type) where
  | inner (m : μ)
  | cancel (c : γ)
  | turn

/-- The moves of the machine. -/
def Move.inner? {μ γ : Type} : Move μ γ → Option μ
  | .inner m => some m
  | _ => none

section

variable {τ μ ω γ β ο : Type} (op : Operation τ μ β) (wt : Waiter ω γ β ο)

/-- A turn of the waiter: it has one to take if something is raised at its await, or the
operation has ended. -/
def turn (s : Wait τ ω γ ο) : Option (Wait τ ω γ ο) :=
  match s.pending, op.ended s.inner with
  | some c, some r =>
    some { s with
      pending := none, raised := s.raised ++ [c], outcome := some (wt.late s.phase c r) }
  | some c, none =>
    some { s with pending := none, raised := s.raised ++ [c], phase := wt.again s.phase c }
  | none, some r => some { s with outcome := some (wt.woken s.phase r) }
  | none, none => none

def step (s : Wait τ ω γ ο) : Move μ γ → Option (Wait τ ω γ ο)
  | .inner m => (op.step s.inner m).map fun t => { s with inner := t }
  | .cancel c =>
    if s.outcome.isNone then some { s with pending := some c, asked := s.asked ++ [c] } else none
  | .turn => if s.outcome.isNone then turn op wt s else none

/-- The task awaits the operation for the first time. -/
def begin (t : τ) : Wait τ ω γ ο := { inner := t, phase := wt.start }

/-- How a waiter ends that has heard of these cancellations, `last` of them behind the end
of the operation. -/
def Waiter.close (heard : List γ) (last : Option γ) (r : β) : ο :=
  match last with
  | none => wt.woken (heard.foldl wt.again wt.start) r
  | some c => wt.late (heard.foldl wt.again wt.start) c r

/-- What a waiter has heard of what was asked for. -/
structure Heard (s : Wait τ ω γ ο) : Prop where
  asked : (s.raised ++ s.pending.toList).Sublist s.asked
  last : (s.raised ++ s.pending.toList).getLast? = s.asked.getLast?
  waiting : s.outcome = none → s.phase = s.raised.foldl wt.again wt.start
  ended : ∀ o, s.outcome = some o → s.pending = none ∧ ∃ r, op.ended s.inner = some r ∧
    ∃ heard last, s.raised = heard ++ last.toList ∧ o = wt.close heard last r

end

variable {τ μ ω γ β ο : Type} {op : Operation τ μ β} {wt : Waiter ω γ β ο}
  {s s' : Wait τ ω γ ο} {t : τ} {moves : List (Move μ γ)}

/-! ## The operation -/

theorem turn_inner (h : turn op wt s = some s') : s'.inner = s.inner := by
  unfold turn at h
  split at h
  · cases h
    rfl
  · cases h
    rfl
  · cases h
    rfl
  · cases h

/-- **Undisturbed.** The machine makes its own moves alone, whatever becomes of the task
that waits. -/
theorem undisturbed (h : run (step op wt) s moves = some s') :
    run op.step s.inner (moves.filterMap Move.inner?) = some s'.inner := by
  induction moves generalizing s with
  | nil =>
    cases h
    rfl
  | cons m moves ih =>
    unfold run at h
    split at h
    · rename_i u hu
      cases m with
      | inner m =>
        obtain ⟨t, ht, rfl⟩ := Option.map_eq_some_iff.mp hu
        rw [List.filterMap_cons_some (by rfl : (Move.inner m : Move μ γ).inner? = some m), run, ht]
        exact ih h
      | cancel c =>
        unfold step at hu
        dsimp only at hu
        split at hu
        · cases hu
          have halone := ih h
          exact halone
        · cases hu
      | turn =>
        unfold step at hu
        dsimp only at hu
        split at hu
        · rw [← turn_inner hu]
          exact ih h
        · cases hu
    · cases h

/-! ## What is heard -/

theorem heard_begin (t : τ) : Heard op wt (begin wt t) where
  asked := List.Sublist.refl _
  last := rfl
  waiting := fun _ => rfl
  ended := fun _ h => by cases h

theorem Heard.inner (h : Heard op wt s) {m : μ} (ht : op.step s.inner m = some t) :
    Heard op wt { s with inner := t } where
  asked := h.asked
  last := h.last
  waiting := h.waiting
  ended := fun o ho => by
    obtain ⟨hpending, r, hr, hclose⟩ := h.ended o ho
    exact ⟨hpending, r, op.stays _ _ _ _ hr ht, hclose⟩

theorem Heard.cancel (h : Heard op wt s) (ho : s.outcome = none) (c : γ) :
    Heard op wt { s with pending := some c, asked := s.asked ++ [c] } where
  asked := ((List.sublist_append_left ..).trans h.asked).append (List.Sublist.refl _)
  last := by simp
  waiting := h.waiting
  ended := fun o ho' => by
    rw [show s.outcome = some o from ho'] at ho
    cases ho

/-- What is raised on a turn is no longer pending. -/
theorem Heard.raise (h : Heard op wt s) {c : γ} (hc : s.pending = some c) :
    ((s.raised ++ [c]) ++ (none : Option γ).toList).Sublist s.asked ∧
      ((s.raised ++ [c]) ++ (none : Option γ).toList).getLast? = s.asked.getLast? := by
  have hasked := h.asked
  have hlast := h.last
  rw [hc] at hasked hlast
  rw [Option.toList_none, List.append_nil]
  exact ⟨hasked, hlast⟩

theorem Heard.turn (h : Heard op wt s) (ho : s.outcome = none)
    (ht : Shielding.turn op wt s = some s') : Heard op wt s' := by
  have hphase := h.waiting ho
  unfold Shielding.turn at ht
  split at ht
  · rename_i c r hc hr
    cases ht
    refine ⟨(h.raise hc).1, (h.raise hc).2, fun hnone => (by cases hnone), ?_⟩
    intro o ho'
    cases ho'
    exact ⟨rfl, r, hr, s.raised, some c, rfl, by rw [hphase]; rfl⟩
  · rename_i c hc hr
    cases ht
    refine ⟨(h.raise hc).1, (h.raise hc).2, fun _ => ?_, fun o ho' => ?_⟩
    · rw [List.foldl_append, ← hphase]
      rfl
    · rw [show s.outcome = some o from ho'] at ho
      cases ho
  · rename_i r hc hr
    cases ht
    refine ⟨h.asked, h.last, fun hnone => (by cases hnone), ?_⟩
    intro o ho'
    cases ho'
    exact ⟨hc, r, hr, s.raised, none, (List.append_nil _).symm, by rw [hphase]; rfl⟩
  · cases ht

theorem Heard.step (h : Heard op wt s) (m : Move μ γ) (hs : step op wt s m = some s') :
    Heard op wt s' := by
  cases m with
  | inner m =>
    obtain ⟨t, ht, rfl⟩ := Option.map_eq_some_iff.mp hs
    exact h.inner ht
  | cancel c =>
    unfold Shielding.step at hs
    dsimp only at hs
    split at hs
    · rename_i ho
      cases hs
      exact h.cancel (Option.isNone_iff_eq_none.mp ho) c
    · cases hs
  | turn =>
    unfold Shielding.step at hs
    dsimp only at hs
    split at hs
    · rename_i ho
      exact h.turn (Option.isNone_iff_eq_none.mp ho) hs
    · cases hs

theorem heard_run (h : run (Shielding.step op wt) (begin wt t) moves = some s) : Heard op wt s :=
  run_invariant (fun _ m _ hi hs => hi.step m hs) (heard_begin t) h

/-! ## The end -/

theorem Heard.closed (h : Heard op wt s) {o : ο} (ho : s.outcome = some o) :
    ∃ r, op.ended s.inner = some r ∧ ∃ heard last, (heard ++ last.toList).Sublist s.asked ∧
      (heard ++ last.toList).getLast? = s.asked.getLast? ∧ o = wt.close heard last r := by
  obtain ⟨hpending, r, hr, heard, last, hraised, rfl⟩ := h.ended o ho
  have hasked := h.asked
  have hlast := h.last
  rw [hpending, hraised, Option.toList_none, List.append_nil] at hasked hlast
  exact ⟨r, hr, heard, last, hasked, hlast, rfl⟩

/-- A waiter whose operation has ended ends on its next turn. -/
theorem turn_ends {r : β} (ho : s.outcome = none) (hr : op.ended s.inner = some r) :
    ∃ s' o, Shielding.step op wt s .turn = some s' ∧ s'.outcome = some o := by
  unfold Shielding.step
  dsimp only
  rw [if_pos (Option.isNone_iff_eq_none.mpr ho)]
  unfold Shielding.turn
  rw [hr]
  cases hc : s.pending with
  | none => exact ⟨_, _, rfl, rfl⟩
  | some c => exact ⟨_, _, rfl, rfl⟩

end Shielding
