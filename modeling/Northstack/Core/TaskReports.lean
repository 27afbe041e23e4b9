import Northstack.Core.TaskTraces

/-!
# What a task reports of itself

`Co.Hears` (TaskTraces) forgets the states: behind a step it knows what was
noted, not the state it was noted of. `Co.Reports` keeps the state from a step
to the next await, so that what a task notes of a state and what it reads from
it right behind the note agree; across an await the others may do anything.

**Results.**
* `Reports.outcome`: where a run of the task ends, what the logic proves of its
  result holds of everything heard of it.
* `All.reports`: a silent task reports nothing new.
-/
namespace Coop

variable {σ ε α β ο : Type}

namespace Co

/-- Behind `told`, in the state `s`, the task ends in `Q` of its result, of all
it noted and of the state it ends in, if it ends. -/
def Reports (noted : σ → σ → List ο) (Q : Except ε α → List ο → σ → Prop) :
    Co σ ε α → List ο → σ → Prop
  | .done r, told, s => Q r told s
  | .block k, told, _ => ∀ e t, (k e).Reports noted Q told t
  | .act f k, told, s => (k s).Reports noted Q (told ++ noted s (f s)) (f s)
  | .await k, told, _ => ∀ w t, (k w).Reports noted Q told t

variable {noted : σ → σ → List ο} {Q : Except ε α → List ο → σ → Prop} {told : List ο} {s : σ}

/-- **Reporting.** How a run ends is what the logic proves of all it noted. -/
theorem Reports.outcome {c : Co σ ε α} (h : c.Reports noted Q told s) {gs : List (Gap σ ε)}
    {r : Except ε α} (hend : c.outcome gs s = some r) :
    ∃ t, Q r (told ++ c.heard noted gs s) t := by
  induction c generalizing told gs s with
  | done x =>
    cases hend
    refine ⟨s, ?_⟩
    rwa [show (Co.done r).heard noted gs s = [] from rfl, List.append_nil]
  | block k ih =>
    unfold Co.outcome at hend
    unfold Co.heard Co.play
    cases hraised : Gap.raised gs s with
    | none =>
      rw [hraised] at hend
      cases hend
    | some x =>
      rw [hraised] at hend
      exact ih x.1 (h x.1 x.2.2) hend
  | act f k ih =>
    obtain ⟨t, ht⟩ := ih s h hend
    refine ⟨t, ?_⟩
    unfold Co.heard at ht ⊢
    unfold Co.play
    rwa [List.flatMap_cons, ← List.append_assoc]
  | await k ih =>
    cases gs with
    | nil => cases hend
    | cons g gs => exact ih g.wake (h g.wake (g.others s)) hend

theorem reports_pure {a : α} (h : Q (.ok a) told s) :
    (pure a : Co σ ε α).Reports noted Q told s := h

theorem reports_bind {c : Co σ ε β} {g : β → Co σ ε α}
    (h : c.Reports noted (fun r text t => match r with
      | .ok b => (g b).Reports noted Q text t
      | .error e => Q (.error e) text t) told s) : (c >>= g).Reports noted Q told s := by
  induction c generalizing told s with
  | done r =>
    cases r with
    | ok b => exact h
    | error e => exact h
  | block k ih => exact fun e t => ih e (h e t)
  | act f k ih => exact ih s h
  | await k ih => exact fun w t => ih w (h w t)

theorem reports_modify {f : σ → σ} {Q : Except ε Unit → List ο → σ → Prop}
    (h : Q (.ok ()) (told ++ noted s (f s)) (f s)) :
    (modify f : Co σ ε Unit).Reports noted Q told s := h

theorem reports_get {Q : Except ε σ → List ο → σ → Prop} (hfree : noted s s = [])
    (h : Q (.ok s) told s) : (get : Co σ ε σ).Reports noted Q told s := by
  show Q (.ok s) (told ++ noted s s) s
  rwa [hfree, List.append_nil]

/-- A silent task reports nothing new; the others may have changed the state. -/
theorem All.reports {c : Co σ ε α} (h : c.All fun f => ∀ s, noted s (f s) = [])
    (hQ : ∀ r t, Q r told t) : c.Reports noted Q told s := by
  induction c generalizing s with
  | done r => exact hQ r s
  | block k ih => exact fun e t => ih e (h e)
  | act f k ih =>
    show (k s).Reports noted Q (told ++ noted s (f s)) (f s)
    rw [h.1 s, List.append_nil]
    exact ih s (h.2 s)
  | await k ih => exact fun w t => ih w (h w)

/-- What is silent may stand in front. -/
theorem All.reports_then {c : Co σ ε β} {g : β → Co σ ε α}
    (h : c.All fun f => ∀ s, noted s (f s) = []) (hg : ∀ b t, (g b).Reports noted Q told t)
    (hraise : ∀ e t, Q (.error e) told t) : (c >>= g).Reports noted Q told s := by
  refine reports_bind (h.reports fun r t => ?_)
  cases r with
  | ok b => exact hg b t
  | error e => exact hraise e t

end Co
end Coop
