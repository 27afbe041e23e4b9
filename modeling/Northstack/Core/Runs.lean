import Mathlib

/-!
# Runs of a step function

A machine makes moves; a move may not be possible in a state. A run is a list of
moves from a state on.

**Results.**
* `run_invariant`: what every move preserves holds at the end of every run;
  `run_invariant_of`: what every move of a kind preserves, where all are of that kind.
* `run_split`: where moves that meet a condition keep a state good and one that
  does not meet it makes it bad for ever, the end of a run tells whether all its
  moves met the condition.
-/
namespace Runs

variable {σ μ : Type} (step : σ → μ → Option σ)

/-- The state at the end of a run, `none` where a move was not possible. -/
def run : σ → List μ → Option σ
  | s, [] => some s
  | s, m :: ms =>
    match step s m with
    | some s' => run s' ms
    | none => none

/-- Each move of a run meets a condition on the state it is made in. -/
def Meets (cond : σ → μ → Prop) : σ → List μ → Prop
  | _, [] => True
  | s, m :: ms => cond s m ∧ ∀ s' ∈ step s m, Meets cond s' ms

variable {step} {cond : σ → μ → Prop} {I J : σ → Prop}

theorem run_invariant_of {P : μ → Prop} (hstep : ∀ s m s', P m → I s → step s m = some s' → I s')
    {s s' : σ} {ms : List μ} (hall : ∀ m ∈ ms, P m) (hi : I s) (hrun : run step s ms = some s') :
    I s' := by
  induction ms generalizing s with
  | nil =>
    cases hrun
    exact hi
  | cons m ms ih =>
    unfold run at hrun
    split at hrun
    · rename_i t ht
      have hm : P m := hall m List.mem_cons_self
      exact ih (fun m' hm' => hall m' (List.mem_cons_of_mem m hm')) (hstep s m t hm hi ht) hrun
    · cases hrun

theorem run_invariant (hstep : ∀ s m s', I s → step s m = some s' → I s')
    {s s' : σ} {ms : List μ} (hi : I s) (hrun : run step s ms = some s') : I s' :=
  run_invariant_of (P := fun _ => True) (fun s m s' _ => hstep s m s') (fun _ _ => trivial) hi hrun

theorem run_split (hgood : ∀ s m s', I s → cond s m → step s m = some s' → I s')
    (hslip : ∀ s m s', I s → ¬ cond s m → step s m = some s' → J s')
    (hbad : ∀ s m s', J s → step s m = some s' → J s')
    {s s' : σ} {ms : List μ} (hi : I s) (hrun : run step s ms = some s') :
    (Meets step cond s ms → I s') ∧ (¬ Meets step cond s ms → J s') := by
  induction ms generalizing s with
  | nil =>
    cases hrun
    exact ⟨fun _ => hi, fun h => absurd trivial h⟩
  | cons m ms ih =>
    unfold run at hrun
    split at hrun
    · rename_i t ht
      by_cases hc : cond s m
      · have hrest := ih (hgood s m t hi hc ht) hrun
        refine ⟨fun h => hrest.1 (h.2 t ht), fun h => hrest.2 fun hm => h ⟨hc, ?_⟩⟩
        intro t' ht'
        rw [ht] at ht'
        cases ht'
        exact hm
      · exact ⟨fun h => absurd h.1 hc,
          fun _ => run_invariant hbad (hslip s m t hi hc ht) hrun⟩
    · cases hrun

end Runs
