import Northstack.Domain.Budget

/-!
# One gate for every dollar and token

Mirrors the post-hoc path of application/budget_authority.py: `record` and
`remaining`. No code of the pipeline reserves, so a run carries the reserved
totals unchanged; the other operations are in `Application.Reservations`.

**Result.** `exhausted_of_reached`: when the authority's committed spend is the
usage and its limits are a budget's, usage that has reached one of the
budget's limits leaves the authority exhausted.
-/
namespace Northstack

structure BudgetAuthority where
  budget : Budget
  committedTokens : Nat := 0
  committedCost : ℚ≥0 := 0
  committedCalls : Nat := 0
  reservedTokens : Nat := 0
  reservedCost : ℚ≥0 := 0
  reservedCalls : Nat := 0
  /-- `_reservations`: the object held under each id. -/
  reservations : List (Nat × Nat) := []

namespace BudgetAuthority

/-- `BudgetAuthority.record` (budget_authority.py:158-176) -/
def record (a : BudgetAuthority) (actual : Spend) : BudgetAuthority :=
  { a with
    committedTokens := a.committedTokens + (actual.inputTokens + actual.outputTokens)
    committedCost := a.committedCost + actual.costUsd
    committedCalls := a.committedCalls + actual.calls }

/-- `BudgetAuthority.remaining` (budget_authority.py:178-204) -/
def remaining (a : BudgetAuthority) : RemainingBudget where
  tokens := a.budget.tokenLimit.map (· - a.committedTokens - a.reservedTokens)
  costUsd := a.budget.costLimitUsd.map (· - a.committedCost - a.reservedCost)
  calls :=
    if a.budget.maxCalls = 0 then none
    else some (a.budget.maxCalls - a.committedCalls - a.reservedCalls)

/-- `_budget_exhausted` (orchestrator.py:99-110) -/
def exhausted (a : BudgetAuthority) : Bool :=
  if a.remaining.tokens.any (· ≤ 0) then true
  else a.remaining.costUsd.any (· ≤ costEpsilon)

/-- The authority has been charged exactly what the usage says. -/
def Charged (a : BudgetAuthority) (u : BudgetUsage) : Prop :=
  a.committedTokens = u.totalTokens ∧ a.committedCost = u.totalCostUsd

theorem charged_record {a : BudgetAuthority} {u : BudgetUsage} (h : a.Charged u) (s : Spend) :
    (a.record s).Charged (u.add s) := by
  obtain ⟨ht, hc⟩ := h
  refine ⟨?_, ?_⟩
  · simp only [record, BudgetUsage.add, BudgetUsage.totalTokens] at *
    omega
  · simp only [record, BudgetUsage.add, hc]

@[simp] theorem record_budget (a : BudgetAuthority) (s : Spend) :
    (a.record s).budget = a.budget := rfl

/-- A limit reached by the charged usage leaves no headroom on its axis. -/
theorem exhausted_of_reached {a : BudgetAuthority} {u : BudgetUsage} {b : Budget}
    (hc : a.Charged u) (ht : b.tokenLimit = a.budget.tokenLimit)
    (hd : b.costLimitUsd = a.budget.costLimitUsd) (h : u.reached b = true) :
    a.exhausted = true := by
  obtain ⟨hct, hcc⟩ := hc
  unfold BudgetUsage.reached at h
  unfold exhausted
  split
  · rfl
  · rename_i hne
    rw [ht, hd] at h
    cases htl : a.budget.tokenLimit with
    | some l =>
      have hlt : ¬ l ≤ u.totalTokens := by
        intro hle
        apply hne
        simp [remaining, htl]
        omega
      cases hcl : a.budget.costLimitUsd with
      | none => simp [htl, hcl, hlt] at h
      | some c =>
        have hle : c ≤ u.totalCostUsd := by simpa [htl, hcl, hlt] using h
        simp [remaining, hcl, hcc, tsub_eq_zero_of_le hle]
    | none =>
      cases hcl : a.budget.costLimitUsd with
      | none => simp [htl, hcl] at h
      | some c =>
        have hle : c ≤ u.totalCostUsd := by simpa [htl, hcl] using h
        simp [remaining, hcl, hcc, tsub_eq_zero_of_le hle]

end BudgetAuthority
end Northstack
