import Mathlib

/-!
# Budget limits, cumulative usage and remaining headroom

Mirrors domain/budget.py and `RunConfig.default_budget` (config.py:300-305).
A dollar amount is an exact non-negative rational, so the `ge = 0` of every
cost field is part of its type.

**Result.** `exceeds_iff`: usage exceeds a budget exactly when one of the
limits that are set is crossed.
-/
namespace Northstack

/-- `None` is unlimited for the two limits; `0` is unlimited for the counts. -/
structure Budget where
  tokenLimit : Option Nat := none
  costLimitUsd : Option ℚ≥0 := none
  maxCalls : Nat := 0
  maxToolRounds : Nat := 0
  maxWallTimeSeconds : ℚ≥0 := 0
  maxRetries : Nat := 0

/-- `Budget.default` (budget.py:42-45) -/
def Budget.default : Budget := { tokenLimit := some 100000, costLimitUsd := some 5 }

/-- Resources of a single attempt or call. -/
structure Spend where
  inputTokens : Nat := 0
  outputTokens : Nat := 0
  costUsd : ℚ≥0 := 0
  calls : Nat := 0
  deriving DecidableEq

structure RemainingBudget where
  tokens : Option Nat := none
  costUsd : Option ℚ≥0 := none
  calls : Option Nat := none

/-- Cumulative usage of a run. -/
structure BudgetUsage where
  totalInputTokens : Nat := 0
  totalOutputTokens : Nat := 0
  totalCostUsd : ℚ≥0 := 0
  totalCalls : Nat := 0
  deriving DecidableEq

/-- What is billed: tokens in, tokens out, dollars. -/
abbrev Bill := ℕ × ℕ × ℚ≥0

def Spend.bill (s : Spend) : Bill := (s.inputTokens, s.outputTokens, s.costUsd)

def BudgetUsage.bill (u : BudgetUsage) : Bill :=
  (u.totalInputTokens, u.totalOutputTokens, u.totalCostUsd)

/-- A bill, and the calls it is for. -/
abbrev Expense := Bill × ℕ

def Spend.expense (s : Spend) : Expense := (s.bill, s.calls)

def BudgetUsage.expense (u : BudgetUsage) : Expense := (u.bill, u.totalCalls)

/-- The rounding allowance of every cost comparison, `1e-9`. -/
def costEpsilon : ℚ≥0 := 1e-9

namespace BudgetUsage

def totalTokens (u : BudgetUsage) : Nat := u.totalInputTokens + u.totalOutputTokens

/-- The four `usage.total_… += …` of cell_runner.py:364-367. -/
def add (u : BudgetUsage) (s : Spend) : BudgetUsage where
  totalInputTokens := u.totalInputTokens + s.inputTokens
  totalOutputTokens := u.totalOutputTokens + s.outputTokens
  totalCostUsd := u.totalCostUsd + s.costUsd
  totalCalls := u.totalCalls + s.calls

@[simp] theorem expense_add (u : BudgetUsage) (s : Spend) :
    (u.add s).expense = u.expense + s.expense := rfl

/-- `BudgetUsage.remaining` (budget.py:92-105) -/
def remaining (u : BudgetUsage) (b : Budget) : RemainingBudget where
  tokens := b.tokenLimit.map (· - u.totalTokens)
  costUsd := b.costLimitUsd.map (· - u.totalCostUsd)
  calls := if b.maxCalls = 0 then none else some (b.maxCalls - u.totalCalls)

/-- `BudgetUsage.exceeds` (budget.py:107-122) -/
def exceeds (u : BudgetUsage) (b : Budget) : Bool :=
  if b.tokenLimit.any (· < u.totalTokens) then true
  else b.costLimitUsd.any fun l => l + costEpsilon < u.totalCostUsd

/-- The usage is at or past a limit that is set. -/
def reached (u : BudgetUsage) (b : Budget) : Bool :=
  b.tokenLimit.any (· ≤ u.totalTokens) || b.costLimitUsd.any (· ≤ u.totalCostUsd)

theorem exceeds_iff (u : BudgetUsage) (b : Budget) :
    u.exceeds b = true ↔ (∃ l ∈ b.tokenLimit, l < u.totalTokens) ∨
      ∃ l ∈ b.costLimitUsd, l + costEpsilon < u.totalCostUsd := by
  unfold exceeds
  cases b.tokenLimit <;> cases b.costLimitUsd <;> simp

end BudgetUsage

/-- The settings of `[northstack.run]` the pipeline reads. -/
structure RunConfig where
  defaultBudgetTokens : Nat := 100000
  defaultBudgetCostUsd : ℚ≥0 := 5.0

/-- `RunConfig.default_budget`: a zero default means no limit. -/
def RunConfig.defaultBudget (c : RunConfig) : Budget where
  tokenLimit := if c.defaultBudgetTokens = 0 then none else some c.defaultBudgetTokens
  costLimitUsd := if c.defaultBudgetCostUsd = 0 then none else some c.defaultBudgetCostUsd

end Northstack
