import Northstack.Application.Hardening
import Northstack.Core.Shares

/-!
# The budgets of planned cells

Hardening splits the contract's limits by the proposed shares, normalized to a
whole. Tokens are rounded down; dollars are rounded to the nearest millionth.

**Result.** `shares_within_iff`: the tokens never exceed the contract's limit, the
dollars do so exactly where more of them are rounded up than the fractions of a
millionth make together.
-/
namespace Northstack

/-- The limits of the cells are given and add up to at most the budget's. -/
def GraphVersion.WithinBudget (graph : GraphVersion) (budget : Budget) : Prop :=
  (∀ t ∈ budget.tokenLimit, ∃ limits : List Nat,
    graph.cells.map (·.contract.budget.tokenLimit) = limits.map some ∧ limits.sum ≤ t) ∧
  (∀ u ∈ budget.costLimitUsd, ∃ limits : List ℚ≥0,
    graph.cells.map (·.contract.budget.costLimitUsd) = limits.map some ∧ limits.sum ≤ u)

namespace ModelBackedPlanner

/-- The exact share each cell has of a limit. -/
def exactShares (proposed : List ProposedCell) (limit : ℚ≥0) : List ℚ≥0 :=
  proposed.map fun c => limit * (c.budgetShare / (proposed.map (·.budgetShare)).sum)

theorem sum_exactShares {proposed : List ProposedCell} (limit : ℚ≥0)
    (h : (proposed.map (·.budgetShare)).sum ≠ 0) : (exactShares proposed limit).sum = limit := by
  have hsplit : exactShares proposed limit = (proposed.map (·.budgetShare)).map fun s =>
      limit / (proposed.map (·.budgetShare)).sum * s := by
    unfold exactShares
    rw [List.map_map]
    exact List.map_congr_left fun c _ => by
      rw [Function.comp_apply, mul_div_assoc', div_mul_eq_mul_div]
  rw [hsplit, List.sum_map_mul_left, List.map_id', div_mul_cancel₀ _ h]

/-- A limit of the cells of a hardened graph, by the shares. -/
theorem limits_hardenedGraph {α : Type} (contract : WorkContract) (proposed : List ProposedCell)
    (l : Layout) (limit : Budget → α) :
    (hardenedGraph contract proposed l).cells.map (limit ·.contract.budget) =
      proposed.map fun c => limit (childBudget contract.budget (c.budgetShare / l.totalShare)) := by
  show (proposed.zipIdx.map (hardenedCell contract l)).map _ = _
  rw [List.map_map]
  conv_rhs => rw [← List.zipIdx_map_fst 0 proposed, List.map_map]
  rfl

section
variable {p : Proposal} {contract : WorkContract} {runId : String} {graph : GraphVersion}

theorem tokenLimits_harden (h : harden p contract runId = some graph) {t : Nat}
    (ht : contract.budget.tokenLimit = some t) :
    graph.cells.map (·.contract.budget.tokenLimit) =
      ((exactShares (named p) t).map Nat.floor).map some := by
  obtain ⟨l, hl, rfl⟩ := harden_iff.mp h
  rw [limits_hardenedGraph contract (named p) l (·.tokenLimit)]
  unfold exactShares childBudget
  rw [ht, List.map_map, List.map_map, ← hl.totalShare]
  rfl

theorem costLimits_harden (h : harden p contract runId = some graph) {u : ℚ≥0}
    (hu : contract.budget.costLimitUsd = some u) :
    graph.cells.map (·.contract.budget.costLimitUsd) =
      ((exactShares (named p) u).map round6).map some := by
  obtain ⟨l, hl, rfl⟩ := harden_iff.mp h
  rw [limits_hardenedGraph contract (named p) l (·.costLimitUsd)]
  unfold exactShares childBudget
  rw [hu, List.map_map, List.map_map, ← hl.totalShare]
  rfl

theorem shares_harden (h : harden p contract runId = some graph) :
    ((named p).map (·.budgetShare)).sum ≠ 0 := by
  obtain ⟨l, hl, rfl⟩ := harden_iff.mp h
  rw [← hl.totalShare]
  exact hl.shares

/-- **Tokens.** Their limits never exceed the contract's. -/
theorem tokens_within (h : harden p contract runId = some graph) (t : Nat) :
    ((exactShares (named p) t).map Nat.floor).sum ≤ t := by
  have hsum := sum_floor_le (exactShares (named p) t)
  rw [sum_exactShares t (shares_harden h)] at hsum
  exact_mod_cast hsum

end

/-! ## Dollars -/

/-- The exact shares of a cost limit in millionths of a dollar. -/
def micros (proposed : List ProposedCell) (limit : ℚ≥0) : List ℚ :=
  (exactShares proposed limit).map fun q : ℚ≥0 => (q : ℚ) * 1e6

/-- What rounding up adds is covered by what rounding down takes away. -/
def RoundingCovered (proposed : List ProposedCell) (limit : ℚ≥0) : Prop :=
  (((micros proposed limit).countP fun q => RoundsUp q : Nat) : ℚ) ≤
    ((micros proposed limit).map Int.fract).sum

instance (proposed : List ProposedCell) (limit : ℚ≥0) :
    Decidable (RoundingCovered proposed limit) := inferInstanceAs (Decidable (_ ≤ _))

theorem coe_round6 (q : ℚ≥0) :
    ((round6 q : ℚ≥0) : ℚ) * 1e6 = PyText.roundHalfEven ((q : ℚ) * 1e6) := by
  have hnonneg : 0 ≤ PyText.roundHalfEven ((q : ℚ) * 1e6) := by
    apply PyText.le_roundHalfEven
    push_cast
    positivity
  unfold round6
  push_cast
  rw [div_mul_cancel₀ _ (by norm_num)]
  exact_mod_cast Int.toNat_of_nonneg hnonneg

theorem sum_round6 (qs : List ℚ≥0) : (((qs.map round6).sum : ℚ≥0) : ℚ) * 1e6 =
    (((qs.map fun q : ℚ≥0 => (q : ℚ) * 1e6).map PyText.roundHalfEven).sum : ℤ) := by
  induction qs with
  | nil => simp
  | cons q qs ih =>
    simp only [List.map_cons, List.sum_cons, Int.cast_add, NNRat.cast_add]
    rw [add_mul, ih, coe_round6]

theorem sum_micros {proposed : List ProposedCell} (limit : ℚ≥0)
    (h : (proposed.map (·.budgetShare)).sum ≠ 0) :
    (micros proposed limit).sum = (limit : ℚ) * 1e6 := by
  unfold micros
  rw [List.sum_map_mul_right]
  congr 1
  have hsum := congrArg ((↑) : ℚ≥0 → ℚ) (sum_exactShares limit h)
  rw [← hsum]
  exact (map_list_sum NNRat.coeHom _).symm

theorem cost_within_iff {proposed : List ProposedCell} (limit : ℚ≥0)
    (h : (proposed.map (·.budgetShare)).sum ≠ 0) :
    ((exactShares proposed limit).map round6).sum ≤ limit ↔ RoundingCovered proposed limit := by
  have hround := sum_roundHalfEven_le_iff (micros proposed limit)
  have hsum : (((exactShares proposed limit).map round6).sum : ℚ) * 1e6 =
      (((micros proposed limit).map PyText.roundHalfEven).sum : ℤ) :=
    sum_round6 (exactShares proposed limit)
  rw [← hsum, sum_micros limit h] at hround
  unfold RoundingCovered
  rw [← hround, mul_le_mul_iff_left₀ (by norm_num)]
  exact NNRat.coe_le_coe.symm

/-- **The cells' budgets.** Those of a proposal that is turned into a graph stay
within the contract's if and only if it has no cost limit, or its exact shares in
millionths of a dollar that are rounded up are no more than the fractional parts
of all make together. -/
theorem shares_within_iff {p : Proposal} {contract : WorkContract} {runId : String}
    {graph : GraphVersion} (h : harden p contract runId = some graph) :
    graph.WithinBudget contract.budget ↔
      ∀ u ∈ contract.budget.costLimitUsd, RoundingCovered (named p) u := by
  unfold GraphVersion.WithinBudget
  rw [and_iff_right]
  · constructor
    · intro hcost u hu
      obtain ⟨limits, hlimits, hle⟩ := hcost u hu
      rw [costLimits_harden h hu] at hlimits
      rw [← cost_within_iff u (shares_harden h),
        List.map_injective_iff.mpr (Option.some_injective _) hlimits]
      exact hle
    · intro hcovered u hu
      exact ⟨_, costLimits_harden h hu,
        (cost_within_iff u (shares_harden h)).mpr (hcovered u hu)⟩
  · intro t ht
    exact ⟨_, tokenLimits_harden h ht, tokens_within h t⟩

/-- A contract worth a dollar. -/
def dollarContract : WorkContract := { bareContract with budget := { costLimitUsd := some 1 } }

/-- So many cells that only read, with equal shares. -/
def equalProposal (n : Nat) : Proposal :=
  { cells := (List.range n).map fun i => { name := s!"cell {i}", mode := "read_only" } }

/-- Two halves of a dollar need no rounding. -/
theorem shares_within_iff_halves :
    ∃ graph, harden (equalProposal 2) dollarContract "r" = some graph ∧
      graph.WithinBudget dollarContract.budget := by
  have hsome : (harden (equalProposal 2) dollarContract "r").isSome = true := by decide +kernel
  obtain ⟨graph, hgraph⟩ := Option.isSome_iff_exists.mp hsome
  refine ⟨graph, hgraph, (shares_within_iff hgraph).mpr ?_⟩
  intro u hu
  cases hu
  decide +kernel

/-- Six equal shares of a dollar are rounded to 0.166667 each. -/
theorem sixths_exceed :
    ¬ ∀ (p : Proposal) (contract : WorkContract) (runId : String) (graph : GraphVersion),
      harden p contract runId = some graph → graph.WithinBudget contract.budget := by
  intro hall
  have hsum : (harden (equalProposal 6) dollarContract "r").map
      (·.cells.map (·.contract.budget.costLimitUsd)) =
      some (List.replicate 6 (some (166667 / 1000000))) := by decide +kernel
  obtain ⟨graph, hgraph, hlimits⟩ := Option.map_eq_some_iff.mp hsum
  obtain ⟨limits, hsome, hle⟩ := (hall _ _ _ _ hgraph).2 1 rfl
  rw [hlimits, ← List.map_replicate] at hsome
  rw [← List.map_injective_iff.mpr (Option.some_injective _) hsome] at hle
  revert hle
  decide +kernel

end ModelBackedPlanner

end Northstack
