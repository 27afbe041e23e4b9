import Mathlib
import Northstack.Application.Spending

/-!
# Two definitions of exhaustion

Behind a batch and behind a mutating cell the run asks its budget authority
whether there is headroom left (orchestrator.py:103-114); its release asks the
usage whether a limit was crossed (budget.py:107-122). Usage that has reached a
limit and not crossed it leaves no headroom. With it a run may have completed
all its cells and be abstained.

**Results.**
* `exhausted_iff_spent`, `spent_iff`: when the authority runs dry, and where the
  two definitions differ.
* `abstained_for_budget`: a run is abstained for its budget only at usage that
  has reached a limit, and by its release only at usage past one.
-/
namespace Northstack

open Coop

/-- The usage has reached a limit that is set; the cost, up to the rounding
allowance. -/
def BudgetUsage.spent (u : BudgetUsage) (b : Budget) : Bool :=
  b.tokenLimit.any (· ≤ u.totalTokens) || b.costLimitUsd.any (· ≤ u.totalCostUsd + costEpsilon)

/-- Nothing is reserved. -/
structure BudgetAuthority.Unreserved (a : BudgetAuthority) : Prop where
  tokens : a.reservedTokens = 0
  cost : a.reservedCost = 0

section

variable {a : BudgetAuthority} {u u' : BudgetUsage} {b : Budget}

/-- The authority is exhausted when the usage has reached a limit. -/
theorem exhausted_iff_spent (hc : a.Charged u) (hr : a.Unreserved)
    (ht : b.tokenLimit = a.budget.tokenLimit) (hd : b.costLimitUsd = a.budget.costLimitUsd) :
    a.exhausted = u.spent b := by
  obtain ⟨hct, hcc⟩ := hc
  have htokens : a.remaining.tokens.any (· ≤ 0) = b.tokenLimit.any (· ≤ u.totalTokens) := by
    unfold BudgetAuthority.remaining
    rw [ht, hr.tokens, hct]
    cases a.budget.tokenLimit with
    | none => rfl
    | some l =>
      refine decide_eq_decide.mpr ?_
      dsimp only
      omega
  have hcost : a.remaining.costUsd.any (· ≤ costEpsilon) =
      b.costLimitUsd.any (· ≤ u.totalCostUsd + costEpsilon) := by
    unfold BudgetAuthority.remaining
    rw [hd, hr.cost, hcc]
    cases a.budget.costLimitUsd with
    | none => rfl
    | some l =>
      refine decide_eq_decide.mpr ?_
      dsimp only
      rw [tsub_zero, tsub_le_iff_left]
  unfold BudgetAuthority.exhausted BudgetUsage.spent
  rw [htokens, hcost]
  cases b.tokenLimit.any (· ≤ u.totalTokens) <;> rfl

/-- A limit is reached when it is crossed, or met. -/
theorem spent_iff (u : BudgetUsage) (b : Budget) :
    u.spent b = true ↔ u.exceeds b = true ∨ b.tokenLimit = some u.totalTokens ∨
      ∃ l ∈ b.costLimitUsd, l ≤ u.totalCostUsd + costEpsilon ∧ u.totalCostUsd ≤ l + costEpsilon := by
  have hspent : u.spent b = true ↔ (∃ l ∈ b.tokenLimit, l ≤ u.totalTokens) ∨
      ∃ l ∈ b.costLimitUsd, l ≤ u.totalCostUsd + costEpsilon := by
    unfold BudgetUsage.spent
    rw [Bool.or_eq_true, Option.any_eq_true, Option.any_eq_true]
    simp only [decide_eq_true_eq, Option.mem_def]
  rw [hspent, BudgetUsage.exceeds_iff]
  constructor
  · rintro (⟨l, hl, h⟩ | ⟨l, hl, h⟩)
    · rcases Nat.lt_or_eq_of_le h with h | rfl
      · exact .inl (.inl ⟨l, hl, h⟩)
      · exact .inr (.inl hl)
    · rcases lt_or_ge (l + costEpsilon) u.totalCostUsd with hlt | hge
      · exact .inl (.inr ⟨l, hl, hlt⟩)
      · exact .inr (.inr ⟨l, hl, h, hge⟩)
  · rintro ((⟨l, hl, h⟩ | ⟨l, hl, h⟩) | h | ⟨l, hl, h, -⟩)
    · exact .inl ⟨l, hl, h.le⟩
    · exact .inr ⟨l, hl, le_self_add.trans (h.le.trans le_self_add)⟩
    · exact .inl ⟨_, h, le_rfl⟩
    · exact .inr ⟨l, hl, h⟩

/-- What has been spent stays spent. -/
theorem BudgetUsage.spent_add (h : u.spent b = true) (x : Spend) : (u.add x).spent b = true := by
  unfold BudgetUsage.spent at h ⊢
  have htokens : u.totalTokens ≤ (u.add x).totalTokens := by
    unfold BudgetUsage.totalTokens BudgetUsage.add
    dsimp only
    omega
  have hcost : u.totalCostUsd ≤ (u.add x).totalCostUsd := le_self_add
  rw [Bool.or_eq_true, Option.any_eq_true, Option.any_eq_true] at h ⊢
  simp only [decide_eq_true_eq] at h ⊢
  refine h.imp (fun ⟨l, hl, h⟩ => ⟨l, hl, h.trans htokens⟩) fun ⟨l, hl, h⟩ => ⟨l, hl, h.trans ?_⟩
  gcongr

theorem BudgetUsage.exceeds_add (h : u.exceeds b = true) (x : Spend) :
    (u.add x).exceeds b = true := by
  rw [BudgetUsage.exceeds_iff] at h ⊢
  have htokens : u.totalTokens ≤ (u.add x).totalTokens := by
    unfold BudgetUsage.totalTokens BudgetUsage.add
    dsimp only
    omega
  have hcost : u.totalCostUsd ≤ (u.add x).totalCostUsd := le_self_add
  exact h.imp (fun ⟨l, hl, h⟩ => ⟨l, hl, h.trans_le htokens⟩)
    fun ⟨l, hl, h⟩ => ⟨l, hl, h.trans_le hcost⟩

end

/-! ## Every run -/

section

variable {r : Setting} {ph : Phase} {s t : St} {T : Terms}

/-- No run reserves. -/
theorem Reach.unreserved (h : Reach r ph s) : s.auth.Unreserved := by
  refine Reach.invariant (M := fun _ s => s.auth.Unreserved) ?start ?move ?cell ?collect h
  case start =>
    show (Company.begin r.job { shared := r.shared }).auth.Unreserved
    unfold Company.begin
    dsimp only
    split <;> exact ⟨rfl, rfl⟩
  case move =>
    intro ph s ph' t _ ih hm
    exact hm.auth ▸ ih
  case cell =>
    intro s t c _ ih _ hst
    cases hst with
    | charge => exact ⟨ih.tokens, ih.cost⟩
    | _ => exact ih
  case collect =>
    intro s result c _ ih _ _
    exact (St.collected_spent c.id result s).2.1 ▸ ih

/-- A row that abstains a run for its budget, at this usage. -/
structure Abstains (r : Setting) (u : BudgetUsage) (p : EventPayload) : Prop where
  boundary : p.dry = true → u.spent r.job.limits = true
  release : p = .outcomeEmitted .abstained ReleaseLaw.budgetReason →
    u.exceeds r.job.contract.budget = true

theorem dry_stored (p : EventPayload) : p.stored.dry = p.dry := by
  cases p <;> rfl

theorem budgetReason_stored {p : EventPayload}
    (h : p.stored = .outcomeEmitted .abstained ReleaseLaw.budgetReason) :
    p = .outcomeEmitted .abstained ReleaseLaw.budgetReason := by
  cases p with
  | outcomeEmitted o reason =>
    obtain ⟨rfl, hr⟩ := EventPayload.outcomeEmitted.inj h
    unfold redactText at hr
    split at hr
    · exact absurd hr (by decide)
    · rw [hr]
  | _ => cases h

theorem Reach.abstains (h : Reach r ph s) (hm : r.job.usage.Metered) :
    ∀ p ∈ s.log, Abstains r s.usage p := by
  refine Reach.invariant (M := fun _ s => ∀ p ∈ s.log, Abstains r s.usage p)
    ?start ?move ?cell ?collect h
  case start => exact List.forall_mem_nil _
  case move =>
    intro ph s ph' t h ih hmv
    rw [hmv.usage]
    rcases hmv.log with hl | ⟨p, hl, hp⟩
    · exact hl ▸ ih
    · rw [hl]
      intro q hq
      rcases List.mem_append.mp hq with hq | hq
      · exact ih q hq
      · obtain rfl := List.mem_singleton.mp hq
        have hmet := h.charged hm
        refine ⟨fun hd => ?_, fun he => hp.overspent (budgetReason_stored he)⟩
        rw [← exhausted_iff_spent hmet.charged h.unreserved (congrArg _ hmet.limits.symm)
          (congrArg _ hmet.limits.symm)]
        exact hp.dry (dry_stored p ▸ hd)
  case cell =>
    intro s t c _ ih _ hst
    have hold : ∀ p ∈ s.log, Abstains r t.usage p := by
      intro p hp
      cases hst with
      | charge => exact ⟨fun hd => BudgetUsage.spent_add ((ih p hp).boundary hd) _,
          fun he => BudgetUsage.exceeds_add ((ih p hp).release he) _⟩
      | _ => exact ih p hp
    rcases hst.log with hl | ⟨p, hl, hp⟩
    · exact hl ▸ hold
    · rw [hl]
      intro q hq
      rcases List.mem_append.mp hq with hq | hq
      · exact hold q hq
      · obtain rfl := List.mem_singleton.mp hq
        refine ⟨fun hd => ?_, fun he => ?_⟩
        · rw [dry_stored] at hd
          cases p with
          | budgetUpdated => cases hp
          | _ => cases hd
        · rw [budgetReason_stored he] at hp
          cases hp
  case collect =>
    intro s result c _ ih _ _
    show ∀ p ∈ (s.collected c.id result).log, Abstains r (s.collected c.id result).usage p
    rw [(St.collected_log _ _ _).1, (St.collected_spent c.id result s).1]
    exact ih

end
/-- **Abstained for the budget.** The check at a boundary, given the limits and
the spend of the usage, trips exactly if the usage exceeds a limit or has met
one. So it is in every run: where a row says that the budget is exhausted, the
run's usage has reached a limit that the authority was given, and where the
release abstains for the budget, it exceeds one of the contract's. -/
theorem abstained_for_budget (co : Company) (launch : Launch) (shared : Shared)
    (inputs : List (Input Exc)) (hsource : RunLog launch.source) :
    (∀ (a : BudgetAuthority) (u : BudgetUsage) (b : Budget), a.Charged u → a.Unreserved →
      b.tokenLimit = a.budget.tokenLimit → b.costLimitUsd = a.budget.costLimitUsd →
      (a.exhausted = true ↔ u.exceeds b = true ∨ b.tokenLimit = some u.totalTokens ∨
        ∃ l ∈ b.costLimitUsd,
          l ≤ u.totalCostUsd + costEpsilon ∧ u.totalCostUsd ≤ l + costEpsilon)) ∧
    ∀ job ∈ co.job? launch,
      (∀ p ∈ (co.run launch shared inputs).state.log, p.dry = true →
        (co.run launch shared inputs).state.usage.spent job.limits = true) ∧
      (.outcomeEmitted .abstained ReleaseLaw.budgetReason ∈
          (co.run launch shared inputs).state.log →
        (co.run launch shared inputs).state.usage.exceeds job.contract.budget = true) := by
  refine ⟨fun a u b hc hr ht hd => ?_, fun job hjob => ?_⟩
  · rw [exhausted_iff_spent hc hr ht hd]
    exact spent_iff u b
  · have hr : co.setting? launch shared = some _ := Option.map_eq_some_iff.mpr ⟨job, hjob, rfl⟩
    obtain ⟨ph, h⟩ := (Company.run_reach hr inputs).1
    have habstains := h.abstains (setting_metered hr hsource.metered)
    exact ⟨fun p hp => (habstains p hp).boundary, fun ho => (habstains _ ho).release rfl⟩

/-- The request's six tokens, all taken by the only cell. -/
def metLimit : Out St Exc RunOutcome :=
  (soleCompany [forbidsTool]
    [{ reply := .response { text := "done", usage := { inputTokens := 6 } } }]).run
      (.fresh budgetedRequest) {} (throughCell (List.replicate 8 .resume))

theorem abstained_for_budget_met :
    metLimit.state.usage.spent { tokenLimit := some 6 } = true ∧
      outcomes metLimit.state.log = [.abstained] := by
  have h := (abstained_for_budget (soleCompany [forbidsTool]
    [{ reply := .response { text := "done", usage := { inputTokens := 6 } } }])
    (.fresh budgetedRequest) {} (throughCell (List.replicate 8 .resume)) .none).2 _ rfl
  have hdry : ∃ p ∈ metLimit.state.log, p.dry = true := by decide +kernel
  obtain ⟨p, hp, hd⟩ := hdry
  exact ⟨h.1 p hp hd, by decide +kernel⟩

/-- Its only cell completes, its usage is within the budget, and the run is
abstained for the budget. -/
theorem met_limit_abstains :
    ¬ ∀ (co : Company) (launch : Launch) (shared : Shared) (inputs : List (Input Exc)),
      RunLog launch.source → ∀ job ∈ co.job? launch, job.LimitsAgree →
        (∀ id ∈ job.graph.ids, id ∈ (co.run launch shared inputs).state.completedIds) →
        (co.run launch shared inputs).state.usage.exceeds job.contract.budget = false →
        ∀ p ∈ (co.run launch shared inputs).state.log, p.dry = false := by
  intro h
  have hquiet := h (soleCompany [forbidsTool]
    [{ reply := .response { text := "done", usage := { inputTokens := 6 } } }])
    (.fresh budgetedRequest) {} (throughCell (List.replicate 8 .resume)) .none _ rfl ⟨rfl, rfl⟩
    (by decide +kernel) (by decide +kernel)
  revert hquiet
  decide +kernel

end Northstack
