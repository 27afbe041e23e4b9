import Northstack.Domain.Outcome

/-!
# The release law

Mirrors application/release_law.py: the sole authority that decides a run's
outcome. `decide` computes the verdict in the source's order of evaluation
(unevaluated criterion, failed hard gate, budget, soft review); the three
predicates `Unevaluated`, `HardFailed` and `SoftAccepted` say what each step
looks for without an order.

**Result.** `decide_outcome`: for every contract, every list of hard results,
every soft review and every usage, each of the three outcomes is returned
under exactly one of three mutually exclusive conditions.
-/
namespace Northstack

/-- Result of a single hard-gate check (verification/hard_gates.py:131-140). -/
structure HardCheckResult where
  criterionIndex : Nat
  kind : CriterionKind
  passed : Bool
  detail : String := ""
  evidenceRef : Option ArtifactRef := none

/-- Aggregated verdict of the soft-rubric review; `verdicts` is a dict. -/
structure SoftReview where
  verdicts : List (Int × Bool) := []
  materialDisagreement : Bool := false

structure Verdict where
  outcome : RunOutcome
  reason : String := ""

namespace ReleaseLaw

/-- `soft.verdicts` when there is a review, the empty dict otherwise. -/
def softVerdicts (soft : Option SoftReview) : List (Int × Bool) :=
  match soft with
  | some s => s.verdicts
  | none => []

/-- `hard_by_index.get(index)`: among results for one index the last wins. -/
def hardByIndex (hard : List HardCheckResult) (index : Nat) : Option HardCheckResult :=
  hard.reverse.find? fun r => r.criterionIndex = index

/-- The loop over the criteria (release_law.py:110-129): the reason for the
first criterion without a result, if there is one. -/
def firstUnevaluated (hard : List HardCheckResult) (soft : Option SoftReview) :
    Nat → List AcceptanceCriterion → Option String
  | _, [] => none
  | index, c :: cs =>
    if c.kind ≠ .softRubric then
      match hardByIndex hard index with
      | none => some s!"unevaluated criterion {index} (hard, {c.kind.value})"
      | some _ => firstUnevaluated hard soft (index + 1) cs
    else
      match (softVerdicts soft).lookup (index : Int) with
      | none => some s!"unevaluated criterion {index} (soft rubric)"
      | some _ => firstUnevaluated hard soft (index + 1) cs

/-- `soft_indices` -/
def softIndices : Nat → List AcceptanceCriterion → List Nat
  | _, [] => []
  | index, c :: cs =>
    if c.kind = .softRubric then index :: softIndices (index + 1) cs
    else softIndices (index + 1) cs

/-- The last two checks (release_law.py:149-168). -/
def decideSoft (criteria : List AcceptanceCriterion) (soft : Option SoftReview) : Verdict :=
  let indices := softIndices 0 criteria
  if indices ≠ [] then
    match soft with
    | none => { outcome := .abstained, reason := "soft review recorded material disagreement" }
    | some s =>
      if s.materialDisagreement then
        { outcome := .abstained, reason := "soft review recorded material disagreement" }
      else if !indices.all fun i => (s.verdicts.lookup (i : Int)).getD false then
        { outcome := .abstained, reason := "soft rubric not satisfied by blinded reviewers" }
      else { outcome := .verified, reason := "all acceptance criteria satisfied" }
  else { outcome := .verified, reason := "all acceptance criteria satisfied" }

/-- `ReleaseLaw.decide` (release_law.py:89-168). A criterion's kind is one of
the closed enumeration, so the source's unknown-kind branch has no counterpart;
`tools_used` is accepted and not read. -/
def decide (contract : WorkContract) (hard : List HardCheckResult) (soft : Option SoftReview)
    (usage : BudgetUsage) (_toolsUsed : List String) : Verdict :=
  let criteria := contract.acceptanceCriteria
  match firstUnevaluated hard soft 0 criteria with
  | some reason => { outcome := .failed, reason := reason }
  | none =>
    match hard.filter fun r => r.criterionIndex < criteria.length && !r.passed with
    | first :: _ =>
      { outcome := .failed
        reason := s!"hard gate failed at criterion {first.criterionIndex} " ++
          s!"({first.kind.value}): {first.detail}" }
    | [] =>
      if usage.exceeds contract.budget then
        { outcome := .abstained, reason := "budget exhausted before verification completed" }
      else decideSoft criteria soft

/-- The reason of a verdict that abstains for the budget. -/
def budgetReason : String := "budget exhausted before verification completed"

/-! ## What the checks look for -/

/-- Criterion `i` has no result: a hard one no hard result at its index, a soft
one no verdict. -/
def UnevaluatedAt (hard : List HardCheckResult) (soft : Option SoftReview) (i : Nat)
    (c : AcceptanceCriterion) : Prop :=
  if c.kind = .softRubric then (softVerdicts soft).lookup (i : Int) = none
  else ∀ r ∈ hard, r.criterionIndex ≠ i

def Unevaluated (contract : WorkContract) (hard : List HardCheckResult)
    (soft : Option SoftReview) : Prop :=
  ∃ i c, contract.acceptanceCriteria[i]? = some c ∧ UnevaluatedAt hard soft i c

/-- Some result whose index is a criterion's did not pass. -/
def HardFailed (contract : WorkContract) (hard : List HardCheckResult) : Prop :=
  ∃ r ∈ hard, r.criterionIndex < contract.acceptanceCriteria.length ∧ r.passed = false

/-- Criterion `i` is a soft one. -/
def SoftAt (contract : WorkContract) (i : Nat) : Prop :=
  ∃ c, contract.acceptanceCriteria[i]? = some c ∧ c.kind = .softRubric

/-- If there are soft criteria, a review without material disagreement accepted
all of them. -/
def SoftAccepted (contract : WorkContract) (soft : Option SoftReview) : Prop :=
  (∃ i, SoftAt contract i) →
    ∃ s, soft = some s ∧ s.materialDisagreement = false ∧
      ∀ i, SoftAt contract i → s.verdicts.lookup (i : Int) = some true

/-! ## Each check finds it -/

theorem hardByIndex_none {hard : List HardCheckResult} {i : Nat} :
    hardByIndex hard i = none ↔ ∀ r ∈ hard, r.criterionIndex ≠ i := by
  simp [hardByIndex]

/-- The loop passes a criterion exactly when it has been evaluated. -/
theorem firstUnevaluated_cons {hard : List HardCheckResult} {soft : Option SoftReview} {n : Nat}
    {c : AcceptanceCriterion} {cs : List AcceptanceCriterion} :
    firstUnevaluated hard soft n (c :: cs) = none ↔
      ¬ UnevaluatedAt hard soft n c ∧ firstUnevaluated hard soft (n + 1) cs = none := by
  rw [firstUnevaluated]
  unfold UnevaluatedAt
  by_cases hk : c.kind = .softRubric
  · simp only [hk, ne_eq, not_true, if_false, if_true]
    cases (softVerdicts soft).lookup (n : Int) <;> simp
  · simp only [hk, ne_eq, not_false_eq_true, if_true, if_false]
    rw [← hardByIndex_none]
    cases hardByIndex hard n <;> simp

theorem firstUnevaluated_none {hard : List HardCheckResult} {soft : Option SoftReview}
    (cs : List AcceptanceCriterion) (n : Nat) :
    firstUnevaluated hard soft n cs = none ↔
      ∀ (i : Nat) c, cs[i]? = some c → ¬ UnevaluatedAt hard soft (n + i) c := by
  induction cs generalizing n with
  | nil => simp [firstUnevaluated]
  | cons c cs ih =>
    rw [firstUnevaluated_cons, ih]
    constructor
    · rintro ⟨h0, h⟩ i d hd
      cases i with
      | zero =>
        cases hd
        exact h0
      | succ i =>
        have := h i d hd
        rwa [Nat.add_right_comm] at this
    · intro h
      refine ⟨h 0 c rfl, fun i d hd => ?_⟩
      have := h (i + 1) d hd
      rwa [← Nat.add_assoc, Nat.add_right_comm] at this

theorem mem_softIndices (cs : List AcceptanceCriterion) (n k : Nat) :
    k ∈ softIndices n cs ↔ ∃ i c, cs[i]? = some c ∧ c.kind = .softRubric ∧ k = n + i := by
  induction cs generalizing n with
  | nil => simp [softIndices]
  | cons c cs ih =>
    have hsplit : (∃ i d, (c :: cs)[i]? = some d ∧ d.kind = .softRubric ∧ k = n + i) ↔
        (c.kind = .softRubric ∧ k = n) ∨
          ∃ i d, cs[i]? = some d ∧ d.kind = .softRubric ∧ k = n + 1 + i := by
      constructor
      · rintro ⟨i, d, hd, hk, rfl⟩
        cases i with
        | zero =>
          cases hd
          exact .inl ⟨hk, rfl⟩
        | succ i => exact .inr ⟨i, d, hd, hk, by omega⟩
      · rintro (⟨hk, rfl⟩ | ⟨i, d, hd, hk, rfl⟩)
        · exact ⟨0, c, rfl, hk, rfl⟩
        · exact ⟨i + 1, d, hd, hk, by omega⟩
    rw [hsplit]
    unfold softIndices
    split
    · rename_i hk
      simp only [List.mem_cons, ih, hk, true_and]
    · rename_i hk
      simp only [ih, hk, false_and, false_or]

theorem mem_softIndices_zero (contract : WorkContract) (k : Nat) :
    k ∈ softIndices 0 contract.acceptanceCriteria ↔ SoftAt contract k := by
  rw [mem_softIndices]
  constructor
  · rintro ⟨i, c, hc, hk, rfl⟩
    exact ⟨c, by rwa [Nat.zero_add], hk⟩
  · rintro ⟨c, hc, hk⟩
    exact ⟨k, c, hc, hk, by omega⟩

/-- The test over the soft indices is the acceptance of every soft criterion. -/
theorem all_softIndices (contract : WorkContract) (verdicts : List (Int × Bool)) :
    ((softIndices 0 contract.acceptanceCriteria).all fun i =>
        (verdicts.lookup (i : Int)).getD false) = true ↔
      ∀ i, SoftAt contract i → verdicts.lookup (i : Int) = some true := by
  rw [List.all_eq_true]
  constructor
  · intro h i hi
    have := h i ((mem_softIndices_zero contract i).mpr hi)
    cases hl : verdicts.lookup (i : Int) with
    | none => simp [hl] at this
    | some b => simpa [hl] using this
  · intro h k hk
    simp [h k ((mem_softIndices_zero contract k).mp hk)]

theorem softIndices_eq_nil (contract : WorkContract) :
    softIndices 0 contract.acceptanceCriteria = [] ↔ ¬ ∃ i, SoftAt contract i := by
  rw [List.eq_nil_iff_forall_not_mem]
  simp [mem_softIndices_zero]

theorem decideSoft_outcome (contract : WorkContract) (soft : Option SoftReview) :
    ((decideSoft contract.acceptanceCriteria soft).outcome = .verified ↔
        SoftAccepted contract soft) ∧
      (decideSoft contract.acceptanceCriteria soft).outcome ≠ .failed := by
  have hnil := softIndices_eq_nil contract
  unfold decideSoft SoftAccepted
  by_cases hne : softIndices 0 contract.acceptanceCriteria = []
  · simp [hne, hnil.mp hne]
  · have hsome : ∃ i, SoftAt contract i := not_not.mp (mt hnil.mpr hne)
    simp only [hne, ne_eq, not_false_eq_true, if_true, hsome, forall_const]
    cases soft with
    | none => simp
    | some s =>
      have hall := all_softIndices contract s.verdicts
      cases hm : s.materialDisagreement with
      | true => simp [hm]
      | false =>
        cases ha : (softIndices 0 contract.acceptanceCriteria).all fun i =>
            (s.verdicts.lookup (i : Int)).getD false with
        | true => simpa [hm, ha] using hall.mp ha
        | false =>
          have hna := mt hall.mpr (by simp [ha])
          simp [hm, ha, hna]

theorem hardFailed_iff (contract : WorkContract) (hard : List HardCheckResult) :
    (hard.filter fun r =>
        r.criterionIndex < contract.acceptanceCriteria.length && !r.passed) ≠ [] ↔
      HardFailed contract hard := by
  simp [HardFailed, List.filter_eq_nil_iff]

theorem unevaluated_iff (contract : WorkContract) (hard : List HardCheckResult)
    (soft : Option SoftReview) :
    firstUnevaluated hard soft 0 contract.acceptanceCriteria = none ↔
      ¬ Unevaluated contract hard soft := by
  rw [firstUnevaluated_none]
  simp [Unevaluated]

/-- A release without an accepted soft review, where one is due, does not occur. -/
theorem softAccepted_of_verified {contract : WorkContract} {hard : List HardCheckResult}
    {soft : Option SoftReview} {usage : BudgetUsage} (toolsUsed : List String)
    (h : (decide contract hard soft usage toolsUsed).outcome = .verified) :
    SoftAccepted contract soft := by
  unfold decide at h
  dsimp only at h
  split at h
  · cases h
  · split at h
    · cases h
    · split at h
      · cases h
      · exact (decideSoft_outcome contract soft).1.mp h

theorem decideSoft_reason (criteria : List AcceptanceCriterion) (soft : Option SoftReview) :
    (decideSoft criteria soft).reason ≠ budgetReason := by
  unfold decideSoft
  dsimp only
  repeat' split
  all_goals decide

/-- Only usage past a limit makes the law abstain for the budget. -/
theorem exceeds_of_budgetReason {contract : WorkContract} {hard : List HardCheckResult}
    {soft : Option SoftReview} {usage : BudgetUsage} (toolsUsed : List String)
    (ho : (decide contract hard soft usage toolsUsed).outcome = .abstained)
    (hr : (decide contract hard soft usage toolsUsed).reason = budgetReason) :
    usage.exceeds contract.budget = true := by
  unfold decide at ho hr
  dsimp only at ho hr
  split at ho
  · cases ho
  · rename_i hnone
    rw [hnone] at hr
    dsimp only at hr
    split at ho
    · cases ho
    · rename_i hnil
      rw [hnil] at hr
      dsimp only at hr
      split at hr
      · assumption
      · exact absurd hr (decideSoft_reason _ _)

/-! ## The law -/

/-- **The release law.** FAILED exactly when a criterion is unevaluated or a
result at a criterion's index did not pass; VERIFIED exactly when neither is
so, the usage is within the contract's budget and the soft criteria, if any,
were accepted without material disagreement; ABSTAINED in every other case. -/
theorem decide_outcome (contract : WorkContract) (hard : List HardCheckResult)
    (soft : Option SoftReview) (usage : BudgetUsage) (toolsUsed : List String) :
    ((decide contract hard soft usage toolsUsed).outcome = .failed ↔
        Unevaluated contract hard soft ∨ HardFailed contract hard) ∧
      ((decide contract hard soft usage toolsUsed).outcome = .verified ↔
        ¬ Unevaluated contract hard soft ∧ ¬ HardFailed contract hard ∧
          usage.exceeds contract.budget = false ∧ SoftAccepted contract soft) ∧
      ((decide contract hard soft usage toolsUsed).outcome = .abstained ↔
        ¬ (Unevaluated contract hard soft ∨ HardFailed contract hard) ∧
          ¬ (usage.exceeds contract.budget = false ∧ SoftAccepted contract soft)) := by
  have hun := unevaluated_iff contract hard soft
  have hhf := hardFailed_iff contract hard
  obtain ⟨hv, hnf⟩ := decideSoft_outcome contract soft
  unfold decide
  dsimp only
  cases hu : firstUnevaluated hard soft 0 contract.acceptanceCriteria with
  | some reason =>
    have hun' : Unevaluated contract hard soft := by
      by_contra hc
      rw [hun.mpr hc] at hu
      cases hu
    simp [hun']
  | none =>
    have hun' : ¬ Unevaluated contract hard soft := hun.mp hu
    cases hf : hard.filter fun r =>
        r.criterionIndex < contract.acceptanceCriteria.length && !r.passed with
    | cons first rest =>
      have hhf' : HardFailed contract hard := hhf.mp (by simp [hf])
      simp [hhf']
    | nil =>
      have hhf' : ¬ HardFailed contract hard := fun hc => hhf.mpr hc hf
      cases hb : usage.exceeds contract.budget with
      | true => simp [hun', hhf']
      | false =>
        simp only [hun', hhf', Bool.false_eq_true, if_false, hv, or_self, iff_false,
          not_false_eq_true, true_and]
        refine ⟨hnf, ?_⟩
        rw [← hv]
        cases ho : (decideSoft contract.acceptanceCriteria soft).outcome with
        | verified => simp
        | abstained => simp
        | failed => exact absurd ho hnf

end ReleaseLaw
end Northstack
