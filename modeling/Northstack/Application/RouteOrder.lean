import Northstack.Application.Routing

/-!
# Which profile the router selects

What the weighted score of routing.py:84-135 comes to. A place in a chain
weighs ten, the bonus for concurrency a half, so that the score orders the
candidates by their best place.

**Results.**
* `route_first`: with a routing table the router abstains exactly when no
  profile is eligible, and otherwise selects one that stands first.
* `offered_mono_iff`: a profile offered with some money left is offered with
  more, but for a band above nothing.
-/
namespace Northstack

namespace Routing

variable {config : NorthStackConfig} {cell : GraphCell} {remaining : Option RemainingBudget}
  {excluded : List String} {caps : List Capability} {p q : ModelProfile}

/-! ## What the filters ask -/

/-- The chain of a role; a role without an entry has none. -/
def chain (config : NorthStackConfig) (role : String) : List String :=
  (config.routing.lookup role).getD []

/-- `required_caps`: what the caller asks for, and what the cell does as far as
it is recognised. -/
def requiredCaps (cell : GraphCell) (caps : List Capability) : List Capability :=
  caps ++ cell.requiredCapabilities.filterMap Capability.ofValue

/-- The tier-3 rule (routing.py:108-114). -/
def CutByBudget (p : ModelProfile) (remaining : Option RemainingBudget) : Prop :=
  3 ≤ p.tier ∧ ∃ b ∈ remaining, ∃ c ∈ b.costUsd, 0 < c ∧ c < 1

/-- What does not depend on the budget: the roles, the exclusions, the
capabilities. -/
structure Qualified (config : NorthStackConfig) (cell : GraphCell) (excluded : List String)
    (caps : List Capability) (p : ModelProfile) : Prop where
  configured : p ∈ config.profiles
  admitted : p.name ∉ excluded
  roles : (eligibleRoles config p cell.requiredProfileRoles).isSome = true
  capable : ∀ cap ∈ requiredCaps cell caps, cap ∈ p.capabilities

/-- The router scores the profile. -/
def Offered (config : NorthStackConfig) (cell : GraphCell) (remaining : Option RemainingBudget)
    (excluded : List String) (caps : List Capability) (p : ModelProfile) : Prop :=
  p ∈ config.profiles ∧ p.name ∉ excluded ∧
    (scoreProfile config p cell remaining (requiredCaps cell caps)).isSome = true

/-- Listed in the chain of a required role, not excluded, capable, and not cut
by the budget. -/
structure Eligible (config : NorthStackConfig) (cell : GraphCell)
    (remaining : Option RemainingBudget) (excluded : List String) (caps : List Capability)
    (p : ModelProfile) : Prop where
  configured : p ∈ config.profiles
  listed : ∃ role ∈ cell.requiredProfileRoles, p.name ∈ chain config role
  admitted : p.name ∉ excluded
  capable : ∀ cap ∈ requiredCaps cell caps, cap ∈ p.capabilities
  afforded : ¬ CutByBudget p remaining

/-- The profile stands at place `i` of the chain of a required role. -/
def StandsAt (config : NorthStackConfig) (cell : GraphCell) (p : ModelProfile) (i : Nat) : Prop :=
  ∃ role ∈ cell.requiredProfileRoles, (chain config role)[i]? = some p.name

theorem cut_iff : (3 ≤ p.tier ∧
    ((remaining.bind (·.costUsd)).any fun c => 0 < c && c < 1) = true) ↔
      CutByBudget p remaining := by
  unfold CutByBudget
  cases remaining with
  | none => simp
  | some b => cases hc : b.costUsd <;> simp [hc]

/-- What `_score_profile` gives where it gives something. -/
theorem scoreProfile_eq_some {caps : List Capability} {c : Candidate} :
    scoreProfile config p cell remaining caps = some c ↔
      ∃ order, eligibleRoles config p cell.requiredProfileRoles = some order ∧
        (∀ cap ∈ caps, cap ∈ p.capabilities) ∧ ¬ CutByBudget p remaining ∧
        c = scoreEligible p cell order := by
  unfold scoreProfile
  cases eligibleRoles config p cell.requiredProfileRoles with
  | none => simp
  | some order =>
    dsimp only
    split
    · rename_i hcaps
      split
      · rename_i hcut
        constructor
        · intro h
          cases h
        · intro h
          obtain ⟨-, -, -, hafforded, -⟩ := h
          exact absurd (cut_iff.mp hcut) hafforded
      · rename_i hcut
        constructor
        · intro h
          exact ⟨order, rfl, hcaps, fun h => hcut (cut_iff.mpr h), (Option.some.inj h).symm⟩
        · intro h
          obtain ⟨order', horder, -, -, rfl⟩ := h
          rw [Option.some.inj horder]
    · rename_i hcaps
      constructor
      · intro h
        cases h
      · intro h
        obtain ⟨-, -, hcapable, -⟩ := h
        exact absurd hcapable hcaps

theorem offered_iff : Offered config cell remaining excluded caps p ↔
    Qualified config cell excluded caps p ∧ ¬ CutByBudget p remaining := by
  unfold Offered
  rw [Option.isSome_iff_exists]
  constructor
  · intro h
    obtain ⟨hconfigured, hadmitted, c, hc⟩ := h
    obtain ⟨order, horder, hcapable, hafforded, -⟩ := scoreProfile_eq_some.mp hc
    exact ⟨⟨hconfigured, hadmitted, by rw [horder]; rfl, hcapable⟩, hafforded⟩
  · intro h
    obtain ⟨hq, hafforded⟩ := h
    obtain ⟨order, horder⟩ := Option.isSome_iff_exists.mp hq.roles
    exact ⟨hq.configured, hq.admitted, _,
      scoreProfile_eq_some.mpr ⟨order, horder, hq.capable, hafforded, rfl⟩⟩

/-! ## Places in the chains -/

theorem mem_roleOrder {roles : List String} {role : String} {i : Nat} :
    (role, i) ∈ roleOrder config p roles ↔
      role ∈ roles ∧ p.name ∈ chain config role ∧ i = (chain config role).idxOf p.name := by
  unfold roleOrder
  simp only [List.mem_filterMap, List.mem_dedup]
  constructor
  · intro h
    obtain ⟨role', hrole, h⟩ := h
    split at h
    · rename_i hin
      obtain ⟨rfl, rfl⟩ := Prod.mk.inj (Option.some.inj h)
      exact ⟨hrole, hin, rfl⟩
    · cases h
  · intro h
    obtain ⟨hrole, hin, rfl⟩ := h
    exact ⟨role, hrole, if_pos hin⟩

/-- The smallest place of a list that is not empty. -/
theorem foldl_min_le (rest : List (String × Nat)) (o : Nat) :
    rest.foldl (fun b r => min b r.2) o ≤ o ∧
      ∀ r ∈ rest, rest.foldl (fun b r => min b r.2) o ≤ r.2 := by
  induction rest generalizing o with
  | nil => simp
  | cons r rest ih =>
    obtain ⟨hle, hall⟩ := ih (min o r.2)
    rw [List.foldl_cons]
    refine ⟨by omega, fun x hx => ?_⟩
    rcases List.mem_cons.mp hx with rfl | hx
    · omega
    · exact hall x hx

theorem foldl_min_mem (rest : List (String × Nat)) (o : Nat) :
    rest.foldl (fun b r => min b r.2) o = o ∨
      ∃ r ∈ rest, rest.foldl (fun b r => min b r.2) o = r.2 := by
  induction rest generalizing o with
  | nil => exact .inl rfl
  | cons r rest ih =>
    rw [List.foldl_cons]
    rcases ih (min o r.2) with h | ⟨x, hx, h⟩
    · rcases Nat.le_total o r.2 with hle | hle
      · exact .inl (h.trans (Nat.min_eq_left hle))
      · exact .inr ⟨r, List.mem_cons_self, h.trans (Nat.min_eq_right hle)⟩
    · exact .inr ⟨x, List.mem_cons_of_mem _ hx, h⟩

/-- The best place of a profile in the chains of the required roles. -/
structure Best (config : NorthStackConfig) (cell : GraphCell) (p : ModelProfile) (i : Nat) :
    Prop where
  stands : StandsAt config cell p i
  le : ∀ j, StandsAt config cell p j → i ≤ j

section

variable (hrouting : config.routing ≠ []) (hroles : cell.requiredProfileRoles ≠ [])

include hrouting hroles

theorem eligibleRoles_eq_some {order : List (String × Nat)} :
    eligibleRoles config p cell.requiredProfileRoles = some order ↔
      order = roleOrder config p cell.requiredProfileRoles ∧ order ≠ [] := by
  unfold eligibleRoles
  rw [if_pos ⟨hrouting, hroles⟩]
  cases roleOrder config p cell.requiredProfileRoles with
  | nil =>
    constructor
    · intro h
      cases h
    · intro h
      exact absurd h.1 h.2
  | cons o os =>
    constructor
    · intro h
      obtain rfl := Option.some.inj h
      exact ⟨rfl, List.cons_ne_nil o os⟩
    · intro h
      rw [h.1]

/-- A profile some chain lists has a role, and the other way about. -/
theorem roles_iff : (eligibleRoles config p cell.requiredProfileRoles).isSome = true ↔
    ∃ role ∈ cell.requiredProfileRoles, p.name ∈ chain config role := by
  rw [Option.isSome_iff_exists]
  constructor
  · intro h
    obtain ⟨order, horder⟩ := h
    obtain ⟨rfl, hne⟩ := (eligibleRoles_eq_some hrouting hroles).mp horder
    obtain ⟨⟨role, i⟩, hmem⟩ := List.exists_mem_of_ne_nil _ hne
    obtain ⟨hrole, hin, -⟩ := mem_roleOrder.mp hmem
    exact ⟨role, hrole, hin⟩
  · intro h
    obtain ⟨role, hrole, hin⟩ := h
    refine ⟨_, (eligibleRoles_eq_some hrouting hroles).mpr ⟨rfl, ?_⟩⟩
    exact List.ne_nil_of_mem (mem_roleOrder.mpr ⟨hrole, hin, rfl⟩)

theorem eligible_iff_offered : Eligible config cell remaining excluded caps p ↔
    Offered config cell remaining excluded caps p := by
  rw [offered_iff]
  constructor
  · intro h
    exact ⟨⟨h.configured, h.admitted, (roles_iff hrouting hroles).mpr h.listed, h.capable⟩,
      h.afforded⟩
  · intro h
    exact ⟨h.1.configured, (roles_iff hrouting hroles).mp h.1.roles, h.1.admitted, h.1.capable,
      h.2⟩

/-- **The score.** It is made of the best place and the bonus. -/
theorem score_eq {caps : List Capability} {c : Candidate}
    (h : scoreProfile config p cell remaining caps = some c) :
    ∃ i, Best config cell p i ∧
      c.score = (1000 - (i : ℚ)) * 10 + if 1 < p.maxConcurrency then 1 / 2 else 0 := by
  obtain ⟨order, horder, -, -, rfl⟩ := scoreProfile_eq_some.mp h
  obtain ⟨horder, hne⟩ := (eligibleRoles_eq_some hrouting hroles).mp horder
  cases order with
  | nil => exact absurd rfl hne
  | cons o rest =>
    obtain ⟨role, i⟩ := o
    have hplace : ∀ x : String × Nat, x ∈ (role, i) :: rest ↔ x.1 ∈ cell.requiredProfileRoles ∧
        p.name ∈ chain config x.1 ∧ x.2 = (chain config x.1).idxOf p.name := by
      intro x
      rw [horder]
      exact mem_roleOrder
    refine ⟨rest.foldl (fun b r => min b r.2) i, ⟨?_, ?_⟩, rfl⟩
    · have hmem : ∃ x ∈ (role, i) :: rest, rest.foldl (fun b r => min b r.2) i = x.2 := by
        rcases foldl_min_mem rest i with h | ⟨x, hx, h⟩
        · exact ⟨_, List.mem_cons_self, h⟩
        · exact ⟨x, List.mem_cons_of_mem _ hx, h⟩
      obtain ⟨x, hx, he⟩ := hmem
      obtain ⟨hrole, hin, hidx⟩ := (hplace x).mp hx
      refine ⟨x.1, hrole, ?_⟩
      rw [he, hidx]
      exact List.getElem?_idxOf hin
    · intro j hj
      obtain ⟨role', hrole', hj⟩ := hj
      have hin : p.name ∈ chain config role' := List.mem_of_getElem? hj
      have hidx : (chain config role').idxOf p.name < j + 1 := by
        rw [← List.mem_take_iff_idxOf_lt hin]
        exact List.mem_of_getElem? ((List.getElem?_take_of_lt (Nat.lt_succ_self j)).trans hj)
      have hmem := (hplace (role', (chain config role').idxOf p.name)).mpr ⟨hrole', hin, rfl⟩
      rcases List.mem_cons.mp hmem with h | h
      · have hle := (foldl_min_le rest i).1
        have hi := congrArg Prod.snd h
        dsimp only at hi
        omega
      · have hle := (foldl_min_le rest i).2 _ h
        dsimp only at hle
        omega

/-- The order of the scores is that of the best places. -/
theorem best_le_of_score_le {caps : List Capability} {c d : Candidate} {i j : Nat}
    (hc : scoreProfile config p cell remaining caps = some c)
    (hd : scoreProfile config q cell remaining caps = some d) (hle : d.score ≤ c.score)
    (hi : Best config cell p i) (hj : Best config cell q j) : i ≤ j := by
  obtain ⟨i', hi', hscore⟩ := score_eq hrouting hroles hc
  obtain ⟨j', hj', hscore'⟩ := score_eq hrouting hroles hd
  obtain rfl : i' = i := le_antisymm (hi'.le i hi.stands) (hi.le i' hi'.stands)
  obtain rfl : j' = j := le_antisymm (hj'.le j hj.stands) (hj.le j' hj'.stands)
  have hp : (if 1 < p.maxConcurrency then 1 / 2 else 0 : ℚ) ≤ 1 / 2 := by split <;> norm_num
  have hq : (0 : ℚ) ≤ if 1 < q.maxConcurrency then 1 / 2 else 0 := by split <;> norm_num
  -- one place weighs more than the bonus
  by_contra hlt
  have hlt : (j' : ℚ) + 1 ≤ i' := by
    have : j' + 1 ≤ i' := by omega
    exact_mod_cast this
  rw [hscore, hscore'] at hle
  linarith

end

/-! ## The selection -/

/-- The router takes a candidate with the highest score. -/
theorem route_selects (h : (route config cell remaining excluded caps).abstained = false) :
    ∃ p c, p ∈ config.profiles ∧ p.name ∉ excluded ∧
      scoreProfile config p cell remaining (requiredCaps cell caps) = some c ∧
      (route config cell remaining excluded caps).selectedProfile = p.name ∧
      ∀ q d, q ∈ config.profiles → q.name ∉ excluded →
        scoreProfile config q cell remaining (requiredCaps cell caps) = some d →
        d.score ≤ c.score := by
  unfold route at h ⊢
  dsimp only at h ⊢
  have hsorted := List.pairwise_insertionSort (fun a b : Candidate => b.score ≤ a.score)
    ((config.profiles.filter (·.name ∉ excluded)).filterMap fun profile =>
      scoreProfile config profile cell remaining (requiredCaps cell caps))
  have hmem : ∀ d, d ∈ List.insertionSort (fun a b : Candidate => b.score ≤ a.score)
      ((config.profiles.filter (·.name ∉ excluded)).filterMap fun profile =>
        scoreProfile config profile cell remaining (requiredCaps cell caps)) ↔
      ∃ q, (q ∈ config.profiles ∧ q.name ∉ excluded) ∧
        scoreProfile config q cell remaining (requiredCaps cell caps) = some d := by
    intro d
    simp [List.mem_insertionSort]
  unfold requiredCaps at hsorted hmem ⊢
  split at h
  · cases h
  · rename_i best rest hsort
    rw [hsort] at hsorted hmem
    obtain ⟨p, ⟨hconfigured, hadmitted⟩, hp⟩ := (hmem best).mp List.mem_cons_self
    refine ⟨p, best, hconfigured, hadmitted, hp, scoreProfile_name hp, ?_⟩
    intro q d hq hnot hd
    rcases List.mem_cons.mp ((hmem d).mpr ⟨q, ⟨hq, hnot⟩, hd⟩) with rfl | hin
    · exact le_rfl
    · exact (List.pairwise_cons.mp hsorted).1 d hin

theorem route_abstains : (route config cell remaining excluded caps).abstained = true ↔
    ∀ p, ¬ Offered config cell remaining excluded caps p := by
  constructor
  · intro h p hp
    obtain ⟨hconfigured, hadmitted, hscored⟩ := hp
    obtain ⟨c, hc⟩ := Option.isSome_iff_exists.mp hscored
    have hin : c ∈ List.insertionSort (fun a b : Candidate => b.score ≤ a.score)
        ((config.profiles.filter (·.name ∉ excluded)).filterMap fun profile =>
          scoreProfile config profile cell remaining (requiredCaps cell caps)) := by
      rw [List.mem_insertionSort, List.mem_filterMap]
      exact ⟨p, by simpa using ⟨hconfigured, hadmitted⟩, hc⟩
    unfold requiredCaps at hin
    unfold route at h
    dsimp only at h
    split at h
    · rename_i hnil
      rw [hnil] at hin
      cases hin
    · cases h
  · intro h
    by_contra hnot
    obtain ⟨p, c, hconfigured, hadmitted, hc, -⟩ := route_selects (Bool.not_eq_true _ ▸ hnot)
    exact h p ⟨hconfigured, hadmitted, by rw [hc]; rfl⟩

/-- **First in the chains.** With a routing table and a role asked for, the
router abstains exactly when no profile is eligible. Otherwise it selects an
eligible profile, and no eligible one stands earlier in the chain of any
required role than that one does at its best. -/
theorem route_first (config : NorthStackConfig) (hrouting : config.routing ≠ []) (cell : GraphCell)
    (hroles : cell.requiredProfileRoles ≠ []) (remaining : Option RemainingBudget)
    (excluded : List String) (caps : List Capability) :
    ((route config cell remaining excluded caps).abstained = true ↔
      ∀ p, ¬ Eligible config cell remaining excluded caps p) ∧
    ((route config cell remaining excluded caps).abstained = false →
      ∃ p, Eligible config cell remaining excluded caps p ∧
        (route config cell remaining excluded caps).selectedProfile = p.name ∧
        ∃ i, Best config cell p i ∧
          ∀ q, Eligible config cell remaining excluded caps q →
            ∀ j, StandsAt config cell q j → i ≤ j) := by
  have hoffered := fun p => @eligible_iff_offered config cell remaining excluded caps p hrouting
    hroles
  refine ⟨?_, fun h => ?_⟩
  · rw [route_abstains]
    exact forall_congr' fun p => not_congr (hoffered p).symm
  · obtain ⟨p, c, hconfigured, hadmitted, hc, hname, hmax⟩ := route_selects h
    obtain ⟨i, hi, -⟩ := score_eq hrouting hroles hc
    refine ⟨p, (hoffered p).mpr ⟨hconfigured, hadmitted, by rw [hc]; rfl⟩, hname, i, hi, ?_⟩
    intro q hq j hj
    obtain ⟨hconfigured', hadmitted', hscored⟩ := (hoffered q).mp hq
    obtain ⟨d, hd⟩ := Option.isSome_iff_exists.mp hscored
    obtain ⟨k, hk, -⟩ := score_eq hrouting hroles hd
    have hik := best_le_of_score_le hrouting hroles hc hd
      (hmax q d hconfigured' hadmitted' hd) hi hk
    exact hik.trans (hk.le j hj)

/-- Two profiles in the chain of the workers, the second of them fit for more. -/
def twoWorkers : NorthStackConfig where
  profiles := [{ name := "wide", maxConcurrency := 4 }, { name := "narrow" }]
  routing := [("worker", ["narrow", "wide"])]

def workerCell : GraphCell where
  id := "a"
  requiredProfileRoles := ["worker"]

theorem route_first_narrow :
    (route twoWorkers workerCell none [] []).selectedProfile = "narrow" ∧
    ∃ p, Eligible twoWorkers workerCell none [] [] p ∧
      (route twoWorkers workerCell none [] []).selectedProfile = p.name := by
  refine ⟨by decide +kernel, ?_⟩
  obtain ⟨p, hp, hname, -⟩ := (route_first twoWorkers (by decide) workerCell (by decide) none []
    []).2 (by decide +kernel)
  exact ⟨p, hp, hname⟩

/-! ## More money -/

/-- **More money.** Whatever else is left, a profile offered with `r` dollars
left is offered with `r'` of them, no fewer, if and only if it is not the case
that nothing is left at `r`, less than a dollar but something at `r'`, and the
profile is an expensive one that passes the other filters. -/
theorem offered_mono_iff (config : NorthStackConfig) (cell : GraphCell) (excluded : List String)
    (caps : List Capability) (p : ModelProfile) (b b' : RemainingBudget) (r r' : ℚ≥0) :
    (r ≤ r' → Offered config cell (some { b with costUsd := some r }) excluded caps p →
        Offered config cell (some { b' with costUsd := some r' }) excluded caps p) ↔
      ¬ (r = 0 ∧ 0 < r' ∧ r' < 1 ∧ 3 ≤ p.tier ∧ Qualified config cell excluded caps p) := by
  have hcut : ∀ (b : RemainingBudget) (x : ℚ≥0),
      CutByBudget p (some { b with costUsd := some x }) ↔ 3 ≤ p.tier ∧ 0 < x ∧ x < 1 := by
    intro b x
    simp [CutByBudget]
  rw [offered_iff, offered_iff, hcut, hcut]
  constructor
  · intro hmono h
    obtain ⟨rfl, hpos, hlt, htier, hq⟩ := h
    exact (hmono hpos.le ⟨hq, fun h => lt_irrefl _ h.2.1⟩).2 ⟨htier, hpos, hlt⟩
  · intro hnot hle h
    obtain ⟨hq, hafforded⟩ := h
    refine ⟨hq, fun hcut' => hafforded ?_⟩
    obtain ⟨htier, hpos, hlt⟩ := hcut'
    -- at nothing left the profile would be in the band
    have hne : r ≠ 0 := fun hzero => hnot ⟨hzero, hpos, hlt, htier, hq⟩
    exact ⟨htier, pos_iff_ne_zero.mpr hne, hle.trans_lt hlt⟩

/-- A profile of the third tier. -/
def expert : ModelProfile where
  name := "expert"
  inputPricePerMillionUsd := 15.0
  outputPricePerMillionUsd := 75.0

theorem expert_tier : expert.tier = 3 := by decide +kernel

/-- Of a budget of one dollar all is spent, or half of it. -/
theorem exhausted_offered :
    ¬ ∀ (config : NorthStackConfig) (cell : GraphCell) (excluded : List String)
      (caps : List Capability) (p : ModelProfile) (budget : Budget) (u u' : BudgetUsage)
      (r r' : ℚ≥0), (u.remaining budget).costUsd = some r →
      (u'.remaining budget).costUsd = some r' → r ≤ r' →
      Offered config cell (some (u.remaining budget)) excluded caps p →
      Offered config cell (some (u'.remaining budget)) excluded caps p := by
  intro h
  have hq : Qualified { profiles := [expert] } { id := "a" } [] [] expert := by
    refine ⟨List.mem_cons_self, by simp, rfl, by simp [requiredCaps]⟩
  have hcut : ∀ x : ℚ≥0, CutByBudget expert (some (BudgetUsage.remaining { totalCostUsd := x }
      { costLimitUsd := some 1 })) ↔ 0 < 1 - x ∧ 1 - x < 1 := by
    intro x
    simp [CutByBudget, BudgetUsage.remaining, expert_tier]
  have hoffered := h { profiles := [expert] } { id := "a" } [] [] expert
    { costLimitUsd := some 1 } { totalCostUsd := 1 } { totalCostUsd := 0.5 } 0 0.5
    (by decide +kernel) (by decide +kernel) (by decide +kernel)
    (offered_iff.mpr ⟨hq, fun hc => absurd ((hcut 1).mp hc) (by decide +kernel)⟩)
  exact (offered_iff.mp hoffered).2 ((hcut 0.5).mpr (by decide +kernel))

end Routing

end Northstack
