import Mathlib

/-!
# The quality-resource frontier

The benchmark compares configurations by a mean score, the more the better, and
six totals, the less the better. One dominates another if it is nowhere worse and
somewhere better: the strict order of the positions, component by component.

**Result.** `frontier_covers`: domination is a strict order, an entry of the analysis
is efficient exactly if none dominates it, there is one, and what is dominated is
dominated by an efficient one.
-/
namespace Northstack

/-- `benchmark.py:39-45` -/
inductive Configuration where
  | strongSingle | cheapBestOfN | singletonExpert | company
  deriving DecidableEq, Repr

def Configuration.value : Configuration → String
  | .strongSingle => "strong_single"
  | .cheapBestOfN => "cheap_best_of_n"
  | .singletonExpert => "singleton_expert"
  | .company => "northstack"

/-- The members in the order of the class. -/
def Configuration.all : List Configuration :=
  [.strongSingle, .cheapBestOfN, .singletonExpert, .company]

/-- `benchmark.py:202-219`, the numbers exact -/
structure ConfigurationSummary where
  configuration : Configuration
  runs : Int
  verified : Int
  failed : Int
  abstained : Int
  falseAcceptance : Int
  falseRejection : Int
  meanVerifiedScore : ℚ
  totalTokens : Int
  calls : Int
  wallTimeMs : Int
  retries : Int
  toolOperations : Int
  configuredCostUsd : ℚ
  deriving DecidableEq

inductive ResourceAxis where
  | totalTokens | calls | wallTimeMs | retries | toolOperations | configuredCostUsd
  deriving DecidableEq, Repr

def ResourceAxis.attr : ResourceAxis → String
  | .totalTokens => "total_tokens"
  | .calls => "calls"
  | .wallTimeMs => "wall_time_ms"
  | .retries => "retries"
  | .toolOperations => "tool_operations"
  | .configuredCostUsd => "configured_cost_usd"

/-- `getattr(summary, attr)` -/
def ConfigurationSummary.axis (s : ConfigurationSummary) : ResourceAxis → ℚ
  | .totalTokens => s.totalTokens
  | .calls => s.calls
  | .wallTimeMs => s.wallTimeMs
  | .retries => s.retries
  | .toolOperations => s.toolOperations
  | .configuredCostUsd => s.configuredCostUsd

/-- `RESOURCE_AXES` (benchmark.py:240-247) -/
def resourceAxes : List ResourceAxis :=
  [.totalTokens, .calls, .wallTimeMs, .retries, .toolOperations, .configuredCostUsd]

/-- The loop of `_dominates`: `strictly_better` after it, `none` where it returns.
`benchmark.py:320-324` -/
def compareAxes (a b : ConfigurationSummary) : Bool → List ResourceAxis → Option Bool
  | strictlyBetter, [] => some strictlyBetter
  | strictlyBetter, ax :: axes =>
    if a.axis ax > b.axis ax then none
    else compareAxes a b (strictlyBetter || a.axis ax < b.axis ax) axes

/-- `_dominates`, `benchmark.py:315-325` -/
def dominates (a b : ConfigurationSummary) : Bool :=
  if a.meanVerifiedScore < b.meanVerifiedScore then false
  else match compareAxes a b false resourceAxes with
    | none => false
    | some strictlyBetter => a.meanVerifiedScore > b.meanVerifiedScore || strictlyBetter

/-- `benchmark.py:250-260` -/
structure FrontierEntry where
  configuration : Configuration
  meanVerifiedScore : ℚ
  resources : List (String × ℚ)
  dominatedBy : List String
  paretoEfficient : Bool

structure FrontierAnalysis where
  entries : List FrontierEntry
  resourceAxes : List String

/-- A non-empty map of summaries, each under its own configuration. -/
structure Summaries where
  items : List (Configuration × ConfigurationSummary)
  nonempty : items ≠ []
  nodup : (items.map Prod.fst).Nodup
  keyed : ∀ item ∈ items, item.2.configuration = item.1

/-- The entry of one configuration, `benchmark.py:333-347` -/
def frontierEntry (s : Summaries) (configuration : Configuration)
    (summary : ConfigurationSummary) : FrontierEntry :=
  let others := (s.items.map Prod.snd).filter fun other =>
    other.configuration ≠ configuration ∧ dominates other summary
  let dominatedBy := (others.map fun other => other.configuration.value).mergeSort (· ≤ ·)
  { configuration
    meanVerifiedScore := summary.meanVerifiedScore
    resources := resourceAxes.map fun ax => (ax.attr, summary.axis ax)
    dominatedBy
    paretoEfficient := dominatedBy.isEmpty }

/-- `analyze_frontier`, `benchmark.py:328-353` -/
def analyzeFrontier (s : Summaries) : FrontierAnalysis :=
  { entries := (s.items.map fun item => frontierEntry s item.1 item.2).mergeSort fun e f =>
      Configuration.all.idxOf e.configuration ≤ Configuration.all.idxOf f.configuration
    resourceAxes := resourceAxes.map ResourceAxis.attr }

/-! ## Positions -/

/-- Where a summary stands: the score upwards, the resources downwards. -/
def ConfigurationSummary.position (s : ConfigurationSummary) : Option ResourceAxis → ℚ
  | none => s.meanVerifiedScore
  | some ax => -s.axis ax

variable {a b c : ConfigurationSummary} {s : Summaries}

theorem compareAxes_eq_some {strictlyBetter better : Bool} {axes : List ResourceAxis} :
    compareAxes a b strictlyBetter axes = some better ↔
      (∀ ax ∈ axes, a.axis ax ≤ b.axis ax) ∧
        (better = true ↔ strictlyBetter = true ∨ ∃ ax ∈ axes, a.axis ax < b.axis ax) := by
  induction axes generalizing strictlyBetter with
  | nil =>
    cases strictlyBetter <;> cases better <;> simp [compareAxes]
  | cons ax axes ih =>
    unfold compareAxes
    split
    · rename_i hgt
      simp [not_le.mpr hgt]
    · rename_i hle
      rw [ih]
      simp [not_lt.mp hle, or_assoc]

theorem compareAxes_eq_none {strictlyBetter : Bool} {axes : List ResourceAxis} :
    compareAxes a b strictlyBetter axes = none ↔ ∃ ax ∈ axes, b.axis ax < a.axis ax := by
  induction axes generalizing strictlyBetter with
  | nil => simp [compareAxes]
  | cons ax axes ih =>
    unfold compareAxes
    split
    · rename_i hgt
      simp [hgt]
    · rename_i hle
      rw [ih]
      simp [not_lt.mp hle]

theorem mem_resourceAxes (ax : ResourceAxis) : ax ∈ resourceAxes := by
  cases ax <;> decide

/-- To dominate is to stand strictly above. -/
theorem dominates_iff : dominates a b = true ↔ b.position < a.position := by
  have hpos : b.position < a.position ↔
      (b.meanVerifiedScore ≤ a.meanVerifiedScore ∧ ∀ ax, a.axis ax ≤ b.axis ax) ∧
        (b.meanVerifiedScore < a.meanVerifiedScore ∨ ∃ ax, a.axis ax < b.axis ax) := by
    rw [Pi.lt_def, Pi.le_def]
    simp [ConfigurationSummary.position, Option.forall, Option.exists]
  rw [hpos]
  unfold dominates
  split
  · rename_i hlt
    simp [not_le.mpr hlt]
  · rename_i hge
    have hscore : b.meanVerifiedScore ≤ a.meanVerifiedScore := not_lt.mp hge
    split
    · rename_i hnone
      obtain ⟨ax, -, hworse⟩ := compareAxes_eq_none.mp hnone
      have hnot : ¬∀ ax, a.axis ax ≤ b.axis ax := fun hall => not_lt.mpr (hall ax) hworse
      simp [hnot]
    · rename_i strictlyBetter hsome
      obtain ⟨hall, hbetter⟩ := compareAxes_eq_some.mp hsome
      have hall' : ∀ ax, a.axis ax ≤ b.axis ax := fun ax => hall ax (mem_resourceAxes ax)
      simp [hscore, hall', hbetter, mem_resourceAxes]

theorem dominates_irrefl : ¬ dominates a a = true := by
  rw [dominates_iff]
  exact lt_irrefl _

theorem dominates_trans (hab : dominates a b = true) (hbc : dominates b c = true) :
    dominates a c = true := by
  rw [dominates_iff] at *
  exact hbc.trans hab

theorem dominates_asymm (hab : dominates a b = true) : ¬ dominates b a = true := by
  rw [dominates_iff] at *
  exact hab.asymm

/-! ## Entries -/

theorem mem_analyzeFrontier {e : FrontierEntry} :
    e ∈ (analyzeFrontier s).entries ↔ ∃ item ∈ s.items, frontierEntry s item.1 item.2 = e := by
  unfold analyzeFrontier
  rw [List.mem_mergeSort, List.mem_map]

/-- Under different configurations: a summary does not dominate itself. -/
theorem configuration_ne {item other : Configuration × ConfigurationSummary}
    (hitem : item ∈ s.items) (hother : other ∈ s.items) (hdom : dominates other.2 item.2 = true) :
    other.2.configuration ≠ item.1 := by
  intro heq
  rw [s.keyed other hother] at heq
  have hsame : other = item := List.inj_on_of_nodup_map s.nodup hother hitem heq
  rw [hsame] at hdom
  exact dominates_irrefl hdom

theorem mem_dominatedBy {item : Configuration × ConfigurationSummary} (hitem : item ∈ s.items)
    {v : String} : v ∈ (frontierEntry s item.1 item.2).dominatedBy ↔
      ∃ other ∈ s.items, dominates other.2 item.2 = true ∧ other.1.value = v := by
  unfold frontierEntry
  rw [List.mem_mergeSort]
  simp only [List.mem_map, List.mem_filter, decide_eq_true_eq]
  constructor
  · intro h
    obtain ⟨summary, ⟨⟨other, hother, rfl⟩, -, hdom⟩, hv⟩ := h
    exact ⟨other, hother, hdom, by rw [← hv, s.keyed other hother]⟩
  · intro h
    obtain ⟨other, hother, hdom, hv⟩ := h
    exact ⟨other.2, ⟨⟨other, hother, rfl⟩, configuration_ne hitem hother hdom, hdom⟩,
      by rw [← hv, s.keyed other hother]⟩

theorem paretoEfficient_iff {item : Configuration × ConfigurationSummary}
    (hitem : item ∈ s.items) : (frontierEntry s item.1 item.2).paretoEfficient = true ↔
      ∀ other ∈ s.items, ¬ dominates other.2 item.2 = true := by
  have hempty : (frontierEntry s item.1 item.2).paretoEfficient = true ↔
      (frontierEntry s item.1 item.2).dominatedBy = [] := List.isEmpty_iff
  rw [hempty, List.eq_nil_iff_forall_not_mem]
  constructor
  · intro h other hother hdom
    exact h _ ((mem_dominatedBy hitem).mpr ⟨other, hother, hdom, rfl⟩)
  · intro h v hv
    obtain ⟨other, hother, hdom, -⟩ := (mem_dominatedBy hitem).mp hv
    exact h other hother hdom

/-- Above or at every summary stands one that none dominates. -/
theorem exists_undominated {item : Configuration × ConfigurationSummary} (hitem : item ∈ s.items) :
    ∃ top ∈ s.items, item.2.position ≤ top.2.position ∧
      ∀ other ∈ s.items, ¬ dominates other.2 top.2 = true := by
  have hfin := (List.finite_toSet s.items).image fun item => item.2.position
  obtain ⟨p, hle, hmax⟩ := hfin.exists_le_maximal ⟨item, hitem, rfl⟩
  obtain ⟨top, htop, rfl⟩ := hmax.prop
  refine ⟨top, htop, hle, ?_⟩
  intro other hother hdom
  exact hmax.not_gt ⟨other, hother, rfl⟩ (dominates_iff.mp hdom)

/-- **The frontier covers what it leaves out.** -/
theorem frontier_covers (s : Summaries) :
    (∀ a, ¬ dominates a a = true) ∧
    (∀ a b, dominates a b = true → ¬ dominates b a = true) ∧
    (∀ a b c, dominates a b = true → dominates b c = true → dominates a c = true) ∧
    (∀ item ∈ s.items, ∃ e ∈ (analyzeFrontier s).entries, e.configuration = item.1) ∧
    (∃ e ∈ (analyzeFrontier s).entries, e.paretoEfficient = true) ∧
    ∀ e ∈ (analyzeFrontier s).entries, ∃ summary, (e.configuration, summary) ∈ s.items ∧
      (e.paretoEfficient = true ↔ ∀ other ∈ s.items, ¬ dominates other.2 summary = true) ∧
      (e.paretoEfficient = false → ∃ f ∈ (analyzeFrontier s).entries,
        f.paretoEfficient = true ∧ f.configuration.value ∈ e.dominatedBy ∧
          ∃ above, (f.configuration, above) ∈ s.items ∧ dominates above summary = true) := by
  have hentry : ∀ item ∈ s.items, frontierEntry s item.1 item.2 ∈ (analyzeFrontier s).entries :=
    fun item hitem => mem_analyzeFrontier.mpr ⟨item, hitem, rfl⟩
  refine ⟨fun a => dominates_irrefl, fun a b => dominates_asymm, fun a b c => dominates_trans,
    fun item hitem => ⟨_, hentry item hitem, rfl⟩, ?_, ?_⟩
  · obtain ⟨item, hitem⟩ := List.exists_mem_of_ne_nil s.items s.nonempty
    obtain ⟨top, htop, -, hfree⟩ := exists_undominated hitem
    exact ⟨_, hentry top htop, (paretoEfficient_iff htop).mpr hfree⟩
  · intro e he
    obtain ⟨item, hitem, rfl⟩ := mem_analyzeFrontier.mp he
    refine ⟨item.2, hitem, paretoEfficient_iff hitem, ?_⟩
    intro hnot
    have hsome : ∃ other ∈ s.items, dominates other.2 item.2 = true := by
      by_contra hnone
      push Not at hnone
      rw [(paretoEfficient_iff hitem).mpr hnone] at hnot
      cases hnot
    obtain ⟨other, hother, hdom⟩ := hsome
    obtain ⟨top, htop, hle, hfree⟩ := exists_undominated hother
    have htopdom : dominates top.2 item.2 = true :=
      dominates_iff.mpr ((dominates_iff.mp hdom).trans_le hle)
    exact ⟨_, hentry top htop, (paretoEfficient_iff htop).mpr hfree,
      (mem_dominatedBy hitem).mpr ⟨top, htop, htopdom, rfl⟩, top.2, htop, htopdom⟩

end Northstack
