import Northstack.Application.SoftRubric

/-!
# Reviewer calibration

Mirrors `CalibrationRunner.measure` (application/calibration.py:202-273) and
what a measurement becomes a record by. A reviewer's verdict on a sample comes
from outside: `review k j` is what the `j`-th reviewer says of the `k`-th
sample. Rates and thresholds are exact rationals.

**Results.**
* `suggestedThreshold_half`: when the suggested threshold is at its floor.
* `accepts_by_majority_iff`: when the panel accepts under a measured record only
  what its majority passed.
-/
namespace Northstack

namespace Calibration

structure CalibrationSample where
  criterionIndex : Nat
  objective : String
  description : String
  evidenceContent : String
  label : Bool

structure CalibrationSuite where
  name : String := "calibration"
  samples : List CalibrationSample

structure ReviewerMeasurement where
  profile : String
  samples : Nat
  agreementsWithLabel : Nat

structure CriterionMeasurement where
  criterionIndex : Nat
  sampleCount : Nat
  agreementRate : ℚ≥0
  majorityAccuracy : ℚ≥0
  falseAcceptanceRate : ℚ≥0
  falseRejectionRate : ℚ≥0
  suggestedThreshold : ℚ≥0

/-- `CriterionMeasurement.to_record` -/
def CriterionMeasurement.toRecord (m : CriterionMeasurement) (minReviewers : Nat) :
    CalibrationRecord where
  criterionIndex := m.criterionIndex
  reviewerAgreementRate := m.agreementRate
  minReviewers := minReviewers
  agreementThreshold := m.suggestedThreshold
  sampleCount := m.sampleCount

structure CalibrationReport where
  suiteName : String
  reviewerProfiles : List String
  perReviewer : List ReviewerMeasurement
  perCriterion : List CriterionMeasurement

/-- `CalibrationReport.records` -/
def CalibrationReport.records (r : CalibrationReport) : List CalibrationRecord :=
  r.perCriterion.map fun m => m.toRecord r.reviewerProfiles.length

/-! ## Measuring -/

/-- `round(x, 4)` -/
def round4 (x : ℚ) : ℚ := PyText.roundHalfEven (x * 10000) / 10000

/-- `max(0.5, round(1.0 - fa_rate, 4))` -/
def suggestedThreshold (faRate : ℚ≥0) : ℚ≥0 := max 0.5 (round4 (1 - faRate)).toNNRat

/-- `sum(panel) * 2 > len(panel)` -/
def majority (panel : List Bool) : Bool := panel.length < panel.count true * 2

/-- `hits / n if n else 0.0` -/
def rate (hits n : Nat) : ℚ≥0 := if n = 0 then 0 else (hits : ℚ≥0) / n

/-- A sample and what the panel said of it. -/
abbrev Reviewed := CalibrationSample × List Bool

/-- The body of the loop over the criteria (calibration.py:221-257). -/
def measureCriterion (criterionIndex : Nat) (rows : List Reviewed) : CriterionMeasurement :=
  let agreementHits := rows.countP fun r => r.2.dedup.length = 1
  let accuracyHits := rows.countP fun r => majority r.2 = r.1.label
  let negatives := rows.countP fun r => !r.1.label
  let positives := rows.length - negatives
  let falseAccepts := rows.countP fun r => majority r.2 && !r.1.label
  let falseRejects := rows.countP fun r => !majority r.2 && r.1.label
  { criterionIndex := criterionIndex
    sampleCount := rows.length
    agreementRate := rate agreementHits rows.length
    majorityAccuracy := rate accuracyHits rows.length
    falseAcceptanceRate := rate falseAccepts negatives
    falseRejectionRate := rate falseRejects positives
    suggestedThreshold := suggestedThreshold (rate falseAccepts negatives) }

/-- The tally of one reviewer profile; profiles of one name share it. -/
def measureReviewer (votes : List (String × Bool)) (name : String) : ReviewerMeasurement where
  profile := name
  samples := votes.countP fun v => v.1 = name
  agreementsWithLabel := votes.countP fun v => v.1 = name && v.2

/-- `CalibrationRunner.measure` -/
def measure (profiles : List String) (review : Nat → Nat → ReviewVerdict)
    (suite : CalibrationSuite) : CalibrationReport :=
  let rows : List Reviewed := suite.samples.zipIdx.map fun s =>
    (s.1, (List.range profiles.length).map fun j => (review s.2 j).passed)
  let votes := rows.flatMap fun r => (profiles.zip r.2).map fun v => (v.1, v.2 == r.1.label)
  let indices := (suite.samples.map (·.criterionIndex)).dedup.insertionSort (· ≤ ·)
  { suiteName := suite.name
    reviewerProfiles := profiles
    perReviewer := profiles.eraseDups.map (measureReviewer votes)
    perCriterion := indices.map fun i =>
      measureCriterion i (rows.filter fun r => r.1.criterionIndex = i) }

/-- A record some measurement gives. -/
def Measured (cal : CalibrationRecord) : Prop :=
  ∃ profiles review suite, cal ∈ (measure profiles review suite).records

/-! ## The floor -/

theorem roundHalfEven_le_iff {q : ℚ} {n : Int} (hn : n % 2 = 0) :
    PyText.roundHalfEven q ≤ n ↔ q ≤ n + 1 / 2 := by
  have hf := Int.floor_le q
  have hl := Int.lt_floor_add_one q
  unfold PyText.roundHalfEven
  dsimp only
  constructor
  · intro h
    by_contra hlt
    have hfloor : n ≤ ⌊q⌋ := Int.le_floor.mpr (by linarith)
    rcases eq_or_lt_of_le hfloor with heq | hgt
    · have hq : q - ⌊q⌋ > 1 / 2 := by
        rw [← heq]
        linarith
      rw [if_neg (not_lt.mpr hq.le), if_pos hq] at h
      omega
    · split at h
      · omega
      · split at h
        · omega
        · split at h <;> omega
  · intro h
    have hfloor : ⌊q⌋ ≤ n := by
      have hcast : (⌊q⌋ : ℚ) < n + 1 := by linarith
      have : ⌊q⌋ < n + 1 := by exact_mod_cast hcast
      omega
    rcases eq_or_lt_of_le hfloor with heq | hlt
    · have hq : ¬ q - ⌊q⌋ > 1 / 2 := by
        rw [heq]
        linarith
      have heven : ⌊q⌋ % 2 = 0 := by rw [heq, hn]
      split
      · exact hfloor
      · exact hfloor
    · split
      · exact hfloor
      · split
        · omega
        · split <;> omega

theorem half_le_suggestedThreshold (faRate : ℚ≥0) : 0.5 ≤ suggestedThreshold faRate :=
  le_max_left _ _

/-- **The floor.** The threshold is a half exactly where at least 49.995 percent
of the bad evidence was accepted. -/
theorem suggestedThreshold_half (faRate : ℚ≥0) :
    suggestedThreshold faRate = 0.5 ↔ (9999 / 20000 : ℚ) ≤ faRate := by
  unfold suggestedThreshold round4
  rw [max_eq_left_iff]
  have hhalf : ((0.5 : ℚ≥0) : ℚ) = 1 / 2 := by norm_num
  rw [Rat.toNNRat_le_iff_le_coe, hhalf, div_le_iff₀ (by norm_num)]
  have hround := @roundHalfEven_le_iff ((1 - (faRate : ℚ)) * 10000) 5000 (by decide)
  constructor
  · intro h
    have hle : PyText.roundHalfEven ((1 - (faRate : ℚ)) * 10000) ≤ 5000 := by
      have : (PyText.roundHalfEven ((1 - (faRate : ℚ)) * 10000) : ℚ) ≤ (5000 : Int) := by
        push_cast
        linarith
      exact_mod_cast this
    have hq := hround.mp hle
    push_cast at hq
    linarith
  · intro h
    have hle := hround.mpr (by push_cast; linarith)
    have : (PyText.roundHalfEven ((1 - (faRate : ℚ)) * 10000) : ℚ) ≤ (5000 : Int) := by
      exact_mod_cast hle
    push_cast at this
    linarith

/-! ## The panel -/

theorem mem_measure {profiles : List String} {review : Nat → Nat → ReviewVerdict}
    {suite : CalibrationSuite} {cal : CalibrationRecord}
    (h : cal ∈ (measure profiles review suite).records) :
    ∃ i rows, rows ≠ [] ∧ cal = (measureCriterion i rows).toRecord profiles.length := by
  unfold measure CalibrationReport.records at h
  dsimp only at h
  rw [List.map_map, List.mem_map] at h
  obtain ⟨i, hi, rfl⟩ := h
  rw [List.mem_insertionSort, List.mem_dedup, List.mem_map] at hi
  obtain ⟨s, hs, hindex⟩ := hi
  refine ⟨i, _, ?_, rfl⟩
  obtain ⟨k, hk⟩ := List.mem_iff_getElem?.mp hs
  refine List.ne_nil_of_mem (List.mem_filter.mpr ⟨List.mem_map.mpr ⟨(s, k), ?_, rfl⟩, ?_⟩)
  · exact List.mem_zipIdx_iff_getElem?.mpr hk
  · exact decide_eq_true hindex

/-- A measured criterion has samples, and its threshold is no less than a half. -/
theorem Measured.bounds {cal : CalibrationRecord} (h : Measured cal) :
    0 < cal.sampleCount ∧ 0.5 ≤ cal.agreementThreshold := by
  obtain ⟨profiles, review, suite, hcal⟩ := h
  obtain ⟨i, rows, hne, rfl⟩ := mem_measure hcal
  exact ⟨List.length_pos_iff.mpr hne, half_le_suggestedThreshold _⟩

theorem count_passed (verdicts : List ReviewVerdict) :
    (verdicts.map (·.passed)).count true = verdicts.countP (·.passed) := by
  rw [List.count_eq_countP, List.countP_map]
  refine List.countP_congr fun v _ => ?_
  simp

/-- The rate of a panel is at least a half where half of it passed. -/
theorem half_le_agreementRate {verdicts : List ReviewVerdict} (hne : 0 < verdicts.length) :
    0.5 ≤ agreementRate verdicts ↔ verdicts.length ≤ verdicts.countP (·.passed) * 2 := by
  unfold agreementRate
  have hpos : (0 : ℚ≥0) < verdicts.length := by exact_mod_cast hne
  rw [le_div_iff₀ hpos]
  constructor
  · intro h
    have hle : (verdicts.length : ℚ≥0) ≤ verdicts.countP (·.passed) * (2 : Nat) := by
      calc (verdicts.length : ℚ≥0) = (2 : Nat) * (0.5 * verdicts.length) := by
            push_cast
            ring
        _ ≤ (2 : Nat) * verdicts.countP (·.passed) := by gcongr
        _ = verdicts.countP (·.passed) * (2 : Nat) := mul_comm _ _
    exact_mod_cast hle
  · intro h
    have hle : (verdicts.length : ℚ≥0) ≤ verdicts.countP (·.passed) * (2 : Nat) := by
      exact_mod_cast h
    calc 0.5 * (verdicts.length : ℚ≥0) ≤ 0.5 * (verdicts.countP (·.passed) * (2 : Nat)) := by gcongr
      _ = verdicts.countP (·.passed) := by
          push_cast
          ring

/-- **The measured rule.** Under records that were measured, what a panel of at
least two accepts was passed by its majority, as it was counted in the
measurement, if and only if it is not the case that exactly half of the panel
passed and the criterion's record lets a half suffice. -/
theorem accepts_by_majority_iff {records : List CalibrationRecord}
    (hmeasured : ∀ cal ∈ records, Measured cal) (i : Nat) {verdicts : List ReviewVerdict}
    (hpanel : minBlindedReviewers ≤ verdicts.length) :
    (accepted records verdicts.length i verdicts = true →
        majority (verdicts.map (·.passed)) = true) ↔
      ¬ (verdicts.countP (·.passed) * 2 = verdicts.length ∧
        ∃ cal, calibrationFor records i = some cal ∧ cal.minReviewers ≤ verdicts.length ∧
          cal.agreementThreshold = 0.5) := by
  have hne : 0 < verdicts.length := lt_of_lt_of_le (by decide) hpanel
  have hmajority : majority (verdicts.map (·.passed)) = true ↔
      verdicts.length < verdicts.countP (·.passed) * 2 := by
    unfold majority
    rw [decide_eq_true_iff, List.length_map, count_passed]
  rw [accepted_iff, hmajority]
  constructor
  · intro himp h
    obtain ⟨hhalf, cal, hcal, hmin, hthreshold⟩ := h
    have hbounds := (hmeasured cal (calibrationFor_mem hcal).1).bounds
    have hrate : 0.5 ≤ agreementRate verdicts := (half_le_agreementRate hne).mpr hhalf.ge
    have hlt := himp ⟨cal, hcal, hbounds.1, hmin, hthreshold ▸ hrate⟩
    omega
  · intro hnot h
    obtain ⟨cal, hcal, -, hmin, hrate⟩ := h
    have hbounds := (hmeasured cal (calibrationFor_mem hcal).1).bounds
    have hhalf := (half_le_agreementRate hne).mp (hbounds.2.trans hrate)
    rcases Nat.eq_or_lt_of_le hhalf with heq | hlt
    · -- a tie is accepted at the floor only
      have hle : agreementRate verdicts ≤ 0.5 := by
        unfold agreementRate
        have hpos : (0 : ℚ≥0) < verdicts.length := by exact_mod_cast hne
        rw [div_le_iff₀ hpos, heq]
        push_cast
        exact le_of_eq (by ring)
      exact absurd ⟨heq.symm, cal, hcal, hmin, le_antisymm (hrate.trans hle) hbounds.2⟩ hnot
    · exact hlt

/-! ### Two reviewers who disagree -/

def badSample : CalibrationSample where
  criterionIndex := 0
  objective := "o"
  description := "d"
  evidenceContent := "e"
  label := false

/-- Bad evidence that both reviewers passed, or the first one only. -/
def measuredRecords (second : Bool) : List CalibrationRecord :=
  (measure ["a", "b"] (fun _ j => { passed := j = 0 || second }) { samples := [badSample] }).records

theorem measuredRecords_measured (second : Bool) : ∀ cal ∈ measuredRecords second, Measured cal :=
  fun _ hcal => ⟨_, _, _, hcal⟩

theorem accepts_by_majority_two :
    accepted (measuredRecords false) 2 0 [{ passed := true }, { passed := true }] = true ∧
      majority [true, true] = true := by
  have hpanel : minBlindedReviewers ≤ [({ passed := true } : ReviewVerdict),
      { passed := true }].length := by decide
  have hiff := accepts_by_majority_iff (measuredRecords_measured false) 0 hpanel
  have haccepted : accepted (measuredRecords false) 2 0 [{ passed := true }, { passed := true }] =
      true := by decide +kernel
  exact ⟨haccepted, hiff.mpr (fun h => absurd h.1 (by decide)) haccepted⟩

/-- The panel that passed all the bad evidence accepts when it is split. -/
theorem split_panel_accepts :
    ¬ ∀ (records : List CalibrationRecord) (i : Nat) (verdicts : List ReviewVerdict),
      (∀ cal ∈ records, Measured cal) → minBlindedReviewers ≤ verdicts.length →
      accepted records verdicts.length i verdicts = true →
      majority (verdicts.map (·.passed)) = true := by
  intro h
  have hmajority := h (measuredRecords true) 0 [{ passed := true }, { passed := false }]
    (measuredRecords_measured true) (by decide) (by decide +kernel)
  exact absurd hmajority (by decide)

end Calibration

end Northstack
