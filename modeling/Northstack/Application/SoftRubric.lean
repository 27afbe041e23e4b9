import Northstack.Application.ReleaseLaw
import Northstack.Core.JsonText

/-!
# Blinded reviewers and their aggregation

Mirrors application/json_extraction.py, the verdict parsing of
application/verification/model_review.py and `SoftRubricChecker` of
application/verification/soft_rubric.py. A reviewer's gateway either raises or
answers with a text; the pydantic model the text's object is validated against
is the parameter `validate`. Rates and thresholds are exact rationals.

**Result.** `accepted_iff`: a criterion is accepted exactly when it is
calibrated with samples, the panel is large enough and the rate of passing
verdicts reaches the threshold.
-/
namespace Northstack

/-- `MIN_BLINDED_REVIEWERS` -/
def minBlindedReviewers : Nat := 2

structure ReviewVerdict where
  passed : Bool
  confidence : ℚ≥0 := 0

/-! ## Parsing a verdict -/

/-- `strip_code_fence` (json_extraction.py:15-22) -/
def stripCodeFence (text : String) : String :=
  let stripped := PyText.strip text
  if "```".toList.isPrefixOf stripped.toList then
    match PyText.splitLines [] stripped.toList with
    | _ :: l :: ls =>
      let body := PyText.join "\n" ((l :: ls).map String.ofList)
      PyText.strip (String.ofList (PyText.removeSuffix "```".toList body.toList))
    | _ => stripped
  else stripped

/-- The scan of `extract_first_json_object` over the positions of `{`; a
literal past the interpreter's digit limit raises out of it. -/
def firstObject : List Char → Except JsonText.JsonError (Option (List (String × Json)))
  | [] => .ok none
  | c :: cs =>
    if c = '{' then
      match JsonText.rawDecode (c :: cs) with
      | .ok (.obj fields, _) => .ok (some fields)
      | .error .tooManyDigits => .error .tooManyDigits
      | _ => firstObject cs
    else firstObject cs

/-- `extract_first_json_object` (json_extraction.py:25-39) -/
def extractFirstJsonObject (text : String) :
    Except JsonText.JsonError (Option (List (String × Json))) :=
  firstObject (stripCodeFence text).toList

/-- `_parse_verdict` (model_review.py:87-101); `validate` is
`_RawVerdict.model_validate`. -/
def parseVerdict (validate : List (String × Json) → Option ReviewVerdict) (text : String) :
    Except JsonText.JsonError (Option ReviewVerdict) :=
  match extractFirstJsonObject text with
  | .ok (some raw) => .ok (validate raw)
  | .ok none => .ok none
  | .error e => .error e

/-- The end of `ModelBackedReviewer.review` (model_review.py:148-169): a gateway
that raised (`none`) and an unparseable text both fail closed. -/
def reviewReply (validate : List (String × Json) → Option ReviewVerdict) :
    Option String → Except JsonText.JsonError ReviewVerdict
  | none => .ok { passed := false }
  | some text =>
    match parseVerdict validate text with
    | .ok (some verdict) => .ok verdict
    | .ok none => .ok { passed := false }
    | .error e => .error e

/-! ## Aggregation -/

/-- `self._calibration.get(i)`: of several records for one index the last. -/
def calibrationFor (records : List CalibrationRecord) (i : Nat) : Option CalibrationRecord :=
  records.reverse.find? fun r => r.criterionIndex = i

/-- `agreement_rate` -/
def agreementRate (verdicts : List ReviewVerdict) : ℚ≥0 :=
  (verdicts.countP (·.passed) : ℚ≥0) / verdicts.length

/-- `accepted` (soft_rubric.py:142-148); `panel` is `len(self._reviewers)`. -/
def accepted (records : List CalibrationRecord) (panel i : Nat) (verdicts : List ReviewVerdict) :
    Bool :=
  match calibrationFor records i with
  | none => false
  | some cal =>
    0 < cal.sampleCount && cal.minReviewers ≤ panel &&
      cal.agreementThreshold ≤ agreementRate verdicts

/-- What an accepted criterion rests on. -/
def Calibrated (records : List CalibrationRecord) (panel i : Nat) (verdicts : List ReviewVerdict) :
    Prop :=
  ∃ cal ∈ records, cal.criterionIndex = i ∧ 0 < cal.sampleCount ∧ cal.minReviewers ≤ panel ∧
    cal.agreementThreshold ≤ agreementRate verdicts

theorem calibrationFor_mem {records : List CalibrationRecord} {i : Nat} {cal : CalibrationRecord}
    (h : calibrationFor records i = some cal) : cal ∈ records ∧ cal.criterionIndex = i := by
  unfold calibrationFor at h
  refine ⟨List.mem_reverse.mp (List.mem_of_find?_eq_some h), ?_⟩
  simpa using List.find?_some h

/-- **Acceptance.** The criterion's calibration record, the last one for its
index, decides. -/
theorem accepted_iff (records : List CalibrationRecord) (panel i : Nat)
    (verdicts : List ReviewVerdict) :
    accepted records panel i verdicts = true ↔
      ∃ cal, calibrationFor records i = some cal ∧ 0 < cal.sampleCount ∧
        cal.minReviewers ≤ panel ∧ cal.agreementThreshold ≤ agreementRate verdicts := by
  unfold accepted
  cases calibrationFor records i with
  | none => simp
  | some cal => simp [and_assoc]

theorem calibrated_of_accepted {records : List CalibrationRecord} {panel i : Nat}
    {verdicts : List ReviewVerdict} (h : accepted records panel i verdicts = true) :
    Calibrated records panel i verdicts := by
  obtain ⟨cal, hcal, hs, hm, ht⟩ := (accepted_iff records panel i verdicts).mp h
  obtain ⟨hmem, hi⟩ := calibrationFor_mem hcal
  exact ⟨cal, hmem, hi, hs, hm, ht⟩

end Northstack
