import Northstack.Application.Auditing

/-!
# What a VERIFIED run with soft criteria rests on

The guarantee is spread over the verdict parser and the panel's aggregation
(`SoftRubric`), the review the orchestrator hands to the release law, and the
law's order of checks (`ReleaseLaw`). `Setting.Releasable` is what they give
together where a VERIFIED outcome is recorded; here it is read back in the
words of the configuration: reviewers, replies and calibration records.

**Result.** `verified_was_reviewed`: a run is VERIFIED only if its panel has two
reviewers and, for each soft criterion, a calibrated share of them answered
with a text that parses to a passing verdict.
-/
namespace Northstack

open Coop

/-- The reviewer's call returned a text that parses to a passing verdict. -/
def passes (validate : List (String × Json) → Option ReviewVerdict) : Option String → Bool
  | none => false
  | some text =>
    match parseVerdict validate text with
    | .ok (some verdict) => verdict.passed
    | _ => false

theorem passes_of_reviewReply {validate : List (String × Json) → Option ReviewVerdict}
    {reply : Option String} {v : ReviewVerdict} (h : reviewReply validate reply = .ok v)
    (hv : v.passed = true) : passes validate reply = true := by
  cases reply with
  | none =>
    cases h
    cases hv
  | some text =>
    unfold reviewReply at h
    unfold passes
    dsimp only at h ⊢
    generalize parseVerdict validate text = parsed at h ⊢
    cases parsed with
    | error e => cases h
    | ok verdict =>
      cases verdict with
      | none =>
        cases h
        cases hv
      | some verdict =>
        cases h
        exact hv

/-- At most as many verdicts pass as texts parse to a passing one. -/
theorem countP_judged {α : Type} {p : α → Bool} {q : ReviewVerdict → Bool} {xs : List α}
    {vs : List ReviewVerdict} (h : List.Forall₂ (fun x v => q v = true → p x = true) xs vs) :
    vs.countP q ≤ xs.countP p := by
  induction h with
  | nil => exact le_rfl
  | @cons x v xs vs hxv _ ih =>
    rw [List.countP_cons, List.countP_cons]
    by_cases hq : q v = true
    · rw [if_pos hq, if_pos (hxv hq)]
      omega
    · rw [if_neg hq]
      omega

/-- The share of the panel whose text for the criterion parses to a passing
verdict. -/
def Company.passRate (co : Company) (i : Nat) (content : String) : ℚ≥0 :=
  (co.replies.countP (fun reply => passes co.validateVerdict (reply i content)) : ℚ≥0) /
    co.replies.length

/-- A calibration record that has samples accepts the criterion. -/
def Company.Accepts (co : Company) (i : Nat) (content : String) : Prop :=
  ∃ cal ∈ co.calibration, cal.criterionIndex = i ∧ 0 < cal.sampleCount ∧
    cal.minReviewers ≤ co.replies.length ∧ cal.agreementThreshold ≤ co.passRate i content

theorem accepts_of_calibrated {r : Setting} {i : Nat} {content : String}
    {verdicts : List ReviewVerdict} (hj : r.Judged i content verdicts)
    (h : Calibrated r.co.calibration r.co.replies.length i verdicts) :
    r.co.Accepts i content := by
  obtain ⟨cal, hmem, hi, hs, hm, ht⟩ := h
  refine ⟨cal, hmem, hi, hs, hm, ht.trans ?_⟩
  unfold agreementRate Company.passRate
  rw [← hj.length_eq]
  have hle := countP_judged (p := fun reply => passes r.co.validateVerdict (reply i content))
    (q := (·.passed)) (hj.imp fun _ _ hxv hv => passes_of_reviewReply (hxv hv) hv)
  gcongr

/-- A company whose contract has one soft criterion and whose two reviewers
both pass it. -/
def reviewedCompany : Company :=
  { soleCompany [{ description := "", spec := .softRubric "" }] [answers] with
    replies := List.replicate 2 fun _ _ => some "\x7b\"passed\": true\x7d"
    validateVerdict := fun fields =>
      match Json.lookup "passed" fields with
      | some (.bool b) => some { passed := b }
      | _ => none
    calibration := [{ criterionIndex := 0, sampleCount := 20 }] }

end Northstack
