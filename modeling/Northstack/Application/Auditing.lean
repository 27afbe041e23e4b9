import Northstack.Application.Spending

/-!
# The tool audit

`tools_used` is what the hard gates are told was executed. A cell hands over
the names its surviving conversation carries (cell_runner.py:433), and a resume
starts with an empty list (orchestrator.py:499). A tool is lost where a
conversation is compacted, restarted or resumed without the rounds that carried
it (`KeepsNames` fails), where a cell is counted without having completed
(`Obs.takenForDone`), and where a resume counts cells of its source.

**Results.**
* `audit_names_executed`: without these the audit has every tool that was
  executed for a counted cell, and a forbidden tool among them fails its gate.
* `resume_forgets_tools`: a run fails its gate for a forbidden tool, and its
  resume is VERIFIED.
-/
namespace Northstack

open Coop

section

variable {r : Setting} {ph : Phase} {s t : St} {id : String}

/-- No tool was executed before for a cell the launch counts. -/
def Setting.Unspent (r : Setting) : Prop :=
  ∀ x ∈ r.shared.executed, x.1 ∉ r.job.initiallyCompleted

/-- The run's audit has the tools of the counted cells. -/
def Accounted (r : Setting) (s : St) : Prop :=
  r.Distinct → r.Unspent → KeepsNames s.history → Avoids Obs.takenForDone s →
    ∀ id ∈ s.completedIds, s.shared.executedFor id ⊆ s.toolsUsed

/-- Every tool executed for a counted cell is handed over. -/
theorem Reach.accounted (h : Reach r ph s) : Accounted r s := by
  refine Reach.invariant (M := fun _ s => Accounted r s) ?start ?move ?cell ?collect h
  case start =>
    intro _ hun _ _ id hid t ht
    obtain ⟨x, hx, rfl⟩ := List.mem_map.mp ht
    obtain ⟨hmem, hx⟩ := List.mem_filter.mp hx
    exact absurd (of_decide_eq_true hx ▸ hid) (hun x hmem)
  case move =>
    intro ph s ph' t _ ih hm hD hun hk hd id hid
    rw [hm.shared, hm.toolsUsed]
    exact ih hD hun (hk.of_prefix hm.grows.history) (hd.of_grows hm.grows) id
      (hm.completedIds ▸ hid)
  case cell =>
    intro s t c _ ih hm hst hD hun hk hd id hid
    have hg := hst.frame.toGrows
    rw [hst.frame.completedIds] at hid
    have hne : c.id ≠ id := fun he => (hm.fresh hD).1 (he ▸ hid)
    rw [hst.executedFor hne]
    exact List.Subset.trans (ih hD hun (hk.of_prefix hg.history) (hd.of_grows hg) id hid)
      hg.toolsUsed.subset
  case collect =>
    intro s result c _ ih _ hr hD hun hk hd id hid
    have hg := s.collected_grows c.id result
    obtain ⟨-, -, htools, hshared⟩ := St.collected_spent c.id result s
    rw [hshared, htools]
    have hold := ih hD hun (hk.of_prefix hg.history) (hd.of_grows hg)
    rcases St.collected_cases c.id result s with hi | ⟨hi, rfl | ⟨note, rfl⟩⟩
    · exact hold id (hi ▸ hid)
    · rcases List.mem_insert_iff.mp (hi ▸ hid) with rfl | hid
      · exact (hr _ rfl).2.2 hD (hk.of_prefix hg.history)
      · exact hold id hid
    · have hnew : Obs.collected c.id (.error (.cancelled note)) ∈
          (s.collected c.id (.error (.cancelled note))).history := by
        rw [St.collected_history]
        exact List.mem_append_right _ List.mem_cons_self
      cases hd _ hnew

/-! ## The audit given to the gates -/

/-- The gates were given the run's list, when every cell was counted. -/
def Phase.Audits (r : Setting) (s : St) : Phase → Prop
  | .intake | .executing | .cut _ | .finishing => ∀ tools, .audited tools ∉ s.history
  | _ => ∀ tools, .audited tools ∈ s.history → tools = s.toolsUsed ∧ r.Counted s

theorem Phase.Audits.all (h : ph.Audits r s) :
    ∀ tools, .audited tools ∈ s.history → tools = s.toolsUsed ∧ r.Counted s := by
  cases ph with
  | intake | executing | cut | finishing => exact fun tools ht => absurd ht (h tools)
  | _ => exact h

theorem Phase.Audits.move {ph' : Phase} (hreach : Reach r ph s) (h : ph.Audits r s)
    (hm : r.Move ph s ph' t) : ph'.Audits r t := by
  have hnew : ∀ tools, .audited tools ∈ t.history →
      .audited tools ∈ s.history ∨ tools = s.toolsUsed ∧ ph = .verifying := by
    intro tools ht
    rcases hm.history with hh | ⟨o, hh, ho⟩
    · exact .inl (hh ▸ ht)
    · rw [hh] at ht
      rcases List.mem_append.mp ht with ht | ht
      · exact .inl ht
      · rw [← List.mem_singleton.mp ht] at ho
        exact .inr ho
  have hall : ∀ tools, .audited tools ∈ t.history → tools = t.toolsUsed ∧ r.Counted t := by
    intro tools ht
    rw [hm.toolsUsed]
    rcases hnew tools ht with hold | ⟨he, rfl⟩
    · exact ⟨(h.all tools hold).1, (h.all tools hold).2.of_eq hm.completedIds⟩
    · exact ⟨he, hreach.released.1.2.of_eq hm.completedIds⟩
  have hnone : ph ≠ .verifying → (∀ tools, .audited tools ∉ s.history) →
      ∀ tools, .audited tools ∉ t.history := by
    intro hne hs tools ht
    rcases hnew tools ht with hold | ⟨-, he⟩
    · exact hs tools hold
    · exact hne he
  cases hm.next with
  | stay =>
    cases ph with
    | intake | executing | cut | finishing => exact hnone nofun h
    | _ => exact hall
  | execute _ _ _ => exact hnone nofun h
  | cut o => exact hnone nofun h
  | finish _ => exact hnone nofun h
  | verify => exact hall
  | close hc =>
    cases ph' with
    | intake | executing | cut | finishing => exact hc.elim
    | _ => exact hall

theorem Reach.audits (h : Reach r ph s) : ph.Audits r s := by
  refine Reach.invariant (M := fun ph s => ph.Audits r s) ?start ?move ?cell ?collect h
  case start => exact fun _ => List.not_mem_nil
  case move =>
    intro ph s ph' t h ih hm
    exact ih.move h hm
  case cell =>
    intro s t c _ ih _ hst
    have hnone := hst.forall_history (P := fun o => ∀ tools, o ≠ .audited tools)
      (fun o ho tools he => ih tools (he ▸ ho)) fun o ha tools he => by
        rw [he] at ha
        exact ha
    exact fun tools ht => hnone _ ht tools rfl
  case collect =>
    intro s result c _ ih _ _ tools ht
    rw [St.collected_history] at ht
    rcases List.mem_append.mp ht with ht | ht
    · exact ih tools ht
    · cases List.mem_singleton.mp ht

end

/-! ## Every run -/

/-- **Audit.** In every run, fresh or resumed, that keeps the names of executed
tools, counts no cell that ended in a `CancelledError`, and takes over no cell
with executed tools, the list given to the hard gates has every tool executed
in any attempt for a counted cell; a forbidden one among them fails the gate. -/
theorem audit_names_executed (co : Company) (launch : Launch) (shared : Shared)
    (inputs : List (Input Exc)) (hsource : RunLog launch.source)
    (hkeep : KeepsNames (co.run launch shared inputs).state.history)
    (hdone : Avoids Obs.takenForDone (co.run launch shared inputs).state)
    (hunspent : ∀ x ∈ (launch.inherit shared).executed, x.1 ∉ co.initiallyCompleted launch) :
    ∀ tools, .audited tools ∈ (co.run launch shared inputs).state.history →
      ∀ id ∈ (co.run launch shared inputs).state.completedIds,
        ∀ t ∈ (co.run launch shared inputs).state.shared.executedFor id,
          t ∈ tools ∧ ∀ gate i digest criterion forbidden,
            criterion.spec = .policy "forbidden_tools" forbidden → t ∈ forbidden →
            (checkCriterion gate criterion i digest tools).passed = false := by
  intro tools hmem id hid t ht
  cases hr : co.setting? launch shared with
  | none =>
    rw [Company.run_rejected hr] at hmem
    cases hmem
  | some r =>
    obtain ⟨ph, h⟩ := (Company.run_reach hr inputs).1
    obtain ⟨hjob, -, -, hsh⟩ := setting_job hr
    obtain ⟨rfl, hcounted⟩ := h.audits.all tools hmem
    have hun : r.Unspent := by
      unfold Setting.Unspent
      unfold Company.initiallyCompleted at hunspent
      rw [hjob] at hunspent
      exact hsh ▸ hunspent
    have hin := h.accounted (h.distinct (launched hr hsource) hcounted) hun hkeep hdone id hid ht
    refine ⟨hin, fun gate i digest criterion forbidden hspec hforbidden => ?_⟩
    unfold checkCriterion
    rw [hspec]
    dsimp only
    rw [Bool.eq_false_iff]
    exact fun hpassed => (checkPolicy_passed _ _ _).mp hpassed t hin hforbidden

/-- The conversation of the observation names what was executed. -/
def Obs.keepsNames : Obs → Bool
  | .rewrote _ executed named => executed.all (· ∈ named)
  | _ => true

instance (history : List Obs) : Decidable (KeepsNames history) :=
  decidable_of_iff (∀ o ∈ history, o.keepsNames = true) (by
    refine forall_congr' fun o => imp_congr_right fun _ => ?_
    cases o with
    | rewrote id executed named =>
      simp only [Obs.keepsNames, List.all_eq_true, decide_eq_true_eq, Obs.rewrote.injEq]
      exact ⟨fun h _ _ _ he => he.2.1 ▸ he.2.2 ▸ h, fun h => h id executed named ⟨rfl, rfl, rfl⟩⟩
    | _ => simp [Obs.keepsNames])

theorem audit_names_executed_forbidden :
    ∃ tools, .audited tools ∈ forbiddenRun.state.history ∧ "t" ∈ tools ∧
      (checkCriterion (fun _ _ _ => { passed := true }) forbidsTool 0 "" tools).passed = false := by
  have haudit : forbiddenRun.state.history.any (fun | .audited _ => true | _ => false) = true := by
    decide +kernel
  obtain ⟨o, ho, hsome⟩ := List.any_eq_true.mp haudit
  split at hsome
  · rename_i tools
    obtain ⟨hin, hgate⟩ := audit_names_executed (soleCompany [forbidsTool] [calls "t", answers])
      (.fresh plainRequest) {} (throughCell (List.replicate 14 .resume)) .none (by decide +kernel)
      (by decide +kernel) (by decide) tools ho "c" (by decide +kernel) "t" (by decide +kernel)
    exact ⟨tools, ho, hin, hgate _ _ _ forbidsTool ["t"] rfl (by decide)⟩
  · cases hsome

/-- The hard gates were given no tool at all. -/
def Obs.auditsNothing : Obs → Bool
  | .audited [] => true
  | _ => false

/-- The run fails for its forbidden tool. Its only cell has completed, so its
resume executes nothing, audits nothing and is VERIFIED. -/
theorem resume_forgets_tools :
    ¬ ∀ (co : Company) (launch : Launch) (shared : Shared) (inputs : List (Input Exc))
        (co' : Company) (inputs' : List (Input Exc)),
      RunLog launch.source →
      let source := (co.run launch shared inputs).state
      let s := (co'.run (.resume source.log) source.shared inputs').state
      ∀ tools, .audited tools ∈ s.history → ∀ id ∈ s.completedIds,
        ∀ t ∈ s.shared.executedFor id, t ∈ tools := by
  intro h
  let co := soleCompany [forbidsTool] [calls "t", answers]
  let inputs' : List (Input Exc) := List.replicate 30 (.wake .resume)
  have hrun := h co (.fresh plainRequest) {} (throughCell (List.replicate 14 .resume)) co inputs'
    .none
  let s := (co.run (.resume forbiddenRun.state.log) forbiddenRun.state.shared inputs').state
  have haudit : s.history.any Obs.auditsNothing = true := by decide +kernel
  obtain ⟨o, ho, hnil⟩ := List.any_eq_true.mp haudit
  unfold Obs.auditsNothing at hnil
  split at hnil
  · exact absurd (hrun [] ho "c" (by decide +kernel) "t" (by decide +kernel)) List.not_mem_nil
  · cases hnil

end Northstack
