import Northstack.Application.Accounting

/-!
# What the cells report of themselves

A cell takes the run's usage when it is entered and reports the difference when
it completes (`usage_before`, cell_runner.py:279, 443-463). The usage is one
record that all cells of a wave share, so the difference has what its siblings
were charged in between.

**Results.**
* `figures_add_up`: if no cell is charged while another one runs, every figure is
  the sum of the cell's own attempts, and if every open cell has completed, the
  figures add up to what the run used.
* `siblings_counted_twice`: two read-only cells, side by side, of which the
  later reports both.
-/
namespace Northstack

open Coop Trace

/-- The cell has reported the usage. -/
def Reports (id : String) (usage : Spend) (h : List Obs) : Prop :=
  ∃ o ∈ h, o.figure? = some (id, usage)

/-- The cells that were entered and have not reported. -/
def running (h : List Obs) : List String :=
  (h.filterMap Obs.enters?).filter fun id => ∀ o ∈ h, o.cell? = some id → o.figure? = none

/-- Nobody else runs while a cell is charged. -/
def Undisturbed (h : List Obs) (o : Obs) : Prop :=
  o.charge ≠ 0 → ∀ id ∈ running h, o.cell? = some id

instance (h : List Obs) (o : Obs) : Decidable (Undisturbed h o) :=
  inferInstanceAs (Decidable (_ → _))

/-- No cell is charged while another one runs. -/
def ChargedAlone (h : List Obs) : Prop := Legal Undisturbed h

instance (h : List Obs) : Decidable (ChargedAlone h) := inferInstanceAs (Decidable (Legal _ _))

instance (id : String) (usage : Spend) (h : List Obs) : Decidable (Reports id usage h) :=
  inferInstanceAs (Decidable (∃ _ ∈ h, _))

/-- The figure of a cell that was not counted from the start. -/
def Job.reported (job : Job) (o : Obs) : Expense :=
  match o.figure? with
  | some (id, usage) => if id ∈ job.initiallyCompleted then 0 else usage.expense
  | none => 0

section

variable {r : Setting} {h pre post mid : List Obs} {o : Obs} {id : String} {usage : Spend}

theorem mem_running : id ∈ running h ↔ Live id (account id h) := by
  have hent : id ∈ h.filterMap Obs.enters? ↔ .entered id ∈ account id h := by
    rw [List.mem_filterMap, mem_account]
    constructor
    · rintro ⟨o, ho, he⟩
      cases o with
      | entered i =>
        cases he
        exact ⟨ho, rfl⟩
      | _ => cases he
    · exact fun ho => ⟨_, ho.1, rfl⟩
  unfold running Live
  simp only [List.mem_filter, hent, decide_eq_true_eq, mem_account, and_imp]

/-- A figure concerns its cell. -/
theorem Obs.cell?_of_figure (ho : o.figure? = some (id, usage)) : o.cell? = some id := by
  cases o with
  | appended p current terminal c =>
    have hp : p.figure? = some (id, usage) := ho
    simp only [Obs.cell?, hp, Option.map_some]
  | _ => cases ho

/-- A cell that has reported is not running. -/
theorem not_live_of_figure (ho : o.figure? = some (id, usage)) (hm : o ∈ h) :
    ¬ Live id (account id h) := by
  intro hlive
  have hnone := hlive.2 o (mem_account.mpr ⟨hm, Obs.cell?_of_figure ho⟩)
  rw [hnone] at ho
  cases ho

/-- An open cell is running when it reports, and reports what was charged since
it was entered. -/
theorem Setting.Allows.figure (ha : r.Allows h o) (ho : o.figure? = some (id, usage))
    (hi : id ∉ r.job.initiallyCompleted) :
    id ∈ r.ids ∧ Live id (account id h) ∧ Figure id h usage := by
  cases ha with
  | own _ _ hf => exact absurd (hf _ ho) hi
  | @cell c hc hd _ ha =>
    cases o with
    | appended p current terminal e =>
      obtain ⟨hp, hfig, -⟩ := ha
      obtain ⟨hlive, hf⟩ := hfig hd _ ho
      cases p with
      | cellCompleted i ref u =>
        cases ho
        cases hp
        exact ⟨List.mem_map_of_mem hc, hlive, hf⟩
      | _ => cases ho
    | _ => cases ho

/-- What is charged is charged to an open cell that is running. -/
theorem Setting.Allows.charge (ha : r.Allows h o) (ho : o.charge ≠ 0) :
    ∃ id ∈ r.ids, id ∉ r.job.initiallyCompleted ∧ o.cell? = some id ∧ Live id (account id h) := by
  cases o with
  | charged id n spend =>
    cases ha with
    | own _ ha _ => cases ha
    | @cell c hc hd hi ha =>
      obtain ⟨rfl, hrun⟩ := ha
      exact ⟨c.id, List.mem_map_of_mem hc, hi, rfl, (hrun hd).1⟩
  | _ => exact absurd rfl ho

/-- A cell that has reported is charged no more. -/
theorem legal_charges_after (hl : Legal r.Allows (pre ++ o :: post))
    (ho : o.figure? = some (id, usage)) : total (ofCell Obs.charge id) post = 0 := by
  refine total_zero fun x hx => ?_
  by_contra hne
  have hid : x.cell? = some id := by
    by_contra hid
    exact hne (if_neg hid)
  rw [show ofCell Obs.charge id x = x.charge from if_pos hid] at hne
  obtain ⟨a, b, rfl⟩ := List.append_of_mem hx
  rw [← List.cons_append, ← List.append_assoc] at hl
  obtain ⟨id', -, -, hid', hlive⟩ := hl.split.charge hne
  obtain rfl := Option.some.inj (hid.symm.trans hid')
  exact not_live_of_figure ho (List.mem_append_right _ List.mem_cons_self) hlive

/-- A cell reports once. -/
theorem legal_reported_after (hl : Legal r.Allows (pre ++ o :: post))
    (ho : o.figure? = some (id, usage)) : total (ofCell r.job.reported id) post = 0 := by
  refine total_zero fun x hx => ?_
  unfold ofCell Job.reported
  split
  · rename_i hid
    split
    · rename_i id' usage' hx'
      obtain rfl := Option.some.inj (hid.symm.trans (Obs.cell?_of_figure hx'))
      split
      · rfl
      · rename_i hi
        obtain ⟨a, b, rfl⟩ := List.append_of_mem hx
        rw [← List.cons_append, ← List.append_assoc] at hl
        exact absurd (hl.split.figure hx' hi).2.1
          (not_live_of_figure ho (List.mem_append_right _ List.mem_cons_self))
    · rfl
  · rfl

/-- In a stretch behind its entry in which a cell runs, only the cell is
charged. -/
theorem chargedAlone_mid (ha : ChargedAlone (pre ++ mid ++ post)) (he : .entered id ∈ pre)
    (hlive : ∀ x ∈ account id (pre ++ mid), x.figure? = none) :
    total Obs.charge mid = total (ofCell Obs.charge id) mid := by
  refine total_congr fun x hx => ?_
  unfold ofCell
  split
  · rfl
  · rename_i hid
    by_contra hne
    obtain ⟨a, b, rfl⟩ := List.append_of_mem hx
    have ha : Legal Undisturbed ((pre ++ a) ++ x :: (b ++ post)) := by simpa [ChargedAlone] using ha
    refine hid (ha.split hne id (mem_running.mpr ⟨?_, fun y hy => ?_⟩))
    · exact mem_account.mpr ⟨List.mem_append_left _ he, rfl⟩
    · refine hlive y ?_
      rw [← List.append_assoc, account_append]
      exact List.mem_append_left _ hy

/-- A figure is the sum of its cell's own attempts. -/
theorem legal_figure (hl : Legal r.Allows h) (ha : ChargedAlone h)
    (hi : id ∉ r.job.initiallyCompleted) (hrep : Reports id usage h) :
    usage.expense = total (ofCell Obs.charge id) h ∧
      usage.expense = total (ofCell r.job.reported id) h := by
  obtain ⟨o, hmem, ho⟩ := hrep
  obtain ⟨pre, post, rfl⟩ := List.append_of_mem hmem
  obtain ⟨-, hlive, p, mid, q, rfl, hent, hp, hq, husage⟩ := hl.split.figure ho hi
  have hcharge : ofCell Obs.charge id o = 0 := by
    cases o with
    | charged => cases ho
    | _ => exact ite_self _
  have halone : ChargedAlone (p ++ mid ++ (q ++ o :: post)) := by simpa using ha
  have hown := chargedAlone_mid halone hent fun x hx =>
    hlive.2 x (by rw [account_append]; exact List.mem_append_left _ hx)
  have hbefore : total (ofCell r.job.reported id) (p ++ mid ++ q) = 0 := by
    rw [← total_account]
    refine total_zero fun x hx => ?_
    unfold ofCell Job.reported
    rw [hlive.2 x hx]
    exact ite_self _
  have hat : ofCell r.job.reported id o = usage.expense := by
    unfold ofCell Job.reported
    rw [if_pos (Obs.cell?_of_figure ho), ho]
    exact if_neg hi
  constructor
  · simp only [total_append, total_cons]
    rw [hp, hq, hcharge, legal_charges_after hl ho, zero_add, add_zero, add_zero, add_zero, ← hown]
    exact husage
  · rw [total_append, total_cons, hbefore, hat, legal_reported_after hl ho, zero_add, add_zero]

/-- The figures add up to what was charged. -/
theorem legal_figures (hl : Legal r.Allows h) (ha : ChargedAlone h)
    (hall : ∀ id ∈ r.ids, id ∉ r.job.initiallyCompleted → ∃ usage, Reports id usage h) :
    total r.job.reported h = total Obs.charge h := by
  let ks := (r.ids.filter (· ∉ r.job.initiallyCompleted)).dedup
  have hks : ∀ {id}, id ∈ ks ↔ id ∈ r.ids ∧ id ∉ r.job.initiallyCompleted := by
    simp [ks]
  have hreported : ∀ o ∈ h, r.job.reported o ≠ 0 → ∃ id ∈ ks, o.cell? = some id := by
    intro o hmem hne
    unfold Job.reported at hne
    split at hne
    · rename_i id usage ho
      have hi : id ∉ r.job.initiallyCompleted := fun hi => hne (if_pos hi)
      obtain ⟨pre, post, rfl⟩ := List.append_of_mem hmem
      exact ⟨id, hks.mpr ⟨(hl.split.figure ho hi).1, hi⟩, Obs.cell?_of_figure ho⟩
    · exact absurd rfl hne
  have hcharged : ∀ o ∈ h, o.charge ≠ 0 → ∃ id ∈ ks, o.cell? = some id := by
    intro o hmem hne
    obtain ⟨pre, post, rfl⟩ := List.append_of_mem hmem
    obtain ⟨id, hid, hi, ho, -⟩ := hl.split.charge hne
    exact ⟨id, hks.mpr ⟨hid, hi⟩, ho⟩
  have hnodup : ks.Nodup := List.nodup_dedup _
  rw [← total_by_key hnodup hreported, ← total_by_key hnodup hcharged]
  refine congrArg List.sum (List.map_congr_left fun id hid => ?_)
  obtain ⟨hid, hi⟩ := hks.mp hid
  obtain ⟨usage, hrep⟩ := hall id hid hi
  have hfig := legal_figure hl ha hi hrep
  exact hfig.2.symm.trans hfig.1

end

/-- **Figures.** Take any state of any run in which no cell was charged while
another was running. What an open cell has reported is the sum of its own
attempts, and if all of them have reported, the figures add up to what the run
has used on top of the carried usage. -/
theorem figures_add_up (co : Company) (launch : Launch) (shared : Shared)
    (inputs : List (Input Exc)) (hapart : co.Apart launch)
    (halone : ChargedAlone (co.run launch shared inputs).state.history) :
    ∀ job ∈ co.job? launch,
      (∀ c ∈ job.graph.cells, c.id ∉ job.initiallyCompleted → ∀ usage,
        Reports c.id usage (co.run launch shared inputs).state.history →
          usage.expense =
            total (ofCell Obs.charge c.id) (co.run launch shared inputs).state.history) ∧
      ((∀ c ∈ job.graph.cells, c.id ∉ job.initiallyCompleted →
          ∃ usage, Reports c.id usage (co.run launch shared inputs).state.history) →
        (co.run launch shared inputs).state.usage.expense = job.usage.expense +
          total job.reported (co.run launch shared inputs).state.history) := by
  intro job hjob
  have hr : co.setting? launch shared = some _ := Option.map_eq_some_iff.mpr ⟨job, hjob, rfl⟩
  obtain ⟨ph, h⟩ := (Company.run_reach hr inputs).1
  have hl := h.legal (setting_backs hr) (setting_distinct hr hapart)
  refine ⟨fun c _ hi usage hrep => (legal_figure hl halone hi hrep).1, fun hall => ?_⟩
  rw [h.accrued, ← legal_figures hl halone fun id hid hi => ?_]
  obtain ⟨c, hc, rfl⟩ := List.mem_map.mp hid
  exact hall c hc hi

theorem figures_add_up_tried :
    (triedRun [answers]).ended = true ∧
      (triedRun [answers]).state.usage.expense =
        0 + total ((triedAgain [answers]).freshJob plainRequest).reported
          (triedRun [answers]).state.history := by
  refine ⟨by decide +kernel, ?_⟩
  refine (figures_add_up (triedAgain [answers]) (.fresh plainRequest) {}
    (throughCell (List.replicate 40 .resume)) nofun (by decide +kernel) _ rfl).2 fun c hc _ => ?_
  rw [List.mem_singleton.mp hc]
  exact ⟨{ inputTokens := 3, calls := 3 }, by decide +kernel⟩

/-- Two read-only cells of one wave. -/
def pairCompany : Company :=
  { soleCompany [forbidsTool]
      [{ reply := .response { text := "done", usage := { inputTokens := 3 } } }] with
    planner := fun contract =>
      let contract := { contract with
        budget := { tokenLimit := some 9, costLimitUsd := some 1 } }
      .inl
        { cells :=
            [{ id := "a", contract := contract, acceptanceCriterionIndices := [0] },
             { id := "b", contract := contract, acceptanceCriterionIndices := [0] }] } }

/-- Its run, in which the cells take turns. -/
def pairRun : Out St Exc RunOutcome :=
  pairCompany.run (.fresh plainRequest) {} (List.replicate 16 (.wake .resume) ++ .flag false ::
    (List.replicate 8 [.child 0 .resume, .child 1 .resume]).flatten ++
      List.replicate 8 (.wake .resume))

/-- Both cells complete, and each reports what both were charged. -/
theorem siblings_counted_twice :
    ¬ ∀ (co : Company) (launch : Launch) (shared : Shared) (inputs : List (Input Exc)),
      co.Apart launch → ∀ job ∈ co.job? launch,
        (∀ c ∈ job.graph.cells, c.id ∉ job.initiallyCompleted →
          ∃ usage, Reports c.id usage (co.run launch shared inputs).state.history) →
        (co.run launch shared inputs).state.usage.expense = job.usage.expense +
          total job.reported (co.run launch shared inputs).state.history := by
  intro h
  have hreports : ∀ c ∈ (pairCompany.freshJob plainRequest).graph.cells,
      Reports c.id { inputTokens := 6, calls := 2 } pairRun.state.history := by decide +kernel
  have hsum := h pairCompany (.fresh plainRequest) {} _ nofun _ rfl fun c hc _ =>
    ⟨_, hreports c hc⟩
  revert hsum
  decide +kernel

end Northstack
