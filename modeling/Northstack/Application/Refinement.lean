import Northstack.Application.Lifecycle

/-!
# The code makes the moves of the life cycle

Every state in which `run_async` or `resume_async` awaits, returns or raises is
a state `Reach` describes, over all inputs. `Tracks` is the triple the proof is
made of: a return meets its postcondition, an exception leaves the run
`failing`, and every suspension is in some phase.

**Result.** `run_reach`: every state of a run is reachable in the life cycle,
and a run that has returned or raised is at one of its ends.
-/
namespace Northstack

open Coop Relation

/-! ## The triple -/

/-- From `s` the body only makes moves of the life cycle. -/
abbrev Tracks (r : Setting) {α : Type} (m : RunTask α) (Q : α → St → Prop) (s : St) : Prop :=
  Main.Steady (Reach r .failing) (fun t => ∃ ph, Reach r ph t) m Q s

section Triple

variable {r : Setting} {α β : Type} {s : St} {ph : Phase}

/-- An exception at an await of an open phase. -/
theorem tracks_throw {e : Exc} {Q : α → St → Prop} (h : Reach r ph s) (ho : ph.Open) :
    Tracks r (throw e) Q s :=
  Main.wp_throw (h.interrupted ho)

theorem tracks_await {g : Wake Exc → RunTask α} {Q : α → St → Prop} (h : Reach r ph s)
    (hg : ∀ w, Tracks r (g w) Q s) : Tracks r (Main.await >>= g) Q s :=
  Main.wp_bind (Main.wp_await ⟨ph, h⟩ hg)

theorem tracks_suspend {Q : Unit → St → Prop} (h : Reach r ph s) (ho : ph.Open)
    (hQ : Q () s) : Tracks r Main.suspend Q s :=
  Main.wp_suspend ⟨ph, h⟩ hQ fun _ => h.interrupted ho

/-- A quiet row in an open phase. -/
theorem tracks_row {p : EventPayload} {Q : Unit → St → Prop} (h : Reach r ph s) (ho : ph.Open)
    (hq : r.Quiet ph s p) (hQ : Q () (s.append false p)) : Tracks r (emit p) Q s :=
  wp_emit ⟨ph, h⟩ hQ (fun _ => h.rowCancelled ho hq) fun _ => h.refused p ho.active

theorem tracks_consult {spends : List Spend} {Q : Unit → St → Prop} (h : Reach r ph s)
    (ho : ph.Open) (hQ : Q () (s.note (.consulted spends))) : Tracks r (consult spends) Q s :=
  wp_consult ⟨ph, h⟩ hQ fun _ => (h.consulted spends ho).interrupted ho

end Triple

namespace Company

variable {co : Company} {r : Setting} {s : St}

/-! ## Rows -/

theorem quiet_evidence (ph : Phase) (verdict : Verdict) (hard : List HardCheckResult)
    (soft : SoftReview) (usage : BudgetUsage) (tools : List String) :
    r.Quiet ph s (evidencePayload verdict hard soft usage tools) where
  status := rfl
  outcome := rfl
  usage u hu := by cases hu
  dry := nofun
  emits := .plain rfl

theorem quiet_budget (ph : Phase) (hs : ph.Spent) {exhausted : Bool}
    (he : exhausted = true → s.auth.exhausted = true) :
    r.Quiet ph s (.budgetUpdated s.usage exhausted) where
  status := rfl
  outcome := rfl
  usage u hu := by
    cases hu
    exact ⟨rfl, hs⟩
  dry := he
  emits := .plain rfl

/-- A row that no phase restricts. -/
def Plain : EventPayload → Prop
  | .statusChanged _ | .outcomeEmitted _ _ | .budgetUpdated _ _ => False
  | _ => True

theorem quiet_emits {ph : Phase} {p : EventPayload} (h : Plain p) (he : r.Emits p) :
    r.Quiet ph s p := by
  cases p <;> first | exact h.elim | exact ⟨rfl, rfl, (fun u hu => by cases hu), nofun, he⟩

theorem quiet_plain {ph : Phase} {p : EventPayload} (h : Plain p) (hc : p.carried = false) :
    r.Quiet ph s p :=
  quiet_emits h (.plain hc)

/-! ## Recording the outcome -/

theorem emitTerminalOutcome_tracks {ph : Phase} {o : RunOutcome} {path : List RunStatus}
    {reason : String} (h : Reach r ph s) (ha : ph.Active) (ho : r.Settles s o path ph)
    (hb : s.Overspent r.job.contract o reason) :
    Tracks r (emitTerminalOutcome o reason)
      (fun _ t => Reach r (.settled o path) t ∧ t.currentStatus = s.currentStatus) s := by
  refine Main.wp_bind (wp_appendShielded ⟨ph, h⟩ ?_ ?_)
  · intro c
    refine Main.wp_bind (Main.wp_modify ?_)
    cases c with
    | none => exact Main.wp_pure ⟨h.settle reason ho hb, rfl⟩
    | some e => exact Main.wp_throw (h.settleCancelled reason ho hb)
  · exact fun e c _ => Main.wp_throw (h.refused _ ha)

/-- One status of the walk to the outcome's. -/
theorem emitStatus_tracks {o : RunOutcome} {t current : RunStatus} {path : List RunStatus}
    (h : Reach r (.settled o (t :: path)) s) (hc : current.canTransition t = true) :
    Tracks r (emitStatus t current) (fun _ u => u = s.append false (.statusChanged t)) s := by
  unfold emitStatus
  rw [if_pos hc]
  exact wp_emit ⟨_, h⟩ rfl (fun _ => h.statusCancelled) fun _ => h.refused _ (List.cons_ne_nil _ _)

theorem advanceAll_tracks {o : RunOutcome} (path : List RunStatus) :
    ∀ {s : St}, Reach r (.settled o path) s → RunStatus.legalFrom s.currentStatus path = true →
    Tracks r (advanceAll path) (fun _ t => Reach r (.settled o []) t) s := by
  induction path with
  | nil => exact fun h _ => Main.steady_pure h
  | cons t path ih =>
    intro s h hl
    rw [RunStatus.legalFrom, Bool.and_eq_true] at hl
    unfold advanceAll advance
    refine Main.Steady.seq (P := fun _ u => u = s.advance t t)
      (Main.steady_get ((emitStatus_tracks h hl.1).seq fun _ u hu => ?_)) ?_
    · exact Main.wp_modify (by rw [hu]; rfl)
    · rintro _ u rfl
      exact ih (h.status t (.inl rfl)) hl.2

theorem route_isSome {o : RunOutcome} (ho : o ≠ .verified) :
    ∃ path, RunStatus.executing.route o.toStatus = some path := by
  cases o with
  | verified => exact absurd rfl ho
  | abstained => exact ⟨_, rfl⟩
  | failed => exact ⟨_, rfl⟩

theorem shortCircuit_tracks {o : RunOutcome} (h : Reach r (.cut o) s) (ho : o ≠ .verified) :
    Tracks r (shortCircuit o) (fun o t => Reach r (.settled o []) t) s := by
  obtain ⟨path, hpath⟩ := route_isSome ho
  unfold shortCircuit
  refine Main.steady_get (Main.Steady.seq (tracks_row h trivial (quiet_evidence _ _ _ _ _ _)
    (Q := fun _ t => Reach r (.cut o) t) (h.row trivial (quiet_evidence _ _ _ _ _ _)))
    fun _ t ht => ?_)
  refine (emitTerminalOutcome_tracks ht trivial ⟨rfl, hpath⟩ fun _ hr => ?_).seq
    fun _ u hu => Main.steady_get ?_
  · exact absurd hr (by decide)
  have hlocal : u.currentStatus = .executing := hu.2.trans ht.local
  rw [hlocal, hpath]
  refine (advanceAll_tracks path hu.1 ?_).seq fun _ v hv => Main.steady_pure hv
  rw [hlocal]
  exact (RunStatus.route_legal hpath).1

/-! ## Verification -/

theorem checkGate_tracks (evidence : List (Int × String)) (toolsUsed : List String) (i : Nat)
    (c : AcceptanceCriterion) (h : Reach r .verifying s) :
    Tracks r (checkGate co evidence toolsUsed i c) (fun _ t => t = s) s := by
  refine tracks_await h fun w => ?_
  cases w with
  | resume => exact Main.steady_pure rfl
  | raise e =>
    cases e with
    | cancelled note => exact tracks_throw h trivial
    | exception kind message => exact Main.steady_pure rfl

theorem verifyGates_tracks (evidence : List (Int × String)) (toolsUsed : List String)
    (criteria : List AcceptanceCriterion) (h : Reach r .verifying s) :
    ∀ i, Tracks r (verifyGates co evidence toolsUsed i criteria) (fun _ t => t = s) s := by
  induction criteria with
  | nil => exact fun i => Main.steady_pure rfl
  | cons c cs ih =>
    intro i
    refine (checkGate_tracks evidence toolsUsed i c h).seq fun _ t ht => ?_
    rw [ht]
    exact (ih (i + 1)).seq fun _ u hu => Main.steady_pure hu

theorem resolveEvidence_tracks (digests : List (Int × String)) (h : Reach r .verifying s) :
    Tracks r (resolveEvidenceContents co digests) (fun _ t => t = s) s := by
  induction digests with
  | nil => exact Main.steady_pure rfl
  | cons d ds ih =>
    unfold resolveEvidenceContents
    refine (tracks_suspend h trivial rfl (Q := fun _ t => t = s)).seq fun _ t ht => ?_
    rw [ht]
    exact ih.seq fun _ u hu => Main.steady_pure hu

theorem review_tracks (reply : Nat → String → Option String) (behind i : Nat) (content : String)
    (h : Reach r .verifying s) :
    Tracks r (review co reply behind i content) (fun v t => Reach r .verifying t ∧
      (s.history <+: t.history ∧ t.usage = s.usage) ∧
      (v.passed = true → reviewReply co.validateVerdict (reply i content) = .ok v)) s := by
  unfold review
  refine tracks_await h fun w => Main.steady_modify ?_
  have hc : Reach r .verifying (s.note (.consulted (co.reviewSpends i behind))) :=
    h.consulted _ trivial
  have hp : s.history <+: (s.note (.consulted (co.reviewSpends i behind))).history ∧
      (s.note (.consulted (co.reviewSpends i behind))).usage = s.usage :=
    ⟨List.prefix_append _ _, rfl⟩
  cases w with
  | resume =>
    dsimp only
    split
    · rename_i v hv
      exact Main.steady_pure ⟨hc, hp, fun _ => hv⟩
    · exact tracks_throw hc trivial
  | raise e =>
    cases e with
    | cancelled note => exact tracks_throw hc trivial
    | exception kind message =>
      refine Main.steady_pure ⟨hc, hp, ?_⟩
      intro hp
      cases hp

theorem reviewPanel_tracks (i : Nat) (content : String)
    (replies : List (Nat → String → Option String)) :
    ∀ {s : St}, Reach r .verifying s →
    Tracks r (reviewPanel co i content replies) (fun vs t => Reach r .verifying t ∧
      (s.history <+: t.history ∧ t.usage = s.usage) ∧ List.Forall₂ (fun reply v => v.passed = true →
        reviewReply co.validateVerdict (reply i content) = .ok v) replies vs) s := by
  induction replies with
  | nil => exact fun h => Main.steady_pure ⟨h, ⟨List.prefix_rfl, rfl⟩, .nil⟩
  | cons reply replies ih =>
    intro s h
    unfold reviewPanel
    refine (review_tracks reply replies.length i content h).seq fun v t ht => ?_
    exact (ih ht.1).seq fun vs u hu =>
      Main.steady_pure ⟨hu.1, ⟨ht.2.1.1.trans hu.2.1.1, hu.2.1.2.trans ht.2.1.2⟩,
        .cons ht.2.2 hu.2.2⟩

/-- Without disagreement every soft criterion was judged and accepted. -/
theorem checkSoft_tracks (contents : List (Int × String)) (is : List Nat) :
    ∀ {s : St}, Reach r .verifying s →
    Tracks r (checkSoft r.co contents is) (fun res t => Reach r .verifying t ∧
      (s.history <+: t.history ∧ t.usage = s.usage) ∧ (res.2 = false → ∀ i ∈ is, ∃ content verdicts,
        r.Judged i content verdicts ∧ Obs.reviewed i verdicts ∈ t.history ∧
          accepted r.co.calibration r.co.replies.length i verdicts = true)) s := by
  induction is with
  | nil => exact fun h => Main.steady_pure ⟨h, ⟨List.prefix_rfl, rfl⟩, by simp⟩
  | cons i is ih =>
    intro s h
    unfold checkSoft
    refine (reviewPanel_tracks i _ r.co.replies h).seq fun verdicts t ht => ?_
    obtain ⟨ht, ⟨hst, hut⟩, hj⟩ := ht
    refine Main.steady_modify ((ih (ht.review i verdicts)).seq fun res u hu => ?_)
    obtain ⟨hr, ⟨hpre, huu⟩, hall⟩ := hu
    refine Main.steady_pure ⟨hr, ⟨(hst.trans (List.prefix_append _ _)).trans hpre,
      huu.trans hut⟩, ?_⟩
    intro hd j hj'
    rw [Bool.or_eq_false_iff, Bool.not_eq_false'] at hd
    rcases List.mem_cons.mp hj' with rfl | hj'
    · exact ⟨_, verdicts, hj, hpre.subset (by simp [St.note]), hd.1⟩
    · exact hall hd.2 j hj'

theorem softCheck_tracks (contract : WorkContract) (contents : List (Int × String))
    (h : Reach r .verifying s) :
    Tracks r (softCheck r.co contract contents) (fun res t => Reach r .verifying t ∧
      t.usage = s.usage ∧ (res.2 = false → ∀ i, ReleaseLaw.SoftAt contract i →
        minBlindedReviewers ≤ r.co.replies.length ∧ ∃ content verdicts,
          r.Judged i content verdicts ∧ Obs.reviewed i verdicts ∈ t.history ∧
            accepted r.co.calibration r.co.replies.length i verdicts = true)) s := by
  unfold softCheck
  dsimp only
  split
  · refine Main.steady_pure ⟨h, rfl, ?_⟩
    intro hn i hi
    have hmem := (ReleaseLaw.mem_softIndices_zero contract i).mpr hi
    have hnil : ReleaseLaw.softIndices 0 contract.acceptanceCriteria = [] := by simpa using hn
    rw [hnil] at hmem
    cases hmem
  · rename_i hlt
    refine (checkSoft_tracks contents _ h).mono fun res t ht => ⟨ht.1, ht.2.1.2, ?_⟩
    intro hd i hi
    exact ⟨Nat.le_of_not_lt hlt,
      ht.2.2 hd i ((ReleaseLaw.mem_softIndices_zero contract i).mpr hi)⟩

/-- The verdict of the verification; VERIFIED rests on the panel, ABSTAINED for
the budget on the usage. -/
theorem verify_tracks (h : Reach r .finishing s) :
    Tracks r (verify r.co r.job.contract) (fun v t => Reach r .verifying t ∧
      (v.1.outcome = .verified → r.Releasable t) ∧
      t.Overspent r.job.contract v.1.outcome v.1.reason) s := by
  unfold verify
  have hq : r.Quiet .finishing s (.budgetUpdated s.usage false) :=
    quiet_budget .finishing trivial nofun
  refine Main.steady_get (Main.Steady.seq (tracks_row h trivial hq
    (Q := fun _ t => t = s.append false (.budgetUpdated s.usage false)) rfl) fun _ t ht => ?_)
  have h1 : Reach r .finishing t := ht ▸ h.row trivial hq
  have htools : t.toolsUsed = s.toolsUsed := by rw [ht]; rfl
  have hstatus : s.currentStatus.canTransition .verifying = true := by rw [h.local]; rfl
  refine Main.Steady.seq (P := fun _ u => u = t.append false (.statusChanged .verifying)) ?_
    fun _ u hu => ?_
  · unfold emitStatus
    rw [if_pos hstatus]
    exact wp_emit ⟨_, h1⟩ rfl (fun _ => h1.verifyCancelled) fun _ => h1.refused _ trivial
  have h2 : Reach r .verifying u := hu ▸ h1.verify
  have htools2 : s.toolsUsed = u.toolsUsed := by rw [hu]; exact htools.symm
  rw [htools2]
  refine Main.steady_modify ?_
  refine (verifyGates_tracks _ _ _ h2.audit 0).seq fun hard v hv => ?_
  rw [hv]
  refine (resolveEvidence_tracks _ h2.audit).seq fun contents w hw => ?_
  rw [hw]
  refine (softCheck_tracks _ contents h2.audit).seq fun res x hx =>
    Main.steady_pure ⟨hx.1, ?_, fun ho hr => ?_⟩
  · intro hver i c hc hk
    obtain ⟨soft, hsoft, hd, -⟩ := 
      ReleaseLaw.softAccepted_of_verified u.toolsUsed hver ⟨i, c, hc, hk⟩
    cases hsoft
    obtain ⟨hpanel, content, verdicts, hj, hmem, hacc⟩ := hx.2.2 hd i ⟨c, hc, hk⟩
    exact ⟨hpanel, content, verdicts, hj, hmem, calibrated_of_accepted hacc⟩
  · have husage : x.usage = s.usage := by
      rw [hx.2.1]
      show u.usage = s.usage
      rw [hu, ht]
      rfl
    rw [husage]
    exact ReleaseLaw.exceeds_of_budgetReason u.toolsUsed ho hr

theorem verifyAndFinish_tracks (h : Reach r .finishing s) :
    Tracks r (verifyAndFinish r.co r.job.contract)
      (fun o t => Reach r (.settled o []) t) s := by
  unfold verifyAndFinish
  refine (verify_tracks h).seq fun v t ht => Main.steady_get ?_
  obtain ⟨verdict, hard, soft⟩ := v
  obtain ⟨hv, hrel, hover⟩ := ht
  have hq : r.Quiet .verifying t (evidencePayload verdict hard soft t.usage t.toolsUsed) :=
    quiet_evidence _ _ _ _ _ _
  refine Main.Steady.seq (tracks_row hv trivial hq (Q := fun _ u => Reach r .verifying u ∧
    (verdict.outcome = .verified → r.Releasable u) ∧
      u.Overspent r.job.contract verdict.outcome verdict.reason)
    ⟨hv.row trivial hq, ?_, hover⟩) fun _ u hu => ?_
  · intro ho i c hc hk
    obtain ⟨hp, content, verdicts, hj, hmem, hcal⟩ := hrel ho i c hc hk
    exact ⟨hp, content, verdicts, hj, List.mem_append_left _ hmem, hcal⟩
  have hs : r.Settles _ verdict.outcome [verdict.outcome.toStatus] .verifying := ⟨rfl, hu.2.1⟩
  refine (emitTerminalOutcome_tracks hu.1 trivial hs hu.2.2).seq fun _ w hw => ?_
  have hc : RunStatus.verifying.canTransition verdict.outcome.toStatus = true := by
    cases verdict.outcome <;> rfl
  refine (emitStatus_tracks hw.1 hc).seq fun _ x hx => Main.steady_pure ?_
  rw [hx]
  exact hw.1.status w.currentStatus (.inr rfl)

/-! ## Waves -/

theorem waving_reach {t : St} (h : Reach r .executing s) (hw : Waving r.co r.job s t) :
    Reach r .executing t := by
  induction hw with
  | refl => exact h
  | tail _ hst ih => exact ih.wave hst

theorem stop_reach {o : RunOutcome} {t : St} (h : Reach r .executing s)
    (hs : Stop r.co r.job s o t) : Reach r (.cut o) t := by
  obtain ⟨ho, u, hw, rfl | ⟨rfl, rfl⟩⟩ := hs
  · exact (waving_reach h hw).cut ho
  · exact (waving_reach h hw).exhausted

theorem quiet_last {o : RunOutcome} {t : St} {p : EventPayload} (hp : LastRow t p) :
    r.Quiet (.cut o) t p := by
  rcases hp with ⟨id, rfl⟩ | ⟨rfl, he⟩
  · exact quiet_plain trivial rfl
  · exact quiet_budget (.cut o) trivial fun _ => he

/-- The wave loop is a part of the run's life. -/
theorem executeCells_tracks (n : Nat) (h : Reach r .executing s) (ht : Tidy s) :
    Tracks r (executeCells r.co r.job n)
      (fun o t => match o with
        | some o => Reach r (.cut o) t ∧ o ≠ .verified
        | none => Reach r .finishing t) s := by
  refine (executeCells_waves r.co r.job n .refl ht).weaken ?_ ?_ ?_
  · intro o t hend
    cases o with
    | none => exact (waving_reach h hend.1.1).finish hend.1.2
    | some o =>
      obtain ⟨u, hs, rfl | ⟨p, hp, rfl⟩⟩ := hend.1
      · exact ⟨stop_reach h hs, hs.1⟩
      · exact ⟨(stop_reach h hs).row trivial (quiet_last hp), hs.1⟩
  · rintro t (hw | ⟨u, p, hs, hp, rfl | rfl⟩)
    · exact (waving_reach h hw).interrupted trivial
    · exact (stop_reach h hs).rowCancelled trivial (quiet_last hp)
    · exact (stop_reach h hs).refused p trivial
  · rintro t (hw | hs)
    · exact ⟨_, waving_reach h hw⟩
    · exact ⟨_, stop_reach h hs⟩

/-- From the first wave to the run's result. -/
theorem execute_tracks (h : Reach r .executing s) (hf : Fresh s) :
    Tracks r (execute r.co r.job) (fun o t => Reach r (.settled o []) t) s := by
  unfold execute
  refine (executeCells_tracks _ h hf.tidy).seq fun o t ht => ?_
  cases o with
  | some o => exact shortCircuit_tracks ht.1 ht.2
  | none => exact verifyAndFinish_tracks ht

/-! ## Intake -/

/-- In intake, with the local status at `st` and the rows of `L` recorded. -/
def At (r : Setting) (st : RunStatus) (L : List EventPayload) (s : St) : Prop :=
  Reach r .intake s ∧ s.currentStatus = st ∧ L ⊆ s.log

variable {st : RunStatus} {L : List EventPayload}

theorem At.append {p : EventPayload} {c : Bool} (h : At r st L s)
    (hr : Reach r .intake (s.append c p)) : At r st (p.stored :: L) (s.append c p) := by
  refine ⟨hr, h.2.1, List.cons_subset.mpr ⟨List.mem_append_right _ List.mem_cons_self, ?_⟩⟩
  exact List.Subset.trans h.2.2 (List.subset_append_left _ _)

theorem At.tail {p : EventPayload} (h : At r st (p :: L) s) : At r st L s :=
  ⟨h.1, h.2.1, (List.cons_subset.mp h.2.2).2⟩

theorem emit_tracks {p : EventPayload} (h : At r st L s) (hq : r.Quiet .intake s p) :
    Tracks r (emit p) (fun _ t => At r st (p.stored :: L) t) s :=
  tracks_row h.1 trivial hq (h.append (h.1.row trivial hq))

/-- Several rows; all of them end up in the log. -/
theorem emitAll_tracks (ps : List EventPayload) :
    ∀ {s : St} {L : List EventPayload}, At r st L s → (∀ p ∈ ps, ∀ t, r.Quiet .intake t p) →
    Tracks r (ContractCompiler.emitAll ps)
      (fun _ t => At r st L t ∧ ∀ p ∈ ps, p.stored ∈ t.log) s := by
  induction ps with
  | nil => exact fun h _ => Main.steady_pure ⟨h, by simp⟩
  | cons p ps ih =>
    intro s L h hq
    refine (emit_tracks h (hq p List.mem_cons_self s)).seq fun _ t ht => ?_
    refine (ih ht fun q hq' => hq q (List.mem_cons_of_mem _ hq')).mono fun _ u hu => ?_
    refine ⟨hu.1.tail, fun q hq' => ?_⟩
    rcases List.mem_cons.mp hq' with rfl | hq'
    · exact (List.cons_subset.mp hu.1.2.2).1
    · exact hu.2 q hq'

/-- The local status follows a legal, non-terminal status. -/
theorem advance_tracks {t : RunStatus} (h : At r st L s) (hc : st.canTransition t = true)
    (ht : t.isTerminal = false) : Tracks r (advance t) (fun _ u => At r t L u) s := by
  obtain ⟨h, rfl, hL⟩ := h
  unfold advance emitStatus
  refine Main.steady_get ?_
  rw [if_pos hc]
  refine Main.Steady.seq (P := fun _ u => u = s.append false (.statusChanged t)) ?_ fun _ u hu => ?_
  · exact wp_emit ⟨_, h⟩ rfl (fun _ => h.advanceCancelled hc ht) fun _ => h.refused _ trivial
  · subst hu
    exact Main.wp_modify ⟨h.advance hc ht, rfl, List.Subset.trans hL (List.subset_append_left _ _)⟩

theorem consult_tracks {spends : List Spend} (h : At r st L s) :
    Tracks r (consult spends) (fun _ t => At r st L t) s :=
  tracks_consult h.1 trivial ⟨h.1.consulted _ trivial, h.2⟩

theorem compile_tracks {request : ProjectRequest} (hl : r.launch = .fresh request)
    (hjob : r.job = freshJob r.co request) (h : At r st L s) :
    Tracks r (r.co.compiler.compile r.co.config request)
      (fun contract t => At r st L t ∧ contract = contractOf r.co request) s := by
  unfold ContractCompiler.compile
  have hreq : ∀ p ∈ ContractCompiler.requestedEvents r.co.config, ∀ t, r.Quiet .intake t p := by
    intro p hp t
    obtain ⟨name, -, rfl⟩ := List.mem_map.mp hp
    exact quiet_plain trivial rfl
  have hcomp : ∀ a, ∀ p ∈ ContractCompiler.completedEvents r.co.config a, ∀ t,
      r.Quiet .intake t p := by
    intro a p hp t
    obtain ⟨name, -, rfl⟩ := List.mem_map.mp hp
    exact quiet_plain trivial rfl
  have hprop : r.Emits (ContractCompiler.proposedEvent (contractOf r.co request)) := by
    have he := Setting.Emits.contract hl
    rwa [hjob] at he
  refine (emitAll_tracks _ h hreq).seq fun _ t ht => ?_
  refine (consult_tracks ht.1).seq fun _ t ht => ?_
  refine (emitAll_tracks _ ht (hcomp _)).seq fun _ t ht => ?_
  refine (emit_tracks ht.1 (quiet_emits (by trivial) hprop)).seq fun _ t ht => ?_
  refine (consult_tracks ht.tail).seq fun _ t ht => ?_
  dsimp only
  split
  · exact tracks_throw ht.1 trivial
  · split
    · exact tracks_throw ht.1 trivial
    · exact (emit_tracks ht (quiet_plain (by trivial) (by rfl))).seq fun _ u hu =>
        Main.steady_pure ⟨hu.tail, rfl⟩

theorem rejectPlan_tracks {graph : GraphVersion} {errors : List String}
    (h : At r .contracted L s) :
    Tracks r (rejectPlan graph errors) (fun o t => Reach r (.settled o []) t) s := by
  unfold rejectPlan
  refine (emit_tracks h (quiet_plain (by trivial) (by rfl))).seq fun _ t ht => ?_
  refine (emitTerminalOutcome_tracks ht.1 trivial ⟨rfl, rfl, ht.2.1⟩ fun _ hr => ?_).seq
    fun _ u hu => ?_
  · exact absurd hr (by decide)
  refine Main.steady_get ?_
  rw [hu.2, ht.2.1]
  refine (emitStatus_tracks hu.1 rfl).seq fun _ v hv => Main.steady_pure ?_
  rw [hv]
  exact hu.1.status u.currentStatus (.inr rfl)

theorem runBody_tracks {request : ProjectRequest} (hl : r.launch = .fresh request)
    (hjob : r.job = freshJob r.co request) (h : At r .intake [] s) :
    Tracks r (runBody r.co request) (fun o t => Reach r (.settled o []) t) s := by
  have hsrc : r.source = [] := by
    unfold Setting.source
    rw [hl]
    rfl
  unfold runBody
  refine (emit_tracks h (quiet_plain (by trivial) (by rfl))).seq fun _ t ht => ?_
  refine (compile_tracks hl hjob ht).seq fun contract t hc => ?_
  obtain ⟨ht, rfl⟩ := hc
  refine (advance_tracks ht rfl rfl).seq fun _ t ht => ?_
  refine (consult_tracks ht).seq fun _ t ht => ?_
  dsimp only
  split
  · exact rejectPlan_tracks ht
  · rename_i herrors
    have hvalid := GraphPlanner.validate_nil_nodup (not_not.mp herrors)
    have hgraph : r.Emits (graphOf r.co (contractOf r.co request)).accepted := by
      have he := Setting.Emits.graph hl
      rwa [hjob] at he
    refine (emit_tracks ht (quiet_emits (by trivial) hgraph)).seq fun _ t ht => ?_
    refine (advance_tracks ht rfl rfl).seq fun _ t ht => ?_
    refine (advance_tracks ht rfl rfl).seq fun _ t ht => ?_
    rw [← hjob]
    have hf := (ht.1.fresh (by simp [Setting.Backs, hsrc]) rfl).2
    have hd : r.Checked := by
      intro _ _
      unfold Setting.Distinct
      rw [hjob]
      exact hvalid
    exact execute_tracks (ht.1.execute ht.2.1 (by simp [Setting.Seeded, hsrc]) hf hd) hf

/-! ## Resuming -/

theorem reemitted_quiet {p q : EventPayload} (hp : p ∈ r.source)
    (h : reemitted r.job.initiallyCompleted p = some q) (t : St) : r.Quiet .intake t q := by
  refine quiet_emits ?_ (.again hp h)
  cases p with
  | analysisRequested | analysisCompleted | contractProposed | contractValidated
  | graphAccepted =>
    cases h
    trivial
  | _ => cases h

theorem completion_quiet {p : EventPayload} (hp : p ∈ r.source) (h : isCompletion p = true)
    (t : St) : r.Quiet .intake t p := by
  refine quiet_emits ?_ (.completion hp h)
  cases p with
  | cellCompleted id ref u => trivial
  | _ => cases h

/-- A resume records every completion of its source again before its first wave. -/
theorem resumeBody_tracks {state : RunState} (hd : r.Checked) (hb : r.Backs)
    (h : At r .intake [] s) :
    Tracks r (resumeBody r.co state r.job r.source)
      (fun o t => Reach r (.settled o []) t) s := by
  unfold resumeBody
  refine (emit_tracks h (quiet_plain (by trivial) (by rfl))).seq fun _ t ht => ?_
  refine (emitAll_tracks _ ht ?_).seq fun _ t ht => ?_
  · intro q hq t
    obtain ⟨p, hp, he⟩ := List.mem_filterMap.mp hq
    exact reemitted_quiet hp he t
  refine (emitAll_tracks _ ht.1 ?_).seq fun _ t ht => ?_
  · intro p hp t
    obtain ⟨hp, hc⟩ := List.mem_filter.mp hp
    exact completion_quiet hp hc t
  have hdone : At r .intake ((r.source.filter isCompletion).map (·.stored)) t := by
    refine ⟨ht.1.1, ht.1.2.1, fun q hq => ?_⟩
    obtain ⟨p, hp, rfl⟩ := List.mem_map.mp hq
    exact ht.2 p hp
  refine Main.Steady.seq (P := fun _ u =>
    At r .executing ((r.source.filter isCompletion).map (·.stored)) u) ?_ fun _ u hu => ?_
  · refine (advance_tracks hdone rfl rfl).seq fun _ t ht => ?_
    refine (advance_tracks ht rfl rfl).seq fun _ t ht => ?_
    exact (advance_tracks ht rfl rfl).seq fun _ t ht => Main.steady_pure ht
  · have hf := (hu.1.fresh hb rfl).2
    refine execute_tracks (hu.1.execute hu.2.1 (fun p hp hc => hu.2.2 ?_) hf hd) hf
    exact List.mem_map.mpr ⟨p, List.mem_filter.mpr ⟨hp, hc⟩, rfl⟩

/-! ## The handler -/

/-- The run has stopped making moves. -/
def AtEnd (r : Setting) (t : St) : Prop :=
  Reach r .ended t ∨ ∃ o, Reach r (.settled o []) t

/-- How a whole run stands. -/
def Stands (r : Setting) : Post St Exc RunOutcome where
  ret _ t := AtEnd r t
  raise _ t := AtEnd r t
  wait t := ∃ ph, Reach r ph t

theorem emitFailure_wp {reason : String} {Q : Post St Exc (Option Exc)}
    (h : Reach r .failing s) (hret : ∀ c t, Reach r .ended t → Q.ret c t)
    (hraise : ∀ e t, Reach r .ended t → Q.raise e t) (hwait : ∀ ph t, Reach r ph t → Q.wait t) :
    (emitFailure reason).wp Q s := by
  have herr : ∀ {e : Exc} {c : Option Exc} {t : St}, Reach r .ended t →
      (persistError e c).wp Q t := by
    intro e c t ht
    unfold persistError
    split
    · exact Main.wp_pure (hret _ _ ht)
    · exact Main.wp_throw (hraise _ _ ht)
  have hstatus : ∀ {o : RunOutcome} {c : Option Exc} {t : St}, Reach r (.mending o) t →
      t.currentStatus = s.currentStatus →
      (emitFailureStatus s.currentStatus o c).wp Q t := by
    intro o c t ht hcur
    unfold emitFailureStatus
    split
    · rename_i hc
      rw [← hcur] at hc
      refine Main.wp_bind (wp_appendShielded (hwait _ _ ht) ?_ ?_)
      · exact fun c' => Main.wp_pure (hret _ _ (ht.mendStatus hc))
      · exact fun e c' _ => herr (ht.mendStatusRefused _)
    · rename_i hc
      exact Main.wp_pure (hret _ _ (ht.mendNothing (by simpa [hcur] using hc)))
  unfold emitFailure
  refine Main.wp_bind (Main.wp_get ?_)
  dsimp only
  cases ht : s.terminalOutcome with
  | none =>
    refine Main.wp_bind (wp_appendShielded (hwait _ _ h) ?_ ?_)
    · exact fun c => hstatus (h.mendOutcome reason ht) rfl
    · exact fun e c _ => herr (h.mendRefused _)
  | some o =>
    refine Main.wp_bind (Main.wp_pure ?_)
    exact hstatus (h.mendKept ht) rfl

theorem handled_wp {body : RunTask RunOutcome}
    (h : Tracks r body (fun o t => Reach r (.settled o []) t) s) :
    (handled body).wp (Stands r) s := by
  unfold handled
  refine Main.wp_tryCatch (Main.wp_mono h (fun o t ht => .inr ⟨o, ht⟩) ?_ fun _ ht => ht)
  intro e t ht
  cases e with
  | cancelled note =>
    refine Main.wp_bind (emitFailure_wp ht ?_ ?_ fun ph _ h => ⟨ph, h⟩)
    · exact fun c u hu => Main.wp_throw (.inl hu)
    · exact fun e u hu => .inl hu
  | exception kind message =>
    refine Main.wp_bind (emitFailure_wp ht ?_ ?_ fun ph _ h => ⟨ph, h⟩)
    · intro c u hu
      cases c with
      | none => exact Main.wp_bind (Main.wp_get (Main.wp_pure (.inl hu)))
      | some e => exact Main.wp_throw (.inl hu)
    · exact fun e u hu => .inl hu

theorem closeGateway_wp {co : Company} {Q : Post St Exc Unit} (hret : Q.ret () s)
    (hraise : ∀ e, Q.raise e s) (hwait : Q.wait s) : (closeGateway co).wp Q s := by
  unfold closeGateway
  split
  · refine Main.wp_bind (Main.wp_await hwait fun w => ?_)
    cases w with
    | resume => exact Main.wp_pure hret
    | raise e =>
      cases e with
      | cancelled note => exact Main.wp_throw (hraise _)
      | exception kind message => exact Main.wp_pure hret
  · exact Main.wp_pure hret

theorem AtEnd.reach {t : St} (h : AtEnd r t) : ∃ ph, Reach r ph t := by
  rcases h with h | ⟨o, h⟩
  · exact ⟨_, h⟩
  · exact ⟨_, h⟩

theorem closing_wp {co : Company} {m : RunTask RunOutcome} (h : m.wp (Stands r) s) :
    (closing co m).wp (Stands r) s := by
  unfold closing
  have hclose : ∀ {x : Except Exc RunOutcome} {t : St}, AtEnd r t →
      (closed co x).wp (Stands r) t := by
    intro x t ht
    cases x with
    | ok o => exact Main.wp_bind (closeGateway_wp (Main.wp_pure ht) (fun _ => ht) ht.reach)
    | error e => exact Main.wp_bind (closeGateway_wp (Main.wp_throw ht) (fun _ => ht) ht.reach)
  refine Main.wp_bind (Main.wp_tryCatch (Main.wp_bind (Main.wp_mono h ?_ ?_ fun _ ht => ht)))
  · exact fun o t ht => Main.wp_pure (hclose (x := .ok o) ht)
  · exact fun e t ht => Main.wp_pure (hclose (x := .error e) ht)

/-! ## Whole runs -/

/-- The life a launch leads, if its source can be resumed. -/
def setting? (co : Company) (launch : Launch) (shared : Shared) : Option Setting :=
  (co.job? launch).map fun job =>
    { co := co, job := job, shared := launch.inherit shared, launch := launch }

/-- The job of a resume is read off its source. -/
theorem resumeJob_ok {source : List EventPayload} {state : RunState} {job : Job}
    (h : resumeJob source = .ok (state, job)) :
    ∃ contract graph, replayRun source = .ok state ∧ state.currentContract = some contract ∧
      state.graph = some graph ∧ job = resumedJob state contract graph source := by
  unfold resumeJob at h
  split at h
  · cases h
  · rename_i state' hstate
    split at h
    · rename_i contract graph hcontract hgraph
      split at h
      · cases h
      · cases h
        exact ⟨contract, graph, hstate, hcontract, hgraph, rfl⟩
    · cases h

/-- A completed cell of the source is counted from the start. -/
theorem completed_resumed {source : List EventPayload} {p : EventPayload} (hp : p ∈ source)
    (state : RunState) : ∀ f ∈ p.figure?, f.1 ∈ resumedIds state source := by
  intro f hf
  cases p with
  | cellCompleted id ref usage =>
    cases hf
    refine List.mem_dedup.mpr (List.mem_append_right _ (List.mem_map.mpr ⟨(id, ref), ?_, rfl⟩))
    exact List.mem_filterMap.mpr ⟨_, hp, rfl⟩
  | _ => cases hf

theorem start_stands {co : Company} {launch : Launch} {shared : Shared} {r : Setting}
    (h : setting? co launch shared = some r) :
    (start co launch).wp (Stands r) { shared := launch.inherit shared } := by
  obtain ⟨job, hjob, rfl⟩ := Option.map_eq_some_iff.mp h
  cases launch with
  | fresh request =>
    cases hjob
    exact Main.wp_bind (Main.wp_modify (closing_wp (handled_wp
      (runBody_tracks rfl rfl ⟨.start, rfl, List.nil_subset _⟩))))
  | resume source =>
    unfold job? at hjob
    dsimp only at hjob
    split at hjob
    · rename_i state job' hres
      cases hjob
      obtain ⟨contract, graph, -, -, -, rfl⟩ := resumeJob_ok hres
      show (resumeAsync co source).wp _ _
      unfold resumeAsync
      rw [hres]
      exact Main.wp_bind (Main.wp_modify (handled_wp (resumeBody_tracks nofun
        (fun _ hp => completed_resumed hp state) ⟨.start, rfl, List.nil_subset _⟩)))
    · cases hjob

/-- **Refinement.** Every state of a run is one of its life cycle, and a run
that has returned or raised is at an end of it. -/
theorem run_reach {co : Company} {launch : Launch} {shared : Shared} {r : Setting}
    (h : setting? co launch shared = some r) (inputs : List (Input Exc)) :
    (∃ ph, Reach r ph (co.run launch shared inputs).state) ∧
      ((co.run launch shared inputs).ended = true →
        AtEnd r (co.run launch shared inputs).state) := by
  have hm := start_stands h inputs
  unfold run
  cases hout : start co launch inputs { shared := launch.inherit shared } with
  | ret o is t =>
    rw [hout] at hm
    exact ⟨AtEnd.reach hm, fun _ => hm⟩
  | raise e is t =>
    rw [hout] at hm
    exact ⟨AtEnd.reach hm, fun _ => hm⟩
  | wait t =>
    rw [hout] at hm
    refine ⟨hm, ?_⟩
    intro hended
    cases hended

/-- A source that cannot be resumed leaves no trace. -/
theorem run_rejected {co : Company} {launch : Launch} {shared : Shared}
    (h : setting? co launch shared = none) (inputs : List (Input Exc)) :
    (co.run launch shared inputs).state = { shared := launch.inherit shared } := by
  have hjob := Option.map_eq_none_iff.mp h
  cases launch with
  | fresh request => cases hjob
  | resume source =>
    unfold job? at hjob
    unfold run start resumeAsync
    dsimp only at hjob ⊢
    split at hjob
    · cases hjob
    · rename_i he
      rw [he]
      rfl

end Company
end Northstack
