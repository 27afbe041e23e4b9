import Mathlib
import Northstack.Application.Spending
import Northstack.Application.Moves

/-!
# The conversations the worker sends

A cell's conversation grows over turns, is compacted, is handed from a failed
attempt to the next, and is written to a checkpoint from which a later run, of
this process or another, goes on (`Workspace`). Whatever the model, the tools
and the clock do, what is written behind a whole round of tools is paired, so
is what a retry takes over, and so is every request.

**Result.** `requests_paired`: in every request the tool results stand directly
behind the turn that called for them, one for each call and in call order.
-/
namespace Northstack

open Coop

/-- What runs leave behind in a workspace, one after another. A new process
starts with an empty retry table, and may find a checkpoint unreadable. -/
inductive Workspace : Shared → Prop where
  | empty : Workspace {}
  | run {shared : Shared} (h : Workspace shared) (co : Company) (launch : Launch)
    (inputs : List (Input Exc)) : Workspace (co.run launch shared inputs).state.shared
  | restart {shared : Shared} (h : Workspace shared) (readable : String → Bool) :
    Workspace { shared with
      seen := []
      checkpoints := shared.checkpoints.filter fun x => readable x.1 }

def Shared.Paired (h : Shared) : Prop := ∀ x ∈ h.checkpoints, Northstack.Paired x.2

/-- Checkpoints, restored conversations and requests are paired. -/
structure St.Paired (s : St) : Prop where
  checkpoints : s.shared.Paired
  restored : RestoredPaired s.history
  requested : ∀ id n ms, .requested id n ms ∈ s.history → Northstack.Paired ms

section

variable {r : Setting} {ph : Phase} {s t : St}

theorem St.Paired.of_eq (h : s.Paired) (hc : t.shared.checkpoints = s.shared.checkpoints)
    (hh : ∀ o ∈ t.history, o ∈ s.history ∨
      (∀ id ms, o ≠ .restored id ms) ∧ ∀ id n ms, o ≠ .requested id n ms) : t.Paired where
  checkpoints x hx := h.checkpoints x (hc ▸ hx)
  restored id ms hm := (hh _ hm).elim (h.restored id ms) fun hn => absurd rfl (hn.1 id ms)
  requested id n ms hm := (hh _ hm).elim (h.requested id n ms) fun hn => absurd rfl (hn.2 id n ms)

/-- One step of a cell keeps them paired. -/
theorem CellStep.paired {T : Terms} (hst : CellStep T s t) (h : s.Paired) : t.Paired := by
  have hnew : ∀ {o : Obs}, (∀ id ms, o ≠ .restored id ms) → (∀ id n ms, o ≠ .requested id n ms) →
      ∀ x ∈ s.history ++ [o], x ∈ s.history ∨
        (∀ id ms, x ≠ .restored id ms) ∧ ∀ id n ms, x ≠ .requested id n ms := by
    intro o h1 h2 x hx
    rcases List.mem_append.mp hx with hx | hx
    · exact .inl hx
    · rw [List.mem_singleton.mp hx]
      exact .inr ⟨h1, h2⟩
  cases hst with
  | @restore ms _ hl =>
    obtain ⟨l₁, l₂, hl, -⟩ := List.lookup_eq_some_iff.mp hl
    have hms : Northstack.Paired ms := h.checkpoints (T.id, ms) (by rw [hl]; simp)
    refine ⟨h.checkpoints, fun id ms hm => ?_, fun id n ms hm => ?_⟩
    · rcases List.mem_append.mp hm with hm | hm
      · exact h.restored id ms hm
      · cases List.mem_singleton.mp hm
        exact hms
    · rcases List.mem_append.mp hm with hm | hm
      · exact h.requested id n ms hm
      · cases List.mem_singleton.mp hm
  | @request n ms _ ha =>
    refine ⟨h.checkpoints, fun id ms hm => ?_, fun id k ms' hm => ?_⟩
    · rcases List.mem_append.mp hm with hm | hm
      · exact h.restored id ms hm
      · cases List.mem_singleton.mp hm
    · rcases List.mem_append.mp hm with hm | hm
      · exact h.requested id k ms' hm
      · cases List.mem_singleton.mp hm
        exact ha.2.1 h.restored
  | @checkpoint ms _ hms =>
    refine ⟨fun x hx => ?_, h.restored, h.requested⟩
    rcases List.mem_cons.mp hx with rfl | hx
    · exact hms h.restored
    · exact h.checkpoints x (List.mem_of_mem_filter hx)
  | clear =>
    exact ⟨fun x hx => h.checkpoints x (List.mem_of_mem_filter hx), h.restored, h.requested⟩
  | enter | call | respond | row | rowFailed | charge | rewrite | pass | decide | finish =>
    exact h.of_eq rfl (hnew nofun nofun)
  | execute => exact h.of_eq rfl fun x hx => .inl hx

/-- **Rounds.** A run over paired checkpoints sends and writes nothing else. -/
theorem Reach.paired (h : Reach r ph s) (hs : r.shared.Paired) : s.Paired := by
  refine Reach.invariant (M := fun _ s => s.Paired) ?start ?move ?cell ?collect h
  case start => exact ⟨hs, nofun, nofun⟩
  case move =>
    intro ph s ph' t _ ih hm
    refine ih.of_eq (by rw [hm.shared]) fun x hx => ?_
    rcases hm.history with hh | ⟨o, hh, ho⟩
    · exact .inl (hh ▸ hx)
    · rw [hh] at hx
      rcases List.mem_append.mp hx with hx | hx
      · exact .inl hx
      · rw [List.mem_singleton.mp hx]
        refine .inr ⟨?_, ?_⟩
        · rintro id ms rfl
          exact ho
        · rintro id n ms rfl
          exact ho
  case cell => exact fun _ ih _ hst => hst.paired ih
  case collect =>
    intro s result c _ ih _ _
    refine ih.of_eq (by rw [(St.collected_spent c.id result s).2.2.2]) fun x hx => ?_
    rw [St.collected_history] at hx
    rcases List.mem_append.mp hx with hx | hx
    · exact .inl hx
    · rw [List.mem_singleton.mp hx]
      exact .inr ⟨nofun, nofun⟩

end

/-! ## Every run -/

theorem Company.run_paired (co : Company) (launch : Launch) {shared : Shared}
    (inputs : List (Input Exc)) (h : shared.Paired) : (co.run launch shared inputs).state.Paired := by
  have hi : (launch.inherit shared).Paired := by
    cases launch <;> exact h
  cases hr : co.setting? launch shared with
  | none =>
    rw [Company.run_rejected hr]
    exact ⟨hi, nofun, nofun⟩
  | some r =>
    obtain ⟨ph, hreach⟩ := (Company.run_reach hr inputs).1
    obtain ⟨-, -, -, hsh⟩ := setting_job hr
    exact hreach.paired (hsh ▸ hi)

/-- The checkpoints of a workspace are paired. -/
theorem Workspace.paired {shared : Shared} (h : Workspace shared) : shared.Paired := by
  induction h with
  | empty => exact nofun
  | run _ co launch inputs ih => exact (co.run_paired launch inputs ih).checkpoints
  | restart _ readable ih => exact fun x hx => ih x (List.mem_of_mem_filter hx)

/-- **Requests.** In every run, fresh or resumed, over what any runs before it
left in the workspace, and in whatever order it proceeds, each request to the
gateway has every tool result directly behind the turn that called for it, in
call order and under the call's id, and a result for every call. -/
theorem requests_paired (co : Company) (launch : Launch) {shared : Shared}
    (inputs : List (Input Exc)) (hw : Workspace shared) :
    ∀ id n ms, .requested id n ms ∈ (co.run launch shared inputs).state.history → Paired ms :=
  (co.run_paired launch inputs hw.paired).requested

/-- Whether a request carries a tool result. -/
def Obs.sendsResult : Obs → Bool
  | .requested _ _ ms => ms.any (·.role = .tool)
  | _ => false

/-- A run that is left behind its first round of tools. -/
def interruptedRun : Out St Exc RunOutcome :=
  (soleCompany [forbidsTool] [calls "t"]).run (.fresh plainRequest) {}
    (throughCell (List.replicate 9 .resume))

/-- A second run takes the conversation up from the checkpoint. -/
theorem requests_paired_restored :
    ∃ id n ms, .requested id n ms ∈ ((soleCompany [forbidsTool] [answers]).run
        (.fresh plainRequest) interruptedRun.state.shared
        (throughCell (List.replicate 9 .resume))).state.history ∧
      (ms.any (·.role = .tool)) = true ∧ Paired ms := by
  have hany : ((soleCompany [forbidsTool] [answers]).run (.fresh plainRequest)
      interruptedRun.state.shared (throughCell (List.replicate 9 .resume))).state.history.any
        Obs.sendsResult = true := by decide +kernel
  obtain ⟨o, ho, hsends⟩ := List.any_eq_true.mp hany
  unfold Obs.sendsResult at hsends
  split at hsends
  · exact ⟨_, _, _, ho, hsends, requests_paired _ _ _
      (.run .empty (soleCompany [forbidsTool] [calls "t"]) (.fresh plainRequest)
        (throughCell (List.replicate 9 .resume))) _ _ _ ho⟩
  · cases hsends

end Northstack
