import Northstack.Core.Awaitables
import Northstack.Core.Runs

/-!
# The stall watchdog

`Company._run_with_stall_watchdog` (application/orchestrator.py) awaits the
guarded work while a second task polls the stall detector and cancels the work
when it trips. The work is any awaitable: a cell's task, or the group of a wave's
read-only cells. The moves of a run are those of the work, heartbeats, the clock,
the watcher's polls, a cancellation of the calling task, and the caller's own
resumptions.

Who cancelled the work is told from the detector at the time the caller is
resumed, and two of the three awaits suppress a cancellation.

**Results.**
* `watchdog_sound_iff`: the call ends as it should exactly in the runs in which no move
  slips (`Keeps`).
* `watchdog_quiet`: it never ends while its work runs.
-/
namespace Northstack

open Coop

/-! ## The detector -/

/-- `StallDetector` (stall_detector.py:28-54) and what its clock reads. -/
structure StallDetector where
  window : ℚ
  lastBeat : ℚ := 0
  clock : ℚ := 0

namespace StallDetector

def heartbeat (d : StallDetector) : StallDetector := { d with lastBeat := d.clock }

def isStalled (d : StallDetector) : Bool :=
  if d.window ≤ 0 then false else d.window < d.clock - d.lastBeat

/-- Time passes. -/
def pass (d : StallDetector) (t : ℚ≥0) : StallDetector := { d with clock := d.clock + t }

end StallDetector

namespace Watchdog

variable {ω μ ε β : Type}

/-! ## The call -/

/-- How the call ends. -/
inductive Ending (ε β : Type) where
  | returned (b : β)
  | stalled
  | raised (e : ε)
  | cancelled
  deriving DecidableEq

/-- The ending that hands the work's own on. -/
def Ending.ofEnded : Ended ε β → Ending ε β
  | .result b => .returned b
  | .raised e => .raised e
  | .cancelled => .cancelled

/-- The task of `_watch`: between two polls, with a cancellation to come or not. -/
inductive Watcher where
  | live (cancelRequested : Bool)
  | done
  deriving DecidableEq

/-- `Task.cancel()` of the watcher. -/
def Watcher.cancel : Watcher → Option Watcher
  | .live _ => some (.live true)
  | .done => none

/-- The await the caller is at: behind the first check (orchestrator.py:746), in
the `try` (758) or in the `finally` with something to hand on (767). -/
inductive Phase (ε β : Type) where
  | checking
  | guarding
  | closing (ending : Ending ε β)
  | ended (ending : Ending ε β)
  deriving DecidableEq

/-- The call while it is at an await. `mustCancel` is a cancellation the awaited
one refused, raised when the caller is resumed. Of the two last fields no code
reads anything: whether the watchdog has cancelled the work, and whether somebody
else has cancelled the caller. -/
structure State (ω ε β : Type) where
  work : ω
  detector : StallDetector
  watcher : Watcher := .live false
  phase : Phase ε β := .guarding
  mustCancel : Bool := false
  tripped : Bool := false
  external : Bool := false

inductive Move (μ : Type) where
  | work (m : μ)
  | beat
  | pass (t : ℚ≥0)
  | poll
  | cancel
  | wake
  deriving DecidableEq

section

variable (A : Awaitable ω μ ε β)

/-- The watchdog cancels the work. -/
def trip (s : State ω ε β) : State ω ε β :=
  match A.cancel s.work with
  | some w => { s with work := w, tripped := true }
  | none => s

/-- The call up to its first await (orchestrator.py:743-758). -/
def enter (work : ω) (detector : StallDetector) : State ω ε β :=
  if detector.isStalled then
    { trip A { work := work, detector := detector } with watcher := .done, phase := .checking }
  else { work := work, detector := detector }

/-- One turn of `_watch` (orchestrator.py:749-754). -/
def poll (s : State ω ε β) : Option (State ω ε β) :=
  match s.watcher with
  | .live false =>
    if (A.ended s.work).isSome then some { s with watcher := .done }
    else if s.detector.isStalled then some { trip A s with watcher := .done }
    else some s
  | .live true => some { s with watcher := .done }
  | .done => none

/-- `cancel()` of the calling task: passed on to what it awaits, or kept until it
is resumed. -/
def cancel (s : State ω ε β) : Option (State ω ε β) :=
  match s.phase with
  | .checking | .guarding =>
    match A.cancel s.work with
    | some w => some { s with work := w, external := true }
    | none => some { s with mustCancel := true, external := true }
  | .closing _ =>
    match s.watcher.cancel with
    | some w => some { s with watcher := w, external := true }
    | none => some { s with mustCancel := true, external := true }
  | .ended _ => none

/-- What the await raises or returns: a refused cancellation comes first. -/
def awaited (s : State ω ε β) (e : Ended ε β) : Ended ε β :=
  if s.mustCancel then .cancelled else e

/-- `with suppress(CancelledError): await task`, then `_STALLED`. -/
def checked : Ended ε β → Ending ε β
  | .raised e => .raised e
  | _ => .stalled

/-- The `try` and its `except` (orchestrator.py:758-762). -/
def guarded (s : State ω ε β) : Ended ε β → Ending ε β
  | .cancelled => if s.detector.isStalled then .stalled else .cancelled
  | e => .ofEnded e

/-- The `finally` up to its await (orchestrator.py:763-767). -/
def close (s : State ω ε β) (ending : Ending ε β) : State ω ε β :=
  match s.watcher.cancel with
  | some w => { s with watcher := w, phase := .closing ending }
  | none => { s with phase := .ended ending }

/-- The caller is resumed: what it awaits has ended. -/
def wake (s : State ω ε β) : Option (State ω ε β) :=
  match s.phase with
  | .checking =>
    (A.ended s.work).map fun e =>
      { s with mustCancel := false, phase := .ended (checked (awaited s e)) }
  | .guarding =>
    (A.ended s.work).map fun e => close { s with mustCancel := false } (guarded s (awaited s e))
  | .closing ending =>
    if s.watcher = .done then some { s with mustCancel := false, phase := .ended ending } else none
  | .ended _ => none

def step (s : State ω ε β) : Move μ → Option (State ω ε β)
  | .work m => (A.move s.work m).map fun w => { s with work := w }
  | .beat => some { s with detector := s.detector.heartbeat }
  | .pass t => some { s with detector := s.detector.pass t }
  | .poll => poll A s
  | .cancel => cancel A s
  | .wake => wake A s

end

/-! ## What is asked of it -/

/-- How the call should end: not while the work runs; with a cancellation if the
caller was cancelled; with the sentinel only if the watchdog cancelled the work;
with the work's own ending if nobody cancelled anything. -/
structure SoundEnding (A : Awaitable ω μ ε β) (s : State ω ε β) (ending : Ending ε β) : Prop where
  quiet : ¬ A.running s.work
  reraised : s.external = true → ending = .cancelled
  sentinel : ending = .stalled → s.tripped = true
  own : s.external = false → s.tripped = false →
    ∃ e, A.ended s.work = some e ∧ ending = .ofEnded e

/-- The moves that do not slip. The caller is not cancelled behind the first
check, nor in the `finally` while it hands on something else than a cancellation.
When it is resumed in the `try` with a cancellation, the detector reads stalled
only if the watchdog has cancelled the work and nobody the caller; when it is
resumed with anything else, nobody has cancelled it. -/
def Keeps (A : Awaitable ω μ ε β) (s : State ω ε β) : Move μ → Prop
  | .cancel =>
    match s.phase with
    | .checking => False
    | .closing ending => ending = .cancelled
    | _ => True
  | .wake =>
    match s.phase with
    | .guarding => ∀ e, A.ended s.work = some e →
        (awaited s e = .cancelled → s.detector.isStalled = true →
          s.tripped = true ∧ s.external = false) ∧
        (awaited s e ≠ .cancelled → s.external = false)
    | _ => True
  | _ => True

/-! ## What a move does -/

section

variable {A : Awaitable ω μ ε β} {s s' : State ω ε β}

/-- What every move but the caller's own leaves alone. -/
structure Frame (A : Awaitable ω μ ε β) (s s' : State ω ε β) : Prop where
  phase : s'.phase = s.phase
  ended : (A.ended s.work).isSome = true → s'.work = s.work ∧ s'.tripped = s.tripped
  tripped : s.tripped = true → s'.tripped = true

theorem trip_frame (h : (A.ended s.work).isSome = false) : Frame A s (trip A s) := by
  unfold trip
  split
  · exact ⟨rfl, fun he => absurd (h.symm.trans he) Bool.false_ne_true, fun _ => rfl⟩
  · exact ⟨rfl, fun _ => ⟨rfl, rfl⟩, id⟩

theorem poll_frame (h : poll A s = some s') : Frame A s s' := by
  unfold poll at h
  split at h
  · split at h
    · cases h
      exact ⟨rfl, fun _ => ⟨rfl, rfl⟩, id⟩
    · rename_i hnone
      split at h
      · cases h
        have hf := trip_frame (A := A) (s := s) (Bool.not_eq_true _ ▸ hnone)
        exact ⟨hf.phase, hf.ended, hf.tripped⟩
      · cases h
        exact ⟨rfl, fun _ => ⟨rfl, rfl⟩, id⟩
  · cases h
    exact ⟨rfl, fun _ => ⟨rfl, rfl⟩, id⟩
  · cases h

theorem trip_external : (trip A s).external = s.external ∧ (trip A s).mustCancel = s.mustCancel := by
  unfold trip
  split <;> exact ⟨rfl, rfl⟩

theorem poll_external (h : poll A s = some s') :
    s'.external = s.external ∧ s'.mustCancel = s.mustCancel := by
  unfold poll at h
  split at h
  · split at h
    · cases h
      exact ⟨rfl, rfl⟩
    · split at h <;> cases h
      · exact trip_external
      · exact ⟨rfl, rfl⟩
  · cases h
    exact ⟨rfl, rfl⟩
  · cases h

theorem cancel_frame (h : cancel A s = some s') : Frame A s s' ∧ s'.external = true ∧
    s'.tripped = s.tripped ∧ ∀ ending, s.phase ≠ .ended ending := by
  have hrefused : (A.ended s.work).isSome = true → A.cancel s.work = none := A.cancel_ended s.work
  unfold cancel at h
  cases hphase : s.phase with
  | ended ending =>
    rw [hphase] at h
    cases h
  | closing ending =>
    rw [hphase] at h
    dsimp only at h
    split at h <;> cases h <;>
      exact ⟨⟨hphase.symm, fun _ => ⟨rfl, rfl⟩, id⟩, rfl, rfl, nofun⟩
  | checking | guarding =>
    rw [hphase] at h
    dsimp only at h
    split at h
    · rename_i w hw
      cases h
      refine ⟨⟨hphase.symm, fun he => ?_, id⟩, rfl, rfl, nofun⟩
      rw [hrefused he] at hw
      cases hw
    · cases h
      exact ⟨⟨hphase.symm, fun _ => ⟨rfl, rfl⟩, id⟩, rfl, rfl, nofun⟩

/-- What the moves of everything but the caller leave alone. -/
theorem step_frame {m : Move μ} (hcancel : m ≠ .cancel) (hwake : m ≠ .wake)
    (h : step A s m = some s') :
    Frame A s s' ∧ s'.external = s.external ∧ s'.mustCancel = s.mustCancel := by
  cases m with
  | work m =>
    unfold step at h
    obtain ⟨w, hw, rfl⟩ := Option.map_eq_some_iff.mp h
    refine ⟨⟨rfl, fun he => ?_, id⟩, rfl, rfl⟩
    rw [A.move_ended s.work m he] at hw
    cases hw
  | beat | pass t =>
    cases h
    exact ⟨⟨rfl, fun _ => ⟨rfl, rfl⟩, id⟩, rfl, rfl⟩
  | poll => exact ⟨poll_frame h, poll_external h⟩
  | cancel => exact absurd rfl hcancel
  | wake => exact absurd rfl hwake

theorem close_cases (s : State ω ε β) (ending : Ending ε β) :
    ((close s ending).phase = .closing ending ∨ (close s ending).phase = .ended ending) ∧
      (close s ending).work = s.work ∧ (close s ending).tripped = s.tripped ∧
      (close s ending).external = s.external := by
  unfold close
  split
  · exact ⟨.inl rfl, rfl, rfl, rfl⟩
  · exact ⟨.inr rfl, rfl, rfl, rfl⟩

/-- The caller is resumed in the `try`. -/
theorem wake_guarding (hphase : s.phase = .guarding) (h : wake A s = some s') :
    ∃ e, A.ended s.work = some e ∧
      (s'.phase = .closing (guarded s (awaited s e)) ∨
        s'.phase = .ended (guarded s (awaited s e))) ∧
      s'.work = s.work ∧ s'.tripped = s.tripped ∧ s'.external = s.external := by
  unfold wake at h
  split at h
  · rename_i hp
    rw [hphase] at hp
    cases hp
  · obtain ⟨e, he, rfl⟩ := Option.map_eq_some_iff.mp h
    exact ⟨e, he, close_cases { s with mustCancel := false } _⟩
  · rename_i hp
    rw [hphase] at hp
    cases hp
  · rename_i hp
    rw [hphase] at hp
    cases hp

end

/-! ## Runs in which no move slips -/

/-- What holds as long as no move has slipped. -/
def Good (A : Awaitable ω μ ε β) (s : State ω ε β) : Prop :=
  match s.phase with
  | .checking => s.tripped = true ∧ s.external = false ∧ s.mustCancel = false
  | .guarding => s.mustCancel = true → s.external = true
  | .closing ending | .ended ending =>
    (A.ended s.work).isSome = true ∧ SoundEnding A s ending

/-- What holds once a move has slipped. -/
def Slipped (A : Awaitable ω μ ε β) (s : State ω ε β) : Prop :=
  match s.phase with
  | .checking => s.external = true
  | .guarding => False
  | .closing ending | .ended ending => (A.ended s.work).isSome = true ∧
    (s.external = true ∧ ending ≠ .cancelled ∨ ending = .stalled ∧ s.tripped = false)

section

variable {A : Awaitable ω μ ε β} {s s' : State ω ε β} {ending : Ending ε β}

/-- A sound ending stays so, whatever the rest of the call does. -/
theorem SoundEnding.frame (h : SoundEnding A s ending) (hwork : s'.work = s.work)
    (htripped : s'.tripped = s.tripped)
    (hexternal : s'.external = s.external ∨ s'.external = true ∧ ending = .cancelled) :
    SoundEnding A s' ending where
  quiet := hwork ▸ h.quiet
  reraised he := by
    rcases hexternal with hsame | ⟨_, hc⟩
    · exact h.reraised (hsame ▸ he)
    · exact hc
  sentinel hs := htripped ▸ h.sentinel hs
  own he ht := by
    rcases hexternal with hsame | ⟨hnew, _⟩
    · rw [hwork]
      exact h.own (hsame ▸ he) (htripped ▸ ht)
    · rw [hnew] at he
      cases he

theorem Good.frame (h : Good A s) (hf : Frame A s s') (hexternal : s'.external = s.external)
    (hmust : s'.mustCancel = s.mustCancel) : Good A s' := by
  unfold Good at h ⊢
  rw [hf.phase]
  cases hphase : s.phase with
  | checking =>
    rw [hphase] at h
    exact ⟨hf.tripped h.1, hexternal.trans h.2.1, hmust.trans h.2.2⟩
  | guarding =>
    rw [hphase] at h
    dsimp only at h ⊢
    rw [hexternal, hmust]
    exact h
  | closing ending | ended ending =>
    rw [hphase] at h
    obtain ⟨hwork, htripped⟩ := hf.ended h.1
    exact ⟨hwork ▸ h.1, h.2.frame hwork htripped (.inl hexternal)⟩

theorem Slipped.frame (h : Slipped A s) (hf : Frame A s s')
    (hexternal : s.external = true → s'.external = true) : Slipped A s' := by
  unfold Slipped at h ⊢
  rw [hf.phase]
  cases hphase : s.phase with
  | checking =>
    rw [hphase] at h
    exact hexternal h
  | guarding =>
    rw [hphase] at h
    exact h
  | closing ending | ended ending =>
    rw [hphase] at h
    obtain ⟨hwork, htripped⟩ := hf.ended h.1
    refine ⟨hwork ▸ h.1, ?_⟩
    rcases h.2 with ⟨he, hc⟩ | ⟨hs, ht⟩
    · exact .inl ⟨hexternal he, hc⟩
    · exact .inr ⟨hs, htripped.trans ht⟩

/-- A cancellation that does not slip. -/
theorem Good.cancel (h : Good A s) (hkeeps : Keeps A s .cancel) (hstep : cancel A s = some s') :
    Good A s' := by
  obtain ⟨hf, hexternal, htripped, hphase'⟩ := cancel_frame hstep
  unfold Keeps at hkeeps
  unfold Good at h ⊢
  rw [hf.phase]
  cases hphase : s.phase with
  | checking =>
    rw [hphase] at hkeeps
    exact hkeeps.elim
  | guarding => exact fun _ => hexternal
  | closing ending =>
    rw [hphase] at h hkeeps
    obtain ⟨hwork, -⟩ := hf.ended h.1
    exact ⟨hwork ▸ h.1, h.2.frame hwork htripped (.inr ⟨hexternal, hkeeps⟩)⟩
  | ended ending => exact absurd hphase (hphase' ending)

/-- A cancellation that slips. -/
theorem Good.cancel_slips (h : Good A s) (hslips : ¬ Keeps A s .cancel)
    (hstep : Watchdog.cancel A s = some s') : Slipped A s' := by
  obtain ⟨hf, hexternal, htripped, hphase'⟩ := cancel_frame hstep
  unfold Keeps at hslips
  unfold Good at h
  unfold Slipped
  rw [hf.phase]
  cases hphase : s.phase with
  | checking => exact hexternal
  | guarding =>
    rw [hphase] at hslips
    exact hslips trivial
  | closing ending =>
    rw [hphase] at h hslips
    obtain ⟨hwork, -⟩ := hf.ended h.1
    exact ⟨hwork ▸ h.1, .inl ⟨hexternal, hslips⟩⟩
  | ended ending => exact absurd hphase (hphase' ending)

/-- What the caller hands on behind the `try`, with and without a slip. -/
theorem guarded_sound {e : Ended ε β} (he : A.ended s.work = some e)
    (hmust : s.mustCancel = true → s.external = true)
    (hcancelled : awaited s e = .cancelled → s.detector.isStalled = true →
      s.tripped = true ∧ s.external = false)
    (hother : awaited s e ≠ .cancelled → s.external = false) :
    SoundEnding A s (guarded s (awaited s e)) := by
  have hquiet : ¬ A.running s.work := by
    apply A.not_running
    rw [he]
    rfl
  by_cases hc : awaited s e = .cancelled
  · rw [hc]
    unfold guarded
    cases hstalled : s.detector.isStalled with
    | true =>
      obtain ⟨htripped, hexternal⟩ := hcancelled hc hstalled
      refine ⟨hquiet, fun h => ?_, fun _ => htripped, fun _ h => ?_⟩
      · rw [hexternal] at h
        cases h
      · rw [htripped] at h
        cases h
    | false =>
      refine ⟨hquiet, fun _ => rfl, nofun, fun hexternal _ => ⟨e, he, ?_⟩⟩
      cases hm : s.mustCancel with
      | true =>
        rw [hmust hm] at hexternal
        cases hexternal
      | false =>
        unfold awaited at hc
        rw [hm] at hc
        rw [show e = .cancelled from hc]
        rfl
  · have hexternal := hother hc
    have hm : s.mustCancel = false := by
      by_contra h
      have := hmust (Bool.not_eq_false _ ▸ h)
      rw [hexternal] at this
      cases this
    have hsame : awaited s e = e := by
      unfold awaited
      rw [hm]
      rfl
    rw [hsame] at hc ⊢
    have hguarded : guarded s e = .ofEnded e := by
      cases e with
      | cancelled => exact absurd rfl hc
      | result b | raised e => rfl
    rw [hguarded]
    refine ⟨hquiet, fun h => ?_, fun h => ?_, fun _ _ => ⟨e, he, rfl⟩⟩
    · rw [hexternal] at h
      cases h
    · cases e <;> cases h

/-- The caller is resumed without a slip. -/
theorem Good.wake (h : Good A s) (hkeeps : Keeps A s .wake) (hstep : Watchdog.wake A s = some s') :
    Good A s' := by
  unfold Keeps at hkeeps
  unfold Good at h
  cases hphase : s.phase with
  | checking =>
    unfold Watchdog.wake at hstep
    rw [hphase] at h hstep
    obtain ⟨e, he, rfl⟩ := Option.map_eq_some_iff.mp hstep
    obtain ⟨htripped, hexternal, -⟩ := h
    have hsome : (A.ended s.work).isSome = true := by rw [he]; rfl
    refine ⟨hsome, A.not_running _ hsome, fun hx => ?_, fun _ => htripped, fun _ ht => ?_⟩
    · exact absurd (hexternal.symm.trans hx) Bool.false_ne_true
    · exact absurd (ht.symm.trans htripped) Bool.false_ne_true
  | guarding =>
    obtain ⟨e, he, hnext, hwork, htripped, hexternal⟩ := wake_guarding hphase hstep
    rw [hphase] at h hkeeps
    have hsound := guarded_sound he h (hkeeps e he).1 (hkeeps e he).2
    have hsound := hsound.frame hwork htripped (.inl hexternal)
    have hsome : (A.ended s.work).isSome = true := by rw [he]; rfl
    unfold Good
    rcases hnext with hnext | hnext <;> rw [hnext] <;> exact ⟨hwork ▸ hsome, hsound⟩
  | closing ending =>
    unfold Watchdog.wake at hstep
    rw [hphase] at h hstep
    dsimp only at hstep
    split at hstep
    · cases hstep
      exact ⟨h.1, h.2.frame rfl rfl (.inl rfl)⟩
    · cases hstep
  | ended ending =>
    unfold Watchdog.wake at hstep
    rw [hphase] at hstep
    cases hstep

/-- The caller is resumed in the `try`, and that slips. -/
theorem Good.wake_slips (hslips : ¬ Keeps A s .wake) (hstep : Watchdog.wake A s = some s') :
    Slipped A s' := by
  unfold Keeps at hslips
  cases hphase : s.phase with
  | guarding =>
    obtain ⟨e, he, hnext, hwork, htripped, hexternal⟩ := wake_guarding hphase hstep
    rw [hphase] at hslips
    have hsome : (A.ended s.work).isSome = true := by rw [he]; rfl
    have hwrong : s.external = true ∧ guarded s (awaited s e) ≠ .cancelled ∨
        guarded s (awaited s e) = .stalled ∧ s.tripped = false := by
      by_contra hnot
      push Not at hnot
      refine hslips fun e' he' => ?_
      obtain rfl : e = e' := Option.some.inj (he.symm.trans he')
      constructor
      · intro hc hstalled
        have hs : guarded s (awaited s e) = .stalled := by
          rw [hc]
          exact if_pos hstalled
        refine ⟨Bool.not_eq_false _ ▸ hnot.2 hs, Bool.not_eq_true _ ▸ fun hx => ?_⟩
        have := hnot.1 hx
        rw [hs] at this
        cases this
      · intro hc
        refine Bool.not_eq_true _ ▸ fun hx => ?_
        have hg := hnot.1 hx
        cases hawaited : awaited s e with
        | cancelled => exact hc hawaited
        | result b | raised x =>
          rw [hawaited] at hg
          cases hg
    unfold Slipped
    rcases hnext with hnext | hnext <;> rw [hnext] <;> dsimp only <;>
      rw [hwork, hexternal, htripped] <;> exact ⟨hsome, hwrong⟩
  | checking | closing ending | ended ending =>
    rw [hphase] at hslips
    exact absurd trivial hslips

theorem Slipped.wake (h : Slipped A s) (hstep : Watchdog.wake A s = some s') : Slipped A s' := by
  unfold Watchdog.wake at hstep
  unfold Slipped at h
  cases hphase : s.phase with
  | checking =>
    rw [hphase] at h hstep
    obtain ⟨e, he, rfl⟩ := Option.map_eq_some_iff.mp hstep
    refine ⟨by rw [he]; rfl, .inl ⟨h, ?_⟩⟩
    cases awaited s e <;> exact nofun
  | guarding =>
    rw [hphase] at h
    exact h.elim
  | closing ending =>
    rw [hphase] at h hstep
    dsimp only at hstep
    split at hstep
    · cases hstep
      exact h
    · cases hstep
  | ended ending =>
    rw [hphase] at hstep
    cases hstep

/-! ## Whole runs -/

theorem Good.step (s : State ω ε β) (m : Move μ) (s' : State ω ε β) (h : Good A s)
    (hkeeps : Keeps A s m) (hstep : Watchdog.step A s m = some s') : Good A s' := by
  by_cases hc : m = .cancel
  · subst hc
    exact h.cancel hkeeps hstep
  by_cases hw : m = .wake
  · subst hw
    exact h.wake hkeeps hstep
  obtain ⟨hf, hexternal, hmust⟩ := step_frame hc hw hstep
  exact h.frame hf hexternal hmust

theorem Good.step_slips (s : State ω ε β) (m : Move μ) (s' : State ω ε β) (h : Good A s)
    (hslips : ¬ Keeps A s m) (hstep : Watchdog.step A s m = some s') : Slipped A s' := by
  cases m with
  | cancel => exact h.cancel_slips hslips hstep
  | wake => exact wake_slips hslips hstep
  | work _ | beat | pass _ | poll => exact absurd trivial hslips

theorem Slipped.step (s : State ω ε β) (m : Move μ) (s' : State ω ε β) (h : Slipped A s)
    (hstep : Watchdog.step A s m = some s') : Slipped A s' := by
  by_cases hw : m = .wake
  · subst hw
    exact h.wake hstep
  by_cases hc : m = .cancel
  · subst hc
    obtain ⟨hf, hexternal, -⟩ := cancel_frame hstep
    exact h.frame hf fun _ => hexternal
  obtain ⟨hf, hexternal, -⟩ := step_frame hc hw hstep
  exact h.frame hf hexternal.trans

/-- At its first await the call is good: a first check that finds the run stalled
cancels the work, which has only just been made. -/
theorem good_enter {work : ω} (detector : StallDetector) (hwork : A.running work) :
    Good A (enter A work detector) := by
  have hcancel : A.cancel work ≠ none := fun h => A.refused work h hwork
  unfold enter
  split
  · unfold trip
    split
    · exact ⟨rfl, rfl, rfl⟩
    · rename_i hnone
      exact absurd hnone hcancel
  · exact nofun

theorem Good.sound (h : Good A s) (hended : s.phase = .ended ending) : SoundEnding A s ending := by
  unfold Good at h
  rw [hended] at h
  exact h.2

theorem Slipped.not_sound (h : Slipped A s) (hended : s.phase = .ended ending) :
    ¬ SoundEnding A s ending := by
  unfold Slipped at h
  rw [hended] at h
  intro hsound
  rcases h.2 with ⟨hexternal, hc⟩ | ⟨hstalled, htripped⟩
  · exact hc (hsound.reraised hexternal)
  · exact absurd (htripped.symm.trans (hsound.sentinel hstalled)) Bool.false_ne_true

/-- **No work is left behind.** The call never ends while its work runs, whatever
slips. -/
theorem watchdog_quiet {work : ω} {detector : StallDetector} (hwork : A.running work)
    {ms : List (Move μ)} (hrun : Runs.run (step A) (enter A work detector) ms = some s)
    (hended : s.phase = .ended ending) : ¬ A.running s.work := by
  have hsplit : (Runs.Meets (step A) (Keeps A) _ ms → Good A s) ∧ _ :=
    Runs.run_split Good.step Good.step_slips Slipped.step (good_enter detector hwork) hrun
  by_cases hkeeps : Runs.Meets (step A) (Keeps A) (enter A work detector) ms
  · exact ((hsplit.1 hkeeps).sound hended).quiet
  · have hslipped := hsplit.2 hkeeps
    unfold Slipped at hslipped
    rw [hended] at hslipped
    exact A.not_running _ hslipped.1

/-- **The watchdog.** A run of the call that has come to its end is one in which
the work has ended, a cancellation of the caller is raised again, the sentinel
means that the watchdog cancelled the work, and work that nobody cancelled gives
its own result, if and only if no move of it slipped. -/
theorem watchdog_sound_iff {work : ω} {detector : StallDetector} (hwork : A.running work)
    {ms : List (Move μ)} (hrun : Runs.run (step A) (enter A work detector) ms = some s)
    (hended : s.phase = .ended ending) :
    SoundEnding A s ending ↔ Runs.Meets (step A) (Keeps A) (enter A work detector) ms := by
  have hsplit : (Runs.Meets (step A) (Keeps A) _ ms → Good A s) ∧ _ :=
    Runs.run_split Good.step Good.step_slips Slipped.step (good_enter detector hwork) hrun
  constructor
  · intro hsound
    by_contra hkeeps
    exact (hsplit.2 hkeeps).not_sound hended hsound
  · intro hkeeps
    exact (hsplit.1 hkeeps).sound hended

end

/-! ## A cancellation that is taken for the watchdog's -/

/-- A cell that gives a number, under a window of one second. -/
def oneSecond : State (Single String Nat) String Nat :=
  enter single {} { window := 1 }

/-- Ten polls, a tenth of a second apart. -/
def tenPolls : List (Move (Ended String Nat)) :=
  (List.replicate 10 [.pass 0.1, .poll]).flatten

/-- A beat, and the cell gives its result: no move slips. -/
theorem watchdog_sound_iff_beat :
    ∃ s, Runs.run (step single) oneSecond
        ([.poll] ++ tenPolls ++ [.beat, .pass 0.1, .poll, .work (.result 7), .wake, .poll, .wake]) =
          some s ∧
      s.phase = .ended (.returned 7) ∧
      Runs.Meets (step single) (Keeps single) oneSecond
        ([.poll] ++ tenPolls ++
          [.beat, .pass 0.1, .poll, .work (.result 7), .wake, .poll, .wake]) := by
  have hrun : ((Runs.run (step single) oneSecond ([.poll] ++ tenPolls ++
      [.beat, .pass 0.1, .poll, .work (.result 7), .wake, .poll, .wake])).map
        fun s => (s.phase, s.work.ended, s.external)) =
      some (.ended (.returned 7), some (.result 7), false) := by decide +kernel
  obtain ⟨s, hs, hend⟩ := Option.map_eq_some_iff.mp hrun
  obtain ⟨hphase, hend⟩ := Prod.mk.inj hend
  obtain ⟨hwork, hexternal⟩ := Prod.mk.inj hend
  have hfresh : (single (ε := String) (α := Nat)).running {} := rfl
  refine ⟨s, hs, hphase, (watchdog_sound_iff hfresh hs hphase).mp ⟨?_, ?_, nofun, ?_⟩⟩
  · intro hnone
    cases hwork.symm.trans hnone
  · intro hcancelled
    cases hexternal.symm.trans hcancelled
  · exact fun _ _ => ⟨.result 7, hwork, rfl⟩

/-- Between two polls the window has run out and the run is cancelled: the cell
ends cancelled, and the call gives the sentinel. -/
theorem cancellation_taken_for_stall :
    ¬ ∀ (detector : StallDetector) (ms : List (Move (Ended String Nat)))
        (s : State (Single String Nat) String Nat) (ending : Ending String Nat),
      Runs.run (step single) (enter single {} detector) ms = some s →
      s.phase = .ended ending → SoundEnding single s ending := by
  intro hall
  have hrun : ((Runs.run (step single) oneSecond ([.poll] ++ tenPolls ++
      [.pass 0.05, .cancel, .work .cancelled, .wake, .poll, .wake])).map
        fun s => (s.phase, s.external)) = some (.ended .stalled, true) := by decide +kernel
  obtain ⟨s, hs, hend⟩ := Option.map_eq_some_iff.mp hrun
  obtain ⟨hphase, hexternal⟩ := Prod.mk.inj hend
  have hsound := hall { window := 1 } _ s .stalled hs hphase
  cases hsound.reraised hexternal

end Watchdog

end Northstack
