import Northstack.Adapters.LedgerReads
import Northstack.Events.Projection

/-!
# The live view of a run

`get_run` (interfaces/web/routes_runs.py:407-422) over the ledger's table: a run
that is active is projected through the cache, which reads no more than the 500
events `events_since` gives by default; any other is replayed. The catalog's
payloads are folded as `view` reads them. Polls of other clients come in three
steps, as in the model of the cache; the poll in question is answered at once.

**Results.**
* `Inv.step`: what every step keeps as long as each poll folds its tail while the
  cache is at the cursor it had read.
* `live_iff`: after any such steps, when a poll gives the state of the whole
  ledger.
-/
namespace Northstack

namespace LiveView

open Ledger

/-- `RunState`, with the `last_event_hash` that `fold_events` writes. -/
structure Projected where
  state : RunState
  lastEventHash : String := ""

inductive ReadError where
  /-- `LedgerCorruption` -/
  | corrupted
  /-- The fold raises. -/
  | illegal (message : String)

section

variable {π : Type} (view : π → EventPayload)

/-- The body of `fold_events` (replay.py:25-31). -/
def foldOne (s : Projected) (e : StoredEvent π) : Except ReadError Projected :=
  match fold s.state e.seq.toNat (view e.payload) with
  | .ok folded =>
    .ok
      { state := { folded with eventsReplayed := s.state.eventsReplayed + 1 }
        lastEventHash := e.hashChain }
  | .error message => .error (.illegal message)

/-- `fold_events` (replay.py:18-32) -/
def foldStored (s : Projected) (events : List (StoredEvent π)) : Except ReadError Projected :=
  events.foldlM (foldOne view) s

/-- `RunState(run_id=run_id)` -/
def start (runId : String) : Projected := { state := { runId := runId } }

variable (cat : Catalog π)

/-- `replay_run` (replay.py:35-41) -/
def replayRun (table : List Row) (runId : String) : Except ReadError Projected :=
  match events cat table runId with
  | none => .error .corrupted
  | some log => foldStored view (start runId) log

/-- How far a poll has come. -/
inductive Poll (π : Type) where
  | asked (runId : String) (since : Nat)
  | read (runId : String) (since : Nat) (tail : List (StoredEvent π))
  | done

/-- The table of the ledger, the projection cache, the runs under way and the polls. -/
structure Server (π : Type) where
  table : List Row := []
  cache : String → Option (Nat × Projected) := fun _ => none
  active : String → Bool := fun _ => false
  polls : List (Poll π) := []

namespace Server

/-- `ProjectionCache.cursor` -/
def cursor (s : Server π) (runId : String) : Nat :=
  match s.cache runId with
  | some entry => entry.1
  | none => 0

/-- The state a fold starts from. -/
def base (s : Server π) (runId : String) : Projected :=
  match s.cache runId with
  | some entry => entry.2
  | none => start runId

/-- `ProjectionCache.project` (projection_cache.py:44-66) -/
def project (s : Server π) (runId : String) (tail : List (StoredEvent π)) :
    Server π × Except ReadError Projected :=
  match foldStored view (s.base runId) tail with
  | .ok folded =>
    ({ s with
      cache := Function.update s.cache runId (some (s.cursor runId + tail.length, folded)) },
      .ok folded)
  | .error e => (s, .error e)

/-- `get_run` (routes_runs.py:407-422), no other poll coming between. -/
def getRun (s : Server π) (runId : String) : Server π × Except ReadError Projected :=
  if s.active runId then
    match Ledger.eventsSince cat s.table runId (s.cursor runId) with
    | none => (s, .error .corrupted)
    | some tail => s.project view runId tail
  else (s, replayRun view cat s.table runId)

end Server

/-- One step of one party; a poll is named by its place in `polls`. -/
inductive Action (π : Type) where
  | call (c : Ledger.Call π)
  | ask (runId : String)
  | read (poll : Nat)
  | project (poll : Nat)
  /-- `stop_run` drops the cached state. -/
  | stop (runId : String)
  /-- The run's task starts or ends. -/
  | activate (runId : String) (active : Bool)

variable (sha256 : String → String)

/-- A step; what a poll is answered does not matter to the others. -/
def Server.step (s : Server π) : Action π → Server π
  | .call c => { s with table := (perform sha256 cat s.table c).1 }
  | .ask runId =>
    if s.active runId then { s with polls := s.polls ++ [.asked runId (s.cursor runId)] } else s
  | .read i =>
    match s.polls[i]? with
    | some (.asked runId since) =>
      match Ledger.eventsSince cat s.table runId since with
      | some tail => { s with polls := s.polls.set i (.read runId since tail) }
      | none => { s with polls := s.polls.set i .done }
    | _ => s
  | .project i =>
    match s.polls[i]? with
    | some (.read runId _ tail) =>
      { (s.project view runId tail).1 with polls := s.polls.set i .done }
    | _ => s
  | .stop runId => { s with cache := Function.update s.cache runId none }
  | .activate runId active => { s with active := Function.update s.active runId active }

/-- The server after some steps. -/
def server (actions : List (Action π)) : Server π :=
  actions.foldl (Server.step view cat sha256) {}

/-- The step folds no tail over a cache that has left the cursor the tail was
read from. -/
def Server.InTurn (s : Server π) : Action π → Prop
  | .project i =>
    ∀ runId since tail, s.polls[i]? = some (.read runId since tail) →
      s.cursor runId = since ∨ tail = []
  | _ => True

/-- Every step is in turn. -/
def Server.Orderly (s : Server π) : List (Action π) → Prop
  | [] => True
  | a :: actions => s.InTurn a ∧ (s.step view cat sha256 a).Orderly actions

/-- The events of a run. -/
def eventsOf (table : List Row) (runId : String) : List (StoredEvent π) :=
  (events cat table runId).getD []

/-- What every orderly step keeps: an entry is the fold of the first events up to
its cursor, and a tail stands behind the cursor it was read from. -/
structure Inv (s : Server π) : Prop where
  kept : Ledger.Kept cat s.table
  exact : ∀ runId cursor p, s.cache runId = some (cursor, p) →
    cursor ≤ (eventsOf cat s.table runId).length ∧
      foldStored view (start runId) ((eventsOf cat s.table runId).take cursor) = .ok p
  reads : ∀ runId since tail, .read runId since tail ∈ s.polls →
    ((eventsOf cat s.table runId).drop since).take tail.length = tail

end

variable {π : Type} {view : π → EventPayload} {cat : Catalog π} {sha256 : String → String}
  {s : Server π} {table table' : List Row} {runId : String} {log log' : List (StoredEvent π)}
  {p p' : Projected} {tail : List (StoredEvent π)}

/-! ## Folding -/

theorem foldStored_append (log log' : List (StoredEvent π)) :
    foldStored view p (log ++ log') =
      foldStored view p log >>= fun folded => foldStored view folded log' := by
  unfold foldStored
  rw [List.foldlM_append]

theorem foldOne_replayed {e : StoredEvent π} (h : foldOne view p e = .ok p') :
    p'.state.eventsReplayed = p.state.eventsReplayed + 1 := by
  unfold foldOne at h
  split at h
  · cases h
    rfl
  · cases h

/-- The state counts the events it was folded from. -/
theorem foldStored_replayed (h : foldStored view p log = .ok p') :
    p'.state.eventsReplayed = p.state.eventsReplayed + log.length := by
  induction log generalizing p with
  | nil =>
    cases h
    rfl
  | cons e log ih =>
    unfold foldStored at h
    rw [List.foldlM_cons] at h
    cases hone : foldOne view p e with
    | error err =>
      rw [hone] at h
      cases h
    | ok q =>
      rw [hone] at h
      rw [ih h, foldOne_replayed hone, List.length_cons]
      omega

/-- The statuses that events record. -/
def recorded (view : π → EventPayload) (log : List (StoredEvent π)) : List RunStatus :=
  statuses (log.map fun e => view e.payload)

/-- Events fold exactly when the statuses they record are a legal path. -/
theorem foldStored_ok_iff (log : List (StoredEvent π)) (p : Projected) :
    (∃ q, foldStored view p log = .ok q) ↔
      RunStatus.legalFrom p.state.status (recorded view log) = true := by
  induction log generalizing p with
  | nil => simp [foldStored, recorded, RunStatus.legalFrom, pure, Except.pure]
  | cons e log ih =>
    have hcons : foldStored view p (e :: log) =
        foldOne view p e >>= fun folded => foldStored view folded log := List.foldlM_cons
    rw [hcons]
    unfold foldOne
    rcases fold_cases p.state e.seq.toNat (view e.payload) with
      ⟨t, ht, hc, message, herror⟩ | ⟨q, hq, hst, -, hc⟩
    · rw [herror]
      simp [recorded, ht, statuses, EventPayload.status?, RunStatus.legalFrom, hc, bind,
        Except.bind]
    · rw [hq]
      show (∃ q, foldStored view _ log = .ok q) ↔ _
      rw [ih]
      dsimp only
      rw [hst]
      cases hp : (view e.payload).status? with
      | none => simp [recorded, statuses, hp]
      | some t =>
        have hpt : view e.payload = .statusChanged t := by
          cases hv : view e.payload <;> rw [hv] at hp <;> cases hp
          rfl
        simp [recorded, statuses, hp, RunStatus.legalFrom, hc t hpt]

theorem foldStored_error_iff : (∃ e, foldStored view p log = .error e) ↔
    RunStatus.legalFrom p.state.status (recorded view log) = false := by
  have hok : (∃ q, foldStored view p log = .ok q) ↔ _ := foldStored_ok_iff log p
  cases hfold : foldStored view p log with
  | ok q =>
    rw [hfold] at hok
    simpa using hok.mp ⟨q, rfl⟩
  | error e =>
    rw [hfold] at hok
    simpa using hok

/-! ## The events of a run -/

theorem eventsOf_legible (h : Legible cat table runId log) : eventsOf cat table runId = log := by
  unfold eventsOf
  rw [h.reads, Option.getD_some]

theorem legible_eventsOf (h : Ledger.Kept cat table) (runId : String) :
    Legible cat table runId (eventsOf cat table runId) := by
  obtain ⟨log, hlog⟩ := h.legible runId
  rw [eventsOf_legible hlog]
  exact hlog

/-- A call leaves the events of a run and may put others behind them. -/
theorem eventsOf_grows (sha256 : String → String) (hcat : cat.Lawful) (h : Ledger.Kept cat table)
    (c : Ledger.Call π) (runId : String) : ∃ more,
      eventsOf cat (perform sha256 cat table c).1 runId = eventsOf cat table runId ++ more := by
  obtain ⟨-, hgrows⟩ := h.grows sha256 hcat c
  obtain ⟨more, hmore⟩ := hgrows runId _ (legible_eventsOf h runId)
  exact ⟨more, eventsOf_legible hmore⟩

/-! ## What every step keeps -/

theorem Inv.init : Inv view cat {} where
  kept := .nil
  exact _ _ _ h := by cases h
  reads _ _ _ h := by cases h

/-- The base of a fold is the fold of what lies before the cursor. -/
theorem Inv.base (h : Inv view cat s) (runId : String) :
    s.cursor runId ≤ (eventsOf cat s.table runId).length ∧
      foldStored view (start runId) ((eventsOf cat s.table runId).take (s.cursor runId)) =
        .ok (s.base runId) := by
  unfold Server.cursor Server.base
  cases he : s.cache runId with
  | none => exact ⟨Nat.zero_le _, rfl⟩
  | some entry => exact h.exact runId entry.1 entry.2 he

theorem Inv.call (sha256 : String → String) (hcat : cat.Lawful) (h : Inv view cat s)
    (c : Ledger.Call π) : Inv view cat { s with table := (perform sha256 cat s.table c).1 } where
  kept := (h.kept.grows sha256 hcat c).1
  exact runId cursor p he := by
    obtain ⟨hle, hfold⟩ := h.exact runId cursor p he
    obtain ⟨more, hmore⟩ := eventsOf_grows sha256 hcat h.kept c runId
    dsimp only
    rw [hmore, List.take_append_of_le_length hle, List.length_append]
    exact ⟨by omega, hfold⟩
  reads runId since tail hpoll := by
    have htail := h.reads runId since tail hpoll
    obtain ⟨more, hmore⟩ := eventsOf_grows sha256 hcat h.kept c runId
    have hlength := congrArg List.length htail
    rw [List.length_take, List.length_drop] at hlength
    dsimp only
    rw [hmore]
    cases tail with
    | nil => rfl
    | cons e tail =>
      rw [List.length_cons] at hlength
      rw [List.drop_append_of_le_length (by omega), List.take_append_of_le_length, htail]
      rw [List.length_drop, List.length_cons]
      omega

/-- The polls may change as long as the tails they have read do not. -/
theorem Inv.polls (h : Inv view cat s) {polls : List (Poll π)}
    (hpolls : ∀ runId since tail, .read runId since tail ∈ polls →
      .read runId since tail ∈ s.polls ∨
        ((eventsOf cat s.table runId).drop since).take tail.length = tail) :
    Inv view cat { s with polls := polls } where
  kept := h.kept
  exact := h.exact
  reads runId since tail hpoll := by
    rcases hpolls runId since tail hpoll with hold | htail
    · exact h.reads runId since tail hold
    · exact htail

theorem Inv.read (h : Inv view cat s) {i : Nat} {since : Nat}
    (hread : Ledger.eventsSince cat s.table runId since = some tail) :
    Inv view cat { s with polls := s.polls.set i (.read runId since tail) } := by
  refine h.polls fun id since' tail' hpoll => ?_
  rcases List.mem_or_eq_of_mem_set hpoll with hold | heq
  · exact .inl hold
  · cases heq
    refine .inr ?_
    rw [(legible_eventsOf h.kept runId).since] at hread
    obtain rfl := Option.some.inj hread
    rw [List.length_take, ← List.take_take, List.take_length]

/-- A tail behind the cursor takes the fold on. -/
theorem Inv.next (h : Inv view cat s)
    (htail : ((eventsOf cat s.table runId).drop (s.cursor runId)).take tail.length = tail) :
    foldStored view (start runId)
        ((eventsOf cat s.table runId).take (s.cursor runId + tail.length)) =
      foldStored view (s.base runId) tail := by
  rw [List.take_add, htail, foldStored_append, (h.base runId).2]
  rfl

theorem project_polls : (s.project view runId tail).1.polls = s.polls := by
  unfold Server.project
  split
  · rfl
  · rfl

/-- **Projecting.** A tail that stands behind the cursor keeps the entry exact. -/
theorem Inv.project (h : Inv view cat s)
    (htail : ((eventsOf cat s.table runId).drop (s.cursor runId)).take tail.length = tail) :
    Inv view cat (s.project view runId tail).1 := by
  have hnext := h.next htail
  obtain ⟨hle, -⟩ := h.base runId
  have hlength := congrArg List.length htail
  rw [List.length_take, List.length_drop] at hlength
  unfold Server.project
  cases hfold : foldStored view (s.base runId) tail with
  | error e => exact h
  | ok folded =>
    dsimp only
    refine ⟨h.kept, fun id cursor p he => ?_, h.reads⟩
    dsimp only at he ⊢
    by_cases hid : id = runId
    · subst hid
      rw [Function.update_self] at he
      cases he
      exact ⟨by omega, hnext.trans hfold⟩
    · rw [Function.update_of_ne hid] at he
      exact h.exact id cursor p he

theorem Inv.stop (h : Inv view cat s) (runId : String) :
    Inv view cat { s with cache := Function.update s.cache runId none } where
  kept := h.kept
  exact id cursor p he := by
    dsimp only at he
    by_cases hid : id = runId
    · subst hid
      rw [Function.update_self] at he
      cases he
    · rw [Function.update_of_ne hid] at he
      exact h.exact id cursor p he
  reads := h.reads

/-- The tail of a poll in turn stands behind the cursor. -/
theorem Inv.inTurn (h : Inv view cat s) {i since : Nat}
    (hpoll : s.polls[i]? = some (.read runId since tail)) (hturn : s.InTurn (.project i)) :
    ((eventsOf cat s.table runId).drop (s.cursor runId)).take tail.length = tail := by
  rcases hturn runId since tail hpoll with hcursor | hnil
  · rw [hcursor]
    exact h.reads runId since tail (List.mem_of_getElem? hpoll)
  · rw [hnil]
    rfl

/-- **One step.** Every step in turn keeps the entries exact. -/
theorem Inv.step (hcat : cat.Lawful) (h : Inv view cat s) {a : Action π} (hturn : s.InTurn a) :
    Inv view cat (s.step view cat sha256 a) := by
  cases a with
  | call c => exact h.call sha256 hcat c
  | ask runId =>
    unfold Server.step
    dsimp only
    split
    · refine h.polls fun id since tail hpoll => ?_
      rcases List.mem_append.mp hpoll with hold | hnew
      · exact .inl hold
      · cases List.mem_singleton.mp hnew
    · exact h
  | read i =>
    unfold Server.step
    dsimp only
    split
    · split
      · rename_i tail hread
        exact h.read hread
      · refine h.polls fun id since tail hpoll => ?_
        rcases List.mem_or_eq_of_mem_set hpoll with hold | heq
        · exact .inl hold
        · cases heq
    · exact h
  | project i =>
    unfold Server.step
    dsimp only
    split
    · rename_i runId since tail hpoll
      have hproject := h.project (h.inTurn hpoll hturn)
      refine hproject.polls fun id since' tail' hin => ?_
      rcases List.mem_or_eq_of_mem_set hin with hold | heq
      · rw [project_polls]
        exact .inl hold
      · cases heq
    · exact h
  | stop runId => exact h.stop runId
  | activate runId active => exact ⟨h.kept, h.exact, h.reads⟩

theorem Inv.steps (hcat : cat.Lawful) {actions : List (Action π)} :
    ∀ {s : Server π}, Inv view cat s → s.Orderly view cat sha256 actions →
      Inv view cat (actions.foldl (Server.step view cat sha256) s) := by
  induction actions with
  | nil => exact fun h _ => h
  | cons a actions ih => exact fun h horder => ih (h.step hcat horder.1) horder.2

/-! ## A poll -/

theorem replayRun_eq (h : Ledger.Kept cat table) :
    replayRun view cat table runId = foldStored view (start runId) (eventsOf cat table runId) := by
  unfold replayRun
  rw [(legible_eventsOf h runId).reads]

/-- A poll of an active run folds the first events, up to 500 behind the cursor. -/
theorem Inv.getRun (h : Inv view cat s) (hactive : s.active runId = true) :
    (s.getRun view cat runId).2 = foldStored view (start runId)
      ((eventsOf cat s.table runId).take (s.cursor runId + 500)) := by
  have hread := (legible_eventsOf h.kept runId).since (s.cursor runId) 500
  unfold Server.getRun
  rw [if_pos hactive, hread]
  dsimp only
  rw [List.take_add, foldStored_append, (h.base runId).2]
  unfold Server.project
  show _ = foldStored view (s.base runId) _
  cases hfold : foldStored view (s.base runId)
    (((eventsOf cat s.table runId).drop (s.cursor runId)).take 500) with
  | error e => rfl
  | ok folded => rfl

/-- The first events stand for all of them if they are all, or if they do not fold. -/
theorem foldStored_take (n : Nat) :
    foldStored view (start runId) (log.take n) = foldStored view (start runId) log ↔
      log.length ≤ n ∨ ∃ e, foldStored view (start runId) (log.take n) = .error e := by
  constructor
  · intro heq
    cases hfold : foldStored view (start runId) (log.take n) with
    | error e => exact .inr ⟨e, rfl⟩
    | ok folded =>
      have hpart := foldStored_replayed hfold
      have hall := foldStored_replayed (heq.symm.trans hfold)
      rw [List.length_take] at hpart
      exact .inl (by omega)
  · intro h
    rcases h with hle | ⟨e, he⟩
    · rw [List.take_of_length_le hle]
    · have hsplit : foldStored view (start runId) (log.take n ++ log.drop n) = _ :=
        foldStored_append _ _
      rw [List.take_append_drop, he] at hsplit
      rw [he, hsplit]
      rfl

theorem Inv.getRun_eq_iff (h : Inv view cat s) (hactive : s.active runId = true) :
    (s.getRun view cat runId).2 = replayRun view cat s.table runId ↔
      (eventsOf cat s.table runId).length ≤ s.cursor runId + 500 ∨
        RunStatus.legalFrom .intake
          (recorded view ((eventsOf cat s.table runId).take (s.cursor runId + 500))) = false := by
  rw [h.getRun hactive, replayRun_eq h.kept, foldStored_take, foldStored_error_iff]
  rfl

/-- **The live view.** After any steps, of which those that fold a tail find the
cache at the cursor the tail was read from, a poll of an active run gives the
state of its whole ledger if and only if at most 500 events stand behind its
cursor, or the events up to there record an illegal transition, which both raise
for. -/
theorem live_iff (hcat : cat.Lawful) (actions : List (Action π))
    (horder : ({} : Server π).Orderly view cat sha256 actions) (runId : String)
    (hactive : (server view cat sha256 actions).active runId = true) :
    ((server view cat sha256 actions).getRun view cat runId).2 =
        replayRun view cat (server view cat sha256 actions).table runId ↔
      (eventsOf cat (server view cat sha256 actions).table runId).length ≤
          (server view cat sha256 actions).cursor runId + 500 ∨
        RunStatus.legalFrom .intake
          (recorded view ((eventsOf cat (server view cat sha256 actions).table runId).take
            ((server view cat sha256 actions).cursor runId + 500))) = false :=
  (Inv.init.steps hcat horder).getRun_eq_iff hactive

/-- A finding as the fold reads it. -/
def asAnalysis (p : Finding) : EventPayload := .analysisCompleted "scout" [(p.key, .bool true)]

def appendFinding : Action Finding := .call (.appendNext none "r" ⟨"imports"⟩ Double.zero)

theorem live_iff_two :
    ((server asAnalysis findings findingHash
          [appendFinding, .activate "r" true, appendFinding]).getRun asAnalysis findings "r").2 =
      replayRun asAnalysis findings (server asAnalysis findings findingHash
        [appendFinding, .activate "r" true, appendFinding]).table "r" :=
  (live_iff findings_lawful [appendFinding, .activate "r" true, appendFinding]
    ⟨trivial, trivial, trivial, trivial⟩ "r" rfl).mpr (.inl (by decide +kernel))

/-! ## A long gap -/

theorem imports_storable : Storable findings ⟨"imports"⟩ :=
  ⟨le_refl _, by decide +kernel, by decide +kernel⟩

theorem server_snoc (actions : List (Action π)) (a : Action π) :
    server view cat sha256 (actions ++ [a]) =
      (server view cat sha256 actions).step view cat sha256 a := by
  unfold server
  rw [List.foldl_append]
  rfl

theorem step_call (s : Server π) (c : Ledger.Call π) : s.step view cat sha256 (.call c) =
    { s with table := (perform sha256 cat s.table c).1 } := rfl

/-- A run of `n` findings. -/
theorem append_findings {n : Nat} (hn : n < 2 ^ 63) :
    Ledger.Kept findings
        (server asAnalysis findings findingHash (List.replicate n appendFinding)).table ∧
      (rowsOf (server asAnalysis findings findingHash (List.replicate n appendFinding)).table
        "r").length = n ∧
      (server asAnalysis findings findingHash (List.replicate n appendFinding)).cache =
        fun _ => none := by
  induction n with
  | zero => exact ⟨.nil, rfl, rfl⟩
  | succ n ih =>
    obtain ⟨hkept, hrows, hcache⟩ := ih (by omega)
    have hfinite : Double.zero.isFinite = true := rfl
    obtain ⟨table', row, hperform, hrun⟩ := hkept.appendNext findingHash findings_lawful
      imports_storable hfinite (hrows ▸ hn)
    obtain ⟨hkept', hrows'⟩ := hkept.perform findings_lawful hperform
    have hnext : server asAnalysis findings findingHash (List.replicate (n + 1) appendFinding) =
        { server asAnalysis findings findingHash (List.replicate n appendFinding) with
          table := table' } := by
      rw [List.replicate_succ', server_snoc]
      refine (step_call _ (.appendNext none "r" (⟨"imports"⟩ : Finding) Double.zero)).trans ?_
      rw [hperform]
    rw [hnext]
    refine ⟨hkept', ?_, hcache⟩
    dsimp only
    rw [hrows', if_pos hrun, List.length_append, hrows]
    rfl

theorem orderly_of_no_project {actions : List (Action π)} (h : ∀ i, .project i ∉ actions) :
    ∀ {s : Server π}, s.Orderly view cat sha256 actions := by
  induction actions with
  | nil => exact trivial
  | cons a actions ih =>
    intro s
    refine ⟨?_, ih fun i hi => h i (List.mem_cons_of_mem a hi)⟩
    cases a with
    | project i => exact absurd List.mem_cons_self (h i)
    | _ => exact trivial

theorem recorded_asAnalysis (log : List (StoredEvent Finding)) : recorded asAnalysis log = [] := by
  induction log with
  | nil => rfl
  | cons e log ih => exact ih

/-- A run that stores some events before it is polled. -/
def crowded (n : Nat) : List (Action Finding) :=
  List.replicate n appendFinding ++ [.activate "r" true]

/-- The first poll gives the state of the first 500. -/
theorem crowded_differs {n : Nat} (h : 500 < n) (hn : n < 2 ^ 63) :
    (server asAnalysis findings findingHash (crowded n)).active "r" = true ∧
      ((server asAnalysis findings findingHash (crowded n)).getRun asAnalysis findings "r").2 ≠
        replayRun asAnalysis findings
          (server asAnalysis findings findingHash (crowded n)).table "r" := by
  obtain ⟨hkept, hrows, hcache⟩ := append_findings hn
  have hserver : server asAnalysis findings findingHash (crowded n) =
      { server asAnalysis findings findingHash (List.replicate n appendFinding) with
        active := Function.update (server asAnalysis findings findingHash
          (List.replicate n appendFinding)).active "r" true } := server_snoc _ _
  have hactive : (server asAnalysis findings findingHash (crowded n)).active "r" = true := by
    rw [hserver]
    dsimp only
    rw [Function.update_self]
  have horder : ∀ i, Action.project i ∉ crowded n := by
    intro i hi
    rcases List.mem_append.mp hi with hi | hi
    · cases (List.mem_replicate.mp hi).2
    · cases List.mem_singleton.mp hi
  have hinv : Inv asAnalysis findings (server asAnalysis findings findingHash (crowded n)) :=
    Inv.init.steps findings_lawful (orderly_of_no_project horder)
  have hlength : (eventsOf findings (server asAnalysis findings findingHash (crowded n)).table
      "r").length = n := by
    rw [hserver, ← (legible_eventsOf hkept "r").length]
    exact hrows
  have hcursor : (server asAnalysis findings findingHash (crowded n)).cursor "r" = 0 := by
    rw [hserver]
    unfold Server.cursor
    dsimp only
    rw [hcache]
  refine ⟨hactive, fun heq => ?_⟩
  rcases (hinv.getRun_eq_iff hactive).mp heq with hle | hillegal
  · omega
  · rw [recorded_asAnalysis] at hillegal
    cases hillegal

/-- One event more than are read at once is missing from the live view. -/
theorem crowded_stale :
    (server asAnalysis findings findingHash (crowded 501)).active "r" = true ∧
      ((server asAnalysis findings findingHash (crowded 501)).getRun asAnalysis findings "r").2 ≠
        replayRun asAnalysis findings
          (server asAnalysis findings findingHash (crowded 501)).table "r" :=
  crowded_differs (by decide) (by decide)

end LiveView

end Northstack
