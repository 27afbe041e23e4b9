import Northstack.Events.Projection

/-!
# The projection cache and its pollers

Mirrors application/projection_cache.py and the poll of a live run in
interfaces/web/routes_runs.py:407-424. The handlers are synchronous, so the
server runs them on threads of a pool: between reading the cursor, reading the
tail and folding it, other polls, an invalidation (`stop_run`) and appends of
the run itself may come.

* `Web` is the server's ledgers, its cache, the polls under way and the errors
  they raised; an `Action` is one step of one of the parties.
* `Exact` says of a cached entry that it is the fold of exactly the first
  `cursor` events.

**Results.**
* `polls_exact`: as long as each poll folds its tail while the cache is at the
  cursor the poll had read, every entry is exact after every step, and no poll
  raises on a legal log.
* `polls_overlap`: two polls that read the same tail fold it twice.
-/
namespace Northstack

/-- `Ledger.events_since` (sqlite_ledger.py:281-292). The rows of a run have
the sequence numbers from 1 on, so those past `since` follow the first `since`. -/
def eventsSince (log : List EventPayload) (since : Nat) (limit : Nat := 500) :
    List EventPayload :=
  (log.drop since).take limit

/-- The cached cursor and state of each run. -/
structure ProjectionCache where
  states : String → Option (Nat × RunState) := fun _ => none

namespace ProjectionCache

/-- `ProjectionCache.cursor` -/
def cursor (cache : ProjectionCache) (runId : String) : Nat :=
  match cache.states runId with
  | some entry => entry.1
  | none => 0

/-- The state a fold starts from. -/
def base (cache : ProjectionCache) (runId : String) : RunState :=
  match cache.states runId with
  | some entry => entry.2
  | none => {}

/-- `ProjectionCache.project` (projection_cache.py:46-66); an error of the fold
leaves the cache as it is. -/
def project (cache : ProjectionCache) (runId : String) (tail : List EventPayload) :
    Except String (ProjectionCache × RunState) :=
  match foldEvents (cache.base runId) tail with
  | .ok folded =>
    .ok ({ states := Function.update cache.states runId
             (some (cache.cursor runId + tail.length, folded)) }, folded)
  | .error e => .error e

/-- `ProjectionCache.invalidate` -/
def invalidate (cache : ProjectionCache) (runId : String) : ProjectionCache where
  states := Function.update cache.states runId none

end ProjectionCache

/-- How far a poll has come. -/
inductive Poll where
  | asked (runId : String) (since : Nat)
  | read (runId : String) (since : Nat) (tail : List EventPayload)
  | done

structure Web where
  ledger : String → List EventPayload := fun _ => []
  cache : ProjectionCache := {}
  polls : List Poll := []
  errors : List String := []

/-- One step of one party; a poll is named by its place in `polls`. -/
inductive Action where
  | append (runId : String) (p : EventPayload)
  | ask (runId : String)
  | read (poll : Nat)
  | project (poll : Nat)
  | invalidate (runId : String)

namespace Web

/-- The run's ledger stores one more event. -/
def append (w : Web) (runId : String) (p : EventPayload) : Web :=
  { w with ledger := Function.update w.ledger runId (w.ledger runId ++ [p]) }

/-- `cache.cursor(run_id)` of a new poll. -/
def ask (w : Web) (runId : String) : Web :=
  { w with polls := w.polls ++ [.asked runId (w.cache.cursor runId)] }

/-- `ledger.events_since` of the `i`-th poll. -/
def read (w : Web) (i : Nat) : Web :=
  match w.polls[i]? with
  | some (.asked runId since) =>
    { w with polls := w.polls.set i (.read runId since (eventsSince (w.ledger runId) since)) }
  | _ => w

/-- `cache.project` of the `i`-th poll. -/
def project (w : Web) (i : Nat) : Web :=
  match w.polls[i]? with
  | some (.read runId _ tail) =>
    match w.cache.project runId tail with
    | .ok (cache, _) => { w with cache := cache, polls := w.polls.set i .done }
    | .error e => { w with errors := w.errors ++ [e], polls := w.polls.set i .done }
  | _ => w

/-- `projections.invalidate` of a stopped run. -/
def invalidate (w : Web) (runId : String) : Web :=
  { w with cache := w.cache.invalidate runId }

def step (w : Web) : Action → Web
  | .append runId p => w.append runId p
  | .ask runId => w.ask runId
  | .read i => w.read i
  | .project i => w.project i
  | .invalidate runId => w.invalidate runId

/-- The server after some steps. -/
def exec (w : Web) (actions : List Action) : Web := actions.foldl step w

/-- The entry of a run is the fold of its first `cursor` events. -/
def Exact (w : Web) (runId : String) : Prop :=
  ∀ cursor state, w.cache.states runId = some (cursor, state) →
    cursor ≤ (w.ledger runId).length ∧
      foldEvents {} ((w.ledger runId).take cursor) = .ok state

/-- No log holds an illegal transition. -/
def Legal (w : Web) : Prop :=
  ∀ runId, RunStatus.legalFrom .intake (statuses (w.ledger runId)) = true

/-- The step folds no tail over a cache that has left the cursor the tail was
read from. -/
def InTurn (w : Web) : Action → Prop
  | .project i =>
    ∀ runId since tail, w.polls[i]? = some (.read runId since tail) →
      w.cache.cursor runId = since ∨ tail = []
  | _ => True

/-- Every step of the run is in turn. -/
def Orderly (w : Web) : List Action → Prop
  | [] => True
  | a :: actions => w.InTurn a ∧ (w.step a).Orderly actions

end Web

/-! ## Folding in pieces -/

theorem foldEvents_append (l l' : List EventPayload) (state : RunState) :
    foldEvents state (l ++ l') =
      match foldEvents state l with
      | .ok s => foldEvents s l'
      | .error e => .error e := by
  induction l generalizing state with
  | nil => rfl
  | cons p ps ih =>
    rw [List.cons_append, foldEvents, foldEvents]
    cases fold state (state.eventsReplayed + 1) p with
    | error e => rfl
    | ok s => exact ih _

/-- A prefix of a legal log folds. -/
theorem foldEvents_take {log : List EventPayload}
    (h : RunStatus.legalFrom .intake (statuses log) = true) (n : Nat) :
    ∃ state, foldEvents {} (log.take n) = .ok state := by
  obtain ⟨s, hs⟩ := (replay_ok_iff log).mpr h
  rw [replayRun, ← List.take_append_drop n log, foldEvents_append] at hs
  cases hf : foldEvents {} (log.take n) with
  | ok state => exact ⟨state, rfl⟩
  | error e =>
    rw [hf] at hs
    cases hs

/-! ## What every step keeps -/

namespace Web

/-- A tail stands in the log right behind the cursor it was read from. -/
def Poll.Reads (w : Web) : Poll → Prop
  | .read runId since tail => ((w.ledger runId).drop since).take tail.length = tail
  | _ => True

structure Inv (w : Web) : Prop where
  exact : ∀ runId, w.Exact runId
  reads : ∀ p ∈ w.polls, Poll.Reads w p
  errors : w.errors = []

theorem Inv.init : Inv {} where
  exact runId cursor state h := by cases h
  reads p hp := by cases hp
  errors := rfl

/-- The base of a fold is the fold of what lies before the cursor. -/
theorem Inv.base {w : Web} (h : w.Inv) (runId : String) :
    w.cache.cursor runId ≤ (w.ledger runId).length ∧
      foldEvents {} ((w.ledger runId).take (w.cache.cursor runId)) =
        .ok (w.cache.base runId) := by
  unfold ProjectionCache.cursor ProjectionCache.base
  cases he : w.cache.states runId with
  | none => exact ⟨Nat.zero_le _, rfl⟩
  | some entry => exact h.exact runId entry.1 entry.2 he

theorem Poll.Reads.append {w : Web} {p : Poll} (h : Poll.Reads w p) (runId : String)
    (q : EventPayload) : Poll.Reads (w.append runId q) p := by
  cases p with
  | read id since tail =>
    show ((Function.update w.ledger runId (w.ledger runId ++ [q]) id).drop since).take
      tail.length = tail
    by_cases hid : id = runId
    · subst hid
      rw [Function.update_self]
      have hlen : tail.length ≤ ((w.ledger id).drop since).length := by
        have hl := congrArg List.length (show ((w.ledger id).drop since).take _ = tail from h)
        rw [List.length_take] at hl
        omega
      rcases Nat.le_total since (w.ledger id).length with hs | hs
      · rw [List.drop_append_of_le_length hs, List.take_append_of_le_length hlen]
        exact h
      · rw [List.length_drop] at hlen
        have hnil : tail = [] := List.eq_nil_of_length_eq_zero (by omega)
        rw [hnil]
        rfl
    · rw [Function.update_of_ne hid]
      exact h
  | _ => trivial

/-- Appending leaves what lies before the cursors alone. -/
theorem Inv.append {w : Web} (h : w.Inv) (runId : String) (p : EventPayload) :
    (w.append runId p).Inv where
  exact id cursor state he := by
    obtain ⟨hle, hf⟩ := h.exact id cursor state he
    show cursor ≤ (Function.update w.ledger runId (w.ledger runId ++ [p]) id).length ∧
      foldEvents {} ((Function.update w.ledger runId (w.ledger runId ++ [p]) id).take cursor) = _
    by_cases hid : id = runId
    · subst hid
      rw [Function.update_self, List.take_append_of_le_length hle, List.length_append]
      exact ⟨by omega, hf⟩
    · rw [Function.update_of_ne hid]
      exact ⟨hle, hf⟩
  reads q hq := (h.reads q hq).append runId p
  errors := h.errors

theorem Inv.ask {w : Web} (h : w.Inv) (runId : String) : (w.ask runId).Inv where
  exact := h.exact
  reads q hq := by
    rcases List.mem_append.mp hq with hq | hq
    · exact h.reads q hq
    · rw [List.mem_singleton.mp hq]
      trivial
  errors := h.errors

theorem eventsSince_reads (log : List EventPayload) (since : Nat) :
    (log.drop since).take (eventsSince log since).length = eventsSince log since := by
  unfold eventsSince
  rw [List.length_take]
  rcases Nat.le_total 500 (log.drop since).length with hl | hl
  · rw [Nat.min_eq_left hl]
  · rw [Nat.min_eq_right hl, List.take_length, List.take_of_length_le hl]

theorem Inv.read {w : Web} (h : w.Inv) (i : Nat) : (w.read i).Inv := by
  unfold Web.read
  split
  · rename_i runId since hpoll
    refine ⟨h.exact, ?_, h.errors⟩
    intro q hq
    rcases List.mem_or_eq_of_mem_set hq with hq | rfl
    · exact h.reads q hq
    · exact eventsSince_reads (w.ledger runId) since
  · exact h

/-- A poll in turn folds the events right behind the cursor. -/
theorem Inv.project {w : Web} (h : w.Inv) (hl : w.Legal) {i : Nat} (ht : w.InTurn (.project i)) :
    (w.project i).Inv := by
  unfold Web.project
  split
  · rename_i runId since tail hpoll
    obtain ⟨hle, hbase⟩ := h.base runId
    have hreads : ((w.ledger runId).drop since).take tail.length = tail :=
      h.reads _ (List.mem_of_getElem? hpoll)
    have hnext : (w.ledger runId).take (w.cache.cursor runId + tail.length) =
        (w.ledger runId).take (w.cache.cursor runId) ++ tail := by
      rcases ht runId since tail hpoll with hcur | hnil
      · rw [List.take_add, hcur, hreads]
      · rw [hnil, List.length_nil, Nat.add_zero, List.append_nil]
    have hlen : w.cache.cursor runId + tail.length ≤ (w.ledger runId).length := by
      have hlen := congrArg List.length hnext
      rw [List.length_take, List.length_append, List.length_take] at hlen
      omega
    obtain ⟨folded, hfold⟩ := foldEvents_take (hl runId) (w.cache.cursor runId + tail.length)
    have htail : foldEvents (w.cache.base runId) tail = .ok folded := by
      rw [hnext, foldEvents_append, hbase] at hfold
      exact hfold
    have hproj : w.cache.project runId tail = .ok (⟨Function.update w.cache.states runId
        (some (w.cache.cursor runId + tail.length, folded))⟩, folded) := by
      unfold ProjectionCache.project
      rw [htail]
    rw [hproj]
    refine ⟨?_, ?_, h.errors⟩
    · intro id cursor state he
      have he : Function.update w.cache.states runId
        (some (w.cache.cursor runId + tail.length, folded)) id = some (cursor, state) := he
      by_cases hid : id = runId
      · subst hid
        rw [Function.update_self] at he
        cases he
        exact ⟨hlen, hfold⟩
      · rw [Function.update_of_ne hid] at he
        exact h.exact id cursor state he
    · intro q hq
      rcases List.mem_or_eq_of_mem_set hq with hq | rfl
      · exact h.reads q hq
      · trivial
  · exact h

theorem Inv.invalidate {w : Web} (h : w.Inv) (runId : String) : (w.invalidate runId).Inv where
  exact id cursor state he := by
    have he : Function.update w.cache.states runId none id = some (cursor, state) := he
    by_cases hid : id = runId
    · subst hid
      rw [Function.update_self] at he
      cases he
    · rw [Function.update_of_ne hid] at he
      exact h.exact id cursor state he
  reads := h.reads
  errors := h.errors

theorem Inv.step {w : Web} (h : w.Inv) (hl : w.Legal) {a : Action} (ht : w.InTurn a) :
    (w.step a).Inv := by
  cases a with
  | append runId p => exact h.append runId p
  | ask runId => exact h.ask runId
  | read i => exact h.read i
  | project i => exact h.project hl ht
  | invalidate runId => exact h.invalidate runId

theorem step_ledger (w : Web) (a : Action) (runId : String) :
    ∃ l, (w.step a).ledger runId = w.ledger runId ++ l := by
  cases a with
  | append id p =>
    by_cases hid : runId = id
    · subst hid
      exact ⟨[p], Function.update_self ..⟩
    · exact ⟨[], (Function.update_of_ne hid ..).trans (List.append_nil _).symm⟩
  | read i =>
    refine ⟨[], ?_⟩
    show (w.read i).ledger runId = _
    unfold read
    split <;> exact (List.append_nil _).symm
  | project i =>
    refine ⟨[], ?_⟩
    show (w.project i).ledger runId = _
    unfold project
    split
    · split <;> exact (List.append_nil _).symm
    · exact (List.append_nil _).symm
  | _ => exact ⟨[], (List.append_nil _).symm⟩

/-- The logs only grow, so a run that ends with legal logs had legal logs. -/
theorem legal_of_exec {actions : List Action} :
    ∀ {w : Web}, (w.exec actions).Legal → w.Legal := by
  induction actions with
  | nil => exact fun h => h
  | cons a actions ih =>
    intro w h runId
    obtain ⟨l, hl⟩ := step_ledger w a runId
    have hstep : RunStatus.legalFrom .intake (statuses ((w.step a).ledger runId)) = true :=
      ih h runId
    rw [hl] at hstep
    have hfold := foldEvents_take hstep (w.ledger runId).length
    rw [List.take_left] at hfold
    exact (replay_ok_iff _).mp hfold

theorem Inv.exec {actions : List Action} :
    ∀ {w : Web}, w.Inv → (w.exec actions).Legal → w.Orderly actions → (w.exec actions).Inv := by
  induction actions with
  | nil => exact fun h _ _ => h
  | cons a actions ih =>
    intro w h hl ho
    have hw : w.Legal := legal_of_exec (show (w.exec (a :: actions)).Legal from hl)
    exact ih (h.step hw ho.1) hl ho.2

end Web

/-- **Polls.** In every state of every run of polls, appends and invalidations
whose folds are in turn, every cached entry is the fold of exactly the first
`cursor` events of its run, and on legal logs no poll has raised. -/
theorem polls_exact (actions : List Action) (hlegal : (({} : Web).exec actions).Legal)
    (horder : ({} : Web).Orderly actions) :
    (∀ runId, (({} : Web).exec actions).Exact runId) ∧
      (({} : Web).exec actions).errors = [] := by
  have h := Web.Inv.init.exec hlegal horder
  exact ⟨h.exact, h.errors⟩

/-- One poll after another of a run that goes on. -/
def pollTwice : List Action :=
  [.append "r" (.statusChanged .contracted), .ask "r", .read 0, .project 0,
    .append "r" (.statusChanged .planned), .ask "r", .read 1, .project 1]

theorem polls_exact_twice :
    (({} : Web).exec pollTwice).cache.cursor "r" = 2 ∧
      (∀ runId, (({} : Web).exec pollTwice).Exact runId) ∧
      (({} : Web).exec pollTwice).errors = [] := by
  refine ⟨by decide, polls_exact pollTwice ?_ ?_⟩
  · intro runId
    by_cases hid : runId = "r"
    · subst hid
      decide
    · show RunStatus.legalFrom .intake (statuses (Function.update (Function.update (fun _ => [])
        "r" _) "r" _ runId)) = true
      rw [Function.update_of_ne hid, Function.update_of_ne hid]
      rfl
  · refine ⟨trivial, trivial, trivial, ?_, trivial, trivial, trivial, ?_, trivial⟩
    · intro runId since tail hpoll
      cases hpoll
      exact .inl rfl
    · intro runId since tail hpoll
      cases hpoll
      exact .inl rfl

/-- Two polls of a run with one event, each step of the one before the same
step of the other. -/
def pollAbreast : List Action :=
  [.append "r" (.statusChanged .contracted), .ask "r", .ask "r", .read 0, .read 1, .project 0,
    .project 1]

/-- Both polls read the first event from cursor 0; the second folds it again
and raises on a legal log. -/
theorem polls_overlap :
    ¬ ∀ actions : List Action, (({} : Web).exec actions).Legal →
      (∀ runId, (({} : Web).exec actions).Exact runId) ∧ (({} : Web).exec actions).errors = [] := by
  intro h
  have hlegal : (({} : Web).exec pollAbreast).Legal := by
    intro runId
    by_cases hid : runId = "r"
    · subst hid
      decide
    · show RunStatus.legalFrom .intake (statuses (Function.update (fun _ => []) "r" _ runId)) = true
      rw [Function.update_of_ne hid]
      rfl
  exact absurd (h pollAbreast hlegal).2 (by decide)

end Northstack
