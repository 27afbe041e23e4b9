import Northstack.Adapters.LedgerReads

/-!
# Pages of a run's events

Mirrors `get_events`, `export_ledger` and `_event_dict`
(interfaces/web/routes_runs.py:394-404, 425-438, 478-498). A client asks for the
events of a run page by page, each time from the `next_seq` of the answer before;
between its requests anyone may append to any run. A request the run index does
not resolve, or one whose numbers the route does not take, is answered with an
error and changes nothing.

**Results.**
* `Follows.step`: what every request and every call of the ledger keep.
* `pages_deliver`: over a whole session the pages are a prefix of the events, and
  `truncated` says whether more of them were there.
-/
namespace Northstack

namespace EventPages

open Ledger

section

variable {π : Type} (cat : Catalog π)

/-- `_event_dict` -/
def eventDict (e : StoredEvent π) : Json :=
  .obj [("run_id", .str e.runId), ("seq", .int e.seq), ("kind", .str (cat.kind e.payload)),
    ("payload", .obj (cat.dump e.payload)), ("timestamp", .float e.timestamp.1),
    ("prev_hash", .str e.prevHash), ("hash_chain", .str e.hashChain)]

inductive RouteError where
  /-- The query is refused (422). -/
  | unprocessable
  /-- A row could not be read (500). -/
  | failed
  deriving DecidableEq

structure EventsPage where
  events : List Json
  nextSeq : Int

structure ExportPage where
  runId : String
  events : List Json
  nextSeq : Int
  truncated : Bool

/-- `Query(ge=0)` and `Query(ge=1, le=5000)` -/
def admits (since limit : Int) : Bool := 0 ≤ since && 1 ≤ limit && limit ≤ 5000

/-- `tail[-1].seq if tail else since` -/
def nextSeq (tail : List (StoredEvent π)) (since : Int) : Int :=
  (tail.getLast?.map (·.seq)).getD since

/-- `get_events` (routes_runs.py:425-438) -/
def getEvents (table : List Row) (runId : String) (since : Int := 0) (limit : Int := 500) :
    Except RouteError EventsPage :=
  if admits since limit then
    match Ledger.eventsSince cat table runId since limit.toNat with
    | none => .error .failed
    | some tail => .ok { events := tail.map (eventDict cat), nextSeq := nextSeq tail since }
  else .error .unprocessable

/-- `export_ledger` (routes_runs.py:478-498): one event more than the limit is
read. -/
def exportLedger (table : List Row) (runId : String) (since : Int := 0) (limit : Int := 1000) :
    Except RouteError ExportPage :=
  if admits since limit then
    match Ledger.eventsSince cat table runId since (limit + 1).toNat with
    | none => .error .failed
    | some page =>
      let events := page.take limit.toNat
      .ok
        { runId := runId
          events := events.map (eventDict cat)
          nextSeq := nextSeq events since
          truncated := decide (limit < page.length) }
  else .error .unprocessable

/-- A ledger and a client of one run: where it will ask from, and what it was
given. -/
structure Session where
  table : List Row := []
  since : Int := 0
  received : List Json := []

/-- What may happen next: a call of the ledger, by anyone and for any run, or a
request of the client. -/
inductive Move (π : Type) where
  | call (c : Ledger.Call π)
  | getEvents (limit : Int)
  | exportLedger (limit : Int)

variable (sha256 : String → String) (runId : String)

def Session.step (s : Session) : Move π → Session
  | .call c => { s with table := (perform sha256 cat s.table c).1 }
  | .getEvents limit =>
    match EventPages.getEvents cat s.table runId s.since limit with
    | .ok page => { s with since := page.nextSeq, received := s.received ++ page.events }
    | .error _ => s
  | .exportLedger limit =>
    match EventPages.exportLedger cat s.table runId s.since limit with
    | .ok page => { s with since := page.nextSeq, received := s.received ++ page.events }
    | .error _ => s

/-- The session after some moves. -/
def session (moves : List (Move π)) : Session := moves.foldl (Session.step cat sha256 runId) {}

/-- The client was given the first events of the run, and asks on behind them. -/
structure Follows (s : Session) (log : List (StoredEvent π)) : Prop where
  kept : Ledger.Kept cat s.table
  legible : Legible cat s.table runId log
  received : s.received = (log.take s.received.length).map (eventDict cat)
  since : s.since = s.received.length

end

variable {π : Type} {cat : Catalog π} {sha256 : String → String} {runId : String} {s : Session}
  {log tail : List (StoredEvent π)} {limit : Int}

/-! ## One answer -/

theorem Follows.le (h : Follows cat runId s log) : s.received.length ≤ log.length := by
  have hlength := congrArg List.length h.received
  rw [List.length_map, List.length_take] at hlength
  omega

/-- The events of a run carry the numbers of their places. -/
theorem seq_of_getElem (h : Legible cat s.table runId log) {i : Nat} {e : StoredEvent π}
    (he : log[i]? = some e) : e.seq = i + 1 := by
  have hseq := congrArg (·[i]?) h.seq
  obtain ⟨hi, -⟩ := List.getElem?_eq_some_iff.mp he
  simp only [List.getElem?_map, he, Option.map_some, List.getElem?_range hi] at hseq
  exact Option.some.inj hseq

/-- The cursor behind a page is the number of its last event. -/
theorem nextSeq_eq (h : Legible cat s.table runId log) (n m : Nat) :
    nextSeq ((log.drop n).take m) n = n + ((log.drop n).take m).length := by
  unfold nextSeq
  rw [List.getLast?_eq_getElem?]
  generalize hk : ((log.drop n).take m).length = k
  cases k with
  | zero =>
    rw [List.eq_nil_of_length_eq_zero hk]
    simp
  | succ k =>
    have hlt : k < ((log.drop n).take m).length := by omega
    obtain ⟨e, he⟩ : ∃ e, ((log.drop n).take m)[k]? = some e :=
      ⟨_, List.getElem?_eq_getElem hlt⟩
    have hlog : log[n + k]? = some e := by
      rw [List.length_take] at hlt
      rw [List.getElem?_take, if_pos (by omega), List.getElem?_drop] at he
      exact he
    rw [Nat.add_sub_cancel, he, Option.map_some, Option.getD_some, seq_of_getElem h hlog]
    omega

/-- What the client has with a page of at most `m` more events. -/
theorem Follows.next (h : Follows cat runId s log) (m : Nat) :
    s.received ++ ((log.drop s.received.length).take m).map (eventDict cat) =
      (log.take (s.received.length + m)).map (eventDict cat) := by
  rw [List.take_add, List.map_append, ← h.received]

/-- A page of at most `m` events takes the client on by as many. -/
theorem Follows.deliver (h : Follows cat runId s log) (m : Nat) :
    Follows cat runId
      { s with
        since := nextSeq ((log.drop s.received.length).take m) s.since
        received := s.received ++ ((log.drop s.received.length).take m).map (eventDict cat) }
      log where
  kept := h.kept
  legible := h.legible
  received := by
    dsimp only
    rw [h.next, List.length_map, List.length_take, ← List.take_take, List.take_length]
  since := by
    dsimp only
    rw [h.since, nextSeq_eq h.legible, List.length_append, List.length_map]
    push_cast
    rfl

theorem Follows.admits (h : Follows cat runId s log) (hlimit : 1 ≤ limit ∧ limit ≤ 5000) :
    EventPages.admits s.since limit = true := by
  unfold EventPages.admits
  rw [h.since]
  simp [hlimit]

theorem not_admits {since : Int} (h : ¬ (1 ≤ limit ∧ limit ≤ 5000)) :
    EventPages.admits since limit = false := by
  unfold EventPages.admits
  simp only [Bool.and_eq_false_iff, decide_eq_false_iff_not]
  omega

theorem getEvents_refused {table : List Row} {since : Int} (h : ¬ (1 ≤ limit ∧ limit ≤ 5000)) :
    EventPages.getEvents cat table runId since limit = .error .unprocessable := by
  unfold EventPages.getEvents
  rw [not_admits h]
  rfl

theorem exportLedger_refused {table : List Row} {since : Int}
    (h : ¬ (1 ≤ limit ∧ limit ≤ 5000)) :
    EventPages.exportLedger cat table runId since limit = .error .unprocessable := by
  unfold EventPages.exportLedger
  rw [not_admits h]
  rfl

/-- **One page.** A request the route takes is answered with the next events, as many
as the limit allows. -/
theorem Follows.getEvents (h : Follows cat runId s log) (hlimit : 1 ≤ limit ∧ limit ≤ 5000) :
    EventPages.getEvents cat s.table runId s.since limit =
      .ok
        { events := ((log.drop s.received.length).take limit.toNat).map (eventDict cat)
          nextSeq := nextSeq ((log.drop s.received.length).take limit.toNat) s.since } := by
  unfold EventPages.getEvents
  rw [if_pos (h.admits hlimit), h.since, h.legible.since]

/-- One more event is read for an export; the page is cut off before it. -/
theorem Follows.exportLedger (h : Follows cat runId s log) (hlimit : 1 ≤ limit ∧ limit ≤ 5000) :
    EventPages.exportLedger cat s.table runId s.since limit =
      .ok
        { runId := runId
          events := ((log.drop s.received.length).take limit.toNat).map (eventDict cat)
          nextSeq := nextSeq ((log.drop s.received.length).take limit.toNat) s.since
          truncated := decide (s.received.length + limit < log.length) } := by
  have hsucc : (limit + 1).toNat = limit.toNat + 1 := by omega
  have hpage : ((log.drop s.received.length).take (limit.toNat + 1)).take limit.toNat =
      (log.drop s.received.length).take limit.toNat := by
    rw [List.take_take, Nat.min_eq_left (by omega)]
  have hmore : limit < ((log.drop s.received.length).take (limit.toNat + 1)).length ↔
      s.received.length + limit < log.length := by
    rw [List.length_take, List.length_drop]
    omega
  unfold EventPages.exportLedger
  rw [if_pos (h.admits hlimit), hsucc, h.since, h.legible.since]
  dsimp only
  rw [hpage]
  simp only [hmore]

/-! ## Sessions -/

theorem Follows.init : Follows cat runId {} [] where
  kept := .nil
  legible := ⟨rfl, rfl⟩
  received := rfl
  since := rfl

/-- **One move.** The events of the run stay, others may follow, and the client
has the first of them. -/
theorem Follows.step (sha256 : String → String) (hcat : cat.Lawful) (h : Follows cat runId s log)
    (move : Move π) :
    ∃ more, Follows cat runId (s.step cat sha256 runId move) (log ++ more) := by
  cases move with
  | call c =>
    obtain ⟨hkept, hgrows⟩ := h.kept.grows sha256 hcat c
    obtain ⟨more, hlegible⟩ := hgrows runId log h.legible
    refine ⟨more, hkept, hlegible, ?_, h.since⟩
    show s.received = ((log ++ more).take s.received.length).map (eventDict cat)
    rw [List.take_append_of_le_length h.le]
    exact h.received
  | getEvents limit =>
    refine ⟨[], ?_⟩
    rw [List.append_nil]
    unfold Session.step
    dsimp only
    by_cases hlimit : 1 ≤ limit ∧ limit ≤ 5000
    · rw [h.getEvents hlimit]
      exact h.deliver limit.toNat
    · rw [getEvents_refused hlimit]
      exact h
  | exportLedger limit =>
    refine ⟨[], ?_⟩
    rw [List.append_nil]
    unfold Session.step
    dsimp only
    by_cases hlimit : 1 ≤ limit ∧ limit ≤ 5000
    · rw [h.exportLedger hlimit]
      exact h.deliver limit.toNat
    · rw [exportLedger_refused hlimit]
      exact h

theorem follows_session (sha256 : String → String) (runId : String) (hcat : cat.Lawful)
    (moves : List (Move π)) :
    ∃ log, Follows cat runId (session cat sha256 runId moves) log := by
  induction moves using List.reverseRecOn with
  | nil => exact ⟨[], .init⟩
  | append_singleton moves move ih =>
    obtain ⟨log, hlog⟩ := ih
    obtain ⟨more, hmore⟩ := hlog.step sha256 hcat move
    refine ⟨log ++ more, ?_⟩
    unfold session
    rw [List.foldl_append]
    exact hmore

/-- **Pages.** After any moves of a client and of those who append, what the client
was given is the beginning of the run's events and its cursor stands behind them.
A request with a limit the route takes is answered with the next events, and an
export is said to be cut off exactly when the run has events behind it. -/
theorem pages_deliver (hcat : cat.Lawful) (moves : List (Move π)) :
    ∃ log, events cat (session cat sha256 runId moves).table runId = some log ∧
      (session cat sha256 runId moves).received <+: log.map (eventDict cat) ∧
      (session cat sha256 runId moves).since = (session cat sha256 runId moves).received.length ∧
      ∀ limit : Int, 1 ≤ limit → limit ≤ 5000 →
        (∃ page, EventPages.getEvents cat (session cat sha256 runId moves).table runId
            (session cat sha256 runId moves).since limit = .ok page ∧
          (session cat sha256 runId moves).received ++ page.events =
            (log.map (eventDict cat)).take
              ((session cat sha256 runId moves).received.length + limit.toNat)) ∧
        ∃ page, EventPages.exportLedger cat (session cat sha256 runId moves).table runId
            (session cat sha256 runId moves).since limit = .ok page ∧
          (session cat sha256 runId moves).received ++ page.events =
            (log.map (eventDict cat)).take
              ((session cat sha256 runId moves).received.length + limit.toNat) ∧
          (page.truncated = true ↔
            (session cat sha256 runId moves).received.length + page.events.length <
              log.length) := by
  obtain ⟨log, h⟩ := follows_session sha256 runId hcat moves
  refine ⟨log, h.legible.reads, ?_, h.since, fun limit hlow hhigh => ?_⟩
  · have hprefix := List.take_prefix (session cat sha256 runId moves).received.length
      (log.map (eventDict cat))
    rwa [← List.map_take, ← h.received] at hprefix
  · rw [← List.map_take]
    refine ⟨⟨_, h.getEvents ⟨hlow, hhigh⟩, h.next _⟩, _, h.exportLedger ⟨hlow, hhigh⟩, h.next _, ?_⟩
    dsimp only
    rw [decide_eq_true_iff, List.length_map, List.length_take, List.length_drop]
    omega

/-- Two findings are stored, and fetched with a page before the second and one
after it. -/
def findingMoves : List (Move Finding) :=
  [.call (.append none (findingAt "imports" false)), .getEvents 1,
    .call (.appendNext none "r" ⟨"exports"⟩ Double.zero), .exportLedger 5]

theorem pages_deliver_findings :
    (session findings findingHash "r" findingMoves).received.length = 2 ∧
      ∃ log, events findings (session findings findingHash "r" findingMoves).table "r" = some log ∧
        (session findings findingHash "r" findingMoves).received <+:
          log.map (eventDict findings) := by
  refine ⟨by decide +kernel, ?_⟩
  obtain ⟨log, hread, hprefix, -⟩ :=
    @pages_deliver Finding findings findingHash "r" findings_lawful findingMoves
  exact ⟨log, hread, hprefix⟩

end EventPages

end Northstack
