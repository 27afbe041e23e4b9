import Mathlib
import Northstack.Application.Turns
import Northstack.Core.Trace

/-!
# What an attempt may ask for

An attempt asks the gateway turn by turn. Its cell's budget bounds how often,
by rounds of tools or by calls, and how much, by tokens.

**Results.**
* `requests_within`: the requests of an attempt are bounded by either limit, and
  the attempt ends.
* `tokens_metered`: answers that keep to what was estimated and allowed never
  take an attempt past its token limit.
-/
namespace Northstack

open Coop Trace

/-! ## Requests -/

def Obs.isRequest : Obs → Bool
  | .requested .. => true
  | _ => false

/-- How many requests are among the notes. -/
def requestsIn (notes : List Obs) : Nat := notes.countP Obs.isRequest

section

variable {w : WorkerInput} {profile : ModelProfile} {window : Nat} {t : Turn} {ts : List Turn}
  {r : ModelResponse} {c c' : Conv} {notes : List Obs} {result : WorkerResult}
  {next : WorkerResult ⊕ Conv}

theorem requestsIn_append (notes notes' : List Obs) :
    requestsIn (notes ++ notes') = requestsIn notes + requestsIn notes' := List.countP_append

theorem requestsIn_passed {notes : List Obs}
    (h : ∀ o ∈ notes, ∃ p ms, o = w.passed p ms) : requestsIn notes = 0 := by
  refine List.countP_eq_zero.mpr fun o ho => ?_
  obtain ⟨p, ms, rfl⟩ := h o ho
  exact Bool.false_ne_true

theorem requestsIn_answers (t : Turn) (calls : List (ToolCall × Nat)) (c : Conv) :
    requestsIn (answerCalls w t calls c).1 = 0 := by
  refine requestsIn_passed (w := w) fun o ho => ?_
  obtain ⟨x, ms, he⟩ := answerCalls_notes t calls c o ho
  exact ⟨_, _, he⟩

theorem Compacted.requests (h : Compacted w window c notes c') : requestsIn notes = 0 := by
  cases h <;> rfl

theorem Replied.requests (h : Replied w profile t r c notes next) : requestsIn notes = 0 := by
  have hnote (notes : List Obs) :
      requestsIn (w.respondedTo profile c r :: notes) = requestsIn notes := rfl
  cases h with
  | ended => rfl
  | continued => rfl
  | cut =>
    rw [hnote]
    exact requestsIn_answers _ _ _
  | round hcalls h =>
    subst h
    rw [hnote, requestsIn_append, requestsIn_answers]
    rfl

theorem requestsIn_sent (p : Passage) (ms : List ModelMessage) (notes : List Obs) :
    requestsIn (w.passed p ms :: .requested w.cell.id w.attempt ms :: notes) =
      requestsIn notes + 1 := by
  unfold requestsIn
  rw [List.countP_cons_of_neg (by exact Bool.false_ne_true), List.countP_cons_of_pos rfl]

theorem Sent.requests (h : Sent w profile t c notes next) : requestsIn notes ≤ 1 := by
  cases h with
  | starved => exact Nat.zero_le 1
  | unanswered => exact le_refl 1
  | answered _ _ hnext => rw [requestsIn_sent, hnext.requests]

/-- A turn makes at most one request, and none once its cell is out of rounds or
of calls. -/
theorem Turned.requests (h : Turned w profile t c notes next) :
    requestsIn notes = 0 ∨ requestsIn notes ≤ 1 ∧
      Worker.turnBudgetError w t.overTime { c with turn := c.turn + 1 } = none := by
  cases h with
  | stopped => exact .inl rfl
  | went hbudget hc hs =>
    refine .inr ⟨?_, hbudget⟩
    rw [requestsIn_append, hc.requests, Nat.zero_add]
    exact hs.requests

/-- What lets the loop go on: a round of tools, the one repair, or a text that
was cut off. -/
theorem Turned.goes_on (h : Turned w profile t c notes (.inr c')) :
    requestsIn notes = 1 ∧ c'.acct.apiCalls = c.acct.apiCalls + 1 ∧
      (c'.acct.rounds = c.acct.rounds + 1 ∧ c'.truncatedTurns = 0 ∧
          c'.schemaRepairAttempted = c.schemaRepairAttempted ∨
        c'.acct.rounds = c.acct.rounds ∧
          (w.outputSchema = true ∧ c.schemaRepairAttempted = false ∧
              c'.schemaRepairAttempted = true ∧ c'.truncatedTurns = c.truncatedTurns ∨
            w.outputSchema = false ∧ c'.schemaRepairAttempted = c.schemaRepairAttempted ∧
              c'.truncatedTurns = c.truncatedTurns + 1 ∧
              c'.truncatedTurns < maxConsecutiveTruncations)) := by
  cases h with
  | @went c₁ notes₁ notes₂ _ hbudget hc hs =>
    obtain ⟨hacct, htrunc, hrepair⟩ := hc.keeps
    have hrequests : requestsIn (notes₁ ++ notes₂) = requestsIn notes₂ := by
      rw [requestsIn_append, hc.requests, Nat.zero_add]
    rw [hrequests]
    cases hs with
    | answered hout hr hnext =>
      refine ⟨by rw [requestsIn_sent, hnext.requests], ?_⟩
      cases hnext with
      | continued hcalls htext =>
        obtain ⟨hnacct, htext⟩ := afterText_inr htext
        have hcalls : c'.acct.apiCalls = c₁.acct.apiCalls + 1 := congrArg (·.apiCalls) hnacct
        have hrounds : c'.acct.rounds = c₁.acct.rounds := congrArg (·.rounds) hnacct
        rw [hacct] at hcalls hrounds
        refine ⟨hcalls, .inr ⟨hrounds, ?_⟩⟩
        rcases htext with ⟨hs, h1, h2, h3, -⟩ | ⟨hs, h1, h2, h3, -⟩
        · exact .inl ⟨hs, hrepair.symm.trans h1, h2, h3.trans htrunc⟩
        · exact .inr ⟨hs, h1.trans hrepair, h2.trans (congrArg (· + 1) htrunc), h3⟩
      | round hcalls h =>
        subst h
        rw [answerCalls_conv]
        exact ⟨congrArg (·.apiCalls + 1) hacct, .inl ⟨congrArg (·.rounds + 1) hacct, rfl, hrepair⟩⟩

/-! ## Bounds on the loop -/

/-- **Bound.** What every turn that goes on brings down bounds the requests, and
with more turns than that the loop has a result. -/
theorem Looped.bounded {ν : Conv → Nat} {J : Conv → Prop} {r : Option WorkerResult}
    (hmore : ∀ {t c notes c'}, Turned w profile t c notes (.inr c') → J c →
      J c' ∧ requestsIn notes + ν c' ≤ ν c ∧ requestsIn notes = 1)
    (hlast : ∀ {t c notes result}, Turned w profile t c notes (.inl result) → J c →
      requestsIn notes ≤ ν c)
    (h : Looped w profile ts c notes r) (hJ : J c) :
    requestsIn notes ≤ ν c ∧ (ν c < ts.length → r.isSome) := by
  induction h with
  | out c => exact ⟨Nat.zero_le _, fun hlt => absurd hlt (Nat.not_lt_zero _)⟩
  | last h => exact ⟨hlast h hJ, fun _ => rfl⟩
  | more h _ ih =>
    obtain ⟨hJ', hdown, hone⟩ := hmore h hJ
    obtain ⟨hle, hresult⟩ := ih hJ'
    refine ⟨?_, fun hlt => hresult ?_⟩
    · rw [requestsIn_append]
      omega
    · rw [List.length_cons] at hlt
      omega

/-- The rounds a cell has left. -/
def roundsLeft (w : WorkerInput) (c : Conv) : Nat :=
  w.cell.contract.budget.maxToolRounds - c.acct.rounds

/-- The requests a cell with a limit on its rounds may still make: with a schema
one for each round and one for the repair, else three for each round. -/
def requestsLeft (w : WorkerInput) (c : Conv) : Nat :=
  if roundsLeft w c = 0 then 0
  else if w.outputSchema then roundsLeft w c + (if c.schemaRepairAttempted then 0 else 1)
  else 3 * roundsLeft w c - c.truncatedTurns

theorem turnBudgetError_none {overTime : Bool}
    (h : Worker.turnBudgetError w overTime c = none) :
    (0 < w.cell.contract.budget.maxCalls →
        c.acct.apiCalls < w.cell.contract.budget.maxCalls) ∧
      (0 < w.cell.contract.budget.maxToolRounds →
        c.acct.rounds < w.cell.contract.budget.maxToolRounds) := by
  unfold Worker.turnBudgetError at h
  dsimp only at h
  split at h
  · cases h
  · split at h
    · cases h
    · rename_i hcalls
      split at h
      · cases h
      · rename_i hrounds
        constructor
        · intro hpos
          by_contra hle
          exact hcalls ⟨hpos, by omega⟩
        · intro hpos
          by_contra hle
          exact hrounds ⟨hpos, by omega⟩

/-- Every turn brings the requests left down. -/
theorem Turned.left_down (h : Turned w profile t c notes (.inr c'))
    (hR : 0 < w.cell.contract.budget.maxToolRounds) (hc : c.truncatedTurns < 3) :
    c'.truncatedTurns < 3 ∧ requestsIn notes + requestsLeft w c' ≤ requestsLeft w c ∧
      requestsIn notes = 1 := by
  have hrounds : c.acct.rounds < w.cell.contract.budget.maxToolRounds := by
    cases h with
    | went hbudget => exact (turnBudgetError_none hbudget).2 hR
  obtain ⟨hone, -, hcases⟩ := h.goes_on
  rw [hone]
  have hleft : roundsLeft w c ≠ 0 := by
    unfold roundsLeft
    omega
  rcases hcases with ⟨hround, htrunc, hrepair⟩ | ⟨hround, hcase⟩
  · have hless : roundsLeft w c' + 1 = roundsLeft w c := by
      unfold roundsLeft
      omega
    refine ⟨by omega, ?_, rfl⟩
    unfold requestsLeft
    rw [if_neg hleft, hrepair, htrunc]
    split
    · split <;> omega
    · split <;> omega
  · have hsame : roundsLeft w c' = roundsLeft w c := by
      unfold roundsLeft
      rw [hround]
    unfold requestsLeft
    rw [hsame, if_neg hleft, if_neg hleft]
    rcases hcase with ⟨hs, h1, h2, h3⟩ | ⟨hs, h1, h2, h3⟩
    · rw [if_pos hs, if_pos hs, h1, h2]
      refine ⟨by omega, ?_, rfl⟩
      simp only [if_true, Bool.false_eq_true, if_false]
      omega
    · unfold maxConsecutiveTruncations at h3
      rw [if_neg (by rw [hs]; exact Bool.false_ne_true),
        if_neg (by rw [hs]; exact Bool.false_ne_true)]
      exact ⟨h3, by omega, rfl⟩

theorem Turned.left_last (h : Turned w profile t c notes next)
    (hR : 0 < w.cell.contract.budget.maxToolRounds) (hc : c.truncatedTurns < 3) :
    requestsIn notes ≤ requestsLeft w c := by
  rcases h.requests with hzero | ⟨hone, hbudget⟩
  · omega
  · have hrounds : c.acct.rounds < w.cell.contract.budget.maxToolRounds :=
      (turnBudgetError_none hbudget).2 hR
    have hleft : 0 < roundsLeft w c := by
      unfold roundsLeft
      omega
    unfold requestsLeft
    rw [if_neg hleft.ne']
    split <;> omega

/-- With a limit `R` on its rounds an attempt makes at most `3 R` requests. -/
theorem Worked.rounds_bound {a : Attempt} {resume : Option (List ModelMessage)}
    {result : Option WorkerResult} (h : Worked w a resume notes result)
    (hR : 0 < w.cell.contract.budget.maxToolRounds) :
    requestsIn notes ≤ 3 * w.cell.contract.budget.maxToolRounds ∧
      (3 * w.cell.contract.budget.maxToolRounds < a.turns.length → result.isSome) := by
  cases h with
  | unresolved => exact ⟨Nat.zero_le _, fun _ => rfl⟩
  | looped hprofile hs =>
    have hstart : requestsLeft w { messages := Worker.initialMessages w resume } ≤
        3 * w.cell.contract.budget.maxToolRounds := by
      unfold requestsLeft roundsLeft
      dsimp only
      split
      · omega
      · split <;> (try split) <;> omega
    obtain ⟨hle, hresult⟩ := hs.bounded (J := fun c => c.truncatedTurns < 3)
      (fun h hJ => h.left_down hR hJ) (fun h hJ => h.left_last hR hJ) (Nat.zero_lt_succ _)
    exact ⟨hle.trans hstart, fun hlt => hresult (hstart.trans_lt hlt)⟩

/-- With a limit on its calls it makes no more than these. -/
theorem Worked.calls_bound {a : Attempt} {resume : Option (List ModelMessage)}
    {result : Option WorkerResult} (h : Worked w a resume notes result)
    (hM : 0 < w.cell.contract.budget.maxCalls) :
    requestsIn notes ≤ w.cell.contract.budget.maxCalls ∧
      (w.cell.contract.budget.maxCalls < a.turns.length → result.isSome) := by
  cases h with
  | unresolved => exact ⟨Nat.zero_le _, fun _ => rfl⟩
  | looped hprofile hs =>
    refine hs.bounded (ν := fun c => w.cell.contract.budget.maxCalls - c.acct.apiCalls)
      (J := fun _ => True) (fun h _ => ?_) (fun h _ => ?_) trivial
    · obtain ⟨hone, hcalls, -⟩ := h.goes_on
      rw [hone, hcalls]
      cases h with
      | went hbudget =>
        have hlt := (turnBudgetError_none hbudget).1 hM
        dsimp only at hlt
        exact ⟨trivial, by omega, rfl⟩
    · rcases h.requests with hzero | ⟨hone, hbudget⟩
      · omega
      · have hlt := (turnBudgetError_none hbudget).1 hM
        dsimp only at hlt
        omega

end

/-- The attempt ends, whatever happens at its awaits. -/
def AlwaysEnds {α : Type} (task : CellTask α) : Prop :=
  ∀ (gaps : Nat → Gap St Exc) (s : St),
    ∃ n, (task.outcome ((List.range n).map gaps) s).isSome

/-- **Requests.** Whatever the gateway answers and the tools return, in any
order, and whatever happens at the awaits: with a limit `R` on its rounds an
attempt makes at most `3 R` requests and ends, with one on its calls at most so
many. A script with more turns than that is never run out. -/
theorem requests_within (w : WorkerInput) (a : Attempt) (resume : Option (List ModelMessage)) :
    (0 < w.cell.contract.budget.maxToolRounds →
      (∀ gaps s, requestsIn ((Worker.run w a resume).heard turnNotes gaps s) ≤
        3 * w.cell.contract.budget.maxToolRounds) ∧
      (3 * w.cell.contract.budget.maxToolRounds < a.turns.length →
        AlwaysEnds (Worker.run w a resume))) ∧
    (0 < w.cell.contract.budget.maxCalls →
      (∀ gaps s, requestsIn ((Worker.run w a resume).heard turnNotes gaps s) ≤
        w.cell.contract.budget.maxCalls) ∧
      (w.cell.contract.budget.maxCalls < a.turns.length →
        AlwaysEnds (Worker.run w a resume))) := by
  obtain ⟨notes, r, htells, hworked⟩ := run_tells (w := w) a resume
  have hheard (gaps : List (Gap St Exc)) (s : St) :
      requestsIn ((Worker.run w a resume).heard turnNotes gaps s) ≤ requestsIn notes :=
    (htells.heard gaps s).sublist.countP_le
  refine ⟨fun hR => ?_, fun hM => ?_⟩
  · obtain ⟨hle, hresult⟩ := hworked.rounds_bound hR
    exact ⟨fun gaps s => (hheard gaps s).trans hle,
      fun hlt gaps s => (htells.ends (hresult hlt)).outcome gaps s⟩
  · obtain ⟨hle, hresult⟩ := hworked.calls_bound hM
    exact ⟨fun gaps s => (hheard gaps s).trans hle,
      fun hlt gaps s => (htells.ends (hresult hlt)).outcome gaps s⟩

/-- A cell with this budget. -/
def budgetedWorker (budget : Budget) : WorkerInput where
  cell := { id := "c", contract := { id := "wc", objective := "", budget := budget } }
  attempt := 0
  toolDefs := []
  registry := []
  estimate := fun ms => ms.length
  parse := fun _ => .invalid ""

/-- Four turns whose text is cut off. -/
def cutOffAttempt : Attempt where
  profile := .ok { name := "m" }
  turns := List.replicate 4 { reply := .response { text := "", finishReason := .maxTokens } }

theorem requests_within_three :
    (∀ gaps s, requestsIn ((Worker.run (budgetedWorker { maxToolRounds := 1, maxCalls := 2 })
        cutOffAttempt none).heard turnNotes gaps s) ≤ 3) ∧
      (∀ gaps s, requestsIn ((Worker.run (budgetedWorker { maxToolRounds := 1, maxCalls := 2 })
        cutOffAttempt none).heard turnNotes gaps s) ≤ 2) ∧
      AlwaysEnds (Worker.run (budgetedWorker { maxToolRounds := 1, maxCalls := 2 })
        cutOffAttempt none) := by
  have h := requests_within (budgetedWorker { maxToolRounds := 1, maxCalls := 2 }) cutOffAttempt none
  have hrounds := h.1 (by decide)
  have hcalls := h.2 (by decide)
  exact ⟨hrounds.1, hcalls.1, hcalls.2 (by decide)⟩

/-! ## Tokens -/

/-- The tokens a response reports. -/
def Obs.tokens : Obs → Nat
  | .responded _ _ spend _ _ => spend.inputTokens + spend.outputTokens
  | _ => 0

def tokensIn (notes : List Obs) : Nat := total Obs.tokens notes

/-- A response reports no more input than its request was estimated at, and no
more output than it allowed. -/
def Obs.KeepsTo : Obs → Prop
  | .responded _ _ spend estimate allowed =>
    spend.inputTokens ≤ estimate ∧ spend.outputTokens ≤ allowed
  | _ => True

/-- What a request may allow behind these notes, and which request a response is
noted with. -/
def Metes (w : WorkerInput) (profile : ModelProfile) (notes : List Obs) : Obs → Prop
  | .passed _ _ (.sent allowed) ms =>
    allowed ≤ profile.maxOutputTokens ∧ (0 < profile.maxOutputTokens → 0 < allowed) ∧
      ∀ l ∈ w.cell.contract.budget.tokenLimit, tokensIn notes + w.estimate ms + allowed ≤ l
  | .responded _ _ _ estimate allowed =>
    ∃ before ms, notes = before ++
        [w.passed (.sent allowed) ms, .requested w.cell.id w.attempt ms] ∧
      estimate = w.estimate ms
  | _ => True

section

variable {w : WorkerInput} {profile : ModelProfile} {window : Nat} {t : Turn} {ts : List Turn}
  {r : ModelResponse} {c c' : Conv} {told notes : List Obs} {next : WorkerResult ⊕ Conv}

/-- The tally is what was told. -/
def Conv.Tallies (c : Conv) (told : List Obs) : Prop :=
  tokensIn told = c.acct.inputTokens + c.acct.outputTokens

def NextTallies (next : WorkerResult ⊕ Conv) (told : List Obs) : Prop :=
  ∀ c ∈ next.getRight?, c.Tallies told

theorem tokensIn_append (notes notes' : List Obs) :
    tokensIn (notes ++ notes') = tokensIn notes + tokensIn notes' := total_append _ _ _

theorem tokensIn_passed {notes : List Obs} (h : ∀ o ∈ notes, ∃ p ms, o = w.passed p ms) :
    tokensIn notes = 0 := by
  refine total_zero fun o ho => ?_
  obtain ⟨p, ms, rfl⟩ := h o ho
  rfl

theorem Conv.Tallies.passed (h : c.Tallies told) (hn : ∀ o ∈ notes, ∃ p ms, o = w.passed p ms) :
    c.Tallies (told ++ notes) := by
  unfold Conv.Tallies
  rw [tokensIn_append, tokensIn_passed hn]
  exact h

theorem metes_passed {notes : List Obs} (h : Legal (Metes w profile) told)
    (hn : ∀ o ∈ notes, ∃ p ms, o = w.passed p ms ∧ ∀ k, p ≠ .sent k) :
    Legal (Metes w profile) (told ++ notes) := by
  refine h.append fun before o ho => ?_
  obtain ⟨p, ms, rfl, hp⟩ := hn o ho
  cases p with
  | sent k => exact absurd rfl (hp k)
  | _ => trivial

theorem answers_passed (t : Turn) (calls : List (ToolCall × Nat)) (c : Conv) :
    ∀ o ∈ (answerCalls w t calls c).1, ∃ p ms, o = w.passed p ms ∧ ∀ k, p ≠ .sent k := by
  intro o ho
  obtain ⟨x, ms, he⟩ := answerCalls_notes t calls c o ho
  exact ⟨_, _, he, nofun⟩

theorem Compacted.passed (h : Compacted w window c notes c') :
    ∀ o ∈ notes, ∃ p ms, o = w.passed p ms ∧ ∀ k, p ≠ .sent k := by
  cases h with
  | kept => exact List.forall_mem_nil _
  | elided =>
    intro o ho
    rw [List.mem_singleton.mp ho]
    exact ⟨_, _, rfl, nofun⟩

/-- The notes behind a response are passages, and what goes on has its cost. -/
theorem Replied.costs (h : Replied w profile t r c notes next) :
    ∃ rest, notes = w.respondedTo profile c r :: rest ∧
      (∀ o ∈ rest, ∃ p ms, o = w.passed p ms ∧ ∀ k, p ≠ .sent k) ∧
      ∀ c' ∈ next.getRight?, c'.acct.inputTokens = c.acct.inputTokens + r.usage.inputTokens ∧
        c'.acct.outputTokens = c.acct.outputTokens + r.usage.outputTokens := by
  cases h with
  | ended => exact ⟨[], rfl, List.forall_mem_nil _, nofun⟩
  | @continued next hcalls h =>
    refine ⟨_, rfl, ?_, fun c' hc' => ?_⟩
    · intro o ho
      rw [List.mem_singleton.mp ho]
      exact ⟨_, _, rfl, nofun⟩
    · cases hc'
      obtain ⟨hacct, -⟩ := afterText_inr h
      exact ⟨congrArg (·.inputTokens) hacct, congrArg (·.outputTokens) hacct⟩
  | cut => exact ⟨_, rfl, answers_passed _ _ _, nofun⟩
  | @round answered hcalls h =>
    subst h
    refine ⟨_, rfl, ?_, fun c' hc' => ?_⟩
    · intro o ho
      rcases List.mem_append.mp ho with ho | ho
      · exact answers_passed _ _ _ o ho
      · rw [List.mem_singleton.mp ho]
        exact ⟨_, _, rfl, nofun⟩
    · cases hc'
      rw [answerCalls_conv]
      exact ⟨rfl, rfl⟩

/-- A request asks for what the limit leaves, capped by the profile. -/
theorem requestedOutput_metes (hc : c.Tallies told)
    (hout : Worker.availableOutput w profile c ≠ 0) :
    Metes w profile told (w.passed (.sent (requestedOutput w profile c)) c.messages) := by
  unfold Conv.Tallies at hc
  unfold Metes WorkerInput.passed requestedOutput
  dsimp only
  refine ⟨min_le_right _ _, fun hpos => ?_, fun l hl => ?_⟩
  · exact lt_min (Nat.pos_of_ne_zero hout) hpos
  · unfold Worker.availableOutput at hout ⊢
    rw [Option.mem_def.mp hl] at hout ⊢
    dsimp only at hout ⊢
    omega

theorem Sent.metes (h : Sent w profile t c notes next) (hl : Legal (Metes w profile) told)
    (hc : c.Tallies told) :
    Legal (Metes w profile) (told ++ notes) ∧ NextTallies next (told ++ notes) := by
  have hasked (hout : Worker.availableOutput w profile c ≠ 0) : Legal (Metes w profile)
      (told ++ [w.passed (.sent (requestedOutput w profile c)) c.messages,
        .requested w.cell.id w.attempt c.messages]) := by
    rw [← List.singleton_append, ← List.append_assoc]
    exact .snoc (.snoc hl (requestedOutput_metes hc hout)) trivial
  cases h with
  | starved => exact ⟨by rwa [List.append_nil], nofun⟩
  | unanswered hout => exact ⟨hasked hout, nofun⟩
  | @answered r notes next hout hr hnext =>
    obtain ⟨rest, rfl, hrest, hcost⟩ := hnext.costs
    have hresponse : Metes w profile
        (told ++ [w.passed (.sent (requestedOutput w profile c)) c.messages,
          .requested w.cell.id w.attempt c.messages])
        (w.respondedTo profile c.recordAttempt r) := ⟨told, c.messages, rfl, rfl⟩
    have hlegal := Legal.snoc (hasked hout) hresponse
    have hnotes : told ++ w.passed (.sent (requestedOutput w profile c)) c.messages ::
        .requested w.cell.id w.attempt c.messages :: w.respondedTo profile c.recordAttempt r ::
          rest = (told ++ [w.passed (.sent (requestedOutput w profile c)) c.messages,
            .requested w.cell.id w.attempt c.messages] ++
              [w.respondedTo profile c.recordAttempt r]) ++ rest := by simp
    rw [hnotes]
    refine ⟨metes_passed hlegal hrest, fun c' hc' => ?_⟩
    obtain ⟨hin, hout'⟩ := hcost c' hc'
    unfold Conv.Tallies at hc ⊢
    have hzero : tokensIn rest = 0 := tokensIn_passed fun o ho =>
      (hrest o ho).imp fun p hp => hp.imp fun ms he => he.1
    rw [tokensIn_append, hzero, tokensIn_append, tokensIn_append, hc]
    show _ + 0 + (r.usage.inputTokens + r.usage.outputTokens) + 0 = _
    rw [hin, hout']
    show _ = c.acct.inputTokens + r.usage.inputTokens +
      (c.acct.outputTokens + r.usage.outputTokens)
    omega

theorem Turned.metes (h : Turned w profile t c notes next) (hl : Legal (Metes w profile) told)
    (hc : c.Tallies told) :
    Legal (Metes w profile) (told ++ notes) ∧ NextTallies next (told ++ notes) := by
  cases h with
  | stopped => exact ⟨by rwa [List.append_nil], nofun⟩
  | went _ hcompact hs =>
    have hpassed := hcompact.passed
    have htally := Conv.Tallies.passed hc fun o ho =>
      (hpassed o ho).imp fun p hp => hp.imp fun ms he => he.1
    obtain ⟨hacct, -, -⟩ := hcompact.keeps
    rw [← List.append_assoc]
    refine hs.metes (metes_passed hl hpassed) ?_
    unfold Conv.Tallies at htally ⊢
    rw [hacct]
    exact htally

/-- Along the loop every request is metered. -/
theorem Looped.metes {result : Option WorkerResult} (h : Looped w profile ts c notes result)
    (hl : Legal (Metes w profile) told) (hc : c.Tallies told) :
    Legal (Metes w profile) (told ++ notes) := by
  induction h generalizing told with
  | out c => rwa [List.append_nil]
  | last h => exact (h.metes hl hc).1
  | more h _ ih =>
    obtain ⟨hlegal, htally⟩ := h.metes hl hc
    rw [← List.append_assoc]
    exact ih hlegal (htally _ rfl)

theorem Worked.metes {a : Attempt} {resume : Option (List ModelMessage)}
    {result : Option WorkerResult} (h : Worked w a resume notes result)
    (hprofile : a.profile = .ok profile) : Legal (Metes w profile) notes := by
  cases h with
  | unresolved => exact .nil
  | looped hp hs =>
    rw [hprofile] at hp
    cases hp
    have hfirst : Legal (Metes w profile) [w.passed .began (Worker.initialMessages w resume)] :=
      .snoc .nil trivial
    exact hs.metes hfirst rfl

/-- Answers that keep to it never take the tokens past the limit. -/
theorem Legal.tokensIn_le {l : Nat} (hl : l ∈ w.cell.contract.budget.tokenLimit)
    (h : Legal (Metes w profile) notes) (hkeeps : ∀ o ∈ notes, o.KeepsTo) :
    tokensIn notes ≤ l := by
  induction h with
  | nil => exact Nat.zero_le l
  | @snoc notes o hlegal ho ih =>
    have hbefore := ih fun x hx => hkeeps x (List.mem_append_left _ hx)
    rw [tokensIn_append]
    cases o with
    | responded id n spend estimate allowed =>
      obtain ⟨before, ms, rfl, rfl⟩ := ho
      obtain ⟨hin, hout⟩ : spend.inputTokens ≤ w.estimate ms ∧ spend.outputTokens ≤ allowed :=
        hkeeps _ (List.mem_append_right _ (List.mem_singleton.mpr rfl))
      have hsent : Metes w profile before (w.passed (.sent allowed) ms) := by
        exact Legal.split hlegal
      have hroom := hsent.2.2 l hl
      rw [tokensIn_append]
      show tokensIn before + 0 + (spend.inputTokens + spend.outputTokens) ≤ l
      omega
    | _ => exact hbefore

end

/-- **Tokens.** Every request of an attempt allows a positive output, at most its
profile's. If no response reports more input than its request's estimate or more
output than the request allowed, the tokens of the attempt never exceed the
limit, whatever is answered and however the conversation is compacted. -/
theorem tokens_metered (w : WorkerInput) (a : Attempt) (resume : Option (List ModelMessage))
    {profile : ModelProfile} (hprofile : a.profile = .ok profile)
    (hmax : 0 < profile.maxOutputTokens) (gaps : List (Gap St Exc)) (s : St) :
    let notes := (Worker.run w a resume).heard turnNotes gaps s
    (∀ allowed ms, w.passed (.sent allowed) ms ∈ notes →
      0 < allowed ∧ allowed ≤ profile.maxOutputTokens) ∧
    (∀ before id n spend estimate allowed,
      before ++ [.responded id n spend estimate allowed] <+: notes →
      ∃ before' ms, before = before' ++
          [w.passed (.sent allowed) ms, .requested w.cell.id w.attempt ms] ∧
        estimate = w.estimate ms) ∧
    ((∀ o ∈ notes, o.KeepsTo) →
      ∀ l ∈ w.cell.contract.budget.tokenLimit, ∀ before, before <+: notes → tokensIn before ≤ l) := by
  intro notes
  obtain ⟨text, r, htells, hworked⟩ := run_tells (w := w) a resume
  have hlegal : Legal (Metes w profile) notes :=
    Legal.of_prefix (hworked.metes hprofile) (htells.heard gaps s)
  refine ⟨fun allowed ms hm => ?_, fun before id n spend estimate allowed hp => ?_,
    fun hkeeps l hl before hp => ?_⟩
  · obtain ⟨before, after, hsplit⟩ := List.append_of_mem hm
    obtain ⟨hle, hpos, -⟩ := (hsplit ▸ hlegal).split
    exact ⟨hpos hmax, hle⟩
  · exact (hlegal.of_prefix hp).last
  · exact Legal.tokensIn_le hl (hlegal.of_prefix hp) fun o ho => hkeeps o (hp.subset ho)

instance (o : Obs) : Decidable o.KeepsTo := by
  unfold Obs.KeepsTo
  split <;> infer_instance

/-- Four turns of two tokens each whose text is cut off. -/
def spendingAttempt : Attempt where
  profile := .ok { name := "m" }
  turns := List.replicate 4
    { reply := .response
        { text := "a", finishReason := .maxTokens
          usage := { inputTokens := 1, outputTokens := 1 } } }

theorem tokens_metered_spending :
    let notes := (Worker.run (budgetedWorker { tokenLimit := some 10 }) spendingAttempt none).heard
      turnNotes (List.replicate 12 ⟨id, .resume⟩) {}
    requestsIn notes = 3 ∧ tokensIn notes ≤ 10 := by
  have h := tokens_metered (budgetedWorker { tokenLimit := some 10 }) spendingAttempt none rfl
    (by decide) (List.replicate 12 ⟨id, .resume⟩) {}
  refine ⟨by decide +kernel, ?_⟩
  exact h.2.2 (by decide +kernel) 10 rfl _ List.prefix_rfl

end Northstack
