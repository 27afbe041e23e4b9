import Northstack.Core.TextFiles

/-!
# Retrying a request

`_execute_request` and `_open_stream_with_retry` send a request again while the
transport fails or the response has a transient status, and sleep in between as the
profile says. The one leaves its loop and looks at the status behind it, the other
returns from inside the loop and closes what it does not return.

**Result.** `retry_agree`: they make the same attempts with the same sleeps between
them, at most one more than there are retries, and come to the same class of result;
neither asks for a delay there is not.
-/
namespace Northstack

open TextFiles

/-- The retry settings of a valid profile: where there are retries there is a backoff
(`config.py:151-161, 247-252`). -/
structure RetrySettings where
  retries : Nat
  backoff : List ℚ≥0
  backed : retries ≠ 0 → backoff ≠ []

/-- What comes of one attempt: a `RequestError`, or a response with headers. -/
inductive TransportOutcome (ρ : Type)
  | requestError
  | response (statusCode : Nat) (resp : ρ)

/-- What a response gives when it is read. -/
structure ResponseReading (ρ α : Type) where
  text : ρ → Text
  errorBody : ρ → Text
  json : ρ → Option α

inductive GatewayError
  | network
  | authentication
  | http (statusCode : Nat) (body : Text)
  | invalidJson
  | unreachable
  deriving DecidableEq

/-- What ends a call: an error of the gateway, or an exception it did not mean to raise. -/
inductive CallEnd
  | error (e : GatewayError)
  | indexError
  | unboundLocal
  deriving DecidableEq

inductive TransportStep
  | attempt
  | close
  | sleep (seconds : ℚ≥0)
  deriving DecidableEq

/-- `_TRANSIENT_STATUS` (gateway.py:581) -/
def transientStatus : List Nat := [429, 502, 503, 504]

/-- `backoff[min(attempt, len(backoff) - 1)]`; the index of an empty list is -1. -/
def backoffAt (backoff : List ℚ≥0) (attempt : Nat) : Option ℚ≥0 :=
  let i := min (attempt : Int) (backoff.length - 1)
  if i < 0 then (if i + backoff.length < 0 then none else backoff[(i + backoff.length).toNat]?)
  else backoff[i.toNat]?

section

variable {ρ α : Type} (s : RetrySettings) (outcomes : Nat → TransportOutcome ρ)

/-- How the loop of `_execute_request` is left. -/
inductive RetryEnd (ρ : Type)
  | broke (statusCode : Nat) (resp : ρ)
  | exhausted
  | raised (e : CallEnd)

/-- The loop of `_execute_request` with `n` attempts to go, `gateway.py:674-689` -/
def executeLoop : Nat → Nat → List TransportStep × RetryEnd ρ
  | 0, _ => ([], .exhausted)
  | n + 1, attempt =>
    match outcomes attempt with
    | .requestError =>
      if attempt < s.retries then
        match backoffAt s.backoff attempt with
        | none => ([.attempt], .raised .indexError)
        | some seconds =>
          let rest := executeLoop n (attempt + 1)
          (.attempt :: .sleep seconds :: rest.1, rest.2)
      else ([.attempt], .raised (.error .network))
    | .response statusCode resp =>
      if statusCode ∈ transientStatus ∧ attempt < s.retries then
        match backoffAt s.backoff attempt with
        | none => ([.attempt], .raised .indexError)
        | some seconds =>
          let rest := executeLoop n (attempt + 1)
          (.attempt :: .sleep seconds :: rest.1, rest.2)
      else ([.attempt], .broke statusCode resp)

/-- `_execute_request`, `gateway.py:651-715` -/
def executeRequest (reading : ResponseReading ρ α) : List TransportStep × Except CallEnd α :=
  let run := executeLoop s outcomes (s.retries + 1) 0
  (run.1, match run.2 with
    | .raised e => .error e
    | .exhausted => .error .unboundLocal
    | .broke statusCode resp =>
      if statusCode = 401 then .error (.error .authentication)
      else if statusCode ≠ 200 then .error (.error (.http statusCode (reading.text resp)))
      else match reading.json resp with
        | some parsed => .ok parsed
        | none => .error (.error .invalidJson))

/-- The loop of `_open_stream_with_retry` with `n` attempts to go, `gateway.py:1000-1036` -/
def openLoop (reading : ResponseReading ρ α) :
    Nat → Nat → List TransportStep × Except CallEnd ρ
  | 0, _ => ([], .error (.error .unreachable))
  | n + 1, attempt =>
    match outcomes attempt with
    | .requestError =>
      if attempt < s.retries then
        match backoffAt s.backoff attempt with
        | none => ([.attempt], .error .indexError)
        | some seconds =>
          let rest := openLoop reading n (attempt + 1)
          (.attempt :: .sleep seconds :: rest.1, rest.2)
      else ([.attempt], .error (.error .network))
    | .response statusCode resp =>
      if statusCode = 401 then ([.attempt, .close], .error (.error .authentication))
      else if statusCode ∈ transientStatus ∧ attempt < s.retries then
        match backoffAt s.backoff attempt with
        | none => ([.attempt, .close], .error .indexError)
        | some seconds =>
          let rest := openLoop reading n (attempt + 1)
          (.attempt :: .close :: .sleep seconds :: rest.1, rest.2)
      else if statusCode ≠ 200 then
        ([.attempt, .close], .error (.error (.http statusCode (reading.errorBody resp))))
      else ([.attempt], .ok resp)

/-- `_open_stream_with_retry`, `gateway.py:983-1036` -/
def openStreamWithRetry (reading : ResponseReading ρ α) : List TransportStep × Except CallEnd ρ :=
  openLoop s outcomes reading (s.retries + 1) 0

end

/-! ## Classes of results -/

inductive ResultClass
  | accepted
  | authentication
  | http (statusCode : Nat)
  | network
  | defect
  deriving DecidableEq

/-- What was raised; a body that is no JSON is that of an accepted response. -/
def CallEnd.resultClass : CallEnd → ResultClass
  | .error .network => .network
  | .error .authentication => .authentication
  | .error (.http statusCode _) => .http statusCode
  | .error .invalidJson => .accepted
  | .error .unreachable => .defect
  | .indexError => .defect
  | .unboundLocal => .defect

def resultClass {α : Type} : Except CallEnd α → ResultClass
  | .ok _ => .accepted
  | .error e => e.resultClass

/-- The attempts and the sleeps. -/
def policySteps (steps : List TransportStep) : List TransportStep := steps.filter (· ≠ .close)

variable {ρ α : Type} {s : RetrySettings} {outcomes : Nat → TransportOutcome ρ}
  {reading : ResponseReading ρ α} {n attempt : Nat}

/-- A valid profile has a delay for every retry. -/
theorem backoffAt_isSome (h : attempt < s.retries) :
    ∃ seconds, backoffAt s.backoff attempt = some seconds := by
  have hpos := List.length_pos_iff.mpr (s.backed (by omega))
  unfold backoffAt
  dsimp only
  rw [if_neg (by omega)]
  exact ⟨_, List.getElem?_eq_getElem (by omega)⟩

/-- What `_execute_request` makes of the response it leaves its loop with. -/
def RetryEnd.resultClass : RetryEnd ρ → ResultClass
  | .raised e => e.resultClass
  | .exhausted => .defect
  | .broke statusCode _ =>
    if statusCode = 401 then .authentication
    else if statusCode ≠ 200 then .http statusCode else .accepted

theorem executeRequest_class :
    resultClass (executeRequest s outcomes reading).2 =
      (executeLoop s outcomes (s.retries + 1) 0).2.resultClass := by
  unfold executeRequest
  dsimp only
  cases (executeLoop s outcomes (s.retries + 1) 0).2 with
  | raised e => rfl
  | exhausted => rfl
  | broke statusCode resp =>
    unfold RetryEnd.resultClass
    dsimp only
    split
    · rfl
    · split
      · rfl
      · cases reading.json resp <;> rfl

/-- The two loops from an attempt on, with as many to go as the settings leave. -/
structure LoopsAgree (s : RetrySettings) (n : Nat) (e : List TransportStep × RetryEnd ρ)
    (o : List TransportStep × Except CallEnd ρ) : Prop where
  steps : policySteps o.1 = e.1
  result : resultClass o.2 = e.2.resultClass
  sound : e.2.resultClass ≠ .defect
  bound : e.1.count .attempt ≤ n

theorem loops_agree (outcomes : Nat → TransportOutcome ρ) (reading : ResponseReading ρ α)
    (h : attempt + n = s.retries + 1) (hn : 0 < n) :
    LoopsAgree s n (executeLoop s outcomes n attempt) (openLoop s outcomes reading n attempt) := by
  induction n generalizing attempt with
  | zero => omega
  | succ n ih =>
    unfold executeLoop openLoop
    cases outcomes attempt with
    | requestError =>
      dsimp only
      split
      · rename_i hlt
        obtain ⟨seconds, hseconds⟩ := backoffAt_isSome hlt
        obtain ⟨hsteps, hresult, hsound, hbound⟩ := @ih (attempt + 1) (by omega) (by omega)
        rw [hseconds]
        refine ⟨?_, hresult, hsound, ?_⟩
        · simpa [policySteps] using hsteps
        · simpa using hbound
      · exact ⟨rfl, rfl, by simp [RetryEnd.resultClass, CallEnd.resultClass], by simp⟩
    | response statusCode resp =>
      dsimp only
      by_cases hauth : statusCode = 401
      · have hfinal : ¬(statusCode ∈ transientStatus ∧ attempt < s.retries) := by
          rw [hauth]
          intro h
          exact absurd h.1 (by decide)
        rw [if_neg hfinal, if_pos hauth]
        refine ⟨rfl, ?_, ?_, by simp⟩
        · simp [RetryEnd.resultClass, hauth, resultClass, CallEnd.resultClass]
        · simp [RetryEnd.resultClass, hauth]
      rw [if_neg hauth]
      split
      · rename_i hagain
        obtain ⟨seconds, hseconds⟩ := backoffAt_isSome hagain.2
        obtain ⟨hsteps, hresult, hsound, hbound⟩ := @ih (attempt + 1) (by omega) (by omega)
        rw [hseconds]
        refine ⟨?_, hresult, hsound, ?_⟩
        · simpa [policySteps] using hsteps
        · simpa using hbound
      · split
        · rename_i hstatus
          refine ⟨rfl, ?_, ?_, by simp⟩
          · simp [RetryEnd.resultClass, hauth, hstatus, resultClass, CallEnd.resultClass]
          · simp [RetryEnd.resultClass, hauth, hstatus]
        · rename_i hstatus
          refine ⟨rfl, ?_, ?_, by simp⟩
          · simp [RetryEnd.resultClass, not_not.mp hstatus, resultClass]
          · simp [RetryEnd.resultClass, not_not.mp hstatus]

/-- **One retry policy.** -/
theorem retry_agree {ρ α : Type} (s : RetrySettings) (outcomes : Nat → TransportOutcome ρ)
    (reading : ResponseReading ρ α) :
    policySteps (openStreamWithRetry s outcomes reading).1 =
      (executeRequest s outcomes reading).1 ∧
    resultClass (openStreamWithRetry s outcomes reading).2 =
      resultClass (executeRequest s outcomes reading).2 ∧
    resultClass (executeRequest s outcomes reading).2 ≠ .defect ∧
    (executeRequest s outcomes reading).1.count .attempt ≤ s.retries + 1 := by
  obtain ⟨hsteps, hresult, hsound, hbound⟩ :=
    loops_agree outcomes reading (Nat.zero_add (s.retries + 1)) (Nat.succ_pos _)
  refine ⟨hsteps, ?_, ?_, hbound⟩
  · rw [executeRequest_class]
    exact hresult
  · rw [executeRequest_class]
    exact hsound

end Northstack
