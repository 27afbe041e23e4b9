import Northstack.Application.CellRunner
import Northstack.Application.CellSteps
import Northstack.Application.Conversations

/-!
# What one cell ensures

The worker's loop keeps the conversation audited as long as no rewrite drops a
tool name: a response joins the conversation before its tools start, and every
later message only adds to it. Between its turns the conversation is paired, if
the one it was restored from was. Its tally is what the gateway was asked and
what its answers to the attempt cost. The runner charges the tally of every result, and hands the names
of the successful attempt to the run before it records the completion.

**Result.** `runCell_sat`: `run_cell` only takes steps its terms allow. If it
returns `True`, its `CellCompleted` is in the log and the run's audit has the
tools executed for the cell; a `RunOutcome` it returns is never VERIFIED.
-/
namespace Northstack

open Coop Relation

/-! ## Conversations -/

theorem toolNames_say (c : Conv) (role : MessageRole) (text : String) :
    toolNames c.messages ⊆ toolNames (c.say role text).messages := by
  simp [Conv.say, toolNames_append]

theorem toolNames_withFinal (c : Conv) (text : String) :
    toolNames c.messages ⊆ toolNames (c.withFinal text) := by
  unfold Conv.withFinal
  split
  · exact List.Subset.refl _
  · simp [toolNames_append]

theorem toolNames_addToolResult (c : Conv) (call : ToolCall) (r : ToolResultMessage) :
    toolNames c.messages ⊆ toolNames (c.addToolResult call r).messages := by
  simp [Conv.addToolResult, toolNames_append]

/-- No cost was recorded without a call. -/
def Conv.Metered (c : Conv) : Prop := c.acct.apiCalls = 0 → c.acct.cost = 0

def WorkerResult.Metered (r : WorkerResult) : Prop := r.apiCalls = 0 → r.totalCostUsd = 0

def AttemptAccounting.expense (a : AttemptAccounting) : Expense :=
  ((a.inputTokens, a.outputTokens, a.cost), a.apiCalls)

def WorkerResult.expense (r : WorkerResult) : Expense :=
  ((r.totalInputTokens, r.totalOutputTokens, r.totalCostUsd), r.apiCalls)

/-- The cell's attempts so far are below `n`. -/
def Began (T : Terms) (n : Nat) (t : St) : Prop :=
  T.distinct → Before T.id n (T.own t.history)

/-- The cell is in its attempt `n`, whose answers have cost `e.1` for `e.2`
requests. -/
def Tallied (T : Terms) (n : Nat) (e : Expense) (t : St) : Prop :=
  T.distinct → During T.id n e (T.own t.history)

/-- The conversation awaits the results of the calls `pending`, if what it was
restored from was paired. -/
def Awaits (pending : List String) (ms : List ModelMessage) (t : St) : Prop :=
  RestoredPaired t.history → awaiting [] ms = some pending

/-- The loop's invariant: the cost is metered, the tally is what the cell's
account says of the attempt, the conversation is audited, and it awaits the
results of the calls `pending`, which is none between turns. -/
structure Conv.Sound (T : Terms) (n : Nat) (pending : List String) (c : Conv) (t : St) : Prop where
  metered : c.Metered
  tallied : Tallied T n c.acct.expense t
  audited : Audited T c.messages t
  awaits : Awaits pending c.messages t

/-- What an attempt's result guarantees; one that ran out of its budget may
have stopped between a call and its result. -/
structure WorkerResult.Sound (T : Terms) (n : Nat) (r : WorkerResult) (t : St) : Prop where
  metered : r.Metered
  tallied : Tallied T n r.expense t
  audited : r.ok = true → Audited T r.messages t
  awaits : r.errorKind ≠ "budget" → Awaits [] r.messages t

/-- Either way a turn ends. -/
def NextSound (T : Terms) (n : Nat) : WorkerResult ⊕ Conv → St → Prop
  | .inl r, t => r.Sound T n t
  | .inr c, t => c.Sound T n [] t

theorem Began.mono {T : Terms} {n : Nat} {s t : St} (h : Began T n s) (ha : Aside T s t) :
    Began T n t := by
  intro hD
  rw [ha.own hD]
  exact h hD

theorem RestoredPaired.of_prefix {h h' : List Obs} (hp : h <+: h') (hr : RestoredPaired h') :
    RestoredPaired h :=
  fun id ms hm => hr id ms (hp.subset hm)

section

variable {T : Terms} {n : Nat} {pending : List String} {s t : St} {c : Conv}

theorem Tallied.mono {e : Expense} (h : Tallied T n e s) (ha : Aside T s t) : Tallied T n e t := by
  intro hD
  rw [ha.own hD]
  exact h hD

theorem Tallied.began {e : Expense} (h : Tallied T n e s) : Began T (n + 1) s :=
  fun hD => (h hD).before

theorem Awaits.mono {ms : List ModelMessage} (h : Awaits pending ms s) (hg : Grows s t) :
    Awaits pending ms t :=
  fun hr => h (hr.of_prefix hg.history)

theorem Conv.Sound.mono (h : c.Sound T n pending s) (ha : Aside T s t) : c.Sound T n pending t :=
  ⟨h.metered, h.tallied.mono ha, h.audited.mono ha, h.awaits.mono ha.toGrows⟩

theorem Conv.Sound.passed (h : c.Sound T n pending s) (k : Nat) (p : Passage)
    (ms : List ModelMessage) : c.Sound T n pending (s.pass T.id k p ms) :=
  h.mono (Aside.note rfl s)

theorem Conv.Sound.began (h : c.Sound T n pending s) : Began T (n + 1) s := h.tallied.began

theorem Conv.Sound.failure (h : c.Sound T n [] s) (kind detail : String) :
    (c.failure kind detail).Sound T n s :=
  ⟨h.metered, h.tallied, nofun, fun _ => h.awaits⟩

theorem Conv.Sound.failureWith (h : c.Sound T n [] s) (kind detail text : String) :
    (c.failureWith kind detail text).Sound T n s :=
  ⟨h.metered, h.tallied, nofun, fun _ hr => Paired.withFinal (h.awaits hr) text⟩

/-- Running out of the budget may leave calls open. -/
theorem Conv.Sound.cut (h : c.Sound T n pending s) (detail : String) :
    (c.failure "budget" detail).Sound T n s :=
  ⟨h.metered, h.tallied, nofun, fun hk => absurd rfl hk⟩

theorem Conv.Sound.success (h : c.Sound T n [] s) (text : String) : (c.success text).Sound T n s :=
  ⟨h.metered, h.tallied, fun _ => h.audited.more (toolNames_withFinal c text),
    fun _ hr => Paired.withFinal (h.awaits hr) text⟩

theorem Conv.Sound.say (h : c.Sound T n [] s) (role : MessageRole) (hr : role ≠ .tool)
    (text : String) : (c.say role text).Sound T n [] s :=
  ⟨h.metered, h.tallied, h.audited.more (toolNames_say c role text),
    fun hp => Paired.say (h.awaits hp) hr text⟩

theorem Conv.Sound.repaired (h : c.Sound T n pending s) :
    Conv.Sound T n pending { c with schemaRepairAttempted := true } s :=
  ⟨h.metered, h.tallied, h.audited, h.awaits⟩

theorem Conv.Sound.addToolResult {call : ToolCall} (h : c.Sound T n (call.id :: pending) s)
    (r : ToolResultMessage) : (c.addToolResult call r).Sound T n pending s :=
  ⟨h.metered, h.tallied, h.audited.more (toolNames_addToolResult c call r),
    fun hp => awaiting_addToolResult (h.awaits hp) r⟩

/-- A request is sent with a paired conversation, and counted. -/
theorem Conv.Sound.requests (h : c.Sound T n [] s) :
    c.recordAttempt.Sound T n [] (s.note (.requested T.id n c.recordAttempt.messages)) where
  metered := fun h0 => absurd h0 (Nat.succ_ne_zero _)
  tallied := fun hD => by
    rw [Terms.own_note rfl]
    exact (h.tallied hD).requests _
  audited := fun hD hk => h.audited hD (hk.of_prefix (List.prefix_append _ _))
  awaits := h.awaits.mono (s.frame_note _).toGrows

theorem Conv.Sound.allows (h : c.Sound T n [] s) :
    T.Allows s.history (.requested T.id n c.messages) :=
  ⟨rfl, h.awaits, fun hD => ⟨(h.tallied hD).before.live, (h.tallied hD).uncharged⟩⟩

end

/-- The terms of a cell's worker. -/
def WorkerInput.terms (w : WorkerInput) (D : Prop) (may : String → Prop) : Terms := ⟨w.cell, D, may⟩

/-- Every tool a turn's response has dispatched may be executed. -/
def WorkerInput.Permits (w : WorkerInput) (may : String → Prop) (turn : Turn) : Prop :=
  ∀ r, turn.reply = .response r → ∀ call ∈ r.toolCalls, validateToolArgs call w.toolDefs = none →
    (w.registry.get call.name).isSome = true → may call.name

section Worker

variable {D : Prop} {may : String → Prop} {w : WorkerInput} {s : St} {c : Conv}

/-- A progress event leaves the loop's invariant alone, even if it is dropped. -/
theorem emitEvent_ens {step : String} {k : Nat} {detail : List (String × Json)}
    {pending : List String} (h : c.Sound (w.terms D may) w.attempt pending s) :
    Ens (w.terms D may) (Began (w.terms D may) (w.attempt + 1)) (Worker.emitEvent w k step detail)
      (fun _ t => c.Sound (w.terms D may) w.attempt pending t) s := by
  refine Co.sat_tryCatch (emitCell_sat (fun t c _ => allows_row rfl rfl) ?_ ?_ ?_)
  · exact fun t ht => h.mono (ht.append rfl false)
  · intro e t ht
    have hs := h.mono (ht.append (p := .cellProgress w.cell.id step w.attempt k detail) rfl true)
    cases e with
    | cancelled n => exact ens_throw hs.began
    | exception k m => exact ens_pure hs
  · intro e t ht
    have hs := h.mono (ht.appendFailed (.cellProgress w.cell.id step w.attempt k detail))
    cases e with
    | cancelled n => exact ens_throw hs.began
    | exception k m => exact ens_pure hs

theorem compact_ens {window : Nat} (h : c.Sound (w.terms D may) w.attempt [] s) :
    Ens (w.terms D may) (Began (w.terms D may) (w.attempt + 1)) (Worker.compact w window c)
      (fun c' t => c'.acct = c.acct ∧ c'.Sound (w.terms D may) w.attempt [] t) s := by
  unfold Worker.compact
  split
  · exact ens_pure ⟨rfl, h⟩
  · rename_i messages elided hcompact
    refine ens_bind (ens_modify (CellStep.rewrite _ _) ?_)
    have hawaits : Awaits [] (noteElision messages (c.totalElided + (elided + 1))) s := by
      intro hr
      have hms := compactMessages_awaiting w.estimate window (h.awaits hr)
      rw [hcompact] at hms
      rw [noteElision_awaiting]
      exact hms
    have hc : Conv.Sound (w.terms D may) w.attempt [] { c with
        messages := noteElision messages (c.totalElided + (elided + 1))
        totalElided := c.totalElided + (elided + 1) } _ :=
      ⟨h.metered, (h.mono (Aside.note rfl s)).tallied,
        audited_noteRewrite (T := w.terms D may) (s := s),
        hawaits.mono (s.frame_note _).toGrows⟩
    refine ens_bind (ens_modify (CellStep.pass _ _ _ _) ?_)
    exact (emitEvent_ens (hc.passed _ _ _)).seq fun _ t ht => ens_pure ⟨rfl, ht⟩

/-! ## Tool calls -/

/-- A batch only holds calls of the response. -/
theorem toolBatches_mem {α : Type} (mutating : α → Bool) (calls : List α) :
    ∀ batch ∈ toolBatches mutating calls, ∀ x ∈ batch, x ∈ calls := by
  intro batch hb x hx
  rw [← toolBatches_flatten mutating calls]
  exact List.mem_flatten.mpr ⟨batch, hb, hx⟩

/-- A batch's results join the conversation behind their calls. -/
theorem collectBatch_ens {turn : Turn} {pending : List String} (calls : List (ToolCall × Nat)) :
    ∀ {c : Conv} {s : St},
    c.Sound (w.terms D may) w.attempt (calls.map (·.1.id) ++ pending) s →
    Ens (w.terms D may) (Began (w.terms D may) (w.attempt + 1))
      (Worker.collectBatch w turn calls c)
      (fun c' t => c'.Sound (w.terms D may) w.attempt pending t ∧
        toolNames c.messages ⊆ toolNames c'.messages) s := by
  induction calls with
  | nil => exact fun h => ens_pure ⟨h, List.Subset.refl _⟩
  | cons call calls ih =>
    intro c s h
    unfold Worker.collectBatch
    dsimp only
    have hr : (c.addToolResult call.1 (Worker.resolve w (turn.tool call.2) call.1)).Sound
        (w.terms D may) w.attempt (calls.map (·.1.id) ++ pending) s := h.addToolResult _
    refine ens_bind (ens_modify (CellStep.pass _ _ _ _) ?_)
    refine (emitEvent_ens (hr.passed _ _ _)).seq fun _ t ht => Ens.mono ?_ (ih ht)
    exact fun c' u hu => ⟨hu.1, List.Subset.trans (toolNames_addToolResult c _ _) hu.2⟩

/-- A call of a batch is part of the conversation, and may be executed if it is
dispatched. -/
def Callable (w : WorkerInput) (may : String → Prop) (turn : Turn) (c : Conv)
    (x : ToolCall × Nat) : Prop :=
  x.1.name ∈ toolNames c.messages ∧
    (Worker.dispatched w (turn.tool x.2) x.1 = true → may x.1.name)

/-- What a response's batches have come to: every call was answered, or time
ran out with some of them open. -/
def BatchesSound (T : Terms) (n : Nat) : Conv ⊕ Conv → St → Prop
  | .inl c, t => ∃ pending, c.Sound T n pending t
  | .inr c, t => c.Sound T n [] t

/-- The tools of a batch start only once the response that calls them is part
of the conversation. -/
theorem runBatches_ens {turn : Turn} (batches : List (List (ToolCall × Nat))) :
    ∀ {k : Nat} {c : Conv} {s : St},
    c.Sound (w.terms D may) w.attempt (batches.flatten.map (·.1.id)) s →
    (∀ batch ∈ batches, ∀ x ∈ batch, Callable w may turn c x) →
    Ens (w.terms D may) (Began (w.terms D may) (w.attempt + 1))
      (Worker.runBatches w turn k batches c) (BatchesSound (w.terms D may) w.attempt) s := by
  induction batches with
  | nil => exact fun h _ => ens_pure h
  | cons batch batches ih =>
    intro k c s h hb
    unfold Worker.runBatches
    refine ens_bind (ens_suspend (fun t ht => ?_) fun t ht => (h.mono ht.aside).began)
    have hnames : ∀ n ∈ (batch.filter fun x => Worker.dispatched w (turn.tool x.2) x.1).map
        (·.1.name), n ∈ toolNames c.messages ∧ may n := by
      intro n hn
      obtain ⟨x, hx, rfl⟩ := List.mem_map.mp hn
      obtain ⟨hx, hd⟩ := List.mem_filter.mp hx
      have hcall := hb batch List.mem_cons_self x hx
      exact ⟨hcall.1, hcall.2 hd⟩
    have ht := h.mono ht.aside
    have hm : c.Sound (w.terms D may) w.attempt ((batch :: batches).flatten.map (·.1.id))
        (t.markExecuted w.cell.id
          ((batch.filter fun x => Worker.dispatched w (turn.tool x.2) x.1).map (·.1.name))) :=
      ⟨ht.metered, ht.tallied, ht.audited.markExecuted fun n hn => (hnames n hn).1, ht.awaits⟩
    refine ens_bind (ens_modify (CellStep.execute _ _ fun n hn => (hnames n hn).2) ?_)
    refine ens_bind (ens_suspend (fun u hu => ?_) fun u hu => (hm.mono hu.aside).began)
    have hu := hm.mono hu.aside
    split
    · exact ens_pure ⟨_, hu⟩
    · rw [List.flatten_cons, List.map_append] at hu
      refine (collectBatch_ens batch hu).seq fun c' v hv => ?_
      refine ih hv.1 fun b hb' x hx => ?_
      have hcall := hb b (List.mem_cons_of_mem _ hb') x hx
      exact ⟨hv.2 hcall.1, hcall.2⟩

/-- What is dispatched is validated and registered. -/
theorem dispatched_permits {answer : ToolAnswer} {call : ToolCall}
    (h : Worker.dispatched w answer call = true) :
    validateToolArgs call w.toolDefs = none ∧ (w.registry.get call.name).isSome = true := by
  unfold Worker.dispatched at h
  split at h
  · rename_i hv hr
    exact ⟨hv, by rw [hr]; rfl⟩
  · cases h

theorem afterToolCalls_ens {turn : Turn} {r : ModelResponse} (hp : w.Permits may turn)
    (hreply : turn.reply = .response r) (h : c.Sound (w.terms D may) w.attempt [] s) :
    Ens (w.terms D may) (Began (w.terms D may) (w.attempt + 1))
      (Worker.afterToolCalls w turn r c) (NextSound (w.terms D may) w.attempt) s := by
  unfold Worker.afterToolCalls
  dsimp only
  have hnames : toolNames (c.messages ++
      [{ role := .assistant, content := r.text, toolCalls := r.toolCalls }]) =
      toolNames c.messages ++ r.toolCalls.map (·.name) := by
    simp [toolNames]
  have hids : (toolBatches (Worker.isMutating w) r.toolCalls.zipIdx).flatten.map (·.1.id) =
      r.toolCalls.map (·.id) := by
    have hfst := congrArg (List.map ToolCall.id) (List.zipIdx_map_fst 0 r.toolCalls)
    rw [List.map_map] at hfst
    rw [toolBatches_flatten]
    exact hfst
  have hc : Conv.Sound (w.terms D may) w.attempt
      ((toolBatches (Worker.isMutating w) r.toolCalls.zipIdx).flatten.map (·.1.id)) { c with
      truncatedTurns := 0
      messages := c.messages ++
        [{ role := .assistant, content := r.text, toolCalls := r.toolCalls }] } s :=
    ⟨h.metered, h.tallied, h.audited.more (hnames ▸ List.subset_append_left _ _),
      fun hr => hids ▸ awaiting_response (h.awaits hr) r.text r.toolCalls⟩
  refine (runBatches_ens _ hc ?_).seq ?_
  rotate_left
  · intro done t ht
    cases done with
    | inl c' =>
      obtain ⟨pending, hc'⟩ := ht
      exact ens_pure (hc'.cut _)
    | inr c' =>
      have hc' : c'.recordRound.Sound (w.terms D may) w.attempt [] t :=
        ⟨ht.metered, ht.tallied, ht.audited, ht.awaits⟩
      have hp := hc'.passed w.attempt .rounded c'.recordRound.messages
      dsimp only
      refine ens_bind (ens_modify (CellStep.pass _ _ _ _) ?_)
      split
      · refine ens_bind (ens_modify (CellStep.checkpoint _ hp.awaits) ?_)
        exact ens_pure (hp.mono (Aside.of_eq (Grows.of_eq rfl rfl rfl) rfl rfl))
      · exact ens_pure hp
  · intro batch hb x hx
    have hmem : x.1 ∈ r.toolCalls := by
      have hx := toolBatches_mem _ _ batch hb x hx
      exact (List.mem_zipIdx' hx).2 ▸ List.getElem_mem _
    refine ⟨?_, fun hd => ?_⟩
    · rw [hnames]
      exact List.mem_append_right _ (List.mem_map.mpr ⟨x.1, hmem, rfl⟩)
    · have hv := dispatched_permits hd
      exact hp r hreply x.1 hmem hv.1 hv.2

theorem afterText_sound {profile : ModelProfile} {r : ModelResponse}
    (h : c.Sound (w.terms D may) w.attempt [] s) :
    NextSound (w.terms D may) w.attempt (Worker.afterText w profile r c) s := by
  have ht : Conv.Sound (w.terms D may) w.attempt []
      { c with truncatedTurns := c.truncatedTurns + 1 } s :=
    ⟨h.metered, h.tallied, h.audited, h.awaits⟩
  unfold Worker.afterText
  dsimp only
  split
  · split
    · split
      · exact h.failureWith _ _ _
      · split
        · exact h.failureWith _ _ _
        · exact ((h.say .assistant nofun r.text).say .user nofun _).repaired
    · split
      · exact h.failureWith _ _ _
      · exact h.success _
  · split
    · split
      · exact h.failureWith _ _ _
      · split
        · exact ht.say .user nofun _
        · exact (ht.say .assistant nofun _).say .user nofun _
    · exact h.success _

/-- A response is accounted for as it arrives; its request was covered by the
token limit. -/
theorem afterResponse_ens {profile : ModelProfile} {turn : Turn} {r : ModelResponse}
    (hp : w.Permits may turn) (hreply : turn.reply = .response r)
    (hout : Worker.availableOutput w profile c ≠ 0) (hcalls : c.acct.apiCalls ≠ 0)
    (h : c.Sound (w.terms D may) w.attempt [] s) :
    Ens (w.terms D may) (Began (w.terms D may) (w.attempt + 1))
      (Worker.afterResponse w profile turn r c) (NextSound (w.terms D may) w.attempt) s := by
  unfold Worker.afterResponse
  dsimp only
  refine ens_bind (ens_modify (CellStep.respond _ ⟨rfl, fun hD => ?_⟩) ?_)
  · have hd := h.tallied hD
    refine ⟨hd.before.live, hd.uncharged, fun l hl => ?_⟩
    rw [hd.answered]
    have hl : w.cell.contract.budget.tokenLimit = some l := hl
    unfold Worker.availableOutput at hout ⊢
    rw [hl] at hout ⊢
    dsimp only at hout ⊢
    simp only [Bill.tokens, AttemptAccounting.expense]
    omega
  · have hc : (c.recordCall r.usage (computeCostUsd r.usage profile.inputPricePerMillionUsd
        profile.outputPricePerMillionUsd)).Sound (w.terms D may) w.attempt []
        (s.note (.responded w.cell.id w.attempt (Worker.responseSpend profile r.usage)
          (w.estimate c.messages)
          (min (Worker.availableOutput w profile c) profile.maxOutputTokens))) := by
      refine ⟨fun h0 => absurd h0 hcalls, fun hD => ?_, ?_, h.awaits.mono (s.frame_note _).toGrows⟩
      · rw [Terms.own_note rfl]
        exact (h.tallied hD).responded (Worker.responseSpend profile r.usage) _ _
      · intro hD hk
        exact h.audited hD (hk.of_prefix (List.prefix_append _ _))
    refine (emitEvent_ens hc).seq fun _ t ht => ?_
    split
    · have hn : NextSound _ _ (Worker.afterText w profile r _) t := afterText_sound ht
      split
      · rename_i result heq
        rw [heq] at hn
        exact ens_pure hn
      · rename_i next heq
        rw [heq] at hn
        exact ens_bind (ens_modify (CellStep.pass _ _ _ _) (ens_pure (hn.passed _ _ _)))
    · exact afterToolCalls_ens hp hreply ht

theorem turn_ens {profile : ModelProfile} {turn : Turn} (hp : w.Permits may turn)
    (h : c.Sound (w.terms D may) w.attempt [] s) :
    Ens (w.terms D may) (Began (w.terms D may) (w.attempt + 1)) (Worker.turn w profile turn c)
      (NextSound (w.terms D may) w.attempt) s := by
  unfold Worker.turn
  dsimp only
  have ht : Conv.Sound (w.terms D may) w.attempt [] { c with turn := c.turn + 1 } s :=
    ⟨h.metered, h.tallied, h.audited, h.awaits⟩
  split
  · exact ens_pure (ht.failure _ _)
  · refine (compact_ens ht).seq fun c' t ht => ?_
    refine (emitEvent_ens ht.2).seq fun _ u hu => ?_
    split
    · exact ens_pure (hu.failure _ _)
    · rename_i hout
      have hu := hu.passed w.attempt (.sent (min (Worker.availableOutput w profile c'.recordAttempt)
        profile.maxOutputTokens)) c'.recordAttempt.messages
      have hr := hu.requests
      refine ens_bind (ens_modify (CellStep.pass _ _ _ _) ?_)
      refine ens_bind (ens_modify (CellStep.request _ hu.allows) ?_)
      refine ens_bind (ens_suspend (fun v hv => ?_) fun v hv => (hr.mono hv.aside).began)
      have hs := hr.mono hv.aside
      split
      · exact (emitEvent_ens hs).seq fun _ x hx => ens_pure (hx.failure _ _)
      · exact (emitEvent_ens hs).seq fun _ x hx => ens_pure (hx.failure _ _)
      · rename_i hreply
        exact afterResponse_ens hp hreply hout (Nat.succ_ne_zero _) hs

theorem loop_ens {profile : ModelProfile} (turns : List Turn)
    (hp : ∀ turn ∈ turns, w.Permits may turn) :
    ∀ {c : Conv} {s : St}, c.Sound (w.terms D may) w.attempt [] s →
    Ens (w.terms D may) (Began (w.terms D may) (w.attempt + 1)) (Worker.loop w profile turns c)
      (fun r t => r.Sound (w.terms D may) w.attempt t) s := by
  induction turns with
  | nil => exact fun h => ens_block fun t ht => (h.mono ht.aside).began
  | cons turn turns ih =>
    intro c s h
    unfold Worker.loop
    refine (turn_ens (hp turn List.mem_cons_self) h).seq fun next t ht => ?_
    cases next with
    | inl r => exact ens_pure ht
    | inr c' => exact ih (fun t ht => hp t (List.mem_cons_of_mem _ ht)) ht

/-- One attempt: whatever conversation it starts from, its result bills what
the gateway's answers to it cost, and a successful result's messages are
audited. From a paired conversation it leaves one, unless it ran out of its
budget. -/
theorem run_ens (a : Attempt) (resume : Option (List ModelMessage))
    (hp : ∀ turn ∈ a.turns, w.Permits may turn) (h : Began (w.terms D may) w.attempt s)
    (hres : ∀ ms ∈ resume, Awaits [] ms s) :
    Ens (w.terms D may) (Began (w.terms D may) (w.attempt + 1)) (Worker.run w a resume)
      (fun r t => r.Sound (w.terms D may) w.attempt t) s := by
  unfold Worker.run
  split
  · exact ens_pure ⟨fun _ => rfl, fun hD => (h hD).during, nofun, fun _ _ => rfl⟩
  · refine ens_bind (ens_modify (CellStep.rewrite _ _) ?_)
    have hawaits : Awaits [] (Worker.initialMessages w resume) s :=
      fun hr => initialMessages_paired w fun ms hms => hres ms hms hr
    have hc : Conv.Sound (w.terms D may) w.attempt [] { messages := Worker.initialMessages w resume }
        (s.noteRewrite w.cell.id (Worker.initialMessages w resume)) :=
      ⟨fun _ => rfl, fun hD => ((h.mono (Aside.note rfl s)) hD).during,
        audited_noteRewrite (T := w.terms D may) (s := s), hawaits.mono (s.frame_note _).toGrows⟩
    refine ens_bind (ens_modify (CellStep.pass _ _ _ _) ?_)
    exact loop_ens a.turns hp (hc.passed _ _ _)

end Worker

/-! ## The runner -/

/-- The terms of a cell: `D` says that the ids of its graph are distinct. -/
def CellInput.terms (c : CellInput) (D : Prop) (may : String → Prop) : Terms := ⟨c.cell, D, may⟩

/-- Every tool the responses of a cell's script have dispatched may be
executed. -/
def CellInput.Permits (c : CellInput) (may : String → Prop) (script : List Attempt) : Prop :=
  ∀ a ∈ script, ∀ turn ∈ a.turns, ∀ r, turn.reply = .response r → ∀ call ∈ r.toolCalls,
    validateToolArgs call c.toolDefs = none → (c.registry.get call.name).isSome = true →
      may call.name

namespace CellRunner

variable {D : Prop} {may : String → Prop} {c : CellInput} {s : St}

/-- What a cell that returned has left behind. -/
def Returned (T : Terms) : CellResult → St → Prop
  | .completed, t => (∃ ref u, (EventPayload.cellCompleted T.id ref u).stored ∈ t.log) ∧
      .entered T.id ∈ t.history ∧ Kept T t
  | .outcome o, _ => o ≠ .verified

theorem Returned.mono {T : Terms} {r : CellResult} {t : St} (h : Returned T r s)
    (ha : Aside T s t) : Returned T r t := by
  cases r with
  | completed =>
    obtain ⟨⟨ref, u, hmem⟩, hent, hk⟩ := h
    exact ⟨⟨ref, u, ha.log.subset hmem⟩, ha.history.subset hent, hk.mono ha⟩
  | outcome o => exact h

/-- No state is excluded. -/
def Anywhere (_ : St) : Prop := True

theorem runAttempt_ens {script : List Attempt} (hp : c.Permits may script) {a : Attempt}
    (ha : a ∈ script) (n : Nat) {resume : Option (List ModelMessage)}
    (h : Began (c.terms D may) n s) (hres : ∀ ms ∈ resume, Awaits [] ms s) :
    Ens (c.terms D may) Anywhere (runAttempt c a n resume) (fun r t => match r with
      | .ok x => x.Sound (c.terms D may) n t
      | .error _ => Began (c.terms D may) (n + 1) t) s := by
  unfold runAttempt
  refine Co.sat_tryCatch (Co.sat_bind (Co.Sat.mono ?_
    (run_ens (w := workerInput c n) a resume (hp a ha) h hres)))
  intro r t hr
  cases r with
  | ok x => exact hr
  | error e =>
    cases e with
    | cancelled note => exact ens_throw trivial
    | exception kind message => exact ens_pure hr

/-- A row about the cell, which does not touch its account. -/
theorem row_ens {n : Nat} {p : EventPayload} (hp : p.OfCell c.cell.id) (hf : p.figure? = none)
    (h : Began (c.terms D may) n s) :
    Ens (c.terms D may) Anywhere (emitCell p) (fun _ t => Began (c.terms D may) n t) s :=
  ens_emitCell hp hf (fun _ ht => h.mono ht) fun _ _ => trivial

theorem suspend_ens {n : Nat} (h : Began (c.terms D may) n s) :
    Ens (c.terms D may) Anywhere Co.suspend (fun _ t => Began (c.terms D may) n t) s :=
  ens_suspend (fun _ ht => h.mono ht.aside) fun _ _ => trivial

theorem emitRecovery_ens (f : AttemptFailure) (action : RecoveryAction) (k : Nat) {n : Nat}
    (h : Began (c.terms D may) n s) :
    Ens (c.terms D may) Anywhere (emitRecovery c f action k)
      (fun _ t => Began (c.terms D may) n t) s :=
  row_ens rfl rfl h

/-- A failed attempt's action: none that goes on, if the budget ran out. -/
theorem handleCellFailure_ens (f : AttemptFailure) (decision : RouteDecision) (k : Nat) {n : Nat}
    (h : Began (c.terms D may) n s) :
    Ens (c.terms D may) Anywhere (handleCellFailure c f decision k)
      (fun action t => Began (c.terms D may) n t ∧ (f.kind = "budget" → ¬ Continues action)) s := by
  unfold handleCellFailure
  split
  · exact (emitRecovery_ens _ _ _ h).seq fun _ t ht => ens_pure ⟨ht, fun _ => by decide⟩
  · rename_i hbudget
    refine ens_bind (ens_get ?_)
    exact (emitRecovery_ens _ _ _ h).seq fun _ t ht =>
      ens_pure ⟨ht, fun _ => decideRecovery_stops hbudget _ _⟩
  · rename_i hbudget
    refine ens_bind (ens_get ?_)
    refine ens_bind (ens_modify (CellStep.decide _ _ rfl) ?_)
    have hk : Began (c.terms D may) n
        (s.decide (classify (coerceErrorKind f.kind)) (signature c decision)) :=
      h.mono ⟨⟨List.prefix_rfl, List.prefix_append _ _, List.prefix_rfl⟩, fun _ => rfl,
        fun _ => account_snoc_of_ne nofun⟩
    refine (emitRecovery_ens _ _ _ hk).seq fun _ t ht => ens_pure ⟨ht, fun hb => ?_⟩
    rw [hb] at hbudget
    exact absurd (by decide) hbudget

theorem chooseAction_ens (f : AttemptFailure) (decision : RouteDecision) (k : Nat) {n : Nat}
    (h : Began (c.terms D may) n s) :
    Ens (c.terms D may) Anywhere (chooseAction c f decision k)
      (fun action t => Began (c.terms D may) n t ∧ (f.kind = "budget" → ¬ Continues action)) s := by
  unfold chooseAction
  split
  · exact (emitRecovery_ens _ _ _ h).seq fun _ t ht => ens_pure ⟨ht, fun _ => by decide⟩
  · exact handleCellFailure_ens f decision k h

/-- What a failed attempt leads to: a result, or a next attempt, unless the
budget ran out. -/
def Recovered (T : Terms) (n : Nat) (f : AttemptFailure) : CellResult ⊕ RouteDecision → St → Prop
  | .inl r, t => Returned T r t
  | .inr _, t => Began T n t ∧ f.kind ≠ "budget"

theorem failCell_ens (f : AttemptFailure) (detail : String) (action : RecoveryAction) :
    Ens (c.terms D may) Anywhere (failCell c f detail action) (Returned (c.terms D may)) s := by
  unfold failCell
  refine ens_bind (ens_emitCell rfl rfl (fun t _ => ens_pure ?_) fun _ _ => trivial)
  show (if isAbstain action = true then RunOutcome.abstained else RunOutcome.failed) ≠ .verified
  split <;> decide

/-- A cell that gives up does not return VERIFIED; otherwise a next attempt
starts with a conversation of its own. -/
theorem recover_ens (f : AttemptFailure) (decision : RouteDecision) (k : Nat) {n : Nat}
    (h : Began (c.terms D may) n s) :
    Ens (c.terms D may) Anywhere (recover c f decision k) (Recovered (c.terms D may) n f) s := by
  unfold recover
  refine (chooseAction_ens f decision k h).seq fun action t ht => ?_
  obtain ⟨ht, hends⟩ := ht
  have hfail : ∀ {u : St} {detail : String}, Ens (c.terms D may) Anywhere
      (failCell c f detail action >>= fun r => pure (.inl r)) (Recovered (c.terms D may) n f) u :=
    (failCell_ens f _ action).seq fun r v hr => ens_pure hr
  split
  · rename_i hretry
    have hk : f.kind ≠ "budget" := fun hb => hends hb (.inl hretry)
    exact (suspend_ens ht).seq fun _ _ hu => ens_pure ⟨hu, hk⟩
  · split
    · rename_i hreroute
      have hk : f.kind ≠ "budget" := fun hb => hends hb (.inr hreroute)
      refine ens_bind (ens_get ?_)
      dsimp only
      split
      · exact Ens.seq (row_ens rfl rfl ht) fun _ _ hu => ens_pure ⟨hu, hk⟩
      · split
        · refine (emitRecovery_ens _ _ _ ht).seq fun _ u hu => ?_
          exact (suspend_ens hu).seq fun _ _ hv => ens_pure ⟨hv, hk⟩
        · exact hfail
    · exact hfail

/-- The usage a completed cell reports is what was charged behind `s₀`, where
it was entered and had charged nothing. -/
theorem figure_since {T : Terms} {s₀ t u : St} (hown : T.own s₀.history = [.entered T.id])
    (ha : Accrues s₀ t) (hD : T.distinct) (ho : Aside T t u) :
    Figure T.id u.history (spendSince s₀.usage t.usage) := by
  obtain ⟨mid, hmid, husage⟩ := ha
  obtain ⟨post, hpost⟩ := ho.history
  refine ⟨s₀.history, mid, post, by rw [← hpost, hmid], ?_, ?_, ?_, ?_⟩
  · have hmem : .entered T.id ∈ T.own s₀.history := by simp [hown]
    exact (mem_account.mp hmem).1
  · rw [← total_account, show account T.id s₀.history = _ from hown]
    simp [ofCell, Obs.charge]
  · have hnil : account T.id post = [] := by
      have he := ho.own hD
      rw [← hpost] at he
      have he : account T.id t.history ++ account T.id post = account T.id t.history := by
        rw [← account_append]
        exact he
      simpa using he
    rw [← total_account, hnil]
    rfl
  · have h1 := congrArg (fun e => e.1.1) husage
    have h2 := congrArg (fun e => e.1.2.1) husage
    have h3 := congrArg (fun e => e.1.2.2) husage
    have h4 := congrArg Prod.snd husage
    simp only [BudgetUsage.expense, BudgetUsage.bill, Prod.fst_add, Prod.snd_add] at h1 h2 h3 h4
    refine Prod.ext (Prod.ext ?_ (Prod.ext ?_ ?_)) ?_
    · show t.usage.totalInputTokens - s₀.usage.totalInputTokens = _
      omega
    · show t.usage.totalOutputTokens - s₀.usage.totalOutputTokens = _
      omega
    · show t.usage.totalCostUsd - s₀.usage.totalCostUsd = _
      rw [h3, add_tsub_cancel_left]
    · show t.usage.totalCalls - s₀.usage.totalCalls = _
      omega

/-- The names reach the run's audit before the completion is recorded, and the
usage it reports is what was charged since the cell began. -/
theorem completeCell_ens {s₀ : St} {n : Nat} (r : WorkerResult)
    (hown : D → (c.terms D may).own s₀.history = [.entered c.cell.id])
    (hent : .entered c.cell.id ∈ s₀.history) (hacc : Accrues s₀ s)
    (hb : Began (c.terms D may) n s) (h : Audited (c.terms D may) r.messages s) :
    Ens (c.terms D may) Anywhere (completeCell c s₀.usage r) (Returned (c.terms D may)) s := by
  unfold completeCell
  dsimp only
  refine ens_bind (ens_suspend (fun t ht => ?_) fun _ _ => trivial)
  have hacc := hacc.trans ht.accrues
  refine ens_bind (ens_modify (CellStep.clear _) ?_)
  have hclear : Aside (c.terms D may) s (t.clearCheckpoint c.cell.id) :=
    ht.aside.trans (Aside.of_eq (Grows.of_eq rfl rfl rfl) rfl rfl)
  refine ens_bind (ens_modify (CellStep.finish _ _ _) ?_)
  refine ens_bind (ens_get ?_)
  let digest := (c.store (if r.text = "" then "{}" else r.text)).digest
  let v := (t.clearCheckpoint c.cell.id).finishCell c.cell.id (toolNames r.messages)
    c.cell.acceptanceCriterionIndices digest
  have hk : Kept (c.terms D may) v := (h.mono hclear).finishCell _ _
  have hv : Aside (c.terms D may) s v := hclear.trans (aside_finishCell _ _ _ _)
  have hacct : Accrues s₀ (t.clearCheckpoint c.cell.id) := hacc.trans (.of_eq rfl rfl)
  have haccv : Accrues s₀ v :=
    hacct.trans (CellStep.finish (T := c.terms D may) (toolNames r.messages) digest _).accrues
  have hentv : .entered c.cell.id ∈ v.history := by
    obtain ⟨new, hnew, -⟩ := haccv
    rw [hnew]
    exact List.mem_append_left _ hent
  refine ens_bind (emitCell_sat (fun u _ hu => ⟨rfl, fun hD f hf => ?_, fun ref href => ?_⟩)
    (fun u hu => ?_) (fun _ _ _ => trivial) fun _ _ _ => trivial)
  · cases hf
    refine ⟨?_, figure_since (hown hD) haccv hD hu.aside⟩
    exact ((hb.mono hv).mono hu.aside hD).live
  · cases href
    refine ⟨c.cell.acceptanceCriterionIndices, hu.aside.history.subset ?_⟩
    exact List.mem_append_right _ (List.mem_singleton_self _)
  · refine ens_pure ⟨⟨_, _, List.mem_append_right _ List.mem_cons_self⟩, ?_, ?_⟩
    · exact List.mem_append_left _ (hu.aside.history.subset hentv)
    · intro hD hnames
      have hku := hk.mono hu.aside
      exact hku hD (hnames.of_prefix (List.prefix_append _ _))

theorem Awaits.accrues {pending : List String} {ms : List ModelMessage} {t : St}
    (h : Awaits pending ms s) (ha : Accrues s t) : Awaits pending ms t := by
  obtain ⟨new, hnew, -⟩ := ha
  exact fun hr => h (hr.of_prefix ⟨new, hnew.symm⟩)

/-- What a result hands on was paired, unless the budget ran out. -/
theorem carried_awaits {n : Nat} {T : Terms} {r : WorkerResult} {t : St} {usage : BudgetUsage}
    (h : r.Sound T n t) (hk : (resultFailure c r usage).kind ≠ "budget") :
    ∀ ms ∈ (resultFailure c r usage).carried, Awaits [] ms t := by
  intro ms hms
  rw [resultFailure_carried] at hms
  split at hms
  · cases hms
  · cases hms
    exact h.awaits (resultFailure_kind hk)

/-- An attempt is called. -/
theorem Began.called {T : Terms} {n : Nat} (h : Began T n s) (k : Nat) :
    Began T n (s.note (.called T.id k)) :=
  h.mono (Aside.note rfl s)

theorem attempts_ens {s₀ : St} (hown : D → (c.terms D may).own s₀.history = [.entered c.cell.id])
    (hent : .entered c.cell.id ∈ s₀.history) (script : List Attempt) :
    c.Permits may script →
    ∀ {n : Nat} {decision : RouteDecision} {resume : Option (List ModelMessage)} {s : St},
    Began (c.terms D may) n s → Accrues s₀ s → (∀ ms ∈ resume, Awaits [] ms s) →
    Ens (c.terms D may) Anywhere (attempts c s₀.usage script n decision resume)
      (Returned (c.terms D may)) s := by
  induction script with
  | nil =>
    intro _ n decision resume s hb hacc hres
    exact ens_bind (ens_modify (CellStep.call n s) (ens_block fun _ _ => trivial))
  | cons a script ih =>
    intro hp n decision resume s hb hacc hres
    have hp' : c.Permits may script := fun a ha => hp a (List.mem_cons_of_mem _ ha)
    have hrec : ∀ {f : AttemptFailure} {d : RouteDecision} {p : Passage} {ms : List ModelMessage}
        {carried : Option (List ModelMessage)} {t : St},
        Began (c.terms D may) (n + 1) t → Accrues s₀ t →
        (f.kind ≠ "budget" → ∀ ms ∈ carried, Awaits [] ms t) →
        Ens (c.terms D may) Anywhere (recover c f d n >>= fun next =>
          next.elim pure fun d' => Co.modify (St.pass c.cell.id n p ms) >>= fun _ =>
            attempts c s₀.usage script (n + 1) d' carried)
          (Returned (c.terms D may)) t := by
      intro f d p ms carried t ht hacct hcarried
      refine (recover_ens f d n ht).accrues.seq fun next u hu => ?_
      cases next with
      | inl r => exact ens_pure hu.1
      | inr d' =>
        have hpass : Accrues u (u.pass c.cell.id n p ms) := u.accrues_note rfl
        refine ens_bind (ens_modify (CellStep.pass (T := c.terms D may) n p ms u) ?_)
        exact ih hp' (hu.1.1.mono (Aside.note rfl u)) ((hacct.trans hu.2).trans hpass)
          fun ms hms => Awaits.accrues (hcarried hu.1.2 ms hms) (hu.2.trans hpass)
    unfold attempts
    refine ens_bind (ens_modify (CellStep.call n s) ?_)
    have hb := Began.called hb n
    have hacc := hacc.trans (s.accrues_note (o := .called (c.terms D may).id n) rfl)
    have hres : ∀ ms ∈ resume, Awaits [] ms (s.note (.called (c.terms D may).id n)) :=
      fun ms hms => Awaits.mono (hres ms hms) (s.frame_note _).toGrows
    refine (runAttempt_ens hp List.mem_cons_self n hb hres).accrues.seq fun attempt t ht => ?_
    obtain ⟨ht, hacct⟩ := ht
    have hacct := hacc.trans hacct
    cases attempt with
    | error message => exact hrec ht hacct fun _ ms hms => by cases hms
    | ok r =>
      have hstep : CellStep (c.terms D may) t (t.charge c.cell.id n (WorkerResult.spend r)) :=
        CellStep.charge t ht.metered ⟨rfl, fun hD =>
          have hd := ht.tallied hD
          ⟨hd.before.live, hd.uncharged, (Prod.ext hd.answered hd.requested).symm⟩⟩
      refine ens_bind (ens_modify hstep ?_)
      have hb' : Began (c.terms D may) (n + 1) (t.charge c.cell.id n (WorkerResult.spend r)) :=
        fun hD => (Terms.own_charge (c.terms D may) n _ t) ▸ (ht.tallied hD).charged _
      have hacc' := hacct.trans hstep.accrues
      split
      · rename_i hr
        refine completeCell_ens r hown hent hacc' hb' fun hD hk => ?_
        exact ht.audited hr hD (hk.of_prefix (List.prefix_append _ _))
      · refine ens_bind (ens_get (hrec hb' hacc' fun hk ms hms => ?_))
        exact Awaits.accrues (carried_awaits ht hk ms hms) hstep.accrues

/-- What the checkpoint held is what the cell goes on with. -/
theorem restored_ens {n : Nat} (hb : Began (c.terms D may) n s) :
    Ens (c.terms D may) Anywhere
      (Co.modify (St.noteRestored c.cell.id (s.shared.checkpoints.lookup c.cell.id)))
      (fun _ t => Began (c.terms D may) n t ∧
        ∀ ms ∈ s.shared.checkpoints.lookup c.cell.id, Awaits [] ms t) s := by
  cases hl : s.shared.checkpoints.lookup c.cell.id with
  | none => exact Co.sat_modify ReflTransGen.refl ⟨hb, nofun⟩
  | some ms =>
    refine ens_modify (CellStep.restore s hl) ⟨hb.mono (Aside.note rfl s), fun ms' hms hr => ?_⟩
    cases hms
    exact hr c.cell.id ms (List.mem_append_right _ List.mem_cons_self)

theorem runCell_ens (script : List Attempt) (hp : c.Permits may script)
    (h : D → (c.terms D may).own s.history = []) :
    Ens (c.terms D may) Anywhere (runCell c script) (Returned (c.terms D may)) s := by
  unfold runCell
  refine ens_bind (ens_modify (CellStep.enter _ ⟨rfl, h⟩) ?_)
  refine ens_bind (ens_get ?_)
  dsimp only
  have hown : D → (c.terms D may).own (s.note (.entered c.cell.id)).history =
      [.entered c.cell.id] := by
    intro hD
    rw [Terms.own_note rfl, h hD]
    rfl
  have hent : .entered c.cell.id ∈ (s.note (.entered c.cell.id)).history :=
    List.mem_append_right _ List.mem_cons_self
  have hb : Began (c.terms D may) 0 (s.note (.entered c.cell.id)) := by
    intro hD
    rw [hown hD]
    exact before_entered
  refine Ens.seq (Ens.accrues (row_ens rfl rfl hb)) fun _ t ht => ?_
  split
  · refine ens_bind (ens_emitCell rfl rfl (fun u _ => ens_pure ?_) fun _ _ => trivial)
    simp [Returned]
  · refine Ens.seq (Ens.accrues (row_ens rfl rfl ht.1)) fun _ u hu => ?_
    refine ens_bind (ens_get ?_)
    refine Ens.seq (Ens.accrues (restored_ens hu.1)) fun _ v hv => ?_
    exact attempts_ens hown hent script hp hv.1.1 ((ht.2.trans hu.2).trans hv.2) hv.1.2

/-- What siblings and the wave loop may rely on when the cell has ended. -/
def Ended (T : Terms) (r : Except Exc CellResult) (t : St) : Prop :=
  ∀ x, r = .ok x → Returned T x t

theorem Ended.mono {T : Terms} {r : Except Exc CellResult} {t : St} (h : Ended T r s)
    (ha : Aside T s t) : Ended T r t :=
  fun x hx => (h x hx).mono ha

/-- **The cell.** Whatever its siblings do at its awaits, a cell that returns
`True` has recorded its completion and handed over its tools, and a cell that
returns an outcome does not return VERIFIED. -/
theorem runCell_sat (script : List Attempt) (hp : c.Permits may script)
    (h : D → (c.terms D may).own s.history = []) :
    (runCell c script).Sat (Own (c.terms D may)) (Others (c.terms D may))
      (Ended (c.terms D may)) s := by
  refine Co.Sat.mono (fun r t hr => ?_) (runCell_ens script hp h)
  cases r with
  | ok x =>
    intro y hy
    cases hy
    exact hr
  | error e =>
    intro y hy
    cases hy

/-- The cell's guarantee, rely and result fit together. -/
theorem ended_contract (T : Terms) : Contract (Own T) (Others T) (Ended T) where
  refl _ := ReflTransGen.refl
  trans := ReflTransGen.trans
  relyRefl _ := ReflTransGen.refl
  relyTrans := ReflTransGen.trans
  stable h ho := h.mono ho.aside

end CellRunner
end Northstack
