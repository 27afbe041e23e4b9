import Mathlib
import Northstack.Adapters.Pairing
import Northstack.Application.Worker

/-!
# What the worker does to a conversation

Compaction drops whole spans from behind the pinned prefix and rewrites one
user message; everything else only adds messages. None of it parts a tool
result from its call.

**Results.**
* `compactMessages_awaiting`: compaction leaves what the conversation awaits.
* `toolBatches_flatten`: the batches hold the calls of a response in call order.
-/
namespace Northstack

/-! ## Compaction -/

/-- A span: one turn and the results behind it. -/
theorem spanLengths_succ (n : Nat) (ms : List ModelMessage) :
    spanLengths (n + 1) ms =
      (n + 1 + (ms.takeWhile (·.role = .tool)).length) ::
        spanLengths 0 (ms.dropWhile (·.role = .tool)) := by
  induction ms generalizing n with
  | nil => simp [spanLengths]
  | cons m ms ih =>
    by_cases hm : m.role = .tool
    · rw [List.takeWhile_cons_of_pos (by simpa using hm),
        List.dropWhile_cons_of_pos (by simpa using hm), List.length_cons, spanLengths, if_pos hm,
        ih (n + 1)]
      congr 1
      omega
    · rw [spanLengths, if_neg hm, List.takeWhile_cons_of_neg (by simpa using hm),
        List.dropWhile_cons_of_neg (by simpa using hm)]
      rfl

theorem drop_takeWhile_length {α : Type} (p : α → Bool) (xs : List α) :
    xs.drop (xs.takeWhile p).length = xs.dropWhile p := by
  have h : (xs.takeWhile p ++ xs.dropWhile p).drop (xs.takeWhile p).length = xs.dropWhile p :=
    List.drop_left
  rwa [List.takeWhile_append_dropWhile] at h

theorem take_takeWhile_length {α : Type} (p : α → Bool) (xs : List α) :
    xs.take (xs.takeWhile p).length = xs.takeWhile p := by
  have h : (xs.takeWhile p ++ xs.dropWhile p).take (xs.takeWhile p).length = xs.takeWhile p :=
    List.take_left
  rwa [List.takeWhile_append_dropWhile] at h

/-- Dropping the first of several spans leaves what is awaited: the turn behind
it may only stand there if all calls before it were answered. -/
theorem awaiting_dropSpan {ms : List ModelMessage} {len next : Nat} {rest : List Nat}
    {p : List String} (hs : spanLengths 0 ms = len :: next :: rest) (h : awaiting [] ms = some p) :
    awaiting [] (ms.drop len) = some p := by
  cases ms with
  | nil => simp [spanLengths] at hs
  | cons m ms =>
    rw [show spanLengths 0 (m :: ms) = spanLengths 1 ms from rfl, spanLengths_succ] at hs
    obtain ⟨hlen, hrest⟩ := List.cons.inj hs
    obtain ⟨k, hk⟩ : ∃ k, k = (ms.takeWhile (·.role = .tool)).length := ⟨_, rfl⟩
    have hdrop : (m :: ms).drop len = ms.dropWhile (·.role = .tool) := by
      rw [← hlen, ← hk, show 0 + 1 + k = k + 1 by omega, List.drop_succ_cons, hk,
        drop_takeWhile_length]
    have hsplit : m :: ms =
        (m :: ms.takeWhile (·.role = .tool)) ++ ms.dropWhile (·.role = .tool) := by
      rw [List.cons_append, List.takeWhile_append_dropWhile]
    rw [hdrop]
    rw [hsplit, awaiting_append] at h
    obtain ⟨q, -, hq⟩ := Option.bind_eq_some_iff.mp h
    cases hd : ms.dropWhile (·.role = .tool) with
    | nil =>
      rw [hd] at hrest
      simp [spanLengths] at hrest
    | cons m' ms' =>
      have hm' : m'.role ≠ .tool := by
        have hhead := List.head?_dropWhile_not (fun m : ModelMessage => m.role = .tool) ms
        rw [hd] at hhead
        simpa using hhead
      rw [hd, awaiting_cons] at hq
      obtain ⟨q', hq', -⟩ := Option.bind_eq_some_iff.mp hq
      obtain rfl := readMessage_open hq' hm'
      exact hq

/-- The pinned prefix holds messages of the system and the user. -/
theorem pinned_role (ms : List ModelMessage) :
    ∀ m ∈ ms.take (pinnedLength ms), m.role = .system ∨ m.role = .user := by
  have htake := take_takeWhile_length (fun m : ModelMessage => m.role = .system) ms
  have hsys : ∀ m ∈ ms.takeWhile (·.role = .system), m.role = .system := by
    intro m hm
    simpa using List.mem_takeWhile_imp hm
  unfold pinnedLength
  dsimp only
  split
  · rename_i u hu
    split
    · rename_i hrole
      intro m hm
      rw [List.take_add_one, htake, hu] at hm
      rcases List.mem_append.mp hm with hm | hm
      · exact .inl (hsys m hm)
      · exact .inr (by rw [List.mem_singleton.mp hm]; exact hrole)
    · intro m hm
      rw [htake] at hm
      exact .inl (hsys m hm)
  · intro m hm
    rw [htake] at hm
    exact .inl (hsys m hm)

/-- Messages of the system and the user make no calls. -/
theorem awaiting_pinned {ms ns : List ModelMessage} {p : List String}
    (hr : ∀ m ∈ ms, m.role = .system ∨ m.role = .user) (h : awaiting [] (ms ++ ns) = some p) :
    Paired ms := by
  induction ms with
  | nil => rfl
  | cons m ms ih =>
    have hm := hr m List.mem_cons_self
    rw [List.cons_append, awaiting_cons] at h
    obtain ⟨q, hq, hrest⟩ := Option.bind_eq_some_iff.mp h
    have hcalls : m.toolCalls = [] := by
      unfold readMessage at hq
      dsimp only at hq
      split at hq
      · rename_i hc
        rcases hc.2 with ha | he
        · rcases hm with hm | hm
          · rw [hm] at ha
            cases ha
          · rw [hm] at ha
            cases ha
        · simpa using he
      · cases hq
    have hplain : readMessage [] m = some [] := by
      refine readMessage_plain ?_ hcalls
      rcases hm with hm | hm <;> simp [hm]
    rw [hplain] at hq
    cases hq
    unfold Paired
    rw [awaiting_cons, hplain]
    exact ih (fun x hx => hr x (List.mem_cons_of_mem _ hx)) hrest

theorem dropFirstSpan_awaiting {ms : List ModelMessage} {len next : Nat} {rest : List Nat}
    {p : List String} (hs : evictableSpans ms = len :: next :: rest)
    (h : awaiting [] ms = some p) : awaiting [] (dropFirstSpan ms len) = some p := by
  have hpin : Paired (ms.take (pinnedLength ms)) := by
    have hall : awaiting [] (ms.take (pinnedLength ms) ++ ms.drop (pinnedLength ms)) = some p := by
      rw [List.take_append_drop]
      exact h
    exact awaiting_pinned (pinned_role ms) hall
  unfold dropFirstSpan
  rw [hpin.append, ← List.drop_drop]
  refine awaiting_dropSpan hs ?_
  rw [← hpin.append, List.take_append_drop]
  exact h

theorem evict_awaiting {estimate : List ModelMessage → Nat} {target : ℚ≥0} {p : List String}
    (fuel : Nat) {ms : List ModelMessage} (h : awaiting [] ms = some p) :
    awaiting [] (evict estimate target fuel ms).1 = some p := by
  induction fuel generalizing ms with
  | zero => exact h
  | succ fuel ih =>
    unfold evict
    split
    · exact h
    · split
      · rename_i len rest hs
        split
        · exact h
        · rename_i hmin
          cases rest with
          | nil => simp [minRetainedSpans] at hmin
          | cons next rest => exact ih (dropFirstSpan_awaiting hs h)
      · exact h

/-- Compaction parts no result from its call. -/
theorem compactMessages_awaiting (estimate : List ModelMessage → Nat) (window : Nat)
    {ms : List ModelMessage} {p : List String} (h : awaiting [] ms = some p) :
    awaiting [] (compactMessages estimate window ms).1 = some p := by
  unfold compactMessages
  split
  · exact h
  · exact evict_awaiting _ h

theorem awaiting_mapIdx {f : Nat → ModelMessage → ModelMessage}
    (hf : ∀ i m, (f i m).role = m.role ∧ (f i m).toolCallId = m.toolCallId ∧
      (f i m).toolCalls = m.toolCalls) (pending : List String) (ms : List ModelMessage) :
    awaiting pending (ms.mapIdx f) = awaiting pending ms := by
  induction ms generalizing pending f with
  | nil => rfl
  | cons m ms ih =>
    have hm := hf 0 m
    rw [List.mapIdx_cons, awaiting_cons, awaiting_cons, readMessage_congr hm.1 hm.2.1 hm.2.2]
    congr 1
    funext p
    exact ih (fun i x => hf (i + 1) x) p

theorem noteElision_awaiting (pending : List String) (ms : List ModelMessage) (elided : Nat) :
    awaiting pending (noteElision ms elided) = awaiting pending ms := by
  refine awaiting_mapIdx (fun i m => ?_) pending ms
  split <;> exact ⟨rfl, rfl, rfl⟩

/-! ## The loop's messages -/

section

variable {c : Conv}

theorem Paired.say (h : Paired c.messages) {role : MessageRole} (hr : role ≠ .tool)
    (text : String) : Paired (c.say role text).messages :=
  h.plain hr rfl

theorem Paired.withFinal (h : Paired c.messages) (text : String) : Paired (c.withFinal text) := by
  unfold Conv.withFinal
  split
  · exact h
  · exact h.plain nofun rfl

/-- A response opens its calls. -/
theorem awaiting_response {ms : List ModelMessage} (h : Paired ms) (text : String)
    (calls : List ToolCall) :
    awaiting [] (ms ++ [{ role := .assistant, content := text, toolCalls := calls }]) =
      some (calls.map (·.id)) := by
  rw [h.append]
  simp [readMessage]

/-- A result closes the first open call. -/
theorem awaiting_addToolResult {call : ToolCall} {ids : List String}
    (h : awaiting [] c.messages = some (call.id :: ids)) (r : ToolResultMessage) :
    awaiting [] (c.addToolResult call r).messages = some ids := by
  unfold Conv.addToolResult
  rw [awaiting_append, h, Option.bind_some, awaiting_cons,
    readMessage_answer (m := { role := .tool, content := r.content, toolCallId := call.id }) rfl rfl
      rfl]
  rfl

theorem initialMessages_paired (w : WorkerInput) {resume : Option (List ModelMessage)}
    (h : ∀ ms ∈ resume, Paired ms) : Paired (Worker.initialMessages w resume) := by
  unfold Worker.initialMessages
  split
  · exact h _ rfl
  · by_cases hs : w.systemPrompt = ""
    · rw [if_pos hs]
      rfl
    · rw [if_neg hs]
      rfl

end

/-! ## Batches -/

/-- A batch in progress is never missing: the first call opens one. -/
theorem addToBatches_flatten {α : Type} (mutating : α → Bool) (st : List (List α) × Bool) (x : α)
    (h : st.1 = [] → st.2 = true) :
    (addToBatches mutating st x).1.flatten = st.1.flatten ++ [x] ∧
      (addToBatches mutating st x).1 ≠ [] := by
  unfold addToBatches
  dsimp only
  split
  · simp
  · rename_i hopen
    rcases List.eq_nil_or_concat st.1 with hnil | ⟨bs, b, hb⟩
    · rw [h hnil] at hopen
      simp at hopen
    · simp [hb]

/-- The batches of a response hold its calls in call order. -/
theorem toolBatches_flatten {α : Type} (mutating : α → Bool) (calls : List α) :
    (toolBatches mutating calls).flatten = calls := by
  suffices h : ∀ (calls : List α) (st : List (List α) × Bool), (st.1 = [] → st.2 = true) →
      (calls.foldl (addToBatches mutating) st).1.flatten = st.1.flatten ++ calls from
    h calls ([], true) fun _ => rfl
  intro calls
  induction calls with
  | nil => simp
  | cons x calls ih =>
    intro st hst
    obtain ⟨hflat, hne⟩ := addToBatches_flatten mutating st x hst
    rw [List.foldl_cons, ih _ fun hnil => absurd hnil hne, hflat, List.append_assoc]
    rfl

end Northstack
