import Mathlib
import Northstack.Application.Conversations
import Northstack.Core.Shedding

/-!
# What compaction leaves of a conversation

A conversation is the pinned prefix and a list of spans, each a turn with the
tool results that answer it. `_compact_messages` (worker.py:172-197) works on
the messages and reads the spans off them again in every round; what it does is
to shed spans from the front.

**Results.**
* `evict_sheds`: the loop over messages sheds spans.
* `compaction`: what is left is the pinned prefix and the last spans, with the
  fewest removals that reach the target, or with three spans.
-/
namespace Northstack

open Shedding

/-! ## Spans -/

/-- The turns of a suffix, each with the tool results that answer it. -/
def spans (ms : List ModelMessage) : List (List ModelMessage) :=
  ms.splitBy fun _ m => m.role = .tool

theorem spans_flatten (ms : List ModelMessage) : (spans ms).flatten = ms :=
  List.flatten_splitBy _ ms

/-- No span is empty. -/
theorem spans_length_le (ms : List ModelMessage) : (spans ms).length ≤ ms.length := by
  have hpos : ∀ k ∈ (spans ms).map List.length, 1 ≤ k := by
    intro k hk
    obtain ⟨span, hspan, rfl⟩ := List.mem_map.mp hk
    exact List.length_pos_of_ne_nil (List.ne_nil_of_mem_splitBy hspan)
  have hsum := List.length_le_sum_of_one_le _ hpos
  rwa [List.length_map, ← List.length_flatten, spans_flatten] at hsum

theorem chain_of_forall {p : ModelMessage → Prop} (m : ModelMessage) {ms : List ModelMessage}
    (h : ∀ x ∈ ms, p x) : (m :: ms).IsChain fun _ y => p y := by
  induction ms generalizing m with
  | nil => exact .singleton m
  | cons x ms ih =>
    exact .cons_cons (h x List.mem_cons_self) (ih x fun y hy => h y (List.mem_cons_of_mem _ hy))

theorem spans_cons (m : ModelMessage) (ms : List ModelMessage) :
    spans (m :: ms) =
      (m :: ms.takeWhile (·.role = .tool)) :: spans (ms.dropWhile (·.role = .tool)) := by
  have hsplit : m :: ms =
      (m :: ms.takeWhile (·.role = .tool)) ++ ms.dropWhile (·.role = .tool) := by
    rw [List.cons_append, List.takeWhile_append_dropWhile]
  have hchain : (m :: ms.takeWhile (·.role = .tool)).IsChain fun _ y => (decide (y.role = .tool)) :=
    chain_of_forall (p := fun y => decide (y.role = .tool) = true) m fun x hx => by
      simpa using List.mem_takeWhile_imp hx
  have hnext : ∀ y ∈ (ms.dropWhile (·.role = .tool)).head?, decide (y.role = .tool) = false := by
    intro y hy
    have hhead := List.head?_dropWhile_not (fun m : ModelMessage => m.role = .tool) ms
    rw [Option.mem_def.mp hy] at hhead
    simpa using hhead
  unfold spans
  rw [hsplit, List.splitBy_append fun _ _ y hy => hnext y hy,
    List.splitBy_of_isChain (List.cons_ne_nil _ _) hchain]
  rfl

/-- The lengths `_evictable_spans` computes. -/
theorem spanLengths_eq (ms : List ModelMessage) : spanLengths 0 ms = (spans ms).map List.length := by
  induction hn : ms.length using Nat.strong_induction_on generalizing ms with
  | _ n ih =>
    cases ms with
    | nil => rfl
    | cons m ms =>
      have hle := (ms.dropWhile_sublist (·.role = .tool)).length_le
      have hlt : (ms.dropWhile (·.role = .tool)).length < n := by
        rw [← hn, List.length_cons]
        omega
      rw [show spanLengths 0 (m :: ms) = spanLengths 1 ms from rfl, spanLengths_succ, spans_cons,
        List.map_cons, ih _ hlt _ rfl, List.length_cons]
      congr 1
      omega

/-! ## The pinned prefix -/

section

variable {sys : List ModelMessage} {user : ModelMessage} {rest : List ModelMessage}

theorem pinnedLength_eq (hsys : ∀ m ∈ sys, m.role = .system) (huser : user.role = .user) :
    pinnedLength (sys ++ user :: rest) = sys.length + 1 := by
  have hne : ¬ (decide (user.role = .system)) = true := by
    rw [huser]
    decide
  have htake : (sys ++ user :: rest).takeWhile (·.role = .system) = sys := by
    rw [List.takeWhile_append_of_pos fun m hm => decide_eq_true (hsys m hm),
      List.takeWhile_cons_of_neg (by exact hne), List.append_nil]
  unfold pinnedLength
  dsimp only
  rw [htake, List.getElem?_append_right (le_refl _), Nat.sub_self, List.getElem?_cons_zero]
  exact if_pos huser

theorem drop_pinned (sys : List ModelMessage) (user : ModelMessage) (k : Nat) :
    (sys ++ user :: rest).drop (sys.length + 1 + k) = rest.drop k := by
  rw [Nat.add_assoc, List.drop_length_add_append, Nat.add_comm 1 k, List.drop_succ_cons]

/-- One round of the loop. -/
theorem dropFirstSpan_eq (hsys : ∀ m ∈ sys, m.role = .system) (huser : user.role = .user)
    {first : List ModelMessage} {more : List (List ModelMessage)}
    (hs : spans rest = first :: more) :
    dropFirstSpan (sys ++ user :: rest) first.length = sys ++ user :: more.flatten := by
  have hrest : rest = first ++ more.flatten := by
    rw [← spans_flatten rest, hs, List.flatten_cons]
  unfold dropFirstSpan
  rw [pinnedLength_eq hsys huser, drop_pinned, hrest, List.drop_left, List.take_append,
    List.take_of_length_le (by omega)]
  simp

/-- The spans that are left are the spans of what is left. -/
theorem spans_rest {first : List ModelMessage} {more : List (List ModelMessage)}
    (hs : spans rest = first :: more) : spans more.flatten = more := by
  cases rest with
  | nil => cases hs
  | cons m ms =>
    rw [spans_cons] at hs
    obtain ⟨-, rfl⟩ := List.cons.inj hs
    rw [spans_flatten]

/-- The prefix and these spans are within the target. -/
def fitsTarget (estimate : List ModelMessage → Nat) (target : ℚ≥0) (sys : List ModelMessage)
    (user : ModelMessage) (ss : List (List ModelMessage)) : Bool :=
  (estimate (sys ++ user :: ss.flatten) : ℚ≥0) ≤ target

/-- **Eviction.** The loop sheds spans. -/
theorem evict_sheds (hsys : ∀ m ∈ sys, m.role = .system) (huser : user.role = .user)
    (estimate : List ModelMessage → Nat) (target : ℚ≥0) (fuel : Nat)
    (hfuel : (spans rest).length ≤ fuel) :
    let n := shed (fitsTarget estimate target sys user) minRetainedSpans (spans rest)
    evict estimate target fuel (sys ++ user :: rest) =
      (sys ++ user :: ((spans rest).drop n).flatten, n) := by
  intro n
  induction fuel generalizing rest with
  | zero =>
    have hnil : spans rest = [] := List.eq_nil_of_length_eq_zero (by omega)
    have hrest : rest = [] := by rw [← spans_flatten rest, hnil, List.flatten_nil]
    subst hrest
    rfl
  | succ fuel ih =>
    have hspans : evictableSpans (sys ++ user :: rest) = (spans rest).map List.length := by
      unfold evictableSpans
      rw [pinnedLength_eq hsys huser, ← spanLengths_eq]
      exact congrArg _ (drop_pinned sys user 0)
    have hflat : ∀ ss, spans rest = ss → ss.flatten = rest := fun ss hs => hs ▸ spans_flatten rest
    unfold evict
    rw [hspans]
    cases hs : spans rest with
    | nil =>
      have hn : n = 0 := by
        show shed _ _ (spans rest) = 0
        rw [hs]
        rfl
      rw [hn, List.drop_zero, hflat _ hs]
      by_cases hf : (estimate (sys ++ user :: rest) : ℚ≥0) ≤ target
      · rw [if_pos hf]
      · rw [if_neg hf]
        rfl
    | cons first more =>
      have hn : n = shed (fitsTarget estimate target sys user) minRetainedSpans (first :: more) :=
        hs ▸ rfl
      unfold shed fitsTarget at hn
      rw [hflat _ hs] at hn
      by_cases hf : (estimate (sys ++ user :: rest) : ℚ≥0) ≤ target
      · rw [if_pos (decide_eq_true hf)] at hn
        rw [if_pos hf, hn, List.drop_zero, hflat _ hs]
      · rw [if_neg fun hd => hf (of_decide_eq_true hd)] at hn
        rw [if_neg hf, List.map_cons]
        dsimp only
        rw [← List.map_cons, List.length_map]
        by_cases hk : (first :: more).length ≤ minRetainedSpans
        · rw [if_pos hk] at hn
          rw [if_pos hk, hn, List.drop_zero, hflat _ hs]
        · rw [if_neg hk] at hn
          have hmore := spans_rest hs
          have hlen : (spans more.flatten).length ≤ fuel := by
            rw [hmore]
            rw [hs, List.length_cons] at hfuel
            omega
          have hih := ih hlen
          rw [hmore] at hih
          rw [if_neg hk, dropFirstSpan_eq hsys huser hs, hih, hn]
          rfl

/-- What compaction leaves of a conversation: three spans, if there are so many. -/
theorem compactMessages_left (rest : List ModelMessage) (hsys : ∀ m ∈ sys, m.role = .system)
    (huser : user.role = .user) (estimate : List ModelMessage → Nat) (window : Nat) :
    ∃ n ≤ (spans rest).length - minRetainedSpans,
      compactMessages estimate window (sys ++ user :: rest) =
        (sys ++ user :: ((spans rest).drop n).flatten, n) := by
  unfold compactMessages
  split
  · exact ⟨0, Nat.zero_le _, by rw [List.drop_zero, spans_flatten]⟩
  · refine ⟨_, shed_le, evict_sheds hsys huser estimate (window * contextTargetRatio) _ ?_⟩
    have hle := spans_length_le rest
    rw [List.length_append, List.length_cons]
    omega

end

/-- **Compaction.** For every estimate, window and conversation that begins with
its system messages and the objective: what is left is that prefix and the spans
behind the removed ones, whose number is returned. Nothing goes at or below the
trigger. Above it no smaller number of removals reaches the target, and the
target is reached or three spans, or all there were, remain. -/
theorem compaction (estimate : List ModelMessage → Nat) (window : Nat) (sys : List ModelMessage)
    (user : ModelMessage) (rest : List ModelMessage) (hsys : ∀ m ∈ sys, m.role = .system)
    (huser : user.role = .user) :
    let left n := sys ++ user :: ((spans rest).drop n).flatten
    let r := compactMessages estimate window (sys ++ user :: rest)
    r.1 = left r.2 ∧ r.2 ≤ (spans rest).length ∧
    ((estimate (sys ++ user :: rest) : ℚ≥0) ≤ window * contextTriggerRatio → r.2 = 0) ∧
    (window * contextTriggerRatio < estimate (sys ++ user :: rest) →
      (∀ k < r.2, window * contextTargetRatio < estimate (left k)) ∧
      ((estimate r.1 : ℚ≥0) ≤ window * contextTargetRatio ∨
        (spans rest).length - r.2 = min 3 (spans rest).length)) := by
  intro left r
  have hleft0 : left 0 = sys ++ user :: rest := by
    show sys ++ user :: ((spans rest).drop 0).flatten = _
    rw [List.drop_zero, spans_flatten]
  by_cases htrigger : (estimate (sys ++ user :: rest) : ℚ≥0) ≤ window * contextTriggerRatio
  · have hr : r = (sys ++ user :: rest, 0) := by
      show compactMessages _ _ _ = _
      unfold compactMessages
      rw [if_pos htrigger]
    rw [hr]
    exact ⟨hleft0.symm, Nat.zero_le _, fun _ => rfl, fun h => absurd htrigger (not_le.mpr h)⟩
  · have hfuel : (spans rest).length ≤ (sys ++ user :: rest).length := by
      have hle := spans_length_le rest
      rw [List.length_append, List.length_cons]
      omega
    have hevict := evict_sheds hsys huser estimate (window * contextTargetRatio) _ hfuel
    have hr : r = evict estimate (window * contextTargetRatio) (sys ++ user :: rest).length
        (sys ++ user :: rest) := if_neg htrigger
    rw [hr, hevict]
    refine ⟨rfl, (shed_le).trans (Nat.sub_le _ _), fun h => absurd h htrigger, fun _ => ⟨?_, ?_⟩⟩
    · intro k hk
      have hfits := shed_fewest k hk
      exact not_le.mp (of_decide_eq_false hfits)
    · rcases @shed_stops _ (fitsTarget estimate (window * contextTargetRatio) sys user)
        minRetainedSpans (spans rest) with h | h
      · exact .inl (of_decide_eq_true h)
      · exact .inr h

/-- Five answers, one of which calls a tool. -/
def fiveTurns : List ModelMessage :=
  [{ role := .assistant }, { role := .assistant, toolCalls := [{ id := "1", name := "t" }] },
   { role := .tool, toolCallId := "1" }, { role := .assistant }, { role := .assistant },
   { role := .assistant }]

theorem compaction_five :
    let ms := { role := .system } :: { role := .user } :: fiveTurns
    (compactMessages List.length 8 ms).2 = 2 ∧
      (compactMessages List.length 8 ms).1 =
        { role := .system } :: { role := .user } :: ((spans fiveTurns).drop 2).flatten := by
  intro ms
  have htwo : (compactMessages List.length 8 ms).2 = 2 := by decide +kernel
  have hleft := (compaction List.length 8 [{ role := .system }] { role := .user } fiveTurns
    (by decide) rfl).1
  refine ⟨htwo, ?_⟩
  rw [← htwo]
  exact hleft

end Northstack
