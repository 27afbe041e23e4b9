import Mathlib
import Northstack.Adapters.Wire

/-!
# What a conversation says

The content of a conversation free of any protocol: what the user and the model
said, with the calls the model made, and what the calls returned, each result
under what its protocol names the call with. `entries` reads it off a
conversation message by message; `merged` joins the results of one turn.

**Results.**
* `foldl_push`: joining each result to a results entry that stands last merges.
* `entry_result`: a result of an open call is attributed to it alone.
-/
namespace Northstack

/-- What a protocol sends of a call besides its name and arguments, and what it
names the call of a result with. -/
structure Naming where
  key : ToolCall → String
  call : ToolCall → String

/-- Calls are told and answered under their ids. -/
def Naming.byId : Naming := ⟨(·.id), (·.id)⟩

/-- Calls are told with their signature and answered under their names. -/
def Naming.byName : Naming := ⟨(·.signature), (·.name)⟩

structure SaidCall where
  key : String
  name : String
  arguments : List (String × Json)

structure SaidResult where
  call : String
  content : String
  isError : Bool

inductive Entry where
  | said (role : MessageRole) (content : String) (calls : List SaidCall)
  | results (rs : List SaidResult)

def Naming.said (N : Naming) (c : ToolCall) : SaidCall := ⟨N.key c, c.name, c.arguments⟩

namespace ModelMessage

/-- The calls results may answer behind `m`. -/
def opens (opened : List ToolCall) (m : ModelMessage) : List ToolCall :=
  match m.role with
  | .system | .tool => opened
  | .user | .assistant => m.toolCalls

/-- What `m` says, the system's instructions apart. A result is one of the open
call whose id it has. -/
def entry (N : Naming) (opened : List ToolCall) (m : ModelMessage) : List Entry :=
  match m.role with
  | .system => []
  | .tool =>
    [.results ((opened.filter (·.id = m.toolCallId)).map fun c =>
      ⟨N.call c, m.content, m.isError⟩)]
  | .user | .assistant => [.said m.role m.content (m.toolCalls.map N.said)]

end ModelMessage

/-- What a conversation says, read with the calls `opened`. -/
def entries (N : Naming) : List ToolCall → List ModelMessage → List Entry
  | _, [] => []
  | opened, m :: ms => m.entry N opened ++ entries N (m.opens opened) ms

/-- A conversation in which only the model calls, under distinct ids in a turn,
and each result answers a call of the turn before. -/
def Answering : List ToolCall → List ModelMessage → Prop
  | _, [] => True
  | opened, m :: ms =>
    (m.role = .tool → ∃ c ∈ opened, c.id = m.toolCallId) ∧
      (m.role ≠ .assistant → m.toolCalls = []) ∧ (m.toolCalls.map (·.id)).Nodup ∧
      Answering (m.opens opened) ms

section

variable {N : Naming} {opened : List ToolCall} {m : ModelMessage}

theorem opens_said (hs : m.role ≠ .system) (ht : m.role ≠ .tool) :
    m.opens opened = m.toolCalls := by
  unfold ModelMessage.opens
  cases hr : m.role with
  | system => exact absurd hr hs
  | tool => exact absurd hr ht
  | user => rfl
  | assistant => rfl

theorem opens_kept (h : m.role = .system ∨ m.role = .tool) : m.opens opened = opened := by
  unfold ModelMessage.opens
  rcases h with h | h <;> rw [h]

theorem opens_nodup (ho : (opened.map (·.id)).Nodup) (hm : (m.toolCalls.map (·.id)).Nodup) :
    ((m.opens opened).map (·.id)).Nodup := by
  by_cases h : m.role = .system ∨ m.role = .tool
  · rwa [opens_kept h]
  · rw [not_or] at h
    rwa [opens_said h.1 h.2]

theorem entry_system (h : m.role = .system) : m.entry N opened = [] := by
  unfold ModelMessage.entry
  rw [h]

theorem entry_said (hs : m.role ≠ .system) (ht : m.role ≠ .tool) :
    m.entry N opened = [.said m.role m.content (m.toolCalls.map N.said)] := by
  unfold ModelMessage.entry
  cases hr : m.role with
  | system => exact absurd hr hs
  | tool => exact absurd hr ht
  | user => rfl
  | assistant => rfl

/-- **Attribution.** A result is one of the one open call it answers. -/
theorem entry_result (h : m.role = .tool) (ho : (opened.map (·.id)).Nodup) {c : ToolCall}
    (hc : c ∈ opened) (hid : c.id = m.toolCallId) :
    m.entry N opened = [.results [⟨N.call c, m.content, m.isError⟩]] := by
  have hfilter : opened.filter (·.id = m.toolCallId) = [c] := by
    induction opened with
    | nil => cases hc
    | cons d ds ih =>
      rw [List.map_cons, List.nodup_cons] at ho
      rcases List.mem_cons.mp hc with rfl | hc
      · rw [List.filter_cons_of_pos (by simpa using hid), List.cons.injEq, List.filter_eq_nil_iff]
        refine ⟨rfl, fun x hx he => ho.1 ?_⟩
        rw [hid, ← of_decide_eq_true he]
        exact List.mem_map_of_mem hx
      · rw [List.filter_cons_of_neg, ih ho.2 hc]
        intro he
        refine ho.1 ?_
        rw [of_decide_eq_true he, ← hid]
        exact List.mem_map_of_mem hc
  unfold ModelMessage.entry
  rw [h, hfilter]
  rfl

end

/-! ## One turn's results -/

/-- Results in front of what follows: one entry with results that come next. -/
def joined (rs : List SaidResult) : List Entry → List Entry
  | .results rs' :: es => .results (rs ++ rs') :: es
  | es => .results rs :: es

/-- Results that stand side by side are one entry. -/
def merged : List Entry → List Entry
  | [] => []
  | .results rs :: es => joined rs (merged es)
  | e :: es => e :: merged es

/-- Add results, to results that stand last. -/
def pushResults (es : List Entry) (rs : List SaidResult) : List Entry :=
  match es.getLast? with
  | some (.results rs') => es.dropLast ++ [.results (rs' ++ rs)]
  | _ => es ++ [.results rs]

/-- Add an entry. -/
def push (es : List Entry) : Entry → List Entry
  | .results rs => pushResults es rs
  | e => es ++ [e]

theorem pushResults_join (pre : List Entry) (rs rs' : List SaidResult) :
    pushResults (pre ++ [.results rs]) rs' = pre ++ [.results (rs ++ rs')] := by
  simp [pushResults]

theorem pushResults_new {es : List Entry} (h : ∀ rs, es.getLast? ≠ some (.results rs))
    (rs : List SaidResult) : pushResults es rs = es ++ [.results rs] := by
  unfold pushResults
  split
  · rename_i rs' he
    exact absurd he (h rs')
  · rfl

theorem joined_joined (rs rs' : List SaidResult) (es : List Entry) :
    joined rs (joined rs' es) = joined (rs ++ rs') es := by
  rcases es with _ | ⟨e, es⟩
  · rfl
  · cases e with
    | said => rfl
    | results => simp only [joined, List.append_assoc]

/-- Entries pushed behind ones that end in results, or do not. -/
theorem foldl_push_from (es : List Entry) : ∀ pre : List Entry,
    (∀ rs, es.foldl push (pre ++ [.results rs]) = pre ++ joined rs (merged es)) ∧
      ((∀ rs, pre.getLast? ≠ some (.results rs)) → es.foldl push pre = pre ++ merged es) := by
  induction es with
  | nil => exact fun pre => ⟨fun rs => rfl, fun _ => (List.append_nil pre).symm⟩
  | cons e es ih =>
    intro pre
    cases e with
    | said role content calls =>
      have hnext := fun pre => (ih (pre ++ [Entry.said role content calls])).2 (by simp)
      refine ⟨fun rs => ?_, fun _ => ?_⟩
      · have hrun := hnext (pre ++ [.results rs])
        rw [List.foldl_cons]
        exact hrun.trans (by simp [merged, joined])
      · exact (hnext pre).trans (by simp [merged])
    | results rs =>
      refine ⟨fun rs' => ?_, fun hl => ?_⟩
      · rw [List.foldl_cons, push, pushResults_join, (ih pre).1, merged, joined_joined]
      · rw [List.foldl_cons, push, pushResults_new hl, (ih pre).1]
        rfl

/-- **Merging.** Joining each result to results that stand last merges. -/
theorem foldl_push (es : List Entry) : es.foldl push [] = merged es :=
  (foldl_push_from es []).2 nofun

/-! ## Calls only behind the model -/

/-- Calls are open only behind the model or results. -/
def OpenBehind (opened : List ToolCall) (es : List Entry) : Prop :=
  ∀ role content calls, es.getLast? = some (.said role content calls) → role ≠ .assistant →
    opened = []

theorem pushResults_getLast (es : List Entry) (rs : List SaidResult) :
    ∃ rs', (pushResults es rs).getLast? = some (.results rs') := by
  unfold pushResults
  split
  · rename_i rs' _
    exact ⟨rs' ++ rs, List.getLast?_concat⟩
  · exact ⟨rs, List.getLast?_concat⟩

theorem OpenBehind.push {N : Naming} {opened : List ToolCall} {m : ModelMessage} {es : List Entry}
    (h : OpenBehind opened es) (hm : m.role ≠ .assistant → m.toolCalls = []) :
    OpenBehind (m.opens opened) ((m.entry N opened).foldl Northstack.push es) := by
  intro role content calls hl hr
  cases hrole : m.role with
  | system =>
    rw [opens_kept (.inl hrole)]
    rw [entry_system hrole] at hl
    exact h role content calls hl hr
  | tool =>
    unfold ModelMessage.entry at hl
    rw [hrole] at hl
    obtain ⟨rs', he⟩ := pushResults_getLast es _
    rw [List.foldl_cons, List.foldl_nil, Northstack.push, he] at hl
    cases hl
  | user =>
    rw [opens_said (by simp [hrole]) (by simp [hrole])]
    exact hm (by simp [hrole])
  | assistant =>
    rw [entry_said (by simp [hrole]) (by simp [hrole]), List.foldl_cons, List.foldl_nil] at hl
    rw [show Northstack.push es (.said m.role m.content _) = es ++ [_] from rfl,
      List.getLast?_concat, hrole] at hl
    cases hl
    exact absurd rfl hr

end Northstack
