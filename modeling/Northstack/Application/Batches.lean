import Mathlib
import Northstack.Application.Conversations
import Northstack.Core.Solo

/-!
# Tools side by side

A round of tool calls runs in batches (worker.py:880-930): a mutating call
alone, the calls between two of them together, six at most. `Application.Worker`
takes a batch's answers from a script; here the tools run. Each is a task of its
own over the workspace, and the loop awaits a batch as a group.

**Results.**
* `toolBatches_alone`, `toolBatches_cap`: who shares a batch.
* `batches_serial`: whatever order the tools of each batch take turns in, the
  results and the workspace are those of one call after another.
-/
namespace Northstack

open Coop

/-! ## Batches -/

section

variable {α : Type} {mutating : α → Bool}

/-- What holds of the batches on the way: a mutating call is alone in its batch,
and the last batch is open to others only if it has none. -/
structure Batched (mutating : α → Bool) (st : List (List α) × Bool) : Prop where
  alone : ∀ batch ∈ st.1, ∀ x ∈ batch, mutating x = true → batch = [x]
  cap : ∀ batch ∈ st.1, batch.length ≤ maxParallelToolCalls
  last : st.2 = false → ∀ x ∈ st.1.getLastD [], mutating x = false

theorem Batched.add {st : List (List α) × Bool} (h : Batched mutating st) (call : α) :
    Batched mutating (addToBatches mutating st call) := by
  unfold addToBatches
  dsimp only
  split
  · refine ⟨?_, ?_, fun hc x hx => ?_⟩
    · intro batch hb x hx _
      rcases List.mem_append.mp hb with hb | hb
      · exact h.alone batch hb x hx ‹_›
      · obtain rfl := List.mem_singleton.mp hb
        rw [List.mem_singleton.mp hx]
    · intro batch hb
      rcases List.mem_append.mp hb with hb | hb
      · exact h.cap batch hb
      · obtain rfl := List.mem_singleton.mp hb
        exact (by decide : 1 ≤ maxParallelToolCalls)
    · rw [List.getLastD_concat, List.mem_singleton] at hx
      exact hx ▸ hc
  · rename_i hopen
    simp only [Bool.or_eq_true, decide_eq_true_eq, not_or, Bool.not_eq_true, not_le] at hopen
    obtain ⟨⟨hcall, hprev⟩, hroom⟩ := hopen
    have hread : ∀ x ∈ st.1.getLastD [] ++ [call], mutating x = false := by
      intro x hx
      rcases List.mem_append.mp hx with hx | hx
      · exact h.last hprev x hx
      · rw [List.mem_singleton.mp hx]
        exact hcall
    refine ⟨?_, ?_, fun _ x hx => ?_⟩
    · intro batch hb x hx hm
      rcases List.mem_append.mp hb with hb | hb
      · exact h.alone batch (List.mem_of_mem_dropLast hb) x hx hm
      · obtain rfl := List.mem_singleton.mp hb
        rw [hread x hx] at hm
        cases hm
    · intro batch hb
      rcases List.mem_append.mp hb with hb | hb
      · exact h.cap batch (List.mem_of_mem_dropLast hb)
      · obtain rfl := List.mem_singleton.mp hb
        rw [List.length_append, List.length_singleton]
        omega
    · rw [List.getLastD_concat] at hx
      exact hread x hx

theorem toolBatches_batched (mutating : α → Bool) (calls : List α) :
    Batched mutating (calls.foldl (addToBatches mutating) ([], true)) := by
  have hstart : Batched mutating (([], true) : List (List α) × Bool) :=
    ⟨nofun, nofun, nofun⟩
  generalize (([], true) : List (List α) × Bool) = st at hstart
  induction calls generalizing st with
  | nil => exact hstart
  | cons x calls ih => exact ih _ (hstart.add x)

/-- A mutating call has its batch to itself. -/
theorem toolBatches_alone {calls batch : List α} (hb : batch ∈ toolBatches mutating calls) {x : α}
    (hx : x ∈ batch) (hm : mutating x = true) : batch = [x] :=
  (toolBatches_batched mutating calls).alone batch hb x hx hm

theorem toolBatches_cap {calls batch : List α} (hb : batch ∈ toolBatches mutating calls) :
    batch.length ≤ maxParallelToolCalls :=
  (toolBatches_batched mutating calls).cap batch hb

end
/-! ## Tools at work -/

/-- The workspace, and the worker's `mutation_lease`. -/
structure Bench (ω : Type) where
  workspace : ω
  mutationLease : Option String := none

/-- What the registry's tools and the lease do to a workspace. A tool is handed
its call, at its place in the response, and the lease the worker holds. -/
structure Workbench (ω : Type) where
  acquireLease : ω → Except Exc (Option String) × ω
  execute : Tool → ToolCall × Nat → Option String → Co ω Exc ToolResult

namespace Worker

variable {ω : Type} (w : WorkerInput) (b : Workbench ω)

/-- `mutation_lease = self._workspace.acquire_lease(...)` (worker.py:890) -/
def takeLease : Co (Bench ω) Exc (Option String) :=
  .act (fun s =>
      { workspace := (b.acquireLease s.workspace).2
        mutationLease := match (b.acquireLease s.workspace).1 with
          | .ok lease => lease
          | .error _ => s.mutationLease })
    fun s => .done (b.acquireLease s.workspace).1

/-- `_execute_tool` up to the rendering (worker.py:947-1007). -/
def executeTool (tool : Tool) (x : ToolCall × Nat) : Co (Bench ω) Exc ToolAnswer := do
  let s ← Co.get
  tryCatch (do
    let r ← (b.execute tool x s.mutationLease).zoom Bench.workspace
      fun ws s => { s with workspace := ws }
    pure (.returned r)) fun
    | .exception _ message => pure (.raised message)
    | .cancelled note => throw (.cancelled note)

/-- What becomes of a call (worker.py:883-902). A call that does not validate or
whose tool is unknown touches nothing, and no answer of the world's is read. -/
def attemptCall (x : ToolCall × Nat) : Co (Bench ω) Exc ToolAnswer :=
  match validateToolArgs x.1 w.toolDefs, w.registry.get x.1.name with
  | none, some tool =>
    if tool.mutating then do
      let lease ← takeLease b
      match lease with
      | none => pure .leaseRefused
      | some _ => executeTool b tool x
    else executeTool b tool x
  | _, _ => pure (.raised "")

/-- `resolve` (worker.py:880-905) -/
def resolveCall (x : ToolCall × Nat) : Co (Bench ω) Exc ToolResultMessage := do
  let answer ← attemptCall w b x
  pure (resolve w answer x.1)

/-- What `gather` makes of its tasks' ends: their results, or the first
exception. -/
def gathered {α : Type} : List (Except Exc α) → Except Exc (List α)
  | [] => .ok []
  | .ok a :: rs => (gathered rs).map (a :: ·)
  | .error e :: _ => .error e

/-- The batches of a round, one group after another (worker.py:907-924); when
the wall clock runs out, the group is cancelled and there are no results. -/
def runRound : List (List (ToolCall × Nat)) → Main (Bench ω) Exc (List ToolResultMessage)
  | [] => pure []
  | batch :: batches => do
    let (ended, cancelled) ← Main.gather (.cancelled none) (batch.map (resolveCall w b))
    match cancelled, gathered ended with
    | true, _ => throw (.cancelled none)
    | false, .error e => throw e
    | false, .ok results => do
      let rest ← runRound batches
      pure (results ++ rest)

end Worker

/-! ## One call after another -/

/-- A tool that is not declared mutating does not change the workspace. -/
def Workbench.ReadsOnly {ω : Type} (b : Workbench ω) : Prop :=
  ∀ tool x lease, tool.mutating = false → (b.execute tool x lease).All Inert

section

variable {ω : Type} {w : WorkerInput} {b : Workbench ω} {is rest : List (Input Exc)}
  {s t : Bench ω} {rs : List ToolResultMessage} {calls batch : List (ToolCall × Nat)}
  {batches : List (List (ToolCall × Nat))}

theorem executeTool_reads (hb : b.ReadsOnly) {tool : Tool} (ht : tool.mutating = false)
    (x : ToolCall × Nat) : (Worker.executeTool b tool x).All Inert := by
  refine Co.all_bind (Co.all_get fun _ => rfl) fun s => ?_
  refine Co.all_tryCatch (Co.all_bind ((hb tool x _ ht).zoom fun _ => rfl) fun _ => Co.all_pure) ?_
  intro e
  cases e with
  | exception k message => exact Co.all_pure
  | cancelled note => exact Co.all_throw

theorem resolveCall_reads (hb : b.ReadsOnly) {x : ToolCall × Nat}
    (hx : Worker.isMutating w x = false) : (Worker.resolveCall w b x).All Inert := by
  refine Co.all_bind ?_ fun _ => Co.all_pure
  unfold Worker.attemptCall
  unfold Worker.isMutating at hx
  split
  · rename_i tool _ htool
    rw [htool] at hx
    rw [if_neg (by simp [hx])]
    exact executeTool_reads hb hx x
  · exact Co.all_pure

/-- The calls are executed one after another, each alone. -/
inductive Serial (w : WorkerInput) (b : Workbench ω) (is : List (Input Exc)) :
    List (ToolCall × Nat) → Bench ω → List ToolResultMessage → Bench ω → Prop
  | nil {s : Bench ω} : Serial w b is [] s [] s
  | cons {x : ToolCall × Nat} {xs : List (ToolCall × Nat)} {s t u : Bench ω}
    {r : ToolResultMessage} {rs : List ToolResultMessage}
    (hx : EndsAlone is s (Worker.resolveCall w b x).start (.ok r) t) (hxs : Serial w b is xs t rs u) :
    Serial w b is (x :: xs) s (r :: rs) u

theorem Serial.mono {is' : List (Input Exc)} (h : Serial w b is calls s rs t) (hsub : is ⊆ is') :
    Serial w b is' calls s rs t := by
  induction h with
  | nil => exact .nil
  | cons hx _ ih => exact .cons (hx.mono hsub) ih

theorem Serial.append {calls' : List (ToolCall × Nat)} {u : Bench ω}
    {rs' : List ToolResultMessage} (h : Serial w b is calls s rs t)
    (h' : Serial w b is calls' t rs' u) : Serial w b is (calls ++ calls') s (rs ++ rs') u := by
  induction h with
  | nil => exact h'
  | cons hx _ ih => exact .cons hx (ih h')

theorem gathered_ok {α : Type} {ended : List (Except Exc α)} {results : List α}
    (h : Worker.gathered ended = .ok results) : ended = results.map .ok := by
  induction ended generalizing results with
  | nil =>
    cases h
    rfl
  | cons r ended ih =>
    cases r with
    | error e => cases h
    | ok a =>
      unfold Worker.gathered at h
      cases hg : Worker.gathered ended with
      | error e =>
        rw [hg] at h
        cases h
      | ok rest =>
        rw [hg] at h
        cases h
        rw [ih hg]
        rfl

theorem gathered_map {α : Type} (results : List α) :
    Worker.gathered (results.map .ok) = .ok results := by
  induction results with
  | nil => rfl
  | cons a results ih =>
    rw [List.map_cons, Worker.gathered, ih]
    rfl

/-- A round goes through batch by batch. -/
theorem runRound_cons : Worker.runRound w b (batch :: batches) is s = .ret rs rest t ↔
    ∃ results is' u more, interleave (.cancelled none) is
        (group (batch.map (Worker.resolveCall w b))) false s =
          .ret (results.map .ok, false) is' u ∧
      Worker.runRound w b batches is' u = .ret more rest t ∧ rs = results ++ more := by
  rw [Worker.runRound, Main.bind_eq_ret]
  constructor
  · rintro ⟨⟨ended, cancelled⟩, is', u, hg, h⟩
    cases cancelled with
    | true => cases h
    | false =>
      cases hok : Worker.gathered ended with
      | error e =>
        dsimp only at h
        rw [hok] at h
        cases h
      | ok results =>
        dsimp only at h
        rw [hok] at h
        obtain ⟨more, is'', u', hm, hp⟩ := Main.bind_eq_ret.mp h
        cases hp
        rw [gathered_ok hok] at hg
        exact ⟨results, is', u, more, hg, hm, rfl⟩
  · rintro ⟨results, is', u, more, hg, hm, rfl⟩
    refine ⟨(results.map .ok, false), is', u, hg, ?_⟩
    dsimp only
    rw [gathered_map]
    exact Main.bind_eq_ret.mpr ⟨more, rest, t, hm, rfl⟩

theorem serial_of_reads {results : List ToolResultMessage}
    (h : List.Forall₂ (fun x r => EndsAlone is s (Worker.resolveCall w b x).start (.ok r) s)
      batch results) : Serial w b is batch s results s := by
  induction h with
  | nil => exact .nil
  | cons hx _ ih => exact .cons hx ih

/-- One batch: a call alone, or calls that only read. -/
theorem gather_serial (hb : b.ReadsOnly)
    (hbatch : (∃ x, batch = [x]) ∨ ∀ x ∈ batch, Worker.isMutating w x = false)
    {is' : List (Input Exc)} {u : Bench ω} {results : List ToolResultMessage}
    (h : interleave (.cancelled none) is (group (batch.map (Worker.resolveCall w b))) false s =
      .ret (results.map .ok, false) is' u) : Serial w b is batch s results u := by
  rcases hbatch with ⟨x, rfl⟩ | hreads
  · obtain ⟨r, hr, he⟩ := interleave_solo h
    obtain ⟨result, rfl⟩ := List.length_eq_one_iff.mp
      ((List.length_map _).symm.trans (congrArg List.length hr))
    cases hr
    exact .cons he .nil
  · have hall : AllRead (group (batch.map (Worker.resolveCall w b))) := by
      intro c hc
      rw [group_eq, List.map_map] at hc
      obtain ⟨x, hx, rfl⟩ := List.mem_map.mp hc
      exact ⟨rfl, (resolveCall_reads hb (hreads x hx)).start⟩
    obtain ⟨rfl, hends⟩ := interleave_reads hall h
    rw [group_eq, List.map_map, List.forall₂_map_left_iff, List.forall₂_map_right_iff] at hends
    exact serial_of_reads hends

/-- A round whose batches are such is serial. -/
theorem runRound_serial (hb : b.ReadsOnly)
    (hbatches : ∀ batch ∈ batches,
      (∃ x, batch = [x]) ∨ ∀ x ∈ batch, Worker.isMutating w x = false)
    (h : Worker.runRound w b batches is s = .ret rs rest t) :
    Serial w b is batches.flatten s rs t := by
  induction batches generalizing is s rs with
  | nil =>
    cases h
    exact .nil
  | cons batch batches ih =>
    obtain ⟨results, is', u, more, hg, hm, rfl⟩ := runRound_cons.mp h
    have hhead := gather_serial hb (hbatches batch List.mem_cons_self) hg
    have htail := ih (fun x hx => hbatches x (List.mem_cons_of_mem _ hx)) hm
    exact hhead.append (htail.mono (interleave_rest hg))

/-- What was executed one after another is a round of batches of one. -/
theorem Serial.runRound (h : Serial w b is calls s rs t) :
    ∃ is', (∀ i ∈ is', ∃ n w, i = .child 0 w ∧ .child n w ∈ is) ∧
      Worker.runRound w b (calls.map ([·])) is' s = .ret rs [] t := by
  induction h with
  | nil => exact ⟨[], nofun, rfl⟩
  | @cons x xs s t u r rs hx _ ih =>
    obtain ⟨ws, hws, he⟩ := hx
    obtain ⟨is', hmem, hrun⟩ := ih
    refine ⟨ws.map (.child 0) ++ is', fun i hi => ?_, ?_⟩
    · rcases List.mem_append.mp hi with hi | hi
      · obtain ⟨v, hv, rfl⟩ := List.mem_map.mp hi
        obtain ⟨n, hn⟩ := hws v hv
        exact ⟨n, v, rfl, hn⟩
      · exact hmem i hi
    · exact runRound_cons.mpr ⟨[r], is', t, rs, he.interleave _ _, hrun, rfl⟩

/-- The inputs let every await complete. -/
def AwaitsComplete (is : List (Input Exc)) : Prop := ∀ n w, .child n w ∈ is → w = .resume

theorem Serial.unique {is' : List (Input Exc)} {rs' : List ToolResultMessage} {t' : Bench ω}
    (h : Serial w b is calls s rs t) (h' : Serial w b is' calls s rs' t') (hc : AwaitsComplete is)
    (hc' : AwaitsComplete is') : rs = rs' ∧ t = t' := by
  induction h generalizing rs' t' with
  | nil =>
    cases h'
    exact ⟨rfl, rfl⟩
  | cons hx _ ih =>
    cases h' with
    | cons hx' hxs' =>
      obtain ⟨ws, hws, he⟩ := hx
      obtain ⟨ws', hws', he'⟩ := hx'
      obtain ⟨hr, rfl⟩ := he.unique he' (fun v hv => (hws v hv).elim fun n => hc n v)
        fun v hv => (hws' v hv).elim fun n => hc' n v
      cases hr
      obtain ⟨rfl, rfl⟩ := ih hxs'
      exact ⟨rfl, rfl⟩

/-- A response's batches are of one call, or of calls that only read. -/
theorem toolBatches_apart (w : WorkerInput) (calls : List (ToolCall × Nat)) :
    ∀ batch ∈ toolBatches (Worker.isMutating w) calls,
      (∃ x, batch = [x]) ∨ ∀ x ∈ batch, Worker.isMutating w x = false := by
  intro batch hb
  by_cases h : ∃ x ∈ batch, Worker.isMutating w x = true
  · obtain ⟨x, hx, hm⟩ := h
    exact .inl ⟨x, toolBatches_alone hb hx hm⟩
  · exact .inr fun x hx => Bool.eq_false_iff.mpr fun hm => h ⟨x, hx, hm⟩

theorem singletons_apart (w : WorkerInput) (calls : List (ToolCall × Nat)) :
    ∀ batch ∈ calls.map ([·]),
      (∃ x, batch = [x]) ∨ ∀ x ∈ batch, Worker.isMutating w x = false := by
  intro batch hb
  obtain ⟨x, -, rfl⟩ := List.mem_map.mp hb
  exact .inl ⟨x, rfl⟩

/-- Whatever a call comes to, it is what the worker resolves some answer to. -/
theorem resolved_of_endsAlone {x : ToolCall × Nat} {r : ToolResultMessage}
    (h : EndsAlone is s (Worker.resolveCall w b x).start (.ok r) t) :
    ∃ answer, r = Worker.resolve w answer x.1 := by
  obtain ⟨ws, -, he⟩ := h
  have hC : Contract (fun _ _ => True) (fun _ _ => True) fun (r : Except Exc ToolResultMessage)
      (_ : Bench ω) => ∀ m, r = .ok m → ∃ answer, m = Worker.resolve w answer x.1 :=
    ⟨fun _ => trivial, fun _ _ => trivial, fun _ => trivial, fun _ _ => trivial, fun h _ => h⟩
  refine he.sat hC (fun v u _ => ?_) r rfl
  cases v with
  | raise e => exact fun _ hm => nomatch hm
  | resume =>
    refine Co.sat_bind ((Co.sat_any _ u).mono fun answer _ _ => ?_)
    cases answer with
    | error e => exact fun _ hm => nomatch hm
    | ok answer =>
      rintro m ⟨⟩
      exact ⟨answer, rfl⟩

theorem Serial.resolved (h : Serial w b is calls s rs t) :
    List.Forall₂ (fun x r => ∃ answer, r = Worker.resolve w answer x.1) calls rs := by
  induction h with
  | nil => exact .nil
  | cons hx _ ih => exact .cons (resolved_of_endsAlone hx) ih

/-- The answers of a round, by the place of the call. -/
theorem exists_tool {xs : List ToolCall} {n : Nat}
    (h : List.Forall₂ (fun x r => ∃ answer, r = Worker.resolve w answer x.1) (xs.zipIdx n) rs) :
    ∃ tool : Nat → ToolAnswer,
      rs = (xs.zipIdx n).map fun x => Worker.resolve w (tool x.2) x.1 := by
  induction xs generalizing n rs with
  | nil =>
    cases h
    exact ⟨fun _ => .leaseRefused, rfl⟩
  | cons x xs ih =>
    rw [List.zipIdx_cons] at h ⊢
    obtain ⟨_, _, ⟨answer, rfl⟩, hrest, rfl⟩ := List.forall₂_cons_left_iff.mp h
    obtain ⟨tool, rfl⟩ := ih hrest
    refine ⟨fun i => if i = n then answer else tool i, ?_⟩
    have hhead : (if n = n then answer else tool n) = answer := if_pos rfl
    rw [List.map_cons]
    dsimp only
    rw [hhead]
    refine congrArg _ (List.map_congr_left fun y hy => ?_)
    have hlt := List.le_snd_of_mem_zipIdx hy
    rw [if_neg (by omega)]

/-- **Scripts.** A round's results are what a script of answers gives, one for
each call: the script of `Turn.tool`. -/
theorem round_scripted (hb : b.ReadsOnly) {xs : List ToolCall}
    (h : Worker.runRound w b (toolBatches (Worker.isMutating w) xs.zipIdx) is s = .ret rs rest t) :
    ∃ tool : Nat → ToolAnswer,
      rs = xs.zipIdx.map fun x => Worker.resolve w (tool x.2) x.1 := by
  have hserial := runRound_serial hb (toolBatches_apart w xs.zipIdx) h
  rw [toolBatches_flatten] at hserial
  exact exists_tool hserial.resolved

end

/-- **Batches.** Let the tools that are not declared mutating leave the workspace
as it is. The batches of a response are its calls in order, a mutating call is
alone in its batch and no batch has more than six. Whatever the inputs, that is,
whatever order the tools of each batch take turns in and however their awaits
end, a round that returns its results could have come about with the calls
executed one after another, each given answers it was given. Where all awaits
complete, every such execution has these results and leaves this workspace. -/
theorem batches_serial {ω : Type} (w : WorkerInput) (b : Workbench ω) (hb : b.ReadsOnly)
    (calls : List ToolCall) (s : Bench ω) :
    let batches := toolBatches (Worker.isMutating w) calls.zipIdx
    batches.flatten = calls.zipIdx ∧
    (∀ batch ∈ batches, ∀ x ∈ batch, Worker.isMutating w x = true → batch = [x]) ∧
    (∀ batch ∈ batches, batch.length ≤ maxParallelToolCalls) ∧
    ∀ inputs results rest t, Worker.runRound w b batches inputs s = .ret results rest t →
      (∃ inputs', (∀ i ∈ inputs', ∃ n v, i = .child 0 v ∧ .child n v ∈ inputs) ∧
        Worker.runRound w b (calls.zipIdx.map ([·])) inputs' s = .ret results [] t) ∧
      ∀ inputs' results' rest' t',
        Worker.runRound w b (calls.zipIdx.map ([·])) inputs' s = .ret results' rest' t' →
        AwaitsComplete inputs → AwaitsComplete inputs' → results = results' ∧ t = t' := by
  intro batches
  refine ⟨toolBatches_flatten _ _, fun _ => toolBatches_alone, fun _ => toolBatches_cap, ?_⟩
  intro inputs results rest t h
  have hserial := runRound_serial hb (toolBatches_apart w calls.zipIdx) h
  rw [toolBatches_flatten] at hserial
  refine ⟨hserial.runRound, fun inputs' results' rest' t' h' hc hc' => ?_⟩
  have hserial' := runRound_serial hb (singletons_apart w calls.zipIdx) h'
  rw [← List.flatMap_def, List.flatMap_singleton'] at hserial'
  exact hserial.unique hserial' hc hc'

/-- A worker with a tool that reads and one that writes. -/
def readsAndWrites : WorkerInput where
  cell := { id := "c", contract := { id := "wc", objective := "", budget := {} } }
  attempt := 0
  toolDefs := [{ name := "read" }, { name := "write" }]
  registry := [{ name := "read" }, { name := "write", mutating := true }]
  estimate := List.length
  parse := fun _ => .invalid ""

/-- A workspace that counts the writes; a read awaits and reports their number. -/
def countingBench : Workbench Nat where
  acquireLease := fun n => (.ok (some "l"), n)
  execute := fun tool _ _ => do
    Co.modify fun n => if tool.mutating then n + 1 else n
    Co.suspend
    let n ← Co.get
    pure { ok := true, data := String.ofList (List.replicate n 'i') }

theorem countingBench_reads : countingBench.ReadsOnly := by
  intro tool x lease ht
  refine Co.all_bind (Co.all_modify fun n => if_neg (by simp [ht])) fun _ => ?_
  exact Co.all_bind Co.all_suspend fun _ => Co.all_bind (Co.all_get fun _ => rfl) fun _ => Co.all_pure

/-- Two reads around each other, a write, and a read. -/
def readsAround : List (Input Exc) :=
  [.child 1 .resume, .child 0 .resume, .child 0 .resume, .child 1 .resume, .child 0 .resume,
    .child 0 .resume, .child 0 .resume, .child 0 .resume]

def fourCalls : List ToolCall :=
  [{ id := "1", name := "read" }, { id := "2", name := "read" }, { id := "3", name := "write" },
    { id := "4", name := "read" }]

def fourResults : List ToolResultMessage :=
  [{ toolCallId := "1", content := "" }, { toolCallId := "2", content := "" },
    { toolCallId := "3", content := "i" }, { toolCallId := "4", content := "i" }]

theorem batches_serial_four : ∃ inputs,
    Worker.runRound readsAndWrites countingBench (fourCalls.zipIdx.map ([·])) inputs
      { workspace := 0 } = .ret fourResults [] { workspace := 1, mutationLease := some "l" } := by
  have h := (batches_serial readsAndWrites countingBench countingBench_reads fourCalls
    { workspace := 0 }).2.2.2 readsAround fourResults []
    { workspace := 1, mutationLease := some "l" } rfl
  exact h.1.imp fun _ => And.right

end Northstack
