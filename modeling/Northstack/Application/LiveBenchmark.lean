import Northstack.Application.Benchmark

/-!
# Fresh workspaces of benchmark runs

A live strategy copies the template of the task to
`runs_dir / f"{task.id}-{index}-{tag}" / "workspace"` and refuses to
when that exists. Two calls of a run have one destination exactly if they are calls of
one strategy with one task and index.

**Result.** `distinct_calls_iff`: what the runner calls a strategy with is distinct,
and every destination is free, exactly if there is a single repeat or no task.
-/
namespace Northstack

open Calls

/-- What tells the calls of a run apart. -/
def StrategyCall.key (k : StrategyCall) : Party × String × Nat := (k.party, k.task.id, k.index)

/-- The pairs a party is called with. -/
def pairsOf (who : Party) (calls : List StrategyCall) : List (String × Nat) :=
  (calls.filter fun k => k.party = who).map fun k => (k.task.id, k.index)

/-- Whatever the strategies do, none is called twice with one pair. -/
def DistinctCalls (runner : BenchmarkRunner) (suite : BenchmarkSuite) : Prop :=
  ∀ (σ ε : Type) (strategies : Strategies σ ε) (s : σ) (who : Party),
    (pairsOf who (runBenchmark runner strategies suite.tasks ⟨s, []⟩).2.made).Nodup

/-! ## Live strategies -/

/-- `FileNotFoundError`, `FileExistsError`, and whatever else a live run raises. -/
inductive LiveError (ε : Type)
  | fileNotFound (template : String)
  | fileExists (destination : List String)
  | other (e : ε)

/-- What comes of the parts of a live run: of the digest of the template, of the test for
its directory and of copying it, and of all that follows in the copy. -/
structure LiveParts (ε : Type) where
  treeDigest : Except ε Unit
  templateIsDir : Bool
  copy : Except ε Unit
  rest : Except ε RunResult

def Party.tag : Party → String
  | .configuration c => c.value
  | .ablation label => label

/-- The directory of a strategy's runs below the one of the benchmark,
`benchmark_live.py:525-626`. -/
def Party.runsDir : Party → List String
  | .configuration _ => []
  | .ablation label => [label]

/-- `run_dir / "workspace"`, `benchmark_live.py:352-355, 416-419` -/
def StrategyCall.destination (k : StrategyCall) : List String :=
  k.party.runsDir ++ [k.task.id ++ "-" ++ toString k.index ++ "-" ++ k.party.tag, "workspace"]

/-- `snapshot_workspace`, the destinations that exist before and after it.
`benchmark_live.py:158-180` -/
def snapshotWorkspace {ε : Type} (parts : LiveParts ε) (template : String)
    (destination : List String) (existing : List (List String)) :
    Except (LiveError ε) Unit × List (List String) :=
  if !parts.templateIsDir then (.error (.fileNotFound template), existing)
  else if destination ∈ existing then (.error (.fileExists destination), existing)
  else match parts.copy with
    | .error e => (.error (.other e), existing)
    | .ok () => (.ok (), destination :: existing)

/-- `LiveWorkerStrategy.run` and `LiveCompanyStrategy.run`, `benchmark_live.py:350-390, 415-490` -/
def liveStrategy {ε : Type} (parts : List StrategyCall → StrategyCall → LiveParts ε) :
    Strategies (List (List String)) (LiveError ε) := fun k made existing =>
  match (parts made k).treeDigest with
  | .error e => (.error (.other e), existing)
  | .ok () =>
    match snapshotWorkspace (parts made k) k.task.workspace k.destination existing with
    | (.error e, existing) => (.error e, existing)
    | (.ok (), existing) => ((parts made k).rest.mapError .other, existing)

/-- Whatever comes of its parts, no live run finds its workspace taken. -/
def FreshSnapshots (runner : BenchmarkRunner) (suite : BenchmarkSuite) : Prop :=
  ∀ (ε : Type) (parts : List StrategyCall → StrategyCall → LiveParts ε) (d : List String),
    (runBenchmark runner (liveStrategy parts) suite.tasks ⟨[], []⟩).1 ≠
      .error (.raised (.fileExists d))

/-! ## Destinations -/

theorem eq_nil_of_last {c : Char} {y y' mid : List Char} (hy : c ∉ y)
    (h : c :: y = mid ++ c :: y') : mid = [] := by
  cases mid with
  | nil => rfl
  | cons d mid =>
    rw [(List.cons.inj h).2] at hy
    simp at hy

/-- The parts around the last separator. -/
theorem split_last {c : Char} {x y x' y' : List Char} (hy : c ∉ y) (hy' : c ∉ y')
    (h : x ++ c :: y = x' ++ c :: y') : x = x' ∧ y = y' := by
  rcases List.append_eq_append_iff.mp h with ⟨mid, hx, hc⟩ | ⟨mid, hx, hc⟩
  · rw [eq_nil_of_last hy hc, List.append_nil] at hx
    rw [eq_nil_of_last hy hc] at hc
    exact ⟨hx.symm, (List.cons.inj hc).2⟩
  · rw [eq_nil_of_last hy' hc, List.append_nil] at hx
    rw [eq_nil_of_last hy' hc] at hc
    exact ⟨hx, (List.cons.inj hc).2.symm⟩

theorem dash_notMem_toDigits (i : Nat) : '-' ∉ Nat.toDigits 10 i := by
  intro h
  have hdigit := Nat.isDigit_of_mem_toDigits (by decide) (by decide) h
  revert hdigit
  decide

theorem dash_notMem_value (c : Configuration) : '-' ∉ c.value.toList := by
  cases c <;> decide

theorem value_injective : Function.Injective Configuration.value := by
  intro c d
  cases c <;> cases d <;> decide

/-- The name of a run's directory, its tag apart. -/
theorem runName_inj {id id' : List Char} {i j : Nat}
    (h : id ++ '-' :: Nat.toDigits 10 i = id' ++ '-' :: Nat.toDigits 10 j) : id = id' ∧ i = j := by
  obtain ⟨hid, hdigits⟩ := split_last (dash_notMem_toDigits i) (dash_notMem_toDigits j) h
  exact ⟨hid, PyText.toDigits_injective hdigits⟩

theorem destination_inj {k k' : StrategyCall} (h : k.destination = k'.destination) :
    k.key = k'.key := by
  obtain ⟨party, task, i⟩ := k
  obtain ⟨party', task', j⟩ := k'
  have hname : ∀ tag tag' : String,
      task.id ++ "-" ++ toString i ++ "-" ++ tag = task'.id ++ "-" ++ toString j ++ "-" ++ tag' →
        (task.id.toList ++ '-' :: Nat.toDigits 10 i) ++ '-' :: tag.toList =
          (task'.id.toList ++ '-' :: Nat.toDigits 10 j) ++ '-' :: tag'.toList := by
    intro tag tag' heq
    have := congrArg String.toList heq
    simpa using this
  cases party with
  | configuration c =>
    cases party' with
    | configuration d =>
      simp only [StrategyCall.destination, Party.runsDir, Party.tag, List.nil_append,
        List.cons.injEq, and_true] at h
      obtain ⟨hrun, htag⟩ := split_last (dash_notMem_value c) (dash_notMem_value d) (hname _ _ h)
      obtain ⟨hid, rfl⟩ := runName_inj hrun
      have hc : c = d := value_injective (String.toList_inj.mp htag)
      rw [StrategyCall.key, StrategyCall.key, hc, String.toList_inj.mp hid]
    | ablation label => simp [StrategyCall.destination, Party.runsDir] at h
  | ablation label =>
    cases party' with
    | configuration d => simp [StrategyCall.destination, Party.runsDir] at h
    | ablation label' =>
      simp only [StrategyCall.destination, Party.runsDir, Party.tag, List.singleton_append,
        List.cons.injEq, and_true] at h
      obtain ⟨rfl, h⟩ := h
      have hrun := List.append_cancel_right (hname _ _ h)
      obtain ⟨hid, rfl⟩ := runName_inj hrun
      rw [StrategyCall.key, StrategyCall.key, String.toList_inj.mp hid]

theorem destination_eq {k k' : StrategyCall} (h : k.key = k'.key) :
    k.destination = k'.destination := by
  obtain ⟨hparty, hpair⟩ := Prod.mk.inj h
  obtain ⟨hid, hindex⟩ := Prod.mk.inj hpair
  rw [StrategyCall.destination, StrategyCall.destination, hparty, hid, hindex]

/-! ## The plan -/

variable {runner : BenchmarkRunner} {suite : BenchmarkSuite} {who : Party} {task : BenchmarkTask}
  {calls more : List StrategyCall}

theorem pairsOf_append : pairsOf who (calls ++ more) = pairsOf who calls ++ pairsOf who more := by
  simp [pairsOf]

theorem pairsOf_nodup (h : (calls.map StrategyCall.key).Nodup) : (pairsOf who calls).Nodup := by
  unfold pairsOf
  refine (h.of_map.filter _).map_on ?_
  intro k hk k' hk' hpair
  rw [List.mem_filter, decide_eq_true_eq] at hk hk'
  refine List.inj_on_of_nodup_map h hk.1 hk'.1 ?_
  rw [StrategyCall.key, StrategyCall.key, hk.2, hk'.2, hpair]

theorem mem_key_repeatPlan {r : Nat} {key : Party × String × Nat}
    (h : key ∈ (repeatPlan runner task r).map StrategyCall.key) : key.2.1 = task.id := by
  simp only [repeatPlan, configurationPlan, bestPlan, List.map_append, List.mem_append,
    List.mem_map, List.mem_flatMap] at h
  rcases h with ⟨k, ⟨c, -, hk⟩, rfl⟩ | ⟨k, ⟨label, -, rfl⟩, rfl⟩
  · split at hk
    · obtain ⟨i, -, rfl⟩ := List.mem_map.mp hk
      rfl
    · rw [List.mem_singleton.mp hk]
      rfl
  · rfl

theorem mem_key_configurationPlan {r : Nat} {c : Configuration} {key : Party × String × Nat}
    (h : key ∈ (configurationPlan runner task r c).map StrategyCall.key) :
    key.1 = .configuration c := by
  obtain ⟨k, hk, rfl⟩ := List.mem_map.mp h
  unfold configurationPlan at hk
  split at hk
  · rename_i hc
    obtain ⟨i, -, rfl⟩ := List.mem_map.mp hk
    rw [hc]
    rfl
  · rw [List.mem_singleton.mp hk]
    rfl

theorem configurationPlan_nodup (r : Nat) (c : Configuration) :
    ((configurationPlan runner task r c).map StrategyCall.key).Nodup := by
  unfold configurationPlan
  split
  · rw [bestPlan, List.map_map]
    exact List.nodup_range.map fun i j h => (Prod.mk.inj (Prod.mk.inj h).2).2
  · exact List.nodup_singleton _

theorem repeatPlan_nodup (r : Nat) : ((repeatPlan runner task r).map StrategyCall.key).Nodup := by
  rw [repeatPlan, List.map_append, List.map_flatMap, List.map_map, List.nodup_append]
  refine ⟨List.nodup_flatMap.mpr ⟨fun c _ => configurationPlan_nodup r c, ?_⟩, ?_, ?_⟩
  · refine (by decide : Configuration.all.Nodup).imp ?_
    intro c d hne key hkey hkey'
    have heq := (mem_key_configurationPlan hkey).symm.trans (mem_key_configurationPlan hkey')
    exact hne (Party.configuration.inj heq)
  · refine runner.ablations_nodup.map ?_
    intro label label' h
    exact Party.ablation.inj (Prod.mk.inj h).1
  · intro key hkey key' hkey' heq
    obtain ⟨c, -, hc⟩ := List.mem_flatMap.mp hkey
    obtain ⟨label, -, rfl⟩ := List.mem_map.mp hkey'
    have hparty := mem_key_configurationPlan hc
    rw [heq] at hparty
    cases hparty

/-- Of one repeat, the plan names no call twice. -/
theorem benchmarkPlan_nodup (h : runner.config.repeats = 1) :
    ((benchmarkPlan runner suite.tasks).map StrategyCall.key).Nodup := by
  unfold benchmarkPlan
  rw [h, List.map_flatMap, List.nodup_flatMap]
  have hone : ∀ task, (List.range 1).flatMap (repeatPlan runner task) = repeatPlan runner task 0 :=
    fun task => by simp
  simp only [hone]
  refine ⟨fun task _ => repeatPlan_nodup 0, ?_⟩
  refine (List.pairwise_map.mp suite.uniqueTaskIds).imp ?_
  intro task task' hne key hkey hkey'
  exact hne ((mem_key_repeatPlan hkey).symm.trans (mem_key_repeatPlan hkey'))

theorem mem_pairsOf_repeatPlan (r : Nat) :
    (task.id, 0) ∈ pairsOf (.configuration .cheapBestOfN) (repeatPlan runner task r) := by
  have hpos := runner.config.cheapCandidates_bounds.1
  have hmem : (⟨.configuration .cheapBestOfN, task, 0⟩ : StrategyCall) ∈
      repeatPlan runner task r := by
    refine List.mem_append_left _ (List.mem_flatMap.mpr ⟨.cheapBestOfN, by decide, ?_⟩)
    rw [configurationPlan, if_pos rfl]
    exact List.mem_map.mpr ⟨0, List.mem_range.mpr (by omega), rfl⟩
  exact List.mem_map.mpr ⟨_, List.mem_filter.mpr ⟨hmem, by simp⟩, rfl⟩

/-- Of several repeats of a task, the plan has the first candidate more than once. -/
theorem benchmarkPlan_not_nodup (h : runner.config.repeats ≠ 1) (hne : suite.tasks ≠ []) :
    ¬(pairsOf (.configuration .cheapBestOfN) (benchmarkPlan runner suite.tasks)).Nodup := by
  have hpos := runner.config.repeats_bounds.1
  obtain ⟨n, hn⟩ : ∃ n, runner.config.repeats = n + 2 := ⟨runner.config.repeats - 2, by omega⟩
  obtain ⟨task, tasks, htasks⟩ := List.exists_cons_of_ne_nil hne
  intro hnodup
  rw [benchmarkPlan, htasks, hn, List.flatMap_cons, List.range_succ_eq_map, List.flatMap_cons,
    List.range_succ_eq_map, List.map_cons, List.flatMap_cons, List.append_assoc,
    List.append_assoc, pairsOf_append, pairsOf_append] at hnodup
  have hdisjoint := (List.nodup_append.mp hnodup).2.2
  exact hdisjoint _ (mem_pairsOf_repeatPlan 0) _
    (List.mem_append_left _ (mem_pairsOf_repeatPlan 1)) rfl

/-! ## Runs -/

section

variable {σ ε : Type} {strategies : Strategies σ ε} {I : World σ StrategyCall → Prop}
  {E : BenchmarkError ε → World σ StrategyCall → Prop} {Q : StrategyCall → RunResult → Prop}

/-- What every call preserves holds after a run, where the results carry the names of
their tasks or a `ValueError` is of no account. -/
theorem keeps_runBenchmark (runner : BenchmarkRunner)
    (hcall : ∀ party task i, Keeps I E (Q ⟨party, task, i⟩) (runStrategy strategies party task i))
    (hnamed : (∀ k result, Q k result → result.taskId = k.task.id) ∨
      ∀ message w, I w → E (.valueError message) w) (tasks : List BenchmarkTask) :
    Keeps I E (fun _ => True) (runBenchmark runner strategies tasks) := by
  have hname : ∀ {α : Type} {k : StrategyCall} {result : RunResult} (message : String)
      (x : Benchmarking σ ε α), Q k result → Keeps I E (fun _ => True) x →
        Keeps I E (fun _ => True) (if result.taskId ≠ k.task.id then .raise (.valueError message)
          else x) := by
    intro α k result message x hq hx
    rcases hnamed with hnamed | hvalue
    · rwa [if_neg (not_not.mpr (hnamed k result hq))]
    · split
      · exact .raise (hvalue message)
      · exact hx
  have hcandidate : ∀ task r i, Keeps I E (fun _ => True) (runCandidate strategies task r i) :=
    fun task r i => (hcall _ _ _).bind fun result hq => hname _ _ hq (.pure trivial)
  have hbest : ∀ task r, Keeps I E (fun _ => True) (runBestOfN runner strategies task r) := by
    intro task r
    refine (Keeps.mapM (hcandidate task r) _).bind fun candidates hlength => ?_
    rw [List.length_range] at hlength
    have hpos := runner.config.cheapCandidates_bounds.1
    cases candidates with
    | nil =>
      rw [List.length_nil] at hlength
      omega
    | cons c cs => exact .pure trivial
  have hconfiguration : ∀ task r c,
      Keeps I E (fun _ => True) (runConfiguration runner strategies task r c) := by
    intro task r c
    unfold runConfiguration
    split
    · exact hbest task r
    · exact (hcall _ _ _).bind fun result hq => hname _ _ hq (.pure trivial)
  have hablation : ∀ task r label,
      Keeps I E (fun _ => True) (runAblation strategies task r label) :=
    fun task r label => (hcall _ _ _).bind fun result hq => hname _ _ hq (.pure trivial)
  have hrepeat : ∀ task r, Keeps I E (fun _ => True) (runRepeat runner strategies task r) :=
    fun task r => (Keeps.mapM (hconfiguration task r) _).bind fun _ _ =>
      (Keeps.mapM (hablation task r) _).bind fun _ _ => .pure trivial
  have htask : ∀ task, Keeps I E (fun _ => True)
      ((List.range runner.config.repeats).mapM (runRepeat runner strategies task)) :=
    fun task => (Keeps.mapM (hrepeat task) _).mono fun _ _ => trivial
  exact (Keeps.mapM htask tasks).bind fun _ _ => .pure trivial

end

/-- A result that names its task. -/
def steadyResult (task : BenchmarkTask) : RunResult :=
  { taskId := task.id, configuration := .company, repeatIndex := 0, outcome := .verified,
    verifiedScore := 1 }

/-- A strategy that never raises. -/
def steady : Strategies Unit Unit := fun k _ s => (.ok (steadyResult k.task), s)

/-- Nothing goes wrong in a live run. -/
def steadyParts (_ : List StrategyCall) (k : StrategyCall) : LiveParts Unit :=
  { treeDigest := .ok (), templateIsDir := true, copy := .ok (), rest := .ok (steadyResult k.task) }

/-- The runs of strategies that never raise make all the calls of the plan. -/
theorem made_steady (tasks : List BenchmarkTask) :
    (runBenchmark runner steady tasks ⟨(), []⟩).2.made = benchmarkPlan runner tasks := by
  have hcall : ∀ party task i, Keeps (fun _ => True) (fun _ _ => False)
      (fun result : RunResult => result.taskId = task.id) (runStrategy steady party task i) := by
    intro party task i w _
    constructor
    · intro result hresult
      obtain rfl : steadyResult task = result := Except.ok.inj hresult
      exact ⟨rfl, trivial⟩
    · intro e he
      cases he
  obtain ⟨-, herr⟩ := keeps_runBenchmark runner
    (Q := fun k result => result.taskId = k.task.id) hcall (.inl fun _ _ h => h) tasks ⟨(), []⟩
    trivial
  obtain ⟨done, hmade, -, hall⟩ := follows_runBenchmark runner steady tasks ⟨(), []⟩
  cases hr : (runBenchmark runner steady tasks ⟨(), []⟩).1 with
  | error e => exact (herr e hr).elim
  | ok report => rw [hmade, List.nil_append, hall report hr]

/-- What a live run comes to: an error that changes nothing, a workspace that is taken,
or a run in a workspace that was not there. -/
theorem liveStrategy_cases {ε : Type} (parts : List StrategyCall → StrategyCall → LiveParts ε)
    (k : StrategyCall) (made : List StrategyCall) (existing : List (List String)) :
    (∃ e, (∀ d, e ≠ .fileExists d) ∧ liveStrategy parts k made existing = (.error e, existing)) ∨
    (k.destination ∈ existing ∧
      liveStrategy parts k made existing = (.error (.fileExists k.destination), existing)) ∨
    (k.destination ∉ existing ∧ liveStrategy parts k made existing =
      ((parts made k).rest.mapError .other, k.destination :: existing)) := by
  unfold liveStrategy snapshotWorkspace
  cases (parts made k).treeDigest with
  | error e => exact .inl ⟨.other e, by simp, rfl⟩
  | ok _ =>
    cases (parts made k).templateIsDir with
    | false => exact .inl ⟨.fileNotFound k.task.workspace, by simp, rfl⟩
    | true =>
      by_cases hmem : k.destination ∈ existing
      · exact .inr (.inl ⟨hmem, by simp [hmem]⟩)
      · cases (parts made k).copy with
        | error e => exact .inl ⟨.other e, by simp, by simp [hmem]⟩
        | ok _ => exact .inr (.inr ⟨hmem, by simp [hmem]⟩)

/-- Where a workspace is taken, one of the calls before was the same. -/
theorem taken_of_fileExists {ε : Type} {parts : List StrategyCall → StrategyCall → LiveParts ε}
    {tasks : List BenchmarkTask} {d : List String}
    (h : (runBenchmark runner (liveStrategy parts) tasks ⟨[], []⟩).1 =
      .error (.raised (.fileExists d))) :
    ¬((runBenchmark runner (liveStrategy parts) tasks ⟨[], []⟩).2.made.map
      StrategyCall.key).Nodup := by
  -- every workspace there is belongs to a call
  have hcall : ∀ party task i, Keeps
      (fun w => ∀ d ∈ w.state, ∃ k ∈ w.made, k.destination = d)
      (fun e w => ∀ d, e = .raised (.fileExists d) → ¬(w.made.map StrategyCall.key).Nodup)
      (fun _ => True) (runStrategy (liveStrategy parts) party task i) := by
    intro party task i w hw
    unfold runStrategy Program.call
    dsimp only
    rcases liveStrategy_cases parts ⟨party, task, i⟩ w.made w.state with
      ⟨e, hne, hrun⟩ | ⟨hmem, hrun⟩ | ⟨hmem, hrun⟩
    · rw [hrun]
      constructor
      · intro result hresult
        cases hresult
      · intro e' he' d hd
        obtain rfl : BenchmarkError.raised e = e' := Except.error.inj he'
        exact absurd (BenchmarkError.raised.inj hd) (hne d)
    · rw [hrun]
      constructor
      · intro result hresult
        cases hresult
      · intro e' _ d _ hnodup
        obtain ⟨k, hk, hdest⟩ := hw _ hmem
        rw [List.map_append, List.nodup_append] at hnodup
        exact hnodup.2.2 _ (List.mem_map_of_mem hk) _ (List.mem_singleton.mpr rfl)
          (destination_inj hdest)
    · rw [hrun]
      constructor
      · intro result _
        refine ⟨trivial, ?_⟩
        intro d hd
        rcases List.mem_cons.mp hd with rfl | hd
        · exact ⟨_, List.mem_append_right _ (List.mem_singleton.mpr rfl), rfl⟩
        · obtain ⟨k, hk, hdest⟩ := hw d hd
          exact ⟨k, List.mem_append_left _ hk, hdest⟩
      · intro e' he' d hd
        cases hrest : (parts w.made ⟨party, task, i⟩).rest with
        | error e =>
          rw [hrest] at he'
          rw [hd] at he'
          cases he'
        | ok result =>
          rw [hrest] at he'
          cases he'
  obtain ⟨-, herr⟩ := keeps_runBenchmark runner (Q := fun _ _ => True) hcall
    (.inr fun message w _ d hd => by cases hd) tasks ⟨[], []⟩ (fun d hd => by cases hd)
  exact herr _ h d rfl

theorem liveStrategy_steady (k : StrategyCall) (made : List StrategyCall)
    (existing : List (List String)) :
    liveStrategy steadyParts k made existing =
      if k.destination ∈ existing then (.error (.fileExists k.destination), existing)
      else (.ok (steadyResult k.task), k.destination :: existing) := by
  unfold liveStrategy snapshotWorkspace steadyParts
  by_cases hmem : k.destination ∈ existing
  · simp [hmem]
  · simp [hmem, Except.mapError]

/-- Where nothing else goes wrong and the plan has a call twice, a workspace is taken. -/
theorem fileExists_of_steady {tasks : List BenchmarkTask}
    (h : ¬((benchmarkPlan runner tasks).map StrategyCall.destination).Nodup) :
    ∃ d, (runBenchmark runner (liveStrategy steadyParts) tasks ⟨[], []⟩).1 =
      .error (.raised (.fileExists d)) := by
  have hcall : ∀ party task i, Keeps
      (fun w => w.state = (w.made.map StrategyCall.destination).reverse ∧ w.state.Nodup)
      (fun e _ => ∃ d, e = .raised (.fileExists d))
      (fun result : RunResult => result.taskId = task.id)
      (runStrategy (liveStrategy steadyParts) party task i) := by
    intro party task i w ⟨hstate, hnodup⟩
    unfold runStrategy Program.call
    dsimp only
    rw [liveStrategy_steady]
    split
    · constructor
      · intro result hresult
        cases hresult
      · intro e' he'
        obtain rfl := Except.error.inj he'
        exact ⟨_, rfl⟩
    · rename_i hmem
      constructor
      · intro result hresult
        obtain rfl : steadyResult task = result := Except.ok.inj hresult
        refine ⟨rfl, ?_, ?_⟩
        · rw [hstate, List.map_append, List.reverse_append]
          rfl
        · exact List.nodup_cons.mpr ⟨hmem, hnodup⟩
      · intro e' he'
        cases he'
  obtain ⟨hok, herr⟩ := keeps_runBenchmark runner
    (Q := fun k result => result.taskId = k.task.id) hcall (.inl fun _ _ h => h) tasks ⟨[], []⟩
    ⟨rfl, List.nodup_nil⟩
  obtain ⟨done, hmade, -, hall⟩ := follows_runBenchmark runner
    (liveStrategy steadyParts) tasks ⟨[], []⟩
  cases hr : (runBenchmark runner (liveStrategy steadyParts) tasks ⟨[], []⟩).1 with
  | error e =>
    obtain ⟨d, rfl⟩ := herr e hr
    exact ⟨d, rfl⟩
  | ok report =>
    obtain ⟨-, hstate, hnodup⟩ := hok report hr
    rw [hstate, List.nodup_reverse, hmade, hall report hr, List.nil_append] at hnodup
    exact absurd hnodup h

/-- **Distinct calls.** -/
theorem distinct_calls_iff (runner : BenchmarkRunner) (suite : BenchmarkSuite) :
    (DistinctCalls runner suite ↔ runner.config.repeats = 1 ∨ suite.tasks = []) ∧
    (FreshSnapshots runner suite ↔ runner.config.repeats = 1 ∨ suite.tasks = []) := by
  have hplan : runner.config.repeats = 1 ∨ suite.tasks = [] →
      ((benchmarkPlan runner suite.tasks).map StrategyCall.key).Nodup := by
    intro h
    rcases h with h | h
    · exact benchmarkPlan_nodup h
    · rw [h]
      exact List.nodup_nil
  have hmade : ∀ {σ ε : Type} (strategies : Strategies σ ε) (s : σ),
      (runBenchmark runner strategies suite.tasks ⟨s, []⟩).2.made <+:
        benchmarkPlan runner suite.tasks := by
    intro σ ε strategies s
    obtain ⟨done, hmade, hpre, -⟩ := follows_runBenchmark runner strategies suite.tasks ⟨s, []⟩
    rwa [hmade]
  constructor
  · constructor
    · intro h
      by_contra hcond
      rw [not_or] at hcond
      refine benchmarkPlan_not_nodup hcond.1 hcond.2 ?_
      rw [← made_steady suite.tasks]
      exact h Unit Unit steady () (.configuration .cheapBestOfN)
    · intro h σ ε strategies s who
      exact pairsOf_nodup ((hplan h).sublist ((hmade strategies s).sublist.map _))
  · constructor
    · intro h
      by_contra hcond
      rw [not_or] at hcond
      have hdup : ¬((benchmarkPlan runner suite.tasks).map StrategyCall.destination).Nodup := by
        intro hnodup
        refine benchmarkPlan_not_nodup hcond.1 hcond.2 (pairsOf_nodup ?_)
        exact hnodup.of_map.map_on fun k hk k' hk' heq =>
          List.inj_on_of_nodup_map hnodup hk hk' (destination_eq heq)
      obtain ⟨d, hd⟩ := fileExists_of_steady hdup
      exact h Unit steadyParts d hd
    · intro h ε parts d hd
      exact taken_of_fileExists hd ((hplan h).sublist ((hmade _ _).sublist.map _))

/-- One candidate in each of two repeats of one task. -/
def twoRepeats : BenchmarkRunner :=
  { config := { repeats := 2, cheapCandidates := 1 }, ablations := [],
    ablations_nodup := List.nodup_nil }

def oneTask : BenchmarkSuite :=
  { tasks := [{ id := "fix-parser", workspace := "templates/fix-parser" }],
    uniqueTaskIds := by decide }

/-- The candidate of the second repeat is run on the pair of the first. -/
theorem second_repeat_repeats : ¬DistinctCalls twoRepeats oneTask := by
  intro h
  have hnodup := h Unit Unit steady () (.configuration .cheapBestOfN)
  have hpairs : pairsOf (.configuration .cheapBestOfN)
      (runBenchmark twoRepeats steady oneTask.tasks ⟨(), []⟩).2.made =
        [("fix-parser", 0), ("fix-parser", 0)] := by decide
  rw [hpairs] at hnodup
  revert hnodup
  decide

end Northstack
