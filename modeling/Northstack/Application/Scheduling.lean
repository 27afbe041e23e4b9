import Northstack.Domain.Graph

/-!
# Ready-cell scheduling

Mirrors application/scheduling.py: parallel read-only cells, at most one
mutating one. The two id sets are lists without repetition.

**Results.**
* `readyCells_sublist`: the ready cells are cells of the graph, in its order.
* `ready_not_done`: no ready cell is completed or failed already.
* `ready_one_mutating`: at most one of them is mutating.
* `ready_progress`: if dependencies lie in earlier waves, some cell is ready
  until all are done.
* `afterRounds_covers`: then as many rounds as cells complete them all.
-/
namespace Northstack

/-- The loop of `ready_cells` (scheduling.py:33-44); `hasMutating` says a
mutating cell is already among the ready ones. -/
def readyFrom (tracked : Bool) (done failed : List String) :
    Bool → List GraphCell → List GraphCell
  | _, [] => []
  | hasMutating, cell :: cells =>
    if cell.id ∈ done ∨ cell.id ∈ failed then readyFrom tracked done failed hasMutating cells
    else if tracked = false ∧ cell.status ≠ .pending then
      readyFrom tracked done failed hasMutating cells
    else if ¬ ∀ dep ∈ cell.dependencies, dep ∈ done then
      readyFrom tracked done failed hasMutating cells
    else if cell.mode = .mutating then
      if hasMutating then readyFrom tracked done failed hasMutating cells
      else cell :: readyFrom tracked done failed true cells
    else cell :: readyFrom tracked done failed hasMutating cells

/-- `Scheduler.ready_cells` (scheduling.py:12-45) -/
def readyCells (graph : GraphVersion) (completedIds failedIds : Option (List String)) :
    List GraphCell :=
  let tracked := completedIds.isSome || failedIds.isSome
  let done :=
    if tracked then completedIds.getD []
    else (graph.cells.filter fun c => c.status = .completed).map (·.id)
  readyFrom tracked done (failedIds.getD []) false graph.cells

theorem readyFrom_sublist (tracked : Bool) (done failed : List String) (cells : List GraphCell)
    (m : Bool) : List.Sublist (readyFrom tracked done failed m cells) cells := by
  induction cells generalizing m with
  | nil => exact .slnil
  | cons c cells ih =>
    unfold readyFrom
    split
    · exact (ih m).cons _
    · split
      · exact (ih m).cons _
      · split
        · exact (ih m).cons _
        · split
          · split
            · exact (ih m).cons _
            · exact (ih true).cons_cons _
          · exact (ih m).cons_cons _

theorem readyFrom_not_done (tracked : Bool) (done failed : List String) (cells : List GraphCell)
    (m : Bool) :
    ∀ c ∈ readyFrom tracked done failed m cells, c.id ∉ done ∧ c.id ∉ failed := by
  induction cells generalizing m with
  | nil => intro c hc; cases hc
  | cons c cells ih =>
    intro d hd
    unfold readyFrom at hd
    split at hd
    · exact ih m d hd
    · rename_i hfresh
      split at hd
      · exact ih m d hd
      · split at hd
        · exact ih m d hd
        · split at hd
          · split at hd
            · exact ih m d hd
            · rcases List.mem_cons.mp hd with rfl | hd
              · exact not_or.mp hfresh
              · exact ih true d hd
          · rcases List.mem_cons.mp hd with rfl | hd
            · exact not_or.mp hfresh
            · exact ih m d hd

/-- The ready cells are cells of the graph, in its order. -/
theorem readyCells_sublist (graph : GraphVersion) (completedIds failedIds : Option (List String)) :
    List.Sublist (readyCells graph completedIds failedIds) graph.cells :=
  readyFrom_sublist _ _ _ _ _

/-- No ready cell has been completed or has failed. -/
theorem ready_not_done (graph : GraphVersion) (done failed : List String) :
    ∀ c ∈ readyCells graph (some done) (some failed), c.id ∉ done ∧ c.id ∉ failed :=
  readyFrom_not_done _ _ _ _ _

/-- The dependencies of a ready cell are done. -/
theorem readyFrom_deps (tracked : Bool) (done failed : List String) (cells : List GraphCell)
    (m : Bool) :
    ∀ c ∈ readyFrom tracked done failed m cells, ∀ d ∈ c.dependencies, d ∈ done := by
  induction cells generalizing m with
  | nil => intro c hc; cases hc
  | cons c cells ih =>
    intro d hd
    unfold readyFrom at hd
    split at hd
    · exact ih m d hd
    · split at hd
      · exact ih m d hd
      · split at hd
        · exact ih m d hd
        · rename_i hdeps
          split at hd
          · split at hd
            · exact ih m d hd
            · rcases List.mem_cons.mp hd with rfl | hd
              · exact not_not.mp hdeps
              · exact ih true d hd
          · rcases List.mem_cons.mp hd with rfl | hd
            · exact not_not.mp hdeps
            · exact ih m d hd

theorem ready_deps (graph : GraphVersion) (done failed : List String) :
    ∀ c ∈ readyCells graph (some done) (some failed), ∀ d ∈ c.dependencies, d ∈ done :=
  readyFrom_deps _ _ _ _ _

/-- Behind a ready mutating cell there is no other. -/
theorem readyFrom_one_mutating (tracked : Bool) (done failed : List String)
    (cells : List GraphCell) (m : Bool) :
    (readyFrom tracked done failed m cells).countP (·.mode = .mutating) ≤ if m then 0 else 1 := by
  induction cells generalizing m with
  | nil => simp [readyFrom]
  | cons c cells ih =>
    unfold readyFrom
    split
    · exact ih m
    · split
      · exact ih m
      · split
        · exact ih m
        · split
          · rename_i hmode
            cases m with
            | true => exact ih true
            | false =>
              rw [if_neg Bool.false_ne_true, List.countP_cons_of_pos (by simpa using hmode)]
              have hrest := ih true
              rw [if_pos rfl] at hrest
              rw [if_neg Bool.false_ne_true]
              omega
          · rename_i hmode
            rw [List.countP_cons_of_neg (by simpa using hmode)]
            exact ih m

/-- At most one ready cell is mutating. -/
theorem ready_one_mutating (graph : GraphVersion) (done failed : List String) :
    (readyCells graph (some done) (some failed)).countP (·.mode = .mutating) ≤ 1 :=
  readyFrom_one_mutating _ _ _ _ false

theorem eq_of_countP_le_one {α : Type} {p : α → Bool} {l : List α} (h : l.countP p ≤ 1) {a b : α}
    (ha : a ∈ l) (hb : b ∈ l) (hpa : p a = true) (hpb : p b = true) : a = b := by
  rw [List.countP_eq_length_filter] at h
  have ha := List.mem_filter.mpr ⟨ha, hpa⟩
  have hb := List.mem_filter.mpr ⟨hb, hpb⟩
  match hl : l.filter p, h with
  | [], _ => simp [hl] at ha
  | [x], _ =>
    rw [hl] at ha hb
    rw [List.mem_singleton.mp ha, List.mem_singleton.mp hb]

/-- In a graph with distinct ids, ready ids of mutating cells are of one cell. -/
theorem ready_mutating_unique {graph : GraphVersion} (hD : graph.ids.Nodup)
    {done failed : List String} {c d : GraphCell} (hc : c ∈ graph.cells) (hd : d ∈ graph.cells)
    (hcm : c.mode = .mutating) (hdm : d.mode = .mutating)
    (hcr : c.id ∈ (readyCells graph (some done) (some failed)).map (·.id))
    (hdr : d.id ∈ (readyCells graph (some done) (some failed)).map (·.id)) : c = d := by
  have hmem : ∀ {x : GraphCell}, x ∈ graph.cells →
      x.id ∈ (readyCells graph (some done) (some failed)).map (·.id) →
      x ∈ readyCells graph (some done) (some failed) := by
    intro x hx hxr
    obtain ⟨y, hy, he⟩ := List.mem_map.mp hxr
    rw [← List.inj_on_of_nodup_map hD ((readyCells_sublist _ _ _).subset hy) hx he]
    exact hy
  exact eq_of_countP_le_one (ready_one_mutating graph done failed) (hmem hc hcr) (hmem hd hdr)
    (by simpa using hcm) (by simpa using hdm)

/-- Only what is done and failed matters, not its order. -/
theorem readyFrom_congr {tracked : Bool} {done done' failed : List String}
    (h : ∀ id, id ∈ done ↔ id ∈ done') (cells : List GraphCell) (m : Bool) :
    readyFrom tracked done failed m cells = readyFrom tracked done' failed m cells := by
  induction cells generalizing m with
  | nil => rfl
  | cons c cells ih =>
    unfold readyFrom
    simp only [h, ih]

theorem ready_congr {graph : GraphVersion} {done done' failed : List String}
    (h : ∀ id, id ∈ done ↔ id ∈ done') :
    readyCells graph (some done) (some failed) = readyCells graph (some done') (some failed) :=
  readyFrom_congr h _ _

/-- A cell whose dependencies are done is not passed over for nothing: some
cell is ready. -/
theorem readyFrom_ne_nil {done failed : List String} {c : GraphCell} (hnew : c.id ∉ done)
    (hfailed : c.id ∉ failed) (hdeps : ∀ d ∈ c.dependencies, d ∈ done) (cells : List GraphCell)
    (hc : c ∈ cells) : readyFrom true done failed false cells ≠ [] := by
  induction cells with
  | nil => cases hc
  | cons x cells ih =>
    have hrest : x ≠ c → readyFrom true done failed false cells ≠ [] :=
      fun hne => ih ((List.mem_cons.mp hc).resolve_left (Ne.symm hne))
    unfold readyFrom
    split
    · rename_i hdone
      refine hrest fun he => ?_
      rw [he] at hdone
      exact hdone.elim hnew hfailed
    · split
      · rename_i htracked
        cases htracked.1
      · split
        · rename_i hnot
          exact hrest fun he => hnot (he ▸ hdeps)
        · split
          · exact List.cons_ne_nil _ _
          · exact List.cons_ne_nil _ _

/-- Every dependency is a cell of an earlier wave. -/
def GraphVersion.Layered (g : GraphVersion) : Prop :=
  ∀ c ∈ g.cells, ∀ d ∈ c.dependencies, ∃ e ∈ g.cells, e.id = d ∧ e.wave < c.wave

/-- **Progress.** In a layered graph some cell is ready as long as one is
neither done nor failed, and nothing has failed. -/
theorem ready_progress {graph : GraphVersion} (hl : graph.Layered) {done : List String}
    (hopen : ∃ c ∈ graph.cells, c.id ∉ done) : readyCells graph (some done) (some []) ≠ [] := by
  -- an incomplete cell of the least wave has its dependencies done
  let P : Nat → Prop := fun n => ∃ c ∈ graph.cells, c.id ∉ done ∧ c.wave = n
  obtain ⟨c₀, hc₀, hnew₀⟩ := hopen
  have hex : ∃ n, P n := ⟨c₀.wave, c₀, hc₀, hnew₀, rfl⟩
  classical
  obtain ⟨c, hc, hnew, hwave⟩ := Nat.find_spec hex
  refine readyFrom_ne_nil hnew List.not_mem_nil (fun d hd => ?_) graph.cells hc
  obtain ⟨e, he, rfl, hlt⟩ := hl c hc d hd
  by_contra hnd
  exact Nat.find_min hex (hwave ▸ hlt) ⟨e, he, hnd, rfl⟩

/-! ## Rounds -/

/-- What is done after some rounds in which every ready cell completes. -/
def afterRounds (graph : GraphVersion) : Nat → List String → List String
  | 0, done => done
  | n + 1, done =>
    afterRounds graph n (done ∪ (readyCells graph (some done) (some [])).map (·.id))

theorem afterRounds_congr {graph : GraphVersion} (n : Nat) :
    ∀ {done done' : List String}, (∀ id, id ∈ done ↔ id ∈ done') →
    ∀ id, id ∈ afterRounds graph n done ↔ id ∈ afterRounds graph n done' := by
  induction n with
  | zero => exact fun h => h
  | succ n ih =>
    intro done done' h
    refine ih fun id => ?_
    rw [ready_congr h, List.mem_union_iff, List.mem_union_iff, h]

theorem subset_afterRounds {graph : GraphVersion} (n : Nat) :
    ∀ {done : List String}, done ⊆ afterRounds graph n done := by
  induction n with
  | zero => exact fun {_} => List.Subset.refl _
  | succ n ih => exact fun {_} _ hid => ih (List.mem_union_left hid _)

/-- Without a ready cell nothing more is done. -/
theorem afterRounds_stuck {graph : GraphVersion} (n : Nat) {done : List String}
    (h : readyCells graph (some done) (some []) = []) :
    ∀ id, id ∈ afterRounds graph n done ↔ id ∈ done := by
  induction n with
  | zero => exact fun _ => Iff.rfl
  | succ n ih =>
    intro id
    rw [afterRounds, h]
    refine (afterRounds_congr n fun id => ?_) id |>.trans (ih id)
    simp

/-- The cells that are not done yet. -/
def openCells (graph : GraphVersion) (done : List String) : List GraphCell :=
  graph.cells.filter (·.id ∉ done)

theorem mem_openCells {graph : GraphVersion} {done : List String} {c : GraphCell} :
    c ∈ openCells graph done ↔ c ∈ graph.cells ∧ c.id ∉ done := by
  simp [openCells]

/-- Where one more cell is done, fewer are open. -/
theorem openCells_lt {graph : GraphVersion} {done done' : List String} (hs : done ⊆ done')
    {c : GraphCell} (hc : c ∈ openCells graph done) (hd : c.id ∈ done') :
    (openCells graph done').length < (openCells graph done).length := by
  have he : openCells graph done' = (openCells graph done).filter (·.id ∉ done') := by
    unfold openCells
    rw [List.filter_filter]
    refine List.filter_congr fun x _ => ?_
    by_cases hx : x.id ∈ done'
    · simp [hx]
    · have hxd : x.id ∉ done := fun h => hx (hs h)
      simp [hx, hxd]
  rw [he]
  exact List.length_filter_lt_length_iff_exists.mpr ⟨c, hc, by simpa using hd⟩

/-- **Enough rounds.** In a layered graph as many rounds as there are open cells
complete every cell. -/
theorem afterRounds_covers {graph : GraphVersion} (hl : graph.Layered) (n : Nat) :
    ∀ {done : List String}, (openCells graph done).length ≤ n →
    graph.ids ⊆ afterRounds graph n done := by
  have hnone : ∀ {done : List String}, openCells graph done = [] → graph.ids ⊆ done := by
    intro done hno id hid
    obtain ⟨c, hc, rfl⟩ := List.mem_map.mp hid
    by_contra hnd
    exact List.ne_nil_of_mem (mem_openCells.mpr ⟨hc, hnd⟩) hno
  induction n with
  | zero => exact fun {_} hn => hnone (List.length_eq_zero_iff.mp (Nat.le_zero.mp hn))
  | succ n ih =>
    intro done hn
    by_cases hopen : openCells graph done = []
    · exact fun id hid => subset_afterRounds _ (hnone hopen hid)
    · obtain ⟨c, hc⟩ := List.exists_mem_of_ne_nil _ hopen
      obtain ⟨x, hx⟩ := List.exists_mem_of_ne_nil _
        (ready_progress hl ⟨c, mem_openCells.mp hc⟩)
      refine ih (Nat.le_of_lt_succ (lt_of_lt_of_le (openCells_lt (c := x) ?_ ?_ ?_) hn))
      · exact fun id hid => List.mem_union_left hid _
      · exact mem_openCells.mpr ⟨(readyCells_sublist _ _ _).subset hx,
          (ready_not_done graph done [] x hx).1⟩
      · exact List.mem_union_right _ (List.mem_map_of_mem hx)

end Northstack
