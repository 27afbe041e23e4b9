import Northstack.Application.Links
import Northstack.Core.Latest

/-!
# The evidence a resume starts from

A cell that completes writes its artifact's digest under each of its criteria
(cell_runner.py:452-453): of the cells of a criterion the last to complete counts.
A resume writes the digests again, in the order of the graph's list
(orchestrator.py:513-517): there the last one listed counts.

**Results.**
* `Reach.evidence`: what the map of a run holds, if cells of one criterion
  complete in the order of the list.
* `Lineage.functional`: a log has one artifact for a cell.
* `evidence_resumed`: a resume starts from the map its source held, if cells of
  one criterion completed in the order of the list and the source stopped with
  the completion of every cell that wrote its evidence recorded.
-/
namespace Northstack

open Coop Trace Latest

/-! ## Writing -/

theorem lookup_pair_cons (k j : Int) (w : String) (d : List (Int × String)) :
    ((j, w) :: d).lookup k = if k = j then some w else d.lookup k := by
  rw [List.lookup_cons]
  by_cases h : k = j
  · rw [if_pos h, beq_iff_eq.mpr h]
  · rw [if_neg h, beq_false_of_ne h]

theorem lookup_dictSet (k i : Int) (v : String) (d : List (Int × String)) :
    (dictSet i v d).lookup k = if k = i then some v else d.lookup k := by
  induction d with
  | nil => exact lookup_pair_cons k i v []
  | cons e d ih =>
    obtain ⟨j, w⟩ := e
    unfold dictSet
    by_cases hj : j = i
    · rw [if_pos hj, lookup_pair_cons, lookup_pair_cons, hj]
      by_cases hk : k = i
      · rw [if_pos hk, if_pos hk]
      · rw [if_neg hk, if_neg hk, if_neg hk]
    · rw [if_neg hj, lookup_pair_cons, lookup_pair_cons, ih]
      by_cases hk : k = j
      · rw [if_pos hk, if_pos hk, if_neg (hk ▸ hj)]
      · rw [if_neg hk, if_neg hk]

theorem mem_of_lookup {γ : Type} {l : List (String × γ)} {id : String} {x : γ}
    (h : l.reverse.lookup id = some x) : (id, x) ∈ l := by
  obtain ⟨l₁, l₂, hsplit, -⟩ := List.lookup_eq_some_iff.mp h
  exact List.mem_reverse.mp (hsplit ▸ by simp)

/-- The digests behind a cell's writes. -/
def writeAll (indices : List Int) (digest : String) (d : List (Int × String)) :
    List (Int × String) := indices.foldl (fun d ci => dictSet ci digest d) d

theorem lookup_writeAll (k : Int) (indices : List Int) (v : String) (d : List (Int × String)) :
    (writeAll indices v d).lookup k = if k ∈ indices then some v else d.lookup k := by
  unfold writeAll
  induction indices generalizing d with
  | nil => rfl
  | cons i indices ih =>
    rw [List.foldl_cons, ih, lookup_dictSet]
    by_cases hi : k ∈ indices
    · rw [if_pos hi, if_pos (List.mem_cons_of_mem _ hi)]
    · rw [if_neg hi]
      by_cases hk : k = i
      · rw [if_pos hk, if_pos (hk ▸ List.mem_cons_self)]
      · rw [if_neg hk, if_neg fun hm => (List.mem_cons.mp hm).elim hk hi]

def CellLinks.covers (k : Int) (c : CellLinks) : Bool := k ∈ c.criteria

/-- The cells of a criterion, in the order of the list. -/
def Links.covering (l : Links) (k : Int) : List CellLinks := l.cells.filter (·.covers k)

/-- The digest a list of completions has for a cell. -/
def digestIn (done : List (String × ArtifactRef)) (id : String) : Option String :=
  (done.reverse.lookup id).map (·.digest)

/-- The map a resume starts from has the digest of the last cell of a criterion
that is done. -/
theorem lookup_resumedEvidence {graph : GraphVersion} {completed : List String}
    {done : List (String × ArtifactRef)} (h : ∀ x ∈ done, x.1 ∈ completed) (k : Int) :
    (Company.resumedEvidence graph.cells completed done).lookup k =
      latest (fun c => digestIn done c.id) (graph.links.covering k) := by
  unfold Company.resumedEvidence GraphVersion.links Links.covering
  induction graph.cells using List.reverseRecOn with
  | nil => rfl
  | append_singleton cells c ih =>
    rw [List.foldl_append, List.foldl_cons, List.foldl_nil, List.map_append, List.filter_append,
      latest_append, ← ih]
    generalize List.foldl _ [] cells = d
    have hcover : c.links.covers k = decide (k ∈ c.acceptanceCriterionIndices) := rfl
    cases hl : done.reverse.lookup c.id with
    | none =>
      have hnone : digestIn done c.links.id = none := by
        unfold digestIn
        rw [GraphCell.links_id, hl, Option.map_none]
      rw [latest_eq_none]
      · rfl
      · intro e he
        rw [List.mem_singleton.mp (List.mem_of_mem_filter he)]
        exact hnone
    | some ref =>
      have hsome : digestIn done c.links.id = some ref.digest := by
        unfold digestIn
        rw [GraphCell.links_id, hl, Option.map_some]
      have hmem : c.id ∈ completed := h (c.id, ref) (mem_of_lookup hl)
      dsimp only
      rw [if_pos hmem]
      show (writeAll _ _ _).lookup k = _
      rw [lookup_writeAll, List.map_singleton]
      by_cases hk : k ∈ c.acceptanceCriterionIndices
      · rw [if_pos hk, List.filter_cons_of_pos (hcover.trans (decide_eq_true hk)), latest_cons,
          hsome]
        rfl
      · have hneg : ¬ c.links.covers k = true := fun hc => hk (of_decide_eq_true (hcover ▸ hc))
        rw [if_neg hk, List.filter_cons_of_neg hneg]
        rfl

/-! ## What a run writes -/

/-- The cell of a write, and the digest it wrote. -/
def Obs.write? : Obs → Option (String × String)
  | .finished id _ digest => some (id, digest)
  | _ => none

/-- The digest a cell has written. -/
def writtenIn (h : List Obs) (id : String) : Option String :=
  (h.filterMap Obs.write?).reverse.lookup id

/-- A cell's evidence: what it has written, or its artifact in the source. -/
def evidenceIn (source : List EventPayload) (h : List Obs) (id : String) : Option String :=
  (writtenIn h id).or (digestIn (Company.sourceCompleted source) id)

/-- What is observed is no write, or no cell listed behind the writer that shares
one of its criteria has evidence yet. -/
def Ahead (l : Links) (source : List EventPayload) (h : List Obs) (o : Obs) : Prop :=
  ∀ w ∈ o.write?, ∀ t ∈ l.cells.tails, ∀ c ∈ t.head?, c.id = w.1 →
    ∀ d ∈ t.tail, ∀ k ∈ c.criteria, k ∈ d.criteria → evidenceIn source h d.id = none

instance (l : Links) (source : List EventPayload) (h : List Obs) (o : Obs) :
    Decidable (Ahead l source h o) :=
  inferInstanceAs (Decidable (∀ _ ∈ _, _))

/-- The cells of one criterion write their evidence in the order of the list. -/
def InSequence (l : Links) (source : List EventPayload) (h : List Obs) : Prop :=
  Legal (Ahead l source) h

instance (l : Links) (source : List EventPayload) (h : List Obs) :
    Decidable (InSequence l source h) :=
  inferInstanceAs (Decidable (Legal _ _))

section Writes

variable {l : Links} {source : List EventPayload} {h : List Obs} {o : Obs} {id i digest : String}
  {indices : List Int}

theorem InSequence.of_snoc (ho : InSequence l source (h ++ [o])) : InSequence l source h :=
  Legal.of_prefix ho ⟨[o], rfl⟩

theorem evidenceIn_snoc (ho : o.write? = none) :
    evidenceIn source (h ++ [o]) id = evidenceIn source h id := by
  unfold evidenceIn writtenIn
  rw [List.filterMap_append, List.filterMap_cons_none ho, List.filterMap_nil, List.append_nil]

theorem evidenceIn_finished : evidenceIn source (h ++ [.finished i indices digest]) id =
    if id = i then some digest else evidenceIn source h id := by
  have hwrite : (Obs.finished i indices digest).write? = some (i, digest) := rfl
  unfold evidenceIn writtenIn
  rw [List.filterMap_append, List.filterMap_cons_some hwrite, List.filterMap_nil,
    List.reverse_append, List.reverse_singleton, List.singleton_append, List.lookup_cons]
  by_cases hid : id = i
  · rw [if_pos hid, beq_iff_eq.mpr hid]
    rfl
  · rw [if_neg hid, beq_false_of_ne hid]

theorem mem_of_writtenIn (hw : writtenIn h id = some digest) :
    ∃ indices, .finished id indices digest ∈ h := by
  obtain ⟨o, ho, hwrite⟩ := List.mem_filterMap.mp (mem_of_lookup hw)
  cases o with
  | finished i indices d =>
    cases hwrite
    exact ⟨indices, ho⟩
  | _ => cases hwrite

theorem writtenIn_of_mem (hm : .finished id indices digest ∈ h) : (writtenIn h id).isSome = true := by
  have hmem : (id, digest) ∈ (h.filterMap Obs.write?).reverse :=
    List.mem_reverse.mpr (List.mem_filterMap.mpr ⟨_, hm, rfl⟩)
  exact List.lookup_isSome_iff.mpr ⟨_, hmem, beq_self_eq_true id⟩

end Writes

/-- A step of a cell writes its own evidence, or none. -/
theorem CellStep.evidence {T : Terms} {s t : St} (h : CellStep T s t) :
    t.evidenceDigests = s.evidenceDigests ∧
        (t.history = s.history ∨ ∃ o, t.history = s.history ++ [o] ∧ o.write? = none) ∨
      ∃ digest, t.history = s.history ++
          [.finished T.id T.cell.acceptanceCriterionIndices digest] ∧
        t.evidenceDigests = writeAll T.cell.acceptanceCriterionIndices digest s.evidenceDigests := by
  cases h with
  | finish names digest => exact .inr ⟨digest, rfl, rfl⟩
  | execute | checkpoint | clear => exact .inl ⟨rfl, .inl rfl⟩
  | _ => exact .inl ⟨rfl, .inr ⟨_, rfl, rfl⟩⟩

section

variable {r : Setting} {ph : Phase} {s : St}

/-- The map has each criterion's evidence, that of the cell listed last. -/
def Setting.Evident (r : Setting) (s : St) : Prop :=
  ∀ k, s.evidenceDigests.lookup k =
    latest (fun c => evidenceIn r.source s.history c.id) (r.job.graph.links.covering k)

theorem Setting.Evident.keep {t : St} (h : r.Evident s) (hd : t.evidenceDigests = s.evidenceDigests)
    (hh : t.history = s.history ∨ ∃ o, t.history = s.history ++ [o] ∧ o.write? = none) :
    r.Evident t := by
  intro k
  rw [hd, h k]
  refine latest_congr fun c _ => ?_
  rcases hh with hh | ⟨o, hh, ho⟩
  · rw [hh]
  · rw [hh, evidenceIn_snoc ho]

/-- One write in order. -/
theorem Setting.Evident.write {t : St} {c : GraphCell} {digest : String} (h : r.Evident s)
    (hids : r.job.graph.links.ids.Nodup) (hc : c ∈ r.job.graph.cells)
    (hh : t.history = s.history ++ [.finished c.id c.acceptanceCriterionIndices digest])
    (hd : t.evidenceDigests = writeAll c.acceptanceCriterionIndices digest s.evidenceDigests)
    (ho : InSequence r.job.graph.links r.source t.history) : r.Evident t := by
  intro k
  have hmem : c.links ∈ r.job.graph.links.cells := List.mem_map_of_mem hc
  have hother : ∀ d ∈ r.job.graph.links.cells, d ≠ c.links →
      evidenceIn r.source t.history d.id = evidenceIn r.source s.history d.id := by
    intro d hdm hne
    have hid : d.id ≠ c.id := fun he => hne (List.inj_on_of_nodup_map hids hdm hmem he)
    rw [hh, evidenceIn_finished, if_neg hid]
  rw [hd, lookup_writeAll]
  by_cases hk : k ∈ c.acceptanceCriterionIndices
  · obtain ⟨front, back, hsplit⟩ := List.append_of_mem hmem
    have hback : ∀ d ∈ back.filter (·.covers k), evidenceIn r.source t.history d.id = none := by
      intro d hdm
      obtain ⟨hdb, hcov⟩ := List.mem_filter.mp hdm
      have hne : d ≠ c.links := by
        rintro rfl
        unfold Links.ids at hids
        rw [hsplit, List.map_append, List.map_cons] at hids
        exact (List.nodup_cons.mp (List.nodup_append.mp hids).2.1).1 (List.mem_map_of_mem hdb)
      rw [hother d (hsplit ▸ List.mem_append_right _ (List.mem_cons_of_mem _ hdb)) hne]
      rw [hh] at ho
      refine ho.last _ rfl (c.links :: back) ?_ c.links rfl rfl d hdb k hk (of_decide_eq_true hcov)
      exact (List.mem_tails _ _).mpr ⟨front, hsplit.symm⟩
    unfold Links.covering
    rw [if_pos hk, hsplit, List.filter_append,
      List.filter_cons_of_pos (show c.links.covers k = true from decide_eq_true hk)]
    refine (latest_of_last ?_ hback).symm
    show evidenceIn r.source t.history c.id = some digest
    rw [hh, evidenceIn_finished, if_pos rfl]
  · rw [if_neg hk, h k]
    refine latest_congr fun d hdm => (hother d (List.mem_of_mem_filter hdm) ?_).symm
    rintro rfl
    exact hk (of_decide_eq_true (List.mem_filter.mp hdm).2)

/-- **Evidence.** In a run whose cells write in order, each criterion has the
evidence of the cell listed last. -/
theorem Reach.evidence (h : Reach r ph s) (hids : r.job.graph.links.ids.Nodup)
    (h0 : r.Evident (Company.begin r.job { shared := r.shared })) :
    InSequence r.job.graph.links r.source s.history → r.Evident s := by
  refine Reach.invariant (M := fun _ s => InSequence r.job.graph.links r.source s.history →
    r.Evident s) ?start ?move ?cell ?collect h
  case start => exact fun _ => h0
  case move =>
    intro ph s ph' t _ ih hm ho
    have hh : t.history = s.history ∨ ∃ o, t.history = s.history ++ [o] ∧ o.write? = none := by
      rcases hm.history with hh | ⟨o, hh, hobs⟩
      · exact .inl hh
      · refine .inr ⟨o, hh, ?_⟩
        cases o with
        | finished => exact hobs.elim
        | _ => rfl
    refine (ih ?_).keep hm.evidence hh
    rcases hh with hh | ⟨o, hh, -⟩
    · exact hh ▸ ho
    · exact (hh ▸ ho : InSequence _ _ (s.history ++ [o])).of_snoc
  case cell =>
    intro s t c _ ih hm hst ho
    rcases hst.evidence with ⟨hd, hh⟩ | ⟨digest, hh, hd⟩
    · refine (ih ?_).keep hd hh
      rcases hh with hh | ⟨o, hh, -⟩
      · exact hh ▸ ho
      · exact (hh ▸ ho : InSequence _ _ (s.history ++ [o])).of_snoc
    · have hbefore := (hh ▸ ho : InSequence _ _ (s.history ++ [_])).of_snoc
      exact (ih hbefore).write hids hm.mem hh hd ho
  case collect =>
    intro s result c _ ih _ _ ho
    rw [St.collected_history] at ho
    exact (ih ho.of_snoc).keep (s.collected_evidence c.id result)
      (.inr ⟨_, s.collected_history c.id result, rfl⟩)

end

/-! ## What a log has of the completions -/

/-- A log has one artifact for a cell. -/
def Functional (log : List EventPayload) : Prop :=
  ∀ id ref ref' usage usage', .cellCompleted id ref usage ∈ log →
    .cellCompleted id ref' usage' ∈ log → ref = ref'

theorem completion_mem {log : List EventPayload} {id : String} {ref : ArtifactRef} :
    (id, ref) ∈ Company.sourceCompleted log ↔ ∃ usage, .cellCompleted id ref usage ∈ log := by
  unfold Company.sourceCompleted
  refine List.mem_filterMap.trans ⟨fun ⟨p, hp, hc⟩ => ?_, fun ⟨usage, hp⟩ => ⟨_, hp, rfl⟩⟩
  cases p with
  | cellCompleted =>
    cases hc
    exact ⟨_, hp⟩
  | _ => cases hc

theorem digestIn_of_mem {log : List EventPayload} {id : String} {ref : ArtifactRef} {usage : Spend}
    (hf : Functional log) (hm : .cellCompleted id ref usage ∈ log) :
    digestIn (Company.sourceCompleted log) id = some ref.digest := by
  have hmem : (id, ref) ∈ (Company.sourceCompleted log).reverse :=
    List.mem_reverse.mpr (completion_mem.mpr ⟨usage, hm⟩)
  have hsome : ((Company.sourceCompleted log).reverse.lookup id).isSome = true :=
    List.lookup_isSome_iff.mpr ⟨_, hmem, beq_self_eq_true id⟩
  obtain ⟨ref', hl⟩ := Option.isSome_iff_exists.mp hsome
  obtain ⟨usage', hm'⟩ := completion_mem.mp (mem_of_lookup hl)
  unfold digestIn
  rw [hl, hf _ _ _ _ _ hm hm']
  rfl

theorem mem_of_digestIn {log : List EventPayload} {id digest : String}
    (h : digestIn (Company.sourceCompleted log) id = some digest) :
    ∃ ref usage, .cellCompleted id ref usage ∈ log ∧ ref.digest = digest := by
  obtain ⟨ref, hl, rfl⟩ := Option.map_eq_some_iff.mp h
  obtain ⟨usage, hm⟩ := completion_mem.mp (mem_of_lookup hl)
  exact ⟨ref, usage, hm, rfl⟩

/-- A completion in the log of a run: one of its source, or of an open cell that
had written its evidence. -/
inductive Setting.Origin (r : Setting) (h : List Obs) (id : String) (ref : ArtifactRef) : Prop where
  | source {i : String} {ref' : ArtifactRef} {usage : Spend}
    (hp : .cellCompleted i ref' usage ∈ r.source) (hid : redactText i = id)
    (href : ref'.stored = ref)
  | own {c : GraphCell} {indices : List Int} {digest : String} (hc : c ∈ r.job.graph.cells)
    (hi : c.id ∉ r.job.initiallyCompleted) (hw : .finished c.id indices digest ∈ h)
    (hid : redactText c.id = id) (href : redactText digest = ref.digest)

theorem Setting.Origin.mono {r : Setting} {h h' : List Obs} {id : String} {ref : ArtifactRef}
    (ho : r.Origin h id ref) (hs : h ⊆ h') : r.Origin h' id ref := by
  cases ho with
  | source hp hid href => exact .source hp hid href
  | own hc hi hw hid href => exact .own hc hi (hs hw) hid href

section

variable {r : Setting} {ph : Phase} {s : St}

theorem Setting.Emits.origin {p : EventPayload} {h : List Obs} {id : String} {ref : ArtifactRef}
    {usage : Spend} (he : r.Emits p) (hp : p.stored = .cellCompleted id ref usage) :
    r.Origin h id ref := by
  cases he with
  | plain hc =>
    cases p with
    | cellCompleted => cases hc
    | _ => cases hp
  | contract => cases hp
  | graph => cases hp
  | @again q _ hq hr =>
    cases q with
    | graphAccepted | analysisRequested | analysisCompleted | contractProposed
    | contractValidated =>
      cases hr
      cases hp
    | _ => cases hr
  | completion hm hc =>
    cases p with
    | cellCompleted i ref' u =>
      cases hp
      exact .source hm rfl rfl
    | _ => cases hc

/-- **Completions.** Where those in the log of a run come from. -/
theorem Reach.origins (h : Reach r ph s) (hr : r.Checked → r.Distinct) :
    ∀ id ref usage, .cellCompleted id ref usage ∈ s.log → r.Origin s.history id ref := by
  refine Reach.invariant (M := fun _ s => ∀ id ref usage, .cellCompleted id ref usage ∈ s.log →
    r.Origin s.history id ref) ?start ?move ?cell ?collect h
  case start => exact nofun
  case move =>
    intro ph s ph' t _ ih hm id ref usage hrow
    have hsub : s.history ⊆ t.history := hm.grows.history.subset
    rcases hm.log with hl | ⟨p, hl, hp⟩
    · exact (ih id ref usage (hl ▸ hrow)).mono hsub
    · rw [hl] at hrow
      rcases List.mem_append.mp hrow with hrow | hrow
      · exact (ih id ref usage hrow).mono hsub
      · exact hp.emits.origin (List.mem_singleton.mp hrow).symm
  case cell =>
    intro s t c h ih hm hst id ref usage hrow
    have hsub : s.history ⊆ t.history := hst.frame.history.subset
    have hkeep : t.log = s.log → r.Origin t.history id ref :=
      fun hl => (ih id ref usage (hl ▸ hrow)).mono hsub
    cases hst with
    | @row c' p _ ha =>
      rcases List.mem_append.mp hrow with hrow | hrow
      · exact (ih id ref usage hrow).mono hsub
      · have hd := h.distinct_executing hr rfl
        cases p with
        | cellCompleted i ref' u =>
          obtain ⟨hcell, -, hart⟩ := ha
          obtain ⟨indices, hw⟩ := hart ref' rfl
          cases List.mem_singleton.mp hrow
          cases hcell
          exact .own hm.mem (fun hi => (hm.fresh hd).1 (h.kept hi)) (hsub hw) rfl rfl
        | _ => cases List.mem_singleton.mp hrow
    | _ => exact hkeep rfl
  case collect =>
    intro s result c _ ih _ _ id ref usage hrow
    rw [(s.collected_log c.id result).1] at hrow
    exact (ih id ref usage hrow).mono (s.collected_grows c.id result).history.subset

/-- An open cell reports its completion once. -/
theorem figure_unique {h : List Obs} {o o' : Obs} {id : String} {usage usage' : Spend}
    (hl : Legal r.Allows h) (hi : id ∉ r.job.initiallyCompleted) (ho : o ∈ h) (ho' : o' ∈ h)
    (hf : o.figure? = some (id, usage)) (hf' : o'.figure? = some (id, usage')) : o = o' := by
  have honce : ∀ {pre post : List Obs} {a b : Obs} {u v : Spend}, h = pre ++ a :: post →
      a.figure? = some (id, u) → b.figure? = some (id, v) → b ∉ pre := by
    intro pre post a b u v hsplit ha hb hmem
    rw [hsplit] at hl
    exact not_live_of_figure hb hmem (hl.split.figure ha hi).2.1
  obtain ⟨pre, post, hsplit⟩ := List.append_of_mem ho
  rw [hsplit] at ho'
  rcases List.mem_append.mp ho' with hpre | hpost
  · exact absurd hpre (honce hsplit hf hf')
  · rcases List.mem_cons.mp hpost with rfl | hpost
    · rfl
    · obtain ⟨mid, rest, hrest⟩ := List.append_of_mem hpost
      have hsplit' : h = (pre ++ o :: mid) ++ o' :: rest := by
        rw [hsplit, hrest, List.append_assoc, List.cons_append]
      exact absurd (by simp) (honce hsplit' hf' hf)

end

/-! ## Along a chain -/

/-- A run of a chain: of its request, or of a resume of a link's log. -/
inductive LinkOf (co : Company) (request : ProjectRequest) : Company → Launch → Prop where
  | run : LinkOf co request co (.fresh request)
  | resume {source : List EventPayload} (h : Lineage co request source) (next : Company) :
    LinkOf co request next (.resume source)

/-- What the logs of a chain have in common. -/
structure Coherent (l : Links) (log : List EventPayload) : Prop where
  links : ∀ p ∈ log, ∀ k ∈ p.links?, k = l.stored
  fits : ∀ p ∈ log, p.Fits (l.ids.map redactText)
  stable : ∀ id ref usage, .cellCompleted id ref usage ∈ log →
    redactText id = id ∧ redactText ref.digest = ref.digest ∧ ref.stored = ref
  functional : Functional log

/-- What the settings of a chain have in common. -/
structure Setting.Tied (r : Setting) (l : Links) : Prop where
  launched : r.Launched
  backs : r.Backs
  distinct : r.Distinct
  source : Coherent l r.source
  links : r.job.graph.links.stored = l.stored
  inj : ∀ i ∈ r.ids, ∀ j ∈ r.ids, redactText i = redactText j → i = j
  fresh : ∀ request, r.launch = .fresh request → r.job.graph.links = l

theorem Setting.ids_eq (r : Setting) : r.ids = r.job.graph.links.ids :=
  (GraphVersion.links_ids r.job.graph).symm

theorem Links.stored_ids (l : Links) : l.stored.ids = l.ids.map redactText := by
  unfold Links.ids Links.stored
  rw [List.map_map, List.map_map]
  rfl

theorem Coherent.nil (l : Links) : Coherent l [] where
  links := List.forall_mem_nil _
  fits := List.forall_mem_nil _
  stable := nofun
  functional := nofun

section

variable {r : Setting} {ph : Phase} {s : St} {l : Links}

/-- The row of a log as it was appended. -/
theorem Reach.appended (h : Reach r ph s) {id : String} {ref : ArtifactRef} {usage : Spend}
    (hrow : .cellCompleted id ref usage ∈ s.log) :
    ∃ o ∈ s.history, ∃ i ref', o.row? = some (.cellCompleted i ref' usage) ∧
      redactText i = id ∧ ref'.stored = ref := by
  rw [show s.log = _ from h.recorded] at hrow
  obtain ⟨p, hp, hstored⟩ := List.mem_map.mp hrow
  obtain ⟨o, ho, hop⟩ := List.mem_filterMap.mp hp
  cases p with
  | cellCompleted i ref' u =>
    cases hstored
    exact ⟨o, ho, i, ref', hop, rfl, rfl⟩
  | _ => cases hstored

theorem Reach.stable (h : Reach r ph s) {id : String} {ref : ArtifactRef} {usage : Spend}
    (hrow : .cellCompleted id ref usage ∈ s.log) :
    redactText id = id ∧ redactText ref.digest = ref.digest ∧ ref.stored = ref := by
  obtain ⟨o, -, i, ref', -, rfl, rfl⟩ := h.appended hrow
  refine ⟨redactText_idem i, redactText_idem _, ?_⟩
  unfold ArtifactRef.stored
  dsimp only
  rw [redactText_idem, redactText_idem]

/-- A link that starts from coherent rows has one artifact for a cell. -/
theorem Reach.functional (h : Reach r ph s) (ht : r.Tied l) : Functional s.log := by
  have hr : r.Checked → r.Distinct := fun _ => ht.distinct
  have hsourceIds : ∀ i ref u, .cellCompleted i ref u ∈ r.source → i ∈ r.ids :=
    fun i ref u hm => ht.launched.sound _ hm
  intro id ref ref' u u' hrow hrow'
  cases h.origins hr id ref u hrow with
  | @source i ref₁ u₁ hp hid href =>
    cases h.origins hr id ref' u' hrow' with
    | @source j ref₂ u₂ hp' hid' href' =>
      have hij := ht.inj i (hsourceIds _ _ _ hp) j (hsourceIds _ _ _ hp') (hid.trans hid'.symm)
      subst hij
      rw [← href, ← href', ht.source.functional _ _ _ _ _ hp hp']
    | @own c indices digest hc hi hw hid' href' =>
      have hij := ht.inj i (hsourceIds _ _ _ hp) c.id (List.mem_map_of_mem hc)
        (hid.trans hid'.symm)
      exact absurd (ht.backs _ hp _ rfl) (hij ▸ hi)
  | @own c indices digest hc hi hw hid href =>
    cases h.origins hr id ref' u' hrow' with
    | @source j ref₂ u₂ hp' hid' href' =>
      have hij := ht.inj j (hsourceIds _ _ _ hp') c.id (List.mem_map_of_mem hc)
        (hid'.trans hid.symm)
      exact absurd (ht.backs _ hp' _ rfl) (hij ▸ hi)
    | own =>
      have hl := h.legal ht.backs hr
      have hat : ∀ {ref u}, .cellCompleted id ref u ∈ s.log → ∃ o ∈ s.history, ∃ ref',
          o.row? = some (.cellCompleted c.id ref' u) ∧ ref'.stored = ref := by
        intro ref u hrow
        obtain ⟨o, ho, i, ref', hop, hi', hs⟩ := h.appended hrow
        have hfig : o.figure? = some (i, u) := Obs.figure?_eq_some.mpr ⟨ref', hop⟩
        have hmem : i ∈ r.ids := by
          rcases legal_reports hl ⟨o, ho, hfig⟩ with hinit | ⟨hin, -⟩
          · exact ht.launched.subset hinit
          · exact hin
        have hsame := ht.inj i hmem c.id (List.mem_map_of_mem hc) (hi'.trans hid.symm)
        exact ⟨o, ho, ref', hsame ▸ hop, hs⟩
      obtain ⟨o, ho, ref₁, hop, hs⟩ := hat hrow
      obtain ⟨o', ho', ref₂, hop', hs'⟩ := hat hrow'
      have hsame := figure_unique hl hi ho ho' (Obs.figure?_eq_some.mpr ⟨ref₁, hop⟩)
        (Obs.figure?_eq_some.mpr ⟨ref₂, hop'⟩)
      subst hsame
      rw [hop] at hop'
      cases hop'
      rw [← hs, ← hs']

/-- The log of a link is coherent. -/
theorem Reach.coherent (h : Reach r ph s) (ht : r.Tied l) : Coherent l s.log where
  links := h.links ht.fresh ht.source.links
  fits := by
    have hfit := h.rows_fit ht.launched.sound
    have hids : r.ids.map redactText = l.ids.map redactText := by
      rw [r.ids_eq, ← Links.stored_ids, ht.links, Links.stored_ids]
    exact hids ▸ hfit
  stable _ _ _ hrow := h.stable hrow
  functional := h.functional ht

end

section

variable {co co' : Company} {request : ProjectRequest} {launch : Launch} {shared : Shared}
  {r : Setting} {log : List EventPayload}

theorem tied_run (hids : ((co.freshJob request).graph.ids.map redactText).Nodup)
    (h : co.setting? (.fresh request) shared = some r) :
    r.Tied (co.freshJob request).graph.links := by
  have hfits : ∀ p ∈ ([] : List EventPayload), p.Fits [] := List.forall_mem_nil _
  have hlaunched : r.Launched := launched_of_fits h hfits
  cases h
  exact
    { launched := hlaunched
      backs := List.forall_mem_nil _
      distinct := hids.of_map
      source := Coherent.nil _
      links := rfl
      inj := fun i hi j hj => List.inj_on_of_nodup_map hids hi hj
      fresh := fun _ _ => rfl }

theorem tied_resume {source : List EventPayload}
    (hids : ((co.freshJob request).graph.ids.map redactText).Nodup)
    (hs : Coherent (co.freshJob request).graph.links source)
    (h : co'.setting? (.resume source) shared = some r) :
    r.Tied (co.freshJob request).graph.links := by
  have hr := setting_ids h hs.fits
  have hsource : r.source = source := (setting_job h).2.1
  have hlaunched := launched_of_fits h hs.fits
  have hbacks := setting_backs h
  have hstable : ∀ i ∈ r.ids, redactText i = i := by
    intro i hi
    rw [hr] at hi
    obtain ⟨j, -, rfl⟩ := List.mem_map.mp hi
    exact redactText_idem j
  obtain ⟨state, contract, graph, hrun, -, hgraph, he⟩ := setting_resume h
  have hlinks : r.job.graph.links = (co.freshJob request).graph.links.stored := by
    have hlast := replay_links hrun
    rw [hgraph, Option.map_some] at hlast
    obtain ⟨p, hp, hpl⟩ := List.mem_filterMap.mp (List.mem_of_getLast? hlast.symm)
    rw [he]
    exact hs.links p hp _ hpl
  exact
    { launched := hlaunched
      backs := hbacks
      distinct := by
        show r.ids.Nodup
        rw [hr, GraphVersion.links_ids]
        exact hids
      source := hsource ▸ hs
      links := by rw [hlinks, Links.stored_eq_iff.mpr (Links.stored_plain _)]
      inj := fun i hi j hj he => by rw [← hstable i hi, he, hstable j hj]
      fresh := fun request hf => by rw [he] at hf; cases hf }

/-- Every log of a chain is coherent. -/
theorem Lineage.coherent (hids : ((co.freshJob request).graph.ids.map redactText).Nodup)
    (h : Lineage co request log) : Coherent (co.freshJob request).graph.links log := by
  induction h with
  | run shared inputs =>
    have hr : co.setting? (.fresh request) shared = some _ := rfl
    obtain ⟨ph, h⟩ := (Company.run_reach hr inputs).1
    exact h.coherent (tied_run hids hr)
  | @resume source _ next shared inputs ih =>
    cases hr : next.setting? (.resume source) shared with
    | none =>
      rw [Company.run_rejected hr]
      exact Coherent.nil _
    | some r =>
      obtain ⟨ph, h⟩ := (Company.run_reach hr inputs).1
      exact h.coherent (tied_resume hids ih hr)

theorem LinkOf.tied (h : LinkOf co request co' launch)
    (hids : ((co.freshJob request).graph.ids.map redactText).Nodup)
    (hr : co'.setting? launch shared = some r) : r.Tied (co.freshJob request).graph.links := by
  cases h with
  | run => exact tied_run hids hr
  | resume h _ => exact tied_resume hids (h.coherent hids) hr

theorem LinkOf.lineage (h : LinkOf co request co' launch) (shared : Shared)
    (inputs : List (Input Exc)) : Lineage co request (co'.run launch shared inputs).state.log := by
  cases h with
  | run => exact .run shared inputs
  | resume h _ => exact .resume h co' shared inputs

/-! ## The map of a resume -/

theorem completed_in_resumedIds {state : RunState} {source : List EventPayload} :
    ∀ x ∈ Company.sourceCompleted source, x.1 ∈ Company.resumedIds state source :=
  fun _ hx => List.mem_dedup.mpr (List.mem_append_right _ (List.mem_map_of_mem hx))

/-- The map a link starts from. -/
theorem evident_start (h : co'.setting? launch shared = some r) :
    r.Evident (Company.begin r.job { shared := r.shared }) := by
  intro k
  have hbegin : (Company.begin r.job { shared := r.shared }).history = [] := rfl
  rw [hbegin]
  cases launch with
  | fresh request =>
    cases h
    exact (latest_eq_none fun c _ => rfl).symm
  | resume source =>
    obtain ⟨state, contract, graph, -, -, -, rfl⟩ := setting_resume h
    exact lookup_resumedEvidence completed_in_resumedIds k

/-- The completion of every cell that wrote its evidence is recorded, with the
digest it wrote, and so is every completion of the source. -/
structure Settled (source : List EventPayload) (s : St) : Prop where
  finished : ∀ o ∈ s.history, ∀ w ∈ o.write?, ∃ x ∈ Company.sourceCompleted s.log,
    x.1 = redactText w.1 ∧ x.2.digest = w.2
  again : Reemits source s.log

/-- What a settled log says of a cell is the evidence the run has of it. -/
theorem Reach.digestIn_log {ph : Phase} {s : St} {l : Links} (h : Reach r ph s) (ht : r.Tied l)
    (hsettled : Settled r.source s) {c : GraphCell} (hc : c ∈ r.job.graph.cells) :
    digestIn (Company.sourceCompleted s.log) (redactText c.id) =
      evidenceIn r.source s.history c.id := by
  have hfun := h.functional ht
  cases he : evidenceIn r.source s.history c.id with
  | some digest =>
    rcases Option.or_eq_some_iff.mp he with hw | ⟨-, hsource⟩
    · obtain ⟨indices, hmem⟩ := mem_of_writtenIn hw
      obtain ⟨⟨i, ref⟩, hx, hi, hdigest⟩ := hsettled.finished _ hmem _ rfl
      obtain ⟨usage, hrow⟩ := completion_mem.mp hx
      have hlast := digestIn_of_mem hfun hrow
      rwa [show i = redactText c.id from hi, show ref.digest = digest from hdigest] at hlast
    · obtain ⟨ref, usage, hrow, rfl⟩ := mem_of_digestIn hsource
      obtain ⟨-, hdigest, hstored⟩ := ht.source.stable _ _ _ hrow
      have hagain := hsettled.again _ hrow rfl
      have hrow' : .cellCompleted (redactText c.id) ref usage ∈ s.log := by
        rw [← hstored]
        exact hagain
      exact digestIn_of_mem hfun hrow'
  | none =>
    obtain ⟨hw, hsource⟩ := Option.or_eq_none_iff.mp he
    cases hd : digestIn (Company.sourceCompleted s.log) (redactText c.id) with
    | none => rfl
    | some digest =>
      obtain ⟨ref, usage, hrow, -⟩ := mem_of_digestIn hd
      cases h.origins (fun _ => ht.distinct) _ _ _ hrow with
      | @source i ref' u hp hid href =>
        have hi := ht.inj i (ht.launched.sound _ hp) c.id (List.mem_map_of_mem hc) hid
        rw [digestIn_of_mem ht.source.functional (hi ▸ hp)] at hsource
        cases hsource
      | @own d indices digest' hd' hi hm hid href =>
        have hsame := ht.inj d.id (List.mem_map_of_mem hd') c.id (List.mem_map_of_mem hc) hid
        have hsome := writtenIn_of_mem (hsame ▸ hm)
        rw [hw] at hsome
        cases hsome

/-- **Evidence.** Let redaction keep the ids of a plan apart. Take any run of a
chain of resumes, stopped anywhere, whose cells wrote their evidence in order and
whose log has the completion of every cell that wrote. The map any resume of it
starts from has what its own map held. -/
theorem evidence_resumed (hids : ((co.freshJob request).graph.ids.map redactText).Nodup)
    (hlink : LinkOf co request co' launch) (shared : Shared) (inputs : List (Input Exc)) :
    ∀ job ∈ co'.job? launch,
      InSequence job.graph.links launch.source (co'.run launch shared inputs).state.history →
      Settled launch.source (co'.run launch shared inputs).state →
      ∀ resumer : Company, ∀ job' ∈ resumer.job? (.resume (co'.run launch shared inputs).state.log),
        ∀ k, job'.evidenceDigests.lookup k =
          (co'.run launch shared inputs).state.evidenceDigests.lookup k := by
  intro job hjob horder hsettled resumer job' hjob' k
  have hr : co'.setting? launch shared = some _ := Option.map_eq_some_iff.mpr ⟨job, hjob, rfl⟩
  have ht := hlink.tied hids hr
  obtain ⟨ph, h⟩ := (Company.run_reach hr inputs).1
  have hnodup : job.graph.links.ids.Nodup := by
    rw [GraphVersion.links_ids]
    exact ht.distinct
  have hevident := h.evidence hnodup (evident_start hr) horder
  rw [hevident k]
  have hr' : resumer.setting? (.resume (co'.run launch shared inputs).state.log) {} = some _ :=
    Option.map_eq_some_iff.mpr ⟨job', hjob', rfl⟩
  obtain ⟨state, contract, graph, hrun, -, hgraph, hset⟩ := setting_resume hr'
  have hmap : job'.evidenceDigests = Company.resumedEvidence graph.cells
      (Company.resumedIds state (co'.run launch shared inputs).state.log)
      (Company.sourceCompleted (co'.run launch shared inputs).state.log) :=
    congrArg (fun r => r.job.evidenceDigests) hset
  rw [hmap, lookup_resumedEvidence completed_in_resumedIds k]
  -- the cells of the criterion are the same, under their redacted ids
  have hcells : graph.links.covering k =
      (job.graph.links.covering k).map CellLinks.stored := by
    have hlinks := (hlink.lineage shared inputs).projected_links hrun graph hgraph
    rw [hlinks, ← ht.links]
    exact List.filter_map
  rw [hcells, latest_map]
  refine latest_congr fun c hc => ?_
  obtain ⟨g, hg, rfl⟩ := List.mem_map.mp (List.mem_of_mem_filter hc)
  exact h.digestIn_log ht hsettled hg

end

/-- Two read-only cells of one wave under one criterion, each with an artifact of
its own. -/
def sharingCompany : Company :=
  { soleCompany [forbidsTool] [] with
    planner := fun contract =>
      .inl
        { cells :=
            [{ id := "a", contract := contract, acceptanceCriterionIndices := [0] },
             { id := "b", contract := contract, acceptanceCriterionIndices := [0] }] }
    script := fun c =>
      [{ profile := .ok { name := "m" }, turns := [{ reply := .response { text := c.id } }] }]
    store := fun text => { digest := text, mediaType := "", sizeBytes := 0 } }

/-- Its run, in which the cells of the wave end in the order they are woken. -/
def sharingRun (woken : List Nat) : Out St Exc RunOutcome :=
  sharingCompany.run (.fresh plainRequest) {} (List.replicate 16 (.wake .resume) ++ .flag false ::
    woken.flatMap fun i => List.replicate 8 (.child i .resume))

theorem resumes_sharing (woken : List Nat) {d : List (Int × String)}
    (h : (sharingCompany.job? (.resume (sharingRun woken).state.log)).map (·.evidenceDigests) =
      some d) :
    ∃ job', sharingCompany.job? (.resume (sharingRun woken).state.log) = some job' ∧
      job'.evidenceDigests = d :=
  Option.map_eq_some_iff.mp h

theorem evidence_resumed_sharing :
    ∃ job', sharingCompany.job? (.resume (sharingRun [0, 1]).state.log) = some job' ∧
      ∀ k, job'.evidenceDigests.lookup k = (sharingRun [0, 1]).state.evidenceDigests.lookup k := by
  have hsome : (sharingCompany.job? (.resume (sharingRun [0, 1]).state.log)).map
      (·.evidenceDigests) = some [(0, "b")] := by decide +kernel
  obtain ⟨job', hjob', -⟩ := resumes_sharing [0, 1] hsome
  refine ⟨job', hjob', ?_⟩
  have hids : ((sharingCompany.freshJob plainRequest).graph.ids.map redactText).Nodup := by
    decide +kernel
  refine evidence_resumed hids .run {} _ (sharingCompany.freshJob plainRequest) rfl ?_ ?_
    sharingCompany job' hjob'
  · decide +kernel
  · exact ⟨by decide +kernel, nofun⟩

/-- The cell listed second completes first. At the end of the wave the criterion
has the first one's artifact, and in a resume the second one's. -/
theorem sharing_overwritten :
    ¬ ∀ (co : Company) (request : ProjectRequest) (co' : Company) (launch : Launch),
      ((co.freshJob request).graph.ids.map redactText).Nodup → LinkOf co request co' launch →
      ∀ (shared : Shared) (inputs : List (Input Exc)), ∀ job ∈ co'.job? launch,
        Settled launch.source (co'.run launch shared inputs).state →
        ∀ resumer : Company,
          ∀ job' ∈ resumer.job? (.resume (co'.run launch shared inputs).state.log),
            ∀ k, job'.evidenceDigests.lookup k =
              (co'.run launch shared inputs).state.evidenceDigests.lookup k := by
  intro h
  have hsome : (sharingCompany.job? (.resume (sharingRun [1, 0]).state.log)).map
      (·.evidenceDigests) = some [(0, "b")] := by decide +kernel
  obtain ⟨job', hjob', hd⟩ := resumes_sharing [1, 0] hsome
  have hsame := h sharingCompany plainRequest sharingCompany (.fresh plainRequest)
    (by decide +kernel) .run {} _ (sharingCompany.freshJob plainRequest) rfl
    ⟨by decide +kernel, nofun⟩ sharingCompany job' hjob' 0
  have hrun : (sharingRun [1, 0]).state.evidenceDigests = [(0, "a")] := by decide +kernel
  rw [hd, show (sharingCompany.run _ _ _).state.evidenceDigests = [(0, "a")] from hrun] at hsame
  exact absurd hsame (by decide)

end Northstack
