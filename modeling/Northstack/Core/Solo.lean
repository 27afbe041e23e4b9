import Northstack.Core.TaskRuns

/-!
# A group of tasks that only read

`Head.Ends` runs a suspended task alone: it is woken with one answer after
another until it ends. Siblings whose code leaves the state as it is cannot tell
that they have company.

**Results.**
* `interleave_reads`: whatever order wakes a group of tasks that only read, each
  ends as it does alone, and the state is untouched.
* `interleave_solo`: a group of one runs alone.
* `Ends.interleave`: and so does every task that ends alone.
-/
namespace Coop

variable {σ τ ε α : Type}

/-- The updates of a suspended task are all in `P`. -/
def Head.All (P : (σ → σ) → Prop) : Head σ ε α → Prop
  | .done _ => True
  | .block k => ∀ e, (k e).All P
  | .await k => ∀ w, (k w).All P

/-- An update that changes nothing. -/
def Inert (f : σ → σ) : Prop := ∀ s, f s = s

/-- Whether a suspended task has ended. -/
def Head.over : Head σ ε α → Bool
  | .done _ => true
  | _ => false

/-- Woken with these answers, a task ends with `r` and leaves `t`. -/
inductive Head.Ends : Head σ ε α → σ → List (Wake ε) → Except ε α → σ → Prop where
  | done {r : Except ε α} {s : σ} : Ends (.done r) s [] r s
  | wake {h : Head σ ε α} {s t : σ} {w : Wake ε} {ws : List (Wake ε)} {r : Except ε α}
    (ho : h.over = false) (hs : Ends (h.wake w s).1 (h.wake w s).2 ws r t) :
    Ends h s (w :: ws) r t

section

variable {c : Co σ ε α} {h : Head σ ε α} {s t : σ}

theorem Co.All.settle_inert (hc : c.All Inert) (s : σ) :
    (c.settle s).2 = s ∧ (c.settle s).1.All Inert := by
  induction c generalizing s with
  | done r => exact ⟨rfl, trivial⟩
  | block k _ => exact ⟨rfl, hc⟩
  | act f k ih =>
    obtain ⟨hs, hall⟩ := ih s (hc.2 s) (f s)
    exact ⟨hs.trans (hc.1 s), hall⟩
  | await k _ => exact ⟨rfl, hc⟩

theorem Head.All.wake_inert (hh : h.All Inert) (w : Wake ε) (s : σ) :
    (h.wake w s).2 = s ∧ (h.wake w s).1.All Inert := by
  cases h with
  | done r => exact ⟨rfl, trivial⟩
  | block k =>
    cases w with
    | resume => exact ⟨rfl, hh⟩
    | raise e => exact (hh e).settle_inert s
  | await k => exact (hh w).settle_inert s

theorem Head.over_eq {h : Head σ ε α} (ho : h.over = true) : ∃ r, h = .done r := by
  cases h with
  | done r => exact ⟨r, rfl⟩
  | block k => cases ho
  | await k => cases ho

/-- The same answers end a task the same way. -/
theorem Head.Ends.unique {ws : List (Wake ε)} {r : Except ε α} (he : h.Ends s ws r t)
    {ws' : List (Wake ε)} {r' : Except ε α} {t' : σ} (he' : h.Ends s ws' r' t')
    (hws : ∀ w ∈ ws, w = .resume) (hws' : ∀ w ∈ ws', w = .resume) : r = r' ∧ t = t' := by
  induction he generalizing ws' with
  | done =>
    cases he' with
    | done => exact ⟨rfl, rfl⟩
    | wake ho => cases ho
  | wake ho _ ih =>
    cases he' with
    | done => cases ho
    | wake _ hs' =>
      rw [hws' _ List.mem_cons_self, ← hws _ List.mem_cons_self] at hs'
      exact ih hs' (fun w hw => hws w (List.mem_cons_of_mem _ hw))
        fun w hw => hws' w (List.mem_cons_of_mem _ hw)

theorem Co.sat_any (c : Co σ ε α) (s : σ) :
    c.Sat (fun _ _ => True) (fun _ _ => True) (fun _ _ => True) s := by
  induction c generalizing s with
  | done r => trivial
  | block k ih => exact fun e t _ => ih e t
  | act f k ih => exact ⟨trivial, ih s _⟩
  | await k ih => exact fun w t _ => ih w t

/-- What a task ensures in any company it ensures alone. -/
theorem Head.Ends.sat {G R : σ → σ → Prop} {Q : Except ε α → σ → Prop} (hC : Contract G R Q)
    {ws : List (Wake ε)} {r : Except ε α} (he : h.Ends s ws r t) (hh : h.Sat G R Q s) : Q r t := by
  induction he with
  | done => exact hh
  | wake _ _ ih => exact ih (Head.wake_sat hC _ hh).2

end

/-! ## Groups -/

section Groups

variable {cancelled : ε} {is rest : List (Input ε)} {cs : List (Child σ ε α)}
  {rs : List (Except ε α)} {s t : σ}

/-- A task ends alone, with answers from the list of inputs. -/
def EndsAlone (is : List (Input ε)) (s : σ) (c : Head σ ε α) (r : Except ε α) (t : σ) : Prop :=
  ∃ ws, (∀ w ∈ ws, ∃ n, .child n w ∈ is) ∧ c.Ends s ws r t

theorem EndsAlone.mono {is' : List (Input ε)} {c : Head σ ε α} {r : Except ε α}
    (h : EndsAlone is s c r t) (hsub : is ⊆ is') : EndsAlone is' s c r t := by
  obtain ⟨ws, hws, he⟩ := h
  refine ⟨ws, fun w hw => ?_, he⟩
  obtain ⟨n, hn⟩ := hws w hw
  exact ⟨n, hsub hn⟩

/-- One more answer in front. -/
theorem EndsAlone.wake {c : Head σ ε α} {n : Nat} {w : Wake ε} {r : Except ε α}
    (h : EndsAlone is (c.wake w s).2 (c.wake w s).1 r t) :
    EndsAlone (.child n w :: is) s c r t := by
  by_cases ho : c.over = true
  · obtain ⟨r', rfl⟩ := Head.over_eq ho
    exact h.mono (List.subset_cons_self _ _)
  · obtain ⟨ws, hws, he⟩ := h
    refine ⟨w :: ws, fun x hx => ?_, .wake (by simpa using ho) he⟩
    rcases List.mem_cons.mp hx with rfl | hx
    · exact ⟨n, List.mem_cons_self⟩
    · obtain ⟨m, hm⟩ := hws x hx
      exact ⟨m, List.mem_cons_of_mem _ hm⟩

/-- The siblings only read, and none is to be cancelled. -/
def AllRead (cs : List (Child σ ε α)) : Prop := ∀ c ∈ cs, c.cancel = false ∧ c.head.All Inert

/-- A wake moves one sibling on its way and leaves the state. -/
theorem wakeAt_reads (cancelled : ε) (is : List (Input ε)) (hc : AllRead cs) (n m : Nat)
    (w : Wake ε) (s : σ) :
    (wakeAt cancelled cs n w s).2 = s ∧ AllRead (wakeAt cancelled cs n w s).1 ∧
      ∀ rs, List.Forall₂ (fun c r => EndsAlone is s c.head r s) (wakeAt cancelled cs n w s).1 rs →
        List.Forall₂ (fun c r => EndsAlone (.child m w :: is) s c.head r s) cs rs := by
  have hmono {c : Child σ ε α} {r : Except ε α} (h : EndsAlone is s c.head r s) :
      EndsAlone (.child m w :: is) s c.head r s := h.mono (List.subset_cons_self _ _)
  induction cs generalizing n with
  | nil => exact ⟨rfl, hc, fun rs h => h.imp fun _ _ => hmono⟩
  | cons c cs ih =>
    obtain ⟨hcancel, hidle⟩ := hc c List.mem_cons_self
    have hcs : AllRead cs := fun x hx => hc x (List.mem_cons_of_mem _ hx)
    cases n with
    | zero =>
      obtain ⟨hs, hall⟩ := hidle.wake_inert w s
      have hwake : c.wake cancelled w s = ({ head := (c.head.wake w s).1 }, s) := by
        unfold Child.wake
        dsimp only
        rw [hcancel, if_neg Bool.false_ne_true, hs]
      unfold wakeAt
      rw [hwake]
      refine ⟨rfl, List.forall_mem_cons.mpr ⟨⟨rfl, hall⟩, hcs⟩, fun rs h => ?_⟩
      cases h with
      | cons h hrest =>
        refine .cons (.wake ?_) (hrest.imp fun _ _ => hmono)
        rwa [hs]
    | succ n =>
      obtain ⟨hs, hall, hends⟩ := ih hcs n
      unfold wakeAt
      refine ⟨hs, List.forall_mem_cons.mpr ⟨⟨hcancel, hidle⟩, hall⟩, fun rs h => ?_⟩
      cases h with
      | cons h hrest => exact .cons (hmono h) (hends _ hrest)

theorem results_ends (h : results cs = some rs) :
    List.Forall₂ (fun c r => EndsAlone is s c.head r s) cs rs := by
  induction cs generalizing rs with
  | nil =>
    cases h
    exact .nil
  | cons c cs ih =>
    unfold results at h
    split at h
    · rename_i r hr
      obtain ⟨rs', hrs', rfl⟩ := Option.map_eq_some_iff.mp h
      exact .cons ⟨[], nofun, hr ▸ .done⟩ (ih hrs')
    · cases h

/-- A cancelled group stays cancelled. -/
theorem interleave_cancelled {req : Bool}
    (h : interleave cancelled is cs true s = .ret (rs, req) rest t) :
    req = true := by
  induction is generalizing cs s with
  | nil =>
    unfold interleave at h
    split at h
    · cases h
      rfl
    · cases h
  | cons i is ih =>
    unfold interleave at h
    split at h
    · cases h
      rfl
    · split at h <;> exact ih h

/-- **Readers.** A group of tasks that only read, woken in any order, ends as
each task does alone, and leaves the state. -/
theorem interleave_reads (hc : AllRead cs)
    (h : interleave cancelled is cs false s = .ret (rs, false) rest t) :
    t = s ∧ List.Forall₂ (fun c r => EndsAlone is s c.head r s) cs rs := by
  induction is generalizing cs with
  | nil =>
    unfold interleave at h
    split at h
    · rename_i hrs
      cases h
      exact ⟨rfl, results_ends hrs⟩
    · cases h
  | cons i is ih =>
    unfold interleave at h
    split at h
    · rename_i hrs
      cases h
      exact ⟨rfl, results_ends hrs⟩
    · split at h
      · rename_i n w
        obtain ⟨hs, hall, hends⟩ := wakeAt_reads cancelled is hc n n w s
        rw [hs] at h
        obtain ⟨ht, hrs⟩ := ih hall h
        exact ⟨ht, hends _ hrs⟩
      · cases interleave_cancelled h
      · cases interleave_cancelled h
      · obtain ⟨ht, hrs⟩ := ih hc h
        exact ⟨ht, hrs.imp fun _ _ he => he.mono (List.subset_cons_self _ _)⟩

/-- A group of one. -/
theorem interleave_solo {c : Head σ ε α}
    (h : interleave cancelled is [{ head := c }] false s = .ret (rs, false) rest t) :
    ∃ r, rs = [r] ∧ EndsAlone is s c r t := by
  induction is generalizing c s with
  | nil =>
    unfold interleave results at h
    cases c with
    | done r =>
      cases h
      exact ⟨r, rfl, [], fun w hw => absurd hw List.not_mem_nil, .done⟩
    | block k => cases h
    | await k => cases h
  | cons i is ih =>
    unfold interleave at h
    cases hr : results [({ head := c } : Child σ ε α)] with
    | some rs' =>
      rw [hr] at h
      cases h
      unfold results at hr
      cases c with
      | done r =>
        cases hr
        exact ⟨r, rfl, [], fun w hw => absurd hw List.not_mem_nil, .done⟩
      | block k => cases hr
      | await k => cases hr
    | none =>
      rw [hr] at h
      dsimp only at h
      split at h
      · rename_i n w
        cases n with
        | zero =>
          obtain ⟨r, hrs, he⟩ := ih h
          exact ⟨r, hrs, he.wake⟩
        | succ n =>
          obtain ⟨r, hrs, he⟩ := ih h
          exact ⟨r, hrs, he.mono (List.subset_cons_self _ _)⟩
      · cases interleave_cancelled h
      · cases interleave_cancelled h
      · obtain ⟨r, hrs, he⟩ := ih h
        exact ⟨r, hrs, he.mono (List.subset_cons_self _ _)⟩

/-- A task that ends alone ends as a group of one. -/
theorem Head.Ends.interleave {c : Head σ ε α} {ws : List (Wake ε)} {r : Except ε α}
    (h : c.Ends s ws r t) (cancelled : ε) (rest : List (Input ε)) :
    interleave cancelled (ws.map (.child 0) ++ rest) [{ head := c }] false s =
      .ret ([r], false) rest t := by
  induction h with
  | done => cases rest <;> rfl
  | @wake c s t w ws r ho hs ih =>
    have hr : results [({ head := c } : Child σ ε α)] = none := by
      unfold results
      cases c with
      | done r => cases ho
      | block k => rfl
      | await k => rfl
    rw [List.map_cons, List.cons_append]
    unfold Coop.interleave
    rw [hr]
    exact ih

theorem interleave_rest {req : Bool} {r : List (Except ε α) × Bool}
    (h : interleave cancelled is cs req s = .ret r rest t) : rest ⊆ is := by
  induction is generalizing cs req s with
  | nil =>
    unfold interleave at h
    split at h
    · cases h
      exact List.Subset.refl _
    · cases h
  | cons i is ih =>
    unfold interleave at h
    split at h
    · cases h
      exact List.Subset.refl _
    · split at h <;> exact List.Subset.trans (ih h) (List.subset_cons_self _ _)

/-- A task before its first step. -/
def Co.start (c : Co σ ε α) : Head σ ε α := .await fun
  | .resume => c
  | .raise e => .done (.error e)

theorem Co.All.start {P : (σ → σ) → Prop} {c : Co σ ε α} (h : c.All P) : c.start.All P := by
  intro w
  cases w with
  | resume => exact h
  | raise e => trivial

theorem group_eq (cs : List (Co σ ε α)) : group cs = cs.map fun c => { head := c.start } := rfl

end Groups

/-! ## A part of the state -/

/-- The task on a part of a larger state. -/
def Co.zoom (get : τ → σ) (put : σ → τ → τ) : Co σ ε α → Co τ ε α
  | .done r => .done r
  | .block k => .block fun e => (k e).zoom get put
  | .act f k => .act (fun t => put (f (get t)) t) fun t => (k (get t)).zoom get put
  | .await k => .await fun w => (k w).zoom get put

theorem Co.All.zoom {get : τ → σ} {put : σ → τ → τ} (hput : ∀ t, put (get t) t = t)
    {c : Co σ ε α} (h : c.All Inert) : (c.zoom get put).All Inert := by
  induction c with
  | done r => trivial
  | block k ih => exact fun e => ih e (h e)
  | act f k ih =>
    refine ⟨fun t => ?_, fun t => ih _ (h.2 _)⟩
    show put (f (get t)) t = t
    rw [h.1, hput]
  | await k ih => exact fun w => ih w (h w)

/-- A sequence returns if both parts do. -/
theorem Main.bind_eq_ret {β : Type} {m : Main σ ε β} {g : β → Main σ ε α} {is rest : List (Input ε)}
    {s t : σ} {a : α} : (m >>= g) is s = .ret a rest t ↔
      ∃ x is' s', m is s = .ret x is' s' ∧ g x is' s' = .ret a rest t := by
  show Main.bind m g is s = _ ↔ _
  unfold Main.bind
  cases hm : m is s with
  | ret x is' s' =>
    refine ⟨fun h => ⟨x, is', s', rfl, h⟩, ?_⟩
    rintro ⟨x', is'', s'', he, h⟩
    cases he
    exact h
  | raise e is' s' => exact ⟨nofun, fun ⟨_, _, _, he, _⟩ => nomatch he⟩
  | wait s' => exact ⟨nofun, fun ⟨_, _, _, he, _⟩ => nomatch he⟩

end Coop
