import Northstack.Core.TaskRuns

/-!
# What is heard of a task

`noted` says what one step notes. `Co.heard` is what a task notes in its own
steps while the others do anything at its awaits. `Co.Tells` is a task whose
notes and value do not depend on the others: an exception may only cut them
short. `Co.Hears` is a logic of the notes alone, and `Co.Ends` says that no
await of the task waits for ever.

**Results.**
* `Tells.heard`, `Tells.outcome`: what is heard of a telling task is the
  beginning of what it tells, and it returns nothing else.
* `Hears.heard`: what the logic proves of a task is heard in every run.
* `Ends.outcome`: a task that never waits for ever ends in every run.
-/
namespace Coop

variable {σ ε α β ο : Type}

/-! ## Runs -/

namespace Co

/-- What the task notes in its own steps. -/
def heard (noted : σ → σ → List ο) (c : Co σ ε α) (gs : List (Gap σ ε)) (s : σ) : List ο :=
  (c.play gs s).flatMap fun p => noted p.1 p.2

/-- How the task ends, if it ends before the gaps do. -/
def outcome : Co σ ε α → List (Gap σ ε) → σ → Option (Except ε α)
  | .done r, _, _ => some r
  | .block k, gs, s => match Gap.raised gs s with
    | some (e, gs, t) => (k e).outcome gs t
    | none => none
  | .act f k, gs, s => (k s).outcome gs (f s)
  | .await _, [], _ => none
  | .await k, g :: gs, s => (k g.wake).outcome gs (g.others s)

/-- No await of the task waits for ever. -/
def Ends : Co σ ε α → Prop
  | .done _ => True
  | .block _ => False
  | .act _ k => ∀ s, (k s).Ends
  | .await k => ∀ w, (k w).Ends

/-- Whatever happens at the awaits, the task ends after finitely many. -/
theorem Ends.outcome {c : Co σ ε α} (h : c.Ends) (gaps : Nat → Gap σ ε) (s : σ) :
    ∃ n, (c.outcome ((List.range n).map gaps) s).isSome := by
  induction c generalizing gaps s with
  | done r => exact ⟨0, rfl⟩
  | block k ih => exact h.elim
  | act f k ih => exact ih s (h s) gaps (f s)
  | await k ih =>
    obtain ⟨n, hn⟩ := ih (gaps 0).wake (h (gaps 0).wake) (fun i => gaps (i + 1)) ((gaps 0).others s)
    refine ⟨n + 1, ?_⟩
    rw [List.range_succ_eq_map, List.map_cons, List.map_map]
    exact hn

/-! ## Telling tasks -/

/-- The task notes `text` and returns `r`, or waits for ever if `r` is none,
unless an exception cuts it short. -/
def Tells (noted : σ → σ → List ο) : Co σ ε α → List ο → Option α → Prop
  | .done (.ok a), text, r => text = [] ∧ r = some a
  | .done (.error _), _, _ => True
  | .block k, text, r => r = none ∧ ∀ e, (k e).Tells noted text r
  | .act f k, text, r => ∀ s, ∃ rest, text = noted s (f s) ++ rest ∧ (k s).Tells noted rest r
  | .await k, text, r => ∀ w, (k w).Tells noted text r

section Tells

variable {noted : σ → σ → List ο} {text rest : List ο} {r : Option α}

/-- **Telling.** What is heard is the beginning of what the task tells. -/
theorem Tells.heard {c : Co σ ε α} (h : c.Tells noted text r) (gs : List (Gap σ ε)) (s : σ) :
    c.heard noted gs s <+: text := by
  induction c generalizing text gs s with
  | done r => exact List.nil_prefix
  | block k ih =>
    unfold Co.heard Co.play
    split
    · rename_i e gs' t _
      exact ih e (h.2 e) gs' t
    · exact List.nil_prefix
  | act f k ih =>
    obtain ⟨rest, rfl, hk⟩ := h s
    unfold Co.heard Co.play
    rw [List.flatMap_cons]
    exact (List.prefix_append_right_inj _).mpr (ih s hk gs (f s))
  | await k ih =>
    cases gs with
    | nil => exact List.nil_prefix
    | cons g gs => exact ih g.wake (h g.wake) gs (g.others s)

/-- It returns nothing else, and then everything was heard. -/
theorem Tells.outcome {c : Co σ ε α} (h : c.Tells noted text r) {gs : List (Gap σ ε)} {s : σ}
    {a : α} (hend : c.outcome gs s = some (.ok a)) : r = some a ∧ c.heard noted gs s = text := by
  induction c generalizing text gs s with
  | done x =>
    cases hend
    exact ⟨h.2, h.1.symm⟩
  | block k ih =>
    unfold Co.outcome at hend
    unfold Co.heard Co.play
    cases hraised : Gap.raised gs s with
    | none =>
      rw [hraised] at hend
      cases hend
    | some x =>
      rw [hraised] at hend
      exact ih x.1 (h.2 x.1) hend
  | act f k ih =>
    obtain ⟨rest, rfl, hk⟩ := h s
    obtain ⟨hr, htext⟩ := ih s hk hend
    refine ⟨hr, ?_⟩
    unfold Co.heard at htext ⊢
    unfold Co.play
    rw [List.flatMap_cons, htext]
  | await k ih =>
    cases gs with
    | nil => cases hend
    | cons g gs => exact ih g.wake (h g.wake) hend

/-- A task that tells what it returns never waits for ever. -/
theorem Tells.ends {c : Co σ ε α} (h : c.Tells noted text r) (hr : r.isSome) : c.Ends := by
  induction c generalizing text with
  | done x => trivial
  | block k ih =>
    rw [h.1] at hr
    cases hr
  | act f k ih =>
    intro s
    obtain ⟨rest, -, hk⟩ := h s
    exact ih s hk
  | await k ih => exact fun w => ih w (h w)

theorem tells_pure {a : α} : (pure a : Co σ ε α).Tells noted [] (some a) := ⟨rfl, rfl⟩

theorem tells_block : (Co.block fun e => .done (.error e) : Co σ ε α).Tells noted text none :=
  ⟨rfl, fun _ => trivial⟩

theorem tells_bind {c : Co σ ε β} {g : β → Co σ ε α} {b : β} (hc : c.Tells noted text (some b))
    (hg : (g b).Tells noted rest r) : (c >>= g).Tells noted (text ++ rest) r := by
  induction c generalizing text with
  | done x =>
    cases x with
    | ok b' =>
      obtain ⟨rfl, hb⟩ := hc
      cases hb
      exact hg
    | error e => trivial
  | block k ih => cases hc.1
  | act f k ih =>
    intro s
    obtain ⟨text, rfl, hk⟩ := hc s
    exact ⟨text ++ rest, List.append_assoc _ _ _, ih s hk⟩
  | await k ih => exact fun w => ih w (hc w)

/-- What is silent may stand in front. -/
theorem Tells.seq {c : Co σ ε β} {g : β → Co σ ε α} {b : β} (hc : c.Tells noted [] (some b))
    (hg : (g b).Tells noted text r) : (c >>= g).Tells noted text r := tells_bind hc hg

theorem tells_modify {f : σ → σ} (hf : ∀ s, noted s (f s) = text) :
    (modify f : Co σ ε Unit).Tells noted text (some ()) :=
  fun s => ⟨[], by rw [hf s, List.append_nil], rfl, rfl⟩

theorem tells_suspend : (suspend : Co σ ε Unit).Tells noted [] (some ()) := by
  intro w
  cases w with
  | resume => exact ⟨rfl, rfl⟩
  | raise e => trivial

/-- A silent task without a value. -/
theorem All.tells {c : Co σ ε Unit} (h : c.All fun f => ∀ s, noted s (f s) = [])
    (hends : c.Ends) : c.Tells noted [] (some ()) := by
  induction c with
  | done x =>
    cases x with
    | ok a => exact ⟨rfl, rfl⟩
    | error e => trivial
  | block k ih => exact hends.elim
  | act f k ih => exact fun s => ⟨[], by rw [h.1 s]; rfl, ih s (h.2 s) (hends s)⟩
  | await k ih => exact fun w => ih w (h w) (hends w)

end Tells

/-! ## The logic of the notes -/

/-- Behind `told`, every note keeps `I` of what was told, and the task ends in
`Q`, whatever the states are. -/
def Hears (noted : σ → σ → List ο) (I : List ο → Prop) (Q : Except ε α → List ο → Prop) :
    Co σ ε α → List ο → Prop
  | .done r, told => Q r told
  | .block k, told => ∀ e, (k e).Hears noted I Q told
  | .act f k, told => ∀ s, I (told ++ noted s (f s)) ∧
      (k s).Hears noted I Q (told ++ noted s (f s))
  | .await k, told => ∀ w, (k w).Hears noted I Q told

section Hears

variable {noted : σ → σ → List ο} {I : List ο → Prop} {Q Q' : Except ε α → List ο → Prop}
  {told text : List ο}

/-- **Hearing.** What the logic proves holds of what is heard in every run. -/
theorem Hears.heard {c : Co σ ε α} (h : c.Hears noted I Q told) (hI : I told)
    (gs : List (Gap σ ε)) (s : σ) : I (told ++ c.heard noted gs s) := by
  induction c generalizing told gs s with
  | done r => rwa [show (Co.done r).heard noted gs s = [] from rfl, List.append_nil]
  | block k ih =>
    unfold Co.heard Co.play
    split
    · rename_i e gs' t _
      exact ih e (h e) hI gs' t
    · rwa [List.flatMap_nil, List.append_nil]
  | act f k ih =>
    have hk := ih s (h s).2 (h s).1 gs (f s)
    rwa [List.append_assoc] at hk
  | await k ih =>
    cases gs with
    | nil => rwa [show (Co.await k).heard noted [] s = [] from rfl, List.append_nil]
    | cons g gs => exact ih g.wake (h g.wake) hI gs (g.others s)

theorem Hears.mono {c : Co σ ε α} (h : c.Hears noted I Q told) (hQ : ∀ r t, Q r t → Q' r t) :
    c.Hears noted I Q' told := by
  induction c generalizing told with
  | done r => exact hQ _ _ h
  | block k ih => exact fun e => ih e (h e)
  | act f k ih => exact fun s => ⟨(h s).1, ih s (h s).2⟩
  | await k ih => exact fun w => ih w (h w)

theorem hears_pure {a : α} (h : Q (.ok a) told) : (pure a : Co σ ε α).Hears noted I Q told := h

theorem hears_throw {e : ε} (h : Q (.error e) told) :
    (throw e : Co σ ε α).Hears noted I Q told := h

theorem hears_bind {c : Co σ ε β} {g : β → Co σ ε α}
    (h : c.Hears noted I (fun r t => match r with
      | .ok b => (g b).Hears noted I Q t
      | .error e => Q (.error e) t) told) : (c >>= g).Hears noted I Q told := by
  induction c generalizing told with
  | done r =>
    cases r with
    | ok b => exact h
    | error e => exact h
  | block k ih => exact fun e => ih e (h e)
  | act f k ih => exact fun s => ⟨(h s).1, ih s (h s).2⟩
  | await k ih => exact fun w => ih w (h w)

theorem hears_tryCatch {c : Co σ ε α} {handler : ε → Co σ ε α}
    (h : c.Hears noted I (fun r t => match r with
      | .ok a => Q (.ok a) t
      | .error e => (handler e).Hears noted I Q t) told) :
    (tryCatch c handler).Hears noted I Q told := by
  induction c generalizing told with
  | done r =>
    cases r with
    | ok a => exact h
    | error e => exact h
  | block k ih => exact fun e => ih e (h e)
  | act f k ih => exact fun s => ⟨(h s).1, ih s (h s).2⟩
  | await k ih => exact fun w => ih w (h w)

theorem hears_modify {f : σ → σ} {Q : Except ε Unit → List ο → Prop}
    (h : ∀ s, I (told ++ noted s (f s)) ∧ Q (.ok ()) (told ++ noted s (f s))) :
    (modify f : Co σ ε Unit).Hears noted I Q told := h

/-- A silent task leaves what was told. -/
theorem All.hears {c : Co σ ε α} (h : c.All fun f => ∀ s, noted s (f s) = []) (hI : I told)
    (hQ : ∀ r, Q r told) : c.Hears noted I Q told := by
  induction c with
  | done r => exact hQ r
  | block k ih => exact fun e => ih e (h e)
  | act f k ih =>
    intro s
    rw [h.1 s, List.append_nil]
    exact ⟨hI, ih s (h.2 s)⟩
  | await k ih => exact fun w => ih w (h w)

/-- A telling task may be cut short anywhere. -/
theorem Tells.hears {c : Co σ ε α} {r : Option α} (h : c.Tells noted text r)
    (hI : ∀ p, p <+: text → I (told ++ p)) (hok : ∀ a ∈ r, Q (.ok a) (told ++ text))
    (hcut : ∀ e p, p <+: text → Q (.error e) (told ++ p)) : c.Hears noted I Q told := by
  induction c generalizing told text with
  | done x =>
    cases x with
    | ok a =>
      obtain ⟨rfl, hr⟩ := h
      have hq := hok a hr
      rwa [List.append_nil] at hq
    | error e =>
      have hq := hcut e [] List.nil_prefix
      rwa [List.append_nil] at hq
  | block k ih => exact fun e => ih e (h.2 e) hI hok hcut
  | act f k ih =>
    intro s
    obtain ⟨rest, rfl, hk⟩ := h s
    refine ⟨hI _ (List.prefix_append _ _), ih s hk (fun p hp => ?_) (fun a ha => ?_) fun e p hp => ?_⟩
    · rw [List.append_assoc]
      exact hI _ ((List.prefix_append_right_inj _).mpr hp)
    · rw [List.append_assoc]
      exact hok a ha
    · rw [List.append_assoc]
      exact hcut e _ ((List.prefix_append_right_inj _).mpr hp)
  | await k ih => exact fun w => ih w (h w) hI hok hcut

end Hears

end Co
end Coop
