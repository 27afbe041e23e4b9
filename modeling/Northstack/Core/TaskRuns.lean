import Northstack.Core.TaskRules

/-!
# What one task does among others

`Co.play` lists the steps a task itself takes while, at each of its awaits, the
others change the state and something wakes it. `Co.Costs` bounds what these
steps cost: it is `Co.Sat` with an allowance that every step draws on.

**Results.**
* `Costs.play_le`: the steps of a task cost no more than its allowance.
* `Co.All.costs`: a task whose updates are all free leaves its allowance.
-/
namespace Coop

variable {σ ε α β : Type}

/-! ## Runs -/

/-- An await of a task: the others go on, then it is woken. -/
structure Gap (σ ε : Type) where
  others : σ → σ
  wake : Wake ε

/-- What never completes is only left by an exception. -/
def Gap.raised : List (Gap σ ε) → σ → Option (ε × List (Gap σ ε) × σ)
  | [], _ => none
  | g :: gs, s => match g.wake with
    | .resume => raised gs (g.others s)
    | .raise e => some (e, gs, g.others s)

/-- The steps of a task, each as the states before and behind it. A run whose
gaps end early is suspended. -/
def Co.play : Co σ ε α → List (Gap σ ε) → σ → List (σ × σ)
  | .done _, _, _ => []
  | .block k, gs, s => match Gap.raised gs s with
    | some (e, gs, t) => (k e).play gs t
    | none => []
  | .act f k, gs, s => (s, f s) :: (k s).play gs (f s)
  | .await _, [], _ => []
  | .await k, g :: gs, s => (k g.wake).play gs (g.others s)

/-! ## Costs -/

/-- Every step draws its cost on what is left of the allowance; if the
environment stays inside `R`, the task ends in `Q` with what is left then. -/
def Co.Costs (cost : σ → σ → Nat) (R : σ → σ → Prop) (Q : Except ε α → Nat → σ → Prop) :
    Co σ ε α → Nat → σ → Prop
  | .done r, n, s => Q r n s
  | .block k, n, s => ∀ e t, R s t → (k e).Costs cost R Q n t
  | .act f k, n, s => cost s (f s) ≤ n ∧ (k s).Costs cost R Q (n - cost s (f s)) (f s)
  | .await k, n, s => ∀ w t, R s t → (k w).Costs cost R Q n t

section

variable {cost : σ → σ → Nat} {R : σ → σ → Prop} {n : Nat} {s t : σ}

theorem Gap.raised_rely (htrans : ∀ {s t u}, R s t → R t u → R s u)
    {gs rest : List (Gap σ ε)} (hR : ∀ g ∈ gs, ∀ s, R s (g.others s)) {e : ε}
    (h : Gap.raised gs s = some (e, rest, t)) : R s t ∧ ∀ g ∈ rest, ∀ s, R s (g.others s) := by
  induction gs generalizing s with
  | nil => cases h
  | cons g gs ih =>
    have hR' : ∀ g ∈ gs, ∀ s, R s (g.others s) := fun x hx => hR x (List.mem_cons_of_mem _ hx)
    have hg := hR g List.mem_cons_self s
    unfold Gap.raised at h
    split at h
    · have hrest := ih hR' h
      exact ⟨htrans hg hrest.1, hrest.2⟩
    · cases h
      exact ⟨hg, hR'⟩

/-- **Costs.** The steps of a run cost no more than was allowed. -/
theorem Co.Costs.play_le {Q : Except ε α → Nat → σ → Prop}
    (htrans : ∀ {s t u}, R s t → R t u → R s u) {c : Co σ ε α} {gs : List (Gap σ ε)}
    (hR : ∀ g ∈ gs, ∀ s, R s (g.others s)) (h : c.Costs cost R Q n s) :
    ((c.play gs s).map fun p => cost p.1 p.2).sum ≤ n := by
  induction c generalizing gs n s with
  | done r => exact Nat.zero_le n
  | block k ih =>
    unfold Co.play
    split
    · rename_i e rest t hraised
      have hrest := Gap.raised_rely (R := R) htrans hR hraised
      exact ih e hrest.2 (h e t hrest.1)
    · exact Nat.zero_le n
  | act f k ih =>
    have hk := ih s hR h.2
    have hf := h.1
    unfold Co.play
    rw [List.map_cons, List.sum_cons]
    show cost s (f s) + _ ≤ n
    omega
  | await k ih =>
    cases gs with
    | nil => exact Nat.zero_le n
    | cons g gs =>
      exact ih g.wake (fun x hx => hR x (List.mem_cons_of_mem _ hx))
        (h g.wake _ (hR g List.mem_cons_self s))

namespace Co

variable {Q Q' : Except ε α → Nat → σ → Prop}

theorem Costs.mono {c : Co σ ε α} (hQ : ∀ r m t, Q r m t → Q' r m t) :
    ∀ {n s}, c.Costs cost R Q n s → c.Costs cost R Q' n s := by
  induction c with
  | done r => exact fun hc => hQ _ _ _ hc
  | block k ih => exact fun hc e t ht => ih e (hc e t ht)
  | act f k ih => exact fun hc => ⟨hc.1, ih _ hc.2⟩
  | await k ih => exact fun hc w t ht => ih w (hc w t ht)

/-- Sequencing: the continuation is allowed what is left. -/
theorem costs_bind {c : Co σ ε β} {g : β → Co σ ε α} :
    ∀ {n s}, c.Costs cost R (fun r m t => match r with
      | .ok b => (g b).Costs cost R Q m t
      | .error e => Q (.error e) m t) n s →
    (c >>= g).Costs cost R Q n s := by
  induction c with
  | done r =>
    intro n s hc
    cases r with
    | ok b => exact hc
    | error e => exact hc
  | block k ih => exact fun hc e t ht => ih e (hc e t ht)
  | act f k ih => exact fun hc => ⟨hc.1, ih _ hc.2⟩
  | await k ih => exact fun hc w t ht => ih w (hc w t ht)

theorem costs_get {Q : Except ε σ → Nat → σ → Prop} (hfree : cost s s = 0) (h : Q (.ok s) n s) :
    (get : Co σ ε σ).Costs cost R Q n s := by
  refine ⟨?_, ?_⟩
  · show cost s s ≤ n
    omega
  · show Q (.ok s) (n - cost s s) s
    rwa [hfree]

theorem costs_modify {f : σ → σ} {Q : Except ε Unit → Nat → σ → Prop} (hle : cost s (f s) ≤ n)
    (h : Q (.ok ()) (n - cost s (f s)) (f s)) :
    (modify f : Co σ ε Unit).Costs cost R Q n s := ⟨hle, h⟩

end Co

/-! ## Free tasks -/

/-- Every update of the task meets `P`. -/
def Co.All (P : (σ → σ) → Prop) : Co σ ε α → Prop
  | .done _ => True
  | .block k => ∀ e, (k e).All P
  | .act f k => P f ∧ ∀ s, (k s).All P
  | .await k => ∀ w, (k w).All P

namespace Co

variable {P : (σ → σ) → Prop}

theorem all_pure {a : α} : (pure a : Co σ ε α).All P := trivial

theorem all_throw {e : ε} : (throw e : Co σ ε α).All P := trivial

theorem all_bind {c : Co σ ε β} {g : β → Co σ ε α} (hc : c.All P) (hg : ∀ b, (g b).All P) :
    (c >>= g).All P := by
  induction c with
  | done r =>
    cases r with
    | ok b => exact hg b
    | error e => trivial
  | block k ih => exact fun e => ih e (hc e)
  | act f k ih => exact ⟨hc.1, fun s => ih s (hc.2 s)⟩
  | await k ih => exact fun w => ih w (hc w)

theorem all_tryCatch {c : Co σ ε α} {h : ε → Co σ ε α} (hc : c.All P) (hh : ∀ e, (h e).All P) :
    (tryCatch c h).All P := by
  induction c with
  | done r =>
    cases r with
    | ok b => trivial
    | error e => exact hh e
  | block k ih => exact fun e => ih e (hc e)
  | act f k ih => exact ⟨hc.1, fun s => ih s (hc.2 s)⟩
  | await k ih => exact fun w => ih w (hc w)

theorem all_get (hid : P id) : (get : Co σ ε σ).All P := ⟨hid, fun _ => trivial⟩

theorem all_modify {f : σ → σ} (hf : P f) : (modify f : Co σ ε Unit).All P :=
  ⟨hf, fun _ => trivial⟩

theorem all_suspend : (suspend : Co σ ε Unit).All P := by
  intro w
  cases w <;> trivial

/-- A task whose updates are free and stay inside the rely leaves its
allowance. -/
theorem All.costs {Q : Except ε α → Nat → σ → Prop} (hrefl : ∀ s, R s s)
    (htrans : ∀ {s t u}, R s t → R t u → R s u)
    (hP : ∀ f, P f → ∀ s, cost s (f s) = 0 ∧ R s (f s)) {c : Co σ ε α} (hc : c.All P)
    (hQ : ∀ r t, R s t → Q r n t) : c.Costs cost R Q n s := by
  induction c generalizing s with
  | done r => exact hQ r s (hrefl s)
  | block k ih => exact fun e t ht => ih e (hc e) fun r u hu => hQ r u (htrans ht hu)
  | act f k ih =>
    obtain ⟨hfree, hf⟩ := hP f hc.1 s
    refine ⟨by omega, ?_⟩
    rw [hfree]
    exact ih s (hc.2 s) fun r u hu => hQ r u (htrans hf hu)
  | await k ih => exact fun w t ht => ih w (hc w) fun r u hu => hQ r u (htrans ht hu)

end Co
end
end Coop
