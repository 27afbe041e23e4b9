import Northstack.Core.Task

/-!
# Rules for cooperative tasks

Rely/guarantee reasoning for the tasks of `Core.Task`.

* `Co.Sat G R Q`: every step of the task is in its guarantee `G`; as long as
  the steps of the others between its awaits are in its rely `R`, it ends in
  `Q`. One rule per constructor and combinator.
* `interleave_meets`: siblings whose guarantees imply each other's relies all
  reach their own `Q`, whatever order the environment wakes them in and
  wherever it cancels.
* `Main.wp`: what the awaiting task ensures of every return, every exception
  and every suspension, over all inputs; `Main.Steady` is the triple for code
  whose exceptions and suspensions all leave one kind of state.
-/
namespace Coop

variable {σ ε α β κ : Type}

/-! ## One task -/

/-- The task meets `Q` from `s`, step by step inside `G`, if the environment
stays inside `R`. -/
def Co.Sat (G R : σ → σ → Prop) (Q : Except ε α → σ → Prop) : Co σ ε α → σ → Prop
  | .done r, s => Q r s
  | .block k, s => ∀ e t, R s t → (k e).Sat G R Q t
  | .act f k, s => G s (f s) ∧ (k s).Sat G R Q (f s)
  | .await k, s => ∀ w t, R s t → (k w).Sat G R Q t

/-- The same for a suspended task; it tolerates any further step of `R`. -/
def Head.Sat (G R : σ → σ → Prop) (Q : Except ε α → σ → Prop) : Head σ ε α → σ → Prop
  | .done r, s => Q r s
  | .block k, s => ∀ e t, R s t → (k e).Sat G R Q t
  | .await k, s => ∀ w t, R s t → (k w).Sat G R Q t

namespace Co

variable {G R : σ → σ → Prop} {Q Q' : Except ε α → σ → Prop} {s : σ}

theorem Sat.mono {c : Co σ ε α} (h : ∀ r t, Q r t → Q' r t) :
    ∀ {s}, c.Sat G R Q s → c.Sat G R Q' s := by
  induction c with
  | done r => exact fun hc => h _ _ hc
  | block k ih => exact fun hc e t hR => ih e (hc e t hR)
  | act f k ih => exact fun hc => ⟨hc.1, ih _ hc.2⟩
  | await k ih => exact fun hc w t hR => ih w (hc w t hR)

/-- A preorder that the task and the environment both keep holds from start to
end. -/
theorem Sat.frame {A : σ → σ → Prop} (hrefl : ∀ s, A s s)
    (htrans : ∀ {s t u}, A s t → A t u → A s u) (hG : ∀ s t, G s t → A s t)
    (hR : ∀ s t, R s t → A s t) {c : Co σ ε α} :
    ∀ {s}, c.Sat G R Q s → c.Sat G R (fun r t => Q r t ∧ A s t) s := by
  induction c with
  | done r => exact fun hc => ⟨hc, hrefl _⟩
  | block k ih =>
    exact fun hc e t ht => (ih e (hc e t ht)).mono fun _ _ h => ⟨h.1, htrans (hR _ _ ht) h.2⟩
  | act f k ih =>
    exact fun hc => ⟨hc.1, (ih _ hc.2).mono fun _ _ h => ⟨h.1, htrans (hG _ _ hc.1) h.2⟩⟩
  | await k ih =>
    exact fun hc w t ht => (ih w (hc w t ht)).mono fun _ _ h => ⟨h.1, htrans (hR _ _ ht) h.2⟩

/-- Sequencing: an exception skips the continuation. -/
theorem sat_bind {c : Co σ ε β} {g : β → Co σ ε α} :
    ∀ {s}, c.Sat G R (fun r t => match r with
      | .ok b => (g b).Sat G R Q t
      | .error e => Q (.error e) t) s →
    (c >>= g).Sat G R Q s := by
  induction c with
  | done r =>
    intro s hc
    cases r with
    | ok b => exact hc
    | error e => exact hc
  | block k ih => exact fun hc e t hR => ih e (hc e t hR)
  | act f k ih => exact fun hc => ⟨hc.1, ih _ hc.2⟩
  | await k ih => exact fun hc w t hR => ih w (hc w t hR)

theorem sat_tryCatch {c : Co σ ε α} {h : ε → Co σ ε α} :
    ∀ {s}, c.Sat G R (fun r t => match r with
      | .ok a => Q (.ok a) t
      | .error e => (h e).Sat G R Q t) s →
    (tryCatch c h).Sat G R Q s := by
  induction c with
  | done r =>
    intro s hc
    cases r with
    | ok b => exact hc
    | error e => exact hc
  | block k ih => exact fun hc e t hR => ih e (hc e t hR)
  | act f k ih => exact fun hc => ⟨hc.1, ih _ hc.2⟩
  | await k ih => exact fun hc w t hR => ih w (hc w t hR)

theorem sat_get (hG : G s s) {Q : Except ε σ → σ → Prop} (h : Q (.ok s) s) :
    (get : Co σ ε σ).Sat G R Q s := ⟨hG, h⟩

theorem sat_modify {f : σ → σ} {Q : Except ε Unit → σ → Prop} (hG : G s (f s))
    (h : Q (.ok ()) (f s)) : (modify f : Co σ ε Unit).Sat G R Q s := ⟨hG, h⟩

theorem sat_suspend {Q : Except ε Unit → σ → Prop} (hok : ∀ t, R s t → Q (.ok ()) t)
    (hraise : ∀ e t, R s t → Q (.error e) t) : (suspend : Co σ ε Unit).Sat G R Q s := by
  intro w t hR
  cases w with
  | resume => exact hok t hR
  | raise e => exact hraise e t hR

/-- Running up to the next await composes steps of the guarantee. -/
theorem settle_sat {c : Co σ ε α} (hrefl : ∀ s, G s s)
    (htrans : ∀ {s t u}, G s t → G t u → G s u) :
    ∀ {s}, c.Sat G R Q s → G s (c.settle s).2 ∧ (c.settle s).1.Sat G R Q (c.settle s).2 := by
  induction c with
  | done r => exact fun hc => ⟨hrefl _, hc⟩
  | block k _ => exact fun hc => ⟨hrefl _, hc⟩
  | act f k ih =>
    intro s hc
    have hk := ih s hc.2
    exact ⟨htrans hc.1 hk.1, hk.2⟩
  | await k _ => exact fun hc => ⟨hrefl _, hc⟩

end Co

/-! ## A relation as a pair of preorders -/

/-- What the rules ask of a sibling's guarantee, rely and postcondition. -/
structure Contract (G R : σ → σ → Prop) (Q : Except ε α → σ → Prop) : Prop where
  refl : ∀ s, G s s
  trans : ∀ {s t u}, G s t → G t u → G s u
  relyRefl : ∀ s, R s s
  relyTrans : ∀ {s t u}, R s t → R t u → R s u
  stable : ∀ {r s t}, Q r s → R s t → Q r t

namespace Head

variable {G R : σ → σ → Prop} {Q : Except ε α → σ → Prop} {s t : σ}

theorem Sat.stable (hC : Contract G R Q) {h : Head σ ε α} (hh : h.Sat G R Q s) (hR : R s t) :
    h.Sat G R Q t := by
  cases h with
  | done r => exact hC.stable hh hR
  | block k => exact fun e u hu => hh e u (hC.relyTrans hR hu)
  | await k => exact fun w u hu => hh w u (hC.relyTrans hR hu)

theorem wake_sat (hC : Contract G R Q) {h : Head σ ε α} (w : Wake ε) (hh : h.Sat G R Q s) :
    G s (h.wake w s).2 ∧ (h.wake w s).1.Sat G R Q (h.wake w s).2 := by
  cases h with
  | done r => exact ⟨hC.refl _, hh⟩
  | block k =>
    cases w with
    | resume => exact ⟨hC.refl _, hh⟩
    | raise e => exact Co.settle_sat hC.refl hC.trans (hh e s (hC.relyRefl s))
  | await k => exact Co.settle_sat hC.refl hC.trans (hh w s (hC.relyRefl s))

end Head

/-! ## Siblings -/

section Siblings

variable {G R : κ → σ → σ → Prop} {Q : κ → Except ε α → σ → Prop}

/-- Each side's guarantee is tolerated by the other's rely. -/
def Compatible (G R : κ → σ → σ → Prop) (i j : κ) : Prop :=
  (∀ s t, G i s t → R j s t) ∧ (∀ s t, G j s t → R i s t)

/-- Every sibling is on its way to its own postcondition. -/
def AllSat (G R : κ → σ → σ → Prop) (Q : κ → Except ε α → σ → Prop) (ks : List κ)
    (cs : List (Child σ ε α)) (s : σ) : Prop :=
  List.Forall₂ (fun k c => c.head.Sat (G k) (R k) (Q k) s) ks cs

theorem AllSat.stable (hC : ∀ k, Contract (G k) (R k) (Q k)) {ks : List κ}
    {cs : List (Child σ ε α)} {s t : σ} (h : AllSat G R Q ks cs s) (hR : ∀ k ∈ ks, R k s t) :
    AllSat G R Q ks cs t := by
  induction h with
  | nil => exact .nil
  | cons hc _ ih =>
    exact .cons (hc.stable (hC _) (hR _ (by simp))) (ih fun k hk => hR k (by simp [hk]))

theorem AllSat.markCancel {ks : List κ} {cs : List (Child σ ε α)} {s : σ}
    (h : AllSat G R Q ks cs s) : AllSat G R Q ks (cs.map Child.markCancel) s := by
  induction h with
  | nil => exact .nil
  | cons hc _ ih => exact .cons hc ih

/-- One wake moves at most one sibling, by a step of its own guarantee. -/
theorem wakeAt_sat (cancelled : ε) (hC : ∀ k, Contract (G k) (R k) (Q k)) (w : Wake ε)
    {ks : List κ} {cs : List (Child σ ε α)} {s : σ}
    (hks : ks.Pairwise (Compatible G R)) (h : AllSat G R Q ks cs s) (n : Nat) :
    ((wakeAt cancelled cs n w s).2 = s ∨ ∃ k ∈ ks, G k s (wakeAt cancelled cs n w s).2) ∧
      AllSat G R Q ks (wakeAt cancelled cs n w s).1 (wakeAt cancelled cs n w s).2 := by
  induction h generalizing n with
  | nil => exact ⟨.inl rfl, .nil⟩
  | @cons k c ks cs hc hcs ih =>
    obtain ⟨hk, hks⟩ := List.pairwise_cons.mp hks
    cases n with
    | zero =>
      have hw := Head.wake_sat (hC k) (if c.cancel then .raise cancelled else w) hc
      refine ⟨.inr ⟨k, by simp, hw.1⟩, .cons hw.2 ?_⟩
      exact AllSat.stable hC hcs fun j hj => (hk j hj).1 _ _ hw.1
    | succ n =>
      obtain ⟨hstep, hall⟩ := ih hks n
      rcases hstep with hs | ⟨j, hj, hG⟩
      · refine ⟨.inl hs, .cons ?_ hall⟩
        simpa only [wakeAt, hs] using hc
      · exact ⟨.inr ⟨j, by simp [hj], hG⟩, .cons (hc.stable (hC k) ((hk j hj).2 _ _ hG)) hall⟩

theorem results_sat {ks : List κ} {cs : List (Child σ ε α)} {s : σ}
    (h : AllSat G R Q ks cs s) : ∀ {rs}, results cs = some rs →
      List.Forall₂ (fun k r => Q k r s) ks rs := by
  induction h with
  | nil =>
    intro rs hrs
    cases hrs
    exact .nil
  | @cons k c ks cs hc _ ih =>
    intro rs hrs
    unfold results at hrs
    split at hrs
    · rename_i r hr
      obtain ⟨rs', hrs', rfl⟩ := Option.map_eq_some_iff.mp hrs
      rw [hr] at hc
      exact .cons hc (ih hrs')
    · cases hrs

/-- The siblings start suspended before their bodies. -/
theorem group_sat {ks : List κ} {cs : List (Co σ ε α)} {s : σ}
    (h : List.Forall₂ (fun k c =>
      (∀ t, R k s t → c.Sat (G k) (R k) (Q k) t) ∧ ∀ e t, R k s t → Q k (.error e) t) ks cs) :
    AllSat G R Q ks (group cs) s := by
  induction h with
  | nil => exact .nil
  | cons hc _ ih =>
    refine .cons ?_ ih
    intro w t hR
    cases w with
    | resume => exact hc.1 t hR
    | raise e => exact hc.2 e t hR

end Siblings

/-! ## The awaiting task -/

/-- What is known of each way a run can stand. -/
structure Post (σ ε α : Type) where
  ret : α → σ → Prop
  raise : ε → σ → Prop
  wait : σ → Prop

def Out.Meets (Q : Post σ ε α) : Out σ ε α → Prop
  | .ret a _ s => Q.ret a s
  | .raise e _ s => Q.raise e s
  | .wait s => Q.wait s

theorem Out.Meets.mono {Q Q' : Post σ ε α} {o : Out σ ε α} (h : o.Meets Q)
    (hret : ∀ a s, Q.ret a s → Q'.ret a s) (hraise : ∀ e s, Q.raise e s → Q'.raise e s)
    (hwait : ∀ s, Q.wait s → Q'.wait s) : o.Meets Q' := by
  cases o with
  | ret a is s => exact hret a s h
  | raise e is s => exact hraise e s h
  | wait s => exact hwait s h

/-- Siblings run together reach their postconditions in one common state, and
whatever they did composes into `A`. -/
theorem interleave_meets (cancelled : ε) {G R : κ → σ → σ → Prop}
    {Q : κ → Except ε α → σ → Prop} {A : σ → σ → Prop} {ks : List κ}
    (hC : ∀ k, Contract (G k) (R k) (Q k)) (hks : ks.Pairwise (Compatible G R))
    (hrefl : ∀ s, A s s) (htrans : ∀ {s t u}, A s t → A t u → A s u)
    (hGA : ∀ k ∈ ks, ∀ s t, G k s t → A s t) (is : List (Input ε)) :
    ∀ {cs : List (Child σ ε α)} {req : Bool} {s : σ}, AllSat G R Q ks cs s →
    (interleave cancelled is cs req s).Meets
      { ret := fun r t => A s t ∧ List.Forall₂ (fun k r => Q k r t) ks r.1
        raise := fun _ _ => False
        wait := fun t => A s t } := by
  induction is with
  | nil =>
    intro cs req s h
    unfold interleave
    split
    · rename_i rs hrs
      exact ⟨hrefl s, results_sat h hrs⟩
    · exact hrefl s
  | cons i is ih =>
    intro cs req s h
    unfold interleave
    split
    · rename_i rs hrs
      exact ⟨hrefl s, results_sat h hrs⟩
    · split
      · rename_i n w
        obtain ⟨hstep, hall⟩ := wakeAt_sat cancelled hC w hks h n
        have hA : A s (wakeAt cancelled cs n w s).2 := by
          rcases hstep with hs | ⟨k, hk, hG⟩
          · rw [hs]
            exact hrefl s
          · exact hGA k hk _ _ hG
        exact (ih hall).mono (fun _ _ hr => ⟨htrans hA hr.1, hr.2⟩) (fun _ _ hf => hf)
          (fun _ hw => htrans hA hw)
      · exact ih h.markCancel
      · exact ih h.markCancel
      · exact ih h

namespace Main

/-- Every run of `m` from `s` meets `Q`, whatever the inputs. -/
def wp (m : Main σ ε α) (Q : Post σ ε α) (s : σ) : Prop :=
  ∀ is, (m is s).Meets Q

variable {Q Q' : Post σ ε α} {s : σ}

theorem wp_mono {m : Main σ ε α} (h : m.wp Q s) (hret : ∀ a t, Q.ret a t → Q'.ret a t)
    (hraise : ∀ e t, Q.raise e t → Q'.raise e t) (hwait : ∀ t, Q.wait t → Q'.wait t) :
    m.wp Q' s :=
  fun is => (h is).mono hret hraise hwait

theorem wp_pure {a : α} (h : Q.ret a s) : (pure a : Main σ ε α).wp Q s :=
  fun _ => h

theorem wp_throw {e : ε} (h : Q.raise e s) : (throw e : Main σ ε α).wp Q s :=
  fun _ => h

theorem wp_bind {m : Main σ ε β} {g : β → Main σ ε α}
    (h : m.wp { ret := fun b t => (g b).wp Q t, raise := Q.raise, wait := Q.wait } s) :
    (m >>= g).wp Q s := by
  intro is
  have hm := h is
  show (Main.bind m g is s).Meets Q
  unfold Main.bind
  cases hms : m is s with
  | ret b rest t =>
    rw [hms] at hm
    exact hm rest
  | raise e rest t =>
    rw [hms] at hm
    exact hm
  | wait t =>
    rw [hms] at hm
    exact hm

theorem wp_tryCatch {m : Main σ ε α} {h : ε → Main σ ε α}
    (hm : m.wp { ret := Q.ret, raise := fun e t => (h e).wp Q t, wait := Q.wait } s) :
    (tryCatch m h).wp Q s := by
  intro is
  have hm := hm is
  show (Main.tryCatch m h is s).Meets Q
  unfold Main.tryCatch
  cases hms : m is s with
  | ret b rest t =>
    rw [hms] at hm
    exact hm
  | raise e rest t =>
    rw [hms] at hm
    exact hm rest
  | wait t =>
    rw [hms] at hm
    exact hm

theorem wp_get {Q : Post σ ε σ} (h : Q.ret s s) : (get : Main σ ε σ).wp Q s :=
  fun _ => h

theorem wp_modify {f : σ → σ} {Q : Post σ ε Unit} (h : Q.ret () (f s)) :
    (modify f : Main σ ε Unit).wp Q s :=
  fun _ => h

theorem wp_await {Q : Post σ ε (Wake ε)} (hwait : Q.wait s) (h : ∀ w, Q.ret w s) :
    (await : Main σ ε (Wake ε)).wp Q s := by
  intro is
  induction is with
  | nil => exact hwait
  | cons i is ih =>
    cases i with
    | wake w => exact h w
    | child n w => exact ih
    | flag b => exact ih

theorem wp_suspend {Q : Post σ ε Unit} (hwait : Q.wait s) (hret : Q.ret () s)
    (hraise : ∀ e, Q.raise e s) : (suspend : Main σ ε Unit).wp Q s := by
  apply wp_bind
  apply wp_await hwait
  intro w
  cases w with
  | resume => exact wp_pure hret
  | raise e => exact wp_throw (hraise e)

theorem wp_observe {Q : Post σ ε Bool} (hwait : Q.wait s) (h : ∀ b, Q.ret b s) :
    (observe : Main σ ε Bool).wp Q s := by
  intro is
  induction is with
  | nil => exact hwait
  | cons i is ih =>
    cases i with
    | wake w => exact ih
    | child n w => exact ih
    | flag b => exact h b

/-- A shielded await ends as its operation does; the exception it may return
beside is a cancellation. -/
theorem wp_shield {isCancel : ε → Bool} {Q : Post σ ε (Wake ε × Option ε)} (hwait : Q.wait s)
    (hok : ∀ c, (∀ e ∈ c, isCancel e = true) → Q.ret (.resume, c) s)
    (hraise : ∀ e c, isCancel e = false → Q.ret (.raise e, c) s) :
    (shield isCancel none : Main σ ε (Wake ε × Option ε)).wp Q s := by
  suffices h : ∀ is c, (∀ e ∈ c, isCancel e = true) →
      ((shield isCancel c : Main σ ε _) is s).Meets Q from fun is => h is none (by simp)
  intro is
  induction is with
  | nil => exact fun _ _ => hwait
  | cons i is ih =>
    intro c hc
    cases i with
    | wake w =>
      cases w with
      | resume => exact hok c hc
      | raise e =>
        unfold shield
        split
        · rename_i he
          exact ih (some e) (by simpa using he)
        · rename_i he
          exact hraise e c (by simpa using he)
    | child n w => exact ih c hc
    | flag b => exact ih c hc

/-- Siblings awaited together. -/
theorem wp_gather (cancelled : ε) {G R : κ → σ → σ → Prop} {Qs : κ → Except ε α → σ → Prop}
    {A : σ → σ → Prop} {ks : List κ} {cs : List (Co σ ε α)}
    {Q : Post σ ε (List (Except ε α) × Bool)}
    (hC : ∀ k, Contract (G k) (R k) (Qs k)) (hks : ks.Pairwise (Compatible G R))
    (hrefl : ∀ s, A s s) (htrans : ∀ {s t u}, A s t → A t u → A s u)
    (hGA : ∀ k ∈ ks, ∀ s t, G k s t → A s t)
    (h : List.Forall₂ (fun k c =>
      (∀ t, R k s t → c.Sat (G k) (R k) (Qs k) t) ∧ ∀ e t, R k s t → Qs k (.error e) t) ks cs)
    (hret : ∀ rs req t, A s t → List.Forall₂ (fun k r => Qs k r t) ks rs → Q.ret (rs, req) t)
    (hwait : ∀ t, A s t → Q.wait t) :
    (gather cancelled cs : Main σ ε _).wp Q s := by
  intro is
  refine (interleave_meets cancelled hC hks hrefl htrans hGA is (group_sat h)).mono ?_ ?_ ?_
  · exact fun r t hr => hret r.1 r.2 t hr.1 hr.2
  · exact fun _ _ hf => hf.elim
  · exact fun t ht => hwait t ht

/-! ## Triples -/

/-- From `s` a return meets `Q`, an exception leaves a state in `fails`, and
every suspension is in `wait`. -/
def Steady (fails wait : σ → Prop) (m : Main σ ε α) (Q : α → σ → Prop) (s : σ) : Prop :=
  m.wp { ret := Q, raise := fun _ t => fails t, wait := wait } s

section Steady

variable {fails fails' wait wait' : σ → Prop} {Q Q' : α → σ → Prop} {s : σ}

theorem Steady.weaken {m : Main σ ε α} (hm : Steady fails wait m Q s)
    (hQ : ∀ a t, Q a t → Q' a t) (ho : ∀ t, fails t → fails' t) (hw : ∀ t, wait t → wait' t) :
    Steady fails' wait' m Q' s :=
  wp_mono hm hQ (fun _ => ho) hw

theorem Steady.mono {m : Main σ ε α} (hm : Steady fails wait m Q s)
    (hQ : ∀ a t, Q a t → Q' a t) : Steady fails wait m Q' s :=
  hm.weaken hQ (fun _ h => h) fun _ h => h

theorem steady_pure {a : α} (h : Q a s) : Steady fails wait (pure a : Main σ ε α) Q s :=
  wp_pure h

theorem steady_throw {e : ε} (h : fails s) : Steady fails wait (throw e : Main σ ε α) Q s :=
  wp_throw h

theorem Steady.seq {m : Main σ ε β} {g : β → Main σ ε α} {P : β → σ → Prop}
    (hm : Steady fails wait m P s) (h : ∀ b t, P b t → Steady fails wait (g b) Q t) :
    Steady fails wait (m >>= g) Q s :=
  wp_bind (wp_mono hm h (fun _ _ h => h) fun _ h => h)

theorem steady_get {g : σ → Main σ ε α} (h : Steady fails wait (g s) Q s) :
    Steady fails wait (get >>= g) Q s :=
  wp_bind (wp_get h)

theorem steady_modify {f : σ → σ} {g : Unit → Main σ ε α}
    (h : Steady fails wait (g ()) Q (f s)) : Steady fails wait (modify f >>= g) Q s :=
  wp_bind (wp_modify h)

theorem steady_await {g : Wake ε → Main σ ε α} (hw : wait s)
    (hg : ∀ w, Steady fails wait (g w) Q s) : Steady fails wait (await >>= g) Q s :=
  wp_bind (wp_await hw hg)

theorem steady_observe {g : Bool → Main σ ε α} (hw : wait s)
    (hg : ∀ b, Steady fails wait (g b) Q s) : Steady fails wait (observe >>= g) Q s :=
  wp_bind (wp_observe hw hg)

end Steady

end Main
end Coop
