import Mathlib

/-!
# Programs that make calls

A program runs in a world, which it and whoever it calls may change, and may raise;
its calls are noted in the order they are made. Nothing catches what is raised: a
program that raises has made the first of the calls it was going to make.

**Results.**
* `Follows.bind`, `Follows.mapM`: the calls of a program, from those of its parts.
* `Keeps.bind`, `Keeps.mapM`: what every part preserves holds after the program.
-/
namespace Calls

/-- A world, and the calls made in it so far. -/
structure World (σ κ : Type) where
  state : σ
  made : List κ

/-- A program: what it returns or raises, and the world after it. -/
def Program (σ κ ε α : Type) := World σ κ → Except ε α × World σ κ

namespace Program

variable {σ κ ε α β : Type}

protected def pure (a : α) : Program σ κ ε α := fun w => (.ok a, w)

protected def bind (x : Program σ κ ε α) (f : α → Program σ κ ε β) : Program σ κ ε β := fun w =>
  match x w with
  | (.ok a, w') => f a w'
  | (.error e, w') => (.error e, w')

instance : Monad (Program σ κ ε) where
  pure := Program.pure
  bind := Program.bind

/-- `raise e` -/
def raise (e : ε) : Program σ κ ε α := fun w => (.error e, w)

/-- One call; what it does may depend on the calls before it. -/
def call (k : κ) (act : List κ → σ → Except ε α × σ) : Program σ κ ε α := fun w =>
  ((act w.made w.state).1, { state := (act w.made w.state).2, made := w.made ++ [k] })

theorem bind_eq (x : Program σ κ ε α) (f : α → Program σ κ ε β) (w : World σ κ) :
    (x >>= f) w = match x w with
      | (.ok a, w') => f a w'
      | (.error e, w') => (.error e, w') := rfl

instance : LawfulMonad (Program σ κ ε) := LawfulMonad.mk' _
  (fun x => by
    funext w
    change (x >>= pure) w = x w
    rw [bind_eq]
    cases hr : x w with
    | mk r w' => cases r <;> rfl)
  (fun _ _ => rfl)
  (fun x f g => by
    funext w
    simp only [bind_eq]
    cases hr : x w with
    | mk r w' => cases r <;> rfl)

end Program

open Program

variable {σ κ ε α β : Type} {x : Program σ κ ε α} {f : α → Program σ κ ε β} {plan more : List κ}

/-! ## The calls of a program -/

/-- The calls of `x` are the first ones of the plan, and all of it unless it raises. -/
def Follows (x : Program σ κ ε α) (plan : List κ) : Prop :=
  ∀ w, ∃ done, (x w).2.made = w.made ++ done ∧ done <+: plan ∧
    ∀ a, (x w).1 = .ok a → done = plan

theorem Follows.pure (a : α) : Follows (pure a : Program σ κ ε α) [] :=
  fun _ => ⟨[], (List.append_nil _).symm, List.nil_prefix, fun _ _ => rfl⟩

theorem Follows.raise (e : ε) : Follows (raise e : Program σ κ ε α) plan :=
  fun _ => ⟨[], (List.append_nil _).symm, List.nil_prefix, fun _ h => by cases h⟩

theorem Follows.call (k : κ) (act : List κ → σ → Except ε α × σ) : Follows (call k act) [k] :=
  fun _ => ⟨[k], rfl, List.prefix_refl _, fun _ _ => rfl⟩

theorem Follows.bind (hx : Follows x plan) (hf : ∀ a, Follows (f a) more) :
    Follows (x >>= f) (plan ++ more) := by
  intro w
  obtain ⟨done, hmade, hpre, hall⟩ := hx w
  rw [bind_eq]
  cases hr : x w with
  | mk r w' =>
    rw [hr] at hmade hall
    cases r with
    | error e =>
      exact ⟨done, hmade, hpre.trans (List.prefix_append _ _), fun _ h => by cases h⟩
    | ok a =>
      obtain rfl := hall a rfl
      obtain ⟨done', hmade', hpre', hall'⟩ := hf a w'
      refine ⟨done ++ done', ?_, ?_, ?_⟩
      · dsimp only at hmade ⊢
        rw [hmade', hmade, List.append_assoc]
      · exact (List.prefix_append_right_inj _).mpr hpre'
      · intro b hb
        rw [hall' b hb]

theorem Follows.mapM {plan : α → List κ} (hf : ∀ a, Follows (f a) (plan a)) (as : List α) :
    Follows (as.mapM f) (as.flatMap plan) := by
  induction as with
  | nil => exact .pure []
  | cons a as ih =>
    rw [List.mapM_cons, List.flatMap_cons]
    refine (hf a).bind fun b => ?_
    have hrest := ih.bind fun bs => Follows.pure (σ := σ) (ε := ε) (b :: bs)
    rwa [List.append_nil] at hrest

/-- The calls of a loop that makes one call in each pass. -/
theorem Follows.mapM_one {g : α → κ} (hf : ∀ a, Follows (f a) [g a]) (as : List α) :
    Follows (as.mapM f) (as.map g) := by
  rw [List.map_eq_flatMap]
  exact .mapM hf as

/-! ## What holds after a program -/

/-- From worlds where `I` holds `x` ends in such a world with a result of which `Q`
holds, or raises and `E` holds. -/
def Keeps (I : World σ κ → Prop) (E : ε → World σ κ → Prop) (Q : α → Prop)
    (x : Program σ κ ε α) : Prop :=
  ∀ w, I w → (∀ a, (x w).1 = .ok a → Q a ∧ I (x w).2) ∧ ∀ e, (x w).1 = .error e → E e (x w).2

variable {I : World σ κ → Prop} {E : ε → World σ κ → Prop} {Q Q' : α → Prop} {R : β → Prop}

theorem Keeps.mono (hx : Keeps I E Q x) (h : ∀ a, Q a → Q' a) : Keeps I E Q' x := by
  intro w hw
  obtain ⟨hok, herr⟩ := hx w hw
  exact ⟨fun a ha => ⟨h a (hok a ha).1, (hok a ha).2⟩, herr⟩

theorem Keeps.pure {a : α} (ha : Q a) : Keeps I E Q (pure a : Program σ κ ε α) := by
  intro w hw
  constructor
  · intro b hb
    obtain rfl : a = b := Except.ok.inj hb
    exact ⟨ha, hw⟩
  · intro e he
    cases he

theorem Keeps.raise {e : ε} (he : ∀ w, I w → E e w) :
    Keeps I E Q (raise e : Program σ κ ε α) := by
  intro w hw
  constructor
  · intro a h
    cases h
  · intro e' h
    obtain rfl : e = e' := Except.error.inj h
    exact he w hw

theorem Keeps.bind (hx : Keeps I E Q x) (hf : ∀ a, Q a → Keeps I E R (f a)) :
    Keeps I E R (x >>= f) := by
  intro w hw
  obtain ⟨hok, herr⟩ := hx w hw
  rw [bind_eq]
  cases hr : x w with
  | mk r w' =>
    rw [hr] at hok herr
    cases r with
    | error e =>
      constructor
      · intro b h
        cases h
      · intro e' h
        obtain rfl : e = e' := Except.error.inj h
        exact herr e rfl
    | ok a =>
      obtain ⟨ha, hw'⟩ := hok a rfl
      exact hf a ha w' hw'

theorem Keeps.mapM (hf : ∀ a, Keeps I E R (f a)) (as : List α) :
    Keeps I E (fun bs => bs.length = as.length) (as.mapM f) := by
  induction as with
  | nil => exact .pure rfl
  | cons a as ih =>
    rw [List.mapM_cons]
    refine (hf a).bind fun b _ => ih.bind fun bs hbs => .pure ?_
    rw [List.length_cons, List.length_cons, hbs]

end Calls
