import Mathlib

/-!
# Cooperative tasks

Single-threaded asynchronous code interleaves only at its awaits. A task is a
resumption tree (`Co`): atomic sections over a shared state, separated by
awaits at which the environment either lets the awaited operation complete or
raises an exception into the task (`Wake`), a cancellation being one of them.

* `Co.settle` runs a task's code up to its next await.
* `interleave` runs a group of sibling tasks: the environment picks which one
  wakes, any of them may be woken with an exception, and the task awaiting the
  group (or an observer) may cancel it, which marks every unfinished sibling.
* `Main` is the task that awaits groups: it consumes the environment's inputs
  one await after another. A run whose inputs end early is suspended
  (`Out.wait`), so the states of all input lists are the states of all runs.
-/
namespace Coop

/-- How an await ends: the awaited operation completes, or an exception is
raised at the await. -/
inductive Wake (ε : Type) where
  | resume
  | raise (e : ε)

/-- One move of the environment. `child` and `flag` only matter to a task that
awaits a group; `flag` also answers `Main.observe`. -/
inductive Input (ε : Type) where
  | wake (w : Wake ε)
  | child (i : Nat) (w : Wake ε)
  | flag (b : Bool)

/-- A task: `act` is code between two awaits, `block` an await whose operation
never completes, so that only an exception ends it. -/
inductive Co (σ ε α : Type) where
  | done (r : Except ε α)
  | block (k : ε → Co σ ε α)
  | act (f : σ → σ) (k : σ → Co σ ε α)
  | await (k : Wake ε → Co σ ε α)

/-- A task that has run up to an await, or ended. -/
inductive Head (σ ε α : Type) where
  | done (r : Except ε α)
  | block (k : ε → Co σ ε α)
  | await (k : Wake ε → Co σ ε α)

variable {σ ε α β : Type}

namespace Co

def bind : Co σ ε α → (α → Co σ ε β) → Co σ ε β
  | .done (.ok a), g => g a
  | .done (.error e), _ => .done (.error e)
  | .block k, g => .block fun e => (k e).bind g
  | .act f k, g => .act f fun s => (k s).bind g
  | .await k, g => .await fun w => (k w).bind g

def tryCatch : Co σ ε α → (ε → Co σ ε α) → Co σ ε α
  | .done (.ok a), _ => .done (.ok a)
  | .done (.error e), h => h e
  | .block k, h => .block fun e => (k e).tryCatch h
  | .act f k, h => .act f fun s => (k s).tryCatch h
  | .await k, h => .await fun w => (k w).tryCatch h

instance : Monad (Co σ ε) where
  pure a := .done (.ok a)
  bind := bind

instance : MonadExcept ε (Co σ ε) where
  throw e := .done (.error e)
  tryCatch := tryCatch

def get : Co σ ε σ := .act id fun s => .done (.ok s)

def modify (f : σ → σ) : Co σ ε Unit := .act f fun _ => .done (.ok ())

/-- An await whose operation is the environment's: it completes, or raises. -/
def suspend : Co σ ε Unit := .await fun
  | .resume => .done (.ok ())
  | .raise e => .done (.error e)

/-- The first await of a spawned task: cancelled before it starts, it never
runs its body. -/
def spawn (c : Co σ ε α) : Co σ ε α := .await fun
  | .resume => c
  | .raise e => .done (.error e)

/-- Run the code up to the next await. -/
def settle : Co σ ε α → σ → Head σ ε α × σ
  | .done r, s => (.done r, s)
  | .block k, s => (.block k, s)
  | .act f k, s => (k s).settle (f s)
  | .await k, s => (.await k, s)

end Co

/-- A suspended task is woken: it runs to its next await. -/
def Head.wake : Head σ ε α → Wake ε → σ → Head σ ε α × σ
  | .done r, _, s => (.done r, s)
  | .block k, .resume, s => (.block k, s)
  | .block k, .raise e, s => (k e).settle s
  | .await k, w, s => (k w).settle s

/-! ## Groups of sibling tasks -/

/-- A sibling and whether a cancellation awaits it at its next wake. -/
structure Child (σ ε α : Type) where
  head : Head σ ε α
  cancel : Bool := false

/-- A pending cancellation replaces whatever the await would have ended with. -/
def Child.wake (cancelled : ε) (c : Child σ ε α) (w : Wake ε) (s : σ) : Child σ ε α × σ :=
  let r := c.head.wake (if c.cancel then .raise cancelled else w) s
  ({ head := r.1 }, r.2)

def Child.markCancel (c : Child σ ε α) : Child σ ε α := { c with cancel := true }

def wakeAt (cancelled : ε) : List (Child σ ε α) → Nat → Wake ε → σ → List (Child σ ε α) × σ
  | [], _, _, s => ([], s)
  | c :: cs, 0, w, s => ((c.wake cancelled w s).1 :: cs, (c.wake cancelled w s).2)
  | c :: cs, i + 1, w, s =>
    (c :: (wakeAt cancelled cs i w s).1, (wakeAt cancelled cs i w s).2)

/-- The siblings' results, once all of them ended. -/
def results : List (Child σ ε α) → Option (List (Except ε α))
  | [] => some []
  | c :: cs => match c.head with
    | .done r => (results cs).map (r :: ·)
    | _ => none

/-- What a run has come to: it returned, it raised, or it is suspended at an
await for which no input is left. -/
inductive Out (σ ε α : Type) where
  | ret (a : α) (rest : List (Input ε)) (s : σ)
  | raise (e : ε) (rest : List (Input ε)) (s : σ)
  | wait (s : σ)

def Out.state : Out σ ε α → σ
  | .ret _ _ s => s
  | .raise _ _ s => s
  | .wait s => s

/-- The run has ended, by a return or by an exception. -/
def Out.ended : Out σ ε α → Bool
  | .wait _ => false
  | _ => true

/-- What the run has returned. -/
def Out.returned : Out σ ε α → Option α
  | .ret a _ _ => some a
  | _ => none

/-- Run siblings until all of them ended. The flag says whether the group was
cancelled on the way. -/
def interleave (cancelled : ε) :
    List (Input ε) → List (Child σ ε α) → Bool → σ → Out σ ε (List (Except ε α) × Bool)
  | [], cs, req, s => match results cs with
    | some rs => .ret (rs, req) [] s
    | none => .wait s
  | i :: is, cs, req, s => match results cs with
    | some rs => .ret (rs, req) (i :: is) s
    | none => match i with
      | .child n w =>
        interleave cancelled is (wakeAt cancelled cs n w s).1 req (wakeAt cancelled cs n w s).2
      | .wake (.raise _) => interleave cancelled is (cs.map Child.markCancel) true s
      | .flag true => interleave cancelled is (cs.map Child.markCancel) true s
      | _ => interleave cancelled is cs req s

/-- Start every sibling: each is suspended at the await before its body. -/
def group (cs : List (Co σ ε α)) : List (Child σ ε α) :=
  cs.map fun c => { head := .await fun
    | .resume => c
    | .raise e => .done (.error e) }

/-! ## The awaiting task -/

def Main (σ ε α : Type) := List (Input ε) → σ → Out σ ε α

namespace Main

def bind (m : Main σ ε α) (g : α → Main σ ε β) : Main σ ε β := fun is s =>
  match m is s with
  | .ret a is' t => g a is' t
  | .raise e is' t => .raise e is' t
  | .wait t => .wait t

def tryCatch (m : Main σ ε α) (h : ε → Main σ ε α) : Main σ ε α := fun is s =>
  match m is s with
  | .ret a is' t => .ret a is' t
  | .raise e is' t => h e is' t
  | .wait t => .wait t

instance : Monad (Main σ ε) where
  pure a := fun is s => .ret a is s
  bind := bind

instance : MonadExcept ε (Main σ ε) where
  throw e := fun is s => .raise e is s
  tryCatch := tryCatch

def get : Main σ ε σ := fun is s => .ret s is s

def modify (f : σ → σ) : Main σ ε Unit := fun is s => .ret () is (f s)

/-- Await a single operation; inputs meant for a group are skipped. -/
def await : Main σ ε (Wake ε)
  | [], s => .wait s
  | .wake w :: is, s => .ret w is s
  | _ :: is, s => await is s

def suspend : Main σ ε Unit := await >>= fun
  | .resume => pure ()
  | .raise e => throw e

/-- Await an operation that a cancellation does not interrupt: the wait goes on
until the operation itself ends, and the last cancellation is returned with
its end. -/
def shield (isCancel : ε → Bool) (c : Option ε) : Main σ ε (Wake ε × Option ε)
  | [], s => .wait s
  | .wake .resume :: is, s => .ret (.resume, c) is s
  | .wake (.raise e) :: is, s =>
    if isCancel e then shield isCancel (some e) is s else .ret (.raise e, c) is s
  | _ :: is, s => shield isCancel c is s

/-- A yes/no answer the environment gives without an await (a clock reading). -/
def observe : Main σ ε Bool
  | [], s => .wait s
  | .flag b :: is, s => .ret b is s
  | _ :: is, s => observe is s

/-- Await a group of siblings. -/
def gather (cancelled : ε) (cs : List (Co σ ε α)) : Main σ ε (List (Except ε α) × Bool) :=
  fun is s => interleave cancelled is (group cs) false s

end Main
end Coop
