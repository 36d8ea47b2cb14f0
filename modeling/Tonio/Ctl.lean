import Tonio.Interleaving.Weight

/-!
# Waiting for coroutines

`select` and `block_on` of `_ctl.py` and `timeout` of `_time.py`, in both flavours. Each spawns a task for a coroutine (`select` one for
each of several), whose wrapper stores the outcome in the one slot of a `Result` and sets an event in its `finally` clause; the caller
waits for the event and reads the slot, which is `None` when nothing was stored. The wrappers store what is returned and what is raised if
it is an `Exception`; `CancelledError` is none.

`select` spawns in a scope and leaves it before it is through, which aborts the coroutines that are not; in the generator flavour it
cancels the scope before it reads the slot, in the other one after it. The exit of the scope is one operation here. A child begins when a
worker gets to it, and its coroutine ends when and how the environment decides, also when it is aborted. `stored` are the outcomes stored,
in order, `seen` those that were when the caller read the slot, and `unhandled` what left a wrapper; nothing reads these.
-/

namespace Tonio

namespace Ctl

open Interleaving

/-- Generators or `async` functions. -/
inductive Flavour where
  | gen | colored
  deriving DecidableEq, Repr

/-- The functions. -/
inductive Fn where
  | select (fl : Flavour) | blockOn (fl : Flavour) | timeout (fl : Flavour)
  deriving DecidableEq, Repr

/-- An exception: one of the class `Exception`, a `CancelledError`, or another that is only a `BaseException`. -/
inductive Exc where
  | exception (n : Nat) | cancelledError | base (n : Nat)
  deriving DecidableEq, Repr

variable {α : Type}

/-- How a coroutine ends. -/
inductive Outcome (α : Type) where
  | ret (v : α) | exc (e : Exc)
  deriving DecidableEq, Repr

/-- How a call ends: it returns `v`, `(v, True)` or `(None, False)`, raises, fails to unpack `None`, or is cancelled. -/
inductive Result (α : Type) where
  | returned (v : α) | completed (v : α) | timedOut | raised (e : Exc) | typeError | cancelled
  deriving DecidableEq, Repr

/-- The shared memory: the slot and the event; of the scope, its flag, the children, and their events; and the result of the call. -/
structure Mem (α : Type) where
  slot : Option (Outcome α)
  event : Bool
  cancelled : Bool
  spawned : Nat
  pending : List Nat
  childEvent : Nat → Bool
  result : Option (Result α)
  stored : List (Nat × Outcome α)
  seen : List (Outcome α)
  unhandled : List Exc

/-- The operations. -/
inductive Op (α : Type) where
  -- the wrapper of a coroutine, and the one of the scope around it
  | run (i : Nat) | store (i : Nat) (o : Outcome α) (leaves : Option Exc) | setEvent (i : Nat) (leaves : Option Exc) | childEnd (i : Nat)
  -- the caller
  | spawn (i : Nat) | wait | isSet | unwind | fetch
  | cancelScope (r : Option (Result α)) | yieldNow (r : Result α) | exit (r : Result α) | join (r : Result α) | ends (r : Result α)
  deriving DecidableEq, Repr

/-- What the environment decides: how a coroutine ends, that the deadline of a wait passes, that a task is cancelled where it waits. -/
inductive Choice (α : Type) where
  | go | finish (o : Outcome α) | deadline | cancel
  deriving DecidableEq, Repr

/-- `try: ret = yield coro; res.store((False, ret))`, `except Exception as exc: res.store((True, exc))`: whether the outcome is stored, and
what leaves the wrapper. -/
def passOn : Outcome α → Bool × Option Exc
  | .ret _ | .exc (.exception _) => (true, none)
  | .exc e => (false, some e)

/-- The wrapper of a function; that of `timeout` has a clause of its own for `CancelledError`, before the other. -/
def Fn.wrapper : Fn → Outcome α → Bool × Option Exc
  | .timeout _, .exc .cancelledError => (false, none)
  | _, o => passOn o

/-- What the caller makes of what it has read: `if is_err: raise ret`, `return ret` or `return ret, True`. -/
def Fn.settle : Fn → Outcome α → Result α
  | _, .exc e => .raised e
  | .timeout _, .ret v => .completed v
  | _, .ret v => .returned v

/-- What follows the wait. -/
def Fn.afterWait : Fn → Op α
  | .select .gen => .cancelScope none
  | .select .colored | .blockOn _ => .fetch
  | .timeout _ => .isSet

/-- What follows a wait that is cancelled: an `async with` leaves its scope on the way. `block_on` blocks its thread and is not cancelled.
-/
def Fn.waitCancelled : Fn → Option (Op α)
  | .select .colored => some (.yieldNow .cancelled)
  | .select .gen | .timeout _ => some (.ends .cancelled)
  | .blockOn _ => none

/-- What follows the reading of the slot. -/
def Fn.afterFetch (f : Fn) : Option (Outcome α) → Op α
  | some o =>
    match f with
    | .select .gen => .exit (f.settle o)
    | .select .colored => .cancelScope (some (f.settle o))
    | .blockOn _ | .timeout _ => .ends (f.settle o)
  | none =>
    match f with
    | .select .colored => .yieldNow .typeError
    | .select .gen | .blockOn _ | .timeout _ => .ends .typeError

/-- The loop that spawns the coroutines, and the wait after it. -/
def spawnNext (n i : Nat) : Op α := if i < n then .spawn i else .wait

/-- What an operation of a function does that is called with `n` coroutines. -/
def exec (f : Fn) (n : Nat) (m : Mem α) : Op α → Choice α → Option (Mem α × List (Op α))
  | .run i, .finish o =>
    some (m, [if (f.wrapper o).1 then .store i o (f.wrapper o).2 else .setEvent i (f.wrapper o).2])
  | .store i o leaves, .go => some ({ m with slot := some o, stored := m.stored ++ [(i, o)] }, [.setEvent i leaves])
  | .setEvent i leaves, .go => some ({ m with event := true, unhandled := m.unhandled ++ leaves.toList }, [.childEnd i])
  | .childEnd i, .go => some ({ m with childEvent := Function.update m.childEvent i true }, [])
  | .spawn i, .go => some ({ m with spawned := m.spawned + 1, pending := m.pending ++ [i] }, [spawnNext n (i + 1)])
  | .wait, .go => if m.event then some (m, [f.afterWait]) else none
  | .wait, .deadline =>
    match f with
    | .timeout _ => some (m, [.isSet])
    | _ => none
  | .wait, .cancel => f.waitCancelled.map (fun x => (m, [x]))
  | .isSet, .go => some (m, [if m.event then .fetch else .unwind])
  | .unwind, .go => some (m, [.ends .timedOut])
  | .fetch, .go => some ({ m with seen := m.stored.map Prod.snd }, [f.afterFetch m.slot])
  | .cancelScope r, .go => some ({ m with cancelled := true }, [r.elim .fetch .yieldNow])
  | .yieldNow r, .go => some (m, [.exit r])
  | .yieldNow _, .cancel => some (m, [.ends .cancelled])
  | .exit r, .go =>
    some ({ m with childEvent := fun i => m.childEvent i || (m.cancelled && decide (i < m.spawned)) }, [.join r])
  | .join r, .go => if (List.range m.spawned).all m.childEvent then some (m, [.ends r]) else none
  | .join _, .cancel => some (m, [.ends .cancelled])
  | .ends r, .go => some ({ m with result := some r }, [])
  | _, _ => none

/-- A worker gets to a child. -/
def call (m : Mem α) (i : Nat) : Option (Mem α × List (Op α)) :=
  if i ∈ m.pending then some ({ m with pending := m.pending.erase i }, [.run i]) else none

/-- A call of a function with `n` coroutines, and their tasks. -/
def machine (f : Fn) (n : Nat) : Machine (Mem α) (Op α) (Choice α) Nat where
  exec := exec f n
  call := call

/-- The function has been called. -/
def initial (n : Nat) : State (Mem α) (Op α) := ⟨⟨none, false, false, 0, [], fun _ => false, none, [], [], []⟩, [[spawnNext n 0]]⟩

/-! ## What is said about the outcomes -/

/-- An outcome that a wrapper passes on: a value, or an `Exception`. -/
def Outcome.passes : Outcome α → Bool
  | .ret _ | .exc (.exception _) => true
  | .exc _ => false

/-- Every coroutine ends with the outcome `o`, the event is set when `timeout` looks at it after its wait, and the call is not cancelled. -/
def Finishes (o : Outcome α) (m : Mem α) : Act (Op α) (Choice α) Nat → Prop
  | .exec (.run _) (.finish o') => o' = o
  | .exec .isSet _ => m.event = true
  | .exec _ .cancel => False
  | _ => True

end Ctl

end Tonio
