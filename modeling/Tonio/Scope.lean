import Tonio.Interleaving.Weight

/-!
# Scopes

`scope.rs`, `PyGenScope` and `PyAsyncGenScope`, which differ in nothing that is said here, with `_scope.py` and `_colored/_scope.py`. A
child is spawned through `_track`: it looks at `consumed`, makes the completion event and the checkpoint of the child, and pushes both on
the stack; then the child is scheduled. The exit advances `consumed`, takes the stack, and returns a waiter for the events on it; if the
scope was cancelled, it sets the events that are not set and aborts the children they belong to. A child sets its event when its
coroutine is over.

The machine's threads are the tasks that spawn, the children, the exits and the calls of `cancel`; an operation is one atomic access, one
piece of code under a mutex, or a stretch of a child's code. The scope has been entered. The child and its event are named by one
number. A waiter lets its task go on when all its events are set (one without events at once). `resumed` notes that the exit's task
was, and `seen` what the exit found in `cancelled`; nothing reads them.
-/

namespace Tonio

namespace Scope

open Interleaving

/-- The shared memory. -/
structure Mem where
  consumed : Nat
  stack : List Nat
  cancelled : Bool
  mutex : Bool
  waiter : Option (List Nat)
  event : Nat → Bool
  aborted : Nat → Bool
  next : Nat
  scheduled : Nat → Bool
  seen : Bool
  resumed : Bool

/-- The operations. In `_exit`, `rest` are the children still to be visited and `events` those already collected. -/
inductive Op where
  -- `spawn`, with `_track`
  | trackLoad | trackPush (k : Nat) | schedule (k : Nat)
  -- the wrapper of a child: its checkpoint, its coroutine, the unwinding of its `CancelledError`, the `finally` clause
  | start (k : Nat) | run (k : Nat) | unwind (k : Nat) | finish (k : Nat)
  -- `__exit__` and `__aexit__`, with `_exit`
  | incr | yieldNow | exitLock | exitGuard | exitTake | exitLoad (rest : List Nat)
  | exitNext (cancelled : Bool) (rest events : List Nat) | exitIsSet (k : Nat) (rest events : List Nat)
  | exitSet (k : Nat) (rest events : List Nat) | exitAbort (k : Nat) (rest events : List Nat)
  | wait (events : List Nat)
  | cancel
  deriving DecidableEq, Repr

/-- What the environment decides: that a child's coroutine is over, that a task is cancelled. Every other operation goes on. -/
inductive Choice where
  | go | ended | cancel
  deriving DecidableEq, Repr

/-- The calls of the tasks. -/
inductive Call where
  | spawn | exit | cancel
  deriving DecidableEq, Repr

/-- What an operation does. -/
def exec (m : Mem) : Op → Choice → Option (Mem × List Op)
  -- `_track` returns `None` for a scope that was left, and nothing is scheduled
  | .trackLoad, .go =>
    if 1 < m.consumed then some (m, []) else some ({ m with next := m.next + 1 }, [.trackPush m.next])
  | .trackPush k, .go => some ({ m with stack := m.stack ++ [k] }, [.schedule k])
  -- the child takes the place of the call that spawned it, which is over
  | .schedule k, .go => some ({ m with scheduled := Function.update m.scheduled k true }, [.start k])
  | .start k, .go => some (m, [if m.aborted k then .unwind k else .run k])
  | .run k, .go => some (m, [.run k])
  | .run k, .ended => some (m, [.finish k])
  | .run k, .cancel => if m.aborted k then some (m, [.unwind k]) else none
  | .unwind k, .go => some (m, [.unwind k])
  | .unwind k, .ended => some (m, [.finish k])
  | .finish k, .go => some ({ m with event := Function.update m.event k true }, [])
  | .incr, .go => some ({ m with consumed := if m.consumed = 1 then 2 else m.consumed }, [.yieldNow])
  | .yieldNow, .go => some (m, [.exitLock])
  | .yieldNow, .cancel => some (m, [])
  | .exitLock, .go => if m.mutex then none else some ({ m with mutex := true }, [.exitGuard])
  -- `Scope already consumed`
  | .exitGuard, .go => some (if m.waiter.isSome then ({ m with mutex := false }, []) else (m, [.exitTake]))
  | .exitTake, .go => some ({ m with stack := [] }, [.exitLoad m.stack])
  | .exitLoad rest, .go => some (m, [.exitNext m.cancelled rest []])
  | .exitNext cancelled (k :: rest) events, .go =>
    some (m, [if cancelled then .exitIsSet k rest events else .exitNext cancelled rest (events ++ [k])])
  | .exitIsSet k rest events, .go =>
    some (m, [if m.event k then .exitNext true rest (events ++ [k]) else .exitSet k rest events])
  | .exitSet k rest events, .go => some ({ m with event := Function.update m.event k true }, [.exitAbort k rest events])
  | .exitAbort k rest events, .go =>
    some ({ m with aborted := Function.update m.aborted k true }, [.exitNext true rest (events ++ [k])])
  | .exitNext cancelled [] events, .go => some ({ m with waiter := some events, mutex := false, seen := cancelled }, [.wait events])
  | .wait events, .go => if events.all m.event then some ({ m with resumed := true }, []) else none
  | .wait _, .cancel => some (m, [])
  | .cancel, .go => some ({ m with cancelled := true }, [])
  | _, _ => none

/-- A call starts a task. -/
def call (m : Mem) : Call → Option (Mem × List Op)
  | .spawn => some (m, [.trackLoad])
  | .exit => some (m, [.incr])
  | .cancel => some (m, [.cancel])

/-- The tasks around one scope. -/
def machine : Machine Mem Op Choice Call where
  exec := exec
  call := call

/-- A scope that has been entered. -/
def initial : State Mem Op :=
  ⟨⟨1, [], false, false, none, fun _ => false, fun _ => false, 0, fun _ => false, false, false⟩, []⟩

/-! ## What is said about the children -/

/-- The child of an operation that has still to run the child's code. -/
def Op.runs : Op → Option Nat
  | .schedule k | .start k | .run k | .unwind k => some k
  | _ => none

/-- A `_track` that has passed its check and not pushed its child. -/
def Op.pushes : Op → Bool
  | .trackPush _ => true
  | _ => false

/-- A child escapes: `_exit` takes the stack while a `_track` is between its check and its push. -/
def Escapes (ops : List Op) : Act Op Choice Call → Prop
  | .exec .exitTake _ => ∃ op ∈ ops, op.pushes = true
  | _ => False

/-- A child is cut off: `_exit` sets the event of a child that has not ended. -/
def CutsOff (ops : List Op) : Act Op Choice Call → Prop
  | .exec (.exitSet k _ _) _ => ∃ op ∈ ops, op.runs = some k
  | _ => False

end Scope

end Tonio
