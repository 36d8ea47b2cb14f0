import Tonio.Interleaving.Weight

/-!
# Spawning coroutines and joining them

`_ctl.py` and `_colored/_ctl.py`: `spawn(...)` and `spawn.without_results(...)`, `map` and `map_blocking`, with `Barrier` of `sync.rs` and
`ResultHolder` of `events.rs`. Each coroutine runs in a wrapper that stores its result under its index, or appends its exception to a
shared list, and then counts at a barrier of `N + 1`; an await of the join counts at the same barrier and waits for its event.

The machine's threads are the wrappers and the awaits, and an operation is one atomic access, one operation on the result holder or
on the list of exceptions. How a coroutine ends is up to the environment. `outcome` notes it for each coroutine, and `returned` what
the awaits gave back; nothing reads them. The barrier counts with a `usize`; once the event is set a further count changes nothing, so it
is a natural number here.
-/

namespace Tonio

namespace Spawn

open Interleaving

variable {α ε : Type}

/-- How a coroutine ends: by returning, by an `Exception`, or by a `BaseException` that is none. -/
inductive Outcome (α ε : Type) where
  | ret (v : α) | exc (e : ε) | base
  deriving DecidableEq, Repr

/-- What a result holder gives: an element (`None` if nothing was stored), or the list of all. -/
inductive Fetched (α : Type) where
  | bare (v : Option α) | list (vs : List (Option α))
  deriving DecidableEq, Repr

/-- What an await of the join gives back: what it fetched, `None` without results, or an `ExceptionGroup`. -/
inductive Joined (α ε : Type) where
  | value (r : Fetched α) | none | group (errs : List ε)
  deriving DecidableEq, Repr

/-- The shared memory: the count and the event of the barrier, the result holder and the list of exceptions. `awaits` counts the
awaits that have counted at the barrier, `joins` those that were begun. -/
structure Mem (α ε : Type) where
  count : Nat
  event : Bool
  data : List (Option α)
  errs : List ε
  awaits : Nat
  joins : Nat
  outcome : Nat → Option (Outcome α ε)
  returned : List (Joined α ε)

/-- The operations. `i` is the index of a coroutine. -/
inductive Op (α ε : Type) where
  -- `wrapper`
  | coro (i : Nat) | store (i : Nat) (v : α) | append (e : ε) | ack | set
  -- `_wait` of the join, with `Barrier.wait`
  | joinAck | joinSet | wait | check | group | fetch
  deriving DecidableEq, Repr

/-- What the environment decides: how a coroutine ends, that an await is cancelled. Every other operation goes on. -/
inductive Choice (α ε : Type) where
  | go | finish (o : Outcome α ε) | cancel
  deriving DecidableEq, Repr

/-- The join is awaited. -/
inductive Call where
  | await
  deriving DecidableEq, Repr

/-- `ResultHolder::fetch`, for a holder of a given size. -/
def fetch (size : Nat) (data : List (Option α)) : Fetched α :=
  match size with
  | 1 => .bare (data.head?.getD none)
  | _ => .list data

/-- What a wrapper does with the end of its coroutine; `without_results` stores nothing. -/
def after (collect : Bool) (i : Nat) : Outcome α ε → Op α ε
  | .ret v => if collect then .store i v else .ack
  | .exc e => .append e
  | .base => .ack

/-- What an operation does, for `n` coroutines. -/
def exec (collect : Bool) (n : Nat) (m : Mem α ε) : Op α ε → Choice α ε → Option (Mem α ε × List (Op α ε))
  | .coro i, .finish o => some ({ m with outcome := Function.update m.outcome i (some o) }, [after collect i o])
  | .store i v, .go => some ({ m with data := m.data.set i (some v) }, [.ack])
  | .append e, .go => some ({ m with errs := m.errs ++ [e] }, [.ack])
  | .ack, .go => some ({ m with count := m.count + 1 }, if n + 1 ≤ m.count + 1 then [.set] else [])
  | .set, .go => some ({ m with event := true }, [])
  | .joinAck, .go =>
    some ({ m with count := m.count + 1, awaits := m.awaits + 1 }, if n + 1 ≤ m.count + 1 then [.joinSet] else [.wait])
  | .joinSet, .go => some ({ m with event := true }, [.wait])
  | .wait, .go => if m.event then some (m, [.check]) else none
  | .wait, .cancel => some (m, [])
  | .check, .go => some (m, [if m.errs ≠ [] then .group else .fetch])
  | .group, .go => some ({ m with returned := m.returned ++ [.group m.errs] }, [])
  | .fetch, .go => some ({ m with returned := m.returned ++ [if collect then .value (Spawn.fetch n m.data) else .none] }, [])
  | _, _ => none

/-- An await of the join. -/
def call (m : Mem α ε) : Call → Option (Mem α ε × List (Op α ε))
  | .await => some ({ m with joins := m.joins + 1 }, [.joinAck])

/-- `n` coroutines and the awaits of their join. -/
def machine (collect : Bool) (n : Nat) : Machine (Mem α ε) (Op α ε) (Choice α ε) Call where
  exec := exec collect n
  call := call

/-- The coroutines have been spawned. -/
def initial (n : Nat) : State (Mem α ε) (Op α ε) :=
  ⟨⟨0, false, List.replicate n none, [], 0, 0, fun _ => none, []⟩, (List.range n).map (fun i => [.coro i])⟩

/-! ## What is said about the join -/

/-- The coroutine of an operation that has not finished. -/
def Op.runs : Op α ε → Option Nat
  | .coro i => some i
  | _ => none

/-- An await that has been let through. -/
def Op.resumed : Op α ε → Bool
  | .check | .group | .fetch => true
  | _ => false

/-- The join is awaited again too early: an await counts at the barrier after another one has, while some coroutine has not
finished. -/
def Reawaits (m : Mem α ε) (ops : List (Op α ε)) : Act (Op α ε) (Choice α ε) Call → Prop
  | .exec .joinAck _ => 0 < m.awaits ∧ ∃ op ∈ ops, op.runs.isSome = true
  | _ => False

/-- The join is awaited once, and every coroutine returns or raises an `Exception`. -/
def Plain (m : Mem α ε) : Act (Op α ε) (Choice α ε) Call → Prop
  | .call .await => m.joins = 0
  | .exec (.coro _) (.finish .base) => False
  | _ => True

/-- The exception of a coroutine that raised. -/
def Outcome.exception : Outcome α ε → Option ε
  | .exc e => some e
  | _ => none

/-- The exceptions raised by `n` coroutines, in the order of the coroutines. -/
def raised (n : Nat) (outcome : Nat → Option (Outcome α ε)) : List ε :=
  (List.range n).filterMap (fun i => (outcome i).bind Outcome.exception)

/-- What `map` and `map_blocking` make of the join's result for `n` elements: a single one is put into a list. -/
def mapReturn (n : Nat) (r : Fetched α) : Option (List (Option α)) :=
  match r with
  | .bare v => if n = 1 then some [v] else none
  | .list vs => if n = 1 then none else some vs

end Spawn

end Tonio
