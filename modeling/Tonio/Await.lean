import Tonio.Blocking

/-!
# Waiting for a blocking task

`spawn_blocking` of `_ctl.py` and `_colored/_ctl.py`, which differ in nothing that is said here, over the blocking pool. The task that
calls it submits the callable and waits for its event; a `CancelledError` of this wait is suppressed. It then reads both slots of the
result holder, under one lock. When slot 0 has not been stored it aborts the blocking task, waits again (a `CancelledError` of this wait
is its own) and reads again. Slot 0 says whether slot 1 is raised or returned.

A thread the pool starts goes on beside the one that started it: it is `born`, and begins when the operating system lets it. `results`
records how the calls of `spawn_blocking` ended; nothing reads it.
-/

namespace Tonio

namespace Await

open Interleaving
open Tonio.Blocking (Obj Outcome Party)

variable {α : Type}

/-- How a call of `spawn_blocking` ends: it returns or raises an object, fails to raise one that is no exception, or is cancelled. -/
inductive Result (α : Type) where
  | returned (v : Obj α) | raised (v : Obj α) | typeError | cancelled
  deriving DecidableEq, Repr

/-- The shared memory. -/
structure Mem (α : Type) where
  pool : Blocking.Mem α
  born : List Nat
  results : List (Nat × Result α)

/-- The operations: those of the pool, and those of `spawn_blocking` after the submission of task `k`. -/
inductive Op (α : Type) where
  | pool (op : Blocking.Op α)
  | wait (k : Nat) | fetch (k : Nat) (again : Bool) | abort (k : Nat) | waitAgain (k : Nat)
  deriving DecidableEq, Repr

/-- What the environment decides: what the pool leaves to it, and that a wait is cancelled. -/
inductive Choice (α : Type) where
  | pool (c : Blocking.Choice α) | go | cancel
  deriving DecidableEq, Repr

/-- A call of `spawn_blocking`, and the start of a thread of the pool. -/
inductive Call where
  | spawnBlocking | thread (t : Nat)
  deriving DecidableEq, Repr

/-- `raise val`: `None` is no exception. -/
def Result.raise : Obj α → Result α
  | .none => .typeError
  | v => .raised v

/-- `if err is True: raise val`, `return val`. -/
def settle (err val : Obj α) : Result α :=
  match err with
  | .bool true => .raise val
  | _ => .returned val

/-- The call for task `k` ends. -/
def Mem.ended (m : Mem α) (k : Nat) (r : Result α) : Mem α := { m with results := m.results ++ [(k, r)] }

/-- `err, val = res.fetch()`, with what is decided on it. -/
def Mem.fetch (m : Mem α) (k : Nat) (again : Bool) : Mem α × List (Op α) :=
  match again, (m.pool.ctl k).data 0 with
  | false, .none => (m, [.abort k])
  | _, err => (m.ended k (settle err ((m.pool.ctl k).data 1)), [])

/-- What an operation does, with at most `tmax` threads in the pool. -/
def exec (tmax : Nat) (m : Mem α) : Op α → Choice α → Option (Mem α × List (Op α))
  | .pool .incThreads, .pool (.ident t) =>
    (Blocking.exec tmax m.pool .incThreads (.ident t)).map (fun r => ({ m with pool := r.1, born := m.born ++ [t] }, []))
  | .pool op, .pool c => (Blocking.exec tmax m.pool op c).map (fun r => ({ m with pool := r.1 }, r.2.map .pool))
  | .wait k, .go => if (m.pool.ctl k).event then some (m, [.fetch k false]) else none
  | .wait k, .cancel => some (m, [.fetch k false])
  | .fetch k again, .go => some (m.fetch k again)
  | .abort k, .go => (Blocking.call m.pool (.abort k)).map (fun r => ({ m with pool := r.1 }, r.2.map .pool ++ [.waitAgain k]))
  | .waitAgain k, .go => if (m.pool.ctl k).event then some (m, [.fetch k true]) else none
  | .waitAgain k, .cancel => some (m.ended k .cancelled, [])
  | _, _ => none

/-- What a call does. -/
def call (m : Mem α) : Call → Option (Mem α × List (Op α))
  | .spawnBlocking => (Blocking.call m.pool .submit).map (fun r => ({ m with pool := r.1 }, r.2.map .pool ++ [.wait m.pool.next]))
  | .thread t => if t ∈ m.born then some ({ m with born := m.born.erase t }, [.pool (.giveBudget t)]) else none

/-- The tasks that call `spawn_blocking`, and the pool. -/
def machine (tmax : Nat) : Machine (Mem α) (Op α) (Choice α) Call where
  exec := exec tmax
  call := call

/-- A new pool. -/
def initial : State (Mem α) (Op α) := ⟨⟨Blocking.initial.mem, [], []⟩, []⟩

/-! ## What is said about the results -/

/-- The result that an outcome of the callable, or of the abort of its task, calls for. -/
def result (o : Outcome α) : Result α := if o.failed then .raise o.value else .returned o.value

/-- An outcome of task `k`: a party has stored it, or has stored its flag and stores its value next. -/
def Reports (m : Mem α) (ops : List (Op α)) (k : Nat) (o : Outcome α) : Prop :=
  ∃ p : Party, p.Reports o ∧
    ([.stored p 0 (.bool o.failed), .stored p 1 o.value] <:+: m.pool.history k ∨ Op.pool (.store1 p k o) ∈ ops)

/-- A result of task `k` that `spawn_blocking` may have: what its outcome calls for, or the caller's own cancellation. -/
def Proper (m : Mem α) (ops : List (Op α)) (k : Nat) (r : Result α) : Prop :=
  r = .cancelled ∨ ∃ o, Reports m ops k o ∧ r = result o

end Await

end Tonio
