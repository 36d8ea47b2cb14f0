import Tonio.Interleaving.Weight

/-!
# Locks and semaphores

`sync.rs`, `Lock` and `Semaphore`, with the Python side that waits for them (`_sync.py`, `_colored/_sync.py`). Both keep a queue
of events behind a mutex. An acquirer that is not served pushes an event and waits for it; `release` pops events until one of
them is set by its own call of `set`, and that hands the lock or the permit to the task that waits for the event. A task that
is cancelled while it waits sets its event itself, and when it finds the event set already it was handed the lock, so it
releases it.

The two differ in what is handed over and in where the attempt is made: the lock's flag is exchanged outside the mutex first, the
semaphore's count is only touched under it. `Prim` has these differences and the rest is one definition. The machine's threads
are the tasks, and an operation is one atomic access or one piece of code under the mutex that touches nothing but what
the mutex protects.
-/

namespace Tonio

namespace Sync

open Interleaving

/-- What distinguishes a lock from a semaphore: whether a first attempt is made without the mutex, the attempt to take (given
the number of queued events), and what `release` does when it finds nobody to hand over to. -/
structure Prim (K : Type) where
  outside : Bool
  take : K → Nat → Option K
  put : K → K

/-- The shared memory: the flag of the lock or the count of the semaphore, the mutex and the queue behind it, the flags of
the events, and the next event to be allocated: events are numbered in the order of their allocation. -/
structure Mem (K : Type) where
  val : K
  mutex : Bool
  waiters : List Nat
  flag : Nat → Bool
  next : Nat

/-- The operations of a task. `wait e` is the `yield event.waiter(None)` of an acquirer, `cancelled e` the `event.set()` of its
handler of `CancelledError`; `owner` is the body of the `with` block. -/
inductive Op where
  | acquire | acquireLock | acquireSlow
  | tryAcquire | tryLock | trySlow
  | wait (e : Nat) | cancelled (e : Nat) | owner
  | release | releaseNext | releaseSet (e : Nat) | put | unlock
  deriving DecidableEq, Repr

/-- How a wait ends: by its event, or by a `CancelledError`. Every other operation goes on. -/
inductive Choice where
  | go | cancel
  deriving DecidableEq, Repr

/-- The calls that start a task: `acquire` (through `__call__` or `__aenter__`) and `try_acquire` (through `or_raise`). -/
inductive Call where
  | acquire | tryAcquire
  deriving DecidableEq, Repr

variable {K : Type}

/-- `acquire` under the mutex: take, or push a new event and wait for it. -/
def Prim.slow (P : Prim K) (m : Mem K) : Mem K × List Op :=
  match P.take m.val m.waiters.length with
  | some v => ({ m with val := v }, [.unlock, .owner])
  | none => ({ m with waiters := m.waiters ++ [m.next], next := m.next + 1 }, [.unlock, .wait m.next])

/-- `event.set()`, as far as its caller sees it: the flag is exchanged, and the answer is whether it was this call. -/
def Mem.set (m : Mem K) (e : Nat) : Mem K := { m with flag := Function.update m.flag e true }

/-- What an operation does. A task blocks on the mutex while it is held, and on its event while that is not set. -/
def Prim.exec (P : Prim K) (m : Mem K) : Op → Choice → Option (Mem K × List Op)
  | .wait e, .cancel => some (m, [.cancelled e])
  | _, .cancel => none
  | .acquire, .go =>
    if P.outside then
      match P.take m.val m.waiters.length with
      | some v => some ({ m with val := v }, [.owner])
      | none => some (m, [.acquireLock])
    else some (m, [.acquireLock])
  | .acquireLock, .go => if m.mutex then none else some ({ m with mutex := true }, [.acquireSlow])
  | .acquireSlow, .go => some (P.slow m)
  | .tryAcquire, .go =>
    if P.outside then
      match P.take m.val m.waiters.length with
      | some v => some ({ m with val := v }, [.owner])
      -- `WouldBlock` is raised
      | none => some (m, [])
    else some (m, [.tryLock])
  | .tryLock, .go => if m.mutex then none else some ({ m with mutex := true }, [.trySlow])
  | .trySlow, .go =>
    match P.take m.val m.waiters.length with
    | some v => some ({ m with val := v }, [.unlock, .owner])
    | none => some (m, [.unlock])
  | .wait e, .go => if m.flag e then some (m, [.owner]) else none
  -- `if not event.set(): self.release()`
  | .cancelled e, .go => if m.flag e then some (m, [.release]) else some (m.set e, [])
  | .owner, .go => some (m, [.release])
  | .release, .go => if m.mutex then none else some ({ m with mutex := true }, [.releaseNext])
  | .releaseNext, .go =>
    match m.waiters with
    | e :: ws => some ({ m with waiters := ws }, [.releaseSet e])
    | [] => some (m, [.put])
  -- `if event.get().set(py) { return; }`
  | .releaseSet e, .go => if m.flag e then some (m, [.releaseNext]) else some (m.set e, [.unlock])
  | .put, .go => some ({ m with val := P.put m.val }, [.unlock])
  | .unlock, .go => some ({ m with mutex := false }, [])

/-- A call starts a task. -/
def Prim.call (m : Mem K) : Call → Option (Mem K × List Op)
  | .acquire => some (m, [.acquire])
  | .tryAcquire => some (m, [.tryAcquire])

/-- The tasks around one lock or one semaphore. -/
def Prim.machine (P : Prim K) : Machine (Mem K) Op Choice Call where
  exec := P.exec
  call := Prim.call

/-- A new primitive with nobody around it. -/
def initial (v : K) : State (Mem K) Op := ⟨⟨v, false, [], fun _ => false, 0⟩, []⟩

/-! ## The two primitives -/

/-- `Lock`: `state` is exchanged from false to true, and stored false. -/
def lock : Prim Bool where
  outside := true
  take := fun state _ => if state then none else some true
  put := fun _ => false

/-- `x as i32` for a `usize`: the low 32 bits, read as a two's complement number. -/
def asI32 (x : Nat) : Int := Int.bmod x (2 ^ 32)

/-- The difference of two `i32`, which wraps in a release build. -/
def subI32 (a b : Int) : Int := Int.bmod (a - b) (2 ^ 32)

/-- `Semaphore`: `tokens` is a `usize`, taken from when `tokens as i32 - waiters.len() as i32` is positive. -/
def semaphore : Prim Nat where
  outside := false
  take := fun tokens len =>
    if subI32 (asI32 tokens) (asI32 len) ≤ 0 then none else some ((tokens + (2 ^ 64 - 1)) % 2 ^ 64)
  put := fun tokens => (tokens + 1) % 2 ^ 64

/-! ## Releases from anywhere -/

/-- The calls when nobody sees to it that a `release` is that of an owner. -/
inductive OpenCall where
  | task (l : Call) | release
  deriving DecidableEq, Repr

/-- Such a call starts a task, or a `release` of its own. -/
def Prim.openCall (m : Mem K) : OpenCall → Option (Mem K × List Op)
  | .task l => Prim.call m l
  | .release => some (m, [.release])

/-- The tasks and the releases around one lock or one semaphore. -/
def Prim.openMachine (P : Prim K) : Machine (Mem K) Op Choice OpenCall where
  exec := P.exec
  call := Prim.openCall

/-! ## Who owns what -/

/-- A task owns the lock, or a permit, from the moment it took it (or its event was set by a `release`) until it gives it back:
its `release` hands it over or puts it back. -/
def owns (flag : Nat → Bool) : Op → Nat
  | .owner | .release | .releaseNext | .releaseSet _ | .put => 1
  | .wait e | .cancelled e => if flag e then 1 else 0
  | _ => 0

/-- The number of owners. -/
def owners (s : State (Mem K) Op) : Nat := total (owns s.mem.flag) s.ops

/-- An event whose flag is not set belongs to a waiter that has neither been served nor has cancelled itself. -/
def Mem.unserved (m : Mem K) (e : Nat) : Prop := e < m.next ∧ m.flag e = false

end Sync

end Tonio
