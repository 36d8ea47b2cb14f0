import Tonio.Collections.PriorityQueue
import Tonio.Interleaving.Weight

/-!
# Timers and the poll loop

`time.rs`, with `Waiter::register` (`events.rs`) that makes timers and `Runtime::add_timer` and `Runtime::poll` (`runtime.rs`) that keep
them. A timer is due at the clock of its registration plus its timeout, in microseconds. It is pushed to a heap behind a mutex, and the
poller is woken. The poller looks at the first timer under the mutex to find how long it may block, blocks outside of it, and then, under
the mutex again, reads the clock once and hands the timers that are due to the injector.

The machine's threads are the poller and the registrations; the clock is advanced by calls of its own. The rest of a poll (the events of
sockets and signals, the release of registrations) touches no timer and is left out, and so is what a timer resumes. A poll may return at
any time, for an event or a signal; that a wake-up makes the current or the next poll return is `woken`.
-/

namespace Tonio

namespace Time

open Interleaving Collections

/-- `Timer`. The suspension a timer resumes is named by the number of its registration. -/
structure Timer where
  when : Nat
  target : Nat
  deriving DecidableEq, Repr

/-- `Ord for Timer`: the earlier one is the greater one. The heap compares by `partial_cmp`, which is this, and never by `eq`. -/
def Timer.cmp (x y : Timer) : Ordering :=
  if x.when < y.when then .gt
  else if x.when > y.when then .lt
  else .eq

/-- What one look at the heap after a poll did: the clock it read, the heap it found, the timers it handed over, and the heap it
left. -/
structure Drain where
  tick : Nat
  before : List Timer
  handed : List Timer
  after : List Timer
  deriving DecidableEq, Repr

/-- The shared memory: the clock, the heap and whether the poller has its mutex for more than one step, the timers in the injector,
whether there is a waker and whether it has woken the poller, and the next registration. `polls` records what the polls did; nothing reads
it. -/
structure Mem where
  clock : Nat
  heap : List Timer
  locked : Bool
  injector : List Timer
  waker : Bool
  woken : Bool
  next : Nat
  polls : List Drain

/-- The operations. `wake` names its registration, and `drain` what it found and has handed over, for the record. -/
inductive Op where
  -- `Waiter::register` and `add_timer`
  | getClock (n timeout : Nat) | push (x : Timer) | wake (n : Nat)
  -- `_run` and `poll`
  | setWaker | schedTime | poll (sched : Option (Nat × Nat)) | timers | drain (tick : Nat) (before handed : List Timer)
  deriving DecidableEq, Repr

/-- Which of the first timers the heap pops. Every other operation goes on. -/
inductive Choice where
  | go | pop (i : Nat)
  deriving DecidableEq, Repr

/-- The calls: a waiter with a timeout is registered, time goes by. -/
inductive Call where
  | register (timeout : Nat) | advance (d : Nat)
  deriving DecidableEq, Repr

/-- The timeout of a poll, computed from the first timer: `(timer.when - tick) as u64`, or 0. -/
def schedTimeout (tick : Nat) (x : Timer) : Nat := if x.when > tick then (x.when - tick) % 2 ^ 64 else 0

/-- The end of the look at the heap: the mutex is released, and the next poll begins. -/
def Mem.endDrain (m : Mem) (tick : Nat) (before handed : List Timer) : Mem × List Op :=
  ({ m with locked := false, polls := m.polls ++ [⟨tick, before, handed, m.heap⟩] }, [.schedTime])

/-- What an operation does. What is done under the mutex blocks while the poller has it. -/
def exec (m : Mem) : Op → Choice → Option (Mem × List Op)
  | .getClock n timeout, .go => some (m, [.push ⟨m.clock + timeout, n⟩])
  | .push x, .go => if m.locked then none else some ({ m with heap := m.heap ++ [x] }, [.wake x.target])
  | .wake _, .go => some ({ m with woken := m.woken || m.waker }, [])
  | .setWaker, .go => some ({ m with waker := true }, [.schedTime])
  | .schedTime, .go =>
    if m.locked then none
    else some (m, [.poll ((peek Timer.cmp m.heap).map (fun x => (m.clock, schedTimeout m.clock x)))])
  | .poll _, .go => some ({ m with woken := false }, [.timers])
  | .timers, .go =>
    if m.locked then none
    else match peek Timer.cmp m.heap with
      | none => some (m, [.schedTime])
      | some x =>
        if x.when ≤ m.clock then some ({ m with locked := true }, [.drain m.clock m.heap []])
        else some (m.endDrain m.clock m.heap [])
  | .drain tick before handed, .go =>
    match peek Timer.cmp m.heap with
    | none => some (m.endDrain tick before handed)
    | some x => if x.when > tick then some (m.endDrain tick before handed) else none
  | .drain tick before handed, .pop i =>
    match peek Timer.cmp m.heap with
    | none => none
    | some x =>
      if x.when > tick then none
      else (popAt Timer.cmp m.heap i).map (fun r =>
        ({ m with heap := r.2, injector := m.injector ++ [r.1] }, [.drain tick before (handed ++ [r.1])]))
  | _, _ => none

/-- A call: a timeout is a `usize`, and the clock does not go back. -/
def call (m : Mem) : Call → Option (Mem × List Op)
  | .register timeout => if timeout < 2 ^ 64 then some ({ m with next := m.next + 1 }, [.getClock m.next timeout]) else none
  | .advance d => some ({ m with clock := m.clock + d }, [])

/-- The poller and the registrations. -/
def machine : Machine Mem Op Choice Call where
  exec := exec
  call := call

/-- A new runtime: `_run` has not set the waker yet. -/
def initial : State Mem Op := ⟨⟨0, [], false, [], false, false, 0, []⟩, [[.setWaker]]⟩

/-! ## What is said about the timers -/

/-- A poll that blocks: with no timeout, or with one that is not 0. -/
def Blocks : Option (Nat × Nat) → Prop
  | none => True
  | some (_, d) => 0 < d

/-- The timer is due before the poll times out. -/
def DueBefore (x : Timer) : Option (Nat × Nat) → Prop
  | none => True
  | some (t, d) => x.when < t + d

/-- The timer of a registration that an operation has still to push. -/
def Op.holds : Op → Option Nat
  | .getClock n _ => some n
  | .push x => some x.target
  | _ => none

end Time

end Tonio
