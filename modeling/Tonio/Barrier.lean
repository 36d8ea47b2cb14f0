import Tonio.Interleaving.Progress

/-!
# Barriers

`Barrier` of `sync.rs`, with `Barrier.wait` of `_sync.py` and `_colored/_sync.py`. A task that waits counts, and has its place in the count as its
result; the one that makes the count full sets the event, and so does every later one; and all of them wait for the event, so each of them
is parked, resumed by the notification, or let through at once.

The threads are the tasks, as far as they run, and the workers that run their handles. An operation is one atomic access, or one piece of code under
the mutex of the event that touches nothing else; a waker that is woken resumes its suspension, which is an exchange of `consumed`, and adds its
handle. A task is named by its place. It may be cancelled from the moment its suspension is made, which exchanges `consumed` as well. The count
is a `usize`, and a natural number here.
-/

namespace Tonio

namespace Barrier

open Interleaving

/-- The shared memory: of the barrier, and its event, and of the suspensions. `handles` are those that resume a task. The last two fields are records:
the tasks that have returned, and those that have been cancelled. -/
structure Mem where
  count : Nat
  flag : Bool
  locked : Bool
  watchers : List Nat
  dirty : Bool
  suspended : List Nat
  consumed : List Nat
  handles : List Nat
  returned : List Nat
  cancelled : List Nat

/-- The operations. `r` is the place of a task. -/
inductive Op where
  -- `Barrier::ack`, with `Event.set`
  | ack | set (r : Nat) | notifyLock (r : Nat) | notify (r : Nat)
  -- `Event.waiter` and `Waiter::register`
  | waiter (r : Nat) | sweep (r : Nat) | suspend (r : Nat) | addWaker (r : Nat) | addCheck (r : Nat) | push (r : Nat)
  | ret (r : Nat)
  deriving DecidableEq, Repr

/-- A task waits, a worker runs a handle, or a task is cancelled. -/
inductive Call where
  | wait | work (i : Nat) | cancel (r : Nat)
  deriving DecidableEq, Repr

/-- `Waker::wake`. -/
def Mem.wake (m : Mem) (r : Nat) : Mem :=
  if r ∈ m.consumed then m else { m with consumed := r :: m.consumed, handles := m.handles ++ [r] }

/-- `rem_stale_wakers`. -/
def Mem.sweep (m : Mem) : Mem :=
  let watchers := m.watchers.rdropWhile (fun r => decide (r ∈ m.consumed))
  { m with watchers := watchers, dirty := if watchers = [] then false else m.dirty }

/-- What an operation does. What takes the mutex blocks while another operation has it. -/
def exec (value : Nat) (m : Mem) : Op → Unit → Option (Mem × List Op)
  | .ack, _ => some ({ m with count := m.count + 1 }, [if value ≤ m.count + 1 then .set m.count else .waiter m.count])
  | .set r, _ => some (if m.flag then (m, [.waiter r]) else ({ m with flag := true }, [.notifyLock r]))
  | .notifyLock r, _ => if m.locked then none else some ({ m with locked := true }, [.notify r])
  | .notify r, _ =>
    match m.watchers with
    | [] => some ({ m with dirty := false, locked := false }, [.waiter r])
    | w :: ws => some ({ m with watchers := ws }.wake w, [.notify r])
  | .waiter r, _ => some (m, [if m.dirty then .sweep r else .suspend r])
  | .sweep r, _ => if m.locked then none else some (m.sweep, [.suspend r])
  | .suspend r, _ => some ({ m with suspended := r :: m.suspended }, [.addWaker r])
  | .addWaker r, _ => if m.locked then none else some ({ m with locked := true }, [.addCheck r])
  -- the flag is looked at under the mutex
  | .addCheck r, _ => some (if m.flag then ({ m with locked := false }.wake r, []) else (m, [.push r]))
  | .push r, _ => some ({ m with watchers := m.watchers ++ [r], dirty := true, locked := false }, [])
  | .ret r, _ => some ({ m with returned := m.returned ++ [r] }, [])

/-- A call. -/
def call (m : Mem) : Call → Option (Mem × List Op)
  | .wait => some (m, [.ack])
  | .work i =>
    match m.handles[i]? with
    | some r => some ({ m with handles := m.handles.eraseIdx i }, [.ret r])
    | none => none
  | .cancel r =>
    if r ∈ m.suspended ∧ r ∉ m.consumed then some ({ m with consumed := r :: m.consumed, cancelled := m.cancelled ++ [r] }, []) else none

/-- The tasks around a barrier of a given value. -/
def machine (value : Nat) : Machine Mem Op Unit Call where
  exec := exec value
  call := call

/-- A new barrier. -/
def initial : State Mem Op := ⟨⟨0, false, false, [], false, [], [], [], [], []⟩, []⟩

/-- What is done without a further `wait`, and without cancelling a task. -/
def Act.own : Act Op Unit Call → Prop
  | .call .wait | .call (.cancel _) => False
  | _ => True

/-- Nothing is pending: the tasks that have not returned wait, or have been cancelled. -/
def AtRest (m : Mem) (ops : List Op) : Prop := ops = [] ∧ m.handles = []

end Barrier

end Tonio
