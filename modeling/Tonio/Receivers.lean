import Tonio.Interleaving.Family
import Tonio.Interleaving.Record

/-!
# Receivers of signals

`signals.py`, in both flavours: the coroutines that a `SignalReceiver` spawns, one for each signal. Each waits for the event that `_sig_add` has
made for its signal, clears it, and sends the signal to the channel of the receiver, again and again. The loop of the runtime hands the event to
the workers, each time the signal is dispatched, and a worker sets it.

A cell has one signal: its event, as `events.rs` has it, and its coroutine. An operation is one atomic access, or one piece of code under the mutex
of the event that touches nothing else; a waker that is woken resumes a suspension that nobody else has, and adds its handle to those of the runtime.
A suspension of one event has no sentinel, so `unnotify` holds nothing back. What the channel does with a message, and the `__exit__` of the
receiver, are not part of this module.
-/

namespace Tonio

namespace Receivers

open Interleaving

/-- The memory of a cell. The suspensions of the coroutine are numbered; `consumed` has those that have been resumed, and `handles` counts the
handles that run the coroutine. -/
structure Cell where
  flag : Bool
  locked : Bool
  watchers : List Nat
  dirty : Bool
  next : Nat
  consumed : List Nat
  handles : Nat

/-- The operations. `w` is a suspension. -/
inductive Op where
  -- `Event.set`
  | set | notifyLock | notify
  -- `receiver`, with `Event.clear`
  | clear | unnotify | send
  -- `Event.waiter` and `Waiter::register`
  | waiter | sweep | register | addWaker (w : Nat) | addCheck (w : Nat) | push (w : Nat)
  deriving DecidableEq, Repr

/-- A worker sets the event, for a signal that was dispatched, or runs a handle of the coroutine. -/
inductive Call where
  | set | work
  deriving DecidableEq, Repr

/-- `Waker::wake`: the exchange of `consumed`, and the handle. -/
def Cell.wake (m : Cell) (w : Nat) : Cell :=
  if w ∈ m.consumed then m else { m with consumed := w :: m.consumed, handles := m.handles + 1 }

/-- `rem_stale_wakers`. -/
def Cell.sweep (m : Cell) : Cell :=
  let watchers := m.watchers.rdropWhile (fun w => decide (w ∈ m.consumed))
  { m with watchers := watchers, dirty := if watchers = [] then false else m.dirty }

/-- What an operation does. What takes the mutex blocks while another operation has it. -/
def exec (m : Cell) : Op → Unit → Option (Cell × List Op)
  | .set, _ => some (if m.flag then (m, []) else ({ m with flag := true }, [.notifyLock]))
  | .notifyLock, _ => if m.locked then none else some ({ m with locked := true }, [.notify])
  | .notify, _ =>
    match m.watchers with
    | [] => some ({ m with dirty := false, locked := false }, [])
    | w :: ws => some ({ m with watchers := ws }.wake w, [.notify])
  | .clear, _ => some (if m.flag then ({ m with flag := false }, [.unnotify]) else (m, [.send]))
  | .unnotify, _ => if m.locked then none else some (m, [.send])
  | .send, _ => some (m, [.waiter])
  | .waiter, _ => some (m, [if m.dirty then .sweep else .register])
  | .sweep, _ => if m.locked then none else some (m.sweep, [.register])
  | .register, _ => some ({ m with next := m.next + 1 }, [.addWaker m.next])
  | .addWaker w, _ => if m.locked then none else some ({ m with locked := true }, [.addCheck w])
  -- the flag is looked at under the mutex
  | .addCheck w, _ => some (if m.flag then ({ m with locked := false }.wake w, []) else (m, [.push w]))
  | .push w, _ => some ({ m with watchers := m.watchers ++ [w], dirty := true, locked := false }, [])

/-- A call. -/
def call (m : Cell) : Call → Option (Cell × List Op)
  | .set => some (m, [.set])
  | .work => if m.handles = 0 then none else some ({ m with handles := m.handles - 1 }, [.clear])

/-- The record of a cell: how often `set` was called, and how often it raised the flag; how many messages were sent; and whether one is owed, for a
call of `set` that no message has followed. -/
structure Log where
  calls : Nat
  sets : Nat
  sent : Nat
  owed : Bool

/-- What an act adds to the record. -/
def note (m : Cell) : Act Op Unit Call → Log → Log
  | .call .set, g => { g with calls := g.calls + 1 }
  | .exec .set _, g => { g with sets := if m.flag then g.sets else g.sets + 1, owed := true }
  | .exec .send _, g => { g with sent := g.sent + 1, owed := false }
  | _, g => g

/-- One signal. -/
def machine : Machine (Cell × Log) Op Unit Call := Machine.recording ⟨exec, call⟩ note

/-- A receiver of `n` signals. -/
def receiver (n : Nat) : Machine (Fin n → Cell × Log) (Fin n × Op) Unit (Fin n × Call) := machine.family (Fin n)

/-- The coroutines have been spawned, and come to their first wait. -/
def initial (n : Nat) : State (Fin n → Cell × Log) (Fin n × Op) :=
  ⟨fun _ => (⟨false, false, [], false, 0, [], 0⟩, ⟨0, 0, 0, false⟩), (List.finRange n).map (fun k => [(k, .waiter)])⟩

/-- A worker sets the event of a signal. -/
def IsSet {n : Nat} : Act (Fin n × Op) Unit (Fin n × Call) → Prop
  | .call (_, .set) => True
  | _ => False

/-- Nothing is pending, and the coroutine waits. -/
def AtRest (m : Cell) (ops : List Op) : Prop := ops = [] ∧ m.handles = 0

end Receivers

end Tonio
