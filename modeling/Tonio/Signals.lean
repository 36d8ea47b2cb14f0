import Tonio.Interleaving.Record

/-!
# Signals and the loop

`runtime.rs`: the loop of `_run`, with what `poll`, `handle_io_signals` and `read_from_sock` do with signals. A signal that arrives writes
its number to the self-socket. The poll reports the socket, and the loop reads it and hands the event registered for each signal to the
workers. A signal also interrupts the poll: then the poll is made once more without waiting, so that the byte of the signal is seen, and
the loop goes on if `sig_loop_handled` is up, and takes it down; otherwise it leaves, for an interrupt that nobody handles.

The machine's one thread is the loop; an operation is one system call, one access to the maps and flags of the runtime, or a
piece of code that touches nothing shared. The calls are those of other threads and of the signals: `_sig_add`, `_sig_rem`, the setters of
`_sig_listening` and `_stopping`, a byte in the self-socket, and a run of the loop when none is in progress. What the events of other
sockets and the timers of a poll do is not part of this module.
-/

namespace Tonio

namespace Signals

open Interleaving

/-- The tokens of the events: `TOKEN_WAKER`, `TOKEN_SIGNALS`, and those of the registered sockets. -/
inductive Token where
  | waker | signals | io (k : Nat)
  deriving DecidableEq, Repr

/-- What a poll returns. -/
inductive Res where
  | ok | interrupted | failed
  deriving DecidableEq, Repr

/-- The shared memory. `sock` has the bytes that wait in the self-socket, `handles` the events handed to the workers; events are numbered in
the order of their registration. `running` says that `_run` is in its loop. -/
structure Mem where
  sock : List Nat
  sigHandlers : Nat → Option Nat
  next : Nat
  sigListening : Bool
  sigLoopHandled : Bool
  stopping : Bool
  running : Bool
  handles : List Nat

/-- The operations of the loop. `r` is what the poll in progress returns, `evs` the events it has still to handle, and `buf` the bytes read
from the self-socket, or those not looked at yet. -/
inductive Op where
  -- `_run`
  | check | decide (r : Res)
  -- `poll`
  | poll | retry | handle (r : Res) (evs : List Token)
  -- `handle_io_signals`, with `read_from_sock`
  | read (r : Res) (buf : List Nat) (evs : List Token) | listening (r : Res) (buf : List Nat) (evs : List Token)
  | get (r : Res) (buf : List Nat) (evs : List Token) | handled (r : Res) (sig e : Nat) (buf : List Nat) (evs : List Token)
  | addIoHandle (r : Res) (e : Nat) (buf : List Nat) (evs : List Token)
  deriving DecidableEq, Repr

/-- What the system decides: the events a poll reports, how many bytes a read returns, that either is interrupted, or that it returns
nothing or an error. Every other operation goes on. -/
inductive Choice where
  | go | events (evs : List Token) | bytes (k : Nat) | interrupted | failed
  deriving DecidableEq, Repr

/-- The calls of other threads, and what signals do. -/
inductive Call where
  | run | signal (sig : Nat) | sigAdd (sig : Nat) | sigRem (sig : Nat) | setListening (b : Bool) | setStopping (b : Bool)
  deriving DecidableEq, Repr

/-- The length of the buffer of `RuntimeState`. -/
def bufLen : Nat := 4096

/-- The next event of a poll; after the last one the poll returns. -/
def nextEvent (r : Res) : List Token → Op
  | [] => .decide r
  | .signals :: evs => .read r [] evs
  | _ :: evs => .handle r evs

/-- The next byte that was read from the self-socket. -/
def nextByte (m : Mem) (r : Res) (evs : List Token) : List Nat → Op
  | [] => .handle r evs
  | sig :: buf =>
    match m.sigHandlers sig with
    | some e => .handled r sig e buf evs
    | none => .get r buf evs

/-- What an operation of the loop does. -/
def exec (m : Mem) : Op → Choice → Option (Mem × List Op)
  | .check, .go => some (if m.stopping then ({ m with running := false }, []) else (m, [.poll]))
  | .poll, .events evs => some (m, [.handle .ok evs])
  | .poll, .interrupted => some (m, [.retry])
  -- a poll that fails reports no event
  | .poll, .failed => some (m, [.handle .failed []])
  | .retry, .events evs => some (m, [.handle .interrupted evs])
  | .retry, .interrupted | .retry, .failed => some (m, [.handle .interrupted []])
  | .handle r evs, .go => some (m, [nextEvent r evs])
  | .read r buf evs, .bytes k =>
    if 0 < k ∧ k ≤ m.sock.length ∧ buf.length + k ≤ bufLen then
      some ({ m with sock := m.sock.drop k }, [.read r (buf ++ m.sock.take k) evs])
    else none
  | .read r buf evs, .interrupted => some (m, [.read r buf evs])
  -- nothing to read, no place left in the buffer, or an error
  | .read r buf evs, .failed => some (m, [.listening r buf evs])
  | .listening r buf evs, .go => some (m, [if 0 < buf.length ∧ m.sigListening then .get r buf evs else .handle r evs])
  | .get r buf evs, .go => some (m, [nextByte m r evs buf])
  | .handled r _ e buf evs, .go => some ({ m with sigLoopHandled := true }, [.addIoHandle r e buf evs])
  | .addIoHandle r e buf evs, .go => some ({ m with handles := m.handles ++ [e] }, [.get r buf evs])
  | .decide .ok, .go => some (m, [.check])
  | .decide .interrupted, .go =>
    some (if m.sigLoopHandled then ({ m with sigLoopHandled := false }, [.check]) else ({ m with running := false }, []))
  | .decide .failed, .go => some ({ m with running := false }, [])
  | _, _ => none

/-- A call. Each run of the loop has a self-socket of its own. -/
def call (m : Mem) : Call → Option (Mem × List Op)
  | .run => if m.running then none else some ({ m with running := true, sock := [] }, [.check])
  | .signal sig => some ({ m with sock := m.sock ++ [sig] }, [])
  | .sigAdd sig => some ({ m with sigHandlers := Function.update m.sigHandlers sig (some m.next), next := m.next + 1 }, [])
  | .sigRem sig => some ({ m with sigHandlers := Function.update m.sigHandlers sig none }, [])
  | .setListening b => some ({ m with sigListening := b }, [])
  | .setStopping b => some ({ m with stopping := b }, [])

/-- The loop and the calls around it. -/
def machine : Machine Mem Op Choice Call where
  exec := exec
  call := call

/-! ## The record of the polls -/

/-- A poll that is over: what it returned, and the signals it dispatched to a registered event. -/
structure Poll where
  res : Res
  dispatched : List Nat
  deriving DecidableEq, Repr

/-- The polls that are over, the last one first, and the signals dispatched by the poll in progress. -/
structure Log where
  polls : List Poll
  dispatched : List Nat

/-- What an operation adds to the record. -/
def note (_ : Mem) : Act Op Choice Call → Log → Log
  | .exec (.handled _ sig _ _ _) _, g => { g with dispatched := g.dispatched ++ [sig] }
  | .exec (.decide r) _, g => ⟨⟨r, g.dispatched⟩ :: g.polls, []⟩
  | _, g => g

/-- The loop with the record of its polls. -/
def recorded : Machine (Mem × Log) Op Choice Call := machine.recording note

/-- A new runtime. -/
def initial : State (Mem × Log) Op := ⟨(⟨[], fun _ => none, 0, false, false, false, false, []⟩, ⟨[], []⟩), []⟩

/-- Signals are left over from earlier polls: one that was not interrupted has dispatched a signal, and none has been interrupted since. -/
def Leftover : List Poll → Prop
  | [] => False
  | p :: ps => p.res ≠ .interrupted ∧ (p.dispatched ≠ [] ∨ Leftover ps)

instance decidableLeftover : (ps : List Poll) → Decidable (Leftover ps)
  | [] => inferInstanceAs (Decidable False)
  | p :: ps =>
    have := decidableLeftover ps
    inferInstanceAs (Decidable (p.res ≠ .interrupted ∧ (p.dispatched ≠ [] ∨ Leftover ps)))

end Signals

end Tonio
