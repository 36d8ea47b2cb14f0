import Tonio.Interleaving.Weight

/-!
# The registrations of descriptors

`runtime.rs`, `io_register`, `io_deregister`, `cleanup_io` and the loop of `poll` as far as it releases entries and dispatches tokens.
A token is the address of a `ScheduledIO`, and `poll` follows it without asking whether the entry is still there. So an entry that
is deregistered is parked in `io_pending_release`, and `poll` drops what is parked only at its release point, between two batches.

The machine's threads are the thread that polls and the callers; an operation is one atomic access, one operation on the map of
registrations or on the parked entries, or one call of `mio`. What is assumed of the system is in `collect`: a batch has tokens that
are registered with it at that moment, and `deregister` has ended the registration when it returns. `strong` is the reference count
of the `Arc` at an address, and a new entry is put at an address with none.
-/

namespace Tonio

namespace Registry

open Interleaving

/-- The shared memory. `held` counts the references of the Python objects that were handed an entry; `kernel` says which tokens are
registered with the system; `registry` is whether `io_registry` is there, and `stopped` whether the loop has come to `cleanup_io`. -/
structure Mem where
  regs : List Nat
  pending : List Nat
  needsRelease : Bool
  registry : Bool
  kernel : Nat → Bool
  strong : Nat → Nat
  held : Nat → Nat
  stopped : Bool

/-- The operations, on the entry at the address `t`. -/
inductive Op where
  -- `io_register`
  | insert (t : Nat) | register (t : Nat) | undo (t : Nat)
  -- `io_deregister`
  | remove (t : Nat) | deregister (t : Nat) | shutdown (t : Nat) | park (t : Nat) | setNeedsRelease (t : Nat)
  -- `poll`
  | release | clearPending | collect | dispatch (batch : List Nat)
  -- `cleanup_io` and the end of `teardown`
  | cleanup | clearRegs | resetNeedsRelease | clearParked | dropRegistry
  deriving DecidableEq, Repr

/-- What the environment decides: that `mio` refuses a registration, what a batch has, that the loop ends, which entry `cleanup_io`
comes to next. Every other operation goes on. -/
inductive Choice where
  | go | fail | batch (ts : List Nat) | stop | entry (t : Nat)
  deriving DecidableEq, Repr

/-- The calls: `io_register` of an entry at a new address, `io_deregister` by an object that has the entry, and the end of such an
object. -/
inductive Call where
  | register (t : Nat) | deregister (t : Nat) | drop (t : Nat)
  deriving DecidableEq, Repr

/-- Take a key out of the map. -/
def removeKey (regs : List Nat) (t : Nat) : List Nat := regs.filter (· ≠ t)

/-- Count references of an entry up. -/
def Mem.clone (m : Mem) (t n : Nat) : Mem := { m with strong := Function.update m.strong t (m.strong t + n) }

/-- Count references of an entry down. -/
def Mem.release (m : Mem) (t n : Nat) : Mem := { m with strong := Function.update m.strong t (m.strong t - n) }

/-- What an operation does. The references of a thread go with its operations: the entry a registration has made, the borrow a
deregistration lives on and the reference it took out of the map. -/
def exec (m : Mem) : Op → Choice → Option (Mem × List Op)
  | .insert t, .go => some ({ m.clone t 1 with regs := t :: m.regs }, [.register t])
  | .register t, .go =>
    some ({ m with kernel := Function.update m.kernel t true, held := Function.update m.held t (m.held t + 1) }, [])
  | .register t, .fail => some (m, [.undo t])
  | .undo t, .go => some ({ m.release t (1 + m.regs.count t) with regs := removeKey m.regs t }, [])
  | .remove t, .go =>
    if t ∈ m.regs then some ({ m with regs := removeKey m.regs t }, [.deregister t]) else some (m.release t 1, [])
  | .deregister t, .go => some ({ m with kernel := if m.registry then Function.update m.kernel t false else m.kernel }, [.shutdown t])
  | .shutdown t, .go => some (m, [.park t])
  | .park t, .go => some ({ m.clone t 1 with pending := m.pending ++ [t] }, [.setNeedsRelease t])
  | .setNeedsRelease t, .go => some ({ m.release t 2 with needsRelease := true }, [])
  | .release, .go => some ({ m with needsRelease := false }, [if m.needsRelease then .clearPending else .collect])
  | .clearPending, .go =>
    some ({ m with pending := [], strong := fun t => m.strong t - m.pending.count t }, [.collect])
  | .collect, .batch ts => if ts.all m.kernel then some (m, [.dispatch ts]) else none
  -- the token is followed: `set_readiness` and `wake` on the entry
  | .dispatch (_ :: ts), .go => some (m, [.dispatch ts])
  | .dispatch [], .go => some (m, [.release])
  | .dispatch [], .stop => some ({ m with stopped := true }, [.cleanup])
  | .cleanup, .entry t => if t ∈ m.regs then some ({ m with kernel := Function.update m.kernel t false }, [.cleanup]) else none
  | .cleanup, .go => some (m, [.clearRegs])
  | .clearRegs, .go => some ({ m with regs := [], strong := fun t => m.strong t - m.regs.count t }, [.resetNeedsRelease])
  | .resetNeedsRelease, .go => some ({ m with needsRelease := false }, [.clearParked])
  | .clearParked, .go =>
    some ({ m with pending := [], strong := fun t => m.strong t - m.pending.count t }, [.dropRegistry])
  | .dropRegistry, .go => some ({ m with registry := false }, [])
  | _, _ => none

/-- A call. An entry is made at an address nothing refers to, while there is a registry; an object that has an entry may deregister
it, any number of times, and lend its reference for that. -/
def call (m : Mem) : Call → Option (Mem × List Op)
  | .register t => if m.registry ∧ m.strong t = 0 then some (m.clone t 1, [.insert t]) else none
  | .deregister t => if 0 < m.held t then some (m.clone t 1, [.remove t]) else none
  | .drop t => if 0 < m.held t then some ({ m.release t 1 with held := Function.update m.held t (m.held t - 1) }, []) else none

/-- The thread that polls, and the callers around it. -/
def machine : Machine Mem Op Choice Call where
  exec := exec
  call := call

/-- A runtime that begins to poll. -/
def initial : State Mem Op :=
  ⟨⟨[], [], false, true, fun _ => false, fun _ => 0, fun _ => 0, false⟩, [[.release]]⟩

/-! ## What is said about the entries -/

/-- The entry a deregistration has taken out of the map and has not parked yet. -/
def Op.closes : Op → Option Nat
  | .deregister t | .shutdown t | .park t => some t
  | _ => none

/-- The entry at an address has not been released: it is registered, or a deregistration that took it out is in progress, or it is
parked. -/
def Unreleased (m : Mem) (ops : List Op) (t : Nat) : Prop := t ∈ m.regs ∨ (∃ op ∈ ops, op.closes = some t) ∨ t ∈ m.pending

end Registry

end Tonio
