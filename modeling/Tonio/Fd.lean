import Tonio.Interleaving.Weight

/-!
# Descriptors

`_fd.py` with `fd.rs` and `proc.rs`: an object that owns a descriptor number until it gives it up, and the `close` that `Fd` and `ProcFd`
have in common; and the `Process` of `_subprocess.py` and `_colored/_subprocess.py`, which closes its `ProcFd` in `returncode`, `poll` and
`wait`. An operation is one look at the object (under its mutex, in Rust) or one call. The numbers are those of the descriptor table of
the process: other objects open and close theirs meanwhile, and a number that was closed may be given to them.

Deregistering from the poller and setting the blocking mode of the descriptor change nothing that is said here. A `close` made by a
context manager or by `__del__` is a `close`. The `_wait_lock` is a FIFO mutex with tickets. `closes` are the numbers passed to `os.close`
by this object, and `stolen` counts those that belonged to somebody else; nothing reads these.
-/

namespace Tonio

namespace Fd

open Interleaving

/-- Whose descriptor a number is. -/
inductive Owner where
  | this | other
  deriving DecidableEq, Repr

/-- The shared memory: the descriptor the object owns, the descriptor table, and the `Process` around it: whether `_pidfd` is set, whether
the child has exited, and the `_wait_lock`. -/
structure Mem where
  inner : Option Nat
  table : Nat → Option Owner
  pidfd : Bool
  exited : Bool
  waitQueue : List Nat
  next : Nat
  closes : List Nat
  stolen : Nat

/-- Who calls `close`: the user of the object, or `_close_pidfd`, called from `wait` or not. -/
inductive Caller where
  | user | process (waiting : Bool)
  deriving DecidableEq, Repr

/-- The operations. A number of `none` is the `-1` of an object that owns nothing. -/
inductive Op where
  -- `Fd.close` and `ProcFd.close`
  | closed (k : Caller) | readFd (k : Caller) | ioClose (k : Caller) (fd : Option Nat) | drop (k : Caller) (fd : Option Nat)
  | osClose (k : Caller) (fd : Option Nat)
  -- `returncode`, `_close_pidfd`
  | poll (waiting : Bool) | pidfdCheck (waiting : Bool) | pidfdLoad (waiting : Bool) | pidfdClear (waiting : Bool)
  -- `wait`
  | acquire | waitLock (ticket : Nat) | armRead | awaitExit | procWait | release
  deriving DecidableEq, Repr

/-- What the environment decides: whether `Popen.poll` finds the child exited, and that a wait is cancelled. -/
inductive Choice where
  | go | running | cancel
  deriving DecidableEq, Repr

/-- The calls, and what happens around the object: the child exits, a number is opened or closed by somebody else. -/
inductive Call where
  | close | returncode | wait | exit | opened (n : Nat) | shut (n : Nat)
  deriving DecidableEq, Repr

/-- What is left to do when `_close_pidfd` is through, or has raised: `wait` releases its lock. -/
def leave (waiting : Bool) : List Op := if waiting then [.release] else []

/-- `close` has returned. -/
def Caller.returned : Caller → List Op
  | .user => []
  | .process waiting => [.pidfdClear waiting]

/-- `close` has raised. -/
def Caller.raised : Caller → List Op
  | .user => []
  | .process waiting => leave waiting

/-- `os.close`: a number nobody owns is an error. -/
def Mem.osClose (m : Mem) (k : Caller) : Option Nat → Mem × List Op
  | none => (m, k.raised)
  | some n =>
    match m.table n with
    | none => ({ m with closes := m.closes ++ [n] }, k.raised)
    | some owner =>
      ({ m with
          table := Function.update m.table n none
          closes := m.closes ++ [n]
          stolen := if owner = .this then m.stolen else m.stolen + 1 }, k.returned)

/-- What an operation does. -/
def exec (m : Mem) : Op → Choice → Option (Mem × List Op)
  | .closed k, .go => some (m, if m.inner = none then k.returned else [.readFd k])
  | .readFd k, .go => some (m, [.ioClose k m.inner])
  | .ioClose k fd, .go => some (m, [.drop k fd])
  | .drop k fd, .go => some ({ m with inner := none }, [.osClose k fd])
  | .osClose k fd, .go => some (m.osClose k fd)
  | .poll waiting, .go => if m.exited then some (m, [.pidfdCheck waiting]) else none
  | .poll waiting, .running => some (m, if waiting then [.armRead] else [])
  | .pidfdCheck waiting, .go => some (m, if m.pidfd then [.pidfdLoad waiting] else leave waiting)
  | .pidfdLoad waiting, .go => some (m, if m.pidfd then [.closed (.process waiting)] else leave waiting)
  | .pidfdClear waiting, .go => some ({ m with pidfd := false }, leave waiting)
  | .acquire, .go => some ({ m with waitQueue := m.waitQueue ++ [m.next], next := m.next + 1 }, [.waitLock m.next])
  | .waitLock ticket, .go => if m.waitQueue.head? = some ticket then some (m, [.poll true]) else none
  | .waitLock ticket, .cancel => some ({ m with waitQueue := m.waitQueue.filter (· ≠ ticket) }, [])
  | .armRead, .go => some (m, if m.pidfd then [.awaitExit] else [.release])
  | .awaitExit, .go => some (m, [.procWait])
  | .awaitExit, .cancel => some (m, [.release])
  | .procWait, .go => if m.exited then some (m, [.pidfdCheck true]) else none
  | .release, .go => some ({ m with waitQueue := m.waitQueue.tail }, [])
  | _, _ => none

/-- What a call does. -/
def call (m : Mem) : Call → Option (Mem × List Op)
  | .close => some (m, [.closed .user])
  | .returncode => some (m, [.poll false])
  | .wait => some (m, [.acquire])
  | .exit => some ({ m with exited := true }, [])
  | .opened n => if m.table n = none then some ({ m with table := Function.update m.table n (some .other) }, []) else none
  | .shut n => if m.table n = some .other then some ({ m with table := Function.update m.table n none }, []) else none

/-- The threads around one object. -/
def machine : Machine Mem Op Choice Call where
  exec := exec
  call := call

/-- An object that owns descriptor `n`. -/
def initial (n : Nat) : State Mem Op :=
  ⟨⟨some n, Function.update (fun _ => none) n (some .this), true, false, [], 0, [], 0⟩, []⟩

/-! ## What is said about the descriptor -/

/-- A closer that has read the descriptor number and has not made the object give it up. -/
def Op.holding : Op → Bool
  | .ioClose _ (some _) | .drop _ (some _) => true
  | _ => false

/-- A closer reads the descriptor number while another one has read it and has not made the object give it up. -/
def Overlaps (m : Mem) (ops : List Op) : Act Op Choice Call → Prop
  | .exec (.readFd _) _ => m.inner ≠ none ∧ ∃ op ∈ ops, op.holding = true
  | _ => False

end Fd

end Tonio
