import Tonio.Ctl

/-!
# `open_tcp_stream`

`open_tcp_stream` and `_close_all_sockets` of `_net/_hilvl.py`, in both flavours, from where the targets are resolved. The parent spawns
an attempt for each target in a scope, waiting a while for it to fail before the next one; leaves the scope, which aborts the attempts
that are under way if one has cancelled it; reads `winning_socket`, three times; and, whatever the outcome, closes the sockets in
`open_sockets`, one after the other and in any order. An attempt creates its socket and adds it to the set, connects it, stores it in
`winning_socket` and cancels the scope; if the system refuses, it says so.

Which attempts succeed, fail, raise something else (a `CancelledError` among it) or take long is up to the environment, also where the
parent is cancelled. An attempt that is aborted before a worker gets to it does not begin. A `close` that reports an error has closed the
socket. `draining` says that the parent has begun to close, `created`, `connected` and `closed` which sockets were; nothing but the latter
is read, by the system: a closed socket does not connect.
-/

namespace Tonio

namespace TcpStream

open Interleaving
open Ctl (Flavour)

/-- What the parent raises: its `CancelledError`, `assert len(errs) == len(targets)`, an `OSError` from the errors of all attempts, what
reading `winning_socket` again may lead to, that `open_sockets` changes while it is iterated over, or the errors of `close`. -/
inductive Error where
  | cancelled | assertion | allFailed (errs : List Nat) | typeError | keyError | changedSize | closing (errs : List Nat)
  deriving DecidableEq, Repr

/-- How a call ends. -/
inductive Result where
  | returned (sock : Nat) | raised (e : Error)
  deriving DecidableEq, Repr

/-- The shared memory: the variables of the call; of the scope, its flag, the attempts spawned and those that have not begun, which are
aborted and whose events are set; and the sockets, by the number of the attempt. -/
structure Mem where
  winning : Option Nat
  openSockets : List Nat
  errs : List Nat
  failed : Nat → Bool
  cancelled : Bool
  spawned : Nat
  pending : List Nat
  aborted : Nat → Bool
  childEvent : Nat → Bool
  created : List Nat
  connected : List Nat
  closed : List Nat
  draining : Bool
  result : Option Result

/-- The operations. -/
inductive Op where
  -- an attempt, and the wrapper of the scope around it
  | socket (i : Nat) | add (i : Nat) | connect (i : Nat) | win (i : Nat) | cancelScope (i : Nat) | appendErr (i : Nat) | setFailed (i : Nat)
  | childEnd (i : Nat)
  -- the parent
  | spawn | wait (i : Nat) | yieldNow (e : Option Error) | exit (e : Option Error) | join (e : Option Error)
  | check | makeStream | remove (sock : Nat)
  | iter (r : Result) | next (used : Nat) (todo errs : List Nat) (r : Result) | close (sock used : Nat) (todo errs : List Nat) (r : Result)
  | ends (r : Result)
  deriving DecidableEq, Repr

/-- What the environment decides: an `OSError` or another exception of an attempt, the delay of a wait, that the parent is cancelled where
it waits, the next element of a set, and an error of `close`. -/
inductive Choice where
  | go | osError | raises | deadline | cancel | pick (sock : Nat) | fails
  deriving DecidableEq, Repr

/-- The parent leaves the `with` statement of the scope, by an exception or not: an `async with` leaves its scope either way, the call of
the scope that does so otherwise stands after the statement. -/
def leave : Flavour → Option Error → Op
  | .gen, none => .exit none
  | .gen, some e => .iter (.raised e)
  | .colored, e => .yieldNow e

/-- The loop over the targets. -/
def nextTarget (fl : Flavour) (n : Nat) (m : Mem) : Op := if m.spawned < n then .spawn else leave fl none

/-- What an operation does, for `n` targets. -/
def exec (fl : Flavour) (n : Nat) (m : Mem) : Op → Choice → Option (Mem × List Op)
  | .socket i, .go => some ({ m with created := m.created ++ [i] }, [.add i])
  | .socket i, .osError => some (m, [.appendErr i])
  | .socket i, .raises => some (m, [.childEnd i])
  | .add i, .go => some ({ m with openSockets := m.openSockets.insert i }, [.connect i])
  | .connect i, .go => if i ∈ m.closed then none else some ({ m with connected := m.connected ++ [i] }, [.win i])
  | .connect i, .osError => some (m, [.appendErr i])
  | .connect i, .raises => some (m, [.childEnd i])
  | .win i, .go => some ({ m with winning := some i }, [.cancelScope i])
  | .cancelScope i, .go => some ({ m with cancelled := true }, [.childEnd i])
  | .appendErr i, .go => some ({ m with errs := m.errs ++ [i] }, [.setFailed i])
  | .setFailed i, .go => some ({ m with failed := Function.update m.failed i true }, [.childEnd i])
  | .childEnd i, .go => some ({ m with childEvent := Function.update m.childEvent i true }, [])
  | .spawn, .go => some ({ m with spawned := m.spawned + 1, pending := m.pending ++ [m.spawned] }, [.wait m.spawned])
  | .wait i, .go => if m.failed i then some (m, [nextTarget fl n m]) else none
  | .wait _, .deadline => some (m, [nextTarget fl n m])
  | .wait _, .cancel => some (m, [leave fl (some .cancelled)])
  | .yieldNow e, .go => some (m, [.exit e])
  | .yieldNow _, .cancel => some (m, [.iter (.raised .cancelled)])
  | .exit e, .go =>
    some ({ m with
      aborted := fun i => m.aborted i || (m.cancelled && decide (i < m.spawned) && !m.childEvent i)
      childEvent := fun i => m.childEvent i || (m.cancelled && decide (i < m.spawned)) }, [.join e])
  | .join e, .go =>
    if (List.range m.spawned).all m.childEvent then some (m, [e.elim .check (fun e => .iter (.raised e))]) else none
  | .join _, .cancel => some (m, [.iter (.raised .cancelled)])
  | .check, .go =>
    match m.winning with
    | none => some (m, [.iter (.raised (if m.errs.length = n then .allFailed m.errs else .assertion))])
    | some _ => some (m, [.makeStream])
  | .makeStream, .go =>
    match m.winning with
    | none => some (m, [.iter (.raised .typeError)])
    | some i => some (m, [.remove i])
  | .remove sock, .go =>
    match m.winning with
    | none => some (m, [.iter (.raised .keyError)])
    | some i =>
      if i ∈ m.openSockets then some ({ m with openSockets := m.openSockets.erase i }, [.iter (.returned sock)])
      else some (m, [.iter (.raised .keyError)])
  | .iter r, .go => some ({ m with draining := true }, [.next m.openSockets.length m.openSockets [] r])
  | .next used todo errs r, .go =>
    if m.openSockets.length ≠ used then some (m, [.ends (.raised .changedSize)])
    else if todo = [] then some (m, [.ends (if errs = [] then r else .raised (.closing errs))])
    else none
  | .next used todo errs r, .pick sock =>
    if m.openSockets.length = used ∧ sock ∈ todo then some (m, [.close sock used (todo.erase sock) errs r]) else none
  | .close sock used todo errs r, .go => some ({ m with closed := m.closed ++ [sock] }, [.next used todo errs r])
  | .close sock used todo errs r, .fails => some ({ m with closed := m.closed ++ [sock] }, [.next used todo (errs ++ [sock]) r])
  | .ends r, .go => some ({ m with result := some r }, [])
  | _, _ => none

/-- A worker gets to an attempt. -/
def call (m : Mem) (i : Nat) : Option (Mem × List Op) :=
  if i ∈ m.pending then some ({ m with pending := m.pending.erase i }, [if m.aborted i then .childEnd i else .socket i]) else none

/-- A call of `open_tcp_stream` for `n` targets, and its attempts. -/
def machine (fl : Flavour) (n : Nat) : Machine Mem Op Choice Nat where
  exec := exec fl n
  call := call

/-- The memory when the targets are resolved. -/
def Mem.initial : Mem := ⟨none, [], [], fun _ => false, false, 0, [], fun _ => false, fun _ => false, [], [], [], false, none⟩

/-- The targets are resolved. -/
def initial (fl : Flavour) (n : Nat) : State Mem Op := ⟨.initial, [[nextTarget fl n .initial]]⟩

/-! ## What is said about the sockets -/

/-- The socket an operation is about to add. -/
def Op.adding : Op → Option Nat
  | .add i => some i
  | _ => none

/-- Between the two readings of `winning_socket`. -/
def Op.removing : Op → Bool
  | .remove _ => true
  | _ => false

/-- No attempt creates a socket once the parent has begun to close them; none has a socket it has not added when the parent begins; no
attempt stores its socket between the two readings of `winning_socket`; and no error of `close` comes instead of the stream. -/
def Clean (m : Mem) (ops : List Op) : Act Op Choice Nat → Prop
  | .exec (.socket _) .go => m.draining = false
  | .exec (.iter _) _ => ∀ x ∈ ops, x.adding = none
  | .exec (.win _) _ => ∀ x ∈ ops, x.removing = false
  | .exec (.close _ _ _ _ (.returned _)) .fails => False
  | _ => True

end TcpStream

end Tonio
