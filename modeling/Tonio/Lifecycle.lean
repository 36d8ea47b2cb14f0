import Tonio.Interleaving.Machine

/-!
# The life of a loop

`Runtime.run_forever` of `_runtime.py`, with `_ssock_start`, `_ssock_stop`, `_sig_reg` and `_sig_dereg`, the functions of `_signals.py` they
call, and what `_run` (`runtime.rs`) does with the self-socket. The descriptors of the self-socket have two owners: the sockets of Python,
which close them when they are collected, and the sockets `init_sig_socket` makes of the same numbers, which close them when `_run` returns.

The machine's threads are those that call `run_forever`; an operation is one system call, or one access to an attribute of the runtime. The
calls are those of other threads, which open and close descriptors of their own and stop the loop, and the signals. What the loop does
while it runs is in `serve`.
-/

namespace Tonio

namespace Lifecycle

open Interleaving

/-- What is done about a signal: `SIG_DFL`, `default_int_handler`, `SIG_IGN`, `_noop`, or any other handler. -/
inductive Handler where
  | sigDfl | defaultInt | sigIgn | noop | other (n : Nat)
  deriving DecidableEq, Repr

/-- The handlers of Python: the number of their signal is written to the wakeup descriptor. -/
def Handler.wakes : Handler → Bool
  | .sigDfl | .sigIgn => false
  | _ => true

/-- `signal.SIGINT`. -/
def sigint : Nat := 2

/-- The handler that `_sig_rem` installs. -/
def defaultHandler (sig : Nat) : Handler := if sig = sigint then .defaultInt else .sigDfl

/-- Whose an open descriptor is: an end of a self-socket, or another thread's. Of the latter it is noted whether the runtime still referred
to the number when it was opened. -/
inductive Owner where
  | ours | other (stale : Bool)
  deriving DecidableEq, Repr

/-- What happened to an open descriptor: it was closed by the runtime, or the number of a signal was written to it. -/
inductive Touch where
  | close (n : Nat) (o : Owner) | write (n : Nat) (o : Owner)
  deriving DecidableEq, Repr

/-- Whose the descriptor was. -/
def Touch.owner : Touch → Owner
  | .close _ o | .write _ o => o

/-- The errors: those of the runtime itself, and every other. -/
inductive Error where
  | runtimeError (message : String) | other (n : Nat)
  deriving DecidableEq, Repr

def alreadySetup : Error := .runtimeError "self-socket has been already setup"

def notSetup : Error := .runtimeError "self-socket has not been setup"

/-- What is known of the last `run_forever`: the handlers and the wakeup descriptor it found, and how it has ended. -/
structure Run where
  handlers : Nat → Handler
  wakeup : Option Nat
  ended : Option (Option Error)

/-- The shared memory: the descriptors of the process, its handlers and its wakeup descriptor, the attributes of the runtime, and the
descriptors that sockets of `_run` own. `touched` and `last` are records; nothing reads them. -/
structure Mem where
  fds : Nat → Option Owner
  handlers : Nat → Handler
  wakeup : Option Nat
  ssockR : Option Nat
  ssockW : Option Nat
  sigWfd : Option Nat
  sigListening : Bool
  stopping : Bool
  owned : List Nat
  touched : List Touch
  last : Option Run

/-- The operations. `main` says that the thread is the main thread, and `e` is the exception in flight. -/
inductive Op where
  -- `_ssock_start`
  | start (main : Bool) | socketpair (main : Bool) | setBlocking (main : Bool)
  -- `_sig_reg`, with `_sig_add`
  | setWakeupFd (main : Bool) | sigAdd (main : Bool) (sigs : List Nat) | siginterrupt (main : Bool) (sigs : List Nat)
  -- `_run`, with `init_sig_socket` and the end of `RuntimeState`
  | poll (main : Bool) | fromRawFd (main : Bool) | serve (main : Bool) (r w : Nat) | dropState (main : Bool) (e : Option Error) (ns : List Nat)
  -- `_sig_dereg`, with `_sig_rem`
  | sigDereg (main : Bool) (e : Option Error) | sigRem (main : Bool) (e : Option Error) (sigs : List Nat) | restore (main : Bool) (e : Option Error)
  -- `_ssock_stop`, and the end of `_run_forever_post`
  | ssockStop (e : Option Error) | dropR (e : Option Error) | resetStopping (e : Option Error)
  deriving DecidableEq, Repr

/-- What the environment decides: the numbers of a pair of sockets, and what raises. -/
inductive Choice where
  | go | pair (r w : Nat) | fail (e : Error)
  deriving DecidableEq, Repr

/-- The calls: `run_forever`, what other threads do, and the signals. -/
inductive Call where
  | runForever (main : Bool) | openFd (n : Nat) | closeFd (n : Nat) | signal (sig : Nat) | stop
  deriving DecidableEq, Repr

/-- A descriptor is closed, whoever has it. -/
def Mem.close (m : Mem) (n : Nat) : Mem :=
  { m with fds := Function.update m.fds n none, touched := m.touched ++ (m.fds n).toList.map (.close n) }

/-- The attribute `_ssock_r` is set, and the socket that was there is collected. -/
def Mem.setR (m : Mem) (v : Option Nat) : Mem :=
  match m.ssockR with
  | some n => { m.close n with ssockR := v }
  | none => { m with ssockR := v }

/-- The attribute `_ssock_w` is set, and the socket that was there is collected. -/
def Mem.setW (m : Mem) (v : Option Nat) : Mem :=
  match m.ssockW with
  | some n => { m.close n with ssockW := v }
  | none => { m with ssockW := v }

/-- The end of `run_forever`. -/
def Mem.ends (m : Mem) (e : Option Error) : Mem := { m with last := m.last.map (fun r => { r with ended := some e }) }

/-- The runtime would close the number, or is closing it. -/
def Mem.Closes (m : Mem) (n : Nat) : Prop := n ∈ m.owned ∨ m.ssockR = some n ∨ m.ssockW = some n

/-- The number is the wakeup descriptor, or the one `_sig_wfd` keeps. -/
def Mem.Wakes (m : Mem) (n : Nat) : Prop := m.wakeup = some n ∨ m.sigWfd = some n

instance (m : Mem) (n : Nat) : Decidable (m.Closes n) := inferInstanceAs (Decidable (_ ∨ _))

instance (m : Mem) (n : Nat) : Decidable (m.Wakes n) := inferInstanceAs (Decidable (_ ∨ _))

/-- The operations in which the self-socket is in use, or none is there. -/
def Op.serves : Op → Bool
  | .socketpair _ | .setBlocking _ | .setWakeupFd _ | .sigAdd _ _ | .siginterrupt _ _ | .poll _ | .fromRawFd _ | .serve _ _ _ => true
  | _ => false

variable (sigset : List Nat)

/-- What an operation does. -/
def exec (m : Mem) : Op → Choice → Option (Mem × List Op)
  | .start main, .go => some (m, [if m.ssockW.isSome then .sigDereg main (some alreadySetup) else .socketpair main])
  | .socketpair main, .pair r w =>
    if r ≠ w ∧ m.fds r = none ∧ m.fds w = none then
      some (({ m with fds := Function.update (Function.update m.fds r (some .ours)) w (some .ours) }.setR (some r)).setW (some w), [.setBlocking main])
    else none
  | .socketpair main, .fail e => some (m, [.sigDereg main (some e)])
  | .setBlocking main, .go => some (m, [.setWakeupFd main])
  | .setBlocking main, .fail e => some ((m.setW none).setR none, [.sigDereg main (some e)])
  | .setWakeupFd main, .go =>
    match m.ssockW with
    | some w =>
      if main ∧ (m.fds w).isSome then some ({ m with wakeup := some w, sigWfd := m.wakeup }, [.sigAdd main sigset]) else none
    | none => none
  -- without signals to listen to, an error is passed over
  | .setWakeupFd main, .fail e => some (m, [if sigset = [] then .poll main else .sigDereg main (some e)])
  | .sigAdd main (sig :: sigs), .go => some ({ m with handlers := Function.update m.handlers sig .noop }, [.siginterrupt main sigs])
  | .sigAdd main (_ :: _), .fail e => some (m, [.sigDereg main (some e)])
  | .sigAdd main [], .go => some ({ m with sigListening := true }, [.poll main])
  | .siginterrupt main sigs, .go => some (m, [.sigAdd main sigs])
  | .siginterrupt main _, .fail e => some (m, [.sigDereg main (some e)])
  | .poll main, .go => some (m, [.fromRawFd main])
  | .poll main, .fail e => some (m, [.sigDereg main (some e)])
  | .fromRawFd main, .go =>
    match m.ssockR, m.ssockW with
    | some r, some w => some ({ m with owned := r :: w :: m.owned }, [.serve main r w])
    | _, _ => none
  | .fromRawFd main, .fail e => if m.ssockR = none ∨ m.ssockW = none then some (m, [.sigDereg main (some e)]) else none
  | .serve main r w, .go => some (m, [.dropState main none [r, w]])
  | .serve main r w, .fail e => some (m, [.dropState main (some e) [r, w]])
  | .dropState main e (n :: ns), .go => some ({ m.close n with owned := m.owned.erase n }, [.dropState main e ns])
  | .dropState main e [], .go => some (m, [.sigDereg main e])
  | .sigDereg main e, .go =>
    if m.sigListening then some ({ m with sigListening := false }, [.sigRem main e sigset]) else some (m, [.ssockStop e])
  | .sigRem main e (sig :: sigs), .go =>
    if main then some ({ m with handlers := Function.update m.handlers sig (defaultHandler sig) }, [.sigRem main e sigs]) else none
  | .sigRem main e (_ :: sigs), .fail _ => some (m, [.sigRem main e sigs])
  | .sigRem main e [], .go => some (m, [.restore main e])
  | .restore main e, .go =>
    if main ∧ ∀ p ∈ m.sigWfd, (m.fds p).isSome then some ({ m with wakeup := m.sigWfd }, [.ssockStop e]) else none
  | .restore _ _, .fail e => some (m.ends (some e), [])
  | .ssockStop e, .go => some (if m.ssockW.isSome then (m.setW none, [.dropR e]) else (m.ends (some notSetup), []))
  | .dropR e, .go => some (m.setR none, [.resetStopping e])
  | .resetStopping e, .go => some ({ m with stopping := false }.ends e, [])
  | _, _ => none

/-- A call. A descriptor is opened at any free number; a signal is written to the wakeup descriptor if there is one, and it is open. -/
def call (m : Mem) : Call → Option (Mem × List Op)
  | .runForever main => some ({ m with last := some ⟨m.handlers, m.wakeup, none⟩ }, [.start main])
  | .openFd n =>
    if m.fds n = none then some ({ m with fds := Function.update m.fds n (some (.other (m.Closes n ∨ m.Wakes n))) }, []) else none
  | .closeFd n =>
    match m.fds n with
    | some (.other _) => some ({ m with fds := Function.update m.fds n none }, [])
    | _ => none
  | .signal sig =>
    match m.wakeup with
    | some n =>
      if (m.handlers sig).wakes then some ({ m with touched := m.touched ++ (m.fds n).toList.map (.write n) }, []) else some (m, [])
    | none => some (m, [])
  | .stop => some ({ m with stopping := true }, [])

/-- The threads that run the loop, and the calls around them. -/
def machine : Machine Mem Op Choice Call where
  exec := exec sigset
  call := call

/-- A runtime that has not run, in a process with handlers, a wakeup descriptor and open descriptors. -/
def initial (handlers : Nat → Handler) (wakeup : Option Nat) (opened : Nat → Bool) : State Mem Op :=
  ⟨⟨fun n => if opened n then some (.other (wakeup = some n)) else none, handlers, wakeup, none, none, none, false, false, [], [], none⟩, []⟩

/-- `run_forever` is not called while it runs. -/
def OneAtATime (_ : Mem) (ops : List Op) : Act Op Choice Call → Prop
  | .call (.runForever _) => ops = []
  | _ => True

instance (m : Mem) (ops : List Op) (a : Act Op Choice Call) : Decidable (OneAtATime m ops a) := by
  unfold OneAtATime
  split <;> infer_instance

end Lifecycle

end Tonio
