import Tonio.Resources.Program

/-!
# Processes that are opened

`_subprocess.py`, in both flavours: `open_process`, with `_pipe_to_child_stdin`, `_pipe_from_child_output` and its two `ExitStack`s, and what
`Process.__init__` opens, as a program that holds the ends of its pipes, the child and its `pidfd`. A call of the system may raise anything; a
`close` that raises has closed the descriptor. What is made of a descriptor, `Fd::new` and `ProcFd::new`, owns it before it is registered, so a
descriptor that cannot be registered is closed, but one whose blocking mode cannot be set is not. The finalizer of an `Fd` is left out: what is held
is what no statement has closed.
-/

namespace Tonio

namespace Popen

open Resources

/-- A `TypeError`, `ProcessLookupError`, and every other exception. -/
inductive Error where
  | typeError (message : String) | processLookupError | other (n : Nat)
  deriving DecidableEq, Repr

/-- What is passed for a stream. -/
inductive Target where
  | inherit | pipe | stdout | other (fd : Nat)
  deriving DecidableEq, Repr

/-- The command: a string or bytes, or a sequence. -/
inductive Command where
  | string | sequence
  deriving DecidableEq, Repr

/-- The arguments of `open_process`: the options of its check that are set, and `shell`. -/
structure Arguments where
  command : Command
  stdin : Target
  stdout : Target
  stderr : Target
  options : List String
  shell : Bool

/-- What `Popen` is given for a stream: nothing, the end of a pipe, or what was passed. -/
inductive Stream where
  | inherit | fd (fd : Nat) | stdout
  deriving DecidableEq, Repr

/-- The variables of `open_process`: the streams, what `Popen` is given, the callbacks of the two stacks, the last one first, and the child. -/
structure Vars where
  wstdin : Option Nat
  wstdout : Option Nat
  wstderr : Option Nat
  stdin : Stream
  stdout : Stream
  stderr : Stream
  alwaysCleanup : List Nat
  cleanupOnFail : List Nat
  popen : Option Nat

/-- What is returned: the child, its `pidfd` if it has not been reaped, and the streams. -/
structure Process where
  popen : Nat
  pidfd : Option Nat
  stdin : Option Nat
  stdout : Option Nat
  stderr : Option Nat

/-- What a process holds. -/
def Process.held (p : Process) : Multiset Nat :=
  p.popen ::ₘ (↑p.pidfd.toList + ↑p.stdin.toList + ↑p.stdout.toList + ↑p.stderr.toList)

/-- The options that are refused, in the order they are looked at. -/
def refused : List String := ["universal_newlines", "text", "encoding", "errors", "bufsize"]

/-- The checks of `open_process`, on a POSIX system. -/
def check (a : Arguments) : Option Error :=
  match refused.find? (fun key => a.options.contains key) with
  | some key =>
    some (.typeError ("tonio.Process only supports communicating over unbuffered byte streams; the '" ++ key ++ "' option is not supported"))
  | none =>
    if a.command = .string ∧ a.shell = false then
      some (.typeError "command must be a sequence (not a string or bytes) if shell=False on UNIX systems")
    else if a.command = .sequence ∧ a.shell = true then
      some (.typeError "command must be a string or bytes (not a sequence) if shell=True on UNIX systems")
    else none

/-- What `Popen` is given where no pipe is asked for. -/
def Target.stream : Target → Stream
  | .other fd => .fd fd
  | .stdout => .stdout
  | _ => .inherit

/-- What the runtime answers for a descriptor: the error of `os.get_blocking` and `os.set_blocking`, and of its registration with the poller. -/
structure Runtime where
  blocking : Nat → Option Error
  register : Nat → Option Error

variable (S : System Error) (R : Runtime)

/-- `os.pipe`: the end to read from, and the end to write to. -/
def pipe {σ : Type} : Program Error σ (Nat × Nat) := do
  let rfd ← acquire S
  let wfd ← take
  pure (rfd, wfd)

/-- A descriptor that is owned is registered, or closed. -/
def ioRegister {σ : Type} (fd : Nat) : Program Error σ Nat :=
  match R.register fd with
  | some e => do
    drop fd
    throw e
  | none => pure fd

/-- `FdStream`, and the `Fd` it makes. -/
def fdStream {σ : Type} (fd : Nat) : Program Error σ Nat :=
  match R.blocking fd with
  | some e => throw e
  | none => ioRegister R fd

/-- The callbacks of a pipe are put on the stacks. -/
def Vars.push (v : Vars) (stream fd : Nat) : Vars :=
  { v with alwaysCleanup := fd :: v.alwaysCleanup, cleanupOnFail := stream :: v.cleanupOnFail }

/-- `Popen`, in a thread; after it nothing is left to do on failure. -/
def popen : Program Error Vars Unit := do
  let child ← acquire S
  assign (fun v => { v with popen := some child, cleanupOnFail := [] })

/-- The variables of a call. -/
def Vars.initial : Vars := ⟨none, none, none, .inherit, .inherit, .inherit, [], [], none⟩

/-- The streams that have been made. -/
def Vars.streams (v : Vars) : Multiset Nat := ↑v.wstdin.toList + ↑v.wstdout.toList + ↑v.wstderr.toList

end Popen

end Tonio
