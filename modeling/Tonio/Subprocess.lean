import Tonio.Interleaving.Machine

/-!
# `run_process`

`_subprocess.py`, in both flavours: `run_process` runs a command, feeds its stdin, collects its stdout and stderr, waits for it to exit and
for the three tasks, and returns a `CompletedProcess` or raises a `CalledProcessError`.

The machine has the caller, its tasks, the pipes between it and the processes, and the processes: the one it starts and what that one
forks, which inherit the ends of the pipes and may outlive it. A pipe holds a bounded number of bytes. A process puts in and takes out what
it likes, as far as the pipe lets it; a process that has to wait makes no step. The caller's own writes do not block, and the system lets
one of no more than `atomic` bytes through whole or not at all. Waiting for a stream is one step with the system call that ends the wait
(`Tonio.Socket`). A call that the system interrupts is made again, and is left out.
-/

namespace Tonio

namespace Subprocess

open Interleaving

/-- The standard streams. -/
inductive Stdio where
  | stdin | stdout | stderr
  deriving DecidableEq, Repr

/-- The bytes a pipe holds, and those a write that does not block puts there at once. -/
structure Kernel where
  capacity : Nat
  atomic : Nat
  atomic_pos : 0 < atomic
  atomic_le : atomic ≤ capacity

/-! ## The arguments -/

/-- What is passed for `stdin`: a string, bytes, or what `Popen` takes. -/
inductive Stdin where
  | str | bytes (input : List UInt8) | pipe | other
  deriving DecidableEq, Repr

/-- What is passed in `options` for `stdout` or `stderr`. -/
inductive Target where
  | pipe | other
  deriving DecidableEq, Repr

/-- The arguments of `run_process`. -/
structure Arguments where
  stdin : Stdin
  stdout : Option Target
  stderr : Option Target
  captureStdout : Bool
  captureStderr : Bool
  check : Bool

/-- The errors of the arguments. -/
inductive ArgumentError where
  | unicodeError (message : String) | valueError (message : String)
  deriving DecidableEq, Repr

/-- What the command is run with: what it is fed, the streams that are pipes, and those that are captured. What is fed or captured goes
through a pipe. -/
structure Config where
  input : Option (List UInt8)
  piped : Stdio → Bool
  captures : Stdio → Bool
  check : Bool
  fed_piped : input.isSome = true → piped .stdin = true
  captured_piped : ∀ e, captures e = true → piped e = true
  captures_output : captures .stdin = false

/-- The stream a target is: a pipe if it is captured, or if `options` says so. -/
def isPipe (capture : Bool) (target : Option Target) : Bool := capture || target == some .pipe

/-- `input_`. -/
def Stdin.input : Stdin → Option (List UInt8)
  | .bytes input => some input
  | _ => none

/-- What the arguments ask for. -/
def Arguments.config (a : Arguments) : Config where
  input := a.stdin.input
  piped
    | .stdin => a.stdin.input.isSome || a.stdin == .pipe
    | .stdout => isPipe a.captureStdout a.stdout
    | .stderr => isPipe a.captureStderr a.stderr
  captures
    | .stdin => false
    | .stdout => a.captureStdout
    | .stderr => a.captureStderr
  check := a.check
  fed_piped := by intro h; simp only [h, Bool.true_or]
  captured_piped := by intro e h; induction e using Stdio.casesOn <;> simp_all [isPipe]
  captures_output := rfl

/-- `run_process` looks at its arguments. -/
def prepare (a : Arguments) : Except ArgumentError Config :=
  if a.stdin = .str then .error (.unicodeError "process stdin must be bytes, not str")
  else if a.captureStdout = true ∧ a.stdout.isSome = true then .error (.valueError "can't specify both stdout and capture_stdout")
  else if a.captureStderr = true ∧ a.stderr.isSome = true then .error (.valueError "can't specify both stderr and capture_stderr")
  else .ok a.config

/-! ## The run -/

/-- The child: not yet there, running, or a zombie with its status. -/
inductive Child where
  | unborn | running | exited (status : Int)
  deriving DecidableEq, Repr

/-- How `run_process` ends: it returns a `CompletedProcess`, it raises a `CalledProcessError`, the `ExceptionGroup` of its tasks, what `Popen`
has raised, or it is cancelled. -/
inductive Outcome where
  | completed (returncode : Int) (stdout stderr : Option (List UInt8))
  | calledProcessError (returncode : Int) (output stderr : Option (List UInt8))
  | spawnExceptionGroup | popenError | cancelled
  deriving DecidableEq, Repr

/-- The shared memory. Of each stream that is a pipe: the bytes in it, whether the caller's `FdStream` is open and whether the end it made
for the child is, and how many ends the processes hold. Of the caller: the chunks, the tasks it has handed to the runtime and that have not
begun, the acknowledgements of their barrier and how many have failed. `fed` and `wrote` are what the processes have taken from stdin and put
into their outputs, which nobody reads. -/
structure Mem where
  child : Child
  data : Stdio → List UInt8
  stream : Stdio → Bool
  childEnd : Stdio → Bool
  held : Stdio → Nat
  chunks : Stdio → List (List UInt8)
  spawned : List Stdio
  acks : Nat
  errs : Nat
  outcome : Option Outcome
  fed : List UInt8
  wrote : Stdio → List UInt8

/-- The operations: those of `run_process` with `open_process`, of which `unwind` has the callbacks that are left in `cleanup_on_fail` and in
`always_cleanup`, and those of `feed_input` and `read_output` in their wrappers. -/
inductive Op where
  | popen | unwind (streams ends : List Stdio) (failed : Bool) | spawn | wait | join | raises (o : Outcome)
  | sendAll (sent : Nat) | receiveSome (e : Stdio) | close (e : Stdio) | ack (e : Stdio)
  deriving DecidableEq, Repr

/-- What the system decides: a write or a read of so many bytes, an `EPIPE`, the end of a stream, any other error, and that the caller is
cancelled where it waits. -/
inductive Choice where
  | go | moved (n : Nat) | broken | eof | raises | leave
  deriving DecidableEq, Repr

/-- What the runtime and the processes do: a worker gets to a task; the processes write, read, duplicate an end (a fork) or close one, and
the child exits. -/
inductive Call where
  | start (e : Stdio) | write (e : Stdio) (bytes : List UInt8) | read (n : Nat) | dup (e : Stdio) | drop (e : Stdio) | exit (status : Int)
  deriving DecidableEq, Repr

variable (K : Kernel) (cfg : Config)

/-- The streams that are pipes, in the order of an `ExitStack`: the last one is closed first. -/
def pipes : List Stdio := [.stderr, .stdout, .stdin].filter cfg.piped

/-- The tasks. -/
def tasks : List Stdio := (if cfg.input.isSome then [.stdin] else []) ++ [.stdout, .stderr].filter cfg.captures

/-- The loop of `send_all`, and then the end of the `with` block. -/
def feeding (sent : Nat) : List Op := if sent < (cfg.input.getD []).length then [.sendAll sent] else [.close .stdin]

/-- A task. -/
def task : Stdio → List Op
  | .stdin => feeding cfg 0
  | e => [.receiveSome e]

/-- Somebody may still read what is written into a pipe, or write into it: the end is open in the caller, or in a process. -/
def Mem.attached (m : Mem) (e : Stdio) : Prop := m.childEnd e = true ∨ 0 < m.held e

instance (m : Mem) (e : Stdio) : Decidable (m.attached e) := by unfold Mem.attached; infer_instance

/-- What has been captured. -/
def Mem.captured (m : Mem) (e : Stdio) : Option (List UInt8) := if cfg.captures e then some (m.chunks e).flatten else none

/-- What `run_process` returns or raises when its tasks are over. -/
def Mem.conclude (m : Mem) (status : Int) : Outcome :=
  if m.errs ≠ 0 then .spawnExceptionGroup
  else if status ≠ 0 ∧ cfg.check = true then .calledProcessError status (m.captured cfg .stdout) (m.captured cfg .stderr)
  else .completed status (m.captured cfg .stdout) (m.captured cfg .stderr)

/-- What a write of `n` bytes at most is let through with: what fits, and a small one whole. -/
def Kernel.admits (free n remaining : Nat) : Bool := decide (0 < n ∧ n ≤ free ∧ n ≤ remaining ∧ (n = remaining ∨ K.atomic < remaining))

/-- What an operation does. -/
def exec (m : Mem) : Op → Choice → Option (Mem × List Op)
  | .popen, .go =>
    some ({ m with child := .running, held := fun e => if cfg.piped e then 1 else 0 }, [.unwind [] (pipes cfg) false])
  | .popen, .raises => some (m, [.unwind (pipes cfg) (pipes cfg) true])
  | .unwind (e :: streams) ends failed, .go =>
    some ({ m with stream := Function.update m.stream e false }, [.unwind streams ends failed])
  | .unwind [] (e :: ends) failed, .go =>
    some ({ m with childEnd := Function.update m.childEnd e false }, [.unwind [] ends failed])
  | .unwind [] [] failed, .go => some (m, [if failed then .raises .popenError else .spawn])
  | .spawn, .go => some ({ m with spawned := tasks cfg }, [.wait])
  | .wait, .go =>
    match m.child with
    | .exited _ => some (m, [.join])
    | _ => none
  | .wait, .leave => some (m, [.raises .cancelled])
  | .join, .go =>
    match m.child with
    | .exited status => if m.acks = (tasks cfg).length then some ({ m with outcome := some (m.conclude cfg status) }, []) else none
    | _ => none
  | .join, .leave => some (m, [.raises .cancelled])
  | .raises o, .go => some ({ m with outcome := some o }, [])
  | .sendAll sent, .moved n =>
    if m.attached .stdin ∧ K.admits (K.capacity - (m.data .stdin).length) n ((cfg.input.getD []).length - sent) = true then
      some ({ m with data := Function.update m.data .stdin (m.data .stdin ++ ((cfg.input.getD []).drop sent).take n) }, feeding cfg (sent + n))
    else none
  | .sendAll _, .broken => if m.attached .stdin then none else some (m, [.close .stdin])
  | .sendAll _, .raises => some ({ m with errs := m.errs + 1 }, [.close .stdin])
  | .receiveSome e, .moved n =>
    if 0 < n ∧ n ≤ (m.data e).length ∧ n ≤ 65536 then
      some ({ m with
        data := Function.update m.data e ((m.data e).drop n)
        chunks := Function.update m.chunks e (m.chunks e ++ [(m.data e).take n]) }, [.receiveSome e])
    else none
  | .receiveSome e, .eof => if m.data e = [] ∧ ¬m.attached e then some (m, [.close e]) else none
  | .receiveSome e, .raises => some ({ m with errs := m.errs + 1 }, [.close e])
  | .close e, .go => some ({ m with stream := Function.update m.stream e false }, [.ack e])
  | .ack _, .go => some ({ m with acks := m.acks + 1 }, [])
  | _, _ => none

/-- What the runtime and the processes do. -/
def call (m : Mem) : Call → Option (Mem × List Op)
  | .start e => if e ∈ m.spawned then some ({ m with spawned := m.spawned.erase e }, task cfg e) else none
  | .write e bytes =>
    if e ≠ .stdin ∧ 0 < m.held e ∧ m.stream e = true ∧ bytes ≠ [] ∧ (m.data e).length + bytes.length ≤ K.capacity then
      some ({ m with
        data := Function.update m.data e (m.data e ++ bytes)
        wrote := Function.update m.wrote e (m.wrote e ++ bytes) }, [])
    else none
  | .read n =>
    if 0 < m.held .stdin ∧ 0 < n ∧ n ≤ (m.data .stdin).length then
      some ({ m with
        data := Function.update m.data .stdin ((m.data .stdin).drop n)
        fed := m.fed ++ (m.data .stdin).take n }, [])
    else none
  | .dup e => if 0 < m.held e then some ({ m with held := Function.update m.held e (m.held e + 1) }, []) else none
  | .drop e => if 0 < m.held e then some ({ m with held := Function.update m.held e (m.held e - 1) }, []) else none
  | .exit status => if m.child = .running then some ({ m with child := .exited status }, []) else none

/-- A call of `run_process`, and the processes. -/
def machine : Machine Mem Op Choice Call where
  exec := exec K cfg
  call := call K cfg

/-- `open_process` has made the pipes. -/
def initial : State Mem Op :=
  ⟨⟨.unborn, fun _ => [], cfg.piped, cfg.piped, fun _ => 0, fun _ => [], [], 0, 0, none, [], fun _ => []⟩, [[.popen]]⟩

/-! ## What is said about a run -/

/-- What the processes have written into an output that is captured. -/
def Mem.written (m : Mem) (e : Stdio) : Option (List UInt8) := if cfg.captures e then some (m.wrote e) else none

/-- The tasks are over. Their streams are closed, with the ends made for the child; no process has an end of a captured output, and nothing is
left in it; and all of the input has been written, or no process would have read the rest. -/
structure Finished (m : Mem) : Prop where
  closed : ∀ e ∈ tasks cfg, m.stream e = false ∧ m.childEnd e = false
  captured : ∀ e, cfg.captures e = true → m.held e = 0 ∧ m.data e = []
  input : m.fed ++ m.data .stdin = cfg.input.getD [] ∨ m.held .stdin = 0

/-- What the end of a run says of the processes. -/
def Mem.Tells (m : Mem) : Outcome → Prop
  | .completed status stdout stderr =>
    m.child = .exited status ∧ (cfg.check = true → status = 0) ∧ stdout = m.written cfg .stdout ∧ stderr = m.written cfg .stderr ∧
      Finished cfg m
  | .calledProcessError status output stderr =>
    m.child = .exited status ∧ cfg.check = true ∧ status ≠ 0 ∧ output = m.written cfg .stdout ∧ stderr = m.written cfg .stderr ∧
      Finished cfg m
  | .spawnExceptionGroup => (∃ status, m.child = .exited status) ∧ m.errs ≠ 0
  | .popenError => m.child = .unborn ∧ ∀ e, m.stream e = false ∧ m.childEnd e = false
  | .cancelled => True

/-- No pipe is asked for that `run_process` would leave to the caller. -/
def Arguments.Unpiped (a : Arguments) : Prop := a.stdin ≠ .pipe ∧ a.stdout ≠ some .pipe ∧ a.stderr ≠ some .pipe

/-- Every stream that is a pipe has its task. -/
def Config.Served : Prop := ∀ e, cfg.piped e = true → e ∈ tasks cfg

/-- The caller waits for the processes: the child runs, or some process has an end of a pipe. -/
def Mem.Waits (m : Mem) : Prop := m.child = .running ∨ ∃ e ∈ tasks cfg, 0 < m.held e

/-- No process waits for the caller: what fits in a pipe goes into a captured output, unless its reader has failed, and who reads from stdin
finds bytes or the end. -/
structure Mem.Yields (m : Mem) : Prop where
  write : ∀ e bytes, cfg.captures e = true → 0 < m.held e → m.stream e = true → bytes ≠ [] → bytes.length ≤ K.capacity →
    (call K cfg m (.write e bytes)).isSome = true
  read : cfg.piped .stdin = true → 0 < m.held .stdin → m.data .stdin ≠ [] ∨ m.stream .stdin = false

/-- The acts of the caller and its tasks that need nobody else: a worker gets to a task, and an operation that goes on and does not fail. -/
def Act.own : Act Op Choice Call → Prop
  | .call (.start _) => True
  | .call _ => False
  | .exec _ c => c ≠ .leave ∧ c ≠ .raises

end Subprocess

end Tonio
