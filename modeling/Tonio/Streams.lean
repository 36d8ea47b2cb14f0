import Tonio.Interleaving.Record

/-!
# Sending all of a buffer

`SocketStream.send_all` over `_Socket.send`, and `FdStream.send_all`, in both flavours: the code is the same, with `yield` or `await` where
a coroutine waits. The first has its loop around a coroutine that sends once; that one tries without asking for readiness, and then waits and
tries again until the system takes some of the bytes. The second has both loops in one body, waits before its first attempt, and holds the
write lock of the stream.

Each is a machine with one thread, the coroutine; an operation goes to the next call into the system or the next wait. What the system
answers is the label: how a write ends, whether a readiness wait is needed, how it ends. Readiness itself is the system's
(`_io_clear_w` only says that the next wait is needed), so it is not in the memory.
-/

namespace Tonio

namespace Streams

open Interleaving

/-- The errors of a write that are told apart: `BrokenPipeError`, and every other one. -/
inductive Err where
  | brokenPipe | other
  deriving DecidableEq, Repr

/-- How a call of `send` or `os.write` ends: the system takes `n` bytes, `BlockingIOError`, `InterruptedError`, or an error. -/
inductive Outcome where
  | accepted (n : Nat) | wouldBlock | interrupted | error (e : Err)
  deriving DecidableEq, Repr

/-- What a call of `send_all` raises: the two `RuntimeError`s, `WouldBlock` of the write lock, the error of a write, what it is turned into,
an error of `_io_arm_w`, or a cancellation of the wait. -/
inductive Raised where
  | sentEof | fileClosed | locked | write (e : Err) | resourceBroken | arm | cancelled
  deriving DecidableEq, Repr

/-- How a call of `send_all` ends. -/
inductive Result where
  | returned | raised (r : Raised)
  deriving DecidableEq, Repr

/-- What the system decides: how a write ends; that no wait is needed, that one is, or that `_io_arm_w` fails; that the wait is over, or is
cancelled. Every other operation goes on. -/
inductive Choice where
  | go | wrote (o : Outcome) | ready | waiter | armFails | resumed | cancel
  deriving DecidableEq, Repr

variable {β : Type}

/-- The bytes the system has accepted, whether EOF was sent, whether the file is closed, the write lock of the stream, and how the call has
ended. -/
structure Mem (β : Type) where
  accepted : List β
  eof : Bool
  closed : Bool
  lockW : Bool
  result : Option Result

/-- The call ends. -/
def Mem.finish {O : Type} (m : Mem β) (r : Result) : Mem β × List O := ({ m with result := some r }, [])

/-- The call ends, and leaves the `with` block of the write lock. -/
def Mem.unlock {O : Type} (m : Mem β) (r : Result) : Mem β × List O := ({ m with lockW := false, result := some r }, [])

/-- The system takes the first `n` bytes of the buffer it is given. -/
def Mem.take (m : Mem β) (buf : List β) (n : Nat) : Mem β := { m with accepted := m.accepted ++ buf.take n }

/-! ## `SocketStream.send_all` -/

/-- The operations of `SocketStream.send_all`, with those of the `_Socket.send` it waits for. `total` is `total_sent`, `buf` the slice
`remaining`. -/
inductive SocketOp (β : Type) where
  | sendAll | loop (total : Nat) | sent (total n : Nat)
  | send (total : Nat) (buf : List β) | trySend (total : Nat) (buf : List β) | armW (total : Nat) (buf : List β)
  | wait (total : Nat) (buf : List β) | retry (total : Nat) (buf : List β)
  deriving DecidableEq, Repr

/-- What an operation does. -/
def SocketOp.exec (data : List β) (m : Mem β) : SocketOp β → Choice → Option (Mem β × List (SocketOp β))
  | .sendAll, .go =>
    some (if m.eof then m.finish (.raised .sentEof) else if data.length = 0 then m.finish .returned else (m, [.loop 0]))
  | .loop total, .go => some (if total < data.length then (m, [.send total (data.drop total)]) else m.finish .returned)
  | .send total buf, .go => some (m, [if buf.length = 0 then .sent total 0 else .trySend total buf])
  -- the first attempt does not ask for readiness, and clears none
  | .trySend total buf, .wrote (.accepted n) => if 1 ≤ n ∧ n ≤ buf.length then some (m.take buf n, [.sent total n]) else none
  | .trySend total buf, .wrote .wouldBlock | .trySend total buf, .wrote .interrupted => some (m, [.armW total buf])
  | .trySend _ _, .wrote (.error e) => some (m.finish (.raised (.write e)))
  | .armW total buf, .ready => some (m, [.retry total buf])
  | .armW total buf, .waiter => some (m, [.wait total buf])
  | .armW _ _, .armFails => some (m.finish (.raised .arm))
  | .wait total buf, .resumed => some (m, [.armW total buf])
  | .wait _ _, .cancel => some (m.finish (.raised .cancelled))
  | .retry total buf, .wrote (.accepted n) => if 1 ≤ n ∧ n ≤ buf.length then some (m.take buf n, [.sent total n]) else none
  | .retry total buf, .wrote .wouldBlock | .retry total buf, .wrote .interrupted => some (m, [.armW total buf])
  | .retry _ _, .wrote (.error e) => some (m.finish (.raised (.write e)))
  | .sent total n, .go => some (m, [.loop (total + n)])
  | _, _ => none

/-! ## `FdStream.send_all` -/

/-- The operations of `FdStream.send_all`. `sent` is the offset, `buf` the slice `remaining` of the inner loop. -/
inductive FdOp (β : Type) where
  | sendAll | orRaise | loop (sent : Nat)
  | armW (sent : Nat) (buf : List β) | wait (sent : Nat) (buf : List β) | write (sent : Nat) (buf : List β)
  deriving DecidableEq, Repr

/-- What an operation does. -/
def FdOp.exec (data : List β) (m : Mem β) : FdOp β → Choice → Option (Mem β × List (FdOp β))
  | .sendAll, .go => some (if m.closed then m.finish (.raised .fileClosed) else (m, [.orRaise]))
  | .orRaise, .go =>
    some (if m.lockW then m.finish (.raised .locked)
      else if data.length = 0 then { m with lockW := true }.unlock .returned
      else ({ m with lockW := true }, [.loop 0]))
  | .loop sent, .go => some (if sent < data.length then (m, [.armW sent (data.drop sent)]) else m.unlock .returned)
  | .armW sent buf, .ready => some (m, [.write sent buf])
  | .armW sent buf, .waiter => some (m, [.wait sent buf])
  | .armW _ _, .armFails => some (m.unlock (.raised .arm))
  | .wait sent buf, .resumed => some (m, [.armW sent buf])
  | .wait _ _, .cancel => some (m.unlock (.raised .cancelled))
  | .write sent buf, .wrote (.accepted n) => if 1 ≤ n ∧ n ≤ buf.length then some (m.take buf n, [.loop (sent + n)]) else none
  | .write sent buf, .wrote .wouldBlock | .write sent buf, .wrote .interrupted => some (m, [.armW sent buf])
  | .write _ _, .wrote (.error .brokenPipe) => some (m.unlock (.raised .resourceBroken))
  | .write _ _, .wrote (.error .other) => some (m.unlock (.raised (.write .other)))
  | _, _ => none

/-! ## Runs and their attempts -/

/-- A write is noted with its outcome. -/
def note {O : Type} (_ : Mem β) : Act O Choice Empty → List Outcome → List Outcome
  | .exec _ (.wrote o), g => g ++ [o]
  | _, g => g

/-- A call of `SocketStream.send_all` for `data`, with the record of its writes. -/
def socketStream (data : List β) : Machine (Mem β × List Outcome) (SocketOp β) Choice Empty :=
  Machine.recording ⟨SocketOp.exec data, fun _ => Empty.elim⟩ note

/-- A call of `FdStream.send_all` for `data`, with the record of its writes. -/
def fdStream (data : List β) : Machine (Mem β × List Outcome) (FdOp β) Choice Empty :=
  Machine.recording ⟨FdOp.exec data, fun _ => Empty.elim⟩ note

/-- A stream before the call `op`. -/
def start {O : Type} (eof closed lockW : Bool) (op : O) : State (Mem β × List Outcome) O :=
  ⟨(⟨[], eof, closed, lockW, none⟩, []), [[op]]⟩

/-! ## What a write of a buffer is

The purpose of both: the bytes go to the system in pieces, each one from where the last one ended. `Attempts len os sent failed` says that
`os` is a possible sequence of outcomes of the writes of a buffer of `len` bytes, that `sent` bytes are written then, and with which error
the last one failed, if it did. It speaks of no loop, no readiness and no wait. -/

/-- The sequences of outcomes of the writes of a buffer. -/
inductive Attempts (len : Nat) : List Outcome → Nat → Option Err → Prop where
  | nil : Attempts len [] 0 none
  | accepted {os : List Outcome} {sent n : Nat} (h : Attempts len os sent none) (hn : 1 ≤ n) (hle : sent + n ≤ len) :
      Attempts len (os ++ [.accepted n]) (sent + n) none
  | wouldBlock {os : List Outcome} {sent : Nat} (h : Attempts len os sent none) (hlt : sent < len) :
      Attempts len (os ++ [.wouldBlock]) sent none
  | interrupted {os : List Outcome} {sent : Nat} (h : Attempts len os sent none) (hlt : sent < len) :
      Attempts len (os ++ [.interrupted]) sent none
  | error {os : List Outcome} {sent : Nat} (e : Err) (h : Attempts len os sent none) (hlt : sent < len) :
      Attempts len (os ++ [.error e]) sent (some e)

end Streams

end Tonio
