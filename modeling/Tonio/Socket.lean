import Tonio.Schedule

/-!
# The loops around a descriptor

`_net/_socket.py`, `_Socket`, and `_fd.py`, `FdStream`, in both flavours: how a task waits until a system call on a non-blocking descriptor
goes through. `recv`, `recv_into`, `recvfrom`, `recvfrom_into`, `recvmsg`, `recvmsg_into`, `accept` and `receive_some` have one loop:
arm, and wait if the waiter is there; otherwise make the call, clear the readiness if it would block, and go round. `send`, `sendto`,
`sendmsg` and `connect` make the call once before that loop. `FdStream` takes the lock of the direction first, and raises when it is held;
nothing keeps two tasks from the same direction of a `_Socket`.

The machine is the `ScheduledIO` of `Tonio.Schedule` with the tasks around it and the kernel under it. For the kernel a call of a
direction would block or not, and a direction is among those that the next poll reports or it is not (the registration is
edge-triggered: what arrives puts it there, and the poll that reports it takes it out). A poll may report more than there is. The call of
`connect` in its loop is `getsockopt(SO_ERROR)` with the `getpeername` after it. A task that is cancelled ends at its wait.
-/

namespace Tonio

namespace Socket

open Interleaving
open Schedule (Dir IoEvent readinessFromEvent)

/-- The shared memory: the `ScheduledIO`, what the kernel knows of the descriptor, and the locks `_lock_r` and `_lock_w`. `since` counts the
updates of the readiness word since the task of a direction has taken its tick; nothing reads it. -/
structure Mem where
  io : Schedule.Mem
  ready : Dir → Bool
  edge : Dir → Bool
  locked : Dir → Bool
  since : Dir → Nat

/-- The operations: those on the `ScheduledIO`, `or_raise` of the lock, the system call before the loop and in it, and the end of the
`with` block. -/
inductive Op where
  | io (op : Schedule.Op)
  | orRaise (d : Dir) | first (d : Dir) | attempt (d : Dir) | exit (d : Dir)
  deriving DecidableEq, Repr

/-- What the system decides: how an operation on the `ScheduledIO` ends, and how a system call does. A call that goes through may use up what
there was (`drained`), and `send_all` goes on to its next write (`more`). -/
inductive Choice where
  | io (c : Schedule.Choice)
  | go | done (drained more : Bool) | wouldBlock | interrupted | raises
  deriving DecidableEq, Repr

/-- The calls: a task that begins with the loop, or with a first attempt; `_io_close`; a poll that reports the descriptor; and what happens
in the kernel: a direction becomes ready, or is to be reported all the same (a hang-up, say). -/
inductive Call where
  | loop (d : Dir) | eager (d : Dir) | close | poll (event : IoEvent) | arrive (d : Dir) | hangup (d : Dir)
  deriving DecidableEq, Repr

variable (fd : Bool)

/-- The task of a direction ends; in `FdStream` it leaves the `with` block of the lock. -/
def leave (d : Dir) : List Op := if fd then [.exit d] else []

/-- What the task does when an operation on the `ScheduledIO` is over: `arm` has returned `None` when the tick is stored, and a waiter when
the task was parked. -/
def resume : Schedule.Op → Schedule.Choice → List Op
  | .storeTick d _, _ => [.attempt d]
  | .parked d _, .go => [.io (.armLoad d)]
  | .parked d _, .leave => leave fd d
  | .clearWord d _, _ => [.io (.armLoad d)]
  | _, _ => []

/-- The updates of the word since a tick was taken. -/
def Mem.count (m : Mem) : Schedule.Op → Dir → Nat
  | .loadTick d => Function.update m.since d 0
  | .setReadiness _ => fun d => m.since d + 1
  | _ => m.since

/-- A system call has gone through. -/
def Mem.drain (m : Mem) (d : Dir) (drained : Bool) : Mem := { m with ready := Function.update m.ready d (!drained) }

/-- What an operation does. -/
def exec (m : Mem) : Op → Choice → Option (Mem × List Op)
  | .io op, .io c =>
    (Schedule.exec m.io op c).map (fun r => ({ m with io := r.1, since := m.count op }, r.2.map Op.io ++ resume fd op c))
  | .orRaise d, .go =>
    some (if m.locked d then (m, []) else ({ m with locked := Function.update m.locked d true }, [.io (.armLoad d)]))
  | .first d, .done drained false => if m.ready d then some (m.drain d drained, []) else none
  | .first d, .wouldBlock => if m.ready d then none else some (m, [.io (.armLoad d)])
  | .first d, .interrupted => some (m, [.io (.armLoad d)])
  | .first _, .raises => some (m, [])
  | .attempt d, .done drained more =>
    if m.ready d && (!more || (fd && decide (d = .w))) then some (m.drain d drained, if more then [.io (.armLoad d)] else leave fd d)
    else none
  | .attempt d, .wouldBlock => if m.ready d then none else some (m, [.io (.clearTick d)])
  | .attempt d, .interrupted => some (m, [.io (.armLoad d)])
  | .attempt d, .raises => some (m, leave fd d)
  | .exit d, .go => some ({ m with locked := Function.update m.locked d false }, [])
  | _, _ => none

/-- The directions an event reports. -/
def meets (event : IoEvent) (d : Dir) : Bool := decide (readinessFromEvent event &&& d.mask ≠ 0)

/-- A call. -/
def call (m : Mem) : Call → Option (Mem × List Op)
  | .loop d => some (m, [if fd then .orRaise d else .io (.armLoad d)])
  | .eager d => if fd then none else some (m, [.first d])
  | .close => some (m, [.io .setShutdown])
  | .poll event =>
    if (m.edge .r && meets event .r) || (m.edge .w && meets event .w) then
      some ({ m with edge := fun d => m.edge d && !meets event d }, [.io (.setReadiness event)])
    else none
  | .arrive d => some ({ m with ready := Function.update m.ready d true, edge := Function.update m.edge d true }, [])
  | .hangup d => some ({ m with edge := Function.update m.edge d true }, [])

/-- The tasks around a descriptor. -/
def machine : Machine Mem Op Choice Call where
  exec := exec fd
  call := call fd

/-- `_Socket`. -/
def socket : Machine Mem Op Choice Call := machine false

/-- `FdStream`. -/
def fdStream : Machine Mem Op Choice Call := machine true

/-- A descriptor that has just been registered: the next poll reports what is there. -/
def initial (ready : Dir → Bool) : State Mem Op := ⟨⟨Schedule.initial.mem, ready, fun _ => true, fun _ => false, fun _ => 0⟩, []⟩

/-! ## What is said about the tasks -/

/-- The direction of the task an operation belongs to, from the moment it has the direction to itself. -/
def Op.task : Op → Option Dir
  | .io (.clearTick d) | .io (.clearWord d _) | .first d | .attempt d | .exit d => some d
  | .io op => op.live
  | .orRaise _ => none

/-- At most one task of each direction: one begins only while no other is under way. -/
def Single (ops : List Op) : Act Op Choice Call → Prop
  | .call (.loop d) | .call (.eager d) => ∀ op ∈ ops, op.task ≠ some d
  | _ => True

/-- A task clears readiness when the tick it has taken has come round: the poller has published since, a multiple of 256 times. -/
def Wraps (m : Mem) : Act Op Choice Call → Prop
  | .exec (.io (.clearWord d _)) _ => m.since d ≠ 0 ∧ m.since d % 256 = 0
  | _ => False

/-- The other direction. -/
def other : Dir → Dir
  | .r => .w
  | .w => .r

/-- A task that clears takes from the other direction, which is ready, the last bit it has: the two have the bit of errors in common. -/
def Takes (m : Mem) : Act Op Choice Call → Prop
  | .exec (.io (.clearWord d tick)) _ =>
    Schedule.tickOf m.io.readiness = tick ∧ m.ready (other d) = true ∧ m.io.readiness &&& (other d).mask ≠ 0 ∧
      (m.io.readiness &&& ~~~d.mask) &&& (other d).mask = 0
  | _ => False

/-- An update of the word for a direction is under way: the poller has collected an event for it, or the wake after the update is to come. -/
def Op.announces (d : Dir) : Op → Bool
  | .io (.setReadiness event) => meets event d
  | .io op => op.wakes d
  | _ => false

/-- The acts that need nobody from outside: a poll, and an operation that goes on, whose wait is not cancelled and whose system call is
neither interrupted nor refused. -/
def Act.own : Act Op Choice Call → Prop
  | .call (.poll _) => True
  | .call _ => False
  | .exec _ c => c ≠ .io .leave ∧ c ≠ .interrupted ∧ c ≠ .raises

end Socket

end Tonio
