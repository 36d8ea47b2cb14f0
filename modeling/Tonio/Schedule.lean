import Tonio.Interleaving.Weight

/-!
# The readiness of a descriptor

`io/schedule.rs`, `ScheduledIO`, with its callers in `runtime.rs`: the dispatch of a poll batch (`set_readiness`, then `wake`) and
`io_deregister` (`shutdown`). Readiness is one word, updated without a lock: five bits of readiness, a bit for shutdown and a tick
of eight bits that counts the updates by the poller. The events of the tasks that wait, one slot a direction, are behind a mutex. A
task that arms looks at the word, and again under the mutex, before it puts its event into the slot; the poller updates the word
first and takes the mutex then.

The machine's threads are the tasks, the poller and the threads that deregister; an operation is one atomic access, or one piece
of code under the mutex that touches nothing but the slots. `fetch_update` is one atomic access. `due` and `shut` note that
readiness was published since a slot was filled, and that the wake of a shutdown has run; nothing reads them.
-/

namespace Tonio

namespace Schedule

open Interleaving

/-! ## The readiness word -/

/-- `usize`. -/
abbrev Word := BitVec 64

/-- The bits of the readiness word, from the lowest: five bits of readiness, the shutdown bit, eight bits of tick. -/
def READABLE : Word := 0b000001
def WRITABLE : Word := 0b000010
def READ_CLOSED : Word := 0b000100
def WRITE_CLOSED : Word := 0b001000
def ERROR : Word := 0b010000
def SHUTDOWN : Word := 0b100000
def TICK_SHIFT : Nat := 6
def TICK_MASK : Word := 0xff#64 <<< TICK_SHIFT
def READ_ALL : Word := READABLE ||| READ_CLOSED ||| ERROR
def WRITE_ALL : Word := WRITABLE ||| WRITE_CLOSED ||| ERROR

/-- `tick_of`. -/
def tickOf (word : Word) : BitVec 8 := ((word &&& TICK_MASK) >>> TICK_SHIFT).setWidth 8

/-- The update of `set_readiness`. -/
def setReadiness (ready curr : Word) : Word :=
  ((tickOf curr + 1).setWidth 64 <<< TICK_SHIFT) ||| (curr &&& ~~~TICK_MASK) ||| ready

/-- The update of `clear`: nothing when the poller has moved on since the tick was taken. -/
def clear (ready : Word) (tick : BitVec 8) (curr : Word) : Option Word :=
  if tickOf curr ≠ tick then none else some (curr &&& ~~~ready)

/-- The update of `consume`. -/
def consume (mask curr : Word) : Option Word := if curr &&& mask = 0 then none else some (curr &&& ~~~mask)

/-- A `mio` event, as far as `readiness_from_event` looks at it. -/
structure IoEvent where
  isReadable : Bool
  isWritable : Bool
  isReadClosed : Bool
  isWriteClosed : Bool
  isError : Bool
  deriving DecidableEq, Repr

/-- `readiness_from_event`. -/
def readinessFromEvent (event : IoEvent) : Word :=
  (if event.isReadable then READABLE else 0) ||| (if event.isWritable then WRITABLE else 0) |||
    (if event.isReadClosed then READ_CLOSED else 0) ||| (if event.isWriteClosed then WRITE_CLOSED else 0) |||
    (if event.isError then ERROR else 0)

/-! ## The machine -/

/-- The directions. -/
inductive Dir where
  | r | w
  deriving DecidableEq, Repr

/-- The mask `arm_r` and `arm_w`, and so on, pass on. -/
def Dir.mask : Dir → Word
  | .r => READ_ALL
  | .w => WRITE_ALL

/-- The direction whose slot `arm` fills: the one of the reader if the mask has `READABLE`. -/
def slotOf (mask : Word) : Dir := if mask &&& READABLE ≠ 0 then .r else .w

/-- Who wakes: the poller, or a shutdown. -/
inductive Waker where
  | poller | shutdown
  deriving DecidableEq, Repr

/-- The shared memory. `woken` are the events that have been scheduled with `add_io_handle`. -/
structure Mem where
  readiness : Word
  tick : Dir → BitVec 8
  mutex : Bool
  slot : Dir → Option Nat
  next : Nat
  woken : Nat → Bool
  due : Dir → Bool
  shut : Bool

/-- The operations. `e` is the event of an armer; `parked` is its wait for it. -/
inductive Op where
  -- `arm_r` and `arm_w`
  | armLoad (d : Dir) | armLock (d : Dir) (e : Nat) | armCheck (d : Dir) (e : Nat) | armFill (d : Dir) (e : Nat)
  | loadTick (d : Dir) | storeTick (d : Dir) (tick : BitVec 8) | parked (d : Dir) (e : Nat)
  -- `clear_r` and `clear_w`, `consume_r` and `consume_w`
  | clearTick (d : Dir) | clearWord (d : Dir) (tick : BitVec 8) | consumeWord (d : Dir)
  -- `set_readiness`, `shutdown` and `wake`
  | setReadiness (event : IoEvent) | setShutdown | wakeLock (who : Waker) (ready : Word) | wakeTake (who : Waker) (ready : Word)
  | addIoHandle (e : Nat)
  | unlock
  deriving DecidableEq, Repr

/-- How a wait ends: by its event, or by a timeout or a cancellation. Every other operation goes on. -/
inductive Choice where
  | go | leave
  deriving DecidableEq, Repr

/-- The calls of the tasks, the poller and `io_deregister`. -/
inductive Call where
  | arm (d : Dir) | clear (d : Dir) | consume (d : Dir) | dispatch (event : IoEvent) | shutdown
  deriving DecidableEq, Repr

/-- Readiness is published: every slot whose mask it meets is due. -/
def Mem.publish (m : Mem) (word ready : Word) : Mem :=
  { m with readiness := word, due := fun d => m.due d || decide (ready &&& d.mask ≠ 0) }

/-- `wake`: take the events of the directions the readiness meets. -/
def Mem.take (m : Mem) (ready : Word) : Mem :=
  { m with slot := fun d => if ready &&& d.mask ≠ 0 then none else m.slot d }

/-- The handles of the events that `wake` took from a slot. -/
def Mem.taken (m : Mem) (ready : Word) (d : Dir) : List Op :=
  if ready &&& d.mask ≠ 0 then ((m.slot d).map Op.addIoHandle).toList else []

/-- What an operation does. -/
def exec (m : Mem) : Op → Choice → Option (Mem × List Op)
  | .armLoad d, .go =>
    if m.readiness &&& (d.mask ||| SHUTDOWN) ≠ 0 then some (m, [.loadTick d])
    else some ({ m with next := m.next + 1 }, [.armLock d m.next])
  | .armLock d e, .go => if m.mutex then none else some ({ m with mutex := true }, [.armCheck d e])
  | .armCheck d e, .go =>
    if m.readiness &&& (d.mask ||| SHUTDOWN) ≠ 0 then some (m, [.unlock, .loadTick d]) else some (m, [.armFill d e])
  | .armFill d e, .go =>
    some ({ m with slot := Function.update m.slot (slotOf d.mask) (some e), due := Function.update m.due (slotOf d.mask) false },
      [.unlock, .parked d e])
  | .loadTick d, .go => some (m, [.storeTick d (tickOf m.readiness)])
  | .storeTick d tick, .go => some ({ m with tick := Function.update m.tick d tick }, [])
  | .parked _ e, .go => if m.woken e then some (m, []) else none
  | .parked _ _, .leave => some (m, [])
  | .clearTick d, .go => some (m, [.clearWord d (m.tick d)])
  | .clearWord d tick, .go => some ({ m with readiness := (clear d.mask tick m.readiness).getD m.readiness }, [])
  | .consumeWord d, .go => some ({ m with readiness := (consume d.mask m.readiness).getD m.readiness }, [])
  | .setReadiness event, .go =>
    some (m.publish (setReadiness (readinessFromEvent event) m.readiness) (readinessFromEvent event),
      [.wakeLock .poller (readinessFromEvent event)])
  | .setShutdown, .go =>
    some (m.publish (m.readiness ||| SHUTDOWN) (READ_ALL ||| WRITE_ALL), [.wakeLock .shutdown (READ_ALL ||| WRITE_ALL)])
  | .wakeLock who ready, .go => if m.mutex then none else some ({ m with mutex := true }, [.wakeTake who ready])
  | .wakeTake who ready, .go =>
    some ({ m.take ready with shut := m.shut || decide (who = .shutdown) },
      .unlock :: (m.taken ready .r ++ m.taken ready .w))
  | .addIoHandle e, .go => some ({ m with woken := Function.update m.woken e true }, [])
  | .unlock, .go => some ({ m with mutex := false }, [])
  | _, .leave => none

/-- A call starts a thread. -/
def call (m : Mem) : Call → Option (Mem × List Op)
  | .arm d => some (m, [.armLoad d])
  | .clear d => some (m, [.clearTick d])
  | .consume d => some (m, [.consumeWord d])
  | .dispatch event => some (m, [.setReadiness event])
  | .shutdown => some (m, [.setShutdown])

/-- The callers around one `ScheduledIO`. -/
def machine : Machine Mem Op Choice Call where
  exec := exec
  call := call

/-- A new `ScheduledIO`. -/
def initial : State Mem Op := ⟨⟨0, fun _ => 0, false, fun _ => none, 0, fun _ => false, fun _ => false, false⟩, []⟩

/-! ## What is said about the tasks -/

/-- The direction of a live reader or writer: a task in `arm`, or parked. -/
def Op.live : Op → Option Dir
  | .armLoad d | .armLock d _ | .armCheck d _ | .armFill d _ | .loadTick d | .storeTick d _ | .parked d _ => some d
  | _ => none

/-- The poller or a shutdown is between its update of the word and its wake, for a direction. -/
def Op.wakes (d : Dir) : Op → Bool
  | .wakeLock _ ready | .wakeTake _ ready => decide (ready &&& d.mask ≠ 0)
  | _ => false

/-- At most one live reader and one live writer: a task arms a direction only while no task is live in it. -/
def Single (ops : List Op) : Act Op Choice Call → Prop
  | .call (.arm d) => ∀ op ∈ ops, op.live ≠ some d
  | _ => True

end Schedule

end Tonio
