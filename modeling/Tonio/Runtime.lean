import Tonio.Interleaving.Weight

/-!
# Events, waiters, suspensions and handles

`events.rs` and `handles.rs`, with the pieces of `runtime.rs` and `time.rs` they call. A coroutine runs one segment at a time,
through a handle; what it yields decides how it goes on. A bare `yield` reschedules it; a child generator suspends it until the
child is over; a waiter registers a suspension with its events and its timer, and the suspension is resumed when all of these
have fired. A checkpoint waiter has no events: it makes the coroutine, and what it calls, abortable through the pointer the
waiter keeps to the current suspension.

The machine's threads are whatever touches this state: workers that run handles, the poll thread that fires timers, and calls from
anywhere of `set`, `clear`, `waiter`, `abort` and `unwind`. An operation is one atomic access or one piece of code under a mutex that
touches nothing else; the mutex of an event is held while wakers are woken, so it is explicit. What a coroutine does in a segment is
chosen by the environment. A panic aborts the process (`panic = "abort"`), so it has no next state.

A suspension is immutable but for its `consumed` flag and its sentinel, so it is inlined where the source shares it, and the mutable
part is found through the number of its cell. The fields marked as records are not in the source: they say what has happened.
-/

namespace Tonio

namespace Runtime

open Interleaving

/-! ## Data -/

/-- Python objects, as far as the runtime makes them: `None`, lists of objects, and any others. -/
inductive Val where
  | none | obj (n : Nat) | nil | cons (head tail : Val)
  deriving DecidableEq, Repr

/-- A Python list. -/
def Val.list : List Val → Val
  | [] => .nil
  | v :: vs => .cons v (Val.list vs)

/-- Exceptions: the `CancelledError` of an abort, and any others. -/
inductive Exc where
  | cancelled | other (n : Nat)
  deriving DecidableEq, Repr

/-- How a coroutine is resumed. -/
inductive Input where
  | send (v : Val) | throw (e : Exc)
  deriving DecidableEq, Repr

/-- Generator tasks and async tasks. -/
inductive Flavour where
  | gen | async
  deriving DecidableEq, Repr

/-- What is fixed in a `Waiter`: its events, and a timeout, which only a waiter of one event has. -/
structure Waiter where
  events : List Nat
  timeout : Option Nat
  fits : events.length < 2 ^ 63
  timed : timeout.isSome = true → events.length = 1

/-- A checkpoint waiter, which has no events. -/
def Waiter.checkpoint : Waiter := ⟨[], none, by decide, nofun⟩

/-- A waiter of one event without a timeout. -/
def Waiter.ofEvent (e : Nat) : Waiter := ⟨[e], none, by simp, nofun⟩

/-- A waiter of two events. -/
def Waiter.ofEvents (e e' : Nat) : Waiter := ⟨[e, e'], none, by simp, nofun⟩

/-- `PyGenSuspension` and `PyAsyncGenSuspension` without the link to the parent, which only the first has. `ctx` tells the targets
with a context from those without; `sentinel` is whether there is one; `order` is the index a child resumes it with. The last field
is a record: whether a waiter made the suspension, or the call of a child. -/
structure Frame where
  flavour : Flavour
  cell : Nat
  coro : Nat
  ctx : Option Nat
  sentinel : Bool
  isCheckpoint : Bool
  checkpoint : Option Nat
  order : Nat
  waits : Bool
  deriving DecidableEq, Repr

/-- A suspension with the chain of its parents. -/
structure Susp extends Frame where
  parents : List Frame
  deriving DecidableEq, Repr

/-- `Waker`. -/
structure Waker where
  target : Susp
  idx : Nat
  deriving DecidableEq, Repr

/-- The handles. `PyGenHandle` and `PyGenThrower`, with or without context, are `gen` with a value or an exception; `PyAsyncGenHandle`
is `async` and `PyAsyncGenThrower`, which does not know its checkpoint, `asyncThrow`; a timer and an event are handles too. -/
inductive Handle where
  | gen (parents : List Frame) (coro : Nat) (ctx : Option Nat) (input : Input)
  | async (checkpoint : Option Nat) (coro : Nat) (ctx : Option Nat) (value : Val)
  | asyncThrow (coro : Nat) (ctx : Option Nat) (exc : Exc)
  | timer (S : Susp)
  | event (e : Nat)
  deriving DecidableEq, Repr

/-- The shared memory: of the events, the waiters, the suspensions and the runtime. The last eight fields are records: the suspensions by
their cells, those that have not been resolved, the events a suspension was registered with, how often it was scheduled, whether an
abort reached it, which checkpoints are not, or no longer, the one of the coroutine that yielded them, which coroutines are over, and
what the coroutines were resumed with. -/
structure Mem where
  flag : Nat → Bool
  locked : Nat → Bool
  watchers : Nat → List Waker
  dirty : Nat → Bool
  registered : Nat → Bool
  aborted : Nat → Bool
  ptr : Flavour → Nat → Option Susp
  consumed : Nat → Bool
  counter : Nat → Nat
  res : Nat → List Val
  handles : List Handle
  timers : List Susp
  nextCell : Nat
  nextCoro : Nat
  made : Nat → Option Susp
  live : List Susp
  awaits : Nat → List Nat
  fired : Nat → Nat
  thrown : Nat → Bool
  detached : Nat → Bool
  finished : Nat → Bool
  log : List (Nat × Input)

/-- The operations. `suspend` and `enter` exchange the pointer of a checkpoint and go on; `error` records whether an abort makes it. -/
inductive Op where
  -- `Event`
  | set (e : Nat) | notifyLock (e : Nat) | notify (e : Nat)
  | clear (e : Nat) | unnotifyLock (e : Nat) | unnotify (e : Nat) (q : List Waker)
  | waiter (e : Nat) | sweepLock (e : Nat) | sweep (e : Nat) | unlock (e : Nat)
  | addWaker (e : Nat) (x : Waker) | addCheck (e : Nat) (x : Waker) | push (e : Nat) (x : Waker)
  -- `Suspension` and `Sentinel`
  | resume (S : Susp) (v : Val) (i : Nat) | resumeBody (S : Susp) (v : Val) (i : Nat) | restore (S : Susp)
  | storeRes (S : Susp) (i : Nat) (v : Val) (last : Bool) | fetchRes (S : Susp)
  | error (byAbort : Bool) (S : Susp) (e : Exc) | toHandle (S : Susp) (input : Input)
  | addHandle (h : Handle) | addTimer (S : Susp)
  -- `Waiter`
  | registerPygen (w coro : Nat) (ctx : Option Nat) (parents : List Frame)
  | registerPyasyncgen (w coro : Nat) (ctx : Option Nat) (checkpoint : Option Nat)
  | adoptLoad (w c : Nat) (S : Susp) | adoptSwap (w : Nat) (p : Option Susp) (S : Susp)
  | suspend (fl : Flavour) (coro : Nat) (ctx checkpoint : Option Nat) (parents : List Frame) (events : List Nat) (timed : Bool)
  | checkAborted (w : Nat) (S : Susp)
  | abort (fl : Flavour) (w : Nat) | abortLoad (fl : Flavour) (w : Nat)
  -- `Handle`
  | run (h : Handle) | enter (w : Nat) (P : Susp) (h : Handle) | clearPtr (w : Nat)
  deriving DecidableEq, Repr

/-- What a coroutine does when it is resumed. -/
inductive Out where
  | yieldNone | yieldGen | yieldWaiter (w : Nat) | ret (v : Val) | raise (e : Exc)
  deriving DecidableEq, Repr

/-- What the environment decides: what a coroutine does; every other operation goes on. -/
inductive Choice where
  | go | out (o : Out)
  deriving DecidableEq, Repr

/-- What happens around: calls of the methods of events and waiters and of `_spawn_pygen` and `_spawn_pyasyncgen`, a worker that takes a
handle, a timer that is due, and an event that the poll thread schedules. -/
inductive Call where
  | set (e : Nat) | clear (e : Nat) | waiter (e : Nat) | abort (fl : Flavour) (w : Nat)
  | spawn (fl : Flavour) (ctx : Option Nat)
  | work (k : Nat) | fire (k : Nat) | io (e : Nat)
  deriving DecidableEq, Repr

/-! ## Suspensions -/

/-- `x.fetch_add(1)` on a `usize`. -/
def fetchAdd (n : Nat) : Nat := (n + 1) % 2 ^ 64

/-- `x.fetch_sub(1)` on a `usize`. -/
def fetchSub (n : Nat) : Nat := (n + (2 ^ 64 - 1)) % 2 ^ 64

/-- The `aborted` flag an async suspension shares with its checkpoint; a suspension without a checkpoint has one that is never set. -/
def Mem.abortedOf (m : Mem) (S : Susp) : Bool := S.checkpoint.any m.aborted

/-- `Suspension::is_dead`. -/
def Mem.isDead (m : Mem) (S : Susp) : Bool :=
  match S.flavour with
  | .gen => m.consumed S.cell
  | .async => m.consumed S.cell || m.abortedOf S

/-- Record that a suspension is resolved and scheduled. -/
def Mem.fire (m : Mem) (c : Nat) : Mem :=
  { m with live := m.live.filter (·.cell ≠ c), fired := Function.update m.fired c (m.fired c + 1) }

/-- `resume`, after the test of `aborted` that the async flavour makes: `Sentinel::decrement`, or the exchange of `consumed`. -/
def Mem.resumeBody (m : Mem) (S : Susp) (v : Val) (i : Nat) : Mem × List Op :=
  if S.sentinel then
    let prev := m.counter S.cell
    let m := { m with counter := Function.update m.counter S.cell (fetchSub prev) }
    if prev = 0 then (m, [.restore S])
    else (if prev = 1 then m.fire S.cell else m, [.storeRes S i v (prev = 1)])
  else if m.consumed S.cell then (m, [])
  else ({ m with consumed := Function.update m.consumed S.cell true }.fire S.cell, [.toHandle S (.send v)])

/-- `error`: `Sentinel::consume`, or the exchange of `consumed`. -/
def Mem.error (m : Mem) (byAbort : Bool) (S : Susp) (e : Exc) : Mem × List Op :=
  let m := if byAbort then { m with thrown := Function.update m.thrown S.cell true } else m
  if S.sentinel then
    if m.counter S.cell = 0 then (m, [])
    else ({ m with counter := Function.update m.counter S.cell 0 }.fire S.cell, [.toHandle S (.throw e)])
  else if m.consumed S.cell then (m, [])
  else ({ m with consumed := Function.update m.consumed S.cell true }.fire S.cell, [.toHandle S (.throw e)])

/-- The handle that resumes the target of a suspension. -/
def Susp.handle (S : Susp) : Input → Handle
  | .send v => match S.flavour with
    | .gen => .gen S.parents S.coro S.ctx (.send v)
    | .async => .async S.checkpoint S.coro S.ctx v
  | .throw e => match S.flavour with
    | .gen => .gen S.parents S.coro S.ctx (.throw e)
    | .async => .asyncThrow S.coro S.ctx e

/-- The checkpoint whose pointer `to_handle` or `to_throw_handle` clears: of a checkpoint frame, and when an async task is thrown into. -/
def Susp.clears (S : Susp) : Input → Option Nat
  | .send _ => match S.flavour with
    | .gen => if S.isCheckpoint then S.checkpoint else none
    | .async => none
  | .throw _ => match S.flavour with
    | .gen => if S.isCheckpoint then S.checkpoint else none
    | .async => S.checkpoint

/-- Exchange the pointer of a waiter. -/
def Mem.setPtr (m : Mem) (fl : Flavour) (w : Nat) (p : Option Susp) : Mem :=
  { m with ptr := Function.update m.ptr fl (Function.update (m.ptr fl) w p) }

/-- `to_handle` and `to_throw_handle`. -/
def Mem.toHandle (m : Mem) (S : Susp) (input : Input) : Mem × List Op :=
  (match S.clears input with
    | some w => m.setPtr S.flavour w none
    | none => m, [.addHandle (S.handle input)])

/-! ## Registration -/

/-- The loop of `register`: one waker for each event, in order, and the timer. -/
def wakers (S : Susp) (events : List Nat) (timed : Bool) : List Op :=
  events.zipIdx.map (fun ei => .addWaker ei.1 ⟨S, ei.2⟩) ++ if timed then [.addTimer S] else []

/-- Record a new suspension, with the events it is registered with; its sentinel counts them. -/
def Mem.new (m : Mem) (S : Susp) (events : List Nat) : Mem :=
  { m with
    made := Function.update m.made S.cell (some S)
    live := m.live ++ [S]
    counter := Function.update m.counter S.cell events.length
    res := Function.update m.res S.cell (List.replicate events.length .none)
    awaits := Function.update m.awaits S.cell events }

/-- The suspension a waiter makes. It has a sentinel if there are several events. -/
def Mem.suspension (m : Mem) (fl : Flavour) (coro : Nat) (ctx checkpoint : Option Nat) (parents : List Frame) (events : List Nat) :
    Susp :=
  ⟨⟨fl, m.nextCell, coro, ctx, decide (2 ≤ events.length), false, checkpoint, 0, true⟩, parents⟩

/-- Make the suspension of a waiter and, behind a checkpoint, exchange the pointer. Nobody else knows the suspension before. -/
def Mem.suspend (m : Mem) (S : Susp) (events : List Nat) : Mem :=
  { { m with nextCell := m.nextCell + 1 }.new S events with
    ptr := match S.checkpoint with
      | some w => (m.setPtr S.flavour w (some S)).ptr
      | none => m.ptr }

/-- How `register_pygen` and `register_pyasyncgen` go on: a checkpoint waiter looks at its `aborted` flag, another one registers. -/
def registration (S : Susp) (events : List Nat) (timed : Bool) : List Op :=
  match S.checkpoint, events with
  | some w, [] => [.checkAborted w S]
  | _, events => wakers S events timed

/-- Record that a checkpoint is not the one of the coroutine that yielded it. -/
def Mem.detach (m : Mem) (checkpoint : Option Nat) : Mem :=
  { m with detached := fun w => m.detached w || decide (checkpoint = some w) }

/-- `register_pygen`. A checkpoint waiter needs a parent. If that has no checkpoint yet, `from_checkpoint` replaces it by a copy that
is one; otherwise the waiter adopts the pointer of the parent's checkpoint. -/
def registerPygen (ws : Nat → Waiter) (m : Mem) (w coro : Nat) (ctx : Option Nat) (parents : List Frame) :
    Option (Mem × List Op) :=
  if m.registered w then none
  else
    let m := { m with registered := Function.update m.registered w true }
    match (ws w).events with
    | [] =>
      match parents with
      | [] => none
      | p :: rest =>
        match p.checkpoint with
        | none =>
          let P : Frame := { p with cell := m.nextCell, sentinel := false, isCheckpoint := true, checkpoint := some w }
          let S : Susp := ⟨⟨.gen, m.nextCell + 1, coro, ctx, false, false, none, 0, true⟩, P :: rest⟩
          let m := { m with nextCell := m.nextCell + 2, live := m.live.filter (·.cell ≠ p.cell) }
          some ((m.new ⟨P, rest⟩ []).new S [], [.checkAborted w S])
        | some c =>
          let S : Susp := ⟨⟨.gen, m.nextCell, coro, ctx, false, false, some c, 0, true⟩, parents⟩
          some (({ m with nextCell := m.nextCell + 1 }.detach (some w)).new S [], [.adoptLoad w c S])
    | events => some (m, [.suspend .gen coro ctx (parents.head?.bind (·.checkpoint)) parents events (ws w).timeout.isSome])

/-- `register_pyasyncgen`. A checkpoint waiter becomes the checkpoint of the task, in place of the one it had. -/
def registerPyasyncgen (ws : Nat → Waiter) (m : Mem) (w coro : Nat) (ctx : Option Nat) (checkpoint : Option Nat) :
    Option (Mem × List Op) :=
  if m.registered w then none
  else
    let m := { m with registered := Function.update m.registered w true }
    match (ws w).events with
    | [] => some (m.detach checkpoint, [.suspend .async coro ctx (some w) [] [] false])
    | events => some (m, [.suspend .async coro ctx checkpoint [] events (ws w).timeout.isSome])

/-! ## Handles -/

/-- The handle a bare `yield` is rescheduled with: the same one after a value, and one with `None` after an exception. -/
def Input.again : Input → Input
  | .send v => .send v
  | .throw _ => .send .none

/-- `PyGenHandle::call` and `PyGenThrower::run`, after the coroutine has been resumed. -/
def runGen (m : Mem) (parents : List Frame) (coro : Nat) (ctx : Option Nat) (input : Input) : Out → Mem × List Op
  | .yieldNone => (m, [.addHandle (.gen parents coro ctx input.again)])
  -- `from_handle`: a checkpoint frame becomes the current suspension of its checkpoint while the child is not parked
  | .yieldGen =>
    let checkpoint := parents.head?.bind (·.checkpoint)
    let S : Susp := ⟨⟨.gen, m.nextCell, coro, ctx, false, false, checkpoint, 0, false⟩, parents⟩
    let h : Handle := .gen (S.toFrame :: parents) m.nextCoro ctx (.send .none)
    ({ m with nextCell := m.nextCell + 1, nextCoro := m.nextCoro + 1 }.new S [],
      match parents with
      | p :: rest => match p.isCheckpoint, p.checkpoint with
        | true, some w => [.enter w ⟨p, rest⟩ h]
        | _, _ => [.addHandle h]
      | [] => [.addHandle h])
  | .yieldWaiter w => (m, [.registerPygen w coro ctx parents])
  | .ret v =>
    ({ m with finished := Function.update m.finished coro true },
      match parents with
      | p :: rest => [.resume ⟨p, rest⟩ v p.order]
      | [] => [])
  | .raise e =>
    ({ m with finished := Function.update m.finished coro true },
      match parents with
      | p :: rest => [.error false ⟨p, rest⟩ e]
      | [] => [])

/-- `PyAsyncGenHandle::call`, after the coroutine has been resumed. Anything but `None` or a waiter panics. -/
def runAsync (m : Mem) (checkpoint : Option Nat) (coro : Nat) (ctx : Option Nat) (value : Val) : Out → Option (Mem × List Op)
  | .yieldNone => some (m, [.addHandle (.async checkpoint coro ctx value)])
  | .yieldGen => none
  | .yieldWaiter w => some (m, [.registerPyasyncgen w coro ctx checkpoint])
  | .ret _ | .raise _ =>
    some ({ m with finished := Function.update m.finished coro true }, (checkpoint.map Op.clearPtr).toList)

/-- `PyAsyncGenThrower::run`, after the coroutine has been resumed: what it yields is dropped. -/
def runAsyncThrow (m : Mem) (coro : Nat) : Out → Mem × List Op
  | .ret _ | .raise _ => ({ m with finished := Function.update m.finished coro true }, [])
  | _ => (m, [])

/-- Record what a coroutine is resumed with. -/
def Mem.resumed (m : Mem) (coro : Nat) (input : Input) : Mem := { m with log := m.log ++ [(coro, input)] }

/-- `Handle::run`. -/
def runHandle (m : Mem) : Handle → Choice → Option (Mem × List Op)
  | .gen parents coro ctx input, .out o => some (runGen (m.resumed coro input) parents coro ctx input o)
  | .async checkpoint coro ctx value, .out o => runAsync (m.resumed coro (.send value)) checkpoint coro ctx value o
  | .asyncThrow coro _ exc, .out o => some (runAsyncThrow (m.resumed coro (.throw exc)) coro o)
  | .timer S, .go => some (m, [.resume S .none 0])
  | .event e, .go => some (m, [.set e])
  | _, _ => none

/-! ## The machine -/

/-- Take the mutex of an event. -/
def Mem.lock (m : Mem) (e : Nat) (next : List Op) : Option (Mem × List Op) :=
  if m.locked e then none else some ({ m with locked := Function.update m.locked e true }, next)

/-- Set the queue of an event. -/
def Mem.setWatchers (m : Mem) (e : Nat) (q : List Waker) : Mem := { m with watchers := Function.update m.watchers e q }

/-- Set the `dirty` flag of an event. -/
def Mem.setDirty (m : Mem) (e : Nat) (b : Bool) : Mem := { m with dirty := Function.update m.dirty e b }

/-- `rem_stale_wakers` under the mutex: the last waker goes if it is dead. -/
def Mem.sweep (m : Mem) (e : Nat) : Mem × List Op :=
  match (m.watchers e).getLast? with
  | some x =>
    if m.isDead x.target then (m.setWatchers e (m.watchers e).dropLast, [.sweep e])
    else (m, [.unlock e])
  | none => (m.setDirty e false, [.unlock e])

/-- `Waker::hold`: count up the sentinel, if there is one. -/
def Mem.hold (m : Mem) (x : Waker) : Mem :=
  { m with
    counter := if x.target.sentinel then Function.update m.counter x.target.cell (fetchAdd (m.counter x.target.cell))
      else m.counter }

/-- What an operation does, given the waiters of the program. -/
def exec (ws : Nat → Waiter) (m : Mem) : Op → Choice → Option (Mem × List Op)
  | .run h, c => runHandle m h c
  | _, .out _ => none
  | .set e, .go => some (if m.flag e then (m, []) else ({ m with flag := Function.update m.flag e true }, [.notifyLock e]))
  | .notifyLock e, .go => m.lock e [.notify e]
  | .notify e, .go =>
    some (match m.watchers e with
      | x :: q => (m.setWatchers e q, [.resume x.target .none x.idx, .notify e])
      | [] => (m.setDirty e false, [.unlock e]))
  | .clear e, .go =>
    some (if m.flag e then ({ m with flag := Function.update m.flag e false }, [.unnotifyLock e]) else (m, []))
  | .unnotifyLock e, .go => m.lock e [.unnotify e (m.watchers e)]
  | .unnotify e q, .go =>
    some (match q with
      | x :: q => (m.hold x, [.unnotify e q])
      | [] => (m, [.unlock e]))
  | .waiter e, .go => some (m, if m.dirty e then [.sweepLock e] else [])
  | .sweepLock e, .go => m.lock e [.sweep e]
  | .sweep e, .go => some (m.sweep e)
  | .unlock e, .go => some ({ m with locked := Function.update m.locked e false }, [])
  | .addWaker e x, .go => m.lock e [.addCheck e x]
  | .addCheck e x, .go => some (m, if m.flag e then [.resume x.target .none x.idx, .unlock e] else [.push e x])
  | .push e x, .go => some ((m.setWatchers e (m.watchers e ++ [x])).setDirty e true, [.unlock e])
  | .resume S v i, .go =>
    match S.flavour with
    | .gen => some (m.resumeBody S v i)
    | .async => some (m, if m.abortedOf S then [] else [.resumeBody S v i])
  | .resumeBody S v i, .go => some (m.resumeBody S v i)
  | .restore S, .go => some ({ m with counter := Function.update m.counter S.cell (fetchAdd (m.counter S.cell)) }, [])
  | .storeRes S i v last, .go =>
    some ({ m with res := Function.update m.res S.cell ((m.res S.cell).set i v) }, if last then [.fetchRes S] else [])
  | .fetchRes S, .go => some (m, [.toHandle S (.send (.list (m.res S.cell)))])
  | .error byAbort S e, .go => some (m.error byAbort S e)
  | .toHandle S input, .go => some (m.toHandle S input)
  | .addHandle h, .go => some ({ m with handles := m.handles ++ [h] }, [])
  | .addTimer S, .go => some ({ m with timers := m.timers ++ [S] }, [])
  | .registerPygen w coro ctx parents, .go => registerPygen ws m w coro ctx parents
  | .registerPyasyncgen w coro ctx checkpoint, .go => registerPyasyncgen ws m w coro ctx checkpoint
  | .adoptLoad w c S, .go => some (m, [.adoptSwap w (m.ptr .gen c) S])
  | .adoptSwap w p S, .go => some (m.setPtr .gen w p, [.checkAborted w S])
  | .suspend fl coro ctx checkpoint parents events timed, .go =>
    let S := m.suspension fl coro ctx checkpoint parents events
    some (m.suspend S events, registration S events timed)
  | .checkAborted w S, .go => some (m, [if m.aborted w then .error false S .cancelled else .resume S .none 0])
  | .abort fl w, .go =>
    some (if m.aborted w then (m, []) else ({ m with aborted := Function.update m.aborted w true }, [.abortLoad fl w]))
  | .abortLoad fl w, .go => some (m, ((m.ptr fl w).map (fun S => Op.error true S .cancelled)).toList)
  | .enter w P h, .go => some (m.setPtr .gen w (some P), [.addHandle h])
  | .clearPtr w, .go => some (m.setPtr .async w none, [])

/-- What happens around. -/
def call (m : Mem) : Call → Option (Mem × List Op)
  | .set e => some (m, [.set e])
  | .clear e => some (m, [.clear e])
  | .waiter e => some (m, [.waiter e])
  | .abort fl w => some (m, [.abort fl w])
  | .spawn .gen ctx => some ({ m with nextCoro := m.nextCoro + 1 }, [.addHandle (.gen [] m.nextCoro ctx (.send .none))])
  | .spawn .async ctx => some ({ m with nextCoro := m.nextCoro + 1 }, [.addHandle (.async none m.nextCoro ctx .none)])
  | .work k => (m.handles[k]?).map (fun h => ({ m with handles := m.handles.eraseIdx k }, [.run h]))
  | .fire k => (m.timers[k]?).map (fun S => ({ m with timers := m.timers.eraseIdx k }, [.addHandle (.timer S)]))
  | .io e => some (m, [.addHandle (.event e)])

/-- The runtime with the waiters of the program. -/
def machine (ws : Nat → Waiter) : Machine Mem Op Choice Call where
  exec := exec ws
  call := call

/-- Nothing has happened. -/
def Mem.empty : Mem where
  flag := fun _ => false
  locked := fun _ => false
  watchers := fun _ => []
  dirty := fun _ => false
  registered := fun _ => false
  aborted := fun _ => false
  ptr := fun _ _ => none
  consumed := fun _ => false
  counter := fun _ => 0
  res := fun _ => []
  handles := []
  timers := []
  nextCell := 0
  nextCoro := 0
  made := fun _ => none
  live := []
  awaits := fun _ => []
  fired := fun _ => 0
  thrown := fun _ => false
  detached := fun _ => false
  finished := fun _ => false
  log := []

/-- Nothing has happened and nobody is around. -/
def initial : State Mem Op := ⟨Mem.empty, []⟩

end Runtime

end Tonio
