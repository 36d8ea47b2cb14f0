import Tonio.Interleaving.Weight

/-!
# Channels

`sync.rs`, `Channel` and `UnboundedChannel`, with the Python side that waits for them (`_sync.py`, `_colored/_sync.py`). A channel
is a queue of messages and a queue of the events of receivers that found it empty, both behind one mutex. A sender of the
bounded channel that finds `len` at `size` puts an event of its own beside its message and waits until the message is pulled; a
receiver that finds the queue empty pushes an event, waits for it and polls again. Closing sets the events of all queued
receivers.

The two channels differ in the bound, in the text of one error, and in nothing else, so they are one definition (`Chan`). The
machine's threads are the tasks; an operation is one atomic access, or one piece of code under the mutex together with the load of
`closed` it makes there. A task is cancelled where it waits, and neither `send` nor `receive` handles that.
-/

namespace Tonio

namespace Channel

open Interleaving

/-- What distinguishes the two channels: the `size` of the bounded one, and the text of the error `send` raises. -/
structure Chan where
  size : Option Nat
  sendText : String

/-- `Channel`. -/
def channel (size : Nat) : Chan := ⟨some size, "channel closed"⟩

/-- `UnboundedChannel`. -/
def unboundedChannel : Chan := ⟨none, "Channel closed"⟩

/-- A message, with the task that sends it and its place in what the task does: messages are told apart even when the objects
sent are equal. -/
structure Msg (α : Type) where
  task : Nat
  seq : Nat
  val : α
  deriving DecidableEq, Repr

/-- The events, named by who allocated them: a receiver that found the queue empty, or a sender that found it full. -/
inductive Ev where
  | rx (n : Nat) | tx (n : Nat)
  deriving DecidableEq, Repr

/-- How the calls of `send` and `receive` end. -/
inductive Outcome (α : Type) where
  | sent (x : Msg α) | sendRaised (x : Msg α) (text : String) | sendCancelled (x : Msg α)
  | received (x : Msg α) | receiveRaised (text : String) | receiveCancelled
  deriving DecidableEq, Repr

/-- The shared memory: the fields of the channel, the flags of the events and the next ones to be allocated, and the next task.
The last three fields record the run: the messages in the order they were pushed to the queue and popped from it, and the
outcomes of the calls. -/
structure Mem (α : Type) where
  queue : List (Msg α × Option Nat)
  waiters : List Nat
  len : Nat
  tx : Nat
  rx : Nat
  closed : Bool
  flag : Ev → Bool
  rxNext : Nat
  txNext : Nat
  tasks : Nat
  accepted : List (Msg α)
  dequeued : List (Msg α)
  history : List (Outcome α)

/-- The operations of a task. Its program is made of `send`, `receive`, `close`, and the creation and dropping of senders and
receivers; the other operations are the steps of these. -/
inductive Op (α : Type) where
  | send (x : Msg α) | receive | close | newSender | newReceiver | dropSender | dropReceiver
  | push (x : Msg α) | enqueue (x : Msg α) (wantPull : Option Nat) | waitSend (x : Msg α) (n : Nat) | sendDone (x : Msg α)
  | pullFast | pullSlow | lenSub (x : Msg α) (wantPull : Option Nat) | receiveDone (x : Msg α) | waitRecv (n : Nat)
  | takeWaiters | setEvent (e : Ev)
  deriving DecidableEq, Repr

/-- How a wait ends: by its event, or by a `CancelledError`. Every other operation goes on. -/
inductive Choice where
  | go | cancel
  deriving DecidableEq, Repr

/-- What a task does, one after the other; an error or a cancellation ends the call it hits. -/
inductive Cmd (α : Type) where
  | send (a : α) | receive | close | newSender | newReceiver | dropSender | dropReceiver
  deriving DecidableEq, Repr

variable {α : Type}

/-- The program of a task from its place `k` on. -/
def program (task : Nat) : Nat → List (Cmd α) → List (Op α)
  | _, [] => []
  | k, .send a :: cmds => .send ⟨task, k, a⟩ :: program task (k + 1) cmds
  | k, .receive :: cmds => .receive :: program task (k + 1) cmds
  | k, .close :: cmds => .close :: program task (k + 1) cmds
  | k, .newSender :: cmds => .newSender :: program task (k + 1) cmds
  | k, .newReceiver :: cmds => .newReceiver :: program task (k + 1) cmds
  | k, .dropSender :: cmds => .dropSender :: program task (k + 1) cmds
  | k, .dropReceiver :: cmds => .dropReceiver :: program task (k + 1) cmds

/-- Record the outcome of a call. -/
def Mem.ended (m : Mem α) (o : Outcome α) : Mem α := { m with history := m.history ++ [o] }

/-- `fetch_add(1)` on a `usize`. -/
def fetchAdd (n : Nat) : Nat := (n + 1) % 2 ^ 64

/-- `fetch_sub(1)` on a `usize`. -/
def fetchSub (n : Nat) : Nat := (n + (2 ^ 64 - 1)) % 2 ^ 64

/-- `push` under the mutex: the message goes to the end of the queue, and the event of the first queued receiver is taken to be
set. A sender that has an event of its own waits for it then. -/
def Mem.enqueue (m : Mem α) (x : Msg α) (wantPull : Option Nat) : Mem α × List (Op α) :=
  ({ m with queue := m.queue ++ [(x, wantPull)], accepted := m.accepted ++ [x], waiters := m.waiters.tail },
    (m.waiters.head?.map (fun n => Op.setEvent (.rx n))).toList ++ [wantPull.elim (.sendDone x) (.waitSend x)])

/-- `try_pull!` under the mutex: pop a message, or find the queue empty and the channel closed. -/
def Chan.tryPull (P : Chan) (m : Mem α) : Option (Mem α × List (Op α)) :=
  match m.queue with
  | (x, wantPull) :: queue =>
    some ({ m with queue := queue, dequeued := m.dequeued ++ [x] },
      [if P.size.isSome then .lenSub x wantPull else .receiveDone x])
  | [] => if m.closed then some (m.ended (.receiveRaised "channel closed"), []) else none

/-- The second attempt of `pull`, after the event has been allocated: the event is queued when it fails too. -/
def Chan.pullSlow (P : Chan) (m : Mem α) : Mem α × List (Op α) :=
  (P.tryPull m).getD ({ m with waiters := m.waiters ++ [m.rxNext], rxNext := m.rxNext + 1 }, [.waitRecv m.rxNext])

/-- What an operation does. A task blocks on its event while that is not set; only a sender or a receiver that exists is
dropped. -/
def Chan.exec (P : Chan) (m : Mem α) : Op α → Choice → Option (Mem α × List (Op α))
  | .waitSend x _, .cancel => some (m.ended (.sendCancelled x), [])
  | .waitRecv _, .cancel => some (m.ended .receiveCancelled, [])
  | _, .cancel => none
  | .newSender, .go => some ({ m with tx := fetchAdd m.tx }, [])
  | .newReceiver, .go => some ({ m with rx := fetchAdd m.rx }, [])
  | .dropSender, .go =>
    if m.tx = 0 then none else some ({ m with tx := fetchSub m.tx }, if m.tx = 1 then [.close] else [])
  | .dropReceiver, .go =>
    if m.rx = 0 then none else some ({ m with rx := fetchSub m.rx }, if m.rx = 1 then [.close] else [])
  | .close, .go => some (if m.closed then (m, []) else ({ m with closed := true }, [.takeWaiters]))
  | .takeWaiters, .go => some ({ m with waiters := [] }, m.waiters.map (fun n => .setEvent (.rx n)))
  | .setEvent e, .go => some ({ m with flag := Function.update m.flag e true }, [])
  | .send x, .go =>
    some (if m.closed then (m.ended (.sendRaised x P.sendText), []) else (m, [.push x]))
  -- `len` is counted, and an event allocated, by the bounded channel only
  | .push x, .go =>
    match P.size with
    | none => some (m.enqueue x none)
    | some size =>
      if m.len < size then some ({ m with len := fetchAdd m.len }, [.enqueue x none])
      else some ({ m with len := fetchAdd m.len, txNext := m.txNext + 1 }, [.enqueue x (some m.txNext)])
  | .enqueue x wantPull, .go => some (m.enqueue x wantPull)
  | .waitSend x n, .go => if m.flag (.tx n) then some (m, [.sendDone x]) else none
  | .sendDone x, .go => some (m.ended (.sent x), [])
  | .receive, .go => some (m, [.pullFast])
  | .pullFast, .go => some ((P.tryPull m).getD (m, [.pullSlow]))
  | .pullSlow, .go => some (P.pullSlow m)
  | .lenSub x wantPull, .go =>
    some ({ m with len := fetchSub m.len }, (wantPull.map (fun n => Op.setEvent (.tx n))).toList ++ [.receiveDone x])
  | .receiveDone x, .go => some (m.ended (.received x), [])
  | .waitRecv n, .go => if m.flag (.rx n) then some (m, [.pullFast]) else none

/-- A call starts a task. -/
def call (m : Mem α) (cmds : List (Cmd α)) : Option (Mem α × List (Op α)) :=
  some ({ m with tasks := m.tasks + 1 }, program m.tasks 0 cmds)

/-- The tasks around one channel. -/
def Chan.machine (P : Chan) : Machine (Mem α) (Op α) Choice (List (Cmd α)) where
  exec := P.exec
  call := call

/-- What `channel` and `unbounded_channel` give: an empty channel with one sender and one receiver, and nobody around it. -/
def initial : State (Mem α) (Op α) :=
  ⟨⟨[], [], 0, 1, 1, false, fun _ => false, 0, 0, 0, [], [], []⟩, []⟩

/-! ## What is said about a channel -/

/-- The operations inside a `push`, a `pull` or a `close`. -/
def Op.busy : Op α → Bool
  | .push _ | .enqueue _ _ | .sendDone _ | .pullFast | .pullSlow | .lenSub _ _ | .receiveDone _ | .takeWaiters | .setEvent _ => true
  | _ => false

/-- The messages receivers have returned. -/
def Mem.returned (m : Mem α) : List (Msg α) :=
  m.history.filterMap (fun | .received x => some x | _ => none)

/-- The acts that end a parked `receive` by cancelling it, or that belong to a `close`, explicit or by a drop. -/
def CancelsOrCloses : Act (Op α) Choice (List (Cmd α)) → Prop
  | .exec (.waitRecv _) .cancel | .exec .close .go | .exec .takeWaiters .go | .exec .dropSender .go | .exec .dropReceiver .go => True
  | _ => False

/-- The message an operation has popped and is about to return. -/
def Op.inFlight : Op α → List (Msg α)
  | .lenSub x _ | .receiveDone x => [x]
  | _ => []

/-- The message an operation has still to push. -/
def Op.unsent : Op α → List (Msg α)
  | .send x | .push x | .enqueue x _ => [x]
  | _ => []

/-- A `send` is cancelled before its message was pulled. -/
def Abandons (m : Mem α) : Act (Op α) Choice (List (Cmd α)) → Prop
  | .exec (.waitSend x _) .cancel => x ∉ m.dequeued
  | _ => False

/-- The senders that are parked. -/
def Op.parked : Op α → Bool
  | .waitSend _ _ => true
  | _ => false

end Channel

end Tonio
