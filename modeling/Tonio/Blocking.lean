import Tonio.Interleaving.Weight

/-!
# The blocking pool

`blocking.rs`: the control block of a blocking task (`BlockingTaskCtl`), the runner (`BlockingTask::run`), the pool that queues
tasks and starts threads (`BlockingRunnerPool`) and the loop of its threads (`blocking_worker`). A thread takes a task from the
queue, publishes its thread id in the task's control block and exchanges the state from `Queued` to `Running`; when the callable is
over it stores the outcome in the two slots of the result holder, takes the thread id back, stores `Done` and sets the event.
`abort` exchanges `Queued` to `Cancelled` and reports a `CancelledError` itself; when the task runs already it injects a
`CancelledError` into the thread the control block names, with `PyThreadState_SetAsyncExc`. That exception is raised when the
thread next runs Python code, and the thread throws it away after each task.

The machine's threads are the submitters, the aborts and the threads of the pool; an operation is one atomic access, one operation
on the queue or the result holder, or one call into the interpreter. `history` records for each task what was done to it and by
whom, and `raised` where injected exceptions came up; nothing reads them.
-/

namespace Tonio

namespace Blocking

open Interleaving

/-- `TaskState`. -/
inductive TaskState where
  | queued | running | cancelled | done
  deriving DecidableEq, Repr

variable {α : Type}

/-- The Python objects a slot of the result holder may have: the `None` it starts with, the flag of slot 0, the `CancelledError` of
`errors::abort`, or an object of the callable. -/
inductive Obj (α : Type) where
  | none | bool (b : Bool) | cancelled | obj (v : α)
  deriving DecidableEq, Repr

/-- How a callable ends, as `store_ok` and `store_err` report it: whether it raised, and what it returned or raised. -/
structure Outcome (α : Type) where
  failed : Bool
  value : Obj α
  deriving DecidableEq, Repr

/-- Who reports an outcome: the thread `t` that ran the task, or the `n`-th abort. -/
inductive Party where
  | runner (t : Nat) | abort (n : Nat)
  deriving DecidableEq, Repr

/-- What happens to a task: an exchange of its state away from `Queued`, the call of its callable, a store to its result holder, and
the setting of its event. -/
inductive Entry (α : Type) where
  | took (p : Party) | invoked | stored (p : Party) (i : Nat) (v : Obj α) | notified (p : Party)
  deriving DecidableEq, Repr

/-- `BlockingTaskCtl`: the state, the thread id (0 for none), the slots of the result holder, and the flag of the event. -/
structure Ctl (α : Type) where
  state : TaskState
  tid : Nat
  data : Nat → Obj α
  event : Bool

/-- The shared memory. `asyncExc` is the pending asynchronous exception of a thread, named by the task it was injected for, and
`alive` says which thread ids belong to a thread of the pool. -/
structure Mem (α : Type) where
  ctl : Nat → Ctl α
  queue : List Nat
  budget : Int
  threads : Nat
  alive : Nat → Bool
  asyncExc : Nat → Option Nat
  next : Nat
  aborts : Nat
  history : Nat → List (Entry α)
  raised : List (Nat × Nat)

/-- The operations. `k` is a task, `t` the thread id of a thread of the pool, `n` the number of an abort. -/
inductive Op (α : Type) where
  -- `BlockingRunnerPool::run` and `spawn_thread`
  | send (k : Nat) | takeBudget | loadThreads | incThreads | undoThreads
  -- `blocking_worker`
  | giveBudget (t : Nat) | recv (t : Nat)
  | idleBudget (t : Nat) | idleThreads (t : Nat) | tryRecv (t : Nat) | backThreads (t k : Nat) | backBudget (t k : Nat)
  | cleanup (t k : Nat)
  -- `BlockingTask::run`, with `begin` and `finish`
  | beginTid (t k : Nat) | beginState (t k : Nat) | beginUndo (t k : Nat)
  | invoke (t k : Nat) | callable (t k : Nat)
  | store0 (p : Party) (k : Nat) (o : Outcome α) | store1 (p : Party) (k : Nat) (o : Outcome α)
  | finishTid (t k : Nat) | finishState (t k : Nat) | notify (p : Party) (k : Nat)
  -- `abort`
  | cancel (n k : Nat) | isRunning (n k : Nat) | loadTid (n k : Nat) | inject (n t k : Nat)
  deriving DecidableEq, Repr

/-- What the environment decides: the thread id of a new thread, that a wait on the queue times out, that the interpreter raises the
pending exception, how the callable ends. Every other operation goes on. -/
inductive Choice (α : Type) where
  | go | ident (t : Nat) | timeout | interrupt | finish (o : Outcome α)
  deriving DecidableEq, Repr

/-- The calls: a task is submitted, a task is aborted. -/
inductive Call where
  | submit | abort (k : Nat)
  deriving DecidableEq, Repr

/-- Change the control block of a task. -/
def Mem.onCtl (m : Mem α) (k : Nat) (f : Ctl α → Ctl α) : Mem α := { m with ctl := Function.update m.ctl k (f (m.ctl k)) }

/-- Note what happens to a task. -/
def Mem.note (m : Mem α) (k : Nat) (e : Entry α) : Mem α :=
  { m with history := Function.update m.history k (m.history k ++ [e]) }

/-- `PyThreadState_SetAsyncExc`: the pending exception of a thread, if there is such a thread. -/
def Mem.setAsyncExc (m : Mem α) (t : Nat) (x : Option Nat) : Mem α :=
  if m.alive t then { m with asyncExc := Function.update m.asyncExc t x } else m

/-- A thread comes or goes. It starts without a pending exception. -/
def Mem.setAlive (m : Mem α) (t : Nat) (b : Bool) : Mem α :=
  { m with alive := Function.update m.alive t b, asyncExc := Function.update m.asyncExc t none }

/-- `ResultHolder::store`. -/
def Mem.store (m : Mem α) (p : Party) (k i : Nat) (v : Obj α) : Mem α :=
  (m.onCtl k (fun c => { c with data := Function.update c.data i v })).note k (.stored p i v)

/-- What follows the stores: the runner finishes, an abort notifies. -/
def afterStore (p : Party) (k : Nat) : Op α :=
  match p with
  | .runner t => .finishTid t k
  | .abort n => .notify (.abort n) k

/-- What follows the notification: the thread of the runner cleans up. -/
def afterNotify (p : Party) (k : Nat) : List (Op α) :=
  match p with
  | .runner t => [.cleanup t k]
  | .abort _ => []

/-- What an operation does, with at most `tmax` threads. -/
def exec (tmax : Nat) (m : Mem α) : Op α → Choice α → Option (Mem α × List (Op α))
  | .send k, .go => some ({ m with queue := m.queue ++ [k] }, [.takeBudget])
  | .takeBudget, .go => some ({ m with budget := m.budget - 1 }, if m.budget ≤ 0 then [.loadThreads] else [])
  | .loadThreads, .go => some (m, if m.threads < tmax then [.incThreads] else [])
  -- the thread that is started takes the place of the submitter, whose call is over
  | .incThreads, .ident t =>
    if m.threads < tmax ∧ 0 < t ∧ m.alive t = false then
      some ({ m with threads := m.threads + 1 }.setAlive t true, [.giveBudget t])
    else none
  | .incThreads, .go => if m.threads < tmax then none else some ({ m with threads := m.threads + 1 }, [.undoThreads])
  | .undoThreads, .go => some ({ m with threads := m.threads - 1 }, [])
  | .giveBudget t, .go => some ({ m with budget := m.budget + 1 }, [.recv t])
  | .recv t, .go =>
    match m.queue with
    | k :: q => some ({ m with queue := q }, [.beginTid t k])
    | [] => none
  | .recv t, .timeout => some (m, [.idleBudget t])
  | .idleBudget t, .go => some ({ m with budget := m.budget - 1 }, [.idleThreads t])
  | .idleThreads t, .go => some ({ m with threads := m.threads - 1 }, [.tryRecv t])
  | .tryRecv t, .go =>
    match m.queue with
    | k :: q => some ({ m with queue := q }, [.backThreads t k])
    | [] => some (m.setAlive t false, [])
  | .backThreads t k, .go => some ({ m with threads := m.threads + 1 }, [.backBudget t k])
  | .backBudget t k, .go => some ({ m with budget := m.budget + 1 }, [.beginTid t k])
  | .cleanup t _, .go => some (m.setAsyncExc t none, [.giveBudget t])
  | .beginTid t k, .go => some (m.onCtl k (fun c => { c with tid := t }), [.beginState t k])
  | .beginState t k, .go =>
    if (m.ctl k).state = .queued then
      some ((m.onCtl k (fun c => { c with state := .running })).note k (.took (.runner t)), [.invoke t k])
    else some (m, [.beginUndo t k])
  | .beginUndo t k, .go => some (m.onCtl k (fun c => { c with tid := 0 }), [.cleanup t k])
  | .invoke t k, .go => some (m.note k .invoked, [.callable t k])
  -- the pending exception comes up in the callable, which may go on
  | .callable t k, .interrupt =>
    match m.asyncExc t with
    | some j => some ({ m.setAsyncExc t none with raised := (k, j) :: m.raised }, [.callable t k])
    | none => none
  | .callable t k, .finish o => some (m, [.store0 (.runner t) k o])
  | .store0 p k o, .go => some (m.store p k 0 (.bool o.failed), [.store1 p k o])
  | .store1 p k o, .go => some (m.store p k 1 o.value, [afterStore p k])
  | .finishTid t k, .go => some (m.onCtl k (fun c => { c with tid := 0 }), [.finishState t k])
  | .finishState t k, .go => some (m.onCtl k (fun c => { c with state := .done }), [.notify (.runner t) k])
  | .notify p k, .go => some ((m.onCtl k (fun c => { c with event := true })).note k (.notified p), afterNotify p k)
  | .cancel n k, .go =>
    if (m.ctl k).state = .queued then
      some ((m.onCtl k (fun c => { c with state := .cancelled })).note k (.took (.abort n)),
        [.store0 (.abort n) k ⟨true, .cancelled⟩])
    else some (m, [.isRunning n k])
  | .isRunning n k, .go => some (m, if (m.ctl k).state = .running then [.loadTid n k] else [])
  | .loadTid n k, .go => some (m, if 0 < (m.ctl k).tid then [.inject n (m.ctl k).tid k] else [])
  | .inject _ t k, .go => some (m.setAsyncExc t (some k), [])
  | _, _ => none

/-- A call: `BlockingTask::new` makes a control block and the task goes to the pool; an abort is of a task that was made. -/
def call (m : Mem α) : Call → Option (Mem α × List (Op α))
  | .submit => some ({ m with next := m.next + 1 }, [.send m.next])
  | .abort k => if k < m.next then some ({ m with aborts := m.aborts + 1 }, [.cancel m.aborts k]) else none

/-- The pool with at most `tmax` threads, and the callers around it. -/
def machine (tmax : Nat) : Machine (Mem α) (Op α) (Choice α) Call where
  exec := exec tmax
  call := call

/-- A new pool: no thread has been started. -/
def initial : State (Mem α) (Op α) :=
  ⟨⟨fun _ => ⟨.queued, 0, fun _ => .none, false⟩, [], 0, 0, fun _ => false, fun _ => none, 0, 0, fun _ => [], []⟩, []⟩

/-! ## What is said about the tasks -/

/-- The thread of the pool an operation belongs to. -/
def Op.thread : Op α → Option Nat
  | .giveBudget t | .recv t | .idleBudget t | .idleThreads t | .tryRecv t | .backThreads t _ | .backBudget t _ | .cleanup t _
  | .beginTid t _ | .beginState t _ | .beginUndo t _ | .invoke t _ | .callable t _ | .store0 (.runner t) _ _
  | .store1 (.runner t) _ _ | .finishTid t _ | .finishState t _ | .notify (.runner t) _ => some t
  | _ => none

/-- The task that `run` and the cleanup after it are about, on the thread they belong to. -/
def Op.window : Op α → Option (Nat × Nat)
  | .cleanup t k | .beginTid t k | .beginState t k | .beginUndo t k | .invoke t k | .callable t k | .store0 (.runner t) k _
  | .store1 (.runner t) k _ | .finishTid t k | .finishState t k | .notify (.runner t) k => some (t, k)
  | _ => none

/-- The task an operation of the submitter or of a thread has in its hands. -/
def Op.holds : Op α → Option Nat
  | .send k | .backThreads _ k | .backBudget _ k => some k
  | op => op.window.map Prod.snd

/-- The operations of the party that took a task. -/
def Op.acts : Op α → Option Nat
  | .invoke _ k | .callable _ k | .store0 _ k _ | .store1 _ k _ | .finishTid _ k | .finishState _ k | .notify _ k => some k
  | _ => none

/-- An abort of task `k` that has read the thread id `t` and has not injected its exception yet. -/
def Op.injects (t k : Nat) : Op α → Bool
  | .inject _ t' k' => t' == t && k' == k
  | _ => false

/-- A cleanup overtakes an abort: the thread throws the pending exception away after a task while an abort of that task has read
the thread id and has not injected its exception yet. -/
def Overtakes (ops : List (Op α)) : Act (Op α) (Choice α) Call → Prop
  | .exec (.cleanup t k) _ => ∃ op ∈ ops, op.injects t k = true
  | _ => False

/-- What a party does before it reports: the runner takes the task and calls the callable, an abort takes the task. -/
def Party.lead : Party → List (Entry α)
  | .runner t => [.took (.runner t), .invoked]
  | .abort n => [.took (.abort n)]

/-- All that happens to a task whose outcome is reported by one party: both slots are stored and the event is set. -/
def Party.report (p : Party) (o : Outcome α) : List (Entry α) :=
  p.lead ++ [.stored p 0 (.bool o.failed), .stored p 1 o.value, .notified p]

/-- The outcomes a party reports: an abort reports a `CancelledError`. -/
def Party.Reports : Party → Outcome α → Prop
  | .runner _, _ => True
  | .abort _, o => o = ⟨true, .cancelled⟩

/-- What an entry does to the slots of the result holder. -/
def Entry.apply (d : Nat → Obj α) : Entry α → Nat → Obj α
  | .stored _ i v => Function.update d i v
  | _ => d

/-- The slots of a result holder after the stores of a history. -/
def slots (h : List (Entry α)) : Nat → Obj α := h.foldl Entry.apply (fun _ => .none)

/-- The run of a task is over: the task was submitted, it is not queued, and no thread has it in its hands, but for the cleanup
after it. -/
def RunOver (m : Mem α) (ops : List (Op α)) (k : Nat) : Prop :=
  k < m.next ∧ k ∉ m.queue ∧ ∀ op ∈ ops, op.holds = some k → ∃ t, op = .cleanup t k

end Blocking

end Tonio
