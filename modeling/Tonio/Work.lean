import Tonio.Interleaving.Weight

/-!
# The workers and how they park

`work.rs`, `WorkSchedule`, `find_work` and `work_loop`, with the producers of `runtime.rs` (`add_handle`, `defer_handle`,
`add_io_handle`) and `stop_threads`. A worker takes a handle from its own deque, from the injector or from another worker's deque;
when it finds none it raises its idle flag, scans again, and parks. A producer pushes a handle and wakes a worker: it claims an
idle flag and unparks that worker. Waking is throttled by the speculation counter: `unpark_one` does nothing while a token is
out. The token goes with the claim to the worker that was woken, which speculates until it finds work or gives up.

The machine's threads are the workers and the calls of producers; an operation is one atomic access, one operation on a deque or
the injector, or `park` and `unpark` of a parker, which keeps at most one permit. A worker that runs a handle may produce, and
the operations of that call carry the handle it goes back to. The counters are `usize` in the source; `idle_count` may fall below
zero for a moment and both are compared with small numbers only, so they are integers here.
-/

namespace Tonio

namespace Work

open Interleaving

/-- The two calls of `find_work`: before the idle flag is raised, and after. -/
inductive Phase where
  | scan | rescan
  deriving DecidableEq, Repr

variable {η : Type}

/-- The shared memory. The deques, flags and permits are indexed by the worker. -/
structure Mem (η : Type) where
  injector : List η
  deque : Nat → List η
  flag : Nat → Bool
  idleCount : Int
  speculation : Int
  permit : Nat → Bool
  stopping : Bool

/-- The operations. `i` is the worker and `sp` its `is_speculating`; `who` is the worker that produces and the handle it runs, or
none for a thread that is not a worker. -/
inductive Op (η : Type) where
  -- `find_work`
  | own (ph : Phase) (i : Nat) (sp : Bool) | inject (ph : Phase) (i : Nat) (sp : Bool)
  | steal (ph : Phase) (i : Nat) (sp : Bool) (j : Nat)
  -- `work_loop`
  | unspec (i : Nat) (h : η) | run (i : Nat) (h : η)
  | stop1 (i : Nat) (sp : Bool) | setFlag (i : Nat) (sp : Bool) | incCount (i : Nat) (sp : Bool)
  | found (i : Nat) (sp : Bool) (h : η)
  | stop2 (i : Nat) (sp : Bool) | clearStop (i : Nat) (sp : Bool)
  | release (i : Nat) | final (i : Nat) | finalFound (i : Nat) (h : η)
  | park (i : Nat) | clearWake (i : Nat) | stop3 (i : Nat) (claimed : Bool)
  -- `WorkSchedule`
  | loadCount (who : Option (Nat × η)) (force : Bool) | casSpec (who : Option (Nat × η)) | incSpec (who : Option (Nat × η))
  | wake (who : Option (Nat × η)) (k : Nat)
  | decCount | subSpec | unpark (k : Nat)
  deriving DecidableEq, Repr

/-- What a handle that runs does next: it returns (`go`), or it produces a handle. Every other operation goes on. -/
inductive Choice (η : Type) where
  | go | add (h : η) | defer (h : η) | io (h : η)
  deriving DecidableEq, Repr

/-- The calls of the threads that are not workers. -/
inductive Call (η : Type) where
  | add (h : η) | defer (h : η) | io (h : η) | stop
  deriving DecidableEq, Repr

/-- A worker that has found a handle gives up its token first, if it is speculating. -/
def settle (i : Nat) (sp : Bool) (h : η) : Op η := if sp then .unspec i h else .run i h

/-- What follows when `find_work` finds a handle. -/
def got (ph : Phase) (i : Nat) (sp : Bool) (h : η) : Op η :=
  match ph with
  | .scan => settle i sp h
  | .rescan => .found i sp h

/-- What follows when `find_work` finds nothing. -/
def missed (ph : Phase) (i : Nat) (sp : Bool) : Op η :=
  match ph with
  | .scan => .stop1 i sp
  | .rescan => .stop2 i sp

/-- A call of a producer is over: a worker goes back to the handle it runs. -/
def resume (who : Option (Nat × η)) : List (Op η) := (who.map (fun w => Op.run w.1 w.2)).toList

/-- Set the deque of a worker. -/
def Mem.setDeque (m : Mem η) (i : Nat) (q : List η) : Mem η := { m with deque := Function.update m.deque i q }

/-- Set the idle flag of a worker. -/
def Mem.setFlag (m : Mem η) (i : Nat) (b : Bool) : Mem η := { m with flag := Function.update m.flag i b }

/-- Set the permit of a worker's parker. -/
def Mem.setPermit (m : Mem η) (i : Nat) (b : Bool) : Mem η := { m with permit := Function.update m.permit i b }

/-- `clear_idle`: lower the flag of a worker; whether it was up decides what follows. The count is corrected when it was. -/
def Mem.clearIdle (m : Mem η) (i : Nat) (up down : List (Op η)) : Mem η × List (Op η) :=
  if m.flag i then (m.setFlag i false, .decCount :: up) else (m, down)

/-- What an operation does, with `n` workers. A worker blocks on its parker while it has no permit. -/
def exec (n : Nat) (m : Mem η) : Op η → Choice η → Option (Mem η × List (Op η))
  | .run i h, .add x => some (m.setDeque i (m.deque i ++ [x]), [.loadCount (some (i, h)) false])
  | .run i h, .defer x => some ({ m with injector := m.injector ++ [x] }, [.loadCount (some (i, h)) false])
  | .run i h, .io x => some ({ m with injector := m.injector ++ [x] }, [.loadCount (some (i, h)) true])
  | .run i _, .go => some (m, [.own .scan i false])
  -- the deque of a worker is a LIFO: it is pushed and popped at the end, and stolen from at the front
  | .own ph i sp, .go =>
    match (m.deque i).getLast? with
    | some h => some (m.setDeque i (m.deque i).dropLast, [got ph i sp h])
    | none => some (m, [.inject ph i sp])
  | .inject ph i sp, .go =>
    match m.injector with
    | h :: q => some ({ m with injector := q }, [got ph i sp h])
    | [] => some (m, [.steal ph i sp 0])
  | .steal ph i sp j, .go =>
    if j < n then
      if j = i then some (m, [.steal ph i sp (j + 1)])
      else
        match m.deque j with
        | h :: q => some (m.setDeque j q, [got ph i sp h])
        | [] => some (m, [.steal ph i sp (j + 1)])
    else some (m, [missed ph i sp])
  | .unspec i h, .go =>
    some ({ m with speculation := m.speculation - 1 },
      [if m.speculation = 1 then .loadCount (some (i, h)) false else .run i h])
  | .stop1 i sp, .go => some (m, if m.stopping then (if sp then [.subSpec] else []) else [.setFlag i sp])
  | .setFlag i sp, .go => some (m.setFlag i true, [.incCount i sp])
  | .incCount i sp, .go => some ({ m with idleCount := m.idleCount + 1 }, [.own .rescan i sp])
  -- a claim that came during the scan: the token is absorbed
  | .found i sp h, .go => some (m.clearIdle i [settle i sp h] [.subSpec, settle i sp h])
  | .stop2 i sp, .go => some (m, [if m.stopping then .clearStop i sp else if sp then .release i else .park i])
  | .clearStop i sp, .go => some (m.clearIdle i (if sp then [.subSpec] else []) (if sp then [.subSpec] else []))
  | .release i, .go => some ({ m with speculation := m.speculation - 1 }, [.final i])
  | .final i, .go =>
    match m.injector with
    | h :: q => some ({ m with injector := q }, [.finalFound i h])
    | [] => some (m, [.park i])
  | .finalFound i h, .go => some (m.clearIdle i [.run i h] [.subSpec, .run i h])
  | .park i, .go => if m.permit i then some (m.setPermit i false, [.clearWake i]) else none
  | .clearWake i, .go => some (m.clearIdle i [.stop3 i false] [.stop3 i true])
  | .stop3 i claimed, .go => some (m, if m.stopping then [] else [.own .scan i claimed])
  | .loadCount who force, .go =>
    some (m, if m.idleCount = 0 then resume who else [if force then .incSpec who else .casSpec who])
  | .casSpec who, .go => some (if m.speculation = 0 then ({ m with speculation := 1 }, [.wake who 0]) else (m, resume who))
  | .incSpec who, .go => some ({ m with speculation := m.speculation + 1 }, [.wake who 0])
  -- `wake_idle`: claim the first flag that is up and unpark its worker, or give the token back
  | .wake who k, .go =>
    if k < n then
      if m.flag k then some (m.setFlag k false, .decCount :: .unpark k :: resume who) else some (m, [.wake who (k + 1)])
    else some ({ m with speculation := m.speculation - 1 }, resume who)
  | .decCount, .go => some ({ m with idleCount := m.idleCount - 1 }, [])
  | .subSpec, .go => some ({ m with speculation := m.speculation - 1 }, [])
  | .unpark k, .go => some (m.setPermit k true, [])
  | _, _ => none

/-- A call of a thread that is not a worker: the handle goes to the injector; `stop_threads` unparks every worker. -/
def call (n : Nat) (m : Mem η) : Call η → Option (Mem η × List (Op η))
  | .add h | .defer h => some ({ m with injector := m.injector ++ [h] }, [.loadCount none false])
  | .io h => some ({ m with injector := m.injector ++ [h] }, [.loadCount none true])
  | .stop => some ({ m with stopping := true }, (List.range n).map .unpark)

/-- `n` workers and the producers around them. -/
def machine (n : Nat) : Machine (Mem η) (Op η) (Choice η) (Call η) where
  exec := exec n
  call := call n

/-- The workers start with nothing to do. -/
def initial (n : Nat) : State (Mem η) (Op η) :=
  ⟨⟨[], fun _ => [], fun _ => false, 0, 0, fun _ => false, false⟩, (List.range n).map (fun i => [.own .scan i false])⟩

/-! ## What is said about the workers -/

/-- The worker whose thread an operation belongs to and goes on from, if it is a worker's. -/
def Op.worker : Op η → Option Nat
  | .own _ i _ | .inject _ i _ | .steal _ i _ _ | .unspec i _ | .run i _ | .stop1 i _ | .setFlag i _ | .incCount i _ | .found i _ _
  | .stop2 i _ | .clearStop i _ | .release i | .final i | .finalFound i _ | .park i | .clearWake i | .stop3 i _ => some i
  | .loadCount who _ | .casSpec who | .incSpec who | .wake who _ => who.map Prod.fst
  | .decCount | .subSpec | .unpark _ => none

/-- The worker has looked at the injector for the last time before it parks. -/
def Op.committed : Op η → Bool
  | .steal .rescan _ false _ | .stop2 _ false | .park _ => true
  | _ => false

/-- The operations of a producer's call after its push. -/
def Op.producing : Op η → Bool
  | .loadCount _ _ | .casSpec _ | .incSpec _ | .wake _ _ | .decCount | .unpark _ => true
  | _ => false

/-- Work is stranded: a handle waits in the injector or in a deque, no call of a producer is in progress, and every worker is
blocked in `park` without a permit. -/
def Stranded (n : Nat) (s : State (Mem η) (Op η)) : Prop :=
  (s.mem.injector ≠ [] ∨ ∃ i < n, s.mem.deque i ≠ []) ∧ (∀ op ∈ s.ops, op.producing = false) ∧
    ∀ i < n, Op.park i ∈ s.ops ∧ s.mem.permit i = false

/-- A wake-up is elided for a token that comes to nothing: the `unpark_one` of a thread that is not a worker finds a token out while
every worker has looked at the injector for the last time and has its flag up, and every `wake_idle` of a thread that is not a
worker has gone through all flags and is about to give its token back. -/
def Elided (n : Nat) (m : Mem η) (ops : List (Op η)) : Act (Op η) (Choice η) (Call η) → Prop
  | .exec (.casSpec none) .go =>
    m.speculation ≠ 0 ∧ (∀ op ∈ ops, op.worker.isSome → op.committed) ∧ (∀ i < n, m.flag i = true) ∧
      ∀ k < n, Op.wake none k ∉ ops
  | _ => False

end Work

end Tonio
