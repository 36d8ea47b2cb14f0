import Tonio.Ctl

/-!
# `as_completed`

`as_completed` of `_ctl.py`, in both flavours: a generator that spawns a wrapper for each coroutine and then hands out an item for each of
as many slots. A wrapper whose coroutine has returned pops a slot, stores the value in it, and sets its event; an item waits for the event
of its slot and fetches. In the generator flavour the items are coroutines, which the consumer awaits when and in the order it likes; the
`async` generator awaits each itself and hands out its value.

A wrapper begins when a worker gets to it, and its coroutine ends when and how the environment decides. `finished` is the order in which
the coroutines end, `popped` that in which the wrappers pop.
-/

namespace Tonio

namespace AsCompleted

open Interleaving
open Ctl (Flavour Exc Outcome)

variable {α : Type}

/-- The shared memory: the slots left to be popped, and what is in each and whether its event is set; of the generator, whether it runs, and
how many slots its loop has taken; the wrappers that have not begun, and the items awaited; and what has been delivered or given up. -/
structure Mem (α : Type) where
  glues : List Nat
  slot : Nat → Option α
  event : Nat → Bool
  running : Bool
  asked : Nat
  pending : List Nat
  awaited : List Nat
  cancelled : List Nat
  delivered : List (Nat × Option α)
  finished : List (Nat × Outcome α)
  popped : List (Nat × α)

/-- The operations: those of a wrapper, those of the generator, and those of an item. -/
inductive Op (α : Type) where
  | run (i : Nat) | pop (i : Nat) (ret : α) | store (k : Nat) (ret : α) | setEvent (k : Nat)
  | spawn (i : Nat) | hand
  | wait (k : Nat) | fetch (k : Nat)
  deriving DecidableEq, Repr

/-- What the environment decides: how a coroutine ends, and that a task is cancelled where it waits. -/
inductive Choice (α : Type) where
  | go | finish (o : Outcome α) | cancel
  deriving DecidableEq, Repr

/-- The consumer asks for the next item, or awaits one it has; a worker gets to a wrapper. -/
inductive Call where
  | next | load (k : Nat) | begin (i : Nat)
  deriving DecidableEq, Repr

/-- What an operation does with `n` coroutines. -/
def exec (fl : Flavour) (n : Nat) (m : Mem α) : Op α → Choice α → Option (Mem α × List (Op α))
  | .run i, .finish (.ret v) => some ({ m with finished := m.finished ++ [(i, .ret v)] }, [.pop i v])
  | .run i, .finish (.exc e) => some ({ m with finished := m.finished ++ [(i, .exc e)] }, [])
  | .pop i v, .go =>
    match m.glues.getLast? with
    | some k => some ({ m with glues := m.glues.dropLast, popped := m.popped ++ [(i, v)] }, [.store k v])
    | none => some (m, [])
  | .store k v, .go => some ({ m with slot := Function.update m.slot k (some v) }, [.setEvent k])
  | .setEvent k, .go => some ({ m with event := Function.update m.event k true }, [])
  | .spawn i, .go => some ({ m with pending := m.pending ++ [i] }, [if i + 1 < n then .spawn (i + 1) else .hand])
  | .hand, .go =>
    match fl with
    | .gen => some ({ m with asked := m.asked + 1, running := false }, [])
    | .colored => some ({ m with asked := m.asked + 1, awaited := m.awaited ++ [m.asked] }, [.wait m.asked])
  | .wait k, .go => if m.event k then some (m, [.fetch k]) else none
  | .wait k, .cancel => some ({ m with cancelled := m.cancelled ++ [k] }, [])
  | .fetch k, .go =>
    match fl with
    | .gen => some ({ m with delivered := m.delivered ++ [(k, m.slot k)] }, [])
    | .colored => some ({ m with delivered := m.delivered ++ [(k, m.slot k)], running := false }, [])
  | _, _ => none

/-- What the consumer and the workers do. An item is awaited once, and the generator goes on when it does not run and has slots left. -/
def call (fl : Flavour) (n : Nat) (m : Mem α) : Call → Option (Mem α × List (Op α))
  | .next =>
    if m.running = false ∧ m.asked < n then some ({ m with running := true }, [if m.asked = 0 then .spawn 0 else .hand]) else none
  | .load k =>
    if fl = .gen ∧ k < m.asked ∧ k ∉ m.awaited then some ({ m with awaited := m.awaited ++ [k] }, [.wait k]) else none
  | .begin i => if i ∈ m.pending then some ({ m with pending := m.pending.erase i }, [.run i]) else none

/-- A call of `as_completed` with `n` coroutines, its consumer, and the workers. -/
def machine (fl : Flavour) (n : Nat) : Machine (Mem α) (Op α) (Choice α) Call where
  exec := exec fl n
  call := call fl n

/-- `as_completed` has been called: `glues = list(reversed(targets))`. -/
def initial (n : Nat) : State (Mem α) (Op α) :=
  ⟨⟨(List.range n).reverse, fun _ => none, fun _ => false, false, 0, [], [], [], [], [], []⟩, []⟩

/-! ## What is said about the items -/

/-- An operation of a wrapper whose coroutine has returned. -/
def Op.fills : Op α → Bool
  | .pop _ _ | .store _ _ | .setEvent _ => true
  | _ => false

/-- One if an operation awaits item `k`. -/
def Op.loads (k : Nat) : Op α → Nat
  | .wait j | .fetch j => if j = k then 1 else 0
  | _ => 0

/-- No coroutine raises, and a wrapper pops its slot when those of all coroutines that ended before its own have. -/
def Orderly (m : Mem α) : Act (Op α) (Choice α) Call → Prop
  | .exec (.run _) (.finish (.exc _)) => False
  | .exec (.pop i v) _ => m.finished[m.popped.length]? = some (i, .ret v)
  | _ => True

end AsCompleted

end Tonio
