import Tonio.Interleaving.Soup
import Tonio.Sync

/-!
# Contexts of locks and semaphores

`LockCtx` and `SemaphoreCtx` of `sync.rs`, which `__call__` and `or_raise` of `_sync.py` return, and the `with` blocks they are used in. What a task
is granted is an object, which it may keep, lose, or share with other tasks, and any of them may enter it at any time. `__enter__` exchanges
`consumed`, and raises a `RuntimeError` when that has been done before, so that the block is not run; `__exit__` releases the lock or the semaphore,
however the block is left.

The rest is the machine of `Tonio.Sync`, whose owner is a task that is about to make its context here.
-/

namespace Tonio

namespace Contexts

open Interleaving Sync

variable {K : Type}

/-- The shared memory: of the lock or the semaphore, and of the contexts, which are numbered. -/
structure Mem (K : Type) where
  prim : Sync.Mem K
  made : Nat
  consumed : Nat → Bool

/-- The operations. `new` makes a context, and `body` is the `with` block. -/
inductive Op where
  | prim (o : Sync.Op) | new | enter (c : Nat) | body
  deriving DecidableEq, Repr

/-- A task acquires, or enters a context it has got hold of. -/
inductive Call where
  | prim (l : Sync.Call) | enter (c : Nat)
  deriving DecidableEq, Repr

/-- Where a task comes to own, it makes a context. -/
def lift : Sync.Op → Op
  | .owner => .new
  | o => .prim o

/-- What an operation does. -/
def exec (P : Prim K) (m : Mem K) : Op → Choice → Option (Mem K × List Op)
  | .prim o, c => (P.exec m.prim o c).map (fun r => ({ m with prim := r.1 }, r.2.map lift))
  | .new, .go => some ({ m with made := m.made + 1 }, [])
  -- `Cannot acquire the same lock ctx multiple times.`
  | .enter c, .go => some (if m.consumed c then (m, []) else ({ m with consumed := Function.update m.consumed c true }, [.body]))
  | .body, .go => some (m, [.prim .release])
  | _, _ => none

/-- A call. -/
def call (m : Mem K) : Call → Option (Mem K × List Op)
  | .prim l => (Prim.call m.prim l).map (fun r => ({ m with prim := r.1 }, r.2.map lift))
  | .enter c => if c < m.made then some (m, [.enter c]) else none

/-- The tasks and the contexts around one lock or one semaphore. -/
def machine (P : Prim K) : Machine (Mem K) Op Choice Call where
  exec := exec P
  call := call

/-- A new primitive with nobody around it. -/
def initial (v : K) : State (Mem K) Op := ⟨⟨(Sync.initial v).mem, 0, fun _ => false⟩, []⟩

/-- The contexts that can be entered. -/
def Mem.unentered (m : Mem K) : List Nat := (List.range m.made).filter (fun c => !m.consumed c)

/-- The number of tasks in a `with` block. -/
def bodies (ops : List Op) : Nat := ops.count .body

end Contexts

end Tonio
