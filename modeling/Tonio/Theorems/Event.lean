import Tonio.Lemmas.Event

/-!
# No lost wake-up

The flag of an event is exchanged outside its mutex and checked again under it by `add_waker`, so a waiter that comes late finds
either the flag raised or a `set` call that has still to run `notify`. `is_set` reads the flag and changes nothing, so it is not among
the operations.
-/

namespace Tonio.Runtime

open Interleaving

theorem QueueStep.mono {e : Nat} {m m' : Mem} {new ops : List Op} (h : QueueStep e m m' new) (hsub : ∀ op ∈ new, op ∈ ops) :
    QueueStep e m m' ops := by
  cases h with
  | same h => exact .same h
  | joined x h => exact .joined x h
  | woken x h hnew => exact .woken x h (hsub _ hnew)
  | dropped x h hd => exact .dropped x h hd

end Tonio.Runtime
