import Tonio.Lemmas.Await

/-!
# What `spawn_blocking` reports

The outcome of a blocking task is stored in two slots, one after the other, and the event is set after both. A caller that is cancelled
reads the slots without the event; it looks at the first one to see whether there is an outcome.
-/

namespace Tonio.Await

open Interleaving
open Tonio.Blocking (Obj Outcome Party Reported Replays Entry)

variable {α : Type} {tmax : Nat}

end Tonio.Await
