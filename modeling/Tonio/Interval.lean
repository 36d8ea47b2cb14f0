import Mathlib

/-!
# Intervals

`_Interval` of `_time.py`, with `Interval.tick` of both flavours, and `interval`. Every tick polls the interval, with the clock as it reads then, for
how long it has to wait; a poll that is late does not wait, and the deadlines go on from when it was made. The wait is a timer, which is registered
at a later reading of the clock, and fires when it is due or later, as `Tonio.Time` has it.

Times are in microseconds: what `interval` rounds is an integer here, and the period one that is not negative.
-/

namespace Tonio

/-- `_Interval`. -/
structure Interval where
  deadline : Int
  len : Nat
  deriving DecidableEq, Repr

namespace Interval

/-- `_poll`, at a reading of the clock: the interval after it, and the delay. -/
def poll (i : Interval) (now : Int) : Interval × Int :=
  if now ≥ i.deadline then (⟨now + i.len, i.len⟩, 0) else (⟨i.deadline + i.len, i.len⟩, i.deadline - now)

/-- `interval`, of what it has rounded. -/
def interval (period : Int) (at' : Int) : Interval := ⟨at', (max 0 period).toNat⟩

/-- The readings of the clock in a tick: when it polls, when its timer is registered, and when the timer has fired. -/
structure Tick where
  now : Int
  registered : Int
  fired : Int

/-- The interval before each tick. -/
def before (i : Interval) (ticks : Nat → Tick) : Nat → Interval
  | 0 => i
  | k + 1 => ((before i ticks k).poll (ticks k).now).1

/-- A tick is registered after its poll, and fires when the delay is over, or later. -/
structure Tick.Waits (t : Tick) (i : Interval) : Prop where
  registered : t.now ≤ t.registered
  fired : t.registered + (i.poll t.now).2 ≤ t.fired

end Interval

end Tonio
