import Tonio.Runtime

/-!
# Direct evaluation of nested generators

What a program of nested generators means without a runtime: a generator that yields a child waits until the child is over and goes on
with what the child returned, or with its exception raised at the yield; one that yields a waiter goes on with what the waiter gives.

A program is what its generators do: each of them, numbered in the order in which they are called, decides by what it has been sent
and thrown so far. `Evaluates` is the recursive evaluation; it notes what every generator is sent and thrown, in order, and which
waiters are yielded. A program is finite if the evaluation of its root ends. `Runs` are the runs of the runtime in which the root
is spawned once, the generators do what the program says, and nothing is aborted.
-/

namespace Tonio.Runtime

open Interleaving

/-- What the generators of a program do, given what they have been sent and thrown. -/
abbrev Program := Nat → List Input → Out

/-- How a generator ends. -/
inductive Result where
  | ret (v : Val) | raise (e : Exc)
  deriving DecidableEq, Repr

/-- What a parent is resumed with. -/
def Result.input : Result → Input
  | .ret v => .send v
  | .raise e => .throw e

/-- What a generator does that ends. -/
def Result.out : Result → Out
  | .ret v => .ret v
  | .raise e => .raise e

/-- What a waiter gives: `None` for a checkpoint or one event, and a list of as many for several. -/
def waitValue (events : List Nat) : Val :=
  if events.length < 2 then .none else .list (List.replicate events.length .none)

/-- The evaluation of a generator that has been sent and thrown `h`, when `n` generators have been called: how it ends, how many have been
called then, what was sent and thrown to whom, and which waiters were yielded. The root, which is the first one, yields no checkpoint. -/
inductive Evaluates (ws : Nat → Waiter) (P : Program) :
    Nat → List Input → Nat → Result → Nat → List (Nat × Input) → List Nat → Prop where
  | ended {k n : Nat} {h : List Input} (r : Result) (hP : P k h = r.out) : Evaluates ws P k h n r n [] []
  | call {k n n₁ n₂ : Nat} {h : List Input} {r r' : Result} {l l' : List (Nat × Input)} {us us' : List Nat} (hP : P k h = .yieldGen)
      (hchild : Evaluates ws P n [.send .none] (n + 1) r n₁ l us) (hnext : Evaluates ws P k (h ++ [r.input]) n₁ r' n₂ l' us') :
      Evaluates ws P k h n r' n₂ ((n, .send .none) :: (l ++ (k, r.input) :: l')) (us ++ us')
  | wait {k n n₁ : Nat} {h : List Input} {r : Result} {l : List (Nat × Input)} {us : List Nat} (w : Nat) (hP : P k h = .yieldWaiter w)
      (hroot : (ws w).events = [] → k ≠ 0)
      (hnext : Evaluates ws P k (h ++ [.send (waitValue (ws w).events)]) n r n₁ l us) :
      Evaluates ws P k h n r n₁ ((k, .send (waitValue (ws w).events)) :: l) (w :: us)

/-- What a generator has been sent and thrown. -/
def inputsOf (k : Nat) (log : List (Nat × Input)) : List Input := (log.filter (fun x => x.1 = k)).map Prod.snd

/-- The root is spawned once, a generator does what the program says, and nothing is aborted and no event cleared. -/
def Runs (P : Program) (m : Mem) : Act Op Choice Call → Prop
  | .exec (.run (.gen _ coro _ input)) (.out o) => o = P coro (inputsOf coro m.log ++ [input])
  | .call (.spawn fl _) => fl = .gen ∧ m.nextCoro = 0
  | .call (.abort _ _) | .call (.clear _) => False
  | _ => True

/-- What the workers do: an operation of a thread, or a worker takes a handle. -/
def Works : Act Op Choice Call → Prop
  | .exec _ _ | .call (.work _) => True
  | .call _ => False

end Tonio.Runtime
