import Tonio.Lemmas.Sentinel

/-!
# Waiters of several events

A waiter of several events counts down its wakers. `clear` counts the wakers it finds in the queue up again, though none of them has
been counted down: when its `unnotify` runs before the `notify` of the `set` it undoes, or after a waker that came once the flag was
down, the counter stays above the number of wakers for good. After an abort has spent the counter, the same lets a late waker schedule
the coroutine once more.
-/

namespace Tonio.Runtime

open Interleaving

instance (k : Nat) (m : Mem) (a : Act Op Choice Call) : Decidable (Overflows k m a) := by
  unfold Overflows
  induction a using Act.casesOn with
  | exec op c =>
    induction op using Op.casesOn with
    | unnotify e q => induction q using List.casesOn <;> infer_instance
    | _ => infer_instance
  | call l => infer_instance

instance (k : Nat) (m : Mem) (a : Act Op Choice Call) : Decidable (Rearms k m a) := by
  unfold Rearms
  induction a using Act.casesOn with
  | exec op c =>
    induction op using Op.casesOn with
    | unnotify e q => induction q using List.casesOn <;> infer_instance
    | _ => infer_instance
  | call l => infer_instance

instance (k : Nat) (m : Mem) (a : Act Op Choice Call) : Decidable (Rethrows k m a) := by
  unfold Rethrows
  induction a using Act.casesOn with
  | exec op c =>
    induction op using Op.casesOn with
    | error byAbort S e => induction byAbort using Bool.casesOn <;> infer_instance
    | _ => infer_instance
  | call l => infer_instance

/-- At most one handle is scheduled for a suspension, of any waiter, in every state of every run in which no `clear` call counts it up
after an abort has reached it, or beyond a `usize`, and no second abort reaches it while a waker that came too late has not been undone:
it is resolved at most once, with a value or with an exception, and no more handles than that are on their way. -/
theorem one_handle_per_suspension (ws : Nat → Waiter) (s : State Mem Op) (S : Susp)
    (h : (machine ws).Reach (fun m _ a => ¬Overflows S.cell m a ∧ ¬Rearms S.cell m a ∧ ¬Rethrows S.cell m a) initial s)
    (hS : s.mem.made S.cell = some S) :
    s.mem.fired S.cell ≤ 1 ∧ total (Op.schedules S.cell) s.ops ≤ s.mem.fired S.cell :=
  ⟨fired_le_one_of_reach (fun _ _ _ hk => hk) h hS, schedules_le_of_reach h S.cell⟩

/-- A checkpoint waiter, and waiters of the first two events. -/
def checkpointThenTwo : Nat → Waiter
  | 0 => .checkpoint
  | _ => .ofEvents 0 1

/-- A generator yields a child, which yields a checkpoint and then waits for two events. -/
def parkOnTwo : List (Label Choice Call) :=
  [.call (.spawn .gen none), .act 0 .go, .call (.work 0), .act 1 (.out .yieldGen), .act 1 .go, .call (.work 0),
    .act 2 (.out (.yieldWaiter 0)), .act 2 .go, .act 2 .go, .act 2 .go, .act 2 .go, .act 2 .go, .call (.work 0),
    .act 3 (.out (.yieldWaiter 1))] ++ List.replicate 10 (.act 3 .go)

/-- The suspension of the child. -/
def parkedOnTwo : Susp :=
  ⟨⟨.gen, 3, 1, none, true, false, some 0, 0, true⟩, [⟨.gen, 1, 0, none, false, true, some 0, 0, false⟩]⟩

/-- The child waits for two events; an abort of its checkpoint comes between the first and the second. -/
theorem one_handle_per_suspension_abort :
    ∃ s : State Mem Op, (machine checkpointThenTwo).Reach (fun m _ a =>
        ¬Overflows parkedOnTwo.cell m a ∧ ¬Rearms parkedOnTwo.cell m a ∧ ¬Rethrows parkedOnTwo.cell m a) initial s ∧
      s.mem.made parkedOnTwo.cell = some parkedOnTwo ∧ s.mem.flag 0 = true ∧ s.mem.flag 1 = true ∧
      s.mem.handles = [parkedOnTwo.handle (.throw .cancelled)] ∧
      s.mem.fired parkedOnTwo.cell ≤ 1 ∧ total (Op.schedules parkedOnTwo.cell) s.ops ≤ s.mem.fired parkedOnTwo.cell := by
  obtain ⟨s, hs, hp⟩ := Machine.exists_reach_of_run (machine checkpointThenTwo)
    (fun m _ a => ¬Overflows parkedOnTwo.cell m a ∧ ¬Rearms parkedOnTwo.cell m a ∧ ¬Rethrows parkedOnTwo.cell m a)
    (fun m _ a => decide (¬Overflows parkedOnTwo.cell m a ∧ ¬Rearms parkedOnTwo.cell m a ∧ ¬Rethrows parkedOnTwo.cell m a))
    (fun _ _ _ h => of_decide_eq_true h) initial
    (List.flatten [parkOnTwo, .call (.set 0) :: List.replicate 6 (.act 4 .go), .call (.abort .gen 0) :: List.replicate 5 (.act 5 .go),
      .call (.set 1) :: List.replicate 6 (.act 6 .go)])
    (fun s => decide (s.mem.made parkedOnTwo.cell = some parkedOnTwo) && s.mem.flag 0 && s.mem.flag 1 &&
      decide (s.mem.handles = [parkedOnTwo.handle (.throw .cancelled)])) (by decide)
  simp only [Bool.and_eq_true, decide_eq_true_eq] at hp
  obtain ⟨⟨⟨hS, h0⟩, h1⟩, hh⟩ := hp
  exact ⟨s, hs, hS, h0, h1, hh, one_handle_per_suspension checkpointThenTwo s parkedOnTwo hs hS⟩

/-- The child waits for two events. The first is set; before its `notify`, an abort of the checkpoint throws into the child, and the event
is cleared: the spent counter is up again, `notify` counts it down, and the child is scheduled a second time, with a value. -/
theorem two_handles_per_suspension :
    ∃ s : State Mem Op, (machine checkpointThenTwo).Reach (fun _ _ _ => True) initial s ∧
      s.mem.made parkedOnTwo.cell = some parkedOnTwo ∧ s.mem.fired parkedOnTwo.cell = 2 ∧
      s.mem.handles = [parkedOnTwo.handle (.throw .cancelled), parkedOnTwo.handle (.send (.list [.none, .none]))] := by
  obtain ⟨s, hs, hp⟩ := Machine.exists_reach_of_run (machine checkpointThenTwo) (fun _ _ _ => True) (fun _ _ _ => true)
    (fun _ _ _ _ => trivial) initial
    (List.flatten [parkOnTwo, [.call (.set 0), .act 4 .go], .call (.abort .gen 0) :: List.replicate 5 (.act 5 .go),
      .call (.clear 0) :: List.replicate 5 (.act 6 .go), List.replicate 7 (.act 4 .go)])
    (fun s => decide (s.mem.made parkedOnTwo.cell = some parkedOnTwo) && decide (s.mem.fired parkedOnTwo.cell = 2) &&
      decide (s.mem.handles =
        [parkedOnTwo.handle (.throw .cancelled), parkedOnTwo.handle (.send (.list [.none, .none]))])) (by decide)
  simp only [Bool.and_eq_true, decide_eq_true_eq] at hp
  exact ⟨s, hs, hp.1.1, hp.1.2, hp.2⟩

end Tonio.Runtime
