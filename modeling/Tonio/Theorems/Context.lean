import Tonio.Lemmas.Context

/-!
# One context a task

A send handle enters the context of the task, and what a coroutine does in it stays. A thrower enters a copy of it: what a coroutine does
while an exception is thrown into it is lost to what it does afterwards, and the tokens it made before are refused.
-/

namespace Tonio.Context

open Interleaving
open Tonio.Runtime (Op Handle Flavour Input Out Waiter)

/-- With the context option on, for every program of either flavour, in every state of every run of any number of tasks in which no
exception that is thrown into a task leaves a variable changed, and no task resets a token that it made in an earlier resumption when an
exception was thrown into it there or is here: every resumption is one of a task that was spawned; the first one of a task sees the values
the spawn copied and each other one those that the previous one left; and a task is refused no token that it made itself. A resumption
that is not like this leaves the context of the task with other values than it has left itself, or it is refused a token of its own. -/
theorem task_keeps_context_of_not_loses (ws : Nat → Waiter) (s : State Mem Op)
    (h : (machine ws).Reach (fun m _ a => ¬Loses m a) initial s) :
    (∀ step ∈ s.mem.steps, ∃ v, s.mem.start step.task = some v) ∧
    (∀ t v, s.mem.start t = some v → OneContext v (s.mem.stepsOf t)) ∧
    (∀ r ∈ s.mem.refusals, ∃ token, s.mem.tokens[r.2]? = some token ∧ token.task ≠ r.1) ∧
    (∀ a s', Loses s.mem a → (machine ws).Step s a s' → s'.mem.Lost) := by
  have hkept := kept_of_reach h
  refine ⟨hkept.steps, fun t v ht => (hkept.start t v ht).2.1, hkept.refusals, fun a s' hl hs => ?_⟩
  have hcarried := carried_of_reach h
  rcases hs.ops_eq with ⟨A, op, B, c, new, rfl, ho, he, -⟩ | ⟨l, new, rfl, -, -⟩
  · rw [ho] at hcarried
    exact lost_of_loses hkept hcarried hl he
  · cases hl

/-- A generator sets a variable and yields a child, the child raises, the generator handles the exception without a change, and resets its
token in the next resumption. -/
theorem task_keeps_context_of_not_loses_four :
    ∃ s v, (machine (fun _ => ⟨[], none, by decide, nofun⟩)).Reach (fun m _ a => ¬Loses m a) initial s ∧ s.mem.start 0 = some v ∧
      (s.mem.stepsOf 0).map (·.throws) = [false, false, true, false] ∧ s.mem.tokens.map (·.used) = [true] ∧
      OneContext v (s.mem.stepsOf 0) := by
  obtain ⟨s, hs, hp⟩ := Machine.exists_reach_of_run (machine (fun _ => ⟨[], none, by decide, nofun⟩)) (fun m _ a => ¬Loses m a)
    (fun m _ a => quiet m a) (fun _ _ _ => not_loses_of_quiet) initial
    [.call (.spawn .gen (fun _ => none)), .act 0 .go, .call (.runtime (.work 0)), .act 1 (.out .yieldGen [.set 0 5]), .act 1 .go,
      .call (.runtime (.work 0)), .act 2 (.out (.raise (.other 0)) []), .act 2 .go, .act 2 .go, .act 2 .go, .call (.runtime (.work 0)),
      .act 3 (.out .yieldNone []), .act 3 .go, .call (.runtime (.work 0)), .act 4 (.out (.ret .none) [.reset 0])]
    (fun s => (s.mem.start 0).isSome && decide ((s.mem.stepsOf 0).map (·.throws) = [false, false, true, false]) &&
      decide (s.mem.tokens.map (·.used) = [true])) (by decide)
  simp only [Bool.and_eq_true, decide_eq_true_eq] at hp
  obtain ⟨v, hv⟩ := Option.isSome_iff_exists.mp hp.1.1
  exact ⟨s, v, hs, hv, hp.1.2, hp.2, (task_keeps_context_of_not_loses _ s hs).2.1 0 v hv⟩

/-- A generator sets a variable and yields a child, the child raises; handling the exception, the generator resets its token, which is
refused, and sets another variable; in the next resumption that has no value. -/
theorem task_loses_context :
    ∃ s v, (machine (fun _ => ⟨[], none, by decide, nofun⟩)).Reach (fun _ _ _ => True) initial s ∧ s.mem.start 0 = some v ∧
      ¬OneContext v (s.mem.stepsOf 0) ∧
      ∃ r ∈ s.mem.refusals, ∃ token, s.mem.tokens[r.2]? = some token ∧ token.task = r.1 ∧ token.used = false := by
  obtain ⟨s, hs, hp⟩ := Machine.exists_reach_of_run (machine (fun _ => ⟨[], none, by decide, nofun⟩)) (fun _ _ _ => True)
    (fun _ _ _ => true) (fun _ _ _ _ => trivial) initial
    [.call (.spawn .gen (fun _ => none)), .act 0 .go, .call (.runtime (.work 0)), .act 1 (.out .yieldGen [.set 0 5]), .act 1 .go,
      .call (.runtime (.work 0)), .act 2 (.out (.raise (.other 0)) []), .act 2 .go, .act 2 .go, .act 2 .go, .call (.runtime (.work 0)),
      .act 3 (.out .yieldNone [.reset 0, .set 1 7]), .act 3 .go, .call (.runtime (.work 0)), .act 4 (.out (.ret .none) [])]
    (fun s => (s.mem.start 0).any (fun v : Vars => !seesLeft 1 (v 1) (s.mem.stepsOf 0)) && decide (s.mem.refusals = [(0, 0)]) &&
      decide (s.mem.tokens[0]? = some (Token.mk 0 0 none false 0 false))) (by decide)
  simp only [Bool.and_eq_true, decide_eq_true_eq] at hp
  obtain ⟨v, hv, hsees⟩ := (Option.any_eq_true _ _).mp hp.1.1
  refine ⟨s, v, hs, hv, fun hone => ?_, (0, 0), by rw [hp.1.2]; exact List.mem_singleton_self _, _, hp.2, rfl, rfl⟩
  rw [hone.seesLeft 1] at hsees
  cases hsees

end Tonio.Context
