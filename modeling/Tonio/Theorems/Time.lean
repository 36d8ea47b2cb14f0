import Tonio.Lemmas.Time

/-!
# Timers are on time

The deadline of a poll is read under the mutex and the poller blocks outside of it, so timers are pushed that are due before it; each of
their registrations wakes the poller after its push. The order of the heap is reversed by hand, and is a total preorder.
-/

namespace Tonio.Time

open Interleaving Collections

/-- A timer that the injector gets was due at the clock the poll has read. -/
theorem step_hands {s s' : State Mem Op} {a : Act Op Choice Call} (hH : Handing s.mem s.ops) (hs : machine.Step s a s') :
    s'.mem.injector = s.mem.injector ∨ ∃ tick before handed i x, a = .exec (.drain tick before handed) (.pop i) ∧
      x ∈ s.mem.heap ∧ x.when ≤ tick ∧ tick ≤ s.mem.clock ∧ s'.mem.injector = s.mem.injector ++ [x] := by
  rcases hs.ops_eq with ⟨A, op, B, c, new, rfl, ho, he, -⟩ | ⟨l, new, rfl, hc, -⟩
  · rcases (exec_move he).injector with hinj | ⟨tick, before, handed, i, x, rfl, rfl, hx, hdue, hinj⟩
    · exact Or.inl hinj
    · have hmem : Op.drain tick before handed ∈ s.ops := by simp [ho]
      exact Or.inr ⟨tick, before, handed, i, x, rfl, hx, hdue, (hH.draining _ _ _ hmem).clock, hinj⟩
  · cases l with
    | register timeout =>
      simp only [machine, call] at hc
      split at hc
      · rw [← (Prod.mk.inj (Option.some.inj hc)).1]
        exact Or.inl rfl
      · cases hc
    | advance d =>
      rw [← (Prod.mk.inj (Option.some.inj hc)).1]
      exact Or.inl rfl

/-- The loop that hands timers over goes on until nothing due is left. -/
theorem drain_enabled (m : Mem) (tick : Nat) (before handed : List Timer) :
    ∃ c, (exec m (.drain tick before handed) c).isSome = true := by
  cases hp : peek Timer.cmp m.heap with
  | none => exact ⟨.go, by simp [exec, hp]⟩
  | some x =>
    by_cases hx : x.when > tick
    · exact ⟨.go, by simp [exec, hp, hx]⟩
    · have hne : m.heap ≠ [] := List.ne_nil_of_mem (peek_earliest hp).1
      obtain ⟨i, y, rest, hpop⟩ := exists_popAt Timer.cmp hne
      exact ⟨.pop i, by simp only [exec, hp, if_neg hx, hpop, Option.map_some, Option.isSome_some]⟩

/-- Timers are never early, never lost and never overslept, in every state of every run of the poll loop with any number of registrations
and a clock that does not go back, whichever of several first timers the heap pops. The timer of a registration is at one place: held by
the registration, in the heap, or in the injector. It goes to the injector in a poll whose tick is its deadline or later, and the tick is not
after the clock. Each poll has handed over exactly the timers due at its tick, in order, and left the others; the loop that does so goes on
until nothing due is left. The timeout of a poll does not truncate. While the poller blocks and has not been woken, every timer in the heap
that is due before the poll times out belongs to a registration that has not woken the poller yet. -/
theorem timers_on_time (s : State Mem Op) (h : machine.Reach (fun _ _ _ => True) initial s) :
    (∀ n, total (holding n) s.ops + total (isTimer n) s.mem.heap + total (isTimer n) s.mem.injector = if n < s.mem.next then 1 else 0) ∧
    (∀ a s', machine.Step s a s' → s'.mem.injector = s.mem.injector ∨
      ∃ tick before handed i x, a = .exec (.drain tick before handed) (.pop i) ∧ x ∈ s.mem.heap ∧ x.when ≤ tick ∧
        tick ≤ s.mem.clock ∧ s'.mem.injector = s.mem.injector ++ [x]) ∧
    (∀ p ∈ s.mem.polls, p.Exact) ∧
    (∀ tick before handed, Op.drain tick before handed ∈ s.ops → ∃ c, (exec s.mem (.drain tick before handed) c).isSome = true) ∧
    (∀ x ∈ s.mem.heap, (x.when - s.mem.clock) % 2 ^ 64 = x.when - s.mem.clock) ∧
    ∀ sched, Op.poll sched ∈ s.ops → s.mem.woken = false → Blocks sched → ∀ x ∈ s.mem.heap, DueBefore x sched →
      Op.wake x.target ∈ s.ops := by
  refine ⟨Placed.reach h, fun a s' hs => step_hands (Handing.reach h) hs, (Handing.reach h).polls,
    fun tick before handed _ => drain_enabled s.mem tick before handed, fun x hx => ?_, Sleeping.reach h⟩
  have := (Ahead.reach h).heap x hx
  exact Nat.mod_eq_of_lt (by omega)

/-- A timer was handed over at its time; then the poller blocks with an empty heap, and a timer has been pushed whose registration has
still to wake it. -/
theorem timers_on_time_two :
    ∃ s, machine.Reach (fun _ _ _ => True) initial s ∧ s.mem.injector = [⟨5, 0⟩] ∧ s.mem.polls = [⟨6, [⟨5, 0⟩], [⟨5, 0⟩], []⟩] ∧
      s.mem.heap = [⟨9, 1⟩] ∧ Op.poll none ∈ s.ops ∧ Op.wake 1 ∈ s.ops := by
  obtain ⟨s, hs, hp⟩ := Machine.exists_reach_of_run machine (fun _ _ _ => True) (fun _ _ _ => true) (fun _ _ _ _ => trivial) initial
    [.call (.register 5), .act 1 .go, .act 1 .go, .call (.advance 6), .act 0 .go, .act 0 .go, .act 0 .go, .act 0 .go, .act 0 (.pop 0),
      .act 0 .go, .act 0 .go, .call (.register 3), .act 3 .go, .act 3 .go]
    (fun s => decide (s.mem.injector = [⟨5, 0⟩]) && decide (s.mem.polls = [⟨6, [⟨5, 0⟩], [⟨5, 0⟩], []⟩]) &&
      decide (s.mem.heap = [⟨9, 1⟩]) && decide (Op.poll none ∈ s.ops) && !s.mem.woken) (by decide)
  simp only [Bool.and_eq_true, decide_eq_true_eq, Bool.not_eq_true'] at hp
  obtain ⟨⟨⟨⟨hi, hpolls⟩, hheap⟩, hpoll⟩, hw⟩ := hp
  have hwake := (timers_on_time s hs).2.2.2.2.2 none hpoll hw trivial ⟨9, 1⟩ (by simp [hheap]) trivial
  exact ⟨s, hs, hi, hpolls, hheap, hpoll, hwake⟩

end Tonio.Time
