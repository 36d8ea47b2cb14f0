import Tonio.Lemmas.Waiters

/-!
# Arming and waking

No readiness is lost between a task that arms and the poller: either the task sees the bits, or the wake sees the slot. The slot has room
for one task; nothing keeps a second task of the direction from filling it.
-/

namespace Tonio.Schedule

open Interleaving

instance (ops : List Op) (a : Act Op Choice Call) : Decidable (Single ops a) := by
  unfold Single
  split <;> infer_instance

/-- The handshake, in every state of every run of any number of tasks (of which at most one a direction is live), pollers and shutdowns.
While a slot has an event and the word has a bit of its direction or `SHUTDOWN`, or readiness was published since the slot was
filled, the poller or a shutdown is between its update of the word and its wake. The event of a task that is parked has been
scheduled, or is about to be, or is in the slot. No step clears `SHUTDOWN`. Once the wake of a shutdown has run, the slots are
empty and no thread is about to fill one. -/
theorem arm_wake_handshake (s : State Mem Op) (h : machine.Reach (fun _ ops a => Single ops a) initial s) :
    (∀ d e, s.mem.slot d = some e → s.mem.readiness &&& (d.mask ||| SHUTDOWN) ≠ 0 → ∃ op ∈ s.ops, op.wakes d = true) ∧
    (∀ d e, s.mem.slot d = some e → s.mem.due d = true → ∃ op ∈ s.ops, op.wakes d = true) ∧
    (∀ d e, Op.parked d e ∈ s.ops → s.mem.woken e = true ∨ Op.addIoHandle e ∈ s.ops ∨ s.mem.slot d = some e) ∧
    (∀ a s', machine.Step s a s' → s.mem.readiness &&& SHUTDOWN ≠ 0 → s'.mem.readiness &&& SHUTDOWN ≠ 0) ∧
    (s.mem.shut = true → ∀ d, s.mem.slot d = none ∧ ∀ e, Op.armFill d e ∉ s.ops) := by
  have hH := handshake_of_reach h
  refine ⟨fun d e hs hb => hH.ready d hb (Or.inl (by simp [hs])), fun d e hs hd => hH.due d hd (by simp [hs]),
    (attended_of_reach h).parked, fun a s' hs hdown => ?_, fun hshut d => ?_⟩
  · rcases hs.ops_eq with ⟨A, op, B, c, new, -, -, he, -⟩ | ⟨l, new, -, hc, -⟩
    · exact (exec_move he).shutdown hdown
    · have hm : s'.mem = s.mem := by
        cases l <;> simp only [machine, call, Option.some.injEq, Prod.mk.injEq] at hc <;> exact hc.1.symm
      rwa [hm]
  · have hno := (hH.shut hshut).2 d
    refine ⟨?_, fun e he => hno (Or.inr ⟨e, he⟩)⟩
    cases hs : s.mem.slot d with
    | none => rfl
    | some e => exact absurd (Or.inl (by simp [hs])) hno

/-- A reader passes its second look, the poller publishes an edge, the reader fills the slot and parks: the wake is still to come. -/
theorem arm_wake_handshake_edge :
    ∃ s, machine.Reach (fun _ ops a => Single ops a) initial s ∧ s.mem.slot .r = some 0 ∧ Op.parked .r 0 ∈ s.ops ∧
      s.mem.readiness &&& (Dir.r.mask ||| SHUTDOWN) ≠ 0 ∧ ∃ op ∈ s.ops, op.wakes .r = true := by
  obtain ⟨s, hs, hp⟩ := Machine.exists_reach_of_run machine (fun _ ops a => Single ops a) (fun _ ops a => decide (Single ops a))
    (fun _ _ _ h => of_decide_eq_true h) initial
    [.call (.arm .r), .act 0 .go, .act 0 .go, .act 0 .go, .call (.dispatch ⟨true, false, false, false, false⟩), .act 1 .go, .act 0 .go]
    (fun s => decide (s.mem.slot .r = some 0) && decide (Op.parked .r 0 ∈ s.ops) &&
      decide (s.mem.readiness &&& (Dir.r.mask ||| SHUTDOWN) ≠ 0)) (by decide)
  simp only [Bool.and_eq_true, decide_eq_true_eq] at hp
  exact ⟨s, hs, hp.1.1, hp.1.2, hp.2, (arm_wake_handshake s hs).1 .r 0 hp.1.1 hp.2⟩

/-! ## Any number of tasks a direction -/

instance (m : Mem) (ops : List Op) (a : Act Op Choice Call) : Decidable (Overwrites m ops a) := by
  unfold Overwrites
  split <;> infer_instance

/-- Any number of tasks arm each direction, with any number of pollers and shutdowns. In every state of every run in which no armer fills a
slot that has the event of a task that is parked, the event of each task that is parked has been scheduled by a wake, or is about to
be, or is in the slot of its direction. An armer that fills such a slot leaves a task parked of whose event nothing of this is true. -/
theorem waiters_kept_of_not_overwrites (s : State Mem Op) (h : machine.Reach (fun m ops a => ¬Overwrites m ops a) initial s) :
    (∀ d e, Op.parked d e ∈ s.ops → s.mem.woken e = true ∨ Op.addIoHandle e ∈ s.ops ∨ s.mem.slot d = some e) ∧
    (∀ a s', Overwrites s.mem s.ops a → machine.Step s a s' →
      ∃ d e, Op.parked d e ∈ s'.ops ∧ s'.mem.woken e = false ∧ Op.addIoHandle e ∉ s'.ops ∧ s'.mem.slot d ≠ some e) := by
  refine ⟨kept_of_reach h, fun a s' hov hs => ?_⟩
  have hno := not_kept_of_overwrites (referenced_of_reach h) hov hs
  simp only [Kept, not_forall, not_or, Bool.not_eq_true] at hno
  obtain ⟨d, e, hp, hw, ha, hslot⟩ := hno
  exact ⟨d, e, hp, hw, ha, hslot⟩

/-- Two readers, one after the other: the first has been woken when the second fills the slot. -/
theorem waiters_kept_of_not_overwrites_two :
    ∃ s, machine.Reach (fun m ops a => ¬Overwrites m ops a) initial s ∧ Op.parked .r 0 ∈ s.ops ∧ Op.parked .r 1 ∈ s.ops ∧
      (s.mem.woken 1 = true ∨ Op.addIoHandle 1 ∈ s.ops ∨ s.mem.slot .r = some 1) := by
  obtain ⟨s, hs, hp⟩ := Machine.exists_reach_of_run machine (fun m ops a => ¬Overwrites m ops a)
    (fun m ops a => decide (¬Overwrites m ops a)) (fun _ _ _ h => of_decide_eq_true h) initial
    [.call (.arm .r), .act 0 .go, .act 0 .go, .act 0 .go, .act 0 .go, .act 0 .go,
      .call (.dispatch ⟨true, false, false, false, false⟩), .act 1 .go, .act 1 .go, .act 1 .go, .act 1 .go,
      .call (.consume .r), .act 2 .go, .call (.arm .r), .act 3 .go, .act 3 .go, .act 3 .go, .act 3 .go]
    (fun s => decide (Op.parked .r 0 ∈ s.ops) && decide (Op.parked .r 1 ∈ s.ops)) (by decide)
  simp only [Bool.and_eq_true, decide_eq_true_eq] at hp
  exact ⟨s, hs, hp.1, hp.2, (waiters_kept_of_not_overwrites s hs).1 .r 1 hp.2⟩

/-- Two readers arm one after the other, with no readiness in between: the first is parked on an event nothing refers to. -/
theorem waiter_overwritten :
    ∃ s, machine.Reach (fun _ _ _ => True) initial s ∧ Op.parked .r 0 ∈ s.ops ∧ s.mem.woken 0 = false ∧
      Op.addIoHandle 0 ∉ s.ops ∧ s.mem.slot .r ≠ some 0 := by
  obtain ⟨s, hs, hp⟩ := Machine.exists_reach_of_run machine (fun _ _ _ => True) (fun _ _ _ => true) (fun _ _ _ _ => trivial) initial
    [.call (.arm .r), .act 0 .go, .act 0 .go, .act 0 .go, .act 0 .go, .act 0 .go,
      .call (.arm .r), .act 1 .go, .act 1 .go, .act 1 .go, .act 1 .go, .act 1 .go]
    (fun s => decide (Op.parked .r 0 ∈ s.ops) && decide (s.mem.woken 0 = false) && decide (Op.addIoHandle 0 ∉ s.ops) &&
      decide (s.mem.slot .r ≠ some 0)) (by decide)
  simp only [Bool.and_eq_true, decide_eq_true_eq] at hp
  exact ⟨s, hs, hp.1.1.1, hp.1.1.2, hp.1.2, hp.2⟩

end Tonio.Schedule
