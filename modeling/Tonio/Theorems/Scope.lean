import Tonio.Lemmas.Scope

/-!
# What a scope waits for

An exit waits for every child that was pushed before it took the stack. A `_track` that has looked at `consumed` before the exit advanced
it and pushes after the stack was taken schedules a child no one waits for. And the exit of a cancelled scope sets the event of a child
that has not ended before it aborts it, so that it waits only for the children that have ended already.
-/

namespace Tonio.Scope

open Interleaving

instance (ops : List Op) (a : Act Op Choice Call) : Decidable (Escapes ops a) := by
  unfold Escapes
  split <;> infer_instance

instance (ops : List Op) (a : Act Op Choice Call) : Decidable (CutsOff ops a) := by
  unfold CutsOff
  split <;> infer_instance

/-! ## The events of the waiter -/

/-- Every child that was scheduled has its event among those of the waiter of `_exit`, and if the exit found the scope cancelled, each of
these children was aborted or has ended by itself, in every state of every run of the tasks that spawn, cancel and exit in which no
`_track` is between its check and its push when `_exit` takes the stack. -/
theorem scheduled_child_awaited (s : State Mem Op) (h : machine.Reach (fun _ ops a => ¬Escapes ops a) initial s)
    (events : List Nat) (hw : s.mem.waiter = some events) :
    (∀ k, s.mem.scheduled k = true → k ∈ events) ∧
      (s.mem.seen = true → ∀ k ∈ events, s.mem.event k = true ∧ (s.mem.aborted k = true ∨ ∀ op ∈ s.ops, op.runs ≠ some k)) := by
  have hM := marked_of_reach h
  refine ⟨fun k hk => mem_waiter (fun _ _ _ => id) h hw (Or.inl hk), fun hs k hk => ?_⟩
  have he := hM.seen hs events hw k hk
  refine ⟨he, ?_⟩
  rcases hM.cause k he with hab | ⟨rest, events', hx⟩ | hno
  · exact Or.inl hab
  · -- no exit is still at work when the waiter is there
    rw [(guarded_of_reach h).opens _ hx rfl] at hw
    cases hw
  · exact Or.inr (fun op hop hr => hno op hop (Op.child_of_runs hr))

/-- Two children in a cancelled scope: one has ended at the exit, the other is aborted. -/
theorem scheduled_child_awaited_two :
    ∃ s : State Mem Op, machine.Reach (fun _ ops a => ¬Escapes ops a) initial s ∧ s.mem.waiter = some [0, 1] ∧
      s.mem.scheduled 0 = true ∧ s.mem.scheduled 1 = true ∧ s.mem.seen = true ∧ s.mem.aborted 0 = false ∧
      (∀ k, s.mem.scheduled k = true → k ∈ [0, 1]) ∧
      ∀ k ∈ [0, 1], s.mem.event k = true ∧ (s.mem.aborted k = true ∨ ∀ op ∈ s.ops, op.runs ≠ some k) := by
  obtain ⟨s, hs, hp⟩ := Machine.exists_reach_of_run machine (fun _ ops a => ¬Escapes ops a) (fun _ ops a => decide (¬Escapes ops a))
    (fun _ _ _ h => of_decide_eq_true h) initial
    [.call .spawn, .act 0 .go, .act 0 .go, .act 0 .go, .act 0 .go, .call .spawn, .act 1 .go, .act 1 .go, .act 1 .go, .act 1 .go,
      .act 0 .ended, .act 0 .go, .call .cancel, .act 2 .go, .call .exit, .act 3 .go, .act 3 .go, .act 3 .go, .act 3 .go, .act 3 .go,
      .act 3 .go, .act 3 .go, .act 3 .go, .act 3 .go, .act 3 .go, .act 3 .go, .act 3 .go, .act 3 .go]
    (fun s => decide (s.mem.waiter = some [0, 1]) && (s.mem.scheduled 0 && s.mem.scheduled 1 && s.mem.seen && !s.mem.aborted 0))
    (by decide)
  simp only [Bool.and_eq_true, decide_eq_true_eq, Bool.not_eq_true'] at hp
  obtain ⟨hw, ⟨⟨h0, h1⟩, hseen⟩, hab⟩ := hp
  obtain ⟨hall, hcancel⟩ := scheduled_child_awaited s hs [0, 1] hw
  exact ⟨s, hs, hw, h0, h1, hseen, hab, hall, hcancel hseen⟩

/-- A task has passed the check of `_track` when the scope is left; the exit takes an empty stack, and the child is scheduled after it. -/
theorem scheduled_child_not_awaited :
    ∃ s : State Mem Op, machine.Reach (fun _ _ _ => True) initial s ∧ s.mem.waiter = some [] ∧ s.mem.scheduled 0 = true := by
  obtain ⟨s, hs, hp⟩ := Machine.exists_reach_of_run machine (fun _ _ _ => True) (fun _ _ _ => true) (fun _ _ _ _ => trivial) initial
    [.call .spawn, .act 0 .go, .call .exit, .act 1 .go, .act 1 .go, .act 1 .go, .act 1 .go, .act 1 .go, .act 1 .go, .act 1 .go,
      .act 0 .go, .act 0 .go]
    (fun s => decide (s.mem.waiter = some []) && s.mem.scheduled 0) (by decide)
  simp only [Bool.and_eq_true, decide_eq_true_eq] at hp
  exact ⟨s, hs, hp.1, hp.2⟩

/-! ## The end of the children -/

/-- Once the task that waits on the exit has been resumed from the exit's waiter, no child has any code left to run, and none is about to
be scheduled, in every state of every run of the tasks that spawn, cancel and exit in which no child escapes and `_exit` sets no event
of a child that has not ended. -/
theorem resumed_after_children (s : State Mem Op)
    (h : machine.Reach (fun _ ops a => ¬Escapes ops a ∧ ¬CutsOff ops a) initial s) (hr : s.mem.resumed = true) :
    ∀ op ∈ s.ops, op.runs = none ∧ op.pushes = false := by
  obtain ⟨events, hw, he⟩ := (marked_of_reach h).resumed hr
  have hne : s.mem.waiter ≠ none := by simp [hw]
  intro op hop
  refine ⟨?_, (drained_of_reach (fun _ _ _ hk => hk.1) h (Or.inl hne)).2 op hop⟩
  cases hrun : op.runs with
  | none => rfl
  | some k =>
    have hk : k ∈ events := mem_waiter (fun _ _ _ hk => hk.1) h hw (Or.inr ⟨op, hop, hrun⟩)
    exact absurd (Op.ahead_of_runs hrun) (uncut_of_reach (fun _ _ _ hk => hk) h k (he k hk) op hop)

/-- A child and an exit that waits for it. -/
theorem resumed_after_children_one :
    ∃ s : State Mem Op, machine.Reach (fun _ ops a => ¬Escapes ops a ∧ ¬CutsOff ops a) initial s ∧ s.mem.resumed = true ∧
      s.mem.scheduled 0 = true ∧ ∀ op ∈ s.ops, op.runs = none ∧ op.pushes = false := by
  obtain ⟨s, hs, hp⟩ := Machine.exists_reach_of_run machine (fun _ ops a => ¬Escapes ops a ∧ ¬CutsOff ops a)
    (fun _ ops a => decide (¬Escapes ops a ∧ ¬CutsOff ops a)) (fun _ _ _ h => of_decide_eq_true h) initial
    [.call .spawn, .act 0 .go, .act 0 .go, .act 0 .go, .act 0 .go, .call .exit, .act 1 .go, .act 1 .go, .act 1 .go, .act 1 .go,
      .act 1 .go, .act 1 .go, .act 1 .go, .act 1 .go, .act 0 .go, .act 0 .ended, .act 0 .go, .act 1 .go]
    (fun s => s.mem.resumed && s.mem.scheduled 0) (by decide)
  simp only [Bool.and_eq_true] at hp
  exact ⟨s, hs, hp.1, hp.2, resumed_after_children s hs hp.1⟩

/-- A child is running when its scope is cancelled and left: the exit sets its event, aborts it, and is resumed while the child has not yet
unwound. -/
theorem resumed_before_child :
    ∃ s : State Mem Op, machine.Reach (fun _ ops a => ¬Escapes ops a) initial s ∧ s.mem.resumed = true ∧
      s.mem.scheduled 0 = true ∧ Op.unwind 0 ∈ s.ops := by
  obtain ⟨s, hs, hp⟩ := Machine.exists_reach_of_run machine (fun _ ops a => ¬Escapes ops a) (fun _ ops a => decide (¬Escapes ops a))
    (fun _ _ _ h => of_decide_eq_true h) initial
    [.call .spawn, .act 0 .go, .act 0 .go, .act 0 .go, .act 0 .go, .call .cancel, .act 1 .go, .call .exit, .act 2 .go, .act 2 .go,
      .act 2 .go, .act 2 .go, .act 2 .go, .act 2 .go, .act 2 .go, .act 2 .go, .act 2 .go, .act 2 .go, .act 2 .go, .act 0 .cancel,
      .act 2 .go]
    (fun s => s.mem.resumed && s.mem.scheduled 0 && decide (Op.unwind 0 ∈ s.ops)) (by decide)
  simp only [Bool.and_eq_true, decide_eq_true_eq] at hp
  exact ⟨s, hs, hp.1.1, hp.1.2, hp.2⟩

end Tonio.Scope
