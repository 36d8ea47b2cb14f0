import Tonio.Lemmas.Outcome

/-!
# Aborting blocking tasks

A blocking task has one outcome, whoever reports it. The exception an abort injects reaches the task it is for, unless the thread
passes the cleanup after the task between the abort's read of the thread id and its injection: nothing in `abort` notices that.
-/

namespace Tonio.Blocking

open Interleaving

variable {α : Type}

/-! ## The injected exception -/

instance (ops : List (Op α)) (a : Act (Op α) (Choice α) Call) : Decidable (Overtakes ops a) := by
  unfold Overtakes
  induction a using Act.casesOn with
  | exec op c => induction op using Op.casesOn <;> infer_instance
  | call l => infer_instance

/-- An injected exception hits the task it is for, for any cap on the threads and in every state of every run of submitters, aborts
and threads of the pool in which no cleanup overtakes an abort: while it is pending its thread is in the run of that task, up to the
cleanup after it, and so in the run of no other; and where it was raised, it was in the callable of that task. -/
theorem abort_hits_its_task (tmax : Nat) (s : State (Mem α) (Op α))
    (h : (machine tmax).Reach (fun _ ops a => ¬Overtakes ops a) initial s) :
    (∀ t a, s.mem.asyncExc t = some a →
      (∃ op ∈ s.ops, op.window = some (t, a)) ∧ ∀ op ∈ s.ops, ∀ b, op.window = some (t, b) → b = a) ∧
    ∀ x ∈ s.mem.raised, x.1 = x.2 := by
  have hC := confined_of_reach h
  refine ⟨fun t a hexc => ?_, hC.raised⟩
  obtain ⟨x, hx, hxw⟩ := hC.pending t a hexc
  exact ⟨⟨x, hx, hxw⟩, fun op hop b hb => (placed_of_reach h).window_eq hop hx hb hxw⟩

/-- The labels of a thread that is started for the first of two tasks and is in its callable, while an abort of that task has read
the thread id. -/
def aborting : List (Label (Choice Nat) Call) :=
  [.call .submit, .act 0 .go, .act 0 .go, .act 0 .go, .act 0 (.ident 7), .act 0 .go, .act 0 .go, .act 0 .go, .act 0 .go, .act 0 .go,
    .call .submit, .act 1 .go, .act 1 .go, .call (.abort 0), .act 2 .go, .act 2 .go, .act 2 .go]

/-- The exception is injected while the callable runs, and is pending there. -/
theorem abort_hits_its_task_running :
    ∃ s : State (Mem Nat) (Op Nat), (machine 1).Reach (fun _ ops a => ¬Overtakes ops a) initial s ∧
      s.mem.asyncExc 7 = some 0 ∧ Op.callable 7 0 ∈ s.ops ∧ ∀ op ∈ s.ops, ∀ b, op.window = some (7, b) → b = 0 := by
  obtain ⟨s, hs, hp⟩ := Machine.exists_reach_of_run (machine 1) (fun _ ops a => ¬Overtakes ops a)
    (fun _ ops a => decide (¬Overtakes ops a)) (fun _ _ _ h => of_decide_eq_true h) (initial (α := Nat))
    (List.flatten [aborting, [.act 2 .go]])
    (fun s => decide (s.mem.asyncExc 7 = some 0) && decide (Op.callable 7 0 ∈ s.ops)) (by decide)
  simp only [Bool.and_eq_true, decide_eq_true_eq] at hp
  exact ⟨s, hs, hp.1, hp.2, ((abort_hits_its_task 1 s hs).1 7 0 hp.1).2⟩

/-- The thread finishes the first task, passes the cleanup and begins the second task before the abort injects its exception: it is
raised in the callable of the second task. -/
theorem abort_hits_other_task :
    ∃ s : State (Mem Nat) (Op Nat), (machine 1).Reach (fun _ _ _ => True) initial s ∧ (1, 0) ∈ s.mem.raised := by
  obtain ⟨s, hs, hp⟩ := Machine.exists_reach_of_run (machine 1) (fun _ _ _ => True) (fun _ _ _ => true)
    (fun _ _ _ _ => trivial) (initial (α := Nat))
    (List.flatten [aborting, [.act 0 (.finish ⟨false, .obj 5⟩)], List.replicate 11 (.act 0 .go), [.act 2 .go, .act 0 .interrupt]])
    (fun s => decide ((1, 0) ∈ s.mem.raised)) (by decide)
  exact ⟨s, hs, of_decide_eq_true hp⟩

/-! ## The outcome -/

end Tonio.Blocking
