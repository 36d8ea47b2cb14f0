import Tonio.Lemmas.Pool

/-!
# Threads and tasks of the blocking pool

The count of threads is off in two ways while operations are in progress. A submitter that finds no slot has counted one for a moment, and
a submitter that reads the count then starts no thread for a task nobody else serves. A thread that times out gives its slot up
before it looks at the queue for the last time, and takes it back without looking at the cap when it finds a task there.
-/

namespace Tonio.Blocking

open Interleaving

variable {α : Type}

/-- The labels of a thread that takes a task from the queue, runs it and is ready for the next one; the thread stands at the place `i` of
the pool. -/
def serve (i : Nat) : List (Label (Choice Nat) Call) :=
  List.replicate 5 (.act i .go) ++ [.act i (.finish ⟨false, .none⟩)] ++ List.replicate 6 (.act i .go)

/-! ## No task is stranded -/

/-- The pool strands no task, for every cap and in every state of every run of any number of submitters, aborts and threads of the pool in
which no submitter is misled, which is when it finds the count of threads at the cap while a task is queued, there is no thread,
and no other submitter may start one: with no `run` in progress and a task queued, there is a thread that has not found the queue
empty for the last time. Where a submitter is misled, what it found are increments that are about to be undone, and the queued task is left
to nobody. -/
theorem pool_serves_of_not_misled (tmax : Nat) (s : State (Mem α) (Op α))
    (h : (machine tmax).Reach (fun m ops a => ¬Misled tmax m ops a) initial s) :
    ((∀ op ∈ s.ops, op.runs = false) → s.mem.queue ≠ [] → ∃ op ∈ s.ops, op.thread ≠ none) ∧
    ∀ a s', Misled tmax s.mem s.ops a → (machine tmax).Step s a s' →
      tmax ≤ total tentative s.ops ∧ s'.mem.queue ≠ [] ∧ ∀ op ∈ s'.ops, op.thread = none ∧ op.seeks = false := by
  refine ⟨fun hrun hq => ?_, fun a s' hm hs => hm.strands (Counted.reach h) hs⟩
  obtain ⟨op, hop, ht | hseeks⟩ := Served.reach h hq
  · exact ⟨op, hop, ht⟩
  · have hr := Op.runs_of_seeks hseeks
    rw [hrun op hop] at hr
    cases hr

/-- One slot and two tasks: the thread runs the first, and serves the second, which is queued. -/
theorem pool_serves_of_not_misled_two :
    ∃ s : State (Mem Nat) (Op Nat), (machine 1).Reach (fun m ops a => ¬Misled 1 m ops a) initial s ∧ s.mem.queue = [1] ∧
      Op.callable 7 0 ∈ s.ops ∧ ∃ op ∈ s.ops, op.thread ≠ none := by
  obtain ⟨s, hs, hp⟩ := Machine.exists_reach_of_run (machine 1) (fun m ops a => ¬Misled 1 m ops a)
    (fun m ops a => decide (¬Misled 1 m ops a)) (fun _ _ _ h => of_decide_eq_true h) (initial (α := Nat))
    (List.flatten [[.call .submit, .act 0 .go, .act 0 .go, .act 0 .go, .act 0 (.ident 7)], List.replicate 5 (.act 0 .go),
      [.call .submit, .act 1 .go, .act 1 .go, .act 1 .go]])
    (fun s => s.ops.all (fun op => !op.runs) && decide (s.mem.queue = [1]) && decide (Op.callable 7 0 ∈ s.ops)) (by decide)
  simp only [Bool.and_eq_true, List.all_eq_true, decide_eq_true_eq, Bool.not_eq_true'] at hp
  obtain ⟨⟨hrun, hq⟩, hc⟩ := hp
  exact ⟨s, hs, hq, hc, (pool_serves_of_not_misled 1 s hs).1 hrun (by simp [hq])⟩

/-- One slot. Two submitters find no thread; the first one starts it, the second one counts another and has still to undo that. The thread
runs both tasks, times out with the queue empty, gives its slot up and stops. A third submitter queues its task and finds the count at the
cap. The second one undoes its increment: nothing is in progress, there is no thread, and the task is queued. -/
theorem pool_strands_task :
    ∃ s : State (Mem Nat) (Op Nat), (machine 1).Reach (fun _ _ _ => True) initial s ∧ s.ops = [] ∧ s.mem.queue = [2] := by
  obtain ⟨s, hs, hp⟩ := Machine.exists_reach_of_run (machine 1) (fun _ _ _ => True) (fun _ _ _ => true)
    (fun _ _ _ _ => trivial) (initial (α := Nat))
    (List.flatten [[.call .submit, .call .submit, .act 0 .go, .act 0 .go, .act 0 .go, .act 1 .go, .act 1 .go, .act 1 .go, .act 0 (.ident 7),
      .act 1 .go], serve 0, serve 0, [.act 0 .go, .act 0 .timeout, .act 0 .go, .act 0 .go, .act 0 .go],
      [.call .submit, .act 2 .go, .act 2 .go, .act 2 .go, .act 1 .go]])
    (fun s => decide (s.ops = []) && decide (s.mem.queue = [2])) (by decide)
  simp only [Bool.and_eq_true, decide_eq_true_eq] at hp
  exact ⟨s, hs, hp.1, hp.2⟩

/-! ## The cap -/

/-- The pool respects its cap, for every cap and in every state of every run of any number of submitters, aborts and threads of the
pool in which a thread is started only while the slots held, without the increments that are about to be undone, and the slots given up by
threads that are still there are fewer than `tmax`: the threads are at most `tmax`. A start that does not meet this exceeds the
cap. -/
theorem pool_respects_cap_of_not_oversteps (tmax : Nat) (s : State (Mem α) (Op α))
    (h : (machine tmax).Reach (fun m ops a => ¬Oversteps tmax m ops a) initial s) :
    total works s.ops ≤ tmax ∧
    ∀ a s', Oversteps tmax s.mem s.ops a → (machine tmax).Step s a s' → tmax < total works s'.ops :=
  ⟨works_le_of_reach h, fun _ _ ho hs => ho.exceeds (Counted.reach h) hs⟩

/-- Two slots: one thread waits and gives its slot up, and another one is started meanwhile. -/
theorem pool_respects_cap_of_not_oversteps_two :
    ∃ s : State (Mem Nat) (Op Nat), (machine 2).Reach (fun m ops a => ¬Oversteps 2 m ops a) initial s ∧ Op.tryRecv 7 ∈ s.ops ∧
      Op.giveBudget 8 ∈ s.ops ∧ total works s.ops ≤ 2 := by
  obtain ⟨s, hs, hp⟩ := Machine.exists_reach_of_run (machine 2) (fun m ops a => ¬Oversteps 2 m ops a)
    (fun m ops a => decide (¬Oversteps 2 m ops a)) (fun _ _ _ h => of_decide_eq_true h) (initial (α := Nat))
    (List.flatten [[.call .submit, .act 0 .go, .act 0 .go, .act 0 .go, .act 0 (.ident 7)], serve 0,
      [.act 0 .go, .act 0 .timeout, .act 0 .go, .act 0 .go, .call .submit, .act 1 .go, .act 1 .go, .act 1 .go, .act 1 (.ident 8)]])
    (fun s => decide (Op.tryRecv 7 ∈ s.ops) && decide (Op.giveBudget 8 ∈ s.ops)) (by decide)
  simp only [Bool.and_eq_true, decide_eq_true_eq] at hp
  exact ⟨s, hs, hp.1, hp.2, (pool_respects_cap_of_not_oversteps 2 s hs).1⟩

/-- One slot. The thread times out with the queue empty and gives its slot up; a submitter queues a task and starts another thread; the
first thread finds the task at the last moment, and the second thread takes the next one: two callables run at once. -/
theorem pool_exceeds_cap :
    ∃ s : State (Mem Nat) (Op Nat), (machine 1).Reach (fun _ _ _ => True) initial s ∧ Op.callable 7 1 ∈ s.ops ∧
      Op.callable 8 2 ∈ s.ops ∧ total works s.ops = 2 := by
  obtain ⟨s, hs, hp⟩ := Machine.exists_reach_of_run (machine 1) (fun _ _ _ => True) (fun _ _ _ => true)
    (fun _ _ _ _ => trivial) (initial (α := Nat))
    (List.flatten [[.call .submit, .act 0 .go, .act 0 .go, .act 0 .go, .act 0 (.ident 7)], serve 0,
      [.act 0 .go, .act 0 .timeout, .act 0 .go, .act 0 .go, .call .submit, .act 1 .go, .act 1 .go, .act 1 .go, .act 1 (.ident 8)],
      List.replicate 6 (.act 0 .go), [.call .submit, .act 2 .go], List.replicate 5 (.act 1 .go)])
    (fun s => decide (Op.callable 7 1 ∈ s.ops) && decide (Op.callable 8 2 ∈ s.ops) && decide (total works s.ops = 2)) (by decide)
  simp only [Bool.and_eq_true, decide_eq_true_eq] at hp
  obtain ⟨⟨h1, h2⟩, h3⟩ := hp
  exact ⟨s, hs, h1, h2, h3⟩

end Tonio.Blocking
