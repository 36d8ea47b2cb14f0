import Tonio.Lemmas.Subprocess

/-!
# What `run_process` returns, and that it does

What a run of a command has captured is what the processes have written, and the run comes to its end if they do.
-/

namespace Tonio.Subprocess

open Interleaving

/-- The smallest pipes there are. -/
def narrow : Kernel := ⟨1, 1, by decide, by decide⟩

/-- A command is fed two bytes, and its stdout is captured. -/
def fed (stdout : Option Target) : Arguments := ⟨.bytes [1, 2], stdout, none, stdout.isNone, false, true⟩

/-- `run_process` waits for nobody but the processes, which do not wait for it, as long as no pipe is asked for that it would not serve. In
every state of every run before its end, the caller or one of its tasks makes a step, or the child runs or some process has an end of a pipe,
and then no process waits to write what is captured, or to read from stdin. The caller and its tasks do not go on for ever by themselves. Once
the child has exited and no process has an end of a pipe, they make the run return or raise. -/
theorem run_process_waits_for_processes (K : Kernel) (a : Arguments) (cfg : Config) (ha : prepare a = .ok cfg) (hp : a.Unpiped)
    (s : State Mem Op) (h : (machine K cfg).Reach (fun _ _ _ => True) (initial cfg) s) :
    (s.mem.outcome = none → (∃ a s', Act.own a ∧ (machine K cfg).Step s a s') ∨ (s.mem.Waits cfg ∧ s.mem.Yields K cfg)) ∧
    (∀ run : Nat → State Mem Op, run 0 = s → ¬∀ i, ∃ a, Act.own a ∧ (machine K cfg).Step (run i) a (run (i + 1))) ∧
    ((∃ status, s.mem.child = .exited status) → (∀ e, s.mem.held e = 0) →
      ∃ s', (machine K cfg).Reach (fun _ _ a => Act.own a) s s' ∧ s'.mem.outcome ≠ none) := by
  have hserved := served_of_prepare ha hp
  refine ⟨?_, ?_, ?_⟩
  · intro ho
    by_cases hstuck : ∃ a s', Act.own a ∧ (machine K cfg).Step s a s'
    · exact Or.inl hstuck
    · exact Or.inr (waits_of_stuck hserved h ho hstuck)
  · rintro run rfl
    have hinit : (machine K cfg).Reach (fun _ _ a => Act.own a) (run 0) (run 0) := .init
    exact Machine.not_forever (measure cfg) (fun _ _ _ _ hown hs => measure_step hown hs) run hinit
  · rintro ⟨status, hchild⟩ hheld
    exact exists_outcome hserved h hchild hheld

/-- The caller waits for the child to read. -/
theorem run_process_waits_for_processes_one :
    ∃ s, (machine narrow (fed none).config).Reach (fun _ _ _ => True) (initial (fed none).config) s ∧
      s.pool = [[.wait], [.sendAll 1], [.receiveSome .stdout]] ∧ s.mem.outcome = none ∧
      ((∃ a s', Act.own a ∧ (machine narrow (fed none).config).Step s a s') ∨
        (s.mem.Waits (fed none).config ∧ s.mem.Yields narrow (fed none).config)) := by
  obtain ⟨s, hs, hp⟩ := Machine.exists_reach_of_run (machine narrow (fed none).config) (fun _ _ _ => True) (fun _ _ _ => true)
    (fun _ _ _ _ => trivial) (initial (fed none).config)
    (List.flatten [List.replicate 5 (.act 0 .go), [.call (.start .stdin), .call (.start .stdout), .act 1 (.moved 1)]])
    (fun s => decide (s.pool = [[.wait], [.sendAll 1], [.receiveSome .stdout]]) && decide (s.mem.outcome = none)) (by decide)
  simp only [Bool.and_eq_true, decide_eq_true_eq] at hp
  exact ⟨s, hs, hp.1, hp.2, (run_process_waits_for_processes narrow (fed none) _ rfl ⟨by decide, by decide, by decide⟩ s hs).1 hp.2⟩

/-- A pipe that is asked for and not captured may fill up: the child waits to write more, and the caller for it to exit. -/
theorem pipe_not_served :
    ∃ s, (machine narrow (fed (some .pipe)).config).Reach (fun _ _ _ => True) (initial (fed (some .pipe)).config) s ∧
      s.ops = [.wait] ∧ s.mem.spawned = [] ∧ s.mem.child = .running ∧ (s.mem.data .stdout).length = narrow.capacity := by
  obtain ⟨s, hs, hp⟩ := Machine.exists_reach_of_run (machine narrow (fed (some .pipe)).config) (fun _ _ _ => True) (fun _ _ _ => true)
    (fun _ _ _ _ => trivial) (initial (fed (some .pipe)).config)
    (List.flatten [List.replicate 5 (.act 0 .go),
      [.call (.start .stdin), .act 1 (.moved 1), .call (.read 1), .act 1 (.moved 1), .call (.read 1), .act 1 .go, .act 1 .go,
        .call (.write .stdout [7])]])
    (fun s => decide (s.ops = [.wait]) && decide (s.mem.spawned = []) && decide (s.mem.child = .running) &&
      decide ((s.mem.data .stdout).length = narrow.capacity)) (by decide)
  simp only [Bool.and_eq_true, decide_eq_true_eq] at hp
  exact ⟨s, hs, hp.1.1.1, hp.1.1.2, hp.1.2, hp.2⟩

end Tonio.Subprocess
