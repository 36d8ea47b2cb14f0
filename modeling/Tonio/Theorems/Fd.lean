import Tonio.Lemmas.Fd

/-!
# Descriptors are closed once

`close` looks whether the object is closed, reads the number, and makes the object give it up, in three steps; `_drop` takes the number out
under the mutex and does not say whether there was one. Two closers that have both read the number both close it.
-/

namespace Tonio.Fd

open Interleaving

instance (m : Mem) (ops : List Op) (a : Act Op Choice Call) : Decidable (Overlaps m ops a) := by
  unfold Overlaps
  split <;> infer_instance

/-- An owned descriptor is closed once, for any number of threads that close the object, of tasks that call `returncode`, `poll` and
`wait` of the process around it and are cancelled where they wait, and whatever others open and close meanwhile: in every run in which no
closer reads the number while another one has read it and has not made the object give it up, `os.close` is called at most once, with the
number the object owned, and nobody else's descriptor is closed. -/
theorem descriptor_closed_once (n : Nat) (s : State Mem Op) (h : machine.Reach (fun m ops a => ¬Overlaps m ops a) (initial n) s) :
    s.mem.closes.length ≤ 1 ∧ (∀ k ∈ s.mem.closes, k = n) ∧ s.mem.stolen = 0 := by
  have hO := Owned.reach h
  refine ⟨?_, hO.closed, hO.stolen⟩
  rcases hO.inner with hin | hin
  · have := (hO.gone hin).2
    omega
  · rw [(hO.owns hin).2.2.1]
    exact Nat.zero_le 1

/-- Two tasks ask for the return code of a process that has exited; the second one finds the descriptor closed. The number is given to
somebody else. -/
theorem descriptor_closed_once_two :
    ∃ s, machine.Reach (fun m ops a => ¬Overlaps m ops a) (initial 3) s ∧ s.ops = [] ∧ s.mem.closes = [3] ∧ s.mem.table 3 = some .other ∧
      s.mem.stolen = 0 := by
  obtain ⟨s, hs, hp⟩ := Machine.exists_reach_of_run machine (fun m ops a => ¬Overlaps m ops a) (fun m ops a => decide (¬Overlaps m ops a))
    (fun _ _ _ h => of_decide_eq_true h) (initial 3)
    (List.flatten [[.call .exit, .call .returncode, .call .returncode], List.replicate 3 (.act 1 .go), List.replicate 8 (.act 2 .go),
      [.act 1 .go, .act 2 .go, .act 1 .go, .call (.opened 3)]])
    (fun s => decide (s.ops = []) && decide (s.mem.closes = [3]) && decide (s.mem.table 3 = some .other)) (by decide)
  simp only [Bool.and_eq_true, decide_eq_true_eq] at hp
  exact ⟨s, hs, hp.1.1, hp.1.2, hp.2, (descriptor_closed_once 3 s hs).2.2⟩

/-- Two closers both read the number; the first closes it, somebody else opens it, and the second closes that. The same through two tasks
that ask for the return code of a process that has exited. -/
theorem descriptor_closed_twice :
    (∃ s, machine.Reach (fun _ _ _ => True) (initial 3) s ∧ s.mem.closes = [3, 3] ∧ s.mem.stolen = 1) ∧
    ∃ s, machine.Reach (fun _ _ _ => True) (initial 3) s ∧ s.mem.closes = [3, 3] ∧ s.mem.stolen = 1 ∧ s.mem.pidfd = false := by
  constructor
  · obtain ⟨s, hs, hp⟩ := Machine.exists_reach_of_run machine (fun _ _ _ => True) (fun _ _ _ => true) (fun _ _ _ _ => trivial) (initial 3)
      (List.flatten [[.call .close, .call .close, .act 0 .go, .act 1 .go, .act 0 .go, .act 1 .go], List.replicate 3 (.act 0 .go),
        [.call (.opened 3)], List.replicate 3 (.act 1 .go)])
      (fun s => decide (s.mem.closes = [3, 3]) && decide (s.mem.stolen = 1)) (by decide)
    simp only [Bool.and_eq_true, decide_eq_true_eq] at hp
    exact ⟨s, hs, hp.1, hp.2⟩
  · obtain ⟨s, hs, hp⟩ := Machine.exists_reach_of_run machine (fun _ _ _ => True) (fun _ _ _ => true) (fun _ _ _ _ => trivial) (initial 3)
      (List.flatten [[.call .exit, .call .returncode, .call .returncode], List.replicate 5 (.act 1 .go), List.replicate 5 (.act 2 .go),
        List.replicate 4 (.act 1 .go), [.call (.opened 3)], List.replicate 4 (.act 2 .go)])
      (fun s => decide (s.mem.closes = [3, 3]) && decide (s.mem.stolen = 1) && decide (s.mem.pidfd = false)) (by decide)
    simp only [Bool.and_eq_true, decide_eq_true_eq] at hp
    exact ⟨s, hs, hp.1.1, hp.1.2, hp.2⟩

end Tonio.Fd
