import Tonio.Lemmas.Work

/-!
# No stranded work

A handle is not left behind by workers that all park, unless the wake-up for it was elided for a token that nobody turns into a
look at the injector: `wake_idle` of a thread that is not a worker, which found every flag down, gives its token back without one.
-/

namespace Tonio.Work

open Interleaving

variable {η : Type}

instance [DecidableEq η] (n : Nat) (m : Mem η) (ops : List (Op η)) (a : Act (Op η) (Choice η) (Call η)) :
    Decidable (Elided n m ops a) := by
  unfold Elided
  split <;> infer_instance

/-- No stranded work, for any number of workers and in every state before they are stopped, of every run of them and of any number
of producers, in which no `unpark_one` of a thread that is not a worker is elided for a token that comes to nothing. -/
theorem no_stranded_work (n : Nat) (hn : 0 < n) (s : State (Mem η) (Op η))
    (h : (machine n).Reach (fun m ops a => ¬Elided n m ops a) (initial n) s) (hs : s.mem.stopping = false) : ¬Stranded n s := by
  rintro ⟨hwork, hidle, hparked⟩
  have hI := Inv.reach hn h hs
  have hplace : ∀ i < n, Local s.mem s.ops (.park i) i := fun i hi => hI.place _ (hparked i hi).1 i rfl
  have hup : ∀ i < n, s.mem.flag i = true := by
    intro i hi
    cases hf : s.mem.flag i with
    | true => rfl
    | false =>
      rcases (hplace i hi).parking rfl hf with hp | hu
      · rw [(hparked i hi).2] at hp
        cases hp
      · have := hidle _ hu
        cases this
  rcases hwork with hinj | ⟨i, hi, hd⟩
  · rcases hI.attended hinj with ⟨y, hy, hw, hc⟩ | ⟨i, hi, hf⟩ | ⟨force, hy⟩ | hy | hy | ⟨k, j, hy, -, -, -⟩
    · -- the worker of `y` is at `park`, so `y` is that place
      obtain ⟨i, hi⟩ := Option.isSome_iff_exists.mp hw
      obtain ⟨A, B, hops⟩ := List.append_of_mem (hparked i (hI.sited.lt hy hi)).1
      rw [hops] at hI hy
      by_cases hyp : y = .park i
      · rw [hyp] at hc
        cases hc
      · exact hI.sited.alone (y := y) (by simpa [hyp] using hy) hi rfl
    · rw [hup i hi] at hf
      cases hf
    all_goals
      have := hidle _ hy
      cases this
  · exact hd ((hplace i hi).dry rfl)

/-- One worker parks, a producer claims it while another producer's `unpark_one` is elided; the worker has its permit. -/
theorem no_stranded_work_one :
    ∃ s : State (Mem Nat) (Op Nat), (machine 1).Reach (fun m ops a => ¬Elided 1 m ops a) (initial 1) s ∧
      s.mem.injector = [1, 2] ∧ s.mem.permit 0 = true ∧ Op.park 0 ∈ s.ops ∧ ¬Stranded 1 s := by
  obtain ⟨s, hs, hp⟩ := Machine.exists_reach_of_run (machine 1) (fun m ops a => ¬Elided 1 m ops a)
    (fun m ops a => decide (¬Elided 1 m ops a)) (fun _ _ _ h => of_decide_eq_true h) (initial (η := Nat) 1)
    (List.flatten [List.replicate 12 (.act 0 .go), [.call (.add 1), .act 1 .go, .act 1 .go, .call (.add 2), .act 2 .go, .act 2 .go,
      .act 1 .go, .act 1 .go, .act 1 .go]])
    (fun s => decide (s.mem.injector = [1, 2]) && s.mem.permit 0 && decide (Op.park 0 ∈ s.ops) && !s.mem.stopping) (by decide)
  simp only [Bool.and_eq_true, decide_eq_true_eq, Bool.not_eq_true'] at hp
  exact ⟨s, hs, hp.1.1.1, hp.1.1.2, hp.1.2, no_stranded_work 1 Nat.one_pos s hs hp.2⟩

/-- One worker and two producers. The first producer sees the worker idle; the worker finds the handle by itself, lowers its flag and
runs the handle; the producer takes a token and finds no flag up; the worker goes idle again and parks. The second producer's
wake-up is elided for that token, and the first producer gives it back: the second handle is stranded. -/
theorem handle_stranded :
    ∃ s : State (Mem Nat) (Op Nat), (machine 1).Reach (fun _ _ _ => True) (initial 1) s ∧ s.mem.stopping = false ∧
      Stranded 1 s := by
  obtain ⟨s, hs, hp⟩ := Machine.exists_reach_of_run (machine 1) (fun _ _ _ => True) (fun _ _ _ => true)
    (fun _ _ _ _ => trivial) (initial (η := Nat) 1)
    (List.flatten [List.replicate 7 (.act 0 .go), [.call (.add 1), .act 1 .go], List.replicate 4 (.act 0 .go), [.act 1 .go, .act 1 .go],
      List.replicate 13 (.act 0 .go), [.call (.add 2), .act 2 .go, .act 2 .go, .act 1 .go]])
    (fun s => decide (s.ops = [.park 0]) && decide (s.mem.injector = [2]) && !s.mem.permit 0 && !s.mem.stopping) (by decide)
  simp only [Bool.and_eq_true, decide_eq_true_eq, Bool.not_eq_true'] at hp
  obtain ⟨⟨⟨hops, hinj⟩, hpermit⟩, hstop⟩ := hp
  refine ⟨s, hs, hstop, Or.inl (by simp [hinj]), by simp [hops, Op.producing], fun i hi => ?_⟩
  obtain rfl : i = 0 := by omega
  exact ⟨by simp [hops], hpermit⟩

end Tonio.Work
