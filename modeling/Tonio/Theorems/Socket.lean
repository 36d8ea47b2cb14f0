import Tonio.Lemmas.Socket

/-!
# No task waits for what is there

A task that is parked while its system call would go through is about to be woken. Around a `_Socket` that takes callers that leave each
direction to one task; `FdStream` sees to it with its locks.
-/

namespace Tonio.Socket

open Interleaving
open Schedule (Dir)

instance (ops : List Op) (a : Act Op Choice Call) : Decidable (Single ops a) := by
  unfold Single
  induction a using Act.casesOn with
  | exec op c => infer_instance
  | call l => induction l using Call.casesOn <;> infer_instance

instance (m : Mem) (a : Act Op Choice Call) : Decidable (Wraps m a) := by
  unfold Wraps
  induction a using Act.casesOn with
  | exec op c =>
    induction op using Op.casesOn with
    | io op => induction op using Schedule.Op.casesOn <;> infer_instance
    | _ => infer_instance
  | call l => infer_instance

instance (m : Mem) (a : Act Op Choice Call) : Decidable (Takes m a) := by
  unfold Takes
  induction a using Act.casesOn with
  | exec op c =>
    induction op using Op.casesOn with
    | io op => induction op using Schedule.Op.casesOn <;> infer_instance
    | _ => infer_instance
  | call l => infer_instance

/-- The loops of `_Socket`, in every state of every run of any number of readers and writers, of which one at most of each direction is
under way, with the poller, closings, arrivals and hang-ups, in which no task clears with a tick that has come round and none takes the
other direction's last bit. The event of a task that is parked has been scheduled, or is about to be, or it is in the slot; and then, if
the system call of the task would go through, its edge waits in the kernel, or the poller is on the way to wake it. So as long as such a
task is parked there is a step to be made, with no help from callers or the network. -/
theorem socket_attends_waiters (ready : Dir → Bool) (s : State Mem Op)
    (h : socket.Reach (fun m ops a => Single ops a ∧ ¬Wraps m a ∧ ¬Takes m a) (initial ready) s) (d : Dir) (e : Nat)
    (hp : .io (.parked d e) ∈ s.ops) :
    (s.mem.io.woken e = true ∨ .io (.addIoHandle e) ∈ s.ops ∨
      (s.mem.io.slot d = some e ∧ (s.mem.ready d = true → s.mem.edge d = true ∨ ∃ op ∈ s.ops, op.announces d = true))) ∧
    (s.mem.ready d = true → ∃ a s', Act.own a ∧ socket.Step s a s') := by
  have hproper : (machine false).Reach (Proper false) (initial ready) s :=
    h.mono (fun m ops a hok => ⟨fun _ => hok.1, hok.2⟩)
  exact ⟨parked_of_reach hproper hp, own_of_parked hproper hp⟩

/-- A reader has been parked, and data has arrived. -/
theorem socket_attends_waiters_one :
    ∃ s, socket.Reach (fun m ops a => Single ops a ∧ ¬Wraps m a ∧ ¬Takes m a) (initial fun _ => false) s ∧
      .io (.parked .r 0) ∈ s.ops ∧ s.mem.ready .r = true ∧ ∃ a s', Act.own a ∧ socket.Step s a s' := by
  obtain ⟨s, hs, hp⟩ := Machine.exists_reach_of_run socket (fun m ops a => Single ops a ∧ ¬Wraps m a ∧ ¬Takes m a)
    (fun m ops a => decide (Single ops a ∧ ¬Wraps m a ∧ ¬Takes m a)) (fun _ _ _ h => of_decide_eq_true h) (initial fun _ => false)
    (List.flatten [[.call (.loop .r)], List.replicate 5 (.act 0 (.io .go)), [.call (.arrive .r)]])
    (fun s => decide (Op.io (.parked .r 0) ∈ s.ops) && s.mem.ready .r) (by decide)
  simp only [Bool.and_eq_true, decide_eq_true_eq] at hp
  exact ⟨s, hs, hp.1, hp.2, (socket_attends_waiters _ s hs .r 0 hp.1).2 hp.2⟩

/-- `FdStream`, with any number of tasks of either direction, whoever calls: a direction has one task at most from when it has the lock
until it leaves the `with` block, and holds the lock in between. So the same is true of the tasks that are parked, in every run in which no
task clears with a tick that has come round and none takes the other direction's last bit. -/
theorem fd_stream_attends_waiters (ready : Dir → Bool) (s : State Mem Op)
    (h : fdStream.Reach (fun m _ a => ¬Wraps m a ∧ ¬Takes m a) (initial ready) s) :
    (∀ d, (s.ops.filterMap Op.task).count d ≤ (s.mem.locked d).toNat) ∧
    ∀ d e, .io (.parked d e) ∈ s.ops →
      (s.mem.io.woken e = true ∨ .io (.addIoHandle e) ∈ s.ops ∨
        (s.mem.io.slot d = some e ∧ (s.mem.ready d = true → s.mem.edge d = true ∨ ∃ op ∈ s.ops, op.announces d = true))) ∧
      (s.mem.ready d = true → ∃ a s', Act.own a ∧ fdStream.Step s a s') := by
  have hproper : (machine true).Reach (Proper true) (initial ready) s :=
    h.mono (fun m ops a hok => ⟨fun hfd => absurd hfd (by decide), hok⟩)
  refine ⟨?_, ?_⟩
  · intro d
    rw [← total_isAt]
    exact (Solo.reach hproper).one d
  · intro d e hp
    exact ⟨parked_of_reach hproper hp, own_of_parked hproper hp⟩

/-- Two readers of one stream: the second is refused, and the first is parked when data arrives. -/
theorem fd_stream_attends_waiters_two :
    ∃ s, fdStream.Reach (fun m _ a => ¬Wraps m a ∧ ¬Takes m a) (initial fun _ => false) s ∧ s.pool = [[.io (.parked .r 0)], [], []] ∧
       s.mem.ready .r = true ∧ ∃ a s', Act.own a ∧ fdStream.Step s a s' := by
  obtain ⟨s, hs, hp⟩ := Machine.exists_reach_of_run fdStream (fun m _ a => ¬Wraps m a ∧ ¬Takes m a)
    (fun m _ a => decide (¬Wraps m a ∧ ¬Takes m a)) (fun _ _ _ h => of_decide_eq_true h) (initial fun _ => false)
    (List.flatten [[.call (.loop .r), .call (.loop .r), .act 0 .go, .act 1 .go], List.replicate 5 (.act 0 (.io .go)), [.call (.arrive .r)]])
    (fun s => decide (s.pool = [[.io (.parked .r 0)], [], []]) && s.mem.ready .r) (by decide)
  simp only [Bool.and_eq_true, decide_eq_true_eq] at hp
  have hparked : .io (.parked .r 0) ∈ s.ops := by simp [State.ops, hp.1]
  exact ⟨s, hs, hp.1, hp.2, ((fd_stream_attends_waiters _ s hs).2 .r 0 hparked).2 hp.2⟩

/-- The condition on the bit of errors is needed: the poll reports an error to a reader that is parked, a writer that would block clears what
it has of it, and the reader is parked again, with nobody to wake it. -/
theorem error_bit_taken :
    ∃ s, socket.Reach (fun m ops a => Single ops a ∧ ¬Wraps m a) (initial fun _ => false) s ∧ .io (.parked .r 1) ∈ s.ops ∧
      s.mem.ready .r = true ∧ s.mem.edge .r = false ∧ s.mem.io.woken 1 = false ∧ s.ops = [.io (.parked .r 1), .io (.armLoad .w)] := by
  obtain ⟨s, hs, hp⟩ := Machine.exists_reach_of_run socket (fun m ops a => Single ops a ∧ ¬Wraps m a)
    (fun m ops a => decide (Single ops a ∧ ¬Wraps m a)) (fun _ _ _ h => of_decide_eq_true h) (initial fun _ => false)
    (List.flatten [[.call (.loop .r)], List.replicate 5 (.act 0 (.io .go)),
      [.call (.arrive .r), .call (.poll ⟨false, false, false, true, true⟩)], List.replicate 5 (.act 2 (.io .go)),
      [.act 0 (.io .go), .call (.loop .w), .act 3 (.io .go), .act 3 (.io .go), .act 3 (.io .go), .act 3 .wouldBlock, .act 3 (.io .go),
        .act 3 (.io .go)], List.replicate 5 (.act 0 (.io .go))])
    (fun s => decide (Op.io (.parked .r 1) ∈ s.ops) && s.mem.ready .r && !s.mem.edge .r && !s.mem.io.woken 1 &&
      decide (s.ops = [.io (.parked .r 1), .io (.armLoad .w)])) (by decide)
  simp only [Bool.and_eq_true, decide_eq_true_eq, Bool.not_eq_true'] at hp
  exact ⟨s, hs, hp.1.1.1.1, hp.1.1.1.2, hp.1.1.2, hp.1.2, hp.2⟩

end Tonio.Socket
