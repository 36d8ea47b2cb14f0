import Tonio.Lemmas.Tls

/-!
# The order of TLS records

A payload is produced under the lock of the SSL object and queued for the send lock in a second step, which nothing ties to the first:
the records are sent in the order of production as long as no task queues ahead of an older payload.
-/

namespace Tonio.Tls

open Interleaving

instance (ops : List Op) (a : Act Op Choice Call) : Decidable (Overtakes ops a) := by
  unfold Overtakes
  split <;> infer_instance

/-- The payloads passed to the transport are, one after the other, a prefix of what was read from the egress BIO (the bytes stashed by
the handshake first), in every state of every run of any number of tasks on a ready stream in which no task queues for the send lock
while a task with an older payload has not, and no task is cancelled while it waits for the send lock. -/
theorem records_sent_in_order (cfg : Config) (stashed : Bytes) (s : State Mem Op)
    (h : (machine cfg).Reach (fun _ ops a => ¬Overtakes ops a) (ready stashed) s) : s.mem.sent <+: s.mem.produced := by
  obtain ⟨-, -, hO⟩ := ordered_of_reach h
  rw [hO.sum, List.append_assoc, List.append_assoc]
  exact List.prefix_append _ _

/-- Two senders; the second one has to wait for the first, and sends its payload after it. -/
theorem records_sent_in_order_two :
    ∃ s, (machine ⟨true, false⟩).Reach (fun _ ops a => ¬Overtakes ops a) (ready [9]) s ∧ s.mem.sent = [9, 1, 2] ∧
      s.mem.produced = [9, 1, 2, 3] ∧ s.mem.sent <+: s.mem.produced := by
  obtain ⟨s, hs, hp⟩ := Machine.exists_reach_of_run (machine ⟨true, false⟩) (fun _ ops a => ¬Overtakes ops a)
    (fun _ ops a => decide (¬Overtakes ops a)) (fun _ _ _ h => of_decide_eq_true h) (ready [9])
    (List.flatten [[.call .sendAll, .call .sendAll, .call .receiveSome, .act 0 .go, .act 1 .go, .act 2 .go, .act 0 (.step [1] false),
        .act 0 .go, .act 0 .go, .act 1 (.step [2] false), .act 1 .go], List.replicate 6 (.act 0 .go), List.replicate 5 (.act 1 .go),
      [.act 2 (.step [3] true)]])
    (fun s => decide (s.mem.sent = [9, 1, 2]) && decide (s.mem.produced = [9, 1, 2, 3])) (by decide)
  simp only [Bool.and_eq_true, decide_eq_true_eq] at hp
  exact ⟨s, hs, hp.1, hp.2, records_sent_in_order ⟨true, false⟩ [9] s hs⟩

/-- Two senders on different workers: the payload of the first is produced first, and the second queues for the send lock first. -/
theorem records_sent_out_of_order :
    ∃ s, (machine ⟨false, false⟩).Reach (fun _ _ _ => True) (ready []) s ∧ s.mem.produced = [1, 2] ∧ s.mem.sent = [2] ∧
      ¬s.mem.sent <+: s.mem.produced := by
  obtain ⟨s, hs, hp⟩ := Machine.exists_reach_of_run (machine ⟨false, false⟩) (fun _ _ _ => True) (fun _ _ _ => true)
    (fun _ _ _ _ => trivial) (ready [])
    (List.flatten [[.call .sendAll, .call .sendAll, .act 0 .go, .act 1 .go, .act 0 (.step [1] false), .act 1 (.step [2] false)],
      List.replicate 6 (.act 1 .go)])
    (fun s => decide (s.mem.produced = [1, 2]) && decide (s.mem.sent = [2])) (by decide)
  simp only [Bool.and_eq_true, decide_eq_true_eq] at hp
  refine ⟨s, hs, hp.1, hp.2, ?_⟩
  rw [hp.1, hp.2]
  decide

end Tonio.Tls
