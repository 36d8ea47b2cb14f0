import Tonio.Lemmas.Channel

/-!
# Delivery and wake-ups of channels

A message is delivered once and in order in every run. A receiver does not sleep beside a message in the runs that spend no
wake-up on a cancelled receiver: the event of a cancelled `receive` stays queued, and nobody passes its wake-up on.
-/

namespace Tonio.Channel

open Interleaving

variable {α : Type}

/-! ## Exactly once, in order -/

/-- Cancelling a `receive` and closing leave messages alone. -/
theorem step_keeps_messages {P : Chan} {s s' : State (Mem α) (Op α)} {a : Act (Op α) Choice (List (Cmd α))}
    (hs : P.machine.Step s a s') (ha : CancelsOrCloses a) :
    s'.mem.queue = s.mem.queue ∧ s'.mem.accepted = s.mem.accepted ∧ s'.mem.dequeued = s.mem.dequeued ∧
      s'.mem.returned = s.mem.returned := by
  rcases hs.ops_eq with ⟨A, op, B, c, new, rfl, -, he, -⟩ | ⟨l, new, rfl, -, -⟩
  · generalize s'.mem = m' at he ⊢
    cases exec_move he with
    | receiveCancelled => exact ⟨rfl, rfl, rfl, by simp [Mem.returned_ended]⟩
    | closeAgain | close | takeWaiters | dropSender | dropReceiver => exact ⟨rfl, rfl, rfl, by simp [Mem.returned]⟩
    | receiveRaised hop | pull hop => rcases hop with rfl | rfl <;> exact ha.elim
    | sendCancelled | newSender | newReceiver | setEvent | sendRaised | send | pushed | room | full | enqueue | resume | sendDone
    | receive | again | park | lenSub | receiveDone | wake => exact ha.elim
  · exact ha.elim

/-- Exactly-once delivery in order, for the bounded and the unbounded channel and in every state of every run of any number of tasks
that send, receive, close, create and drop senders and receivers and are cancelled where they wait: the messages popped,
followed by those queued, are the messages pushed; what was popped has been returned or is about to be; no two messages pushed by
one task are out of the order of its program; a cancelled `receive` and a `close` leave messages alone. -/
theorem channel_delivers_in_order (P : Chan) (s : State (Mem α) (Op α))
    (h : P.machine.Reach (fun _ _ _ => True) initial s) :
    s.mem.dequeued ++ s.mem.queue.map Prod.fst = s.mem.accepted ∧
    (s.mem.returned ++ s.ops.flatMap Op.inFlight).Perm s.mem.dequeued ∧
    s.mem.accepted.Pairwise (fun x y => x.task = y.task → x.seq < y.seq) ∧
    (∀ a s', P.machine.Step s a s' → CancelsOrCloses a →
      s'.mem.queue = s.mem.queue ∧ s'.mem.accepted = s.mem.accepted ∧ s'.mem.dequeued = s.mem.dequeued ∧
        s'.mem.returned = s.mem.returned) := by
  have hD : Delivery s.mem s.ops := Delivery.reach h
  exact ⟨hD.order, hD.returned, (InOrder.reach h).pairwise, fun a s' hs ha => step_keeps_messages hs ha⟩

/-- Two tasks around a channel of size one: one has sent two messages and waits for the second to be pulled, the other has received
the first. -/
theorem channel_delivers_in_order_two :
    ∃ s : State (Mem Nat) (Op Nat), (channel 1).machine.Reach (fun _ _ _ => True) initial s ∧ s.mem.returned = [⟨0, 0, 7⟩] ∧
      s.mem.queue.map Prod.fst = [⟨0, 1, 8⟩] ∧ s.mem.dequeued ++ s.mem.queue.map Prod.fst = s.mem.accepted := by
  obtain ⟨s, hs, hp⟩ := Machine.exists_reach_of_run (channel 1).machine (fun _ _ _ => True) (fun _ _ _ => true)
    (fun _ _ _ _ => trivial) (initial (α := Nat))
    [.call [.send 7, .send 8], .call [.receive], .act 0 .go, .act 0 .go, .act 0 .go, .act 0 .go, .act 0 .go, .act 0 .go, .act 0 .go,
      .act 1 .go, .act 1 .go, .act 1 .go, .act 1 .go]
    (fun s => decide (s.mem.returned = [⟨0, 0, 7⟩]) && decide (s.mem.queue.map Prod.fst = [⟨0, 1, 8⟩])) (by decide)
  simp only [Bool.and_eq_true, decide_eq_true_eq] at hp
  exact ⟨s, hs, hp.1, hp.2, (channel_delivers_in_order (channel 1) s hs).1⟩

/-! ## Sleeping receivers -/

/-- The receivers a state leaves asleep: with no `push`, `pull` or `close` in progress and a message queued, a receiver waits for
an event that is not set, and no receiver that was woken is left to look at the queue. -/
def Asleep (s : State (Mem α) (Op α)) : Prop :=
  (∀ op ∈ s.ops, op.busy = false) ∧ s.mem.queue ≠ [] ∧ (∃ n, Op.waitRecv n ∈ s.ops ∧ s.mem.flag (.rx n) = false) ∧
    ∀ n, Op.waitRecv n ∈ s.ops → s.mem.flag (.rx n) = false

/-- A receiver does not sleep beside a message, for the bounded and the unbounded channel and in every state of every run of any
number of tasks in which no step spends a wake-up on a cancelled receiver while another one sleeps: with no `push`, `pull` or
`close` in progress and a message queued, a receiver whose event is not set is not the only one; some receiver was woken and has not
polled the queue yet. -/
theorem receivers_awake_of_not_spent (P : Chan) (s : State (Mem α) (Op α))
    (h : P.machine.Reach (fun m ops a => ¬Spent m ops a) initial s) (hbusy : ∀ op ∈ s.ops, op.busy = false)
    (hq : s.mem.queue ≠ []) (n : Nat) (hn : Op.waitRecv n ∈ s.ops) (hf : s.mem.flag (.rx n) = false) :
    ∃ n', n' ≠ n ∧ Op.waitRecv n' ∈ s.ops ∧ s.mem.flag (.rx n') = true := by
  have hR := Receivers.reach h
  have hset : ∀ n', Op.setEvent (.rx n') ∉ s.ops := fun n' hx => by simpa [Op.busy] using hbusy _ hx
  have hmem : n ∈ s.mem.waiters := by
    rcases hR.awake n hn with hx | hx | hx
    · exact hx
    · rw [hf] at hx
      cases hx
    · exact absurd hx (hset n)
  have hpos : 0 < total (polls s.mem.waiters) s.ops :=
    Nat.lt_of_lt_of_le (List.length_pos_of_ne_nil hq) (hR.enough ⟨n, hmem, hn⟩)
  obtain ⟨op, hop, hw⟩ := total_pos_iff.mp hpos
  have hb := hbusy op hop
  cases op <;> simp only [polls, Op.busy, Nat.lt_irrefl, reduceCtorEq] at hw hb
  rename_i n'
  have hn' : n' ∉ s.mem.waiters := by
    intro hx
    simp [hx] at hw
  have hf' : s.mem.flag (.rx n') = true := by
    rcases hR.awake n' hop with hx | hx | hx
    · exact absurd hx hn'
    · exact hx
    · exact absurd hx (hset n')
  refine ⟨n', ?_, hop, hf'⟩
  rintro rfl
  exact hn' hmem

/-- Three receivers of a channel wait, the last one is cancelled, and a message is sent: the second receiver waits beside it, and the
first one was woken and has not polled. -/
theorem receivers_awake_of_not_spent_three :
    ∃ s : State (Mem Nat) (Op Nat), (channel 2).machine.Reach (fun m ops a => ¬Spent m ops a) initial s ∧
      s.mem.queue ≠ [] ∧ s.mem.waiters = [1, 2] ∧ ∃ n', n' ≠ 1 ∧ Op.waitRecv n' ∈ s.ops ∧ s.mem.flag (.rx n') = true := by
  obtain ⟨s, hs, hp⟩ := Machine.exists_reach_of_run (channel 2).machine (fun m ops a => ¬Spent m ops a)
    (fun m ops a => decide (¬Spent m ops a)) (fun _ _ _ h => of_decide_eq_true h) (initial (α := Nat))
    [.call [.receive], .act 0 .go, .act 0 .go, .act 0 .go, .call [.receive], .act 1 .go, .act 1 .go, .act 1 .go,
      .call [.receive], .act 2 .go, .act 2 .go, .act 2 .go, .act 2 .cancel,
      .call [.send 7], .act 3 .go, .act 3 .go, .act 3 .go, .act 3 .go, .act 3 .go]
    (fun s => s.ops.all (fun op => !op.busy) && decide (s.mem.queue.length = 1) && decide (s.mem.waiters = [1, 2]) &&
      decide (Op.waitRecv 1 ∈ s.ops) && !s.mem.flag (.rx 1)) (by decide)
  simp only [Bool.and_eq_true, List.all_eq_true, decide_eq_true_eq, Bool.not_eq_true'] at hp
  obtain ⟨⟨⟨⟨hbusy, hlen⟩, hw⟩, hn⟩, hf⟩ := hp
  have hq : s.mem.queue ≠ [] := by
    intro hq
    simp [hq] at hlen
  exact ⟨s, hs, hq, hw, receivers_awake_of_not_spent (channel 2) s hs hbusy hq 1 hn hf⟩

/-- A state in which all that is left to do is to wait for one event that is not set. -/
theorem asleep_of_ops {s : State (Mem α) (Op α)} {n : Nat} (hops : s.ops = [.waitRecv n]) (hq : s.mem.queue ≠ [])
    (hf : s.mem.flag (.rx n) = false) : Asleep s := by
  refine ⟨by simp [hops, Op.busy], hq, ⟨n, by simp [hops], hf⟩, fun n' hn' => ?_⟩
  obtain rfl : n' = n := by simpa [hops] using hn'
  exact hf

/-- A receiver is cancelled while it waits, another one waits, and a message is sent: the wake-up goes to the event of the
first, and the second sleeps beside the message. The same in both channels. -/
theorem receiver_asleep_beside_message :
    (∃ s : State (Mem Nat) (Op Nat), (channel 2).machine.Reach (fun _ _ _ => True) initial s ∧ Asleep s) ∧
    ∃ s : State (Mem Nat) (Op Nat), unboundedChannel.machine.Reach (fun _ _ _ => True) initial s ∧ Asleep s := by
  constructor
  · obtain ⟨s, hs, hp⟩ := Machine.exists_reach_of_run (channel 2).machine (fun _ _ _ => True) (fun _ _ _ => true)
      (fun _ _ _ _ => trivial) (initial (α := Nat))
      [.call [.receive], .act 0 .go, .act 0 .go, .act 0 .go, .act 0 .cancel, .call [.receive], .act 1 .go, .act 1 .go, .act 1 .go,
        .call [.send 7], .act 2 .go, .act 2 .go, .act 2 .go, .act 2 .go, .act 2 .go]
      (fun s => decide (s.ops = [.waitRecv 1]) && decide (s.mem.queue ≠ []) && !s.mem.flag (.rx 1)) (by decide)
    simp only [Bool.and_eq_true, decide_eq_true_eq, Bool.not_eq_true'] at hp
    exact ⟨s, hs, asleep_of_ops hp.1.1 hp.1.2 hp.2⟩
  · obtain ⟨s, hs, hp⟩ := Machine.exists_reach_of_run unboundedChannel.machine (fun _ _ _ => True) (fun _ _ _ => true)
      (fun _ _ _ _ => trivial) (initial (α := Nat))
      [.call [.receive], .act 0 .go, .act 0 .go, .act 0 .go, .act 0 .cancel, .call [.receive], .act 1 .go, .act 1 .go, .act 1 .go,
        .call [.send 7], .act 2 .go, .act 2 .go, .act 2 .go, .act 2 .go]
      (fun s => decide (s.ops = [.waitRecv 1]) && decide (s.mem.queue ≠ []) && !s.mem.flag (.rx 1)) (by decide)
    simp only [Bool.and_eq_true, decide_eq_true_eq, Bool.not_eq_true'] at hp
    exact ⟨s, hs, asleep_of_ops hp.1.1 hp.1.2 hp.2⟩

end Tonio.Channel
