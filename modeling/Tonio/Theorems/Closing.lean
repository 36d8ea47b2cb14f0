import Tonio.Lemmas.Senders

/-!
# Closed channels

What `close` owes to the receivers it does in every run: no receiver is left queued. The other two things one expects of a closed
channel hold as long as the steps that break them are not taken. It stays drained unless a `receive` finds it empty while a `send` is past
its check of `closed`, and it leaves no sender waiting unless the last receiver goes while a sender is parked.
-/

namespace Tonio.Channel

open Interleaving

variable {α : Type}

/-! ## No receiver is stranded -/

/-- Closing strands no receiver, for the bounded and the unbounded channel and in every state of every run of any number of tasks that
send, receive, close, create and drop senders and receivers and are cancelled where they wait. Once `closed` is set and no `close` is
between setting it and taking the queued receivers, none is queued, and at most one `close` is ever there; every event that was ever queued
is queued still, or has been set, or is about to be set, and the thread that takes it from the queue, by a `push` or a `close`, goes on
to set it. A step that changes `closed` sets it, and it stays set. -/
theorem closing_strands_no_receiver (P : Chan) (s : State (Mem α) (Op α))
    (h : P.machine.Reach (fun _ _ _ => True) initial s) :
    (s.mem.closed = true → Op.takeWaiters ∉ s.ops → s.mem.waiters = []) ∧
    total closes s.ops ≤ 1 ∧
    (∀ n < s.mem.rxNext, n ∈ s.mem.waiters ∨ s.mem.flag (.rx n) = true ∨ Op.setEvent (.rx n) ∈ s.ops) ∧
    (∀ a s' n, P.machine.Step s a s' → n ∈ s.mem.waiters → n ∉ s'.mem.waiters →
      ∃ (i : Nat) (op : Op α) (rest new : List (Op α)), s.pool[i]? = some (op :: rest) ∧ (op.late = true ∨ op = .takeWaiters) ∧
        s'.pool[i]? = some (new ++ rest) ∧ Op.setEvent (.rx n) ∈ new) ∧
    (∀ a s' s'', P.machine.Step s a s' → s'.mem.closed ≠ s.mem.closed → P.machine.Reach (fun _ _ _ => True) s' s'' →
      s.mem.closed = false ∧ s''.mem.closed = true) ∧
    (∀ s', P.machine.Reach (fun _ _ _ => True) s s' → s.mem.closed = true → s'.mem.closed = true) := by
  have hC := Closing.reach h
  refine ⟨hC.drained, Nat.le_trans hC.once (Bool.toNat_le _), hC.woken, fun a s' n hs hn hn' => step_takes hs hn hn', ?_,
    fun s' h' hc => reach_closed h' hc⟩
  intro a s' s'' hs hne h''
  -- a step keeps `closed` set, so the one that changes it found it unset
  have hr : P.machine.Reach (fun _ _ _ => True) s s' := .step .init trivial hs
  have hmono : s.mem.closed = true → s'.mem.closed = true := fun hc => reach_closed hr hc
  cases hc : s.mem.closed with
  | true => exact absurd (hmono hc) (hc ▸ hne)
  | false =>
    rw [hc] at hne
    exact ⟨rfl, reach_closed h'' (by simpa using hne)⟩

/-- Two receivers wait and a sender is dropped that was the last: both are queued no more, one is woken, and the other is about to
be. -/
theorem closing_strands_no_receiver_two :
    ∃ s : State (Mem Nat) (Op Nat), unboundedChannel.machine.Reach (fun _ _ _ => True) initial s ∧ s.mem.closed = true ∧
      s.mem.rxNext = 2 ∧ s.mem.flag (.rx 0) = true ∧ Op.setEvent (.rx 1) ∈ s.ops ∧ s.mem.waiters = [] := by
  obtain ⟨s, hs, hp⟩ := Machine.exists_reach_of_run unboundedChannel.machine (fun _ _ _ => True) (fun _ _ _ => true)
    (fun _ _ _ _ => trivial) (initial (α := Nat))
    [.call [.receive], .act 0 .go, .act 0 .go, .act 0 .go, .call [.receive], .act 1 .go, .act 1 .go, .act 1 .go,
      .call [.dropSender], .act 2 .go, .act 2 .go, .act 2 .go, .act 2 .go]
    (fun s => s.mem.closed && decide (Op.takeWaiters ∉ s.ops) && decide (s.mem.rxNext = 2) && s.mem.flag (.rx 0) &&
      decide (Op.setEvent (.rx 1) ∈ s.ops)) (by decide)
  simp only [Bool.and_eq_true, decide_eq_true_eq] at hp
  obtain ⟨⟨⟨⟨hc, ht⟩, hn⟩, hf⟩, hset⟩ := hp
  exact ⟨s, hs, hc, hn, hf, hset, (closing_strands_no_receiver unboundedChannel s hs).1 hc ht⟩

/-! ## Messages after the end -/

/-- A closed channel stays drained, for the bounded and the unbounded channel and in every run in which no `receive` raises while a
`send` is past its check of `closed` and has not queued its message: once some `receive` has raised, the queue is empty in every
state of every continuation, no message is queued or popped any more, what receivers return was popped before, and every `send` that has
returned had queued its message before. -/
theorem drained_of_not_overtakes (P : Chan) (s s' : State (Mem α) (Op α))
    (h : P.machine.Reach (fun m ops a => ¬Overtakes m ops a) initial s) (hr : s.mem.raised)
    (h' : P.machine.Reach (fun _ _ _ => True) s s') :
    s'.mem.queue = [] ∧ s'.mem.accepted = s.mem.accepted ∧ s'.mem.dequeued = s.mem.dequeued ∧
    (∀ x ∈ s'.mem.returned, x ∈ s.mem.dequeued) ∧ ∀ x, Outcome.sent x ∈ s'.mem.history → x ∈ s.mem.accepted := by
  obtain ⟨hD, ha, hd⟩ := Drained.reach h' (Drained.of_raised h hr)
  have hreach : P.machine.Reach (fun _ _ _ => True) initial s' := (h.mono (fun _ _ _ _ => trivial)).trans h'
  refine ⟨hD.queue, ha, hd, fun x hx => ?_, fun x hx => ?_⟩
  · rw [← hd]
    exact (Delivery.reach hreach).returned.subset (List.mem_append_left _ hx)
  · rw [← ha]
    exact (Sent.reach hreach).returned x hx

/-- A message is sent, the channel closed, the message received and the end found; after that a `send` raises. -/
theorem drained_of_not_overtakes_one :
    ∃ s s' : State (Mem Nat) (Op Nat), (channel 1).machine.Reach (fun m ops a => ¬Overtakes m ops a) initial s ∧ s.mem.raised ∧
      (channel 1).machine.Reach (fun _ _ _ => True) s s' ∧
      s'.mem.history = [.sent ⟨0, 0, 7⟩, .received ⟨0, 0, 7⟩, .receiveRaised "channel closed", .sendRaised ⟨2, 0, 8⟩ "channel closed"] ∧
      s'.mem.queue = [] := by
  obtain ⟨s, s', hs, hs', hp⟩ := Machine.exists_reach_of_runs (channel 1).machine (fun m ops a => ¬Overtakes m ops a)
    (fun _ _ _ => True) (fun m ops a => decide (¬Overtakes m ops a)) (fun _ _ _ => true) (fun _ _ _ h => of_decide_eq_true h)
    (fun _ _ _ _ => trivial) (initial (α := Nat))
    [.call [.send 7, .close], .act 0 .go, .act 0 .go, .act 0 .go, .act 0 .go, .act 0 .go, .act 0 .go,
      .call [.receive, .receive], .act 1 .go, .act 1 .go, .act 1 .go, .act 1 .go, .act 1 .go, .act 1 .go]
    [.call [.send 8], .act 2 .go]
    (fun s s' => decide (Outcome.receiveRaised "channel closed" ∈ s.mem.history) && decide (s'.mem.history =
      [.sent ⟨0, 0, 7⟩, .received ⟨0, 0, 7⟩, .receiveRaised "channel closed", .sendRaised ⟨2, 0, 8⟩ "channel closed"])) (by decide)
  simp only [Bool.and_eq_true, decide_eq_true_eq] at hp
  have hraised : s.mem.raised := ⟨_, hp.1⟩
  exact ⟨s, s', hs, hraised, hs', hp.2, (drained_of_not_overtakes (channel 1) s s' hs hraised hs').1⟩

/-- A message queued and returned after a `receive` has raised. -/
def Refilled (s s' : State (Mem α) (Op α)) (x : Msg α) : Prop :=
  s.mem.raised ∧ x ∉ s.mem.accepted ∧ Outcome.sent x ∈ s'.mem.history ∧ Outcome.received x ∈ s'.mem.history

/-- A `send` has passed its check when the channel is closed and a `receive` raises; then it queues its message and returns, and the next
`receive` returns the message. The same in both channels. -/
theorem closed_channel_refilled :
    (∃ s s' : State (Mem Nat) (Op Nat), ∃ x, (channel 1).machine.Reach (fun _ _ _ => True) initial s ∧
      (channel 1).machine.Reach (fun _ _ _ => True) s s' ∧ Refilled s s' x) ∧
    ∃ s s' : State (Mem Nat) (Op Nat), ∃ x, unboundedChannel.machine.Reach (fun _ _ _ => True) initial s ∧
      unboundedChannel.machine.Reach (fun _ _ _ => True) s s' ∧ Refilled s s' x := by
  have hrun : ∀ (P : Chan) (ls : List (Label Choice (List (Cmd Nat)))),
      (P.machine.run (fun _ _ _ => true) (initial (α := Nat)) [.call [.send 7], .call [.close], .call [.receive], .call [.receive],
        .act 0 .go, .act 1 .go, .act 1 .go, .act 2 .go, .act 2 .go]).any (fun s =>
          (P.machine.run (fun _ _ _ => true) s ls).any (fun s' =>
            decide (Outcome.receiveRaised "channel closed" ∈ s.mem.history) && decide (s.mem.accepted = []) &&
              decide (Outcome.sent ⟨0, 0, 7⟩ ∈ s'.mem.history) && decide (Outcome.received ⟨0, 0, 7⟩ ∈ s'.mem.history))) = true →
      ∃ s s' : State (Mem Nat) (Op Nat), ∃ x, P.machine.Reach (fun _ _ _ => True) initial s ∧
        P.machine.Reach (fun _ _ _ => True) s s' ∧ Refilled s s' x := by
    intro P ls hany
    obtain ⟨s, s', hs, hs', hp⟩ := Machine.exists_reach_of_runs P.machine (fun _ _ _ => True) (fun _ _ _ => True)
      (fun _ _ _ => true) (fun _ _ _ => true) (fun _ _ _ _ => trivial) (fun _ _ _ _ => trivial) (initial (α := Nat)) _ ls _ hany
    simp only [Bool.and_eq_true, decide_eq_true_eq] at hp
    obtain ⟨⟨⟨hr, ha⟩, hsent⟩, hrecv⟩ := hp
    exact ⟨s, s', ⟨0, 0, 7⟩, hs, hs', ⟨_, hr⟩, by simp [ha], hsent, hrecv⟩
  constructor
  · exact hrun (channel 1) [.act 0 .go, .act 0 .go, .act 0 .go, .act 3 .go, .act 3 .go, .act 3 .go, .act 3 .go] (by decide)
  · exact hrun unboundedChannel [.act 0 .go, .act 0 .go, .act 3 .go, .act 3 .go, .act 3 .go] (by decide)

/-! ## Senders with nobody left to pull -/

/-- Closing strands no sender, for every size of the bounded channel and in every run in which the last receiver is not dropped
while a message with an event is queued, and no message with an event is queued while there is no receiver: when `rx` is 0, the
events stored in the queue are set, and a `send` that waits is resumed, for its event is set, or is about to be, or a receiver that
popped its message is about to set it. -/
theorem senders_released_of_not_strands (size : Nat) (s : State (Mem α) (Op α))
    (h : (channel size).machine.Reach (fun m _ a => ¬Strands m a) initial s) (hrx : s.mem.rx = 0) :
    (∀ x n, (x, some n) ∈ s.mem.queue → s.mem.flag (.tx n) = true) ∧
    ∀ x n, Op.waitSend x n ∈ s.ops → s.mem.flag (.tx n) = true ∨ Op.setEvent (.tx n) ∈ s.ops ∨ Op.lenSub x (some n) ∈ s.ops := by
  have hnone : ∀ x n, (x, some n) ∉ s.mem.queue := by
    intro x n hx
    cases (Deserted.reach h).queue hrx _ hx
  refine ⟨fun x n hx => absurd hx (hnone x n), fun x n hw => ?_⟩
  rcases (Senders.reach h).parked n x hw with hq | hl | hf | hset
  · exact absurd hq (hnone x n)
  · exact Or.inr (Or.inr hl)
  · exact Or.inl hf
  · exact Or.inr (Or.inl hset)

/-- A sender is parked, its message is pulled, and the receiver is dropped before the sender is resumed: its event is set. -/
theorem senders_released_of_not_strands_one :
    ∃ s : State (Mem Nat) (Op Nat), (channel 0).machine.Reach (fun m _ a => ¬Strands m a) initial s ∧ s.mem.rx = 0 ∧
      s.mem.closed = true ∧ Op.waitSend ⟨0, 0, 7⟩ 0 ∈ s.ops ∧
      (s.mem.flag (.tx 0) = true ∨ Op.setEvent (.tx 0) ∈ s.ops ∨ Op.lenSub ⟨0, 0, 7⟩ (some 0) ∈ s.ops) := by
  obtain ⟨s, hs, hp⟩ := Machine.exists_reach_of_run (channel 0).machine (fun m _ a => ¬Strands m a)
    (fun m _ a => decide (¬Strands m a)) (fun _ _ _ h => of_decide_eq_true h) (initial (α := Nat))
    [.call [.send 7], .act 0 .go, .act 0 .go, .act 0 .go, .call [.receive, .dropReceiver], .act 1 .go, .act 1 .go, .act 1 .go,
      .act 1 .go, .act 1 .go, .act 1 .go, .act 1 .go, .act 1 .go]
    (fun s => decide (s.mem.rx = 0) && s.mem.closed && decide (Op.waitSend ⟨0, 0, 7⟩ 0 ∈ s.ops)) (by decide)
  simp only [Bool.and_eq_true, decide_eq_true_eq] at hp
  exact ⟨s, hs, hp.1.1, hp.1.2, hp.2, (senders_released_of_not_strands 0 s hs hp.1.1).2 _ _ hp.2⟩

/-- A sender is parked because the buffer is full, and the last receiver is dropped: the channel is closed, nothing is left to do but to
wait for the event stored in the queue, and it is not set. -/
theorem sender_stranded_by_close :
    ∃ s : State (Mem Nat) (Op Nat), (channel 1).machine.Reach (fun _ _ _ => True) initial s ∧ s.mem.rx = 0 ∧ s.mem.closed = true ∧
      s.ops = [.waitSend ⟨0, 1, 8⟩ 0] ∧ (⟨0, 1, 8⟩, some 0) ∈ s.mem.queue ∧ s.mem.flag (.tx 0) = false := by
  obtain ⟨s, hs, hp⟩ := Machine.exists_reach_of_run (channel 1).machine (fun _ _ _ => True) (fun _ _ _ => true)
    (fun _ _ _ _ => trivial) (initial (α := Nat))
    [.call [.send 7, .send 8], .act 0 .go, .act 0 .go, .act 0 .go, .act 0 .go, .act 0 .go, .act 0 .go, .act 0 .go,
      .call [.dropReceiver], .act 1 .go, .act 1 .go, .act 1 .go]
    (fun s => decide (s.mem.rx = 0) && s.mem.closed && decide (s.ops = [.waitSend ⟨0, 1, 8⟩ 0]) &&
      decide ((⟨0, 1, 8⟩, some 0) ∈ s.mem.queue) && !s.mem.flag (.tx 0)) (by decide)
  simp only [Bool.and_eq_true, decide_eq_true_eq, Bool.not_eq_true'] at hp
  obtain ⟨⟨⟨⟨hrx, hc⟩, hops⟩, hq⟩, hf⟩ := hp
  exact ⟨s, hs, hrx, hc, hops, hq, hf⟩

end Tonio.Channel
