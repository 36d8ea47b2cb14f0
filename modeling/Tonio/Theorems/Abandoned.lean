import Tonio.Lemmas.Attended

/-!
# Cancelled sends

A `send` queues its message before it waits for it to be pulled, and nothing takes the message back when the wait is cancelled (`Lock` and
`Semaphore` handle the `CancelledError` of theirs). A cancelled `send` has sent its message.
-/

namespace Tonio.Channel

open Interleaving

variable {α : Type}

instance [DecidableEq α] (m : Mem α) (a : Act (Op α) Choice (List (Cmd α))) : Decidable (Abandons m a) := by
  unfold Abandons
  induction a using Act.casesOn with
  | exec op c =>
    induction op using Op.casesOn with
    | waitSend x e => induction c using Choice.casesOn <;> infer_instance
    | _ => infer_instance
  | call l => infer_instance

/-- A `send` that is cancelled before its message was pulled sends nothing, for the bounded channel of every size and any number of tasks
that send, receive, close, create and drop senders and receivers and are cancelled where they wait. Whenever a parked `send` is cancelled,
this holds (what was not pulled is not queued any more, and is never returned afterwards) if and only if its message was pulled before. And
in every run in which no `send` is cancelled before its message was pulled, whose messages fit in memory, what a cancelled `send` had queued
was pulled, and the queue is no longer than `size` and the parked senders. -/
theorem cancelled_send_sends_nothing_iff (size : Nat) :
    (∀ (s s' : State (Mem α) (Op α)) (x : Msg α) (n : Nat), (channel size).machine.Reach (fun _ _ _ => True) initial s →
      (channel size).machine.Step s (.exec (.waitSend x n) .cancel) s' →
      ((x ∉ s.mem.dequeued → x ∉ s'.mem.queue.map Prod.fst ∧
          ∀ s'', (channel size).machine.Reach (fun _ _ _ => True) s' s'' → x ∉ s''.mem.returned) ↔ x ∈ s.mem.dequeued)) ∧
    ∀ s : State (Mem α) (Op α), (channel size).machine.Reach (fun m ops a => Fits m ops a ∧ ¬Abandons m a) initial s →
      (∀ x, Outcome.sendCancelled x ∈ s.mem.history → x ∈ s.mem.dequeued ∧ x ∉ s.mem.queue.map Prod.fst) ∧
      s.mem.queue.length ≤ size + s.ops.countP Op.parked := by
  refine ⟨fun s s' x n h hs => ⟨fun hp => ?_, fun hx hne => absurd hx hne⟩, fun s h => ?_⟩
  · by_contra hx
    rcases hs.ops_eq with ⟨A, op, B, c, new, hop, hops, he, -⟩ | ⟨l, new, hl, -⟩
    · cases hop
      have hq : (x, some n) ∈ s.mem.queue := queued_of_parked h (by simp [hops]) hx
      have hm : s'.mem = s.mem.ended (.sendCancelled x) := (Prod.mk.inj (Option.some.inj he)).1.symm
      have hkeep : x ∈ s'.mem.queue.map Prod.fst := by
        rw [hm]
        exact List.mem_map_of_mem (f := Prod.fst) hq
      exact (hp hx).1 hkeep
    · cases hl
  · have hA : Attended s.mem s.ops := Attended.reach (h.mono (fun _ _ _ hk => hk.2))
    have hC : Capacity size s.mem s.ops := Capacity.reach (h.mono (fun _ _ _ hk => hk.1))
    have hnd : (s.mem.queue.map Prod.fst).Nodup := by
      have := nodup_accepted h
      rw [← (Delivery.reach h).order] at this
      exact (List.nodup_append.mp this).2.1
    refine ⟨fun x hx => ⟨hA.pulled x hx, not_queued h (hA.pulled x hx)⟩, ?_⟩
    have hparked := hA.countP_le hnd
    have hroom := hC.room
    have hsplit : s.mem.queue.length = s.mem.queue.countP (·.2.isSome) + s.mem.queue.countP (·.2.isNone) := by
      rw [List.length_eq_countP_add_countP (·.2.isSome)]
      refine congrArg _ (List.countP_congr (fun e _ => ?_))
      cases e.2 <;> simp
    omega

/-- A channel of size one. The second message of a task was pulled by a receiver that has not set its event yet when its `send` is
cancelled. -/
theorem cancelled_send_sends_nothing_two :
    ∃ s s' : State (Mem Nat) (Op Nat), (channel 1).machine.Reach (fun m ops a => Fits m ops a ∧ ¬Abandons m a) initial s ∧
      (channel 1).machine.Step s (.exec (.waitSend ⟨0, 1, 8⟩ 0) .cancel) s' ∧ (⟨0, 1, 8⟩ : Msg Nat) ∈ s.mem.dequeued ∧
      s.mem.queue.length ≤ 1 + s.ops.countP Op.parked ∧
      ((⟨0, 1, 8⟩ : Msg Nat) ∉ s.mem.dequeued → (⟨0, 1, 8⟩ : Msg Nat) ∉ s'.mem.queue.map Prod.fst ∧
        ∀ s'', (channel 1).machine.Reach (fun _ _ _ => True) s' s'' → (⟨0, 1, 8⟩ : Msg Nat) ∉ s''.mem.returned) := by
  obtain ⟨s, hs, hp⟩ := Machine.exists_reach_of_run (channel 1).machine (fun m ops a => Fits m ops a ∧ ¬Abandons m a)
    (fun m ops a => decide (Fits m ops a ∧ ¬Abandons m a)) (fun _ _ _ h => of_decide_eq_true h) (initial (α := Nat))
    (List.flatten [[.call [.send 7, .send 8]], List.replicate 7 (.act 0 .go), [.call [.receive, .receive]], List.replicate 6 (.act 1 .go)])
    (fun s => decide (s.pool[0]? = some [Op.waitSend ⟨0, 1, 8⟩ 0]) && decide ((⟨0, 1, 8⟩ : Msg Nat) ∈ s.mem.dequeued)) (by decide)
  simp only [Bool.and_eq_true, decide_eq_true_eq] at hp
  have hstep : (channel 1).machine.Step s (.exec (.waitSend ⟨0, 1, 8⟩ 0) .cancel) _ := .exec hp.1 rfl
  exact ⟨s, _, hs, hstep, hp.2, ((cancelled_send_sends_nothing_iff 1).2 s hs).2,
    ((cancelled_send_sends_nothing_iff 1).1 s _ ⟨0, 1, 8⟩ 0 (hs.mono (fun _ _ _ _ => trivial)) hstep).mpr hp.2⟩

/-- A channel of size one, full. The `send` of `8` is cancelled while its message is queued, and tried again: both messages are queued, with
no sender parked but the second one, and both are received. -/
theorem cancelled_send_sends :
    ∃ s s' : State (Mem Nat) (Op Nat), (channel 1).machine.Reach (fun _ _ _ => True) initial s ∧
      (channel 1).machine.Reach (fun _ _ _ => True) s s' ∧ Outcome.sendCancelled ⟨0, 1, 8⟩ ∈ s.mem.history ∧
      (⟨0, 1, 8⟩ : Msg Nat) ∉ s.mem.dequeued ∧ s.mem.queue.length = 3 ∧ s.ops.countP Op.parked = 1 ∧
      s'.mem.returned = [⟨0, 0, 7⟩, ⟨0, 1, 8⟩, ⟨0, 2, 8⟩] := by
  obtain ⟨s, s', hs, hs', hp⟩ := Machine.exists_reach_of_runs (channel 1).machine (fun _ _ _ => True) (fun _ _ _ => True)
    (fun _ _ _ => true) (fun _ _ _ => true) (fun _ _ _ _ => trivial) (fun _ _ _ _ => trivial) (initial (α := Nat))
    (List.flatten [[.call [.send 7, .send 8, .send 8]], List.replicate 7 (.act 0 .go), [.act 0 .cancel], List.replicate 3 (.act 0 .go)])
    (List.flatten [[.call [.receive, .receive, .receive]], List.replicate 14 (.act 1 .go)])
    (fun s s' => decide (Outcome.sendCancelled ⟨0, 1, 8⟩ ∈ s.mem.history) && decide ((⟨0, 1, 8⟩ : Msg Nat) ∉ s.mem.dequeued) &&
      decide (s.mem.queue.length = 3) && decide (s.ops.countP Op.parked = 1) &&
      decide (s'.mem.returned = [⟨0, 0, 7⟩, ⟨0, 1, 8⟩, ⟨0, 2, 8⟩])) (by decide)
  simp only [Bool.and_eq_true, decide_eq_true_eq] at hp
  obtain ⟨⟨⟨⟨hc, hd⟩, hq⟩, hpark⟩, hr⟩ := hp
  exact ⟨s, s', hs, hs', hc, hd, hq, hpark, hr⟩

end Tonio.Channel
