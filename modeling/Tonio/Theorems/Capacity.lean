import Tonio.Lemmas.Senders

/-!
# Back-pressure of the bounded channel

The place of a message is decided on the counter `len`, outside the mutex; the counter runs ahead of the queue in a `push` and behind it in
a `pull`. It still counts every message, so the messages let through without an event are at most `size`, and a `send` that was
given an event returns after its message was pulled.
-/

namespace Tonio.Channel

open Interleaving

variable {α : Type}

/-- A queued message whose `send` has returned was let through without an event. -/
theorem eq_none_of_sent {size : Nat} {ok : Mem α → List (Op α) → Act (Op α) Choice (List (Cmd α)) → Prop} {s : State (Mem α) (Op α)}
    (h : (channel size).machine.Reach ok initial s) {x : Msg α} {w : Option Nat} (hq : (x, w) ∈ s.mem.queue)
    (hs : Outcome.sent x ∈ s.mem.history) : w = none := by
  have hnd : (s.mem.dequeued ++ s.mem.queue.map Prod.fst).Nodup := (Delivery.reach h).order ▸ nodup_accepted h
  obtain ⟨-, hq', hdisj⟩ := List.nodup_append.mp hnd
  rcases (Senders.reach h).sent x (Or.inl hs) with hd | hn
  · exact absurd rfl (hdisj x hd x (List.mem_map_of_mem (f := Prod.fst) hq))
  · exact congrArg Prod.snd (List.inj_on_of_nodup_map hq' hq hn rfl)

/-- Capacity and back-pressure of the bounded channel, for every size and in every state of every run, of any number of tasks that send,
receive, close, create and drop senders and receivers and are cancelled where they wait, whose messages fit in memory: at most `size`
messages whose `send` has returned are queued; `len` is at least the length of the queue, and at least one where it is counted
down; a parked `send` is resumed only after its own message was pulled, it has its message in the queue, or in the hands of the
receiver that will set its event, or has its event released, and the thread that is about to set its event is the one that returns
its message next. -/
theorem channel_holds_back (size : Nat) [DecidableEq α] (s : State (Mem α) (Op α))
    (h : (channel size).machine.Reach Fits initial s) :
    s.mem.queue.countP (fun e => decide (Outcome.sent e.1 ∈ s.mem.history)) ≤ size ∧
    s.mem.queue.length ≤ s.mem.len ∧ (∀ x w, Op.lenSub x w ∈ s.ops → 1 ≤ s.mem.len) ∧
    (∀ x n s', (channel size).machine.Step s (.exec (.waitSend x n) .go) s' → x ∈ s.mem.dequeued) ∧
    (∀ x n, Op.waitSend x n ∈ s.ops → (x, some n) ∈ s.mem.queue ∨ Op.lenSub x (some n) ∈ s.ops ∨ Released s.mem s.ops n) ∧
    ∀ x n (i : Nat) rest, Op.waitSend x n ∈ s.ops → s.pool[i]? = some (.setEvent (.tx n) :: rest) →
      ∃ rest', rest = .receiveDone x :: rest' := by
  have hC := Capacity.reach h
  have hS := Senders.reach h
  refine ⟨?_, ?_, fun x w hx => ?_, fun x n s' hs => ?_, fun x n => hS.parked n x, fun x n i rest hw hi => ?_⟩
  · have hle : s.mem.queue.countP (fun e => decide (Outcome.sent e.1 ∈ s.mem.history)) ≤ s.mem.queue.countP (·.2.isNone) := by
      refine List.countP_mono_left (fun e he hs => ?_)
      rw [eq_none_of_sent h he (of_decide_eq_true hs)]
      rfl
    have := hC.room
    omega
  · have := hC.len
    omega
  · obtain ⟨A, B, hops⟩ := List.append_of_mem hx
    exact Capacity.one_le_len (hops ▸ hC) rfl
  · rcases hs.ops_eq with ⟨A, op, B, c, new, hop, ho, he, -⟩ | ⟨l, new, hl, -, -⟩
    · cases hop
      have hf : s.mem.flag (.tx n) = true := by
        simp only [Chan.machine, Chan.exec] at he
        split at he
        · assumption
        · cases he
      exact hS.pulled n x (Or.inl hf) (ho ▸ Senders.owns_self rfl)
    · cases hl
  · obtain ⟨y, rest', rfl, hy⟩ := ((Hands.reach h) i _ rest hi).2 n rfl
    obtain rfl : x = y := hy x (Or.inr ⟨_, hw, rfl⟩)
    exact ⟨rest', rfl⟩

/-- A channel of size one: one message was let through, and the `send` of the second waits for it to be pulled. -/
theorem channel_holds_back_two :
    ∃ s : State (Mem Nat) (Op Nat), (channel 1).machine.Reach Fits initial s ∧ s.mem.len = 2 ∧ s.mem.queue.length = 2 ∧
      Outcome.sent ⟨0, 0, 7⟩ ∈ s.mem.history ∧ Op.waitSend ⟨0, 1, 8⟩ 0 ∈ s.ops ∧
      s.mem.queue.countP (fun e => decide (Outcome.sent e.1 ∈ s.mem.history)) ≤ 1 := by
  obtain ⟨s, hs, hp⟩ := Machine.exists_reach_of_run (channel 1).machine Fits
    (fun m ops a => decide (Fits m ops a)) (fun _ _ _ h => of_decide_eq_true h) (initial (α := Nat))
    [.call [.send 7, .send 8], .act 0 .go, .act 0 .go, .act 0 .go, .act 0 .go, .act 0 .go, .act 0 .go, .act 0 .go]
    (fun s => decide (s.mem.len = 2) && decide (s.mem.queue.length = 2) && decide (Outcome.sent ⟨0, 0, 7⟩ ∈ s.mem.history) &&
      decide (Op.waitSend ⟨0, 1, 8⟩ 0 ∈ s.ops)) (by decide)
  simp only [Bool.and_eq_true, decide_eq_true_eq] at hp
  obtain ⟨⟨⟨hl, hq⟩, hsent⟩, hw⟩ := hp
  exact ⟨s, hs, hl, hq, hsent, hw, (channel_holds_back 1 s hs).1⟩

end Tonio.Channel
