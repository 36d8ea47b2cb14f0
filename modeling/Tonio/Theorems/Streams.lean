import Tonio.Lemmas.Streams

/-!
# `send_all` writes exactly its data

The two loops differ: one calls a coroutine that sends once, which tries before it asks for readiness and whose slice is made anew for each
call; the other has the write in an inner loop that leaves its slice alone until a write is accepted. What both do is the same (`Attempts`):
every write starts where the accepted bytes end.
-/

namespace Tonio.Streams

open Interleaving

variable {β : Type} {data : List β}

/-- `SocketStream.send_all` in every state of every run. -/
theorem socket_progress {eof closed lockW : Bool} {s : State (Mem β × List Outcome) (SocketOp β)}
    (h : (socketStream data).Reach (fun _ _ _ => True) (start eof closed lockW .sendAll) s) :
    Progress data (SocketOp.place data) s.mem s.ops :=
  Progress.reach h rfl (fun _ _ _ _ _ _ hp he => SocketOp.exec_progress hp he)

/-- `FdStream.send_all` in every state of every run. -/
theorem fd_progress {eof closed lockW : Bool} {s : State (Mem β × List Outcome) (FdOp β)}
    (h : (fdStream data).Reach (fun _ _ _ => True) (start eof closed lockW .sendAll) s) : Progress data (FdOp.place data) s.mem s.ops :=
  Progress.reach h rfl (fun _ _ _ _ _ _ hp he => FdOp.exec_progress hp he)

section

variable {O : Type} {P : Machine (Mem β × List Outcome) O Choice Empty} {s₀ : State (Mem β × List Outcome) O} {place writes : O → Nat → Prop}

/-- The outcomes that the writes of a call can have are those of the writes of a buffer. -/
theorem exists_record_iff (hw : Writer P s₀ data.length writes)
    (hp : ∀ {s}, P.Reach (fun _ _ _ => True) s₀ s → Progress data place s.mem s.ops) (os : List Outcome) :
    (∃ s, P.Reach (fun _ _ _ => True) s₀ s ∧ s.mem.2 = os) ↔ ∃ sent failed, Attempts data.length os sent failed := by
  constructor
  · rintro ⟨s, hr, rfl⟩
    exact (hp hr).attempts.1
  · rintro ⟨sent, failed, ha⟩
    exact hw.exists_reach ha

/-- And those that they can have when the call returns are the ones that write all of it. -/
theorem exists_returned_iff (hw : Writer P s₀ data.length writes)
    (hp : ∀ {s}, P.Reach (fun _ _ _ => True) s₀ s → Progress data place s.mem s.ops) (os : List Outcome) :
    (∃ s, P.Reach (fun _ _ _ => True) s₀ s ∧ s.mem.2 = os ∧ s.mem.1.result = some .returned) ↔
      Attempts data.length os data.length none := by
  constructor
  · rintro ⟨s, hr, rfl, hret⟩
    exact (hp hr).attempts.2 hret
  · intro ha
    obtain ⟨m, pool, hr, hret⟩ := (hw.performs ha).2.1 rfl rfl
    exact ⟨_, hr, rfl, hret⟩

end

/-- `send_all` writes exactly its data, for every data, and for every answer of the system to each write and each readiness wait.
1. In every state of every run of `SocketStream.send_all`, whether the call goes on, has returned or has raised, what the system has accepted
   is a prefix of the data; and it is the data when the call has returned.
2. The same for `FdStream.send_all`.
3. A call of each in which the writes had the same outcomes have written the same bytes.
4. On streams that let them write at all, every sequence of outcomes that the writes of one can have is one that the writes of the other can
   have, and with it the one returns when the other does. -/
theorem send_all_writes_exactly (data : List β) (eof closed lockW : Bool) :
    (∀ s, (socketStream data).Reach (fun _ _ _ => True) (start eof closed lockW .sendAll) s →
      s.mem.1.accepted <+: data ∧ (s.mem.1.result = some .returned → s.mem.1.accepted = data)) ∧
    (∀ t, (fdStream data).Reach (fun _ _ _ => True) (start eof closed lockW .sendAll) t →
      t.mem.1.accepted <+: data ∧ (t.mem.1.result = some .returned → t.mem.1.accepted = data)) ∧
    (∀ s t, (socketStream data).Reach (fun _ _ _ => True) (start eof closed lockW .sendAll) s →
      (fdStream data).Reach (fun _ _ _ => True) (start eof closed lockW .sendAll) t →
      s.mem.2 = t.mem.2 → s.mem.1.accepted = t.mem.1.accepted) ∧
    (∀ os,
      ((∃ s, (socketStream data).Reach (fun _ _ _ => True) (start false closed lockW .sendAll) s ∧ s.mem.2 = os) ↔
        ∃ t, (fdStream data).Reach (fun _ _ _ => True) (start eof false false .sendAll) t ∧ t.mem.2 = os) ∧
      ((∃ s, (socketStream data).Reach (fun _ _ _ => True) (start false closed lockW .sendAll) s ∧ s.mem.2 = os ∧
          s.mem.1.result = some .returned) ↔
        ∃ t, (fdStream data).Reach (fun _ _ _ => True) (start eof false false .sendAll) t ∧ t.mem.2 = os ∧
          t.mem.1.result = some .returned)) := by
  refine ⟨fun s hs => ?_, fun t ht => ?_, fun s t hs ht hrec => ?_, fun os => ⟨?_, ?_⟩⟩
  · obtain ⟨hpre, hall, -⟩ := (socket_progress hs).exact
    exact ⟨hpre, hall⟩
  · obtain ⟨hpre, hall, -⟩ := (fd_progress ht).exact
    exact ⟨hpre, hall⟩
  · obtain ⟨-, -, hsum⟩ := (socket_progress hs).exact
    obtain ⟨-, -, htum⟩ := (fd_progress ht).exact
    rw [hsum, htum, hrec]
  · exact (exists_record_iff (socketWriter data closed lockW) socket_progress os).trans
      (exists_record_iff (fdWriter data eof) fd_progress os).symm
  · exact (exists_returned_iff (socketWriter data closed lockW) socket_progress os).trans
      (exists_returned_iff (fdWriter data eof) fd_progress os).symm

/-- Three bytes over a socket whose first write would block, and which then takes two bytes and, after an interruption, the last one. -/
theorem send_all_writes_exactly_three :
    ∃ s : State (Mem Nat × List Outcome) (SocketOp Nat),
      (socketStream [7, 8, 9]).Reach (fun _ _ _ => True) (start false false false .sendAll) s ∧
      s.mem.2 = [.wouldBlock, .accepted 2, .interrupted, .accepted 1] ∧ s.mem.1.result = some .returned ∧ s.mem.1.accepted = [7, 8, 9] := by
  obtain ⟨s, hs, hp⟩ := Machine.exists_reach_of_run (socketStream [7, 8, 9]) (fun _ _ _ => True) (fun _ _ _ => true)
    (fun _ _ _ _ => trivial) (start false false false .sendAll)
    [.act 0 .go, .act 0 .go, .act 0 .go, .act 0 (.wrote .wouldBlock), .act 0 .waiter, .act 0 .resumed, .act 0 .ready,
      .act 0 (.wrote (.accepted 2)), .act 0 .go, .act 0 .go, .act 0 .go, .act 0 (.wrote .interrupted), .act 0 .ready,
      .act 0 (.wrote (.accepted 1)), .act 0 .go, .act 0 .go]
    (fun s => decide (s.mem.2 = [Outcome.wouldBlock, Outcome.accepted 2, Outcome.interrupted, Outcome.accepted 1]) &&
      decide (s.mem.1.result = some Result.returned)) (by decide)
  simp only [Bool.and_eq_true, decide_eq_true_eq] at hp
  exact ⟨s, hs, hp.1, hp.2, ((send_all_writes_exactly [7, 8, 9] false false false).1 s hs).2 hp.2⟩

end Tonio.Streams
