import Tonio.Lemmas.Closing

/-!
# The senders of a channel

A sender of the bounded channel that finds `len` at `size` allocates an event, queues it beside its message, and waits for it.
The event belongs to the message from then on (`Owns`): it travels with it through the queue, the pull that pops the message sets it,
and nobody else does. So a parked `send` is resumed only after its own message was pulled (`Senders`), and as `len` counts the
messages that are queued, are about to be queued, or were popped and are still counted, no more than `size` messages that
were let through are queued (`Capacity`).
-/

namespace Tonio.Channel

open Interleaving

variable {α : Type}

/-! ## The cases of a step -/

/-- The operations of a `send` that has taken a place, and those that give it back. -/
def Op.sender : Op α → Bool
  | .enqueue _ _ | .waitSend _ _ | .lenSub _ _ | .setEvent (.tx _) | .sendDone _ => true
  | _ => false

/-- What a step can do to the senders: nothing, except that a `send` may return or be cancelled; take a place, with or without an event;
queue a message; resume a parked `send`; pop a message; give its place back; set the event of a sender. -/
inductive Sends (P : Chan) (m : Mem α) : Op α → Mem α → List (Op α) → Prop where
  | idle {op : Op α} {m' : Mem α} {new : List (Op α)} (queue : m'.queue = m.queue) (dequeued : m'.dequeued = m.dequeued)
      (accepted : m'.accepted = m.accepted) (len : m'.len = m.len) (next : m'.txNext = m.txNext)
      (flag : ∀ n, m'.flag (.tx n) = m.flag (.tx n))
      (sent : ∀ x, Outcome.sent x ∈ m'.history → Outcome.sent x ∈ m.history ∨ op = .sendDone x)
      (hop : op.sender = true → (∃ x, op = .sendDone x) ∨ ∃ x n, op = .waitSend x n)
      (hnew : ∀ op' ∈ new, op'.sender = false) : Sends P m op m' new
  | room {size : Nat} (x : Msg α) (hs : P.size = some size) (h : m.len < size) :
      Sends P m (.push x) { m with len := fetchAdd m.len } [.enqueue x none]
  | full {size : Nat} (x : Msg α) (hs : P.size = some size) (h : size ≤ m.len) :
      Sends P m (.push x) { m with len := fetchAdd m.len, txNext := m.txNext + 1 } [.enqueue x (some m.txNext)]
  | enqueue {op : Op α} (x : Msg α) (wantPull : Option Nat)
      (hop : op = .enqueue x wantPull ∨ (op = .push x ∧ wantPull = none ∧ P.size = none)) :
      Sends P m op (m.enqueue x wantPull).1 (m.enqueue x wantPull).2
  | resume (x : Msg α) (n : Nat) (hf : m.flag (.tx n) = true) : Sends P m (.waitSend x n) m [.sendDone x]
  | pull {op : Op α} {x : Msg α} {wantPull : Option Nat} {queue : List (Msg α × Option Nat)}
      (hop : op = .pullFast ∨ op = .pullSlow) (hq : m.queue = (x, wantPull) :: queue) :
      Sends P m op { m with queue := queue, dequeued := m.dequeued ++ [x] }
        [if P.size.isSome then .lenSub x wantPull else .receiveDone x]
  | lenSub (x : Msg α) (wantPull : Option Nat) :
      Sends P m (.lenSub x wantPull) { m with len := fetchSub m.len }
        ((wantPull.map (fun n => Op.setEvent (.tx n))).toList ++ [.receiveDone x])
  | set (n : Nat) : Sends P m (.setEvent (.tx n)) { m with flag := Function.update m.flag (.tx n) true } []

/-- A step that touches nothing of the senders. -/
theorem Sends.of_keep {P : Chan} {m m' : Mem α} {op : Op α} {new : List (Op α)} (hop : op.sender = false)
    (hnew : ∀ op' ∈ new, op'.sender = false) (hq : m'.queue = m.queue) (hd : m'.dequeued = m.dequeued)
    (ha : m'.accepted = m.accepted) (hl : m'.len = m.len) (hn : m'.txNext = m.txNext)
    (hf : ∀ n, m'.flag (.tx n) = m.flag (.tx n)) (hh : ∀ x, Outcome.sent x ∈ m'.history → Outcome.sent x ∈ m.history) :
    Sends P m op m' new :=
  .idle hq hd ha hl hn hf (fun x hx => Or.inl (hh x hx)) (fun h => absurd h (by simp [hop])) hnew

theorem exec_sends {P : Chan} {m m' : Mem α} {op : Op α} {c : Choice} {new : List (Op α)}
    (h : P.exec m op c = some (m', new)) : Sends P m op m' new := by
  cases exec_move h with
  | sendCancelled x n =>
    exact .idle rfl rfl rfl rfl rfl (fun _ => rfl) (fun y hy => Or.inl (by simpa [Mem.ended] using hy))
      (fun _ => Or.inr ⟨x, n, rfl⟩) (List.forall_mem_nil _)
  | sendDone x =>
    refine .idle rfl rfl rfl rfl rfl (fun _ => rfl) (fun y hy => ?_) (fun _ => Or.inl ⟨x, rfl⟩) (List.forall_mem_nil _)
    rcases List.mem_append.mp hy with hy | hy
    · exact Or.inl hy
    · obtain rfl : y = x := by simpa using hy
      exact Or.inr rfl
  | pushed x hs => exact .enqueue x none (Or.inr ⟨rfl, rfl, hs⟩)
  | room x hs hl => exact .room x hs hl
  | full x hs hl => exact .full x hs hl
  | enqueue x wantPull => exact .enqueue x wantPull (Or.inl rfl)
  | resume x n hf => exact .resume x n hf
  | pull hop hq => exact .pull hop hq
  | lenSub x wantPull => exact .lenSub x wantPull
  | setEvent e =>
    cases e with
    | tx n => exact .set n
    | rx n =>
      exact .of_keep rfl (List.forall_mem_nil _) rfl rfl rfl rfl rfl (fun k => Function.update_of_ne (show Ev.tx k ≠ Ev.rx n by simp) true m.flag)
        (fun _ hy => hy)
  -- what is left touches no sender: it ends another call, or changes what no `send` looks at
  | receiveRaised hop =>
    rcases hop with rfl | rfl <;>
      exact .of_keep rfl (List.forall_mem_nil _) rfl rfl rfl rfl rfl (fun _ => rfl) (fun y hy => by simpa [Mem.ended] using hy)
  | receiveCancelled | sendRaised | receiveDone =>
    exact .of_keep rfl (List.forall_mem_nil _) rfl rfl rfl rfl rfl (fun _ => rfl) (fun y hy => by simpa [Mem.ended] using hy)
  | dropSender | dropReceiver =>
    exact .of_keep rfl (by split <;> simp [Op.sender]) rfl rfl rfl rfl rfl (fun _ => rfl) (fun _ hy => hy)
  | newSender | newReceiver | closeAgain | close | takeWaiters | send | receive | again | park | wake =>
    exact .of_keep rfl (by simp [Op.sender]) rfl rfl rfl rfl rfl (fun _ => rfl) (fun _ hy => hy)

/-- Nothing of a program belongs to a `send` that has taken a place. -/
theorem program_not_sender {op : Op α} {t k : Nat} {cmds : List (Cmd α)} (h : op ∈ program t k cmds) : op.sender = false := by
  induction cmds generalizing k with
  | nil => cases h
  | cons cmd cmds ih =>
    cases cmd <;> simp only [program, List.mem_cons] at h <;> rcases h with rfl | h <;>
      first | exact ih h | rfl

/-! ## A `send` that ends has queued its message -/

/-- A `send` that has returned, or is about to, or waits, has queued its message. -/
structure Sent (m : Mem α) (ops : List (Op α)) : Prop where
  returned : ∀ x, Outcome.sent x ∈ m.history → x ∈ m.accepted
  pending : ∀ x, (Op.sendDone x ∈ ops ∨ ∃ n, Op.waitSend x n ∈ ops) → x ∈ m.accepted

/-- Messages once queued stay on record. -/
theorem Sends.accepted {P : Chan} {m m' : Mem α} {op : Op α} {new : List (Op α)} (h : Sends P m op m' new) :
    ∀ x ∈ m.accepted, x ∈ m'.accepted := by
  intro x hx
  cases h with
  | idle hq hd ha => rw [ha]; exact hx
  | enqueue y wantPull => exact List.mem_append_left _ hx
  | room | full | resume | pull | lenSub | set => exact hx

/-- The end of a `send`, and its wait, follow from the queueing of its message. -/
theorem Sends.pending {P : Chan} {m m' : Mem α} {op : Op α} {new : List (Op α)} (h : Sends P m op m' new) {x : Msg α}
    (hx : Op.sendDone x ∈ new ∨ ∃ n, Op.waitSend x n ∈ new) : (∃ n, op = .waitSend x n) ∨ x ∈ m'.accepted := by
  cases h with
  | idle hq hd ha hl hn hf hs hop hnew =>
    rcases hx with hx | ⟨n, hx⟩ <;> cases hnew _ hx
  | enqueue y wantPull =>
    have hy : x = y := by
      cases hw : m.waiters.head? <;> cases wantPull <;> simp_all [Mem.enqueue]
    subst hy
    exact Or.inr (List.mem_append_right _ (List.mem_singleton_self _))
  | resume y n =>
    obtain rfl : x = y := by simpa using hx
    exact Or.inl ⟨n, rfl⟩
  | pull => simp [apply_ite] at hx
  | lenSub y wantPull => cases wantPull <;> simp at hx
  | room | full | set => simp at hx

/-- In every state of every run. -/
theorem Sent.reach {P : Chan} {ok : Mem α → List (Op α) → Act (Op α) Choice (List (Cmd α)) → Prop} {s : State (Mem α) (Op α)}
    (h : P.machine.Reach ok initial s) : Sent s.mem s.ops := by
  refine h.invariant (I := Sent) ⟨fun x hx => absurd hx List.not_mem_nil, fun x hx => by simp [initial, State.ops] at hx⟩ ?_ ?_
  · intro m A op B c m' new hI _ he
    have hs := exec_sends he
    refine ⟨fun x hx => ?_, fun x hx => ?_⟩
    · rcases exec_history he with hh | ⟨o, ho, rfl, rfl⟩
      · exact hs.accepted x (hI.returned x (hh ▸ hx))
      · rcases List.mem_append.mp hx with hx | hx
        · exact hI.returned x hx
        · obtain rfl := List.mem_singleton.mp hx
          exact hI.pending x (Or.inl (by simp [show op = .sendDone x from ho]))
    · have hcases : (Op.sendDone x ∈ new ∨ ∃ n, Op.waitSend x n ∈ new) ∨
          Op.sendDone x ∈ A ++ op :: B ∨ ∃ n, Op.waitSend x n ∈ A ++ op :: B := by
        rcases hx with hx | ⟨n, hx⟩
        · exact (Machine.mem_cases op hx).imp Or.inl Or.inl
        · exact (Machine.mem_cases op hx).imp (fun h => Or.inr ⟨n, h⟩) (fun h => Or.inr ⟨n, h⟩)
      rcases hcases with hx | hx
      · rcases hs.pending hx with ⟨n, rfl⟩ | hx
        · exact hs.accepted x (hI.pending x (Or.inr ⟨n, by simp⟩))
        · exact hx
      · exact hs.accepted x (hI.pending x hx)
  · intro m ops cmds m' new hI _ hc
    obtain ⟨rfl, rfl⟩ := Prod.mk.inj (Option.some.inj hc)
    refine ⟨hI.returned, fun x hx => hI.pending x ?_⟩
    rcases hx with hx | ⟨n, hx⟩
    · exact Or.inl ((List.mem_append.mp hx).resolve_right (fun hy => by cases program_not_sender hy))
    · exact Or.inr ⟨n, (List.mem_append.mp hx).resolve_right (fun hy => by cases program_not_sender hy)⟩

/-! ## The events of the senders -/

/-- The message of an operation, and the event that stands beside it. -/
def Op.owns : Op α → Option (Msg α × Nat)
  | .enqueue x (some n) | .waitSend x n | .lenSub x (some n) => some (x, n)
  | _ => none

/-- An event belongs to the message it stands beside: in the queue, before it is queued, after it is popped, and where the sender
waits. -/
def Owns (m : Mem α) (ops : List (Op α)) (x : Msg α) (n : Nat) : Prop :=
  (x, some n) ∈ m.queue ∨ ∃ op ∈ ops, op.owns = some (x, n)

/-- The event of a sender is set or about to be set. -/
def Released (m : Mem α) (ops : List (Op α)) (n : Nat) : Prop := m.flag (.tx n) = true ∨ Op.setEvent (.tx n) ∈ ops

/-- The events of the senders: each belongs to one message and is set after that is popped; a parked `send` has its message in the queue
or in the hands of a receiver that will set its event; a `send` that is over has its message popped, or queued with no event. -/
structure Senders (m : Mem α) (ops : List (Op α)) : Prop where
  fresh : ∀ n, Released m ops n ∨ (∃ x, Owns m ops x n) → n < m.txNext
  single : ∀ n x y, Owns m ops x n → Owns m ops y n → x = y
  pulled : ∀ n x, Released m ops n → Owns m ops x n → x ∈ m.dequeued
  parked : ∀ n x, Op.waitSend x n ∈ ops → (x, some n) ∈ m.queue ∨ Op.lenSub x (some n) ∈ ops ∨ Released m ops n
  sent : ∀ x, Outcome.sent x ∈ m.history ∨ Op.sendDone x ∈ ops → x ∈ m.dequeued ∨ (x, none) ∈ m.queue

namespace Senders

variable {P : Chan} {m m' : Mem α} {A B new : List (Op α)} {op : Op α}

/-- An operation that belongs to no `send` owns nothing. -/
theorem owns_eq_none (h : op.sender = false) : op.owns = none := by
  cases op <;> first | rfl | cases h

theorem owns_self {x : Msg α} {n : Nat} (h : op.owns = some (x, n)) : Owns m (A ++ op :: B) x n :=
  Or.inr (Machine.exists_mem_before.mpr (Or.inl h))

/-- What is owned after a step was owned before, but for the event a sender allocates. -/
theorem owns_step (h : Sends P m op m' new) {x : Msg α} {n : Nat} (ho : Owns m' (A ++ (new ++ B)) x n) :
    Owns m (A ++ op :: B) x n ∨ (op = .push x ∧ n = m.txNext ∧ m'.txNext = m.txNext + 1) := by
  have hbeside : (∃ op' ∈ A ++ B, op'.owns = some (x, n)) → Owns m (A ++ op :: B) x n := fun hx =>
    Or.inr (Machine.exists_mem_before.mpr (Or.inr hx))
  have ho' : (x, some n) ∈ m'.queue ∨ (∃ op' ∈ new, op'.owns = some (x, n)) ∨ ∃ op' ∈ A ++ B, op'.owns = some (x, n) :=
    ho.imp_right Machine.exists_mem_after.mp
  rcases ho' with hq | hnew | hx
  · -- a message is queued by the operation that held it
    cases h with
    | idle hqueue => exact Or.inl (Or.inl (hqueue ▸ hq))
    | enqueue y wantPull hop =>
      rcases List.mem_append.mp hq with hq | hq
      · exact Or.inl (Or.inl hq)
      · obtain ⟨rfl, rfl⟩ : x = y ∧ wantPull = some n := by simpa [eq_comm] using hq
        rcases hop with rfl | ⟨-, hn, -⟩
        · exact Or.inl (owns_self rfl)
        · cases hn
    | pull hop hqueue =>
      refine Or.inl (Or.inl ?_)
      rw [hqueue]
      exact List.mem_cons_of_mem _ hq
    | room | full | resume | lenSub | set => exact Or.inl (Or.inl hq)
  · obtain ⟨op', hop', hn⟩ := hnew
    cases h with
    | idle _ _ _ _ _ _ _ _ hnew =>
      rw [owns_eq_none (hnew op' hop')] at hn
      cases hn
    | room y =>
      obtain rfl := List.mem_singleton.mp hop'
      cases hn
    | full y =>
      obtain rfl := List.mem_singleton.mp hop'
      obtain ⟨rfl, rfl⟩ : y = x ∧ m.txNext = n := by simpa [Op.owns] using hn
      exact Or.inr ⟨rfl, rfl, rfl⟩
    | enqueue y wantPull hop =>
      have hw : wantPull = some n ∧ y = x := by
        cases hw : m.waiters.head? <;> cases wantPull <;> simp_all [Mem.enqueue] <;> rcases hop' with rfl | rfl <;>
          simp_all [Op.owns]
      obtain ⟨rfl, rfl⟩ := hw
      rcases hop with rfl | ⟨-, hn, -⟩
      · exact Or.inl (owns_self rfl)
      · cases hn
    | resume y k =>
      obtain rfl := List.mem_singleton.mp hop'
      cases hn
    | @pull _ y wantPull queue hop hqueue =>
      have hw : wantPull = some n ∧ y = x := by
        obtain rfl := List.mem_singleton.mp hop'
        split at hn
        · cases wantPull with
          | none => cases hn
          | some k => simpa [Op.owns, and_comm] using hn
        · cases hn
      obtain ⟨rfl, rfl⟩ := hw
      exact Or.inl (Or.inl (by simp [hqueue]))
    | lenSub y wantPull =>
      cases wantPull <;> simp at hop'
      · rw [hop'] at hn
        cases hn
      · rcases hop' with rfl | rfl <;> cases hn
    | set => cases hop'
  · exact Or.inl (hbeside hx)

/-- The event of a sender is about to be set by the receiver that holds its message, which returns the message next. -/
theorem setEvent_mem (h : Sends P m op m' new) {n : Nat} (hn : Op.setEvent (.tx n) ∈ new) :
    ∃ x, op = .lenSub x (some n) ∧ new = [.setEvent (.tx n), .receiveDone x] := by
  cases h with
  | idle _ _ _ _ _ _ _ _ hnew => cases hnew _ hn
  | enqueue y wantPull => cases hw : m.waiters.head? <;> cases wantPull <;> simp [Mem.enqueue, hw] at hn
  | pull => simp [apply_ite] at hn
  | lenSub y wantPull =>
    cases wantPull with
    | none => simp at hn
    | some k =>
      obtain rfl : n = k := by simpa using hn
      exact ⟨y, rfl, rfl⟩
  | room | full | resume | set => simp at hn

/-- An event is released by the receiver that holds its message. -/
theorem released_step (h : Sends P m op m' new) {n : Nat} (hr : Released m' (A ++ (new ++ B)) n) :
    Released m (A ++ op :: B) n ∨ ∃ x, op = .lenSub x (some n) := by
  rcases hr with hf | hx
  · refine Or.inl ?_
    cases h with
    | idle _ _ _ _ _ hflag => exact Or.inl (hflag n ▸ hf)
    | set k =>
      by_cases hk : n = k
      · subst hk
        exact Or.inr (by simp)
      · exact Or.inl ((Function.update_of_ne (show Ev.tx n ≠ Ev.tx k by simpa using hk) true m.flag).symm.trans hf)
    | room | full | enqueue | resume | pull | lenSub => exact Or.inl hf
  · rcases Machine.mem_cases op hx with hx | hx
    · obtain ⟨x, hop, -⟩ := setEvent_mem h hx
      exact Or.inr ⟨x, hop⟩
    · exact Or.inl (Or.inr hx)

/-- Events stay allocated, and messages popped. -/
theorem grows (h : Sends P m op m' new) : m.txNext ≤ m'.txNext ∧ ∀ x ∈ m.dequeued, x ∈ m'.dequeued := by
  cases h with
  | idle _ hd _ _ hn => exact ⟨Nat.le_of_eq hn.symm, fun x hx => hd ▸ hx⟩
  | full => exact ⟨Nat.le_succ _, fun _ hx => hx⟩
  | pull => exact ⟨Nat.le_refl _, fun _ hx => List.mem_append_left _ hx⟩
  | room | enqueue | resume | lenSub | set => exact ⟨Nat.le_refl _, fun _ hx => hx⟩

theorem step_fresh (h : Senders m (A ++ op :: B)) (hs : Sends P m op m' new) (n : Nat)
    (hn : Released m' (A ++ (new ++ B)) n ∨ ∃ x, Owns m' (A ++ (new ++ B)) x n) : n < m'.txNext := by
  have hle := (grows hs).1
  rcases hn with hr | ⟨x, ho⟩
  · rcases released_step hs hr with hr | ⟨x, rfl⟩
    · exact Nat.lt_of_lt_of_le (h.fresh n (Or.inl hr)) hle
    · exact Nat.lt_of_lt_of_le (h.fresh n (Or.inr ⟨x, owns_self rfl⟩)) hle
  · rcases owns_step hs ho with ho | ⟨-, rfl, hnext⟩
    · exact Nat.lt_of_lt_of_le (h.fresh n (Or.inr ⟨x, ho⟩)) hle
    · omega

theorem step_single (h : Senders m (A ++ op :: B)) (hs : Sends P m op m' new) (n : Nat) (x y : Msg α)
    (hx : Owns m' (A ++ (new ++ B)) x n) (hy : Owns m' (A ++ (new ++ B)) y n) : x = y := by
  rcases owns_step hs hx with hx | ⟨hpx, hnx, -⟩ <;> rcases owns_step hs hy with hy | ⟨hpy, hny, -⟩
  · exact h.single n x y hx hy
  · exact absurd (h.fresh n (Or.inr ⟨x, hx⟩)) (by omega)
  · exact absurd (h.fresh n (Or.inr ⟨y, hy⟩)) (by omega)
  · exact Op.push.inj (hpx.symm.trans hpy)

theorem step_pulled (h : Senders m (A ++ op :: B)) (hD : Delivery m (A ++ op :: B)) (hs : Sends P m op m' new) (n : Nat) (x : Msg α)
    (hr : Released m' (A ++ (new ++ B)) n) (hx : Owns m' (A ++ (new ++ B)) x n) : x ∈ m'.dequeued := by
  refine (grows hs).2 x ?_
  rcases released_step hs hr with hr | ⟨y, rfl⟩
  · rcases owns_step hs hx with hx | ⟨-, rfl, -⟩
    · exact h.pulled n x hr hx
    · exact absurd (h.fresh _ (Or.inl hr)) (Nat.lt_irrefl _)
  · -- the receiver about to set the event holds the message it belongs to
    rcases owns_step hs hx with hx | ⟨hop, -, -⟩
    · obtain rfl : y = x := h.single n y x (owns_self rfl) hx
      exact hD.returned.subset (by simp [Op.inFlight])
    · cases hop

/-- What is queued is queued still, or was popped. -/
theorem queue_step (h : Sends P m op m' new) {x : Msg α} {w : Option Nat} (hx : (x, w) ∈ m.queue) :
    (x, w) ∈ m'.queue ∨ (x ∈ m'.dequeued ∧ (P.size.isSome → Op.lenSub x w ∈ new)) := by
  cases h with
  | idle hq => exact Or.inl (hq ▸ hx)
  | enqueue => exact Or.inl (List.mem_append_left _ hx)
  | pull hop hq =>
    rw [hq] at hx
    rcases List.mem_cons.mp hx with hx | hx
    · obtain ⟨rfl, rfl⟩ := Prod.mk.inj hx
      exact Or.inr ⟨List.mem_append_right _ (List.mem_singleton_self _), fun hsome => by simp [hsome]⟩
    · exact Or.inl hx
  | room | full | resume | lenSub | set => exact Or.inl hx

/-- The receiver that holds a message sets its event. -/
theorem released_mono (h : Sends P m op m' new) {n : Nat} :
    (Released m (A ++ op :: B) n → Released m' (A ++ (new ++ B)) n) ∧
    ∀ x, op = .lenSub x (some n) → Released m' (A ++ (new ++ B)) n := by
  refine ⟨fun hr => ?_, fun x hop => ?_⟩
  · have hflag : m.flag (.tx n) = true ∨ op = .setEvent (.tx n) → m'.flag (.tx n) = true := by
      intro hf
      cases h with
      | idle _ _ _ _ _ hflag _ hop =>
        rw [hflag]
        refine hf.resolve_right ?_
        rintro rfl
        rcases hop rfl with ⟨x, hx⟩ | ⟨x, k, hx⟩ <;> cases hx
      | set k =>
        by_cases hk : n = k
        · subst hk
          exact Function.update_self ..
        · exact (Function.update_of_ne (show Ev.tx n ≠ Ev.tx k by simpa using hk) true m.flag).trans
            (hf.resolve_right (by simpa [eq_comm] using hk))
      | enqueue y w hop => exact hf.resolve_right (by rcases hop with rfl | ⟨rfl, -, -⟩ <;> simp)
      | pull hop => exact hf.resolve_right (by rcases hop with rfl | rfl <;> simp)
      | room | full | resume | lenSub => exact hf.resolve_right (by simp)
    rcases hr with hf | hx
    · exact Or.inl (hflag (Or.inl hf))
    · by_cases hop : op = .setEvent (.tx n)
      · exact Or.inl (hflag (Or.inr hop))
      · exact Or.inr (Machine.mem_keep hx (Ne.symm hop))
  · subst hop
    cases h with
    | idle _ _ _ _ _ _ _ hop => rcases hop rfl with ⟨y, hy⟩ | ⟨y, k, hy⟩ <;> cases hy
    | lenSub => exact Or.inr (Machine.mem_new (by simp))
    | enqueue y w hop => rcases hop with hop | ⟨hop, -, -⟩ <;> cases hop
    | pull hop => rcases hop with hop | hop <;> cases hop

theorem step_parked (h : Senders m (A ++ op :: B)) (hs : Sends P m op m' new) (hsize : P.size.isSome) (n : Nat) (x : Msg α)
    (hw : Op.waitSend x n ∈ A ++ (new ++ B)) :
    (x, some n) ∈ m'.queue ∨ Op.lenSub x (some n) ∈ A ++ (new ++ B) ∨ Released m' (A ++ (new ++ B)) n := by
  rcases Machine.mem_cases op hw with hw | hw
  · -- a `send` starts to wait when its message is queued
    cases hs with
    | idle _ _ _ _ _ _ _ _ hnew => cases hnew _ hw
    | enqueue y wantPull =>
      have hy : wantPull = some n ∧ y = x := by
        cases hh : m.waiters.head? <;> cases wantPull <;> simp_all [Mem.enqueue]
      obtain ⟨rfl, rfl⟩ := hy
      exact Or.inl (List.mem_append_right _ (List.mem_singleton_self _))
    | pull => simp [apply_ite] at hw
    | lenSub y wantPull => cases wantPull <;> simp at hw
    | room | full | resume | set => simp at hw
  · rcases h.parked n x hw with hq | hl | hr
    · rcases queue_step hs hq with hq | ⟨-, hl⟩
      · exact Or.inl hq
      · exact Or.inr (Or.inl (Machine.mem_new (hl hsize)))
    · by_cases hop : op = .lenSub x (some n)
      · exact Or.inr (Or.inr ((released_mono hs).2 x hop))
      · exact Or.inr (Or.inl (Machine.mem_keep hl (Ne.symm hop)))
    · exact Or.inr (Or.inr ((released_mono hs).1 hr))

theorem step_sent (h : Senders m (A ++ op :: B)) (hs : Sends P m op m' new) (x : Msg α)
    (hx : Outcome.sent x ∈ m'.history ∨ Op.sendDone x ∈ A ++ (new ++ B)) : x ∈ m'.dequeued ∨ (x, none) ∈ m'.queue := by
  have hold : Outcome.sent x ∈ m.history ∨ Op.sendDone x ∈ A ++ op :: B → x ∈ m'.dequeued ∨ (x, none) ∈ m'.queue := by
    intro hx
    rcases h.sent x hx with hd | hq
    · exact Or.inl ((grows hs).2 x hd)
    · exact (queue_step hs hq).symm.imp_left And.left
  rcases hx with hx | hx
  · refine hold ?_
    cases hs with
    | idle _ _ _ _ _ _ hsent => exact (hsent x hx).imp_right (fun hop => by simp [hop])
    | room | full | enqueue | resume | pull | lenSub | set => exact Or.inl hx
  · rcases Machine.mem_cases op hx with hx | hx
    · -- a `send` ends when its message is queued with no event, or its event is set
      cases hs with
      | idle _ _ _ _ _ _ _ _ hnew => cases hnew _ hx
      | enqueue y wantPull =>
        have hy : wantPull = none ∧ y = x := by
          cases hh : m.waiters.head? <;> cases wantPull <;> simp_all [Mem.enqueue]
        obtain ⟨rfl, rfl⟩ := hy
        exact Or.inr (List.mem_append_right _ (List.mem_singleton_self _))
      | resume y n hf =>
        obtain rfl : x = y := by simpa using hx
        exact Or.inl (h.pulled n x (Or.inl hf) (owns_self rfl))
      | pull => simp [apply_ite] at hx
      | lenSub y wantPull => cases wantPull <;> simp at hx
      | room | full | set => simp at hx
    · exact hold (Or.inr hx)

/-- A new task owns no event. -/
theorem owns_call {cmds : List (Cmd α)} {ops : List (Op α)} {x : Msg α} {n : Nat}
    (h : Owns { m with tasks := m.tasks + 1 } (ops ++ program m.tasks 0 cmds) x n) : Owns m ops x n := by
  refine h.imp_right ?_
  rintro ⟨op, hop, hx⟩
  rcases List.mem_append.mp hop with hop | hop
  · exact ⟨op, hop, hx⟩
  · rw [owns_eq_none (program_not_sender hop)] at hx
    cases hx

/-- A new task adds nothing to what the senders do. -/
theorem call {ops : List (Op α)} (h : Senders m ops) (cmds : List (Cmd α)) :
    Senders { m with tasks := m.tasks + 1 } (ops ++ program m.tasks 0 cmds) := by
  have hold : ∀ {op : Op α}, op.sender = true → op ∈ ops ++ program m.tasks 0 cmds → op ∈ ops := by
    intro op hs hop
    refine (List.mem_append.mp hop).resolve_right (fun hp => ?_)
    rw [program_not_sender hp] at hs
    cases hs
  have hrel : ∀ {n}, Released { m with tasks := m.tasks + 1 } (ops ++ program m.tasks 0 cmds) n → Released m ops n :=
    fun hr => hr.imp_right (hold rfl)
  refine ⟨fun n hn => ?_, fun n x y hx hy => ?_, fun n x hr hx => ?_, fun n x hw => ?_, fun x hx => ?_⟩
  · exact h.fresh n (hn.imp hrel (fun ⟨x, hx⟩ => ⟨x, owns_call hx⟩))
  · exact h.single n x y (owns_call hx) (owns_call hy)
  · exact h.pulled n x (hrel hr) (owns_call hx)
  · exact (h.parked n x (hold rfl hw)).imp_right
      (Or.imp (List.mem_append_left _) (Or.imp_right (List.mem_append_left _)))
  · exact h.sent x (hx.imp_right (hold rfl))

/-- In every state of every run around a bounded channel. -/
theorem reach {size : Nat} {ok : Mem α → List (Op α) → Act (Op α) Choice (List (Cmd α)) → Prop} {s : State (Mem α) (Op α)}
    (h : (channel size).machine.Reach ok initial s) : Senders s.mem s.ops := by
  refine h.invariant_with (J := Delivery) (I := Senders) Delivery.reach ?_ ?_ ?_
  · refine ⟨fun n hn => ?_, fun n x y hx => ?_, fun n x hr => ?_, fun n x hw => ?_, fun x hx => ?_⟩
    · simp [Released, Owns, initial, State.ops] at hn
    · simp [Owns, initial, State.ops] at hx
    · simp [Released, initial, State.ops] at hr
    · simp [initial, State.ops] at hw
    · simp [initial, State.ops] at hx
  · intro m A op B c m' new hD hI _ he
    have hs := exec_sends he
    exact ⟨hI.step_fresh hs, hI.step_single hs, hI.step_pulled hD hs, hI.step_parked hs rfl, hI.step_sent hs⟩
  · intro m ops cmds m' new _ hI _ hc
    obtain ⟨rfl, rfl⟩ := Prod.mk.inj (Option.some.inj hc)
    exact hI.call cmds

end Senders

/-- A thread that is about to set the event of a sender returns the message it belongs to next. -/
def Hands (m : Mem α) (pool : List (List (Op α))) : Prop :=
  ∀ (i : Nat) (op : Op α) (rest : List (Op α)), pool[i]? = some (op :: rest) →
    (∀ n, Op.setEvent (.tx n) ∉ rest) ∧
    ∀ n, op = .setEvent (.tx n) → ∃ x rest', rest = .receiveDone x :: rest' ∧ ∀ y, Owns m pool.flatten y n → y = x

/-- A thread with no event of a sender to set. -/
theorem hands_of_not_mem {op : Op α} {rest t : List (Op α)} {q : Nat → Prop} (ht : t = op :: rest)
    (h : ∀ n, Op.setEvent (.tx n) ∉ t) : (∀ n, Op.setEvent (.tx n) ∉ rest) ∧ ∀ n, op = .setEvent (.tx n) → q n := by
  subst ht
  refine ⟨fun n hx => h n (List.mem_cons_of_mem _ hx), ?_⟩
  rintro n rfl
  exact absurd List.mem_cons_self (h n)

theorem Hands.exec {P : Chan} {m m' : Mem α} {pool : List (List (Op α))} {i : Nat} {op : Op α} {rest new : List (Op α)}
    (h : Hands m pool) (hS : Senders m pool.flatten) (hi : pool[i]? = some (op :: rest)) (hs : Sends P m op m' new) :
    Hands m' (pool.set i (new ++ rest)) := by
  obtain ⟨A, B, hold, hnew⟩ := Machine.flatten_set pool i (op :: rest) hi
  have hflat : pool.flatten = A ++ op :: (rest ++ B) := by simp [hold]
  have hflat' : (pool.set i (new ++ rest)).flatten = A ++ (new ++ (rest ++ B)) := by simp [hnew]
  obtain ⟨hrest, -⟩ := h i op rest hi
  rw [hflat] at hS
  intro j op' rest' hj
  rcases Machine.getElem?_set_cases hj with ⟨rfl, ht⟩ | ⟨-, hj⟩
  · -- the thread that moved: only a receiver that gives a place back has an event to set
    by_cases hset : ∃ n, Op.setEvent (.tx n) ∈ new
    · obtain ⟨n, hn⟩ := hset
      obtain ⟨x, rfl, rfl⟩ := Senders.setEvent_mem hs hn
      obtain ⟨rfl, rfl⟩ := List.cons.inj ht
      refine ⟨fun k hk => ?_, fun k hk => ⟨x, rest, rfl, fun y hy => ?_⟩⟩
      · exact hrest k (by simpa using hk)
      · obtain rfl : n = k := by simpa using hk
        rw [hflat'] at hy
        rcases Senders.owns_step hs hy with hy | ⟨hop, -, -⟩
        · exact hS.single n y x hy (Senders.owns_self rfl)
        · cases hop
    · refine hands_of_not_mem ht.symm (fun n hn => ?_)
      rcases List.mem_append.mp hn with hn | hn
      · exact hset ⟨n, hn⟩
      · exact hrest n hn
  · obtain ⟨htail, hhead⟩ := h j op' rest' hj
    refine ⟨htail, fun n hn => ?_⟩
    obtain ⟨x, rest'', hr, hx⟩ := hhead n hn
    refine ⟨x, rest'', hr, fun y hy => hx y ?_⟩
    rw [hflat'] at hy
    rw [hflat]
    rcases Senders.owns_step hs hy with hy | ⟨-, rfl, -⟩
    · exact hy
    · have hmem : Op.setEvent (.tx m.txNext) ∈ pool.flatten :=
        List.mem_flatten.mpr ⟨_, List.mem_of_getElem? hj, by simp [hn]⟩
      exact absurd (hS.fresh _ (Or.inl (Or.inr (hflat ▸ hmem)))) (Nat.lt_irrefl _)

/-- In every state of every run around a bounded channel. -/
theorem Hands.reach {size : Nat} {ok : Mem α → List (Op α) → Act (Op α) Choice (List (Cmd α)) → Prop} {s : State (Mem α) (Op α)}
    (h : (channel size).machine.Reach ok initial s) : Hands s.mem s.pool := by
  induction h with
  | init => exact fun i op rest hi => by simp [initial] at hi
  | @step s s' a hr _ hs ih =>
    cases hs with
    | exec hi he => exact ih.exec (Senders.reach hr) hi (exec_sends he)
    | @call cmds m' new hc =>
      obtain ⟨rfl, rfl⟩ := Prod.mk.inj (Option.some.inj hc)
      intro j op rest hj
      rcases Machine.getElem?_append_cases hj with hj | ⟨-, ht⟩
      · obtain ⟨htail, hhead⟩ := ih j op rest hj
        refine ⟨htail, fun n hn => ?_⟩
        obtain ⟨x, rest', hrest, hx⟩ := hhead n hn
        refine ⟨x, rest', hrest, fun y hy => hx y ?_⟩
        rw [List.flatten_append, List.flatten_singleton] at hy
        exact Senders.owns_call hy
      · exact hands_of_not_mem ht.symm (fun n hn => by cases program_not_sender hn)

/-- A message is queued once. -/
theorem nodup_accepted {P : Chan} {ok : Mem α → List (Op α) → Act (Op α) Choice (List (Cmd α)) → Prop} {s : State (Mem α) (Op α)}
    (h : P.machine.Reach ok initial s) : s.mem.accepted.Nodup := by
  refine (InOrder.reach h).pairwise.imp (fun {x y} hxy => ?_)
  rintro rfl
  exact Nat.lt_irrefl _ (hxy rfl)

/-! ## The places of a channel -/

/-- The messages counted in `len` that are not queued: about to be queued, or popped. -/
def counted : Op α → Nat
  | .enqueue _ _ | .lenSub _ _ => 1
  | _ => 0

/-- The messages let through that are about to be queued. -/
def letThrough : Op α → Nat
  | .enqueue _ none => 1
  | _ => 0

/-- There are fewer messages than `len` can count: each is an object in memory, and the buffer of the queue panics long before it holds
as many. -/
def Fits (m : Mem α) (ops : List (Op α)) : Act (Op α) Choice (List (Cmd α)) → Prop
  | .exec (.push _) _ => m.queue.length + total counted ops + 1 < 2 ^ 64
  | _ => True

instance (m : Mem α) (ops : List (Op α)) (a : Act (Op α) Choice (List (Cmd α))) : Decidable (Fits m ops a) := by
  unfold Fits
  induction a using Act.casesOn with
  | exec op c => induction op using Op.casesOn <;> infer_instance
  | call l => infer_instance

/-- `len` counts the messages, and the messages let through are at most `size`. -/
structure Capacity (size : Nat) (m : Mem α) (ops : List (Op α)) : Prop where
  len : m.len = m.queue.length + total counted ops
  room : m.queue.countP (·.2.isNone) + total letThrough ops ≤ size
  lt : m.len < 2 ^ 64

namespace Capacity

variable {size : Nat} {m m' : Mem α} {A B new : List (Op α)} {op : Op α}

theorem fetchAdd_of_lt {n : Nat} (h : n + 1 < 2 ^ 64) : fetchAdd n = n + 1 := Nat.mod_eq_of_lt h

theorem fetchSub_of_pos {n : Nat} (h0 : 1 ≤ n) (h1 : n < 2 ^ 64) : fetchSub n = n - 1 := by
  unfold fetchSub
  omega

/-- A step of which `len`, the queue and the operations change by the same. -/
theorem of_weights (h : Capacity size m (A ++ op :: B))
    (hlen : m'.len + (m.queue.length + counted op) = m.len + (m'.queue.length + total counted new))
    (hroom : m'.queue.countP (·.2.isNone) + total letThrough (A ++ (new ++ B)) ≤ size) (hlt : m'.len < 2 ^ 64) :
    Capacity size m' (A ++ (new ++ B)) := by
  have hs := total_step counted A B new op
  have h1 := h.len
  exact ⟨by omega, hroom, hlt⟩

/-- A step that gives out no place. -/
theorem of_keep (h : Capacity size m (A ++ op :: B)) (hlen : m'.len = m.len)
    (hc : m'.queue.length + total counted new = m.queue.length + counted op)
    (hr : m'.queue.countP (·.2.isNone) + total letThrough new ≤ m.queue.countP (·.2.isNone) + letThrough op) :
    Capacity size m' (A ++ (new ++ B)) := by
  have hs := total_step letThrough A B new op
  have h2 := h.room
  exact h.of_weights (by omega) (by omega) (hlen ▸ h.lt)

theorem weights_eq_zero (h : op.sender = false) : counted op = 0 ∧ letThrough op = 0 := by
  cases op <;> first | exact ⟨rfl, rfl⟩ | cases h

theorem letThrough_le (op : Op α) : letThrough op ≤ counted op := by
  cases op <;> first | exact Nat.le_refl _ | skip
  · rename_i x w
    cases w <;> simp [letThrough, counted]
  · exact Nat.zero_le _

/-- A popped message is counted in `len` until its place is given back. -/
theorem one_le_len (h : Capacity size m (A ++ op :: B)) (hop : counted op = 1) : 1 ≤ m.len := by
  have := h.len
  rw [total_append, total_cons] at this
  omega

theorem step (h : Capacity size m (A ++ op :: B)) (hs : Sends (channel size) m op m' new)
    (hfit : ∀ x, op = .push x → m.queue.length + total counted (A ++ op :: B) + 1 < 2 ^ 64) : Capacity size m' (A ++ (new ++ B)) := by
  cases hs with
  | idle hq _ _ hl _ _ _ hop hnew =>
    have hnew1 : total counted new = 0 := total_eq_zero_iff.mpr (fun op' hop' => (weights_eq_zero (hnew op' hop')).1)
    have hnew2 : total letThrough new = 0 := total_eq_zero_iff.mpr (fun op' hop' => (weights_eq_zero (hnew op' hop')).2)
    have hop' : counted op = 0 := by
      by_cases hsend : op.sender = true
      · rcases hop hsend with ⟨x, rfl⟩ | ⟨x, n, rfl⟩ <;> rfl
      · exact (weights_eq_zero (Bool.eq_false_iff.mpr hsend)).1
    exact h.of_keep hl (by rw [hq, hnew1, hop']) (by rw [hq, hnew2]; omega)
  | room x hsize hlt =>
    obtain rfl := Option.some.inj hsize
    have hfit := hfit x rfl
    have h1 := h.len
    have hadd : fetchAdd m.len = m.len + 1 := fetchAdd_of_lt (by omega)
    have hroom : m.queue.countP (·.2.isNone) + total letThrough (A ++ ([.enqueue x none] ++ B)) ≤ size := by
      -- the messages let through so far are among those `len` counts
      have hs := total_step letThrough A B [.enqueue x none] (.push x)
      have hle := total_mono letThrough_le (A ++ .push x :: B)
      have hcount : m.queue.countP (·.2.isNone) ≤ m.queue.length := List.countP_le_length
      simp only [total_cons, total_nil, letThrough] at hs
      omega
    refine h.of_weights ?_ hroom (by show fetchAdd m.len < _; omega)
    simp only [hadd, counted, total_cons, total_nil]
    omega
  | full x hsize hle =>
    have hfit := hfit x rfl
    have h1 := h.len
    have hadd : fetchAdd m.len = m.len + 1 := fetchAdd_of_lt (by omega)
    have hroom : m.queue.countP (·.2.isNone) + total letThrough (A ++ ([.enqueue x (some m.txNext)] ++ B)) ≤ size := by
      have hs := total_step letThrough A B [.enqueue x (some m.txNext)] (.push x)
      have h2 := h.room
      simp only [total_cons, total_nil, letThrough] at hs
      omega
    refine h.of_weights ?_ hroom (by show fetchAdd m.len < _; omega)
    simp only [hadd, counted, total_cons, total_nil]
    omega
  | enqueue x wantPull hop =>
    obtain rfl : op = .enqueue x wantPull := by
      rcases hop with hop | ⟨-, -, hsize⟩
      · exact hop
      · cases hsize
    refine h.of_keep rfl ?_ ?_
    · cases hw : m.waiters.head? <;> cases wantPull <;> simp [Mem.enqueue, hw, counted]
    · cases hw : m.waiters.head? <;> cases wantPull <;> simp [Mem.enqueue, hw, letThrough]
  | resume x n => exact h.of_keep rfl rfl (Nat.le_refl _)
  | @pull _ x w queue hop hq =>
    refine h.of_keep rfl ?_ ?_
    · rcases hop with rfl | rfl <;> simp [hq, channel, counted]
    · rcases hop with rfl | rfl <;> simp [hq, channel, letThrough, List.countP_cons]
  | lenSub x wantPull =>
    have hsub : fetchSub m.len = m.len - 1 := fetchSub_of_pos (h.one_le_len rfl) h.lt
    have hpos := h.one_le_len rfl
    have hlt := h.lt
    have hs := total_step letThrough A B ((wantPull.map (fun n => Op.setEvent (.tx n))).toList ++ [.receiveDone x]) (.lenSub x wantPull)
    have hnew : total letThrough ((wantPull.map (fun n => Op.setEvent (α := α) (.tx n))).toList ++ [.receiveDone x]) = 0 := by
      cases wantPull <;> rfl
    have hroom : m.queue.countP (·.2.isNone) +
        total letThrough (A ++ ((wantPull.map (fun n => Op.setEvent (.tx n))).toList ++ [.receiveDone x] ++ B)) ≤ size := by
      have h2 := h.room
      omega
    refine h.of_weights ?_ hroom (by show fetchSub m.len < _; omega)
    cases wantPull <;> simp only [hsub, counted, Option.map, Option.toList, List.cons_append, List.nil_append, total_cons, total_nil] <;>
      omega
  | set n => exact h.of_keep rfl rfl (Nat.le_refl _)

/-- In every state of every run whose messages fit in memory. -/
theorem reach {s : State (Mem α) (Op α)} (h : (channel size).machine.Reach Fits initial s) : Capacity size s.mem s.ops := by
  refine h.invariant (I := Capacity size) ⟨rfl, Nat.zero_le _, Nat.two_pow_pos 64⟩ ?_ ?_
  · intro m A op B c m' new hI hok he
    refine hI.step (exec_sends he) (fun x hx => ?_)
    subst hx
    exact hok
  · intro m ops cmds m' new hI _ hc
    obtain ⟨rfl, rfl⟩ := Prod.mk.inj (Option.some.inj hc)
    have h1 : total counted (program (α := α) m.tasks 0 cmds) = 0 :=
      total_eq_zero_iff.mpr (fun op hop => (weights_eq_zero (program_not_sender hop)).1)
    have h2 : total letThrough (program (α := α) m.tasks 0 cmds) = 0 :=
      total_eq_zero_iff.mpr (fun op hop => (weights_eq_zero (program_not_sender hop)).2)
    exact ⟨by rw [total_append, h1]; exact hI.len, by rw [total_append, h2]; exact hI.room, hI.lt⟩

end Capacity

/-! ## Senders without a receiver -/

/-- A step that leaves a sender without anybody to pull its message: `rx` goes to 0 while an event is queued, or an event is queued while
`rx` is 0. -/
def Strands (m : Mem α) : Act (Op α) Choice (List (Cmd α)) → Prop
  | .exec .dropReceiver .go => m.rx = 1 ∧ ∃ e ∈ m.queue, e.2.isSome = true
  | .exec .newReceiver .go => fetchAdd m.rx = 0 ∧ ∃ e ∈ m.queue, e.2.isSome = true
  | .exec (.enqueue _ (some _)) .go => m.rx = 0
  | _ => False

instance (m : Mem α) (a : Act (Op α) Choice (List (Cmd α))) : Decidable (Strands m a) := by
  unfold Strands
  induction a using Act.casesOn with
  | exec op c =>
    induction op using Op.casesOn with
    | enqueue x e => induction e using Option.casesOn <;> induction c using Choice.casesOn <;> infer_instance
    | _ => induction c using Choice.casesOn <;> infer_instance
  | call l => infer_instance

/-- With no receiver left, no queued message has an event. -/
structure Deserted (m : Mem α) : Prop where
  lt : m.rx < 2 ^ 64
  queue : m.rx = 0 → ∀ e ∈ m.queue, e.2 = none

/-- `rx` is changed by the creation and the dropping of receivers. -/
theorem exec_rx {P : Chan} {m m' : Mem α} {op : Op α} {c : Choice} {new : List (Op α)} (h : P.exec m op c = some (m', new)) :
    m'.rx = m.rx ∨ (op = .newReceiver ∧ c = .go ∧ m' = { m with rx := fetchAdd m.rx }) ∨
    (op = .dropReceiver ∧ c = .go ∧ m.rx ≠ 0 ∧ m' = { m with rx := fetchSub m.rx }) := by
  cases exec_move h with
  | newReceiver => exact Or.inr (Or.inl ⟨rfl, rfl, rfl⟩)
  | dropReceiver hr => exact Or.inr (Or.inr ⟨rfl, rfl, hr, rfl⟩)
  | sendCancelled | receiveCancelled | newSender | dropSender | closeAgain | close | takeWaiters | setEvent | sendRaised | send
  | pushed | room | full | enqueue | resume | sendDone | receive | pull | receiveRaised | again | park | lenSub | receiveDone | wake =>
    exact Or.inl rfl

/-- What is queued after a step was queued before, or is queued by it. -/
theorem Sends.queue_cases {P : Chan} {m m' : Mem α} {op : Op α} {new : List (Op α)} (h : Sends P m op m' new)
    {e : Msg α × Option Nat} (he : e ∈ m'.queue) : e ∈ m.queue ∨ op = .enqueue e.1 e.2 ∨ e.2 = none := by
  cases h with
  | idle hq => exact Or.inl (hq ▸ he)
  | enqueue x wantPull hop =>
    rcases List.mem_append.mp he with he | he
    · exact Or.inl he
    · obtain rfl := List.mem_singleton.mp he
      rcases hop with rfl | ⟨-, hn, -⟩
      · exact Or.inr (Or.inl rfl)
      · exact Or.inr (Or.inr hn)
  | pull hop hq =>
    refine Or.inl ?_
    rw [hq]
    exact List.mem_cons_of_mem _ he
  | room | full | resume | lenSub | set => exact Or.inl he

theorem Deserted.exec {P : Chan} {m m' : Mem α} {op : Op α} {c : Choice} {new : List (Op α)} (h : Deserted m)
    (hok : ¬Strands m (.exec op c)) (he : P.exec m op c = some (m', new)) : Deserted m' := by
  have hnone : ∀ e ∈ m.queue, ¬(∃ e ∈ m.queue, e.2.isSome = true) → e.2 = none := by
    intro e hmem hno
    cases hw : e.2 with
    | none => rfl
    | some n => exact absurd ⟨e, hmem, by simp [hw]⟩ hno
  rcases exec_rx he with hrx | ⟨rfl, rfl, rfl⟩ | ⟨rfl, rfl, hpos, rfl⟩
  · refine ⟨hrx ▸ h.lt, fun h0 e hmem => ?_⟩
    rw [hrx] at h0
    rcases (exec_sends he).queue_cases hmem with hmem | rfl | hn
    · exact h.queue h0 e hmem
    · cases hw : e.2 with
      | none => rfl
      | some n =>
        rw [hw] at hok he
        cases c with
        | go => exact absurd h0 hok
        | cancel => cases he
    · exact hn
  · exact ⟨Nat.mod_lt _ (Nat.two_pow_pos 64), fun h0 e hmem => hnone e hmem (fun hx => hok ⟨h0, hx⟩)⟩
  · refine ⟨Nat.mod_lt _ (Nat.two_pow_pos 64), fun h0 e hmem => hnone e hmem (fun hx => hok ⟨?_, hx⟩)⟩
    have hlt := h.lt
    have h0' : (m.rx + (2 ^ 64 - 1)) % 2 ^ 64 = 0 := h0
    omega

/-- In every state of every run in which no step strands a sender. -/
theorem Deserted.reach {P : Chan} {s : State (Mem α) (Op α)} (h : P.machine.Reach (fun m _ a => ¬Strands m a) initial s) :
    Deserted s.mem := by
  refine h.invariant (I := fun m _ => Deserted m) ⟨Nat.one_lt_two_pow (by decide), fun h0 => by cases h0⟩ ?_ ?_
  · exact fun m A op B c m' new hI hok he => hI.exec hok he
  · intro m ops cmds m' new hI _ hc
    obtain ⟨rfl, rfl⟩ := Prod.mk.inj (Option.some.inj hc)
    exact ⟨hI.lt, hI.queue⟩

end Tonio.Channel
