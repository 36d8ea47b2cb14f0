import Tonio.Lemmas.Channel

/-!
# Closing a channel

`close` flips `closed` outside the mutex and takes the queued receivers under it; receivers look at `closed` under the mutex, senders
look at it before they take it. What follows for the receivers (`Closing`) holds in every run: none is left queued. What follows
for the senders does not: a `send` that is past its check queues its message in a closed channel, and the events of parked senders
stand in the queue, which `close` does not touch. `Overtakes` and `Strands` say which steps do harm.
-/

namespace Tonio.Channel

open Interleaving

variable {α : Type}

/-! ## What a step does to `closed` and to the record of the calls -/

/-- A `send` that is past its check of `closed` and has not queued its message. -/
def Op.late : Op α → Bool
  | .push _ | .enqueue _ _ => true
  | _ => false

/-- `closed` is set by the `close` that finds it unset, which goes on to take the receivers, and by nothing else. -/
theorem exec_closed {P : Chan} {m m' : Mem α} {op : Op α} {c : Choice} {new : List (Op α)}
    (h : P.exec m op c = some (m', new)) :
    (m'.closed = m.closed ∧ Op.takeWaiters ∉ new) ∨
    (op = .close ∧ m.closed = false ∧ m' = { m with closed := true } ∧ new = [.takeWaiters]) := by
  cases exec_move h with
  | close hc => exact Or.inr ⟨rfl, hc, rfl, rfl⟩
  | pull => exact Or.inl ⟨rfl, by split <;> simp⟩
  | pushed x => exact Or.inl ⟨rfl, by cases hw : m.waiters.head? <;> simp [Mem.enqueue, hw]⟩
  | enqueue x wantPull => exact Or.inl ⟨rfl, by cases hw : m.waiters.head? <;> cases wantPull <;> simp [Mem.enqueue, hw]⟩
  | lenSub x wantPull => exact Or.inl ⟨rfl, by cases wantPull <;> simp⟩
  | dropSender | dropReceiver => exact Or.inl ⟨rfl, by split <;> simp⟩
  | sendCancelled | receiveCancelled | newSender | newReceiver | closeAgain | takeWaiters | setEvent | sendRaised | send | room
  | full | resume | sendDone | receive | receiveRaised | again | park | receiveDone | wake =>
    exact Or.inl ⟨rfl, by simp⟩

/-- `closed` stays set. -/
theorem exec_closed_mono {P : Chan} {m m' : Mem α} {op : Op α} {c : Choice} {new : List (Op α)}
    (h : P.exec m op c = some (m', new)) (hc : m.closed = true) : m'.closed = true := by
  rcases exec_closed h with ⟨hm, -⟩ | ⟨-, -, rfl, -⟩
  · exact hm.trans hc
  · rfl

/-- Which operation ends a call, and in which way. -/
def Ends (P : Chan) (m : Mem α) (op : Op α) (c : Choice) : Outcome α → Prop
  | .sent x => op = .sendDone x
  | .sendRaised x text => op = .send x ∧ m.closed = true ∧ text = P.sendText
  | .sendCancelled x => (∃ n, op = .waitSend x n) ∧ c = .cancel
  | .received x => op = .receiveDone x
  | .receiveRaised text => (op = .pullFast ∨ op = .pullSlow) ∧ c = .go ∧ m.queue = [] ∧ m.closed = true ∧ text = "channel closed"
  | .receiveCancelled => (∃ n, op = .waitRecv n) ∧ c = .cancel

/-- A step records nothing, or the end of the call it ends. -/
theorem exec_history {P : Chan} {m m' : Mem α} {op : Op α} {c : Choice} {new : List (Op α)}
    (h : P.exec m op c = some (m', new)) :
    m'.history = m.history ∨ ∃ o, Ends P m op c o ∧ m' = m.ended o ∧ new = [] := by
  cases exec_move h with
  | sendCancelled x n => exact Or.inr ⟨.sendCancelled x, ⟨⟨n, rfl⟩, rfl⟩, rfl, rfl⟩
  | receiveCancelled n => exact Or.inr ⟨.receiveCancelled, ⟨⟨n, rfl⟩, rfl⟩, rfl, rfl⟩
  | sendRaised x hc => exact Or.inr ⟨.sendRaised x P.sendText, ⟨rfl, hc, rfl⟩, rfl, rfl⟩
  | sendDone x => exact Or.inr ⟨.sent x, rfl, rfl, rfl⟩
  | receiveRaised hop hq hc => exact Or.inr ⟨.receiveRaised "channel closed", ⟨hop, rfl, hq, hc, rfl⟩, rfl, rfl⟩
  | receiveDone x => exact Or.inr ⟨.received x, rfl, rfl, rfl⟩
  | newSender | newReceiver | dropSender | dropReceiver | closeAgain | close | takeWaiters | setEvent | send | pushed | room | full
  | enqueue | resume | receive | pull | again | park | lenSub | wake =>
    exact Or.inl rfl

/-- In a closed channel no `send` gets past its check. -/
theorem exec_not_late {P : Chan} {m m' : Mem α} {op : Op α} {c : Choice} {new : List (Op α)}
    (h : P.exec m op c = some (m', new)) (hc : m.closed = true) (hop : op.late = false) : ∀ op' ∈ new, op'.late = false := by
  cases exec_move h with
  | pushed | room | full | enqueue => cases hop
  | send x hopen => exact absurd hc (hopen ▸ Bool.false_ne_true)
  | pull => split <;> simp [Op.late]
  | lenSub x wantPull => cases wantPull <;> simp [Op.late]
  | dropSender | dropReceiver => split <;> simp [Op.late]
  | sendCancelled | receiveCancelled | newSender | newReceiver | closeAgain | close | takeWaiters | setEvent | sendRaised | resume
  | sendDone | receive | receiveRaised | again | park | receiveDone | wake =>
    simp [Op.late]

/-- Nothing of a program is past a check yet, or closes. -/
theorem program_idle {op : Op α} {t k : Nat} {cmds : List (Cmd α)} (h : op ∈ program t k cmds) :
    op.late = false ∧ op ≠ .takeWaiters := by
  induction cmds generalizing k with
  | nil => cases h
  | cons cmd cmds ih =>
    cases cmd <;> simp only [program, List.mem_cons] at h <;> rcases h with rfl | h <;>
      first | exact ih h | simp [Op.late]

/-! ## Receivers -/

/-- The `close` calls that have set `closed` and have still to take the queued receivers. -/
def closes : Op α → Nat
  | .takeWaiters => 1
  | _ => 0

theorem total_closes_eq_zero {ops : List (Op α)} : total closes ops = 0 ↔ Op.takeWaiters ∉ ops := by
  rw [total_eq_zero_iff]
  constructor
  · exact fun h hx => Nat.one_ne_zero (h _ hx)
  · intro h op hop
    cases op <;> first | rfl | exact absurd hop h

/-- What closing does to the receivers: once `closed` is set and the queued receivers are taken, none is queued; and every event that was
ever queued is queued still, or set, or about to be set. -/
structure Closing (m : Mem α) (ops : List (Op α)) : Prop where
  drained : m.closed = true → Op.takeWaiters ∉ ops → m.waiters = []
  once : total closes ops ≤ m.closed.toNat
  woken : ∀ n < m.rxNext, n ∈ m.waiters ∨ m.flag (.rx n) = true ∨ Op.setEvent (.rx n) ∈ ops

namespace Closing

variable {P : Chan} {m m' : Mem α} {A B new : List (Op α)} {op : Op α} {c : Choice}

/-- No receiver is queued in a closed channel by a step. -/
theorem waiters_nil (he : P.exec m op c = some (m', new)) (hc : m.closed = true) (hw : m.waiters = []) : m'.waiters = [] := by
  rcases exec_cases he with hq | ⟨x, wantPull, hop, rfl, hm⟩ | ⟨x, wantPull, queue, hop, hq, rfl, hnew⟩ | ⟨rfl, hq, ho, rfl, rfl⟩ |
    ⟨n, rfl, hf, rfl, rfl⟩ | ⟨n, rfl, rfl, rfl, rfl⟩ | ⟨rfl, rfl, rfl⟩ | ⟨n, rfl, rfl, rfl⟩
  · rw [hq.waiters, hw]
  · rw [show m' = (m.enqueue x wantPull).1 by simp [← hm]]
    simp [Mem.enqueue, hw]
  · exact hw
  · rw [hc] at ho
    cases ho
  · exact hw
  · exact hw
  · rfl
  · exact hw

/-- The `close` that set `closed` takes the receivers before any state counts as closed. -/
theorem exec_drained (h : Closing m (A ++ op :: B)) (he : P.exec m op c = some (m', new)) (hc : m'.closed = true)
    (ht : Op.takeWaiters ∉ A ++ (new ++ B)) : m'.waiters = [] := by
  rcases exec_closed he with ⟨hm, -⟩ | ⟨-, -, -, rfl⟩
  · rw [hm] at hc
    by_cases hop : op = .takeWaiters
    · subst hop
      cases c with
      | cancel => cases he
      | go => rw [← (Prod.mk.inj (Option.some.inj he)).1]
    · refine waiters_nil he hc (h.drained hc (fun hx => ht (Machine.mem_keep hx (Ne.symm hop))))
  · exact absurd (Machine.mem_new (List.mem_singleton_self _)) ht

/-- One `close` at most is between setting `closed` and taking the receivers. -/
theorem exec_once (h : Closing m (A ++ op :: B)) (he : P.exec m op c = some (m', new)) :
    total closes (A ++ (new ++ B)) ≤ m'.closed.toNat := by
  have hstep := total_step closes A B new op
  have honce := h.once
  rcases exec_closed he with ⟨hm, hnew⟩ | ⟨rfl, ho, rfl, rfl⟩
  · rw [total_closes_eq_zero.mpr hnew] at hstep
    rw [hm]
    omega
  · rw [ho] at honce
    simp only [closes, total_cons, total_nil, Bool.toNat_false, Bool.toNat_true] at hstep honce ⊢
    omega

/-- An event leaves the queue by a `push` or a `close`, which goes on to set it. -/
theorem exec_takes (he : P.exec m op c = some (m', new)) {n : Nat} (hn : n ∈ m.waiters) (hn' : n ∉ m'.waiters) :
    (op.late = true ∨ op = .takeWaiters) ∧ Op.setEvent (.rx n) ∈ new := by
  rcases exec_cases he with hq | ⟨x, wantPull, hop, rfl, hm⟩ | ⟨x, wantPull, queue, hop, hq, rfl, hnew⟩ | ⟨rfl, hq, ho, rfl, rfl⟩ |
    ⟨n', rfl, hf, rfl, rfl⟩ | ⟨n', rfl, rfl, rfl, rfl⟩ | ⟨rfl, rfl, rfl⟩ | ⟨n', rfl, rfl, rfl⟩
  · rw [hq.waiters] at hn'
    exact absurd hn hn'
  · obtain ⟨rfl, rfl⟩ : m' = (m.enqueue x wantPull).1 ∧ new = (m.enqueue x wantPull).2 := by simp [← hm]
    refine ⟨Or.inl (by rcases hop with ⟨rfl, -⟩ | rfl <;> rfl), ?_⟩
    -- the event is the first queued one, for the others stay queued
    cases hw : m.waiters with
    | nil =>
      rw [hw] at hn
      cases hn
    | cons e ws =>
      simp only [hw, Mem.enqueue, List.tail_cons] at hn hn'
      rcases List.mem_cons.mp hn with rfl | hn
      · simp [Mem.enqueue, hw]
      · exact absurd hn hn'
  · exact absurd hn hn'
  · exact absurd (List.mem_append_left _ hn) hn'
  · exact absurd hn hn'
  · exact absurd hn hn'
  · exact ⟨Or.inr rfl, List.mem_map.mpr ⟨n, hn, rfl⟩⟩
  · exact absurd hn hn'

/-- A receiver's event is allocated when it is queued, and stays set once it is set. -/
theorem exec_events (he : P.exec m op c = some (m', new)) :
    (m'.rxNext = m.rxNext ∨ (m'.rxNext = m.rxNext + 1 ∧ m.rxNext ∈ m'.waiters)) ∧
    ∀ n, m.flag (.rx n) = true ∨ op = .setEvent (.rx n) → m'.flag (.rx n) = true := by
  rcases exec_cases he with hq | ⟨x, wantPull, hop, rfl, hm⟩ | ⟨x, wantPull, queue, hop, hq, rfl, hnew⟩ | ⟨rfl, hq, ho, rfl, rfl⟩ |
    ⟨n', rfl, hf, rfl, rfl⟩ | ⟨n', rfl, rfl, rfl, rfl⟩ | ⟨rfl, rfl, rfl⟩ | ⟨n', rfl, rfl, rfl⟩
  · refine ⟨Or.inl hq.next, fun n hn => ?_⟩
    rw [hq.flag]
    exact hn.resolve_right (hq.set n).1
  · obtain ⟨rfl, rfl⟩ : m' = (m.enqueue x wantPull).1 ∧ new = (m.enqueue x wantPull).2 := by simp [← hm]
    refine ⟨Or.inl rfl, fun n hn => hn.resolve_right ?_⟩
    rcases hop with ⟨rfl, -⟩ | rfl <;> simp
  · refine ⟨Or.inl rfl, fun n hn => hn.resolve_right ?_⟩
    rcases hop with rfl | rfl <;> simp
  · exact ⟨Or.inr ⟨rfl, List.mem_append_right _ (List.mem_singleton_self _)⟩, fun n hn => hn.resolve_right (by simp)⟩
  · exact ⟨Or.inl rfl, fun n hn => hn.resolve_right (by simp)⟩
  · exact ⟨Or.inl rfl, fun n hn => hn.resolve_right (by simp)⟩
  · exact ⟨Or.inl rfl, fun n hn => hn.resolve_right (by simp)⟩
  · refine ⟨Or.inl rfl, fun n hn => ?_⟩
    by_cases hnn : n = n'
    · subst hnn
      exact Function.update_self ..
    · have hf : m.flag (.rx n) = true := hn.resolve_right (by simpa using Ne.symm hnn)
      exact (Function.update_of_ne (by simpa using hnn) _ _).trans hf

/-- Whoever takes an event from the queue sets it. -/
theorem exec_woken (h : Closing m (A ++ op :: B)) (he : P.exec m op c = some (m', new)) (n : Nat) (hn : n < m'.rxNext) :
    n ∈ m'.waiters ∨ m'.flag (.rx n) = true ∨ Op.setEvent (.rx n) ∈ A ++ (new ++ B) := by
  obtain ⟨hnext, hflag⟩ := exec_events he
  by_cases hold : n < m.rxNext
  · rcases h.woken n hold with hw | hf | hs
    · by_cases hw' : n ∈ m'.waiters
      · exact Or.inl hw'
      · exact Or.inr (Or.inr (Machine.mem_new (exec_takes he hw hw').2))
    · exact Or.inr (Or.inl (hflag n (Or.inl hf)))
    · by_cases hop : op = .setEvent (.rx n)
      · exact Or.inr (Or.inl (hflag n (Or.inr hop)))
      · exact Or.inr (Or.inr (Machine.mem_keep hs (Ne.symm hop)))
  · rcases hnext with hnext | ⟨hnext, hw⟩
    · omega
    · obtain rfl : n = m.rxNext := by omega
      exact Or.inl hw

/-- In every state of every run. -/
theorem reach {ok : Mem α → List (Op α) → Act (Op α) Choice (List (Cmd α)) → Prop} {s : State (Mem α) (Op α)}
    (h : P.machine.Reach ok initial s) : Closing s.mem s.ops := by
  refine h.invariant (I := Closing) ?_ ?_ ?_
  · exact ⟨fun _ _ => rfl, Nat.zero_le _, fun n hn => absurd hn (Nat.not_lt_zero n)⟩
  · intro m A op B c m' new hI _ he
    exact ⟨hI.exec_drained he, hI.exec_once he, hI.exec_woken he⟩
  · intro m ops cmds m' new hI _ hc
    obtain ⟨rfl, rfl⟩ := Prod.mk.inj (Option.some.inj hc)
    have hnone : Op.takeWaiters ∉ program (α := α) m.tasks 0 cmds := fun hx => (program_idle hx).2 rfl
    refine ⟨fun hcl ht => hI.drained hcl (fun hx => ht (List.mem_append_left _ hx)), ?_, fun n hn => ?_⟩
    · rw [total_append, total_closes_eq_zero.mpr hnone]
      exact hI.once
    · exact (hI.woken n hn).imp_right (Or.imp_right (List.mem_append_left _))

end Closing

/-- `closed` stays set in every continuation of a run. -/
theorem reach_closed {P : Chan} {ok : Mem α → List (Op α) → Act (Op α) Choice (List (Cmd α)) → Prop}
    {s s' : State (Mem α) (Op α)} (h : P.machine.Reach ok s s') (hc : s.mem.closed = true) : s'.mem.closed = true := by
  refine h.invariant (I := fun m _ => m.closed = true) hc ?_ ?_
  · exact fun m A op B c m' new hI _ he => exec_closed_mono he hI
  · intro m ops cmds m' new hI _ hcall
    rw [← (Prod.mk.inj (Option.some.inj hcall)).1]
    exact hI

/-- The thread that takes an event from the queue goes on to set it. -/
theorem step_takes {P : Chan} {s s' : State (Mem α) (Op α)} {a : Act (Op α) Choice (List (Cmd α))} {n : Nat}
    (hs : P.machine.Step s a s') (hn : n ∈ s.mem.waiters) (hn' : n ∉ s'.mem.waiters) :
    ∃ (i : Nat) (op : Op α) (rest new : List (Op α)), s.pool[i]? = some (op :: rest) ∧ (op.late = true ∨ op = .takeWaiters) ∧
      s'.pool[i]? = some (new ++ rest) ∧ Op.setEvent (.rx n) ∈ new := by
  cases hs with
  | @exec i op rest c m' new hi he =>
    have hlt : i < s.pool.length := (List.getElem?_eq_some_iff.mp hi).1
    obtain ⟨hop, hset⟩ := Closing.exec_takes he hn hn'
    exact ⟨i, op, rest, new, hi, hop, by simp [hlt], hset⟩
  | call hc =>
    rw [← (Prod.mk.inj (Option.some.inj hc)).1] at hn'
    exact absurd hn hn'

/-! ## Messages after the end -/

/-- A `receive` raises, because the queue is empty and the channel closed, while a `send` is past its check and has not queued its
message. -/
def Overtakes (m : Mem α) (ops : List (Op α)) : Act (Op α) Choice (List (Cmd α)) → Prop
  | .exec .pullFast .go | .exec .pullSlow .go => m.queue = [] ∧ m.closed = true ∧ ∃ op ∈ ops, op.late = true
  | _ => False

instance [DecidableEq α] (m : Mem α) (ops : List (Op α)) (a : Act (Op α) Choice (List (Cmd α))) : Decidable (Overtakes m ops a) := by
  unfold Overtakes
  induction a using Act.casesOn with
  | exec op c => induction op using Op.casesOn <;> induction c using Choice.casesOn <;> infer_instance
  | call l => infer_instance

/-- A channel that is closed and empty and that no `send` is about to fill. -/
structure Drained (m : Mem α) (ops : List (Op α)) : Prop where
  queue : m.queue = []
  closed : m.closed = true
  sends : ∀ op ∈ ops, op.late = false

/-- A drained channel stays drained, and its messages stay what they were. -/
theorem Drained.exec {P : Chan} {m m' : Mem α} {A B new : List (Op α)} {op : Op α} {c : Choice}
    (h : Drained m (A ++ op :: B)) (he : P.exec m op c = some (m', new)) :
    Drained m' (A ++ (new ++ B)) ∧ m'.accepted = m.accepted ∧ m'.dequeued = m.dequeued := by
  have hlate : op.late = false := h.sends op (by simp)
  have hsends : ∀ op' ∈ A ++ (new ++ B), op'.late = false := by
    intro op' hop'
    rcases Machine.mem_cases op hop' with hn | ho
    · exact exec_not_late he h.closed hlate op' hn
    · exact h.sends op' ho
  have hclosed := exec_closed_mono he h.closed
  rcases exec_cases he with hq | ⟨x, wantPull, hop, rfl, hm⟩ | ⟨x, wantPull, queue, hop, hq, rfl, hnew⟩ | ⟨rfl, hq, ho, rfl, rfl⟩ |
    ⟨n', rfl, hf, rfl, rfl⟩ | ⟨n', rfl, rfl, rfl, rfl⟩ | ⟨rfl, rfl, rfl⟩ | ⟨n', rfl, rfl, rfl⟩
  · exact ⟨⟨hq.queue.trans h.queue, hclosed, hsends⟩, hq.accepted, hq.dequeued⟩
  · rcases hop with ⟨rfl, -⟩ | rfl <;> cases hlate
  · rw [h.queue] at hq
    cases hq
  all_goals exact ⟨⟨h.queue, hclosed, hsends⟩, rfl, rfl⟩

/-- A new task is past no check. -/
theorem Drained.call {m : Mem α} {ops : List (Op α)} (h : Drained m ops) (cmds : List (Cmd α)) :
    Drained { m with tasks := m.tasks + 1 } (ops ++ program m.tasks 0 cmds) := by
  refine ⟨h.queue, h.closed, fun op hop => ?_⟩
  rcases List.mem_append.mp hop with hop | hop
  · exact h.sends op hop
  · exact (program_idle hop).1

/-- A drained channel stays drained in every continuation of a run. -/
theorem Drained.reach {P : Chan} {ok : Mem α → List (Op α) → Act (Op α) Choice (List (Cmd α)) → Prop}
    {s s' : State (Mem α) (Op α)} (h : P.machine.Reach ok s s') (hD : Drained s.mem s.ops) :
    Drained s'.mem s'.ops ∧ s'.mem.accepted = s.mem.accepted ∧ s'.mem.dequeued = s.mem.dequeued := by
  refine h.invariant (I := fun m ops => Drained m ops ∧ m.accepted = s.mem.accepted ∧ m.dequeued = s.mem.dequeued)
    ⟨hD, rfl, rfl⟩ ?_ ?_
  · rintro m A op B c m' new ⟨hI, ha, hd⟩ _ he
    obtain ⟨hI', ha', hd'⟩ := hI.exec he
    exact ⟨hI', ha'.trans ha, hd'.trans hd⟩
  · rintro m ops cmds m' new ⟨hI, ha, hd⟩ _ hc
    obtain ⟨rfl, rfl⟩ := Prod.mk.inj (Option.some.inj hc)
    exact ⟨hI.call cmds, ha, hd⟩

/-- Some `receive` has raised. -/
def Mem.raised (m : Mem α) : Prop := ∃ text, Outcome.receiveRaised text ∈ m.history

/-- In every run in which no `receive` overtakes a `send`: once a `receive` has raised, the channel is drained. -/
theorem Drained.of_raised {P : Chan} {s : State (Mem α) (Op α)}
    (h : P.machine.Reach (fun m ops a => ¬Overtakes m ops a) initial s) (hr : s.mem.raised) : Drained s.mem s.ops := by
  refine h.invariant (I := fun m ops => m.raised → Drained m ops) ?_ ?_ ?_ hr
  · rintro ⟨text, ht⟩
    cases ht
  · rintro m A op B c m' new hI hok he ⟨text, ht⟩
    rcases exec_history he with hh | ⟨o, ho, rfl, rfl⟩
    · rw [hh] at ht
      exact ((hI ⟨text, ht⟩).exec he).1
    · rcases List.mem_append.mp ht with ht | ht
      · exact ((hI ⟨text, ht⟩).exec he).1
      · -- the call that ends here is the one that raises
        obtain rfl := List.mem_singleton.mp ht
        obtain ⟨hop, rfl, hq, hc, -⟩ := ho
        have hsends : ∀ op' ∈ A ++ op :: B, op'.late = false := by
          intro op' hop'
          by_contra hl
          refine hok ?_
          rcases hop with rfl | rfl <;> exact ⟨hq, hc, op', hop', by simpa using hl⟩
        exact ⟨hq, hc, fun op' hop' => hsends op' ((Machine.mem_cases op hop').resolve_left List.not_mem_nil)⟩
  · rintro m ops cmds m' new hI - hc ⟨text, ht⟩
    obtain ⟨rfl, rfl⟩ := Prod.mk.inj (Option.some.inj hc)
    exact (hI ⟨text, ht⟩).call cmds

end Tonio.Channel
