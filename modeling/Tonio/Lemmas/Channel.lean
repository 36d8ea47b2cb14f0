import Tonio.Channel

/-!
# The receivers of a channel

What holds in every state around a channel about the receivers' events and the wake-ups they get (`Receivers`). The events
queued are distinct and not set, and a receiver that waits for an event that is not queued has been woken or is about to be. A
message gives out one wake-up, which goes to the first queued event; so while some receiver that was not cancelled is
queued, each message in the queue is matched by a receiver that was woken or is polling (`Receivers.enough`) — unless a wake-up went
to a receiver that was cancelled, which `Spent` says.
-/

namespace Tonio.Channel

open Interleaving

variable {α : Type}

/-- The receivers that will look at the queue: those polling it, and those that wait for an event that is not queued any
more. -/
def polls (waiters : List Nat) : Op α → Nat
  | .pullFast | .pullSlow => 1
  | .waitRecv n => if n ∈ waiters then 0 else 1
  | _ => 0

/-- The receivers that wait for an event. -/
def waits (n : Nat) : Op α → Nat
  | .waitRecv n' => if n' = n then 1 else 0
  | _ => 0

/-- Some queued event belongs to a receiver that has not been cancelled. -/
def Sleeps (waiters : List Nat) (ops : List (Op α)) : Prop := ∃ n ∈ waiters, Op.waitRecv n ∈ ops

/-- A step that spends a wake-up on a receiver that is cancelled while another one sleeps: the event popped by a `push` belongs to
no waiting receiver, or a receiver is cancelled whose event has been popped. -/
def Spent (m : Mem α) (ops : List (Op α)) : Act (Op α) Choice (List (Cmd α)) → Prop
  | .exec (.push _) .go | .exec (.enqueue _ _) .go =>
    (∃ n ∈ m.waiters.head?, Op.waitRecv n ∉ ops) ∧ Sleeps m.waiters.tail ops
  | .exec (.waitRecv n) .cancel => n ∉ m.waiters ∧ Sleeps m.waiters ops
  | _ => False

instance [DecidableEq α] (waiters : List Nat) (ops : List (Op α)) : Decidable (Sleeps waiters ops) :=
  inferInstanceAs (Decidable (∃ n ∈ waiters, Op.waitRecv n ∈ ops))

instance [DecidableEq α] (m : Mem α) (ops : List (Op α)) (a : Act (Op α) Choice (List (Cmd α))) : Decidable (Spent m ops a) := by
  unfold Spent
  split <;> infer_instance

/-- The events of the receivers and the wake-ups they got. -/
structure Receivers (m : Mem α) (ops : List (Op α)) : Prop where
  nodup : m.waiters.Nodup
  bounded : ∀ n ∈ m.waiters, n < m.rxNext
  fresh : ∀ n, Op.waitRecv n ∈ ops ∨ Op.setEvent (.rx n) ∈ ops ∨ m.flag (.rx n) = true → n < m.rxNext
  unset : ∀ n ∈ m.waiters, m.flag (.rx n) = false ∧ Op.setEvent (.rx n) ∉ ops
  awake : ∀ n, Op.waitRecv n ∈ ops → n ∈ m.waiters ∨ m.flag (.rx n) = true ∨ Op.setEvent (.rx n) ∈ ops
  enough : Sleeps m.waiters ops → m.queue.length ≤ total (polls m.waiters) ops

/-! ## The cases of a step -/

/-- What an operation does. -/
inductive Move (P : Chan) (m : Mem α) : Op α → Choice → Mem α → List (Op α) → Prop where
  | sendCancelled (x : Msg α) (n : Nat) : Move P m (.waitSend x n) .cancel (m.ended (.sendCancelled x)) []
  | receiveCancelled (n : Nat) : Move P m (.waitRecv n) .cancel (m.ended .receiveCancelled) []
  | newSender : Move P m .newSender .go { m with tx := fetchAdd m.tx } []
  | newReceiver : Move P m .newReceiver .go { m with rx := fetchAdd m.rx } []
  | dropSender (ht : m.tx ≠ 0) : Move P m .dropSender .go { m with tx := fetchSub m.tx } (if m.tx = 1 then [.close] else [])
  | dropReceiver (hr : m.rx ≠ 0) : Move P m .dropReceiver .go { m with rx := fetchSub m.rx } (if m.rx = 1 then [.close] else [])
  | closeAgain (hc : m.closed = true) : Move P m .close .go m []
  | close (hc : m.closed = false) : Move P m .close .go { m with closed := true } [.takeWaiters]
  | takeWaiters : Move P m .takeWaiters .go { m with waiters := [] } (m.waiters.map (fun n => .setEvent (.rx n)))
  | setEvent (e : Ev) : Move P m (.setEvent e) .go { m with flag := Function.update m.flag e true } []
  | sendRaised (x : Msg α) (hc : m.closed = true) : Move P m (.send x) .go (m.ended (.sendRaised x P.sendText)) []
  | send (x : Msg α) (hc : m.closed = false) : Move P m (.send x) .go m [.push x]
  | pushed (x : Msg α) (hs : P.size = none) : Move P m (.push x) .go (m.enqueue x none).1 (m.enqueue x none).2
  | room {size : Nat} (x : Msg α) (hs : P.size = some size) (hl : m.len < size) :
      Move P m (.push x) .go { m with len := fetchAdd m.len } [.enqueue x none]
  | full {size : Nat} (x : Msg α) (hs : P.size = some size) (hl : size ≤ m.len) :
      Move P m (.push x) .go { m with len := fetchAdd m.len, txNext := m.txNext + 1 } [.enqueue x (some m.txNext)]
  | enqueue (x : Msg α) (wantPull : Option Nat) :
      Move P m (.enqueue x wantPull) .go (m.enqueue x wantPull).1 (m.enqueue x wantPull).2
  | resume (x : Msg α) (n : Nat) (hf : m.flag (.tx n) = true) : Move P m (.waitSend x n) .go m [.sendDone x]
  | sendDone (x : Msg α) : Move P m (.sendDone x) .go (m.ended (.sent x)) []
  | receive : Move P m .receive .go m [.pullFast]
  | pull {op : Op α} {x : Msg α} {wantPull : Option Nat} {queue : List (Msg α × Option Nat)}
      (hop : op = .pullFast ∨ op = .pullSlow) (hq : m.queue = (x, wantPull) :: queue) :
      Move P m op .go { m with queue := queue, dequeued := m.dequeued ++ [x] }
        [if P.size.isSome then .lenSub x wantPull else .receiveDone x]
  | receiveRaised {op : Op α} (hop : op = .pullFast ∨ op = .pullSlow) (hq : m.queue = []) (hc : m.closed = true) :
      Move P m op .go (m.ended (.receiveRaised "channel closed")) []
  | again (hq : m.queue = []) (hc : m.closed = false) : Move P m .pullFast .go m [.pullSlow]
  | park (hq : m.queue = []) (hc : m.closed = false) :
      Move P m .pullSlow .go { m with waiters := m.waiters ++ [m.rxNext], rxNext := m.rxNext + 1 } [.waitRecv m.rxNext]
  | lenSub (x : Msg α) (wantPull : Option Nat) :
      Move P m (.lenSub x wantPull) .go { m with len := fetchSub m.len }
        ((wantPull.map (fun n => Op.setEvent (.tx n))).toList ++ [.receiveDone x])
  | receiveDone (x : Msg α) : Move P m (.receiveDone x) .go (m.ended (.received x)) []
  | wake (n : Nat) (hf : m.flag (.rx n) = true) : Move P m (.waitRecv n) .go m [.pullFast]

/-- A `try_pull!` pops, or raises in a closed channel, or leaves an open and empty one to its caller. -/
theorem getD_tryPull_cases {P : Chan} {m m' : Mem α} {new : List (Op α)} {r : Mem α × List (Op α)}
    (h : (P.tryPull m).getD r = (m', new)) :
    (∃ x wantPull queue, m.queue = (x, wantPull) :: queue ∧ m' = { m with queue := queue, dequeued := m.dequeued ++ [x] } ∧
      new = [if P.size.isSome then .lenSub x wantPull else .receiveDone x]) ∨
    (m.queue = [] ∧ m.closed = true ∧ m' = m.ended (.receiveRaised "channel closed") ∧ new = []) ∨
    (m.queue = [] ∧ m.closed = false ∧ r = (m', new)) := by
  unfold Chan.tryPull at h
  split at h
  · rename_i x wantPull queue hq
    obtain ⟨rfl, rfl⟩ := Prod.mk.inj h
    exact Or.inl ⟨x, wantPull, queue, hq, rfl, rfl⟩
  · rename_i hq
    split at h
    · rename_i hc
      obtain ⟨rfl, rfl⟩ := Prod.mk.inj h
      exact Or.inr (Or.inl ⟨hq, hc, rfl, rfl⟩)
    · rename_i hc
      exact Or.inr (Or.inr ⟨hq, Bool.eq_false_iff.mpr hc, h⟩)

/-- Every step is one of these. -/
theorem exec_move {P : Chan} {m m' : Mem α} {op : Op α} {c : Choice} {new : List (Op α)}
    (h : P.exec m op c = some (m', new)) : Move P m op c m' new := by
  cases c with
  | cancel =>
    cases op <;> simp only [Chan.exec, Option.some.injEq, Prod.mk.injEq, reduceCtorEq] at h <;> obtain ⟨rfl, rfl⟩ := h
    case waitSend x n => exact .sendCancelled x n
    case waitRecv n => exact .receiveCancelled n
  | go =>
    cases op with
    | push x =>
      simp only [Chan.exec] at h
      split at h
      · rename_i hs
        obtain ⟨rfl, rfl⟩ := Prod.mk.inj (Option.some.inj h)
        exact .pushed x hs
      · rename_i size hs
        split at h <;> obtain ⟨rfl, rfl⟩ := Prod.mk.inj (Option.some.inj h)
        · rename_i hl
          exact .room x hs hl
        · rename_i hl
          exact .full x hs (Nat.le_of_not_lt hl)
    | pullFast =>
      rcases getD_tryPull_cases (Option.some.inj h) with ⟨x, wantPull, queue, hq, rfl, rfl⟩ | ⟨hq, hc, rfl, rfl⟩ | ⟨hq, hc, hr⟩
      · exact .pull (Or.inl rfl) hq
      · exact .receiveRaised (Or.inl rfl) hq hc
      · obtain ⟨rfl, rfl⟩ := Prod.mk.inj hr
        exact .again hq hc
    | pullSlow =>
      rcases getD_tryPull_cases (Option.some.inj h) with ⟨x, wantPull, queue, hq, rfl, rfl⟩ | ⟨hq, hc, rfl, rfl⟩ | ⟨hq, hc, hr⟩
      · exact .pull (Or.inr rfl) hq
      · exact .receiveRaised (Or.inr rfl) hq hc
      · obtain ⟨rfl, rfl⟩ := Prod.mk.inj hr
        exact .park hq hc
    | send x =>
      simp only [Chan.exec, Option.some.injEq] at h
      split at h <;> obtain ⟨rfl, rfl⟩ := Prod.mk.inj h
      · rename_i hc
        exact .sendRaised x hc
      · rename_i hc
        exact .send x (Bool.eq_false_iff.mpr hc)
    | close =>
      simp only [Chan.exec, Option.some.injEq] at h
      split at h <;> obtain ⟨rfl, rfl⟩ := Prod.mk.inj h
      · rename_i hc
        exact .closeAgain hc
      · rename_i hc
        exact .close (Bool.eq_false_iff.mpr hc)
    | dropSender =>
      simp only [Chan.exec] at h
      split at h
      · cases h
      · rename_i ht
        obtain ⟨rfl, rfl⟩ := Prod.mk.inj (Option.some.inj h)
        exact .dropSender ht
    | dropReceiver =>
      simp only [Chan.exec] at h
      split at h
      · cases h
      · rename_i hr
        obtain ⟨rfl, rfl⟩ := Prod.mk.inj (Option.some.inj h)
        exact .dropReceiver hr
    | waitSend x n =>
      simp only [Chan.exec] at h
      split at h
      · rename_i hf
        obtain ⟨rfl, rfl⟩ := Prod.mk.inj (Option.some.inj h)
        exact .resume x n hf
      · cases h
    | waitRecv n =>
      simp only [Chan.exec] at h
      split at h
      · rename_i hf
        obtain ⟨rfl, rfl⟩ := Prod.mk.inj (Option.some.inj h)
        exact .wake n hf
      · cases h
    | enqueue x wantPull =>
      obtain ⟨rfl, rfl⟩ := Prod.mk.inj (Option.some.inj h)
      exact .enqueue x wantPull
    | lenSub x wantPull =>
      obtain ⟨rfl, rfl⟩ := Prod.mk.inj (Option.some.inj h)
      exact .lenSub x wantPull
    | takeWaiters =>
      obtain ⟨rfl, rfl⟩ := Prod.mk.inj (Option.some.inj h)
      exact .takeWaiters
    | setEvent e =>
      obtain ⟨rfl, rfl⟩ := Prod.mk.inj (Option.some.inj h)
      exact .setEvent e
    | newSender =>
      obtain ⟨rfl, rfl⟩ := Prod.mk.inj (Option.some.inj h)
      exact .newSender
    | newReceiver =>
      obtain ⟨rfl, rfl⟩ := Prod.mk.inj (Option.some.inj h)
      exact .newReceiver
    | receive =>
      obtain ⟨rfl, rfl⟩ := Prod.mk.inj (Option.some.inj h)
      exact .receive
    | sendDone x =>
      obtain ⟨rfl, rfl⟩ := Prod.mk.inj (Option.some.inj h)
      exact .sendDone x
    | receiveDone x =>
      obtain ⟨rfl, rfl⟩ := Prod.mk.inj (Option.some.inj h)
      exact .receiveDone x

/-- A step that touches no message and no event of a receiver, except that a receiver may leave that found the queue empty. What it
returns was in flight, and what is left to push was to be pushed before. -/
structure Quiet (m : Mem α) (op : Op α) (m' : Mem α) (new : List (Op α)) : Prop where
  waiters : m'.waiters = m.waiters
  next : m'.rxNext = m.rxNext
  flag : ∀ n, m'.flag (.rx n) = m.flag (.rx n)
  wait : ∀ n, op ≠ .waitRecv n ∧ Op.waitRecv n ∉ new
  set : ∀ n, op ≠ .setEvent (.rx n) ∧ Op.setEvent (.rx n) ∉ new
  queue : m'.queue = m.queue
  polls : ∀ ws, m.queue = [] ∨ polls ws op ≤ total (Channel.polls ws) new
  accepted : m'.accepted = m.accepted
  dequeued : m'.dequeued = m.dequeued
  tasks : m'.tasks = m.tasks
  inFlight : m'.returned ++ new.flatMap Op.inFlight = m.returned ++ op.inFlight
  unsent : (new.flatMap Op.unsent).Sublist op.unsent

theorem Mem.returned_ended (m : Mem α) (o : Outcome α) :
    (m.ended o).returned = m.returned ++ (match o with | .received x => [x] | _ => []) := by
  cases o <;> simp [Mem.returned, Mem.ended, List.filterMap_append]

/-- What a step can do: nothing to messages and receivers; push a message; pop one; queue the event of a receiver; resume one or
cancel it; take all events, or set one. -/
theorem exec_cases {P : Chan} {m m' : Mem α} {op : Op α} {c : Choice} {new : List (Op α)}
    (h : P.exec m op c = some (m', new)) :
    Quiet m op m' new ∨
    (∃ x wantPull, ((op = .push x ∧ wantPull = none) ∨ op = .enqueue x wantPull) ∧ c = .go ∧ (m', new) = m.enqueue x wantPull) ∨
    (∃ x wantPull queue, (op = .pullFast ∨ op = .pullSlow) ∧ m.queue = (x, wantPull) :: queue ∧
      m' = { m with queue := queue, dequeued := m.dequeued ++ [x] } ∧ (new = [.lenSub x wantPull] ∨ new = [.receiveDone x])) ∨
    (op = .pullSlow ∧ m.queue = [] ∧ m.closed = false ∧
      m' = { m with waiters := m.waiters ++ [m.rxNext], rxNext := m.rxNext + 1 } ∧ new = [.waitRecv m.rxNext]) ∨
    (∃ n, op = .waitRecv n ∧ m.flag (.rx n) = true ∧ m' = m ∧ new = [.pullFast]) ∨
    (∃ n, op = .waitRecv n ∧ c = .cancel ∧ m' = m.ended .receiveCancelled ∧ new = []) ∨
    (op = .takeWaiters ∧ m' = { m with waiters := [] } ∧ new = m.waiters.map (fun n => .setEvent (.rx n))) ∨
    (∃ n, op = .setEvent (.rx n) ∧ m' = { m with flag := Function.update m.flag (.rx n) true } ∧ new = []) := by
  cases exec_move h with
  | pushed x => exact Or.inr (Or.inl ⟨x, none, Or.inl ⟨rfl, rfl⟩, rfl, rfl⟩)
  | enqueue x wantPull => exact Or.inr (Or.inl ⟨x, wantPull, Or.inr rfl, rfl, rfl⟩)
  | @pull _ x wantPull queue hop hq =>
    refine Or.inr (Or.inr (Or.inl ⟨x, wantPull, queue, hop, hq, rfl, ?_⟩))
    split
    · exact Or.inl rfl
    · exact Or.inr rfl
  | park hq hc => exact Or.inr (Or.inr (Or.inr (Or.inl ⟨rfl, hq, hc, rfl, rfl⟩)))
  | wake n hf => exact Or.inr (Or.inr (Or.inr (Or.inr (Or.inl ⟨n, rfl, hf, rfl, rfl⟩))))
  | receiveCancelled n => exact Or.inr (Or.inr (Or.inr (Or.inr (Or.inr (Or.inl ⟨n, rfl, rfl, rfl, rfl⟩)))))
  | takeWaiters => exact Or.inr (Or.inr (Or.inr (Or.inr (Or.inr (Or.inr (Or.inl ⟨rfl, rfl, rfl⟩))))))
  | setEvent e =>
    cases e with
    | rx n => exact Or.inr (Or.inr (Or.inr (Or.inr (Or.inr (Or.inr (Or.inr ⟨n, rfl, rfl, rfl⟩))))))
    | tx n =>
      exact Or.inl ⟨rfl, rfl, fun _ => by simp, by simp, by simp, rfl, fun _ => Or.inr (by simp [polls]), rfl, rfl, rfl, rfl, by simp⟩
  | receiveRaised hop hq =>
    rcases hop with rfl | rfl <;>
      exact Or.inl ⟨rfl, rfl, fun _ => rfl, by simp, by simp, rfl, fun _ => Or.inl hq, rfl, rfl, rfl,
        by simp [Mem.returned_ended, Op.inFlight], by simp⟩
  | again hq =>
    exact Or.inl ⟨rfl, rfl, fun _ => rfl, by simp, by simp, rfl, fun _ => Or.inl hq, rfl, rfl, rfl, rfl, by simp [Op.unsent]⟩
  | lenSub x wantPull =>
    cases wantPull <;>
      exact Or.inl ⟨rfl, rfl, fun _ => rfl, by simp, by simp, rfl, fun _ => Or.inr (by simp [polls]), rfl, rfl, rfl,
        by simp [Op.inFlight, Mem.returned], by simp [Op.unsent]⟩
  | dropSender | dropReceiver =>
    split <;>
      exact Or.inl ⟨rfl, rfl, fun _ => rfl, by simp, by simp, rfl, fun _ => Or.inr (by simp [polls]), rfl, rfl, rfl,
        by simp [Op.inFlight, Mem.returned], by simp [Op.unsent]⟩
  | sendCancelled | newSender | newReceiver | closeAgain | close | sendRaised | send | room | full | resume | sendDone | receive
  | receiveDone =>
    exact Or.inl ⟨rfl, rfl, fun _ => rfl, by simp, by simp, rfl, fun _ => Or.inr (by simp [polls]), rfl, rfl, rfl,
      by simp [Op.inFlight, Mem.returned, Mem.ended], by simp [Op.unsent]⟩

/-! ## What a step keeps -/

namespace Receivers

variable {m m' : Mem α} {A B new : List (Op α)} {op : Op α}

/-- A step that concerns no receiver. -/
theorem quiet (h : Receivers m (A ++ op :: B)) (hq : Quiet m op m' new) : Receivers m' (A ++ (new ++ B)) := by
  have hwait : ∀ n, Op.waitRecv n ∈ A ++ (new ++ B) ↔ Op.waitRecv n ∈ A ++ op :: B := by
    intro n
    simp [(hq.wait n).2, (hq.wait n).1.symm]
  have hset : ∀ n, Op.setEvent (.rx n) ∈ A ++ (new ++ B) ↔ Op.setEvent (.rx n) ∈ A ++ op :: B := by
    intro n
    simp [(hq.set n).2, (hq.set n).1.symm]
  refine ⟨?_, ?_, fun n hn => ?_, fun n hn => ?_, fun n hn => ?_, fun hs => ?_⟩
  · rw [hq.waiters]
    exact h.nodup
  · rw [hq.waiters, hq.next]
    exact h.bounded
  · rw [hwait, hset, hq.flag] at hn
    rw [hq.next]
    exact h.fresh n hn
  · rw [hset, hq.flag]
    exact h.unset n (hq.waiters ▸ hn)
  · rw [hset, hq.flag, hq.waiters]
    exact h.awake n ((hwait n).mp hn)
  · rw [hq.waiters] at hs ⊢
    obtain ⟨n, hn, hw⟩ := hs
    have he := h.enough ⟨n, hn, (hwait n).mp hw⟩
    rw [hq.queue]
    rcases hq.polls m.waiters with h0 | hp
    · simp [h0]
    · simp only [total_append, total_cons] at he ⊢
      omega

/-- Popping an event makes its receiver one that will look at the queue. -/
theorem total_polls_pop (n : Nat) (ws : List Nat) (hn : n ∉ ws) (ops : List (Op α)) :
    total (polls ws) ops = total (polls (n :: ws)) ops + total (waits n) ops := by
  induction ops with
  | nil => rfl
  | cons op ops ih =>
    have hop : polls ws op = polls (n :: ws) op + waits n op := by
      cases op <;> simp only [polls, waits, Nat.add_zero]
      rename_i n'
      by_cases hx : n' = n
      · subst hx
        simp [hn]
      · simp [hx]
    simp only [total_cons, ih, hop]
    omega

/-- `push` wakes the first queued receiver. -/
theorem push {x : Msg α} {wantPull : Option Nat} (h : Receivers m (A ++ op :: B))
    (hop : op = .push x ∨ op = .enqueue x wantPull)
    (hspent : ∀ n ∈ m.waiters.head?, Op.waitRecv n ∉ A ++ op :: B → ¬Sleeps m.waiters.tail (A ++ op :: B)) :
    Receivers (m.enqueue x wantPull).1 (A ++ ((m.enqueue x wantPull).2 ++ B)) := by
  have hwait : ∀ n, Op.waitRecv n ∈ A ++ ((m.enqueue x wantPull).2 ++ B) ↔ Op.waitRecv n ∈ A ++ op :: B := by
    intro n
    rcases hop with rfl | rfl <;> cases m.waiters.head? <;> cases wantPull <;> simp [Mem.enqueue, *]
  have hset : ∀ n, Op.setEvent (.rx n) ∈ A ++ ((m.enqueue x wantPull).2 ++ B) ↔
      n ∈ m.waiters.head? ∨ Op.setEvent (.rx n) ∈ A ++ op :: B := by
    intro n
    rcases hop with rfl | rfl <;> cases hh : m.waiters.head? <;> cases wantPull <;> simp [Mem.enqueue, hh, or_left_comm, eq_comm]
  have hpolls : ∀ ws, total (polls ws) (A ++ op :: B) = total (polls ws) (A ++ ((m.enqueue x wantPull).2 ++ B)) := by
    intro ws
    rcases hop with rfl | rfl <;> cases hh : m.waiters.head? <;> cases wantPull <;> simp [Mem.enqueue, hh, polls]
  cases hw : m.waiters with
  | nil =>
    refine ⟨by simp [Mem.enqueue, hw], by simp [Mem.enqueue, hw], fun n hn => ?_, by simp [Mem.enqueue, hw], fun n hn => ?_, ?_⟩
    · rw [hwait, hset] at hn
      exact h.fresh n (by simpa [hw, Mem.enqueue] using hn)
    · rw [hset]
      have := h.awake n ((hwait n).mp hn)
      simpa [Mem.enqueue, hw] using this
    · rintro ⟨n, hn, -⟩
      simp [Mem.enqueue, hw] at hn
  | cons e ws =>
    have hmem : (m.enqueue x wantPull).1.waiters = ws := by simp [Mem.enqueue, hw]
    have hnd := h.nodup
    rw [hw, List.nodup_cons] at hnd
    have hlt : e < m.rxNext := h.bounded e (by simp [hw])
    refine ⟨hmem ▸ hnd.2, ?_, fun n hn => ?_, fun n hn => ?_, fun n hn => ?_, fun hs => ?_⟩
    · intro n hn
      rw [hmem] at hn
      exact h.bounded n (by simp [hw, hn])
    · rw [hwait, hset, hw] at hn
      rcases hn with hn | (hn | hn) | hn
      · exact h.fresh n (Or.inl hn)
      · obtain rfl : e = n := by simpa using hn
        exact hlt
      · exact h.fresh n (Or.inr (Or.inl hn))
      · exact h.fresh n (Or.inr (Or.inr hn))
    · rw [hmem] at hn
      have hu := h.unset n (by simp [hw, hn])
      refine ⟨hu.1, ?_⟩
      rw [hset, hw]
      rintro (hx | hx)
      · obtain rfl : e = n := by simpa using hx
        exact hnd.1 hn
      · exact hu.2 hx
    · rw [hmem, hset, hw]
      rcases h.awake n ((hwait n).mp hn) with hx | hx | hx
      · rw [hw, List.mem_cons] at hx
        rcases hx with rfl | hx
        · exact Or.inr (Or.inr (Or.inl rfl))
        · exact Or.inl hx
      · exact Or.inr (Or.inl hx)
      · exact Or.inr (Or.inr (Or.inr hx))
    · -- the message is matched by the receiver of the event popped, which was waiting for it
      rw [hmem] at hs ⊢
      obtain ⟨n, hn, hx⟩ := hs
      have hx := (hwait n).mp hx
      have hlive : Op.waitRecv e ∈ A ++ op :: B := by
        by_contra hdead
        exact hspent e (by simp [hw]) hdead ⟨n, by simp [hw, hn], hx⟩
      have h1 := h.enough ⟨e, by simp [hw], hlive⟩
      have h2 := total_polls_pop e ws hnd.1 (A ++ op :: B)
      have h3 : 0 < total (waits e) (A ++ op :: B) := total_pos_iff.mpr ⟨_, hlive, by simp [waits]⟩
      rw [← hpolls]
      rw [hw] at h1
      simp only [Mem.enqueue, List.length_append, List.length_singleton]
      omega

/-- A receiver pops a message. -/
theorem pull {x : Msg α} {wantPull : Option Nat} {queue : List (Msg α × Option Nat)} (h : Receivers m (A ++ op :: B))
    (hop : op = .pullFast ∨ op = .pullSlow) (hq : m.queue = (x, wantPull) :: queue)
    (hnew : new = [.lenSub x wantPull] ∨ new = [.receiveDone x]) :
    Receivers { m with queue := queue, dequeued := m.dequeued ++ [x] } (A ++ (new ++ B)) := by
  have hwait : ∀ n, Op.waitRecv n ∈ A ++ (new ++ B) ↔ Op.waitRecv n ∈ A ++ op :: B := by
    intro n
    rcases hop with rfl | rfl <;> rcases hnew with rfl | rfl <;> simp
  have hset : ∀ n, Op.setEvent (.rx n) ∈ A ++ (new ++ B) ↔ Op.setEvent (.rx n) ∈ A ++ op :: B := by
    intro n
    rcases hop with rfl | rfl <;> rcases hnew with rfl | rfl <;> simp
  refine ⟨h.nodup, h.bounded, fun n hn => h.fresh n ?_, fun n hn => ?_, fun n hn => ?_, fun ⟨n, hn, hw⟩ => ?_⟩
  · rwa [hwait, hset] at hn
  · rw [hset]
    exact h.unset n hn
  · rw [hset]
    exact h.awake n ((hwait n).mp hn)
  · have he := h.enough ⟨n, hn, (hwait n).mp hw⟩
    rcases hop with rfl | rfl <;> rcases hnew with rfl | rfl <;>
      simp only [hq, List.length_cons, total_append, total_cons, total_nil, polls] at he ⊢ <;> omega

/-- `pull` queues a new event. -/
theorem register (h : Receivers m (A ++ Op.pullSlow :: B)) (hq : m.queue = []) :
    Receivers { m with waiters := m.waiters ++ [m.rxNext], rxNext := m.rxNext + 1 } (A ++ ([.waitRecv m.rxNext] ++ B)) := by
  have hnew : m.flag (.rx m.rxNext) = false ∧ Op.setEvent (.rx m.rxNext) ∉ A ++ Op.pullSlow :: B := by
    refine ⟨?_, fun hs => ?_⟩
    · cases hf : m.flag (.rx m.rxNext) with
      | false => rfl
      | true => exact absurd (h.fresh _ (Or.inr (Or.inr hf))) (Nat.lt_irrefl _)
    · exact absurd (h.fresh _ (Or.inr (Or.inl hs))) (Nat.lt_irrefl _)
  have hset : ∀ n, Op.setEvent (.rx n) ∈ A ++ ([.waitRecv m.rxNext] ++ B) ↔ Op.setEvent (.rx n) ∈ A ++ Op.pullSlow :: B := by
    intro n
    simp
  refine ⟨?_, fun n hn => ?_, fun n hn => ?_, fun n hn => ?_, fun n hn => ?_, fun _ => by simp [hq]⟩
  · refine List.nodup_append'.mpr ⟨h.nodup, List.nodup_singleton _, ?_⟩
    simp only [List.disjoint_singleton]
    intro hx
    exact absurd (h.bounded _ hx) (Nat.lt_irrefl _)
  · simp only [List.mem_append, List.mem_singleton] at hn
    rcases hn with hn | rfl
    · exact Nat.lt_succ_of_lt (h.bounded n hn)
    · exact Nat.lt_succ_self _
  · rw [hset] at hn
    by_cases hx : n = m.rxNext
    · subst hx
      exact Nat.lt_succ_self _
    · refine Nat.lt_succ_of_lt (h.fresh n (hn.imp_left (fun hn => ?_)))
      simpa [hx] using hn
  · rw [hset]
    simp only [List.mem_append, List.mem_singleton] at hn
    rcases hn with hn | rfl
    · exact h.unset n hn
    · exact hnew
  · rw [hset]
    by_cases hx : n = m.rxNext
    · exact Or.inl (by simp [hx])
    · refine (h.awake n (by simpa [hx] using hn)).imp_left (fun hn => ?_)
      simp [hn]

/-- A receiver that was woken polls again. -/
theorem resume {n : Nat} (h : Receivers m (A ++ Op.waitRecv n :: B)) (hf : m.flag (.rx n) = true) :
    Receivers m (A ++ ([.pullFast] ++ B)) := by
  have hn : n ∉ m.waiters := by
    intro hn
    have := (h.unset n hn).1
    rw [hf] at this
    cases this
  refine ⟨h.nodup, h.bounded, fun n' hn' => h.fresh n' ?_, fun n' hn' => ?_, fun n' hn' => ?_, ?_⟩
  · refine hn'.imp (fun hx => ?_) (Or.imp_left fun hx => ?_)
    · rcases List.mem_append.mp hx with hx | hx <;> simp_all
    · simpa using hx
  · simpa using h.unset n' hn'
  · have := h.awake n' (by rcases List.mem_append.mp hn' with hx | hx <;> simp_all)
    simpa using this
  · rintro ⟨n', hn', hw⟩
    have := h.enough ⟨n', hn', by rcases List.mem_append.mp hw with hx | hx <;> simp_all⟩
    simpa [polls, hn] using this

/-- A receiver is cancelled. -/
theorem cancel {n : Nat} (h : Receivers m (A ++ Op.waitRecv n :: B))
    (hspent : n ∉ m.waiters → ¬Sleeps m.waiters (A ++ Op.waitRecv n :: B)) :
    Receivers (m.ended .receiveCancelled) (A ++ ([] ++ B)) := by
  have hsub : ∀ {n'}, Op.waitRecv n' ∈ A ++ ([] ++ B) → Op.waitRecv n' ∈ A ++ Op.waitRecv n :: B := by
    intro n' hx
    rcases List.mem_append.mp hx with hx | hx <;> simp_all
  refine ⟨h.nodup, h.bounded, fun n' hn' => h.fresh n' ?_, fun n' hn' => ?_, fun n' hn' => ?_, ?_⟩
  · exact hn'.imp hsub (Or.imp_left fun hx => by simpa using hx)
  · simpa [Mem.ended] using h.unset n' hn'
  · have := h.awake n' (hsub hn')
    simpa [Mem.ended] using this
  · rintro ⟨n', hn', hw⟩
    have hs : Sleeps m.waiters (A ++ Op.waitRecv n :: B) := ⟨n', hn', hsub hw⟩
    have hn : n ∈ m.waiters := by
      by_contra hn
      exact hspent hn hs
    have := h.enough hs
    simpa [Mem.ended, polls, hn] using this

/-- `close` takes all queued events, to be set. -/
theorem take (h : Receivers m (A ++ Op.takeWaiters :: B)) :
    Receivers { m with waiters := [] } (A ++ (m.waiters.map (fun n => .setEvent (.rx n)) ++ B)) := by
  have hset : ∀ n, Op.setEvent (.rx n) ∈ A ++ (m.waiters.map (fun n => .setEvent (.rx n)) ++ B) ↔
      n ∈ m.waiters ∨ Op.setEvent (.rx n) ∈ A ++ Op.takeWaiters :: B := by
    intro n
    simp [or_left_comm]
  have hwait : ∀ n, Op.waitRecv n ∈ A ++ (m.waiters.map (fun n => .setEvent (.rx n)) ++ B) ↔
      Op.waitRecv n ∈ A ++ Op.takeWaiters :: B := by
    intro n
    simp
  refine ⟨List.nodup_nil, by simp, fun n hn => ?_, by simp, fun n hn => ?_, by rintro ⟨n, hn, -⟩; cases hn⟩
  · rw [hset, hwait] at hn
    rcases hn with hn | (hn | hn) | hn
    · exact h.fresh n (Or.inl hn)
    · exact h.bounded n hn
    · exact h.fresh n (Or.inr (Or.inl hn))
    · exact h.fresh n (Or.inr (Or.inr hn))
  · rw [hset]
    rcases h.awake n ((hwait n).mp hn) with hx | hx | hx
    · exact Or.inr (Or.inr (Or.inl hx))
    · exact Or.inr (Or.inl hx)
    · exact Or.inr (Or.inr (Or.inr hx))

/-- The event of a receiver is set. -/
theorem set {n : Nat} (h : Receivers m (A ++ Op.setEvent (.rx n) :: B)) :
    Receivers { m with flag := Function.update m.flag (.rx n) true } (A ++ ([] ++ B)) := by
  have hflag : ∀ n', Function.update m.flag (.rx n) true (.rx n') = true ↔ n' = n ∨ m.flag (.rx n') = true := by
    intro n'
    by_cases hx : n' = n
    · simp [hx]
    · simp [hx, Function.update_of_ne]
  have hsub : ∀ {n'}, Op.setEvent (.rx n') ∈ A ++ ([] ++ B) → Op.setEvent (.rx n') ∈ A ++ Op.setEvent (.rx n) :: B := by
    intro n' hx
    rcases List.mem_append.mp hx with hx | hx <;> simp_all
  refine ⟨h.nodup, h.bounded, fun n' hn' => ?_, fun n' hn' => ?_, fun n' hn' => ?_, ?_⟩
  · simp only [hflag] at hn'
    rcases hn' with hn' | hn' | rfl | hn'
    · exact h.fresh n' (Or.inl (by simpa using hn'))
    · exact h.fresh n' (Or.inr (Or.inl (hsub hn')))
    · exact h.fresh n' (Or.inr (Or.inl (by simp)))
    · exact h.fresh n' (Or.inr (Or.inr hn'))
  · have hu := h.unset n' hn'
    have hne : n' ≠ n := by
      rintro rfl
      exact hu.2 (by simp)
    refine ⟨?_, fun hx => hu.2 (hsub hx)⟩
    simp [hne, hu.1]
  · simp only [hflag]
    rcases h.awake n' (by simpa using hn') with hx | hx | hx
    · exact Or.inl hx
    · exact Or.inr (Or.inl (Or.inr hx))
    · by_cases hne : n' = n
      · exact Or.inr (Or.inl (Or.inl hne))
      · exact Or.inr (Or.inr (by simpa [hne] using hx))
  · rintro ⟨n', hn', hw⟩
    have := h.enough ⟨n', hn', by simpa using hw⟩
    simpa [polls] using this

/-- A step that does not spend a wake-up keeps the balance. -/
theorem exec {P : Chan} {c : Choice} (h : Receivers m (A ++ op :: B)) (hspent : ¬Spent m (A ++ op :: B) (.exec op c))
    (he : P.exec m op c = some (m', new)) : Receivers m' (A ++ (new ++ B)) := by
  rcases exec_cases he with hq | ⟨x, wantPull, hop, rfl, hm⟩ | ⟨x, wantPull, queue, hop, hq, rfl, hnew⟩ | ⟨rfl, hq, -, rfl, rfl⟩ |
    ⟨n, rfl, hf, rfl, rfl⟩ | ⟨n, rfl, rfl, rfl, rfl⟩ | ⟨rfl, rfl, rfl⟩ | ⟨n, rfl, rfl, rfl⟩
  · exact h.quiet hq
  · obtain ⟨rfl, rfl⟩ : m' = (m.enqueue x wantPull).1 ∧ new = (m.enqueue x wantPull).2 := by simp [← hm]
    refine h.push (hop.imp_left And.left) (fun n hn hdead hs => hspent ?_)
    rcases hop with ⟨rfl, -⟩ | rfl <;> exact ⟨⟨n, hn, hdead⟩, hs⟩
  · exact h.pull hop hq hnew
  · exact h.register hq
  · exact h.resume hf
  · exact h.cancel (fun hn hs => hspent ⟨hn, hs⟩)
  · exact h.take
  · exact h.set

/-- A program waits for nothing yet. -/
theorem mem_program {op : Op α} {t k : Nat} {cmds : List (Cmd α)} (h : op ∈ program t k cmds) :
    (∀ n, op ≠ .waitRecv n) ∧ (∀ e, op ≠ .setEvent e) ∧ ∀ ws, polls ws op = 0 := by
  induction cmds generalizing k with
  | nil => cases h
  | cons cmd cmds ih =>
    cases cmd <;> simp only [program, List.mem_cons] at h <;> rcases h with rfl | h <;>
      first | exact ih h | simp [polls]

/-- A new task waits for nothing. -/
theorem call {ops : List (Op α)} {cmds : List (Cmd α)} (h : Receivers m ops) :
    Receivers { m with tasks := m.tasks + 1 } (ops ++ program m.tasks 0 cmds) := by
  have hwait : ∀ n, Op.waitRecv n ∈ ops ++ program m.tasks 0 cmds ↔ Op.waitRecv n ∈ ops := by
    intro n
    rw [List.mem_append, or_iff_left]
    exact fun hx => (mem_program hx).1 n rfl
  have hset : ∀ n, Op.setEvent (.rx n) ∈ ops ++ program m.tasks 0 cmds ↔ Op.setEvent (.rx n) ∈ ops := by
    intro n
    rw [List.mem_append, or_iff_left]
    exact fun hx => (mem_program hx).2.1 _ rfl
  refine ⟨h.nodup, h.bounded, fun n hn => h.fresh n ?_, fun n hn => ?_, fun n hn => ?_, ?_⟩
  · simpa only [hwait, hset] using hn
  · simpa only [hset] using h.unset n hn
  · simpa only [hset] using h.awake n ((hwait n).mp hn)
  · rintro ⟨n, hn, hw⟩
    have := h.enough ⟨n, hn, (hwait n).mp hw⟩
    rw [total_append]
    exact Nat.le_add_right_of_le this

/-- In every state of a run that spends no wake-up on a cancelled receiver while another one sleeps. -/
theorem reach {P : Chan} {s : State (Mem α) (Op α)}
    (h : P.machine.Reach (fun m ops a => ¬Spent m ops a) initial s) : Receivers s.mem s.ops := by
  refine h.invariant (I := Receivers) ?_ ?_ ?_
  · exact ⟨List.nodup_nil, by simp [initial], by simp [initial, State.ops], by simp [initial], by simp [initial, State.ops],
      by rintro ⟨n, hn, -⟩; cases hn⟩
  · intro m A op B c m' new hI hok he
    exact hI.exec hok he
  · intro m ops cmds m' new hI _ hc
    simp only [Chan.machine, Channel.call, Option.some.injEq, Prod.mk.injEq] at hc
    obtain ⟨rfl, rfl⟩ := hc
    exact hI.call

end Receivers

/-! ## The order of the messages -/

/-- The messages popped and those queued are the messages pushed, in this order, and what was popped is returned or about to
be. -/
structure Delivery (m : Mem α) (ops : List (Op α)) : Prop where
  order : m.dequeued ++ m.queue.map Prod.fst = m.accepted
  returned : (m.returned ++ ops.flatMap Op.inFlight).Perm m.dequeued

/-- Replacing an operation among the pending ones, and what was returned with it. -/
theorem perm_replace {β : Type} {R R' D a b n o : List β} (h : R' ++ n = R ++ o) (hp : (R ++ (a ++ (o ++ b))).Perm D) :
    (R' ++ (a ++ (n ++ b))).Perm D := by
  refine List.Perm.trans ?_ hp
  have hswap : ∀ r x : List β, (r ++ (a ++ (x ++ b))).Perm ((r ++ x) ++ (a ++ b)) := by
    intro r x
    rw [List.append_assoc r x]
    refine List.Perm.append_left r ?_
    rw [← List.append_assoc, ← List.append_assoc]
    exact List.perm_append_comm.append_right b
  exact (hswap R' n).trans (h ▸ (hswap R o).symm)

theorem Delivery.exec {P : Chan} {m m' : Mem α} {A B new : List (Op α)} {op : Op α} {c : Choice}
    (h : Delivery m (A ++ op :: B)) (he : P.exec m op c = some (m', new)) : Delivery m' (A ++ (new ++ B)) := by
  have hr := h.returned
  simp only [List.flatMap_append, List.flatMap_cons] at hr
  rcases exec_cases he with hq | ⟨x, wantPull, hop, rfl, hm⟩ | ⟨x, wantPull, queue, hop, hq, rfl, hnew⟩ | ⟨rfl, hq, -, rfl, rfl⟩ |
    ⟨n, rfl, hf, rfl, rfl⟩ | ⟨n, rfl, rfl, rfl, rfl⟩ | ⟨rfl, rfl, rfl⟩ | ⟨n, rfl, rfl, rfl⟩
  · refine ⟨by rw [hq.dequeued, hq.queue, hq.accepted]; exact h.order, ?_⟩
    simp only [List.flatMap_append]
    rw [hq.dequeued]
    exact perm_replace hq.inFlight hr
  · obtain ⟨rfl, rfl⟩ : m' = (m.enqueue x wantPull).1 ∧ new = (m.enqueue x wantPull).2 := by simp [← hm]
    refine ⟨?_, ?_⟩
    · rw [← List.append_assoc] at *
      simp [Mem.enqueue, ← h.order]
    · have hnil : (m.enqueue x wantPull).2.flatMap Op.inFlight = op.inFlight := by
        rcases hop with ⟨rfl, -⟩ | rfl <;> cases m.waiters.head? <;> cases wantPull <;> simp [Mem.enqueue, Op.inFlight]
      simp only [List.flatMap_append, hnil]
      exact hr
  · refine ⟨by simp [← h.order, hq], ?_⟩
    have hop' : op.inFlight = [] := by rcases hop with rfl | rfl <;> rfl
    have hnew' : new.flatMap Op.inFlight = [x] := by rcases hnew with rfl | rfl <;> rfl
    simp only [List.flatMap_append, hnew', hop', List.nil_append] at hr ⊢
    refine List.Perm.trans ?_ (hr.append_right [x])
    simp only [List.append_assoc]
    exact List.Perm.append_left _ (List.Perm.append_left _ List.perm_append_comm)
  · exact ⟨h.order, by simpa [Op.inFlight, Mem.returned] using hr⟩
  · exact ⟨h.order, by simpa [Op.inFlight, Mem.returned] using hr⟩
  · exact ⟨h.order, by simpa [Op.inFlight, Mem.returned, Mem.ended] using hr⟩
  · refine ⟨h.order, ?_⟩
    have hnil : (m.waiters.map (fun n => Op.setEvent (α := α) (.rx n))).flatMap Op.inFlight = [] := by
      simp [List.flatMap_map, Op.inFlight]
    simp only [List.flatMap_append, hnil]
    exact hr
  · exact ⟨h.order, by simpa [Op.inFlight, Mem.returned] using hr⟩

theorem program_inFlight (t k : Nat) (cmds : List (Cmd α)) : (program t k cmds).flatMap Op.inFlight = [] := by
  induction cmds generalizing k with
  | nil => rfl
  | cons cmd cmds ih => cases cmd <;> simp [program, Op.inFlight, ih]

/-- In every state of every run. -/
theorem Delivery.reach {P : Chan} {ok : Mem α → List (Op α) → Act (Op α) Choice (List (Cmd α)) → Prop}
    {s : State (Mem α) (Op α)} (h : P.machine.Reach ok initial s) : Delivery s.mem s.ops := by
  refine h.invariant (I := Delivery) ⟨rfl, by simp [initial, State.ops, Mem.returned]⟩ ?_ ?_
  · intro m A op B c m' new hI _ he
    exact hI.exec he
  · intro m ops cmds m' new hI _ hc
    simp only [Chan.machine, call, Option.some.injEq, Prod.mk.injEq] at hc
    obtain ⟨rfl, rfl⟩ := hc
    refine ⟨hI.order, ?_⟩
    rw [List.flatMap_append, program_inFlight, List.append_nil]
    exact hI.returned

/-! ## The order of one sender -/

/-- The messages a task has pushed, and those it has still to push, are in the order of its program. -/
structure InOrder (m : Mem α) (pool : List (List (Op α))) : Prop where
  tasks : pool.length = m.tasks
  old : ∀ x ∈ m.accepted, x.task < m.tasks
  own : ∀ (i : Nat) (ops : List (Op α)), pool[i]? = some ops → ∀ x ∈ ops.flatMap Op.unsent, x.task = i
  sorted : ∀ (i : Nat) (ops : List (Op α)), pool[i]? = some ops →
    (m.accepted.filter (·.task = i) ++ ops.flatMap Op.unsent).Pairwise (fun x y => x.seq < y.seq)

/-- A step pushes the message it was to send, or pushes nothing. -/
theorem exec_unsent {P : Chan} {m m' : Mem α} {op : Op α} {c : Choice} {new : List (Op α)}
    (h : P.exec m op c = some (m', new)) :
    m'.tasks = m.tasks ∧
    ((m'.accepted = m.accepted ∧ (new.flatMap Op.unsent).Sublist op.unsent) ∨
      (m'.accepted = m.accepted ++ op.unsent ∧ new.flatMap Op.unsent = [])) := by
  rcases exec_cases h with hq | ⟨x, wantPull, hop, rfl, hm⟩ | ⟨x, wantPull, queue, hop, hq, rfl, hnew⟩ | ⟨rfl, hq, -, rfl, rfl⟩ |
    ⟨n, rfl, hf, rfl, rfl⟩ | ⟨n, rfl, rfl, rfl, rfl⟩ | ⟨rfl, rfl, rfl⟩ | ⟨n, rfl, rfl, rfl⟩
  · exact ⟨hq.tasks, Or.inl ⟨hq.accepted, hq.unsent⟩⟩
  · obtain ⟨rfl, rfl⟩ : m' = (m.enqueue x wantPull).1 ∧ new = (m.enqueue x wantPull).2 := by simp [← hm]
    refine ⟨rfl, Or.inr ⟨?_, ?_⟩⟩
    · rcases hop with ⟨rfl, -⟩ | rfl <;> rfl
    · cases m.waiters.head? <;> cases wantPull <;> simp [Mem.enqueue, Op.unsent]
  · refine ⟨rfl, Or.inl ⟨rfl, ?_⟩⟩
    rcases hnew with rfl | rfl <;> simp [Op.unsent]
  · exact ⟨rfl, Or.inl ⟨rfl, by simp [Op.unsent]⟩⟩
  · exact ⟨rfl, Or.inl ⟨rfl, by simp [Op.unsent]⟩⟩
  · exact ⟨rfl, Or.inl ⟨rfl, by simp⟩⟩
  · exact ⟨rfl, Or.inl ⟨rfl, by simp [List.flatMap_map, Op.unsent]⟩⟩
  · exact ⟨rfl, Or.inl ⟨rfl, by simp⟩⟩

theorem program_unsent (t k : Nat) (cmds : List (Cmd α)) :
    (∀ x ∈ (program t k cmds).flatMap Op.unsent, x.task = t ∧ k ≤ x.seq) ∧
    ((program t k cmds).flatMap Op.unsent).Pairwise (fun x y => x.seq < y.seq) := by
  induction cmds generalizing k with
  | nil => simp [program]
  | cons cmd cmds ih =>
    obtain ⟨h1, h2⟩ := ih (k + 1)
    have h1' : ∀ x ∈ (program t (k + 1) cmds).flatMap Op.unsent, x.task = t ∧ k ≤ x.seq :=
      fun x hx => ⟨(h1 x hx).1, Nat.le_of_succ_le (h1 x hx).2⟩
    cases cmd
    case send a =>
      simp only [program, List.flatMap_cons, Op.unsent, List.cons_append, List.nil_append, List.pairwise_cons,
        List.mem_cons, forall_eq_or_imp]
      exact ⟨⟨⟨trivial, Nat.le_refl k⟩, h1'⟩, fun x hx => (h1 x hx).2, h2⟩
    all_goals simpa only [program, List.flatMap_cons, Op.unsent, List.nil_append] using ⟨h1', h2⟩

theorem InOrder.exec {P : Chan} {m m' : Mem α} {pool : List (List (Op α))} {i : Nat} {op : Op α} {rest new : List (Op α)}
    {c : Choice} (h : InOrder m pool) (hi : pool[i]? = some (op :: rest)) (he : P.exec m op c = some (m', new)) :
    InOrder m' (pool.set i (new ++ rest)) := by
  have hlt : i < pool.length := (List.getElem?_eq_some_iff.mp hi).1
  have hown := h.own i _ hi
  have hsorted := h.sorted i _ hi
  simp only [List.flatMap_cons] at hown hsorted
  obtain ⟨htasks, ⟨hacc, hsub⟩ | ⟨hacc, hnil⟩⟩ := exec_unsent he
  · have hsub' : ((new ++ rest).flatMap Op.unsent).Sublist (op.unsent ++ rest.flatMap Op.unsent) := by
      rw [List.flatMap_append]
      exact hsub.append (List.Sublist.refl _)
    refine ⟨by rw [List.length_set, htasks]; exact h.tasks, by rw [hacc, htasks]; exact h.old, fun j ops hj => ?_, fun j ops hj => ?_⟩
    · rcases Machine.getElem?_set_cases hj with ⟨rfl, rfl⟩ | ⟨hij, hj⟩
      · exact fun x hx => hown x (hsub'.subset hx)
      · exact h.own j ops hj
    · rw [hacc]
      rcases Machine.getElem?_set_cases hj with ⟨rfl, rfl⟩ | ⟨hij, hj⟩
      · exact hsorted.sublist ((List.Sublist.refl _).append hsub')
      · exact h.sorted j ops hj
  · -- the message moves from what the task has still to push to what was pushed
    refine ⟨by rw [List.length_set, htasks]; exact h.tasks, ?_, fun j ops hj => ?_, fun j ops hj => ?_⟩
    · intro x hx
      rw [hacc, List.mem_append] at hx
      rw [htasks]
      rcases hx with hx | hx
      · exact h.old x hx
      · rw [hown x (List.mem_append_left _ hx), ← h.tasks]
        exact hlt
    · rcases Machine.getElem?_set_cases hj with ⟨rfl, rfl⟩ | ⟨hij, hj⟩
      · intro x hx
        rw [List.flatMap_append, hnil, List.nil_append] at hx
        exact hown x (List.mem_append_right _ hx)
      · exact h.own j ops hj
    · rw [hacc, List.filter_append]
      rcases Machine.getElem?_set_cases hj with ⟨rfl, rfl⟩ | ⟨hij, hj⟩
      · have hall : op.unsent.filter (·.task = j) = op.unsent :=
          List.filter_eq_self.mpr (fun x hx => by simp [hown x (List.mem_append_left _ hx)])
        rw [hall, List.flatMap_append, hnil, List.nil_append, List.append_assoc]
        exact hsorted
      · have hnone : op.unsent.filter (·.task = j) = [] :=
          List.filter_eq_nil_iff.mpr (fun x hx => by simp [hown x (List.mem_append_left _ hx), Ne.symm hij])
        rw [hnone, List.append_nil]
        exact h.sorted j ops hj

theorem InOrder.call {m : Mem α} {pool : List (List (Op α))} (h : InOrder m pool) (cmds : List (Cmd α)) :
    InOrder { m with tasks := m.tasks + 1 } (pool ++ [program m.tasks 0 cmds]) := by
  obtain ⟨hp, hs⟩ := program_unsent m.tasks 0 cmds
  refine ⟨by simp [h.tasks], fun x hx => Nat.lt_succ_of_lt (h.old x hx), fun i ops hi => ?_, fun i ops hi => ?_⟩
  · rcases Machine.getElem?_append_cases hi with hi | ⟨rfl, rfl⟩
    · exact h.own i ops hi
    · rw [h.tasks]
      exact fun x hx => (hp x hx).1
  · rcases Machine.getElem?_append_cases hi with hi | ⟨rfl, rfl⟩
    · exact h.sorted i ops hi
    · rw [h.tasks]
      have hnone : m.accepted.filter (·.task = m.tasks) = [] :=
        List.filter_eq_nil_iff.mpr (fun x hx => by simp [Nat.ne_of_lt (h.old x hx)])
      simpa only [hnone, List.nil_append] using hs

/-- In every state of every run. -/
theorem InOrder.reach {P : Chan} {ok : Mem α → List (Op α) → Act (Op α) Choice (List (Cmd α)) → Prop}
    {s : State (Mem α) (Op α)} (h : P.machine.Reach ok initial s) : InOrder s.mem s.pool := by
  refine h.invariant_pool (I := InOrder) ⟨rfl, by simp [initial], by simp [initial], by simp [initial]⟩ ?_ ?_
  · intro m pool i op rest c m' new hI hi he
    exact hI.exec hi he
  · intro m pool cmds m' new hI hc
    simp only [Chan.machine, Channel.call, Option.some.injEq, Prod.mk.injEq] at hc
    obtain ⟨rfl, rfl⟩ := hc
    exact hI.call cmds

/-- What one task pushed was pushed in the order of its program. -/
theorem InOrder.pairwise {m : Mem α} {pool : List (List (Op α))} (h : InOrder m pool) :
    m.accepted.Pairwise (fun x y => x.task = y.task → x.seq < y.seq) := by
  have hall : ∀ t, (m.accepted.filter (·.task = t)).Pairwise (fun x y => x.seq < y.seq) := by
    intro t
    by_cases ht : t < pool.length
    · exact (List.pairwise_append.mp (h.sorted t _ (List.getElem?_eq_getElem ht))).1
    · have hnone : m.accepted.filter (·.task = t) = [] :=
        List.filter_eq_nil_iff.mpr (fun x hx => by
          have := h.old x hx
          rw [h.tasks] at ht
          simp only [decide_eq_true_eq]
          omega)
      rw [hnone]
      exact List.Pairwise.nil
  rw [List.pairwise_iff_forall_sublist]
  intro x y hxy heq
  have hsub := hxy.filter (fun z => decide (z.task = x.task))
  simp only [List.filter_cons, decide_true, if_true, ← heq, List.filter_nil] at hsub
  exact List.pairwise_iff_forall_sublist.mp (hall x.task) hsub

end Tonio.Channel
