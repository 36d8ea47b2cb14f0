import Tonio.Tls

/-!
# The order of the payloads

What has been produced is what was sent, what the sender that has the lock is about to pass to the transport, the egress stack, and the
backlog in the order of production (`Ordered.sum`). A sender puts its payload behind the egress stack when it has the lock, so it must be
the oldest payload of the backlog: the queue of the send lock is in the order of production, and what is not queued yet is younger.
-/

namespace Tonio.Tls

open Interleaving

variable {cfg : Config} {m m' : Mem} {A B new ops : List Op} {op : Op} {c : Choice} {p : Payload}

/-! ## The steps -/

/-- The job of an operation. -/
def Op.job : Op → Option Job
  | .step job | .stepFailed job | .loadCount job | .acquireRecv job _ | .waitRecv job _ _ | .checkCount job _ | .receive job
  | .ingressWrite job | .incCount job | .releaseRecv job _ => some job
  | .acquireSend p | .waitSend p | .extend p | .snapshot p | .clearStack p _ | .transmit p _ | .sending p | .sendFailed p
  | .releaseSend p _ => some p.job
  | .stash _ => some .handshake
  | _ => none

/-- The payload of an operation of a sender. -/
def Op.payload : Op → Option Nat
  | .acquireSend p | .waitSend p | .extend p | .snapshot p | .clearStack p _ | .transmit p _ | .sending p | .sendFailed p
  | .releaseSend p _ => some p.id
  | _ => none

/-- The payload of a sender that has the lock. -/
def Op.critical : Op → Option Nat
  | .extend p | .snapshot p | .clearStack p _ | .transmit p _ | .sending p | .sendFailed p | .releaseSend p _ => some p.id
  | _ => none

/-- The payload of a sender that waits for the lock. -/
def Op.waits : Op → Option Nat
  | .waitSend p => some p.id
  | _ => none

/-- The payload of a sender that has not put it on the egress stack, with its bytes. -/
def Op.early : Op → Option (Nat × Bytes)
  | .acquireSend p | .waitSend p | .extend p => some (p.id, p.data)
  | _ => none

/-- The bytes a sender is about to pass to the transport. -/
def Op.carried : Op → Bytes
  | .transmit _ data => data
  | _ => []

/-- No task is in a handshake, and none can begin one. -/
structure Shaken (m : Mem) (ops : List Op) : Prop where
  state : m.state ≠ .init
  jobs : ∀ x ∈ ops, x.job ≠ some .handshake

/-- What the sends are about is untouched; payloads that were not made may have been counted. -/
structure Mem.Same (m m' : Mem) : Prop where
  produced : m'.produced = m.produced
  sent : m'.sent = m.sent
  egressStack : m'.egressStack = m.egressStack
  sendQueue : m'.sendQueue = m.sendQueue
  backlog : m'.backlog = m.backlog
  next : m.next ≤ m'.next

/-- What an operation does to the payloads, when no task is in a handshake and no sender is cancelled while it waits. -/
inductive Move (m : Mem) : Op → Mem → List Op → Prop where
  | idle {x : Op} {m' : Mem} {new : List Op} (hx : x.payload = none) (hnew : ∀ y ∈ new, y.payload = none) (hs : m.Same m') :
      Move m x m' new
  | produce (job : Job) (wantRead : Bool) (toSend : Bytes) :
      Move m (.step job)
        { m with produced := m.produced ++ toSend, next := m.next + 1, backlog := m.backlog ++ [(m.next, toSend)] }
        [.acquireSend ⟨job, wantRead, m.next, toSend⟩]
  | acquire (p : Payload) : Move m (.acquireSend p) { m with sendQueue := m.sendQueue ++ [p.id] } [.waitSend p]
  | wait (p : Payload) (hq : m.sendQueue.head? = some p.id) : Move m (.waitSend p) m [.extend p]
  | extend (p : Payload) :
      Move m (.extend p) { m with egressStack := m.egressStack ++ p.data, backlog := m.backlog.filter (fun x => x.1 ≠ p.id) }
        [.snapshot p]
  | snapshot (p : Payload) : Move m (.snapshot p) m [.clearStack p m.egressStack]
  | clear (p : Payload) (data : Bytes) : Move m (.clearStack p data) { m with egressStack := [] } [.transmit p data]
  | transmit (p : Payload) (data : Bytes) : Move m (.transmit p data) { m with sent := m.sent ++ data } [.sending p]
  | hold {x y : Op} {m' : Mem} (p : Payload) (hx : x = .sending p ∨ x = .sendFailed p)
      (hy : y = .sendFailed p ∨ ∃ failed, y = .releaseSend p failed) (hs : m.Same m') : Move m x m' [y]
  | release (p : Payload) (failed : Bool) {new : List Op} (hnew : ∀ y ∈ new, y.payload = none) :
      Move m (.releaseSend p failed) { m with sendQueue := m.sendQueue.tail } new

theorem payload_next (job : Job) (b : Bool) : ∀ y ∈ job.next b, y.payload = none := by
  cases job <;> cases b <;> simp [Job.next, Op.payload]

theorem payload_raised (job : Job) : ∀ y ∈ job.raised, y.payload = none := by
  cases job <;> simp [Job.raised, Op.payload]

/-- Every step is one of these. -/
theorem exec_move (he : exec cfg m op c = some (m', new)) (hS : Shaken m (A ++ op :: B)) (hc : ∀ p, op = .waitSend p → c ≠ .cancel) :
    Move m op m' new := by
  have hjob := hS.jobs op (by simp)
  cases op
  all_goals
    cases c <;> simp only [exec, reduceCtorEq, Option.some.injEq, Prod.mk.injEq] at he
  case handshakePre.go =>
    rw [if_neg hS.state] at he
    obtain ⟨rfl, rfl⟩ : _ ∧ _ := by simpa using he
    exact .idle rfl (by simp) ⟨rfl, rfl, rfl, rfl, rfl, Nat.le_refl _⟩
  case stash.go => exact absurd rfl hjob
  case step.step job toSend wantRead =>
    obtain ⟨rfl, rfl⟩ := he
    have hst : stashed cfg job wantRead = false := by
      have : job ≠ .handshake := by simpa [Op.job] using hjob
      simp [stashed, this]
    rw [hst]
    by_cases hne : toSend = []
    · subst hne
      refine .idle rfl ?_ ⟨by simp [Mem.produce], rfl, rfl, rfl, by simp [Mem.produce], by simp [Mem.produce]⟩
      unfold afterStep
      rw [hst]
      simp only [Bool.false_eq_true, if_false, ne_eq, not_true_eq_false]
      split
      · simp [Op.payload]
      · exact payload_next job false
    · have hm : m.produce false toSend =
          { m with produced := m.produced ++ toSend, next := m.next + 1, backlog := m.backlog ++ [(m.next, toSend)] } := by
        simp [Mem.produce, hne]
      have hn : afterStep cfg m job toSend wantRead = [.acquireSend ⟨job, wantRead, m.next, toSend⟩] := by
        simp [afterStep, hst, hne]
      rw [hm, hn]
      exact .produce job wantRead toSend
  case waitSend.go p =>
    split at he
    · rename_i hq
      obtain ⟨rfl, rfl⟩ : _ ∧ _ := by simpa using he
      exact .wait p hq
    · cases he
  case waitSend.cancel p => exact absurd rfl (hc p rfl)
  case sending.go p =>
    obtain ⟨rfl, rfl⟩ := he
    exact .hold p (Or.inl rfl) (Or.inr ⟨false, rfl⟩) ⟨rfl, rfl, rfl, rfl, rfl, Nat.le_refl _⟩
  case sending.fail p =>
    obtain ⟨rfl, rfl⟩ := he
    exact .hold p (Or.inl rfl) (Or.inl rfl) ⟨rfl, rfl, rfl, rfl, rfl, Nat.le_refl _⟩
  case sending.cancel p =>
    obtain ⟨rfl, rfl⟩ := he
    exact .hold p (Or.inl rfl) (Or.inl rfl) ⟨rfl, rfl, rfl, rfl, rfl, Nat.le_refl _⟩
  case sendFailed.go p =>
    obtain ⟨rfl, rfl⟩ := he
    exact .hold p (Or.inr rfl) (Or.inr ⟨true, rfl⟩) ⟨rfl, rfl, rfl, rfl, rfl, Nat.le_refl _⟩
  case releaseSend.go p failed =>
    obtain ⟨rfl, rfl⟩ := he
    refine .release p failed ?_
    split
    · exact payload_raised p.job
    · exact payload_next p.job p.wantRead
  case acquireSend.go p =>
    obtain ⟨rfl, rfl⟩ := he
    exact .acquire p
  case extend.go p =>
    obtain ⟨rfl, rfl⟩ := he
    exact .extend p
  case snapshot.go p =>
    obtain ⟨rfl, rfl⟩ := he
    exact .snapshot p
  case clearStack.go p data =>
    obtain ⟨rfl, rfl⟩ := he
    exact .clear p data
  case transmit.go p data =>
    obtain ⟨rfl, rfl⟩ := he
    exact .transmit p data
  case stepFailed.go job =>
    obtain ⟨rfl, rfl⟩ := he
    exact .idle rfl (payload_raised job) ⟨rfl, rfl, rfl, rfl, rfl, Nat.le_refl _⟩
  case releaseRecv.go job failed =>
    obtain ⟨rfl, rfl⟩ := he
    refine .idle rfl ?_ ⟨rfl, rfl, rfl, rfl, rfl, Nat.le_refl _⟩
    split
    · exact payload_raised job
    · exact payload_next job true
  case waitRecv.go job count ticket =>
    split at he
    · obtain ⟨rfl, rfl⟩ : _ ∧ _ := by simpa using he
      exact .idle rfl (by simp [Op.payload]) ⟨rfl, rfl, rfl, rfl, rfl, Nat.le_refl _⟩
    · cases he
  case waitRecv.cancel job count ticket =>
    obtain ⟨rfl, rfl⟩ := he
    exact .idle rfl (payload_raised job) ⟨rfl, rfl, rfl, rfl, rfl, Nat.le_refl _⟩
  case acquireRecv.go job count =>
    obtain ⟨rfl, rfl⟩ := he
    exact .idle rfl (by simp [Op.payload]) ⟨rfl, rfl, rfl, rfl, rfl, Nat.le_succ _⟩
  case handshakePost.go =>
    obtain ⟨rfl, rfl⟩ := he
    refine .idle rfl (by simp) ?_
    split <;> exact ⟨rfl, rfl, rfl, rfl, rfl, Nat.le_refl _⟩
  all_goals
    obtain ⟨rfl, rfl⟩ := he
    refine .idle rfl ?_ ⟨rfl, rfl, rfl, rfl, rfl, Nat.le_refl _⟩
    first
    | (split <;> simp [Op.payload])
    | simp [Op.payload]

/-! ## After the handshake -/

theorem job_next {job : Job} (hj : job ≠ .handshake) (b : Bool) : ∀ y ∈ job.next b, y.job ≠ some .handshake := by
  cases job <;> cases b <;> simp_all [Job.next, Op.job]

theorem job_raised (job : Job) : ∀ y ∈ job.raised, y.job ≠ some .handshake := by
  cases job <;> simp [Job.raised, Op.job]

theorem job_afterStep {job : Job} {toSend : Bytes} {wantRead : Bool} (hj : job ≠ .handshake) :
    ∀ y ∈ afterStep cfg m job toSend wantRead, y.job ≠ some .handshake := by
  have hst : stashed cfg job wantRead = false := by simp [stashed, hj]
  unfold afterStep
  rw [hst, if_neg Bool.false_ne_true]
  split
  · simpa [Op.job] using hj
  · split
    · simpa [Op.job] using hj
    · exact job_next hj false

/-- A stream whose handshake is over stays so. -/
theorem Shaken.exec (h : Shaken m (A ++ op :: B)) (he : exec cfg m op c = some (m', new)) : Shaken m' (A ++ (new ++ B)) := by
  have hjob := h.jobs op (by simp)
  have hstep : m'.state ≠ .init ∧ ∀ y ∈ new, y.job ≠ some .handshake := by
    have hst := h.state
    cases op
    all_goals
      cases c <;> simp only [Tls.exec, reduceCtorEq, Option.some.injEq, Prod.mk.injEq] at he
    case handshakePre.go =>
      rw [if_neg hst] at he
      obtain ⟨rfl, rfl⟩ : _ ∧ _ := by simpa using he
      exact ⟨hst, by simp⟩
    case stash.go => exact absurd rfl hjob
    case step.step job toSend wantRead =>
      obtain ⟨rfl, rfl⟩ := he
      exact ⟨hst, job_afterStep (by simpa [Op.job] using hjob)⟩
    case waitSend.go p =>
      split at he
      · obtain ⟨rfl, rfl⟩ : _ ∧ _ := by simpa using he
        exact ⟨hst, by simpa [Op.job] using hjob⟩
      · cases he
    case waitRecv.go job count ticket =>
      split at he
      · obtain ⟨rfl, rfl⟩ : _ ∧ _ := by simpa using he
        exact ⟨hst, by simpa [Op.job] using hjob⟩
      · cases he
    case releaseSend.go p failed =>
      obtain ⟨rfl, rfl⟩ := he
      refine ⟨hst, ?_⟩
      split
      · exact job_raised p.job
      · exact job_next (by simpa [Op.job] using hjob) p.wantRead
    case releaseRecv.go job failed =>
      obtain ⟨rfl, rfl⟩ := he
      refine ⟨hst, ?_⟩
      split
      · exact job_raised job
      · exact job_next (by simpa [Op.job] using hjob) true
    case stepFailed.go job =>
      obtain ⟨rfl, rfl⟩ := he
      exact ⟨by simp, job_raised job⟩
    case waitSend.cancel p =>
      obtain ⟨rfl, rfl⟩ := he
      exact ⟨hst, job_raised p.job⟩
    case waitRecv.cancel job count ticket =>
      obtain ⟨rfl, rfl⟩ := he
      exact ⟨hst, job_raised job⟩
    case handshakePost.go =>
      obtain ⟨rfl, rfl⟩ := he
      refine ⟨?_, by simp⟩
      split
      · simp
      · exact hst
    case checkReady.go | closeCheck.go | closeBroken.go | exitCheck.go | exitBroken.go =>
      obtain ⟨rfl, rfl⟩ := he
      refine ⟨hst, ?_⟩
      split <;> simp [Op.job]
    case checkCount.go job count =>
      obtain ⟨rfl, rfl⟩ := he
      refine ⟨hst, ?_⟩
      split <;> simpa [Op.job] using hjob
    case setClosed.go | exitClosed.go | transportClose.go =>
      obtain ⟨rfl, rfl⟩ := he
      exact ⟨by simp [hst], by simp [Op.job]⟩
    all_goals
      obtain ⟨rfl, rfl⟩ := he
      exact ⟨by simp [hst], by simpa [Op.job] using hjob⟩
  refine ⟨hstep.1, fun x hx => ?_⟩
  rcases Machine.mem_cases op hx with hx | hx
  · exact hstep.2 x hx
  · exact h.jobs x hx

/-- What a call adds has neither a job nor a payload. -/
theorem call_facts {l : Call} (hc : call m l = some (m', new)) :
    m' = m ∧ ∀ y ∈ new, y.job = none ∧ y.payload = none ∧ y.carried = [] := by
  cases l <;> simp only [call, Option.some.injEq, Prod.mk.injEq] at hc <;> obtain ⟨rfl, rfl⟩ := hc <;>
    simp [Op.job, Op.payload, Op.carried]

theorem shaken_of_reach {ok : Mem → List Op → Act Op Choice Call → Prop} {stashed : Bytes} {s : State Mem Op}
    (h : (machine cfg).Reach ok (ready stashed) s) : Shaken s.mem s.ops := by
  refine h.invariant (I := Shaken) ?_ ?_ ?_
  · exact ⟨by simp [ready], fun x hx => absurd hx List.not_mem_nil⟩
  · exact fun m A op B c m' new hI _ he => hI.exec he
  · intro m ops l m' new hI _ hc
    obtain ⟨rfl, hnew⟩ := call_facts hc
    refine ⟨hI.state, fun x hx => ?_⟩
    rcases List.mem_append.mp hx with hx | hx
    · exact hI.jobs x hx
    · rw [(hnew x hx).1]
      simp

/-! ## The order -/

/-- The bytes that are about to be passed to the transport. -/
def carried (ops : List Op) : Bytes := (ops.map Op.carried).flatten

@[simp] theorem carried_append (A B : List Op) : carried (A ++ B) = carried A ++ carried B := by
  simp [carried]

@[simp] theorem carried_cons (op : Op) (ops : List Op) : carried (op :: ops) = op.carried ++ carried ops := by
  simp [carried]

@[simp] theorem carried_nil : carried [] = [] := rfl

/-- Whether an operation is of the sender of a payload. -/
def sending (n : Nat) (op : Op) : Nat := isAt op.payload n

/-- Where the payloads are: each in the hands of one sender, in the backlog until it is put on the egress stack. -/
structure Placed (m : Mem) (ops : List Op) : Prop where
  solo : ∀ n, total (sending n) ops ≤ 1
  fresh : ∀ n, m.next ≤ n → total (sending n) ops = 0
  sorted : (m.backlog.map Prod.fst).Pairwise (· < ·)
  bound : ∀ x ∈ m.backlog, x.1 < m.next
  early : ∀ x, x ∈ m.backlog ↔ ∃ op ∈ ops, op.early = some x

/-- The queue of the send lock is in the order of the payloads, and what is not queued is younger. -/
structure Queued (m : Mem) (ops : List Op) : Prop where
  queue : m.sendQueue.Pairwise (· < ·)
  bound : ∀ k ∈ m.sendQueue, k < m.next
  front : ∀ op ∈ ops, ∀ n, op.unqueued = some n → ∀ k ∈ m.sendQueue, k < n
  waits : ∀ op ∈ ops, ∀ n, op.waits = some n → n ∈ m.sendQueue
  holder : ∀ op ∈ ops, ∀ n, op.critical = some n → m.sendQueue.head? = some n

/-- What has been produced, in order. -/
structure Ordered (m : Mem) (ops : List Op) : Prop where
  snapshot : ∀ p data, Op.clearStack p data ∈ ops → data = m.egressStack
  sum : m.produced = m.sent ++ carried ops ++ m.egressStack ++ (m.backlog.map Prod.snd).flatten

theorem payload_of_early {x : Op} {e : Nat × Bytes} (h : x.early = some e) : x.payload = some e.1 := by
  cases x <;> cases h <;> rfl

theorem payload_of_critical {x : Op} {n : Nat} (h : x.critical = some n) : x.payload = some n := by
  cases x <;> first | exact h | cases h

theorem payload_of_waits {x : Op} {n : Nat} (h : x.waits = some n) : x.payload = some n := by
  cases x <;> first | exact h | cases h

theorem payload_of_unqueued {x : Op} {n : Nat} (h : x.unqueued = some n) : x.payload = some n := by
  cases x <;> first | exact h | cases h

/-- Nothing else is of the sender of the operation performed. -/
theorem Placed.beside (h : Placed m (A ++ op :: B)) {n : Nat} (hop : op.payload = some n) {x : Op} (hx : x ∈ A ++ B) :
    x.payload ≠ some n :=
  key_ne_of_total_le (h.solo n) hop hx

/-- How a step changes the hands a payload is in: it stays with its sender, or is made, or its sender is through. -/
theorem Move.sending (hm : Move m op m' new) (n : Nat) :
    total (sending n) new ≤ Tls.sending n op + isAt (some m.next) n ∧ (m'.next ≤ n → total (Tls.sending n) new ≤ Tls.sending n op) ∧
      (n = m.next → total (Tls.sending n) new ≤ 1) ∧ m.next ≤ m'.next := by
  have hle := isAt_le op.payload n
  cases hm with
  | idle hx hnew hs =>
    have h0 : total (Tls.sending n) new = 0 := total_eq_zero_iff.mpr (fun y hy => by simp [Tls.sending, hnew y hy])
    exact ⟨by omega, by omega, by omega, hs.next⟩
  | produce job wantRead toSend =>
    by_cases hn : m.next = n
    · subst hn
      simp [Tls.sending, Op.payload]
    · simp only [Tls.sending, Op.payload, total_cons, total_nil, isAt_some_of_ne hn, isAt_none]
      omega
  | release p failed hnew =>
    have h0 : total (Tls.sending n) new = 0 := total_eq_zero_iff.mpr (fun y hy => by simp [Tls.sending, hnew y hy])
    exact ⟨by omega, by omega, by omega, Nat.le_refl _⟩
  | hold p hx hy hs =>
    have hxp : op.payload = some p.id := by rcases hx with rfl | rfl <;> rfl
    have hnp : ∀ y : Op, (y = .sendFailed p ∨ ∃ failed, y = .releaseSend p failed) → y.payload = some p.id := by
      rintro y (rfl | ⟨failed, rfl⟩) <;> rfl
    simp only [Tls.sending, total_cons, total_nil, hnp _ hy, hxp]
    rw [hxp] at hle
    exact ⟨by omega, by omega, by omega, hs.next⟩
  | _ =>
    simp only [Tls.sending, Op.payload, total_cons, total_nil] at hle ⊢
    omega

theorem Placed.move (h : Placed m (A ++ op :: B)) (hm : Move m op m' new) : Placed m' (A ++ (new ++ B)) := by
  have hsolo : ∀ n, total (Tls.sending n) (A ++ (new ++ B)) ≤ 1 := by
    intro n
    have h1 := h.solo n
    obtain ⟨h2, -, h4, -⟩ := hm.sending n
    have h3 := total_step (Tls.sending n) A B new op
    by_cases hn : m.next = n
    · have h5 := h.fresh n (by omega)
      have h6 := h4 hn.symm
      omega
    · rw [isAt_some_of_ne hn] at h2
      omega
  have hfresh : ∀ n, m'.next ≤ n → total (Tls.sending n) (A ++ (new ++ B)) = 0 := by
    intro n hn
    obtain ⟨-, h2, -, h4⟩ := hm.sending n
    have h1 := h.fresh n (by omega)
    have h3 := total_step (Tls.sending n) A B new op
    have h5 := h2 hn
    omega
  -- the backlog is what the senders have not put on the egress stack
  have hback : (m'.backlog.map Prod.fst).Pairwise (· < ·) ∧ (∀ x ∈ m'.backlog, x.1 < m'.next) ∧
      ∀ e, e ∈ m'.backlog ↔ (∃ x ∈ new, x.early = some e) ∨ ∃ x ∈ A ++ B, x.early = some e := by
    have hearly : ∀ e, e ∈ m.backlog ↔ op.early = some e ∨ ∃ x ∈ A ++ B, x.early = some e := fun e =>
      (h.early e).trans Machine.exists_mem_before
    cases hm with
    | idle hx hnew hs =>
      rw [hs.backlog]
      refine ⟨h.sorted, fun x hx => Nat.lt_of_lt_of_le (h.bound x hx) hs.next, fun e => ?_⟩
      rw [hearly e]
      refine or_congr ⟨fun he => ?_, fun ⟨y, hy, he⟩ => ?_⟩ Iff.rfl
      · rw [payload_of_early he] at hx
        cases hx
      · have := hnew y hy
        rw [payload_of_early he] at this
        cases this
    | produce job wantRead toSend =>
      refine ⟨?_, fun x hx => ?_, fun e => ?_⟩
      · rw [List.map_append, List.pairwise_append]
        refine ⟨h.sorted, by simp, fun a ha b hb => ?_⟩
        obtain ⟨x, hx, rfl⟩ := List.mem_map.mp ha
        obtain rfl : b = m.next := by simpa using hb
        exact h.bound x hx
      · rcases List.mem_append.mp hx with hx | hx
        · exact Nat.lt_succ_of_lt (h.bound x hx)
        · rw [List.mem_singleton.mp hx]
          exact Nat.lt_succ_self _
      · rw [List.mem_append, hearly e, List.mem_singleton]
        simp only [List.mem_singleton, exists_eq_left, Op.early, reduceCtorEq, false_or, Option.some.injEq]
        rw [or_comm, eq_comm]
    | extend p =>
      refine ⟨?_, fun x hx => h.bound x (List.mem_of_mem_filter hx), fun e => ?_⟩
      · exact h.sorted.sublist (List.filter_sublist.map _)
      · rw [List.mem_filter, hearly e]
        simp only [List.mem_singleton, exists_eq_left, Op.early, reduceCtorEq, false_or, Option.some.injEq, ne_eq, decide_not,
          Bool.not_eq_true', decide_eq_false_iff_not]
        constructor
        · rintro ⟨rfl | hex, hne⟩
          · exact absurd rfl hne
          · exact hex
        · rintro ⟨x, hx, he⟩
          refine ⟨Or.inr ⟨x, hx, he⟩, fun hid => ?_⟩
          exact h.beside rfl hx (hid ▸ payload_of_early he)
    | acquire p | wait p =>
      refine ⟨h.sorted, h.bound, fun e => ?_⟩
      rw [hearly e]
      simp [Op.early]
    | hold p hx hy hs =>
      rw [hs.backlog]
      refine ⟨h.sorted, fun x hx => Nat.lt_of_lt_of_le (h.bound x hx) hs.next, fun e => ?_⟩
      rw [hearly e]
      rcases hx with rfl | rfl <;> rcases hy with rfl | ⟨failed, rfl⟩ <;> simp [Op.early]
    | release p failed hnew =>
      refine ⟨h.sorted, h.bound, fun e => ?_⟩
      rw [hearly e]
      refine or_congr ⟨fun he => absurd he (by simp [Op.early]), fun ⟨y, hy, he⟩ => ?_⟩ Iff.rfl
      have := hnew y hy
      rw [payload_of_early he] at this
      cases this
    | snapshot p | clear p data | transmit p data =>
      refine ⟨h.sorted, h.bound, fun e => ?_⟩
      rw [hearly e]
      simp [Op.early]
  exact ⟨hsolo, hfresh, hback.1, hback.2.1,
    fun e => (hback.2.2 e).trans Machine.exists_mem_after.symm⟩

/-- Only one sender has the lock. -/
theorem Queued.critical_ne (h : Queued m (A ++ op :: B)) (hP : Placed m (A ++ op :: B)) {n : Nat} (hop : op.critical = some n)
    {x : Op} (hx : x ∈ A ++ B) : x.critical = none := by
  cases hc : x.critical with
  | none => rfl
  | some k =>
    have hin : x ∈ A ++ op :: B := Machine.mem_before op hx
    have h1 := h.holder op (by simp) n hop
    have h2 := h.holder x hin k hc
    obtain rfl : n = k := Option.some.inj (h1.symm.trans h2)
    exact absurd (payload_of_critical hc) (hP.beside (payload_of_critical hop) hx)

/-- An operation keeps to the queue of the send lock: as long as it is not queued it is younger than what is, it does not wait, and it
has the lock only at the head. -/
def Op.Keeps (m : Mem) (y : Op) : Prop :=
  (∀ n, y.unqueued = some n → ∀ k ∈ m.sendQueue, k < n) ∧ y.waits = none ∧ ∀ n, y.critical = some n → m.sendQueue.head? = some n

theorem Op.keeps_of_payload {y : Op} (hy : y.payload = none) : y.Keeps m := by
  refine ⟨fun n hn => ?_, ?_, fun n hn => ?_⟩
  · rw [payload_of_unqueued hn] at hy
    cases hy
  · cases hw : y.waits with
    | none => rfl
    | some n =>
      rw [payload_of_waits hw] at hy
      cases hy
  · rw [payload_of_critical hn] at hy
    cases hy

/-- The queue is the same, and what follows keeps to it. -/
theorem Queued.of_same (h : Queued m (A ++ op :: B)) (hq : m'.sendQueue = m.sendQueue) (hn : m.next ≤ m'.next)
    (hnew : ∀ y ∈ new, y.Keeps m) : Queued m' (A ++ (new ++ B)) := by
  refine ⟨hq ▸ h.queue, fun k hk => ?_, fun x hx => ?_, fun x hx n hn => ?_, fun x hx => ?_⟩
  · rw [hq] at hk
    exact Nat.lt_of_lt_of_le (h.bound k hk) hn
  · rw [hq]
    rcases Machine.mem_beside hx with hx | hx
    · exact (hnew x hx).1
    · exact h.front x (Machine.mem_before _ hx)
  · rw [hq]
    rcases Machine.mem_beside hx with hx | hx
    · rw [(hnew x hx).2.1] at hn
      cases hn
    · exact h.waits x (Machine.mem_before _ hx) n hn
  · rw [hq]
    rcases Machine.mem_beside hx with hx | hx
    · exact (hnew x hx).2.2
    · exact h.holder x (Machine.mem_before _ hx)

/-- A sender joins the queue, and whoever has not is younger. -/
theorem Queued.acquire {p : Payload} (h : Queued m (A ++ .acquireSend p :: B)) (hP : Placed m (A ++ .acquireSend p :: B))
    (hok : ∀ x ∈ A ++ B, ∀ n, x.unqueued = some n → p.id ≤ n) :
    Queued { m with sendQueue := m.sendQueue ++ [p.id] } (A ++ ([.waitSend p] ++ B)) := by
  have hop : Op.acquireSend p ∈ A ++ Op.acquireSend p :: B := by simp
  have hp : p.id < m.next := by
    by_contra hle
    exact key_ne_of_total_eq_zero (hP.fresh p.id (Nat.le_of_not_lt hle)) hop rfl
  refine ⟨?_, fun k hk => ?_, fun x hx n hn k hk => ?_, fun x hx n hn => ?_, fun x hx n hn => ?_⟩
  · refine List.pairwise_append.mpr ⟨h.queue, by simp, fun a ha b hb => ?_⟩
    rw [List.mem_singleton.mp hb]
    exact h.front _ hop p.id rfl a ha
  · rcases List.mem_append.mp hk with hk | hk
    · exact h.bound k hk
    · rw [List.mem_singleton.mp hk]
      exact hp
  · rcases Machine.mem_beside hx with hx | hx
    · rw [List.mem_singleton.mp hx] at hn
      cases hn
    · rcases List.mem_append.mp hk with hk | hk
      · exact h.front x (Machine.mem_before _ hx) n hn k hk
      · rw [List.mem_singleton.mp hk]
        refine Nat.lt_of_le_of_ne (hok x hx n hn) (fun heq => ?_)
        exact hP.beside (n := p.id) rfl hx (heq ▸ payload_of_unqueued hn)
  · rcases Machine.mem_beside hx with hx | hx
    · rw [List.mem_singleton.mp hx] at hn
      obtain rfl : p.id = n := by simpa [Op.waits] using hn
      simp
    · exact List.mem_append_left _ (h.waits x (Machine.mem_before _ hx) n hn)
  · rcases Machine.mem_beside hx with hx | hx
    · rw [List.mem_singleton.mp hx] at hn
      cases hn
    · have := h.holder x (Machine.mem_before _ hx) n hn
      simp [List.head?_append, this]

/-- The sender that has the lock leaves the queue, of which it is the head. -/
theorem Queued.release {p : Payload} {failed : Bool} (h : Queued m (A ++ .releaseSend p failed :: B))
    (hP : Placed m (A ++ .releaseSend p failed :: B)) (hnew : ∀ y ∈ new, y.payload = none) :
    Queued { m with sendQueue := m.sendQueue.tail } (A ++ (new ++ B)) := by
  obtain ⟨rest, hrest⟩ : ∃ rest, m.sendQueue = p.id :: rest := by
    have := h.holder (.releaseSend p failed) (by simp) p.id rfl
    cases hq : m.sendQueue with
    | nil => simp [hq] at this
    | cons k rest =>
      obtain rfl : k = p.id := by simpa [hq] using this
      exact ⟨rest, rfl⟩
  have hsub : ∀ k ∈ rest, k ∈ m.sendQueue := fun k hk => by simp [hrest, hk]
  have htail : { m with sendQueue := m.sendQueue.tail }.sendQueue = rest := by simp [hrest]
  refine ⟨?_, fun k hk => ?_, fun x hx n hn k hk => ?_, fun x hx n hn => ?_, fun x hx n hn => ?_⟩
  · rw [htail]
    exact (List.pairwise_cons.mp (hrest ▸ h.queue)).2
  · rw [htail] at hk
    exact h.bound k (hsub k hk)
  · rw [htail] at hk
    rcases Machine.mem_beside hx with hx | hx
    · have := hnew x hx
      rw [payload_of_unqueued hn] at this
      cases this
    · exact h.front x (Machine.mem_before _ hx) n hn k (hsub k hk)
  · rw [htail]
    rcases Machine.mem_beside hx with hx | hx
    · have := hnew x hx
      rw [payload_of_waits hn] at this
      cases this
    · have hin := h.waits x (Machine.mem_before _ hx) n hn
      rw [hrest] at hin
      rcases List.mem_cons.mp hin with rfl | hin
      · exact absurd (payload_of_waits hn) (hP.beside rfl hx)
      · exact hin
  · rcases Machine.mem_beside hx with hx | hx
    · have := hnew x hx
      rw [payload_of_critical hn] at this
      cases this
    · rw [h.critical_ne hP (n := p.id) rfl hx] at hn
      cases hn

theorem Queued.move (h : Queued m (A ++ op :: B)) (hP : Placed m (A ++ op :: B)) (hm : Move m op m' new)
    (hok : ∀ p, op = .acquireSend p → ∀ x ∈ A ++ B, ∀ n, x.unqueued = some n → p.id ≤ n) : Queued m' (A ++ (new ++ B)) := by
  have hop : op ∈ A ++ op :: B := by simp
  cases hm with
  | idle hx hnew hs => exact h.of_same hs.sendQueue hs.next (fun y hy => Op.keeps_of_payload (hnew y hy))
  | produce job wantRead toSend =>
    refine h.of_same rfl (Nat.le_succ _) (fun y hy => ?_)
    rw [List.mem_singleton.mp hy]
    refine ⟨fun n hn k hk => ?_, rfl, by simp [Op.critical]⟩
    obtain rfl : m.next = n := by simpa [Op.unqueued] using hn
    exact h.bound k hk
  | acquire p => exact h.acquire hP (hok p rfl)
  | wait p hq =>
    refine h.of_same rfl (Nat.le_refl _) (fun y hy => ?_)
    rw [List.mem_singleton.mp hy]
    exact ⟨by simp [Op.unqueued], rfl, fun n hn => (by simpa [Op.critical] using hn : p.id = n) ▸ hq⟩
  | extend p | snapshot p | clear p data | transmit p data =>
    refine h.of_same rfl (Nat.le_refl _) (fun y hy => ?_)
    rw [List.mem_singleton.mp hy]
    exact ⟨by simp [Op.unqueued], rfl, fun n hn => h.holder _ hop n hn⟩
  | hold p hx hy hs =>
    refine h.of_same hs.sendQueue hs.next (fun y hy' => ?_)
    have hcrit : m.sendQueue.head? = some p.id := h.holder op hop p.id (by rcases hx with rfl | rfl <;> rfl)
    rw [List.mem_singleton.mp hy']
    rcases hy with rfl | ⟨failed, rfl⟩
    · exact ⟨by simp [Op.unqueued], rfl, fun n hn => (by simpa [Op.critical] using hn : p.id = n) ▸ hcrit⟩
    · exact ⟨by simp [Op.unqueued], rfl, fun n hn => (by simpa [Op.critical] using hn : p.id = n) ▸ hcrit⟩
  | release p failed hnew => exact h.release hP hnew

theorem carried_of_payload {x : Op} (h : x.payload = none) : x.carried = [] := by
  cases x <;> first | rfl | cases h

theorem carried_of_critical {x : Op} (h : x.critical = none) : x.carried = [] := by
  cases x <;> first | rfl | cases h

theorem carried_eq_nil (h : ∀ x ∈ ops, x.carried = []) : carried ops = [] := by
  simpa [carried] using h

/-- The oldest element of a list in order is its head, and the rest is what is left without it. -/
theorem eq_cons_of_least {l : List (Nat × Bytes)} {e : Nat × Bytes} (hs : (l.map Prod.fst).Pairwise (· < ·)) (he : e ∈ l)
    (hle : ∀ x ∈ l, e.1 ≤ x.1) : l = e :: l.filter (fun x => x.1 ≠ e.1) := by
  cases l with
  | nil => cases he
  | cons x l =>
    rw [List.map_cons, List.pairwise_cons] at hs
    have hlt : ∀ y ∈ l, x.1 < y.1 := fun y hy => hs.1 y.1 (List.mem_map_of_mem hy)
    obtain rfl : e = x := by
      rcases List.mem_cons.mp he with he | he
      · exact he
      · have h1 := hlt e he
        have h2 := hle x (by simp)
        omega
    have hrest : l.filter (fun y => y.1 ≠ e.1) = l := by
      refine List.filter_eq_self.mpr (fun y hy => ?_)
      have := hlt y hy
      simp
      omega
    rw [List.filter_cons_of_neg (by simp), hrest]

/-- The sender that has the lock has the oldest payload of the backlog. -/
theorem Queued.least (h : Queued m (A ++ .extend p :: B)) (hP : Placed m (A ++ .extend p :: B)) :
    ∀ x ∈ m.backlog, p.id ≤ x.1 := by
  intro x hx
  have hhead := h.holder (.extend p) (by simp) p.id rfl
  obtain ⟨rest, hrest⟩ : ∃ rest, m.sendQueue = p.id :: rest := by
    cases hq : m.sendQueue with
    | nil => simp [hq] at hhead
    | cons k rest =>
      obtain rfl : k = p.id := by simpa [hq] using hhead
      exact ⟨rest, rfl⟩
  have hqueued : ∀ k ∈ m.sendQueue, p.id ≤ k := by
    intro k hk
    rw [hrest] at hk
    rcases List.mem_cons.mp hk with rfl | hk
    · exact Nat.le_refl _
    · exact Nat.le_of_lt ((List.pairwise_cons.mp (hrest ▸ h.queue)).1 k hk)
  obtain ⟨y, hy, hye⟩ := (hP.early x).mp hx
  cases y with
  | acquireSend q =>
    obtain rfl : (q.id, q.data) = x := by simpa [Op.early] using hye
    exact Nat.le_of_lt (h.front _ hy q.id rfl p.id (by simp [hrest]))
  | waitSend q =>
    obtain rfl : (q.id, q.data) = x := by simpa [Op.early] using hye
    exact hqueued q.id (h.waits _ hy q.id rfl)
  | extend q =>
    obtain rfl : (q.id, q.data) = x := by simpa [Op.early] using hye
    have := h.holder _ hy q.id rfl
    exact Nat.le_of_eq (Option.some.inj (hhead.symm.trans this))
  | _ => cases hye

theorem Ordered.move (h : Ordered m (A ++ op :: B)) (hP : Placed m (A ++ op :: B)) (hQ : Queued m (A ++ op :: B))
    (hm : Move m op m' new) : Ordered m' (A ++ (new ++ B)) := by
  have hsum := h.sum
  have hothers : ∀ n, op.critical = some n → carried A = [] ∧ carried B = [] := by
    intro n hn
    have hx : ∀ x ∈ A ++ B, x.carried = [] := fun x hx => carried_of_critical (hQ.critical_ne hP hn hx)
    exact ⟨carried_eq_nil (fun x hxA => hx x (by simp [hxA])), carried_eq_nil (fun x hxB => hx x (by simp [hxB]))⟩
  -- a step that leaves the egress stack alone, or that is made with the lock, keeps what was copied of it
  have hsnap : (m'.egressStack = m.egressStack ∨ ∃ n, op.critical = some n) →
      (∀ p data, Op.clearStack p data ∈ new → data = m'.egressStack) →
      ∀ p data, Op.clearStack p data ∈ A ++ (new ++ B) → data = m'.egressStack := by
    intro hor hnew p data hx
    rcases Machine.mem_beside hx with hx | hx
    · exact hnew p data hx
    · rcases hor with heq | ⟨n, hn⟩
      · rw [heq]
        exact h.snapshot p data (Machine.mem_before _ hx)
      · have := hQ.critical_ne hP hn hx
        cases this
  have hnone : ∀ l : List Op, (∀ y ∈ l, y.payload = none) → (∀ p data, Op.clearStack p data ∈ l → data = m'.egressStack) := by
    intro l hl p data hx
    have := hl _ hx
    cases this
  cases hm with
  | idle hx hnew hs =>
    refine ⟨hsnap (Or.inl hs.egressStack) (hnone new hnew), ?_⟩
    have h1 := carried_eq_nil (fun y (hy : y ∈ new) => carried_of_payload (hnew y hy))
    simp only [carried_append, carried_cons, carried_of_payload hx, List.nil_append] at hsum
    rw [hs.produced, hs.sent, hs.egressStack, hs.backlog, hsum]
    simp [h1]
  | produce job wantRead toSend =>
    refine ⟨hsnap (Or.inl rfl) (by simp), ?_⟩
    simp only [carried_append, carried_cons, Op.carried, List.nil_append] at hsum
    simp [hsum, Op.carried]
  | acquire p =>
    refine ⟨hsnap (Or.inl rfl) (by simp), ?_⟩
    simpa [Op.carried] using hsum
  | wait p =>
    refine ⟨hsnap (Or.inl rfl) (by simp), ?_⟩
    simpa [Op.carried] using hsum
  | extend p =>
    refine ⟨hsnap (Or.inr ⟨p.id, rfl⟩) (by simp), ?_⟩
    have hin : (p.id, p.data) ∈ m.backlog := (hP.early _).mpr ⟨.extend p, by simp, rfl⟩
    have hcons := eq_cons_of_least hP.sorted hin (fun x hx => hQ.least hP x hx)
    rw [hcons] at hsum
    simp only [carried_append, carried_cons, Op.carried, List.nil_append, List.map_cons, List.flatten_cons] at hsum
    simp [hsum, Op.carried]
  | snapshot p =>
    refine ⟨hsnap (Or.inl rfl) (by simp), ?_⟩
    simpa [Op.carried] using hsum
  | clear p data =>
    refine ⟨hsnap (Or.inr ⟨p.id, rfl⟩) (by simp), ?_⟩
    obtain ⟨h1, h2⟩ := hothers p.id rfl
    have hdata := h.snapshot p data (by simp)
    simp only [carried_append, carried_cons, Op.carried, h1, h2, List.append_nil] at hsum
    simp [hsum, Op.carried, h1, h2, hdata]
  | transmit p data =>
    refine ⟨hsnap (Or.inl rfl) (by simp), ?_⟩
    obtain ⟨h1, h2⟩ := hothers p.id rfl
    simp only [carried_append, carried_cons, Op.carried, h1, h2, List.nil_append, List.append_nil] at hsum
    simp [hsum, Op.carried, h1, h2]
  | hold p hx hy hs =>
    refine ⟨hsnap (Or.inl hs.egressStack) ?_, ?_⟩
    · rcases hy with rfl | ⟨failed, rfl⟩ <;> simp
    · rw [hs.produced, hs.sent, hs.egressStack, hs.backlog, hsum]
      rcases hx with rfl | rfl <;> rcases hy with rfl | ⟨failed, rfl⟩ <;> simp [Op.carried]
  | release p failed hnew =>
    refine ⟨hsnap (Or.inl rfl) (hnone new hnew), ?_⟩
    have h1 := carried_eq_nil (fun y (hy : y ∈ new) => carried_of_payload (hnew y hy))
    simpa [Op.carried, h1] using hsum

theorem ordered_of_reach {stashed : Bytes} {s : State Mem Op}
    (h : (machine cfg).Reach (fun _ ops a => ¬Overtakes ops a) (ready stashed) s) :
    Placed s.mem s.ops ∧ Queued s.mem s.ops ∧ Ordered s.mem s.ops := by
  refine h.invariant_with (I := fun m ops => Placed m ops ∧ Queued m ops ∧ Ordered m ops) shaken_of_reach ?_ ?_ ?_
  · refine ⟨⟨fun n => Nat.zero_le 1, fun n _ => rfl, by simp [ready], by simp [ready], by simp [ready, State.ops]⟩,
      ⟨by simp [ready], by simp [ready], ?_, ?_, ?_⟩, ⟨?_, by simp [ready, State.ops]⟩⟩ <;> simp [ready, State.ops]
  · intro m A op B c m' new hS hI hok he
    have hm := exec_move he hS (fun p hp hc => hok (by subst hp hc; trivial))
    refine ⟨hI.1.move hm, hI.2.1.move hI.1 hm ?_, hI.2.2.move hI.1 hI.2.1 hm⟩
    rintro p rfl x hx n hn
    by_contra hlt
    refine hok ⟨x, Machine.mem_before _ hx, ?_⟩
    simpa [hn] using hlt
  · intro m ops l m' new _ hI _ hc
    obtain ⟨rfl, hnew⟩ := call_facts hc
    obtain ⟨hP, hQ, hO⟩ := hI
    have hzero : ∀ n, total (sending n) new = 0 := fun n =>
      total_eq_zero_iff.mpr (fun y hy => by simp [sending, (hnew y hy).2.1])
    have hold : ∀ x ∈ ops ++ new, x.payload ≠ none → x ∈ ops := by
      intro x hx hp
      rcases List.mem_append.mp hx with hx | hx
      · exact hx
      · exact absurd (hnew x hx).2.1 hp
    refine ⟨⟨fun n => ?_, fun n hn => ?_, hP.sorted, hP.bound, fun e => ?_⟩, ⟨hQ.queue, hQ.bound, fun x hx n hn => ?_,
      fun x hx n hn => ?_, fun x hx n hn => ?_⟩, ⟨fun p data hx => ?_, ?_⟩⟩
    · rw [total_append, hzero]
      exact hP.solo n
    · rw [total_append, hzero]
      exact hP.fresh n hn
    · rw [hP.early e]
      constructor
      · rintro ⟨x, hx, he⟩
        exact ⟨x, List.mem_append_left _ hx, he⟩
      · rintro ⟨x, hx, he⟩
        exact ⟨x, hold x hx (by simp [payload_of_early he]), he⟩
    · exact hQ.front x (hold x hx (by simp [payload_of_unqueued hn])) n hn
    · exact hQ.waits x (hold x hx (by simp [payload_of_waits hn])) n hn
    · exact hQ.holder x (hold x hx (by simp [payload_of_critical hn])) n hn
    · exact hO.snapshot p data (hold _ hx (by simp [Op.payload]))
    · have := carried_eq_nil (fun y (hy : y ∈ new) => (hnew y hy).2.2)
      simpa [this] using hO.sum

end Tonio.Tls
