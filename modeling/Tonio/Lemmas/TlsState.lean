import Tonio.Tls
import Tonio.Interleaving.Ticket

/-!
# The state of a TLS stream and its receive lock

What an operation does to the state of the stream, to the bytes passed to the transport, and to the receive lock with its counters, in
every run: handshakes, cancellations and closing included (`exec_turn`). From it follow who can be at which place while the stream is broken
or closed, and that one task at a time has the receive lock, so that the writes to the ingress BIO are those counted in `_recv_count` and
the one that is about to be counted.
-/

namespace Tonio.Tls

open Interleaving

variable {cfg : Config} {m m' : Mem} {A B new ops : List Op} {op : Op} {c : Choice}

/-! ## The steps -/

/-- The ticket of a task that waits for the receive lock. -/
def Op.recvTicket : Op → Option Nat
  | .waitRecv _ _ ticket => some ticket
  | _ => none

/-- The task waits for the receive lock with ticket `k`. -/
def Op.recvWaits (k : Nat) (x : Op) : Nat := isAt x.recvTicket k

/-- The task has the receive lock. -/
def Op.holdsRecv : Op → Nat
  | .checkCount _ _ | .receive _ | .ingressWrite _ | .incCount _ | .releaseRecv _ _ => 1
  | _ => 0

/-- The task has written to the ingress BIO and not counted it yet. -/
def Op.uncounted : Op → Nat
  | .incCount _ => 1
  | _ => 0

/-- An operation outside the places that matter here. -/
structure Op.Plain (x : Op) : Prop where
  granted : x.granted = false
  closing : x.closing = false
  recvTicket : x.recvTicket = none
  holdsRecv : x.holdsRecv = 0
  uncounted : x.uncounted = 0

/-- The receive lock and its counters are untouched; tickets may have been given out. -/
structure Mem.Unread (m m' : Mem) : Prop where
  recvQueue : m'.recvQueue = m.recvQueue
  recvCount : m'.recvCount = m.recvCount
  writes : m'.writes = m.writes
  next : m.next ≤ m'.next

/-- What an operation does. -/
inductive Turn (cfg : Config) (m : Mem) : Op → Choice → Mem → List Op → Prop
  | plain {x : Op} {c : Choice} {m' : Mem} {new : List Op} (hx : x.Plain) (hnew : ∀ y ∈ new, y.Plain) (hst : m'.state = m.state)
      (hs : m'.sent = m.sent) (hr : m.Unread m') : Turn cfg m x c m' new
  | shake {x : Op} {c : Choice} {st : TlsState} {new : List Op} (hx : x.Plain) (hnew : ∀ y ∈ new, y.Plain)
      (hst : m.state = .init ∧ st = .handshake ∨ m.state = .handshake ∧ st = .ready) : Turn cfg m x c { m with state := st } new
  | fail {x : Op} {c : Choice} {new : List Op} (hx : (∃ job, x = .stepFailed job) ∨ ∃ p, x = .sendFailed p)
      (hnew : ∀ y ∈ new, y.Plain) : Turn cfg m x c { m with state := .broken } new
  | grant (p : Payload) : Turn cfg m (.waitSend p) .go m [.extend p]
  | carry {x y : Op} {c : Choice} {m' : Mem} (hx : x.granted = true) (hy : y.granted = true) (hst : m'.state = m.state)
      (hs : m'.sent = m.sent) (hr : m.Unread m') : Turn cfg m x c m' [y]
  | transmit (p : Payload) (data : Bytes) (c : Choice) : Turn cfg m (.transmit p data) c { m with sent := m.sent ++ data } [.sending p]
  | decide {x y : Op} {c : Choice}
      (hx : x = .closeCheck ∧ m.state ≠ .closed ∨ x = .exitBroken ∧ (m.state = .broken ∨ cfg.compatHttps = true))
      (hy : y.closing = true) : Turn cfg m x c m [y]
  | close {x : Op} {c : Choice} {new : List Op} (hx : x.closing = true) (hnew : ∀ y ∈ new, y.Plain) :
      Turn cfg m x c { m with state := .closed } new
  | acquireRecv (job : Job) (count : Nat) (c : Choice) :
      Turn cfg m (.acquireRecv job count) c { m with recvQueue := m.recvQueue ++ [m.next], next := m.next + 1 } [.waitRecv job count m.next]
  | grantRecv (job : Job) (count ticket : Nat) (c : Choice) (hq : m.recvQueue.head? = some ticket) :
      Turn cfg m (.waitRecv job count ticket) c m [.checkCount job count]
  | cancelRecv (job : Job) (count ticket : Nat) (c : Choice) {new : List Op} (hnew : ∀ y ∈ new, y.Plain) :
      Turn cfg m (.waitRecv job count ticket) c { m with recvQueue := m.recvQueue.filter (· ≠ ticket) } new
  | holdRecv {x y : Op} {c : Choice} (hx : (∃ job count, x = .checkCount job count) ∨ ∃ job, x = .receive job)
      (hy : (∃ job, y = .receive job ∧ x = .checkCount job m.recvCount) ∨ (∃ job failed, y = .releaseRecv job failed) ∨
        ∃ job, y = .ingressWrite job) : Turn cfg m x c m [y]
  | ingressWrite (job : Job) (c : Choice) : Turn cfg m (.ingressWrite job) c { m with writes := m.writes + 1 } [.incCount job]
  | incCount (job : Job) (c : Choice) :
      Turn cfg m (.incCount job) c { m with recvCount := m.recvCount + 1 } [.releaseRecv job false]
  | releaseRecv (job : Job) (failed : Bool) (c : Choice) {new : List Op} (hnew : ∀ y ∈ new, y.Plain) :
      Turn cfg m (.releaseRecv job failed) c { m with recvQueue := m.recvQueue.tail } new

theorem Mem.Unread.refl (m : Mem) : m.Unread m := ⟨rfl, rfl, rfl, Nat.le_refl _⟩

theorem plain_next (job : Job) (b : Bool) : ∀ y ∈ job.next b, y.Plain := by
  intro y hy
  cases job <;> cases b <;> simp only [Job.next, List.mem_singleton, List.not_mem_nil] at hy <;> subst hy <;>
    exact ⟨rfl, rfl, rfl, rfl, rfl⟩

theorem plain_raised (job : Job) : ∀ y ∈ job.raised, y.Plain := by
  intro y hy
  cases job <;> simp only [Job.raised, List.mem_singleton, List.not_mem_nil] at hy
  subst hy
  exact ⟨rfl, rfl, rfl, rfl, rfl⟩

theorem plain_singleton {x : Op} (hx : x.Plain) : ∀ y ∈ [x], y.Plain := by
  intro y hy
  exact List.mem_singleton.mp hy ▸ hx

/-- What follows a step of the SSL object. -/
theorem plain_afterStep (cfg : Config) (m : Mem) (job : Job) (toSend : Bytes) (wantRead : Bool) :
    ∀ y ∈ afterStep cfg m job toSend wantRead, y.Plain := by
  unfold afterStep
  split
  · exact plain_singleton ⟨rfl, rfl, rfl, rfl, rfl⟩
  · split
    · exact plain_singleton ⟨rfl, rfl, rfl, rfl, rfl⟩
    · split
      · exact plain_singleton ⟨rfl, rfl, rfl, rfl, rfl⟩
      · exact plain_next job false

/-- Every step is one of these. -/
theorem exec_turn (he : exec cfg m op c = some (m', new)) : Turn cfg m op c m' new := by
  cases op
  all_goals
    cases c <;> simp only [exec, reduceCtorEq, Option.some.injEq, Prod.mk.injEq] at he
  case handshakePre.go =>
    split at he
    · rename_i hst
      obtain ⟨rfl, rfl⟩ : _ ∧ _ := by simpa using he
      exact .shake ⟨rfl, rfl, rfl, rfl, rfl⟩ (plain_singleton ⟨rfl, rfl, rfl, rfl, rfl⟩) (Or.inl ⟨hst, rfl⟩)
    · obtain ⟨rfl, rfl⟩ : _ ∧ _ := by simpa using he
      exact .plain ⟨rfl, rfl, rfl, rfl, rfl⟩ (List.forall_mem_nil _) rfl rfl (.refl _)
  case handshakePost.go =>
    obtain ⟨rfl, rfl⟩ := he
    split
    · rename_i hst
      exact .shake ⟨rfl, rfl, rfl, rfl, rfl⟩ (List.forall_mem_nil _) (Or.inr ⟨hst, rfl⟩)
    · exact .plain ⟨rfl, rfl, rfl, rfl, rfl⟩ (List.forall_mem_nil _) rfl rfl (.refl _)
  case step.step job toSend wantRead =>
    obtain ⟨rfl, rfl⟩ := he
    exact .plain ⟨rfl, rfl, rfl, rfl, rfl⟩ (plain_afterStep cfg m job toSend wantRead) rfl rfl ⟨rfl, rfl, rfl, Nat.le_succ _⟩
  case stepFailed.go job =>
    obtain ⟨rfl, rfl⟩ := he
    exact .fail (Or.inl ⟨job, rfl⟩) (plain_raised job)
  case sendFailed.go p =>
    obtain ⟨rfl, rfl⟩ := he
    exact .fail (Or.inr ⟨p, rfl⟩) (plain_singleton ⟨rfl, rfl, rfl, rfl, rfl⟩)
  case waitSend.go p =>
    split at he
    · obtain ⟨rfl, rfl⟩ : _ ∧ _ := by simpa using he
      exact .grant p
    · cases he
  case waitSend.cancel p =>
    obtain ⟨rfl, rfl⟩ := he
    exact .plain ⟨rfl, rfl, rfl, rfl, rfl⟩ (plain_raised p.job) rfl rfl ⟨rfl, rfl, rfl, Nat.le_refl _⟩
  case extend.go p =>
    obtain ⟨rfl, rfl⟩ := he
    exact .carry rfl rfl rfl rfl ⟨rfl, rfl, rfl, Nat.le_refl _⟩
  case snapshot.go p =>
    obtain ⟨rfl, rfl⟩ := he
    exact .carry rfl rfl rfl rfl (.refl _)
  case clearStack.go p data =>
    obtain ⟨rfl, rfl⟩ := he
    exact .carry rfl rfl rfl rfl ⟨rfl, rfl, rfl, Nat.le_refl _⟩
  case transmit.go p data =>
    obtain ⟨rfl, rfl⟩ := he
    exact .transmit p data .go
  case releaseSend.go p failed =>
    obtain ⟨rfl, rfl⟩ := he
    refine .plain ⟨rfl, rfl, rfl, rfl, rfl⟩ ?_ rfl rfl ⟨rfl, rfl, rfl, Nat.le_refl _⟩
    split
    · exact plain_raised p.job
    · exact plain_next p.job p.wantRead
  case acquireRecv.go job count =>
    obtain ⟨rfl, rfl⟩ := he
    exact .acquireRecv job count .go
  case waitRecv.go job count ticket =>
    split at he
    · rename_i hq
      obtain ⟨rfl, rfl⟩ : _ ∧ _ := by simpa using he
      exact .grantRecv job count ticket .go hq
    · cases he
  case waitRecv.cancel job count ticket =>
    obtain ⟨rfl, rfl⟩ := he
    exact .cancelRecv job count ticket .cancel (plain_raised job)
  case checkCount.go job count =>
    obtain ⟨rfl, rfl⟩ := he
    refine .holdRecv (Or.inl ⟨job, count, rfl⟩) ?_
    split
    · rename_i hcount
      exact Or.inl ⟨job, rfl, hcount ▸ rfl⟩
    · exact Or.inr (Or.inl ⟨job, false, rfl⟩)
  case receive.go job =>
    obtain ⟨rfl, rfl⟩ := he
    exact .holdRecv (Or.inr ⟨job, rfl⟩) (Or.inr (Or.inr ⟨job, rfl⟩))
  case receive.fail job =>
    obtain ⟨rfl, rfl⟩ := he
    exact .holdRecv (Or.inr ⟨job, rfl⟩) (Or.inr (Or.inl ⟨job, true, rfl⟩))
  case receive.cancel job =>
    obtain ⟨rfl, rfl⟩ := he
    exact .holdRecv (Or.inr ⟨job, rfl⟩) (Or.inr (Or.inl ⟨job, true, rfl⟩))
  case ingressWrite.go job =>
    obtain ⟨rfl, rfl⟩ := he
    exact .ingressWrite job .go
  case incCount.go job =>
    obtain ⟨rfl, rfl⟩ := he
    exact .incCount job .go
  case releaseRecv.go job failed =>
    obtain ⟨rfl, rfl⟩ := he
    refine .releaseRecv job failed .go ?_
    split
    · exact plain_raised job
    · exact plain_next job true
  case closeCheck.go =>
    obtain ⟨rfl, rfl⟩ := he
    split
    · exact .plain ⟨rfl, rfl, rfl, rfl, rfl⟩ (List.forall_mem_nil _) rfl rfl (.refl _)
    · rename_i hst
      exact .decide (Or.inl ⟨rfl, hst⟩) rfl
  case setClosed.go =>
    obtain ⟨rfl, rfl⟩ := he
    exact .close rfl (plain_singleton ⟨rfl, rfl, rfl, rfl, rfl⟩)
  case exitBroken.go =>
    obtain ⟨rfl, rfl⟩ := he
    split
    · rename_i hst
      exact .decide (Or.inr ⟨rfl, hst⟩) rfl
    · exact .plain ⟨rfl, rfl, rfl, rfl, rfl⟩ (List.forall_mem_nil _) rfl rfl (.refl _)
  case exitClosed.go =>
    obtain ⟨rfl, rfl⟩ := he
    exact .close rfl (plain_singleton ⟨rfl, rfl, rfl, rfl, rfl⟩)
  all_goals
    obtain ⟨rfl, rfl⟩ := he
    refine .plain ⟨rfl, rfl, rfl, rfl, rfl⟩ ?_ rfl rfl ⟨rfl, rfl, rfl, Nat.le_refl _⟩
    first
    | exact List.forall_mem_nil _
    | exact plain_singleton ⟨rfl, rfl, rfl, rfl, rfl⟩
    | (split <;> first | exact List.forall_mem_nil _ | exact plain_singleton ⟨rfl, rfl, rfl, rfl, rfl⟩)

/-- A call does nothing at once. -/
theorem call_plain {l : Call} (hc : call m l = some (m', new)) : m' = m ∧ ∀ y ∈ new, y.Plain := by
  cases l <;> obtain ⟨rfl, rfl⟩ := Prod.mk.inj (Option.some.inj hc) <;> exact ⟨rfl, plain_singleton ⟨rfl, rfl, rfl, rfl, rfl⟩⟩

/-! ## Broken -/

/-- Who is about to store `Closed` does not have the send lock. -/
theorem granted_of_closing {x : Op} (h : x.closing = true) : x.granted = false := by
  cases x <;> simp_all [Op.granted, Op.closing]

/-- Who did not have the send lock does not get it but by waiting for it. -/
theorem Turn.granted (h : Turn cfg m op c m' new) (hop : op.granted = false) (hc : ∀ p, op = .waitSend p → c ≠ .go) :
    ∀ y ∈ new, y.granted = false := by
  intro y hy
  cases h with
  | grant p => exact absurd rfl (hc p rfl)
  | carry hx _ _ _ _ => exact absurd hx (by simp [hop])
  | transmit p data => cases hop
  | plain _ hnew _ _ _ | shake _ hnew _ | fail _ hnew | close _ hnew | cancelRecv _ _ _ _ hnew | releaseRecv _ _ _ hnew =>
    exact (hnew y hy).granted
  | decide _ hclosing =>
    rw [List.mem_singleton.mp hy]
    exact granted_of_closing hclosing
  | holdRecv _ hz =>
    rw [List.mem_singleton.mp hy]
    rcases hz with ⟨job, rfl, -⟩ | ⟨job, failed, rfl⟩ | ⟨job, rfl⟩ <;> rfl
  | acquireRecv job count => rw [List.mem_singleton.mp hy]; rfl
  | grantRecv job count ticket c hq => rw [List.mem_singleton.mp hy]; rfl
  | ingressWrite job => rw [List.mem_singleton.mp hy]; rfl
  | incCount job => rw [List.mem_singleton.mp hy]; rfl

/-- Only who has the send lock passes bytes to the transport. -/
theorem Turn.sent (h : Turn cfg m op c m' new) (hop : op.granted = false) : m'.sent = m.sent := by
  cases h with
  | plain _ _ _ hs _ => exact hs
  | carry _ _ _ hs _ => exact hs
  | transmit p data => cases hop
  | _ => rfl

/-- A stream becomes broken by a failure. -/
theorem Turn.broken (h : Turn cfg m op c m' new) (hst : m'.state = .broken) :
    m.state = .broken ∨ (∃ job, op = .stepFailed job) ∨ ∃ p, op = .sendFailed p := by
  cases h with
  | plain _ _ hs _ _ => exact Or.inl (hs ▸ hst)
  | carry _ _ hs _ _ => exact Or.inl (hs ▸ hst)
  | fail hx _ => exact Or.inr hx
  | shake _ _ hs =>
    obtain ⟨-, rfl⟩ | ⟨-, rfl⟩ := hs <;> cases hst
  | close _ _ => cases hst
  | _ => exact Or.inl hst

/-- While the stream is broken no task is between the grant of the send lock and the transport, unless one slipped in. -/
theorem granted_of_broken {s : State Mem Op} (h : (machine cfg).Reach (fun m ops a => ¬Slips m ops a) initial s)
    (hb : s.mem.state = .broken) : ∀ x ∈ s.ops, x.granted = false := by
  refine h.invariant (I := fun m ops => m.state = .broken → ∀ x ∈ ops, x.granted = false) ?_ ?_ ?_ hb
  · exact fun _ x hx => by simp [initial, State.ops] at hx
  · intro m A op B c m' new ih hok he hst x hx
    have ht := exec_turn he
    have hold : ∀ x ∈ A ++ op :: B, x.granted = false := by
      rcases ht.broken hst with hold | ⟨job, rfl⟩ | ⟨p, rfl⟩
      · exact ih hold
      · simpa [Slips] using hok
      · simpa [Slips] using hok
    rcases Machine.mem_cases op hx with hx | hx
    · refine ht.granted (hold op (by simp)) ?_ x hx
      rintro p rfl rfl
      rcases ht.broken hst with hst | ⟨job, hjob⟩ | ⟨q, hq⟩
      · exact hok hst
      · cases hjob
      · cases hq
    · exact hold x hx
  · intro m ops l m' new ih _ hc hst x hx
    obtain ⟨rfl, hnew⟩ := call_plain hc
    rcases List.mem_append.mp hx with hx | hx
    · exact ih hst x hx
    · exact (hnew x hx).granted

/-! ## Closed -/

/-- The tasks that have decided to close the stream. -/
def Op.closers (x : Op) : Nat := x.closing.toNat

theorem closers_eq_zero {x : Op} (hx : x.closing = false) : x.closers = 0 := by
  simp [Op.closers, hx]

theorem closers_plain (h : ∀ y ∈ new, y.Plain) : total Op.closers new = 0 :=
  total_eq_zero_iff.mpr (fun y hy => closers_eq_zero (h y hy).closing)

/-- What leads to `Closed` being stored, and what stores it. -/
theorem Turn.closers (h : Turn cfg m op c m' new) :
    (op.closers = 1 ∧ total Op.closers new = 0 ∧ m'.state = .closed) ∨
    (op.closers = 0 ∧ total Op.closers new = 1 ∧ m' = m ∧
      (op = .closeCheck ∧ m.state ≠ .closed ∨ op = .exitBroken ∧ (m.state = .broken ∨ cfg.compatHttps = true))) ∨
    (op.closers = 0 ∧ total Op.closers new = 0 ∧
      (m'.state = m.state ∨ m.state ≠ .closed ∧ m'.state ≠ .closed ∨
        m'.state = .broken ∧ ((∃ job, op = .stepFailed job) ∨ ∃ p, op = .sendFailed p))) := by
  cases h with
  | close hx hnew => exact Or.inl ⟨by simp [Op.closers, hx], closers_plain hnew, rfl⟩
  | decide hx hy =>
    refine Or.inr (Or.inl ⟨?_, by simp [Op.closers, hy], rfl, hx⟩)
    rcases hx with ⟨rfl, -⟩ | ⟨rfl, -⟩ <;> rfl
  | plain hx hnew hst _ _ => exact Or.inr (Or.inr ⟨closers_eq_zero hx.closing, closers_plain hnew, Or.inl hst⟩)
  | shake hx hnew hst =>
    refine Or.inr (Or.inr ⟨closers_eq_zero hx.closing, closers_plain hnew, Or.inr (Or.inl ?_)⟩)
    rcases hst with ⟨h1, rfl⟩ | ⟨h1, rfl⟩ <;> simp [h1]
  | fail hx hnew =>
    refine Or.inr (Or.inr ⟨?_, closers_plain hnew, Or.inr (Or.inr ⟨rfl, hx⟩)⟩)
    rcases hx with ⟨job, rfl⟩ | ⟨p, rfl⟩ <;> rfl
  | carry hx hy hst _ _ =>
    have hclosing : ∀ {z : Op}, z.granted = true → z.closing = false := by
      intro z hz
      by_contra hne
      rw [granted_of_closing (by simpa using hne)] at hz
      cases hz
    exact Or.inr (Or.inr ⟨closers_eq_zero (hclosing hx), by simp [closers_eq_zero (hclosing hy)], Or.inl hst⟩)
  | holdRecv hx hy =>
    refine Or.inr (Or.inr ⟨?_, ?_, Or.inl rfl⟩)
    · rcases hx with ⟨job, count, rfl⟩ | ⟨job, rfl⟩ <;> rfl
    · rcases hy with ⟨job, rfl, -⟩ | ⟨job, failed, rfl⟩ | ⟨job, rfl⟩ <;> rfl
  | cancelRecv job count ticket c hnew | releaseRecv job failed c hnew => exact Or.inr (Or.inr ⟨rfl, closers_plain hnew, Or.inl rfl⟩)
  | grant p | transmit p data | acquireRecv job count | grantRecv job count ticket c hq | ingressWrite job | incCount job =>
    exact Or.inr (Or.inr ⟨rfl, rfl, Or.inl rfl⟩)

/-- Who decides to close the stream is alone, and the stream is not closed before it has done so. -/
structure Closing (m : Mem) (ops : List Op) : Prop where
  one : total Op.closers ops ≤ 1
  closed : m.state = .closed → total Op.closers ops = 0

theorem closers_pos {x : Op} : 0 < x.closers ↔ x.closing = true := by
  cases h : x.closing <;> simp [Op.closers, h]

/-- Where nobody has decided to close the stream. -/
theorem closers_none (h : ¬∃ x ∈ ops, x.closing = true) : total Op.closers ops = 0 := by
  refine total_eq_zero_iff.mpr (fun x hx => ?_)
  by_contra hne
  exact h ⟨x, hx, closers_pos.mp (Nat.pos_of_ne_zero hne)⟩

/-- A task decides to close the stream when it is open and nobody else has decided so. -/
theorem decides (hok : ¬Reopens cfg m ops (.exec op c))
    (hx : op = .closeCheck ∧ m.state ≠ .closed ∨ op = .exitBroken ∧ (m.state = .broken ∨ cfg.compatHttps = true)) :
    m.state ≠ .closed ∧ total Op.closers ops = 0 := by
  rcases hx with ⟨rfl, hst⟩ | ⟨rfl, hst⟩
  · exact ⟨hst, closers_none (fun hex => hok ⟨hst, hex⟩)⟩
  · exact ⟨fun hcl => hok ⟨hst, Or.inl hcl⟩, closers_none (fun hex => hok ⟨hst, Or.inr hex⟩)⟩

theorem Closing.exec (h : Closing m (A ++ op :: B)) (hok : ¬Reopens cfg m (A ++ op :: B) (.exec op c)) (ht : Turn cfg m op c m' new) :
    Closing m' (A ++ (new ++ B)) := by
  have hone := h.one
  have hstep := total_step Op.closers A B new op
  rcases ht.closers with ⟨hop, hnew, hst⟩ | ⟨hop, hnew, rfl, hx⟩ | ⟨hop, hnew, hst⟩
  · exact ⟨by omega, fun _ => by omega⟩
  · obtain ⟨hopen, hnone⟩ := decides hok hx
    exact ⟨by omega, fun hcl => absurd hcl hopen⟩
  · refine ⟨by omega, fun hcl => ?_⟩
    rcases hst with hst | ⟨-, hne⟩ | ⟨hbr, -⟩
    · have := h.closed (hst ▸ hcl)
      omega
    · exact absurd hcl hne
    · rw [hbr] at hcl
      cases hcl

theorem Closing.reach {s : State Mem Op} (h : (machine cfg).Reach (fun m ops a => ¬Reopens cfg m ops a) initial s) :
    Closing s.mem s.ops := by
  refine h.invariant ⟨Nat.zero_le 1, fun _ => rfl⟩ ?_ ?_
  · exact fun m A op B c m' new ih hok he => ih.exec hok (exec_turn he)
  · intro m ops l m' new ih _ hc
    obtain ⟨rfl, hnew⟩ := call_plain hc
    have htotal : total Op.closers (ops ++ new) = total Op.closers ops := by rw [total_append, closers_plain hnew, Nat.add_zero]
    exact ⟨htotal ▸ ih.one, fun hcl => htotal ▸ ih.closed hcl⟩

/-- The stream is closed, and nobody has decided to close it again. -/
structure Closed (m : Mem) (ops : List Op) : Prop where
  state : m.state = .closed
  none : total Op.closers ops = 0

/-- `Closed` has been stored. -/
theorem Closing.of_closes {s s' : State Mem Op} {a : Act Op Choice Call} (h : Closing s.mem s.ops) (hs : (machine cfg).Step s a s')
    (ha : Closes a) : Closed s'.mem s'.ops := by
  rcases hs.ops_eq with ⟨A, op, B, c, new, rfl, hops, he, hops'⟩ | ⟨l, new, rfl, -, -⟩
  · have hone := h.one
    have hpos : 0 < op.closers := closers_pos.mpr ha
    have hstep := total_step Op.closers A B new op
    rw [hops] at hone
    rw [hops']
    rcases (exec_turn he).closers with ⟨hop, hnew, hst⟩ | ⟨hop, -⟩ | ⟨hop, -⟩
    · exact ⟨hst, by omega⟩
    · omega
    · omega
  · exact ha.elim

/-- A closed stream stays closed. -/
theorem Closed.exec (h : Closed m (A ++ op :: B)) (hok : ¬Reopens cfg m (A ++ op :: B) (.exec op c)) (ht : Turn cfg m op c m' new) :
    Closed m' (A ++ (new ++ B)) := by
  have hnone := h.none
  have hstep := total_step Op.closers A B new op
  rcases ht.closers with ⟨hop, hnew, -⟩ | ⟨-, -, -, hx⟩ | ⟨hop, hnew, hst⟩
  · omega
  · exact absurd h.state (decides hok hx).1
  · refine ⟨?_, by omega⟩
    rcases hst with hst | ⟨hne, -⟩ | ⟨-, ⟨job, rfl⟩ | ⟨p, rfl⟩⟩
    · exact hst.trans h.state
    · exact absurd h.state hne
    · exact absurd h.state hok
    · exact absurd h.state hok

/-- Nobody closes a closed stream. -/
theorem Closed.not_closes {s s' : State Mem Op} {a : Act Op Choice Call} (h : Closed s.mem s.ops) (hs : (machine cfg).Step s a s') :
    ¬Closes a := by
  intro ha
  rcases hs.ops_eq with ⟨A, op, B, c, new, rfl, hops, he, -⟩ | ⟨l, new, rfl, -, -⟩
  · have hzero := total_eq_zero_iff.mp h.none op (by simp [hops])
    have hpos : 0 < op.closers := closers_pos.mpr ha
    omega
  · exact ha.elim

/-! ## The receive lock -/

/-- One task at a time has the receive lock, and the writes to the ingress BIO are those counted and the one about to be counted. -/
structure Counting (m : Mem) (ops : List Op) : Prop where
  lock : Ticketed m.recvQueue m.next (fun k => total (Op.recvWaits k) ops) (total Op.holdsRecv ops)
  writes : m.writes = m.recvCount + total Op.uncounted ops

/-- The task has nothing to do with the receive lock. -/
def Op.Away (x : Op) : Prop := x.recvTicket = none ∧ x.holdsRecv = 0 ∧ x.uncounted = 0

theorem Op.Away.recvWaits {x : Op} (h : x.Away) (k : Nat) : x.recvWaits k = 0 := by
  rw [Op.recvWaits, h.1, isAt_none]

theorem Op.Plain.away {x : Op} (h : x.Plain) : x.Away := ⟨h.recvTicket, h.holdsRecv, h.uncounted⟩

theorem away_of_granted {x : Op} (h : x.granted = true) : x.Away := by
  cases x <;> first | exact ⟨rfl, rfl, rfl⟩ | simp [Op.granted] at h

theorem away_of_closing {x : Op} (h : x.closing = true) : x.Away := by
  cases x <;> first | exact ⟨rfl, rfl, rfl⟩ | simp [Op.closing] at h

/-- Tasks that have nothing to do with the receive lock weigh nothing. -/
theorem away_totals (h : ∀ y ∈ new, y.Away) :
    (∀ k, total (Op.recvWaits k) new = 0) ∧ total Op.holdsRecv new = 0 ∧ total Op.uncounted new = 0 :=
  ⟨fun k => total_eq_zero_iff.mpr (fun y hy => (h y hy).recvWaits k), total_eq_zero_iff.mpr (fun y hy => (h y hy).2.1),
    total_eq_zero_iff.mpr (fun y hy => (h y hy).2.2)⟩

/-- An operation that leaves the receive lock alone, and what follows from it. -/
theorem Counting.away (h : Counting m (A ++ op :: B)) (hr : m.Unread m') (hx : op.Away)
    (hnew : ∀ y ∈ new, y.Away) : Counting m' (A ++ (new ++ B)) := by
  obtain ⟨hn, hnh, hnu⟩ := away_totals hnew
  have hw : ∀ k, total (Op.recvWaits k) (A ++ (new ++ B)) = total (Op.recvWaits k) (A ++ op :: B) := by
    intro k
    have := total_step (Op.recvWaits k) A B new op
    rw [hn k, hx.recvWaits k] at this
    exact this
  have hh : total Op.holdsRecv (A ++ (new ++ B)) = total Op.holdsRecv (A ++ op :: B) := by
    have := total_step Op.holdsRecv A B new op
    rw [hnh, hx.2.1] at this
    exact this
  have hu : total Op.uncounted (A ++ (new ++ B)) = total Op.uncounted (A ++ op :: B) := by
    have := total_step Op.uncounted A B new op
    rw [hnu, hx.2.2] at this
    exact this
  refine ⟨?_, ?_⟩
  · rw [hr.recvQueue, hh, funext hw]
    exact h.lock.mono hr.next
  · rw [hr.writes, hr.recvCount, hu]
    exact h.writes

/-- An operation that moves a task along while it has the receive lock. -/
theorem Counting.hold {x y : Op} (h : Counting m (A ++ x :: B)) (hx : x.recvTicket = none ∧ x.holdsRecv = 1)
    (hy : y.recvTicket = none ∧ y.holdsRecv = 1) (hq : m'.recvQueue = m.recvQueue) (hn : m'.next = m.next)
    (hw : m'.writes + x.uncounted + m.recvCount = m'.recvCount + m.writes + y.uncounted) : Counting m' (A ++ ([y] ++ B)) := by
  have htickets : ∀ k, total (Op.recvWaits k) (A ++ ([y] ++ B)) = total (Op.recvWaits k) (A ++ x :: B) := by
    intro k
    have := total_step (Op.recvWaits k) A B [y] x
    simp only [total_cons, total_nil, Op.recvWaits, hx.1, hy.1, isAt_none] at this
    exact this
  have hholds : total Op.holdsRecv (A ++ ([y] ++ B)) = total Op.holdsRecv (A ++ x :: B) := by
    have := total_step Op.holdsRecv A B [y] x
    simp only [total_cons, total_nil, hx.2, hy.2] at this
    omega
  have huncounted := total_step Op.uncounted A B [y] x
  have hwrites := h.writes
  refine ⟨?_, ?_⟩
  · rw [hq, hn, hholds, funext htickets]
    exact h.lock
  · simp only [total_cons, total_nil] at huncounted
    omega

/-- An operation keeps the receive lock and its counters. -/
theorem Counting.exec (h : Counting m (A ++ op :: B)) (ht : Turn cfg m op c m' new) : Counting m' (A ++ (new ++ B)) := by
  have hstep := fun k => total_step (Op.recvWaits k) A B new op
  have hholds := total_step Op.holdsRecv A B new op
  have huncounted := total_step Op.uncounted A B new op
  cases ht with
  | plain hx hnew _ _ hr => exact h.away hr hx.away (fun y hy => (hnew y hy).away)
  | shake hx hnew _ => exact h.away ⟨rfl, rfl, rfl, Nat.le_refl _⟩ hx.away (fun y hy => (hnew y hy).away)
  | fail hx hnew =>
    refine h.away ⟨rfl, rfl, rfl, Nat.le_refl _⟩ ?_ (fun y hy => (hnew y hy).away)
    rcases hx with ⟨job, rfl⟩ | ⟨p, rfl⟩ <;> exact ⟨rfl, rfl, rfl⟩
  | grant p => exact h.away (.refl m) ⟨rfl, rfl, rfl⟩ (by simp [Op.Away, Op.recvTicket, Op.holdsRecv, Op.uncounted])
  | carry hx hy _ _ hr => exact h.away hr (away_of_granted hx) (by simpa using away_of_granted hy)
  | transmit p data =>
    exact h.away ⟨rfl, rfl, rfl, Nat.le_refl _⟩ ⟨rfl, rfl, rfl⟩ (by simp [Op.Away, Op.recvTicket, Op.holdsRecv, Op.uncounted])
  | decide hx hy =>
    refine h.away (.refl m) ?_ (by simpa using away_of_closing hy)
    rcases hx with ⟨rfl, -⟩ | ⟨rfl, -⟩ <;> exact ⟨rfl, rfl, rfl⟩
  | close hx hnew => exact h.away ⟨rfl, rfl, rfl, Nat.le_refl _⟩ (away_of_closing hx) (fun y hy => (hnew y hy).away)
  | acquireRecv job count =>
    simp only [total_cons, total_nil, Op.recvWaits, Op.recvTicket, Op.holdsRecv, Op.uncounted, isAt_none, Nat.add_zero]
      at hstep hholds huncounted
    refine ⟨?_, ?_⟩
    · rw [hholds]
      refine h.lock.acquire ?_ ?_
      · simpa using hstep m.next
      · intro k hk
        simpa [isAt_some_of_ne (Ne.symm hk)] using hstep k
    · rw [huncounted]
      exact h.writes
  | grantRecv job count ticket _ hq =>
    simp only [total_cons, total_nil, Op.recvWaits, Op.recvTicket, Op.holdsRecv, Op.uncounted, isAt_none, Nat.add_zero]
      at hstep hholds huncounted
    refine ⟨?_, ?_⟩
    · rw [hholds]
      refine h.lock.grant hq ?_ ?_
      · simpa using hstep ticket
      · intro k hk
        simpa [isAt_some_of_ne (Ne.symm hk)] using hstep k
    · rw [huncounted]
      exact h.writes
  | cancelRecv job count ticket _ hnew =>
    obtain ⟨haway, hn, hu⟩ := away_totals (fun y hy => (hnew y hy).away)
    simp only [haway, hn, hu, Op.recvWaits, Op.recvTicket, Op.holdsRecv, Op.uncounted, Nat.add_zero] at hstep hholds huncounted
    refine ⟨?_, ?_⟩
    · rw [hholds]
      refine h.lock.cancel ?_ ?_
      · simpa using hstep ticket
      · intro k hk
        simpa [isAt_some_of_ne (Ne.symm hk)] using hstep k
    · rw [huncounted]
      exact h.writes
  | @holdRecv _ y _ hx hy =>
    refine h.hold ?_ ?_ rfl rfl ?_
    · rcases hx with ⟨job, count, rfl⟩ | ⟨job, rfl⟩ <;> exact ⟨rfl, rfl⟩
    · rcases hy with ⟨job, rfl, -⟩ | ⟨job, failed, rfl⟩ | ⟨job, rfl⟩ <;> exact ⟨rfl, rfl⟩
    · have hx0 : op.uncounted = 0 := by rcases hx with ⟨job, count, rfl⟩ | ⟨job, rfl⟩ <;> rfl
      have hy0 : y.uncounted = 0 := by rcases hy with ⟨job, rfl, -⟩ | ⟨job, failed, rfl⟩ | ⟨job, rfl⟩ <;> rfl
      omega
  | ingressWrite job => exact h.hold ⟨rfl, rfl⟩ ⟨rfl, rfl⟩ rfl rfl (by simp only [Op.uncounted]; omega)
  | incCount job => exact h.hold ⟨rfl, rfl⟩ ⟨rfl, rfl⟩ rfl rfl (by simp only [Op.uncounted]; omega)
  | releaseRecv job failed _ hnew =>
    obtain ⟨haway, hn, hu⟩ := away_totals (fun y hy => (hnew y hy).away)
    simp only [haway, hn, hu, Op.recvWaits, Op.recvTicket, Op.holdsRecv, Op.uncounted, isAt_none, Nat.add_zero] at hstep hholds huncounted
    refine ⟨?_, ?_⟩
    · have hl := h.lock
      rw [← hholds] at hl
      rw [funext hstep]
      exact hl.release
    · rw [huncounted]
      exact h.writes

/-- The receive lock in every state of every run. -/
theorem Counting.reach {ok : Mem → List Op → Act Op Choice Call → Prop} {s : State Mem Op} (h : (machine cfg).Reach ok initial s) :
    Counting s.mem s.ops := by
  refine h.invariant ⟨.nil 0 (fun _ => rfl), rfl⟩ ?_ ?_
  · intro m A op B c m' new ih _ he
    exact ih.exec (exec_turn he)
  · intro m ops l m' new ih _ hc
    obtain ⟨rfl, hnew⟩ := call_plain hc
    obtain ⟨ht, hh, hu⟩ := away_totals (fun y hy => (hnew y hy).away)
    refine ⟨?_, ?_⟩
    · simp only [total_append, ht, hh, Nat.add_zero]
      exact ih.lock
    · rw [total_append, hu]
      exact ih.writes

/-- The counters of the receive lock only grow, and `_recv_count` is raised by the task that has the lock. -/
theorem Turn.counts (h : Turn cfg m op c m' new) : m.writes ≤ m'.writes ∧ (m'.recvCount = m.recvCount ∨ ∃ job, op = .incCount job) := by
  cases h with
  | plain _ _ _ _ hr => exact ⟨Nat.le_of_eq hr.writes.symm, Or.inl hr.recvCount⟩
  | carry _ _ _ _ hr => exact ⟨Nat.le_of_eq hr.writes.symm, Or.inl hr.recvCount⟩
  | ingressWrite job => exact ⟨Nat.le_succ _, Or.inl rfl⟩
  | incCount job => exact ⟨Nat.le_refl _, Or.inr ⟨job, rfl⟩⟩
  | _ => exact ⟨Nat.le_refl _, Or.inl rfl⟩

theorem writes_mono {ok : Mem → List Op → Act Op Choice Call → Prop} {s s' : State Mem Op} (h : (machine cfg).Reach ok s s') :
    s.mem.writes ≤ s'.mem.writes := by
  refine h.invariant (I := fun m _ => s.mem.writes ≤ m.writes) (Nat.le_refl _) ?_ ?_
  · intro m A op B c m' new ih _ he
    exact Nat.le_trans ih (exec_turn he).counts.1
  · intro m ops l m' new ih _ hc
    rw [(call_plain hc).1]
    exact ih

/-- While a task receives nobody else has the receive lock, and nothing is written that is not counted. -/
theorem Counting.receiving {job : Job} (h : Counting m ops) (hx : Op.receive job ∈ ops) :
    m.writes = m.recvCount ∧ ∀ j, Op.incCount j ∉ ops := by
  obtain ⟨A, B, rfl⟩ := List.append_of_mem hx
  have hzero := eq_zero_of_total_le h.lock.holds_le (show (Op.receive job).holdsRecv = 1 from rfl)
  have hnot : ∀ j, Op.incCount j ∉ A ++ Op.receive job :: B := by
    intro j hj
    have hj' : Op.incCount j ∈ A ++ B := by simpa using hj
    cases hzero _ hj'
  refine ⟨?_, hnot⟩
  have hu : total Op.uncounted (A ++ Op.receive job :: B) = 0 := by
    refine total_eq_zero_iff.mpr (fun x hx => ?_)
    cases x with
    | incCount j => exact absurd hx (hnot j)
    | _ => rfl
  have := h.writes
  omega

/-- A task goes on to receive if it has found `_recv_count` as it had read it. -/
theorem Turn.receive {job : Job} (h : Turn cfg m op c m' [.receive job]) : m' = m ∧ op = .checkCount job m.recvCount := by
  have hplain : (∀ y ∈ [Op.receive job], y.Plain) → False :=
    fun hnew => absurd (hnew _ (List.mem_singleton_self _)).holdsRecv (by simp [Op.holdsRecv])
  cases h with
  | plain _ hnew _ _ _ => exact (hplain hnew).elim
  | shake _ hnew _ => exact (hplain hnew).elim
  | fail _ hnew => exact (hplain hnew).elim
  | close _ hnew => exact (hplain hnew).elim
  | cancelRecv _ _ _ _ hnew => exact (hplain hnew).elim
  | releaseRecv _ _ _ hnew => exact (hplain hnew).elim
  | carry _ hy _ _ _ => cases hy
  | decide _ hy => cases hy
  | holdRecv _ hy =>
    rcases hy with ⟨j, hj, rfl⟩ | ⟨j, failed, hj⟩ | ⟨j, hj⟩
    · cases hj
      exact ⟨rfl, rfl⟩
    · cases hj
    · cases hj

/-- From the moment a task has read `_recv_count` until it receives, nobody counts a write once it is there. -/
theorem recvCount_of_within {i : Nat} {job : Job} {count : Nat} {rest : List Op} {s s' : State Mem Op}
    (h : (machine cfg).Reach (fun _ _ _ => True) initial s) (hs : s.pool[i]? ≠ some (.receive job :: rest))
    (hw : (machine cfg).Within i (fun t => ∃ op, t = op :: rest ∧ op.looked job count) s s') :
    s'.pool[i]? = some (.receive job :: rest) → s'.mem.recvCount = count := by
  induction hw with
  | init hi hQ => exact fun hr => absurd hr hs
  | @step s₁ s₂ a t hw hstep hi hQ ih =>
    intro hr
    obtain ⟨t₁, hi₁, op₁, rfl, hlook⟩ := hw.thread
    have hreach := h.trans hw.reach
    rcases hstep.thread_cases hr with ⟨op, rest', c, new, rfl, hpool, he, hnew⟩ | hr₁ | ⟨l, new, rfl, -, hlen, -⟩
    · -- the task itself has moved
      obtain ⟨rfl, rfl⟩ := List.cons.inj (Option.some.inj (hpool.symm.trans hi₁))
      obtain rfl : new = [.receive job] := List.append_cancel_right hnew.symm
      obtain ⟨hm, rfl⟩ := (exec_turn he).receive
      rw [hm]
      exact hlook.2
    · -- another one has, while this one has the lock
      have hcount := ih hr₁
      have hmem : Op.receive job ∈ s₁.ops := Machine.mem_ops hr₁ List.mem_cons_self
      rcases hstep.ops_eq with ⟨A, op, B, c, new, rfl, hops, he, -⟩ | ⟨l, new, rfl, hc, -⟩
      · rcases (exec_turn he).counts.2 with heq | ⟨j, rfl⟩
        · exact heq.trans hcount
        · have hj : Op.incCount j ∈ s₁.ops := by simp [hops]
          exact absurd hj (((Counting.reach hreach).receiving hmem).2 j)
      · rw [(call_plain hc).1]
        exact hcount
    · have := (List.getElem?_eq_some_iff.mp hi₁).1
      omega

/-- Right after it has read `_recv_count` a task does not receive. -/
theorem Visit.not_receiving {i : Nat} {job : Job} {rest : List Op} {s₀ s₁ s₂ s₃ s₄ : State Mem Op}
    (h : Visit cfg i job rest s₀ s₁ s₂ s₃ s₄) :
    s₃.pool[i]? ≠ some (.receive job :: rest) := by
  intro hr
  obtain ⟨t, hi, rfl⟩ := h.toLoad.thread
  rcases h.load.thread_cases hr with ⟨op, rest', c, new, hact, hpool, he, hnew⟩ | hr₂ | ⟨l, new, hact, -⟩
  · obtain ⟨rfl, rfl⟩ := List.cons.inj (Option.some.inj (hpool.symm.trans hi))
    cases hact
    obtain ⟨-, rfl⟩ := Prod.mk.inj (Option.some.inj he)
    cases hnew
  · cases hi.symm.trans hr₂
  · cases hact

end Tonio.Tls
