import Tonio.Interleaving.Weight

/-!
# TLS streams

`_net/_tls.py` and `_colored/_net/_tls.py`, which differ in nothing that is said here, with the state of `net/tls.rs`. The SSL object
is the environment: a step of it, under the lock of `_SSLProxy`, returns what it left in the egress BIO and whether it wants to read,
or raises. The bytes are then sent under the send lock: what is on the egress stack goes first, and all of it in one payload for the
transport. A task that has to read does so under the receive lock, unless somebody has received since it looked.

The two locks are FIFO mutexes: a task that acquires takes the next ticket, and the task at the head of the queue has the lock. The
ticket of a send is the number of its payload, counted when the SSL object produced it. A task may be cancelled while it waits for a
lock or for the transport. `produced` are the bytes read from the egress BIO, `sent` those passed to the transport, `backlog` the
payloads that no sender has put on the egress stack yet and `writes` counts the writes to the ingress BIO; nothing reads these.
-/

namespace Tonio

namespace Tls

open Interleaving

/-- `TLSStreamState`. -/
inductive TlsState where
  | init | handshake | ready | broken | closed
  deriving DecidableEq, Repr

/-- Bytes. -/
abbrev Bytes := List UInt8

/-- What a task does with the SSL object: the handshake, `_ssl_dance` (for `send_all` and `receive_some`), or the `_unwrap` of
`close`. -/
inductive Job where
  | handshake | dance | unwrap
  deriving DecidableEq, Repr

/-- A payload on its way: the task's job, whether the SSL object wants to read after it, its number and its bytes. -/
structure Payload where
  job : Job
  wantRead : Bool
  id : Nat
  data : Bytes
  deriving DecidableEq, Repr

/-- The shared memory. -/
structure Mem where
  state : TlsState
  egressStack : Bytes
  sendQueue : List Nat
  recvQueue : List Nat
  recvCount : Nat
  transportOpen : Bool
  next : Nat
  produced : Bytes
  sent : Bytes
  backlog : List (Nat × Bytes)
  writes : Nat

/-- The operations of a task. -/
inductive Op where
  -- `handshake`, `send_all`, `receive_some`
  | handshakePre | handshakePost | stash (data : Bytes) | checkReady
  -- a step of the SSL object
  | step (job : Job) | stepFailed (job : Job)
  -- `_send`
  | acquireSend (p : Payload) | waitSend (p : Payload) | extend (p : Payload) | snapshot (p : Payload)
  | clearStack (p : Payload) (data : Bytes) | transmit (p : Payload) (data : Bytes) | sending (p : Payload)
  | sendFailed (p : Payload) | releaseSend (p : Payload) (failed : Bool)
  -- `_recv`
  | loadCount (job : Job) | acquireRecv (job : Job) (count : Nat) | waitRecv (job : Job) (count ticket : Nat)
  | checkCount (job : Job) (count : Nat) | receive (job : Job) | ingressWrite (job : Job) | incCount (job : Job)
  | releaseRecv (job : Job) (failed : Bool)
  -- `close` and `__exit__`
  | closeCheck | setClosed | closeBroken | exitCheck | exitBroken | exitClosed | transportClose
  deriving DecidableEq, Repr

/-- What the environment decides: what a step of the SSL object returns, that it raises, that the transport raises, that a wait is
cancelled. Every other operation goes on. -/
inductive Choice where
  | go | step (toSend : Bytes) (wantRead : Bool) | sslError | fail | cancel
  deriving DecidableEq, Repr

/-- The calls of the tasks. `send_all` of no data returns at once. -/
inductive Call where
  | handshake | sendAll | receiveSome | close | exit
  deriving DecidableEq, Repr

/-- What is fixed for a stream: whether it is the server side of TLS 1.3, whose last handshake bytes are kept for the first send, and
`https_compatible`. -/
structure Config where
  stashes : Bool
  compatHttps : Bool

/-- A task goes on after a send or a receive: it takes the next step of the SSL object, or it is through. -/
def Job.next : Job → Bool → List Op
  | .dance, true => [.step .dance]
  | .dance, false => []
  | .handshake, true => [.step .handshake]
  | .handshake, false => [.handshakePost]
  | .unwrap, _ => [.transportClose]

/-- An exception leaves the job; `close` still closes the transport. -/
def Job.raised : Job → List Op
  | .unwrap => [.transportClose]
  | _ => []

/-- A step of the SSL object has left bytes in the egress BIO, and they are read; unless there are none, or they go to the egress
stack, they are a payload. -/
def Mem.produce (m : Mem) (stash : Bool) (toSend : Bytes) : Mem :=
  { m with
    produced := m.produced ++ toSend
    next := m.next + 1
    backlog := if toSend = [] ∨ stash = true then m.backlog else m.backlog ++ [(m.next, toSend)] }

/-- The bytes of a step of the handshake go to the egress stack: it is the last one of a server of TLS 1.3. -/
def stashed (cfg : Config) (job : Job) (wantRead : Bool) : Bool := decide (job = .handshake) && !wantRead && cfg.stashes

/-- What follows a step of the SSL object: `if to_send: _send(to_send) elif want_read: _recv()`; `close` does not receive. -/
def afterStep (cfg : Config) (m : Mem) (job : Job) (toSend : Bytes) (wantRead : Bool) : List Op :=
  if stashed cfg job wantRead then [.stash toSend]
  else if toSend ≠ [] then [.acquireSend ⟨job, wantRead, m.next, toSend⟩]
  else if wantRead = true ∧ job ≠ .unwrap then [.loadCount job]
  else job.next false

/-- What an operation does. -/
def exec (cfg : Config) (m : Mem) : Op → Choice → Option (Mem × List Op)
  | .handshakePre, .go => some (if m.state = .init then ({ m with state := .handshake }, [.step .handshake]) else (m, []))
  | .handshakePost, .go => some (if m.state = .handshake then { m with state := .ready } else m, [])
  | .stash data, .go => some ({ m with egressStack := m.egressStack ++ data }, [.handshakePost])
  | .checkReady, .go => some (m, if m.state = .ready then [.step .dance] else [])
  | .step job, .step toSend wantRead =>
    some (m.produce (stashed cfg job wantRead) toSend, afterStep cfg m job toSend wantRead)
  | .step job, .sslError => some (m, [.stepFailed job])
  | .stepFailed job, .go => some ({ m with state := .broken }, job.raised)
  | .acquireSend p, .go => some ({ m with sendQueue := m.sendQueue ++ [p.id] }, [.waitSend p])
  | .waitSend p, .go => if m.sendQueue.head? = some p.id then some (m, [.extend p]) else none
  | .waitSend p, .cancel => some ({ m with sendQueue := m.sendQueue.filter (· ≠ p.id) }, p.job.raised)
  | .extend p, .go =>
    some ({ m with egressStack := m.egressStack ++ p.data, backlog := m.backlog.filter (fun x => x.1 ≠ p.id) }, [.snapshot p])
  | .snapshot p, .go => some (m, [.clearStack p m.egressStack])
  | .clearStack p data, .go => some ({ m with egressStack := [] }, [.transmit p data])
  | .transmit p data, .go => some ({ m with sent := m.sent ++ data }, [.sending p])
  | .sending p, .go => some (m, [.releaseSend p false])
  | .sending p, .fail | .sending p, .cancel => some (m, [.sendFailed p])
  | .sendFailed p, .go => some ({ m with state := .broken }, [.releaseSend p true])
  | .releaseSend p failed, .go =>
    some ({ m with sendQueue := m.sendQueue.tail }, if failed then p.job.raised else p.job.next p.wantRead)
  | .loadCount job, .go => some (m, [.acquireRecv job m.recvCount])
  | .acquireRecv job count, .go =>
    some ({ m with recvQueue := m.recvQueue ++ [m.next], next := m.next + 1 }, [.waitRecv job count m.next])
  | .waitRecv job count ticket, .go => if m.recvQueue.head? = some ticket then some (m, [.checkCount job count]) else none
  | .waitRecv job _ ticket, .cancel => some ({ m with recvQueue := m.recvQueue.filter (· ≠ ticket) }, job.raised)
  | .checkCount job count, .go => some (m, [if count = m.recvCount then .receive job else .releaseRecv job false])
  | .receive job, .go => some (m, [.ingressWrite job])
  | .receive job, .fail | .receive job, .cancel => some (m, [.releaseRecv job true])
  | .ingressWrite job, .go => some ({ m with writes := m.writes + 1 }, [.incCount job])
  | .incCount job, .go => some ({ m with recvCount := m.recvCount + 1 }, [.releaseRecv job false])
  | .releaseRecv job failed, .go =>
    some ({ m with recvQueue := m.recvQueue.tail }, if failed then job.raised else job.next true)
  | .closeCheck, .go => some (m, if m.state = .closed then [] else [.setClosed])
  | .setClosed, .go => some ({ m with state := .closed }, [.closeBroken])
  | .closeBroken, .go => some (m, [if m.state = .broken ∨ cfg.compatHttps then .transportClose else .step .unwrap])
  -- `__exit__` raises for a stream that is neither closed nor broken
  | .exitCheck, .go => some (m, if m.state = .closed then [] else [.exitBroken])
  | .exitBroken, .go => some (m, if m.state = .broken ∨ cfg.compatHttps then [.exitClosed] else [])
  | .exitClosed, .go => some ({ m with state := .closed }, [.transportClose])
  | .transportClose, .go => some ({ m with transportOpen := false }, [])
  | _, _ => none

/-- A call starts a task. -/
def call (m : Mem) : Call → Option (Mem × List Op)
  | .handshake => some (m, [.handshakePre])
  | .sendAll | .receiveSome => some (m, [.checkReady])
  | .close => some (m, [.closeCheck])
  | .exit => some (m, [.exitCheck])

/-- The tasks around one stream. -/
def machine (cfg : Config) : Machine Mem Op Choice Call where
  exec := exec cfg
  call := call

/-- A stream whose handshake is over; a server of TLS 1.3 has its last bytes on the egress stack. -/
def ready (stashed : Bytes) : State Mem Op :=
  ⟨⟨.ready, stashed, [], [], 0, true, 0, stashed, [], [], 0⟩, []⟩

/-- A stream before its handshake. -/
def initial : State Mem Op :=
  ⟨⟨.init, [], [], [], 0, true, 0, [], [], [], 0⟩, []⟩

/-! ## What is said about the payloads -/

/-- The payload of a task that has not queued for the send lock yet. -/
def Op.unqueued : Op → Option Nat
  | .acquireSend p => some p.id
  | _ => none

/-- A payload is overtaken or lost: a task queues for the send lock while a task with an older payload has not, or a task is cancelled
while it waits for the send lock. -/
def Overtakes (ops : List Op) : Act Op Choice Call → Prop
  | .exec (.acquireSend p) _ => ∃ op ∈ ops, op.unqueued.any (fun n => n < p.id) = true
  | .exec (.waitSend _) .cancel => True
  | _ => False

/-! ## What is said about the state -/

/-- The sender has the lock and has not passed its payload to the transport yet. -/
def Op.granted : Op → Bool
  | .extend _ | .snapshot _ | .clearStack _ _ | .transmit _ _ => true
  | _ => false

/-- The task has found the stream open and stores `Closed` next. -/
def Op.closing : Op → Bool
  | .setClosed | .exitClosed => true
  | _ => false

/-- A write is let through next to a failure: the stream becomes `Broken` while a sender that has the lock has not passed its payload to
the transport yet, or a task is given the send lock of a broken stream. -/
def Slips (m : Mem) (ops : List Op) : Act Op Choice Call → Prop
  | .exec (.stepFailed _) _ | .exec (.sendFailed _) _ => ∃ op ∈ ops, op.granted = true
  | .exec (.waitSend _) .go => m.state = .broken
  | _ => False

/-- A task is given the send lock. -/
def Grants : Act Op Choice Call → Prop
  | .exec (.waitSend _) .go => True
  | _ => False

/-- `Closed` is stored. -/
def Closes : Act Op Choice Call → Prop
  | .exec op _ => op.closing = true
  | _ => False

/-- A stream is closed twice or does not stay closed: an operation that was in flight fails on a closed stream, or a task decides to close
it while another one has decided so, or (in `__exit__`, which looks at the state twice) has closed it. -/
def Reopens (cfg : Config) (m : Mem) (ops : List Op) : Act Op Choice Call → Prop
  | .exec (.stepFailed _) _ | .exec (.sendFailed _) _ => m.state = .closed
  | .exec .closeCheck _ => m.state ≠ .closed ∧ ∃ op ∈ ops, op.closing = true
  | .exec .exitBroken _ => (m.state = .broken ∨ cfg.compatHttps = true) ∧ (m.state = .closed ∨ ∃ op ∈ ops, op.closing = true)
  | _ => False

/-! ## What is said about the receive lock -/

/-- Where a task that has read `count` from `_recv_count` is until it receives from the transport. -/
def Op.looked (job : Job) (count : Nat) : Op → Prop
  | .acquireRecv j n | .waitRecv j n _ | .checkCount j n => j = job ∧ n = count
  | .receive j => j = job
  | _ => False

/-- Task `i` takes a step of the SSL object, which wants to read (`s₁` is right after it); it reads `_recv_count` (in `s₂`) and is about
to receive from the transport (in `s₄`). Whatever the other tasks do, it does nothing else. -/
structure Visit (cfg : Config) (i : Nat) (job : Job) (rest : List Op) (s₀ s₁ s₂ s₃ s₄ : State Mem Op) : Prop where
  before : s₀.pool[i]? = some (.step job :: rest)
  step : (machine cfg).Step s₀ (.exec (.step job) (.step [] true)) s₁
  toLoad : (machine cfg).Within i (· = .loadCount job :: rest) s₁ s₂
  load : (machine cfg).Step s₂ (.exec (.loadCount job) .go) s₃
  toReceive : (machine cfg).Within i (fun t => ∃ op, t = op :: rest ∧ op.looked job s₂.mem.recvCount) s₃ s₄
  receives : s₄.pool[i]? = some (.receive job :: rest)

end Tls

end Tonio
