import Tonio.Runtime

/-!
# What a step of the runtime can do

`Move` lists the branches of `exec`, each with the state before it, the operation, and what it leaves: everything that is shown about
runs of the runtime is shown branch by branch.
-/

namespace Tonio.Runtime

open Interleaving

/-- The operations that take the mutex of an event, and what they do under it. -/
inductive Locks (m : Mem) (e : Nat) : Op → List Op → Prop where
  | notify : Locks m e (.notifyLock e) [.notify e]
  | unnotify : Locks m e (.unnotifyLock e) [.unnotify e (m.watchers e)]
  | sweep : Locks m e (.sweepLock e) [.sweep e]
  | addWaker (x : Waker) : Locks m e (.addWaker e x) [.addCheck e x]

/-- The operations that perform `resume` past the test of `aborted`. -/
def Wakes (S : Susp) (v : Val) (i : Nat) (op : Op) : Prop :=
  op = .resumeBody S v i ∨ (op = .resume S v i ∧ S.flavour = .gen)

/-- The suspension of a generator that calls a child. -/
def callSusp (m : Mem) (coro : Nat) (ctx : Option Nat) (parents : List Frame) : Susp :=
  ⟨⟨.gen, m.nextCell, coro, ctx, false, false, parents.head?.bind (·.checkpoint), 0, false⟩, parents⟩

/-- The copy `from_checkpoint` makes of the parent. -/
def checkpointFrame (m : Mem) (p : Frame) (w : Nat) : Frame :=
  { p with cell := m.nextCell, sentinel := false, isCheckpoint := true, checkpoint := some w }

/-- The suspension of a generator that yields a checkpoint waiter. -/
def checkpointSusp (cell coro : Nat) (ctx : Option Nat) (checkpoint : Option Nat) (parents : List Frame) : Susp :=
  ⟨⟨.gen, cell, coro, ctx, false, false, checkpoint, 0, true⟩, parents⟩

/-- Record that a waiter is registered and that a number of cells is taken. -/
def Mem.register (m : Mem) (w cells : Nat) : Mem :=
  { m with registered := Function.update m.registered w true, nextCell := m.nextCell + cells }

theorem Mem.detach_none (m : Mem) : m.detach none = m := by simp [Mem.detach]

/-- Record that a coroutine is over. -/
def Mem.finish (m : Mem) (coro : Nat) : Mem := { m with finished := Function.update m.finished coro true }

/-- The branches of `exec`. -/
inductive Move (ws : Nat → Waiter) (m : Mem) : Op → Choice → Mem → List Op → Prop where
  -- events
  | setTrue (e : Nat) (hf : m.flag e = false) :
      Move ws m (.set e) .go { m with flag := Function.update m.flag e true } [.notifyLock e]
  | setNoop (e : Nat) (hf : m.flag e = true) : Move ws m (.set e) .go m []
  | clearTrue (e : Nat) (hf : m.flag e = true) :
      Move ws m (.clear e) .go { m with flag := Function.update m.flag e false } [.unnotifyLock e]
  | clearNoop (e : Nat) (hf : m.flag e = false) : Move ws m (.clear e) .go m []
  | lock {op new} (e : Nat) (hl : m.locked e = false) (h : Locks m e op new) :
      Move ws m op .go { m with locked := Function.update m.locked e true } new
  | unlock (e : Nat) : Move ws m (.unlock e) .go { m with locked := Function.update m.locked e false } []
  | notifyPop (e : Nat) (x : Waker) (q : List Waker) (hq : m.watchers e = x :: q) :
      Move ws m (.notify e) .go (m.setWatchers e q) [.resume x.target .none x.idx, .notify e]
  | notifyDone (e : Nat) (hq : m.watchers e = []) : Move ws m (.notify e) .go (m.setDirty e false) [.unlock e]
  | hold (e : Nat) (x : Waker) (q : List Waker) : Move ws m (.unnotify e (x :: q)) .go (m.hold x) [.unnotify e q]
  | unnotifyDone (e : Nat) : Move ws m (.unnotify e []) .go m [.unlock e]
  | waiterDirty (e : Nat) : Move ws m (.waiter e) .go m [.sweepLock e]
  | waiterClean (e : Nat) : Move ws m (.waiter e) .go m []
  | sweepDrop (e : Nat) (q : List Waker) (x : Waker) (hq : m.watchers e = q ++ [x]) (hd : m.isDead x.target = true) :
      Move ws m (.sweep e) .go (m.setWatchers e q) [.sweep e]
  | sweepDone (e : Nat) (b : Nat → Bool) : Move ws m (.sweep e) .go { m with dirty := b } [.unlock e]
  | wakeNow (e : Nat) (x : Waker) (hf : m.flag e = true) :
      Move ws m (.addCheck e x) .go m [.resume x.target .none x.idx, .unlock e]
  | checked (e : Nat) (x : Waker) (hf : m.flag e = false) : Move ws m (.addCheck e x) .go m [.push e x]
  | push (e : Nat) (x : Waker) :
      Move ws m (.push e x) .go ((m.setWatchers e (m.watchers e ++ [x])).setDirty e true) [.unlock e]
  -- suspensions
  | resumeDrop (S : Susp) (v : Val) (i : Nat) (hfl : S.flavour = .async) (ha : m.abortedOf S = true) :
      Move ws m (.resume S v i) .go m []
  | resumePass (S : Susp) (v : Val) (i : Nat) (hfl : S.flavour = .async) (ha : m.abortedOf S = false) :
      Move ws m (.resume S v i) .go m [.resumeBody S v i]
  | decrementZero {op} (S : Susp) (v : Val) (i : Nat) (hop : Wakes S v i op) (hs : S.sentinel = true) (h0 : m.counter S.cell = 0) :
      Move ws m op .go { m with counter := Function.update m.counter S.cell (fetchSub 0) } [.restore S]
  | decrement {op} (S : Susp) (v : Val) (i : Nat) (hop : Wakes S v i op) (hs : S.sentinel = true) (h0 : m.counter S.cell ≠ 0)
      (h1 : m.counter S.cell ≠ 1) :
      Move ws m op .go { m with counter := Function.update m.counter S.cell (fetchSub (m.counter S.cell)) }
        [.storeRes S i v false]
  | decrementLast {op} (S : Susp) (v : Val) (i : Nat) (hop : Wakes S v i op) (hs : S.sentinel = true) (h1 : m.counter S.cell = 1) :
      Move ws m op .go ({ m with counter := Function.update m.counter S.cell (fetchSub 1) }.fire S.cell) [.storeRes S i v true]
  | consumeNoop {op} (S : Susp) (v : Val) (i : Nat) (hop : Wakes S v i op) (hs : S.sentinel = false)
      (hc : m.consumed S.cell = true) : Move ws m op .go m []
  | consume {op} (S : Susp) (v : Val) (i : Nat) (hop : Wakes S v i op) (hs : S.sentinel = false)
      (hc : m.consumed S.cell = false) :
      Move ws m op .go ({ m with consumed := Function.update m.consumed S.cell true }.fire S.cell) [.toHandle S (.send v)]
  | restore (S : Susp) :
      Move ws m (.restore S) .go { m with counter := Function.update m.counter S.cell (fetchAdd (m.counter S.cell)) } []
  | storeRes (S : Susp) (i : Nat) (v : Val) (last : Bool) :
      Move ws m (.storeRes S i v last) .go { m with res := Function.update m.res S.cell ((m.res S.cell).set i v) }
        (if last then [.fetchRes S] else [])
  | fetchRes (S : Susp) : Move ws m (.fetchRes S) .go m [.toHandle S (.send (.list (m.res S.cell)))]
  | errorNoop (byAbort : Bool) (S : Susp) (e : Exc) (t : Nat → Bool)
      (ht : t = if byAbort then Function.update m.thrown S.cell true else m.thrown)
      (h : (S.sentinel = true ∧ m.counter S.cell = 0) ∨ (S.sentinel = false ∧ m.consumed S.cell = true)) :
      Move ws m (.error byAbort S e) .go { m with thrown := t } []
  | errorSentinel (byAbort : Bool) (S : Susp) (e : Exc) (t : Nat → Bool)
      (ht : t = if byAbort then Function.update m.thrown S.cell true else m.thrown) (hs : S.sentinel = true)
      (h0 : m.counter S.cell ≠ 0) :
      Move ws m (.error byAbort S e) .go
        ({ m with thrown := t, counter := Function.update m.counter S.cell 0 }.fire S.cell) [.toHandle S (.throw e)]
  | errorConsume (byAbort : Bool) (S : Susp) (e : Exc) (t : Nat → Bool)
      (ht : t = if byAbort then Function.update m.thrown S.cell true else m.thrown) (hs : S.sentinel = false)
      (hc : m.consumed S.cell = false) :
      Move ws m (.error byAbort S e) .go
        ({ m with thrown := t, consumed := Function.update m.consumed S.cell true }.fire S.cell) [.toHandle S (.throw e)]
  | toHandleClear (S : Susp) (input : Input) (w : Nat) (hw : S.clears input = some w) :
      Move ws m (.toHandle S input) .go (m.setPtr S.flavour w none) [.addHandle (S.handle input)]
  | toHandle (S : Susp) (input : Input) (hw : S.clears input = none) :
      Move ws m (.toHandle S input) .go m [.addHandle (S.handle input)]
  | addHandle (h : Handle) : Move ws m (.addHandle h) .go { m with handles := m.handles ++ [h] } []
  | addTimer (S : Susp) : Move ws m (.addTimer S) .go { m with timers := m.timers ++ [S] } []
  -- registration
  | fromCheckpoint (w coro : Nat) (ctx : Option Nat) (p : Frame) (rest : List Frame) (hr : m.registered w = false)
      (he : (ws w).events = []) (hp : p.checkpoint = none) :
      Move ws m (.registerPygen w coro ctx (p :: rest)) .go
        ((({ m.register w 2 with live := m.live.filter (·.cell ≠ p.cell) }.new ⟨checkpointFrame m p w, rest⟩ []).new
          (checkpointSusp (m.nextCell + 1) coro ctx none (checkpointFrame m p w :: rest)) []))
        [.checkAborted w (checkpointSusp (m.nextCell + 1) coro ctx none (checkpointFrame m p w :: rest))]
  | underCheckpoint (w coro : Nat) (ctx : Option Nat) (p : Frame) (rest : List Frame) (c : Nat) (hr : m.registered w = false)
      (he : (ws w).events = []) (hp : p.checkpoint = some c) :
      Move ws m (.registerPygen w coro ctx (p :: rest)) .go
        (((m.register w 1).detach (some w)).new (checkpointSusp m.nextCell coro ctx (some c) (p :: rest)) [])
        [.adoptLoad w c (checkpointSusp m.nextCell coro ctx (some c) (p :: rest))]
  | register (w coro : Nat) (ctx : Option Nat) (parents : List Frame) (hr : m.registered w = false) (he : (ws w).events ≠ []) :
      Move ws m (.registerPygen w coro ctx parents) .go (m.register w 0)
        [.suspend .gen coro ctx (parents.head?.bind (·.checkpoint)) parents (ws w).events (ws w).timeout.isSome]
  | registerAsync (w coro : Nat) (ctx checkpoint checkpoint' left : Option Nat) (timed : Bool) (hr : m.registered w = false)
      (he : ((ws w).events = [] ∧ checkpoint' = some w ∧ timed = false ∧ left = checkpoint) ∨
        ((ws w).events ≠ [] ∧ checkpoint' = checkpoint ∧ timed = (ws w).timeout.isSome ∧ left = none)) :
      Move ws m (.registerPyasyncgen w coro ctx checkpoint) .go ((m.register w 0).detach left)
        [.suspend .async coro ctx checkpoint' [] (ws w).events timed]
  | suspend (fl : Flavour) (coro : Nat) (ctx checkpoint : Option Nat) (parents : List Frame) (events : List Nat) (timed : Bool)
      (S : Susp) (hS : S = m.suspension fl coro ctx checkpoint parents events) :
      Move ws m (.suspend fl coro ctx checkpoint parents events timed) .go (m.suspend S events) (registration S events timed)
  | adoptLoad (w c : Nat) (S : Susp) : Move ws m (.adoptLoad w c S) .go m [.adoptSwap w (m.ptr .gen c) S]
  | adoptSwap (w : Nat) (p : Option Susp) (S : Susp) :
      Move ws m (.adoptSwap w p S) .go (m.setPtr .gen w p) [.checkAborted w S]
  | checkAborted (w : Nat) (S : Susp) :
      Move ws m (.checkAborted w S) .go m [if m.aborted w then .error false S .cancelled else .resume S .none 0]
  | abort (fl : Flavour) (w : Nat) (ha : m.aborted w = false) :
      Move ws m (.abort fl w) .go { m with aborted := Function.update m.aborted w true } [.abortLoad fl w]
  | abortNoop (fl : Flavour) (w : Nat) (ha : m.aborted w = true) : Move ws m (.abort fl w) .go m []
  | abortLoad (fl : Flavour) (w : Nat) :
      Move ws m (.abortLoad fl w) .go m ((m.ptr fl w).map (fun S => Op.error true S .cancelled)).toList
  -- handles
  | again (parents : List Frame) (coro : Nat) (ctx : Option Nat) (input : Input) :
      Move ws m (.run (.gen parents coro ctx input)) (.out .yieldNone) (m.resumed coro input)
        [.addHandle (.gen parents coro ctx input.again)]
  | callChild (parents : List Frame) (coro : Nat) (ctx : Option Nat) (input : Input) (new : List Op)
      (hnew : new = [.addHandle (.gen ((callSusp m coro ctx parents).toFrame :: parents) m.nextCoro ctx (.send .none))] ∨
        ∃ p rest w, parents = p :: rest ∧ p.isCheckpoint = true ∧ p.checkpoint = some w ∧
          new = [.enter w ⟨p, rest⟩ (.gen ((callSusp m coro ctx parents).toFrame :: parents) m.nextCoro ctx (.send .none))]) :
      Move ws m (.run (.gen parents coro ctx input)) (.out .yieldGen)
        ({ m.resumed coro input with nextCell := m.nextCell + 1, nextCoro := m.nextCoro + 1 }.new
          (callSusp m coro ctx parents) []) new
  | yieldWaiter (parents : List Frame) (coro : Nat) (ctx : Option Nat) (input : Input) (w : Nat) :
      Move ws m (.run (.gen parents coro ctx input)) (.out (.yieldWaiter w)) (m.resumed coro input)
        [.registerPygen w coro ctx parents]
  | ret (parents : List Frame) (coro : Nat) (ctx : Option Nat) (input : Input) (v : Val) :
      Move ws m (.run (.gen parents coro ctx input)) (.out (.ret v)) ((m.resumed coro input).finish coro)
        (match parents with
          | p :: rest => [.resume ⟨p, rest⟩ v p.order]
          | [] => [])
  | raise (parents : List Frame) (coro : Nat) (ctx : Option Nat) (input : Input) (e : Exc) :
      Move ws m (.run (.gen parents coro ctx input)) (.out (.raise e)) ((m.resumed coro input).finish coro)
        (match parents with
          | p :: rest => [.error false ⟨p, rest⟩ e]
          | [] => [])
  | asyncAgain (checkpoint : Option Nat) (coro : Nat) (ctx : Option Nat) (v : Val) :
      Move ws m (.run (.async checkpoint coro ctx v)) (.out .yieldNone) (m.resumed coro (.send v))
        [.addHandle (.async checkpoint coro ctx v)]
  | asyncWaiter (checkpoint : Option Nat) (coro : Nat) (ctx : Option Nat) (v : Val) (w : Nat) :
      Move ws m (.run (.async checkpoint coro ctx v)) (.out (.yieldWaiter w)) (m.resumed coro (.send v))
        [.registerPyasyncgen w coro ctx checkpoint]
  | asyncOver (checkpoint : Option Nat) (coro : Nat) (ctx : Option Nat) (v : Val) (o : Out)
      (ho : (∃ r, o = .ret r) ∨ ∃ e, o = .raise e) :
      Move ws m (.run (.async checkpoint coro ctx v)) (.out o) ((m.resumed coro (.send v)).finish coro)
        (checkpoint.map Op.clearPtr).toList
  | throwOver (coro : Nat) (ctx : Option Nat) (e : Exc) (o : Out) (ho : (∃ r, o = .ret r) ∨ ∃ e, o = .raise e) :
      Move ws m (.run (.asyncThrow coro ctx e)) (.out o) ((m.resumed coro (.throw e)).finish coro) []
  | throwDrop (coro : Nat) (ctx : Option Nat) (e : Exc) (o : Out) (ho : (∀ r, o ≠ .ret r) ∧ ∀ e, o ≠ .raise e) :
      Move ws m (.run (.asyncThrow coro ctx e)) (.out o) (m.resumed coro (.throw e)) []
  | timer (S : Susp) : Move ws m (.run (.timer S)) .go m [.resume S .none 0]
  | event (e : Nat) : Move ws m (.run (.event e)) .go m [.set e]
  | enter (w : Nat) (P : Susp) (h : Handle) : Move ws m (.enter w P h) .go (m.setPtr .gen w (some P)) [.addHandle h]
  | clearPtr (w : Nat) : Move ws m (.clearPtr w) .go (m.setPtr .async w none) []

/-! ## The branches of `exec` are these -/

theorem move_of_resumeBody {ws : Nat → Waiter} {m m' : Mem} {S : Susp} {v : Val} {i : Nat} {op : Op} {new : List Op}
    (hop : Wakes S v i op) (h : m.resumeBody S v i = (m', new)) : Move ws m op .go m' new := by
  unfold Mem.resumeBody at h
  simp only at h
  split at h
  · rename_i hs
    split at h
    · rename_i h0
      simp only [Prod.mk.injEq] at h
      obtain ⟨rfl, rfl⟩ := h
      rw [h0]
      exact .decrementZero S v i hop hs h0
    · rename_i h0
      by_cases h1 : m.counter S.cell = 1
      · simp only [h1, if_true, decide_true, Prod.mk.injEq] at h
        obtain ⟨rfl, rfl⟩ := h
        exact .decrementLast S v i hop hs h1
      · simp only [h1, if_false, decide_false, Prod.mk.injEq] at h
        obtain ⟨rfl, rfl⟩ := h
        exact .decrement S v i hop hs h0 h1
  · rename_i hs
    have hs : S.sentinel = false := Bool.eq_false_iff.mpr hs
    split at h <;> simp only [Prod.mk.injEq] at h <;> obtain ⟨rfl, rfl⟩ := h
    · exact .consumeNoop S v i hop hs (by assumption)
    · exact .consume S v i hop hs (Bool.eq_false_iff.mpr (by assumption))

theorem move_of_error {ws : Nat → Waiter} {m m' : Mem} {b : Bool} {S : Susp} {e : Exc} {new : List Op}
    (h : m.error b S e = (m', new)) : Move ws m (.error b S e) .go m' new := by
  have key : ∀ t, t = (if b then Function.update m.thrown S.cell true else m.thrown) →
      ({ m with thrown := t }.error false S e = (m', new)) → Move ws m (.error b S e) .go m' new := by
    intro t ht h
    unfold Mem.error at h
    simp only [Bool.false_eq_true, if_false] at h
    split at h
    · rename_i hs
      split at h <;> simp only [Prod.mk.injEq] at h <;> obtain ⟨rfl, rfl⟩ := h
      · exact .errorNoop b S e t ht (Or.inl ⟨hs, by assumption⟩)
      · exact .errorSentinel b S e t ht hs (by assumption)
    · rename_i hs
      have hs : S.sentinel = false := Bool.eq_false_iff.mpr hs
      split at h <;> simp only [Prod.mk.injEq] at h <;> obtain ⟨rfl, rfl⟩ := h
      · exact .errorNoop b S e t ht (Or.inr ⟨hs, by assumption⟩)
      · exact .errorConsume b S e t ht hs (Bool.eq_false_iff.mpr (by assumption))
  cases b
  · exact key _ rfl h
  · exact key _ rfl h

theorem move_of_registerPygen {ws : Nat → Waiter} {m m' : Mem} {w coro : Nat} {ctx : Option Nat} {parents : List Frame}
    {new : List Op} (h : registerPygen ws m w coro ctx parents = some (m', new)) :
    Move ws m (.registerPygen w coro ctx parents) .go m' new := by
  unfold registerPygen at h
  split at h
  · cases h
  · rename_i hr
    have hr : m.registered w = false := Bool.eq_false_iff.mpr hr
    simp only at h
    split at h
    · rename_i he
      split at h
      · cases h
      · split at h <;> simp only [Option.some.injEq, Prod.mk.injEq] at h <;> obtain ⟨rfl, rfl⟩ := h
        · exact .fromCheckpoint w coro ctx _ _ hr he (by assumption)
        · exact .underCheckpoint w coro ctx _ _ _ hr he (by assumption)
    · rename_i hne
      simp only [Option.some.injEq, Prod.mk.injEq] at h
      obtain ⟨rfl, rfl⟩ := h
      exact .register w coro ctx parents hr hne

theorem move_of_registerPyasyncgen {ws : Nat → Waiter} {m m' : Mem} {w coro : Nat} {ctx checkpoint : Option Nat}
    {new : List Op} (h : registerPyasyncgen ws m w coro ctx checkpoint = some (m', new)) :
    Move ws m (.registerPyasyncgen w coro ctx checkpoint) .go m' new := by
  unfold registerPyasyncgen at h
  split at h
  · cases h
  · rename_i hr
    have hr : m.registered w = false := Bool.eq_false_iff.mpr hr
    simp only at h
    split at h
    · rename_i he
      simp only [Option.some.injEq, Prod.mk.injEq] at h
      obtain ⟨rfl, rfl⟩ := h
      have hmove : Move ws m _ .go _ _ := .registerAsync w coro ctx checkpoint (some w) checkpoint false hr (Or.inl ⟨he, rfl, rfl, rfl⟩)
      rw [he] at hmove
      exact hmove
    · rename_i hne
      simp only [Option.some.injEq, Prod.mk.injEq] at h
      obtain ⟨rfl, rfl⟩ := h
      have hmove : Move ws m _ .go _ _ := .registerAsync w coro ctx checkpoint checkpoint none _ hr (Or.inr ⟨hne, rfl, rfl, rfl⟩)
      rw [Mem.detach_none] at hmove
      exact hmove

theorem move_of_runGen {ws : Nat → Waiter} {m m' : Mem} {parents : List Frame} {coro : Nat} {ctx : Option Nat} {input : Input}
    {o : Out} {new : List Op} (h : runGen (m.resumed coro input) parents coro ctx input o = (m', new)) :
    Move ws m (.run (.gen parents coro ctx input)) (.out o) m' new := by
  cases o <;> simp only [runGen, Prod.mk.injEq] at h <;> obtain ⟨rfl, rfl⟩ := h
  case yieldNone => exact .again parents coro ctx input
  case yieldGen =>
    refine .callChild parents coro ctx input _ ?_
    cases parents with
    | nil => exact Or.inl rfl
    | cons p rest =>
      cases hc : p.isCheckpoint with
      | false => exact Or.inl (by simp [callSusp, Mem.resumed, hc])
      | true =>
        cases hw : p.checkpoint with
        | none => exact Or.inl (by simp [callSusp, Mem.resumed, hc, hw])
        | some w => exact Or.inr ⟨p, rest, w, rfl, hc, hw, by simp [callSusp, Mem.resumed, hc, hw]⟩
  case yieldWaiter w => exact .yieldWaiter parents coro ctx input w
  case ret v => exact .ret parents coro ctx input v
  case raise e => exact .raise parents coro ctx input e

theorem move_of_runHandle {ws : Nat → Waiter} {m m' : Mem} {h : Handle} {c : Choice} {new : List Op}
    (he : runHandle m h c = some (m', new)) : Move ws m (.run h) c m' new := by
  cases h with
  | gen parents coro ctx input =>
    cases c <;> simp only [runHandle, Option.some.injEq, reduceCtorEq] at he
    exact move_of_runGen he
  | async checkpoint coro ctx v =>
    cases c <;> simp only [runHandle, reduceCtorEq] at he
    rename_i o
    cases o <;> simp only [runAsync, Option.some.injEq, Prod.mk.injEq, reduceCtorEq] at he <;> obtain ⟨rfl, rfl⟩ := he
    case yieldNone => exact .asyncAgain checkpoint coro ctx v
    case yieldWaiter w => exact .asyncWaiter checkpoint coro ctx v w
    case ret r => exact .asyncOver checkpoint coro ctx v _ (Or.inl ⟨r, rfl⟩)
    case raise e => exact .asyncOver checkpoint coro ctx v _ (Or.inr ⟨e, rfl⟩)
  | asyncThrow coro ctx e =>
    cases c <;> simp only [runHandle, Option.some.injEq, reduceCtorEq] at he
    rename_i o
    cases o <;> simp only [runAsyncThrow, Prod.mk.injEq] at he <;> obtain ⟨rfl, rfl⟩ := he
    case ret r => exact .throwOver coro ctx e _ (Or.inl ⟨r, rfl⟩)
    case raise e' => exact .throwOver coro ctx e _ (Or.inr ⟨e', rfl⟩)
    all_goals exact .throwDrop coro ctx e _ ⟨by simp, by simp⟩
  | timer S =>
    cases c <;> simp only [runHandle, Option.some.injEq, Prod.mk.injEq, reduceCtorEq] at he
    obtain ⟨rfl, rfl⟩ := he
    exact .timer S
  | event e =>
    cases c <;> simp only [runHandle, Option.some.injEq, Prod.mk.injEq, reduceCtorEq] at he
    obtain ⟨rfl, rfl⟩ := he
    exact .event e

theorem move_of_lock {ws : Nat → Waiter} {m m' : Mem} {e : Nat} {op : Op} {next new : List Op} (hl : Locks m e op next)
    (h : m.lock e next = some (m', new)) : Move ws m op .go m' new := by
  unfold Mem.lock at h
  split at h
  · cases h
  · simp only [Option.some.injEq, Prod.mk.injEq] at h
    obtain ⟨rfl, rfl⟩ := h
    exact .lock e (Bool.eq_false_iff.mpr (by assumption)) hl

theorem move_of_sweep {ws : Nat → Waiter} {m m' : Mem} {e : Nat} {new : List Op} (h : m.sweep e = (m', new)) :
    Move ws m (.sweep e) .go m' new := by
  unfold Mem.sweep at h
  split at h
  · rename_i x hx
    split at h <;> simp only [Prod.mk.injEq] at h <;> obtain ⟨rfl, rfl⟩ := h
    · exact .sweepDrop e _ x (List.dropLast_append_getLast? x hx).symm (by assumption)
    · exact .sweepDone e m.dirty
  · simp only [Prod.mk.injEq] at h
    obtain ⟨rfl, rfl⟩ := h
    exact .sweepDone e _

/-- Every step is one of the branches. -/
theorem exec_move {ws : Nat → Waiter} {m m' : Mem} {op : Op} {c : Choice} {new : List Op}
    (h : exec ws m op c = some (m', new)) : Move ws m op c m' new := by
  cases c with
  | out o =>
    cases op <;> simp only [exec, reduceCtorEq] at h
    exact move_of_runHandle h
  | go =>
    cases op <;> simp only [exec, Option.some.injEq] at h
    case run => exact move_of_runHandle h
    case set e =>
      split at h <;> simp only [Prod.mk.injEq] at h <;> obtain ⟨rfl, rfl⟩ := h
      · exact .setNoop e (by assumption)
      · exact .setTrue e (Bool.eq_false_iff.mpr (by assumption))
    case clear e =>
      split at h <;> simp only [Prod.mk.injEq] at h <;> obtain ⟨rfl, rfl⟩ := h
      · exact .clearTrue e (by assumption)
      · exact .clearNoop e (Bool.eq_false_iff.mpr (by assumption))
    case notifyLock e => exact move_of_lock .notify h
    case unnotifyLock e => exact move_of_lock .unnotify h
    case sweepLock e => exact move_of_lock .sweep h
    case addWaker e x => exact move_of_lock (.addWaker x) h
    case notify e =>
      split at h <;> simp only [Prod.mk.injEq] at h <;> obtain ⟨rfl, rfl⟩ := h
      · exact .notifyPop e _ _ (by assumption)
      · exact .notifyDone e (by assumption)
    case unnotify e q =>
      split at h <;> simp only [Prod.mk.injEq] at h <;> obtain ⟨rfl, rfl⟩ := h
      · exact .hold e _ _
      · exact .unnotifyDone e
    case waiter e =>
      simp only [Prod.mk.injEq] at h
      obtain ⟨rfl, rfl⟩ := h
      split
      · exact .waiterDirty e
      · exact .waiterClean e
    case sweep e => exact move_of_sweep h
    case addCheck e x =>
      split at h <;> simp only [Prod.mk.injEq] at h <;> obtain ⟨rfl, rfl⟩ := h
      · exact .wakeNow e x (by assumption)
      · exact .checked e x (Bool.eq_false_iff.mpr (by assumption))
    case resume S v i =>
      split at h
      · exact move_of_resumeBody (Or.inr ⟨rfl, by assumption⟩) (Option.some.inj h)
      · simp only [Option.some.injEq, Prod.mk.injEq] at h
        obtain ⟨rfl, rfl⟩ := h
        split
        · exact .resumeDrop S v i (by assumption) (by assumption)
        · exact .resumePass S v i (by assumption) (Bool.eq_false_iff.mpr (by assumption))
    case resumeBody S v i => exact move_of_resumeBody (Or.inl rfl) h
    case error b S e => exact move_of_error h
    case toHandle S input =>
      unfold Mem.toHandle at h
      cases hw : S.clears input with
      | none =>
        simp only [hw, Prod.mk.injEq] at h
        obtain ⟨rfl, rfl⟩ := h
        exact .toHandle S input hw
      | some w =>
        simp only [hw, Prod.mk.injEq] at h
        obtain ⟨rfl, rfl⟩ := h
        exact .toHandleClear S input w hw
    case registerPygen => exact move_of_registerPygen h
    case registerPyasyncgen => exact move_of_registerPyasyncgen h
    case abort fl w =>
      split at h <;> simp only [Prod.mk.injEq] at h <;> obtain ⟨rfl, rfl⟩ := h
      · exact .abortNoop fl w (by assumption)
      · exact .abort fl w (Bool.eq_false_iff.mpr (by assumption))
    all_goals
      simp only [Prod.mk.injEq] at h
      obtain ⟨rfl, rfl⟩ := h
    case unlock e => exact .unlock e
    case push e x => exact .push e x
    case restore S => exact .restore S
    case storeRes S i v last => exact .storeRes S i v last
    case fetchRes S => exact .fetchRes S
    case addHandle h => exact .addHandle h
    case addTimer S => exact .addTimer S
    case adoptLoad w c S => exact .adoptLoad w c S
    case adoptSwap w p S => exact .adoptSwap w p S
    case suspend fl coro ctx checkpoint parents events timed =>
      exact .suspend fl coro ctx checkpoint parents events timed _ rfl
    case checkAborted w S => exact .checkAborted w S
    case abortLoad fl w => exact .abortLoad fl w
    case enter w P h => exact .enter w P h
    case clearPtr w => exact .clearPtr w

/-! ## Calls -/

/-- The branches of `call`. -/
inductive Started (m : Mem) : Call → Mem → List Op → Prop where
  | set (e : Nat) : Started m (.set e) m [.set e]
  | clear (e : Nat) : Started m (.clear e) m [.clear e]
  | waiter (e : Nat) : Started m (.waiter e) m [.waiter e]
  | abort (fl : Flavour) (w : Nat) : Started m (.abort fl w) m [.abort fl w]
  | io (e : Nat) : Started m (.io e) m [.addHandle (.event e)]
  | spawn (fl : Flavour) (ctx : Option Nat) (h : Handle)
      (hh : (fl = .gen ∧ h = .gen [] m.nextCoro ctx (.send .none)) ∨ (fl = .async ∧ h = .async none m.nextCoro ctx .none)) :
      Started m (.spawn fl ctx) { m with nextCoro := m.nextCoro + 1 } [.addHandle h]
  | work (k : Nat) (h : Handle) (hk : m.handles[k]? = some h) :
      Started m (.work k) { m with handles := m.handles.eraseIdx k } [.run h]
  | fire (k : Nat) (S : Susp) (hk : m.timers[k]? = some S) :
      Started m (.fire k) { m with timers := m.timers.eraseIdx k } [.addHandle (.timer S)]

theorem call_started {m m' : Mem} {l : Call} {new : List Op} (h : call m l = some (m', new)) : Started m l m' new := by
  cases l with
  | work k =>
    obtain ⟨y, hy, heq⟩ := Option.map_eq_some_iff.mp h
    obtain ⟨rfl, rfl⟩ := Prod.mk.inj heq
    exact .work k y hy
  | fire k =>
    obtain ⟨S, hS, heq⟩ := Option.map_eq_some_iff.mp h
    obtain ⟨rfl, rfl⟩ := Prod.mk.inj heq
    exact .fire k S hS
  | spawn fl ctx =>
    cases fl <;> simp only [call, Option.some.injEq, Prod.mk.injEq] at h <;> obtain ⟨rfl, rfl⟩ := h
    · exact .spawn .gen ctx _ (Or.inl ⟨rfl, rfl⟩)
    · exact .spawn .async ctx _ (Or.inr ⟨rfl, rfl⟩)
  | _ =>
    simp only [call, Option.some.injEq, Prod.mk.injEq] at h
    obtain ⟨rfl, rfl⟩ := h
    constructor

/-- A call changes nothing but the queues of handles and timers and the number of coroutines. -/
theorem Started.exists_eq {m m' : Mem} {l : Call} {new : List Op} (h : Started m l m' new) :
    ∃ hs ts n, m' = { m with handles := hs, timers := ts, nextCoro := n } := by
  cases h <;> exact ⟨_, _, _, rfl⟩

end Tonio.Runtime
