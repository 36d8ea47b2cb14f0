import Tonio.Interleaving.Progress
import Tonio.Lemmas.Simulation

/-!
# The trampoline goes on, and comes to an end

Two facts about a run of a program. As long as there is something to do, something can be done (`enabled_of_simulates`): a thread that
holds the mutex of an event takes no other, and no waiter is registered twice. And the workers come to an end (`Mem.measure`): what has
still to be sent and thrown, the waiters that have still to be registered, and what is on its way become less with every step.
-/

namespace Tonio.Runtime

open Interleaving

/-! ## Mutexes -/

/-- The operations on top of one that holds the mutex of an event. -/
def Op.free : Op → Bool
  | .resume _ _ _ | .resumeBody _ _ _ | .restore _ | .storeRes _ _ _ _ | .fetchRes _ | .toHandle _ _ | .addHandle _ => true
  | _ => false

/-- The operations that hold the mutex of an event. -/
def Op.under : Op → Bool
  | .notify _ | .unnotify _ _ | .addCheck _ _ | .push _ _ | .sweep _ | .unlock _ => true
  | _ => false

/-- The event whose mutex an operation takes. -/
def Op.takes : Op → Option Nat
  | .notifyLock e | .unnotifyLock e | .sweepLock e | .addWaker e _ => some e
  | _ => none

section

variable {ws : Nat → Waiter} {P : Program} {m m' : Mem} {A B new ops ops' : List Op} {op : Op} {c : Choice}

theorem under_of_holds {e : Nat} (h : 0 < op.holds e) : op.under = true := by
  cases op <;> first | rfl | exact absurd h (Nat.lt_irrefl 0)

/-- What follows from an operation that takes no mutex takes none. -/
theorem Move.free (hm : Move ws m op c m' new) (hop : op.free = true) : ∀ x ∈ new, x.free = true := by
  intro x hx
  cases hm with
  | lock e hl hlock => cases hlock <;> cases hop
  | decrementZero S v i hw hs h0 | decrement S v i hw hs h0 h1 | decrementLast S v i hw hs h1 | consume S v i hw hs hc =>
    rw [List.mem_singleton.mp hx]
    rfl
  | consumeNoop S v i hw hs hc => cases hx
  | storeRes S i v last =>
    cases last with
    | false => cases hx
    | true =>
      rw [List.mem_singleton.mp hx]
      rfl
  | resumePass | fetchRes | toHandleClear | toHandle =>
    rw [List.mem_singleton.mp hx]
    rfl
  | resumeDrop | restore | addHandle => cases hx
  | _ => cases hop

theorem nested_singleton (x : Op) : LockNested Op.free Op.under [x] := List.pairwise_singleton _ x

/-- What follows from an operation is nested. -/
theorem Move.nested (hm : Move ws m op c m' new) : LockNested Op.free Op.under new := by
  cases hm with
  | lock e hl hlock => cases hlock <;> exact nested_singleton _
  | notifyPop e x q hq | wakeNow e x hf => simp [LockNested, Op.free]
  | storeRes S i v last =>
    cases last
    · exact List.Pairwise.nil
    · exact nested_singleton _
  | suspend fl coro ctx checkpoint parents events timed S hS =>
    refine List.pairwise_of_forall_mem_list (fun x _ y hy hu => ?_)
    have hzero : y.under.toNat = 0 :=
      total_eq_zero_iff.mp (total_registration (f := fun op => op.under.toNat) (fun _ _ => rfl) rfl (fun _ => rfl)) y hy
    simp [hu] at hzero
  | abortLoad fl w =>
    cases m.ptr fl w
    · exact List.Pairwise.nil
    · exact nested_singleton _
  | callChild parents coro ctx input new hnew => rcases hnew with rfl | ⟨_, _, _, -, -, -, rfl⟩ <;> exact nested_singleton _
  | ret parents coro ctx input v | raise parents coro ctx input e =>
    cases parents
    · exact List.Pairwise.nil
    · exact nested_singleton _
  | asyncOver checkpoint coro ctx v o ho =>
    cases checkpoint
    · exact List.Pairwise.nil
    · exact nested_singleton _
  | _ => first | exact nested_singleton _ | exact List.Pairwise.nil

theorem nested_of_reach {ok : Mem → List Op → Act Op Choice Call → Prop} {s : State Mem Op} (h : (machine ws).Reach ok initial s) :
    ∀ t ∈ s.pool, LockNested Op.free Op.under t := by
  refine h.nested (fun t ht => (nomatch ht)) ?_ ?_ ?_
  · exact fun m op c m' new he => (exec_move he).free
  · exact fun m op c m' new he => (exec_move he).nested
  · exact fun m l m' new hc => by cases call_started hc <;> exact nested_singleton _

/-! ## What can be done -/

/-- What holds a mutex can be done, and so can what stands on top of it. -/
theorem exec_of_under (ws : Nat → Waiter) (m : Mem) (h : op.under = true ∨ op.free = true) : ∃ r, exec ws m op .go = some r := by
  cases op with
  | resume S v i => cases hfl : S.flavour <;> exact Option.isSome_iff_exists.mp (by simp only [exec, hfl, Option.isSome_some])
  | notify | unnotify | addCheck | push | sweep | unlock | resumeBody | restore | storeRes | fetchRes | toHandle | addHandle =>
    exact ⟨_, rfl⟩
  | _ => exact absurd h (by simp [Op.under, Op.free])

/-- A waiter that has not been registered can be, if there is a parent where it needs one. -/
theorem registerPygen_isSome {w : Nat} (coro : Nat) (ctx : Option Nat) {parents : List Frame} (hr : m.registered w = false)
    (hne : (ws w).events = [] → parents ≠ []) : ∃ r, registerPygen ws m w coro ctx parents = some r := by
  refine Option.isSome_iff_exists.mp ?_
  unfold registerPygen
  rw [if_neg (by simp [hr])]
  dsimp only
  split
  · rename_i he
    cases parents with
    | nil => exact absurd rfl (hne he)
    | cons p rest =>
      dsimp only
      split <;> rfl
  · rfl

/-- What a program does can be done, but for a mutex that is taken. -/
theorem exec_of_plain (hplain : op.plain = true) (hlock : ∀ e, op.takes = some e → m.locked e = false)
    (hreg : ∀ w coro ctx parents, op = .registerPygen w coro ctx parents →
      m.registered w = false ∧ ((ws w).events = [] → parents ≠ [])) :
    ∃ c r, exec ws m op c = some r ∧ Runs P m (.exec op c) := by
  cases op with
  | run y =>
    cases y with
    | gen parents coro ctx input => exact ⟨.out (P coro (inputsOf coro m.log ++ [input])), _, rfl, rfl⟩
    | timer S | event e => exact ⟨.go, _, rfl, trivial⟩
    | async | asyncThrow => cases hplain
  | notifyLock e | sweepLock e | addWaker e x => exact ⟨.go, _, by simp only [exec, Mem.lock, hlock e rfl]; rfl, trivial⟩
  | resume S v i =>
    obtain ⟨r, hr⟩ : ∃ r, exec ws m (.resume S v i) .go = some r := exec_of_under ws m (Or.inr rfl)
    exact ⟨.go, r, hr, trivial⟩
  | registerPygen w coro ctx parents =>
    obtain ⟨hr, hne⟩ := hreg w coro ctx parents rfl
    obtain ⟨r, hr⟩ := registerPygen_isSome coro ctx hr hne
    exact ⟨.go, r, hr, trivial⟩
  | clear | unnotifyLock | unnotify | abort | abortLoad | registerPyasyncgen | clearPtr | resumeBody => cases hplain
  | _ => exact ⟨.go, _, rfl, trivial⟩

/-- A place of an operation is a place of the state. -/
theorem mem_places {d : Place} (hop : op ∈ ops) (hd : d ∈ op.places m.awaits) : d ∈ places m ops :=
  List.mem_append_left _ (List.mem_flatMap.mpr ⟨op, hop, hd⟩)

/-- The only place is where the evaluation is. -/
theorem Simulates.means {full : List (Nat × Input)} {us : List Nat} {d : Place} (h : Simulates ws P full us m ops) (hd : d ∈ places m ops) :
    ∃ used L U, full = m.log ++ L ∧ (∀ w, m.registered w = true → w ∈ used) ∧ us = used ++ U ∧ d.Means ws P m.log m.nextCoro L U := by
  cases h with
  | before hn hp | after hn hp => simp [hp] at hd
  | during d' used L U hn hp hlog hr hus hstack hd' =>
    obtain rfl : d = d' := by simpa [hp] using hd
    exact ⟨used, L, U, hlog, hr, hus, hd'⟩

/-- What a generator yields has not been registered, and there is a parent where one is needed. -/
theorem Simulates.yields {full : List (Nat × Input)} {us : List Nat} {w coro : Nat} {ctx : Option Nat} {parents : List Frame}
    (h : Simulates ws P full us m ops) (hus : us.Nodup) (hop : .registerPygen w coro ctx parents ∈ ops) :
    w ∈ us ∧ m.registered w = false ∧ ((ws w).events = [] → parents ≠ []) := by
  obtain ⟨used, L, U, -, hr, rfl, L', U', -, rfl, hne, -⟩ := h.means (mem_places hop (List.mem_singleton.mpr rfl))
  refine ⟨by simp, Bool.eq_false_iff.mpr (fun hw => ?_), hne⟩
  exact (List.nodup_append.mp hus).2.2 w (hr w hw) w (by simp) rfl

theorem runs_go (P : Program) (m : Mem) (op : Op) : Runs P m (.exec op .go) := by
  cases op with
  | run y => cases y <;> exact trivial
  | _ => exact trivial

end

/-- As long as there is something to do in a run of a program, something can be done. -/
theorem enabled_of_simulates {ws : Nat → Waiter} {P : Program} {full : List (Nat × Input)} {us : List Nat} {s : State Mem Op} {x : Op}
    (h : (machine ws).Reach (fun m _ a => Runs P m a) initial s) (hsim : Simulates ws P full us s.mem s.ops) (hus : us.Nodup)
    (hx : x ∈ s.ops) : ∃ op c s', (machine ws).Step s (.exec op c) s' ∧ Runs P s.mem (.exec op c) := by
  obtain ⟨i, op, rest, hi, -⟩ := State.exists_thread hx
  have hop : op ∈ s.ops := List.mem_flatten.mpr ⟨_, List.mem_of_getElem? hi, by simp⟩
  by_cases hlock : ∃ e, op.takes = some e ∧ s.mem.locked e = true
  · -- the thread that holds the mutex can go on
    obtain ⟨e, -, hl⟩ := hlock
    have htotal := mutex_of_reach h e
    rw [hl] at htotal
    obtain ⟨y, hy, hpos⟩ := total_pos_iff.mp (show 0 < total (Op.holds e) s.ops by rw [htotal]; exact Nat.one_pos)
    obtain ⟨j, top, rest', hj, hyt⟩ := State.exists_thread hy
    have hnest := nested_of_reach h _ (List.mem_of_getElem? hj)
    obtain ⟨⟨m', new⟩, hr⟩ := exec_of_under ws s.mem (hnest.top hyt (under_of_holds hpos))
    exact ⟨top, .go, _, .exec hj hr, runs_go P s.mem top⟩
  · have hfree : ∀ e, op.takes = some e → s.mem.locked e = false :=
      fun e he => Bool.eq_false_iff.mpr (fun hl => hlock ⟨e, he, hl⟩)
    obtain ⟨c, ⟨m', new⟩, hr, hruns⟩ := exec_of_plain (P := P) ((plain_of_reach h).ops op hop) hfree (fun w coro ctx parents heq => by
      obtain ⟨-, hreg, hne⟩ := hsim.yields hus (heq ▸ hop)
      exact ⟨hreg, hne⟩)
    exact ⟨op, c, _, .exec hi hr, hruns⟩

/-! ## What is left to be done -/

/-- What a handle is worth. -/
def Handle.weight : Handle → Nat
  | .timer _ => 8
  | .event _ => 5
  | _ => 1

/-- What an operation is worth: more than all that follows from it, but for what a generator does and what a waiter registers. -/
def Op.weight : Op → Nat
  | .set _ => 4 | .notifyLock _ => 3 | .notify _ => 2 | .unlock _ => 1
  | .waiter _ => 4 | .sweepLock _ => 3 | .sweep _ => 2
  | .addWaker _ _ => 12 | .addCheck _ _ => 11 | .push _ _ => 10
  | .resume _ _ _ => 7 | .storeRes _ _ _ _ => 6 | .fetchRes _ => 5 | .error _ _ _ => 5 | .toHandle _ _ => 4 | .restore _ => 1
  | .addTimer _ => 1 | .run h => h.weight | .addHandle h => h.weight + 2 | .enter _ _ h => h.weight + 3
  | .registerPygen _ _ _ _ => 1 | .suspend _ _ _ _ _ events _ => 12 * events.length + 10
  | .adoptLoad _ _ _ => 10 | .adoptSwap _ _ _ => 9 | .checkAborted _ _ => 8
  | _ => 0

/-- What a waiter that has not been registered is worth. -/
def Mem.waiterWeight (ws : Nat → Waiter) (m : Mem) (w : Nat) : Nat := if m.registered w then 0 else 12 * (ws w).events.length + 10

/-- The wakers in the queues. -/
noncomputable def Mem.allQueued (m : Mem) : Nat := ∑ᶠ e, (m.watchers e).length

/-- What is left in the memory. -/
noncomputable def Mem.left (ws : Nat → Waiter) (full : List (Nat × Input)) (us : List Nat) (m : Mem) : Nat :=
  7 * (full.length - m.log.length) + total (m.waiterWeight ws) us + total (fun h => h.weight + 1) m.handles + 8 * m.allQueued

/-- What is left to be done. -/
noncomputable def left (ws : Nat → Waiter) (full : List (Nat × Input)) (us : List Nat) (m : Mem) (ops : List Op) : Nat :=
  m.left ws full us + total Op.weight ops

/-- Few queues have wakers. -/
def FewQueued (m : Mem) : Prop := (Function.support (fun e => (m.watchers e).length)).Finite

section

variable {ws : Nat → Waiter} {P : Program} {full : List (Nat × Input)} {us : List Nat} {m m' : Mem} {A B new ops : List Op} {op : Op}
  {c : Choice}

theorem FewQueued.set (h : FewQueued m) (e : Nat) (q : List Waker) (hw : m'.watchers = Function.update m.watchers e q) : FewQueued m' := by
  refine (h.insert e).subset (fun k hk => ?_)
  rw [Function.mem_support, hw] at hk
  by_cases hke : k = e
  · exact Or.inl hke
  · rw [Function.update_of_ne hke] at hk
    exact Or.inr hk

theorem FewQueued.move (h : FewQueued m) (hm : Move ws m op c m' new) : FewQueued m' := by
  cases hm with
  | notifyPop e x q hq | sweepDrop e q x hq hd => exact h.set e q rfl
  | push e x => exact h.set e _ rfl
  | _ => exact h

/-- Changing a queue. -/
theorem allQueued_set (h : FewQueued m) (e : Nat) (q : List Waker) (hw : m'.watchers = Function.update m.watchers e q) :
    m'.allQueued + (m.watchers e).length = m.allQueued + q.length := by
  have hfun : (fun k => (m'.watchers k).length) = Function.update (fun k => (m.watchers k).length) e q.length := by
    funext k
    rw [hw]
    by_cases hke : k = e
    · rw [hke, Function.update_self, Function.update_self]
    · rw [Function.update_of_ne hke, Function.update_of_ne hke]
  rw [Mem.allQueued, hfun]
  exact finsum_update h e q.length

/-- The operations of `register` are worth no more than what they come from. -/
theorem total_weight_registration (S : Susp) (events : List Nat) (timed : Bool) :
    total Op.weight (registration S events timed) ≤ 12 * events.length + 8 := by
  have hwakers : total Op.weight (wakers S events timed) ≤ 12 * events.length + 1 := by
    have hmap : total Op.weight (events.zipIdx.map (fun ei => Op.addWaker ei.1 ⟨S, ei.2⟩)) = 12 * events.length := by
      rw [total, List.map_map, show Op.weight ∘ (fun ei : Nat × Nat => Op.addWaker ei.1 ⟨S, ei.2⟩) = fun _ => 12 from rfl,
        List.map_const', List.sum_replicate, List.length_zipIdx, smul_eq_mul, Nat.mul_comm]
    rw [wakers, total_append, hmap]
    cases timed <;> simp [Op.weight]
  unfold registration
  split
  · simp [Op.weight]
  · omega

/-- A generator is resumed. -/
theorem left_lt_of_resumed {x : Nat × Input} (hlog : m'.log = m.log ++ [x]) (hlt : m.log.length < full.length)
    (hr : m'.registered = m.registered) (hh : m'.handles = m.handles) (hw : m'.watchers = m.watchers)
    (hnew : total Op.weight new ≤ 7) : m'.left ws full us + total Op.weight new < m.left ws full us + 1 := by
  have hws : m'.waiterWeight ws = m.waiterWeight ws := by
    funext w
    rw [Mem.waiterWeight, hr, Mem.waiterWeight]
  have hq : m'.allQueued = m.allQueued := by rw [Mem.allQueued, hw, Mem.allQueued]
  simp only [Mem.left, hlog, hws, hh, hq, List.length_append, List.length_singleton]
  omega

/-- A waiter is registered. -/
theorem left_lt_of_registered {w : Nat} (hus : us.Nodup) (hmem : w ∈ us) (hw : m.registered w = false)
    (hr : m'.registered = Function.update m.registered w true) (hlog : m'.log = m.log) (hh : m'.handles = m.handles)
    (hq : m'.watchers = m.watchers) (hnew : total Op.weight new ≤ 12 * (ws w).events.length + 10) :
    m'.left ws full us + total Op.weight new < m.left ws full us + 1 := by
  have hne : ∀ v, v ≠ w → m'.waiterWeight ws v = m.waiterWeight ws v := by
    intro v hv
    rw [Mem.waiterWeight, hr, Function.update_of_ne hv, Mem.waiterWeight]
  have hself : m'.waiterWeight ws w = 0 := by rw [Mem.waiterWeight, hr, Function.update_self, if_pos rfl]
  have hold : m.waiterWeight ws w = 12 * (ws w).events.length + 10 := by rw [Mem.waiterWeight, hw, if_neg Bool.false_ne_true]
  have hsum := total_update hus hmem hne
  rw [hself, hold] at hsum
  have hqq : m'.allQueued = m.allQueued := by rw [Mem.allQueued, hq, Mem.allQueued]
  simp only [Mem.left, hlog, hh, hqq]
  omega

/-- A queue is changed. -/
theorem left_queued (hfew : FewQueued m) (e : Nat) (q : List Waker) (hw : m'.watchers = Function.update m.watchers e q)
    (hlog : m'.log = m.log) (hr : m'.registered = m.registered) (hh : m'.handles = m.handles) :
    m'.left ws full us + 8 * (m.watchers e).length = m.left ws full us + 8 * q.length := by
  have hws : m'.waiterWeight ws = m.waiterWeight ws := by
    funext w
    rw [Mem.waiterWeight, hr, Mem.waiterWeight]
  have hq := allQueued_set hfew e q hw
  simp only [Mem.left, hlog, hws, hh]
  omega

/-- A step leaves less to be done. -/
theorem Move.left_lt (hm : Move ws m op c m' new) (full : List (Nat × Input)) (hplain : op.plain = true) (hgen : ∀ S, m.Knows S → S.flavour = .gen)
    (hwf : op.WF m) (hfew : FewQueued m) (hus : us.Nodup)
    (hlog : ∀ parents coro ctx input, op = .run (.gen parents coro ctx input) → m.log.length < full.length)
    (hreg : ∀ w coro ctx parents, op = .registerPygen w coro ctx parents → w ∈ us) :
    m'.left ws full us + total Op.weight new < m.left ws full us + op.weight := by
  cases hm with
  | lock e hl hlock =>
    cases hlock with
    | unnotify => cases hplain
    | notify | sweep | addWaker x => exact Nat.add_lt_add_left (by simp [Op.weight]) _
  | notifyPop e x q hq =>
    have hleft : (m.setWatchers e q).left ws full us + _ = _ := left_queued hfew e q rfl rfl rfl rfl
    simp only [hq, List.length_cons] at hleft
    simp only [total_cons, total_nil, Op.weight]
    omega
  | sweepDrop e q x hq hd =>
    have hleft : (m.setWatchers e q).left ws full us + _ = _ := left_queued hfew e q rfl rfl rfl rfl
    simp only [hq, List.length_append, List.length_singleton] at hleft
    simp only [total_cons, total_nil, Op.weight]
    omega
  | push e x =>
    have hleft : ((m.setWatchers e (m.watchers e ++ [x])).setDirty e true).left ws full us + _ = _ :=
      left_queued hfew e (m.watchers e ++ [x]) rfl rfl rfl rfl
    simp only [List.length_append, List.length_singleton] at hleft
    simp only [total_cons, total_nil, Op.weight]
    omega
  | hold | clearTrue | clearNoop | unnotifyDone | clearPtr | abort | abortNoop | abortLoad | registerAsync => cases hplain
  | decrementZero S v i hw hs h0 | decrement S v i hw hs h0 h1 | decrementLast S v i hw hs h1 | consume S v i hw hs hc
  | consumeNoop S v i hw hs hc =>
    obtain rfl := hw.of_plain hplain
    exact Nat.add_lt_add_left (by simp [Op.weight]) _
  | resumeDrop S v i hfl | resumePass S v i hfl =>
    rw [hgen S hwf.1] at hfl
    cases hfl
  | storeRes S i v last => cases last <;> exact Nat.add_lt_add_left (by simp [Op.weight]) _
  | toHandleClear S input w hw | toHandle S input hw =>
    refine Nat.add_lt_add_left ?_ _
    rw [Susp.handle_of_gen (hgen S hwf)]
    simp [Op.weight, Handle.weight]
  | addHandle y =>
    have hws : Mem.waiterWeight ws { m with handles := m.handles ++ [y] } = m.waiterWeight ws := rfl
    simp only [Mem.left, Mem.allQueued, hws, Op.weight, total_append, total_cons, total_nil]
    omega
  | fromCheckpoint w coro ctx p rest hr' he hpc =>
    exact left_lt_of_registered hus (hreg w coro ctx _ rfl) hr' rfl rfl rfl rfl (by simp only [total_cons, total_nil, Op.weight]; omega)
  | underCheckpoint w coro ctx p rest c' hr' he hpc =>
    exact left_lt_of_registered hus (hreg w coro ctx _ rfl) hr' rfl rfl rfl rfl (by simp only [total_cons, total_nil, Op.weight]; omega)
  | register w coro ctx parents hr' he =>
    exact left_lt_of_registered hus (hreg w coro ctx _ rfl) hr' rfl rfl rfl rfl (by simp only [total_cons, total_nil, Op.weight]; omega)
  | suspend fl coro ctx checkpoint parents events timed T hT =>
    have := total_weight_registration T events timed
    exact Nat.add_lt_add_left (by simp only [Op.weight]; omega) _
  | checkAborted w T =>
    refine Nat.add_lt_add_left ?_ _
    split <;> simp [Op.weight]
  | again parents coro ctx input =>
    exact left_lt_of_resumed rfl (hlog parents coro ctx input rfl) rfl rfl rfl (by simp [Op.weight, Handle.weight])
  | callChild parents coro ctx input new hnew =>
    refine left_lt_of_resumed rfl (hlog parents coro ctx input rfl) rfl rfl rfl ?_
    rcases hnew with rfl | ⟨_, _, _, -, -, -, rfl⟩ <;> simp [Op.weight, Handle.weight]
  | yieldWaiter parents coro ctx input w =>
    exact left_lt_of_resumed rfl (hlog parents coro ctx input rfl) rfl rfl rfl (by simp [Op.weight])
  | ret parents coro ctx input v | raise parents coro ctx input e =>
    refine left_lt_of_resumed rfl (hlog parents coro ctx input rfl) rfl rfl rfl ?_
    cases parents <;> simp [Op.weight]
  | asyncAgain | asyncWaiter | asyncOver | throwOver | throwDrop => cases hplain
  | _ => exact Nat.add_lt_add_left (by simp [Op.weight, Handle.weight]) _

/-- A worker that takes a handle leaves less in the queue. -/
theorem Started.left_lt {l : Call} (hc : Started m l m' new) (hl : Works (.call l)) (ws : Nat → Waiter) (full : List (Nat × Input))
    (us : List Nat) :
    m'.left ws full us + total Op.weight new < m.left ws full us := by
  cases hc with
  | work k y hy =>
    have hqueue := total_eraseIdx (fun h : Handle => h.weight + 1) hy
    have hws : Mem.waiterWeight ws { m with handles := m.handles.eraseIdx k } = m.waiterWeight ws := rfl
    simp only [Mem.left, Mem.allQueued, hws, Op.weight, total_cons, total_nil]
    omega
  | _ => exact hl.elim

/-- A generator that is about to be resumed has something left to be sent. -/
theorem Simulates.length_lt {parents : List Frame} {coro : Nat} {ctx : Option Nat} {input : Input} (h : Simulates ws P full us m ops)
    (hop : .run (.gen parents coro ctx input) ∈ ops) : m.log.length < full.length := by
  obtain ⟨used, L, U, rfl, -, -, L', rfl, -⟩ := h.means (mem_places hop (List.mem_singleton.mpr rfl))
  simp

end

theorem fewQueued_of_reach {ws : Nat → Waiter} {ok : Mem → List Op → Act Op Choice Call → Prop} {s : State Mem Op}
    (h : (machine ws).Reach ok initial s) : FewQueued s.mem := by
  refine h.invariant (I := fun m _ => FewQueued m) ?_ ?_ ?_
  · have hempty : (Function.support (fun e => (initial.mem.watchers e).length)) = ∅ := Set.eq_empty_of_forall_notMem (fun e he => he rfl)
    rw [FewQueued, hempty]
    exact Set.finite_empty
  · exact fun m A op B c m' new ih _ he => ih.move (exec_move he)
  · intro m ops l m' new ih _ hc
    obtain ⟨hs, ts, n, rfl⟩ := (call_started hc).exists_eq
    exact ih

/-- What the workers do leaves less to be done. -/
theorem left_lt_of_works {ws : Nat → Waiter} {P : Program} {full : List (Nat × Input)} {us : List Nat} {s s' : State Mem Op}
    {a : Act Op Choice Call} (h : (machine ws).Reach (fun m _ a => Runs P m a) initial s) (hsim : Simulates ws P full us s.mem s.ops)
    (hus : us.Nodup) (ha : Works a) (hs : (machine ws).Step s a s') :
    left ws full us s'.mem s'.ops < left ws full us s.mem s.ops := by
  have hk := known_of_reach h
  have hp := plain_of_reach h
  rcases hs.ops_eq with ⟨A, op, B, c, new, rfl, ho, he, ho'⟩ | ⟨l, new, rfl, hc, ho'⟩
  · have hop : op ∈ s.ops := by simp [ho]
    have hlt := (exec_move he).left_lt full (hp.ops op hop) (fun S hS => hp.gen _ S hS) (hk.ops op hop)
      (fewQueued_of_reach h) hus (fun parents coro ctx input heq => hsim.length_lt (heq ▸ hop))
      (fun w coro ctx parents heq => (hsim.yields hus (heq ▸ hop)).1)
    have hstep := total_step Op.weight A B new op
    rw [left, left, ho, ho']
    omega
  · have hlt := (call_started hc).left_lt ha ws full us
    rw [left, left, ho', total_append]
    omega

end Tonio.Runtime
