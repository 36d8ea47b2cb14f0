import Tonio.Lemmas.Event

/-!
# The counter of a sentinel

The wakers of a suspension are counted: those `register` has still to add, those in the queues of its events, and those on their way to
`resume`. `SentinelStep` says what a step does to this number and to the counter, the count of schedulings and the record of aborts
of one suspension that has a sentinel.
-/

namespace Tonio.Runtime

open Interleaving

/-! ## Wakers that have not been delivered -/

/-- The wakers of a cell that an operation stands for. -/
def Op.wakes (c : Nat) : Op → Nat
  | .addWaker _ x | .addCheck _ x | .push _ x => (decide (x.target.cell = c)).toNat
  | .resume S _ _ | .resumeBody S _ _ => (decide (S.cell = c)).toNat
  | _ => 0

/-- The decrements of a cell that an operation has still to undo. -/
def Op.restores (c : Nat) : Op → Nat
  | .restore S => (decide (S.cell = c)).toNat
  | _ => 0

/-- The wakers of a cell in the queue of an event. -/
def Mem.queuedAt (m : Mem) (c e : Nat) : Nat := (m.watchers e).countP (fun x => x.target.cell = c)

/-- The wakers of a cell in the queues of its events. -/
def Mem.queued (m : Mem) (c : Nat) : Nat := total (m.queuedAt c) (m.awaits c).dedup

/-- The wakers of a cell that have not been delivered: to be added, in a queue, or on their way. -/
def outstanding (m : Mem) (ops : List Op) (c : Nat) : Nat := total (Op.wakes c) ops + m.queued c

theorem total_wakes_wakers (c : Nat) (S : Susp) (events : List Nat) (timed : Bool) :
    total (Op.wakes c) (wakers S events timed) = if S.cell = c then events.length else 0 := by
  have htimer : total (Op.wakes c) (if timed then [Op.addTimer S] else []) = 0 := by cases timed <;> rfl
  unfold wakers
  rw [total_append, htimer, Nat.add_zero, total, List.map_map]
  have hfun : (Op.wakes c ∘ fun ei : Nat × Nat => Op.addWaker ei.1 ⟨S, ei.2⟩) = fun _ => (decide (S.cell = c)).toNat := rfl
  rw [hfun, List.map_const', List.length_zipIdx, List.sum_replicate_nat]
  split <;> simp_all

theorem total_wakes_registration (c : Nat) (S : Susp) (events : List Nat) (timed : Bool) :
    total (Op.wakes c) (registration S events timed) = if S.cell = c then events.length else 0 := by
  unfold registration
  split
  · simp [Op.wakes]
  · exact total_wakes_wakers c S _ timed

theorem total_restores_registration (k : Nat) (T : Susp) (events : List Nat) (timed : Bool) :
    total (Op.restores k) (registration T events timed) = 0 := total_registration (fun _ _ => rfl) rfl (fun _ => rfl)

section

variable {ws : Nat → Waiter} {m m' : Mem} {A B new ops : List Op} {op : Op} {c : Choice} {S : Susp}

theorem Mem.queued_congr {k : Nat} (hw : m'.watchers = m.watchers) (ha : m'.awaits k = m.awaits k) : m'.queued k = m.queued k := by
  have hq : m'.queuedAt k = m.queuedAt k := by
    funext e
    simp only [Mem.queuedAt, hw]
  rw [Mem.queued, hq, ha, ← Mem.queued]

/-- A step that changes the queue of one event. -/
theorem Mem.queued_set {e k : Nat} {q : List Waker} {b : Nat → Bool} (hk : Known m ops) (hq : ∀ x ∈ q, x.WF m e) :
    Mem.queued { m.setWatchers e q with dirty := b } k + m.queuedAt k e = m.queued k + q.countP (fun x => x.target.cell = k) := by
  have hne : ∀ e', e' ≠ e → Mem.queuedAt { m.setWatchers e q with dirty := b } k e' = m.queuedAt k e' := by
    intro e' he
    simp [Mem.queuedAt, Mem.setWatchers, he]
  have hself : Mem.queuedAt { m.setWatchers e q with dirty := b } k e = q.countP (fun x => x.target.cell = k) := by
    simp [Mem.queuedAt, Mem.setWatchers]
  by_cases he : e ∈ m.awaits k
  · have h := total_update (List.nodup_dedup (m.awaits k)) (List.mem_dedup.mpr he) hne
    rw [hself] at h
    exact h
  · -- the queue of an event the cell was not registered with has none of its wakers
    have hzero : ∀ q' : List Waker, (∀ x ∈ q', x.WF m e) → q'.countP (fun x => x.target.cell = k) = 0 := by
      intro q' hq'
      rw [List.countP_eq_zero]
      intro x hx heq
      have hmem := List.mem_of_getElem? (hq' x hx).2.2
      rw [of_decide_eq_true heq] at hmem
      exact he hmem
    have h0 : m.queuedAt k e = 0 := hzero _ (hk.watchers e)
    rw [hzero q hq, h0, Nat.add_zero, Nat.add_zero]
    refine total_congr (fun e' he' => hne e' ?_)
    rintro rfl
    exact he (List.mem_dedup.mp he')

/-! ## What a step does -/

/-- What a step does to a suspension that has a sentinel. -/
inductive SentinelStep (S : Susp) (m : Mem) (op : Op) (m' : Mem) (new : List Op) : Prop where
  | keep (hL : total (Op.wakes S.cell) new + m'.queued S.cell = op.wakes S.cell + m.queued S.cell)
      (hR : total (Op.restores S.cell) new = op.restores S.cell) (hc : m'.counter S.cell = m.counter S.cell)
      (hf : m'.fired S.cell = m.fired S.cell) (ht : m'.thrown S.cell = m.thrown S.cell)
  | lose (hL : total (Op.wakes S.cell) new + m'.queued S.cell + 1 = op.wakes S.cell + m.queued S.cell)
      (hR : total (Op.restores S.cell) new = op.restores S.cell) (hc : m'.counter S.cell = m.counter S.cell)
      (hf : m'.fired S.cell = m.fired S.cell) (ht : m'.thrown S.cell = m.thrown S.cell) (hfl : S.flavour = .async)
      (ha : m.abortedOf S = true)
  | wakeZero (hL : total (Op.wakes S.cell) new + m'.queued S.cell + 1 = op.wakes S.cell + m.queued S.cell)
      (hR : total (Op.restores S.cell) new = op.restores S.cell + 1) (h0 : m.counter S.cell = 0)
      (hc : m'.counter S.cell = fetchSub 0) (hf : m'.fired S.cell = m.fired S.cell) (ht : m'.thrown S.cell = m.thrown S.cell)
  | wake (hL : total (Op.wakes S.cell) new + m'.queued S.cell + 1 = op.wakes S.cell + m.queued S.cell)
      (hR : total (Op.restores S.cell) new = op.restores S.cell) (h0 : m.counter S.cell ≠ 0) (h1 : m.counter S.cell ≠ 1)
      (hc : m'.counter S.cell = fetchSub (m.counter S.cell)) (hf : m'.fired S.cell = m.fired S.cell)
      (ht : m'.thrown S.cell = m.thrown S.cell)
  | wakeLast (hL : total (Op.wakes S.cell) new + m'.queued S.cell + 1 = op.wakes S.cell + m.queued S.cell)
      (hR : total (Op.restores S.cell) new = op.restores S.cell) (h1 : m.counter S.cell = 1)
      (hc : m'.counter S.cell = fetchSub 1) (hf : m'.fired S.cell = m.fired S.cell + 1) (ht : m'.thrown S.cell = m.thrown S.cell)
  | restore (hL : total (Op.wakes S.cell) new + m'.queued S.cell = op.wakes S.cell + m.queued S.cell)
      (hR : total (Op.restores S.cell) new + 1 = op.restores S.cell) (hc : m'.counter S.cell = fetchAdd (m.counter S.cell))
      (hf : m'.fired S.cell = m.fired S.cell) (ht : m'.thrown S.cell = m.thrown S.cell)
  | hold (e : Nat) (x : Waker) (q : List Waker) (hop : op = .unnotify e (x :: q)) (hx : x.target = S)
      (hL : total (Op.wakes S.cell) new + m'.queued S.cell = op.wakes S.cell + m.queued S.cell)
      (hR : total (Op.restores S.cell) new = op.restores S.cell) (hc : m'.counter S.cell = fetchAdd (m.counter S.cell))
      (hf : m'.fired S.cell = m.fired S.cell) (ht : m'.thrown S.cell = m.thrown S.cell)
  | error (e : Exc) (hop : op = .error true S e)
      (hL : total (Op.wakes S.cell) new + m'.queued S.cell = op.wakes S.cell + m.queued S.cell)
      (hR : total (Op.restores S.cell) new = op.restores S.cell)
      (hc : m'.counter S.cell = 0) (hf : m'.fired S.cell = m.fired S.cell + (decide (m.counter S.cell ≠ 0)).toNat)
      (ht : m'.thrown S.cell = true)

theorem countP_cons_toNat (P : Waker → Bool) (x : Waker) (q : List Waker) : (x :: q).countP P = q.countP P + (P x).toNat := by
  cases h : P x <;> simp [h]

theorem countP_concat_toNat (P : Waker → Bool) (x : Waker) (q : List Waker) : (q ++ [x]).countP P = q.countP P + (P x).toNat := by
  cases h : P x <;> simp [h]

/-- A step that touches neither the queues nor the suspension. -/
theorem SentinelStep.of_same (hL : total (Op.wakes S.cell) new = op.wakes S.cell)
    (hR : total (Op.restores S.cell) new = op.restores S.cell) (hq : m'.queued S.cell = m.queued S.cell)
    (hc : m'.counter S.cell = m.counter S.cell) (hf : m'.fired S.cell = m.fired S.cell)
    (ht : m'.thrown S.cell = m.thrown S.cell) : SentinelStep S m op m' new :=
  .keep (by rw [hL, hq]) hR hc hf ht

/-- A suspension without a sentinel is another one. -/
theorem Known.cell_ne {T : Susp} (hS : m.Knows S) (hs : S.sentinel = true) (hT : m.Knows T) (ht : T.sentinel = false) :
    T.cell ≠ S.cell := by
  intro heq
  rw [hT.unique hS heq, hs] at ht
  cases ht

theorem Wakes.wakes {T : Susp} {v : Val} {i : Nat} (hw : Wakes T v i op) (k : Nat) :
    op.wakes k = (decide (T.cell = k)).toNat ∧ op.restores k = 0 := by
  rcases hw with rfl | ⟨rfl, -⟩ <;> exact ⟨rfl, rfl⟩

/-- A waker that is delivered. -/
theorem wakes_delivered {v : Val} {i : Nat} (hw : Wakes S v i op) (h1 : total (Op.wakes S.cell) new = 0)
    (h2 : m'.queued S.cell = m.queued S.cell) :
    total (Op.wakes S.cell) new + m'.queued S.cell + 1 = op.wakes S.cell + m.queued S.cell := by
  rw [(hw.wakes S.cell).1, h1, h2, decide_eq_true rfl, Bool.toNat_true]
  omega

theorem Move.sentinelStep (hm : Move ws m op c m' new) (hk : Known m (A ++ op :: B)) (hu : Unconsumed m) (hS : m.Knows S)
    (hs : S.sentinel = true) : SentinelStep S m op m' new := by
  have hop : op.WF m := hk.ops op (by simp)
  have hlt := hk.lt hS
  have hne : ∀ T, m.Knows T → T.sentinel = false → T.cell ≠ S.cell := fun T hT ht => Known.cell_ne hS hs hT ht
  have haw : m'.awaits S.cell = m.awaits S.cell := hm.extends.awaits _ hlt
  cases hm with
  | lock e hl hlock =>
    cases hlock with
    | notify | sweep | unnotify => exact .of_same rfl rfl rfl rfl rfl rfl
    | addWaker x => exact .of_same (by simp [Op.wakes]) rfl rfl rfl rfl rfl
  | notifyPop e x q hq =>
    have h := Mem.queued_set (k := S.cell) (b := m.dirty) hk (fun y hy => hk.watchers e y (by rw [hq]; exact List.mem_cons_of_mem _ hy))
    rw [Mem.queuedAt, hq, countP_cons_toNat] at h
    have h' : (m.setWatchers e q).queued S.cell + (decide (x.target.cell = S.cell)).toNat = m.queued S.cell := by
      change Mem.queued (m.setWatchers e q) S.cell + _ = _ at h
      omega
    exact .keep (by simp only [total_cons, total_nil, Op.wakes]; omega) rfl rfl rfl rfl
  | sweepDrop e q x hq hd =>
    have h := Mem.queued_set (k := S.cell) (b := m.dirty) hk (fun y hy => hk.watchers e y (by rw [hq]; exact List.mem_append_left _ hy))
    rw [Mem.queuedAt, hq, countP_concat_toNat] at h
    have h' : (m.setWatchers e q).queued S.cell + (decide (x.target.cell = S.cell)).toNat = m.queued S.cell := by
      change Mem.queued (m.setWatchers e q) S.cell + _ = _ at h
      omega
    by_cases hc : x.target.cell = S.cell
    · have hx := hk.watchers e x (by simp [hq])
      obtain rfl : x.target = S := hx.1.unique hS hc
      have hcons := hu _ hS hs
      rw [decide_eq_true hc, Bool.toNat_true] at h'
      unfold Mem.isDead at hd
      cases hfl : x.target.flavour with
      | gen => simp [hfl, hcons] at hd
      | async =>
        simp only [hfl, hcons, Bool.false_or] at hd
        exact .lose (by simp only [total_cons, total_nil, Op.wakes]; omega) rfl rfl rfl rfl hfl hd
    · rw [decide_eq_false hc, Bool.toNat_false] at h'
      exact .keep (by simp only [total_cons, total_nil, Op.wakes]; omega) rfl rfl rfl rfl
  | push e x =>
    have h := Mem.queued_set (k := S.cell) (b := Function.update m.dirty e true) hk (e := e) (q := m.watchers e ++ [x]) (fun y hy => by
      rcases List.mem_append.mp hy with hy | hy
      · exact hk.watchers e y hy
      · exact List.mem_singleton.mp hy ▸ hop)
    rw [Mem.queuedAt, countP_concat_toNat] at h
    have h' : ((m.setWatchers e (m.watchers e ++ [x])).setDirty e true).queued S.cell =
        m.queued S.cell + (decide (x.target.cell = S.cell)).toNat := by
      change Mem.queued ((m.setWatchers e (m.watchers e ++ [x])).setDirty e true) S.cell + _ = _ at h
      omega
    exact .keep (by simp only [total_cons, total_nil, Op.wakes]; omega) rfl rfl rfl rfl
  | wakeNow e x hf | checked e x hf => exact .of_same (by simp [Op.wakes]) rfl rfl rfl rfl rfl
  | hold e x q =>
    have hx := hop x (List.mem_cons_self ..)
    by_cases hc : x.target.cell = S.cell
    · obtain rfl : x.target = S := hx.1.unique hS hc
      exact .hold e x q rfl rfl rfl rfl (by simp [Mem.hold, hs]) rfl rfl
    · refine .of_same rfl rfl rfl ?_ rfl rfl
      simp only [Mem.hold]
      split
      · rw [Function.update_of_ne (Ne.symm hc)]
      · rfl
  | resumeDrop T v i hfl ha =>
    by_cases hc : T.cell = S.cell
    · obtain rfl : T = S := hop.1.unique hS hc
      exact .lose (by simp [Op.wakes]; omega) rfl rfl rfl rfl hfl ha
    · exact .of_same (by simp [Op.wakes, hc]) rfl rfl rfl rfl rfl
  | resumePass T v i hfl ha => exact .of_same (by simp [Op.wakes]) rfl rfl rfl rfl rfl
  | decrementZero T v i hw ht h0 =>
    obtain ⟨hw1, hw2⟩ := hw.wakes S.cell
    by_cases hc : T.cell = S.cell
    · obtain rfl : T = S := (hw.wf hk).1.unique hS hc
      exact .wakeZero (wakes_delivered hw rfl rfl) (by rw [hw2]; simp [Op.restores]) h0 (by simp) rfl rfl
    · exact .of_same (by rw [hw1]; simp [Op.wakes, hc]) (by rw [hw2]; simp [Op.restores, hc]) rfl (by simp [Ne.symm hc]) rfl rfl
  | decrement T v i hw ht h0 h1 =>
    obtain ⟨hw1, hw2⟩ := hw.wakes S.cell
    by_cases hc : T.cell = S.cell
    · obtain rfl : T = S := (hw.wf hk).1.unique hS hc
      exact .wake (wakes_delivered hw rfl rfl) (by rw [hw2]; rfl) h0 h1 (by simp) rfl rfl
    · exact .of_same (by rw [hw1]; simp [Op.wakes, hc]) (by rw [hw2]; rfl) rfl (by simp [Ne.symm hc]) rfl rfl
  | decrementLast T v i hw ht h1 =>
    obtain ⟨hw1, hw2⟩ := hw.wakes S.cell
    by_cases hc : T.cell = S.cell
    · obtain rfl : T = S := (hw.wf hk).1.unique hS hc
      exact .wakeLast (wakes_delivered hw rfl rfl) (by rw [hw2]; rfl) h1 (by simp [Mem.fire]) (by simp [Mem.fire]) rfl
    · exact .of_same (by rw [hw1]; simp [Op.wakes, hc]) (by rw [hw2]; rfl) rfl (by simp [Mem.fire, Ne.symm hc])
        (by simp [Mem.fire, Ne.symm hc]) rfl
  | consumeNoop T v i hw ht hc =>
    obtain ⟨hw1, hw2⟩ := hw.wakes S.cell
    have hc := hne T (hw.wf hk).1 ht
    exact .of_same (by rw [hw1]; simp [hc]) (by rw [hw2]; rfl) rfl rfl rfl rfl
  | consume T v i hw ht _ =>
    obtain ⟨hw1, hw2⟩ := hw.wakes S.cell
    have hc := hne T (hw.wf hk).1 ht
    exact .of_same (by rw [hw1]; simp [Op.wakes, hc]) (by rw [hw2]; rfl) rfl rfl (by simp [Mem.fire, Ne.symm hc]) rfl
  | restore T =>
    by_cases hc : T.cell = S.cell
    · obtain rfl : T = S := hop.1.unique hS hc
      exact .restore (by rfl) (by simp [Op.restores]) (by simp) rfl rfl
    · exact .of_same rfl (by simp [Op.restores, hc]) rfl (by simp [Ne.symm hc]) rfl rfl
  | storeRes T i v last => exact .of_same (by cases last <;> rfl) (by cases last <;> rfl) rfl rfl rfl rfl
  | errorNoop b T e t ht h =>
    by_cases hc : T.cell = S.cell
    · obtain rfl : T = S := hop.1.unique hS hc
      obtain rfl := hop.byAbort hs
      have h0 : m.counter T.cell = 0 := by
        rcases h with h | h
        · exact h.2
        · rw [hs] at h
          exact absurd h.1 (by simp)
      exact .error e rfl rfl rfl h0 (by simp [h0]) (by simp [ht])
    · exact .of_same rfl rfl rfl rfl rfl (by subst ht; cases b <;> simp [Ne.symm hc])
  | errorSentinel b T e t ht h1 h0 =>
    by_cases hc : T.cell = S.cell
    · obtain rfl : T = S := hop.1.unique hS hc
      obtain rfl := hop.byAbort hs
      exact .error e rfl rfl rfl (by simp [Mem.fire]) (by simp [Mem.fire, h0]) (by simp [Mem.fire, ht])
    · exact .of_same rfl rfl rfl (by simp [Mem.fire, Ne.symm hc]) (by simp [Mem.fire, Ne.symm hc])
        (by subst ht; cases b <;> simp [Mem.fire, Ne.symm hc])
  | errorConsume b T e t ht h1 h0 =>
    have hc := hne T hop.1 h1
    exact .of_same rfl rfl rfl rfl (by simp [Mem.fire, Ne.symm hc]) (by subst ht; cases b <;> simp [Mem.fire, Ne.symm hc])
  | fromCheckpoint w coro ctx p rest hr he hp =>
    have h1 : S.cell ≠ m.nextCell := by omega
    have h2 : S.cell ≠ m.nextCell + 1 := by omega
    exact .of_same rfl rfl (Mem.queued_congr rfl haw) (by simp [Mem.new, checkpointFrame, checkpointSusp, h1, h2, Mem.register]) rfl rfl
  | underCheckpoint w coro ctx p rest c hr he hp =>
    have h1 : S.cell ≠ m.nextCell := by omega
    exact .of_same rfl rfl (Mem.queued_congr rfl haw) (by simp [Mem.new, checkpointSusp, h1, Mem.register, Mem.detach]) rfl rfl
  | suspend fl coro ctx checkpoint parents events timed T hT =>
    have h1 : S.cell ≠ T.cell := by
      have hcell : T.cell = m.nextCell := by rw [hT]; rfl
      omega
    refine .of_same ?_ (total_restores_registration ..) (Mem.queued_congr rfl haw) (by simp [Mem.suspend, Mem.new, h1]) rfl rfl
    rw [total_wakes_registration, if_neg (Ne.symm h1)]
    rfl
  | checkAborted w T =>
    have hc := hne T hop.1.1 hop.1.2.1
    exact .of_same (by split <;> simp [Op.wakes, hc]) (by split <;> rfl) rfl rfl rfl rfl
  | abortLoad fl w => exact .of_same (by cases m.ptr fl w <;> rfl) (by cases m.ptr fl w <;> rfl) rfl rfl rfl rfl
  | callChild parents coro ctx input new hnew =>
    have h1 : S.cell ≠ m.nextCell := by omega
    have hzero : total (Op.wakes S.cell) new = 0 ∧ total (Op.restores S.cell) new = 0 := by
      rcases hnew with rfl | ⟨_, _, _, -, -, -, rfl⟩ <;> exact ⟨rfl, rfl⟩
    exact .of_same hzero.1 hzero.2 (Mem.queued_congr rfl haw) (by simp [Mem.new, callSusp, h1, Mem.resumed]) rfl rfl
  | ret parents coro ctx input v =>
    cases parents with
    | nil => exact .of_same rfl rfl rfl rfl rfl rfl
    | cons p rest =>
      obtain ⟨hp, hw, -⟩ := hop p rest rfl
      have hc : p.cell ≠ S.cell := hne ⟨p, rest⟩ hp (hk.sentinel_of_call hp hw)
      exact .of_same (by simp [Op.wakes, hc]) rfl rfl rfl rfl rfl
  | raise parents coro ctx input e => exact .of_same (by cases parents <;> rfl) (by cases parents <;> rfl) rfl rfl rfl rfl
  | asyncOver checkpoint coro ctx v o ho => exact .of_same (by cases checkpoint <;> rfl) (by cases checkpoint <;> rfl) rfl rfl rfl rfl
  | timer T =>
    have hc := hne T hop.1 hop.2.1
    exact .of_same (by simp [Op.wakes, hc]) rfl rfl rfl rfl rfl
  | _ => exact .of_same rfl rfl rfl rfl rfl rfl

end

/-! ## The counter -/

theorem fetchSub_of_pos {n : Nat} (h0 : 0 < n) (h1 : n < 2 ^ 64) : fetchSub n = n - 1 := by
  unfold fetchSub
  omega

/-- A `clear` call finds a waker of the cell in the queue of its event. -/
def Holds (k : Nat) (m : Mem) : Act Op Choice Call → Prop
  | .exec (.unnotifyLock e) _ => ∃ x ∈ m.watchers e, x.target.cell = k
  | _ => False

instance (k : Nat) (m : Mem) (a : Act Op Choice Call) : Decidable (Holds k m a) := by
  unfold Holds
  split <;> infer_instance

/-- `unnotify` counts a waker of the cell up beyond what a `usize` holds. -/
def Overflows (k : Nat) (m : Mem) : Act Op Choice Call → Prop
  | .exec (.unnotify _ (x :: _)) _ => x.target.cell = k ∧ 2 ^ 64 ≤ m.counter k + 1
  | _ => False

/-- The counter of a suspension that no abort has reached is at least the number of its wakers that have not been delivered, and it
was scheduled when the counter came to zero. It is that number if `quiet`, that is, if no `clear` call counted it up; but the
wakers of an async suspension are dropped once its checkpoint was aborted. -/
structure Tally (quiet : Prop) (m : Mem) (ops : List Op) (S : Susp) : Prop where
  restores : total (Op.restores S.cell) ops = 0
  le : outstanding m ops S.cell ≤ m.counter S.cell
  lt : m.counter S.cell < 2 ^ 64
  fired : m.fired S.cell = (decide (m.counter S.cell = 0)).toNat
  eq : quiet → ¬(S.flavour = .async ∧ m.abortedOf S = true) → m.counter S.cell = outstanding m ops S.cell

/-- The count of a suspension. -/
structure Counted (quiet : Prop) (m : Mem) (ops : List Op) (S : Susp) : Prop where
  held : quiet → ∀ e q x, .unnotify e q ∈ ops → x ∈ q → x.target ≠ S
  bound : outstanding m ops S.cell ≤ (m.awaits S.cell).length
  tally : m.thrown S.cell = false → Tally quiet m ops S

section

variable {ws : Nat → Waiter} {m m' : Mem} {A B new ops : List Op} {op : Op} {c : Choice} {S : Susp}

/-- A waker in a queue has not been delivered. -/
theorem outstanding_pos {x : Waker} {e : Nat} (hk : Known m ops) (hx : x ∈ m.watchers e) : 0 < outstanding m ops x.target.cell := by
  have he : e ∈ m.awaits x.target.cell := List.mem_of_getElem? (hk.watchers e x hx).2.2
  have hq : 0 < m.queuedAt x.target.cell e := List.countP_pos_iff.mpr ⟨x, hx, decide_eq_true rfl⟩
  have hle : m.queuedAt x.target.cell e ≤ m.queued x.target.cell := le_total_of_mem (List.mem_dedup.mpr he)
  unfold outstanding
  omega

variable {quiet : Prop}

/-- A step keeps the count of a suspension, if it is no `clear` that finds one of its wakers or, where that may happen, counts it
beyond a `usize`. -/
theorem Counted.move (h : Counted quiet m (A ++ op :: B) S) (hk : Known m (A ++ op :: B)) (hu : Unconsumed m)
    (hh : Held m (A ++ op :: B)) (hm : Move ws m op c m' new) (hS : m.Knows S) (hs : S.sentinel = true)
    (hquiet : quiet → ¬Holds S.cell m (.exec op c)) (hover : ¬quiet → ¬Overflows S.cell m (.exec op c)) :
    Counted quiet m' (A ++ (new ++ B)) S := by
  have haw : m'.awaits S.cell = m.awaits S.cell := hS.awaits_eq hk hm.extends
  have hLs := total_step (Op.wakes S.cell) A B new op
  have hRs := total_step (Op.restores S.cell) A B new op
  have hheld : quiet → ∀ e q x, .unnotify e q ∈ A ++ (new ++ B) → x ∈ q → x.target ≠ S := by
    intro hqt e q x hq hx
    rcases Machine.mem_cases op hq with hq | hq
    · rcases unnotify_mem_of_move hm hq with ⟨rfl, rfl⟩ | ⟨y, rfl⟩
      · exact fun heq => hquiet hqt ⟨x, hx, by rw [heq]⟩
      · exact h.held hqt e (y :: q) x (by simp) (List.mem_cons_of_mem _ hx)
    · exact h.held hqt e q x hq hx
  have hab : ¬(S.flavour = .async ∧ m'.abortedOf S = true) → ¬(S.flavour = .async ∧ m.abortedOf S = true) :=
    fun h h' => h ⟨h'.1, hm.abortedOf_mono h'.2⟩
  have hpos : op.wakes S.cell ≤ total (Op.wakes S.cell) (A ++ op :: B) := le_total_of_mem (by simp)
  have hposR : op.restores S.cell ≤ total (Op.restores S.cell) (A ++ op :: B) := le_total_of_mem (by simp)
  have hb := h.bound
  unfold outstanding at hb
  cases hm.sentinelStep hk hu hS hs with
  | keep hL hR hc hf ht =>
    refine ⟨hheld, by rw [haw, outstanding]; omega, fun ht' => ?_⟩
    obtain ⟨h1, h2, h3, h4, h5⟩ := h.tally (ht ▸ ht')
    unfold outstanding at h2 h5
    refine ⟨by omega, by rw [outstanding]; omega, by omega, by rw [hf, hc]; exact h4, fun hqt h => ?_⟩
    have := h5 hqt (hab h)
    rw [outstanding]
    omega
  | lose hL hR hc hf ht hfl ha =>
    refine ⟨hheld, by rw [haw, outstanding]; omega, fun ht' => ?_⟩
    obtain ⟨h1, h2, h3, h4, h5⟩ := h.tally (ht ▸ ht')
    unfold outstanding at h2
    exact ⟨by omega, by rw [outstanding]; omega, by omega, by rw [hf, hc]; exact h4, fun _ h => absurd ⟨hfl, ha⟩ (hab h)⟩
  | wakeZero hL hR h0 hc hf ht =>
    refine ⟨hheld, by rw [haw, outstanding]; omega, fun ht' => ?_⟩
    have h2 := (h.tally (ht ▸ ht')).le
    unfold outstanding at h2
    omega
  | wake hL hR h0 h1 hc hf ht =>
    refine ⟨hheld, by rw [haw, outstanding]; omega, fun ht' => ?_⟩
    obtain ⟨h1, h2, h3, h4, h5⟩ := h.tally (ht ▸ ht')
    rw [fetchSub_of_pos (by omega) h3] at hc
    unfold outstanding at h2 h5
    refine ⟨by omega, by rw [outstanding]; omega, by omega, ?_, fun hqt h => ?_⟩
    · rw [hf, h4, hc, decide_eq_false h0, decide_eq_false (by omega)]
    · have := h5 hqt (hab h)
      rw [outstanding]
      omega
  | wakeLast hL hR hone hc hf ht =>
    refine ⟨hheld, by rw [haw, outstanding]; omega, fun ht' => ?_⟩
    obtain ⟨h1, h2, h3, h4, h5⟩ := h.tally (ht ▸ ht')
    rw [fetchSub_of_pos (by omega) (by omega)] at hc
    unfold outstanding at h2 h5
    refine ⟨by omega, by rw [outstanding]; omega, by omega, ?_, fun hqt h => ?_⟩
    · rw [hf, h4, hc, hone]
      rfl
    · have := h5 hqt (hab h)
      rw [outstanding]
      omega
  | restore hL hR hc hf ht =>
    refine ⟨hheld, by rw [haw, outstanding]; omega, fun ht' => ?_⟩
    have h1 := (h.tally (ht ▸ ht')).restores
    omega
  | hold e x q hop hx hL hR hc hf ht =>
    have hmem : Op.unnotify e (x :: q) ∈ A ++ op :: B := by simp [hop]
    have hnq : ¬quiet := fun hqt => h.held hqt e (x :: q) x hmem (List.mem_cons_self ..) hx
    refine ⟨hheld, by rw [haw, outstanding]; omega, fun ht' => ?_⟩
    obtain ⟨h1, h2, h3, h4, h5⟩ := h.tally (ht ▸ ht')
    -- its waker is in the queue, so the counter is not zero, and it does not come to zero either
    have hpos' := outstanding_pos hk (hh e (x :: q) hmem x (List.mem_cons_self ..))
    rw [hx] at hpos'
    have hlt : m.counter S.cell + 1 < 2 ^ 64 := by
      by_contra hge
      refine hover hnq ?_
      rw [hop]
      exact ⟨by rw [hx], by omega⟩
    rw [fetchAdd, Nat.mod_eq_of_lt hlt] at hc
    unfold outstanding at h2 hpos'
    refine ⟨by omega, by rw [outstanding]; omega, by omega, ?_, fun hqt => absurd hqt hnq⟩
    rw [hf, h4, hc, decide_eq_false (by omega), decide_eq_false (by omega)]
  | error e hop hL hR hc hf ht =>
    refine ⟨hheld, by rw [haw, outstanding]; omega, fun ht' => ?_⟩
    rw [ht] at ht'
    cases ht'

/-- Nothing refers to a suspension that has not been made. -/
theorem Op.WF.fresh {k : Nat} (hk : Known m ops) (ho : op.WF m) (hle : m.nextCell ≤ k) : op.wakes k = 0 ∧ op.restores k = 0 := by
  have hne : ∀ T, m.Knows T → T.cell ≠ k := by
    intro T hT
    have := hk.lt hT
    omega
  cases op with
  | addWaker e x | addCheck e x | push e x => simp [Op.wakes, Op.restores, hne _ ho.1]
  | resume T v i | resumeBody T v i | restore T => simp [Op.wakes, Op.restores, hne T ho.1]
  | _ => exact ⟨rfl, rfl⟩

theorem Known.outstanding_fresh {k : Nat} (hk : Known m ops) (hle : m.nextCell ≤ k) :
    total (Op.wakes k) ops = 0 ∧ total (Op.restores k) ops = 0 :=
  ⟨total_eq_zero_iff.mpr (fun op hop => ((hk.ops op hop).fresh hk hle).1),
    total_eq_zero_iff.mpr (fun op hop => ((hk.ops op hop).fresh hk hle).2)⟩

theorem Known.queuedAt_fresh {k : Nat} (hk : Known m ops) (hle : m.nextCell ≤ k) (e : Nat) : m.queuedAt k e = 0 := by
  rw [Mem.queuedAt, List.countP_eq_zero]
  intro x hx heq
  have := hk.lt (hk.watchers e x hx).1
  have := of_decide_eq_true heq
  omega

/-- A suspension with a sentinel is made with all its wakers to be added. -/
theorem Counted.of_fresh (hk : Known m (A ++ op :: B)) (hm : Move ws m op c m' new) (hS : m'.Knows S) (hle : m.nextCell ≤ S.cell)
    (hs : S.sentinel = true) : Counted quiet m' (A ++ (new ++ B)) S := by
  have hk' := hk.move hm
  have hlen : 2 ≤ (m'.awaits S.cell).length := by
    have h := (hk'.made _ _ hS).2.sentinel
    rw [hs] at h
    exact of_decide_eq_true h.symm
  obtain ⟨hmade, -, hawaits, hfired, -⟩ := hk.fresh _ hle
  have hnone : ∀ {m₁ : Mem}, m₁.made = m.made → ¬m₁.Knows S := by
    intro m₁ h1 h2
    unfold Mem.Knows at h2
    rw [h1, hmade] at h2
    cases h2
  cases hm with
  | fromCheckpoint w coro ctx p rest hr he hp =>
    simp [Mem.new, Mem.register, Function.update_apply, hawaits] at hlen
  | underCheckpoint w coro ctx p rest c hr he hp =>
    simp [Mem.new, Mem.register, Mem.detach, Function.update_apply, hawaits] at hlen
  | callChild parents coro ctx input new hnew =>
    simp [Mem.new, Mem.resumed, Function.update_apply, hawaits] at hlen
  | suspend fl coro ctx checkpoint parents events timed T hT =>
    by_cases heq : S.cell = T.cell
    · obtain rfl : S = T := by
        unfold Mem.Knows at hS
        rw [heq] at hS
        simp only [Mem.suspend, Mem.new, Function.update_self, Option.some.injEq] at hS
        exact hS.symm
      -- all the wakers stand in the operations of `register`
      obtain ⟨hw0, hr0⟩ := hk.outstanding_fresh hle
      have hq : (m.suspend S events).queued S.cell = 0 := by
        rw [Mem.queued, total_eq_zero_iff]
        exact fun e _ => hk.queuedAt_fresh hle e
      have hc : (m.suspend S events).counter S.cell = events.length := by simp [Mem.suspend, Mem.new]
      have ha : (m.suspend S events).awaits S.cell = events := by simp [Mem.suspend, Mem.new]
      have hout : outstanding (m.suspend S events) (A ++ (registration S events timed ++ B)) S.cell = events.length := by
        rw [total_append, total_cons] at hw0
        rw [outstanding, hq, total_append, total_append, total_wakes_registration, if_pos rfl]
        omega
      rw [ha] at hlen
      refine ⟨fun _ e q x hq hx => ?_, ?_, fun _ => ⟨?_, ?_, ?_, ?_, fun _ _ => ?_⟩⟩
      · rcases Machine.mem_cases (.suspend fl coro ctx checkpoint parents events timed) hq with hq | hq
        · have hmove : Move ws m _ .go _ _ := .suspend fl coro ctx checkpoint parents events timed S hT
          rcases unnotify_mem_of_move hmove hq with ⟨h, -⟩ | ⟨y, h⟩
          · cases h
          · cases h
        · have := hk.lt (hk.ops _ hq x hx).1
          rintro rfl
          omega
      · exact Nat.le_of_eq (hout.trans (congrArg List.length ha).symm)
      · rw [total_append, total_cons] at hr0
        rw [total_append, total_append, total_restores_registration]
        omega
      · exact Nat.le_of_eq (hout.trans hc.symm)
      · rw [hc, ← ha]
        exact Nat.lt_trans (hk'.made _ _ hS).2.fits (by decide)
      · rw [hc, decide_eq_false (by omega)]
        exact hfired
      · exact hc.trans hout.symm
    · simp [Mem.suspend, Mem.new, Function.update_of_ne heq, hawaits] at hlen
  | _ => exact absurd hS (hnone rfl)

end

/-- The count of a suspension, in every run in which no `clear` call finds one of its wakers, or at least none counts it beyond a
`usize`. -/
theorem counted_of_reach {ws : Nat → Waiter} {ok : Mem → List Op → Act Op Choice Call → Prop} {s : State Mem Op} {k : Nat}
    (quiet : Prop) (hquiet : quiet → ∀ m ops a, Known m ops → ok m ops a → ∀ S, m.Knows S → S.sentinel = true → S.cell = k →
      ¬Holds k m a)
    (hover : ¬quiet → ∀ m ops a, ok m ops a → ¬Overflows k m a) (h : (machine ws).Reach ok initial s) :
    ∀ S, s.mem.Knows S → S.cell = k → S.sentinel = true → Counted quiet s.mem s.ops S := by
  refine h.invariant_with (J := fun m ops => Known m ops ∧ Unconsumed m ∧ Held m ops)
    (I := fun m ops => ∀ S, m.Knows S → S.cell = k → S.sentinel = true → Counted quiet m ops S)
    (fun h => ⟨known_of_reach h, unconsumed_of_reach h, held_of_reach h⟩) nofun ?_ ?_
  · intro m A op B c m' new hj ih hok' he S hS hcell hs
    have hm := exec_move he
    rcases hm.extends.old hS with hold | hfresh
    · exact (ih S hold hcell hs).move hj.1 hj.2.1 hj.2.2 hm hold hs (fun hqt => hcell ▸ hquiet hqt m _ _ hj.1 hok' S hold hs hcell)
        (fun hqt => hcell ▸ hover hqt m _ _ hok')
    · exact Counted.of_fresh hj.1 hm hS hfresh hs
  · intro m ops l m' new hj ih _ hc S hS hcell hs
    have hstart := call_started hc
    have hzero : total (Op.wakes S.cell) new = 0 ∧ total (Op.restores S.cell) new = 0 ∧ ∀ e q, .unnotify e q ∉ new := by
      cases hstart <;> simp [Op.wakes, Op.restores]
    obtain ⟨hs', ts, n, rfl⟩ := hstart.exists_eq
    have h := ih S hS hcell hs
    have hout : outstanding m (ops ++ new) S.cell = outstanding m ops S.cell := by
      rw [outstanding, total_append, hzero.1, Nat.add_zero, ← outstanding]
    have hb := h.bound
    rw [← hout] at hb
    refine ⟨fun hqt e q x hq hx => ?_, hb, fun ht => ?_⟩
    · exact h.held hqt e q x ((List.mem_append.mp hq).resolve_right (hzero.2.2 e q)) hx
    · obtain ⟨h1, h2, h3, h4, h5⟩ := h.tally ht
      rw [← hout] at h2 h5
      exact ⟨by rw [total_append, h1, hzero.2.1], h2, h3, h4, h5⟩

/-! ## After an abort -/

/-- An abort reaches a cell that an abort has already reached, while a waker that came too late has not been undone. -/
def Rethrows (k : Nat) (m : Mem) : Act Op Choice Call → Prop
  | .exec (.error true S _) _ => S.cell = k ∧ m.thrown k = true ∧ m.counter k ≠ 0
  | _ => False

/-- `unnotify` counts up a waker of a cell that an abort has reached. -/
def Rearms (k : Nat) (m : Mem) : Act Op Choice Call → Prop
  | .exec (.unnotify _ (x :: _)) _ => x.target.cell = k ∧ m.thrown k = true
  | _ => False

/-- After an abort the counter of a suspension runs below zero, by no more than the wakers delivered since, so it does not come to
one again. -/
structure Spent (m : Mem) (ops : List Op) (S : Susp) (d : Nat) : Prop where
  counter : m.counter S.cell = (2 ^ 64 - d) % 2 ^ 64
  bound : d + outstanding m ops S.cell ≤ (m.awaits S.cell).length
  restores : total (Op.restores S.cell) ops ≤ d
  fired : m.fired S.cell = 1

section

variable {ws : Nat → Waiter} {m m' : Mem} {A B new ops : List Op} {op : Op} {c : Choice} {S : Susp} {quiet : Prop}

theorem Move.thrown_fresh {k : Nat} (hm : Move ws m op c m' new) (hk : Known m (A ++ op :: B)) (hle : m.nextCell ≤ k) :
    m'.thrown k = false := by
  have hop := hk.ops op (by simp)
  have hf := (hk.fresh k hle).2.2.2.2
  have hne : ∀ T, m.Knows T → k ≠ T.cell := by
    intro T hT
    have := hk.lt hT
    omega
  cases hm with
  | errorNoop b T e t ht h => subst ht; cases b <;> simp [hf, hne T hop.1]
  | errorSentinel b T e t ht h h0 | errorConsume b T e t ht h h0 => subst ht; cases b <;> simp [Mem.fire, hf, hne T hop.1]
  | _ => exact hf

theorem Spent.move {d : Nat} (h : Spent m (A ++ op :: B) S d) (hc : Counted quiet m (A ++ op :: B) S) (hk : Known m (A ++ op :: B))
    (hu : Unconsumed m) (hm : Move ws m op c m' new) (hS : m.Knows S) (hs : S.sentinel = true) (ht : m.thrown S.cell = true)
    (hrearm : ¬quiet → ¬Rearms S.cell m (.exec op c)) (hok : ¬Rethrows S.cell m (.exec op c)) :
    ∃ d', Spent m' (A ++ (new ++ B)) S d' := by
  have haw : m'.awaits S.cell = m.awaits S.cell := hS.awaits_eq hk hm.extends
  have hLs := total_step (Op.wakes S.cell) A B new op
  have hRs := total_step (Op.restores S.cell) A B new op
  have hpos : op.wakes S.cell ≤ total (Op.wakes S.cell) (A ++ op :: B) := le_total_of_mem (by simp)
  have hposR : op.restores S.cell ≤ total (Op.restores S.cell) (A ++ op :: B) := le_total_of_mem (by simp)
  have hfits := (hk.made _ _ hS).2.fits
  obtain ⟨h1, h2, h3, h4⟩ := h
  unfold outstanding at h2
  cases hm.sentinelStep hk hu hS hs with
  | keep hL hR hcn hf _ => exact ⟨d, hcn.trans h1, by rw [haw, outstanding]; omega, by omega, hf.trans h4⟩
  | lose hL hR hcn hf _ _ _ => exact ⟨d, hcn.trans h1, by rw [haw, outstanding]; omega, by omega, hf.trans h4⟩
  | wakeZero hL hR h0 hcn hf _ =>
    refine ⟨d + 1, ?_, by rw [haw, outstanding]; omega, by omega, hf.trans h4⟩
    rw [hcn, fetchSub]
    omega
  | wake hL hR h0 hne hcn hf _ =>
    refine ⟨d + 1, ?_, by rw [haw, outstanding]; omega, by omega, hf.trans h4⟩
    rw [hcn, fetchSub]
    omega
  | wakeLast hL hR hone hcn hf _ => omega
  | restore hL hR hcn hf _ =>
    refine ⟨d - 1, ?_, by rw [haw, outstanding]; omega, by omega, hf.trans h4⟩
    rw [hcn, fetchAdd]
    omega
  | hold e x q hop hx _ _ _ _ _ =>
    have hquiet : ¬quiet := fun hqt => hc.held hqt e (x :: q) x (by simp [hop]) (List.mem_cons_self ..) hx
    rw [hop] at hrearm
    exact absurd ⟨by rw [hx], ht⟩ (hrearm hquiet)
  | error e hop hL hR hcn hf _ =>
    rw [hop] at hok
    have h0 : m.counter S.cell = 0 := by
      by_contra h0
      exact hok ⟨rfl, ht, h0⟩
    refine ⟨0, hcn, by rw [haw, outstanding]; omega, by omega, ?_⟩
    rw [hf, h0, h4]
    rfl

/-- An abort spends a suspension. -/
theorem Spent.of_error (hc : Counted quiet m (A ++ op :: B) S) (hk : Known m (A ++ op :: B))
    (hu : Unconsumed m) (hm : Move ws m op c m' new) (hS : m.Knows S) (hs : S.sentinel = true) (ht : m.thrown S.cell = false)
    (ht' : m'.thrown S.cell = true) : Spent m' (A ++ (new ++ B)) S 0 := by
  have haw : m'.awaits S.cell = m.awaits S.cell := hS.awaits_eq hk hm.extends
  have hLs := total_step (Op.wakes S.cell) A B new op
  have hRs := total_step (Op.restores S.cell) A B new op
  have hb := hc.bound
  have h1 := (hc.tally ht).restores
  have h2 := (hc.tally ht).fired
  unfold outstanding at hb
  have hkeep : m'.thrown S.cell ≠ m.thrown S.cell := by simp [ht, ht']
  cases hm.sentinelStep hk hu hS hs with
  | error e hop hL hR hcn hf _ =>
    refine ⟨hcn, by rw [haw, outstanding]; omega, by omega, ?_⟩
    rw [hf, h2]
    by_cases h0 : m.counter S.cell = 0
    · simp [h0]
    · simp [h0]
  | keep _ _ _ _ h | lose _ _ _ _ h _ _ | wakeZero _ _ _ _ _ h | wake _ _ _ _ _ _ h | wakeLast _ _ _ _ _ h | restore _ _ _ _ h
  | hold _ _ _ _ _ _ _ _ _ h => exact absurd h hkeep

end

/-- An abort spends a suspension for good, in every run in which no `clear` call counts it up again and no second abort finds it
counted below zero. -/
theorem spent_of_reach {ws : Nat → Waiter} {ok : Mem → List Op → Act Op Choice Call → Prop} {s : State Mem Op} {k : Nat}
    (quiet : Prop) (hquiet : quiet → ∀ m ops a, Known m ops → ok m ops a → ∀ S, m.Knows S → S.sentinel = true → S.cell = k →
      ¬Holds k m a)
    (hover : ¬quiet → ∀ m ops a, ok m ops a → ¬Overflows k m a) (hrearm : ¬quiet → ∀ m ops a, ok m ops a → ¬Rearms k m a)
    (hthrow : ∀ m ops a, ok m ops a → ¬Rethrows k m a) (h : (machine ws).Reach ok initial s) :
    ∀ S, s.mem.Knows S → S.cell = k → S.sentinel = true → s.mem.thrown S.cell = true → ∃ d, Spent s.mem s.ops S d := by
  refine h.invariant_with (J := fun m ops => Known m ops ∧ Unconsumed m ∧
      ∀ S, m.Knows S → S.cell = k → S.sentinel = true → Counted quiet m ops S)
    (I := fun m ops => ∀ S, m.Knows S → S.cell = k → S.sentinel = true → m.thrown S.cell = true → ∃ d, Spent m ops S d)
    (fun h => ⟨known_of_reach h, unconsumed_of_reach h, counted_of_reach quiet hquiet hover h⟩) nofun ?_ ?_
  · rintro m A op B c m' new ⟨hk, hu, hc⟩ ih hok he S hS hcell hs ht'
    have hm := exec_move he
    rcases hm.extends.old hS with hold | hfresh
    · have hcS := hc S hold hcell hs
      cases ht : m.thrown S.cell with
      | true =>
        obtain ⟨d, hd⟩ := ih S hold hcell hs ht
        exact hd.move hcS hk hu hm hold hs ht (fun hqt => hcell ▸ hrearm hqt m _ _ hok) (hcell ▸ hthrow m _ _ hok)
      | false => exact ⟨0, .of_error hcS hk hu hm hold hs ht ht'⟩
    · rw [hm.thrown_fresh hk hfresh] at ht'
      cases ht'
  · intro m ops l m' new _ ih _ hc S hS hcell hs ht
    have hzero : total (Op.wakes S.cell) new = 0 ∧ total (Op.restores S.cell) new = 0 := by
      cases call_started hc <;> simp [Op.wakes, Op.restores]
    obtain ⟨hs', ts, n, rfl⟩ := (call_started hc).exists_eq
    obtain ⟨d, h1, h2, h3, h4⟩ := ih S hS hcell hs ht
    have hout : outstanding m (ops ++ new) S.cell = outstanding m ops S.cell := by
      rw [outstanding, total_append, hzero.1, Nat.add_zero, ← outstanding]
    rw [← hout] at h2
    exact ⟨d, h1, h2, by rw [total_append, hzero.2]; exact h3, h4⟩

/-! ## Handles -/

/-- The handles of a cell that an operation is about to make. -/
def Op.schedules (k : Nat) : Op → Nat
  | .storeRes S _ _ true | .fetchRes S | .toHandle S _ => (decide (S.cell = k)).toNat
  | _ => 0

section

variable {ws : Nat → Waiter} {m m' : Mem} {op : Op} {c : Choice} {new : List Op}

theorem Wakes.schedules {S : Susp} {v : Val} {i : Nat} (hw : Wakes S v i op) (k : Nat) : op.schedules k = 0 := by
  rcases hw with rfl | ⟨rfl, -⟩ <;> rfl

/-- A step that resolves a cell is about to make one handle for it. -/
theorem Mem.fire_schedules {S : Susp} (m : Mem) (k : Nat) :
    (decide (S.cell = k)).toNat + m.fired k = (m.fire S.cell).fired k := by
  by_cases hk : S.cell = k
  · subst hk
    simp [Mem.fire, Nat.add_comm]
  · simp [Mem.fire, hk, Ne.symm hk]

/-- A handle is on its way only for a resolution that was recorded. -/
theorem Move.schedules (hm : Move ws m op c m' new) (k : Nat) :
    total (Op.schedules k) new + m.fired k ≤ op.schedules k + m'.fired k := by
  cases hm with
  | decrementLast S v i hw hs h1 =>
    rw [hw.schedules, Nat.zero_add, ← Mem.fire_schedules]
    simp [Op.schedules]
  | consume S v i hw hs hc =>
    rw [hw.schedules, Nat.zero_add, ← Mem.fire_schedules]
    simp [Op.schedules]
  | errorSentinel b S e t ht hs h0 | errorConsume b S e t ht hs h0 =>
    rw [← Mem.fire_schedules]
    simp [Op.schedules]
  | decrementZero S v i hw | decrement S v i hw | consumeNoop S v i hw =>
    rw [hw.schedules]
    simp [Op.schedules]
  | storeRes S i v last => cases last <;> simp [Op.schedules]
  | toHandleClear S input w | toHandle S input => simp [Op.schedules, Mem.setPtr]
  | suspend fl coro ctx checkpoint parents events timed S hS =>
    rw [total_registration (fun _ _ => rfl) rfl (fun _ => rfl)]
    simp [Mem.suspend, Mem.new, Op.schedules]
  | checkAborted w S => split <;> simp [Op.schedules]
  | abortLoad fl w => cases m.ptr fl w <;> simp [Op.schedules]
  | callChild parents coro ctx input new hnew =>
    rcases hnew with rfl | ⟨_, _, _, -, -, -, rfl⟩ <;> simp [Op.schedules, Mem.new, Mem.resumed]
  | ret parents | raise parents => cases parents <;> simp [Op.schedules, Mem.finish, Mem.resumed]
  | asyncOver checkpoint => cases checkpoint <;> simp [Op.schedules, Mem.finish, Mem.resumed]
  | lock e hl hlock => cases hlock <;> simp [Op.schedules]
  | _ => exact Nat.le_of_eq (by rfl)

end

/-- The handles on their way to a cell were recorded. -/
theorem schedules_le_of_reach {ws : Nat → Waiter} {ok : Mem → List Op → Act Op Choice Call → Prop} {s : State Mem Op}
    (h : (machine ws).Reach ok initial s) (k : Nat) : total (Op.schedules k) s.ops ≤ s.mem.fired k := by
  refine h.invariant (I := fun m ops => total (Op.schedules k) ops ≤ m.fired k) (Nat.zero_le _) ?_ ?_
  · intro m A op B c m' new ih _ he
    have h1 := (exec_move he).schedules k
    have h2 := total_step (Op.schedules k) A B new op
    omega
  · intro m ops l m' new ih _ hc
    have hzero : total (Op.schedules k) new = 0 := by
      cases call_started hc <;> simp [Op.schedules]
    obtain ⟨hs', ts, n, rfl⟩ := (call_started hc).exists_eq
    rw [total_append, hzero]
    exact ih

/-- A suspension is resolved at most once. -/
theorem fired_le_one_of_reach {ws : Nat → Waiter} {ok : Mem → List Op → Act Op Choice Call → Prop} {s : State Mem Op} {S : Susp}
    (hok : ∀ m ops a, ok m ops a → ¬Overflows S.cell m a ∧ ¬Rearms S.cell m a ∧ ¬Rethrows S.cell m a)
    (h : (machine ws).Reach ok initial s) (hS : s.mem.Knows S) : s.mem.fired S.cell ≤ 1 := by
  cases hs : S.sentinel with
  | false =>
    rw [(resolved_of_reach h).fired_eq _ _ hS hs]
    exact Bool.toNat_le _
  | true =>
    have hover : ∀ m ops a, ok m ops a → ¬Overflows S.cell m a := fun m ops a hk => (hok m ops a hk).1
    cases ht : s.mem.thrown S.cell with
    | false =>
      rw [((counted_of_reach False nofun (fun _ => hover) h S hS rfl hs).tally ht).fired]
      exact Bool.toNat_le _
    | true =>
      obtain ⟨d, hd⟩ := spent_of_reach False nofun (fun _ => hover) (fun _ m ops a hk => (hok m ops a hk).2.1)
        (fun m ops a hk => (hok m ops a hk).2.2) h S hS rfl hs ht
      exact Nat.le_of_eq hd.fired

end Tonio.Runtime
