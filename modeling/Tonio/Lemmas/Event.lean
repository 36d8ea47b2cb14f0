import Tonio.Lemmas.Cells

/-!
# The queue of an event

The mutex of an event has one holder (`mutex_of_reach`). A raised flag with wakers in the queue means that a `set` call has still to
run its `notify` (`Woken`); and a suspension of one event that has not been resolved stands in the queue of its event or is about
to be woken, unless its checkpoint was aborted (`Awaited`).
-/

namespace Tonio.Runtime

open Interleaving

/-! ## The mutex -/

/-- Whether an operation holds the mutex of an event. -/
def Op.holds (e : Nat) : Op → Nat
  | .notify e' | .unnotify e' _ | .addCheck e' _ | .push e' _ | .sweep e' | .unlock e' => (decide (e' = e)).toNat
  | _ => 0

/-- Weights of the operations of `register`. -/
theorem total_wakers {f : Op → Nat} {S : Susp} {events : List Nat} {timed : Bool} (hw : ∀ e x, f (.addWaker e x) = 0)
    (ht : f (.addTimer S) = 0) : total f (wakers S events timed) = 0 := by
  rw [total_eq_zero_iff]
  intro op hop
  unfold wakers at hop
  rcases List.mem_append.mp hop with hop | hop
  · obtain ⟨x, -, rfl⟩ := List.mem_map.mp hop
    exact hw _ _
  · split at hop
    · rw [List.mem_singleton.mp hop]
      exact ht
    · cases hop

theorem total_registration {f : Op → Nat} {S : Susp} {events : List Nat} {timed : Bool} (hw : ∀ e x, f (.addWaker e x) = 0)
    (ht : f (.addTimer S) = 0) (hc : ∀ w, f (.checkAborted w S) = 0) : total f (registration S events timed) = 0 := by
  unfold registration
  split
  · simp [hc]
  · exact total_wakers hw ht

section

variable {ws : Nat → Waiter} {m m' : Mem} {A B new ops : List Op} {op : Op} {c : Choice}

theorem Wakes.holds {S : Susp} {v : Val} {i : Nat} (hw : Wakes S v i op) (e : Nat) : op.holds e = 0 := by
  rcases hw with rfl | ⟨rfl, -⟩ <;> rfl

/-- A step takes the mutex, gives it back, or passes it on. -/
theorem mutex_move (e : Nat) (hm : Move ws m op c m' new) (hpos : op.holds e ≤ (m.locked e).toNat) :
    total (Op.holds e) new + (m.locked e).toNat = op.holds e + (m'.locked e).toNat := by
  cases hm with
  | lock e' hl hlock =>
    by_cases he : e' = e
    · subst he
      cases hlock <;> simp [Op.holds, hl]
    · cases hlock <;> simp [Op.holds, he, Function.update_of_ne (Ne.symm he)]
  | unlock e' =>
    by_cases he : e' = e
    · subst he
      simp only [Op.holds, decide_true, Bool.toNat_true] at hpos
      simp [Op.holds, Nat.le_antisymm (Bool.toNat_le _) hpos]
    · simp [Op.holds, he, Function.update_of_ne (Ne.symm he)]
  | decrementZero S v i hw hs h0 | decrement S v i hw hs h0 h1 | decrementLast S v i hw hs h1 | consume S v i hw hs hc
  | consumeNoop S v i hw hs hc =>
    rw [hw.holds]
    simp [Op.holds, Mem.fire]
  | storeRes S i v last => cases last <;> simp [Op.holds]
  | suspend fl coro ctx checkpoint parents events timed S hS =>
    rw [total_registration (fun _ _ => rfl) rfl (fun _ => rfl)]
    simp [Op.holds, Mem.suspend, Mem.new]
  | checkAborted w S => split <;> simp [Op.holds]
  | abortLoad fl w => cases m.ptr fl w <;> simp [Op.holds]
  | callChild parents coro ctx input new hnew =>
    rcases hnew with rfl | ⟨_, _, _, -, -, -, rfl⟩ <;> simp [Op.holds, Mem.new, Mem.resumed]
  | ret parents coro ctx input v | raise parents coro ctx input e =>
    cases parents <;> simp [Op.holds, Mem.resumed, Mem.finish]
  | asyncOver checkpoint coro ctx v o ho => cases checkpoint <;> simp [Op.holds, Mem.resumed, Mem.finish]
  | _ => simp [Op.holds, Mem.setWatchers, Mem.setDirty, Mem.fire, Mem.setPtr, Mem.new, Mem.register, Mem.detach, Mem.resumed, Mem.finish, Mem.hold]

end

/-- One operation holds a mutex that is taken, and none one that is not. -/
def Mutex (m : Mem) (ops : List Op) : Prop := ∀ e, total (Op.holds e) ops = (m.locked e).toNat

theorem mutex_of_reach {ws : Nat → Waiter} {ok : Mem → List Op → Act Op Choice Call → Prop} {s : State Mem Op}
    (h : (machine ws).Reach ok initial s) : Mutex s.mem s.ops := by
  refine h.invariant (fun e => rfl) ?_ ?_
  · intro m A op B c m' new ih _ he e
    have hi := ih e
    rw [total_append, total_cons] at hi
    have hm := mutex_move e (exec_move he) (by omega)
    rw [total_append, total_append]
    omega
  · intro m ops l m' new ih _ hc e
    rw [total_append, ih e]
    cases call_started hc <;> simp [Op.holds]

/-! ## Wake-ups -/

/-- A `set` call of the event is between its successful exchange of the flag and the end of its `notify`. -/
def Setting (ops : List Op) (e : Nat) : Prop := .notifyLock e ∈ ops ∨ .notify e ∈ ops

/-- When the flag is raised, the wakers in the queue, and one that is about to be pushed, are left to a `set` call. -/
structure Woken (m : Mem) (ops : List Op) : Prop where
  queued : ∀ e, m.flag e = true → m.watchers e ≠ [] → Setting ops e
  pushed : ∀ e x, m.flag e = true → .push e x ∈ ops → .notifyLock e ∈ ops

section

variable {ws : Nat → Waiter} {m m' : Mem} {A B new ops : List Op} {op : Op} {c : Choice}

theorem Setting.keep {e : Nat} (h : Setting (A ++ op :: B) e) (h1 : op ≠ .notifyLock e) (h2 : op ≠ .notify e) :
    Setting (A ++ (new ++ B)) e :=
  h.imp (fun h => Machine.mem_keep h h1.symm) (fun h => Machine.mem_keep h h2.symm)

/-- A step that neither touches the flag and the queue of an event nor belongs to a `set` call. -/
theorem Woken.of_keep (h : Woken m (A ++ op :: B)) (hf : m'.flag = m.flag) (hq : m'.watchers = m.watchers)
    (hop : ∀ e, op ≠ .notifyLock e ∧ op ≠ .notify e) (hnew : ∀ e x, Op.push e x ∉ new) : Woken m' (A ++ (new ++ B)) := by
  refine ⟨fun e hfe hqe => ?_, fun e x hfe hx => ?_⟩
  · rw [hf] at hfe
    rw [hq] at hqe
    exact (h.queued e hfe hqe).keep (hop e).1 (hop e).2
  · rw [hf] at hfe
    have hx := (Machine.mem_cases op hx).resolve_left (hnew e x)
    exact Machine.mem_keep (h.pushed e x hfe hx) (hop e).1.symm

theorem push_notMem_registration {S : Susp} {events : List Nat} {timed : Bool} (e : Nat) (x : Waker) :
    Op.push e x ∉ registration S events timed := by
  unfold registration
  split
  · simp
  · cases timed <;> simp [wakers]

theorem Woken.move (h : Woken m (A ++ op :: B)) (hmutex : Mutex m (A ++ op :: B)) (hm : Move ws m op c m' new) :
    Woken m' (A ++ (new ++ B)) := by
  cases hm with
  | setTrue e hf =>
    refine ⟨fun e' hfe hqe => ?_, fun e' x hfe hx => ?_⟩ <;> by_cases he : e' = e
    · exact Or.inl (Machine.mem_new (by simp [he]))
    · simp only [Function.update_of_ne he] at hfe
      exact (h.queued e' hfe hqe).keep (by simp) (by simp)
    · exact Machine.mem_new (by simp [he])
    · simp only [Function.update_of_ne he] at hfe
      have hx := (Machine.mem_cases (.set e) hx).resolve_left (by simp)
      exact Machine.mem_keep (h.pushed e' x hfe hx) (by simp)
  | clearTrue e hf =>
    refine ⟨fun e' hfe hqe => ?_, fun e' x hfe hx => ?_⟩ <;> by_cases he : e' = e
    · simp [he] at hfe
    · simp only [Function.update_of_ne he] at hfe
      exact (h.queued e' hfe hqe).keep (by simp) (by simp)
    · simp [he] at hfe
    · simp only [Function.update_of_ne he] at hfe
      have hx := (Machine.mem_cases (.clear e) hx).resolve_left (by simp)
      exact Machine.mem_keep (h.pushed e' x hfe hx) (by simp)
  | lock e hl hlock =>
    cases hlock with
    | notify =>
      refine ⟨fun e' hfe hqe => ?_, fun e' x hfe hx => ?_⟩ <;> by_cases he : e' = e
      · exact Or.inr (Machine.mem_new (by simp [he]))
      · exact (h.queued e' hfe hqe).keep (by simpa using Ne.symm he) (by simp)
      · -- the mutex was free, so nobody is about to push
        have hx := (Machine.mem_cases (.notifyLock e) hx).resolve_left (by simp)
        have hzero := hmutex e
        rw [hl] at hzero
        have hp := total_eq_zero_iff.mp hzero _ hx
        simp [Op.holds, he] at hp
      · have hx := (Machine.mem_cases (.notifyLock e) hx).resolve_left (by simp)
        exact Machine.mem_keep (h.pushed e' x hfe hx) (by simpa using he)
    | unnotify => exact h.of_keep rfl rfl (by simp) (by simp)
    | sweep => exact h.of_keep rfl rfl (by simp) (by simp)
    | addWaker x => exact h.of_keep rfl rfl (by simp) (by simp)
  | notifyPop e x q hq =>
    refine ⟨fun e' hfe hqe => ?_, fun e' y hfe hx => ?_⟩
    · by_cases he : e' = e
      · exact Or.inr (Machine.mem_new (by simp [he]))
      · simp only [Mem.setWatchers, Function.update_of_ne he] at hqe
        exact (h.queued e' hfe hqe).keep (by simp) (by simpa using Ne.symm he)
    · have hx := (Machine.mem_cases (.notify e) hx).resolve_left (by simp)
      exact Machine.mem_keep (h.pushed e' y hfe hx) (by simp)
  | notifyDone e hq =>
    refine ⟨fun e' hfe hqe => ?_, fun e' y hfe hx => ?_⟩
    · have he : e' ≠ e := fun he => hqe (he ▸ hq)
      exact (h.queued e' hfe hqe).keep (by simp) (by simpa using he.symm)
    · have hx := (Machine.mem_cases (.notify e) hx).resolve_left (by simp)
      exact Machine.mem_keep (h.pushed e' y hfe hx) (by simp)
  | sweepDrop e q x hq hd =>
    refine ⟨fun e' hfe hqe => ?_, fun e' y hfe hx => ?_⟩
    · have hqe' : m.watchers e' ≠ [] := by
        by_cases he : e' = e
        · simp [he, hq]
        · simpa only [Mem.setWatchers, Function.update_of_ne he] using hqe
      exact (h.queued e' hfe hqe').keep (by simp) (by simp)
    · have hx := (Machine.mem_cases (.sweep e) hx).resolve_left (by simp)
      exact Machine.mem_keep (h.pushed e' y hfe hx) (by simp)
  | checked e x hf =>
    refine ⟨fun e' hfe hqe => (h.queued e' hfe hqe).keep (by simp) (by simp), fun e' y hfe hx => ?_⟩
    rcases Machine.mem_cases (.addCheck e x) hx with hx | hx
    · simp only [List.mem_singleton, Op.push.injEq] at hx
      rw [hx.1, hf] at hfe
      cases hfe
    · exact Machine.mem_keep (h.pushed e' y hfe hx) (by simp)
  | push e x =>
    refine ⟨fun e' hfe hqe => ?_, fun e' y hfe hx => ?_⟩
    · by_cases he : e' = e
      · subst he
        exact Or.inl (Machine.mem_keep (h.pushed e' x hfe (by simp)) (by simp))
      · simp only [Mem.setWatchers, Mem.setDirty, Function.update_of_ne he] at hqe
        exact (h.queued e' hfe hqe).keep (by simp) (by simp)
    · have hx := (Machine.mem_cases (.push e x) hx).resolve_left (by simp)
      exact Machine.mem_keep (h.pushed e' y hfe hx) (by simp)
  | decrementZero S v i hw hs h0 | decrement S v i hw hs h0 h1 | decrementLast S v i hw hs h1 | consume S v i hw hs hc
  | consumeNoop S v i hw hs hc =>
    refine h.of_keep rfl rfl (fun e => ?_) (by simp)
    rcases hw with rfl | ⟨rfl, -⟩ <;> simp
  | storeRes S i v last => exact h.of_keep rfl rfl (by simp) (by cases last <;> simp)
  | suspend fl coro ctx checkpoint parents events timed S hS => exact h.of_keep rfl rfl (by simp) push_notMem_registration
  | checkAborted w S => exact h.of_keep rfl rfl (by simp) (by split <;> simp)
  | abortLoad fl w => exact h.of_keep rfl rfl (by simp) (by cases m.ptr fl w <;> simp)
  | callChild parents coro ctx input new hnew =>
    exact h.of_keep rfl rfl (by simp) (by rcases hnew with rfl | ⟨_, _, _, -, -, -, rfl⟩ <;> simp)
  | ret parents coro ctx input v | raise parents coro ctx input e => exact h.of_keep rfl rfl (by simp) (by cases parents <;> simp)
  | asyncOver checkpoint coro ctx v o ho => exact h.of_keep rfl rfl (by simp) (by cases checkpoint <;> simp)
  | _ => exact h.of_keep rfl rfl (by simp) (by simp)

end

theorem woken_of_reach {ws : Nat → Waiter} {ok : Mem → List Op → Act Op Choice Call → Prop} {s : State Mem Op}
    (h : (machine ws).Reach ok initial s) : Woken s.mem s.ops := by
  refine h.invariant_with mutex_of_reach ⟨nofun, nofun⟩ ?_ ?_
  · exact fun m A op B c m' new hmutex ih _ he => ih.move hmutex (exec_move he)
  · intro m ops l m' new _ ih _ hc
    have hq : ∀ e, m'.flag e = m.flag e ∧ m'.watchers e = m.watchers e ∧ ∀ x, Op.push e x ∉ new := by
      cases call_started hc <;> simp
    refine ⟨fun e hfe hqe => ?_, fun e x hfe hx => ?_⟩
    · rw [(hq e).1] at hfe
      rw [(hq e).2.1] at hqe
      exact (ih.queued e hfe hqe).imp (List.mem_append_left _) (List.mem_append_left _)
    · rw [(hq e).1] at hfe
      have hx := (List.mem_append.mp hx).resolve_right ((hq e).2.2 x)
      exact List.mem_append_left _ (ih.pushed e x hfe hx)

/-! ## The queue -/

/-- What a step does to the queue of an event: nothing, or a waker joins it, or the first leaves it to be woken, or the last is dropped
that nobody waits for. -/
inductive QueueStep (e : Nat) (m : Mem) (m' : Mem) (new : List Op) : Prop where
  | same (h : m'.watchers e = m.watchers e)
  | joined (x : Waker) (h : m'.watchers e = m.watchers e ++ [x])
  | woken (x : Waker) (h : m.watchers e = x :: m'.watchers e) (hnew : .resume x.target .none x.idx ∈ new)
  | dropped (x : Waker) (h : m.watchers e = m'.watchers e ++ [x]) (hd : m.isDead x.target = true)

section

variable {ws : Nat → Waiter} {m m' : Mem} {A B new ops : List Op} {op : Op} {c : Choice}

theorem Move.queueStep (hm : Move ws m op c m' new) (e : Nat) : QueueStep e m m' new := by
  cases hm with
  | notifyPop e' x q hq =>
    by_cases he : e = e'
    · subst he
      exact .woken x (by simpa [Mem.setWatchers] using hq) (by simp)
    · exact .same (by simp [Mem.setWatchers, he])
  | sweepDrop e' q x hq hd =>
    by_cases he : e = e'
    · subst he
      exact .dropped x (by simpa [Mem.setWatchers] using hq) hd
    · exact .same (by simp [Mem.setWatchers, he])
  | push e' x =>
    by_cases he : e = e'
    · subst he
      exact .joined x (by simp [Mem.setWatchers, Mem.setDirty])
    · exact .same (by simp [Mem.setWatchers, Mem.setDirty, he])
  | _ => exact .same rfl

/-- The operation registers a suspension with an event, or resumes it. -/
def Op.Delivers (S : Susp) (e : Nat) : Op → Prop
  | .addWaker e' x | .addCheck e' x | .push e' x => e' = e ∧ x.target = S
  | .resume T _ _ | .resumeBody T _ _ => T = S
  | _ => False

/-- A suspension of one event that has not been resolved waits in its queue, or is about to be put there or to be resumed, unless it is
an async one whose checkpoint was aborted. -/
def Mem.Awaits (m : Mem) (ops : List Op) (S : Susp) (e : Nat) : Prop :=
  (S.flavour = .async ∧ m.abortedOf S = true) ∨ (∃ x ∈ m.watchers e, x.target = S) ∨ ∃ op ∈ ops, op.Delivers S e

def Awaited (m : Mem) (ops : List Op) : Prop := ∀ S ∈ m.live, ∀ e, m.awaits S.cell = [e] → m.Awaits ops S e

theorem addWaker_mem_registration (S : Susp) (e : Nat) (timed : Bool) : Op.addWaker e ⟨S, 0⟩ ∈ registration S [e] timed := by
  simp [registration, wakers]

/-- The operation that delivers, performed. -/
theorem Op.Delivers.step {S : Susp} {e : Nat} (hd : op.Delivers S e) (hk : Known m (A ++ op :: B)) (hr : Resolved m)
    (hm : Move ws m op c m' new) (hS : S ∈ m.live) (ha : m.awaits S.cell = [e]) (hS' : S ∈ m'.live) :
    m'.Awaits (A ++ (new ++ B)) S e := by
  have hsent : S.sentinel = false := by rw [(hk.made _ _ (hk.live S hS)).2.sentinel, ha]; rfl
  have hcons := hr.consumed hk hS hsent
  cases hm with
  | lock e' hl hlock =>
    cases hlock with
    | addWaker x => exact Or.inr (Or.inr ⟨.addCheck e' x, Machine.mem_new (by simp), hd⟩)
    | notify | unnotify | sweep => exact hd.elim
  | wakeNow e' x hf => exact Or.inr (Or.inr ⟨_, Machine.mem_new (List.mem_cons_self ..), hd.2⟩)
  | checked e' x hf => exact Or.inr (Or.inr ⟨_, Machine.mem_new (List.mem_cons_self ..), hd⟩)
  | push e' x =>
    obtain ⟨rfl, hx⟩ := hd
    exact Or.inr (Or.inl ⟨x, by simp [Mem.setWatchers, Mem.setDirty], hx⟩)
  | resumeDrop T v i hfl hab =>
    obtain rfl : T = S := hd
    exact Or.inl ⟨hfl, hab⟩
  | resumePass T v i hfl hab => exact Or.inr (Or.inr ⟨_, Machine.mem_new (List.mem_cons_self ..), hd⟩)
  | decrementZero T v i hw hs h0 | decrement T v i hw hs h0 h1 | decrementLast T v i hw hs h1 =>
    obtain rfl : T = S := by rcases hw with rfl | ⟨rfl, -⟩ <;> exact hd
    rw [hsent] at hs
    cases hs
  | consumeNoop T v i hw hs hc =>
    obtain rfl : T = S := by rcases hw with rfl | ⟨rfl, -⟩ <;> exact hd
    rw [hcons] at hc
    cases hc
  | consume T v i hw hs hc =>
    obtain rfl : T = S := by rcases hw with rfl | ⟨rfl, -⟩ <;> exact hd
    simp [Mem.fire] at hS'
  | _ => exact hd.elim

/-- A suspension that a step makes either has no events, or is about to be registered with them. -/
theorem Move.born (hm : Move ws m op c m' new) {S : Susp} (hS : S ∈ m'.live) :
    S ∈ m.live ∨ m'.awaits S.cell = [] ∨ ∃ timed, new = registration S (m'.awaits S.cell) timed := by
  cases hm with
  | decrementLast T v i hw hs h1 | consume T v i hw hs hc => exact Or.inl (List.mem_filter.mp hS).1
  | errorSentinel b T e t ht hs h0 | errorConsume b T e t ht hs hc => exact Or.inl (List.mem_filter.mp hS).1
  | fromCheckpoint w coro ctx p rest hr he hp =>
    simp only [Mem.new, List.mem_append, List.mem_singleton, List.mem_filter] at hS
    rcases hS with (hS | rfl) | rfl
    · exact Or.inl hS.1
    · exact Or.inr (Or.inl (by simp [Mem.new, Function.update_apply]))
    · exact Or.inr (Or.inl (by simp [Mem.new]))
  | underCheckpoint w coro ctx p rest c hr he hp =>
    rcases List.mem_append.mp hS with hS | hS
    · exact Or.inl hS
    · exact Or.inr (Or.inl (by simp [List.mem_singleton.mp hS, Mem.new]))
  | callChild parents coro ctx input new hnew =>
    rcases List.mem_append.mp hS with hS | hS
    · exact Or.inl hS
    · exact Or.inr (Or.inl (by simp [List.mem_singleton.mp hS, Mem.new]))
  | suspend fl coro ctx checkpoint parents events timed T hT =>
    rcases List.mem_append.mp hS with hS | hS
    · exact Or.inl hS
    · obtain rfl := List.mem_singleton.mp hS
      exact Or.inr (Or.inr ⟨timed, by simp [Mem.suspend, Mem.new]⟩)
  | _ => exact Or.inl hS

theorem Awaited.move (h : Awaited m (A ++ op :: B)) (hk : Known m (A ++ op :: B)) (hr : Resolved m)
    (hm : Move ws m op c m' new) : Awaited m' (A ++ (new ++ B)) := by
  intro S hS' e ha'
  rcases hm.born hS' with hS | hnil | ⟨timed, hborn⟩
  · have ha : m.awaits S.cell = [e] := by rw [← (hk.live S hS).awaits_eq hk hm.extends, ha']
    rcases h S hS e ha with ⟨hfl, hab⟩ | ⟨x, hx, rfl⟩ | ⟨op', hop', hd⟩
    · exact Or.inl ⟨hfl, hm.abortedOf_mono hab⟩
    · -- its waker is still in the queue, or has been taken to be woken
      cases hm.queueStep e with
      | same hq => exact Or.inr (Or.inl ⟨x, hq ▸ hx, rfl⟩)
      | joined y hq => exact Or.inr (Or.inl ⟨x, by simp [hq, hx], rfl⟩)
      | woken y hq hnew =>
        rw [hq] at hx
        rcases List.mem_cons.mp hx with rfl | hx
        · exact Or.inr (Or.inr ⟨_, Machine.mem_new hnew, rfl⟩)
        · exact Or.inr (Or.inl ⟨x, hx, rfl⟩)
      | dropped y hq hdead =>
        rw [hq] at hx
        rcases List.mem_append.mp hx with hx | hx
        · exact Or.inr (Or.inl ⟨x, hx, rfl⟩)
        · obtain rfl := List.mem_singleton.mp hx
          have hsent : x.target.sentinel = false := by rw [(hk.made _ _ (hk.live _ hS)).2.sentinel, ha]; rfl
          have hcons := hr.consumed hk hS hsent
          unfold Mem.isDead at hdead
          cases hfl : x.target.flavour with
          | gen => simp [hfl, hcons] at hdead
          | async =>
            simp only [hfl, hcons, Bool.false_or] at hdead
            exact Or.inl ⟨hfl, hm.abortedOf_mono hdead⟩
    · by_cases hne : op' = op
      · subst hne
        exact hd.step hk hr hm hS ha hS'
      · exact Or.inr (Or.inr ⟨op', Machine.mem_keep hop' hne, hd⟩)
  · rw [hnil] at ha'
    cases ha'
  · rw [ha'] at hborn
    exact Or.inr (Or.inr ⟨.addWaker e ⟨S, 0⟩, Machine.mem_new (hborn ▸ addWaker_mem_registration S e timed), rfl, rfl⟩)

end

theorem awaited_of_reach {ws : Nat → Waiter} {ok : Mem → List Op → Act Op Choice Call → Prop} {s : State Mem Op}
    (h : (machine ws).Reach ok initial s) : Awaited s.mem s.ops := by
  refine h.invariant_with (J := fun m ops => Known m ops ∧ Resolved m) (fun h => ⟨known_of_reach h, resolved_of_reach h⟩) nofun ?_ ?_
  · exact fun m A op B c m' new hj ih _ he => ih.move hj.1 hj.2 (exec_move he)
  · intro m ops l m' new _ ih _ hc S hS e ha
    obtain ⟨hs, ts, n, rfl⟩ := (call_started hc).exists_eq
    rcases ih S hS e ha with hab | hx | ⟨op, hop, hd⟩
    · exact Or.inl hab
    · exact Or.inr (Or.inl hx)
    · exact Or.inr (Or.inr ⟨op, List.mem_append_left _ hop, hd⟩)

/-! ## Holding the queue -/

/-- The wakers that an `unnotify` has still to hold are in the queue. -/
def Held (m : Mem) (ops : List Op) : Prop := ∀ e q, .unnotify e q ∈ ops → ∀ x ∈ q, x ∈ m.watchers e

section

variable {ws : Nat → Waiter} {m m' : Mem} {A B new ops : List Op} {op : Op} {c : Choice}

/-- What an `unnotify` has still to hold was in the queue when it took the mutex. -/
theorem unnotify_mem_of_move (hm : Move ws m op c m' new) {e : Nat} {q : List Waker} (hx : .unnotify e q ∈ new) :
    (op = .unnotifyLock e ∧ q = m.watchers e) ∨ ∃ x, op = .unnotify e (x :: q) := by
  cases hm with
  | lock e' hl hlock =>
    cases hlock with
    | unnotify =>
      simp only [List.mem_singleton, Op.unnotify.injEq] at hx
      obtain ⟨rfl, rfl⟩ := hx
      exact Or.inl ⟨rfl, rfl⟩
    | notify | sweep | addWaker => simp at hx
  | hold e' x q' =>
    simp only [List.mem_singleton, Op.unnotify.injEq] at hx
    obtain ⟨rfl, rfl⟩ := hx
    exact Or.inr ⟨x, rfl⟩
  | storeRes S i v last => cases last <;> simp at hx
  | suspend fl coro ctx checkpoint parents events timed T hT =>
    unfold registration at hx
    split at hx
    · simp at hx
    · cases timed <;> simp [wakers] at hx
  | checkAborted w T => split at hx <;> simp at hx
  | abortLoad fl w => cases hp : m.ptr fl w <;> simp [hp] at hx
  | callChild parents coro ctx input new hnew => rcases hnew with rfl | ⟨_, _, _, -, -, -, rfl⟩ <;> simp at hx
  | ret parents coro ctx input v | raise parents coro ctx input e => cases parents <;> simp at hx
  | asyncOver checkpoint coro ctx v o ho => cases checkpoint <;> simp at hx
  | _ => simp at hx

/-- While an `unnotify` holds the mutex, nobody else takes from the queue. -/
theorem Mutex.unnotify_notMem (h : Mutex m (A ++ op :: B)) {e : Nat} {q : List Waker} (hop : op.holds e = 1) (hne : op ≠ .unnotify e q) :
    .unnotify e q ∉ A ++ op :: B := by
  intro hq
  have hle : total (Op.holds e) (A ++ op :: B) ≤ 1 := by
    rw [h e]
    exact Bool.toNat_le _
  have hmem : Op.unnotify e q ∈ A ++ B := by
    simp only [List.mem_append, List.mem_cons] at hq ⊢
    rcases hq with hq | hq | hq
    · exact Or.inl hq
    · exact absurd hq.symm hne
    · exact Or.inr hq
  have hzero := eq_zero_of_total_le hle hop _ hmem
  simp [Op.holds] at hzero

theorem Held.move (h : Held m (A ++ op :: B)) (hmutex : Mutex m (A ++ op :: B)) (hm : Move ws m op c m' new) :
    Held m' (A ++ (new ++ B)) := by
  intro e q hq x hx
  have hold : x ∈ m.watchers e := by
    rcases Machine.mem_cases op hq with hq | hq
    · rcases unnotify_mem_of_move hm hq with ⟨rfl, rfl⟩ | ⟨y, rfl⟩
      · exact hx
      · exact h e (y :: q) (by simp) x (List.mem_cons_of_mem _ hx)
    · exact h e q hq x hx
  -- only `notify` and the sweep take from a queue, and they hold its mutex
  cases hm with
  | notifyPop e' y q' hq' =>
    by_cases he : e' = e
    · subst he
      have hq := (Machine.mem_cases (.notify e') hq).resolve_left (by simp)
      exact absurd hq (hmutex.unnotify_notMem (by simp [Op.holds]) (by simp))
    · simpa [Mem.setWatchers, Ne.symm he] using hold
  | sweepDrop e' q' y hq' hd =>
    by_cases he : e' = e
    · subst he
      have hq := (Machine.mem_cases (.sweep e') hq).resolve_left (by simp)
      exact absurd hq (hmutex.unnotify_notMem (by simp [Op.holds]) (by simp))
    · simpa [Mem.setWatchers, Ne.symm he] using hold
  | push e' y =>
    by_cases he : e' = e
    · subst he
      simp [Mem.setWatchers, Mem.setDirty, hold]
    · simpa [Mem.setWatchers, Mem.setDirty, Ne.symm he] using hold
  | _ => exact hold

end

theorem held_of_reach {ws : Nat → Waiter} {ok : Mem → List Op → Act Op Choice Call → Prop} {s : State Mem Op}
    (h : (machine ws).Reach ok initial s) : Held s.mem s.ops := by
  refine h.invariant_with mutex_of_reach nofun ?_ ?_
  · exact fun m A op B c m' new hmutex ih _ he => ih.move hmutex (exec_move he)
  · intro m ops l m' new _ ih _ hc e q hq
    have hnew : Op.unnotify e q ∉ new := by cases call_started hc <;> simp
    obtain ⟨hs, ts, n, rfl⟩ := (call_started hc).exists_eq
    exact ih e q ((List.mem_append.mp hq).resolve_right hnew)

end Tonio.Runtime
