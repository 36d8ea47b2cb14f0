import Tonio.Lemmas.Sync

/-!
# Mutual exclusion and hand-over of the lock

The lock is the primitive with one unit: its flag is down when the unit is free.
-/

namespace Tonio.Sync

open Interleaving

/-- The lock has one unit, free while `state` is false; its attempt can always be trusted. -/
theorem lock_measured : Measured lock 1 (fun state => (!state).toNat) (fun _ => True) where
  take := by
    intro m v _ _ hv
    cases hm : m.val with
    | true => simp [lock, hm] at hv
    | false =>
      obtain rfl : v = true := by simpa [lock, hm] using hv.symm
      rfl
  put := by
    intro v hv
    cases v with
    | true => rfl
    | false => simp at hv

/-- While the lock is free nobody is queued: an event is pushed only under the mutex and with `state` true, and `state` is stored
false only under the mutex and with the queue empty. -/
def FreeEmpty (m : Mem Bool) : Prop := m.val = false → m.waiters = []

theorem FreeEmpty.exec {m m' : Mem Bool} {A B new : List Op} {op : Op} {c : Choice} (hI : Inv m (A ++ op :: B))
    (h : FreeEmpty m) (he : lock.exec m op c = some (m', new)) : FreeEmpty m' := by
  intro hfree
  rcases exec_cases he with ⟨hq, ⟨hv, -⟩ | ⟨hv, -⟩ | ⟨rfl, -, -⟩⟩ | ⟨-, hv, -, rfl⟩ | ⟨e, ws, -, hw, rfl, -⟩ | ⟨e, -, rfl, -⟩
  · rw [hq.waiters]
    exact h (hv ▸ hfree)
  · cases hm : m.val <;> simp [lock, hm, hfree] at hv
  · rw [hq.waiters]
    exact hI.putting (by simp)
  · simp only at hfree
    simp [lock, hfree] at hv
  · simp only at hfree ⊢
    simp [h hfree] at hw
  · exact h hfree

/-- What holds in every state around a lock. -/
theorem lock_invariant {s : State (Mem Bool) Op} (h : lock.machine.Reach (fun _ _ _ => True) (initial false) s) :
    Balanced 1 (fun state => (!state).toNat) s.mem s.ops ∧ FreeEmpty s.mem := by
  refine h.invariant (I := fun m ops => Balanced 1 (fun state => (!state).toNat) m ops ∧ FreeEmpty m)
    ⟨Balanced.initial (fun state => (!state).toNat) false, fun _ => rfl⟩ ?_ ?_
  · intro m A op B c m' new hI _ he
    exact ⟨hI.1.exec lock_measured trivial he, hI.2.exec hI.1.toInv he⟩
  · intro m ops l m' new hI _ hc
    refine ⟨hI.1.call hc, ?_⟩
    cases l <;> simp only [Prim.machine, Prim.call, Option.some.injEq, Prod.mk.injEq] at hc <;> exact hc.1 ▸ hI.2

/-- Mutual exclusion and hand-over, in every state of every run of any number of tasks that acquire, try to acquire, release and
are cancelled while they wait: at most one task owns the lock, and one does exactly when `state` is true; nobody is queued
while `state` is false; a waiter that is neither served nor cancelled is queued, or in the hands of the `release` that popped it;
a `release` that sets an event hands the lock to the waiter of that event, and no waiter that is neither served nor
cancelled came before it; a `release` that stores false has nobody left to serve. -/
theorem lock_exclusive_and_fair (s : State (Mem Bool) Op)
    (h : lock.machine.Reach (fun _ _ _ => True) (initial false) s) :
    owners s ≤ 1 ∧ (s.mem.val = true ↔ owners s = 1) ∧ (s.mem.val = false → s.mem.waiters = []) ∧
    (∀ e, s.mem.unserved e → e ∈ s.mem.waiters ∨ Op.releaseSet e ∈ s.ops) ∧
    (∀ e s', lock.machine.Step s (.exec (.releaseSet e) .go) s' → s.mem.flag e = false →
      s'.mem.flag e = true ∧ (Op.wait e ∈ s'.ops ∨ Op.cancelled e ∈ s'.ops) ∧ ∀ e', s.mem.unserved e' → e ≤ e') ∧
    (∀ s', lock.machine.Step s (.exec .put .go) s' → s'.mem.val = false ∧ ∀ e, ¬s.mem.unserved e) := by
  obtain ⟨hB, hF⟩ := lock_invariant h
  have hb : (!s.mem.val).toNat + owners s = 1 := hB.balance
  refine ⟨by omega, ?_, hF, hB.queued, fun e s' hs hf => hB.toInv.step_serves hs hf, fun s' hs => hB.toInv.step_puts hs⟩
  cases hv : s.mem.val <;> simp [hv] at hb ⊢ <;> omega

/-- Three tasks around a lock: the first owns it, the second and the third wait, the second is cancelled, and the first is about to
set the event of the third. -/
theorem lock_exclusive_and_fair_three :
    ∃ s, lock.machine.Reach (fun _ _ _ => True) (initial false) s ∧ s.mem.flag 0 = true ∧ s.mem.unserved 1 ∧
      Op.releaseSet 1 ∈ s.ops ∧ owners s ≤ 1 := by
  obtain ⟨s, hs, hp⟩ := Machine.exists_reach_of_run lock.machine (fun _ _ _ => True) (fun _ _ _ => true)
    (fun _ _ _ _ => trivial) (initial false)
    [.call .acquire, .act 0 .go, .call .acquire, .act 1 .go, .act 1 .go, .act 1 .go, .act 1 .go, .call .acquire, .act 2 .go,
      .act 2 .go, .act 2 .go, .act 2 .go, .act 1 .cancel, .act 1 .go, .act 0 .go, .act 0 .go, .act 0 .go, .act 0 .go,
      .act 0 .go]
    (fun s => s.mem.flag 0 && (decide (1 < s.mem.next) && !s.mem.flag 1) && decide (Op.releaseSet 1 ∈ s.ops)) (by decide)
  simp only [Bool.and_eq_true, decide_eq_true_eq, Bool.not_eq_true'] at hp
  exact ⟨s, hs, hp.1.1, hp.1.2, hp.2, (lock_exclusive_and_fair s hs).1⟩

end Tonio.Sync
