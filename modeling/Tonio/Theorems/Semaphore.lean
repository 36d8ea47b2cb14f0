import Tonio.Lemmas.Sync

/-!
# Conservation of the permits of a semaphore

The semaphore is the primitive whose units are its tokens. Its attempt compares the tokens with the number of queued events as
two `i32`, so it can be trusted while fewer than `2 ^ 31` events are queued: with no token left it then never takes one. The other way
round it takes one of the tokens there are unless their low 32 bits say otherwise (`Misread`), and then a task parks beside them.
-/

namespace Tonio.Sync

open Interleaving

/-- A count below `2 ^ 31` survives the cast. -/
theorem asI32_of_lt {x : Nat} (h : x < 2 ^ 31) : asI32 x = x := by
  unfold asI32 Int.bmod
  norm_num at h ⊢
  omega

/-- With no token left and fewer than `2 ^ 31` events queued the attempt fails. -/
theorem semaphore_take_zero {len : Nat} (h : len < 2 ^ 31) : semaphore.take 0 len = none := by
  have h0 : asI32 0 = 0 := asI32_of_lt (by norm_num)
  have h1 : subI32 (asI32 0) (asI32 len) ≤ 0 := by
    rw [h0, asI32_of_lt h]
    unfold subI32 Int.bmod
    norm_num at h ⊢
    omega
  simp only [semaphore, h1, if_true]

/-- A successful attempt takes one token. -/
theorem semaphore_take_some {tokens len v : Nat} (ht : tokens < 2 ^ 64) (h : len < 2 ^ 31)
    (hv : semaphore.take tokens len = some v) : tokens = v + 1 := by
  have h0 : tokens ≠ 0 := by
    rintro rfl
    rw [semaphore_take_zero h] at hv
    cases hv
  simp only [semaphore] at hv
  split at hv
  · cases hv
  · have hv := Option.some.inj hv
    omega

/-- The number of queued events for which the attempt is trusted. -/
def Fits (m : Mem Nat) : Prop := m.waiters.length < 2 ^ 31

instance (m : Mem Nat) : Decidable (Fits m) := inferInstanceAs (Decidable (m.waiters.length < 2 ^ 31))

theorem semaphore_measured {n : Nat} (hn : n < 2 ^ 64) : Measured semaphore n id Fits where
  take := fun _ _ hf hle hv => semaphore_take_some (Nat.lt_of_le_of_lt hle hn) hf hv
  put := by
    intro v hv
    simp only [semaphore, id_eq] at hv ⊢
    omega

/-- Conservation of permits, for every initial value and in every state of every run of any number of tasks that acquire, try
to acquire, release and are cancelled while they wait, as long as fewer than `2 ^ 31` events are queued: tokens and owners add up
to the initial value, so at most that many tasks own a permit; an attempt that succeeds finds a token to take, so the decrement
does not underflow; a waiter that is neither served nor cancelled is queued, or in the hands of the `release` that popped it; a
`release` that sets an event grants the waiter of that event, and no waiter that is neither served nor cancelled came before
it; a `release` adds a token only when nobody is left to be granted one. -/
theorem semaphore_conserves_permits (n : Nat) (hn : n < 2 ^ 64) (s : State (Mem Nat) Op)
    (h : semaphore.machine.Reach (fun m _ _ => Fits m) (initial n) s) :
    s.mem.val + owners s = n ∧ owners s ≤ n ∧
    (∀ v, Fits s.mem → semaphore.take s.mem.val s.mem.waiters.length = some v → s.mem.val = v + 1) ∧
    (∀ e, s.mem.unserved e → e ∈ s.mem.waiters ∨ Op.releaseSet e ∈ s.ops) ∧
    (∀ e s', semaphore.machine.Step s (.exec (.releaseSet e) .go) s' → s.mem.flag e = false →
      s'.mem.flag e = true ∧ (Op.wait e ∈ s'.ops ∨ Op.cancelled e ∈ s'.ops) ∧ ∀ e', s.mem.unserved e' → e ≤ e') ∧
    (∀ s', semaphore.machine.Step s (.exec .put .go) s' → s'.mem.val = s.mem.val + 1 ∧ ∀ e, ¬s.mem.unserved e) := by
  have hB : Balanced n id s.mem s.ops := Balanced.reach id (semaphore_measured hn) (fun _ _ _ hk => hk) h
  have hb : s.mem.val + owners s = n := hB.balance
  refine ⟨hb, by omega, fun v hf hv => semaphore_take_some (by omega) hf hv, hB.queued,
    fun e s' hs hf => hB.toInv.step_serves hs hf, fun s' hs => ?_⟩
  obtain ⟨hv, hu⟩ := hB.toInv.step_puts hs
  have hpos : 0 < owners s := by
    rcases hs.ops_eq with ⟨A, op, B, c, new, hop, ho, -, -⟩ | ⟨l, new, hop, -, -⟩
    · injection hop with hop
      subst hop
      exact Nat.lt_of_lt_of_le (show 0 < owns s.mem.flag .put by simp [owns]) (le_total_of_mem (by simp [ho]))
    · cases hop
  refine ⟨?_, hu⟩
  rw [hv]
  simp only [semaphore]
  omega

/-- A semaphore with one permit, a task that owns it, one that waits and one that waited and was cancelled: the two events stay
queued, and one permit is owned. -/
theorem semaphore_conserves_permits_three :
    ∃ s, semaphore.machine.Reach (fun m _ _ => Fits m) (initial 1) s ∧ s.mem.waiters = [0, 1] ∧ s.mem.flag 0 = true ∧
      s.mem.val + owners s = 1 := by
  obtain ⟨s, hs, hp⟩ := Machine.exists_reach_of_run semaphore.machine (fun m _ _ => Fits m)
    (fun m _ _ => decide (Fits m)) (fun _ _ _ h => of_decide_eq_true h) (initial 1)
    [.call .acquire, .act 0 .go, .act 0 .go, .act 0 .go, .act 0 .go, .call .acquire, .act 1 .go, .act 1 .go, .act 1 .go,
      .act 1 .go, .call .acquire, .act 2 .go, .act 2 .go, .act 2 .go, .act 2 .go, .act 1 .cancel, .act 1 .go]
    (fun s => decide (s.mem.waiters = [0, 1]) && s.mem.flag 0) (by decide)
  simp only [Bool.and_eq_true, decide_eq_true_eq] at hp
  exact ⟨s, hs, hp.1, hp.2, (semaphore_conserves_permits 1 (by norm_num) s hs).1⟩

/-! ## Parking -/

/-- There are tokens, and an `i32` does not show them: their low 32 bits are zero or negative. -/
def Misread (m : Mem Nat) : Prop := m.val ≠ 0 ∧ asI32 m.val ≤ 0

instance (m : Mem Nat) : Decidable (Misread m) := inferInstanceAs (Decidable (m.val ≠ 0 ∧ asI32 m.val ≤ 0))

/-- An `acquire` or a `try_acquire` looks at tokens that an `i32` does not show. -/
def Misreads (m : Mem Nat) : Act Op Choice OpenCall → Prop
  | .exec .acquireSlow _ | .exec .trySlow _ => Misread m
  | _ => False

instance (m : Mem Nat) (a : Act Op Choice OpenCall) : Decidable (Misreads m a) := by
  unfold Misreads
  split <;> infer_instance

/-- While anything is queued, or in the hands of a `release`, there is no token. -/
structure Parking (m : Mem Nat) (ops : List Op) : Prop extends Inv m ops where
  beside_queued : m.waiters ≠ [] → m.val = 0
  beside_popped : ∀ e, Op.releaseSet e ∈ ops → m.val = 0

/-- With nothing queued beside tokens, an attempt fails when there is no token, and when the tokens are misread. -/
theorem semaphore_take_none_iff {m : Mem Nat} (hq : m.waiters ≠ [] → m.val = 0) (hf : Fits m) :
    semaphore.take m.val m.waiters.length = none ↔ m.val = 0 ∨ Misread m := by
  by_cases hv : m.val = 0
  · simp only [hv, semaphore_take_zero hf, true_or]
  · have hnil : m.waiters = [] := by
      by_contra hne
      exact hv (hq hne)
    have hsub : subI32 (asI32 m.val) (asI32 0) = asI32 m.val := by
      rw [asI32_of_lt (x := 0) (by norm_num), subI32, Nat.cast_zero, Int.sub_zero]
      exact Int.bmod_bmod
    simp only [semaphore, hnil, List.length_nil, hsub, Misread, hv]
    split <;> simp_all

/-- A successful attempt takes one token, and nothing is queued. -/
theorem Parking.of_take {m : Mem Nat} {ops : List Op} {v : Nat} (h : Parking m ops) (hf : Fits m)
    (hv : semaphore.take m.val m.waiters.length = some v) : m.waiters = [] ∧ ∀ e, Op.releaseSet e ∉ ops := by
  have hne : m.val ≠ 0 := by
    intro h0
    rw [h0, semaphore_take_zero hf] at hv
    cases hv
  refine ⟨?_, fun e he => hne (h.beside_popped e he)⟩
  by_contra hw
  exact hne (h.beside_queued hw)

/-- Every operation keeps it, unless an attempt misreads the tokens. -/
theorem Parking.exec {m m' : Mem Nat} {A B new : List Op} {op : Op} {c : Choice} (h : Parking m (A ++ op :: B)) (hf : Fits m)
    (hm : ¬Misreads m (.exec op c)) (he : semaphore.exec m op c = some (m', new)) : Parking m' (A ++ (new ++ B)) := by
  have hbeside : ∀ e, Op.releaseSet e ∈ A ++ B → m.val = 0 := fun e hx => h.beside_popped e (Machine.mem_before op hx)
  rcases exec_cases he with ⟨hq, hval⟩ | ⟨rfl, hnone, rfl, rfl⟩ | ⟨e, ws, rfl, hw, rfl, rfl⟩ | ⟨e, hset, rfl, hop⟩
  · have hpop : ∀ e, Op.releaseSet e ∈ A ++ (new ++ B) → Op.releaseSet e ∈ A ++ B :=
      fun e hx => (Machine.mem_beside hx).resolve_left (hq.popped e).1
    refine ⟨h.toInv.exec he, ?_, ?_⟩
    · rw [hq.waiters]
      intro hne
      rcases hval with ⟨hv, -⟩ | ⟨hv, -⟩ | ⟨rfl, -, -⟩
      · exact hv ▸ h.beside_queued hne
      · exact absurd (h.of_take hf hv).1 hne
      · exact absurd (h.putting (by simp)) hne
    · intro e hx
      rcases hval with ⟨hv, -⟩ | ⟨hv, -⟩ | ⟨rfl, -, -⟩
      · exact hv ▸ hbeside e (hpop e hx)
      · exact absurd (Machine.mem_before op (hpop e hx)) ((h.of_take hf hv).2 e)
      · have hno := h.toInv.not_mem_of_critical (.releaseSet e) rfl rfl
        exact absurd (hpop e hx) (by simp [hno.1, hno.2])
  · -- an attempt that fails and does not misread the tokens finds none
    have h0 : m.val = 0 := ((semaphore_take_none_iff h.beside_queued hf).mp hnone).resolve_right hm
    exact ⟨h.toInv.exec he, fun _ => h0, fun _ _ => h0⟩
  · have h0 : m.val = 0 := h.beside_queued (by simp [hw])
    exact ⟨h.toInv.exec he, fun _ => h0, fun _ _ => h0⟩
  · refine ⟨h.toInv.exec he, h.beside_queued, fun x hx => ?_⟩
    have hmem : Op.releaseSet x ∈ A ++ B := by
      rcases hop with ⟨-, rfl⟩ | ⟨-, rfl⟩ <;> simpa using hx
    exact hbeside x hmem

/-- A call neither queues nor pops anything. -/
theorem Parking.call {m m' : Mem Nat} {ops new : List Op} {l : OpenCall} (h : Parking m ops) (hc : Prim.openCall m l = some (m', new)) :
    Parking m' (ops ++ new) := by
  have hnew : m' = m ∧ Inv m (ops ++ new) ∧ ∀ e, Op.releaseSet e ∉ new := by
    cases l with
    | task l =>
      refine ⟨?_, ?_, ?_⟩
      all_goals cases l <;> obtain ⟨rfl, rfl⟩ := Prod.mk.inj (Option.some.inj hc)
      · rfl
      · rfl
      · exact h.toInv.call (l := .acquire) rfl
      · exact h.toInv.call (l := .tryAcquire) rfl
      · simp
      · simp
    | release =>
      obtain ⟨rfl, rfl⟩ := Prod.mk.inj (Option.some.inj hc)
      exact ⟨rfl, h.toInv.start .release rfl (fun _ => rfl), by simp⟩
  obtain ⟨rfl, hinv, hpop⟩ := hnew
  exact ⟨hinv, h.beside_queued, fun e he => h.beside_popped e ((List.mem_append.mp he).resolve_right (hpop e))⟩

/-- In every state of every run whose attempts do not misread the tokens. -/
theorem Parking.reach {n : Nat} {s : State (Mem Nat) Op}
    (h : semaphore.openMachine.Reach (fun m _ a => Fits m ∧ ¬Misreads m a) (initial n) s) : Parking s.mem s.ops := by
  refine h.invariant (I := Parking) ⟨Inv.initial n, ?_, ?_⟩ ?_ ?_
  · exact fun hne => absurd rfl hne
  · exact fun e he => absurd he List.not_mem_nil
  · exact fun m A op B c m' new hI hok he => hI.exec hok.1 hok.2 he
  · exact fun m ops l m' new hI _ hc => hI.call hc

/-- A semaphore parks only when it is empty, for every initial value and in every state of every run of any number of tasks that acquire,
try to acquire and are cancelled while they wait, and of releases by anybody, in which no attempt misreads the tokens: with fewer than
`2 ^ 31` events queued, an `acquire` parks exactly when the count is zero, and a `try_acquire` raises exactly when it is, if and only if the
tokens are not misread; and while a task is parked there is no token. -/
theorem semaphore_parks_when_empty (n : Nat) (s : State (Mem Nat) Op)
    (h : semaphore.openMachine.Reach (fun m _ a => Fits m ∧ ¬Misreads m a) (initial n) s) :
    (Fits s.mem → ∀ m' new, semaphore.exec s.mem .acquireSlow .go = some (m', new) →
      ((.wait s.mem.next ∈ new ↔ s.mem.val = 0) ↔ ¬Misread s.mem)) ∧
    (Fits s.mem → ∀ m' new, semaphore.exec s.mem .trySlow .go = some (m', new) →
      ((.owner ∉ new ↔ s.mem.val = 0) ↔ ¬Misread s.mem)) ∧
    ∀ e, s.mem.unserved e → s.mem.val = 0 := by
  have hP : Parking s.mem s.ops := Parking.reach h
  have htake : Fits s.mem → ((semaphore.take s.mem.val s.mem.waiters.length = none ↔ s.mem.val = 0) ↔ ¬Misread s.mem) := by
    intro hf
    rw [semaphore_take_none_iff hP.beside_queued hf]
    constructor
    · intro hiff hm
      exact hm.1 (hiff.mp (Or.inr hm))
    · intro hm
      simp only [hm, or_false]
  refine ⟨fun hf m' new he => ?_, fun hf m' new he => ?_, fun e he => ?_⟩
  · rw [parks_iff he]
    exact htake hf
  · rw [raises_iff he]
    exact htake hf
  · rcases hP.queued e he with hq | hq
    · exact hP.beside_queued (List.ne_nil_of_mem hq)
    · exact hP.beside_popped e hq

/-- One permit that a release without an owner has made two: the third task parks, with no token left. -/
theorem semaphore_parks_when_empty_two :
    ∃ s, semaphore.openMachine.Reach (fun m _ a => Fits m ∧ ¬Misreads m a) (initial 1) s ∧ Op.wait 0 ∈ s.ops ∧ s.mem.val = 0 ∧
      owners s = 2 := by
  obtain ⟨s, hs, hp⟩ := Machine.exists_reach_of_run semaphore.openMachine (fun m _ a => Fits m ∧ ¬Misreads m a)
    (fun m _ a => decide (Fits m) && decide (¬Misreads m a)) (fun _ _ _ h => by simpa using h) (initial 1)
    [.call .release, .act 0 .go, .act 0 .go, .act 0 .go, .act 0 .go, .call (.task .acquire), .act 1 .go, .act 1 .go, .act 1 .go, .act 1 .go,
      .call (.task .acquire), .act 2 .go, .act 2 .go, .act 2 .go, .act 2 .go, .call (.task .acquire), .act 3 .go, .act 3 .go, .act 3 .go,
      .act 3 .go]
    (fun s => decide (Op.wait 0 ∈ s.ops) && decide (s.mem.next = 1 ∧ s.mem.flag 0 = false) && decide (owners s = 2)) (by decide)
  simp only [Bool.and_eq_true, decide_eq_true_eq] at hp
  obtain ⟨⟨hwait, hn, hf⟩, ho⟩ := hp
  exact ⟨s, hs, hwait, (semaphore_parks_when_empty 1 s hs).2.2 0 ⟨by omega, hf⟩, ho⟩

/-- A semaphore with `2 ^ 32` permits: the first task that acquires parks, and a `try_acquire` raises, with all permits available. -/
theorem semaphore_parks_beside_tokens :
    ∃ s, semaphore.openMachine.Reach (fun m _ _ => Fits m) (initial (2 ^ 32)) s ∧ Op.wait 0 ∈ s.ops ∧ s.mem.unserved 0 ∧
      s.mem.val = 2 ^ 32 ∧ ∃ m', semaphore.exec s.mem .trySlow .go = some (m', [.unlock]) := by
  obtain ⟨s, hs, hp⟩ := Machine.exists_reach_of_run semaphore.openMachine (fun m _ _ => Fits m)
    (fun m _ _ => decide (Fits m)) (fun _ _ _ h => of_decide_eq_true h) (initial (2 ^ 32))
    [.call (.task .acquire), .act 0 .go, .act 0 .go, .act 0 .go, .act 0 .go, .call (.task .tryAcquire), .act 1 .go, .act 1 .go]
    (fun s => decide (Op.wait 0 ∈ s.ops) && decide (s.mem.next = 1 ∧ s.mem.flag 0 = false) && decide (s.mem.val = 2 ^ 32) &&
      decide ((semaphore.exec s.mem .trySlow .go).map Prod.snd = some [.unlock])) (by decide)
  simp only [Bool.and_eq_true, decide_eq_true_eq] at hp
  obtain ⟨⟨⟨hwait, hn, hf⟩, hv⟩, htry⟩ := hp
  obtain ⟨⟨m', new⟩, he, hnew⟩ := Option.map_eq_some_iff.mp htry
  exact ⟨s, hs, hwait, ⟨by omega, hf⟩, hv, m', by rw [he, ← hnew]⟩

end Tonio.Sync
