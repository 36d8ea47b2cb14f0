import Tonio.Sync

/-!
# The hand-over protocol of locks and semaphores

What holds in every state around one primitive, whatever it hands over (`Inv`): the mutex has one holder, an event that is not
set has exactly one task that waits for it, that event is in the queue or in the hands of the `release` that popped it, the
queue is in the order of arrival, and nothing is queued when a `release` puts back what it could not hand over. The balance
between what is free and who owns (`Inv.balance`) then follows from what the attempt to take and the putting back do to it.
-/

namespace Tonio.Sync

open Interleaving

variable {K : Type}

/-- The operations performed with the mutex held. -/
def critical : Op → Nat
  | .acquireSlow | .trySlow | .releaseNext | .releaseSet _ | .put | .unlock => 1
  | _ => 0

/-- The operations of the task that waits for an event. -/
def waits (e : Nat) : Op → Nat
  | .wait e' | .cancelled e' => if e' = e then 1 else 0
  | _ => 0

/-- The state of the queue and of the waiters. -/
structure Inv (m : Mem K) (ops : List Op) : Prop where
  mutex : total critical ops = m.mutex.toNat
  waiting : ∀ e, total (waits e) ops ≤ 1
  alive : ∀ e, m.unserved e → total (waits e) ops = 1
  fresh : ∀ e, m.next ≤ e → m.flag e = false ∧ total (waits e) ops = 0
  queued : ∀ e, m.unserved e → e ∈ m.waiters ∨ Op.releaseSet e ∈ ops
  bounded : ∀ e ∈ m.waiters, e < m.next
  sorted : m.waiters.Pairwise (· < ·)
  popped : ∀ e, Op.releaseSet e ∈ ops → e < m.next ∧ ∀ e' ∈ m.waiters, e < e'
  putting : Op.put ∈ ops → m.waiters = []

/-! ## Setting an event -/

/-- Setting an event turns the task that waits for it into an owner. -/
theorem total_owns_set (flag : Nat → Bool) (e : Nat) (h : flag e = false) (ops : List Op) :
    total (owns (Function.update flag e true)) ops = total (owns flag) ops + total (waits e) ops := by
  induction ops with
  | nil => rfl
  | cons op ops ih =>
    have hop : owns (Function.update flag e true) op = owns flag op + waits e op := by
      cases op <;> simp only [owns, waits, Nat.add_zero] <;> rename_i x <;> by_cases hx : x = e <;> simp [hx, h]
    simp only [total_cons, ih, hop]
    omega

@[simp] theorem Mem.set_val (m : Mem K) (e : Nat) : (m.set e).val = m.val := rfl

@[simp] theorem Mem.set_mutex (m : Mem K) (e : Nat) : (m.set e).mutex = m.mutex := rfl

@[simp] theorem Mem.set_waiters (m : Mem K) (e : Nat) : (m.set e).waiters = m.waiters := rfl

@[simp] theorem Mem.set_next (m : Mem K) (e : Nat) : (m.set e).next = m.next := rfl

@[simp] theorem Mem.set_flag_self (m : Mem K) (e : Nat) : (m.set e).flag e = true := by simp [Mem.set]

theorem Mem.set_flag_ne (m : Mem K) {e e' : Nat} (h : e' ≠ e) : (m.set e).flag e' = m.flag e' := by
  simp [Mem.set, h]

/-- An event unset after `set e` was unset before, and is another one. -/
theorem Mem.unserved_set {m : Mem K} {e e' : Nat} : (m.set e).unserved e' ↔ m.unserved e' ∧ e' ≠ e := by
  by_cases h : e' = e
  · subst h; simp [Mem.unserved]
  · simp [Mem.unserved, m.set_flag_ne h, h]

/-! ## Steps that leave the queue and the events alone -/

/-- A step that touches neither the queue nor an event, and whose operations concern no event but those the operation it
performs concerned. -/
structure Quiet (m : Mem K) (op : Op) (m' : Mem K) (new : List Op) : Prop where
  waiters : m'.waiters = m.waiters
  flag : m'.flag = m.flag
  next : m'.next = m.next
  mutex : critical op ≤ m.mutex.toNat → critical op + m'.mutex.toNat = total critical new + m.mutex.toNat
  waits : ∀ e, total (waits e) new ≤ waits e op
  alive : ∀ e, m.flag e = false → total (Sync.waits e) new = Sync.waits e op
  popped : ∀ e, Op.releaseSet e ∉ new ∧ (op = Op.releaseSet e → m.flag e = true)
  putting : Op.put ∈ new → m.waiters = []

theorem Inv.frame {m m' : Mem K} {A B new : List Op} {op : Op} (h : Inv m (A ++ op :: B)) (hq : Quiet m op m' new) :
    Inv m' (A ++ (new ++ B)) := by
  have hu : ∀ e, m'.unserved e ↔ m.unserved e := fun e => by simp only [Mem.unserved, hq.flag, hq.next]
  refine ⟨?_, fun e => ?_, fun e he => ?_, fun e he => ?_, fun e he => ?_, ?_, ?_, fun e he => ?_, fun hpm => ?_⟩
  · have h1 := h.mutex
    have h2 := hq.mutex (by rw [← h1]; exact le_total_of_mem (by simp))
    simp only [total_append, total_cons] at h1 ⊢
    omega
  · have h1 := h.waiting e
    have h2 := hq.waits e
    simp only [total_append, total_cons] at h1 ⊢
    omega
  · have h1 := h.alive e ((hu e).mp he)
    have h2 := hq.alive e ((hu e).mp he).2
    simp only [total_append, total_cons] at h1 ⊢
    omega
  · have h1 := h.fresh e (hq.next ▸ he)
    have h2 := hq.waits e
    refine ⟨hq.flag ▸ h1.1, ?_⟩
    simp only [total_append, total_cons] at h1 ⊢
    omega
  · rw [hq.waiters]
    have he := (hu e).mp he
    refine (h.queued e he).imp_right (fun hmem => ?_)
    rcases List.mem_append.mp hmem with hmem | hmem
    · simp [hmem]
    · rcases List.mem_cons.mp hmem with hmem | hmem
      · have := (hq.popped e).2 hmem.symm
        rw [he.2] at this
        cases this
      · simp [hmem]
  · rw [hq.waiters, hq.next]
    exact h.bounded
  · rw [hq.waiters]
    exact h.sorted
  · rw [hq.waiters, hq.next]
    simp only [List.mem_append, (hq.popped e).1, false_or] at he
    exact h.popped e (by rcases he with he | he <;> simp [he])
  · rw [hq.waiters]
    simp only [List.mem_append] at hpm
    rcases hpm with hpm | hpm | hpm
    · exact h.putting (by simp [hpm])
    · exact hq.putting hpm
    · exact h.putting (by simp [hpm])

/-- No other `release` is under way while a task performs an operation with the mutex held. -/
theorem Inv.alone {m : Mem K} {A B : List Op} {op : Op} (h : Inv m (A ++ op :: B)) (hop : critical op = 1) :
    ∀ x ∈ A ++ B, critical x = 0 := by
  refine eq_zero_of_total_le (f := critical) ?_ hop
  rw [h.mutex]
  exact Bool.toNat_le _

theorem Inv.not_mem_of_critical {m : Mem K} {A B : List Op} {op : Op} (h : Inv m (A ++ op :: B)) (x : Op)
    (hop : critical op = 1) (hx : critical x = 1) : x ∉ A ∧ x ∉ B := by
  have := h.alone hop x
  refine ⟨fun hA => ?_, fun hB => ?_⟩
  · have := this (List.mem_append_left _ hA)
    omega
  · have := this (List.mem_append_right _ hB)
    omega

/-! ## The steps that change the queue or an event -/

/-- `acquire` pushes a new event at the end of the queue. -/
theorem Inv.push {m : Mem K} {A B : List Op} (h : Inv m (A ++ Op.acquireSlow :: B)) :
    Inv { m with waiters := m.waiters ++ [m.next], next := m.next + 1 } (A ++ ([.unlock, .wait m.next] ++ B)) := by
  have hnotin : ∀ e, Op.releaseSet e ∉ A ++ ([.unlock, .wait m.next] ++ B) := by
    intro e he
    have h1 := h.not_mem_of_critical (.releaseSet e) rfl rfl
    simp [h1.1, h1.2] at he
  have hput : Op.put ∉ A ++ ([.unlock, .wait m.next] ++ B) := by
    intro he
    have h1 := h.not_mem_of_critical .put rfl rfl
    simp [h1.1, h1.2] at he
  refine ⟨?_, fun e => ?_, fun e he => ?_, fun e he => ?_, fun e he => ?_, ?_, ?_, fun e he => ?_, fun hpm => ?_⟩
  · have := h.mutex
    simp only [total_append, total_cons, total_nil, critical] at this ⊢
    omega
  · have h1 := h.waiting e
    have h2 := fun hle => (h.fresh e hle).2
    by_cases hx : m.next = e
    · have := h2 (by omega)
      simp only [total_append, total_cons, total_nil, waits, hx, if_true] at *
      omega
    · simp only [total_append, total_cons, total_nil, waits, hx, if_false] at *
      omega
  · by_cases hx : m.next = e
    · have := (h.fresh e (by omega)).2
      simp only [total_append, total_cons, total_nil, waits, hx, if_true] at *
      omega
    · have := h.alive e ⟨by have := he.1; simp only at this; omega, he.2⟩
      simp only [total_append, total_cons, total_nil, waits, hx, if_false] at *
      omega
  · have hx : m.next ≠ e := by simp only at he; omega
    have := h.fresh e (by simp only at he; omega)
    simp only [total_append, total_cons, total_nil, waits, hx, if_false] at *
    omega
  · left
    by_cases hx : e = m.next
    · simp [hx]
    · rcases h.queued e ⟨by have := he.1; simp only at this; omega, he.2⟩ with hq | hq
      · simp [hq]
      · have h1 := h.not_mem_of_critical (.releaseSet e) rfl rfl
        simp [h1.1, h1.2] at hq
  · intro e he
    simp only [List.mem_append, List.mem_singleton] at he
    rcases he with he | rfl
    · have := h.bounded e he
      simp only
      omega
    · simp
  · simp only [List.pairwise_append, List.pairwise_cons, List.not_mem_nil, false_imp_iff, implies_true, List.Pairwise.nil,
      and_true, true_and, List.mem_singleton, forall_eq]
    exact ⟨h.sorted, h.bounded⟩
  · exact absurd he (hnotin e)
  · exact absurd hpm hput

/-- `release` pops the first event of the queue. -/
theorem Inv.pop {m : Mem K} {A B : List Op} {e : Nat} {ws : List Nat} (h : Inv m (A ++ Op.releaseNext :: B))
    (hw : m.waiters = e :: ws) : Inv { m with waiters := ws } (A ++ ([.releaseSet e] ++ B)) := by
  have hs := h.sorted
  rw [hw, List.pairwise_cons] at hs
  have hnotin : ∀ e', Op.releaseSet e' ∈ A ++ ([.releaseSet e] ++ B) → e' = e := by
    intro e' he
    have h1 := h.not_mem_of_critical (.releaseSet e') rfl rfl
    simpa [h1.1, h1.2] using he
  refine ⟨?_, fun x => ?_, fun x hx => ?_, fun x hx => ?_, fun x hx => ?_, fun x hx => ?_, hs.2, fun x hx => ?_, fun hpm => ?_⟩
  · have := h.mutex
    simp only [total_append, total_cons, total_nil, critical] at this ⊢
    omega
  · have := h.waiting x
    simp only [total_append, total_cons, total_nil, waits] at this ⊢
    omega
  · have := h.alive x hx
    simp only [total_append, total_cons, total_nil, waits] at this ⊢
    omega
  · have := h.fresh x hx
    simp only [total_append, total_cons, total_nil, waits] at this ⊢
    omega
  · rcases h.queued x hx with hq | hq
    · rw [hw] at hq
      rcases List.mem_cons.mp hq with rfl | hq
      · exact Or.inr (by simp)
      · exact Or.inl hq
    · have h1 := h.not_mem_of_critical (.releaseSet x) rfl rfl
      simp [h1.1, h1.2] at hq
  · exact h.bounded x (by rw [hw]; exact List.mem_cons_of_mem _ hx)
  · obtain rfl := hnotin x hx
    exact ⟨h.bounded x (by rw [hw]; exact List.mem_cons_self), hs.1⟩
  · have h1 := h.not_mem_of_critical .put rfl rfl
    simp [h1.1, h1.2] at hpm

/-- An event is set: by the `release` that popped it, or by its own waiter that was cancelled. -/
theorem Inv.set {m : Mem K} {A B new : List Op} {op : Op} {e : Nat} (h : Inv m (A ++ op :: B)) (hu : m.unserved e)
    (hop : op = .releaseSet e ∧ new = [.unlock] ∨ op = .cancelled e ∧ new = []) : Inv (m.set e) (A ++ (new ++ B)) := by
  have hnew : ∀ x, x ∈ A ++ (new ++ B) → x ∈ A ++ op :: B ∨ x = .unlock := by
    intro x hx
    rcases hop with ⟨rfl, rfl⟩ | ⟨rfl, rfl⟩ <;> simp only [List.mem_append, List.mem_cons, List.not_mem_nil] at hx ⊢ <;> grind
  have hwt : ∀ x, total (waits x) (A ++ (new ++ B)) ≤ total (waits x) (A ++ op :: B) := by
    intro x
    rcases hop with ⟨rfl, rfl⟩ | ⟨rfl, rfl⟩ <;> simp only [total_append, total_cons, total_nil, waits] <;> omega
  refine ⟨?_, fun x => ?_, fun x hx => ?_, fun x hx => ?_, fun x hx => ?_, h.bounded, h.sorted, fun x hx => ?_, fun hpm => ?_⟩
  · have := h.mutex
    rcases hop with ⟨rfl, rfl⟩ | ⟨rfl, rfl⟩ <;>
      simp only [total_append, total_cons, total_nil, critical, Mem.set_mutex] at this ⊢ <;> omega
  · exact Nat.le_trans (hwt x) (h.waiting x)
  · obtain ⟨hx, hne⟩ := Mem.unserved_set.mp hx
    have := h.alive x hx
    rcases hop with ⟨rfl, rfl⟩ | ⟨rfl, rfl⟩
    · simpa only [total_append, total_cons, total_nil, waits, Nat.zero_add, Nat.add_zero] using this
    · simpa only [total_append, total_cons, total_nil, waits, Nat.zero_add, if_neg (Ne.symm hne)] using this
  · have h1 := h.fresh x hx
    have hne : x ≠ e := by
      rintro rfl
      have := hu.1
      simp only [Mem.set] at hx
      omega
    exact ⟨by rw [m.set_flag_ne hne]; exact h1.1, by have := hwt x; omega⟩
  · obtain ⟨hx, hne⟩ := Mem.unserved_set.mp hx
    rcases h.queued x hx with hq | hq
    · exact Or.inl hq
    · right
      rcases hop with ⟨rfl, rfl⟩ | ⟨rfl, rfl⟩ <;> simp only [List.mem_append, List.mem_cons, List.not_mem_nil] at hq ⊢ <;> grind
  · rcases hnew _ hx with hx | hx
    · exact h.popped x hx
    · cases hx
  · rcases hnew _ hpm with hx | hx
    · exact h.putting hx
    · cases hx

/-! ## What an operation does -/

/-- An operation is quiet, and then it takes, puts back, or leaves things as they are; or it pushes an event, pops one, or sets
one. -/
theorem exec_cases {P : Prim K} {m m' : Mem K} {op : Op} {c : Choice} {new : List Op} (he : P.exec m op c = some (m', new)) :
    (Quiet m op m' new ∧
      ((m'.val = m.val ∧ total (owns m.flag) new = owns m.flag op) ∨
        (P.take m.val m.waiters.length = some m'.val ∧ total (owns m.flag) new = owns m.flag op + 1) ∨
        (op = .put ∧ m'.val = P.put m.val ∧ total (owns m.flag) new + 1 = owns m.flag op))) ∨
    (op = .acquireSlow ∧ P.take m.val m.waiters.length = none ∧ new = [.unlock, .wait m.next] ∧
      m' = { m with waiters := m.waiters ++ [m.next], next := m.next + 1 }) ∨
    (∃ e ws, op = .releaseNext ∧ m.waiters = e :: ws ∧ m' = { m with waiters := ws } ∧ new = [.releaseSet e]) ∨
    (∃ e, m.flag e = false ∧ m' = m.set e ∧ (op = .releaseSet e ∧ new = [.unlock] ∨ op = .cancelled e ∧ new = [])) := by
  cases c with
  | cancel =>
    cases op with
    | wait e =>
      obtain ⟨rfl, rfl⟩ : m = m' ∧ [Op.cancelled e] = new := by simpa [Prim.exec] using he
      exact Or.inl ⟨by constructor <;> simp [critical, waits], Or.inl ⟨rfl, by simp [owns]⟩⟩
    | _ => simp [Prim.exec] at he
  | go =>
    cases op with
    | acquire =>
      simp only [Prim.exec] at he
      split at he
      · split at he
        · rename_i v hv
          obtain ⟨rfl, rfl⟩ : { m with val := v } = m' ∧ [Op.owner] = new := by simpa using he
          exact Or.inl ⟨by constructor <;> simp [critical, waits], Or.inr (Or.inl ⟨hv, by simp [owns]⟩)⟩
        · obtain ⟨rfl, rfl⟩ : m = m' ∧ [Op.acquireLock] = new := by simpa using he
          exact Or.inl ⟨by constructor <;> simp [critical, waits], Or.inl ⟨rfl, by simp [owns]⟩⟩
      · obtain ⟨rfl, rfl⟩ : m = m' ∧ [Op.acquireLock] = new := by simpa using he
        exact Or.inl ⟨by constructor <;> simp [critical, waits], Or.inl ⟨rfl, by simp [owns]⟩⟩
    | acquireLock =>
      obtain ⟨hm, rfl, rfl⟩ : m.mutex = false ∧ { m with mutex := true } = m' ∧ [Op.acquireSlow] = new := by
        simpa [Prim.exec] using he
      exact Or.inl ⟨by constructor <;> simp [critical, waits, hm], Or.inl ⟨rfl, by simp [owns]⟩⟩
    | acquireSlow =>
      simp only [Prim.exec, Prim.slow] at he
      split at he
      · rename_i v hv
        obtain ⟨rfl, rfl⟩ : { m with val := v } = m' ∧ [Op.unlock, Op.owner] = new := by simpa using he
        exact Or.inl ⟨by constructor <;> simp [critical, waits], Or.inr (Or.inl ⟨hv, by simp [owns]⟩)⟩
      · rename_i hv
        simp only [Option.some.injEq, Prod.mk.injEq] at he
        exact Or.inr (Or.inl ⟨rfl, hv, he.2.symm, he.1.symm⟩)
    | tryAcquire =>
      simp only [Prim.exec] at he
      split at he
      · split at he
        · rename_i v hv
          obtain ⟨rfl, rfl⟩ : { m with val := v } = m' ∧ [Op.owner] = new := by simpa using he
          exact Or.inl ⟨by constructor <;> simp [critical, waits], Or.inr (Or.inl ⟨hv, by simp [owns]⟩)⟩
        · obtain ⟨rfl, rfl⟩ : m = m' ∧ [] = new := by simpa using he
          exact Or.inl ⟨by constructor <;> simp [critical, waits], Or.inl ⟨rfl, by simp [owns]⟩⟩
      · obtain ⟨rfl, rfl⟩ : m = m' ∧ [Op.tryLock] = new := by simpa using he
        exact Or.inl ⟨by constructor <;> simp [critical, waits], Or.inl ⟨rfl, by simp [owns]⟩⟩
    | tryLock =>
      obtain ⟨hm, rfl, rfl⟩ : m.mutex = false ∧ { m with mutex := true } = m' ∧ [Op.trySlow] = new := by
        simpa [Prim.exec] using he
      exact Or.inl ⟨by constructor <;> simp [critical, waits, hm], Or.inl ⟨rfl, by simp [owns]⟩⟩
    | trySlow =>
      simp only [Prim.exec] at he
      split at he
      · rename_i v hv
        obtain ⟨rfl, rfl⟩ : { m with val := v } = m' ∧ [Op.unlock, Op.owner] = new := by simpa using he
        exact Or.inl ⟨by constructor <;> simp [critical, waits], Or.inr (Or.inl ⟨hv, by simp [owns]⟩)⟩
      · obtain ⟨rfl, rfl⟩ : m = m' ∧ [Op.unlock] = new := by simpa using he
        exact Or.inl ⟨by constructor <;> simp [critical, waits], Or.inl ⟨rfl, by simp [owns]⟩⟩
    | wait e =>
      obtain ⟨hf, rfl, rfl⟩ : m.flag e = true ∧ m = m' ∧ [Op.owner] = new := by simpa [Prim.exec] using he
      refine Or.inl ⟨?_, Or.inl ⟨rfl, by simp [owns, hf]⟩⟩
      constructor <;> simp [critical, waits]
      rintro x hx rfl
      rw [hf] at hx
      cases hx
    | cancelled e =>
      simp only [Prim.exec] at he
      split at he
      · rename_i hf
        obtain ⟨rfl, rfl⟩ : m = m' ∧ [Op.release] = new := by simpa using he
        refine Or.inl ⟨?_, Or.inl ⟨rfl, by simp [owns, hf]⟩⟩
        constructor <;> simp [critical, waits]
        rintro x hx rfl
        rw [hf] at hx
        cases hx
      · rename_i hf
        obtain ⟨rfl, rfl⟩ : m.set e = m' ∧ [] = new := by simpa using he
        exact Or.inr (Or.inr (Or.inr ⟨e, by simpa using hf, rfl, Or.inr ⟨rfl, rfl⟩⟩))
    | owner =>
      obtain ⟨rfl, rfl⟩ : m = m' ∧ [Op.release] = new := by simpa [Prim.exec] using he
      exact Or.inl ⟨by constructor <;> simp [critical, waits], Or.inl ⟨rfl, by simp [owns]⟩⟩
    | release =>
      obtain ⟨hm, rfl, rfl⟩ : m.mutex = false ∧ { m with mutex := true } = m' ∧ [Op.releaseNext] = new := by
        simpa [Prim.exec] using he
      exact Or.inl ⟨by constructor <;> simp [critical, waits, hm], Or.inl ⟨rfl, by simp [owns]⟩⟩
    | releaseNext =>
      simp only [Prim.exec] at he
      split at he
      · rename_i e ws hw
        simp only [Option.some.injEq, Prod.mk.injEq] at he
        exact Or.inr (Or.inr (Or.inl ⟨e, ws, rfl, hw, he.1.symm, he.2.symm⟩))
      · rename_i hw
        obtain ⟨rfl, rfl⟩ : m = m' ∧ [Op.put] = new := by simpa using he
        exact Or.inl ⟨by constructor <;> simp [critical, waits, hw], Or.inl ⟨rfl, by simp [owns]⟩⟩
    | releaseSet e =>
      simp only [Prim.exec] at he
      split at he
      · rename_i hf
        obtain ⟨rfl, rfl⟩ : m = m' ∧ [Op.releaseNext] = new := by simpa using he
        exact Or.inl ⟨by constructor <;> simp [critical, waits, hf], Or.inl ⟨rfl, by simp [owns]⟩⟩
      · rename_i hf
        obtain ⟨rfl, rfl⟩ : m.set e = m' ∧ [Op.unlock] = new := by simpa using he
        exact Or.inr (Or.inr (Or.inr ⟨e, by simpa using hf, rfl, Or.inl ⟨rfl, rfl⟩⟩))
    | put =>
      obtain ⟨rfl, rfl⟩ : { m with val := P.put m.val } = m' ∧ [Op.unlock] = new := by simpa [Prim.exec] using he
      exact Or.inl ⟨by constructor <;> simp [critical, waits], Or.inr (Or.inr ⟨rfl, rfl, by simp [owns]⟩)⟩
    | unlock =>
      obtain ⟨rfl, rfl⟩ : { m with mutex := false } = m' ∧ [] = new := by simpa [Prim.exec] using he
      refine Or.inl ⟨?_, Or.inl ⟨rfl, by simp [owns]⟩⟩
      constructor <;> simp [critical, waits]
      intro hm
      exact Nat.le_antisymm hm (Bool.toNat_le _)

/-- An `acquire` parks when its attempt fails. -/
theorem parks_iff {P : Prim K} {m m' : Mem K} {new : List Op} (he : P.exec m .acquireSlow .go = some (m', new)) :
    .wait m.next ∈ new ↔ P.take m.val m.waiters.length = none := by
  simp only [Prim.exec, Prim.slow, Option.some.injEq] at he
  split at he
  · rename_i hv
    obtain ⟨-, rfl⟩ := Prod.mk.inj he
    simp [hv]
  · rename_i hv
    obtain ⟨-, rfl⟩ := Prod.mk.inj he
    simp [hv]

/-- A `try_acquire` raises when its attempt fails. -/
theorem raises_iff {P : Prim K} {m m' : Mem K} {new : List Op} (he : P.exec m .trySlow .go = some (m', new)) :
    .owner ∉ new ↔ P.take m.val m.waiters.length = none := by
  simp only [Prim.exec] at he
  split at he
  · rename_i hv
    obtain ⟨-, rfl⟩ := Prod.mk.inj (Option.some.inj he)
    simp [hv]
  · rename_i hv
    obtain ⟨-, rfl⟩ := Prod.mk.inj (Option.some.inj he)
    simp [hv]

/-- An event that is about to be set, and is not set yet, has a waiter that is not served. -/
theorem Inv.unserved_of_set {m : Mem K} {A B new : List Op} {op : Op} {e : Nat} (h : Inv m (A ++ op :: B)) (hf : m.flag e = false)
    (hop : op = .releaseSet e ∧ new = [.unlock] ∨ op = .cancelled e ∧ new = []) : m.unserved e := by
  refine ⟨?_, hf⟩
  by_contra hge
  have hfr := (h.fresh e (by omega)).2
  rcases hop with ⟨rfl, rfl⟩ | ⟨rfl, rfl⟩
  · exact absurd (h.popped e (by simp)).1 hge
  · simp only [total_append, total_cons, waits, if_true] at hfr
    omega

/-- Every operation keeps the invariant. -/
theorem Inv.exec {P : Prim K} {m m' : Mem K} {A B new : List Op} {op : Op} {c : Choice} (h : Inv m (A ++ op :: B))
    (he : P.exec m op c = some (m', new)) : Inv m' (A ++ (new ++ B)) := by
  rcases exec_cases he with ⟨hq, -⟩ | ⟨rfl, -, rfl, rfl⟩ | ⟨e, ws, rfl, hw, rfl, rfl⟩ | ⟨e, hf, rfl, hop⟩
  · exact h.frame hq
  · exact h.push
  · exact h.pop hw
  · exact h.set (h.unserved_of_set hf hop) hop

/-- A task that starts waits for nothing and holds nothing. -/
theorem Inv.start {m : Mem K} {ops : List Op} (op : Op) (h : Inv m ops) (hc : critical op = 0) (hw : ∀ e, waits e op = 0) :
    Inv m (ops ++ [op]) := by
  have hwt : ∀ e, total (waits e) (ops ++ [op]) = total (waits e) ops := fun e => by simp [hw e]
  refine ⟨?_, fun e => ?_, fun e he => ?_, fun e he => ?_, fun e he => ?_, h.bounded, h.sorted, fun e he => ?_, fun hp => ?_⟩
  · rw [total_append, total_cons, total_nil, hc, h.mutex]
    omega
  · rw [hwt]
    exact h.waiting e
  · rw [hwt]
    exact h.alive e he
  · rw [hwt]
    exact h.fresh e he
  · exact (h.queued e he).imp_right (fun hm => List.mem_append_left _ hm)
  · rcases List.mem_append.mp he with he | he
    · exact h.popped e he
    · rw [← List.mem_singleton.mp he] at hc
      cases hc
  · rcases List.mem_append.mp hp with hp | hp
    · exact h.putting hp
    · rw [← List.mem_singleton.mp hp] at hc
      cases hc

/-- A call starts a task. -/
theorem Inv.call {m m' : Mem K} {ops new : List Op} {l : Call} (h : Inv m ops) (hc : Prim.call m l = some (m', new)) :
    Inv m' (ops ++ new) := by
  cases l with
  | acquire =>
    obtain ⟨rfl, rfl⟩ := Prod.mk.inj (Option.some.inj hc)
    exact h.start .acquire rfl (fun _ => rfl)
  | tryAcquire =>
    obtain ⟨rfl, rfl⟩ := Prod.mk.inj (Option.some.inj hc)
    exact h.start .tryAcquire rfl (fun _ => rfl)

/-- Around a new primitive nobody waits. -/
theorem Inv.initial (v : K) : Inv (initial v).mem (initial v).ops := by
  refine ⟨?_, ?_, ?_, ?_, ?_, ?_, ?_, ?_, ?_⟩ <;> simp [Sync.initial, State.ops, Mem.unserved]

/-! ## The balance of what is free and who owns -/

/-- A measure of what is free: the attempt takes one of it, in the memories where it can be trusted, and putting back adds one. -/
structure Measured (P : Prim K) (n : Nat) (units : K → Nat) (fits : Mem K → Prop) : Prop where
  take : ∀ (m : Mem K) (v : K), fits m → units m.val ≤ n → P.take m.val m.waiters.length = some v →
    units m.val = units v + 1
  put : ∀ v, units v < n → units (P.put v) = units v + 1

/-- The invariant, and the balance: what is free and what is owned make up what there was. -/
structure Balanced (n : Nat) (units : K → Nat) (m : Mem K) (ops : List Op) : Prop extends Inv m ops where
  balance : units m.val + total (owns m.flag) ops = n

section Runs

variable {P : Prim K} {n : Nat} {units : K → Nat} {fits : Mem K → Prop}

/-- Every operation keeps the invariant and the balance. -/
theorem Balanced.exec {m m' : Mem K} {A B new : List Op} {op : Op} {c : Choice} (hP : Measured P n units fits)
    (h : Balanced n units m (A ++ op :: B)) (hfit : fits m) (he : P.exec m op c = some (m', new)) :
    Balanced n units m' (A ++ (new ++ B)) := by
  have hb := h.balance
  rw [total_append, total_cons] at hb
  refine ⟨h.toInv.exec he, ?_⟩
  rcases exec_cases he with ⟨hq, hval⟩ | ⟨rfl, -, rfl, rfl⟩ | ⟨e, ws, rfl, hw, rfl, rfl⟩ | ⟨e, hf, rfl, hop⟩
  · rw [hq.flag, total_append, total_append]
    rcases hval with ⟨hv, ho⟩ | ⟨hv, ho⟩ | ⟨-, hv, ho⟩
    · rw [hv]
      omega
    · have := hP.take m _ hfit (by omega) hv
      omega
    · rw [hv, hP.put _ (by omega)]
      omega
  · have hnew := (h.fresh m.next (Nat.le_refl _)).1
    simp only [total_append, total_cons, total_nil, owns, hnew, Bool.false_eq_true, if_false] at hb ⊢
    omega
  · simp only [total_append, total_cons, total_nil, owns] at hb ⊢
    omega
  · -- the event has a waiter, and the waiter becomes the owner in place of the task that releases
    have hal := h.alive e (h.toInv.unserved_of_set hf hop)
    rw [Mem.set_val, show (m.set e).flag = Function.update m.flag e true from rfl, total_owns_set _ _ hf]
    rcases hop with ⟨rfl, rfl⟩ | ⟨rfl, rfl⟩
    · simp only [total_append, total_cons, total_nil, waits, owns] at hal hb ⊢
      omega
    · simp only [total_append, total_cons, total_nil, waits, owns, hf, if_true, Bool.false_eq_true, if_false] at hal hb ⊢
      omega

/-- A call starts a task that does not own anything. -/
theorem Balanced.call {m m' : Mem K} {ops new : List Op} {l : Call} (h : Balanced n units m ops)
    (hc : Prim.call m l = some (m', new)) : Balanced n units m' (ops ++ new) := by
  refine ⟨h.toInv.call hc, ?_⟩
  have hnew : m' = m ∧ (new = [.acquire] ∨ new = [.tryAcquire]) := by
    cases l <;> simp only [Prim.call, Option.some.injEq, Prod.mk.injEq] at hc <;> simp [← hc.1, ← hc.2]
  obtain ⟨rfl, hnew⟩ := hnew
  have hown : total (owns m'.flag) new = 0 := by rcases hnew with rfl | rfl <;> simp [owns]
  rw [total_append, hown]
  exact h.balance

/-- Around a new primitive nobody waits and nobody owns. -/
theorem Balanced.initial (units : K → Nat) (v : K) : Balanced (units v) units (initial v).mem (initial v).ops :=
  ⟨Inv.initial v, by simp [Sync.initial, State.ops]⟩

/-- The invariant and the balance hold in every state reached while the attempt can be trusted. -/
theorem Balanced.reach (units : K → Nat) {ok : Mem K → List Op → Act Op Choice Call → Prop} {v : K} {s : State (Mem K) Op}
    (hP : Measured P (units v) units fits) (hok : ∀ m ops a, ok m ops a → fits m)
    (h : P.machine.Reach ok (Sync.initial v) s) : Balanced (units v) units s.mem s.ops :=
  h.invariant (I := Balanced (units v) units) (Balanced.initial units v)
    (fun _ _ _ _ _ _ _ hI hk he => hI.exec hP (hok _ _ _ hk) he) (fun _ _ _ _ _ hI _ hc => hI.call hc)

end Runs

/-! ## Handing over -/

/-- A `release` that sets an event serves the earliest waiter that is neither served nor cancelled: the event has its waiter, and
no unset event came before it. -/
theorem Inv.serves_earliest {m : Mem K} {ops : List Op} {e : Nat} (h : Inv m ops) (hmem : Op.releaseSet e ∈ ops)
    (hf : m.flag e = false) :
    (Op.wait e ∈ ops ∨ Op.cancelled e ∈ ops) ∧ ∀ e', m.unserved e' → e ≤ e' := by
  have hpop := h.popped e hmem
  refine ⟨?_, fun e' he' => ?_⟩
  · have hal := h.alive e ⟨hpop.1, hf⟩
    obtain ⟨op, hop, hpos⟩ := total_pos_iff.mp (by omega : 0 < total (waits e) ops)
    cases op with
    | wait x =>
      by_cases hx : x = e
      · exact Or.inl (hx ▸ hop)
      · simp [waits, hx] at hpos
    | cancelled x =>
      by_cases hx : x = e
      · exact Or.inr (hx ▸ hop)
      · simp [waits, hx] at hpos
    | _ => simp [waits] at hpos
  · rcases h.queued e' he' with hq | hq
    · exact Nat.le_of_lt (hpop.2 e' hq)
    · -- the mutex admits one `release` at a time
      obtain ⟨A, B, rfl⟩ := List.append_of_mem hmem
      rcases List.mem_append.mp hq with hq | hq
      · exact absurd hq (h.not_mem_of_critical _ rfl rfl).1
      · rcases List.mem_cons.mp hq with hq | hq
        · injection hq with hq
          omega
        · exact absurd hq (h.not_mem_of_critical _ rfl rfl).2

/-- A `release` puts back only when nobody is left to be served. -/
theorem Inv.puts_alone {m : Mem K} {ops : List Op} (h : Inv m ops) (hmem : Op.put ∈ ops) (e : Nat) : ¬m.unserved e := by
  intro he
  rcases h.queued e he with hq | hq
  · rw [h.putting hmem] at hq
    cases hq
  · obtain ⟨A, B, rfl⟩ := List.append_of_mem hmem
    have h1 := h.not_mem_of_critical (.releaseSet e) rfl rfl
    simp [h1.1, h1.2] at hq

/-- The step of a `release` that sets an event: the event's waiter becomes the owner, and it is the earliest one to be served. -/
theorem Inv.step_serves {P : Prim K} {s s' : State (Mem K) Op} {e : Nat} (h : Inv s.mem s.ops)
    (hs : P.machine.Step s (.exec (.releaseSet e) .go) s') (hf : s.mem.flag e = false) :
    s'.mem.flag e = true ∧ (Op.wait e ∈ s'.ops ∨ Op.cancelled e ∈ s'.ops) ∧ ∀ e', s.mem.unserved e' → e ≤ e' := by
  rcases hs.ops_eq with ⟨A, op, B, c, new, hop, ho, he, ho'⟩ | ⟨l, new, hop, -, -⟩
  · injection hop with hop hc
    subst hop hc
    obtain ⟨hm, rfl⟩ : s.mem.set e = s'.mem ∧ [Op.unlock] = new := by simpa [Prim.machine, Prim.exec, hf] using he
    obtain ⟨hw, hmin⟩ := h.serves_earliest (e := e) (by simp [ho]) hf
    refine ⟨by simp [← hm], ?_, hmin⟩
    simp only [ho, ho', List.mem_append, List.mem_cons, List.not_mem_nil, or_false, reduceCtorEq, false_or] at hw ⊢
    exact hw
  · cases hop

/-- The step of a `release` that puts back: nobody is left to be served. -/
theorem Inv.step_puts {P : Prim K} {s s' : State (Mem K) Op} (h : Inv s.mem s.ops)
    (hs : P.machine.Step s (.exec .put .go) s') : s'.mem.val = P.put s.mem.val ∧ ∀ e, ¬s.mem.unserved e := by
  rcases hs.ops_eq with ⟨A, op, B, c, new, hop, ho, he, -⟩ | ⟨l, new, hop, -, -⟩
  · injection hop with hop hc
    subst hop hc
    obtain ⟨hm, -⟩ : { s.mem with val := P.put s.mem.val } = s'.mem ∧ [Op.unlock] = new := by
      simpa [Prim.machine, Prim.exec] using he
    exact ⟨by simp [← hm], h.puts_alone (by simp [ho])⟩
  · cases hop

end Tonio.Sync
