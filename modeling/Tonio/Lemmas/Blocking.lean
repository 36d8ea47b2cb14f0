import Tonio.Blocking

/-!
# What the steps of the blocking pool do

`Move` lists the steps of the pool by what they change. From it come the counts (`Placed`): a thread of the pool is at one place of
its loop, and a task is in one place, the queue or the thread that took it.
-/

namespace Tonio.Blocking

open Interleaving

variable {α : Type} {tmax : Nat} {m m' : Mem α} {A B new ops : List (Op α)} {op : Op α} {c : Choice α} {t k : Nat}

/-! ## Updates of the memory -/

@[simp] theorem onCtl_ctl_self (m : Mem α) (k : Nat) (f : Ctl α → Ctl α) : (m.onCtl k f).ctl k = f (m.ctl k) := by
  simp [Mem.onCtl]

theorem onCtl_ctl_of_ne (m : Mem α) (f : Ctl α → Ctl α) {j k : Nat} (h : j ≠ k) : (m.onCtl k f).ctl j = m.ctl j := by
  simp [Mem.onCtl, h]

@[simp] theorem note_history_self (m : Mem α) (k : Nat) (e : Entry α) : (m.note k e).history k = m.history k ++ [e] := by
  simp [Mem.note]

theorem note_history_of_ne (m : Mem α) (e : Entry α) {j k : Nat} (h : j ≠ k) : (m.note k e).history j = m.history j := by
  simp [Mem.note, h]

@[simp] theorem note_ctl (m : Mem α) (k : Nat) (e : Entry α) : (m.note k e).ctl = m.ctl := rfl

@[simp] theorem onCtl_history (m : Mem α) (k : Nat) (f : Ctl α → Ctl α) : (m.onCtl k f).history = m.history := rfl

/-! ## The steps -/

/-- What an operation does. -/
inductive Move (tmax : Nat) (m : Mem α) : Op α → Choice α → Mem α → List (Op α) → Prop where
  | send (k : Nat) : Move tmax m (.send k) .go { m with queue := m.queue ++ [k] } [.takeBudget]
  | takeBudget : Move tmax m .takeBudget .go { m with budget := m.budget - 1 } (if m.budget ≤ 0 then [.loadThreads] else [])
  | loadThreads : Move tmax m .loadThreads .go m (if m.threads < tmax then [.incThreads] else [])
  | start (t : Nat) (ht : 0 < t) (ha : m.alive t = false) :
      Move tmax m .incThreads (.ident t) ({ m with threads := m.threads + 1 }.setAlive t true) [.giveBudget t]
  | full : Move tmax m .incThreads .go { m with threads := m.threads + 1 } [.undoThreads]
  | undoThreads : Move tmax m .undoThreads .go { m with threads := m.threads - 1 } []
  | giveBudget (t : Nat) : Move tmax m (.giveBudget t) .go { m with budget := m.budget + 1 } [.recv t]
  | recv (t : Nat) {k : Nat} {q : List Nat} (hq : m.queue = k :: q) : Move tmax m (.recv t) .go { m with queue := q } [.beginTid t k]
  | timeout (t : Nat) : Move tmax m (.recv t) .timeout m [.idleBudget t]
  | idleBudget (t : Nat) : Move tmax m (.idleBudget t) .go { m with budget := m.budget - 1 } [.idleThreads t]
  | idleThreads (t : Nat) : Move tmax m (.idleThreads t) .go { m with threads := m.threads - 1 } [.tryRecv t]
  | tryRecv (t : Nat) {k : Nat} {q : List Nat} (hq : m.queue = k :: q) :
      Move tmax m (.tryRecv t) .go { m with queue := q } [.backThreads t k]
  | stop (t : Nat) : Move tmax m (.tryRecv t) .go (m.setAlive t false) []
  | backThreads (t k : Nat) : Move tmax m (.backThreads t k) .go { m with threads := m.threads + 1 } [.backBudget t k]
  | backBudget (t k : Nat) : Move tmax m (.backBudget t k) .go { m with budget := m.budget + 1 } [.beginTid t k]
  | cleanup (t k : Nat) : Move tmax m (.cleanup t k) .go (m.setAsyncExc t none) [.giveBudget t]
  | beginTid (t k : Nat) : Move tmax m (.beginTid t k) .go (m.onCtl k (fun c => { c with tid := t })) [.beginState t k]
  | begun (t k : Nat) (hs : (m.ctl k).state = .queued) :
      Move tmax m (.beginState t k) .go ((m.onCtl k (fun c => { c with state := .running })).note k (.took (.runner t)))
        [.invoke t k]
  | refused (t k : Nat) (hs : (m.ctl k).state ≠ .queued) : Move tmax m (.beginState t k) .go m [.beginUndo t k]
  | beginUndo (t k : Nat) : Move tmax m (.beginUndo t k) .go (m.onCtl k (fun c => { c with tid := 0 })) [.cleanup t k]
  | invoke (t k : Nat) : Move tmax m (.invoke t k) .go (m.note k .invoked) [.callable t k]
  | interrupt (t k : Nat) {j : Nat} (hj : m.asyncExc t = some j) :
      Move tmax m (.callable t k) .interrupt { m.setAsyncExc t none with raised := (k, j) :: m.raised } [.callable t k]
  | finish (t k : Nat) (o : Outcome α) : Move tmax m (.callable t k) (.finish o) m [.store0 (.runner t) k o]
  | store0 (p : Party) (k : Nat) (o : Outcome α) :
      Move tmax m (.store0 p k o) .go (m.store p k 0 (.bool o.failed)) [.store1 p k o]
  | store1 (p : Party) (k : Nat) (o : Outcome α) : Move tmax m (.store1 p k o) .go (m.store p k 1 o.value) [afterStore p k]
  | finishTid (t k : Nat) : Move tmax m (.finishTid t k) .go (m.onCtl k (fun c => { c with tid := 0 })) [.finishState t k]
  | finishState (t k : Nat) :
      Move tmax m (.finishState t k) .go (m.onCtl k (fun c => { c with state := .done })) [.notify (.runner t) k]
  | notify (p : Party) (k : Nat) :
      Move tmax m (.notify p k) .go ((m.onCtl k (fun c => { c with event := true })).note k (.notified p)) (afterNotify p k)
  | cancelled (n k : Nat) (hs : (m.ctl k).state = .queued) :
      Move tmax m (.cancel n k) .go ((m.onCtl k (fun c => { c with state := .cancelled })).note k (.took (.abort n)))
        [.store0 (.abort n) k ⟨true, .cancelled⟩]
  | late (n k : Nat) (hs : (m.ctl k).state ≠ .queued) : Move tmax m (.cancel n k) .go m [.isRunning n k]
  | isRunning (n k : Nat) : Move tmax m (.isRunning n k) .go m (if (m.ctl k).state = .running then [.loadTid n k] else [])
  | loadTid (n k : Nat) : Move tmax m (.loadTid n k) .go m (if 0 < (m.ctl k).tid then [.inject n (m.ctl k).tid k] else [])
  | inject (n t k : Nat) : Move tmax m (.inject n t k) .go (m.setAsyncExc t (some k)) []

/-- Every step is one of these. -/
theorem exec_move (he : exec tmax m op c = some (m', new)) : Move tmax m op c m' new := by
  cases op
  all_goals
    cases c <;> simp only [exec, reduceCtorEq, Option.some.injEq, Prod.mk.injEq] at he
  case incThreads.ident t =>
    split at he
    · rename_i h
      obtain ⟨rfl, rfl⟩ : _ ∧ _ := by simpa using he
      exact .start t h.2.1 h.2.2
    · cases he
  case incThreads.go =>
    split at he
    · cases he
    · obtain ⟨rfl, rfl⟩ : _ ∧ _ := by simpa using he
      exact .full
  case recv.go t =>
    split at he
    · rename_i hq
      obtain ⟨rfl, rfl⟩ : _ ∧ _ := by simpa using he
      exact .recv t hq
    · cases he
  case tryRecv.go t =>
    split at he
    · rename_i hq
      obtain ⟨rfl, rfl⟩ : _ ∧ _ := by simpa using he
      exact .tryRecv t hq
    · obtain ⟨rfl, rfl⟩ : _ ∧ _ := by simpa using he
      exact .stop t
  case beginState.go t k =>
    split at he
    · rename_i hs
      obtain ⟨rfl, rfl⟩ : _ ∧ _ := by simpa using he
      exact .begun t k hs
    · rename_i hs
      obtain ⟨rfl, rfl⟩ : _ ∧ _ := by simpa using he
      exact .refused t k hs
  case callable.interrupt t k =>
    split at he
    · rename_i hj
      obtain ⟨rfl, rfl⟩ : _ ∧ _ := by simpa using he
      exact .interrupt t k hj
    · cases he
  case cancel.go n k =>
    split at he
    · rename_i hs
      obtain ⟨rfl, rfl⟩ : _ ∧ _ := by simpa using he
      exact .cancelled n k hs
    · rename_i hs
      obtain ⟨rfl, rfl⟩ : _ ∧ _ := by simpa using he
      exact .late n k hs
  all_goals
    obtain ⟨rfl, rfl⟩ := he
    constructor

/-! ## Where the threads and the tasks are -/

/-- Whether an operation belongs to a thread. -/
def onThread (t : Nat) (op : Op α) : Nat := isAt op.thread t

/-- Whether an operation has a task in its hands. -/
def holding (k : Nat) (op : Op α) : Nat := isAt op.holds k

/-- A thread that is alive is at one place, and a task that was submitted is in at most one. -/
structure Placed (m : Mem α) (ops : List (Op α)) : Prop where
  threads : ∀ t, total (onThread t) ops = (m.alive t).toNat
  tasks : ∀ k, total (holding k) ops + m.queue.count k ≤ 1
  fresh : ∀ k, m.next ≤ k → total (holding k) ops + m.queue.count k = 0

@[simp] theorem setAsyncExc_alive (m : Mem α) (t : Nat) (x : Option Nat) : (m.setAsyncExc t x).alive = m.alive := by
  unfold Mem.setAsyncExc
  split <;> rfl

@[simp] theorem setAsyncExc_queue (m : Mem α) (t : Nat) (x : Option Nat) : (m.setAsyncExc t x).queue = m.queue := by
  unfold Mem.setAsyncExc
  split <;> rfl

@[simp] theorem setAsyncExc_next (m : Mem α) (t : Nat) (x : Option Nat) : (m.setAsyncExc t x).next = m.next := by
  unfold Mem.setAsyncExc
  split <;> rfl

@[simp] theorem setAsyncExc_ctl (m : Mem α) (t : Nat) (x : Option Nat) : (m.setAsyncExc t x).ctl = m.ctl := by
  unfold Mem.setAsyncExc
  split <;> rfl

@[simp] theorem setAsyncExc_history (m : Mem α) (t : Nat) (x : Option Nat) : (m.setAsyncExc t x).history = m.history := by
  unfold Mem.setAsyncExc
  split <;> rfl

/-- A step leads from one place of a thread to one place of it, but for a thread that comes or goes. -/
theorem Move.threads (h : Move tmax m op c m' new) (t : Nat) (halive : ∀ t, op.thread = some t → m.alive t = true) :
    total (onThread t) new + (m.alive t).toNat = onThread t op + (m'.alive t).toNat := by
  cases h with
  | start u hu ha =>
    by_cases htu : t = u
    · subst htu
      simp [onThread, Op.thread, Mem.setAlive, ha]
    · simp [onThread, Op.thread, Mem.setAlive, htu, isAt_some_of_ne (Ne.symm htu)]
  | stop u =>
    by_cases htu : t = u
    · subst htu
      simp [onThread, Op.thread, Mem.setAlive, halive t rfl]
    · simp [onThread, Op.thread, Mem.setAlive, htu, isAt_some_of_ne (Ne.symm htu)]
  | takeBudget => split <;> simp [onThread, Op.thread]
  | loadThreads => split <;> simp [onThread, Op.thread]
  | isRunning n k => split <;> simp [onThread, Op.thread]
  | loadTid n k => split <;> simp [onThread, Op.thread]
  | store0 p k o => cases p <;> simp [onThread, Op.thread, Mem.store, Mem.note, Mem.onCtl]
  | store1 p k o => cases p <;> simp [onThread, Op.thread, afterStore, Mem.store, Mem.note, Mem.onCtl]
  | notify p k => cases p <;> simp [onThread, Op.thread, afterNotify, Mem.note, Mem.onCtl]
  | _ => simp [onThread, Op.thread, Mem.note, Mem.onCtl]

/-- A step leads from one place of a task to one place of it, and the cleanup leaves it behind. -/
theorem Move.tasks (h : Move tmax m op c m' new) (k : Nat) :
    total (holding k) new + m'.queue.count k ≤ holding k op + m.queue.count k := by
  cases h with
  | send j =>
    by_cases hjk : j = k
    · subst hjk
      simp [holding, Op.holds, Op.window, Nat.add_comm]
    · simp [holding, Op.holds, Op.window, isAt_some_of_ne hjk, hjk]
  | recv t hq | tryRecv t hq =>
    rename_i j q
    rw [hq]
    by_cases hjk : j = k
    · subst hjk
      simp [holding, Op.holds, Op.window, Nat.add_comm]
    · simp [holding, Op.holds, Op.window, isAt_some_of_ne hjk, hjk]
  | takeBudget | loadThreads | isRunning n j | loadTid n j => split <;> simp [holding, Op.holds, Op.window]
  | store0 p j o => cases p <;> simp [holding, Op.holds, Op.window, Mem.store, Mem.note, Mem.onCtl]
  | store1 p j o => cases p <;> simp [holding, Op.holds, Op.window, afterStore, Mem.store, Mem.note, Mem.onCtl]
  | notify p j => cases p <;> simp [holding, Op.holds, Op.window, afterNotify, Mem.note, Mem.onCtl]
  | _ => simp [holding, Op.holds, Op.window, Mem.note, Mem.onCtl, Mem.setAlive]

theorem Move.next_eq (h : Move tmax m op c m' new) : m'.next = m.next := by
  cases h <;> first | rfl | simp

/-- A thread whose operation is performed is alive. -/
theorem Placed.alive (h : Placed m (A ++ op :: B)) (ht : op.thread = some t) : m.alive t = true := by
  have := h.threads t
  cases ha : m.alive t with
  | true => rfl
  | false =>
    simp only [ha, total_append, total_cons, onThread, ht, isAt_self, Bool.toNat_false] at this
    omega

/-- Nothing else has the task of the operation performed in its hands. -/
theorem Placed.holds_ne (h : Placed m (A ++ op :: B)) (hop : op.holds = some k) {x : Op α} (hx : x ∈ A ++ B) :
    x.holds ≠ some k := by
  have := h.tasks k
  exact key_ne_of_total_le (show total (holding k) (A ++ op :: B) ≤ 1 by omega) hop hx

theorem Placed.move (h : Placed m (A ++ op :: B)) (hm : Move tmax m op c m' new) : Placed m' (A ++ (new ++ B)) where
  threads := by
    intro t
    have h1 := h.threads t
    have h2 := hm.threads t (fun _ ht => h.alive ht)
    simp only [total_append, total_cons] at h1 ⊢
    omega
  tasks := by
    intro k
    have h1 := h.tasks k
    have h2 := hm.tasks k
    simp only [total_append, total_cons] at h1 ⊢
    omega
  fresh := by
    intro k hk
    have h1 := h.fresh k (hm.next_eq ▸ hk)
    have h2 := hm.tasks k
    simp only [total_append, total_cons] at h1 ⊢
    omega

theorem Placed.call {l : Call} (h : Placed m ops) (hc : call m l = some (m', new)) : Placed m' (ops ++ new) := by
  cases l with
  | submit =>
    obtain ⟨rfl, rfl⟩ : _ ∧ _ := by simpa [Blocking.call] using hc
    refine ⟨fun t => by simpa [onThread, Op.thread] using h.threads t, fun k => ?_, fun k hk => ?_⟩
    · by_cases hk : m.next = k
      · subst hk
        have := h.fresh m.next (Nat.le_refl _)
        simp [holding, Op.holds]
        omega
      · simpa [holding, Op.holds, isAt_some_of_ne hk] using h.tasks k
    · simp only at hk
      have := h.fresh k (by omega)
      simpa [holding, Op.holds, isAt_some_of_ne (show m.next ≠ k by omega)] using this
  | abort k =>
    simp only [Blocking.call] at hc
    split at hc
    · obtain ⟨rfl, rfl⟩ : _ ∧ _ := by simpa using hc
      refine ⟨fun t => by simpa [onThread, Op.thread] using h.threads t, fun j => ?_, fun j hj => ?_⟩
      · simpa [holding, Op.holds, Op.window] using h.tasks j
      · simpa [holding, Op.holds, Op.window] using h.fresh j hj
    · cases hc

theorem placed_of_reach {ok : Mem α → List (Op α) → Act (Op α) (Choice α) Call → Prop} {s : State (Mem α) (Op α)}
    (h : (machine tmax).Reach ok initial s) : Placed s.mem s.ops := by
  refine h.invariant (I := Placed) ?_ ?_ ?_
  · exact ⟨fun t => rfl, fun k => Nat.zero_le 1, fun k _ => rfl⟩
  · exact fun m A op B c m' new hP _ he => hP.move (exec_move he)
  · exact fun m ops l m' new hP _ hc => hP.call hc

/-! ## The thread id of a task -/

/-- A run of a task on a thread, from `begin` to the cleanup, goes on to the cleanup. -/
theorem Move.window (h : Move tmax m op c m' new) {w : Nat × Nat} (hw : op.window = some w) :
    (∃ x ∈ new, x.window = some w) ∨ op = .cleanup w.1 w.2 := by
  cases h with
  | cleanup t k =>
    obtain rfl : (t, k) = w := by simpa [Op.window] using hw
    exact Or.inr rfl
  | store0 p k o => cases p <;> simp_all [Op.window]
  | store1 p k o => cases p <;> simp_all [Op.window, afterStore]
  | notify p k => cases p <;> simp_all [Op.window, afterNotify]
  | _ => simp_all [Op.window]

/-- A run that is pending is pending after a step, or the step is its cleanup. -/
theorem Move.window_mem (h : Move tmax m op c m' new) {w : Nat × Nat} (hw : ∃ x ∈ A ++ op :: B, x.window = some w)
    (hne : op ≠ .cleanup w.1 w.2) : ∃ x ∈ A ++ (new ++ B), x.window = some w := by
  obtain ⟨x, hx, hxw⟩ := hw
  by_cases hxo : x = op
  · subst hxo
    rcases h.window hxw with ⟨y, hy, hyw⟩ | rfl
    · exact ⟨y, Machine.mem_new hy, hyw⟩
    · exact absurd rfl hne
  · exact ⟨x, Machine.mem_keep hx hxo, hxw⟩

/-- The places of a run where its thread id has been taken back. -/
def Op.reset : Op α → Option Nat
  | .cleanup _ k | .finishState _ k | .notify (.runner _) k => some k
  | _ => none

/-- The thread id of a task is the one of the thread that runs it, and is taken back before the cleanup. -/
structure Published (m : Mem α) (ops : List (Op α)) : Prop where
  runs : ∀ k, 0 < (m.ctl k).tid → ∃ x ∈ ops, x.window = some ((m.ctl k).tid, k)
  reset : ∀ x ∈ ops, ∀ k, x.reset = some k → (m.ctl k).tid = 0

theorem holds_of_reset {x : Op α} (h : x.reset = some k) : x.holds = some k := by
  cases x with
  | notify p j => cases p <;> simp_all [Op.reset, Op.holds, Op.window]
  | _ => simp_all [Op.reset, Op.holds, Op.window]

/-- What a step does to the thread id of a task. -/
theorem Move.tid (h : Move tmax m op c m' new) (k : Nat) :
    (m'.ctl k).tid = (m.ctl k).tid ∨ (∃ t, op = .beginTid t k ∧ (m'.ctl k).tid = t ∧ new = [.beginState t k]) ∨
      ((∃ t, op = .beginUndo t k ∨ op = .finishTid t k) ∧ (m'.ctl k).tid = 0) := by
  cases h with
  | beginTid t j | beginUndo t j | finishTid t j =>
    by_cases hjk : k = j
    · subst hjk
      simp
    · exact Or.inl (by rw [onCtl_ctl_of_ne _ _ hjk])
  | begun t j | cancelled n j | notify p j | finishState t j =>
    left
    by_cases hjk : k = j
    · subst hjk
      simp
    · simp [onCtl_ctl_of_ne _ _ hjk]
  | store0 p j o | store1 p j o =>
    left
    by_cases hjk : k = j
    · subst hjk
      simp [Mem.store]
    · simp [Mem.store, onCtl_ctl_of_ne _ _ hjk]
  | _ => simp [Mem.setAlive]

/-- An operation after the thread id was taken back follows from one, or from taking it back. -/
theorem Move.reset (h : Move tmax m op c m' new) {x : Op α} (hx : x ∈ new) (hr : x.reset = some k) :
    (op.reset = some k ∧ (m'.ctl k).tid = (m.ctl k).tid) ∨ (m'.ctl k).tid = 0 := by
  cases h with
  | store1 p j o => cases p <;> simp_all [afterStore, Op.reset]
  | notify p j => cases p <;> simp_all [afterNotify, Op.reset]
  | takeBudget | loadThreads | isRunning n j | loadTid n j => split at hx <;> simp_all [Op.reset]
  | _ => simp_all [Op.reset]

theorem Published.move (h : Published m (A ++ op :: B)) (hP : Placed m (A ++ op :: B)) (hm : Move tmax m op c m' new) :
    Published m' (A ++ (new ++ B)) where
  runs := by
    intro k hk
    rcases hm.tid k with heq | ⟨t, rfl, ht, rfl⟩ | ⟨-, h0⟩
    · rw [heq] at hk ⊢
      refine hm.window_mem (h.runs k hk) (fun hop => ?_)
      have := h.reset op (by simp) k (by rw [hop]; rfl)
      omega
    · exact ⟨.beginState t k, Machine.mem_new (by simp), by rw [ht]; rfl⟩
    · omega
  reset := by
    intro x hx k hr
    rcases Machine.mem_beside hx with hnew | hold
    · rcases hm.reset hnew hr with ⟨hop, heq⟩ | h0
      · rw [heq]
        exact h.reset op (by simp) k hop
      · exact h0
    · rcases hm.tid k with heq | ⟨t, rfl, -, -⟩ | ⟨-, h0⟩
      · rw [heq]
        exact h.reset x (Machine.mem_before op hold) k hr
      -- the task would be in two places
      · exact absurd (holds_of_reset hr) (hP.holds_ne rfl hold)
      · exact h0

theorem Published.call {l : Call} (h : Published m ops) (hc : call m l = some (m', new)) : Published m' (ops ++ new) := by
  have hm : m'.ctl = m.ctl ∧ ∀ x ∈ new, x.reset = none := by
    cases l <;> simp only [Blocking.call] at hc
    · obtain ⟨rfl, rfl⟩ : _ ∧ _ := by simpa using hc
      exact ⟨rfl, by simp [Op.reset]⟩
    · split at hc
      · obtain ⟨rfl, rfl⟩ : _ ∧ _ := by simpa using hc
        exact ⟨rfl, by simp [Op.reset]⟩
      · cases hc
  refine ⟨fun k hk => ?_, fun x hx k hr => ?_⟩
  · rw [hm.1] at hk ⊢
    obtain ⟨x, hx, hw⟩ := h.runs k hk
    exact ⟨x, List.mem_append_left _ hx, hw⟩
  · rw [hm.1]
    rcases List.mem_append.mp hx with hx | hx
    · exact h.reset x hx k hr
    · rw [hm.2 x hx] at hr
      cases hr

theorem published_of_reach {ok : Mem α → List (Op α) → Act (Op α) (Choice α) Call → Prop} {s : State (Mem α) (Op α)}
    (h : (machine tmax).Reach ok initial s) : Published s.mem s.ops := by
  refine h.invariant_with (I := Published) placed_of_reach ?_ ?_ ?_
  · exact ⟨fun k hk => absurd hk (Nat.lt_irrefl 0), fun x hx => absurd hx List.not_mem_nil⟩
  · exact fun m A op B c m' new hP hI _ he => hI.move hP (exec_move he)
  · exact fun m ops l m' new _ hI _ hc => hI.call hc

/-! ## The exceptions of the aborts -/

/-- An exception that is about to be injected, or is pending, is for the task whose run its thread is in; and one that was raised came
up in the task it was for. -/
structure Confined (m : Mem α) (ops : List (Op α)) : Prop where
  aimed : ∀ n t k, Op.inject n t k ∈ ops → ∃ x ∈ ops, x.window = some (t, k)
  pending : ∀ t k, m.asyncExc t = some k → ∃ x ∈ ops, x.window = some (t, k)
  raised : ∀ x ∈ m.raised, x.1 = x.2

/-- A pending exception was pending before a step, which is no cleanup of its thread, or is injected by it. -/
theorem Move.asyncExc (h : Move tmax m op c m' new) (halive : ∀ t, op.thread = some t → m.alive t = true)
    (hx : m'.asyncExc t = some k) : (m.asyncExc t = some k ∧ ∀ j, op ≠ .cleanup t j) ∨ ∃ n, op = .inject n t k := by
  cases h with
  | cleanup u j | interrupt u j =>
    rw [Mem.setAsyncExc, if_pos (halive u rfl)] at hx
    by_cases htu : t = u
    · subst htu
      simp at hx
    · simp only [Function.update_of_ne htu] at hx
      exact Or.inl ⟨hx, by simp [Ne.symm htu]⟩
  | inject n u j =>
    unfold Mem.setAsyncExc at hx
    split at hx
    · by_cases htu : t = u
      · subst htu
        obtain rfl : j = k := by simpa using hx
        exact Or.inr ⟨n, rfl⟩
      · simp only [Function.update_of_ne htu] at hx
        exact Or.inl ⟨hx, by simp⟩
    · exact Or.inl ⟨hx, by simp⟩
  | start u | stop u =>
    by_cases htu : t = u
    · subst htu
      simp [Mem.setAlive] at hx
    · simp only [Mem.setAlive, Function.update_of_ne htu] at hx
      exact Or.inl ⟨hx, by simp⟩
  | _ => exact Or.inl ⟨hx, by simp⟩

/-- An injection follows from reading the thread id. -/
theorem Move.inject_mem (h : Move tmax m op c m' new) {n : Nat} (hx : Op.inject n t k ∈ new) :
    op = .loadTid n k ∧ 0 < (m.ctl k).tid ∧ t = (m.ctl k).tid := by
  cases h with
  | loadTid n' j =>
    split at hx
    · rename_i hpos
      obtain ⟨rfl, rfl, rfl⟩ : _ ∧ _ ∧ _ := by simpa using hx
      exact ⟨rfl, hpos, rfl⟩
    · cases hx
  | store1 p j o => cases p <;> simp [afterStore] at hx
  | notify p j => cases p <;> simp [afterNotify] at hx
  | takeBudget | loadThreads | isRunning n j => split at hx <;> simp at hx
  | _ => simp at hx

/-- An exception is raised in the callable of the thread it is pending on. -/
theorem Move.raised (h : Move tmax m op c m' new) {x : Nat × Nat} (hx : x ∈ m'.raised) :
    x ∈ m.raised ∨ ∃ t, op = .callable t x.1 ∧ m.asyncExc t = some x.2 := by
  cases h with
  | interrupt t j hj =>
    rcases List.mem_cons.mp hx with rfl | hx
    · exact Or.inr ⟨t, rfl, hj⟩
    · exact Or.inl hx
  | cleanup t j | inject n t j =>
    unfold Mem.setAsyncExc at hx
    split at hx <;> exact Or.inl hx
  | _ => exact Or.inl hx

theorem window_thread {x : Op α} (h : x.window = some (t, k)) : x.thread = some t := by
  cases x with
  | store0 p j o | store1 p j o | notify p j => cases p <;> simp_all [Op.window, Op.thread]
  | _ => simp_all [Op.window, Op.thread]

/-- Two runs on one thread are of one task. -/
theorem Placed.window_eq (h : Placed m ops) {x y : Op α} {j : Nat} (hx : x ∈ ops) (hy : y ∈ ops) (hxw : x.window = some (t, j))
    (hyw : y.window = some (t, k)) : j = k := by
  have h1 := h.threads t
  have h2 := Bool.toNat_le (m.alive t)
  have hxy : x = y := eq_of_total_le (show total (onThread t) ops ≤ 1 by omega) hx hy (window_thread hxw) (window_thread hyw)
  subst hxy
  simpa using hxw.symm.trans hyw

theorem Confined.move (h : Confined m (A ++ op :: B)) (hP : Placed m (A ++ op :: B)) (hT : Published m (A ++ op :: B))
    (hok : ¬Overtakes (A ++ op :: B) (.exec op c)) (hm : Move tmax m op c m' new) : Confined m' (A ++ (new ++ B)) where
  aimed := by
    intro n t k hx
    rcases Machine.mem_cases op hx with hnew | hold
    · obtain ⟨rfl, hpos, rfl⟩ := hm.inject_mem hnew
      exact hm.window_mem (hT.runs k hpos) (by simp)
    · refine hm.window_mem (h.aimed n t k hold) ?_
      rintro rfl
      exact hok ⟨_, hold, by simp [Op.injects]⟩
  pending := by
    intro t k hx
    rcases hm.asyncExc (fun _ ht => hP.alive ht) hx with ⟨hx, hne⟩ | ⟨n, rfl⟩
    · exact hm.window_mem (h.pending t k hx) (hne k)
    · exact hm.window_mem (h.aimed n t k (by simp)) (by simp)
  raised := by
    intro x hx
    rcases hm.raised hx with hx | ⟨t, rfl, hj⟩
    · exact h.raised x hx
    · obtain ⟨y, hy, hyw⟩ := h.pending t _ hj
      exact hP.window_eq (x := .callable t x.1) (by simp) hy rfl hyw

theorem Confined.call {l : Call} (h : Confined m ops) (hc : call m l = some (m', new)) : Confined m' (ops ++ new) := by
  have hm : m'.asyncExc = m.asyncExc ∧ m'.raised = m.raised ∧ ∀ n t k, Op.inject n t k ∉ new := by
    cases l <;> simp only [Blocking.call] at hc
    · obtain ⟨rfl, rfl⟩ : _ ∧ _ := by simpa using hc
      exact ⟨rfl, rfl, by simp⟩
    · split at hc
      · obtain ⟨rfl, rfl⟩ : _ ∧ _ := by simpa using hc
        exact ⟨rfl, rfl, by simp⟩
      · cases hc
  have hkeep : ∀ w, (∃ x ∈ ops, x.window = some w) → ∃ x ∈ ops ++ new, x.window = some w :=
    fun w ⟨x, hx, hw⟩ => ⟨x, List.mem_append_left _ hx, hw⟩
  refine ⟨fun n t k hx => ?_, fun t k hx => hkeep _ (h.pending t k (hm.1 ▸ hx)), fun x hx => h.raised x (hm.2.1 ▸ hx)⟩
  rcases List.mem_append.mp hx with hx | hx
  · exact hkeep _ (h.aimed n t k hx)
  · exact absurd hx (hm.2.2 n t k)

theorem confined_of_reach {s : State (Mem α) (Op α)}
    (h : (machine tmax).Reach (fun _ ops a => ¬Overtakes ops a) initial s) : Confined s.mem s.ops := by
  refine h.invariant_with (I := Confined) (J := fun m ops => Placed m ops ∧ Published m ops)
    (fun hr => ⟨placed_of_reach hr, published_of_reach hr⟩) ?_ ?_ ?_
  · exact ⟨fun _ _ _ hx => absurd hx List.not_mem_nil, fun _ _ hx => (by cases hx), fun _ hx => absurd hx List.not_mem_nil⟩
  · exact fun m A op B c m' new hJ hI hok he => hI.move hJ.1 hJ.2 hok (exec_move he)
  · exact fun m ops l m' new _ hI _ hc => hI.call hc

end Tonio.Blocking
