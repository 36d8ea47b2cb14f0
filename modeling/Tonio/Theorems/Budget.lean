import Tonio.Theorems.Pool

/-!
# The budget of the blocking pool

`budget` is what a submission looks at to decide whether a thread is left for its task. It is the number of threads waiting in
`recv_timeout` less the number of queued tasks, but for the operations that are between the queue and the counter: a task queued and not
counted, a thread whose wait is over and which still counts as waiting, a thread that has found a task at the last moment and has
still to undo what it took off.
-/

namespace Tonio.Blocking

open Interleaving

variable {α : Type} {tmax : Nat}

/-- The threads that wait in `recv_timeout`. -/
def waiting : Op α → Nat
  | .recv _ => 1
  | _ => 0

/-- The threads whose wait has timed out and which still count as waiting. -/
def timedOut : Op α → Nat
  | .idleBudget _ => 1
  | _ => 0

/-- The operations that the counter is behind of, in a submission or on a thread. -/
def Op.inFlight : Op α → Bool
  | .takeBudget | .idleBudget _ | .backThreads _ _ | .backBudget _ _ => true
  | _ => false

/-- The operations on the counter. -/
def Op.onBudget : Op α → Bool
  | .takeBudget | .giveBudget _ | .idleBudget _ | .backBudget _ _ => true
  | _ => false

/-- The steps that leave the counter alone. -/
def Quiet : Act (Op α) (Choice α) Call → Prop
  | .exec op _ => op.onBudget = false
  | .call _ => True

instance (a : Act (Op α) (Choice α) Call) : Decidable (Quiet a) := by
  unfold Quiet
  induction a using Act.casesOn <;> infer_instance

/-- A thread that counts as waiting waits or has timed out. -/
theorem total_idles (ops : List (Op α)) : total idles ops = total waiting ops + total timedOut ops := by
  induction ops with
  | nil => rfl
  | cons op ops ih =>
    have hop : idles op = waiting op + timedOut op := by cases op <;> rfl
    rw [total_cons, total_cons, total_cons, ih, hop]
    omega

/-- The counter at any time, with the operations in flight. -/
theorem Counted.budget_eq {m : Mem α} {ops : List (Op α)} (h : Counted m ops) :
    m.budget + m.queue.length + total returns ops = total waiting ops + total timedOut ops + total uncounted ops := by
  have hb := h.budget
  rw [total_idles] at hb
  exact_mod_cast hb

/-- Without an operation in flight the counter is exact. -/
theorem Counted.budget_settled {m : Mem α} {ops : List (Op α)} (h : Counted m ops) (hf : ∀ op ∈ ops, op.inFlight = false) :
    m.budget = total waiting ops - m.queue.length := by
  have hnone : ∀ w : Op α → Nat, (∀ op, op.inFlight = false → w op = 0) → total w ops = 0 :=
    fun w hw => total_eq_zero_iff.mpr (fun op hop => hw op (hf op hop))
  have h1 := hnone timedOut (fun op hop => by cases op <;> first | rfl | cases hop)
  have h2 := hnone returns (fun op hop => by cases op <;> first | rfl | cases hop)
  have h3 := hnone uncounted (fun op hop => by cases op <;> first | rfl | cases hop)
  have hb := h.budget_eq
  omega

/-- A submission looks for a thread when it finds no budget. -/
theorem takeBudget_iff {m m' : Mem α} {c : Choice α} {new : List (Op α)} (he : exec tmax m .takeBudget c = some (m', new)) :
    .loadThreads ∈ new ↔ m.budget ≤ 0 := by
  cases c with
  | go =>
    obtain ⟨-, rfl⟩ := Prod.mk.inj (Option.some.inj he)
    split <;> simp [*]
  | _ => cases he

/-- Only the operations on the counter change it. -/
theorem Move.budget_eq {m m' : Mem α} {op : Op α} {c : Choice α} {new : List (Op α)} (h : Move tmax m op c m' new)
    (hop : op.onBudget = false) : m'.budget = m.budget := by
  cases h with
  | takeBudget | giveBudget | idleBudget | backBudget => cases hop
  | cleanup | interrupt | inject => unfold Mem.setAsyncExc; split <;> rfl
  | _ => rfl

/-- A call leaves the counter alone. -/
theorem budget_eq_of_call {m m' : Mem α} {l : Call} {new : List (Op α)} (hc : call m l = some (m', new)) : m'.budget = m.budget := by
  cases l with
  | submit => rw [← (Prod.mk.inj (Option.some.inj hc)).1]
  | abort k =>
    simp only [call] at hc
    split at hc
    · rw [← (Prod.mk.inj (Option.some.inj hc)).1]
    · cases hc

/-- Quiet steps leave the counter alone. -/
theorem budget_eq_of_quiet {s s' : State (Mem α) (Op α)} (h : (machine tmax).Reach (fun _ _ a => Quiet a) s s') :
    s'.mem.budget = s.mem.budget := by
  induction h with
  | init => rfl
  | step _ hq hs ih =>
    rw [← ih]
    rcases hs.ops_eq with ⟨A, op, B, c, new, rfl, -, he, -⟩ | ⟨l, new, rfl, hc, -⟩
    · exact (exec_move he).budget_eq hq
    · exact budget_eq_of_call hc

/-- The accounting of the budget, for every cap and in every state of every run of any number of submitters, aborts and threads of
the pool.
1. The counter is the number of threads waiting in `recv_timeout` less the number of queued tasks, off by the operations in flight only:
   tasks that are queued and not counted, threads that have timed out and have not been taken off, threads that have found a task at the
   last moment and are not back on.
2. With no such operation in flight it is exact.
3. A submission that is about to look at the counter asks for a thread exactly when, with the operations in flight, the threads are not
   more than the tasks.
4. A submission made when no operation is in flight, and which looks at the counter before another operation changes it, asks for a thread
   exactly when no waiting thread was left over for its task: the threads that waited were not more than the tasks that were queued.
5. What asks for a thread goes on to count one when the threads are below the cap, and only then. -/
theorem budget_accounts (tmax : Nat) (s : State (Mem α) (Op α)) (h : (machine tmax).Reach (fun _ _ _ => True) initial s) :
    s.mem.budget + s.mem.queue.length + total returns s.ops = total waiting s.ops + total timedOut s.ops + total uncounted s.ops ∧
    ((∀ op ∈ s.ops, op.inFlight = false) → s.mem.budget = total waiting s.ops - s.mem.queue.length) ∧
    (∀ c m' new, exec tmax s.mem .takeBudget c = some (m', new) →
      (.loadThreads ∈ new ↔
        total waiting s.ops + total timedOut s.ops + total uncounted s.ops ≤ s.mem.queue.length + total returns s.ops)) ∧
    ((∀ op ∈ s.ops, op.inFlight = false) → ∀ s', (machine tmax).Reach (fun _ _ a => Quiet a) s s' →
      ∀ c m' new, exec tmax s'.mem .takeBudget c = some (m', new) → (.loadThreads ∈ new ↔ total waiting s.ops ≤ s.mem.queue.length)) ∧
    (∀ c m' new, exec tmax s.mem .loadThreads c = some (m', new) → (.incThreads ∈ new ↔ s.mem.threads < tmax)) := by
  have hC : Counted s.mem s.ops := Counted.reach h
  refine ⟨hC.budget_eq, hC.budget_settled, ?_, ?_, ?_⟩
  · intro c m' new he
    have hb := hC.budget_eq
    rw [takeBudget_iff he]
    omega
  · intro hf s' hr c m' new he
    have hb := hC.budget_settled hf
    rw [takeBudget_iff he, budget_eq_of_quiet hr]
    omega
  · intro c m' new he
    cases c with
    | go =>
      obtain ⟨-, rfl⟩ := Prod.mk.inj (Option.some.inj he)
      split <;> simp [*]
    | _ => cases he

/-- One thread waits, and nothing is queued: the counter is one, and a task that is submitted now asks for no other thread. -/
theorem budget_accounts_one :
    ∃ s s' : State (Mem Nat) (Op Nat), (machine 4).Reach (fun _ _ _ => True) initial s ∧ s.mem.budget = 1 ∧
      (machine 4).Reach (fun _ _ a => Quiet a) s s' ∧ s'.mem.queue = [1] ∧ .takeBudget ∈ s'.ops ∧
      ∀ c m' new, exec 4 s'.mem .takeBudget c = some (m', new) → .loadThreads ∉ new := by
  obtain ⟨s, s', hs, hs', hp⟩ := Machine.exists_reach_of_runs (machine 4) (fun _ _ _ => True) (fun _ _ a => Quiet a) (fun _ _ _ => true)
    (fun _ _ a => decide (Quiet a)) (fun _ _ _ _ => trivial) (fun _ _ _ h => of_decide_eq_true h) (initial (α := Nat))
    (List.flatten [[.call .submit, .act 0 .go, .act 0 .go, .act 0 .go, .act 0 (.ident 7)], serve 0, [.act 0 .go]])
    [.call .submit, .act 1 .go]
    (fun s s' => decide (s.ops = [.recv 7]) && decide (s.mem.queue = []) && decide (s'.mem.queue = [1]) && decide (.takeBudget ∈ s'.ops))
    (by decide)
  simp only [Bool.and_eq_true, decide_eq_true_eq] at hp
  obtain ⟨⟨⟨hops, hq⟩, hq'⟩, htake⟩ := hp
  have hf : ∀ op ∈ s.ops, op.inFlight = false := by simp [hops, Op.inFlight]
  obtain ⟨-, hsettled, -, hask, -⟩ := budget_accounts 4 s hs
  refine ⟨s, s', hs, ?_, hs', hq', htake, fun c m' new he hmem => ?_⟩
  · rw [hsettled hf, hops, hq]
    rfl
  · have hle := (hask hf s' hs' c m' new he).mp hmem
    rw [hops, hq] at hle
    exact absurd hle (by decide)

end Tonio.Blocking
