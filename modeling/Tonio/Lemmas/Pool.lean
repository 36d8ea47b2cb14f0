import Tonio.Lemmas.Blocking

/-!
# The counters of the blocking pool

Submitters and threads of the pool coordinate by two counters. `threads` counts the threads that hold a slot and the increments of
submitters that found no slot and have still to undo them (`Counted.slots`); a thread gives its slot up before it looks at the
queue for the last time. `budget` is the number of threads waiting for a task less the number of tasks nobody was found for; each `send` and
each pop is in it before or after the operation on the counter (`Counted.budget`). With these, a queued task has a thread or a
submitter that is about to look for one, unless a submitter was misled by the first counter (`Misled`).
-/

namespace Tonio.Blocking

open Interleaving

variable {α : Type} {tmax : Nat} {m m' : Mem α} {A B new ops : List (Op α)} {op : Op α} {c : Choice α}

/-! ## Who is where -/

/-- The threads of the pool. -/
def works (op : Op α) : Nat := op.thread.isSome.toNat

/-- The threads that have given up their slot: they look at the queue for the last time, or have found a task there. -/
def slotless : Op α → Nat
  | .tryRecv _ | .backThreads _ _ => 1
  | _ => 0

/-- The submitters that have counted a thread they do not start. -/
def tentative : Op α → Nat
  | .undoThreads => 1
  | _ => 0

/-- The threads that wait for a task. -/
def idles : Op α → Nat
  | .recv _ | .idleBudget _ => 1
  | _ => 0

/-- The submitters that have queued a task and have not counted it. -/
def uncounted : Op α → Nat
  | .takeBudget => 1
  | _ => 0

/-- The threads that found a task at the last moment and have not counted themselves again. -/
def returns : Op α → Nat
  | .backThreads _ _ | .backBudget _ _ => 1
  | _ => 0

theorem works_eq_zero {ops : List (Op α)} : total works ops = 0 ↔ ∀ op ∈ ops, op.thread = none := by
  rw [total_eq_zero_iff]
  refine forall₂_congr (fun op _ => ?_)
  cases h : op.thread <;> simp [works, h]

/-- What the two counters count. -/
structure Counted (m : Mem α) (ops : List (Op α)) : Prop where
  slots : m.threads + total slotless ops = total works ops + total tentative ops
  budget : m.budget + m.queue.length + total returns ops = total idles ops + total uncounted ops

/-- A thread that gave up its slot, or waits, or comes back, is a thread. -/
theorem slotless_le_works (op : Op α) : slotless op ≤ works op := by
  cases op <;> first | exact Nat.zero_le _ | exact Nat.le_refl _

theorem idles_le_works (op : Op α) : idles op ≤ works op := by
  cases op <;> first | exact Nat.zero_le _ | exact Nat.le_refl _

/-- What a step does to the first counter. -/
theorem Move.slots (h : Move tmax m op c m' new)
    (hpos : (∃ t, op = .idleThreads t) ∨ op = .undoThreads → 1 ≤ m.threads) :
    m'.threads + total slotless new + works op + tentative op = m.threads + slotless op + total works new + total tentative new := by
  cases h with
  | undoThreads =>
    have := hpos (Or.inr rfl)
    simp only [slotless, works, tentative, total_nil, Op.thread, Option.isSome_none, Bool.toNat_false]
    omega
  | idleThreads t =>
    have := hpos (Or.inl ⟨t, rfl⟩)
    simp only [slotless, works, tentative, total_cons, total_nil, Op.thread, Option.isSome_some, Bool.toNat_true]
    omega
  | takeBudget | loadThreads | isRunning n k | loadTid n k =>
    split <;> simp [slotless, works, tentative, Op.thread]
  | store0 p k o => cases p <;> simp [slotless, works, tentative, Op.thread, Mem.store, Mem.note, Mem.onCtl]
  | store1 p k o => cases p <;> simp [slotless, works, tentative, Op.thread, afterStore, Mem.store, Mem.note, Mem.onCtl]
  | notify p k => cases p <;> simp [slotless, works, tentative, Op.thread, afterNotify, Mem.note, Mem.onCtl]
  | cleanup t k | interrupt t k hj | inject n t k =>
    unfold Mem.setAsyncExc
    split <;> simp [slotless, works, tentative, Op.thread]
  | _ => simp [slotless, works, tentative, Op.thread, Mem.note, Mem.onCtl, Mem.setAlive]

/-- What a step does to the second counter. -/
theorem Move.budget (h : Move tmax m op c m' new) :
    m'.budget + m'.queue.length + total returns new + idles op + uncounted op =
      m.budget + m.queue.length + returns op + total idles new + total uncounted new := by
  cases h with
  | takeBudget => split <;> simp [returns, idles, uncounted] <;> omega
  | loadThreads | isRunning n k | loadTid n k => split <;> simp [returns, idles, uncounted]
  | recv t hq | tryRecv t hq =>
    simp only [returns, idles, uncounted, hq, total_cons, total_nil, List.length_cons]
    omega
  | store0 p k o => cases p <;> simp [returns, idles, uncounted, Mem.store, Mem.note, Mem.onCtl]
  | store1 p k o => cases p <;> simp [returns, idles, uncounted, afterStore, Mem.store, Mem.note, Mem.onCtl]
  | notify p k => cases p <;> simp [returns, idles, uncounted, afterNotify, Mem.note, Mem.onCtl]
  | cleanup t k | interrupt t k hj | inject n t k =>
    unfold Mem.setAsyncExc
    split <;> simp [returns, idles, uncounted]
  | send k => simp [returns, idles, uncounted]; omega
  | giveBudget t | idleBudget t | backBudget t k => simp [returns, idles, uncounted]; omega
  | _ => simp [returns, idles, uncounted, Mem.note, Mem.onCtl, Mem.setAlive]

theorem Counted.exec (h : Counted m (A ++ op :: B)) (hm : Move tmax m op c m' new) : Counted m' (A ++ (new ++ B)) := by
  have hslots := h.slots
  have hbudget := h.budget
  have hpos : (∃ t, op = .idleThreads t) ∨ op = .undoThreads → 1 ≤ m.threads := by
    -- a thread with a slot, or a submitter that has counted one, is in the count
    intro hop
    have hle := total_mono slotless_le_works (A ++ B)
    simp only [total_append, total_cons] at hslots hle
    rcases hop with ⟨t, rfl⟩ | rfl
    · have h1 : works (Op.idleThreads (α := α) t) = 1 := rfl
      have h2 : slotless (Op.idleThreads (α := α) t) = 0 := rfl
      omega
    · have h1 : tentative (Op.undoThreads (α := α)) = 1 := rfl
      have h2 : slotless (Op.undoThreads (α := α)) = 0 := rfl
      omega
  have h1 := hm.slots hpos
  have h2 := hm.budget
  simp only [total_append, total_cons] at hslots hbudget
  refine ⟨?_, ?_⟩
  · simp only [total_append]
    omega
  · simp only [total_append]
    omega

/-- In every state of every run. -/
theorem Counted.reach {ok : Mem α → List (Op α) → Act (Op α) (Choice α) Call → Prop} {s : State (Mem α) (Op α)}
    (h : (machine tmax).Reach ok initial s) : Counted s.mem s.ops := by
  refine h.invariant (I := Counted) ⟨rfl, rfl⟩ ?_ ?_
  · exact fun m A op B c m' new hI _ he => hI.exec (exec_move he)
  · intro m ops l m' new hI _ hc
    cases l with
    | submit =>
      obtain ⟨rfl, rfl⟩ := Prod.mk.inj (Option.some.inj hc)
      exact ⟨by simpa [slotless, works, tentative, Op.thread] using hI.slots,
        by simpa [returns, idles, uncounted] using hI.budget⟩
    | abort k =>
      simp only [machine, call] at hc
      split at hc
      · obtain ⟨rfl, rfl⟩ := Prod.mk.inj (Option.some.inj hc)
        exact ⟨by simpa [slotless, works, tentative, Op.thread] using hI.slots,
          by simpa [returns, idles, uncounted] using hI.budget⟩
      · cases hc

/-! ## Queued tasks -/

/-- The steps of `run` and `spawn_thread`. -/
def Op.runs : Op α → Bool
  | .send _ | .takeBudget | .loadThreads | .incThreads | .undoThreads => true
  | _ => false

/-- A submitter that has queued its task and may still start a thread. -/
def Op.seeks : Op α → Bool
  | .takeBudget | .loadThreads | .incThreads => true
  | _ => false

/-- Such a submitter is inside `run`. -/
theorem Op.runs_of_seeks (h : op.seeks = true) : op.runs = true := by
  cases op <;> first | rfl | cases h

/-- The submitters that may still start a thread. -/
def seekers (op : Op α) : Nat := op.seeks.toNat

/-- A submitter is misled: it finds the count of threads at the cap, in its load or in the increment of `spawn_thread`, while a task is
queued, there is no thread, and no other submitter may start one. -/
def Misled (tmax : Nat) (m : Mem α) (ops : List (Op α)) : Act (Op α) (Choice α) Call → Prop
  | .exec .loadThreads .go | .exec .incThreads .go =>
    tmax ≤ m.threads ∧ m.queue ≠ [] ∧ (∀ op ∈ ops, op.thread = none) ∧ total seekers ops ≤ 1
  | _ => False

instance (m : Mem α) (ops : List (Op α)) (a : Act (Op α) (Choice α) Call) : Decidable (Misled tmax m ops a) := by
  unfold Misled
  split <;> infer_instance

/-- A task is queued for a thread, or for a submitter that may still start one. -/
def Served (m : Mem α) (ops : List (Op α)) : Prop := m.queue ≠ [] → ∃ op ∈ ops, op.thread ≠ none ∨ op.seeks = true

/-- A thread that stops has found the queue empty. -/
theorem queue_nil_of_stop {t : Nat} (he : exec tmax m (.tryRecv t) c = some (m', [])) : m.queue = [] := by
  cases c <;> simp only [exec, reduceCtorEq] at he
  split at he
  · simp at he
  · assumption

/-- A submitter that gives up has found the count at the cap. -/
theorem cap_le_of_full (he : exec tmax m .incThreads .go = some (m', new)) : tmax ≤ m.threads := by
  simp only [exec] at he
  split at he
  · cases he
  · rename_i h
    exact Nat.le_of_not_lt h

/-- A thread goes on, unless it finds the queue empty for the last time. -/
theorem Move.goes_on (h : Move tmax m op c m' new) (hop : op.thread ≠ none) :
    (∃ op' ∈ new, op'.thread ≠ none) ∨ ((∃ t, op = .tryRecv t) ∧ new = [] ∧ m'.queue = m.queue) := by
  cases h with
  | stop t => exact Or.inr ⟨⟨t, rfl⟩, rfl, rfl⟩
  | store0 p k o | store1 p k o | notify p k =>
    cases p with
    | runner t => exact Or.inl ⟨_, List.mem_singleton_self _, by simp [Op.thread, afterStore]⟩
    | abort n => exact absurd rfl hop
  | send | takeBudget | loadThreads | start | full | undoThreads | cancelled | late | isRunning | loadTid | inject =>
    exact absurd rfl hop
  | _ => exact Or.inl ⟨_, List.mem_singleton_self _, by simp [Op.thread]⟩

/-- The steps of nobody who could serve a task leave the queue alone, or queue a task and look for a thread. -/
theorem Move.keeps_queue (h : Move tmax m op c m' new) (hop : op.thread = none) :
    m'.queue = m.queue ∨ ∃ k, op = .send k ∧ new = [.takeBudget] := by
  cases h with
  | send k => exact Or.inr ⟨k, rfl, rfl⟩
  | recv | tryRecv => cases hop
  | cleanup | interrupt => cases hop
  | inject n t k => exact Or.inl (by simp)
  | _ => exact Or.inl rfl

/-- A submitter goes on looking for a thread, unless it has started one, or need not start one, or cannot. -/
theorem Served.exec_seeks (hC : Counted m (A ++ op :: B)) (hok : ¬Misled tmax m (A ++ op :: B) (.exec op c))
    (he : exec tmax m op c = some (m', new)) (hop : op.seeks = true) (hq : m.queue ≠ []) :
    ∃ op' ∈ A ++ (new ++ B), op'.thread ≠ none ∨ op'.seeks = true := by
  have hthread : ¬(∀ op' ∈ A ++ op :: B, op'.thread = none) → op.thread = none →
      ∃ op' ∈ A ++ (new ++ B), op'.thread ≠ none ∨ op'.seeks = true := by
    intro hno hself
    push Not at hno
    obtain ⟨op', hop', ht⟩ := hno
    exact ⟨op', Machine.mem_keep hop' (fun h => ht (h ▸ hself)), Or.inl ht⟩
  have hothers : ∀ {w : Op α → Nat}, 0 < total w (A ++ B) → (∀ op', 0 < w op' → op'.seeks = true) →
      ∃ op' ∈ A ++ (new ++ B), op'.thread ≠ none ∨ op'.seeks = true := by
    intro w hpos hw
    obtain ⟨op', hop', h0⟩ := total_pos_iff.mp hpos
    exact ⟨op', Machine.mem_after new hop', Or.inr (hw op' h0)⟩
  -- a submitter that finds no slot and is not misled leaves the task to a thread or to another submitter
  have hfull : tmax ≤ m.threads → op.thread = none →
      (tmax ≤ m.threads ∧ m.queue ≠ [] ∧ (∀ op' ∈ A ++ op :: B, op'.thread = none) ∧ total seekers (A ++ op :: B) ≤ 1 → False) →
      ∃ op' ∈ A ++ (new ++ B), op'.thread ≠ none ∨ op'.seeks = true := by
    intro hle hself hno
    by_cases hall : ∀ op' ∈ A ++ op :: B, op'.thread = none
    · refine hothers (w := seekers) ?_ (fun op' h0 => by cases hs : op'.seeks <;> simp_all [seekers])
      have hmore : ¬total seekers (A ++ op :: B) ≤ 1 := fun h1 => hno ⟨hle, hq, hall, h1⟩
      have hself : seekers op = 1 := by simp [seekers, hop]
      simp only [total_append, total_cons] at hmore ⊢
      omega
    · exact hthread hall hself
  cases exec_move he with
  | takeBudget =>
    by_cases hb : m.budget ≤ 0
    · exact ⟨.loadThreads, Machine.mem_new (by simp [hb]), Or.inr rfl⟩
    · by_cases hno : ∀ op' ∈ A ++ Op.takeBudget :: B, op'.thread = none
      · -- with no thread, a budget above zero counts submitters that have not counted their task
        have hbudget := hC.budget
        have hw := total_mono idles_le_works (A ++ Op.takeBudget :: B)
        rw [works_eq_zero.mpr hno] at hw
        have hlen := List.length_pos_of_ne_nil hq
        have hself : uncounted (Op.takeBudget (α := α)) = 1 := rfl
        have hpos : 0 < total uncounted (A ++ B) := by
          simp only [total_append, total_cons] at hbudget hw ⊢
          omega
        exact hothers hpos (fun op' hu => by cases op' <;> first | rfl | cases hu)
      · exact hthread hno rfl
  | loadThreads =>
    by_cases hlt : m.threads < tmax
    · exact ⟨.incThreads, Machine.mem_new (by simp [hlt]), Or.inr rfl⟩
    · exact hfull (Nat.le_of_not_lt hlt) rfl hok
  | start t => exact ⟨.giveBudget t, Machine.mem_new (List.mem_singleton_self _), Or.inl (by simp [Op.thread])⟩
  | full => exact hfull (cap_le_of_full he) rfl hok
  | _ => cases hop

theorem Served.exec (h : Served m (A ++ op :: B)) (hC : Counted m (A ++ op :: B))
    (hok : ¬Misled tmax m (A ++ op :: B) (.exec op c)) (he : Blocking.exec tmax m op c = some (m', new)) :
    Served m' (A ++ (new ++ B)) := by
  intro hq'
  have hm := exec_move he
  by_cases hop : op.thread = none
  · rcases hm.keeps_queue hop with hq | ⟨k, -, rfl⟩
    · rw [hq] at hq'
      by_cases hseeks : op.seeks = true
      · exact Served.exec_seeks hC hok he hseeks hq'
      · obtain ⟨op', hop', hs⟩ := h hq'
        refine ⟨op', Machine.mem_keep hop' ?_, hs⟩
        rintro rfl
        exact hs.elim (fun ht => ht hop) hseeks
    · exact ⟨.takeBudget, Machine.mem_new (List.mem_singleton_self _), Or.inr rfl⟩
  · rcases hm.goes_on hop with ⟨op', hop', ht⟩ | ⟨⟨t, rfl⟩, rfl, hq⟩
    · exact ⟨op', Machine.mem_new hop', Or.inl ht⟩
    · rw [hq, queue_nil_of_stop he] at hq'
      exact absurd rfl hq'

/-- In every state of every run in which no submitter is misled. -/
theorem Served.reach {s : State (Mem α) (Op α)} (h : (machine tmax).Reach (fun m ops a => ¬Misled tmax m ops a) initial s) :
    Served s.mem s.ops := by
  refine h.invariant_with (J := Counted) (I := Served) Counted.reach (fun hq => absurd rfl hq) ?_ ?_
  · exact fun m A op B c m' new hC hI hok he => hI.exec hC hok he
  · intro m ops l m' new _ hI _ hc hq
    have hq' : m.queue ≠ [] := by
      cases l with
      | submit => rw [← (Prod.mk.inj (Option.some.inj hc)).1] at hq; exact hq
      | abort k =>
        simp only [machine, call] at hc
        split at hc
        · rw [← (Prod.mk.inj (Option.some.inj hc)).1] at hq
          exact hq
        · cases hc
    obtain ⟨op, hop, hs⟩ := hI hq'
    exact ⟨op, List.mem_append_left _ hop, hs⟩

/-- Where a submitter is misled, what it finds at the cap are increments of others that are about to be undone, and it leaves the task to
nobody. -/
theorem Misled.strands {s s' : State (Mem α) (Op α)} {a : Act (Op α) (Choice α) Call} (hm : Misled tmax s.mem s.ops a)
    (hC : Counted s.mem s.ops) (hs : (machine tmax).Step s a s') :
    tmax ≤ total tentative s.ops ∧ s'.mem.queue ≠ [] ∧ ∀ op ∈ s'.ops, op.thread = none ∧ op.seeks = false := by
  rcases hs.ops_eq with ⟨A, op, B, c, new, rfl, ho, he, ho'⟩ | ⟨l, new, rfl, -, -⟩
  · have hop : (op = .loadThreads ∨ op = .incThreads) ∧ c = .go := by
      cases op <;> cases c <;> first | exact hm.elim | simp
    obtain ⟨hle, hq, hno, hone⟩ : tmax ≤ s.mem.threads ∧ s.mem.queue ≠ [] ∧ (∀ op ∈ s.ops, op.thread = none) ∧
        total seekers s.ops ≤ 1 := by
      obtain ⟨rfl | rfl, rfl⟩ := hop <;> exact hm
    have hnew : s'.mem.queue = s.mem.queue ∧ ∀ op' ∈ new, op'.thread = none ∧ op'.seeks = false := by
      obtain ⟨rfl | rfl, rfl⟩ := hop
      · simp only [machine, exec, Option.some.injEq, Prod.mk.injEq, if_neg (Nat.not_lt.mpr hle)] at he
        rw [← he.1, ← he.2]
        exact ⟨rfl, List.forall_mem_nil _⟩
      · simp only [machine, exec, if_neg (Nat.not_lt.mpr hle), Option.some.injEq, Prod.mk.injEq] at he
        rw [← he.1, ← he.2]
        exact ⟨rfl, by simp [Op.thread, Op.seeks]⟩
    have hself : seekers op = 1 := by
      obtain ⟨rfl | rfl, -⟩ := hop <;> rfl
    rw [ho] at hone
    have hrest := eq_zero_of_total_le hone hself
    refine ⟨?_, hnew.1 ▸ hq, fun op' hop' => ?_⟩
    · have hslots := hC.slots
      rw [works_eq_zero.mpr hno] at hslots
      omega
    · rw [ho'] at hop'
      rcases Machine.mem_beside hop' with hx | hx
      · exact hnew.2 op' hx
      · exact ⟨hno op' (ho ▸ Machine.mem_before _ hx), by simpa [seekers] using hrest op' hx⟩
  · exact hm.elim

/-! ## The cap -/

/-- A thread is started although the slots held and the slots given up by threads that are still there are as many as the cap allows. The
increments that are about to be undone hold no slot. -/
def Oversteps (tmax : Nat) (m : Mem α) (ops : List (Op α)) : Act (Op α) (Choice α) Call → Prop
  | .exec .incThreads (.ident _) => tmax + total tentative ops ≤ m.threads + total slotless ops
  | _ => False

instance (m : Mem α) (ops : List (Op α)) (a : Act (Op α) (Choice α) Call) : Decidable (Oversteps tmax m ops a) := by
  unfold Oversteps
  split <;> infer_instance

/-- Threads come by being started. -/
theorem Move.works (h : Move tmax m op c m' new) :
    total Blocking.works new ≤ Blocking.works op ∨
    (∃ t, op = .incThreads ∧ c = .ident t ∧ total Blocking.works new = Blocking.works op + 1) := by
  cases h with
  | start t => exact Or.inr ⟨t, rfl, rfl, rfl⟩
  | takeBudget | loadThreads | isRunning n k | loadTid n k => exact Or.inl (by split <;> simp [Blocking.works, Op.thread])
  | store0 p k o | store1 p k o | notify p k =>
    exact Or.inl (by cases p <;> simp [Blocking.works, Op.thread, afterStore, afterNotify])
  | _ => exact Or.inl (by simp [Blocking.works, Op.thread])

/-- The start of a thread that oversteps the cap makes more threads than it allows. -/
theorem Oversteps.exceeds {s s' : State (Mem α) (Op α)} {a : Act (Op α) (Choice α) Call} (ho : Oversteps tmax s.mem s.ops a)
    (hC : Counted s.mem s.ops) (hs : (machine tmax).Step s a s') : tmax < total works s'.ops := by
  rcases hs.ops_eq with ⟨A, op, B, c, new, rfl, hops, he, hops'⟩ | ⟨l, new, rfl, -, -⟩
  · obtain ⟨t, rfl, rfl⟩ : ∃ t, op = .incThreads ∧ c = .ident t := by
      cases op <;> cases c <;> first | exact ho.elim | simp
    have hslots := hC.slots
    have hle : tmax + total tentative s.ops ≤ s.mem.threads + total slotless s.ops := ho
    have hnew : total works new = 1 := by
      simp only [machine, exec] at he
      split at he
      · rw [← (Prod.mk.inj (Option.some.inj he)).2]
        rfl
      · cases he
    have hstep := total_step works A B new .incThreads
    have hself : works (Op.incThreads (α := α)) = 0 := rfl
    rw [← hops, ← hops', hnew, hself] at hstep
    omega
  · exact ho.elim

/-- In every state of every run in which no start oversteps the cap. -/
theorem works_le_of_reach {s : State (Mem α) (Op α)}
    (h : (machine tmax).Reach (fun m ops a => ¬Oversteps tmax m ops a) initial s) : total works s.ops ≤ tmax := by
  refine h.invariant_with (J := Counted) (I := fun _ ops => total works ops ≤ tmax) Counted.reach (Nat.zero_le _) ?_ ?_
  · intro m A op B c m' new hC hI hok he
    have hstep := total_step works A B new op
    rcases (exec_move he).works with hle | ⟨t, rfl, rfl, heq⟩
    · omega
    · -- the slots held and given up are those of the threads
      have hlt : total works (A ++ .incThreads :: B) < tmax := by
        have hslots := hC.slots
        have hno : ¬tmax + total tentative (A ++ .incThreads :: B) ≤ m.threads + total slotless (A ++ .incThreads :: B) := hok
        omega
      omega
  · intro m ops l m' new _ hI _ hc
    have hnew : total works new = 0 := by
      cases l with
      | submit => rw [← (Prod.mk.inj (Option.some.inj hc)).2]; rfl
      | abort k =>
        simp only [machine, call] at hc
        split at hc
        · rw [← (Prod.mk.inj (Option.some.inj hc)).2]
          rfl
        · cases hc
    rw [total_append, hnew]
    exact hI

end Tonio.Blocking
