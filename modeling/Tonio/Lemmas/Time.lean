import Tonio.Time

/-!
# What holds of the timers

A timer is at one place: held by its registration, in the heap, or in the injector (`Placed`). While the poller hands timers over it has the
mutex, and what it has handed over comes before what is left (`Draining`). While it blocks, a timer that is due before it wakes up
belongs to a registration that is about to wake it (`Sleeping`).
-/

namespace Tonio.Time

open Interleaving Collections

variable {m m' : Mem} {A B new ops : List Op} {op : Op} {c : Choice} {x y : Timer}

/-! ## The order of the timers -/

theorem Timer.isLE_cmp : (Timer.cmp x y).isLE = true ↔ y.when ≤ x.when := by
  unfold Timer.cmp
  split_ifs <;> simp <;> omega

/-- The order of the heap is a total preorder. -/
instance : Std.TransCmp Timer.cmp where
  eq_swap := by
    intro x y
    unfold Timer.cmp
    split_ifs <;> first | rfl | omega
  isLE_trans := by
    intro x y z hxy hyz
    rw [Timer.isLE_cmp] at *
    omega

/-- The first timer of the heap is an earliest one. -/
theorem peek_earliest (h : peek Timer.cmp m.heap = some x) : x ∈ m.heap ∧ ∀ y ∈ m.heap, x.when ≤ y.when := by
  obtain ⟨hx, hy⟩ := peek_eq_some h
  exact ⟨hx, fun y hmem => Timer.isLE_cmp.mp (hy y hmem)⟩

/-! ## The steps -/

/-- The end of a look at the heap with nothing due left. -/
def Finished (m : Mem) (tick : Nat) : Prop := ∀ x ∈ m.heap, tick < x.when

/-- What an operation does. -/
inductive Move (m : Mem) : Op → Choice → Mem → List Op → Prop where
  | getClock (n timeout : Nat) : Move m (.getClock n timeout) .go m [.push ⟨m.clock + timeout, n⟩]
  | push (x : Timer) (hl : m.locked = false) : Move m (.push x) .go { m with heap := m.heap ++ [x] } [.wake x.target]
  | wake (n : Nat) : Move m (.wake n) .go { m with woken := m.woken || m.waker } []
  | setWaker : Move m .setWaker .go { m with waker := true } [.schedTime]
  | schedTime : Move m .schedTime .go m [.poll ((peek Timer.cmp m.heap).map (fun x => (m.clock, schedTimeout m.clock x)))]
  | poll (sched : Option (Nat × Nat)) : Move m (.poll sched) .go { m with woken := false } [.timers]
  | empty (he : m.heap = []) : Move m .timers .go m [.schedTime]
  | due (hl : m.locked = false) : Move m .timers .go { m with locked := true } [.drain m.clock m.heap []]
  | notDue (hf : Finished m m.clock) :
      Move m .timers .go { m with locked := false, polls := m.polls ++ [⟨m.clock, m.heap, [], m.heap⟩] } [.schedTime]
  | finish (tick : Nat) (before handed : List Timer) (hf : Finished m tick) :
      Move m (.drain tick before handed) .go { m with locked := false, polls := m.polls ++ [⟨tick, before, handed, m.heap⟩] }
        [.schedTime]
  | hand (tick : Nat) (before handed : List Timer) {i : Nat} {x : Timer} {rest : List Timer}
      (hx : x.when ≤ tick) (hfirst : ∀ y ∈ m.heap, x.when ≤ y.when) (hp : m.heap.Perm (x :: rest)) :
      Move m (.drain tick before handed) (.pop i) { m with heap := rest, injector := m.injector ++ [x] }
        [.drain tick before (handed ++ [x])]

/-- Every step is one of these. -/
theorem exec_move (he : exec m op c = some (m', new)) : Move m op c m' new := by
  cases op with
  | getClock n timeout =>
    cases c <;> simp only [exec, reduceCtorEq, Option.some.injEq, Prod.mk.injEq] at he
    obtain ⟨rfl, rfl⟩ := he
    exact .getClock n timeout
  | push x =>
    cases c <;> simp only [exec, reduceCtorEq] at he
    split at he
    · cases he
    · rename_i hl
      obtain ⟨rfl, rfl⟩ := Prod.mk.inj (Option.some.inj he)
      exact .push x (Bool.eq_false_iff.mpr hl)
  | wake n =>
    cases c <;> simp only [exec, reduceCtorEq, Option.some.injEq, Prod.mk.injEq] at he
    obtain ⟨rfl, rfl⟩ := he
    exact .wake n
  | setWaker =>
    cases c <;> simp only [exec, reduceCtorEq, Option.some.injEq, Prod.mk.injEq] at he
    obtain ⟨rfl, rfl⟩ := he
    exact .setWaker
  | schedTime =>
    cases c <;> simp only [exec, reduceCtorEq] at he
    split at he
    · cases he
    · obtain ⟨rfl, rfl⟩ := Prod.mk.inj (Option.some.inj he)
      exact .schedTime
  | poll sched =>
    cases c <;> simp only [exec, reduceCtorEq, Option.some.injEq, Prod.mk.injEq] at he
    obtain ⟨rfl, rfl⟩ := he
    exact .poll sched
  | timers =>
    cases c <;> simp only [exec, reduceCtorEq] at he
    split at he
    · cases he
    · rename_i hl
      split at he
      · rename_i hp
        obtain ⟨rfl, rfl⟩ := Prod.mk.inj (Option.some.inj he)
        exact .empty (peek_eq_none hp)
      · rename_i x hp
        split at he
        · obtain ⟨rfl, rfl⟩ := Prod.mk.inj (Option.some.inj he)
          exact .due (Bool.eq_false_iff.mpr hl)
        · rename_i hx
          obtain ⟨rfl, rfl⟩ := Prod.mk.inj (Option.some.inj he)
          exact .notDue (fun y hy => Nat.lt_of_lt_of_le (Nat.lt_of_not_le hx) ((peek_earliest hp).2 y hy))
  | drain tick before handed =>
    cases c with
    | go =>
      simp only [exec] at he
      split at he
      · rename_i hp
        obtain ⟨rfl, rfl⟩ := Prod.mk.inj (Option.some.inj he)
        exact .finish tick before handed (by simp [Finished, peek_eq_none hp])
      · rename_i x hp
        split at he
        · rename_i hx
          obtain ⟨rfl, rfl⟩ := Prod.mk.inj (Option.some.inj he)
          exact .finish tick before handed (fun y hy => Nat.lt_of_lt_of_le hx ((peek_earliest hp).2 y hy))
        · cases he
    | pop i =>
      simp only [exec] at he
      split at he
      · cases he
      · rename_i x hp
        split at he
        · cases he
        · rename_i hx
          obtain ⟨⟨y, rest⟩, hpop, hr⟩ := Option.map_eq_some_iff.mp he
          obtain ⟨rfl, rfl⟩ := Prod.mk.inj hr
          -- the timer popped is as early as the one looked at
          obtain ⟨hi, -, hg⟩ := popAt_eq_some hpop
          obtain ⟨hxm, -⟩ := peek_earliest hp
          have hfirst : ∀ z ∈ m.heap, y.when ≤ z.when := fun z hz => Timer.isLE_cmp.mp (hg z hz)
          have hdue : y.when ≤ tick := Nat.le_trans (hfirst x hxm) (Nat.le_of_not_lt hx)
          exact .hand tick before handed hdue hfirst (perm_of_popAt hpop)

/-! ## Where the timers are -/

/-- Whether an operation holds the timer of a registration. -/
def holding (n : Nat) (op : Op) : Nat := isAt op.holds n

/-- Whether a timer is the one of a registration. -/
def isTimer (n : Nat) (x : Timer) : Nat := isAt (some x.target) n

/-- The timer of a registration is at one place: held by it, in the heap, or in the injector. -/
def Placed (m : Mem) (ops : List Op) : Prop :=
  ∀ n, total (holding n) ops + total (isTimer n) m.heap + total (isTimer n) m.injector = if n < m.next then 1 else 0

theorem Move.placed (h : Move m op c m' new) (n : Nat) :
    m'.next = m.next ∧ total (holding n) new + total (isTimer n) m'.heap + total (isTimer n) m'.injector =
      holding n op + total (isTimer n) m.heap + total (isTimer n) m.injector := by
  cases h with
  | push x => exact ⟨rfl, by simp [holding, isTimer, Op.holds]; omega⟩
  | hand tick before handed hx hfirst hp =>
    refine ⟨rfl, ?_⟩
    rw [total_perm _ hp]
    simp only [holding, Op.holds, isAt_none, total_cons, total_nil, total_append]
    omega
  | _ => exact ⟨rfl, by simp [holding, Op.holds]⟩

/-- In every state of every run. -/
theorem Placed.reach {ok : Mem → List Op → Act Op Choice Call → Prop} {s : State Mem Op} (h : machine.Reach ok initial s) :
    Placed s.mem s.ops := by
  refine h.invariant (I := Placed) (fun n => by simp [initial, State.ops, holding, Op.holds]) ?_ ?_
  · intro m A op B c m' new hI _ he n
    obtain ⟨hnext, heq⟩ := (exec_move he).placed n
    have hstep := total_step (holding n) A B new op
    have := hI n
    rw [hnext]
    omega
  · intro m ops l m' new hI _ hc n
    cases l with
    | register timeout =>
      simp only [machine, call] at hc
      split at hc
      · obtain ⟨rfl, rfl⟩ := Prod.mk.inj (Option.some.inj hc)
        have hn := hI n
        simp only [total_append, total_cons, total_nil, holding, Op.holds] at hn ⊢
        by_cases hnn : m.next = n
        · subst hnn
          simp only [Nat.lt_irrefl, if_false, isAt_self] at hn ⊢
          rw [if_pos (Nat.lt_succ_self _)]
          omega
        · rw [isAt_some_of_ne hnn]
          split at hn <;> split <;> omega
      · cases hc
    | advance d =>
      obtain ⟨rfl, rfl⟩ := Prod.mk.inj (Option.some.inj hc)
      simpa using hI n

/-! ## The timeout of a poll -/

/-- A timer that has not been handed over is due less than a `u64` from now. -/
structure Ahead (m : Mem) (ops : List Op) : Prop where
  timeout : ∀ n timeout, Op.getClock n timeout ∈ ops → timeout < 2 ^ 64
  push : ∀ x, Op.push x ∈ ops → x.when < m.clock + 2 ^ 64
  heap : ∀ x ∈ m.heap, x.when < m.clock + 2 ^ 64

/-- A step reads the clock and does not move it, and a timer enters the heap by a push. -/
theorem Move.heap (h : Move m op c m' new) : m'.clock = m.clock ∧ ∀ y ∈ m'.heap, y ∈ m.heap ∨ op = .push y := by
  cases h with
  | push x =>
    refine ⟨rfl, fun y hy => (List.mem_append.mp hy).imp_right (fun hyx => ?_)⟩
    rw [List.mem_singleton.mp hyx]
  | hand tick before handed hx hfirst hp => exact ⟨rfl, fun y hy => Or.inl (hp.symm.subset (List.mem_cons_of_mem _ hy))⟩
  | _ => exact ⟨rfl, fun y hy => Or.inl hy⟩

/-- In every state of every run. -/
theorem Ahead.reach {ok : Mem → List Op → Act Op Choice Call → Prop} {s : State Mem Op} (h : machine.Reach ok initial s) :
    Ahead s.mem s.ops := by
  refine h.invariant (I := Ahead) ⟨by simp [initial, State.ops], by simp [initial, State.ops], by simp [initial]⟩ ?_ ?_
  · intro m A op B c m' new hI _ he
    have hm := exec_move he
    obtain ⟨hclock, hheap⟩ := hm.heap
    refine ⟨fun n timeout hx => ?_, fun x hx => ?_, fun x hx => ?_⟩
    · refine hI.timeout n timeout ((Machine.mem_cases op hx).resolve_left (fun hnew => ?_))
      cases hm <;> simp at hnew
    · rw [hclock]
      rcases Machine.mem_cases op hx with hnew | hold
      · -- a timer is pushed that was made from the clock
        cases hm with
        | getClock n timeout =>
          obtain rfl : x = ⟨m.clock + timeout, n⟩ := by simpa using hnew
          have := hI.timeout n timeout (by simp)
          simp only
          omega
        | _ => simp at hnew
      · exact hI.push x hold
    · rw [hclock]
      rcases hheap x hx with hold | rfl
      · exact hI.heap x hold
      · exact hI.push x (by simp)
  · intro m ops l m' new hI _ hc
    cases l with
    | register timeout =>
      simp only [machine, call] at hc
      split at hc
      · rename_i hlt
        obtain ⟨rfl, rfl⟩ := Prod.mk.inj (Option.some.inj hc)
        refine ⟨fun n t hx => ?_, fun x hx => hI.push x (by simpa using hx), hI.heap⟩
        rcases List.mem_append.mp hx with hx | hx
        · exact hI.timeout n t hx
        · obtain ⟨-, rfl⟩ : n = m.next ∧ t = timeout := by simpa using hx
          exact hlt
      · cases hc
    | advance d =>
      obtain ⟨rfl, rfl⟩ := Prod.mk.inj (Option.some.inj hc)
      rw [List.append_nil]
      refine ⟨hI.timeout, fun x hx => ?_, fun x hx => ?_⟩
      · have := hI.push x hx
        simp only
        omega
      · have := hI.heap x hx
        simp only
        omega

/-- The timeout of a poll is what is left until the first timer. -/
theorem Ahead.schedTimeout_eq (h : Ahead m ops) (hx : x ∈ m.heap) (hpos : 0 < schedTimeout m.clock x) :
    m.clock + schedTimeout m.clock x = x.when := by
  have hlt := h.heap x hx
  unfold schedTimeout at hpos ⊢
  split
  · rw [Nat.mod_eq_of_lt (by omega)]
    omega
  · rename_i hle
    rw [if_neg hle] at hpos
    exact absurd hpos (Nat.lt_irrefl 0)

/-! ## The poller -/

/-- The operations of the poller. -/
def polling : Op → Nat
  | .setWaker | .schedTime | .poll _ | .timers | .drain _ _ _ => 1
  | _ => 0

/-- There is one poller, and it polls after it has set the waker. -/
structure Poller (m : Mem) (ops : List Op) : Prop where
  one : total polling ops = 1
  waker : ∀ op ∈ ops, polling op = 1 → op = .setWaker ∨ m.waker = true

theorem Move.polling (h : Move m op c m' new) : total Time.polling new = Time.polling op := by
  cases h <;> rfl

theorem Poller.exec (h : Poller m (A ++ op :: B)) (hm : Move m op c m' new) : Poller m' (A ++ (new ++ B)) := by
  have hmono : m.waker = true → m'.waker = true := by
    intro hw
    cases hm <;> first | exact hw | rfl
  refine ⟨?_, fun x hx hp => ?_⟩
  · have hstep := total_step Time.polling A B new op
    have hone := h.one
    rw [hm.polling] at hstep
    omega
  · rcases Machine.mem_cases op hx with hnew | hold
    · -- the poller goes on after it has set the waker
      have hop : Time.polling op = 1 := by
        have hle : Time.polling x ≤ total Time.polling new := le_total_of_mem hnew
        rw [hm.polling, hp] at hle
        cases op <;> first | rfl | cases hle
      rcases h.waker op (by simp) hop with rfl | hw
      · cases hm
        exact Or.inr rfl
      · exact Or.inr (hmono hw)
    · exact (h.waker x hold hp).imp_right hmono

/-- Next to an operation of the poller there is none. -/
theorem Poller.beside (h : Poller m (A ++ op :: B)) (hop : Time.polling op = 1) {y : Op} (hy : y ∈ A ++ B) : Time.polling y = 0 :=
  eq_zero_of_total_le (Nat.le_of_eq h.one) hop y hy

/-- In every state of every run. -/
theorem Poller.reach {ok : Mem → List Op → Act Op Choice Call → Prop} {s : State Mem Op} (h : machine.Reach ok initial s) :
    Poller s.mem s.ops := by
  refine h.invariant (I := Poller) ⟨rfl, by simp [initial, State.ops]⟩ ?_ ?_
  · exact fun m A op B c m' new hI _ he => hI.exec (exec_move he)
  · intro m ops l m' new hI _ hc
    cases l with
    | register timeout =>
      simp only [machine, call] at hc
      split at hc
      · obtain ⟨rfl, rfl⟩ := Prod.mk.inj (Option.some.inj hc)
        refine ⟨by simpa [Time.polling] using hI.one, fun op hop hp => ?_⟩
        rcases List.mem_append.mp hop with hop | hop
        · exact hI.waker op hop hp
        · obtain rfl := List.mem_singleton.mp hop
          cases hp
      · cases hc
    | advance d =>
      obtain ⟨rfl, rfl⟩ := Prod.mk.inj (Option.some.inj hc)
      rw [List.append_nil]
      exact ⟨hI.one, hI.waker⟩

/-! ## Handing over -/

/-- A look at the heap in which timers are handed over: the poller has the mutex; what was handed over and what is left is what it found;
what was handed over was due, is in order, and comes before what is left. -/
structure Draining (m : Mem) (tick : Nat) (before handed : List Timer) : Prop where
  locked : m.locked = true
  clock : tick ≤ m.clock
  perm : (handed ++ m.heap).Perm before
  due : ∀ x ∈ handed, x.when ≤ tick
  sorted : handed.Pairwise (fun x y => x.when ≤ y.when)
  first : ∀ x ∈ handed, ∀ y ∈ m.heap, x.when ≤ y.when

/-- A poll hands over what is due at its tick, in order, and leaves the rest. -/
structure Drain.Exact (p : Drain) : Prop where
  handed : p.handed.Perm (p.before.filter (fun x => x.when ≤ p.tick))
  after : p.after.Perm (p.before.filter (fun x => p.tick < x.when))
  sorted : p.handed.Pairwise (fun x y => x.when ≤ y.when)

/-- What is left when nothing due is left. -/
theorem Draining.exact {tick : Nat} {before handed : List Timer} (h : Draining m tick before handed) (hf : Finished m tick) :
    Drain.Exact ⟨tick, before, handed, m.heap⟩ := by
  have hperm := h.perm.symm
  refine ⟨?_, ?_, h.sorted⟩
  · refine ((hperm.filter (fun x => decide (x.when ≤ tick))).trans ?_).symm
    rw [List.filter_append, List.filter_eq_self.mpr (fun x hx => by simpa using h.due x hx),
      List.filter_eq_nil_iff.mpr (fun x hx => by simpa using hf x hx), List.append_nil]
  · refine ((hperm.filter (fun x => decide (tick < x.when))).trans ?_).symm
    rw [List.filter_append, List.filter_eq_nil_iff.mpr (fun x hx => by simpa using h.due x hx),
      List.filter_eq_self.mpr (fun x hx => by simpa using hf x hx), List.nil_append]

/-- Handing one more timer over. -/
theorem Draining.hand {tick : Nat} {before handed rest : List Timer} (h : Draining m tick before handed) (hx : x.when ≤ tick)
    (hfirst : ∀ y ∈ m.heap, x.when ≤ y.when) (hp : m.heap.Perm (x :: rest)) :
    Draining { m with heap := rest, injector := m.injector ++ [x] } tick before (handed ++ [x]) := by
  have hxm : x ∈ m.heap := hp.symm.subset List.mem_cons_self
  have hrest : ∀ y ∈ rest, y ∈ m.heap := fun y hy => hp.symm.subset (List.mem_cons_of_mem _ hy)
  refine ⟨h.locked, h.clock, ?_, fun y hy => ?_, ?_, fun y hy z hz => ?_⟩
  · rw [List.append_assoc]
    exact (List.Perm.append_left handed hp.symm).trans h.perm
  · rcases List.mem_append.mp hy with hy | hy
    · exact h.due y hy
    · rw [List.mem_singleton.mp hy]
      exact hx
  · refine List.pairwise_append.mpr ⟨h.sorted, List.pairwise_singleton _ _, fun y hy z hz => ?_⟩
    rw [List.mem_singleton.mp hz]
    exact h.first y hy x hxm
  · rcases List.mem_append.mp hy with hy | hy
    · exact h.first y hy z (hrest z hz)
    · rw [List.mem_singleton.mp hy]
      exact hfirst z (hrest z hz)

/-- The polls so far were exact, and the one in progress is on its way. -/
structure Handing (m : Mem) (ops : List Op) : Prop where
  draining : ∀ tick before handed, Op.drain tick before handed ∈ ops → Draining m tick before handed
  polls : ∀ p ∈ m.polls, p.Exact

/-- A look at the heap goes on beside the steps of others: they cannot push while it has the mutex. -/
theorem Draining.keep {tick : Nat} {before handed : List Timer} (h : Draining m tick before handed) (hl : m'.locked = m.locked)
    (hc : m.clock ≤ m'.clock) (hh : m'.heap = m.heap) : Draining m' tick before handed :=
  ⟨hl.trans h.locked, Nat.le_trans h.clock hc, hh ▸ h.perm, h.due, h.sorted, hh ▸ h.first⟩

theorem Handing.exec (h : Handing m (A ++ op :: B)) (hP : Poller m (A ++ op :: B)) (hm : Move m op c m' new) :
    Handing m' (A ++ (new ++ B)) := by
  -- a step of the poller leaves no other look at the heap
  have hnone : polling op = 1 → ∀ {tick before handed}, Op.drain tick before handed ∈ A ++ B → False := fun hop _ _ _ hx => by
    cases hP.beside hop hx
  have hbeside : ∀ {tick before handed}, Op.drain tick before handed ∈ A ++ B → Draining m tick before handed := fun hx =>
    h.draining _ _ _ (Machine.mem_before op hx)
  refine ⟨fun tick before handed hx => ?_, fun p hp => ?_⟩
  · rcases Machine.mem_beside hx with hnew | hold
    · cases hm with
      | due hl =>
        obtain ⟨rfl, rfl, rfl⟩ : tick = m.clock ∧ before = m.heap ∧ handed = [] := by simpa using hnew
        exact ⟨rfl, Nat.le_refl _, List.Perm.refl _, List.forall_mem_nil _, List.Pairwise.nil, List.forall_mem_nil _⟩
      | hand tick' before' handed' hdue hfirst hperm =>
        obtain ⟨rfl, rfl, rfl⟩ : tick = tick' ∧ before = before' ∧ handed = handed' ++ [_] := by simpa using hnew
        exact (h.draining tick before handed' (by simp)).hand hdue hfirst hperm
      | _ => simp at hnew
    · cases hm with
      | getClock n timeout => exact hbeside hold
      | push x hl =>
        have := (hbeside hold).locked
        rw [hl] at this
        cases this
      | wake n => exact (hbeside hold).keep rfl (Nat.le_refl _) rfl
      | _ => exact (hnone rfl hold).elim
  · cases hm with
    | notDue hf =>
      rcases List.mem_append.mp hp with hp | hp
      · exact h.polls p hp
      · obtain rfl := List.mem_singleton.mp hp
        have hall : m.heap.filter (fun x => decide (m.clock < x.when)) = m.heap :=
          List.filter_eq_self.mpr (fun x hx => by simpa using hf x hx)
        have hnil : m.heap.filter (fun x => decide (x.when ≤ m.clock)) = [] :=
          List.filter_eq_nil_iff.mpr (fun x hx => by simpa using hf x hx)
        exact ⟨by simp [hnil], by simp [hall], List.Pairwise.nil⟩
    | finish tick before handed hf =>
      rcases List.mem_append.mp hp with hp | hp
      · exact h.polls p hp
      · obtain rfl := List.mem_singleton.mp hp
        exact (h.draining tick before handed (by simp)).exact hf
    | _ => exact h.polls p hp

/-- A timer goes to the injector from the heap, when it is due. -/
theorem Move.injector (h : Move m op c m' new) :
    m'.injector = m.injector ∨ ∃ tick before handed i x, op = .drain tick before handed ∧ c = .pop i ∧ x ∈ m.heap ∧ x.when ≤ tick ∧
      m'.injector = m.injector ++ [x] := by
  cases h with
  | @hand tick before handed i x rest hx hfirst hp =>
    exact Or.inr ⟨tick, before, handed, i, x, rfl, rfl, hp.symm.subset List.mem_cons_self, hx, rfl⟩
  | _ => exact Or.inl rfl

/-- In every state of every run. -/
theorem Handing.reach {ok : Mem → List Op → Act Op Choice Call → Prop} {s : State Mem Op} (h : machine.Reach ok initial s) :
    Handing s.mem s.ops := by
  refine h.invariant_with (J := Poller) (I := Handing) Poller.reach ⟨by simp [initial, State.ops], by simp [initial]⟩ ?_ ?_
  · exact fun m A op B c m' new hP hI _ he => hI.exec hP (exec_move he)
  · intro m ops l m' new _ hI _ hc
    cases l with
    | register timeout =>
      simp only [machine, call] at hc
      split at hc
      · obtain ⟨rfl, rfl⟩ := Prod.mk.inj (Option.some.inj hc)
        exact ⟨fun tick before handed hx => (hI.draining tick before handed (by simpa using hx)).keep rfl (Nat.le_refl _) rfl,
          hI.polls⟩
      · cases hc
    | advance d =>
      obtain ⟨rfl, rfl⟩ := Prod.mk.inj (Option.some.inj hc)
      exact ⟨fun tick before handed hx =>
        (hI.draining tick before handed (by simpa using hx)).keep rfl (Nat.le_add_right _ _) rfl, hI.polls⟩

/-! ## Blocking -/

/-- While the poller blocks and has not been woken, a timer that is due before the poll times out belongs to a registration that has not
woken it yet. -/
def Sleeping (m : Mem) (ops : List Op) : Prop :=
  ∀ sched, Op.poll sched ∈ ops → m.woken = false → Blocks sched → ∀ x ∈ m.heap, DueBefore x sched → Op.wake x.target ∈ ops

/-- The timeout is computed from the first timer, so none is due before it. -/
theorem not_dueBefore (hA : Ahead m ops) (hy : y ∈ m.heap)
    (hb : Blocks ((peek Timer.cmp m.heap).map (fun x => (m.clock, schedTimeout m.clock x)))) :
    ¬DueBefore y ((peek Timer.cmp m.heap).map (fun x => (m.clock, schedTimeout m.clock x))) := by
  cases hp : peek Timer.cmp m.heap with
  | none =>
    rw [peek_eq_none hp] at hy
    cases hy
  | some x =>
    rw [hp] at hb
    obtain ⟨hx, hfirst⟩ := peek_earliest hp
    have heq := hA.schedTimeout_eq hx hb
    have hle := hfirst y hy
    simp only [Option.map_some, DueBefore]
    omega

theorem Sleeping.exec (h : Sleeping m (A ++ op :: B)) (hP : Poller m (A ++ op :: B)) (hA : Ahead m (A ++ op :: B))
    (hm : Move m op c m' new) : Sleeping m' (A ++ (new ++ B)) := by
  intro sched hpoll hw hb x hx hdue
  rcases Machine.mem_beside hpoll with hnew | hold
  · cases hm with
    | schedTime =>
      obtain rfl := Op.poll.inj (List.mem_singleton.mp hnew)
      exact absurd hdue (not_dueBefore hA hx hb)
    | _ => simp at hnew
  · have hmem : Op.poll sched ∈ A ++ op :: B := Machine.mem_before op hold
    have hkeep : op ≠ .wake x.target → Op.wake x.target ∈ A ++ op :: B → Op.wake x.target ∈ A ++ (new ++ B) :=
      fun hne hx => Machine.mem_keep hx (Ne.symm hne)
    cases hm with
    | getClock n timeout => exact hkeep (by simp) (h sched hmem hw hb x hx hdue)
    | push y =>
      rcases List.mem_append.mp hx with hx | hx
      · exact hkeep (by simp) (h sched hmem hw hb x hx hdue)
      · rw [List.mem_singleton.mp hx]
        exact Machine.mem_new (List.mem_singleton_self _)
    | wake n =>
      -- the poller has a waker, so it is woken
      rcases hP.waker _ hmem rfl with hset | hwaker
      · cases hset
      · simp [hwaker] at hw
    | _ => cases hP.beside rfl hold

/-- In every state of every run. -/
theorem Sleeping.reach {ok : Mem → List Op → Act Op Choice Call → Prop} {s : State Mem Op} (h : machine.Reach ok initial s) :
    Sleeping s.mem s.ops := by
  refine h.invariant_with (J := fun m ops => Poller m ops ∧ Ahead m ops) (I := Sleeping)
    (fun hr => ⟨Poller.reach hr, Ahead.reach hr⟩) (by simp [Sleeping, initial, State.ops]) ?_ ?_
  · exact fun m A op B c m' new hJ hI _ he => hI.exec hJ.1 hJ.2 (exec_move he)
  · intro m ops l m' new _ hI _ hc sched hpoll hw hb x hx hdue
    refine List.mem_append_left _ ?_
    cases l with
    | register timeout =>
      simp only [machine, call] at hc
      split at hc
      · obtain ⟨rfl, rfl⟩ := Prod.mk.inj (Option.some.inj hc)
        exact hI sched (by simpa using hpoll) hw hb x hx hdue
      · cases hc
    | advance d =>
      obtain ⟨rfl, rfl⟩ := Prod.mk.inj (Option.some.inj hc)
      exact hI sched (by simpa using hpoll) hw hb x hx hdue

end Tonio.Time
