import Tonio.Scope

/-!
# The children of a scope

`Guarded` is the protocol of `_exit`: the mutex of the waiter is held by one exit at a time, and the waiter is made once. `Numbered` says
that a child is the business of one thread. `Placed` finds every scheduled child on the stack, in the hands of the exit that took the
stack, or among the events of the waiter. `Marked` says who sets an event: the child that ended, or an exit that aborts the child.

`Drained` and `Uncut` need a condition on the steps. When no child escapes, the stack stays empty from the moment it is taken; when none is
cut off, an event that is set belongs to a child that has ended.
-/

namespace Tonio.Scope

open Interleaving

variable {m m' : Mem} {A B new ops : List Op} {op : Op} {c : Choice}

/-! ## The steps -/

/-- What an operation does. -/
inductive Move (m : Mem) : Op → Choice → Mem → List Op → Prop where
  | refuse (h : 1 < m.consumed) : Move m .trackLoad .go m []
  | track (h : m.consumed ≤ 1) : Move m .trackLoad .go { m with next := m.next + 1 } [.trackPush m.next]
  | push (k : Nat) : Move m (.trackPush k) .go { m with stack := m.stack ++ [k] } [.schedule k]
  | schedule (k : Nat) : Move m (.schedule k) .go { m with scheduled := Function.update m.scheduled k true } [.start k]
  | start (k : Nat) (h : m.aborted k = false) : Move m (.start k) .go m [.run k]
  | startAborted (k : Nat) (h : m.aborted k = true) : Move m (.start k) .go m [.unwind k]
  | run (k : Nat) : Move m (.run k) .go m [.run k]
  | runOver (k : Nat) : Move m (.run k) .ended m [.finish k]
  | cancelled (k : Nat) (h : m.aborted k = true) : Move m (.run k) .cancel m [.unwind k]
  | unwind (k : Nat) : Move m (.unwind k) .go m [.unwind k]
  | unwindOver (k : Nat) : Move m (.unwind k) .ended m [.finish k]
  | finish (k : Nat) : Move m (.finish k) .go { m with event := Function.update m.event k true } []
  | incr : Move m .incr .go { m with consumed := if m.consumed = 1 then 2 else m.consumed } [.yieldNow]
  | yieldNow : Move m .yieldNow .go m [.exitLock]
  | yieldCancelled : Move m .yieldNow .cancel m []
  | lock (h : m.mutex = false) : Move m .exitLock .go { m with mutex := true } [.exitGuard]
  | consumed (h : m.waiter ≠ none) : Move m .exitGuard .go { m with mutex := false } []
  | unconsumed (h : m.waiter = none) : Move m .exitGuard .go m [.exitTake]
  | take : Move m .exitTake .go { m with stack := [] } [.exitLoad m.stack]
  | load (rest : List Nat) : Move m (.exitLoad rest) .go m [.exitNext m.cancelled rest []]
  | keep (k : Nat) (rest events : List Nat) :
      Move m (.exitNext false (k :: rest) events) .go m [.exitNext false rest (events ++ [k])]
  | visit (k : Nat) (rest events : List Nat) : Move m (.exitNext true (k :: rest) events) .go m [.exitIsSet k rest events]
  | isSet (k : Nat) (rest events : List Nat) (h : m.event k = true) :
      Move m (.exitIsSet k rest events) .go m [.exitNext true rest (events ++ [k])]
  | notSet (k : Nat) (rest events : List Nat) (h : m.event k = false) :
      Move m (.exitIsSet k rest events) .go m [.exitSet k rest events]
  | set (k : Nat) (rest events : List Nat) :
      Move m (.exitSet k rest events) .go { m with event := Function.update m.event k true } [.exitAbort k rest events]
  | abort (k : Nat) (rest events : List Nat) :
      Move m (.exitAbort k rest events) .go { m with aborted := Function.update m.aborted k true }
        [.exitNext true rest (events ++ [k])]
  | exit (cancelled : Bool) (events : List Nat) :
      Move m (.exitNext cancelled [] events) .go { m with waiter := some events, mutex := false, seen := cancelled } [.wait events]
  | resume (events : List Nat) (h : ∀ k ∈ events, m.event k = true) : Move m (.wait events) .go { m with resumed := true } []
  | waitCancelled (events : List Nat) : Move m (.wait events) .cancel m []
  | cancel : Move m .cancel .go { m with cancelled := true } []

/-- Every step is one of these. -/
theorem exec_move (he : exec m op c = some (m', new)) : Move m op c m' new := by
  cases op with
  | trackLoad =>
    cases c <;> simp only [exec, reduceCtorEq] at he
    split at he <;> rename_i h <;> obtain ⟨rfl, rfl⟩ : _ ∧ _ := by simpa using he
    · exact .refuse h
    · exact .track (Nat.le_of_not_lt h)
  | start k =>
    cases c <;> simp only [exec, reduceCtorEq] at he
    split at he <;> rename_i h <;> obtain ⟨rfl, rfl⟩ : _ ∧ _ := by simpa using he
    · exact .startAborted k h
    · exact .start k (by simpa using h)
  | run k =>
    cases c <;> simp only [exec] at he
    · obtain ⟨rfl, rfl⟩ : _ ∧ _ := by simpa using he
      exact .run k
    · obtain ⟨rfl, rfl⟩ : _ ∧ _ := by simpa using he
      exact .runOver k
    · split at he
      · rename_i h
        obtain ⟨rfl, rfl⟩ : _ ∧ _ := by simpa using he
        exact .cancelled k h
      · cases he
  | exitLock =>
    cases c <;> simp only [exec, reduceCtorEq] at he
    split at he
    · cases he
    · rename_i h
      obtain ⟨rfl, rfl⟩ : _ ∧ _ := by simpa using he
      exact .lock (by simpa using h)
  | exitGuard =>
    cases c <;> simp only [exec, reduceCtorEq] at he
    split at he <;> rename_i h <;> obtain ⟨rfl, rfl⟩ : _ ∧ _ := by simpa using he
    · exact .consumed (by simpa [Option.isSome_iff_ne_none] using h)
    · exact .unconsumed (by simpa using h)
  | exitNext b rest events =>
    cases rest <;> cases c <;> simp only [exec, reduceCtorEq] at he
    · obtain ⟨rfl, rfl⟩ : _ ∧ _ := by simpa using he
      exact .exit b events
    · cases b <;> obtain ⟨rfl, rfl⟩ : _ ∧ _ := by simpa using he
      · exact .keep _ _ _
      · exact .visit _ _ _
  | exitIsSet k rest events =>
    cases c <;> simp only [exec, reduceCtorEq] at he
    split at he <;> rename_i h <;> obtain ⟨rfl, rfl⟩ : _ ∧ _ := by simpa using he
    · exact .isSet _ _ _ h
    · exact .notSet _ _ _ (by simpa using h)
  | wait events =>
    cases c <;> simp only [exec, reduceCtorEq] at he
    · split at he
      · rename_i h
        obtain ⟨rfl, rfl⟩ : _ ∧ _ := by simpa using he
        exact .resume _ (by simpa using h)
      · cases he
    · obtain ⟨rfl, rfl⟩ : _ ∧ _ := by simpa using he
      exact .waitCancelled _
  | _ =>
    cases c <;> simp only [exec, reduceCtorEq] at he
    all_goals
      obtain ⟨rfl, rfl⟩ : _ ∧ _ := by simpa using he
      constructor

/-- A call changes nothing in the memory, and starts one of three threads. -/
theorem call_cases {l : Call} (hc : call m l = some (m', new)) : m' = m ∧ (new = [.trackLoad] ∨ new = [.incr] ∨ new = [.cancel]) := by
  cases l <;> obtain ⟨rfl, rfl⟩ : _ ∧ _ := by simpa [call] using hc
  · exact ⟨rfl, Or.inl rfl⟩
  · exact ⟨rfl, Or.inr (Or.inl rfl)⟩
  · exact ⟨rfl, Or.inr (Or.inr rfl)⟩

/-! ## The exit -/

/-- The operations of an exit that has advanced `consumed`. -/
def Op.past : Op → Bool
  | .yieldNow | .exitLock | .exitGuard | .exitTake | .exitLoad _ | .exitNext _ _ _ | .exitIsSet _ _ _ | .exitSet _ _ _
  | .exitAbort _ _ _ | .wait _ => true
  | _ => false

/-- The operations of an exit that has taken the stack and not made its waiter. -/
def Op.taken : Op → Bool
  | .exitLoad _ | .exitNext _ _ _ | .exitIsSet _ _ _ | .exitSet _ _ _ | .exitAbort _ _ _ => true
  | _ => false

/-- The operations of an exit that has found no waiter. -/
def Op.opens : Op → Bool
  | .exitTake => true
  | op => op.taken

/-- The operations under the mutex of the waiter. -/
def holding : Op → Nat
  | .exitGuard => 1
  | op => op.opens.toNat

theorem Op.opens_of_taken (h : op.taken = true) : op.opens = true := by
  cases op <;> simp_all [Op.taken, Op.opens]

theorem holding_of_opens (h : op.opens = true) : holding op = 1 := by
  cases op <;> simp_all [Op.opens, Op.taken, holding]

/-- The protocol of `_exit`. -/
structure Guarded (m : Mem) (ops : List Op) : Prop where
  entered : 1 ≤ m.consumed
  past : ∀ x ∈ ops, x.past = true → 2 ≤ m.consumed
  left : m.waiter ≠ none → 2 ≤ m.consumed
  holder : total holding ops = m.mutex.toNat
  opens : ∀ x ∈ ops, x.opens = true → m.waiter = none
  waits : ∀ events, Op.wait events ∈ ops → m.waiter = some events

theorem Move.consumed_le (h : Move m op c m' new) : m.consumed ≤ m'.consumed := by
  cases h with
  | incr =>
    show m.consumed ≤ if m.consumed = 1 then 2 else m.consumed
    split <;> omega
  | _ => exact Nat.le_refl _

/-- What is past the increment after a step was so before, or the step made it. -/
theorem Move.past (h : Move m op c m' new) (h1 : 1 ≤ m.consumed) {x : Op} (hx : x ∈ new) (hp : x.past = true) :
    op.past = true ∨ 2 ≤ m'.consumed := by
  cases h with
  | incr =>
    refine Or.inr ?_
    show 2 ≤ if m.consumed = 1 then 2 else m.consumed
    split <;> omega
  | _ => simp_all [Op.past]

theorem Move.holding (h : Move m op c m' new) (hle : holding op ≤ m.mutex.toNat) :
    total holding new + m.mutex.toNat = holding op + m'.mutex.toNat := by
  cases h with
  | consumed | exit => cases hmx : m.mutex <;> simp_all [Scope.holding, Op.opens, Op.taken]
  | _ => simp_all [Scope.holding, Op.opens, Op.taken]

/-- An exit goes on with no waiter. -/
theorem Move.opens (h : Move m op c m' new) {x : Op} (hx : x ∈ new) (ho : x.opens = true) :
    m'.waiter = m.waiter ∧ (op.opens = true ∨ m.waiter = none) := by
  cases h with
  | unconsumed h => exact ⟨rfl, Or.inr h⟩
  | _ => simp_all [Op.opens, Op.taken]

/-- The waiter is made once, by an exit. -/
theorem Move.waiter (h : Move m op c m' new) :
    m'.waiter = m.waiter ∧ (∀ events, Op.wait events ∉ new) ∨
      ∃ b events, op = .exitNext b [] events ∧ m' = { m with waiter := some events, mutex := false, seen := b } ∧
        new = [.wait events] := by
  cases h with
  | exit b events => exact Or.inr ⟨b, events, rfl, rfl, rfl⟩
  | _ => exact Or.inl ⟨rfl, by simp⟩

theorem Guarded.move (h : Guarded m (A ++ op :: B)) (hm : Move m op c m' new) : Guarded m' (A ++ (new ++ B)) := by
  have hopin : op ∈ A ++ op :: B := by simp
  have hle : holding op ≤ m.mutex.toNat := h.holder ▸ le_total_of_mem hopin
  have hpast : ∀ x ∈ A ++ (new ++ B), x.past = true → 2 ≤ m'.consumed := by
    intro x hx hp
    rcases Machine.mem_cases op hx with hx | hx
    · rcases hm.past h.entered hx hp with hop | hc
      · exact Nat.le_trans (h.past op hopin hop) hm.consumed_le
      · exact hc
    · exact Nat.le_trans (h.past x hx hp) hm.consumed_le
  refine ⟨Nat.le_trans h.entered hm.consumed_le, hpast, fun hw => ?_, ?_, fun x hx ho => ?_, fun events hx => ?_⟩
  · rcases hm.waiter with ⟨he, -⟩ | ⟨b, events, rfl, rfl, rfl⟩
    · exact Nat.le_trans (h.left (he ▸ hw)) hm.consumed_le
    · exact hpast (.wait events) (Machine.mem_new (by simp)) rfl
  · have h1 := total_step holding A B new op
    have h2 := hm.holding hle
    have h3 := h.holder
    omega
  · rcases Machine.mem_beside hx with hnew | hold
    · obtain ⟨he, hop | hw⟩ := hm.opens hnew ho
      · exact he.trans (h.opens op hopin hop)
      · exact he.trans hw
    · have hxin : x ∈ A ++ op :: B := by
        rcases List.mem_append.mp hold with hx | hx <;> simp [hx]
      rcases hm.waiter with ⟨he, -⟩ | ⟨b, events, rfl, rfl, rfl⟩
      · exact he.trans (h.opens x hxin ho)
      · -- the exit that makes the waiter is the only one under the mutex
        have hone : total holding (A ++ Op.exitNext b [] events :: B) ≤ 1 := h.holder ▸ Bool.toNat_le _
        have := eq_zero_of_total_le hone rfl x hold
        rw [holding_of_opens ho] at this
        cases this
  · rcases hm.waiter with ⟨he, hn⟩ | ⟨b, events', rfl, rfl, rfl⟩
    · rcases Machine.mem_cases op hx with hx | hx
      · exact absurd hx (hn events)
      · exact he.trans (h.waits events hx)
    · rcases Machine.mem_cases (Op.exitNext b [] events') hx with hx | hx
      · obtain rfl : events = events' := by simpa using hx
        rfl
      · have hw := h.waits events hx
        rw [h.opens _ hopin rfl] at hw
        cases hw

theorem Guarded.call {l : Call} (h : Guarded m ops) (hc : call m l = some (m', new)) : Guarded m' (ops ++ new) := by
  obtain ⟨rfl, hnew⟩ := call_cases hc
  have hidle : ∀ x ∈ new, x.past = false ∧ x.opens = false ∧ holding x = 0 ∧ ∀ events, x ≠ .wait events := by
    rcases hnew with rfl | rfl | rfl <;> simp [Op.past, Op.opens, Op.taken, holding]
  have hold : ∀ x ∈ ops ++ new, x ∈ ops ∨ x ∈ new := fun x hx => List.mem_append.mp hx
  refine ⟨h.entered, fun x hx hp => ?_, h.left, ?_, fun x hx ho => ?_, fun events hx => ?_⟩
  · rcases hold x hx with hx | hx
    · exact h.past x hx hp
    · simp [(hidle x hx).1] at hp
  · have : total holding new = 0 := total_eq_zero_iff.mpr (fun x hx => (hidle x hx).2.2.1)
    rw [total_append, this, h.holder]
    rfl
  · rcases hold x hx with hx | hx
    · exact h.opens x hx ho
    · simp [(hidle x hx).2.1] at ho
  · rcases hold _ hx with hx | hx
    · exact h.waits events hx
    · exact absurd rfl ((hidle _ hx).2.2.2 events)

theorem guarded_of_reach {ok : Mem → List Op → Act Op Choice Call → Prop} {s : State Mem Op} (h : machine.Reach ok initial s) :
    Guarded s.mem s.ops := by
  refine h.invariant ?_ ?_ ?_
  · exact ⟨Nat.le_refl 1, by simp [initial, State.ops], by simp [initial], rfl, by simp [initial, State.ops],
      by simp [initial, State.ops]⟩
  · exact fun m A op B c m' new ih _ he => ih.move (exec_move he)
  · exact fun m ops l m' new ih _ hc => ih.call hc

/-! ## The names of the children -/

/-- The child of an operation of `_track` or of the child's wrapper. -/
def Op.child : Op → Option Nat
  | .trackPush k | .schedule k | .start k | .run k | .unwind k | .finish k => some k
  | _ => none

/-- The children an exit took from the stack. -/
def Op.hands : Op → List Nat
  | .exitLoad rest => rest
  | .exitNext _ rest events => rest ++ events
  | .exitIsSet k rest events | .exitSet k rest events | .exitAbort k rest events => k :: (rest ++ events)
  | _ => []

/-- Whether an operation is one of a child. -/
def childAt (k : Nat) (op : Op) : Nat := isAt op.child k

theorem Op.child_of_runs {k : Nat} (h : op.runs = some k) : op.child = some k := by
  cases op <;> simp_all [Op.runs, Op.child]

theorem Op.taken_of_hands {k : Nat} (h : k ∈ op.hands) : op.taken = true := by
  cases op <;> simp_all [Op.hands, Op.taken]

/-- A child is the business of one thread, and was numbered when it was tracked. -/
structure Numbered (m : Mem) (ops : List Op) : Prop where
  single : ∀ k, total (childAt k) ops ≤ 1
  child : ∀ x ∈ ops, ∀ k, x.child = some k → k < m.next
  hands : ∀ x ∈ ops, ∀ k ∈ x.hands, k < m.next
  stack : ∀ k ∈ m.stack, k < m.next
  event : ∀ k, m.event k = true → k < m.next

theorem Move.next_le (h : Move m op c m' new) : m.next ≤ m'.next := by
  cases h with
  | track => exact Nat.le_succ _
  | _ => exact Nat.le_refl _

/-- A step passes a child on, or numbers a new one. -/
theorem Move.childAt (h : Move m op c m' new) (k : Nat) :
    total (childAt k) new ≤ childAt k op ∨ k = m.next ∧ total (Scope.childAt k) new ≤ 1 := by
  cases h with
  | track =>
    by_cases hk : m.next = k
    · exact Or.inr ⟨hk.symm, by simp [Scope.childAt, isAt_le]⟩
    · exact Or.inl (by simp [Scope.childAt, Op.child, isAt_some_of_ne hk])
  | _ => exact Or.inl (by simp [Scope.childAt, Op.child])

theorem Move.child (h : Move m op c m' new) {x : Op} {k : Nat} (hx : x ∈ new) (hk : x.child = some k) :
    op.child = some k ∨ k = m.next ∧ k < m'.next := by
  cases h with
  | track =>
    simp only [List.mem_singleton] at hx
    subst hx
    obtain rfl : m.next = k := by simpa [Op.child] using hk
    exact Or.inr ⟨rfl, Nat.lt_succ_self _⟩
  | _ => simp_all [Op.child]

theorem Move.hands (h : Move m op c m' new) {x : Op} {k : Nat} (hx : x ∈ new) (hk : k ∈ x.hands) :
    k ∈ op.hands ∨ k ∈ m.stack := by
  cases h with
  | keep | isSet | abort =>
    simp only [List.mem_singleton] at hx
    subst hx
    simp only [Op.hands, List.mem_append, List.mem_cons, List.not_mem_nil] at hk ⊢
    tauto
  | _ => simp_all [Op.hands]

theorem Move.stack (h : Move m op c m' new) {k : Nat} (hk : k ∈ m'.stack) : k ∈ m.stack ∨ op.child = some k := by
  cases h with
  | push j =>
    rcases List.mem_append.mp hk with hk | hk
    · exact Or.inl hk
    · exact Or.inr (by simpa [Op.child] using (List.mem_singleton.mp hk).symm)
  | take => simp at hk
  | _ => exact Or.inl hk

/-- An event is set by its child, or by an exit. -/
theorem Move.event (h : Move m op c m' new) {k : Nat} (hk : m'.event k = true) :
    m.event k = true ∨ (op = .finish k ∧ new = []) ∨
      ∃ rest events, op = .exitSet k rest events ∧ new = [.exitAbort k rest events] := by
  cases h with
  | finish j =>
    by_cases hjk : k = j
    · exact Or.inr (Or.inl ⟨by rw [hjk], rfl⟩)
    · exact Or.inl (by simpa [hjk] using hk)
  | set j rest events =>
    by_cases hjk : k = j
    · exact Or.inr (Or.inr ⟨rest, events, by rw [hjk], by rw [hjk]⟩)
    · exact Or.inl (by simpa [hjk] using hk)
  | _ => exact Or.inl hk

theorem Numbered.move (h : Numbered m (A ++ op :: B)) (hm : Move m op c m' new) : Numbered m' (A ++ (new ++ B)) := by
  have hopin : op ∈ A ++ op :: B := by simp
  have hle := hm.next_le
  refine ⟨fun k => ?_, fun x hx k hk => ?_, fun x hx k hk => ?_, fun k hk => ?_, fun k hk => ?_⟩
  · have hstep := total_step (childAt k) A B new op
    have hone := h.single k
    rcases hm.childAt k with hle | ⟨rfl, hle⟩
    · omega
    · have hzero : total (childAt m.next) (A ++ op :: B) = 0 :=
        total_eq_zero_iff.mpr (fun x hx => isAt_of_ne (fun hc => Nat.lt_irrefl _ (h.child x hx _ hc)))
      omega
  · rcases Machine.mem_cases op hx with hx | hx
    · rcases hm.child hx hk with hc | ⟨-, hlt⟩
      · exact Nat.lt_of_lt_of_le (h.child op hopin k hc) hle
      · exact hlt
    · exact Nat.lt_of_lt_of_le (h.child x hx k hk) hle
  · rcases Machine.mem_cases op hx with hx | hx
    · rcases hm.hands hx hk with hc | hc
      · exact Nat.lt_of_lt_of_le (h.hands op hopin k hc) hle
      · exact Nat.lt_of_lt_of_le (h.stack k hc) hle
    · exact Nat.lt_of_lt_of_le (h.hands x hx k hk) hle
  · rcases hm.stack hk with hc | hc
    · exact Nat.lt_of_lt_of_le (h.stack k hc) hle
    · exact Nat.lt_of_lt_of_le (h.child op hopin k hc) hle
  · rcases hm.event hk with hc | ⟨rfl, -⟩ | ⟨rest, events, rfl, -⟩
    · exact Nat.lt_of_lt_of_le (h.event k hc) hle
    · exact Nat.lt_of_lt_of_le (h.child _ hopin k rfl) hle
    · exact Nat.lt_of_lt_of_le (h.hands _ hopin k (List.mem_cons_self ..)) hle

/-- What a call starts has to do with no child. -/
theorem idle_of_call {l : Call} (hc : call m l = some (m', new)) :
    m' = m ∧ ∀ x ∈ new, x.child = none ∧ x.runs = none ∧ x.hands = [] ∧ x.taken = false ∧ x.pushes = false := by
  obtain ⟨rfl, hnew⟩ := call_cases hc
  refine ⟨rfl, ?_⟩
  rcases hnew with rfl | rfl | rfl <;> simp [Op.child, Op.runs, Op.hands, Op.taken, Op.pushes]

theorem Numbered.call {l : Call} (h : Numbered m ops) (hc : call m l = some (m', new)) : Numbered m' (ops ++ new) := by
  obtain ⟨rfl, hidle⟩ := idle_of_call hc
  refine ⟨fun k => ?_, fun x hx k hk => ?_, fun x hx k hk => ?_, h.stack, h.event⟩
  · have : total (childAt k) new = 0 :=
      total_eq_zero_iff.mpr (fun x hx => by simp [childAt, (hidle x hx).1])
    rw [total_append, this]
    exact h.single k
  · rcases List.mem_append.mp hx with hx | hx
    · exact h.child x hx k hk
    · simp [(hidle x hx).1] at hk
  · rcases List.mem_append.mp hx with hx | hx
    · exact h.hands x hx k hk
    · simp [(hidle x hx).2.2.1] at hk

theorem numbered_of_reach {ok : Mem → List Op → Act Op Choice Call → Prop} {s : State Mem Op} (h : machine.Reach ok initial s) :
    Numbered s.mem s.ops := by
  refine h.invariant ?_ ?_ ?_
  · exact ⟨by simp [initial, State.ops], by simp [initial, State.ops], by simp [initial, State.ops], by simp [initial],
      by simp [initial]⟩
  · exact fun m A op B c m' new ih _ he => ih.move (exec_move he)
  · exact fun m ops l m' new ih _ hc => ih.call hc

/-! ## Where the children are -/

/-- A child is on the stack, in the hands of an exit, or among the events of the waiter. -/
def At (m : Mem) (ops : List Op) (k : Nat) : Prop :=
  k ∈ m.stack ∨ (∃ x ∈ ops, k ∈ x.hands) ∨ ∃ events, m.waiter = some events ∧ k ∈ events

/-- Every scheduled child is somewhere. -/
def Placed (m : Mem) (ops : List Op) : Prop :=
  ∀ k, (m.scheduled k = true ∨ ∃ x ∈ ops, x.runs = some k) → At m ops k

theorem Move.scheduled (h : Move m op c m' new) {k : Nat} (hk : m'.scheduled k = true) :
    m.scheduled k = true ∨ op.runs = some k := by
  cases h with
  | schedule j =>
    by_cases hjk : k = j
    · exact Or.inr (by rw [hjk]; rfl)
    · exact Or.inl (by simpa [hjk] using hk)
  | _ => exact Or.inl hk

/-- A child is pushed before it can run. -/
theorem Move.runs (h : Move m op c m' new) {x : Op} {k : Nat} (hx : x ∈ new) (hk : x.runs = some k) :
    op.runs = some k ∨ k ∈ m'.stack := by
  cases h with
  | push j => exact Or.inr (by simp_all [Op.runs])
  | _ => simp_all [Op.runs]

/-- No step loses a child. -/
theorem Move.keeps (h : Move m op c m' new) {k : Nat} (hk : k ∈ m.stack ∨ k ∈ op.hands) : At m' new k := by
  cases h with
  | push j =>
    rcases hk with hk | hk
    · exact Or.inl (List.mem_append_left _ hk)
    · simp [Op.hands] at hk
  | take =>
    rcases hk with hk | hk
    · exact Or.inr (Or.inl ⟨_, List.mem_singleton.mpr rfl, hk⟩)
    · simp [Op.hands] at hk
  | exit b events =>
    rcases hk with hk | hk
    · exact Or.inl hk
    · exact Or.inr (Or.inr ⟨events, rfl, by simpa [Op.hands] using hk⟩)
  | load | keep | visit | isSet | notSet | set | abort =>
    rcases hk with hk | hk
    · exact Or.inl hk
    · refine Or.inr (Or.inl ⟨_, List.mem_singleton.mpr rfl, ?_⟩)
      simp only [Op.hands, List.mem_append, List.mem_cons, List.not_mem_nil] at hk ⊢
      tauto
  | _ =>
    rcases hk with hk | hk
    · exact Or.inl hk
    · simp [Op.hands] at hk

theorem At.of_new {k : Nat} (h : At m new k) : At m (A ++ (new ++ B)) k := by
  rcases h with h | ⟨x, hx, hk⟩ | h
  · exact Or.inl h
  · exact Or.inr (Or.inl ⟨x, Machine.mem_new hx, hk⟩)
  · exact Or.inr (Or.inr h)

theorem At.move {k : Nat} (h : At m (A ++ op :: B) k) (hg : Guarded m (A ++ op :: B)) (hm : Move m op c m' new) :
    At m' (A ++ (new ++ B)) k := by
  rcases h with h | ⟨x, hx, hk⟩ | ⟨events, hw, hk⟩
  · exact (hm.keeps (Or.inl h)).of_new
  · by_cases hxop : x = op
    · exact (hm.keeps (Or.inr (hxop ▸ hk))).of_new
    · exact Or.inr (Or.inl ⟨x, Machine.mem_keep hx hxop, hk⟩)
  · rcases hm.waiter with ⟨he, -⟩ | ⟨b, events', rfl, -, -⟩
    · exact Or.inr (Or.inr ⟨events, he.trans hw, hk⟩)
    · -- an exit that makes a waiter found none
      have hopin : Op.exitNext b [] events' ∈ A ++ Op.exitNext b [] events' :: B := by simp
      rw [hg.opens _ hopin rfl] at hw
      cases hw

theorem Placed.move (h : Placed m (A ++ op :: B)) (hg : Guarded m (A ++ op :: B)) (hm : Move m op c m' new) :
    Placed m' (A ++ (new ++ B)) := by
  intro k hk
  have hopin : op ∈ A ++ op :: B := by simp
  have hcases : (m.scheduled k = true ∨ ∃ x ∈ A ++ op :: B, x.runs = some k) ∨ k ∈ m'.stack := by
    rcases hk with hk | ⟨x, hx, hk⟩
    · rcases hm.scheduled hk with hk | hk
      · exact Or.inl (Or.inl hk)
      · exact Or.inl (Or.inr ⟨op, hopin, hk⟩)
    · rcases Machine.mem_cases op hx with hx | hx
      · rcases hm.runs hx hk with hk | hk
        · exact Or.inl (Or.inr ⟨op, hopin, hk⟩)
        · exact Or.inr hk
      · exact Or.inl (Or.inr ⟨x, hx, hk⟩)
  rcases hcases with hk | hk
  · exact (h k hk).move hg hm
  · exact Or.inl hk

theorem Placed.call {l : Call} (h : Placed m ops) (hc : call m l = some (m', new)) : Placed m' (ops ++ new) := by
  obtain ⟨rfl, hidle⟩ := idle_of_call hc
  intro k hk
  have hold : m'.scheduled k = true ∨ ∃ x ∈ ops, x.runs = some k := by
    rcases hk with hk | ⟨x, hx, hk⟩
    · exact Or.inl hk
    · rcases List.mem_append.mp hx with hx | hx
      · exact Or.inr ⟨x, hx, hk⟩
      · simp [(hidle x hx).2.1] at hk
  rcases h k hold with h | ⟨x, hx, hk⟩ | h
  · exact Or.inl h
  · exact Or.inr (Or.inl ⟨x, List.mem_append_left _ hx, hk⟩)
  · exact Or.inr (Or.inr h)

theorem placed_of_reach {ok : Mem → List Op → Act Op Choice Call → Prop} {s : State Mem Op} (h : machine.Reach ok initial s) :
    Placed s.mem s.ops := by
  refine h.invariant_with guarded_of_reach ?_ ?_ ?_
  · intro k hk
    simp [initial, State.ops] at hk
  · exact fun m A op B c m' new hg ih _ he => ih.move hg (exec_move he)
  · exact fun m ops l m' new _ ih _ hc => ih.call hc

/-! ## Who sets an event -/

/-- The children whose events an exit has found, or made, set. -/
def Op.marked : Op → List Nat
  | .exitNext true _ events | .exitIsSet _ _ events | .exitSet _ _ events => events
  | .exitAbort k _ events => events ++ [k]
  | _ => []

/-- The events the exit of a cancelled scope has gone through are set, and so are those of a waiter that let its task go on. An event is
set for a child that was aborted, or is about to be, or that has ended. -/
structure Marked (m : Mem) (ops : List Op) : Prop where
  marked : ∀ x ∈ ops, ∀ k ∈ x.marked, m.event k = true
  seen : m.seen = true → ∀ events, m.waiter = some events → ∀ k ∈ events, m.event k = true
  resumed : m.resumed = true → ∃ events, m.waiter = some events ∧ ∀ k ∈ events, m.event k = true
  cause : ∀ k, m.event k = true →
    m.aborted k = true ∨ (∃ rest events, Op.exitAbort k rest events ∈ ops) ∨ ∀ x ∈ ops, x.child ≠ some k

theorem Move.event_mono (h : Move m op c m' new) {k : Nat} (hk : m.event k = true) : m'.event k = true := by
  cases h with
  | finish j | set j =>
    by_cases hjk : k = j
    · simp [hjk]
    · simpa [hjk] using hk
  | _ => exact hk

theorem Move.aborted_mono (h : Move m op c m' new) {k : Nat} (hk : m.aborted k = true) : m'.aborted k = true := by
  cases h with
  | abort j =>
    by_cases hjk : k = j
    · simp [hjk]
    · simpa [hjk] using hk
  | _ => exact hk

theorem Move.marked (h : Move m op c m' new) {x : Op} {k : Nat} (hx : x ∈ new) (hk : k ∈ x.marked) :
    k ∈ op.marked ∨ m'.event k = true := by
  cases h with
  | load rest =>
    simp only [List.mem_singleton] at hx
    subst hx
    cases hb : m.cancelled <;> simp [Op.marked, hb] at hk
  | isSet j rest events he =>
    simp only [List.mem_singleton] at hx
    subst hx
    rcases List.mem_append.mp hk with hk | hk
    · exact Or.inl hk
    · exact Or.inr (List.mem_singleton.mp hk ▸ he)
  | set j rest events =>
    simp only [List.mem_singleton] at hx
    subst hx
    rcases List.mem_append.mp hk with hk | hk
    · exact Or.inl hk
    · exact Or.inr (by simp [List.mem_singleton.mp hk])
  | _ => simp_all [Op.marked]

/-- What `seen` notes is what the exit went by. -/
theorem Move.seen (h : Move m op c m' new) :
    m'.seen = m.seen ∧ m'.waiter = m.waiter ∨ ∃ b events, op = .exitNext b [] events ∧ m'.waiter = some events ∧ m'.seen = b := by
  cases h with
  | exit b events => exact Or.inr ⟨b, events, rfl, rfl, rfl⟩
  | _ => exact Or.inl ⟨rfl, rfl⟩

theorem Move.resumed (h : Move m op c m' new) (hr : m'.resumed = true) :
    m.resumed = true ∨ ∃ events, op = .wait events ∧ m' = { m with resumed := true } ∧ ∀ k ∈ events, m.event k = true := by
  cases h with
  | resume events h => exact Or.inr ⟨events, rfl, rfl, h⟩
  | _ => exact Or.inl hr

theorem Marked.move (h : Marked m (A ++ op :: B)) (hg : Guarded m (A ++ op :: B)) (hn : Numbered m (A ++ op :: B))
    (hm : Move m op c m' new) : Marked m' (A ++ (new ++ B)) := by
  have hopin : op ∈ A ++ op :: B := by simp
  refine ⟨fun x hx k hk => ?_, fun hs events hw k hk => ?_, fun hr => ?_, fun k hk => ?_⟩
  · rcases Machine.mem_cases op hx with hx | hx
    · rcases hm.marked hx hk with hk | hk
      · exact hm.event_mono (h.marked op hopin k hk)
      · exact hk
    · exact hm.event_mono (h.marked x hx k hk)
  · rcases hm.seen with ⟨h1, h2⟩ | ⟨b, events', rfl, h1, h2⟩
    · exact hm.event_mono (h.seen (h1 ▸ hs) events (h2 ▸ hw) k hk)
    · obtain rfl : events' = events := by simpa [h1] using hw
      obtain rfl : b = true := h2.symm.trans hs
      exact hm.event_mono (h.marked _ hopin k hk)
  · rcases hm.resumed hr with hr | ⟨events, rfl, rfl, he⟩
    · obtain ⟨events, hw, he⟩ := h.resumed hr
      rcases hm.waiter with ⟨hw', -⟩ | ⟨b, events', rfl, -, -⟩
      · exact ⟨events, hw'.trans hw, fun k hk => hm.event_mono (he k hk)⟩
      · rw [hg.opens _ hopin rfl] at hw
        cases hw
    · exact ⟨events, hg.waits events hopin, he⟩
  · rcases hm.event hk with hold | ⟨rfl, rfl⟩ | ⟨rest, events, rfl, rfl⟩
    · rcases h.cause k hold with hab | ⟨rest, events, hx⟩ | hno
      · exact Or.inl (hm.aborted_mono hab)
      · by_cases hop : Op.exitAbort k rest events = op
        · subst hop
          cases hm
          exact Or.inl (by simp)
        · exact Or.inr (Or.inl ⟨rest, events, Machine.mem_keep hx hop⟩)
      · refine Or.inr (Or.inr (fun x hx hc => ?_))
        rcases Machine.mem_cases op hx with hx | hx
        · rcases hm.child hx hc with hc | ⟨rfl, -⟩
          · exact hno op hopin hc
          · exact Nat.lt_irrefl _ (hn.event _ hold)
        · exact hno x hx hc
    · -- the child's own thread is over
      refine Or.inr (Or.inr (fun x hx => ?_))
      exact key_ne_of_total_le (hn.single k) rfl (by simpa using hx)
    · exact Or.inr (Or.inl ⟨rest, events, Machine.mem_new (by simp)⟩)

theorem Marked.call {l : Call} (h : Marked m ops) (hc : call m l = some (m', new)) : Marked m' (ops ++ new) := by
  obtain ⟨rfl, hnew⟩ := call_cases hc
  have hidle : ∀ x ∈ new, x.marked = [] ∧ x.child = none := by
    rcases hnew with rfl | rfl | rfl <;> simp [Op.marked, Op.child]
  refine ⟨fun x hx k hk => ?_, h.seen, h.resumed, fun k hk => ?_⟩
  · rcases List.mem_append.mp hx with hx | hx
    · exact h.marked x hx k hk
    · simp [(hidle x hx).1] at hk
  · rcases h.cause k hk with hab | ⟨rest, events, hx⟩ | hno
    · exact Or.inl hab
    · exact Or.inr (Or.inl ⟨rest, events, List.mem_append_left _ hx⟩)
    · refine Or.inr (Or.inr (fun x hx hc => ?_))
      rcases List.mem_append.mp hx with hx | hx
      · exact hno x hx hc
      · simp [(hidle x hx).2] at hc

theorem marked_of_reach {ok : Mem → List Op → Act Op Choice Call → Prop} {s : State Mem Op} (h : machine.Reach ok initial s) :
    Marked s.mem s.ops := by
  refine h.invariant_with (J := fun m ops => Guarded m ops ∧ Numbered m ops)
    (fun hr => ⟨guarded_of_reach hr, numbered_of_reach hr⟩) ?_ ?_ ?_
  · exact ⟨by simp [initial, State.ops], by simp [initial], by simp [initial], by simp [initial]⟩
  · exact fun m A op B c m' new hj ih _ he => ih.move hj.1 hj.2 (exec_move he)
  · exact fun m ops l m' new _ ih _ hc => ih.call hc

/-! ## No child escapes -/

/-- From the moment the stack is taken it is empty, and no `_track` is about to push. -/
def Drained (m : Mem) (ops : List Op) : Prop :=
  (m.waiter ≠ none ∨ ∃ x ∈ ops, x.taken = true) → m.stack = [] ∧ ∀ x ∈ ops, x.pushes = false

/-- The stack is taken by one step of an exit. -/
theorem Move.taken (h : Move m op c m' new) (ht : m'.waiter ≠ none ∨ ∃ x ∈ new, x.taken = true) :
    (m.waiter ≠ none ∨ op.taken = true) ∨ op = .exitTake ∧ m'.stack = [] ∧ ∀ x ∈ new, x.pushes = false := by
  cases h with
  | take => exact Or.inr ⟨rfl, rfl, by simp [Op.pushes]⟩
  | load | keep | visit | isSet | notSet | set | abort | exit => exact Or.inl (Or.inr rfl)
  | _ =>
    rcases ht with ht | ⟨x, hx, ht⟩
    · exact Or.inl (Or.inl ht)
    · simp_all [Op.taken]

/-- A `_track` pushes only after it has found the scope not left. -/
theorem Move.pushes (h : Move m op c m' new) (hp : op.pushes = false) (hc : 2 ≤ m.consumed) :
    (m.stack = [] → m'.stack = []) ∧ ∀ x ∈ new, x.pushes = false := by
  cases h with
  | track h => omega
  | push => cases hp
  | _ => exact ⟨fun h => by simp [h], by simp [Op.pushes]⟩

theorem Drained.move (h : Drained m (A ++ op :: B)) (hg : Guarded m (A ++ op :: B)) (hok : ¬Escapes (A ++ op :: B) (.exec op c))
    (hm : Move m op c m' new) : Drained m' (A ++ (new ++ B)) := by
  intro ht
  have hopin : op ∈ A ++ op :: B := by simp
  have hcases : (m.waiter ≠ none ∨ ∃ x ∈ A ++ op :: B, x.taken = true) ∨
      op = .exitTake ∧ m'.stack = [] ∧ ∀ x ∈ new, x.pushes = false := by
    have hnew : (m'.waiter ≠ none ∨ ∃ x ∈ new, x.taken = true) ∨ ∃ x ∈ A ++ op :: B, x.taken = true := by
      rcases ht with ht | ⟨x, hx, ht⟩
      · exact Or.inl (Or.inl ht)
      · rcases Machine.mem_cases op hx with hx | hx
        · exact Or.inl (Or.inr ⟨x, hx, ht⟩)
        · exact Or.inr ⟨x, hx, ht⟩
    rcases hnew with hnew | hold
    · rcases hm.taken hnew with (hw | hop) | htake
      · exact Or.inl (Or.inl hw)
      · exact Or.inl (Or.inr ⟨op, hopin, hop⟩)
      · exact Or.inr htake
    · exact Or.inl (Or.inr hold)
  rcases hcases with hold | ⟨rfl, hst, hnew⟩
  · obtain ⟨hst, hno⟩ := h hold
    have hleft : 2 ≤ m.consumed := by
      rcases hold with hw | ⟨x, hx, hxt⟩
      · exact hg.left hw
      · exact hg.past x hx (by cases x <;> simp_all [Op.taken, Op.past])
    obtain ⟨hst', hnew⟩ := hm.pushes (hno op hopin) hleft
    refine ⟨hst' hst, fun x hx => ?_⟩
    rcases Machine.mem_cases op hx with hx | hx
    · exact hnew x hx
    · exact hno x hx
  · refine ⟨hst, fun x hx => ?_⟩
    rcases Machine.mem_cases Op.exitTake hx with hx | hx
    · exact hnew x hx
    · by_contra hp
      exact hok ⟨x, hx, by simpa using hp⟩

theorem Drained.call {l : Call} (h : Drained m ops) (hc : call m l = some (m', new)) : Drained m' (ops ++ new) := by
  obtain ⟨rfl, hidle⟩ := idle_of_call hc
  intro ht
  have hold : m'.waiter ≠ none ∨ ∃ x ∈ ops, x.taken = true := by
    rcases ht with ht | ⟨x, hx, ht⟩
    · exact Or.inl ht
    · rcases List.mem_append.mp hx with hx | hx
      · exact Or.inr ⟨x, hx, ht⟩
      · simp [(hidle x hx).2.2.2.1] at ht
  obtain ⟨hst, hno⟩ := h hold
  refine ⟨hst, fun x hx => ?_⟩
  rcases List.mem_append.mp hx with hx | hx
  · exact hno x hx
  · exact (hidle x hx).2.2.2.2

section

variable {ok : Mem → List Op → Act Op Choice Call → Prop} {s : State Mem Op}

theorem drained_of_reach (hok : ∀ m ops a, ok m ops a → ¬Escapes ops a) (h : machine.Reach ok initial s) :
    Drained s.mem s.ops := by
  refine h.invariant_with guarded_of_reach ?_ ?_ ?_
  · intro ht
    simp [initial, State.ops] at ht
  · exact fun m A op B c m' new hg ih hk he => ih.move hg (hok _ _ _ hk) (exec_move he)
  · exact fun m ops l m' new _ ih _ hc => ih.call hc

/-- When no child escapes, every scheduled child is among the events of the waiter. -/
theorem mem_waiter (hok : ∀ m ops a, ok m ops a → ¬Escapes ops a) (h : machine.Reach ok initial s) {events : List Nat}
    (hw : s.mem.waiter = some events) {k : Nat} (hk : s.mem.scheduled k = true ∨ ∃ x ∈ s.ops, x.runs = some k) : k ∈ events := by
  have hne : s.mem.waiter ≠ none := by simp [hw]
  rcases placed_of_reach h k hk with hst | ⟨x, hx, hxk⟩ | ⟨events', hw', hk'⟩
  · rw [(drained_of_reach hok h (Or.inl hne)).1] at hst
    cases hst
  · have := (guarded_of_reach h).opens x hx (Op.opens_of_taken (Op.taken_of_hands hxk))
    exact absurd this hne
  · obtain rfl : events = events' := by simpa [hw] using hw'
    exact hk'

/-! ## No child is cut off -/

/-- The child of an operation before its end. -/
def Op.ahead : Op → Option Nat
  | .trackPush k => some k
  | op => op.runs

/-- An event that is set belongs to a child that has ended. -/
def Uncut (m : Mem) (ops : List Op) : Prop := ∀ k, m.event k = true → ∀ x ∈ ops, x.ahead ≠ some k

theorem Op.ahead_of_runs {k : Nat} (h : op.runs = some k) : op.ahead = some k := by
  cases op <;> simp_all [Op.runs, Op.ahead]

theorem Op.child_of_ahead {k : Nat} (h : op.ahead = some k) : op.child = some k := by
  cases op <;> simp_all [Op.ahead, Op.runs, Op.child]

theorem Op.runs_of_ahead {k : Nat} (h : op.ahead = some k) (hp : op.pushes = false) : op.runs = some k := by
  cases op <;> simp_all [Op.ahead, Op.pushes]

theorem Move.ahead (h : Move m op c m' new) {x : Op} {k : Nat} (hx : x ∈ new) (hk : x.ahead = some k) :
    op.ahead = some k ∨ k = m.next := by
  cases h <;> simp_all [Op.ahead, Op.runs]

theorem Uncut.move (h : Uncut m (A ++ op :: B)) (hn : Numbered m (A ++ op :: B)) (hd : Drained m (A ++ op :: B))
    (hok : ¬CutsOff (A ++ op :: B) (.exec op c)) (hm : Move m op c m' new) : Uncut m' (A ++ (new ++ B)) := by
  intro k hk x hx ha
  have hopin : op ∈ A ++ op :: B := by simp
  rcases hm.event hk with hold | ⟨rfl, rfl⟩ | ⟨rest, events, rfl, rfl⟩
  · rcases Machine.mem_cases op hx with hx | hx
    · rcases hm.ahead hx ha with ha | rfl
      · exact h k hold op hopin ha
      · exact Nat.lt_irrefl _ (hn.event _ hold)
    · exact h k hold x hx ha
  · exact key_ne_of_total_le (hn.single k) rfl (by simpa using hx) (Op.child_of_ahead ha)
  · rcases Machine.mem_cases (Op.exitSet k rest events) hx with hx | hx
    · simp only [List.mem_singleton] at hx
      subst hx
      cases ha
    · have hno := (hd (Or.inr ⟨_, hopin, rfl⟩)).2 x hx
      exact hok ⟨x, hx, Op.runs_of_ahead ha hno⟩

theorem Uncut.call {l : Call} (h : Uncut m ops) (hc : call m l = some (m', new)) : Uncut m' (ops ++ new) := by
  obtain ⟨rfl, hidle⟩ := idle_of_call hc
  intro k hk x hx ha
  rcases List.mem_append.mp hx with hx | hx
  · exact h k hk x hx ha
  · have := Op.child_of_ahead ha
    rw [(hidle x hx).1] at this
    cases this

theorem uncut_of_reach (hok : ∀ m ops a, ok m ops a → ¬Escapes ops a ∧ ¬CutsOff ops a) (h : machine.Reach ok initial s) :
    Uncut s.mem s.ops := by
  refine h.invariant_with (J := fun m ops => Numbered m ops ∧ Drained m ops)
    (fun hr => ⟨numbered_of_reach hr, drained_of_reach (fun m ops a hk => (hok m ops a hk).1) hr⟩) ?_ ?_ ?_
  · intro k hk
    simp [initial] at hk
  · exact fun m A op B c m' new hj ih hk he => ih.move hj.1 hj.2 (hok _ _ _ hk).2 (exec_move he)
  · exact fun m ops l m' new _ ih _ hc => ih.call hc

end

end Tonio.Scope
