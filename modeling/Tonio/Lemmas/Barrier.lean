import Tonio.Barrier

/-!
# The tasks of a barrier

What is kept by every step. The event is set once the count is full, and stays set; while it is, and somebody is among its watchers or about to be
pushed, somebody is about to notify. A task is let through by the exchange of `consumed`, so once (`nodup`), and each task that has counted is in some
operation, among the watchers, or resumed.
-/

namespace Tonio

namespace Barrier

open Interleaving

variable {value : Nat} {m m' : Mem} {op : Op} {A B new ops : List Op}

/-! ## Weights -/

/-- The operation has the mutex. -/
@[simp] def Op.holds : Op → Nat
  | .notify _ | .addCheck _ | .push _ => 1
  | _ => 0

/-- The operation is about to pop the watchers. -/
@[simp] def Op.alarm : Op → Nat
  | .notifyLock _ | .notify _ => 1
  | _ => 0

/-- The operation is about to push a watcher. -/
@[simp] def Op.pushes : Op → Nat
  | .push _ => 1
  | _ => 0

/-- The operation is about to set the event. -/
@[simp] def Op.sets : Op → Nat
  | .set _ => 1
  | _ => 0

/-- The task of an operation. -/
@[simp] def Op.place : Op → Option Nat
  | .ack => none
  | .set r | .notifyLock r | .notify r | .waiter r | .sweep r | .suspend r | .addWaker r | .addCheck r | .push r | .ret r => some r

/-- The task whose suspension has been made, in an operation that registers it. -/
@[simp] def Op.waker : Op → Option Nat
  | .addWaker r | .addCheck r | .push r => some r
  | _ => none

/-- The task that has been let through, in the operation of its handle. -/
@[simp] def Op.back : Op → Option Nat
  | .ret r => some r
  | _ => none

/-! ## Steps -/

/-- What a step does. -/
inductive Move (value : Nat) (m : Mem) : Op → Mem → List Op → Prop
  | last (h : value ≤ m.count + 1) : Move value m .ack { m with count := m.count + 1 } [.set m.count]
  | early (h : ¬value ≤ m.count + 1) : Move value m .ack { m with count := m.count + 1 } [.waiter m.count]
  | raise (r : Nat) (h : m.flag = false) : Move value m (.set r) { m with flag := true } [.notifyLock r]
  | raised (r : Nat) (h : m.flag = true) : Move value m (.set r) m [.waiter r]
  | notifyLock (r : Nat) (h : m.locked = false) : Move value m (.notifyLock r) { m with locked := true } [.notify r]
  | notified (r : Nat) (h : m.watchers = []) : Move value m (.notify r) { m with dirty := false, locked := false } [.waiter r]
  | pop (r w : Nat) (ws : List Nat) (h : m.watchers = w :: ws) : Move value m (.notify r) ({ m with watchers := ws }.wake w) [.notify r]
  | waiter (r : Nat) (next : Op) (h : next = .sweep r ∨ next = .suspend r) : Move value m (.waiter r) m [next]
  | sweep (r : Nat) (h : m.locked = false) : Move value m (.sweep r) m.sweep [.suspend r]
  | suspend (r : Nat) : Move value m (.suspend r) { m with suspended := r :: m.suspended } [.addWaker r]
  | addWaker (r : Nat) (h : m.locked = false) : Move value m (.addWaker r) { m with locked := true } [.addCheck r]
  | found (r : Nat) (h : m.flag = true) : Move value m (.addCheck r) ({ m with locked := false }.wake r) []
  | notFound (r : Nat) (h : m.flag = false) : Move value m (.addCheck r) m [.push r]
  | push (r : Nat) : Move value m (.push r) { m with watchers := m.watchers ++ [r], dirty := true, locked := false } []
  | ret (r : Nat) : Move value m (.ret r) { m with returned := m.returned ++ [r] } []

theorem exec_move {c : Unit} (he : (machine value).exec m op c = some (m', new)) : Move value m op m' new := by
  change exec value m op c = some (m', new) at he
  cases op with
  | ack =>
    simp only [exec, Option.some.injEq, Prod.mk.injEq] at he
    obtain ⟨rfl, rfl⟩ := he
    split
    · exact .last ‹_›
    · exact .early ‹_›
  | set r =>
    simp only [exec, Option.some.injEq] at he
    split at he <;> obtain ⟨rfl, rfl⟩ := Prod.mk.inj he <;> rename_i hf
    · exact .raised r hf
    · exact .raise r (Bool.eq_false_of_not_eq_true hf)
  | notify r =>
    simp only [exec] at he
    split at he <;> simp only [Option.some.injEq, Prod.mk.injEq] at he <;> obtain ⟨rfl, rfl⟩ := he
    · exact .notified r ‹_›
    · exact .pop r _ _ ‹_›
  | waiter r =>
    simp only [exec, Option.some.injEq, Prod.mk.injEq] at he
    obtain ⟨rfl, rfl⟩ := he
    split
    · exact .waiter r _ (Or.inl rfl)
    · exact .waiter r _ (Or.inr rfl)
  | addCheck r =>
    simp only [exec, Option.some.injEq] at he
    split at he <;> obtain ⟨rfl, rfl⟩ := Prod.mk.inj he <;> rename_i hf
    · exact .found r hf
    · exact .notFound r (Bool.eq_false_of_not_eq_true hf)
  | notifyLock r | sweep r | addWaker r =>
    simp only [exec] at he
    split at he <;> simp only [Option.some.injEq, Prod.mk.injEq, reduceCtorEq] at he
    rename_i hl
    rw [Bool.not_eq_true] at hl
    obtain ⟨rfl, rfl⟩ := he
    first | exact .notifyLock r hl | exact .sweep r hl | exact .addWaker r hl
  | suspend r | push r | ret r =>
    simp only [exec, Option.some.injEq, Prod.mk.injEq] at he
    obtain ⟨rfl, rfl⟩ := he
    first | exact .suspend r | exact .push r | exact .ret r

/-! ## The event -/

/-- What is kept of the count, the flag and the mutex. -/
structure Kept (value : Nat) (m : Mem) (ops : List Op) : Prop where
  lock : total Op.holds ops = m.locked.toNat
  full : 0 < m.flag.toNat + total Op.sets ops → value ≤ m.count
  raised : value ≤ m.count → 0 < m.count → 0 < m.flag.toNat + total Op.sets ops
  alarm : 0 < m.flag.toNat → 0 < m.watchers.length + total Op.pushes ops → 0 < total Op.alarm ops
  rung : 0 < total Op.alarm ops → 0 < m.flag.toNat

theorem wake_kept (m : Mem) (r : Nat) : (m.wake r).count = m.count ∧ (m.wake r).flag = m.flag ∧ (m.wake r).locked = m.locked ∧
    (m.wake r).watchers = m.watchers := by
  unfold Mem.wake
  split <;> exact ⟨rfl, rfl, rfl, rfl⟩

theorem sweep_length_le (m : Mem) : m.sweep.watchers.length ≤ m.watchers.length :=
  (List.rdropWhile_prefix (fun r => decide (r ∈ m.consumed)) m.watchers).length_le

/-- Who pushes a watcher, or pops them, has the mutex. -/
theorem pushes_le (ops : List Op) : total Op.pushes ops ≤ total Op.holds ops := by
  refine total_mono (fun x => ?_) ops
  cases x <;> simp

theorem Kept.move (h : Kept value m (A ++ op :: B)) (hm : Move value m op m' new) : Kept value m' (A ++ (new ++ B)) := by
  have hA := pushes_le A
  have hB := pushes_le B
  have hlocked := m.locked.toNat_le
  have hflag := m.flag.toNat_le
  obtain ⟨hlock, hfull, hraised, halarm, hrung⟩ := h
  simp only [total_append, total_cons] at hlock hfull hraised halarm hrung
  cases hm with
  | pop r w ws hws =>
    obtain ⟨hcount, hflag', hlocked', hwatchers⟩ := wake_kept { m with watchers := ws } w
    have hlen := congrArg List.length hws
    rw [List.length_cons] at hlen
    simp only [Op.holds, Op.alarm, Op.pushes, Op.sets] at hlock hfull hraised halarm hrung
    constructor <;> simp only [hcount, hflag', hlocked', hwatchers, total_append, total_cons, total_nil, Op.holds, Op.alarm, Op.pushes, Op.sets] <;>
      omega
  | found r hf =>
    obtain ⟨hcount, hflag', hlocked', hwatchers⟩ := wake_kept { m with locked := false } r
    simp only [Op.holds, Op.alarm, Op.pushes, Op.sets] at hlock hfull hraised halarm hrung
    constructor <;> simp only [hcount, hflag', hlocked', hwatchers, total_append, total_nil, Bool.toNat_false] <;> omega
  | sweep r hl =>
    have hlen := sweep_length_le m
    obtain ⟨hcount, hflag', hlocked'⟩ : m.sweep.count = m.count ∧ m.sweep.flag = m.flag ∧ m.sweep.locked = m.locked := ⟨rfl, rfl, rfl⟩
    simp only [Op.holds, Op.alarm, Op.pushes, Op.sets] at hlock hfull hraised halarm hrung
    constructor <;> simp only [hcount, hflag', hlocked', total_append, total_cons, total_nil, Op.holds, Op.alarm, Op.pushes, Op.sets] <;> omega
  | notified r hws =>
    have hlen := congrArg List.length hws
    rw [List.length_nil] at hlen
    simp only [Op.holds, Op.alarm, Op.pushes, Op.sets] at hlock hfull hraised halarm hrung
    constructor <;> simp only [total_append, total_cons, total_nil, Op.holds, Op.alarm, Op.pushes, Op.sets, Bool.toNat_false] <;> omega
  | raise r hb | raised r hb | notifyLock r hb | addWaker r hb | notFound r hb =>
    have hbit := congrArg Bool.toNat hb
    simp only [Bool.toNat_true, Bool.toNat_false] at hbit
    simp only [Op.holds, Op.alarm, Op.pushes, Op.sets] at hlock hfull hraised halarm hrung
    constructor <;> simp only [total_append, total_cons, total_nil, Op.holds, Op.alarm, Op.pushes, Op.sets, Bool.toNat_true] <;> omega
  | waiter r next hn =>
    rcases hn with rfl | rfl
    all_goals
      simp only [Op.holds, Op.alarm, Op.pushes, Op.sets] at hlock hfull hraised halarm hrung
      constructor <;> simp only [total_append, total_cons, total_nil, Op.holds, Op.alarm, Op.pushes, Op.sets] <;> omega
  | last h | early h | suspend r | push r | ret r =>
    simp only [Op.holds, Op.alarm, Op.pushes, Op.sets] at hlock hfull hraised halarm hrung
    constructor <;> simp only [total_append, total_cons, total_nil, Op.holds, Op.alarm, Op.pushes, Op.sets, Bool.toNat_false,
      List.length_append, List.length_cons, List.length_nil] <;> omega

/-! ## The tasks -/

/-- The tasks that have been let through: their handles wait, are run, or have returned. -/
def through (m : Mem) (ops : List Op) : Multiset Nat := ↑m.handles + ↑(ops.filterMap Op.back) + ↑m.returned

/-- Where the tasks are. -/
structure Placed (m : Mem) (ops : List Op) : Prop where
  flagged : through m ops ≠ 0 → m.flag = true
  nodup : (through m ops).Nodup
  through_consumed : ∀ r ∈ through m ops, r ∈ m.consumed
  consumed : ∀ r ∈ m.consumed, r < m.count ∧ (r ∈ through m ops ∨ r ∈ m.cancelled)
  suspended : ∀ r ∈ m.suspended, r < m.count
  watchers : ∀ r ∈ m.watchers, r < m.count
  place : ∀ x ∈ ops, ∀ r, x.place = some r → r < m.count
  covered : ∀ r, r < m.count → (∃ x ∈ ops, x.place = some r) ∨ r ∈ m.watchers ∨ r ∈ m.consumed

theorem through_step (m : Mem) (A B new : List Op) (op : Op) (h : new.filterMap Op.back = op.back.toList) :
    through m (A ++ (new ++ B)) = through m (A ++ op :: B) := by
  unfold through
  rw [List.filterMap_append, List.filterMap_append, List.filterMap_append, List.filterMap_cons, h]
  cases op.back <;> rfl

/-- A task that is let through has been, or is from now on. -/
theorem wake_cases (m : Mem) (r : Nat) : (r ∈ m.consumed ∧ m.wake r = m) ∨
    (r ∉ m.consumed ∧ m.wake r = { m with consumed := r :: m.consumed, handles := m.handles ++ [r] }) := by
  unfold Mem.wake
  split
  · exact Or.inl ⟨‹_›, rfl⟩
  · exact Or.inr ⟨‹_›, rfl⟩

/-- A step that resumes nobody. -/
theorem Placed.keep (h : Placed m (A ++ op :: B)) (hcount : m.count ≤ m'.count) (hflag : m.flag = true → m'.flag = true)
    (hconsumed : m'.consumed = m.consumed) (hcancelled : m'.cancelled = m.cancelled)
    (hthrough : through m' (A ++ (new ++ B)) = through m (A ++ op :: B)) (hsuspended : ∀ r ∈ m'.suspended, r ∈ m.suspended ∨ op.place = some r)
    (hwatchers : ∀ r ∈ m'.watchers, r ∈ m.watchers ∨ op.place = some r)
    (hplace : ∀ x ∈ new, ∀ r, x.place = some r → op.place = some r ∨ r < m'.count)
    (hcovered : ∀ r, r < m'.count → (r < m.count ∧ op.place ≠ some r ∧ (r ∈ m.watchers → r ∈ m'.watchers ∨ r ∈ m.consumed)) ∨
      (∃ x ∈ new, x.place = some r) ∨ r ∈ m'.watchers ∨ r ∈ m.consumed) : Placed m' (A ++ (new ++ B)) := by
  have hop : ∀ r, op.place = some r → r < m.count := h.place op (by simp)
  refine ⟨?_, ?_, ?_, ?_, ?_, ?_, ?_, ?_⟩
  · rw [hthrough]
    exact fun hne => hflag (h.flagged hne)
  · rw [hthrough]
    exact h.nodup
  · rw [hthrough, hconsumed]
    exact h.through_consumed
  · rw [hthrough, hconsumed, hcancelled]
    exact fun r hr => ⟨Nat.lt_of_lt_of_le (h.consumed r hr).1 hcount, (h.consumed r hr).2⟩
  · intro r hr
    exact Nat.lt_of_lt_of_le ((hsuspended r hr).elim (h.suspended r) (hop r)) hcount
  · intro r hr
    exact Nat.lt_of_lt_of_le ((hwatchers r hr).elim (h.watchers r) (hop r)) hcount
  · intro x hx r hr
    rcases Machine.mem_beside hx with hx | hx
    · exact (hplace x hx r hr).elim (fun hr => Nat.lt_of_lt_of_le (hop r hr) hcount) id
    · exact Nat.lt_of_lt_of_le (h.place x (Machine.mem_before op hx) r hr) hcount
  · intro r hr
    rcases hcovered r hr with ⟨hlt, hne, hw⟩ | ⟨x, hx, hxr⟩ | hr | hr
    · rcases h.covered r hlt with ⟨x, hx, hxr⟩ | hmem | hmem
      · exact Or.inl ⟨x, Machine.mem_keep hx (fun heq => hne (heq ▸ hxr)), hxr⟩
      · exact Or.inr ((hw hmem).imp id (fun hc => hconsumed ▸ hc))
      · exact Or.inr (Or.inr (hconsumed ▸ hmem))
    · exact Or.inl ⟨x, Machine.mem_new hx, hxr⟩
    · exact Or.inr (Or.inl hr)
    · exact Or.inr (Or.inr (hconsumed ▸ hr))

/-- A task goes on to its next operation, and nothing else changes but the flag, the mutex, and who has been suspended or swept. -/
theorem Placed.next {r : Nat} {x : Op} (h : Placed m (A ++ op :: B)) (hop : op.place = some r) (hx : x.place = some r)
    (hback : op.back = none ∧ x.back = none) (hcount : m'.count = m.count) (hflag : m.flag = true → m'.flag = true)
    (hsame : m'.consumed = m.consumed ∧ m'.cancelled = m.cancelled ∧ m'.handles = m.handles ∧ m'.returned = m.returned)
    (hsuspended : ∀ y ∈ m'.suspended, y ∈ m.suspended ∨ y = r) (hsub : ∀ y ∈ m'.watchers, y ∈ m.watchers)
    (hwatchers : ∀ y ∈ m.watchers, y ∈ m'.watchers ∨ y ∈ m.consumed) : Placed m' (A ++ ([x] ++ B)) := by
  obtain ⟨hconsumed, hcancelled, hhandles, hreturned⟩ := hsame
  refine h.keep (Nat.le_of_eq hcount.symm) hflag hconsumed hcancelled ?_ ?_ (fun y hy => Or.inl (hsub y hy)) ?_ ?_
  · have hthrough := through_step m A B [x] op (by rw [List.filterMap_cons_none hback.2, hback.1]; rfl)
    rw [← hthrough, through, through, hhandles, hreturned]
  · intro y hy
    refine (hsuspended y hy).imp id (fun hy => ?_)
    rw [hy, hop]
  · intro y hy z hz
    rw [List.mem_singleton.mp hy, hx] at hz
    exact Or.inl (hz ▸ hop)
  · intro y hy
    by_cases hyr : y = r
    · exact Or.inr (Or.inl ⟨x, List.mem_singleton_self x, hyr ▸ hx⟩)
    · refine Or.inl ⟨hcount ▸ hy, fun heq => hyr ?_, hwatchers y⟩
      exact Option.some.inj (heq.symm.trans hop)

/-- A task is let through, if it has not been. -/
theorem Placed.wake {ops' : List Op} {r : Nat} {ws : List Nat} (h : Placed m ops) (b : Bool) (hr : r < m.count) (hflag : m.flag = true)
    (hback : ops'.filterMap Op.back = ops.filterMap Op.back) (hsub : ∀ x ∈ ops', x ∈ ops) (hops : ∀ x ∈ ops, x ∈ ops' ∨ x.place = some r)
    (hws : ∀ w ∈ ws, w ∈ m.watchers) (hwatchers : ∀ w ∈ m.watchers, w ∈ ws ∨ w = r) :
    Placed (({ m with watchers := ws, locked := b } : Mem).wake r) ops' := by
  have hthrough : through m ops' = through m ops := by rw [through, through, hback]
  have hcovered : ∀ x, x < m.count → (∃ y ∈ ops', y.place = some x) ∨ x ∈ ws ∨ x ∈ m.consumed ∨ x = r := by
    intro x hx
    rcases h.covered x hx with ⟨y, hy, hyx⟩ | hmem | hmem
    · rcases hops y hy with hy | hyr
      · exact Or.inl ⟨y, hy, hyx⟩
      · exact Or.inr (Or.inr (Or.inr (Option.some.inj (hyx.symm.trans hyr))))
    · exact Or.inr ((hwatchers x hmem).imp id Or.inr)
    · exact Or.inr (Or.inr (Or.inl hmem))
  have hplace : ∀ x ∈ ops', ∀ y, x.place = some y → y < m.count := fun x hx => h.place x (hsub x hx)
  rcases wake_cases ({ m with watchers := ws, locked := b } : Mem) r with ⟨hmem, heq⟩ | ⟨hmem, heq⟩
  · rw [heq]
    refine ⟨fun _ => hflag, ?_, ?_, ?_, h.suspended, fun w hw => h.watchers w (hws w hw), hplace, fun x hx => ?_⟩
    · exact (hthrough ▸ h.nodup : (through m ops').Nodup)
    · exact (hthrough ▸ h.through_consumed : ∀ x ∈ through m ops', x ∈ m.consumed)
    · exact (hthrough ▸ h.consumed : ∀ x ∈ m.consumed, x < m.count ∧ (x ∈ through m ops' ∨ x ∈ m.cancelled))
    · rcases hcovered x hx with hop | hw | hc | rfl
      · exact Or.inl hop
      · exact Or.inr (Or.inl hw)
      · exact Or.inr (Or.inr hc)
      · exact Or.inr (Or.inr hmem)
  · rw [heq]
    have hadd : through { m with watchers := ws, locked := b, consumed := r :: m.consumed, handles := m.handles ++ [r] } ops' =
        r ::ₘ through m ops := by
      rw [← hthrough]
      simp only [through, ← Multiset.coe_add, Multiset.coe_singleton]
      rw [← Multiset.singleton_add, add_comm (↑m.handles : Multiset Nat) {r}, add_assoc, add_assoc, add_assoc]
    have hnot : r ∉ through m ops := fun hin => hmem (h.through_consumed r hin)
    refine ⟨fun _ => hflag, ?_, ?_, ?_, h.suspended, fun w hw => h.watchers w (hws w hw), hplace, fun x hx => ?_⟩
    · rw [hadd]
      exact Multiset.nodup_cons.mpr ⟨hnot, h.nodup⟩
    · rw [hadd]
      intro x hx
      rcases Multiset.mem_cons.mp hx with rfl | hx
      · exact List.mem_cons_self
      · exact List.mem_cons_of_mem r (h.through_consumed x hx)
    · rw [hadd]
      intro x hx
      rcases List.mem_cons.mp hx with rfl | hx
      · exact ⟨hr, Or.inl (Multiset.mem_cons_self _ _)⟩
      · exact ⟨(h.consumed x hx).1, (h.consumed x hx).2.imp (Multiset.mem_cons_of_mem) id⟩
    · rcases hcovered x hx with hop | hw | hc | rfl
      · exact Or.inl hop
      · exact Or.inr (Or.inl hw)
      · exact Or.inr (Or.inr (List.mem_cons_of_mem r hc))
      · exact Or.inr (Or.inr List.mem_cons_self)

/-- A watcher that is swept has been resumed. -/
theorem mem_sweep {r : Nat} (hr : r ∈ m.watchers) : r ∈ m.sweep.watchers ∨ r ∈ m.consumed := by
  rw [← List.rdropWhile_append_rtakeWhile (p := fun r => decide (r ∈ m.consumed)) (l := m.watchers)] at hr
  rcases List.mem_append.mp hr with hr | hr
  · exact Or.inl hr
  · have hc := List.mem_rtakeWhile_imp hr
    exact Or.inr (of_decide_eq_true hc)

theorem eq_true_of_toNat {b : Bool} (h : 0 < b.toNat) : b = true := by
  cases b
  · cases h
  · rfl

/-- Every operation keeps the tasks where they are, or moves one on. -/
theorem Placed.move (h : Placed m (A ++ op :: B)) (hk : Kept value m (A ++ op :: B)) (hm : Move value m op m' new) :
    Placed m' (A ++ (new ++ B)) := by
  have hop : ∀ r, op.place = some r → r < m.count := h.place op (by simp)
  have hthrough : new.filterMap Op.back = op.back.toList → through m (A ++ (new ++ B)) = through m (A ++ op :: B) := through_step m A B new op
  have hrung := hk.rung
  simp only [total_append, total_cons] at hrung
  cases hm with
  | last hv | early hv =>
    refine h.keep (Nat.le_succ _) id rfl rfl (hthrough rfl) (fun r hr => Or.inl hr) (fun r hr => Or.inl hr) ?_ ?_
    · intro x hx r hr
      cases List.mem_singleton.mp hx
      exact Or.inr (Option.some.inj hr ▸ Nat.lt_succ_self _)
    · intro r hr
      rcases Nat.lt_succ_iff_lt_or_eq.mp hr with hr | rfl
      · exact Or.inl ⟨hr, by simp, Or.inl⟩
      · exact Or.inr (Or.inl ⟨_, List.mem_singleton_self _, rfl⟩)
  | pop r w ws hws =>
    have hflag : m.flag = true := eq_true_of_toNat (hrung (by simp only [Op.alarm]; omega))
    refine h.wake m.locked (h.watchers w (by simp [hws])) hflag rfl (fun _ hx => hx) (fun _ hx => Or.inl hx) ?_ ?_
    · exact fun x hx => hws ▸ List.mem_cons_of_mem w hx
    · intro x hx
      rw [hws] at hx
      exact (List.mem_cons.mp hx).symm
  | found r hf =>
    refine h.wake false (hop r rfl) hf ?_ (fun _ hx => Machine.mem_before _ hx) ?_ (fun _ hx => hx) (fun _ hx => Or.inl hx)
    · rw [List.filterMap_append, List.filterMap_append, List.filterMap_append, List.filterMap_cons]
      rfl
    · intro x hx
      by_cases hxr : x = .addCheck r
      · exact Or.inr (hxr ▸ rfl)
      · exact Or.inl (Machine.mem_keep hx hxr)
  | sweep r hl =>
    have hsub := (List.rdropWhile_prefix (fun r => decide (r ∈ m.consumed)) m.watchers).subset
    exact h.next rfl rfl ⟨rfl, rfl⟩ rfl id ⟨rfl, rfl, rfl, rfl⟩ (fun _ hx => Or.inl hx) (fun _ hx => hsub hx) (fun _ hx => mem_sweep hx)
  | push r =>
    refine h.keep (Nat.le_refl _) id rfl rfl (hthrough rfl) (fun x hx => Or.inl hx) (fun x hx => ?_) (by simp) ?_
    · refine (List.mem_append.mp hx).imp id (fun hx => ?_)
      rw [List.mem_singleton.mp hx]
      rfl
    · intro x hx
      by_cases hxr : x = r
      · exact Or.inr (Or.inr (Or.inl (by simp [hxr])))
      · exact Or.inl ⟨hx, fun heq => hxr (Option.some.inj heq).symm, fun hw => Or.inl (List.mem_append_left _ hw)⟩
  | ret r =>
    refine h.keep (Nat.le_refl _) id rfl rfl ?_ (fun x hx => Or.inl hx) (fun x hx => Or.inl hx) (by simp) ?_
    · simp only [through, List.filterMap_append, List.filterMap_cons, List.filterMap_nil, Op.back, ← Multiset.coe_add, ← Multiset.cons_coe,
        Multiset.coe_nil, ← Multiset.singleton_add]
      abel
    · intro x hx
      by_cases hxr : x = r
      · refine Or.inr (Or.inr (Or.inr (h.through_consumed x ?_)))
        simp [through, hxr]
      · exact Or.inl ⟨hx, fun heq => hxr (Option.some.inj heq).symm, Or.inl⟩
  | suspend r =>
    exact h.next rfl rfl ⟨rfl, rfl⟩ rfl id ⟨rfl, rfl, rfl, rfl⟩ (fun _ hx => (List.mem_cons.mp hx).symm) (fun _ hx => hx) (fun _ hx => Or.inl hx)
  | waiter r x hn =>
    rcases hn with rfl | rfl <;>
      exact h.next rfl rfl ⟨rfl, rfl⟩ rfl id ⟨rfl, rfl, rfl, rfl⟩ (fun _ hx => Or.inl hx) (fun _ hx => hx) (fun _ hx => Or.inl hx)
  | raise r | raised r | notifyLock r | notified r | addWaker r | notFound r =>
    exact h.next rfl rfl ⟨rfl, rfl⟩ rfl (by simp) ⟨rfl, rfl, rfl, rfl⟩ (fun _ hx => Or.inl hx) (fun _ hx => hx) (fun _ hx => Or.inl hx)

/-- A call starts with nobody's task, or with one that has been let through. -/
theorem Placed.call {l : Call} (h : Placed m ops) (hc : (machine value).call m l = some (m', new)) : Placed m' (ops ++ new) := by
  change Barrier.call m l = some (m', new) at hc
  have hmem : ∀ r : Nat, (∃ x ∈ ops, x.place = some r) → ∃ x ∈ ops ++ new, x.place = some r := by
    rintro r ⟨x, hx, hxr⟩
    exact ⟨x, List.mem_append_left new hx, hxr⟩
  cases l with
  | wait =>
    obtain ⟨rfl, rfl⟩ := Prod.mk.inj (Option.some.inj hc)
    have hthrough : through m (ops ++ [.ack]) = through m ops := by
      rw [through, through, List.filterMap_append, List.filterMap_cons_none rfl, List.filterMap_nil, List.append_nil]
    refine ⟨hthrough ▸ h.flagged, hthrough ▸ h.nodup, hthrough ▸ h.through_consumed, hthrough ▸ h.consumed, h.suspended, h.watchers, ?_, ?_⟩
    · intro x hx r hr
      rcases List.mem_append.mp hx with hx | hx
      · exact h.place x hx r hr
      · rw [List.mem_singleton.mp hx] at hr
        cases hr
    · exact fun r hr => (h.covered r hr).imp (hmem r) id
  | work i =>
    simp only [Barrier.call] at hc
    split at hc
    · rename_i r hr
      obtain ⟨rfl, rfl⟩ := Prod.mk.inj (Option.some.inj hc)
      have hthrough : through { m with handles := m.handles.eraseIdx i } (ops ++ [.ret r]) = through m ops := by
        have hperm : (↑m.handles : Multiset Nat) = r ::ₘ ↑(m.handles.eraseIdx i) := by
          obtain ⟨hlt, heq⟩ := List.getElem?_eq_some_iff.mp hr
          rw [Multiset.cons_coe, Multiset.coe_eq_coe, ← heq]
          exact (List.getElem_cons_eraseIdx_perm hlt).symm
        simp only [through, List.filterMap_append, List.filterMap_cons, List.filterMap_nil, Op.back, ← Multiset.coe_add, ← Multiset.cons_coe,
          Multiset.coe_nil, hperm, ← Multiset.singleton_add]
        abel
      have hin : r ∈ through m ops := by
        simp [through, List.mem_of_getElem? hr]
      refine ⟨hthrough ▸ h.flagged, hthrough ▸ h.nodup, hthrough ▸ h.through_consumed, hthrough ▸ h.consumed, h.suspended, h.watchers, ?_, ?_⟩
      · intro x hx y hy
        rcases List.mem_append.mp hx with hx | hx
        · exact h.place x hx y hy
        · rw [List.mem_singleton.mp hx] at hy
          exact Option.some.inj hy ▸ (h.consumed r (h.through_consumed r hin)).1
      · exact fun r hr => (h.covered r hr).imp (hmem r) id
    · cases hc
  | cancel r =>
    simp only [Barrier.call] at hc
    split at hc
    · rename_i hr
      obtain ⟨rfl, rfl⟩ := Prod.mk.inj (Option.some.inj hc)
      rw [List.append_nil]
      refine ⟨h.flagged, h.nodup, fun x hx => List.mem_cons_of_mem r (h.through_consumed x hx), ?_, h.suspended, h.watchers, h.place, ?_⟩
      · intro x hx
        rcases List.mem_cons.mp hx with rfl | hx
        · exact ⟨h.suspended x hr.1, Or.inr (by simp)⟩
        · exact ⟨(h.consumed x hx).1, (h.consumed x hx).2.imp id (List.mem_append_left _)⟩
      · exact fun x hx => (h.covered x hx).imp id (Or.imp id (List.mem_cons_of_mem r))
    · cases hc

theorem Kept.call {l : Call} (h : Kept value m ops) (hc : (machine value).call m l = some (m', new)) : Kept value m' (ops ++ new) := by
  change Barrier.call m l = some (m', new) at hc
  have hsame : (m'.count = m.count ∧ m'.flag = m.flag ∧ m'.locked = m.locked ∧ m'.watchers = m.watchers) ∧
      ∀ x ∈ new, x.holds = 0 ∧ x.alarm = 0 ∧ x.pushes = 0 ∧ x.sets = 0 := by
    cases l with
    | wait =>
      obtain ⟨rfl, rfl⟩ := Prod.mk.inj (Option.some.inj hc)
      simp
    | work i =>
      simp only [Barrier.call] at hc
      split at hc
      · obtain ⟨rfl, rfl⟩ := Prod.mk.inj (Option.some.inj hc)
        simp
      · cases hc
    | cancel r =>
      simp only [Barrier.call] at hc
      split at hc
      · obtain ⟨rfl, rfl⟩ := Prod.mk.inj (Option.some.inj hc)
        simp
      · cases hc
  obtain ⟨⟨hcount, hflag, hlocked, hwatchers⟩, hzero⟩ := hsame
  have h1 : total Op.holds new = 0 := total_eq_zero_iff.mpr (fun x hx => (hzero x hx).1)
  have h2 : total Op.alarm new = 0 := total_eq_zero_iff.mpr (fun x hx => (hzero x hx).2.1)
  have h3 : total Op.pushes new = 0 := total_eq_zero_iff.mpr (fun x hx => (hzero x hx).2.2.1)
  have h4 : total Op.sets new = 0 := total_eq_zero_iff.mpr (fun x hx => (hzero x hx).2.2.2)
  obtain ⟨hlock, hfull, hraised, halarm, hrung⟩ := h
  constructor <;> simp only [total_append, h1, h2, h3, h4, hcount, hflag, hlocked, hwatchers] <;> assumption

/-! ## Rest -/

/-- What an operation has still to do, at most. -/
@[simp] def Op.cost : Op → Nat
  | .ack => 13
  | .set _ => 12
  | .notifyLock _ => 11
  | .notify _ => 10
  | .waiter _ => 9
  | .sweep _ => 8
  | .suspend _ => 7
  | .addWaker _ => 6
  | .addCheck _ => 5
  | .push _ => 4
  | .ret _ => 1

/-- What is still to be done, at most, until nothing is pending. -/
def measure (m : Mem) (ops : List Op) : Nat := total Op.cost ops + 3 * m.watchers.length + 2 * m.handles.length

theorem wake_handles_le (m : Mem) (r : Nat) : (m.wake r).handles.length ≤ m.handles.length + 1 := by
  rcases wake_cases m r with ⟨-, heq⟩ | ⟨-, heq⟩ <;> rw [heq] <;> simp

/-- Every operation makes the measure smaller. -/
theorem measure_move (hm : Move value m op m' new) : measure m' (A ++ (new ++ B)) < measure m (A ++ op :: B) := by
  have hcost := total_step Op.cost A B new op
  simp only [measure]
  cases hm with
  | pop r w ws hws =>
    have hhandles := wake_handles_le { m with watchers := ws } w
    have hwatchers := (wake_kept { m with watchers := ws } w).2.2.2
    simp only [hwatchers, hws, List.length_cons, Op.cost, total_cons, total_nil] at hcost hhandles ⊢
    omega
  | found r hf =>
    have hhandles := wake_handles_le { m with locked := false } r
    have hwatchers := (wake_kept { m with locked := false } r).2.2.2
    simp only [hwatchers, Op.cost, total_nil] at hcost hhandles ⊢
    omega
  | sweep r hl =>
    have hlen := sweep_length_le m
    have hhandles : m.sweep.handles = m.handles := rfl
    simp only [hhandles, Op.cost, total_cons, total_nil] at hcost ⊢
    omega
  | waiter r x hn =>
    rcases hn with rfl | rfl <;> simp only [Op.cost, total_cons, total_nil] at hcost ⊢ <;> omega
  | _ =>
    simp only [Op.cost, total_cons, total_nil, List.length_append, List.length_cons, List.length_nil] at hcost ⊢
    omega

/-- So does a worker that runs a handle. -/
theorem measure_work {i : Nat} (hc : (machine value).call m (.work i) = some (m', new)) : measure m' (ops ++ new) < measure m ops := by
  change Barrier.call m (.work i) = some (m', new) at hc
  simp only [Barrier.call] at hc
  split at hc
  · rename_i r hr
    obtain ⟨rfl, rfl⟩ := Prod.mk.inj (Option.some.inj hc)
    obtain ⟨hlt, -⟩ := List.getElem?_eq_some_iff.mp hr
    have hlen := List.length_eraseIdx_of_lt hlt
    simp only [measure, hlen, total_append, total_cons, total_nil, Op.cost]
    omega
  · cases hc

/-- An operation is blocked by another one that has the mutex, or not at all. -/
theorem exec_isSome (h : op.holds = 1 ∨ m.locked = false) : (exec value m op ()).isSome = true := by
  cases op with
  | notify r =>
    simp only [exec]
    split <;> rfl
  | notifyLock r | sweep r | addWaker r =>
    rcases h with h | h
    · cases h
    · simp [exec, h]
  | _ => rfl

/-- While something is pending, some operation can be performed. -/
theorem exists_exec (h : Kept value m ops) (hop : op ∈ ops) : ∃ x ∈ ops, ∃ r, (machine value).exec m x () = some r := by
  cases hl : m.locked with
  | false => exact ⟨op, hop, Option.isSome_iff_exists.mp (exec_isSome (Or.inr hl))⟩
  | true =>
    have hlock := h.lock
    rw [hl, Bool.toNat_true] at hlock
    obtain ⟨x, hx, hholds⟩ := total_pos_iff.mp (by omega : 0 < total Op.holds ops)
    have hone := le_total_of_mem (f := Op.holds) hx
    exact ⟨x, hx, Option.isSome_iff_exists.mp (exec_isSome (Or.inl (by omega)))⟩

/-- An operation is followed by one at most. -/
theorem Move.length_le (h : Move value m op m' new) : new.length ≤ 1 := by
  cases h <;> simp

end Barrier

end Tonio
