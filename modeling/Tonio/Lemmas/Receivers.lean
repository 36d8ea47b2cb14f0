import Tonio.Receivers

/-!
# The coroutine of a signal

What is kept by every step of a cell. The coroutine is at one place (`token`), so the event has one watcher at most. Where the flag is up and there
is a watcher, or one about to be pushed, somebody is about to notify (`alarm`). A message is sent for each handle, and a handle comes of a look at the
flag while it is up, which the coroutine then clears, or of a watcher that is popped, which happens once at most for each `set` that raised the flag:
that is where the two messages of a signal come from (`upper`).
-/

namespace Tonio

namespace Receivers

open Interleaving

/-! ## Weights -/

/-- The coroutine is in the operation. -/
@[simp] def Op.recv : Op → Nat
  | .set | .notifyLock | .notify => 0
  | _ => 1

/-- The operation has the mutex. -/
@[simp] def Op.holds : Op → Nat
  | .notify | .addCheck _ | .push _ => 1
  | _ => 0

/-- The operation is about to take the mutex, to pop the watchers. -/
@[simp] def Op.waits : Op → Nat
  | .notifyLock => 1
  | _ => 0

/-- The operation pops the watchers. -/
@[simp] def Op.pops : Op → Nat
  | .notify => 1
  | _ => 0

/-- The operation is about to push a watcher. -/
@[simp] def Op.pushes : Op → Nat
  | .push _ => 1
  | _ => 0

/-- The coroutine has been resumed, and has not looked at the flag. -/
@[simp] def Op.clears : Op → Nat
  | .clear => 1
  | _ => 0

/-- The coroutine has come past the flag, and has not sent. -/
@[simp] def Op.sends : Op → Nat
  | .unnotify | .send => 1
  | _ => 0

/-- The operation is a `set` that has not looked at the flag. -/
@[simp] def Op.sets : Op → Nat
  | .set => 1
  | _ => 0

/-- The suspension of the operation, which is not among the watchers yet. -/
@[simp] def Op.waker : Op → Option Nat
  | .addWaker w | .addCheck w | .push w => some w
  | _ => none

/-! ## Steps -/

/-- What a step does to a cell and its record. -/
inductive Move (m : Cell) (g : Log) : Op → Cell → Log → List Op → Prop
  | raise (h : m.flag = false) :
    Move m g .set { m with flag := true } { g with sets := g.sets + 1, owed := true } [.notifyLock]
  | raised (h : m.flag = true) : Move m g .set m { g with owed := true } []
  | notifyLock (h : m.locked = false) : Move m g .notifyLock { m with locked := true } g [.notify]
  | notified (h : m.watchers = []) : Move m g .notify { m with dirty := false, locked := false } g []
  | pop (w : Nat) (ws : List Nat) (h : m.watchers = w :: ws) : Move m g .notify ({ m with watchers := ws }.wake w) g [.notify]
  | clear (h : m.flag = true) : Move m g .clear { m with flag := false } g [.unnotify]
  | cleared (h : m.flag = false) : Move m g .clear m g [.send]
  | unnotify (h : m.locked = false) : Move m g .unnotify m g [.send]
  | send : Move m g .send m { g with sent := g.sent + 1, owed := false } [.waiter]
  | dirty (h : m.dirty = true) : Move m g .waiter m g [.sweep]
  | clean (h : m.dirty = false) : Move m g .waiter m g [.register]
  | sweep (h : m.locked = false) : Move m g .sweep m.sweep g [.register]
  | register : Move m g .register { m with next := m.next + 1 } g [.addWaker m.next]
  | addWaker (w : Nat) (h : m.locked = false) : Move m g (.addWaker w) { m with locked := true } g [.addCheck w]
  | found (w : Nat) (h : m.flag = true) : Move m g (.addCheck w) ({ m with locked := false }.wake w) g []
  | notFound (w : Nat) (h : m.flag = false) : Move m g (.addCheck w) m g [.push w]
  | push (w : Nat) : Move m g (.push w) { m with watchers := m.watchers ++ [w], dirty := true, locked := false } g []

theorem exec_move {m m' : Cell × Log} {op : Op} {c : Unit} {new : List Op} (h : machine.exec m op c = some (m', new)) :
    Move m.1 m.2 op m'.1 m'.2 new := by
  obtain ⟨he, hg⟩ := Machine.recording_exec.mp h
  obtain ⟨m', g'⟩ := m'
  obtain ⟨m, g⟩ := m
  subst hg
  change Receivers.exec m op c = some (m', new) at he
  cases op with
  | set =>
    simp only [Receivers.exec, Option.some.injEq] at he
    split at he <;> obtain ⟨rfl, rfl⟩ := Prod.mk.inj he <;> rename_i hf <;> simp only [note, hf]
    · exact .raised hf
    · exact .raise (Bool.eq_false_of_not_eq_true hf)
  | clear =>
    simp only [Receivers.exec, Option.some.injEq] at he
    split at he <;> obtain ⟨rfl, rfl⟩ := Prod.mk.inj he <;> rename_i hf
    · exact .clear hf
    · exact .cleared (Bool.eq_false_of_not_eq_true hf)
  | addCheck w =>
    simp only [Receivers.exec, Option.some.injEq] at he
    split at he <;> obtain ⟨rfl, rfl⟩ := Prod.mk.inj he <;> rename_i hf
    · exact .found w hf
    · exact .notFound w (Bool.eq_false_of_not_eq_true hf)
  | notify =>
    simp only [Receivers.exec] at he
    split at he <;> simp only [Option.some.injEq, Prod.mk.injEq] at he <;> obtain ⟨rfl, rfl⟩ := he
    · exact .notified ‹_›
    · exact .pop _ _ ‹_›
  | waiter =>
    simp only [Receivers.exec, Option.some.injEq, Prod.mk.injEq] at he
    obtain ⟨rfl, rfl⟩ := he
    split
    · exact .dirty ‹_›
    · exact .clean (Bool.eq_false_of_not_eq_true ‹_›)
  | notifyLock | unnotify | sweep | addWaker =>
    simp only [Receivers.exec] at he
    split at he <;> simp only [Option.some.injEq, Prod.mk.injEq, reduceCtorEq] at he
    rename_i hl
    rw [Bool.not_eq_true] at hl
    obtain ⟨rfl, rfl⟩ := he
    first | exact .notifyLock hl | exact .unnotify hl | exact .sweep hl | exact .addWaker _ hl
  | send | register | push =>
    simp only [Receivers.exec, Option.some.injEq, Prod.mk.injEq] at he
    obtain ⟨rfl, rfl⟩ := he
    first | exact .send | exact .register | exact .push _

/-! ## Invariants -/

/-- A suspension that has been made and not been resumed. -/
def Cell.Fresh (m : Cell) (w : Nat) : Prop := w < m.next ∧ w ∉ m.consumed

theorem Cell.Fresh.wake {m : Cell} {w : Nat} (h : m.Fresh w) : m.wake w = { m with consumed := w :: m.consumed, handles := m.handles + 1 } :=
  if_neg h.2

/-- The suspensions among the watchers, and those about to be, have not been resumed. There is one at most, as the coroutine is at one place. -/
structure Numbered (m : Cell) (ops : List Op) : Prop where
  token : total Op.recv ops + m.handles + m.watchers.length = 1
  fresh : ∀ w ∈ m.watchers, m.Fresh w
  waker : ∀ op ∈ ops, ∀ w, op.waker = some w → m.Fresh w
  consumed : ∀ w ∈ m.consumed, w < m.next

/-- What is kept of the flag, the mutex and the record. -/
structure Kept (m : Cell) (g : Log) (ops : List Op) : Prop where
  lock : total Op.holds ops = m.locked.toNat
  alarm : m.watchers.length + total Op.pushes ops + m.flag.toNat ≤ total Op.waits ops + total Op.pops ops + 1
  upper : g.sent + m.handles + total Op.clears ops + total Op.sends ops + total Op.waits ops + min (total Op.pops ops) m.watchers.length +
    (m.flag.toNat - (m.handles + total Op.clears ops)) ≤ 2 * g.sets
  lower : g.sets ≤ g.sent + m.flag.toNat + total Op.sends ops
  owed : g.owed.toNat ≤ m.flag.toNat + total Op.sends ops
  calls : g.sets + total Op.sets ops ≤ g.calls

theorem Numbered.perm {m : Cell} {xs ys : List Op} (hp : xs.Perm ys) (h : Numbered m xs) : Numbered m ys :=
  ⟨total_perm Op.recv hp ▸ h.token, h.fresh, fun op hop => h.waker op (hp.mem_iff.mpr hop), h.consumed⟩

theorem Kept.perm {m : Cell} {g : Log} {xs ys : List Op} (hp : xs.Perm ys) (h : Kept m g xs) : Kept m g ys where
  lock := total_perm Op.holds hp ▸ h.lock
  alarm := total_perm Op.pushes hp ▸ total_perm Op.waits hp ▸ total_perm Op.pops hp ▸ h.alarm
  upper := by
    have := h.upper
    rwa [total_perm Op.sends hp, total_perm Op.waits hp, total_perm Op.pops hp, total_perm Op.clears hp] at this
  lower := total_perm Op.sends hp ▸ h.lower
  owed := total_perm Op.sends hp ▸ h.owed
  calls := total_perm Op.sets hp ▸ h.calls

variable {m m' : Cell} {g g' : Log} {A B new ops : List Op} {op : Op}

/-- No watcher is there while the coroutine is in an operation. -/
theorem Numbered.watchers_nil (h : Numbered m (A ++ op :: B)) (hop : op.recv = 1) : m.watchers = [] := by
  have := h.token
  rw [total_append, total_cons, hop] at this
  exact List.eq_nil_of_length_eq_zero (by omega)

theorem sweep_eq (h : m.watchers = []) : m.sweep = { m with dirty := false } := by
  simp [Cell.sweep, h]

/-- Next to the operation of the coroutine none has a suspension. -/
theorem Numbered.no_waker (h : Numbered m (A ++ op :: B)) (hop : op.recv = 1) {x : Op} (hx : x ∈ A ++ B) : x.waker = none := by
  have htoken := h.token
  have hrecv : x.recv = 0 := eq_zero_of_total_le (A := A) (B := B) (by omega) hop x hx
  cases x <;> first | rfl | cases hrecv

/-- A step that touches no suspension. -/
theorem Numbered.keep (h : Numbered m (A ++ op :: B)) (hnext : m'.next = m.next) (hconsumed : m'.consumed = m.consumed)
    (hhandles : m'.handles = m.handles) (hwatchers : m'.watchers = m.watchers) (hrecv : total Op.recv new = op.recv)
    (hwaker : ∀ x ∈ new, ∀ w, x.waker = some w → op.waker = some w) : Numbered m' (A ++ (new ++ B)) := by
  have hfresh : ∀ w, m.Fresh w → m'.Fresh w := by
    intro w hw
    unfold Cell.Fresh
    rwa [hnext, hconsumed]
  refine ⟨?_, ?_, ?_, ?_⟩
  · rw [total_step_eq A B op hrecv, hhandles, hwatchers]
    exact h.token
  · intro w hw
    exact hfresh w (h.fresh w (hwatchers ▸ hw))
  · intro x hx w hw
    rcases Machine.mem_cases op hx with hx | hx
    · exact hfresh w (h.waker op (by simp) w (hwaker x hx w hw))
    · exact hfresh w (h.waker x hx w hw)
  · rw [hconsumed, hnext]
    exact h.consumed

/-- A suspension is resumed: nobody has another one. -/
theorem Numbered.wake {w : Nat} (h : Numbered m (A ++ op :: B)) (hw : m.Fresh w) (hrecv : total Op.recv new + 1 = op.recv + m.watchers.length)
    (hwatchers : m'.watchers = []) (hnext : m'.next = m.next) (hconsumed : m'.consumed = w :: m.consumed) (hhandles : m'.handles = m.handles + 1)
    (hnone : ∀ x ∈ A ++ (new ++ B), x.waker = none) : Numbered m' (A ++ (new ++ B)) := by
  refine ⟨?_, ?_, ?_, ?_⟩
  · have := h.token
    have := total_step Op.recv A B new op
    rw [hwatchers, hhandles, List.length_nil]
    omega
  · simp [hwatchers]
  · intro x hx v hv
    rw [hnone x hx] at hv
    cases hv
  · rw [hconsumed, hnext]
    exact List.forall_mem_cons.mpr ⟨hw.1, h.consumed⟩

theorem Numbered.move (h : Numbered m (A ++ op :: B)) (hm : Move m g op m' g' new) : Numbered m' (A ++ (new ++ B)) := by
  have htoken := h.token
  simp only [total_append, total_cons] at htoken
  cases hm with
  | pop w ws hws =>
    have hw : m.Fresh w := h.fresh w (by simp [hws])
    rw [hws, List.length_cons] at htoken
    obtain rfl : ws = [] := List.eq_nil_of_length_eq_zero (by omega)
    rw [Cell.Fresh.wake (m := { m with watchers := [] }) hw]
    refine h.wake hw (by simp [hws]) rfl rfl rfl rfl ?_
    have hzero : total Op.recv A = 0 ∧ total Op.recv B = 0 := by omega
    have hnone : ∀ x : Op, x.recv = 0 → x.waker = none := by
      intro x hx
      cases x <;> first | rfl | cases hx
    intro x hx
    simp only [List.mem_append, List.mem_cons, List.not_mem_nil, or_false] at hx
    rcases hx with hx | rfl | hx
    · exact hnone x (total_eq_zero_iff.mp hzero.1 x hx)
    · rfl
    · exact hnone x (total_eq_zero_iff.mp hzero.2 x hx)
  | found w hf =>
    have hw : m.Fresh w := h.waker (.addCheck w) (by simp) w rfl
    have hnil := h.watchers_nil rfl
    rw [Cell.Fresh.wake (m := { m with locked := false }) hw]
    exact h.wake hw (by simp [hnil]) hnil rfl rfl rfl (fun x hx => h.no_waker rfl hx)
  | register =>
    refine ⟨?_, ?_, ?_, fun w hw => Nat.lt_succ_of_lt (h.consumed w hw)⟩
    · simpa [total_append] using htoken
    · simp [h.watchers_nil rfl]
    · intro x hx w hw
      rcases Machine.mem_beside hx with hx | hx
      · obtain rfl := List.mem_singleton.mp hx
        obtain rfl : m.next = w := Option.some.inj hw
        exact ⟨Nat.lt_succ_self _, fun hmem => Nat.lt_irrefl _ (h.consumed _ hmem)⟩
      · rw [h.no_waker rfl hx] at hw
        cases hw
  | push w =>
    have hnil := h.watchers_nil rfl
    refine ⟨?_, ?_, ?_, h.consumed⟩
    · simp only [hnil, total_append, List.nil_append, List.length_singleton, Op.recv, List.length_nil] at htoken ⊢
      omega
    · intro v hv
      simp only [hnil, List.nil_append, List.mem_singleton] at hv
      exact hv ▸ h.waker (.push w) (by simp) w rfl
    · intro x hx v hv
      rw [h.no_waker rfl (Machine.mem_beside hx |>.resolve_left (by simp))] at hv
      cases hv
  | sweep hl =>
    rw [sweep_eq (h.watchers_nil rfl)]
    exact h.keep rfl rfl rfl rfl rfl (by simp)
  | _ => exact h.keep rfl rfl rfl rfl rfl (by simp)

/-- The coroutine is at one place, and the mutex has one owner. -/
theorem weights_le (ops : List Op) : total Op.pushes ops + total Op.clears ops + total Op.sends ops ≤ total Op.recv ops ∧
    total Op.pushes ops + total Op.pops ops ≤ total Op.holds ops := by
  induction ops with
  | nil => exact ⟨Nat.le_refl 0, Nat.le_refl 0⟩
  | cons x ops ih =>
    simp only [total_cons]
    cases x <;> simp only [Op.pushes, Op.clears, Op.sends, Op.recv, Op.pops, Op.holds] <;> omega

theorem Kept.move (hn : Numbered m (A ++ op :: B)) (h : Kept m g (A ++ op :: B)) (hm : Move m g op m' g' new) :
    Kept m' g' (A ++ (new ++ B)) := by
  have htoken := hn.token
  have hA := weights_le A
  have hB := weights_le B
  have hflag := m.flag.toNat_le
  have hlocked := m.locked.toNat_le
  have howes := g.owed.toNat_le
  obtain ⟨hlock, halarm, hupper, hlower, howed, hcalls⟩ := h
  simp only [total_append, total_cons] at htoken hlock halarm hupper hlower howed hcalls
  cases hm with
  | pop w ws hws =>
    have hlen := congrArg List.length hws
    rw [Cell.Fresh.wake (m := { m with watchers := ws }) (hn.fresh w (by simp [hws]))]
    rw [List.length_cons] at hlen
    simp only [Op.recv, Op.holds, Op.waits, Op.pops, Op.pushes, Op.clears, Op.sends, Op.sets] at htoken hlock halarm hupper hlower howed hcalls
    constructor <;> simp only [total_append, total_cons, total_nil, Op.holds, Op.waits, Op.pops, Op.pushes, Op.clears, Op.sends, Op.sets] <;> omega
  | found w hf =>
    have hraised := congrArg Bool.toNat hf
    rw [Cell.Fresh.wake (m := { m with locked := false }) (hn.waker (.addCheck w) (by simp) w rfl)]
    rw [Bool.toNat_true] at hraised
    simp only [Op.recv, Op.holds, Op.waits, Op.pops, Op.pushes, Op.clears, Op.sends, Op.sets] at htoken hlock halarm hupper hlower howed hcalls
    constructor <;> simp only [total_append, total_nil, Bool.toNat_false] <;> omega
  | sweep hl =>
    rw [sweep_eq (hn.watchers_nil rfl)]
    simp only [Op.recv, Op.holds, Op.waits, Op.pops, Op.pushes, Op.clears, Op.sends, Op.sets] at htoken hlock halarm hupper hlower howed hcalls
    constructor <;> simp only [total_append, total_cons, total_nil, Op.holds, Op.waits, Op.pops, Op.pushes, Op.clears, Op.sends, Op.sets] <;> omega
  | notified hws =>
    have hlen := congrArg List.length hws
    rw [List.length_nil] at hlen
    simp only [Op.recv, Op.holds, Op.waits, Op.pops, Op.pushes, Op.clears, Op.sends, Op.sets] at htoken hlock halarm hupper hlower howed hcalls
    constructor <;> simp only [total_append, total_nil, Bool.toNat_false] <;> omega
  | raise hb | raised hb | notifyLock hb | clear hb | cleared hb | unnotify hb | dirty hb | clean hb | addWaker w hb | notFound w hb =>
    have hbit := congrArg Bool.toNat hb
    simp only [Bool.toNat_true, Bool.toNat_false] at hbit
    simp only [Op.recv, Op.holds, Op.waits, Op.pops, Op.pushes, Op.clears, Op.sends, Op.sets] at htoken hlock halarm hupper hlower howed hcalls
    constructor <;> simp only [total_append, total_cons, total_nil, Op.holds, Op.waits, Op.pops, Op.pushes, Op.clears, Op.sends, Op.sets,
      Bool.toNat_true, Bool.toNat_false] <;> omega
  | send | register | push w =>
    simp only [Op.recv, Op.holds, Op.waits, Op.pops, Op.pushes, Op.clears, Op.sends, Op.sets] at htoken hlock halarm hupper hlower howed hcalls
    constructor <;> simp only [total_append, total_cons, total_nil, Op.holds, Op.waits, Op.pops, Op.pushes, Op.clears, Op.sends, Op.sets,
      Bool.toNat_false, List.length_append, List.length_cons, List.length_nil] <;> omega

/-- What a worker begins is kept too. -/
theorem kept_call {l : Call} (hn : Numbered m ops) (h : Kept m g ops) (hc : machine.call (m, g) l = some ((m', g'), new)) :
    Numbered m' (ops ++ new) ∧ Kept m' g' (ops ++ new) := by
  obtain ⟨hcell, rfl⟩ : Receivers.call m l = some (m', new) ∧ g' = note m (.call l) g := Machine.recording_call.mp hc
  have htoken := hn.token
  obtain ⟨hlock, halarm, hupper, hlower, howed, hcalls⟩ := h
  cases l with
  | set =>
    simp only [Receivers.call, Option.some.injEq, Prod.mk.injEq] at hcell
    obtain ⟨rfl, rfl⟩ := hcell
    refine ⟨⟨by simpa using htoken, hn.fresh, ?_, hn.consumed⟩, ?_⟩
    · intro x hx
      rcases List.mem_append.mp hx with hx | hx
      · exact hn.waker x hx
      · rw [List.mem_singleton.mp hx]
        simp
    · constructor <;> simp only [note, total_append, total_cons, total_nil, Op.holds, Op.waits, Op.pops, Op.pushes, Op.clears, Op.sends,
        Op.sets] <;> omega
  | work =>
    simp only [Receivers.call] at hcell
    split at hcell
    · cases hcell
    · simp only [Option.some.injEq, Prod.mk.injEq] at hcell
      obtain ⟨rfl, rfl⟩ := hcell
      refine ⟨⟨?_, hn.fresh, ?_, hn.consumed⟩, ?_⟩
      · simp only [total_append, total_cons, total_nil, Op.recv]
        omega
      · intro x hx
        rcases List.mem_append.mp hx with hx | hx
        · exact hn.waker x hx
        · rw [List.mem_singleton.mp hx]
          simp
      · constructor <;> simp only [note, total_append, total_cons, total_nil, Op.holds, Op.waits, Op.pops, Op.pushes, Op.clears, Op.sends,
          Op.sets] <;> omega

/-- A cell whose coroutine comes to its first wait. -/
def Cell.initial : Cell × Log := (⟨false, false, [], false, 0, [], 0⟩, ⟨0, 0, 0, false⟩)

theorem kept_of_soup {m : Cell × Log} (h : machine.Soup (fun _ _ _ => True) Cell.initial [.waiter] m ops) :
    Numbered m.1 ops ∧ Kept m.1 m.2 ops := by
  refine h.invariant (I := fun m ops => Numbered m.1 ops ∧ Kept m.1 m.2 ops) ?_ ?_ ?_ ?_
  · exact fun hp hxs => ⟨hxs.1.perm hp, hxs.2.perm hp⟩
  · refine ⟨⟨rfl, by simp [Cell.initial], by simp, by simp [Cell.initial]⟩, ?_⟩
    constructor <;> simp [Cell.initial]
  · intro m A op B c m' new ih _ he
    exact ⟨ih.1.move (exec_move he), ih.2.move ih.1 (exec_move he)⟩
  · exact fun m ops l m' new ih _ hc => kept_call ih.1 ih.2 hc

/-! ## Rest -/

/-- At rest, the flag is down: a message has followed every `set`, and there is one for each that raised the flag. -/
theorem Kept.at_rest (hn : Numbered m ops) (h : Kept m g ops) (hrest : AtRest m ops) : g.sets ≤ g.sent ∧ g.owed = false ∧ m.flag = false := by
  obtain ⟨rfl, hhandles⟩ := hrest
  have htoken := hn.token
  obtain ⟨hlock, halarm, hupper, hlower, howed, hcalls⟩ := h
  simp only [total_nil] at htoken hlock halarm hlower howed
  have hflag : m.flag.toNat = 0 := by omega
  refine ⟨by omega, ?_, ?_⟩
  · exact Bool.toNat_eq_zero.mp (by omega)
  · exact Bool.toNat_eq_zero.mp hflag

/-- What an operation has still to do, at most, until the coroutine waits. -/
@[simp] def Op.cost : Op → Nat
  | .set => 4
  | .notifyLock => 3
  | .notify => 2
  | .clear => 8
  | .unnotify => 7
  | .send => 6
  | .waiter => 16
  | .sweep => 15
  | .register => 14
  | .addWaker _ => 13
  | .addCheck _ => 12
  | .push _ => 11

/-- The messages that may still be sent, and what is to be done for the coroutine to wait. -/
def measure (m : Cell × Log) (ops : List Op) : Nat :=
  11 * (2 * m.2.calls - m.2.sent) + total Op.cost ops + 10 * m.1.watchers.length + 9 * m.1.handles

/-- Every operation makes the measure smaller. -/
theorem measure_move (hn : Numbered m (A ++ op :: B)) (h : Kept m g (A ++ op :: B)) (hm : Move m g op m' g' new) :
    measure (m', g') (A ++ (new ++ B)) < measure (m, g) (A ++ op :: B) := by
  have hsends := h.upper
  have hcalls := h.calls
  have hcost := total_step Op.cost A B new op
  simp only [total_append, total_cons] at hsends
  simp only [measure]
  cases hm with
  | pop w ws hws =>
    rw [Cell.Fresh.wake (m := { m with watchers := ws }) (hn.fresh w (by simp [hws]))]
    simp only [hws, List.length_cons, Op.cost, total_cons, total_nil] at hcost ⊢
    omega
  | found w hf =>
    rw [Cell.Fresh.wake (m := { m with locked := false }) (hn.waker (.addCheck w) (by simp) w rfl)]
    simp only [Op.cost, total_nil] at hcost ⊢
    omega
  | sweep hl =>
    rw [sweep_eq (hn.watchers_nil rfl)]
    simp only [Op.cost, total_cons, total_nil] at hcost ⊢
    omega
  | send =>
    simp only [Op.sends, Op.cost, total_cons, total_nil] at hcost hsends ⊢
    omega
  | _ =>
    simp only [Op.cost, total_cons, total_nil, List.length_append, List.length_cons, List.length_nil] at hcost ⊢
    omega

/-- So does a worker that runs a handle. -/
theorem measure_work (hc : machine.call (m, g) .work = some ((m', g'), new)) : measure (m', g') (ops ++ new) < measure (m, g) ops := by
  obtain ⟨hcell, rfl⟩ : Receivers.call m .work = some (m', new) ∧ g' = note m (.call .work) g := Machine.recording_call.mp hc
  simp only [Receivers.call] at hcell
  split at hcell
  · cases hcell
  · simp only [Option.some.injEq, Prod.mk.injEq] at hcell
    obtain ⟨rfl, rfl⟩ := hcell
    simp only [measure, total_append, total_cons, total_nil, Op.cost]
    omega

/-- A handle can be run. -/
theorem exists_work (h : m.handles ≠ 0) : ∃ r, machine.call (m, g) .work = some r :=
  ⟨(({ m with handles := m.handles - 1 }, note m (.call .work) g), [.clear]), Machine.recording_call.mpr ⟨if_neg h, rfl⟩⟩

/-- An operation is followed by one at most. -/
theorem Move.length_le (h : Move m g op m' g' new) : new.length ≤ 1 := by
  cases h <;> simp

theorem call_length_le {m m' : Cell × Log} {l : Call} (hc : machine.call m l = some (m', new)) : new.length ≤ 1 := by
  obtain ⟨hc, -⟩ := Machine.recording_call.mp hc
  cases l <;> simp only [Receivers.call] at hc
  · simp only [Option.some.injEq, Prod.mk.injEq] at hc
    simp [← hc.2]
  · split at hc <;> simp only [Option.some.injEq, Prod.mk.injEq, reduceCtorEq] at hc
    simp [← hc.2]

/-- An operation is blocked by another one that has the mutex, or not at all. -/
theorem exec_isSome (h : op.holds = 1 ∨ m.locked = false) : (Receivers.exec m op ()).isSome = true := by
  cases op with
  | notify =>
    simp only [Receivers.exec]
    split <;> rfl
  | notifyLock | unnotify | sweep | addWaker w =>
    rcases h with h | h
    · cases h
    · simp [Receivers.exec, h]
  | _ => rfl

/-- While something is pending, some operation can be performed. -/
theorem exists_exec (h : Kept m g ops) (hop : op ∈ ops) : ∃ x ∈ ops, ∃ r, machine.exec (m, g) x () = some r := by
  have hexec : ∀ x : Op, x.holds = 1 ∨ m.locked = false → ∃ r, machine.exec (m, g) x () = some r := by
    intro x hx
    obtain ⟨r, hr⟩ := Option.isSome_iff_exists.mp (exec_isSome hx)
    exact ⟨((r.1, note m (.exec x ()) g), r.2), Machine.recording_exec.mpr ⟨hr, rfl⟩⟩
  cases hl : m.locked with
  | false => exact ⟨op, hop, hexec op (Or.inr hl)⟩
  | true =>
    have hlock := h.lock
    rw [hl, Bool.toNat_true] at hlock
    obtain ⟨x, hx, hholds⟩ := total_pos_iff.mp (by omega : 0 < total Op.holds ops)
    have hone := le_total_of_mem (f := Op.holds) hx
    exact ⟨x, hx, hexec x (Or.inl (by omega))⟩

end Receivers

end Tonio
