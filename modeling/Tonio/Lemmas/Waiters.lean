import Tonio.Lemmas.Schedule

/-!
# The references to an event

An event is made by the task that arms. Until it is set, one reference to it is left besides that of its task: the armer carries it into the
slot, a wake takes it out and schedules it (`refs`). A slot has room for one event, and the next armer of the direction fills it without a
look: what was in it has no reference then.
-/

namespace Tonio.Schedule

open Interleaving

variable {m m' : Mem} {A B new ops : List Op} {op : Op} {c : Choice} {d : Dir}

/-! ## One reference -/

/-- The event an armer carries into the slot, or a waker out of it. -/
def Op.carries : Op → Option Nat
  | .armLock _ e | .armCheck _ e | .armFill _ e | .addIoHandle e => some e
  | _ => none

/-- Whether an operation carries an event. -/
def carried (e : Nat) (op : Op) : Nat := isAt op.carries e

/-- The references the memory has to an event; an event that is set counts as one. -/
def Mem.refs (m : Mem) (e : Nat) : Nat := isAt (m.slot .r) e + isAt (m.slot .w) e + (m.woken e).toNat

/-- The references to an event, besides that of the task that waits for it. -/
def refs (m : Mem) (ops : List Op) (e : Nat) : Nat := total (carried e) ops + m.refs e

/-- Taking an event from a slot moves its reference. -/
theorem carried_taken (m : Mem) (ready : Word) (d : Dir) (e : Nat) :
    total (carried e) (m.taken ready d) + isAt ((m.take ready).slot d) e = isAt (m.slot d) e := by
  simp only [Mem.taken, Mem.take]
  split
  · cases m.slot d with
    | none => rfl
    | some e' => simp [carried, Op.carries]
  · simp

/-- A step makes a new event, or adds no reference. -/
theorem Move.refs (h : Move m op m' new) :
    (m'.next = m.next ∧ ∀ e, total (carried e) new + m'.refs e ≤ carried e op + m.refs e) ∨
    (m'.next = m.next + 1 ∧ ∀ e, total (carried e) new + m'.refs e = isAt (some m.next) e + m.refs e) := by
  cases h with
  | armLoad d => exact Or.inr ⟨rfl, fun e => by simp [carried, Op.carries, Mem.refs]⟩
  | armFill d e' =>
    refine Or.inl ⟨rfl, fun e => ?_⟩
    cases d <;> simp [carried, Op.carries, Mem.refs] <;> omega
  | wakeTake who ready =>
    refine Or.inl ⟨rfl, fun e => ?_⟩
    have hr := carried_taken m ready .r e
    have hw := carried_taken m ready .w e
    simp only [Mem.take] at hr hw
    simp only [carried, total_cons, total_append, Op.carries, isAt_none, Mem.refs, Mem.take] at hr hw ⊢
    omega
  | addIoHandle e' =>
    refine Or.inl ⟨rfl, fun e => ?_⟩
    by_cases he : e = e'
    · subst he
      simp [carried, Op.carries, Mem.refs]
      omega
    · simp [carried, Op.carries, Mem.refs, he]
  | lower d w hx => exact Or.inl ⟨rfl, fun e => by simp [Mem.refs]⟩
  | _ => exact Or.inl ⟨rfl, fun e => by simp [carried, Op.carries, Mem.refs, Mem.publish]⟩

/-- An event has at most one reference, and none before it is made. -/
def Referenced (m : Mem) (ops : List Op) : Prop := ∀ e, refs m ops e ≤ 1 ∧ (m.next ≤ e → refs m ops e = 0)

theorem Referenced.move (h : Referenced m (A ++ op :: B)) (hm : Move m op m' new) : Referenced m' (A ++ (new ++ B)) := by
  intro e
  have hstep := total_step (carried e) A B new op
  obtain ⟨h1, h0⟩ := h e
  unfold Schedule.refs at h1 h0 ⊢
  rcases hm.refs with ⟨hn, hle⟩ | ⟨hn, heq⟩
  · have := hle e
    refine ⟨by omega, fun hlt => ?_⟩
    have := h0 (by omega)
    omega
  · have hadd := heq e
    by_cases he : m.next = e
    · have := h0 (by omega)
      rw [he, isAt_self] at hadd
      exact ⟨by omega, fun hlt => by omega⟩
    · rw [isAt_some_of_ne he] at hadd
      refine ⟨by omega, fun hlt => ?_⟩
      have := h0 (by omega)
      omega

theorem referenced_of_reach {ok : Mem → List Op → Act Op Choice Call → Prop} {s : State Mem Op} (h : machine.Reach ok initial s) :
    Referenced s.mem s.ops := by
  refine h.invariant (I := Referenced) ?_ ?_ ?_
  · exact fun e => ⟨Nat.zero_le 1, fun _ => rfl⟩
  · exact fun m A op B c m' new hI _ he => hI.move (exec_move he)
  · intro m ops l m' new hI _ hc e
    have hnew : m' = m ∧ total (carried e) new = 0 := by
      cases l <;> simp only [machine, call, Option.some.injEq, Prod.mk.injEq] at hc <;> obtain ⟨rfl, rfl⟩ := hc <;>
        exact ⟨rfl, rfl⟩
    obtain ⟨rfl, h0⟩ := hnew
    have := hI e
    unfold refs at this ⊢
    rw [total_append, h0]
    exact this

/-! ## Overwriting -/

/-- An armer fills a slot that has the event of a task that is parked. -/
def Overwrites (m : Mem) (ops : List Op) : Act Op Choice Call → Prop
  | .exec (.armFill d _) _ => ∃ op ∈ ops, ∃ e ∈ m.slot d, op = .parked d e
  | _ => False

theorem kept_of_reach {s : State Mem Op} (h : machine.Reach (fun m ops a => ¬Overwrites m ops a) initial s) : Kept s.mem s.ops := by
  refine h.invariant (I := Kept) ?_ ?_ ?_
  · exact fun d e hx => absurd hx List.not_mem_nil
  · intro m A op B c m' new hI hok he
    refine hI.move (exec_move he) (fun d e e' hop hs hp => ?_)
    subst hop
    exact hok ⟨.parked d e, Machine.mem_before _ hp, e, hs, rfl⟩
  · exact fun m ops l m' new hI _ hc => hI.call hc

/-- The event of a task that is parked has a reference while it is kept. -/
theorem Kept.refs_pos {e : Nat} (h : Kept m ops) (hp : Op.parked d e ∈ ops) : 0 < refs m ops e := by
  unfold refs Mem.refs
  rcases h d e hp with hw | ha | hs
  · rw [hw, Bool.toNat_true]
    omega
  · have hc : carried e (.addIoHandle e) = 1 := isAt_self e
    have := le_total_of_mem (f := carried e) ha
    omega
  · have hc : isAt (m.slot d) e = 1 := by
      rw [hs]
      exact isAt_self e
    cases d <;> omega

/-- The filling of a slot drops the reference it had. -/
theorem refs_armFill {e e' : Nat} (h : refs m (A ++ .armFill d e' :: B) e ≤ 1) (hs : m.slot d = some e)
    (he : exec m (.armFill d e') c = some (m', new)) : refs m' (A ++ (new ++ B)) e = 0 := by
  have hstep := total_step (carried e) A B new (.armFill d e')
  have hslot : 1 ≤ m.refs e := by
    unfold Mem.refs
    cases d <;> rw [hs, isAt_self] <;> omega
  have hne : e' ≠ e := by
    rintro rfl
    have hc : carried e' (.armFill d e') = 1 := isAt_self e'
    have := le_total_of_mem (f := carried e') (List.mem_append_right A (List.mem_cons_self (a := Op.armFill d e') (l := B)))
    unfold refs at h
    omega
  have hc : carried e (.armFill d e') = 0 := isAt_some_of_ne hne
  unfold refs at h ⊢
  cases exec_move he with
  | lower d' w hx => rcases hx with ⟨tick, hx⟩ | hx <;> cases hx
  | armFill =>
    have hnew : total (carried e) [.unlock, .parked d e'] = 0 := rfl
    have hless : Mem.refs { m with slot := Function.update m.slot d (some e'), due := Function.update m.due d false } e + 1 = m.refs e := by
      unfold Mem.refs
      cases d <;> simp [hs, isAt_some_of_ne hne] <;> omega
    omega

/-- The event that was overwritten has no reference left. -/
theorem not_kept_of_overwrites {s s' : State Mem Op} {a : Act Op Choice Call} (hr : Referenced s.mem s.ops)
    (hov : Overwrites s.mem s.ops a) (hs : machine.Step s a s') : ¬Kept s'.mem s'.ops := by
  rcases hs.ops_eq with ⟨A, op, B, c, new, rfl, ho, he, ho'⟩ | ⟨l, new, rfl, -, -⟩
  · cases op with
    | armFill d e' =>
      obtain ⟨-, hmem, e, hslot, rfl⟩ := hov
      rw [ho] at hr hmem
      have h0 := refs_armFill (hr e).1 hslot he
      rw [ho']
      intro hkept
      have := hkept.refs_pos (Machine.mem_keep hmem Op.noConfusion)
      omega
    | _ => cases hov
  · cases hov

end Tonio.Schedule
