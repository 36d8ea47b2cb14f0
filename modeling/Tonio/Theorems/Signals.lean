import Tonio.Signals

/-!
# Interrupts the loop survives

`sig_loop_handled` says that a signal was dispatched, but not by which poll: only a poll that is interrupted takes the flag down. What a poll
that is not interrupted dispatches is left over for the next interrupt, whether that one is handled or not.
-/

namespace Tonio.Signals

open Interleaving

/-- The operations of the loop between two polls, and those of a poll before it handles events. -/
def Op.early : Op → Bool
  | .check | .poll | .retry => true
  | _ => false

/-- What holds of the loop and its record: the loop is one thread, the flag is up for what was left over or has been dispatched by the poll in
progress, and a poll begins with nothing dispatched. -/
structure Looping (m : Mem × Log) (ops : List Op) : Prop where
  one : ops.length = m.1.running.toNat
  flag : m.1.sigLoopHandled = true ↔ Leftover m.2.polls ∨ m.2.dispatched ≠ []
  begins : (∀ op ∈ ops, op.early = true) → m.2.dispatched = []

theorem early_nextEvent (r : Res) (evs : List Token) : (nextEvent r evs).early = false := by
  rcases evs with _ | ⟨_ | _ | _, evs⟩ <;> rfl

theorem early_nextByte (m : Mem) (r : Res) (evs : List Token) (buf : List Nat) : (nextByte m r evs buf).early = false := by
  cases buf with
  | nil => rfl
  | cons sig buf =>
    simp only [nextByte]
    split <;> rfl

/-- An operation that goes on with the same poll and leaves the flag and the record as they are. -/
theorem Looping.goes {m m' : Mem} {g : Log} {op x : Op} (h : Looping (m, g) [op]) (hr : m'.running = m.running)
    (hf : m'.sigLoopHandled = m.sigLoopHandled) (hx : x.early = true → op.early = true ∨ g.dispatched = []) : Looping (m', g) [x] := by
  refine ⟨?_, ?_, fun hearly => ?_⟩
  · simp only [hr]
    exact h.one
  · simp only [hf]
    exact h.flag
  · refine (hx (hearly x (List.mem_singleton_self x))).elim (fun hop => h.begins (fun y hy => ?_)) id
    rwa [List.mem_singleton.mp hy]

/-- Every operation of the loop. -/
theorem Looping.exec {m m' : Mem} {g : Log} {op : Op} {c : Choice} {new : List Op} (h : Looping (m, g) [op])
    (he : exec m op c = some (m', new)) : Looping (m', note m (.exec op c) g) new := by
  have hrun : m.running = true := by
    have hone : 1 = m.running.toNat := h.one
    cases hr : m.running with
    | false =>
      rw [hr] at hone
      cases hone
    | true => rfl
  have hflag : m.sigLoopHandled = true ↔ Leftover g.polls ∨ g.dispatched ≠ [] := h.flag
  cases op with
  | check =>
    cases c <;> simp only [Signals.exec, Option.some.injEq, reduceCtorEq] at he
    have hnone : g.dispatched = [] := h.begins (fun y hy => List.mem_singleton.mp hy ▸ rfl)
    split at he <;> obtain ⟨rfl, rfl⟩ := Prod.mk.inj he
    · exact ⟨rfl, h.flag, fun _ => hnone⟩
    · exact h.goes rfl rfl (fun _ => Or.inr hnone)
  | decide r =>
    cases c <;> cases r <;> simp only [Signals.exec, Option.some.injEq, Prod.mk.injEq, reduceCtorEq] at he
    case go.ok =>
      obtain ⟨rfl, rfl⟩ := he
      refine ⟨h.one, ?_, fun _ => rfl⟩
      simp [note, Leftover, hflag, or_comm]
    case go.interrupted =>
      split at he <;> obtain ⟨rfl, rfl⟩ := Prod.mk.inj he
      · exact ⟨h.one, by simp [note, Leftover], fun _ => rfl⟩
      · rename_i hdown
        exact ⟨rfl, by simp [note, Leftover, hdown], fun _ => rfl⟩
    case go.failed =>
      obtain ⟨rfl, rfl⟩ := he
      refine ⟨rfl, ?_, fun _ => rfl⟩
      simp [note, Leftover, hflag, or_comm]
  | poll | retry =>
    cases c <;> simp only [Signals.exec, Option.some.injEq, Prod.mk.injEq, reduceCtorEq] at he <;> obtain ⟨rfl, rfl⟩ := he <;>
      exact h.goes rfl rfl (fun _ => Or.inl rfl)
  | handle r evs =>
    cases c <;> simp only [Signals.exec, Option.some.injEq, Prod.mk.injEq, reduceCtorEq] at he
    obtain ⟨rfl, rfl⟩ := he
    exact h.goes rfl rfl (fun hx => by rw [early_nextEvent] at hx; cases hx)
  | read r buf evs =>
    cases c <;> simp only [Signals.exec, Option.some.injEq, Prod.mk.injEq, reduceCtorEq] at he
    case bytes k =>
      split at he
      · obtain ⟨rfl, rfl⟩ := Prod.mk.inj (Option.some.inj he)
        exact h.goes rfl rfl (fun hx => by cases hx)
      · cases he
    all_goals
      obtain ⟨rfl, rfl⟩ := he
      exact h.goes rfl rfl (fun hx => by cases hx)
  | listening r buf evs =>
    cases c <;> simp only [Signals.exec, Option.some.injEq, Prod.mk.injEq, reduceCtorEq] at he
    obtain ⟨rfl, rfl⟩ := he
    split <;> exact h.goes rfl rfl (fun hx => by cases hx)
  | get r buf evs =>
    cases c <;> simp only [Signals.exec, Option.some.injEq, Prod.mk.injEq, reduceCtorEq] at he
    obtain ⟨rfl, rfl⟩ := he
    exact h.goes rfl rfl (fun hx => by rw [early_nextByte] at hx; cases hx)
  | handled r sig e buf evs =>
    cases c <;> simp only [Signals.exec, Option.some.injEq, Prod.mk.injEq, reduceCtorEq] at he
    obtain ⟨rfl, rfl⟩ := he
    refine ⟨h.one, by simp [note], fun hearly => ?_⟩
    cases hearly _ (List.mem_singleton_self _)
  | addIoHandle r e buf evs =>
    cases c <;> simp only [Signals.exec, Option.some.injEq, Prod.mk.injEq, reduceCtorEq] at he
    obtain ⟨rfl, rfl⟩ := he
    exact h.goes rfl rfl (fun hx => by cases hx)

/-- Every call. -/
theorem Looping.call {m m' : Mem} {g : Log} {ops new : List Op} {l : Call} (h : Looping (m, g) ops) (hc : call m l = some (m', new)) :
    Looping (m', note m (.call l) g) (ops ++ new) := by
  cases l with
  | run =>
    simp only [Signals.call] at hc
    split at hc
    · cases hc
    · rename_i hrun
      obtain ⟨rfl, rfl⟩ := Prod.mk.inj (Option.some.inj hc)
      have hone : ops.length = m.running.toNat := h.one
      have hnil : ops = [] := List.eq_nil_of_length_eq_zero (by simpa [hrun] using hone)
      subst hnil
      exact ⟨rfl, h.flag, fun _ => h.begins (List.forall_mem_nil _)⟩
  | _ =>
    obtain ⟨rfl, rfl⟩ := Prod.mk.inj (Option.some.inj hc)
    rw [List.append_nil]
    exact ⟨h.one, h.flag, h.begins⟩

/-- The loop is the only thread. -/
theorem Looping.alone {m : Mem × Log} {A B : List Op} {op : Op} (h : Looping m (A ++ op :: B)) : A = [] ∧ B = [] := by
  have hone := h.one
  have hle := Bool.toNat_le m.1.running
  rw [List.length_append, List.length_cons] at hone
  exact ⟨List.eq_nil_of_length_eq_zero (by omega), List.eq_nil_of_length_eq_zero (by omega)⟩

/-- In every state of every run. -/
theorem Looping.reach {s : State (Mem × Log) Op} (h : recorded.Reach (fun _ _ _ => True) initial s) : Looping s.mem s.ops := by
  refine h.invariant (I := Looping) ⟨rfl, by simp [initial, Leftover], fun _ => rfl⟩ ?_ ?_
  · rintro ⟨m, g⟩ A op B c ⟨m', g'⟩ new hI - he
    obtain ⟨he, rfl⟩ := Machine.recording_exec.mp he
    obtain ⟨rfl, rfl⟩ := hI.alone
    simpa using hI.exec he
  · rintro ⟨m, g⟩ ops l ⟨m', g'⟩ new hI - hc
    obtain ⟨hc, rfl⟩ := Machine.recording_call.mp hc
    exact hI.call hc

/-- An interrupted poll ends the loop when the flag is down. -/
theorem leaves_iff {s s' : State (Mem × Log) Op} {c : Choice} (h : Looping s.mem s.ops)
    (hs : recorded.Step s (.exec (.decide .interrupted) c) s') : s'.ops = [] ↔ s.mem.1.sigLoopHandled = false := by
  rcases hs.ops_eq with ⟨A, op, B, c, new, ha, ho, he, ho'⟩ | ⟨l, new, ha, -, -⟩
  · injection ha with hop hc
    subst hop hc
    rw [ho] at h
    obtain ⟨rfl, rfl⟩ := h.alone
    have he := (Machine.recording_exec.mp he).1
    rw [ho', List.nil_append, List.append_nil]
    cases c <;> simp only [machine, exec, Option.some.injEq, reduceCtorEq] at he
    split at he <;> obtain ⟨-, rfl⟩ := Prod.mk.inj he <;> simp [*]
  · cases ha

/-- The interrupts the loop survives, in every state of every run of the loop (any number of runs of it, one after the other, on the same
runtime) and of any number of signals and calls around it.
1. A poll begins with nothing dispatched, so what is recorded as dispatched is what the poll in progress has dispatched.
2. The flag is up when the polls before have left signals over or the poll in progress has dispatched one.
3. An interrupted poll ends the loop if and only if it has dispatched nothing, exactly when nothing was left over from the polls before or it
   has dispatched something itself. -/
theorem interrupted_leaves_iff (s : State (Mem × Log) Op) (h : recorded.Reach (fun _ _ _ => True) initial s) :
    (.poll ∈ s.ops → s.mem.2.dispatched = []) ∧
    (s.mem.1.sigLoopHandled = true ↔ Leftover s.mem.2.polls ∨ s.mem.2.dispatched ≠ []) ∧
    ∀ c s', recorded.Step s (.exec (.decide .interrupted) c) s' →
      ((s'.ops = [] ↔ s.mem.2.dispatched = []) ↔ (¬Leftover s.mem.2.polls ∨ s.mem.2.dispatched ≠ [])) := by
  have hL : Looping s.mem s.ops := Looping.reach h
  refine ⟨fun hmem => ?_, hL.flag, fun c s' hs => ?_⟩
  · obtain ⟨A, B, hops⟩ := List.append_of_mem hmem
    rw [hops] at hL
    obtain ⟨rfl, rfl⟩ := hL.alone
    exact hL.begins (fun op hop => List.mem_singleton.mp hop ▸ rfl)
  · have hflag := hL.flag
    rw [leaves_iff hL hs, ← Bool.not_eq_true, hflag]
    by_cases hd : s.mem.2.dispatched = []
    · simp [hd]
    · simp [hd]

/-- The labels of a poll that finds the byte of a signal and dispatches it, once it is made. -/
def dispatchOne : List (Label Choice Call) :=
  [.act 0 .go, .act 0 (.bytes 1), .act 0 .failed] ++ List.replicate 6 (.act 0 .go)

/-- A registered signal interrupts the poll, which dispatches it: the loop goes on. -/
theorem interrupted_leaves_iff_handled :
    ∃ s s', recorded.Reach (fun _ _ _ => True) initial s ∧ recorded.Step s (.exec (.decide .interrupted) .go) s' ∧
      s.mem.2.dispatched = [10] ∧ s'.ops ≠ [] := by
  obtain ⟨s, hs, hp⟩ := Machine.exists_reach_of_run recorded (fun _ _ _ => True) (fun _ _ _ => true) (fun _ _ _ _ => trivial) initial
    (List.flatten [[.call .run, .call (.setListening true), .call (.sigAdd 10), .call (.signal 10), .act 0 .go, .act 0 .interrupted,
      .act 0 (.events [.signals])], dispatchOne])
    (fun s => decide (s.pool[0]? = some [Op.decide .interrupted]) && decide (s.mem.2.dispatched = [10]) &&
      (recorded.stepAt (fun _ _ _ => true) s (.act 0 .go)).isSome) (by decide)
  simp only [Bool.and_eq_true, decide_eq_true_eq, Option.isSome_iff_exists] at hp
  obtain ⟨⟨hi, hd⟩, s', hs'⟩ := hp
  have hstep := Machine.step_of_stepAt_act hi hs'
  have hiff := ((interrupted_leaves_iff s hs).2.2 .go s' hstep).mpr (Or.inr (by simp [hd]))
  exact ⟨s, s', hs, hstep, hd, fun hnil => by simp [hd] at hiff; exact hiff hnil⟩

/-- A poll that is not interrupted dispatches a signal. The next one is interrupted by a signal nobody handles, and dispatches nothing: the loop
goes on. -/
theorem loop_survives_unhandled_interrupt :
    ∃ s s', recorded.Reach (fun _ _ _ => True) initial s ∧ recorded.Step s (.exec (.decide .interrupted) .go) s' ∧
      s.mem.2.dispatched = [] ∧ s.mem.2.polls = [⟨.ok, [10]⟩] ∧ s'.ops = [.check] := by
  obtain ⟨s, hs, hp⟩ := Machine.exists_reach_of_run recorded (fun _ _ _ => True) (fun _ _ _ => true) (fun _ _ _ _ => trivial) initial
    (List.flatten [[.call .run, .call (.setListening true), .call (.sigAdd 10), .call (.signal 10), .act 0 .go, .act 0 (.events [.signals])],
      dispatchOne, [.act 0 .go, .act 0 .go, .act 0 .interrupted, .act 0 (.events []), .act 0 .go]])
    (fun s => decide (s.pool[0]? = some [Op.decide .interrupted]) && decide (s.mem.2.dispatched = []) &&
      decide (s.mem.2.polls = [⟨.ok, [10]⟩]) && (recorded.stepAt (fun _ _ _ => true) s (.act 0 .go)).any (fun s' : State (Mem × Log) Op => decide (s'.ops = [Op.check])))
    (by decide)
  simp only [Bool.and_eq_true, decide_eq_true_eq, Option.any_eq_true] at hp
  obtain ⟨⟨⟨hi, hd⟩, hpolls⟩, s', hs', hops⟩ := hp
  exact ⟨s, s', hs, Machine.step_of_stepAt_act hi hs', hd, hpolls, hops⟩

end Tonio.Signals
