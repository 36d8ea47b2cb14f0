import Tonio.Lemmas.Cancellation

/-!
# Cancellation

An abort flips the flag of its checkpoint, and throws into what it finds behind the pointer. A checkpoint waiter looks at the flag when it
is registered; a waiter of events does not. So a coroutine that is running, or queued, when the abort loads the pointer, and then waits
for an event, is left alone: it stays parked, and an event lets it go on as if nothing had happened.
-/

namespace Tonio.Runtime

open Interleaving

/-! ## What can go wrong -/

/-- An abort loads the pointer of a checkpoint that is not, or no longer, the one of the coroutine that yielded it. -/
def LoadsDetached (m : Mem) : Act Op Choice Call → Prop
  | .exec (.abortLoad _ w) _ => m.detached w = true
  | _ => False

/-- `unnotify` counts a waker up beyond what a `usize` holds. -/
def CountsOver (m : Mem) : Act Op Choice Call → Prop
  | .exec (.unnotify _ (x :: _)) _ => 2 ^ 64 ≤ m.counter x.target.cell + 1
  | _ => False

/-- A step that loses no cancellation: no waiter of events is registered behind an aborted checkpoint after the abort has loaded the
pointer; no wake resolves a waiter behind an aborted checkpoint before the throw does; no checkpoint is nested in an aborted one, and no
abort is made of a checkpoint that is nested in another one or has another one nested in it; an abort is of the flavour of its
coroutine. -/
structure KeepsAborts (ws : Nat → Waiter) (m : Mem) (ops : List Op) (a : Act Op Choice Call) : Prop where
  parks : ∀ fl, ¬ParksAborted fl m ops a
  wakes : ¬WakesAborted m a
  nests : ¬NestsAborted ws m a
  loads : ¬LoadsDetached m a
  other : ∀ fl, ¬AbortsOther fl m a
  counts : ¬CountsOver m a

/-- A coroutine is parked behind a checkpoint: on a waiter of events or, a task, on the checkpoint waiter itself. -/
structure ParkedBehind (m : Mem) (S : Susp) (w : Nat) : Prop where
  live : S ∈ m.live
  waits : S.waits = true
  checkpoint : S.checkpoint = some w
  events : S.flavour = .gen → m.awaits S.cell ≠ []

section

variable {ws : Nat → Waiter} {s : State Mem Op}

theorem KeepsAborts.not_overflows {m : Mem} {ops : List Op} {a : Act Op Choice Call} (h : KeepsAborts ws m ops a) (k : Nat) :
    ¬Overflows k m a := by
  intro hover
  refine h.counts ?_
  unfold Overflows at hover
  split at hover
  · obtain ⟨rfl, hle⟩ := hover
    exact hle
  · exact hover.elim

theorem KeepsAborts.not_loadsAdopted {m : Mem} {ops : List Op} {a : Act Op Choice Call} (h : KeepsAborts ws m ops a) :
    ¬LoadsAdopted m a := by
  intro hload
  refine h.loads ?_
  unfold LoadsAdopted at hload
  split at hload
  · exact hload
  · exact hload.elim

theorem tallied_of_aborts (h : (machine ws).Reach (KeepsAborts ws) initial s) : Tallied s.mem :=
  fun S hS hs ht => ((counted_of_reach False nofun (fun _ _ _ _ hk => hk.not_overflows S.cell) h S hS rfl hs).tally ht).fired

theorem ParkedBehind.parked {S : Susp} {w : Nat} (h : (machine ws).Reach (KeepsAborts ws) initial s) (hP : ParkedBehind s.mem S w) :
    s.mem.Parked S w := by
  refine ⟨hP.live, hP.waits, hP.checkpoint, fun hfl => ⟨hP.events hfl, ?_⟩⟩
  exact ((owned_of_reach h).nested w ⟨S, (known_of_reach h).live S hP.live, hfl, hP.checkpoint⟩).2

/-- A coroutine that is parked behind an aborted checkpoint is about to be thrown into. -/
theorem caught_of_parked {S : Susp} {w : Nat} (h : (machine ws).Reach (KeepsAborts ws) initial s) (hP : ParkedBehind s.mem S w)
    (hw : s.mem.aborted w = true) : Caught s.mem s.ops S w := by
  have hpoint : Pointed S.flavour s.mem s.ops :=
    pointed_of_reach S.flavour tallied_of_aborts (fun _ _ _ _ hk => hk.not_loadsAdopted) (fun _ _ _ hk => hk.parks S.flavour)
      (fun _ _ _ hk => hk.other S.flavour) h
  exact (hpoint S w rfl (hP.parked h)).2 hw

/-- A coroutine that is parked behind an aborted checkpoint is resolved by the throw of a `CancelledError`. -/
theorem leaves_by_throw {s' : State Mem Op} {a : Act Op Choice Call} {S : Susp} {w : Nat}
    (h : (machine ws).Reach (KeepsAborts ws) initial s) (hP : ParkedBehind s.mem S w) (hw : s.mem.aborted w = true)
    (hs : (machine ws).Step s a s') (hok : KeepsAborts ws s.mem s.ops a) :
    S ∈ s'.mem.live ∨ .toHandle S (.throw .cancelled) ∈ s'.ops := by
  have hk := known_of_reach h
  rcases hs.ops_eq with ⟨A, op, B, c, new, rfl, ho, he, ho'⟩ | ⟨l, new, rfl, hc, -⟩
  · rw [ho] at hk
    rcases (exec_move he).leaves hk hP.live hP.waits with hlive | ⟨v, i, hwk, hcount, hcons⟩ | ⟨b, e, rfl, rfl⟩
    · exact Or.inl hlive
    · refine absurd (WakesAborted.of_wakes hwk ⟨hP.waits, ?_, hP.events, hcount, hcons⟩) hok.wakes
      rw [Mem.abortedOf, hP.checkpoint]
      exact hw
    · obtain rfl := cancels_of_reach h b S e (by simp [ho]) (Or.inr hP.waits)
      exact Or.inr (by simp [ho'])
  · left
    obtain ⟨hs, ts, n, heq⟩ := (call_started hc).exists_eq
    rw [heq]
    exact hP.live

end

/-- No cancellation is lost, of generators or of tasks, in every state of every run whose steps lose none, once the flag of a checkpoint is
set: a coroutine that is parked behind the checkpoint is about to be thrown into, by the abort or by the check of its checkpoint waiter,
and the next step that resolves its suspension schedules the throw of a `CancelledError` into it; and from a suspension that it enters
behind the checkpoint from then on, it is not resumed with a value. -/
theorem cancellation_not_lost (ws : Nat → Waiter) (s : State Mem Op) (h : (machine ws).Reach (KeepsAborts ws) initial s) (w : Nat)
    (hw : s.mem.aborted w = true) :
    (∀ S, ParkedBehind s.mem S w → Caught s.mem s.ops S w ∧ ∀ a s', (machine ws).Step s a s' → KeepsAborts ws s.mem s.ops a →
      S ∈ s'.mem.live ∨ .toHandle S (.throw .cancelled) ∈ s'.ops) ∧
    ∀ s', (machine ws).Reach (KeepsAborts ws) s s' → ∀ S, s'.mem.made S.cell = some S → s.mem.nextCell ≤ S.cell → S.waits = true →
      S.behind = some (S.flavour, w) → ∀ v, .toHandle S (.send v) ∉ s'.ops := by
  refine ⟨fun S hP => ⟨caught_of_parked h hP hw, fun a s' hs hok => leaves_by_throw h hP hw hs hok⟩, ?_⟩
  intro s' h' S hS hn hwaits hb v hin
  have hD : Doomed S.flavour w s.mem.nextCell s'.mem s'.ops :=
    doomed_of_reach (fun _ _ _ hk => hk.wakes) (fun _ _ _ hk => hk.nests) h hw h'
  exact hD.sends S hS hn hwaits hb _ hin rfl

/-! ## An abort that comes in time, and one that does not -/

instance (m : Mem) (S : Susp) : Decidable (m.Overtakes S) := by
  unfold Mem.Overtakes
  infer_instance

instance (m : Mem) (a : Act Op Choice Call) : Decidable (WakesAborted m a) := by
  unfold WakesAborted
  induction a using Act.casesOn with
  | exec op c => induction op using Op.casesOn <;> infer_instance
  | call l => infer_instance

instance (ws : Nat → Waiter) (m : Mem) (a : Act Op Choice Call) : Decidable (NestsAborted ws m a) := by
  unfold NestsAborted
  induction a using Act.casesOn with
  | exec op c => induction op using Op.casesOn <;> infer_instance
  | call l => infer_instance

instance (m : Mem) (a : Act Op Choice Call) : Decidable (LoadsDetached m a) := by
  unfold LoadsDetached
  induction a using Act.casesOn with
  | exec op c => induction op using Op.casesOn <;> infer_instance
  | call l => infer_instance

instance (m : Mem) (a : Act Op Choice Call) : Decidable (CountsOver m a) := by
  unfold CountsOver
  induction a using Act.casesOn with
  | exec op c =>
    induction op using Op.casesOn with
    | unnotify e q => induction q using List.casesOn <;> infer_instance
    | _ => infer_instance
  | call l => infer_instance

/-- Whether a step loses no cancellation. -/
def keepsAborts (ws : Nat → Waiter) (m : Mem) (ops : List Op) (a : Act Op Choice Call) : Bool :=
  decide (¬ParksAborted .gen m ops a) && decide (¬ParksAborted .async m ops a) && decide (¬WakesAborted m a) &&
    decide (¬NestsAborted ws m a) && decide (¬LoadsDetached m a) && decide (¬AbortsOther .gen m a) && decide (¬AbortsOther .async m a) &&
    decide (¬CountsOver m a)

theorem KeepsAborts.of_eq_true {ws : Nat → Waiter} {m : Mem} {ops : List Op} {a : Act Op Choice Call}
    (h : keepsAborts ws m ops a = true) : KeepsAborts ws m ops a := by
  simp only [keepsAborts, Bool.and_eq_true, decide_eq_true_eq] at h
  obtain ⟨⟨⟨⟨⟨⟨⟨hg, ha⟩, hw⟩, hn⟩, hl⟩, hog⟩, hoa⟩, hc⟩ := h
  refine ⟨fun fl => ?_, hw, hn, hl, fun fl => ?_, hc⟩
  · cases fl with
    | gen => exact hg
    | async => exact ha
  · cases fl with
    | gen => exact hog
    | async => exact hoa

/-- The first waiter is a checkpoint; another one waits for the first event. -/
def checkpointThenOne : Nat → Waiter
  | 0 => .checkpoint
  | _ => .ofEvent 0

/-- A generator calls a child that yields a checkpoint; then a worker takes the child's handle. -/
def startChild : List (Label Choice Call) :=
  [.call (.spawn .gen none), .act 0 .go, .call (.work 0), .act 1 (.out .yieldGen), .act 1 .go, .call (.work 0),
    .act 2 (.out (.yieldWaiter 0)), .act 2 .go, .act 2 .go, .act 2 .go, .act 2 .go, .act 2 .go, .call (.work 0)]

/-- The suspension of the child when it waits for the event. -/
def childOnEvent : Susp :=
  ⟨⟨.gen, 3, 1, none, false, false, some 0, 0, true⟩, [⟨.gen, 1, 0, none, false, true, some 0, 0, false⟩]⟩

/-- A task yields a checkpoint; then a worker takes its handle. -/
def startTask : List (Label Choice Call) :=
  [.call (.spawn .async none), .act 0 .go, .call (.work 0), .act 1 (.out (.yieldWaiter 0))] ++ List.replicate 7 (.act 1 .go) ++
    [.call (.work 0)]

/-- The suspension of the task when it waits for the event. -/
def taskOnEvent : Susp := ⟨⟨.async, 1, 0, none, false, false, some 0, 0, true⟩, []⟩

/-- The child is parked on the event when the abort of its checkpoint flips the flag. -/
theorem cancellation_not_lost_child :
    ∃ s : State Mem Op, (machine checkpointThenOne).Reach (KeepsAborts checkpointThenOne) initial s ∧ s.mem.aborted 0 = true ∧
      ParkedBehind s.mem childOnEvent 0 ∧ Caught s.mem s.ops childOnEvent 0 ∧
      ∀ s', (machine checkpointThenOne).Reach (KeepsAborts checkpointThenOne) s s' → ∀ S, s'.mem.made S.cell = some S →
        s.mem.nextCell ≤ S.cell → S.waits = true → S.behind = some (S.flavour, 0) → ∀ v, .toHandle S (.send v) ∉ s'.ops := by
  obtain ⟨s, hs, hp⟩ := Machine.exists_reach_of_run (machine checkpointThenOne) (KeepsAborts checkpointThenOne)
    (keepsAborts checkpointThenOne) (fun _ _ _ h => .of_eq_true h) initial
    (List.flatten [startChild, [.act 3 (.out (.yieldWaiter 1))], List.replicate 6 (.act 3 .go), [.call (.abort .gen 0), .act 4 .go]])
    (fun s => decide (childOnEvent ∈ s.mem.live) && decide (s.mem.awaits childOnEvent.cell ≠ []) && s.mem.aborted 0) (by decide)
  simp only [Bool.and_eq_true, decide_eq_true_eq] at hp
  obtain ⟨⟨hl, ha⟩, hab⟩ := hp
  have hP : ParkedBehind s.mem childOnEvent 0 := ⟨hl, rfl, rfl, fun _ => ha⟩
  obtain ⟨hparked, hafter⟩ := cancellation_not_lost checkpointThenOne s hs 0 hab
  exact ⟨s, hs, hab, hP, (hparked childOnEvent hP).1, hafter⟩

/-- A coroutine, a child or a task, has been resumed from its checkpoint when this is aborted: the abort finds nothing behind the pointer, or
what the coroutine has left already. Then the coroutine waits for an event. It is parked, its checkpoint is aborted, and no throw is on
its way. -/
theorem cancellation_lost :
    (∃ s : State Mem Op, (machine checkpointThenOne).Reach (fun _ _ _ => True) initial s ∧ s.mem.aborted 0 = true ∧
      ParkedBehind s.mem childOnEvent 0 ∧ s.mem.consumed childOnEvent.cell = false ∧ s.ops = [] ∧ s.mem.handles = []) ∧
    ∃ s : State Mem Op, (machine checkpointThenOne).Reach (fun _ _ _ => True) initial s ∧ s.mem.aborted 0 = true ∧
      ParkedBehind s.mem taskOnEvent 0 ∧ s.mem.consumed taskOnEvent.cell = false ∧ s.ops = [] ∧ s.mem.handles = [] := by
  constructor
  · obtain ⟨s, hs, hp⟩ := Machine.exists_reach_of_run (machine checkpointThenOne) (fun _ _ _ => True) (fun _ _ _ => true)
      (fun _ _ _ _ => trivial) initial
      (List.flatten [startChild, [.call (.abort .gen 0), .act 4 .go, .act 4 .go, .act 3 (.out (.yieldWaiter 1))],
        List.replicate 6 (.act 3 .go)])
      (fun s => decide (childOnEvent ∈ s.mem.live) && decide (s.mem.awaits childOnEvent.cell ≠ []) && s.mem.aborted 0 &&
        decide (s.mem.consumed childOnEvent.cell = false) && decide (s.ops = []) && decide (s.mem.handles = [])) (by decide)
    simp only [Bool.and_eq_true, decide_eq_true_eq] at hp
    obtain ⟨⟨⟨⟨⟨hl, ha⟩, hab⟩, hc⟩, ho⟩, hh⟩ := hp
    exact ⟨s, hs, hab, ⟨hl, rfl, rfl, fun _ => ha⟩, hc, ho, hh⟩
  · obtain ⟨s, hs, hp⟩ := Machine.exists_reach_of_run (machine checkpointThenOne) (fun _ _ _ => True) (fun _ _ _ => true)
      (fun _ _ _ _ => trivial) initial
      (List.flatten [startTask, .call (.abort .async 0) :: List.replicate 3 (.act 3 .go), [.act 2 (.out (.yieldWaiter 1))],
        List.replicate 6 (.act 2 .go)])
      (fun s => decide (taskOnEvent ∈ s.mem.live) && s.mem.aborted 0 &&
        decide (s.mem.consumed taskOnEvent.cell = false) && decide (s.ops = []) && decide (s.mem.handles = [])) (by decide)
    simp only [Bool.and_eq_true, decide_eq_true_eq] at hp
    obtain ⟨⟨⟨⟨hl, hab⟩, hc⟩, ho⟩, hh⟩ := hp
    exact ⟨s, hs, hab, ⟨hl, rfl, rfl, nofun⟩, hc, ho, hh⟩

end Tonio.Runtime
