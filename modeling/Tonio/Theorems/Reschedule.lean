import Tonio.Interleaving.Record
import Tonio.Theorems.Continuity

/-!
# What a bare `yield` evaluates to

A generator that does a bare `yield` is rescheduled: after a value with the handle that resumed it, which still has that value, and after an
exception with a new one, which has `None`. So the `yield` evaluates to what the generator was sent last: `None` in its first segment and
after an exception, and otherwise the result of the child or the list of the waiter before. The record beside the memory says of each
generator that has come to a bare `yield` what it was resumed with before.
-/

namespace Tonio.Runtime

open Interleaving

/-- A generator is resumed: it is noted with what, if it does a bare `yield` then. -/
def note (_ : Mem) : Act Op Choice Call → (Nat → Option Input) → Nat → Option Input
  | .exec (.run (.gen _ coro _ input)) (.out o), g => Function.update g coro (if o = .yieldNone then some input else none)
  | _, g => g

/-- The runtime, with the record of the generators at a bare `yield`. -/
def yielding (ws : Nat → Waiter) : Machine (Mem × (Nat → Option Input)) Op Choice Call := (machine ws).recording note

/-- Nothing has happened, and no generator is at a bare `yield`. -/
def yieldingStart : State (Mem × (Nat → Option Input)) Op := ⟨(Mem.empty, fun _ => none), []⟩

/-- A handle is about to be queued, is queued, or is about to be run. -/
inductive Scheduled (m : Mem) (ops : List Op) (y : Handle) : Prop where
  | adding (h : .addHandle y ∈ ops)
  | queued (h : y ∈ m.handles)
  | running (h : .run y ∈ ops)

/-- A bare `yield` sends a generator again what it was sent before, unless that was `None`. -/
def Resends : Act Op Choice Call → Prop
  | .exec (.run (.gen _ _ _ (.send v))) (.out .yieldNone) => v ≠ .none
  | _ => False

/-- A step that loses or doubles no continuation, and sends no value twice. -/
structure KeepsNone (m : Mem × (Nat → Option Input)) (ops : List Op) (a : Act Op Choice Call) : Prop where
  tasks : KeepsTasks m.1 ops a
  sends : ¬Resends a

section

variable {ws : Nat → Waiter} {m m' : Mem} {A B new ops : List Op} {op : Op} {c : Choice} {y : Handle} {g : Nat → Option Input}

theorem Input.again_eq_none {i : Input} : i.again = .send .none ↔ i = .send .none ∨ ∃ e, i = .throw e := by
  cases i <;> simp [Input.again]

/-! ## The handle that reschedules a generator -/

/-- What is queued stays there. -/
theorem Move.keeps_handles (hm : Move ws m op c m' new) : ∀ y ∈ m.handles, y ∈ m'.handles := by
  cases hm with
  | addHandle z => exact fun y hy => List.mem_append_left _ hy
  | _ => exact fun y hy => hy

/-- A handle is scheduled until it is run. -/
theorem Scheduled.exec (h : Scheduled m (A ++ op :: B) y) (hne : op ≠ .run y) (he : exec ws m op c = some (m', new)) :
    Scheduled m' (A ++ (new ++ B)) y := by
  cases h with
  | adding hop =>
    by_cases heq : op = .addHandle y
    · subst heq
      cases exec_move he with
      | lock e hl hlock => cases hlock
      | decrement _ _ _ hw | decrementZero _ _ _ hw | decrementLast _ _ _ hw | consume _ _ _ hw | consumeNoop _ _ _ hw =>
        rcases hw with hw | ⟨hw, -⟩ <;> cases hw
      | addHandle => exact .queued (by simp)
    · exact .adding (Machine.mem_keep hop (Ne.symm heq))
  | queued hy => exact .queued ((exec_move he).keeps_handles y hy)
  | running hop => exact .running (Machine.mem_keep hop (Ne.symm hne))

/-- A worker that takes a handle runs it. -/
theorem Scheduled.call (h : Scheduled m ops y) {l : Call} (hc : Started m l m' new) : Scheduled m' (ops ++ new) y := by
  cases h with
  | adding hop => exact .adding (List.mem_append_left _ hop)
  | running hop => exact .running (List.mem_append_left _ hop)
  | queued hy =>
    cases hc with
    | work k z hz =>
      obtain ⟨i, hi⟩ := List.getElem?_of_mem hy
      by_cases hik : i = k
      · obtain rfl : y = z := Option.some.inj (hi.symm.trans (hik ▸ hz))
        exact .running (by simp)
      · exact .queued (List.mem_eraseIdx_iff_getElem?.mpr ⟨i, hik, hi⟩)
    | _ => exact .queued hy

/-- A generator at a bare `yield` is rescheduled with what it was sent before, or with `None` after an exception. -/
def Rests (m : Mem × (Nat → Option Input)) (ops : List Op) : Prop :=
  ∀ k i, m.2 k = some i → ∃ parents ctx, Scheduled m.1 ops (.gen parents k ctx i.again)

/-- A generator is noted if it does a bare `yield`, and stays noted as long as it is not resumed. -/
theorem note_eq_some {k : Nat} {i : Input} (he : exec ws m op c = some (m', new)) (h : note m (.exec op c) g k = some i) :
    (∃ parents ctx, op = .run (.gen parents k ctx i) ∧ c = .out .yieldNone) ∨
      g k = some i ∧ ∀ parents ctx j, op ≠ .run (.gen parents k ctx j) := by
  cases op with
  | run y =>
    cases y with
    | gen parents coro ctx input =>
      cases c with
      | go => cases he
      | out o =>
        by_cases hc : k = coro
        · subst hc
          simp only [note, Function.update_self] at h
          split at h
          · rename_i ho
            obtain rfl := Option.some.inj h
            exact Or.inl ⟨parents, ctx, rfl, by rw [ho]⟩
          · cases h
        · simp only [note, Function.update_of_ne hc] at h
          refine Or.inr ⟨h, fun parents' ctx' j heq => hc ?_⟩
          cases heq
          rfl
    | async | asyncThrow | timer | event => exact Or.inr ⟨h, fun _ _ _ heq => nomatch heq⟩
  | _ => exact Or.inr ⟨h, fun _ _ _ heq => nomatch heq⟩

theorem Rests.exec (h : Rests (m, g) (A ++ op :: B)) (he : exec ws m op c = some (m', new)) :
    Rests (m', note m (.exec op c) g) (A ++ (new ++ B)) := by
  intro k i hk
  rcases note_eq_some he hk with ⟨parents, ctx, rfl, rfl⟩ | ⟨hk, hne⟩
  · obtain ⟨rfl, rfl⟩ := Prod.mk.inj (Option.some.inj he)
    exact ⟨parents, ctx, .adding (by simp)⟩
  · obtain ⟨parents, ctx, hy⟩ := h k i hk
    exact ⟨parents, ctx, hy.exec (hne _ _ _) he⟩

end

section

variable {ws : Nat → Waiter} {ok : Mem × (Nat → Option Input) → List Op → Act Op Choice Call → Prop}
  {s : State (Mem × (Nat → Option Input)) Op}

theorem rests_of_reach (h : (yielding ws).Reach ok yieldingStart s) : Rests s.mem s.ops := by
  refine h.invariant (I := Rests) (fun k i hk => nomatch hk) ?_ ?_
  · rintro ⟨m, g⟩ A op B c ⟨m', g'⟩ new ih - he
    obtain ⟨he, rfl⟩ := Machine.recording_exec.mp he
    exact ih.exec he
  · rintro ⟨m, g⟩ ops l ⟨m', g'⟩ new ih - hc
    obtain ⟨hc, rfl⟩ := Machine.recording_call.mp hc
    intro k i hk
    obtain ⟨parents, ctx, hy⟩ := ih k i hk
    exact ⟨parents, ctx, hy.call (call_started hc)⟩

end

/-- A generator with one token that is scheduled is resumed with this handle. -/
theorem Scheduled.eq_of_run {m : Mem} {ops : List Op} {parents parents' : List Frame} {k : Nat} {ctx ctx' : Option Nat} {i j : Input}
    (h : Scheduled m ops (.gen parents k ctx i)) (hone : tokensOf m ops k ≤ 1) (hrun : .run (.gen parents' k ctx' j) ∈ ops) : j = i := by
  have hops : total (fun op => total (Tok.isOf k) op.toks) ops + m.weigh (Tok.isOf k) ≤ 1 := hone
  have hsingle : total (fun op => total (Tok.isOf k) op.toks) ops ≤ 1 := by omega
  have hweight : ∀ parents ctx i, total (Tok.isOf k) (Op.run (.gen parents k ctx i)).toks = 1 := by
    intro parents ctx i
    simp [Op.toks, Handle.toks, Tok.isOf, Tok.coro]
  cases h with
  | running hop =>
    have heq := eq_of_weight_le hsingle hrun hop (hweight _ _ _) (hweight _ _ _)
    cases heq
    rfl
  | adding hop =>
    cases eq_of_weight_le hsingle hrun hop (hweight _ _ _) (hweight parents ctx i)
  | queued hy =>
    exfalso
    have h1 := le_total_of_mem (f := fun op => total (Tok.isOf k) op.toks) hrun
    have h2 := le_total_of_mem (f := fun y : Handle => total (Tok.isOf k) y.toks) hy
    have h3 : total (Tok.isOf k) (Handle.gen parents k ctx i).toks = 1 := hweight parents ctx i
    rw [hweight] at h1
    rw [h3] at h2
    simp only [Mem.weigh] at hops
    omega

section

variable {ws : Nat → Waiter} {s : State (Mem × (Nat → Option Input)) Op}

/-- A coroutine has one token, in every run whose steps lose or double no continuation. -/
theorem tokensOf_le_of_keeps (h : (yielding ws).Reach KeepsNone yieldingStart s) (k : Nat) : tokensOf s.mem.1 s.ops k ≤ 1 := by
  have hkeeps : (machine ws).Reach KeepsTasks initial s.forget := h.forget (fun _ _ _ hok => hok.tasks)
  have htokens := (continued_of_reach sound_of_keeps (fun _ _ _ hok => hok.yields) hkeeps).tokens k
  exact Nat.le_trans (Nat.le_of_eq htokens) (Bool.toNat_le _)

/-- No generator comes to a bare `yield` with a value, in every run whose steps send none twice. -/
theorem again_of_keeps (h : (yielding ws).Reach KeepsNone yieldingStart s) : ∀ k i, s.mem.2 k = some i → i.again = .send .none := by
  refine h.invariant (I := fun m _ => ∀ k i, m.2 k = some i → i.again = .send .none) (fun k i hk => nomatch hk) ?_ ?_
  · rintro ⟨m, g⟩ A op B c ⟨m', g'⟩ new ih hok he k i hk
    obtain ⟨he, rfl⟩ := Machine.recording_exec.mp he
    rcases note_eq_some he hk with ⟨parents, ctx, rfl, rfl⟩ | ⟨hk, -⟩
    · cases i with
      | throw e => rfl
      | send v =>
        by_contra hv
        exact hok.sends (fun hnone => hv (by rw [hnone]; rfl))
    · exact ih k i hk
  · rintro ⟨m, g⟩ ops l ⟨m', g'⟩ new ih - hc
    obtain ⟨-, rfl⟩ := Machine.recording_call.mp hc
    exact ih

end

/-- What a bare `yield` evaluates to, for every program of generators and tasks and in every run.
1. A generator at a bare `yield` is rescheduled, with what it was sent before, and with `None` after an exception.
2. If it is scheduled nowhere else, then what it is resumed with is `None` exactly when it was sent `None` or thrown into before.
3. It is `None` at every bare `yield` of a run whose steps lose or double no continuation, and in which no generator comes to a bare `yield`
   after it was sent something else. -/
theorem bare_yield_none_iff (ws : Nat → Waiter) (s : State (Mem × (Nat → Option Input)) Op) (k : Nat) (i : Input)
    (hy : s.mem.2 k = some i) :
    ((yielding ws).Reach (fun _ _ _ => True) yieldingStart s →
      (∃ parents ctx, Scheduled s.mem.1 s.ops (.gen parents k ctx i.again)) ∧
      (tokensOf s.mem.1 s.ops k ≤ 1 → ∀ parents ctx j, .run (.gen parents k ctx j) ∈ s.ops →
        (j = .send .none ↔ i = .send .none ∨ ∃ e, i = .throw e))) ∧
    ((yielding ws).Reach KeepsNone yieldingStart s → ∀ parents ctx j, .run (.gen parents k ctx j) ∈ s.ops → j = .send .none) := by
  refine ⟨fun h => ⟨rests_of_reach h k i hy, fun hone parents ctx j hrun => ?_⟩, fun h parents ctx j hrun => ?_⟩
  · obtain ⟨parents', ctx', hs⟩ := rests_of_reach h k i hy
    rw [hs.eq_of_run hone hrun, Input.again_eq_none]
  · obtain ⟨parents', ctx', hs⟩ := rests_of_reach h k i hy
    rw [hs.eq_of_run (tokensOf_le_of_keeps h k) hrun, again_of_keeps h k i hy]

instance (a : Act Op Choice Call) : Decidable (Resends a) := by
  unfold Resends
  induction a using Act.casesOn with
  | exec op c =>
    induction op using Op.casesOn with
    | run h =>
      induction h using Handle.casesOn with
      | gen parents coro ctx input =>
        induction input using Input.casesOn <;> induction c using Choice.casesOn with
        | out o => induction o using Out.casesOn <;> infer_instance
        | go => infer_instance
      | _ => infer_instance
    | _ => infer_instance
  | call l => infer_instance

/-- A generator does a bare `yield` in its first segment, and then it is sent `None`. -/
theorem bare_yield_none_iff_first :
    ∃ s : State (Mem × (Nat → Option Input)) Op, (yielding checkpointFirst).Reach KeepsNone yieldingStart s ∧
      s.mem.2 0 = some (.send .none) ∧ ∃ j, .run (.gen [] 0 none j) ∈ s.ops ∧ j = .send .none := by
  obtain ⟨s, hs, hp⟩ := Machine.exists_reach_of_run (yielding checkpointFirst) KeepsNone
    (fun m ops a => keepsTasks m.1 ops a && decide (¬Resends a))
    (fun m ops a h => ⟨keepsTasks_of_check m.1 ops a (Bool.and_eq_true_iff.mp h).1, of_decide_eq_true (Bool.and_eq_true_iff.mp h).2⟩)
    yieldingStart [.call (.spawn .gen none), .act 0 .go, .call (.work 0), .act 1 (.out .yieldNone), .act 1 .go, .call (.work 0)]
    (fun s => decide (s.mem.2 0 = some (.send .none)) && decide (Op.run (.gen [] 0 none (.send .none)) ∈ s.ops)) (by decide)
  simp only [Bool.and_eq_true, decide_eq_true_eq] at hp
  exact ⟨s, hs, hp.1, _, hp.2, (bare_yield_none_iff checkpointFirst s 0 _ hp.1).2 hs [] none _ hp.2⟩

/-- A generator calls another one, which returns 5, and then does a bare `yield`: it is sent 5 again. -/
theorem bare_yield_sends_again :
    ∃ s s' : State (Mem × (Nat → Option Input)) Op,
      (yielding checkpointFirst).Reach (fun m ops a => KeepsTasks m.1 ops a) yieldingStart s ∧
      s.mem.2 0 = some (.send (.obj 5)) ∧ tokensOf s.mem.1 s.ops 0 = 1 ∧
      (yielding checkpointFirst).Step s (.exec (.run (.gen [] 0 none (.send (.obj 5)))) (.out (.ret .none))) s' ∧
      s'.mem.1.log = [(0, .send .none), (1, .send .none), (0, .send (.obj 5)), (0, .send (.obj 5))] := by
  obtain ⟨s, hs, hp⟩ := Machine.exists_reach_of_run (yielding checkpointFirst) (fun m ops a => KeepsTasks m.1 ops a)
    (fun m ops a => keepsTasks m.1 ops a) (fun m ops a h => keepsTasks_of_check m.1 ops a h) yieldingStart
    [.call (.spawn .gen none), .act 0 .go, .call (.work 0), .act 1 (.out .yieldGen), .act 1 .go, .call (.work 0),
      .act 2 (.out (.ret (.obj 5))), .act 2 .go, .act 2 .go, .act 2 .go, .call (.work 0), .act 3 (.out .yieldNone), .act 3 .go,
      .call (.work 0)]
    (fun s => decide (s.mem.2 0 = some (.send (.obj 5))) && decide (tokensOf s.mem.1 s.ops 0 = 1) &&
      decide (s.pool[4]? = some [Op.run (.gen [] 0 none (.send (.obj 5)))]) &&
      decide (s.mem.1.log = [(0, .send .none), (1, .send .none), (0, .send (.obj 5))])) (by decide)
  simp only [Bool.and_eq_true, decide_eq_true_eq] at hp
  obtain ⟨⟨⟨hrest, hone⟩, hpool⟩, hlog⟩ := hp
  refine ⟨s, _, hs, hrest, hone, .exec hpool rfl, ?_⟩
  simp [hlog, Mem.resumed, runGen]

end Tonio.Runtime
