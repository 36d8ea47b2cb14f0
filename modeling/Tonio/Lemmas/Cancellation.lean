import Tonio.Lemmas.Abort

/-!
# The throw of a cancellation

What an abort, or the check of a checkpoint waiter, throws is a `CancelledError` (`cancels_of_reach`), and a waiter that is parked is
resolved by a wake or by a throw (`Move.leaves`). A checkpoint waiter that is registered once its checkpoint was aborted is thrown into,
and nothing resumes it (`Doomed`).
-/

namespace Tonio.Runtime

open Interleaving

section

variable {ws : Nat → Waiter} {m m' : Mem} {A B new ops : List Op} {op : Op} {c : Choice} {S : Susp} {w : Nat}

/-! ## What is thrown -/

/-- A step that is about to throw into a waiter, or for an abort, throws a `CancelledError`. -/
theorem Move.cancels (hm : Move ws m op c m' new) (hk : Known m (A ++ op :: B)) {b : Bool} {e : Exc} (h : .error b S e ∈ new)
    (hb : b = true ∨ S.waits = true) : e = .cancelled := by
  have hop : op.WF m := hk.ops op (by simp)
  cases hm with
  | abortLoad fl w =>
    obtain ⟨T, -, heq⟩ := Option.map_eq_some_iff.mp (Option.mem_toList.mp h)
    simp only [Op.error.injEq] at heq
    exact heq.2.2.symm
  | checkAborted w' T =>
    split at h
    · simp only [List.mem_singleton, Op.error.injEq] at h
      exact h.2.2
    · simp at h
  | raise parents coro ctx input e' =>
    cases parents with
    | nil => simp at h
    | cons p rest =>
      simp only [List.mem_singleton, Op.error.injEq] at h
      obtain ⟨rfl, rfl, rfl⟩ := h
      rw [show Frame.waits p = false from (hop p rest rfl).2.1] at hb
      simp at hb
  | lock e hl hlock => cases hlock <;> simp at h
  | storeRes T i v last => cases last <;> simp at h
  | suspend fl coro ctx checkpoint parents events timed T hT =>
    unfold registration at h
    split at h
    · simp at h
    · cases timed <;> simp [wakers] at h
  | callChild parents coro ctx input new hnew => rcases hnew with rfl | ⟨_, _, _, -, -, -, rfl⟩ <;> simp at h
  | ret parents coro ctx input v => cases parents <;> simp at h
  | asyncOver checkpoint coro ctx v o ho => cases checkpoint <;> simp at h
  | _ => simp at h

/-- A waiter leaves the unresolved suspensions when a wake or a throw resolves it. -/
theorem Move.leaves (hm : Move ws m op c m' new) (hk : Known m (A ++ op :: B)) (hS : S ∈ m.live) (hw : S.waits = true) :
    S ∈ m'.live ∨
    (∃ v i, Wakes S v i op ∧ (S.sentinel = true → m.counter S.cell = 1) ∧ (S.sentinel = false → m.consumed S.cell = false)) ∨
    ∃ b e, op = .error b S e ∧ new = [.toHandle S (.throw e)] := by
  have hkS := hk.live S hS
  have hop : op.WF m := hk.ops op (by simp)
  -- a suspension stays where another one is taken out
  have hstay : ∀ k, S.cell ≠ k → S ∈ m.live.filter (·.cell ≠ k) := fun k hne => List.mem_filter.mpr ⟨hS, decide_eq_true hne⟩
  cases hm with
  | decrementLast T v i hwake hs h1 =>
    by_cases hc : S.cell = T.cell
    · obtain rfl := hkS.unique (hwake.wf hk).1 hc
      exact Or.inr (Or.inl ⟨v, i, hwake, fun _ => h1, fun h => by simp [hs] at h⟩)
    · exact Or.inl (hstay _ hc)
  | consume T v i hwake hs h1 =>
    by_cases hc : S.cell = T.cell
    · obtain rfl := hkS.unique (hwake.wf hk).1 hc
      exact Or.inr (Or.inl ⟨v, i, hwake, fun h => by simp [hs] at h, fun _ => h1⟩)
    · exact Or.inl (hstay _ hc)
  | errorSentinel b T e t ht hs h0 | errorConsume b T e t ht hs h0 =>
    by_cases hc : S.cell = T.cell
    · obtain rfl := hkS.unique hop.1 hc
      exact Or.inr (Or.inr ⟨b, e, rfl, rfl⟩)
    · exact Or.inl (hstay _ hc)
  | fromCheckpoint w' coro ctx p rest hr he hp =>
    obtain ⟨hkp, hpw, -⟩ := hop p rest rfl
    have hne : S.cell ≠ p.cell := by
      intro hc
      rw [hkS.unique hkp hc] at hw
      exact Bool.false_ne_true (hpw.symm.trans hw)
    exact Or.inl (List.mem_append_left _ (List.mem_append_left _ (hstay _ hne)))
  | underCheckpoint | callChild | suspend => exact Or.inl (List.mem_append_left _ hS)
  | _ => exact Or.inl hS

end

/-- What an abort throws, and what is thrown into a waiter, is a `CancelledError`. -/
theorem cancels_of_reach {ws : Nat → Waiter} {ok : Mem → List Op → Act Op Choice Call → Prop} {s : State Mem Op}
    (h : (machine ws).Reach ok initial s) :
    ∀ b S e, .error b S e ∈ s.ops → b = true ∨ S.waits = true → e = .cancelled := by
  refine h.invariant_with (J := Known) (I := fun _ ops => ∀ b S e, .error b S e ∈ ops → b = true ∨ S.waits = true → e = .cancelled)
    known_of_reach nofun ?_ ?_
  · intro m A op B c m' new hk ih _ he b S e hin hb
    rcases Machine.mem_cases op hin with hin | hin
    · exact (exec_move he).cancels hk hin hb
    · exact ih b S e hin hb
  · intro m ops l m' new _ ih _ hc b S e hin hb
    rcases List.mem_append.mp hin with hin | hin
    · exact ih b S e hin hb
    · cases call_started hc <;> simp at hin

/-! ## Timers -/

/-- The suspension whose timer a handle is. -/
def Handle.timed : Handle → Option Susp
  | .timer S => some S
  | _ => none

/-- The suspension whose timer an operation is about to set, or to fire. -/
def Op.timed : Op → Option Susp
  | .addTimer S => some S
  | .addHandle h | .run h => h.timed
  | _ => none

/-- A timer belongs to a waiter of events. -/
structure Timed (m : Mem) (ops : List Op) : Prop where
  ops : ∀ op ∈ ops, ∀ S, op.timed = some S → m.awaits S.cell ≠ []
  timers : ∀ S ∈ m.timers, m.awaits S.cell ≠ []
  handles : ∀ h ∈ m.handles, ∀ S, h.timed = some S → m.awaits S.cell ≠ []

section

variable {ws : Nat → Waiter} {m m' : Mem} {A B new ops : List Op} {op : Op} {c : Choice} {S : Susp} {w : Nat}

theorem Susp.handle_timed (S : Susp) (input : Input) : (S.handle input).timed = none := by
  cases input <;> cases hfl : S.flavour <;> simp [Susp.handle, hfl, Handle.timed]

/-- A timer is set by the registration of a waiter with a timeout, and goes on as the operation that has it. -/
theorem Move.timed (hm : Move ws m op c m' new) (hk : Known m (A ++ op :: B)) {x : Op} (hx : x ∈ new) (hS : x.timed = some S) :
    op.timed = some S ∨ m'.awaits S.cell ≠ [] := by
  have hop : op.WF m := hk.ops op (by simp)
  cases hm with
  | suspend fl coro ctx checkpoint parents events timed T hT =>
    have hx : x ∈ wakers T events timed := by
      unfold registration at hx
      split at hx
      · simp only [List.mem_singleton] at hx
        subst hx
        cases hS
      · exact hx
    rcases List.mem_append.mp hx with hx | hx
    · obtain ⟨ei, -, rfl⟩ := List.mem_map.mp hx
      cases hS
    · cases timed with
      | false => cases hx
      | true =>
        simp only [if_true, List.mem_singleton] at hx
        subst hx
        obtain rfl : T = S := by simpa [Op.timed] using hS
        refine Or.inr ?_
        have hone := hop.2.2.2.1 rfl
        simp only [Mem.suspend, Mem.new, Function.update_self]
        rintro rfl
        cases hone
  | toHandle T input | toHandleClear T input =>
    simp only [List.mem_singleton] at hx
    subst hx
    rw [Op.timed, Susp.handle_timed] at hS
    cases hS
  | enter w' P h =>
    obtain ⟨F, coro, ctx, input, rfl, -⟩ := hop.2.2.2.2.2.2
    simp only [List.mem_singleton] at hx
    subst hx
    cases hS
  | lock e hl hlock =>
    cases hlock <;> simp only [List.mem_singleton] at hx <;> subst hx <;> cases hS
  | storeRes T i v last =>
    cases last <;> simp only [if_true, Bool.false_eq_true, if_false, List.mem_singleton, List.not_mem_nil] at hx
    subst hx
    cases hS
  | checkAborted w' T =>
    simp only [List.mem_singleton] at hx
    subst hx
    split at hS <;> cases hS
  | abortLoad fl w' =>
    obtain ⟨T, -, rfl⟩ := Option.map_eq_some_iff.mp (Option.mem_toList.mp hx)
    cases hS
  | callChild parents coro ctx input new hnew =>
    rcases hnew with rfl | ⟨_, _, _, -, -, -, rfl⟩ <;> simp only [List.mem_singleton] at hx <;> subst hx <;> cases hS
  | ret parents | raise parents =>
    cases parents <;> simp only [List.mem_singleton, List.not_mem_nil] at hx
    subst hx
    cases hS
  | asyncOver checkpoint =>
    cases checkpoint <;> simp only [Option.map_some, Option.map_none, Option.toList_some, Option.toList_none, List.mem_singleton,
      List.not_mem_nil] at hx
    subst hx
    cases hS
  | wakeNow e x' | notifyPop e x' =>
    simp only [List.mem_cons, List.not_mem_nil, or_false] at hx
    rcases hx with rfl | rfl <;> cases hS
  | _ =>
    simp only [List.mem_singleton, List.not_mem_nil] at hx
    try subst hx
    try cases hS

theorem Op.timed_knows (h : op.WF m) (ht : op.timed = some S) : m.Knows S := by
  cases op with
  | addTimer T =>
    obtain rfl : T = S := by simpa [Op.timed] using ht
    exact h.1
  | addHandle y | run y =>
    cases y with
    | timer T =>
      obtain rfl : T = S := by simpa [Op.timed, Handle.timed] using ht
      exact h.1
    | _ => cases ht
  | _ => cases ht

theorem Timed.move (h : Timed m (A ++ op :: B)) (hk : Known m (A ++ op :: B)) (hm : Move ws m op c m' new) :
    Timed m' (A ++ (new ++ B)) := by
  have hopin : op ∈ A ++ op :: B := by simp
  have hkeep : ∀ S, m.Knows S → m.awaits S.cell ≠ [] → m'.awaits S.cell ≠ [] := by
    intro S hS hne
    rwa [hS.awaits_eq hk hm.extends]
  have htimer : ∀ S ∈ m.timers, m'.awaits S.cell ≠ [] := fun S hS => hkeep S (hk.timers S hS).1 (h.timers S hS)
  have hhandle : ∀ y ∈ m.handles, ∀ S, y.timed = some S → m'.awaits S.cell ≠ [] := by
    intro y hy S hS
    refine hkeep S ?_ (h.handles y hy S hS)
    have hwf := hk.handles y hy
    cases y with
    | timer T =>
      obtain rfl : T = S := by simpa [Handle.timed] using hS
      exact hwf.1
    | _ => cases hS
  have hop : ∀ S, op.timed = some S → m'.awaits S.cell ≠ [] :=
    fun S hS => hkeep S (Op.timed_knows (hk.ops op hopin) hS) (h.ops op hopin S hS)
  refine ⟨fun x hx S hS => ?_, ?_, ?_⟩
  · rcases Machine.mem_cases op hx with hx | hx
    · rcases hm.timed hk hx hS with ht | ht
      · exact hop S ht
      · exact ht
    · exact hkeep S (Op.timed_knows (hk.ops x hx) hS) (h.ops x hx S hS)
  · cases hm with
    | addTimer T =>
      intro S hS
      rcases List.mem_append.mp hS with hS | hS
      · exact htimer S hS
      · obtain rfl := List.mem_singleton.mp hS
        exact hop S rfl
    | _ => exact htimer
  · cases hm with
    | addHandle y =>
      intro z hz S hS
      rcases List.mem_append.mp hz with hz | hz
      · exact hhandle z hz S hS
      · obtain rfl := List.mem_singleton.mp hz
        exact hop S hS
    | _ => exact hhandle

end

theorem timed_of_reach {ws : Nat → Waiter} {ok : Mem → List Op → Act Op Choice Call → Prop} {s : State Mem Op}
    (h : (machine ws).Reach ok initial s) : Timed s.mem s.ops := by
  refine h.invariant_with known_of_reach ⟨fun _ h => (nomatch h), fun _ h => (nomatch h), fun _ h => (nomatch h)⟩ ?_ ?_
  · exact fun m A op B c m' new hk ih _ he => ih.move hk (exec_move he)
  · intro m ops l m' new _ ih _ hc
    cases call_started hc with
    | work k y hy =>
      refine ⟨fun x hx S hS => ?_, ih.timers, fun z hz => ih.handles z (List.mem_of_mem_eraseIdx hz)⟩
      rcases List.mem_append.mp hx with hx | hx
      · exact ih.ops x hx S hS
      · rw [List.mem_singleton.mp hx] at hS
        exact ih.handles y (List.mem_of_getElem? hy) S hS
    | fire k T hT =>
      refine ⟨fun x hx S hS => ?_, fun S hS => ih.timers S (List.mem_of_mem_eraseIdx hS), ih.handles⟩
      rcases List.mem_append.mp hx with hx | hx
      · exact ih.ops x hx S hS
      · rw [List.mem_singleton.mp hx] at hS
        obtain rfl : T = S := by simpa [Op.timed, Handle.timed] using hS
        exact ih.timers T (List.mem_of_getElem? hT)
    | spawn fl ctx y hy =>
      refine ⟨fun x hx S hS => ?_, ih.timers, ih.handles⟩
      rcases List.mem_append.mp hx with hx | hx
      · exact ih.ops x hx S hS
      · rw [List.mem_singleton.mp hx] at hS
        rcases hy with ⟨-, rfl⟩ | ⟨-, rfl⟩ <;> cases hS
    | set | clear | waiter | abort | io =>
      refine ⟨fun x hx S hS => ?_, ih.timers, ih.handles⟩
      rcases List.mem_append.mp hx with hx | hx
      · exact ih.ops x hx S hS
      · rw [List.mem_singleton.mp hx] at hS
        cases hS

/-! ## Suspensions entered after an abort -/

/-- A checkpoint waiter is registered by a coroutine that is behind an aborted checkpoint. -/
def NestsAborted (ws : Nat → Waiter) (m : Mem) : Act Op Choice Call → Prop
  | .exec (.registerPygen w _ _ parents) _ => (ws w).events = [] ∧ (headCheckpoint parents).any m.aborted = true
  | .exec (.registerPyasyncgen w _ _ checkpoint) _ => (ws w).events = [] ∧ checkpoint.any m.aborted = true
  | _ => False

/-- A wake resolves a waiter, of events or, of a task, of its checkpoint, although the checkpoint it is parked behind was aborted. -/
def Mem.Overtakes (m : Mem) (S : Susp) : Prop :=
  S.waits = true ∧ m.abortedOf S = true ∧ (S.flavour = .gen → m.awaits S.cell ≠ []) ∧ (S.sentinel = true → m.counter S.cell = 1) ∧
    (S.sentinel = false → m.consumed S.cell = false)

/-- A wake overtakes an abort. -/
def WakesAborted (m : Mem) : Act Op Choice Call → Prop
  | .exec (.resume S _ _) _ => S.flavour = .gen ∧ m.Overtakes S
  | .exec (.resumeBody S _ _) _ => m.Overtakes S
  | _ => False

/-- The operation is about to schedule a coroutine with a value. -/
def Op.Sends (S : Susp) : Op → Prop
  | .storeRes T _ _ true | .fetchRes T | .toHandle T (.send _) => T = S
  | _ => False

/-- Nothing sends a value to a suspension that is entered behind an aborted checkpoint, and what attends to it, if it is that of a
checkpoint waiter, throws into it. -/
structure Doomed (fl : Flavour) (w n : Nat) (m : Mem) (ops : List Op) : Prop where
  aborted : m.aborted w = true
  sends : ∀ S, m.Knows S → n ≤ S.cell → S.waits = true → S.behind = some (fl, w) → ∀ op ∈ ops, ¬op.Sends S
  attends : ∀ S, m.Knows S → n ≤ S.cell → S.waits = true → S.behind = some (fl, w) → m.awaits S.cell = [] →
    ∀ op ∈ ops, op.Concerns S → op = .checkAborted w S ∨ ∃ b e, op = .error b S e

section

variable {ws : Nat → Waiter} {m m' : Mem} {A B new ops : List Op} {op : Op} {c : Choice} {S : Susp} {fl : Flavour} {w n : Nat}

theorem WakesAborted.of_wakes {v : Val} {i : Nat} (hw : Wakes S v i op) (h : m.Overtakes S) : WakesAborted m (.exec op c) := by
  rcases hw with rfl | ⟨rfl, hfl⟩
  · exact h
  · exact ⟨hfl, h⟩

theorem not_sends_registration {T : Susp} {events : List Nat} {timed : Bool} {x : Op} (hx : x ∈ registration T events timed) :
    ¬x.Sends S := by
  unfold registration at hx
  split at hx
  · rw [List.mem_singleton.mp hx]
    exact id
  · rcases List.mem_append.mp hx with hx | hx
    · obtain ⟨ei, -, rfl⟩ := List.mem_map.mp hx
      exact id
    · cases timed with
      | false => cases hx
      | true =>
        rw [List.mem_singleton.mp hx]
        exact id

/-- A value is sent by a wake that resolves the suspension. -/
theorem Move.sends (hm : Move ws m op c m' new) {x : Op} (hx : x ∈ new) (hS : x.Sends S) :
    op.Sends S ∨
    ∃ v i, Wakes S v i op ∧ (S.sentinel = true → m.counter S.cell = 1) ∧ (S.sentinel = false → m.consumed S.cell = false) := by
  cases hm with
  | decrementLast T v i hw hs h1 =>
    rw [List.mem_singleton.mp hx] at hS
    obtain rfl : T = S := hS
    exact Or.inr ⟨v, i, hw, fun _ => h1, fun h => by simp [hs] at h⟩
  | consume T v i hw hs h1 =>
    rw [List.mem_singleton.mp hx] at hS
    obtain rfl : T = S := hS
    exact Or.inr ⟨v, i, hw, fun h => by simp [hs] at h, fun _ => h1⟩
  | storeRes T i v last =>
    cases last with
    | false => cases hx
    | true =>
      rw [List.mem_singleton.mp hx] at hS
      exact Or.inl hS
  | fetchRes T =>
    rw [List.mem_singleton.mp hx] at hS
    exact Or.inl hS
  | suspend fl coro ctx checkpoint parents events timed T hT => exact absurd hS (not_sends_registration hx)
  | lock e hl hlock => cases hlock <;> rw [List.mem_singleton.mp hx] at hS <;> exact hS.elim
  | checkAborted w' T =>
    rw [List.mem_singleton.mp hx] at hS
    split at hS <;> exact hS.elim
  | abortLoad fl w' =>
    obtain ⟨T, -, rfl⟩ := Option.map_eq_some_iff.mp (Option.mem_toList.mp hx)
    exact hS.elim
  | callChild parents coro ctx input new hnew =>
    rcases hnew with rfl | ⟨_, _, _, -, -, -, rfl⟩ <;> rw [List.mem_singleton.mp hx] at hS <;> exact hS.elim
  | ret parents | raise parents =>
    cases parents with
    | nil => cases hx
    | cons p rest =>
      rw [List.mem_singleton.mp hx] at hS
      exact hS.elim
  | asyncOver checkpoint =>
    obtain ⟨w', -, rfl⟩ := Option.map_eq_some_iff.mp (Option.mem_toList.mp hx)
    exact hS.elim
  | wakeNow e x' | notifyPop e x' =>
    simp only [List.mem_cons, List.not_mem_nil, or_false] at hx
    rcases hx with rfl | rfl <;> exact hS.elim
  | decrement T v i hw =>
    rw [List.mem_singleton.mp hx] at hS
    exact hS.elim
  | _ =>
    simp only [List.mem_singleton, List.not_mem_nil] at hx
    try subst hx
    try exact hS.elim

/-- What attends to a checkpoint waiter follows from what attended to it, or is the throw of an abort. -/
theorem Move.concerns (hm : Move ws m op c m' new) (hk : Known m (A ++ op :: B)) (ht : Timed m (A ++ op :: B)) (hS : m.Knows S)
    (hw : S.waits = true) (ha : m.awaits S.cell = []) {x : Op} (hx : x ∈ new) (hd : x.Concerns S) :
    op.Concerns S ∨ ∃ b e, x = .error b S e := by
  have hopin : op ∈ A ++ op :: B := by simp
  have hop : op.WF m := hk.ops op hopin
  -- a waker stands for an event, and there is none
  have hnot : ∀ e (y : Waker), y.WF m e → y.target ≠ S := by
    rintro e y ⟨-, -, hy⟩ rfl
    rw [ha] at hy
    cases hy
  cases hm with
  | suspend fl coro ctx checkpoint parents events timed T hT =>
    have hne : T ≠ S := by
      rintro rfl
      have := hk.lt hS
      rw [hT] at this
      exact Nat.lt_irrefl _ this
    unfold registration at hx
    split at hx
    · rw [List.mem_singleton.mp hx] at hd
      exact absurd hd hne
    · rcases List.mem_append.mp hx with hx | hx
      · obtain ⟨ei, -, rfl⟩ := List.mem_map.mp hx
        exact absurd hd hne
      · cases timed with
        | false => cases hx
        | true =>
          rw [List.mem_singleton.mp hx] at hd
          exact hd.elim
  | fromCheckpoint w' coro ctx p rest hr he hp =>
    rw [List.mem_singleton.mp hx] at hd
    have hlt := hk.lt hS
    have hc : m.nextCell + 1 = S.cell := congrArg (·.cell) hd
    omega
  | underCheckpoint w' coro ctx p rest c' hr he hp =>
    rw [List.mem_singleton.mp hx] at hd
    have hlt := hk.lt hS
    have hc : m.nextCell = S.cell := congrArg (·.cell) hd
    omega
  | notifyPop e y q hq =>
    simp only [List.mem_cons, List.not_mem_nil, or_false] at hx
    rcases hx with rfl | rfl
    · exact absurd hd (hnot e y (hk.watchers e y (by rw [hq]; exact List.mem_cons_self ..)))
    · exact hd.elim
  | wakeNow e y hf =>
    simp only [List.mem_cons, List.not_mem_nil, or_false] at hx
    rcases hx with rfl | rfl
    · exact absurd hd (hnot e y hop)
    · exact hd.elim
  | checked e y hf =>
    rw [List.mem_singleton.mp hx] at hd
    exact absurd hd (hnot e y hop)
  | lock e hl hlock =>
    cases hlock with
    | addWaker y =>
      rw [List.mem_singleton.mp hx] at hd
      exact absurd hd (hnot e y hop)
    | notify | unnotify | sweep =>
      rw [List.mem_singleton.mp hx] at hd
      exact hd.elim
  | resumePass T v i hfl hab | adoptLoad w' c' T | adoptSwap w' p T =>
    rw [List.mem_singleton.mp hx] at hd
    exact Or.inl hd
  | checkAborted w' T =>
    rw [List.mem_singleton.mp hx] at hd
    split at hd <;> exact Or.inl hd
  | abortLoad fl w' =>
    obtain ⟨T, -, rfl⟩ := Option.map_eq_some_iff.mp (Option.mem_toList.mp hx)
    obtain rfl : T = S := hd
    exact Or.inr ⟨true, .cancelled, rfl⟩
  | timer T =>
    rw [List.mem_singleton.mp hx] at hd
    obtain rfl : T = S := hd
    exact absurd ha (ht.ops _ hopin T rfl)
  | ret parents | raise parents =>
    cases parents with
    | nil => cases hx
    | cons p rest =>
      rw [List.mem_singleton.mp hx] at hd
      have heq : (⟨p, rest⟩ : Susp) = S := hd
      rw [← heq, show Frame.waits p = false from (hop p rest rfl).2.1] at hw
      cases hw
  | storeRes T i v last =>
    cases last with
    | false => cases hx
    | true =>
      rw [List.mem_singleton.mp hx] at hd
      exact hd.elim
  | callChild parents coro ctx input new hnew =>
    rcases hnew with rfl | ⟨_, _, _, -, -, -, rfl⟩ <;> rw [List.mem_singleton.mp hx] at hd <;> exact hd.elim
  | asyncOver checkpoint =>
    obtain ⟨w', -, rfl⟩ := Option.map_eq_some_iff.mp (Option.mem_toList.mp hx)
    exact hd.elim
  | _ =>
    simp only [List.mem_singleton, List.not_mem_nil] at hx
    try subst hx
    try exact hd.elim

theorem Op.Sends.knows (h : op.WF m) (hS : op.Sends S) : m.Knows S := by
  cases op with
  | storeRes T i v last =>
    cases last with
    | false => exact hS.elim
    | true => exact (show T = S from hS) ▸ h.1
  | fetchRes T => exact (show T = S from hS) ▸ h.1
  | toHandle T input =>
    cases input with
    | send v => exact (show T = S from hS) ▸ h
    | throw e => exact hS.elim
  | _ => exact hS.elim

theorem Op.Concerns.knows (h : op.WF m) (hS : op.Concerns S) : m.Knows S := by
  cases op with
  | addWaker e x | addCheck e x | push e x => exact (show x.target = S from hS) ▸ h.1
  | resume T v i | resumeBody T v i | error b T e => exact (show T = S from hS) ▸ h.1
  | checkAborted w T | adoptLoad w c T => exact (show T = S from hS) ▸ h.1.1
  | adoptSwap w p T => exact (show T = S from hS) ▸ h.2.1.1
  | _ => exact hS.elim

/-- How the suspension of a waiter is made. -/
theorem Move.enters (hm : Move ws m op c m' new) (hk : Known m (A ++ op :: B)) (hS : m'.Knows S) (hfresh : m.nextCell ≤ S.cell)
    (hw : S.waits = true) :
    (∃ w', S.behind = some (.gen, w') ∧ new = [.checkAborted w' S]) ∨
    (∃ w' coro ctx p rest, op = .registerPygen w' coro ctx (p :: rest) ∧ (ws w').events = [] ∧
      S.behind = p.checkpoint.map (fun w => (.gen, w))) ∨
    ∃ coro ctx checkpoint parents events timed, op = .suspend S.flavour coro ctx checkpoint parents events timed ∧
      S.checkpoint = checkpoint ∧ m'.awaits S.cell = events ∧ new = registration S events timed := by
  cases hm.made hk hS hfresh with
  | copied w' coro ctx p rest =>
    rw [show Frame.waits (checkpointFrame m p w') = false from
      (hk.ops (.registerPygen w' coro ctx (p :: rest)) (by simp) p rest rfl).2.1] at hw
    cases hw
  | checkpoint w' coro ctx p rest hnew => exact Or.inl ⟨w', rfl, hnew⟩
  | under w' coro ctx p rest c' he hp => exact Or.inr (Or.inl ⟨w', coro, ctx, p, rest, rfl, he, rfl⟩)
  | called parents coro ctx input => cases hw
  | parked fl coro ctx checkpoint parents events timed _ hT ha hnew =>
    have hfl : S.flavour = fl := by rw [hT]; rfl
    subst hfl
    exact Or.inr (Or.inr ⟨coro, ctx, checkpoint, parents, events, timed, rfl, by rw [hT]; rfl, ha, hnew⟩)

/-- What attends to a checkpoint waiter whose checkpoint was aborted goes on to throw into it. -/
theorem Move.throws (hm : Move ws m op c m' new) (hw : m.aborted w = true)
    (hop : op = .checkAborted w S ∨ ∃ b e, op = .error b S e) {x : Op} (hx : x ∈ new) (hd : x.Concerns S) : ∃ b e, x = .error b S e := by
  cases hm with
  | checkAborted w' T =>
    rcases hop with hop | ⟨b, e, hop⟩
    · obtain ⟨rfl, rfl⟩ : w' = w ∧ T = S := by simpa using hop
      rw [hw, if_pos rfl] at hx
      exact ⟨false, .cancelled, List.mem_singleton.mp hx⟩
    · cases hop
  | errorNoop b T e t ht h => cases hx
  | errorSentinel b T e t ht hs h0 | errorConsume b T e t ht hs h0 =>
    rw [List.mem_singleton.mp hx] at hd
    exact hd.elim
  | decrementZero T v i hwk | decrement T v i hwk | decrementLast T v i hwk | consume T v i hwk | consumeNoop T v i hwk =>
    rcases hwk with rfl | ⟨rfl, -⟩ <;> rcases hop with hop | ⟨b, e, hop⟩ <;> cases hop
  | lock e hl hlock => cases hlock <;> rcases hop with hop | ⟨b, e, hop⟩ <;> cases hop
  | _ => rcases hop with hop | ⟨b, e, hop⟩ <;> cases hop

theorem Doomed.move (h : Doomed fl w n m (A ++ op :: B)) (hk : Known m (A ++ op :: B)) (ht : Timed m (A ++ op :: B))
    (hm : Move ws m op c m' new) (hwake : ¬WakesAborted m (.exec op c)) (hnest : ¬NestsAborted ws m (.exec op c)) :
    Doomed fl w n m' (A ++ (new ++ B)) := by
  have hopin : op ∈ A ++ op :: B := by simp
  -- a suspension that is entered by this step
  have hnew : ∀ S, m'.Knows S → m.nextCell ≤ S.cell → S.waits = true → S.behind = some (fl, w) →
      (∀ x ∈ new, ¬x.Sends S) ∧ (m'.awaits S.cell = [] → ∀ x ∈ new, x.Concerns S → x = .checkAborted w S) := by
    intro S hS hfresh hw hb
    rcases hm.enters hk hS hfresh hw with ⟨w', hb', rfl⟩ | ⟨w', coro, ctx, p, rest, rfl, he, hb'⟩ |
      ⟨coro, ctx, checkpoint, parents, events, timed, rfl, hck, haw, rfl⟩
    · obtain ⟨-, rfl⟩ : _ ∧ w' = w := by simpa [hb] using hb'.symm
      exact ⟨fun x hx hs => by rw [List.mem_singleton.mp hx] at hs; exact hs, fun _ x hx _ => List.mem_singleton.mp hx⟩
    · exfalso
      rw [hb] at hb'
      obtain ⟨c', hc', heq⟩ := Option.map_eq_some_iff.mp hb'.symm
      obtain ⟨-, rfl⟩ := Prod.mk.inj heq
      exact hnest ⟨he, by simp [headCheckpoint, hc', h.aborted]⟩
    · refine ⟨fun x hx => not_sends_registration hx, fun hnil x hx _ => ?_⟩
      obtain rfl : events = [] := haw.symm.trans hnil
      have hwf : (Op.suspend S.flavour coro ctx checkpoint parents [] timed).WF m := hk.ops _ hopin
      have hfl : S.flavour = .async := by
        cases hfl : S.flavour with
        | gen => exact absurd rfl (hwf.2.2.2.2.2.1 hfl).2
        | async => rfl
      have hcw : S.checkpoint = some w := by
        rw [Susp.behind, hfl] at hb
        obtain ⟨w', hw', heq⟩ := Option.map_eq_some_iff.mp hb
        rw [hw', (Prod.mk.inj heq).2]
      simpa [registration, hcw] using hx
  refine ⟨hm.aborted_mono h.aborted, fun S hS hn hw hb x hx hs => ?_, fun S hS hn hw hb hnil x hx hd => ?_⟩
  · rcases hm.extends.old hS with hold | hfresh
    · rcases Machine.mem_cases op hx with hx | hx
      · rcases hm.sends hx hs with hs | ⟨v, i, hwk, hcount, hcons⟩
        · exact h.sends S hold hn hw hb op hopin hs
        · by_cases ha : m.awaits S.cell = []
          · have hconc : op.Concerns S := by rcases hwk with rfl | ⟨rfl, -⟩ <;> rfl
            rcases h.attends S hold hn hw hb ha op hopin hconc with rfl | ⟨b, e, rfl⟩ <;>
              rcases hwk with hwk | ⟨hwk, -⟩ <;> cases hwk
          · refine hwake (.of_wakes hwk ⟨hw, ?_, fun _ => ha, hcount, hcons⟩)
            rw [hk.behind_eq hold (hk.isCheckpoint_of_waits hold hw) (Or.inr ha)] at hb
            obtain ⟨w', hw', heq⟩ := Option.map_eq_some_iff.mp hb
            rw [Mem.abortedOf, hw', (Prod.mk.inj heq).2]
            exact h.aborted
      · exact h.sends S hold hn hw hb x hx hs
    · rcases Machine.mem_cases op hx with hx | hx
      · exact (hnew S hS hfresh hw hb).1 x hx hs
      · exact absurd (hk.lt (hs.knows (hk.ops x hx))) (Nat.not_lt.mpr hfresh)
  · rcases hm.extends.old hS with hold | hfresh
    · have ha : m.awaits S.cell = [] := by rw [← hold.awaits_eq hk hm.extends, hnil]
      rcases Machine.mem_cases op hx with hx | hx
      · rcases hm.concerns hk ht hold hw ha hx hd with hop | herr
        · exact Or.inr (hm.throws h.aborted (h.attends S hold hn hw hb ha op hopin hop) hx hd)
        · exact Or.inr herr
      · exact h.attends S hold hn hw hb ha x hx hd
    · rcases Machine.mem_cases op hx with hx | hx
      · exact Or.inl ((hnew S hS hfresh hw hb).2 hnil x hx hd)
      · exact absurd (hk.lt (hd.knows (hk.ops x hx))) (Nat.not_lt.mpr hfresh)

end

/-- From a state in which a checkpoint has been aborted on, nothing sends a value to a suspension that is entered behind it, in every run
in which no wake overtakes the abort and no checkpoint waiter is registered behind it. -/
theorem doomed_of_reach {ws : Nat → Waiter} {ok : Mem → List Op → Act Op Choice Call → Prop} {s s' : State Mem Op} {fl : Flavour}
    {w : Nat} (hwake : ∀ m ops a, ok m ops a → ¬WakesAborted m a) (hnest : ∀ m ops a, ok m ops a → ¬NestsAborted ws m a)
    (h : (machine ws).Reach ok initial s) (hw : s.mem.aborted w = true) (h' : (machine ws).Reach ok s s') :
    Doomed fl w s.mem.nextCell s'.mem s'.ops := by
  refine h'.invariant_with (J := fun m ops => Known m ops ∧ Timed m ops)
    (fun hr => ⟨known_of_reach (h.trans hr), timed_of_reach (h.trans hr)⟩) ?_ ?_ ?_
  · have hk := known_of_reach h
    exact ⟨hw, fun S hS hn => absurd (hk.lt hS) (Nat.not_lt.mpr hn), fun S hS hn => absurd (hk.lt hS) (Nat.not_lt.mpr hn)⟩
  · exact fun m A op B c m' new hj ih hok he => ih.move hj.1 hj.2 (exec_move he) (hwake _ _ _ hok) (hnest _ _ _ hok)
  · intro m ops l m' new _ ih _ hc
    have hidle : ∀ x ∈ new, ∀ S, ¬x.Sends S ∧ ¬x.Concerns S := by
      cases call_started hc <;> simp [Op.Sends, Op.Concerns]
    obtain ⟨hs, ts, k, rfl⟩ := (call_started hc).exists_eq
    refine ⟨ih.aborted, fun S hS hn hw hb x hx hsend => ?_, fun S hS hn hw hb ha x hx hd => ?_⟩
    · rcases List.mem_append.mp hx with hx | hx
      · exact ih.sends S hS hn hw hb x hx hsend
      · exact (hidle x hx S).1 hsend
    · rcases List.mem_append.mp hx with hx | hx
      · exact ih.attends S hS hn hw hb ha x hx hd
      · exact absurd hd (hidle x hx S).2

/-! ## The checkpoint of a generator -/

/-- The checkpoint of the task that a handle goes on with. -/
def Handle.task : Handle → Option Nat
  | .async checkpoint _ _ _ => checkpoint
  | _ => none

/-- The checkpoint of the task that an operation goes on with. -/
def Op.task : Op → Option Nat
  | .registerPyasyncgen _ _ _ checkpoint | .suspend .async _ _ checkpoint _ _ _ => checkpoint
  | .addHandle h | .run h => h.task
  | _ => none

/-- A task goes on, or is suspended, behind the checkpoint. -/
def Tasked (m : Mem) (ops : List Op) (w : Nat) : Prop :=
  (∃ op ∈ ops, op.task = some w) ∨ (∃ h ∈ m.handles, h.task = some w) ∨ ∃ T, m.Knows T ∧ T.flavour = .async ∧ T.checkpoint = some w

/-- A generator was suspended behind the checkpoint. -/
def Nested (m : Mem) (w : Nat) : Prop := ∃ S, m.Knows S ∧ S.flavour = .gen ∧ S.checkpoint = some w

/-- A checkpoint of generators is one of no task, and is not detached. -/
structure Owned (m : Mem) (ops : List Op) : Prop where
  nested : ∀ w, Nested m w → ¬Tasked m ops w ∧ m.detached w = false
  registered : ∀ w, m.detached w = true → m.registered w = true

section

variable {ws : Nat → Waiter} {m m' : Mem} {A B new ops : List Op} {op : Op} {c : Choice} {S : Susp} {w : Nat}

theorem Nested.registered (hk : Known m ops) (h : Nested m w) : m.registered w = true := by
  obtain ⟨S, hS, -, hw⟩ := h
  exact (hk.made _ _ hS).2.checks w hw

theorem Tasked.registered (hk : Known m ops) (h : Tasked m ops w) : m.registered w = true := by
  have hhandle : ∀ y : Handle, y.WF m → y.task = some w → m.registered w = true := by
    intro y hy ht
    cases y with
    | async checkpoint coro ctx v => exact hy w ht
    | _ => cases ht
  rcases h with ⟨op, hop, ht⟩ | ⟨y, hy, ht⟩ | ⟨T, hT, -, hw⟩
  · have hwf := hk.ops op hop
    cases op with
    | registerPyasyncgen w' coro ctx checkpoint => exact hwf w ht
    | suspend fl coro ctx checkpoint parents events timed =>
      cases fl with
      | gen => cases ht
      | async => exact hwf.2.1 w ht
    | addHandle y | run y => exact hhandle y hwf ht
    | _ => cases ht
  · exact hhandle y (hk.handles y hy) ht
  · exact (hk.made _ _ hT).2.checks w hw

/-- A suspension that a step makes, with its checkpoint. -/
theorem Move.makes (hm : Move ws m op c m' new) (hk : Known m (A ++ op :: B)) (hS : m'.Knows S) (hfresh : m.nextCell ≤ S.cell)
    (hw : S.checkpoint = some w) :
    (S.flavour = .gen ∧ (Nested m w ∨ ∃ coro ctx parents, op = .registerPygen w coro ctx parents ∧ m'.detached = m.detached)) ∨
    (S.flavour = .async ∧ op.task = some w) := by
  have hop : op.WF m := hk.ops op (by simp)
  -- what a generator is behind, it has from its parent
  have hparent : ∀ parents, m.Calls parents → parents.head?.bind (·.checkpoint) = some w → Nested m w := by
    intro parents hp hc
    cases parents with
    | nil => cases hc
    | cons p rest =>
      obtain ⟨hkp, -, hfl⟩ := hp p rest rfl
      exact ⟨⟨p, rest⟩, hkp, hfl, hc⟩
  cases hm.made hk hS hfresh with
  | copied w' coro ctx p rest hd =>
    obtain rfl : w' = w := Option.some.inj hw
    exact Or.inl ⟨(hop p rest rfl).2.2, Or.inr ⟨coro, ctx, p :: rest, rfl, hd⟩⟩
  | checkpoint w' coro ctx p rest => cases hw
  | under w' coro ctx p rest c' he hp =>
    obtain rfl : c' = w := Option.some.inj hw
    exact Or.inl ⟨rfl, Or.inl (hparent (p :: rest) hop hp)⟩
  | called parents coro ctx input => exact Or.inl ⟨rfl, Or.inl (hparent parents hop hw)⟩
  | parked fl coro ctx checkpoint parents events timed _ hT =>
    have hck : checkpoint = some w := by rw [← hw, hT]; rfl
    cases fl with
    | gen => exact Or.inl ⟨by rw [hT]; rfl, Or.inl (hparent parents hop.1 ((hop.2.2.2.2.2.1 rfl).1.symm.trans hck))⟩
    | async => exact Or.inr ⟨by rw [hT]; rfl, hck⟩

/-- A handle of a task comes from a suspension of it or from the operation that goes on with it. -/
theorem Move.tasks (hm : Move ws m op c m' new) (hk : Known m (A ++ op :: B)) {x : Op} (hx : x ∈ new) (hw : x.task = some w) :
    op.task = some w ∨ (∃ T, m.Knows T ∧ T.flavour = .async ∧ T.checkpoint = some w) ∨
      (m.registered w = false ∧ ∃ coro ctx checkpoint, op = .registerPyasyncgen w coro ctx checkpoint) := by
  have hop : op.WF m := hk.ops op (by simp)
  cases hm with
  | toHandle T input | toHandleClear T input =>
    rw [List.mem_singleton.mp hx] at hw
    refine Or.inr (Or.inl ⟨T, hop, ?_⟩)
    cases input <;> cases hfl : T.flavour <;> simp only [Op.task, Susp.handle, hfl, Handle.task, reduceCtorEq] at hw
    exact ⟨rfl, hw⟩
  | registerAsync w' coro ctx checkpoint checkpoint' left timed hr he =>
    rw [List.mem_singleton.mp hx] at hw
    have hw : checkpoint' = some w := hw
    rcases he with ⟨-, hck, -⟩ | ⟨-, hck, -⟩
    · obtain rfl : w' = w := by simpa [hck] using hw
      exact Or.inr (Or.inr ⟨hr, coro, ctx, checkpoint, rfl⟩)
    · exact Or.inl (hck.symm.trans hw)
  | asyncAgain checkpoint coro ctx v | asyncWaiter checkpoint coro ctx v w' =>
    rw [List.mem_singleton.mp hx] at hw
    exact Or.inl hw
  | suspend fl coro ctx checkpoint parents events timed T hT =>
    unfold registration at hx
    split at hx
    · rw [List.mem_singleton.mp hx] at hw
      cases hw
    · rcases List.mem_append.mp hx with hx | hx
      · obtain ⟨ei, -, rfl⟩ := List.mem_map.mp hx
        cases hw
      · cases timed with
        | false => cases hx
        | true =>
          rw [List.mem_singleton.mp hx] at hw
          cases hw
  | enter w' P h =>
    obtain ⟨F, coro, ctx, input, rfl, -⟩ := hop.2.2.2.2.2.2
    rw [List.mem_singleton.mp hx] at hw
    cases hw
  | lock e hl hlock => cases hlock <;> rw [List.mem_singleton.mp hx] at hw <;> cases hw
  | storeRes T i v last =>
    cases last with
    | false => cases hx
    | true =>
      rw [List.mem_singleton.mp hx] at hw
      cases hw
  | checkAborted w' T =>
    rw [List.mem_singleton.mp hx] at hw
    split at hw <;> cases hw
  | abortLoad fl w' =>
    obtain ⟨T, -, rfl⟩ := Option.map_eq_some_iff.mp (Option.mem_toList.mp hx)
    cases hw
  | callChild parents coro ctx input new hnew =>
    rcases hnew with rfl | ⟨_, _, _, -, -, -, rfl⟩ <;> rw [List.mem_singleton.mp hx] at hw <;> cases hw
  | ret parents | raise parents =>
    cases parents with
    | nil => cases hx
    | cons p rest =>
      rw [List.mem_singleton.mp hx] at hw
      cases hw
  | asyncOver checkpoint =>
    obtain ⟨w', -, rfl⟩ := Option.map_eq_some_iff.mp (Option.mem_toList.mp hx)
    cases hw
  | wakeNow e x' | notifyPop e x' =>
    simp only [List.mem_cons, List.not_mem_nil, or_false] at hx
    rcases hx with rfl | rfl <;> cases hw
  | register w' coro ctx parents =>
    rw [List.mem_singleton.mp hx] at hw
    cases hw
  | _ =>
    simp only [List.mem_singleton, List.not_mem_nil] at hx
    try subst hx
    try cases hw

/-- A checkpoint is detached when it is registered below another one, or when its task registers another one. -/
theorem Move.detaches (hm : Move ws m op c m' new) (hw : m'.detached w = true) :
    m.detached w = true ∨ op.task = some w ∨
      (m.registered w = false ∧ m'.registered w = true ∧ m'.detached ≠ m.detached ∧ ∃ coro ctx parents, op = .registerPygen w coro ctx parents) := by
  cases hd : m.detached w with
  | true => exact Or.inl rfl
  | false =>
    cases hm with
    | underCheckpoint w' coro ctx p rest c' hr he hp =>
      have hw' : (m.detached w || decide (some w' = some w)) = true := hw
      obtain rfl : w' = w := by simpa [hd] using hw'
      refine Or.inr (Or.inr ⟨hr, by simp [Mem.new, Mem.detach, Mem.register], fun heq => ?_, coro, ctx, p :: rest, rfl⟩)
      rw [heq, hd] at hw
      cases hw
    | registerAsync w' coro ctx checkpoint checkpoint' left timed hr he =>
      have hw' : (m.detached w || decide (left = some w)) = true := hw
      have hleft : left = some w := by simpa [hd] using hw'
      rcases he with ⟨-, -, -, rfl⟩ | ⟨-, -, -, rfl⟩
      · exact Or.inr (Or.inl hleft)
      · cases hleft
    | _ => exact absurd (hd.symm.trans hw) Bool.false_ne_true

theorem Owned.move (h : Owned m (A ++ op :: B)) (hk : Known m (A ++ op :: B)) (hm : Move ws m op c m' new) :
    Owned m' (A ++ (new ++ B)) := by
  have hopin : op ∈ A ++ op :: B := by simp
  have hmono : ∀ w, m.registered w = true → m'.registered w = true := hm.extends.registered
  -- a task goes on behind a checkpoint that it was behind, or that it registers
  have htask : ∀ w, Tasked m' (A ++ (new ++ B)) w → Tasked m (A ++ op :: B) w ∨
      (m.registered w = false ∧ ∃ coro ctx checkpoint, op = .registerPyasyncgen w coro ctx checkpoint) := by
    intro w hT
    have hop : op.task = some w → Tasked m (A ++ op :: B) w := fun ht => Or.inl ⟨op, hopin, ht⟩
    rcases hT with ⟨x, hx, hw⟩ | ⟨y, hy, hw⟩ | ⟨T, hT, hfl, hw⟩
    · rcases Machine.mem_cases op hx with hx | hx
      · rcases hm.tasks hk hx hw with ht | hT | hreg
        · exact Or.inl (hop ht)
        · exact Or.inl (Or.inr (Or.inr hT))
        · exact Or.inr hreg
      · exact Or.inl (Or.inl ⟨x, hx, hw⟩)
    · have hhandles : y ∈ m.handles ∨ op.task = some w := by
        cases hm with
        | addHandle z =>
          rcases List.mem_append.mp hy with hy | hy
          · exact Or.inl hy
          · obtain rfl := List.mem_singleton.mp hy
            exact Or.inr hw
        | _ => exact Or.inl hy
      rcases hhandles with hy | ht
      · exact Or.inl (Or.inr (Or.inl ⟨y, hy, hw⟩))
      · exact Or.inl (hop ht)
    · rcases hm.extends.old hT with hold | hfresh
      · exact Or.inl (Or.inr (Or.inr ⟨T, hold, hfl, hw⟩))
      · rcases hm.makes hk hT hfresh hw with ⟨hgen, -⟩ | ⟨-, ht⟩
        · rw [hfl] at hgen
          cases hgen
        · exact Or.inl (hop ht)
  refine ⟨fun w hN => ?_, fun w hd => ?_⟩
  · have hcases : Nested m w ∨ ∃ coro ctx parents, op = .registerPygen w coro ctx parents ∧ m'.detached = m.detached := by
      obtain ⟨S, hS, hfl, hw⟩ := hN
      rcases hm.extends.old hS with hold | hfresh
      · exact Or.inl ⟨S, hold, hfl, hw⟩
      · rcases hm.makes hk hS hfresh hw with ⟨-, hgen⟩ | ⟨hasync, -⟩
        · exact hgen
        · rw [hfl] at hasync
          cases hasync
    rcases hcases with hold | ⟨coro, ctx, parents, rfl, hdet⟩
    · obtain ⟨h1, h2⟩ := h.nested w hold
      have hreg := hold.registered hk
      refine ⟨fun hT => ?_, ?_⟩
      · rcases htask w hT with hT | ⟨hfresh, -⟩
        · exact h1 hT
        · exact Bool.false_ne_true (hfresh.symm.trans hreg)
      · by_contra hd
        rcases hm.detaches (by simpa using hd) with hd | ht | ⟨hfresh, -⟩
        · exact Bool.false_ne_true (h2.symm.trans hd)
        · exact h1 (Or.inl ⟨op, hopin, ht⟩)
        · exact Bool.false_ne_true (hfresh.symm.trans hreg)
    · have hfresh : m.registered w = false := by
        cases hm with
        | fromCheckpoint w' _ _ _ _ hr | underCheckpoint w' _ _ _ _ _ hr | register w' _ _ _ hr => exact hr
        | decrementZero _ _ _ hw | decrement _ _ _ hw | decrementLast _ _ _ hw | consumeNoop _ _ _ hw | consume _ _ _ hw =>
          rcases hw with hw | ⟨hw, -⟩ <;> cases hw
        | lock e hl hlock => cases hlock
      refine ⟨fun hT => ?_, ?_⟩
      · rcases htask w hT with hT | ⟨-, coro', ctx', checkpoint, heq⟩
        · exact Bool.false_ne_true (hfresh.symm.trans (hT.registered hk))
        · cases heq
      · rw [hdet]
        by_contra hd
        exact Bool.false_ne_true (hfresh.symm.trans (h.registered w (by simpa using hd)))
  · rcases hm.detaches hd with hd | ht | ⟨-, hreg, -⟩
    · exact hmono w (h.registered w hd)
    · exact hmono w (Tasked.registered hk (Or.inl ⟨op, hopin, ht⟩))
    · exact hreg

end

theorem owned_of_reach {ws : Nat → Waiter} {ok : Mem → List Op → Act Op Choice Call → Prop} {s : State Mem Op}
    (h : (machine ws).Reach ok initial s) : Owned s.mem s.ops := by
  refine h.invariant_with known_of_reach ?_ ?_ ?_
  · refine ⟨?_, nofun⟩
    rintro w ⟨S, hS, -⟩
    cases hS
  · exact fun m A op B c m' new hk ih _ he => ih.move hk (exec_move he)
  · intro m ops l m' new _ ih _ hc
    have htask : ∀ w, Tasked m' (ops ++ new) w → Tasked m ops w := by
      intro w hT
      have hknown : (∃ T, m'.Knows T ∧ T.flavour = .async ∧ T.checkpoint = some w) →
          ∃ T, m.Knows T ∧ T.flavour = .async ∧ T.checkpoint = some w := by
        obtain ⟨hs, ts, n, rfl⟩ := (call_started hc).exists_eq
        exact id
      have hnew : ∀ x ∈ new, x.task = some w → ∃ y ∈ m.handles, y.task = some w := by
        intro x hx hw
        cases call_started hc with
        | work k y hy =>
          rw [List.mem_singleton.mp hx] at hw
          exact ⟨y, List.mem_of_getElem? hy, hw⟩
        | spawn fl ctx y hy =>
          rw [List.mem_singleton.mp hx] at hw
          rcases hy with ⟨-, rfl⟩ | ⟨-, rfl⟩ <;> cases hw
        | _ =>
          rw [List.mem_singleton.mp hx] at hw
          cases hw
      have hhandles : ∀ y ∈ m'.handles, y ∈ m.handles := by
        intro y hy
        cases call_started hc with
        | work k z hz => exact List.mem_of_mem_eraseIdx hy
        | _ => exact hy
      rcases hT with ⟨x, hx, hw⟩ | ⟨y, hy, hw⟩ | hT
      · rcases List.mem_append.mp hx with hx | hx
        · exact Or.inl ⟨x, hx, hw⟩
        · exact Or.inr (Or.inl (hnew x hx hw))
      · exact Or.inr (Or.inl ⟨y, hhandles y hy, hw⟩)
      · exact Or.inr (Or.inr (hknown hT))
    obtain ⟨hs, ts, n, rfl⟩ := (call_started hc).exists_eq
    exact ⟨fun w hN => ⟨fun hT => (ih.nested w hN).1 (htask w hT), (ih.nested w hN).2⟩, ih.registered⟩

end Tonio.Runtime
