import Tonio.Lemmas.Abort

/-!
# Every coroutine goes on

What a coroutine goes on with may be lost in five ways. The thrower of an async task drops what the task yields after it has caught
the exception. `clear` leaves the counter of a waiter of several events too high. An abort that reaches such a waiter twice schedules it
twice. And an async suspension whose checkpoint was aborted is not resumed any more, so it is lost if no abort finds it: because it
was registered after the abort had loaded the pointer, or because the abort was that of a generator.
-/

namespace Tonio.Runtime

open Interleaving

/-! ## Continuations -/

/-- Something is about to resolve the suspension of a waiter: a waker in the queue of an event, or an operation on its way; a suspension
of several events has as many wakers on their way as it waits for; and one whose checkpoint was aborted is about to be thrown into. -/
inductive Expects (m : Mem) (ops : List Op) (S : Susp) : Prop where
  | queued (e : Nat) (x : Waker) (hx : x ∈ m.watchers e) (h : x.target = S) (hs : S.sentinel = false)
  | coming (op : Op) (hop : op ∈ ops) (h : op.Concerns S) (hs : S.sentinel = false)
  | counted (hs : S.sentinel = true) (hpos : 0 < m.counter S.cell) (h : m.counter S.cell = outstanding m ops S.cell)
  | caught (w : Nat) (hw : S.checkpoint = some w) (ha : m.aborted w = true) (h : Caught m ops S w)

/-- A token of the coroutine is below the suspension of a call: the coroutine is the child. -/
inductive IsChild (m : Mem) (ops : List Op) (F : Susp) (k : Nat) : Prop where
  | running (op : Op) (hop : op ∈ ops) (t : Tok) (ht : t ∈ op.toks) (hk : t.coro = some k) (hF : t.parent = some F.cell)
  | queued (y : Handle) (hy : y ∈ m.handles) (t : Tok) (ht : t ∈ y.toks) (hk : t.coro = some k) (hF : t.parent = some F.cell)
  | suspended (S : Susp) (hS : S ∈ m.live) (hk : S.coro = k) (hF : parentCell S.parents = some F.cell)

/-- A coroutine goes on: a thread runs it, registers what it yielded or is about to queue its handle; its handle is queued; it waits
for something that is about to come; or it has called a child whose result is on its way, or that goes on. -/
inductive GoesOn (m : Mem) (ops : List Op) : Nat → Prop where
  | running {k : Nat} (op : Op) (hop : op ∈ ops) (t : Tok) (ht : t ∈ op.toks) (hk : t.coro = some k) : GoesOn m ops k
  | queued {k : Nat} (y : Handle) (hy : y ∈ m.handles) (t : Tok) (ht : t ∈ y.toks) (hk : t.coro = some k) : GoesOn m ops k
  | waiting (S : Susp) (hS : S ∈ m.live) (hw : S.waits = true) (h : Expects m ops S) : GoesOn m ops S.coro
  | result (F : Susp) (hF : F ∈ m.live) (op : Op) (hop : op ∈ ops) (ht : .result F ∈ op.toks) : GoesOn m ops F.coro
  | parent (F : Susp) (hF : F ∈ m.live) (k : Nat) (hc : IsChild m ops F k) (h : GoesOn m ops k) : GoesOn m ops F.coro

/-! ## What can go wrong -/

/-- A `clear` call finds a waker of a waiter of several events in the queue. -/
def Miscounts (m : Mem) : Act Op Choice Call → Prop
  | .exec (.unnotifyLock e) _ => ∃ x ∈ m.watchers e, x.target.sentinel = true
  | _ => False

/-- A step that loses or doubles no continuation. -/
structure KeepsTasks (m : Mem) (ops : List Op) (a : Act Op Choice Call) : Prop where
  yields : ¬DropsYield a
  counts : ¬Miscounts m a
  throws : ∀ k, ¬Rethrows k m a
  parks : ¬ParksAborted .async m ops a
  aborts : ¬AbortsOther .async m a

section

variable {ws : Nat → Waiter} {s : State Mem Op}

theorem KeepsTasks.not_holds {m : Mem} {ops : List Op} {a : Act Op Choice Call} (h : KeepsTasks m ops a) (hk : Known m ops) {S : Susp}
    (hS : m.Knows S) (hs : S.sentinel = true) : ¬Holds S.cell m a := by
  intro hh
  cases a with
  | call l => exact hh
  | exec op c =>
    cases op with
    | unnotifyLock e =>
      obtain ⟨x, hx, hc⟩ := hh
      refine h.counts ⟨x, hx, ?_⟩
      rw [(hk.watchers e x hx).1.unique hS hc]
      exact hs
    | _ => exact hh

theorem counted_of_keeps (h : (machine ws).Reach KeepsTasks initial s) {S : Susp} (hS : s.mem.Knows S) (hs : S.sentinel = true) :
    Counted True s.mem s.ops S :=
  counted_of_reach True (fun _ _ _ _ hk hok T hT hsT hc => hc ▸ hok.not_holds hk hT hsT) (by simp) h S hS rfl hs

theorem tallied_of_keeps (h : (machine ws).Reach KeepsTasks initial s) : Tallied s.mem :=
  fun _ hS hs ht => ((counted_of_keeps h hS hs).tally ht).fired

/-- A sentinel resolves its suspension once. -/
theorem sound_of_keeps (h : (machine ws).Reach KeepsTasks initial s) (op : Op) (c : Choice)
    (hok : KeepsTasks s.mem s.ops (.exec op c)) : Sound s.mem op := by
  intro S hS hs hc
  have hk := known_of_reach h
  have hr := resolved_of_reach h
  have hc0 : s.mem.counter S.cell ≠ 0 := by
    rcases hc with hc | hc
    · omega
    · exact hc.1
  cases ht : s.mem.thrown S.cell with
  | false =>
    have hf := tallied_of_keeps h S hS hs ht
    rw [decide_eq_false hc0] at hf
    exact hr.live _ S hS (Or.inl (waits_of_sentinel hk hS hs)) hf
  | true =>
    exfalso
    rcases hc with hc | ⟨-, e, rfl⟩
    · obtain ⟨d, hd⟩ := spent_of_reach True (fun _ _ _ _ hk hok T hT hsT hc => hc ▸ hok.not_holds hk hT hsT) (by simp) (by simp)
        (fun m ops a hok => hok.throws S.cell) h S hS rfl hs ht
      have h1 := hd.counter
      have h2 := hd.bound
      have h3 := (hk.made _ _ hS).2.fits
      omega
    · exact hok.throws S.cell ⟨rfl, ht, hc0⟩

theorem thrownFired_of_keeps (h : (machine ws).Reach KeepsTasks initial s) : ThrownFired s.mem :=
  thrownFired_of_reach tallied_of_keeps h

/-- A waiter that has not been resolved is about to be. -/
theorem expects_of_keeps (h : (machine ws).Reach KeepsTasks initial s) {S : Susp} (hS : S ∈ s.mem.live) (hw : S.waits = true) :
    Expects s.mem s.ops S := by
  have hk := known_of_reach h
  have hr := resolved_of_reach h
  have hkS := hk.live S hS
  have hwf := (hk.made _ _ hkS).2
  have hpoint : Pointed .async s.mem s.ops :=
    pointed_of_reach .async tallied_of_keeps nofun (fun _ _ _ hok => hok.parks) (fun _ _ _ hok => hok.aborts) h
  -- an async suspension whose checkpoint was aborted is caught
  have haborted : S.flavour = .async → s.mem.abortedOf S = true → Expects s.mem s.ops S := by
    intro hfl hab
    obtain ⟨w, hck, hab⟩ := (Option.any_eq_true _ _).mp hab
    exact .caught w hck hab ((hpoint S w hfl ⟨hS, hw, hck, by simp [hfl]⟩).2 hab)
  cases hev : s.mem.awaits S.cell with
  | nil =>
    have hs : S.sentinel = false := by rw [hwf.sentinel, hev]; rfl
    rcases attended_of_reach h S hS hw hev with ⟨hfl, hab⟩ | ⟨op, hop, hd⟩
    · exact haborted hfl hab
    · exact .coming op hop hd hs
  | cons e es =>
    cases es with
    | nil =>
      have hs : S.sentinel = false := by rw [hwf.sentinel, hev]; rfl
      rcases awaited_of_reach h S hS e hev with ⟨hfl, hab⟩ | ⟨x, hx, hxS⟩ | ⟨op, hop, hd⟩
      · exact haborted hfl hab
      · exact .queued e x hx hxS hs
      · refine .coming op hop ?_ hs
        cases op <;> first | exact hd.2 | exact hd | exact hd.elim
    | cons e' es =>
      have hs : S.sentinel = true := by rw [hwf.sentinel, hev]; exact decide_eq_true (by simp)
      have ht : s.mem.thrown S.cell = false := by
        by_contra ht
        exact thrownFired_of_keeps h S hkS hs (by simpa using ht) (hr.unfired S hS)
      have htally := (counted_of_keeps h hkS hs).tally ht
      by_cases hab : S.flavour = .async ∧ s.mem.abortedOf S = true
      · exact haborted hab.1 hab.2
      · refine .counted hs ?_ (htally.eq trivial hab)
        have hf := htally.fired
        rw [hr.unfired S hS] at hf
        by_contra h0
        rw [decide_eq_true (by omega)] at hf
        cases hf

/-- A coroutine that is suspended goes on. The induction follows the calls down, from a suspension to one below it, which was made
later. -/
theorem goesOn_of_live (h : (machine ws).Reach KeepsTasks initial s) :
    ∀ n (S : Susp), S ∈ s.mem.live → s.mem.nextCell - S.cell = n → GoesOn s.mem s.ops S.coro := by
  have hk := known_of_reach h
  have hch := chained_of_reach sound_of_keeps h
  intro n
  induction n using Nat.strongRecOn with
  | ind n ih =>
    intro S hS hn
    cases hw : S.waits with
    | true => exact .waiting S hS hw (expects_of_keeps h hS hw)
    | false =>
      have hkS := hk.live S hS
      have hone := hch.called S hS hw
      have hpos : ∀ t : Tok, 0 < t.below S.cell → t.parent = some S.cell := by
        intro t ht
        by_contra hne
        rw [Tok.below, isAt_of_ne hne] at ht
        cases ht
      rcases exists_of_weigh (show 0 < weigh (Tok.below S.cell) s.mem s.ops by rw [← below, hone]; decide) with
        ⟨op, hop, t, ht, htp⟩ | ⟨y, hy, t, ht, htp⟩ | ⟨T, hT, htp⟩
      · replace htp := hpos t htp
        cases hco : t.coro with
        | some k => exact .parent S hS k (.running op hop t ht hco htp) (.running op hop t ht hco)
        | none =>
          have hwf := (hk.ops op hop).toks hk t ht
          cases t with
          | result F =>
            obtain rfl := hwf.1.unique hkS (Option.some.inj htp)
            exact .result F hS op hop ht
          | closing w => cases htp
          | gen | async | parked | called | resolved => cases hco
      · replace htp := hpos t htp
        cases hco : t.coro with
        | some k => exact .parent S hS k (.queued y hy t ht hco htp) (.queued y hy t ht hco)
        | none =>
          cases y <;> simp only [Handle.toks, List.mem_singleton, List.not_mem_nil] at ht <;> subst ht <;> cases hco
      · have htp : parentCell T.parents = some S.cell := by
          by_contra hne
          rw [below_tok, isAt_of_ne hne] at htp
          cases htp
        have hlt : S.cell < T.cell := by
          cases hp : T.parents with
          | nil => simp [hp, parentCell] at htp
          | cons p rest =>
            have := (hk.made _ _ (hk.live T hT)).2.above p rest hp
            simp only [hp, parentCell, List.head?_cons, Option.map_some, Option.some.injEq] at htp
            omega
        have hltT := hk.lt (hk.live T hT)
        exact .parent S hS T.coro (.suspended T hT rfl htp) (ih _ (by omega) T hT rfl)

end

/-- Every coroutine that has been started and has not finished has exactly one continuation, and goes on, in every state of every run
whose steps lose or double none; and a generator that is thrown into goes on, whatever it does then, exactly as one that is sent
`None`. -/
theorem coroutine_goes_on (ws : Nat → Waiter) (s : State Mem Op) (h : (machine ws).Reach KeepsTasks initial s) :
    (∀ k, k < s.mem.nextCoro → s.mem.finished k = false → tokensOf s.mem s.ops k = 1 ∧ GoesOn s.mem s.ops k) ∧
    ∀ parents coro ctx e o, runGen s.mem parents coro ctx (.throw e) o = runGen s.mem parents coro ctx (.send .none) o := by
  refine ⟨fun k hk hf => ?_, fun parents coro ctx e o => by cases o <;> rfl⟩
  have hone : tokensOf s.mem s.ops k = 1 := by
    rw [(continued_of_reach sound_of_keeps (fun _ _ _ hok => hok.yields) h).tokens k, Mem.unfinished, hf, decide_eq_true hk]
    rfl
  have hpos : ∀ t : Tok, 0 < t.isOf k → t.coro = some k := by
    intro t ht
    by_contra hne
    rw [Tok.isOf, isAt_of_ne hne] at ht
    cases ht
  refine ⟨hone, ?_⟩
  rcases exists_of_weigh (show 0 < weigh (Tok.isOf k) s.mem s.ops by rw [← tokensOf, hone]; decide) with
    ⟨op, hop, t, ht, htk⟩ | ⟨y, hy, t, ht, htk⟩ | ⟨S, hS, htk⟩
  · exact .running op hop t ht (hpos t htk)
  · exact .queued y hy t ht (hpos t htk)
  · obtain rfl : S.coro = k := by
      by_contra hne
      rw [isOf_tok, isAt_some_of_ne hne] at htk
      cases htk
    exact goesOn_of_live h _ S hS rfl

/-- The first waiter is a checkpoint, and another one waits for the event of the number before it. -/
def checkpointFirst : Nat → Waiter
  | 0 => .checkpoint
  | w + 1 => .ofEvent w

instance (a : Act Op Choice Call) : Decidable (DropsYield a) := by
  unfold DropsYield
  induction a using Act.casesOn with
  | exec op c =>
    induction op using Op.casesOn with
    | run h =>
      induction h using Handle.casesOn with
      | asyncThrow coro ctx exc =>
        induction c using Choice.casesOn with
        | out o => induction o using Out.casesOn <;> infer_instance
        | go => infer_instance
      | _ => infer_instance
    | _ => infer_instance
  | call l => infer_instance

instance (m : Mem) (a : Act Op Choice Call) : Decidable (Miscounts m a) := by
  unfold Miscounts
  induction a using Act.casesOn with
  | exec op c => induction op using Op.casesOn <;> infer_instance
  | call l => infer_instance

/-- A check of a step: no step that an abort makes throws into a suspension. -/
def keepsTasks (m : Mem) (ops : List Op) (a : Act Op Choice Call) : Bool :=
  decide (¬DropsYield a) && decide (¬Miscounts m a) && (match a with | .exec (.error true _ _) _ => false | _ => true) &&
    decide (¬ParksAborted .async m ops a) && decide (¬AbortsOther .async m a)

theorem keepsTasks_of_check (m : Mem) (ops : List Op) (a : Act Op Choice Call) (h : keepsTasks m ops a = true) : KeepsTasks m ops a := by
  simp only [keepsTasks, Bool.and_eq_true, decide_eq_true_eq] at h
  obtain ⟨⟨⟨⟨hyields, hcounts⟩, hthrows⟩, hparks⟩, haborts⟩ := h
  refine ⟨hyields, hcounts, fun k hr => ?_, hparks, haborts⟩
  unfold Rethrows at hr
  split at hr
  · cases hthrows
  · exact hr

/-- A generator calls another one, which waits for an event: both go on. -/
theorem coroutine_goes_on_two :
    ∃ s : State Mem Op, (machine checkpointFirst).Reach KeepsTasks initial s ∧ s.ops = [] ∧ s.mem.handles = [] ∧
      GoesOn s.mem s.ops 0 ∧ GoesOn s.mem s.ops 1 := by
  obtain ⟨s, hs, hp⟩ := Machine.exists_reach_of_run (machine checkpointFirst) KeepsTasks
    keepsTasks keepsTasks_of_check initial
    (List.flatten [[.call (.spawn .gen none), .act 0 .go, .call (.work 0), .act 1 (.out .yieldGen), .act 1 .go, .call (.work 0),
        .act 2 (.out (.yieldWaiter 1))], List.replicate 6 (.act 2 .go)])
    (fun s => decide (s.ops = []) && decide (s.mem.handles = []) && decide (s.mem.nextCoro = 2) && !s.mem.finished 0 &&
      !s.mem.finished 1) (by decide)
  simp only [Bool.and_eq_true, decide_eq_true_eq, Bool.not_eq_true'] at hp
  obtain ⟨⟨⟨⟨hops, hh⟩, hn⟩, h0⟩, h1⟩ := hp
  obtain ⟨hgo, -⟩ := coroutine_goes_on checkpointFirst s hs
  exact ⟨s, hs, hops, hh, (hgo 0 (by omega) h0).2, (hgo 1 (by omega) h1).2⟩

/-- A task behind a checkpoint waits for an event, is aborted, catches the exception and waits again: the waiter is dropped, and the task,
which has not finished, is nowhere. -/
theorem thrown_task_dropped :
    ∃ s : State Mem Op, (machine checkpointFirst).Reach (fun _ _ _ => True) initial s ∧ s.mem.nextCoro = 1 ∧
      s.mem.finished 0 = false ∧ tokensOf s.mem s.ops 0 = 0 ∧ ¬GoesOn s.mem s.ops 0 ∧
      s.mem.log = [(0, .send .none), (0, .send .none), (0, .throw .cancelled)] := by
  obtain ⟨s, hs, hp⟩ := Machine.exists_reach_of_run (machine checkpointFirst) (fun _ _ _ => True) (fun _ _ _ => true)
    (fun _ _ _ _ => trivial) initial
    (List.flatten [[.call (.spawn .async none), .act 0 .go, .call (.work 0), .act 1 (.out (.yieldWaiter 0))], List.replicate 7 (.act 1 .go),
      [.call (.work 0), .act 2 (.out (.yieldWaiter 1))], List.replicate 6 (.act 2 .go),
      .call (.abort .async 0) :: List.replicate 5 (.act 3 .go), [.call (.work 0), .act 4 (.out (.yieldWaiter 2))]])
    (fun s => decide (s.ops = []) && decide (s.mem.handles = []) && decide (s.mem.live = []) && decide (s.mem.nextCoro = 1) &&
      !s.mem.finished 0 && decide (s.mem.log = [(0, .send .none), (0, .send .none), (0, .throw .cancelled)])) (by decide)
  simp only [Bool.and_eq_true, decide_eq_true_eq, Bool.not_eq_true'] at hp
  obtain ⟨⟨⟨⟨⟨hops, hh⟩, hl⟩, hn⟩, hf⟩, hlog⟩ := hp
  refine ⟨s, hs, hn, hf, by simp [tokensOf, weigh, Mem.weigh, hops, hh, hl], fun hgo => ?_, hlog⟩
  generalize hk : 0 = k at hgo
  cases hgo with
  | running op hop => simp [hops] at hop
  | queued y hy => simp [hh] at hy
  | waiting S hS => simp [hl] at hS
  | result F hF => simp [hl] at hF
  | parent F hF => simp [hl] at hF

end Tonio.Runtime
