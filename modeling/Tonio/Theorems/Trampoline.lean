import Tonio.Lemmas.Progress
import Tonio.Theorems.Continuity

/-!
# The trampoline refines direct evaluation

The handles of generators run a program of nested generators one segment at a time: what a generator yields makes a suspension, and what
resumes a suspension makes a handle. In whatever order the workers take the handles and the events are set, if nothing is aborted then
what the generators are sent and thrown is what the direct evaluation of the program gives, in the same order. The run does not get
stuck or go on forever, and when the workers have nothing left to do and what is awaited has happened, the evaluation is complete.
-/

namespace Tonio.Runtime

open Interleaving

section

variable {ws : Nat → Waiter} {P : Program} {s : State Mem Op} {m : Mem} {ops : List Op}

/-- A program of generators loses and doubles no continuation. -/
theorem Plain.keepsTasks {op : Op} (h : Plain m ops) (hop : op ∈ ops) (c : Choice) : KeepsTasks m ops (.exec op c) := by
  have hplain := h.ops op hop
  refine ⟨fun hd => ?_, fun hd => ?_, fun k hd => ?_, fun hd => ?_, fun hd => ?_⟩
  · unfold DropsYield at hd
    split at hd
    · exact hd
    · exact hd
    · rename_i heq
      cases heq
      cases hplain
    · exact hd
  · unfold Miscounts at hd
    split at hd
    · rename_i heq
      cases heq
      cases hplain
    · exact hd
  · unfold Rethrows at hd
    split at hd
    · rename_i heq
      cases heq
      cases hplain
    · exact hd
  · unfold ParksAborted at hd
    split at hd
    · rename_i heq
      cases heq
      rw [h.aborted] at hd
      exact Bool.false_ne_true hd.2.2.1
    · exact hd
  · unfold AbortsOther at hd
    split at hd
    · rename_i heq
      cases heq
      cases hplain
    · exact hd

theorem keepsTasks_call (m : Mem) (ops : List Op) (l : Call) : KeepsTasks m ops (.call l) :=
  ⟨fun h => h, fun h => h, fun _ h => h, fun h => h, fun h => h⟩

theorem keeps_of_runs (h : (machine ws).Reach (fun m _ a => Runs P m a) initial s) : (machine ws).Reach KeepsTasks initial s :=
  h.mono_with plain_of_reach (fun _ _ _ c hp hop _ => hp.keepsTasks hop c) (fun m ops l _ _ => keepsTasks_call m ops l)

/-- A run of a program is where the evaluation is. -/
theorem simulates_of_runs {r : Result} {n : Nat} {l : List (Nat × Input)} {us : List Nat}
    (hE : Evaluates ws P 0 [.send .none] 1 r n l us) (h : (machine ws).Reach (fun m _ a => Runs P m a) initial s) :
    Simulates ws P ((0, .send .none) :: l) us s.mem s.ops := by
  refine simulates_of_reach ⟨l, rfl, ?_⟩ (fun hr op hop => ?_) h
  · have hgoes : Goes ws P [(0, .send .none)] 0 1 [] (l ++ []) (us ++ []) :=
      hE.goes rfl (by simp) Nat.one_pos (fun _ => rfl) ⟨rfl, rfl⟩
    simpa using hgoes
  · exact sound_of_keeps (keeps_of_runs hr) op .go ((plain_of_reach hr).keepsTasks hop .go)

/-- When nothing is left to be done, a suspension waits for an event that has not been set. -/
theorem not_expects_of_quiet (h : (machine ws).Reach (fun m _ a => Runs P m a) initial s) (hops : s.ops = []) {S : Susp} (hS : s.mem.Knows S)
    (hset : ∀ e ∈ s.mem.awaits S.cell, s.mem.flag e = true) : ¬Expects s.mem s.ops S := by
  have hk := known_of_reach h
  -- a waker of an event that is set is left to a `set` call, and there is none
  have hqueue : ∀ e, ∀ x ∈ s.mem.watchers e, x.target ≠ S := by
    intro e x hx hxS
    have hidx := (hk.watchers e x hx).2.2
    rw [hxS] at hidx
    have hsetting := (woken_of_reach h).queued e (hset e (List.mem_of_getElem? hidx)) (List.ne_nil_of_mem hx)
    simp [Setting, hops] at hsetting
  intro hexp
  cases hexp with
  | queued e x hx hxS => exact hqueue e x hx hxS
  | coming op hop => simp [hops] at hop
  | counted hs hpos heq =>
    rw [heq, outstanding, hops, total_nil, Nat.zero_add, Mem.queued] at hpos
    obtain ⟨e, -, hpos⟩ := total_pos_iff.mp hpos
    obtain ⟨x, hx, hc⟩ := List.countP_pos_iff.mp hpos
    exact hqueue e x hx ((hk.watchers e x hx).1.unique hS (of_decide_eq_true hc))
  | caught w hw ha =>
    rw [(plain_of_reach h).aborted] at ha
    cases ha

/-- When nothing is left to be done and what is awaited has been set, no coroutine goes on. -/
theorem not_goesOn_of_quiet (h : (machine ws).Reach (fun m _ a => Runs P m a) initial s) (hops : s.ops = []) (hhandles : s.mem.handles = [])
    (hset : ∀ S ∈ s.mem.live, ∀ e ∈ s.mem.awaits S.cell, s.mem.flag e = true) (k : Nat) : ¬GoesOn s.mem s.ops k := by
  intro hgo
  induction hgo with
  | running op hop => simp [hops] at hop
  | queued y hy => simp [hhandles] at hy
  | waiting S hS hw hexp => exact not_expects_of_quiet h hops ((known_of_reach h).live S hS) (hset S hS) hexp
  | result F hF op hop => simp [hops] at hop
  | parent F hF k hc hgo ih => exact ih

/-- When nothing is left to be done and what is awaited has been set, no suspension is left. -/
theorem live_eq_nil_of_quiet (h : (machine ws).Reach (fun m _ a => Runs P m a) initial s) (hops : s.ops = []) (hhandles : s.mem.handles = [])
    (hset : ∀ S ∈ s.mem.live, ∀ e ∈ s.mem.awaits S.cell, s.mem.flag e = true) : s.mem.live = [] := by
  refine List.eq_nil_iff_forall_not_mem.mpr (fun S hS => ?_)
  exact not_goesOn_of_quiet h hops hhandles hset S.coro (goesOn_of_live (keeps_of_runs h) _ S hS rfl)

/-- The root has finished when nothing is left of it. -/
theorem finished_of_quiet (h : (machine ws).Reach (fun m _ a => Runs P m a) initial s) (hops : s.ops = []) (hhandles : s.mem.handles = [])
    (hlive : s.mem.live = []) (hstarted : 0 < s.mem.nextCoro) : s.mem.finished 0 = true := by
  have htokens := (continued_of_reach sound_of_keeps (fun _ _ _ hok => hok.yields) (keeps_of_runs h)).tokens 0
  have hzero : tokensOf s.mem s.ops 0 = 0 := by simp [tokensOf, weigh, Mem.weigh, hops, hhandles, hlive]
  rw [hzero, Mem.unfinished, decide_eq_true hstarted, Bool.true_and] at htokens
  by_contra hf
  rw [Bool.eq_false_iff.mpr hf] at htokens
  cases htokens

end

/-- The trampoline refines direct evaluation. In every state of every run of a program without aborts, what the generators have been sent
and thrown, in order, is the beginning of what the direct evaluation of the root gives. The workers can go on as long as there is
something to do, and not forever; and when they have nothing left to do, and the events that are awaited have been set, the
generators have been sent and thrown what the direct evaluation gives, and the root has finished. -/
theorem trampoline_evaluates (ws : Nat → Waiter) (P : Program) (r : Result) (n : Nat) (l : List (Nat × Input)) (us : List Nat)
    (hE : Evaluates ws P 0 [.send .none] 1 r n l us) (hus : us.Nodup) (s : State Mem Op)
    (h : (machine ws).Reach (fun m _ a => Runs P m a) initial s) :
    s.mem.log <+: (0, .send .none) :: l ∧
    (s.ops ≠ [] ∨ s.mem.handles ≠ [] → ∃ a s', Works a ∧ Runs P s.mem a ∧ (machine ws).Step s a s') ∧
    (∀ run : Nat → State Mem Op, run 0 = s →
      ¬∀ i, ∃ a, Works a ∧ Runs P (run i).mem a ∧ (machine ws).Step (run i) a (run (i + 1))) ∧
    (0 < s.mem.nextCoro → s.ops = [] → s.mem.handles = [] →
      (∀ S ∈ s.mem.live, ∀ e ∈ s.mem.awaits S.cell, s.mem.flag e = true) →
      s.mem.log = (0, .send .none) :: l ∧ s.mem.finished 0 = true) := by
  have hsim := simulates_of_runs hE h
  refine ⟨?_, fun hne => ?_, fun run hrun hforever => ?_, fun hstarted hops hhandles hset => ?_⟩
  · cases hsim with
    | before hn hp hlog => rw [hlog]; exact List.nil_prefix
    | during d used L U hn hp hlog => rw [hlog]; exact List.prefix_append _ _
    | after hn hp hlog => rw [hlog]
  · rcases hne with hne | hne
    · obtain ⟨x, hx⟩ := List.exists_mem_of_ne_nil _ hne
      obtain ⟨op, c, s', hs, hruns⟩ := enabled_of_simulates h hsim hus hx
      exact ⟨.exec op c, s', trivial, hruns, hs⟩
    · obtain ⟨y, hs, hy⟩ := List.exists_cons_of_ne_nil hne
      have hc : call s.mem (.work 0) = some ({ s.mem with handles := hs }, [.run y]) := by simp [call, hy]
      exact ⟨.call (.work 0), _, trivial, trivial, .call hc⟩
  · -- what the workers do from here is part of a run of the program, and leaves less and less to be done
    have hstart : (machine ws).Reach (fun m _ a => Works a ∧ Runs P m a) s (run 0) := hrun ▸ .init
    refine Machine.not_forever (left ws ((0, .send .none) :: l) us) (fun t a t' ht hok hs => ?_) run hstart (fun i => ?_)
    · have hreach := h.trans (ht.mono (fun _ _ _ hok => hok.2))
      exact left_lt_of_works hreach (simulates_of_runs hE hreach) hus hok.1 hs
    · obtain ⟨a, hw, hr, hs⟩ := hforever i
      exact ⟨a, ⟨hw, hr⟩, hs⟩
  · have hlive := live_eq_nil_of_quiet h hops hhandles hset
    refine ⟨?_, finished_of_quiet h hops hhandles hlive hstarted⟩
    have hnone : places s.mem s.ops = [] := by simp [places, Mem.places, hops, hhandles, hlive]
    cases hsim with
    | before hn => omega
    | during d used L U hn hp => simp [hp] at hnone
    | after hn hp hlog => exact hlog

/-- The root calls a generator that yields a checkpoint, waits for an event and raises, and it catches what is raised. -/
def catching : Program
  | 0, [_] => .yieldGen
  | 1, [_] => .yieldWaiter 0
  | 1, [_, _] => .yieldWaiter 1
  | 1, _ => .raise (.other 7)
  | _, _ => .ret .none

theorem evaluates_catching :
    Evaluates checkpointFirst catching 0 [.send .none] 1 (.ret .none) 2
      [(1, .send .none), (1, .send .none), (1, .send .none), (0, .throw (.other 7))] [0, 1] := by
  have hchild : Evaluates checkpointFirst catching 1 [.send .none] 2 (.raise (.other 7)) 2 [(1, .send .none), (1, .send .none)] [0, 1] :=
    .wait 0 rfl (fun _ => Nat.one_ne_zero) (.wait 1 rfl (fun _ => Nat.one_ne_zero) (.ended (.raise (.other 7)) rfl))
  exact .call rfl hchild (.ended (.ret .none) rfl)

instance (P : Program) (m : Mem) (a : Act Op Choice Call) : Decidable (Runs P m a) := by
  unfold Runs
  induction a using Act.casesOn with
  | exec op c =>
    induction op using Op.casesOn with
    | run h => induction h using Handle.casesOn <;> induction c using Choice.casesOn <;> infer_instance
    | _ => infer_instance
  | call l => induction l using Call.casesOn <;> infer_instance

/-- A run of this program to its end. -/
theorem trampoline_evaluates_catching :
    ∃ s : State Mem Op, (machine checkpointFirst).Reach (fun m _ a => Runs catching m a) initial s ∧ [0, 1].Nodup ∧
      s.mem.log = [(0, .send .none), (1, .send .none), (1, .send .none), (1, .send .none), (0, .throw (.other 7))] ∧
      s.mem.finished 0 = true := by
  obtain ⟨s, hs, hp⟩ := Machine.exists_reach_of_run (machine checkpointFirst) (fun m _ a => Runs catching m a)
    (fun m _ a => decide (Runs catching m a)) (fun _ _ _ h => of_decide_eq_true h) initial
    (List.flatten [[.call (.spawn .gen none), .act 0 .go, .call (.work 0), .act 1 (.out .yieldGen), .act 1 .go, .call (.work 0),
        .act 2 (.out (.yieldWaiter 0))], List.replicate 5 (.act 2 .go),
      [.call (.work 0), .act 3 (.out (.yieldWaiter 1))], List.replicate 6 (.act 3 .go),
      .call (.set 0) :: List.replicate 8 (.act 4 .go),
      [.call (.work 0), .act 5 (.out (.raise (.other 7)))], List.replicate 3 (.act 5 .go),
      [.call (.work 0), .act 6 (.out (.ret .none))]])
    (fun s => decide (s.ops = []) && decide (s.mem.handles = []) && decide (s.mem.live = []) && decide (s.mem.nextCoro = 2)) (by decide)
  simp only [Bool.and_eq_true, decide_eq_true_eq] at hp
  obtain ⟨⟨⟨hops, hh⟩, hl⟩, hn⟩ := hp
  obtain ⟨-, -, -, hend⟩ := trampoline_evaluates _ _ _ _ _ _ evaluates_catching (by decide) s hs
  obtain ⟨hlog, hf⟩ := hend (by omega) hops hh (by simp [hl])
  exact ⟨s, hs, by decide, hlog, hf⟩

end Tonio.Runtime
