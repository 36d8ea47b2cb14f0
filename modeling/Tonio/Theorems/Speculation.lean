import Tonio.Lemmas.Speculation

/-!
# The speculation tokens are conserved

`unpark_one` and `unpark` make a token each, and it is retired by whoever has it last: the producer that finds no raised flag, the worker that
finds work although its flag was claimed, or the worker that has speculated. A token lost would throttle the wake-ups for good, and one
retired twice would wrap the counter.
-/

namespace Tonio.Work

open Interleaving

variable {η : Type}

/-- The tokens by where they are. -/
theorem total_due (flag : Nat → Bool) (ops : List (Op η)) :
    total (due flag) ops = total offering ops + (total (unaware flag) ops + total aware ops) + total speculating ops := by
  induction ops with
  | nil => rfl
  | cons op ops ih =>
    simp only [total_cons, ih, due]
    omega

/-- An operation before the workers are stopped does not take a token that is not there. -/
theorem speculation_nonneg {n : Nat} {s : State (Mem η × (Nat → Bool)) (Op η)}
    (h : (watched n).Reach (fun _ _ _ => True) (watchedStart n) s) (hs : s.mem.1.stopping = false) {op : Op η} (hop : op ∈ s.ops)
    {c : Choice η} {m' : Mem η} {new : List (Op η)} (he : exec n s.mem.1 op c = some (m', new)) : 0 ≤ m'.speculation := by
  have hT : Tokens (s.mem.1, s.mem.2) s.ops := Tokens.reach h hs
  have hS : Sited n s.mem.1 s.ops := Sited.reach h.unrecorded hs
  obtain ⟨A, B, hops⟩ := List.append_of_mem hop
  rw [hops] at hT hS
  by_cases hc : ∀ k, ¬Claims n s.mem.1 k op
  · have hcount := (hT.step hS hs he hc).counter
    simp only at hcount
    omega
  · push Not at hc
    obtain ⟨k, hk, hf, who, rfl⟩ := hc
    cases c <;> simp only [exec, hk, hf, if_true, Option.some.injEq, Prod.mk.injEq, reduceCtorEq] at he
    obtain ⟨rfl, rfl⟩ := he
    have hcount : (s.mem.1.setFlag k false).speculation = _ := (hT.claim hS hk hf).counter
    omega

/-- The speculation tokens are conserved, for any number of workers and producers and in every state before `work_stopping` is set, of every
run.
1. The counter is the number of producers that have counted a token and neither claimed a flag nor given the token back, of workers whose
   flag was claimed and which have neither absorbed the token nor begun to speculate, and of workers that speculate and whose decrement
   is due.
2. No operation takes it below zero.
3. A worker's `clear_idle` returns false, and it absorbs the token or takes it with it, exactly when a producer has claimed its flag
   since it raised it: when it found a handle in its second scan, when it found one in its last look at the injector, and after `park`.
4. `idle_count` is the number of raised flags, with the increments and decrements of the operations in flight. -/
theorem speculation_conserved (n : Nat) (s : State (Mem η × (Nat → Bool)) (Op η))
    (h : (watched n).Reach (fun _ _ _ => True) (watchedStart n) s) (hs : s.mem.1.stopping = false) :
    s.mem.1.speculation =
      total offering s.ops + (total (unaware s.mem.1.flag) s.ops + total aware s.ops) + total speculating s.ops ∧
    (∀ op ∈ s.ops, ∀ c m' new, exec n s.mem.1 op c = some (m', new) → 0 ≤ m'.speculation) ∧
    (∀ i m' new,
      (∀ sp x, .found i sp x ∈ s.ops → exec n s.mem.1 (.found i sp x) .go = some (m', new) → (.subSpec ∈ new ↔ s.mem.2 i = true)) ∧
      (∀ x, .finalFound i x ∈ s.ops → exec n s.mem.1 (.finalFound i x) .go = some (m', new) → (.subSpec ∈ new ↔ s.mem.2 i = true)) ∧
      (.clearWake i ∈ s.ops → exec n s.mem.1 (.clearWake i) .go = some (m', new) → (.stop3 i true ∈ new ↔ s.mem.2 i = true))) ∧
    s.mem.1.idleCount + total raising s.ops = raised n s.mem.1.flag + total lowering s.ops := by
  have hT : Tokens s.mem s.ops := Tokens.reach h hs
  have hS : Sited n s.mem.1 s.ops := Sited.reach h.unrecorded hs
  refine ⟨?_, fun op hop c m' new he => speculation_nonneg h hs hop he, fun i m' new => ⟨?_, ?_, ?_⟩, hS.count⟩
  · rw [hT.counter, total_due]
    push_cast
    rfl
  · intro sp x hop he
    have hflag := hT.cycle _ hop i rfl rfl
    simp only [exec, Mem.clearIdle, hflag, Option.some.injEq] at he
    cases hg : s.mem.2 i <;> simp only [hg] at he <;> obtain ⟨-, rfl⟩ := Prod.mk.inj he <;> cases sp <;> simp [settle]
  · intro x hop he
    have hflag := hT.cycle _ hop i rfl rfl
    simp only [exec, Mem.clearIdle, hflag, Option.some.injEq] at he
    cases hg : s.mem.2 i <;> simp only [hg] at he <;> obtain ⟨-, rfl⟩ := Prod.mk.inj he <;> simp
  · intro hop he
    have hflag := hT.cycle _ hop i rfl rfl
    simp only [exec, Mem.clearIdle, hflag, Option.some.injEq] at he
    cases hg : s.mem.2 i <;> simp only [hg] at he <;> obtain ⟨-, rfl⟩ := Prod.mk.inj he <;> simp

/-- One worker raises its flag, is claimed during its second scan, and finds the handle by itself: it has the token, and absorbs it. -/
theorem speculation_conserved_one :
    ∃ s : State (Mem Nat × (Nat → Bool)) (Op Nat), (watched 1).Reach (fun _ _ _ => True) (watchedStart 1) s ∧
      Op.found 0 false 1 ∈ s.ops ∧ s.mem.1.speculation = 1 ∧
      ∀ m' new, exec 1 s.mem.1 (.found 0 false 1) .go = some (m', new) → .subSpec ∈ new := by
  obtain ⟨s, hs, hp⟩ := Machine.exists_reach_of_run (watched 1) (fun _ _ _ => True) (fun _ _ _ => true)
    (fun _ _ _ _ => trivial) (watchedStart (η := Nat) 1)
    (List.flatten [List.replicate 8 (.act 0 .go), [.call (.add 1), .act 1 .go, .act 1 .go, .act 1 .go, .act 0 .go]])
    (fun s => decide (Op.found 0 false 1 ∈ s.ops) && s.mem.2 0 && !s.mem.1.stopping && decide (total offering s.ops = 0) &&
      decide (total (unaware s.mem.1.flag) s.ops = 1) && decide (total aware s.ops = 0) && decide (total speculating s.ops = 0)) (by decide)
  simp only [Bool.and_eq_true, decide_eq_true_eq, Bool.not_eq_true'] at hp
  obtain ⟨⟨⟨⟨⟨⟨hfound, hclaimed⟩, hstop⟩, h1⟩, h2⟩, h3⟩, h4⟩ := hp
  obtain ⟨hcount, -, hclear, -⟩ := speculation_conserved 1 s hs hstop
  refine ⟨s, hs, hfound, ?_, fun m' new he => ((hclear 0 m' new).1 false 1 hfound he).mpr hclaimed⟩
  rw [hcount, h1, h2, h3, h4]
  rfl

end Tonio.Work
