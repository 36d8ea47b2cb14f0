import Tonio.Lemmas.AsCompleted

/-!
# The order of `as_completed`

A wrapper pops the slot of its coroutine after that has returned, in a step of its own, and the wrapper of one that ended later may pop
first. And the wrapper has no `try`: when the coroutine raises, no slot is popped, and as many items as coroutines raised are never
filled.
-/

namespace Tonio.AsCompleted

open Interleaving
open Ctl (Flavour Exc Outcome)

variable {α : Type}

instance [DecidableEq α] (m : Mem α) (a : Act (Op α) (Choice α) Call) : Decidable (Orderly m a) := by
  unfold Orderly
  split <;> infer_instance

/-- The `k`-th to pop a slot is the `k`-th to end. -/
theorem Filled.finished {n : Nat} {m : Mem α} {ops : List (Op α)} (h : Filled n m ops) {k i : Nat} {v : α}
    (hk : m.popped[k]? = some (i, v)) : m.finished[k]? = some (i, .ret v) := by
  have hlt : k < m.popped.length := (List.getElem?_eq_some_iff.mp hk).1
  rw [← List.getElem?_take_of_lt hlt, ← h.popped, List.getElem?_map, hk]
  rfl

/-- `as_completed` yields every outcome in completion order, for both flavours and any number of coroutines: in every run in which no
coroutine raises and no wrapper pops its slot before that of a coroutine that ended earlier, the item in place `k` is filled by the
coroutine that was the `k`-th to end, with what it returned; an item that is awaited is delivered once or still awaited, unless its wait
is cancelled, and what is delivered is what the coroutine in its place returned; when all coroutines have ended and their wrappers are
through, the events of all items are set; and from every state on this can be reached. -/
theorem as_completed_in_order [Inhabited α] (fl : Flavour) (n : Nat) (s : State (Mem α) (Op α))
    (h : (machine fl n).Reach (fun m _ a => Orderly m a) (initial n) s) :
    (∀ k v, s.mem.slot k = some v → ∃ i, s.mem.finished[k]? = some (i, .ret v)) ∧
    (∀ k, (s.mem.delivered.map Prod.fst).count k + s.mem.cancelled.count k + total (Op.loads k) s.ops =
      if k ∈ s.mem.awaited then 1 else 0) ∧
    (∀ p ∈ s.mem.delivered, ∃ i v, s.mem.finished[p.1]? = some (i, .ret v) ∧ p.2 = some v) ∧
    (s.mem.finished.length = n → (∀ x ∈ s.ops, x.fills = false) → ∀ k < n, s.mem.event k = true) ∧
    ∃ s', (machine fl n).Reach (fun m _ a => Orderly m a) s s' ∧ ∀ k < n, s'.mem.event k = true := by
  have hF : Filled n s.mem s.ops := Filled.reach h
  refine ⟨fun k v hk => ?_, (Asked.reach h).loads, fun p hp => ?_, fun hn hx k hk => ?_, ?_⟩
  · obtain ⟨i, hi⟩ := hF.slots k v hk
    exact ⟨i, hF.finished hi⟩
  · obtain ⟨i, v, hi, hv⟩ := hF.delivered p hp
    exact ⟨i, v, hF.finished hi, hv⟩
  · have hpops : s.ops.filterMap Op.pops = [] := by
      refine List.filterMap_eq_nil_iff.mpr (fun x hxs => ?_)
      have hf := hx x hxs
      cases x <;> first | rfl | cases hf
    have hdrop : s.mem.finished.drop s.mem.popped.length = [] := by
      have hperm := hF.pops
      rw [hpops] at hperm
      exact List.nil_perm.mp hperm
    rw [List.drop_eq_nil_iff, hn] at hdrop
    exact hF.all_set hdrop (fun j v hj => by cases hx _ hj) (fun j hj => by cases hx _ hj) k hk
  · exact Machine.exists_reach_of_measure (fun s => left n s.mem s.ops) (fun s hs hg => exists_less hs hg) h

/-- Two coroutines, the second of which ends first. -/
theorem as_completed_in_order_two :
    ∃ s : State (Mem Nat) (Op Nat), (machine .colored 2).Reach (fun m _ a => Orderly m a) (initial 2) s ∧
      s.mem.finished = [(1, .ret 8), (0, .ret 7)] ∧ s.mem.delivered = [(0, some 8), (1, some 7)] ∧ (∀ k < 2, s.mem.event k = true) ∧
      ∀ p ∈ s.mem.delivered, ∃ i v, s.mem.finished[p.1]? = some (i, .ret v) ∧ p.2 = some v := by
  obtain ⟨s, hs, hp⟩ := Machine.exists_reach_of_run (machine .colored 2) (fun m _ a => Orderly m a) (fun m _ a => decide (Orderly m a))
    (fun _ _ _ h => of_decide_eq_true h) (initial (α := Nat) 2)
    (List.flatten [[.call .next], List.replicate 3 (.act 0 .go), [.call (.begin 0), .call (.begin 1), .act 2 (.finish (.ret 8))],
      [.act 1 (.finish (.ret 7))], List.replicate 3 (.act 2 .go), List.replicate 3 (.act 1 .go), List.replicate 2 (.act 0 .go),
      [.call .next], List.replicate 3 (.act 3 .go)])
    (fun (s : State (Mem Nat) (Op Nat)) => decide (s.mem.finished = [(1, .ret 8), (0, .ret 7)]) &&
      decide (s.mem.delivered = [(0, some 8), (1, some 7)]) && decide (s.ops = [])) (by decide)
  simp only [Bool.and_eq_true, decide_eq_true_eq] at hp
  obtain ⟨-, -, hd, he, -⟩ := as_completed_in_order .colored 2 s hs
  have hset : ∀ k < 2, s.mem.event k = true := he (by rw [hp.1.1]; rfl) (by rw [hp.2]; exact List.forall_mem_nil _)
  exact ⟨s, hs, hp.1.1, hp.1.2, hset, hd⟩

/-- In both flavours: the first of two coroutines raises and the second returns, and the consumer waits for the second item, with nothing
left that could fill it. And the wrapper of the second of two coroutines pops before that of the first, which ended before. -/
theorem as_completed_out_of_order :
    (∃ s : Flavour → State (Mem Nat) (Op Nat), ∀ fl, (machine fl 2).Reach (fun _ _ _ => True) (initial 2) (s fl) ∧
      (s fl).mem.finished = [(0, .exc (.exception 3)), (1, .ret 8)] ∧ (s fl).mem.delivered = [(0, some 8)] ∧ (s fl).ops = [.wait 1] ∧
      (s fl).mem.event 1 = false) ∧
    ∃ s : Flavour → State (Mem Nat) (Op Nat), ∀ fl, (machine fl 2).Reach (fun _ _ _ => True) (initial 2) (s fl) ∧
      (s fl).mem.finished = [(0, .ret 7), (1, .ret 8)] ∧ (s fl).mem.slot 0 = some 8 ∧ (s fl).mem.slot 1 = some 7 := by
  have hrun : ∀ (fl : Flavour) (ls : List (Label (Choice Nat) Call)) (p : State (Mem Nat) (Op Nat) → Prop) [DecidablePred p],
      ((machine fl 2).run (fun _ _ _ => true) (initial 2) ls).any (fun s => decide (p s)) = true →
      ∃ s : State (Mem Nat) (Op Nat), (machine fl 2).Reach (fun _ _ _ => True) (initial 2) s ∧ p s := by
    intro fl ls p _ h
    obtain ⟨s, hs, hp⟩ := Machine.exists_reach_of_run (machine fl 2) (fun _ _ _ => True) (fun _ _ _ => true)
      (fun _ _ _ _ => trivial) _ ls _ h
    exact ⟨s, hs, of_decide_eq_true hp⟩
  constructor
  · have hex : ∀ fl, ∃ s : State (Mem Nat) (Op Nat), (machine fl 2).Reach (fun _ _ _ => True) (initial 2) s ∧
        s.mem.finished = [(0, .exc (.exception 3)), (1, .ret 8)] ∧ s.mem.delivered = [(0, some 8)] ∧ s.ops = [.wait 1] ∧
        s.mem.event 1 = false := by
      intro fl
      cases fl with
      | gen =>
        exact hrun .gen (List.flatten [[.call .next], List.replicate 3 (.act 0 .go), [.call (.begin 0), .call (.begin 1)],
          [.act 1 (.finish (.exc (.exception 3))), .act 2 (.finish (.ret 8))], List.replicate 3 (.act 2 .go),
          [.call (.load 0), .act 3 .go, .act 3 .go, .call .next, .act 4 .go, .call (.load 1)]]) _ (by decide)
      | colored =>
        exact hrun .colored (List.flatten [[.call .next], List.replicate 3 (.act 0 .go), [.call (.begin 0), .call (.begin 1)],
          [.act 1 (.finish (.exc (.exception 3))), .act 2 (.finish (.ret 8))], List.replicate 3 (.act 2 .go),
          [.act 0 .go, .act 0 .go, .call .next, .act 3 .go]]) _ (by decide)
    choose s hs using hex
    exact ⟨s, hs⟩
  · choose s hs using fun fl => hrun fl
      (List.flatten [[.call .next], List.replicate 2 (.act 0 .go), [.call (.begin 0), .call (.begin 1)],
        [.act 1 (.finish (.ret 7)), .act 2 (.finish (.ret 8))], List.replicate 2 (.act 2 .go), List.replicate 2 (.act 1 .go)])
      (fun s => s.mem.finished = [(0, .ret 7), (1, .ret 8)] ∧ s.mem.slot 0 = some 8 ∧ s.mem.slot 1 = some 7) (by cases fl <;> decide)
    exact ⟨s, hs⟩

end Tonio.AsCompleted
