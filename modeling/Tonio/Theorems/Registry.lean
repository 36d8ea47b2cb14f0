import Tonio.Lemmas.Registry

/-!
# Dispatched tokens

A token that `poll` follows is the address of an entry that is still there.
-/

namespace Tonio.Registry

open Interleaving

/-- Every token of the batch that is being dispatched denotes an entry that has not been released, in every state of every run of the
loop and of any number of threads that register (with or without success), deregister and drop entries: the entry is registered, or
was taken out by an `io_deregister` in progress, or is parked; so it has references, and its address is not given to another
entry. -/
theorem dispatched_tokens_unreleased (s : State Mem Op) (h : machine.Reach (fun _ _ _ => True) initial s) (batch : List Nat)
    (hb : Op.dispatch batch ∈ s.ops) : ∀ t ∈ batch, Unreleased s.mem s.ops t ∧ 0 < s.mem.strong t := by
  have hI := inv_of_reach h
  intro t ht
  cases hs : s.mem.stopped with
  | false =>
    have hun := (hI.sound hs).batch batch hb t ht
    exact ⟨hun, (counted_of_reach h).strong_pos hun⟩
  | true =>
    have := hI.ended hs _ hb Nat.one_pos
    cases this

/-- An entry is registered and its token collected; before the token is dispatched the entry is deregistered and parked, and the
object that had it is gone. -/
theorem dispatched_tokens_unreleased_closed :
    ∃ s, machine.Reach (fun _ _ _ => True) initial s ∧ Op.dispatch [7] ∈ s.ops ∧ 7 ∉ s.mem.regs ∧ s.mem.held 7 = 0 ∧
      Unreleased s.mem s.ops 7 ∧ 0 < s.mem.strong 7 := by
  obtain ⟨s, hs, hp⟩ := Machine.exists_reach_of_run machine (fun _ _ _ => True) (fun _ _ _ => true)
    (fun _ _ _ _ => trivial) initial
    [.call (.register 7), .act 1 .go, .act 1 .go, .act 0 .go, .act 0 (.batch [7]), .call (.deregister 7), .act 2 .go, .act 2 .go,
      .act 2 .go, .act 2 .go, .act 2 .go, .call (.drop 7)]
    (fun s => decide (Op.dispatch [7] ∈ s.ops) && decide (7 ∉ s.mem.regs) && decide (s.mem.held 7 = 0)) (by decide)
  simp only [Bool.and_eq_true, decide_eq_true_eq] at hp
  exact ⟨s, hs, hp.1.1, hp.1.2, hp.2, dispatched_tokens_unreleased s hs [7] hp.1.1 7 (by simp)⟩

end Tonio.Registry
