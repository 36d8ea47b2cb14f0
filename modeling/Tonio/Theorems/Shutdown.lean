import Tonio.Lemmas.Shutdown

/-!
# No handle is lost at shutdown

A worker leaves its loop with an empty deque, wherever it leaves it: it has found its deque empty, and only its own thread pushes to it.
So when the last worker has left, what has not been run is in the injector, where the workers of the next run find it.
-/

namespace Tonio.Work

open Interleaving

variable {η : Type}

/-- All workers have left their loops. -/
def Left (s : State (Mem η × Log η) (Op η)) : Prop := ∀ op ∈ s.ops, op.worker = none

/-- A thread that is not a worker has no handle in its hands. -/
theorem hand_of_worker {op : Op η} (h : op.worker = none) : op.hand = none := by
  cases op with
  | loadCount who | casSpec who | incSpec who | wake who =>
    obtain rfl : who = none := by simpa [Op.worker] using h
    rfl
  | decCount | subSpec | unpark => rfl
  | _ => cases h

/-- A worker that has left its loop has an empty deque. -/
theorem Accounted.deque_of_left {n : Nat} {inj : List η} {m : Mem η × Log η} {ops : List (Op η)} (h : Accounted n inj m ops) {i : Nat}
    (hi : ∀ op ∈ ops, op.worker ≠ some i) : m.1.deque i = [] := by
  by_contra hd
  obtain ⟨op, hop, hw, -⟩ := h.stocked i hd
  exact hi op hop hw

/-- A worker that is about to leave its loop has an empty deque. -/
theorem Accounted.deque_of_exits {n : Nat} {inj : List η} {m : Mem η × Log η} {ops : List (Op η)} (h : Accounted n inj m ops) {op : Op η}
    (hop : op ∈ ops) {i : Nat} (hi : op.worker = some i) (hx : op.exits = true) : m.1.deque i = [] := by
  by_contra hd
  obtain ⟨y, hy, hw, hs⟩ := h.stocked i hd
  have hone : total (fun op : Op η => isAt op.worker i) ops ≤ 1 := h.one i
  obtain rfl : op = y := eq_of_total_le hone hop hy hi hw
  rw [Op.spent_of_exits hx] at hs
  cases hs

/-- When all workers have left, what was taken from the injector or pushed to a deque has been run. -/
theorem Accounted.perm_of_left {n : Nat} {inj : List η} {m : Mem η × Log η} {ops : List (Op η)} (h : Accounted n inj m ops)
    (hl : ∀ op ∈ ops, op.worker = none) : (m.2.taken ++ m.2.kept).Perm m.2.ran := by
  have hhands : ops.filterMap Op.hand = [] := List.filterMap_eq_nil_iff.mpr (fun op hop => hand_of_worker (hl op hop))
  refine perm_of_total (fun w => ?_)
  have hstock : stock n w m.1.deque = 0 := by
    refine total_eq_zero_iff.mpr (fun i _ => ?_)
    rw [h.deque_of_left (fun op hop => by simp [hl op hop]), total_nil]
  have hb := h.balance w
  rw [hhands, hstock, total_nil] at hb
  rw [total_append]
  omega

/-- When all of at least one worker have left, the handles the run started with have been taken, in their order. -/
theorem taken_of_left {n : Nat} {inj : List η} {s : State (Mem η × Log η) (Op η)}
    (h : (recorded n).Reach (fun _ _ _ => True) (start n inj) s) (hn : 0 < n) (hl : Left s) : inj <+: s.mem.2.taken := by
  have hA : Accounted n inj s.mem s.ops := Accounted.reach h
  have hle : inj.length ≤ s.mem.2.taken.length := by
    by_contra hlt
    obtain ⟨op, hop, hw⟩ := (Fresh.reach h (by omega)).here 0 hn
    rw [hl op hop] at hw
    cases hw
  have htaken : s.mem.2.taken <+: inj ++ s.mem.2.queued := ⟨s.mem.1.injector, hA.fifo.symm⟩
  exact List.prefix_of_prefix_length_le (List.prefix_append inj s.mem.2.queued) htaken hle

/-- No handle is lost at shutdown, for any number of workers and any handles in the injector at the start, in every state of every run of
them, of any number of producers and of `stop_threads`.
1. The deque of a worker that has left its loop is empty.
2. It is empty already where the worker may leave, at each of the three places.
3. When all workers have left, the handles ever pushed are those that have been run, each as often as it was pushed, and those that are
   still in the injector.
4. A following run finds those there, with what is pushed in between: until it has taken them, each of its workers looks for a handle or
   runs one, and none parks or leaves.
5. So when the workers of the following run have all left, it has run them. -/
theorem no_handle_lost (n : Nat) (inj : List η) (s : State (Mem η × Log η) (Op η))
    (h : (recorded n).Reach (fun _ _ _ => True) (start n inj) s) :
    (∀ i, (∀ op ∈ s.ops, op.worker ≠ some i) → s.mem.1.deque i = []) ∧
    (∀ op ∈ s.ops, ∀ i, op.worker = some i → op.exits = true → s.mem.1.deque i = []) ∧
    (Left s → (inj ++ s.mem.2.queued ++ s.mem.2.kept).Perm (s.mem.2.ran ++ s.mem.1.injector)) ∧
    ∀ n' between s', (recorded n').Reach (fun _ _ _ => True) (start n' (s.mem.1.injector ++ between)) s' →
      (s'.mem.2.taken.length < (s.mem.1.injector ++ between).length → ∀ i < n', ∃ op ∈ s'.ops, op.worker = some i ∧ op.fresh = true) ∧
      (0 < n' → Left s' → ∃ later, s'.mem.2.ran.Perm (s.mem.1.injector ++ between ++ later)) := by
  have hA : Accounted n inj s.mem s.ops := Accounted.reach h
  refine ⟨fun i hi => hA.deque_of_left hi, fun op hop i hi hx => hA.deque_of_exits hop hi hx, fun hl => ?_, fun n' between s' h' => ⟨?_, ?_⟩⟩
  · have hran := hA.perm_of_left hl
    have hpushed : inj ++ s.mem.2.queued ++ s.mem.2.kept = s.mem.2.taken ++ (s.mem.1.injector ++ s.mem.2.kept) := by
      rw [hA.fifo, List.append_assoc]
    have hswap : (s.mem.2.taken ++ (s.mem.1.injector ++ s.mem.2.kept)).Perm (s.mem.2.taken ++ s.mem.2.kept ++ s.mem.1.injector) := by
      rw [List.append_assoc]
      exact List.perm_append_comm.append_left _
    exact hpushed ▸ hswap.trans (hran.append_right _)
  · intro hlt i hi
    have hF := Fresh.reach h' hlt
    obtain ⟨op, hop, hw⟩ := hF.here i hi
    exact ⟨op, hop, hw, hF.fresh op hop⟩
  · intro hn' hl'
    obtain ⟨rest, hrest⟩ := taken_of_left h' hn' hl'
    refine ⟨rest ++ s'.mem.2.kept, ?_⟩
    have hran := (Accounted.reach h').perm_of_left hl'
    rw [← hrest, List.append_assoc] at hran
    exact hran.symm

/-- A worker takes the handle it starts with, pushes one to its deque and runs both; a handle that is pushed when it has looked for work for
the last time stays in the injector, and a following run runs it. -/
theorem no_handle_lost_one :
    ∃ s s' : State (Mem Nat × Log Nat) (Op Nat), (recorded 1).Reach (fun _ _ _ => True) (start 1 [5]) s ∧ Left s ∧
      s.mem.1.injector = [7] ∧ s.mem.1.deque 0 = [] ∧ ([5] ++ [7] ++ [6]).Perm (s.mem.2.ran ++ [7]) ∧
      (recorded 2).Reach (fun _ _ _ => True) (start 2 [7]) s' ∧ Left s' ∧ ∃ later, s'.mem.2.ran.Perm ([7] ++ later) := by
  obtain ⟨s, hs, hp⟩ := Machine.exists_reach_of_run (recorded 1) (fun _ _ _ => True) (fun _ _ _ => true)
    (fun _ _ _ _ => trivial) (start (η := Nat) 1 [5])
    (List.flatten [[.act 0 .go, .act 0 .go, .act 0 (.add 6)], List.replicate 8 (.act 0 .go), [.call .stop, .call (.add 7), .act 0 .go]])
    (fun s => s.ops.all (fun op => op.worker.isNone) && decide (s.mem.1.injector = [7]) && decide (s.mem.2.queued = [7]) &&
      decide (s.mem.2.kept = [6])) (by decide)
  obtain ⟨s', hs', hp'⟩ := Machine.exists_reach_of_run (recorded 2) (fun _ _ _ => True) (fun _ _ _ => true)
    (fun _ _ _ _ => trivial) (start (η := Nat) 2 [7])
    (List.flatten [[.call .stop], List.replicate 9 (.act 0 .go), List.replicate 6 (.act 1 .go)])
    (fun s => s.ops.all (fun op => op.worker.isNone)) (by decide)
  simp only [Bool.and_eq_true, List.all_eq_true, Option.isNone_iff_eq_none, decide_eq_true_eq] at hp hp'
  obtain ⟨⟨⟨hl, hi⟩, hq⟩, hk⟩ := hp
  obtain ⟨hd, -, hpushed, hnext⟩ := no_handle_lost 1 [5] s hs
  have hrun := (hnext 2 [] s' (by rw [hi]; exact hs')).2 (by decide) hp'
  have hperm := hpushed hl
  rw [hi] at hrun
  rw [hi, hq, hk] at hperm
  exact ⟨s, s', hs, hl, hi, hd 0 (fun op hop => by simp [hl op hop]), hperm, hs', hp', hrun⟩

end Tonio.Work
