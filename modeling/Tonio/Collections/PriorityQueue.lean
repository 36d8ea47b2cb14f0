import Mathlib

/-!
# Priority queues

A priority queue over a total preorder holds its elements in any order; what it promises is that `peek` gives a greatest element and
that `pop` takes a greatest element out. Which one of several greatest elements that is it does not promise, so `popAt` takes the place of
the element as an argument, and is defined at the places of greatest elements only.
-/

namespace Collections

variable {α : Type*} (cmp : α → α → Ordering)

/-- Nothing in the queue is greater. -/
def isGreatest (queue : List α) (x : α) : Bool := queue.all (fun y => (cmp y x).isLE)

/-- A greatest element. -/
def peek (queue : List α) : Option α := queue.find? (isGreatest cmp queue)

/-- Take out the element at a place, if it is a greatest one. -/
def popAt (queue : List α) (i : Nat) : Option (α × List α) :=
  queue[i]?.bind (fun x => if isGreatest cmp queue x then some (x, queue.eraseIdx i) else none)

variable {cmp} {queue rest : List α} {x : α} {i : Nat}

theorem isGreatest_iff : isGreatest cmp queue x = true ↔ ∀ y ∈ queue, (cmp y x).isLE := by
  simp [isGreatest]

/-- A queue that is not empty has a greatest element. -/
theorem exists_isGreatest (cmp : α → α → Ordering) [Std.TransCmp cmp] (h : queue ≠ []) : ∃ x ∈ queue, isGreatest cmp queue x = true := by
  induction queue with
  | nil => exact absurd rfl h
  | cons a queue ih =>
    cases queue with
    | nil => exact ⟨a, List.mem_singleton_self a, by simp [isGreatest, Std.ReflCmp.compare_self]⟩
    | cons b queue =>
      obtain ⟨x, hx, hg⟩ := ih (List.cons_ne_nil _ _)
      rw [isGreatest_iff] at hg
      -- the greater one of the new element and the greatest one so far
      by_cases hax : (cmp a x).isLE
      · refine ⟨x, List.mem_cons_of_mem _ hx, isGreatest_iff.mpr ?_⟩
        exact List.forall_mem_cons.mpr ⟨hax, hg⟩
      · have hxa : (cmp x a).isLE := by
          rw [@Std.OrientedCmp.eq_swap _ cmp _ x a, Ordering.isLE_swap]
          cases hc : cmp a x <;> simp_all
        refine ⟨a, List.mem_cons_self, isGreatest_iff.mpr ?_⟩
        refine List.forall_mem_cons.mpr ⟨by simp [Std.ReflCmp.compare_self], fun y hy => ?_⟩
        exact Std.TransCmp.isLE_trans (hg y hy) hxa

theorem peek_eq_some (h : peek cmp queue = some x) : x ∈ queue ∧ ∀ y ∈ queue, (cmp y x).isLE :=
  ⟨List.mem_of_find?_eq_some h, isGreatest_iff.mp (List.find?_some h)⟩

theorem peek_eq_none [Std.TransCmp cmp] (h : peek cmp queue = none) : queue = [] := by
  by_contra hne
  obtain ⟨x, hx, hg⟩ := exists_isGreatest cmp hne
  exact List.find?_eq_none.mp h x hx hg

theorem popAt_eq_some (h : popAt cmp queue i = some (x, rest)) :
    queue[i]? = some x ∧ rest = queue.eraseIdx i ∧ ∀ y ∈ queue, (cmp y x).isLE := by
  obtain ⟨y, hy, hif⟩ := Option.bind_eq_some_iff.mp h
  split at hif
  · rename_i hg
    obtain ⟨rfl, rfl⟩ := Prod.mk.inj (Option.some.inj hif)
    exact ⟨hy, rfl, isGreatest_iff.mp hg⟩
  · cases hif

/-- Popping takes the element out. -/
theorem perm_of_popAt (h : popAt cmp queue i = some (x, rest)) : queue.Perm (x :: rest) := by
  obtain ⟨hi, rfl, -⟩ := popAt_eq_some h
  obtain ⟨hlt, rfl⟩ := List.getElem?_eq_some_iff.mp hi
  exact (List.getElem_cons_eraseIdx_perm hlt).symm

/-- A queue that is not empty can be popped somewhere. -/
theorem exists_popAt (cmp : α → α → Ordering) [Std.TransCmp cmp] (h : queue ≠ []) : ∃ i x rest, popAt cmp queue i = some (x, rest) := by
  obtain ⟨x, hx, hg⟩ := exists_isGreatest cmp h
  obtain ⟨i, hi⟩ := List.mem_iff_getElem?.mp hx
  exact ⟨i, x, queue.eraseIdx i, by simp [popAt, hi, hg]⟩

end Collections
