import Tonio.Contexts
import Tonio.Theorems.Lock
import Tonio.Theorems.Semaphore

/-!
# The blocks of a lock exclude each other

What is granted is owned by the context that is made of it, until it is entered, and then by the task that has entered it: a context that is shared,
entered again, or lost gives nobody a second way in. What the tasks and the contexts do to the lock is what the tasks of `Tonio.Sync` do, with an
owner for each context (`soup_of_reach`), so the balance of what is free and what is owned carries over.
-/

namespace Tonio.Contexts

open Interleaving Sync

variable {K : Type} {P : Prim K}

/-! ## The balance, whatever the threads -/

section Soup

variable {m : Sync.Mem K} {xs ys ops : List Sync.Op} {n : Nat} {units : K → Nat} {fits : Sync.Mem K → Prop} {v : K}

theorem inv_perm (hp : xs.Perm ys) (h : Inv m xs) : Inv m ys where
  mutex := total_perm critical hp ▸ h.mutex
  waiting e := total_perm (waits e) hp ▸ h.waiting e
  alive e he := total_perm (waits e) hp ▸ h.alive e he
  fresh e he := total_perm (waits e) hp ▸ h.fresh e he
  queued e he := (h.queued e he).imp_right hp.mem_iff.mp
  bounded := h.bounded
  sorted := h.sorted
  popped e he := h.popped e (hp.mem_iff.mpr he)
  putting he := h.putting (hp.mem_iff.mpr he)

/-- The balance does not depend on the threads. -/
theorem balanced_of_soup (hP : Measured P (units v) units fits)
    (h : P.machine.Soup (fun m _ _ => fits m) (Sync.initial v).mem (Sync.initial v).ops m ops) : Balanced (units v) units m ops := by
  refine h.invariant (I := Balanced (units v) units) ?_ (Balanced.initial units v) ?_ ?_
  · intro m xs ys hp hxs
    exact ⟨inv_perm hp hxs.toInv, total_perm (owns m.flag) hp ▸ hxs.balance⟩
  · exact fun m A op B c m' new hI hfit he => hI.exec hP hfit he
  · exact fun m ops l m' new hI _ hc => hI.call hc

end Soup

/-! ## The part of the lock -/

variable {m m' : Mem K} {A B new ops : List Op} {op : Op} {c : Choice}

/-- The operation of a task of `Tonio.Sync`. -/
def Op.part : Op → Option Sync.Op
  | .prim o => some o
  | .new | .body => some .owner
  | .enter _ => none

/-- The operations of the tasks, with an owner for each context that can be entered. -/
def part (m : Mem K) (ops : List Op) : List Sync.Op := ops.filterMap Op.part ++ List.replicate m.unentered.length .owner

theorem part_lift (ops : List Sync.Op) : (ops.map lift).filterMap Op.part = ops := by
  induction ops with
  | nil => rfl
  | cons o ops ih => cases o <;> simp [lift, Op.part, ih]

/-- A context that is made can be entered. -/
theorem unentered_made (hc : m.consumed m.made = false) : ({ m with made := m.made + 1 } : Mem K).unentered.length = m.unentered.length + 1 := by
  simp [Mem.unentered, List.range_succ, hc]

/-- A context that is entered cannot be entered again. -/
theorem unentered_entered {i : Nat} (hi : i < m.made) (hc : m.consumed i = false) :
    ({ m with consumed := Function.update m.consumed i true } : Mem K).unentered.length + 1 = m.unentered.length := by
  have hmem : i ∈ m.unentered := by simp [Mem.unentered, hi, hc]
  have hnodup : m.unentered.Nodup := List.nodup_range.filter _
  have herase : ({ m with consumed := Function.update m.consumed i true } : Mem K).unentered = m.unentered.erase i := by
    rw [hnodup.erase_eq_filter, Mem.unentered, Mem.unentered, List.filter_filter]
    refine List.filter_congr (fun j _ => ?_)
    by_cases hj : j = i <;> simp [hj]
  rw [herase, List.length_erase_of_mem hmem]
  have := List.length_pos_of_mem hmem
  omega

/-- What is kept: the contexts that have been entered, and those about to be, have been made. -/
structure Made (m : Mem K) (ops : List Op) : Prop where
  consumed : ∀ c, m.consumed c = true → c < m.made
  enter : ∀ c, .enter c ∈ ops → c < m.made

variable {fits : Sync.Mem K → Prop} {v : K}

/-- What the tasks and the contexts do, the tasks of `Tonio.Sync` do. -/
structure Follows (P : Prim K) (fits : Sync.Mem K → Prop) (v : K) (m : Mem K) (ops : List Op) : Prop extends Made m ops where
  soup : P.machine.Soup (fun m _ _ => fits m) (Sync.initial v).mem (Sync.initial v).ops m.prim (part m ops)

theorem part_cons {o : Sync.Op} (hop : op.part = some o) :
    part m (A ++ op :: B) = A.filterMap Op.part ++ o :: (B.filterMap Op.part ++ List.replicate m.unentered.length .owner) := by
  rw [part, List.filterMap_append, List.filterMap_cons_some hop, List.append_assoc, List.cons_append]

theorem part_step : part m (A ++ (new ++ B)) =
    A.filterMap Op.part ++ (new.filterMap Op.part ++ (B.filterMap Op.part ++ List.replicate m.unentered.length .owner)) := by
  simp [part]

theorem Follows.exec (h : Follows P fits v m (A ++ op :: B)) (hfit : fits m.prim) (he : Contexts.exec P m op c = some (m', new)) :
    Follows P fits v m' (A ++ (new ++ B)) := by
  have hsoup := h.soup
  cases op with
  | prim o =>
    obtain ⟨r, hr, hm⟩ := Option.map_eq_some_iff.mp he
    obtain ⟨rfl, rfl⟩ := Prod.mk.inj hm
    refine ⟨⟨h.consumed, fun i hi => ?_⟩, ?_⟩
    · rcases Machine.mem_cases (.prim o) hi with hi | hi
      · obtain ⟨x, -, hx⟩ := List.mem_map.mp hi
        cases x <;> cases hx
      · exact h.enter i hi
    · rw [part_cons rfl] at hsoup
      rw [part_step, part_lift]
      exact .exec hsoup hfit hr
  | new =>
    cases c <;> simp only [Contexts.exec, Option.some.injEq, Prod.mk.injEq, reduceCtorEq] at he
    obtain ⟨rfl, rfl⟩ := he
    have hfresh : m.consumed m.made = false := Bool.eq_false_iff.mpr (fun hc => Nat.lt_irrefl _ (h.consumed _ hc))
    refine ⟨⟨fun i hi => Nat.lt_succ_of_lt (h.consumed i hi), fun i hi => Nat.lt_succ_of_lt (h.enter i (Machine.mem_before _ hi))⟩, ?_⟩
    rw [part_cons rfl] at hsoup
    refine hsoup.perm ?_
    rw [part_step, unentered_made hfresh, List.replicate_succ]
    exact (List.perm_middle.symm).append_left _
  | enter i =>
    cases c <;> simp only [Contexts.exec, Option.some.injEq, reduceCtorEq] at he
    have hi : i < m.made := h.enter i (by simp)
    have hsame : part m (A ++ Op.enter i :: B) = part m (A ++ ([] ++ B)) := by
      rw [part, part, List.filterMap_append, List.filterMap_append, List.filterMap_cons_none rfl, List.nil_append]
    split at he <;> obtain ⟨rfl, rfl⟩ := Prod.mk.inj he
    · exact ⟨⟨h.consumed, fun j hj => h.enter j (Machine.mem_before _ hj)⟩, hsame ▸ hsoup⟩
    · rename_i hc
      rw [Bool.not_eq_true] at hc
      refine ⟨⟨fun j hj => ?_, fun j hj => h.enter j ?_⟩, ?_⟩
      · by_cases hji : j = i
        · exact hji ▸ hi
        · simp only [Function.update_of_ne hji] at hj
          exact h.consumed j hj
      · rcases Machine.mem_beside hj with hj | hj
        · cases List.mem_singleton.mp hj
        · exact Machine.mem_before _ hj
      · rw [hsame, part_step, ← unentered_entered hi hc, List.replicate_succ] at hsoup
        refine hsoup.perm ?_
        rw [part_step]
        exact (List.perm_middle).append_left _
  | body =>
    cases c <;> simp only [Contexts.exec, Option.some.injEq, Prod.mk.injEq, reduceCtorEq] at he
    obtain ⟨rfl, rfl⟩ := he
    refine ⟨⟨h.consumed, fun i hi => h.enter i ?_⟩, ?_⟩
    · rcases Machine.mem_cases .body hi with hi | hi
      · cases List.mem_singleton.mp hi
      · exact hi
    · rw [part_cons rfl] at hsoup
      rw [part_step]
      exact .exec (c := .go) hsoup hfit rfl

theorem Follows.call {l : Call} (h : Follows P fits v m ops) (hfit : fits m.prim) (hc : Contexts.call m l = some (m', new)) :
    Follows P fits v m' (ops ++ new) := by
  cases l with
  | prim l =>
    obtain ⟨r, hr, hm⟩ := Option.map_eq_some_iff.mp hc
    obtain ⟨rfl, rfl⟩ := Prod.mk.inj hm
    refine ⟨⟨h.consumed, fun i hi => ?_⟩, ?_⟩
    · rcases List.mem_append.mp hi with hi | hi
      · exact h.enter i hi
      · obtain ⟨x, -, hx⟩ := List.mem_map.mp hi
        cases x <;> cases hx
    · refine (Machine.Soup.call h.soup hfit hr).perm ?_
      rw [part, part, List.filterMap_append, part_lift, List.append_assoc, List.append_assoc]
      exact List.perm_append_comm.append_left _
  | enter i =>
    simp only [Contexts.call] at hc
    split at hc
    · rename_i hi
      obtain ⟨rfl, rfl⟩ := Prod.mk.inj (Option.some.inj hc)
      refine ⟨⟨h.consumed, fun j hj => ?_⟩, ?_⟩
      · rcases List.mem_append.mp hj with hj | hj
        · exact h.enter j hj
        · cases List.mem_singleton.mp hj
          exact hi
      · have hsame : part m (ops ++ [Op.enter i]) = part m ops := by simp [part, Op.part]
        exact hsame ▸ h.soup
    · cases hc

/-- What the tasks and the contexts around a primitive do. -/
theorem follows_of_reach {s : State (Mem K) Op} (h : (machine P).Reach (fun m _ _ => fits m.prim) (initial v) s) :
    Follows P fits v s.mem s.ops := by
  refine h.invariant (I := Follows P fits v) ?_ ?_ ?_
  · exact ⟨⟨by simp [initial], by simp [initial, State.ops]⟩, .init⟩
  · exact fun m A op B c m' new hI hfit he => hI.exec hfit he
  · exact fun m ops l m' new hI hfit hc => hI.call hfit hc

/-- What is free, the contexts that can be entered and the tasks in a block are no more than there was. -/
theorem units_add_bodies_le {n : Nat} {units : K → Nat} (hP : Measured P n units fits) (hn : units v = n) {s : State (Mem K) Op}
    (h : (machine P).Reach (fun m _ _ => fits m.prim) (initial v) s) :
    units s.mem.prim.val + s.mem.unentered.length + bodies s.ops ≤ n := by
  subst hn
  have hbalance := (balanced_of_soup hP (follows_of_reach h).soup).balance
  have howners : total (owns s.mem.prim.flag) (List.replicate s.mem.unentered.length Sync.Op.owner) = s.mem.unentered.length := by
    simp [total, owns]
  have hbodies : ∀ ops : List Op, bodies ops ≤ total (owns s.mem.prim.flag) (ops.filterMap Op.part) := by
    intro ops
    induction ops with
    | nil => exact Nat.le_refl 0
    | cons op ops ih =>
      unfold bodies at ih ⊢
      cases op <;> simp only [List.count_cons, List.filterMap_cons, Op.part, total_cons, owns, beq_self_eq_true, reduceCtorEq, beq_iff_eq,
        if_true, if_false] <;> omega
  have := hbodies s.ops
  rw [part, total_append, howners] at hbalance
  omega

/-- The `with` blocks of a lock, and those of a semaphore of `n` permits in every run in which fewer than `2 ^ 31` events are queued: whatever the
tasks do with their contexts, at most one task is in a block of the lock, and at most `n` are in a block of the semaphore; and while a task is, or a
context can be entered, the lock is taken, and the semaphore has as many permits less. -/
theorem blocks_are_exclusive (n : Nat) (hn : n < 2 ^ 64) :
    (∀ s, (machine lock).Reach (fun _ _ _ => True) (initial false) s →
      bodies s.ops + s.mem.unentered.length ≤ 1 ∧ (0 < bodies s.ops + s.mem.unentered.length → s.mem.prim.val = true)) ∧
    (∀ s, (machine semaphore).Reach (fun m _ _ => Fits m.prim) (initial n) s →
      s.mem.prim.val + s.mem.unentered.length + bodies s.ops ≤ n) := by
  refine ⟨fun s h => ?_, fun s h => ?_⟩
  · have hle := units_add_bodies_le lock_measured rfl h
    refine ⟨by omega, fun hpos => ?_⟩
    cases hv : s.mem.prim.val with
    | true => rfl
    | false =>
      rw [hv] at hle
      simp only [Bool.not_false, Bool.toNat_true] at hle
      omega
  · exact units_add_bodies_le (semaphore_measured hn) rfl h

/-- A task is in a block of a lock, another one has tried to enter its context, and a third waits for the lock. -/
theorem blocks_are_exclusive_three :
    ∃ s, (machine lock).Reach (fun _ _ _ => True) (initial false) s ∧ bodies s.ops = 1 ∧ s.mem.prim.waiters = [0] ∧ s.pool.length = 4 ∧
      s.mem.unentered.length = 0 ∧ s.mem.prim.val = true := by
  obtain ⟨s, hs, hp⟩ := Machine.exists_reach_of_run (machine lock) (fun _ _ _ => True) (fun _ _ _ => true) (fun _ _ _ _ => trivial)
    (initial false)
    (List.flatten [[.call (.prim .acquire), .act 0 .go, .act 0 .go, .call (.enter 0), .call (.enter 0), .act 1 .go, .act 2 .go,
      .call (.prim .acquire)], List.replicate 4 (.act 3 .go)])
    (fun s => decide (bodies s.ops = 1) && decide (s.mem.prim.waiters = [0]) && decide (s.pool.length = 4)) (by decide)
  simp only [Bool.and_eq_true, decide_eq_true_eq] at hp
  have hblocks := (blocks_are_exclusive 0 (by decide)).1 s hs
  have hone := hp.1.1
  exact ⟨s, hs, hone, hp.1.2, hp.2, by omega, hblocks.2 (by omega)⟩

end Tonio.Contexts
