import Tonio.Interleaving.Machine

/-!
# Weights of pending operations

Most invariants of a protocol count: how many threads hold a mutex, own a resource, still owe a wake-up. `total f ops` adds up
a weight over the pending operations. A step changes one operation into others, so a total is followed through a run by
comparing the weight of the operation performed with the weights of what follows from it (`total_step`).
-/

namespace Interleaving

variable {O : Type*}

/-- The weight of a list of operations. -/
def total (f : O → Nat) (ops : List O) : Nat := (ops.map f).sum

@[simp] theorem total_nil (f : O → Nat) : total f [] = 0 := rfl

@[simp] theorem total_cons (f : O → Nat) (op : O) (ops : List O) : total f (op :: ops) = f op + total f ops := by
  simp [total]

@[simp] theorem total_append (f : O → Nat) (A B : List O) : total f (A ++ B) = total f A + total f B := by
  simp [total]

/-- An operation weighs no more than the list it stands in. -/
theorem le_total_of_mem {f : O → Nat} {op : O} {ops : List O} (h : op ∈ ops) : f op ≤ total f ops := by
  induction ops with
  | nil => cases h
  | cons x ops ih =>
    rw [total_cons]
    rcases List.mem_cons.mp h with rfl | h
    · omega
    · have := ih h
      omega

/-- A total is zero exactly when every weight is. -/
theorem total_eq_zero_iff {f : O → Nat} {ops : List O} : total f ops = 0 ↔ ∀ op ∈ ops, f op = 0 := by
  induction ops with
  | nil => simp
  | cons x ops ih =>
    rw [total_cons, List.forall_mem_cons, ← ih]
    omega

/-- A total is positive exactly when some weight is. -/
theorem total_pos_iff {f : O → Nat} {ops : List O} : 0 < total f ops ↔ ∃ op ∈ ops, 0 < f op := by
  rw [Nat.pos_iff_ne_zero, Ne, total_eq_zero_iff]
  push Not
  exact exists_congr (fun op => and_congr_right (fun _ => Nat.pos_iff_ne_zero.symm))

/-- Two weights that agree on a list have the same total. -/
theorem total_congr {f g : O → Nat} {ops : List O} (h : ∀ op ∈ ops, f op = g op) : total f ops = total g ops := by
  rw [total, total, List.map_congr_left h]

/-- A weight that is nowhere larger has no larger total. -/
theorem total_mono {f g : O → Nat} (h : ∀ op, f op ≤ g op) (ops : List O) : total f ops ≤ total g ops := by
  induction ops with
  | nil => exact Nat.le_refl 0
  | cons x ops ih =>
    rw [total_cons, total_cons]
    exact Nat.add_le_add (h x) ih

/-- Changing the weight of one element of a list that has it once. -/
theorem total_update {f g : O → Nat} {x : O} {ops : List O} (hn : ops.Nodup) (hx : x ∈ ops) (hne : ∀ y, y ≠ x → g y = f y) :
    total g ops + f x = total f ops + g x := by
  induction ops with
  | nil => cases hx
  | cons y ops ih =>
    obtain ⟨hy, hn⟩ := List.nodup_cons.mp hn
    rw [total_cons, total_cons]
    rcases List.mem_cons.mp hx with rfl | hx
    · rw [total_congr (fun z hz => hne z (fun h => hy (h ▸ hz)))]
      omega
    · rw [hne y (fun h => hy (h ▸ hx))]
      have := ih hn hx
      omega

/-- Taking out the element with a given key, of a list whose keys are distinct. -/
theorem total_filter_ne {K : Type*} [DecidableEq K] (key : O → K) (f : O → Nat) {x : O} {ops : List O}
    (hn : (ops.map key).Nodup) (hx : x ∈ ops) : total f (ops.filter (fun y => key y ≠ key x)) + f x = total f ops := by
  induction ops with
  | nil => cases hx
  | cons y ops ih =>
    obtain ⟨hy, hn⟩ := List.nodup_cons.mp hn
    rcases List.mem_cons.mp hx with rfl | hx
    · have hrest : ops.filter (fun z => key z ≠ key x) = ops := by
        refine List.filter_eq_self.mpr (fun z hz => decide_eq_true (fun h => hy ?_))
        exact h ▸ List.mem_map_of_mem hz
      rw [List.filter_cons_of_neg (by simp), hrest, total_cons, Nat.add_comm]
    · have hne : key y ≠ key x := fun h => hy (h ▸ List.mem_map_of_mem hx)
      rw [List.filter_cons_of_pos (by simpa using hne), total_cons, total_cons]
      have := ih hn hx
      omega

/-- Taking out the element at a place. -/
theorem total_eraseIdx (f : O → Nat) {x : O} {ops : List O} {i : Nat} (h : ops[i]? = some x) :
    total f (ops.eraseIdx i) + f x = total f ops := by
  induction ops generalizing i with
  | nil => simp at h
  | cons y ops ih =>
    cases i with
    | zero =>
      obtain rfl : y = x := by simpa using h
      simp [Nat.add_comm]
    | succ i =>
      have := ih (by simpa using h)
      simp only [List.eraseIdx_cons_succ, total_cons]
      omega

/-- A permutation weighs the same. -/
theorem total_perm (f : O → Nat) {A B : List O} (h : A.Perm B) : total f A = total f B := (h.map f).sum_nat

/-- The weight of a list of lists. -/
theorem total_flatMap {Q : Type*} (g : Q → Nat) (f : O → List Q) (xs : List O) :
    total g (xs.flatMap f) = total (fun x => total g (f x)) xs := by
  induction xs with
  | nil => rfl
  | cons x xs ih => rw [List.flatMap_cons, total_append, total_cons, ih]

/-- When a list weighs at most one operation that weighs one, nothing else in it weighs anything. -/
theorem eq_zero_of_total_le {f : O → Nat} {A B : List O} {op : O} (h : total f (A ++ op :: B) ≤ 1) (hop : f op = 1) :
    ∀ x ∈ A ++ B, f x = 0 := by
  rw [total_append, total_cons] at h
  have hA : total f A = 0 := by omega
  have hB : total f B = 0 := by omega
  intro x hx
  rcases List.mem_append.mp hx with hx | hx
  · exact total_eq_zero_iff.mp hA x hx
  · exact total_eq_zero_iff.mp hB x hx

/-- In a list that weighs at most one, two operations that weigh one are the same. -/
theorem eq_of_weight_le {f : O → Nat} {ops : List O} {x y : O} (h : total f ops ≤ 1) (hx : x ∈ ops) (hy : y ∈ ops) (hfx : f x = 1)
    (hfy : f y = 1) : x = y := by
  obtain ⟨A, B, rfl⟩ := List.append_of_mem hx
  by_contra hne
  have hzero : f y = 0 := by
    refine eq_zero_of_total_le h hfx y ?_
    simp only [List.mem_append, List.mem_cons] at hy ⊢
    rcases hy with hy | rfl | hy
    · exact Or.inl hy
    · exact absurd rfl hne
    · exact Or.inr hy
  rw [hfy] at hzero
  cases hzero

/-! ## Keys

An operation may belong to one of many places (a thread, a task, a resource); `isAt key k` weighs the operations of one place. -/

section

variable {K : Type*} [DecidableEq K]

/-- One if there is a key and it is the given one. -/
def isAt (o : Option K) (k : K) : Nat := if o = some k then 1 else 0

@[simp] theorem isAt_self (k : K) : isAt (some k) k = 1 := if_pos rfl

@[simp] theorem isAt_none (k : K) : isAt none k = 0 := rfl

theorem isAt_of_ne {o : Option K} {k : K} (h : o ≠ some k) : isAt o k = 0 := if_neg h

theorem isAt_some_of_ne {n k : K} (h : n ≠ k) : isAt (some n) k = 0 := isAt_of_ne (by simpa using h)

theorem isAt_le (o : Option K) (k : K) : isAt o k ≤ 1 := by
  unfold isAt
  split <;> decide

theorem isAt_pos {o : Option K} {k : K} : 0 < isAt o k ↔ o = some k := by
  unfold isAt
  split <;> simp_all

/-- The weight of a key counts it among the keys. -/
theorem total_isAt (key : O → Option K) (k : K) (ops : List O) :
    total (fun op => isAt (key op) k) ops = (ops.filterMap key).count k := by
  induction ops with
  | nil => rfl
  | cons x ops ih =>
    rw [total_cons, ih, List.filterMap_cons]
    cases hx : key x with
    | none => simp
    | some j =>
      by_cases hjk : j = k
      · subst hjk
        simp [Nat.add_comm]
      · simp [isAt_some_of_ne hjk, List.count_cons_of_ne hjk]

/-- Two lists that weigh the same, whatever is weighed, are permutations of each other. -/
theorem perm_of_total {xs ys : List O} (h : ∀ g : O → Nat, total g xs = total g ys) : xs.Perm ys := by
  classical
  refine List.perm_iff_count.mpr (fun x => ?_)
  have hx := h (fun y => isAt (some y) x)
  rw [total_isAt, total_isAt] at hx
  simpa using hx

/-- A key that weighs nothing belongs to no operation. -/
theorem key_ne_of_total_eq_zero {key : O → Option K} {k : K} {ops : List O} {x : O}
    (h : total (fun op => isAt (key op) k) ops = 0) (hx : x ∈ ops) : key x ≠ some k := by
  intro hk
  have := total_eq_zero_iff.mp h x hx
  rw [hk, isAt_self] at this
  cases this

/-- Next to an operation that has a key, and that weighs all there is, no operation has it. -/
theorem key_ne_of_total_le {key : O → Option K} {k : K} {A B : List O} {op x : O}
    (h : total (fun op => isAt (key op) k) (A ++ op :: B) ≤ 1) (hop : key op = some k) (hx : x ∈ A ++ B) : key x ≠ some k := by
  intro hk
  have := eq_zero_of_total_le h (by simp [hop]) x hx
  simp only [hk, isAt_self] at this
  cases this

/-- Two operations with a key that weighs at most one are the same. -/
theorem eq_of_total_le {key : O → Option K} {k : K} {ops : List O} {x y : O}
    (h : total (fun op => isAt (key op) k) ops ≤ 1) (hx : x ∈ ops) (hy : y ∈ ops) (hkx : key x = some k) (hky : key y = some k) :
    x = y :=
  eq_of_weight_le h hx hy (by simp [hkx]) (by simp [hky])

end

/-- The weight of what is pending after a step. -/
theorem total_step (f : O → Nat) (A B new : List O) (op : O) :
    total f (A ++ (new ++ B)) + f op = total f (A ++ op :: B) + total f new := by
  simp only [total_append, total_cons]
  omega

/-- The weight of what the pending operations carry, after a step. -/
theorem total_filterMap_step {Q : Type*} (w : Q → Nat) (f : O → Option Q) (A B new : List O) (op : O) :
    total w ((A ++ (new ++ B)).filterMap f) + total w (f op).toList = total w ((A ++ op :: B).filterMap f) + total w (new.filterMap f) := by
  simp only [List.filterMap_append, List.filterMap_cons, total_append]
  cases f op with
  | none =>
    simp only [Option.toList_none, total_nil]
    omega
  | some x =>
    simp only [Option.toList_some, total_cons, total_nil]
    omega

/-- What follows from an operation weighs as much as it: so does all that is pending. -/
theorem total_step_eq {f : O → Nat} (A B : List O) {new : List O} (op : O) (h : total f new = f op) :
    total f (A ++ (new ++ B)) = total f (A ++ op :: B) := by
  have := total_step f A B new op
  omega

end Interleaving
