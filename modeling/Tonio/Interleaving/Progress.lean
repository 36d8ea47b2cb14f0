import Tonio.Interleaving.Weight

/-!
# Threads that go on

What shows that the threads of a machine do not block each other and come to an end. A thread that holds a lock performs only operations
that take none on top of it (`LockNested`), so the one on top can always be performed. And a measure that every step makes smaller leaves no
room for a run without an end (`not_forever`).
-/

namespace Interleaving

variable {M O C L : Type*}

/-! ## Locks -/

/-- On top of an operation that holds a lock stand only operations that take none. -/
def LockNested (free under : O → Bool) (t : List O) : Prop := t.Pairwise (fun x y => under y = true → free x = true)

variable {P : Machine M O C L} {ok : M → List O → Act O C L → Prop} {s₀ s : State M O} {free under : O → Bool}

/-- The nesting rule: threads are nested in every state of a run if what follows from an operation is nested, and takes no lock if the
operation takes none. -/
theorem Machine.Reach.nested (h : P.Reach ok s₀ s) (h₀ : ∀ t ∈ s₀.pool, LockNested free under t)
    (hfree : ∀ m op c m' new, P.exec m op c = some (m', new) → free op = true → ∀ x ∈ new, free x = true)
    (hexec : ∀ m op c m' new, P.exec m op c = some (m', new) → LockNested free under new)
    (hcall : ∀ m l m' new, P.call m l = some (m', new) → LockNested free under new) : ∀ t ∈ s.pool, LockNested free under t := by
  refine h.invariant_pool (I := fun _ pool => ∀ t ∈ pool, LockNested free under t) h₀ ?_ ?_
  · intro m pool i op rest c m' new ih hi he t ht
    have hold : LockNested free under (op :: rest) := ih _ (List.mem_of_getElem? hi)
    rcases List.mem_or_eq_of_mem_set ht with ht | rfl
    · exact ih t ht
    · rw [LockNested, List.pairwise_cons] at hold
      refine List.pairwise_append.mpr ⟨hexec m op c m' new he, hold.2, fun x hx y hy hu => ?_⟩
      exact hfree m op c m' new he (hold.1 y hy hu) x hx
  · intro m pool l m' new ih hc t ht
    rcases List.mem_append.mp ht with ht | ht
    · exact ih t ht
    · rw [List.mem_singleton.mp ht]
      exact hcall m l m' new hc

/-- The operation on top of a thread that holds a lock holds one or takes none. -/
theorem LockNested.top {op x : O} {rest : List O} (h : LockNested free under (op :: rest)) (hx : x ∈ op :: rest) (hu : under x = true) :
    under op = true ∨ free op = true := by
  rcases List.mem_cons.mp hx with rfl | hx
  · exact Or.inl hu
  · exact Or.inr ((List.pairwise_cons.mp h).1 x hx hu)

/-- A thread that has something to do. -/
theorem State.exists_thread {x : O} (hx : x ∈ s.ops) : ∃ (i : Nat) (op : O) (rest : List O), s.pool[i]? = some (op :: rest) ∧ x ∈ op :: rest := by
  obtain ⟨t, ht, hxt⟩ := List.mem_flatten.mp hx
  obtain ⟨i, hi⟩ := List.mem_iff_getElem?.mp ht
  cases t with
  | nil => cases hxt
  | cons op rest => exact ⟨i, op, rest, hi, hxt⟩

/-! ## Measures -/

/-- A run whose steps all make a measure smaller ends. -/
theorem Machine.not_forever (μ : M → List O → Nat)
    (hμ : ∀ s a s', P.Reach ok s₀ s → ok s.mem s.ops a → P.Step s a s' → μ s'.mem s'.ops < μ s.mem s.ops) (run : Nat → State M O)
    (h₀ : P.Reach ok s₀ (run 0)) : ¬∀ i, ∃ a, ok (run i).mem (run i).ops a ∧ P.Step (run i) a (run (i + 1)) := by
  intro hrun
  have hr : ∀ i, P.Reach ok s₀ (run i) := by
    intro i
    induction i with
    | zero => exact h₀
    | succ i ih =>
      obtain ⟨a, hok, hs⟩ := hrun i
      exact .step ih hok hs
  have hle : ∀ i, μ (run i).mem (run i).ops + i ≤ μ (run 0).mem (run 0).ops := by
    intro i
    induction i with
    | zero => exact Nat.le_refl _
    | succ i ih =>
      obtain ⟨a, hok, hs⟩ := hrun i
      have := hμ _ _ _ (hr i) hok hs
      omega
  have := hle (μ (run 0).mem (run 0).ops + 1)
  omega

/-- A goal is reached from every state of a run if, short of it, some step makes a measure smaller. -/
theorem Machine.exists_reach_of_measure (μ : State M O → Nat) {goal : State M O → Prop}
    (hstep : ∀ s, P.Reach ok s₀ s → ¬goal s → ∃ a s', ok s.mem s.ops a ∧ P.Step s a s' ∧ μ s' < μ s) (h : P.Reach ok s₀ s) :
    ∃ s', P.Reach ok s s' ∧ goal s' := by
  induction hn : μ s using Nat.strong_induction_on generalizing s with
  | h n ih =>
    by_cases hg : goal s
    · exact ⟨s, .init, hg⟩
    · obtain ⟨a, s₁, hok, hs, hlt⟩ := hstep s h hg
      obtain ⟨s', hr, hg'⟩ := ih (μ s₁) (hn ▸ hlt) (.step h hok hs) rfl
      exact ⟨s', (Machine.Reach.step .init hok hs).trans hr, hg'⟩

/-! ## Threads of one operation -/

/-- Threads stay as short as what operations and calls lead to. -/
theorem Machine.Reach.short (h : P.Reach ok s₀ s) (h₀ : ∀ t ∈ s₀.pool, t.length ≤ 1)
    (hexec : ∀ m op c m' new, P.exec m op c = some (m', new) → new.length ≤ 1)
    (hcall : ∀ m l m' new, P.call m l = some (m', new) → new.length ≤ 1) : ∀ t ∈ s.pool, t.length ≤ 1 := by
  refine h.invariant_pool (I := fun _ pool => ∀ t ∈ pool, t.length ≤ 1) h₀ ?_ ?_
  · intro m pool i op rest c m' new ih hi he t ht
    rcases List.mem_or_eq_of_mem_set ht with ht | rfl
    · exact ih t ht
    · have hrest := ih _ (List.mem_of_getElem? hi)
      have hnew := hexec m op c m' new he
      simp only [List.length_cons] at hrest
      rw [List.length_append]
      omega
  · intro m pool l m' new ih hc t ht
    rcases List.mem_append.mp ht with ht | ht
    · exact ih t ht
    · rw [List.mem_singleton.mp ht]
      exact hcall m l m' new hc

/-- Where threads have one operation at most, every pending operation is next. -/
theorem State.next_of_short (h : ∀ t ∈ s.pool, t.length ≤ 1) {x : O} (hx : x ∈ s.ops) : ∃ i : Nat, s.pool[i]? = some [x] := by
  obtain ⟨i, op, rest, hi, hmem⟩ := s.exists_thread hx
  have hlen := h _ (List.mem_of_getElem? hi)
  obtain rfl : rest = [] := List.eq_nil_of_length_eq_zero (by simp only [List.length_cons] at hlen; omega)
  exact ⟨i, by rw [hi, List.mem_singleton.mp hmem]⟩

/-- An enabled operation of such a thread is performed, and what is pending changes its weight by that of the operations. -/
theorem Machine.exists_step (h : ∀ t ∈ s.pool, t.length ≤ 1) {op : O} (hx : op ∈ s.ops) {c : C} {m' : M} {new : List O}
    (he : P.exec s.mem op c = some (m', new)) :
    ∃ s', P.Step s (.exec op c) s' ∧ s'.mem = m' ∧ ∀ w : O → Nat, total w s'.ops + w op = total w s.ops + total w new := by
  obtain ⟨i, hi⟩ := State.next_of_short h hx
  obtain ⟨A, B, hold, hnew⟩ := Machine.flatten_set s.pool i [op] hi
  refine ⟨_, .exec hi he, rfl, fun w => ?_⟩
  rw [State.ops, State.ops, hold, hnew]
  simp only [List.append_nil, total_append, total_cons, total_nil]
  omega

/-- The sum of a function that is changed in one place. -/
theorem finsum_update {K : Type*} [DecidableEq K] {f : K → Nat} (hf : f.support.Finite) (k : K) (v : Nat) :
    (∑ᶠ x, Function.update f k v x) + f k = (∑ᶠ x, f x) + v := by
  have hsub : f.support ⊆ ↑(insert k hf.toFinset) := by
    intro x hx
    exact Finset.mem_insert_of_mem (hf.mem_toFinset.mpr hx)
  have hsub' : (Function.update f k v).support ⊆ ↑(insert k hf.toFinset) := by
    intro x hx
    by_cases hxk : x = k
    · simp [hxk]
    · rw [Function.mem_support, Function.update_of_ne hxk] at hx
      exact hsub hx
  rw [finsum_eq_sum_of_support_subset f hsub, finsum_eq_sum_of_support_subset _ hsub',
    Finset.sum_update_of_mem (Finset.mem_insert_self k _), Finset.sum_eq_sum_sdiff_singleton_add (Finset.mem_insert_self k _) f]
  omega

end Interleaving
