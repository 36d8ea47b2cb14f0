import Mathlib

/-!
# FIFO mutexes with tickets

A task that wants the mutex takes the next ticket and queues it; the task whose ticket is at the head of the queue may go on, and takes its
ticket off when it releases the mutex; a task that waits may leave. Where every ticket of the queue belongs to one task that waits with it
or, at the head, to the one that holds the mutex (`Ticketed`), at most one task holds it. The rules say that each of these moves keeps this,
whatever else the tasks do.
-/

namespace Interleaving

/-- The tickets and the tasks: `waits k` tasks wait with ticket `k`, and `holds` tasks hold the mutex. -/
structure Ticketed (queue : List Nat) (next : Nat) (waits : Nat → Nat) (holds : Nat) : Prop where
  nodup : queue.Nodup
  fresh : ∀ k ∈ queue, k < next
  count : ∀ k, waits k + (if queue.head? = some k then holds else 0) = if k ∈ queue then 1 else 0
  free : queue = [] → holds = 0

namespace Ticketed

variable {queue : List Nat} {next : Nat} {waits waits' : Nat → Nat} {holds : Nat}

/-- Nobody has asked for the mutex. -/
theorem nil (next : Nat) (hw : ∀ k, waits k = 0) : Ticketed [] next waits 0 :=
  ⟨List.nodup_nil, fun k hk => absurd hk List.not_mem_nil, fun k => by simp [hw k], fun _ => rfl⟩

/-- A ticket that is not queued is not at the head. -/
theorem ite_head {k n : Nat} (hk : k ∉ queue) : (if queue.head? = some k then n else 0) = 0 :=
  if_neg (fun hq => hk (List.mem_of_mem_head? hq))

/-- At most one task holds the mutex. -/
theorem holds_le (h : Ticketed queue next waits holds) : holds ≤ 1 := by
  cases queue with
  | nil =>
    rw [h.free rfl]
    exact Nat.zero_le 1
  | cons k queue =>
    have hk := h.count k
    rw [List.head?_cons, if_pos rfl, if_pos List.mem_cons_self] at hk
    omega

/-- Tickets may be given out for something else. -/
theorem mono {next' : Nat} (h : Ticketed queue next waits holds) (hn : next ≤ next') : Ticketed queue next' waits holds :=
  ⟨h.nodup, fun k hk => Nat.lt_of_lt_of_le (h.fresh k hk) hn, h.count, h.free⟩

/-- A task takes a ticket. -/
theorem acquire (h : Ticketed queue next waits holds) (hw : waits' next = waits next + 1) (hne : ∀ k, k ≠ next → waits' k = waits k) :
    Ticketed (queue ++ [next]) (next + 1) waits' holds := by
  have hfresh : next ∉ queue := fun hk => Nat.lt_irrefl _ (h.fresh next hk)
  have hhead : ∀ k, k ∈ queue → ((queue ++ [next]).head? = some k ↔ queue.head? = some k) := by
    intro k hk
    cases queue with
    | nil => cases hk
    | cons j queue => rfl
  refine ⟨?_, ?_, ?_, ?_⟩
  · exact List.nodup_append.mpr ⟨h.nodup, List.nodup_singleton next, by simpa using fun k hk (hkn : k = next) => hfresh (hkn ▸ hk)⟩
  · intro k hk
    rcases List.mem_append.mp hk with hk | hk
    · exact Nat.lt_succ_of_lt (h.fresh k hk)
    · rw [List.mem_singleton.mp hk]
      exact Nat.lt_succ_self next
  · intro k
    have hk := h.count k
    by_cases hkn : k = next
    · subst hkn
      rw [if_neg hfresh] at hk
      have hheads : (if (queue ++ [k]).head? = some k then holds else 0) = 0 := by
        cases queue with
        | nil => rw [h.free rfl, ite_self]
        | cons j queue =>
          have hj : (j :: queue ++ [k]).head? ≠ some k := fun hj => hfresh (List.mem_of_mem_head? hj)
          rw [if_neg hj]
      rw [hheads, hw, if_pos (List.mem_append_right queue (List.mem_singleton_self k))]
      omega
    · rw [hne k hkn]
      by_cases hkq : k ∈ queue
      · rw [if_pos (List.mem_append_left [next] hkq)]
        rw [if_pos hkq] at hk
        simpa only [hhead k hkq] using hk
      · have hk' : k ∉ queue ++ [next] := by simp [hkq, hkn]
        rw [if_neg hkq, ite_head hkq] at hk
        rw [if_neg hk', ite_head hk', hk]
  · intro hq
    simp at hq

/-- The task at the head of the queue gets the mutex. -/
theorem grant {k : Nat} (h : Ticketed queue next waits holds) (hq : queue.head? = some k) (hw : waits' k + 1 = waits k)
    (hne : ∀ j, j ≠ k → waits' j = waits j) : Ticketed queue next waits' (holds + 1) := by
  have hmem : k ∈ queue := List.mem_of_mem_head? hq
  have hk := h.count k
  rw [if_pos hq, if_pos hmem] at hk
  refine ⟨h.nodup, h.fresh, ?_, ?_⟩
  · intro j
    by_cases hjk : j = k
    · subst hjk
      rw [if_pos hq, if_pos hmem]
      omega
    · have hj := h.count j
      have hqj : ¬queue.head? = some j := fun hq' => hjk (Option.some.inj (hq'.symm.trans hq))
      rw [if_neg hqj] at hj ⊢
      rw [hne j hjk, hj]
  · rintro rfl
    cases hmem

/-- The head of a queue from which another ticket is taken out. -/
theorem head?_filter_ne {k : Nat} (hk : queue.head? ≠ some k) : (queue.filter (· ≠ k)).head? = queue.head? := by
  cases queue with
  | nil => rfl
  | cons i queue =>
    have hik : i ≠ k := fun hik => hk (congrArg some hik)
    rw [List.filter_cons_of_pos (by simpa using hik)]
    rfl

/-- A task that waits leaves the queue. -/
theorem cancel {k : Nat} (h : Ticketed queue next waits holds) (hw : waits' k + 1 = waits k)
    (hne : ∀ j, j ≠ k → waits' j = waits j) : Ticketed (queue.filter (· ≠ k)) next waits' holds := by
  have hk := h.count k
  have hmem : k ∈ queue := by
    by_contra hk'
    rw [if_neg hk'] at hk
    omega
  rw [if_pos hmem] at hk
  -- a mutex that is held is held by another task
  have hhead : holds = 0 ∨ (queue.filter (· ≠ k)).head? = queue.head? := by
    by_cases hq : queue.head? = some k
    · rw [if_pos hq] at hk
      exact Or.inl (by omega)
    · exact Or.inr (head?_filter_ne hq)
  have hhold : ∀ j, (if (queue.filter (· ≠ k)).head? = some j then holds else 0) = if queue.head? = some j then holds else 0 := by
    intro j
    rcases hhead with hz | hq
    · rw [hz, ite_self, ite_self]
    · rw [hq]
  refine ⟨h.nodup.filter _, fun j hj => h.fresh j (List.mem_of_mem_filter hj), fun j => ?_, fun hq => ?_⟩
  · rw [hhold j]
    by_cases hjk : j = k
    · subst hjk
      have hnot : j ∉ queue.filter (· ≠ j) := by simp
      rw [if_neg hnot]
      omega
    · have hiff : j ∈ queue.filter (· ≠ k) ↔ j ∈ queue := by simp [hjk]
      rw [hne j hjk, h.count j]
      simp only [hiff]
  · rcases hhead with hz | hq'
    · exact hz
    · rw [hq, List.head?_nil] at hq'
      exact h.free (List.head?_eq_none_iff.mp hq'.symm)

/-- The task that holds the mutex releases it. -/
theorem release (h : Ticketed queue next waits (holds + 1)) : Ticketed queue.tail next waits holds := by
  have hle := h.holds_le
  obtain rfl : holds = 0 := by omega
  cases queue with
  | nil => cases h.free rfl
  | cons k queue =>
    obtain ⟨hkq, hnd⟩ := List.nodup_cons.mp h.nodup
    refine ⟨hnd, fun j hj => h.fresh j (List.mem_cons_of_mem k hj), ?_, fun _ => rfl⟩
    intro j
    have hj := h.count j
    rw [ite_self, Nat.add_zero, List.tail_cons]
    by_cases hjk : j = k
    · subst hjk
      rw [List.head?_cons, if_pos rfl, if_pos List.mem_cons_self] at hj
      rw [if_neg hkq]
      omega
    · have hne : ¬(k :: queue).head? = some j := fun hq => hjk (Option.some.inj hq).symm
      rw [if_neg hne] at hj
      rw [← Nat.add_zero (waits j), hj]
      simp [hjk]

end Ticketed

end Interleaving
