import Tonio.Interval

/-!
# Intervals are neither early nor in bursts

The deadlines of an interval obey a recurrence that only takes a maximum and adds the period, so each of them is the latest of what the polls before it
ask for (`isGreatest_of_recurrence`).
-/

namespace Tonio.Interval

/-! ## The recurrence -/

section

variable {α : Type*} [AddCommGroup α] [LinearOrder α] [IsOrderedAddMonoid α] {x a : Nat → α} {c : α}

/-- What every step bounds from below and then moves on by a constant is the greatest of what began it and of the bounds, each moved on by as many
steps as there have been since. -/
theorem isGreatest_of_recurrence (h : ∀ k, x (k + 1) = max (a k) (x k) + c) (k : Nat) :
    IsGreatest (insert (x 0 + k • c) {y | ∃ j < k, y = a j + (k - j) • c}) (x k) := by
  induction k with
  | zero =>
    refine ⟨Or.inl (by simp), ?_⟩
    rintro y (rfl | ⟨j, hj, -⟩)
    · simp
    · exact absurd hj (Nat.not_lt_zero j)
  | succ k ih =>
    obtain ⟨hmem, hle⟩ := ih
    have hmove : ∀ j, j ≤ k → (k + 1 - j) • c = (k - j) • c + c := by
      intro j hj
      rw [Nat.succ_sub hj, succ_nsmul]
    rw [h k]
    refine ⟨?_, ?_⟩
    · rcases max_choice (a k) (x k) with hmax | hmax
      · refine Or.inr ⟨k, Nat.lt_succ_self k, ?_⟩
        rw [hmax, hmove k (Nat.le_refl k), Nat.sub_self, zero_nsmul, zero_add]
      · rw [hmax]
        rcases hmem with hx | ⟨j, hj, hx⟩
        · refine Or.inl ?_
          rw [hx, succ_nsmul, add_assoc]
        · refine Or.inr ⟨j, Nat.lt_succ_of_lt hj, ?_⟩
          rw [hx, hmove j (Nat.le_of_lt hj), add_assoc]
    · rintro y (rfl | ⟨j, hj, rfl⟩)
      · rw [succ_nsmul, ← add_assoc]
        exact add_le_add_left ((hle (Or.inl rfl)).trans (le_max_right _ _)) c
      · rw [hmove j (Nat.lt_succ_iff.mp hj), ← add_assoc]
        refine add_le_add_left ?_ c
        rcases Nat.lt_succ_iff_lt_or_eq.mp hj with hj | rfl
        · exact (hle (Or.inr ⟨j, hj, rfl⟩)).trans (le_max_right _ _)
        · rw [Nat.sub_self, zero_nsmul, add_zero]
          exact le_max_left _ _

end

/-! ## The deadlines -/

variable {i : Interval} {ticks : Nat → Tick}

theorem poll_eq (i : Interval) (now : Int) : i.poll now = (⟨max now i.deadline + i.len, i.len⟩, max now i.deadline - now) := by
  unfold poll
  split
  · rename_i h
    rw [max_eq_left h, sub_self]
  · rename_i h
    rw [max_eq_right (by omega)]

theorem before_len (k : Nat) : (before i ticks k).len = i.len := by
  induction k with
  | zero => rfl
  | succ k ih =>
    change ((before i ticks k).poll (ticks k).now).1.len = i.len
    rw [poll_eq]
    exact ih

theorem before_deadline (k : Nat) :
    (before i ticks (k + 1)).deadline = max (ticks k).now (before i ticks k).deadline + i.len := by
  change ((before i ticks k).poll (ticks k).now).1.deadline = _
  rw [poll_eq, before_len]

/-- While no poll is late, each deadline is a period after the one before. -/
theorem deadline_of_no_late {k : Nat} (h : ∀ j < k, (ticks j).now ≤ (before i ticks j).deadline) :
    (before i ticks k).deadline = i.deadline + k * i.len := by
  induction k with
  | zero => simp [before]
  | succ k ih =>
    rw [before_deadline, max_eq_right (h k (Nat.lt_succ_self k)), ih fun j hj => h j (Nat.lt_succ_of_lt hj)]
    push_cast
    ring

/-- An interval, whatever the clock reads at its polls and however late its timers fire: no tick ends before its deadline, and that is the latest of
what the first deadline and the polls before ask for, one period for each tick since. So a tick ends as many periods after a poll as there are ticks
from one to the other, or later; and while no poll is late the deadlines are those of the first one, with no drift. -/
theorem interval_keeps_time (h : ∀ k, (ticks k).Waits (before i ticks k)) (k : Nat) :
    (before i ticks k).deadline ≤ (ticks k).fired ∧
      IsGreatest (insert (i.deadline + k • (i.len : Int)) {y | ∃ j < k, y = (ticks j).now + (k - j) • (i.len : Int)}) (before i ticks k).deadline ∧
      (∀ j ≤ k, (ticks j).now + (k - j : Nat) * i.len ≤ (ticks k).fired) ∧
      ((∀ j < k, (ticks j).now ≤ (before i ticks j).deadline) → (before i ticks k).deadline = i.deadline + k * i.len) := by
  have hgreatest := isGreatest_of_recurrence (x := fun k => (before i ticks k).deadline) (a := fun k => (ticks k).now) (c := (i.len : Int))
    before_deadline k
  have hfired : max (ticks k).now (before i ticks k).deadline ≤ (ticks k).fired := by
    have hregistered := (h k).registered
    have hdelay := (h k).fired
    rw [poll_eq] at hdelay
    simp only at hdelay
    omega
  refine ⟨(le_max_right _ _).trans hfired, hgreatest, fun j hj => ?_, deadline_of_no_late⟩
  rcases Nat.lt_or_eq_of_le hj with hj | rfl
  · have hbound : (ticks j).now + (k - j) • (i.len : Int) ≤ (before i ticks k).deadline := hgreatest.2 (Or.inr ⟨j, hj, rfl⟩)
    rw [nsmul_eq_mul] at hbound
    exact hbound.trans ((le_max_right _ _).trans hfired)
  · rw [Nat.sub_self, Nat.cast_zero, zero_mul, add_zero]
    exact (le_max_left _ _).trans hfired

/-- A tick every ten microseconds, the first of them late. -/
def late (k : Nat) : Tick := ⟨10 * k + 7, 10 * k + 7, 10 * k + 8⟩

theorem before_late (k : Nat) : before (interval 10 5) late (k + 1) = ⟨10 * k + 17, 10⟩ := by
  induction k with
  | zero => rfl
  | succ k ih =>
    change ((before (interval 10 5) late (k + 1)).poll (late (k + 1)).now).1 = _
    rw [ih, poll_eq]
    simp only [late, mk.injEq, and_true]
    push_cast
    omega

/-- An interval of ten microseconds that is due at the fifth, and polled at the seventh, has its next deadline at the seventeenth. -/
theorem interval_keeps_time_late : (before (interval 10 5) late 3).deadline ≤ (late 3).fired ∧ (before (interval 10 5) late 1).deadline = 17 := by
  refine ⟨(interval_keeps_time (fun k => ?_) 3).1, rfl⟩
  cases k with
  | zero => exact ⟨le_rfl, by decide⟩
  | succ k =>
    refine ⟨le_rfl, ?_⟩
    rw [before_late, poll_eq]
    simp only [late]
    omega

end Tonio.Interval
