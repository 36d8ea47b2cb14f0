import Tonio.Interleaving.Machine

/-!
# Parties that do one thing after the other

A party of a protocol (a caller, the owner of a resource) often is one thread among the many that a machine runs: of the operations that
are its own one is pending at any time, until it is through. `Sequential` says so of the pending operations, and the rules below follow it
through the steps of the party and of the others.
-/

namespace Interleaving

variable {O : Type*} {p : O → Bool} {through : Bool} {A B new ops : List O} {op x : O}

/-- One of the operations of a party is pending, or the party is through. -/
def Sequential (p : O → Bool) (through : Bool) (ops : List O) : Prop := ops.countP p + through.toNat = 1

namespace Sequential

/-- A party with one operation has begun. -/
theorem start (hx : p x = true) : Sequential p false [x] := by
  rw [Sequential, List.countP_singleton, if_pos hx]
  rfl

/-- While a party performs an operation it is not through, and no other one of its operations is pending. -/
theorem alone (h : Sequential p through (A ++ op :: B)) (hop : p op = true) : through = false ∧ ∀ x ∈ A ++ B, p x = false := by
  rw [Sequential, List.countP_append, List.countP_cons_of_pos hop] at h
  refine ⟨?_, fun x hx => ?_⟩
  · cases through with
    | false => rfl
    | true =>
      rw [Bool.toNat_true] at h
      omega
  · have hzero : (A ++ B).countP p = 0 := by
      rw [List.countP_append]
      omega
    exact Bool.eq_false_iff.mpr (List.countP_eq_zero.mp hzero x hx)

/-- The party goes on to its next operation. -/
theorem goes (h : Sequential p through (A ++ op :: B)) (hop : p op = true) (hx : p x = true) : Sequential p through (A ++ ([x] ++ B)) := by
  rw [Sequential, List.countP_append, List.countP_cons_of_pos hop] at h
  rw [Sequential, List.countP_append, List.countP_append, List.countP_singleton, if_pos hx]
  omega

/-- The party performs its last operation. -/
theorem ends (h : Sequential p through (A ++ op :: B)) (hop : p op = true) : Sequential p true (A ++ ([] ++ B)) := by
  rw [Sequential, List.countP_eq_zero.mpr (fun x hx => Bool.eq_false_iff.mp ((h.alone hop).2 x (by simpa using hx)))]
  rfl

/-- Another party moves. -/
theorem beside (h : Sequential p through (A ++ op :: B)) (hop : p op = false) (hnew : ∀ x ∈ new, p x = false) :
    Sequential p through (A ++ (new ++ B)) := by
  rw [Sequential, List.countP_append, List.countP_cons_of_neg (by simp [hop])] at h
  rw [Sequential, List.countP_append, List.countP_append, List.countP_eq_zero.mpr (fun x hx => Bool.eq_false_iff.mp (hnew x hx)),
    Nat.zero_add]
  exact h

/-- Another party starts a thread. -/
theorem call (h : Sequential p through ops) (hnew : ∀ x ∈ new, p x = false) : Sequential p through (ops ++ new) := by
  rw [Sequential, List.countP_append, List.countP_eq_zero.mpr (fun x hx => Bool.eq_false_iff.mp (hnew x hx)), Nat.add_zero]
  exact h

/-- A party that is not through has something to do. -/
theorem exists_mem (h : Sequential p false ops) : ∃ x ∈ ops, p x = true := by
  rw [Sequential, Bool.toNat_false] at h
  exact List.countP_pos_iff.mp (by omega)

end Sequential

end Interleaving
