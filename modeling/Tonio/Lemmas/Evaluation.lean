import Tonio.Evaluation

/-!
# Evaluation with a stack

`Goes` evaluates a program with the stack of the generators that wait for a child, as the runtime does: what is still to be sent and
thrown follows from the generator that runs, the stack, and what has been sent and thrown so far. The direct evaluation gives the same
(`Evaluates.goes`): a child is evaluated on top of its parent, and what comes after it is what its parent goes on with.
-/

namespace Tonio.Runtime

/-- What is still to be sent and thrown, and which waiters are still to be yielded, when generator `k` runs, `n` generators have been called
and those of `ps` wait for their children. -/
inductive Goes (ws : Nat → Waiter) (P : Program) :
    List (Nat × Input) → Nat → Nat → List Nat → List (Nat × Input) → List Nat → Prop where
  | ended {log : List (Nat × Input)} {k n : Nat} (r : Result) (hP : P k (inputsOf k log) = r.out) : Goes ws P log k n [] [] []
  | back {log L : List (Nat × Input)} {k n p : Nat} {ps U : List Nat} (r : Result) (hP : P k (inputsOf k log) = r.out)
      (h : Goes ws P (log ++ [(p, r.input)]) p n ps L U) : Goes ws P log k n (p :: ps) ((p, r.input) :: L) U
  | call {log L : List (Nat × Input)} {k n : Nat} {ps U : List Nat} (hP : P k (inputsOf k log) = .yieldGen)
      (h : Goes ws P (log ++ [(n, .send .none)]) n (n + 1) (k :: ps) L U) : Goes ws P log k n ps ((n, .send .none) :: L) U
  | wait {log L : List (Nat × Input)} {k n : Nat} {ps U : List Nat} (w : Nat) (hP : P k (inputsOf k log) = .yieldWaiter w)
      (hps : (ws w).events = [] → ps ≠ [])
      (h : Goes ws P (log ++ [(k, .send (waitValue (ws w).events))]) k n ps L U) :
      Goes ws P log k n ps ((k, .send (waitValue (ws w).events)) :: L) (w :: U)

/-- What is still to be sent and thrown when a generator has ended: its parent goes on. -/
def Backs (ws : Nat → Waiter) (P : Program) (log : List (Nat × Input)) (n : Nat) (r : Result) :
    List Nat → List (Nat × Input) → List Nat → Prop
  | [], L, U => L = [] ∧ U = []
  | p :: ps, L, U => ∃ L', L = (p, r.input) :: L' ∧ Goes ws P (log ++ [(p, r.input)]) p n ps L' U

section

variable {ws : Nat → Waiter} {P : Program} {k n n' : Nat} {h : List Input} {r : Result} {l log L : List (Nat × Input)}
  {us ps U : List Nat}

theorem inputsOf_append (k : Nat) (a b : List (Nat × Input)) : inputsOf k (a ++ b) = inputsOf k a ++ inputsOf k b := by
  simp [inputsOf]

@[simp] theorem inputsOf_self (k : Nat) (i : Input) : inputsOf k [(k, i)] = [i] := by simp [inputsOf]

theorem inputsOf_eq_nil (h : ∀ x ∈ l, x.1 ≠ k) : inputsOf k l = [] := by
  rw [inputsOf, List.map_eq_nil_iff, List.filter_eq_nil_iff]
  exact fun x hx => by simpa using h x hx

/-- An evaluation resumes its generator and the generators that it calls. -/
theorem Evaluates.ids (hE : Evaluates ws P k h n r n' l us) : n ≤ n' ∧ ∀ x ∈ l, x.1 = k ∨ n ≤ x.1 ∧ x.1 < n' := by
  induction hE with
  | ended r hP => exact ⟨Nat.le_refl _, nofun⟩
  | @call k n n₁ n₂ h r r' l l' us us' hP hchild hnext ih ih' =>
    obtain ⟨hle, hids⟩ := ih
    obtain ⟨hle', hids'⟩ := ih'
    refine ⟨by omega, fun x hx => ?_⟩
    rcases List.mem_cons.mp hx with rfl | hx
    · exact Or.inr ⟨Nat.le_refl _, by omega⟩
    · rcases List.mem_append.mp hx with hx | hx
      · rcases hids x hx with heq | hin
        · exact Or.inr (by omega)
        · exact Or.inr (by omega)
      · rcases List.mem_cons.mp hx with rfl | hx
        · exact Or.inl rfl
        · rcases hids' x hx with heq | hin
          · exact Or.inl heq
          · exact Or.inr (by omega)
  | @wait k n n₁ h r l us w hP hroot hnext ih =>
    refine ⟨ih.1, fun x hx => ?_⟩
    rcases List.mem_cons.mp hx with rfl | hx
    · exact Or.inl rfl
    · exact ih.2 x hx

/-- A generator that ends. -/
theorem Goes.of_over (hP : P k (inputsOf k log) = r.out) (hB : Backs ws P log n r ps L U) : Goes ws P log k n ps L U := by
  cases ps with
  | nil =>
    obtain ⟨rfl, rfl⟩ := hB
    exact .ended r hP
  | cons p ps =>
    obtain ⟨L', rfl, hG⟩ := hB
    exact .back r hP hG

/-- Direct evaluation and evaluation with a stack give the same. The induction is on the direct evaluation; what the stack goes on with
afterwards is arbitrary. -/
theorem Evaluates.goes (hE : Evaluates ws P k h n r n' l us) (hh : inputsOf k log = h) (hlog : ∀ x ∈ log, x.1 < n) (hk : k < n)
    (hps : ps = [] → k = 0) (hB : Backs ws P (log ++ l) n' r ps L U) : Goes ws P log k n ps (l ++ L) (us ++ U) := by
  induction hE generalizing log ps L U with
  | ended r hP =>
    subst hh
    exact .of_over hP (by simpa using hB)
  | @call k n n₁ n₂ h r r' l l' us us' hP hchild hnext ih ih' =>
    subst hh
    obtain ⟨hle, hids⟩ := hchild.ids
    have hnew : inputsOf n log = [] := inputsOf_eq_nil (fun x hx => Nat.ne_of_lt (hlog x hx))
    have hl : inputsOf k l = [] := by
      refine inputsOf_eq_nil (fun x hx => ?_)
      rcases hids x hx with heq | hin <;> omega
    have hnk : inputsOf k [(n, Input.send Val.none)] = [] := inputsOf_eq_nil (by simp; omega)
    -- the child runs on top of its parent, which goes on with its result
    have hparent : Goes ws P (log ++ [(n, .send .none)] ++ l ++ [(k, r.input)]) k n₁ ps (l' ++ L) (us' ++ U) := by
      refine ih' ?_ ?_ (by omega) hps ?_
      · rw [inputsOf_append, inputsOf_append, inputsOf_append, hl, hnk, inputsOf_self, List.append_nil, List.append_nil]
      · intro x hx
        simp only [List.mem_append, List.mem_singleton] at hx
        rcases hx with ((hx | rfl) | hx) | rfl
        · have := hlog x hx
          omega
        · omega
        · rcases hids x hx with heq | hin <;> omega
        · omega
      · simpa using hB
    have hgo : Goes ws P (log ++ [(n, .send .none)]) n (n + 1) (k :: ps) (l ++ (k, r.input) :: (l' ++ L)) (us ++ (us' ++ U)) := by
      refine ih ?_ ?_ (Nat.lt_succ_self n) nofun ⟨l' ++ L, rfl, hparent⟩
      · rw [inputsOf_append, hnew, inputsOf_self, List.nil_append]
      · intro x hx
        rcases List.mem_append.mp hx with hx | hx
        · exact Nat.lt_succ_of_lt (hlog x hx)
        · rw [List.mem_singleton.mp hx]
          exact Nat.lt_succ_self n
    simpa using Goes.call hP hgo
  | @wait k n n₁ h r l us w hP hroot hnext ih =>
    subst hh
    refine .wait w hP (fun he hnil => hroot he (hps hnil)) (ih ?_ ?_ hk hps (by simpa using hB))
    · rw [inputsOf_append, inputsOf_self]
    · intro x hx
      rcases List.mem_append.mp hx with hx | hx
      · exact hlog x hx
      · rw [List.mem_singleton.mp hx]
        exact hk

/-! ## What a generator does is what the stack goes on with -/

/-- There is no bare `yield`. -/
theorem Goes.not_bare (hG : Goes ws P log k n ps L U) : P k (inputsOf k log) ≠ .yieldNone := by
  cases hG with
  | ended r hP | back r hP =>
    rw [hP]
    cases r <;> exact nofun
  | call hP | wait w hP =>
    rw [hP]
    exact nofun

/-- A generator that calls a child is put on the stack. -/
theorem Goes.of_call (hG : Goes ws P log k n ps L U) (hP : P k (inputsOf k log) = .yieldGen) :
    ∃ L', L = (n, .send .none) :: L' ∧ Goes ws P (log ++ [(n, .send .none)]) n (n + 1) (k :: ps) L' U := by
  cases hG with
  | ended r hP' | back r hP' =>
    rw [hP'] at hP
    cases r <;> cases hP
  | call hP' h => exact ⟨_, rfl, h⟩
  | wait w hP' =>
    rw [hP'] at hP
    cases hP

/-- A generator that yields a waiter goes on with what the waiter gives. -/
theorem Goes.of_wait {w : Nat} (hG : Goes ws P log k n ps L U) (hP : P k (inputsOf k log) = .yieldWaiter w) :
    ∃ L' U', L = (k, .send (waitValue (ws w).events)) :: L' ∧ U = w :: U' ∧ ((ws w).events = [] → ps ≠ []) ∧
      Goes ws P (log ++ [(k, .send (waitValue (ws w).events))]) k n ps L' U' := by
  cases hG with
  | ended r hP' | back r hP' =>
    rw [hP'] at hP
    cases r <;> cases hP
  | call hP' =>
    rw [hP'] at hP
    cases hP
  | wait w' hP' hps h =>
    obtain rfl : w' = w := Out.yieldWaiter.inj (hP'.symm.trans hP)
    exact ⟨_, _, rfl, rfl, hps, h⟩

theorem Result.out_inj {r' : Result} (h : r.out = r'.out) : r = r' := by
  cases r <;> cases r' <;> simp_all [Result.out]

/-- A generator that ends gives its result to the top of the stack. -/
theorem Goes.backs (hG : Goes ws P log k n ps L U) (hP : P k (inputsOf k log) = r.out) : Backs ws P log n r ps L U := by
  cases hG with
  | ended r' hP' => exact ⟨rfl, rfl⟩
  | back r' hP' h =>
    obtain rfl := Result.out_inj (hP'.symm.trans hP)
    exact ⟨_, rfl, h⟩
  | call hP' | wait w hP' =>
    rw [hP'] at hP
    cases r <;> cases hP

end

end Tonio.Runtime
