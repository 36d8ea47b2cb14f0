import Tonio.Lemmas.Ctl

/-!
# What `select`, `block_on` and `timeout` report

The wrappers of `select` all store in one slot, and `select` reads it when it gets to run again: what was stored meanwhile has replaced
what was stored first. And what is raised and is not an `Exception` is stored by no wrapper, while the event is set all the same: the
caller finds `None` and fails to unpack it.
-/

namespace Tonio.Ctl

open Interleaving

variable {α : Type}

instance [DecidableEq α] (o : Outcome α) (m : Mem α) (a : Act (Op α) (Choice α) Nat) : Decidable (Finishes o m a) := by
  unfold Finishes
  split <;> infer_instance

/-- `select` reports an outcome as it is, so it reports no two as the same. -/
theorem select_settle_inj {fl : Flavour} {o o' : Outcome α} (h : (Fn.select fl).settle o = (Fn.select fl).settle o') : o = o' := by
  cases o <;> cases o' <;> cases h <;> rfl

/-- What `select` reads is not reported as the outcome of a coroutine when there is none. -/
theorem settle_ne_typeError (f : Fn) (o : Outcome α) : f.settle o ≠ .typeError := by
  cases o <;> cases f <;> simp [Fn.settle]

/-- `select` reports the first finisher, for both flavours, any number of coroutines and every order in which they finish and in which
`select` gets to run again. What it ends with, unless it is cancelled itself, is the outcome that was stored first if and only if, when it
read the slot, an outcome had been stored and the one stored last was the one stored first. And it comes to an end, however far it has
got. -/
theorem select_reports_first_iff (fl : Flavour) (n : Nat) (hn : 0 < n) (s : State (Mem α) (Op α))
    (h : (machine (.select fl) n).Reach (fun _ _ _ => True) (initial n) s) :
    (∀ r, s.mem.result = some r → r ≠ .cancelled →
      ((∃ i o, s.mem.stored.head? = some (i, o) ∧ r = (Fn.select fl).settle o) ↔
        ∃ o, s.mem.seen.head? = some o ∧ s.mem.seen.getLast? = some o)) ∧
    ∃ s' r, (machine (.select fl) n).Reach (fun _ _ _ => True) s s' ∧ s'.mem.result = some r := by
  refine ⟨fun r hr hne => ?_, exists_result hn (.exc .cancelledError) (fun _ _ _ _ => trivial) h⟩
  have hR : Reads (.select fl) s.mem s.ops := Reads.reach h
  have hread : r = (Fn.select fl).read s.mem.seen := by
    rcases hR.result r hr with rfl | ⟨-, fl', hf⟩ | hread
    · exact absurd rfl hne
    · cases hf
    · exact hread
  have hseen := hR.seen
  cases hs : s.mem.seen with
  | nil =>
    rw [hs] at hread
    constructor
    · rintro ⟨i, o, -, ho⟩
      exact absurd (ho.symm.trans hread) (settle_ne_typeError _ o)
    · rintro ⟨o, ho, -⟩
      cases ho
  | cons o₁ seen =>
    -- what was stored first was stored when the slot was read
    have hhead : s.mem.stored.head?.map Prod.snd = some o₁ := by
      obtain ⟨t, ht⟩ := hseen
      rw [← List.head?_map, ← ht, hs]
      rfl
    obtain ⟨p, hp, rfl⟩ := Option.map_eq_some_iff.mp hhead
    obtain ⟨o₂, ho₂⟩ : ∃ o₂, (p.2 :: seen).getLast? = some o₂ := ⟨_, List.getLast?_eq_some_getLast (by simp)⟩
    have hsettle : r = (Fn.select fl).settle o₂ := by rw [hread, hs, Fn.read, ho₂, Option.elim_some]
    rw [hp, ho₂]
    constructor
    · rintro ⟨i, o, ho, hro⟩
      cases Option.some.inj ho
      exact ⟨o, rfl, congrArg some (select_settle_inj (hsettle.symm.trans hro))⟩
    · rintro ⟨o, ho, ho'⟩
      obtain rfl : p.2 = o := Option.some.inj ho
      refine ⟨p.1, p.2, rfl, ?_⟩
      rw [hsettle, Option.some.inj ho']

/-- Two coroutines. The second one finishes when the first one has been reported. -/
theorem select_reports_first_two :
    ∃ s : State (Mem Nat) (Op Nat), (machine (.select .gen) 2).Reach (fun _ _ _ => True) (initial 2) s ∧ 0 < 2 ∧
      s.mem.result = some (.returned 1) ∧ s.mem.stored = [(0, .ret 1), (1, .ret 2)] ∧
      ((∃ i o, s.mem.stored.head? = some (i, o) ∧ Result.returned 1 = (Fn.select .gen).settle o) ↔
        ∃ o, s.mem.seen.head? = some o ∧ s.mem.seen.getLast? = some o) := by
  obtain ⟨s, hs, hp⟩ := Machine.exists_reach_of_run (machine (.select .gen) 2) (fun _ _ _ => True) (fun _ _ _ => true)
    (fun _ _ _ _ => trivial) (initial (α := Nat) 2)
    (List.flatten [List.replicate 2 (.act 0 .go), [.call 0, .call 1, .act 1 (.finish (.ret 1))], List.replicate 2 (.act 1 .go),
      List.replicate 6 (.act 0 .go), [.act 2 (.finish (.ret 2)), .act 2 .go]])
    (fun s => decide (s.mem.result = some (.returned 1)) && decide (s.mem.stored = [(0, .ret 1), (1, .ret 2)])) (by decide)
  simp only [Bool.and_eq_true, decide_eq_true_eq] at hp
  exact ⟨s, hs, by decide, hp.1, hp.2, (select_reports_first_iff .gen 2 (by decide) s hs).1 _ hp.1 (by decide)⟩

/-- Two coroutines finish before `select` gets to run again, in both flavours: it returns what the second one returned. -/
theorem select_reports_later :
    ∃ s : Flavour → State (Mem Nat) (Op Nat), ∀ fl, (machine (.select fl) 2).Reach (fun _ _ _ => True) (initial 2) (s fl) ∧
      (s fl).mem.stored = [(0, .ret 1), (1, .ret 2)] ∧ (s fl).mem.result = some (.returned 2) := by
  have hrun : ∀ (fl : Flavour) (k : Nat), ((machine (α := Nat) (.select fl) 2).run (fun _ _ _ => true) (initial 2)
      (List.flatten [List.replicate 2 (.act 0 .go), [.call 0, .call 1, .act 1 (.finish (.ret 1)), .act 1 .go, .act 2 (.finish (.ret 2)),
        .act 2 .go, .act 1 .go], List.replicate k (.act 0 .go)])).any
      (fun s => decide (s.mem.stored = [(0, .ret 1), (1, .ret 2)]) && decide (s.mem.result = some (.returned 2))) = true →
      ∃ s : State (Mem Nat) (Op Nat), (machine (.select fl) 2).Reach (fun _ _ _ => True) (initial 2) s ∧
        s.mem.stored = [(0, .ret 1), (1, .ret 2)] ∧ s.mem.result = some (.returned 2) := by
    intro fl k hk
    obtain ⟨s, hs, hp⟩ := Machine.exists_reach_of_run (machine (.select fl) 2) (fun _ _ _ => True) (fun _ _ _ => true)
      (fun _ _ _ _ => trivial) (initial (α := Nat) 2) _ _ hk
    simp only [Bool.and_eq_true, decide_eq_true_eq] at hp
    exact ⟨s, hs, hp⟩
  choose s hs using fun fl => hrun fl (if fl = .gen then 6 else 7) (by cases fl <;> decide)
  exact ⟨s, hs⟩

/-! ## Outcomes -/

/-- The wrappers are transparent: for each of the functions, both flavours and every outcome of the coroutine, in every run in which it
has that outcome and the event is set in time for `timeout`, the call ends with the value of the coroutine, or raises what it raised, and
it comes to an end, if and only if the outcome is a value or an `Exception`. -/
theorem outcome_transparent_iff (f : Fn) (o : Outcome α) :
    ((∀ (s : State (Mem α) (Op α)) (r : Result α), (machine f 1).Reach (fun m _ a => Finishes o m a) (initial 1) s →
        s.mem.result = some r → r = f.settle o) ∧
      ∀ s : State (Mem α) (Op α), (machine f 1).Reach (fun m _ a => Finishes o m a) (initial 1) s →
        ∃ s' r, (machine f 1).Reach (fun m _ a => Finishes o m a) s s' ∧ s'.mem.result = some r) ↔ o.passes = true := by
  have hend : ∀ s : State (Mem α) (Op α), (machine f 1).Reach (fun m _ a => Finishes o m a) (initial 1) s →
      ∃ s' r, (machine f 1).Reach (fun m _ a => Finishes o m a) s s' ∧ s'.mem.result = some r :=
    fun s hs => exists_result Nat.one_pos o (fun _ _ _ hk => hk) hs
  constructor
  · rintro ⟨hall, -⟩
    by_contra ho
    rw [Bool.not_eq_true] at ho
    obtain ⟨s, r, hs, hr⟩ := hend _ .init
    -- nothing is stored, so the call raises nothing the coroutine raised
    have hseen : s.mem.seen = [] := by
      have hprefix := (Reads.reach hs).seen
      rw [stored_of_not_passes ho hs, List.map_nil] at hprefix
      exact List.prefix_nil.mp hprefix
    have hsettle : ∃ e, f.settle o = .raised e := by
      cases o with
      | ret v => cases ho
      | exc e => cases f <;> exact ⟨e, rfl⟩
    obtain ⟨e, he⟩ := hsettle
    have hre := hall s r hs hr
    rw [he] at hre
    rcases (Reads.reach hs).result r hr with h | ⟨h, -⟩ | h
    · cases h.symm.trans hre
    · cases h.symm.trans hre
    · rw [hseen] at h
      cases h.symm.trans hre
  · intro ho
    exact ⟨fun s r hs hr => (Passed.reach ho hs).result r hr, hend⟩

/-- The coroutine raises a `CancelledError` of its own: each of the functions fails with a `TypeError`, in both flavours. -/
theorem cancelledError_lost :
    ∃ s : Fn → State (Mem Nat) (Op Nat),
      ∀ f, (machine f 1).Reach (fun m _ a => Finishes (.exc .cancelledError) m a) (initial 1) (s f) ∧
        (s f).mem.result = some .typeError := by
  have hrun : ∀ (f : Fn) (k : Nat), ((machine (α := Nat) f 1).run (fun m _ a => decide (Finishes (.exc .cancelledError) m a)) (initial 1)
      (List.flatten [[.act 0 .go, .call 0, .act 1 (.finish (.exc .cancelledError))], List.replicate 2 (.act 1 .go),
        List.replicate k (.act 0 .go)])).any (fun s => decide (s.mem.result = some .typeError)) = true →
      ∃ s : State (Mem Nat) (Op Nat), (machine f 1).Reach (fun m _ a => Finishes (.exc .cancelledError) m a) (initial 1) s ∧
        s.mem.result = some .typeError := by
    intro f k hk
    obtain ⟨s, hs, hp⟩ := Machine.exists_reach_of_run (machine f 1) (fun m _ a => Finishes (.exc .cancelledError) m a)
      (fun m _ a => decide (Finishes (.exc .cancelledError) m a)) (fun _ _ _ h => of_decide_eq_true h) (initial (α := Nat) 1) _ _ hk
    exact ⟨s, hs, of_decide_eq_true hp⟩
  -- how many steps the caller takes from its wait to the end
  choose s hs using fun f => hrun f
    (match f with
      | .select .gen | .timeout _ => 4
      | .select .colored => 6
      | .blockOn _ => 3)
    (by
      cases f with
      | select fl | blockOn fl | timeout fl => cases fl <;> decide)
  exact ⟨s, hs⟩

end Tonio.Ctl
