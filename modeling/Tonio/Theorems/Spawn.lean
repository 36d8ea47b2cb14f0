import Tonio.Lemmas.Spawn

/-!
# Joining spawned coroutines

A single await of the join gets what the coroutines returned, in their order, or what they raised. The handle of the colored `spawn` may be
awaited again, and each await counts at the barrier as a coroutine does: a second one lets both through while a coroutine is
still running.
-/

namespace Tonio.Spawn

open Interleaving

variable {α ε : Type}

instance (m : Mem α ε) (ops : List (Op α ε)) (a : Act (Op α ε) (Choice α ε) Call) : Decidable (Reawaits m ops a) := by
  unfold Reawaits
  split <;> infer_instance

instance (m : Mem α ε) (a : Act (Op α ε) (Choice α ε) Call) : Decidable (Plain m a) := by
  unfold Plain
  split <;> infer_instance

/-! ## Awaiting the handle -/

/-- No await of the handle is let through before all `n` coroutines have finished, with or without results, in every state of every run
of the coroutines and of any number of awaits, concurrent, repeated or cancelled, in which no await counts at the barrier after
another one has while some coroutine has not finished. -/
theorem spawn_handle_not_early (collect : Bool) (n : Nat) (s : State (Mem α ε) (Op α ε))
    (h : (machine collect n).Reach (fun m ops a => ¬Reawaits m ops a) (initial n) s) :
    (∃ op ∈ s.ops, op.resumed = true) ∨ s.mem.returned ≠ [] → ∀ i < n, (s.mem.outcome i).isSome = true := by
  intro hr i hi
  have hC := counted_of_reach h
  by_contra hnone
  have hrun : Op.coro i ∈ s.ops := hC.left i hi (by simpa using hnone)
  have hone := awaits_le_one_of_reach h ⟨_, hrun, rfl⟩
  have hlt := hC.resumed hr
  have hpos : 0 < total wrapping s.ops := total_pos_iff.mpr ⟨_, hrun, Nat.one_pos⟩
  omega

/-- Two coroutines; the handle is awaited, and again after both have finished. -/
theorem spawn_handle_not_early_twice :
    ∃ s : State (Mem Nat Nat) (Op Nat Nat), (machine true 2).Reach (fun m ops a => ¬Reawaits m ops a) (initial 2) s ∧
      s.mem.returned = [.value (.list [some 5, some 6]), .value (.list [some 5, some 6])] ∧
      ∀ i < 2, (s.mem.outcome i).isSome = true := by
  obtain ⟨s, hs, hp⟩ := Machine.exists_reach_of_run (machine true 2) (fun m ops a => ¬Reawaits m ops a)
    (fun m ops a => decide (¬Reawaits m ops a)) (fun _ _ _ h => of_decide_eq_true h) (initial (α := Nat) (ε := Nat) 2)
    [.call .await, .act 2 .go, .act 1 (.finish (.ret 6)), .act 0 (.finish (.ret 5)), .call .await, .act 0 .go, .act 0 .go, .act 1 .go,
      .act 1 .go, .act 1 .go, .act 2 .go, .act 2 .go, .act 2 .go, .act 3 .go, .act 3 .go, .act 3 .go, .act 3 .go, .act 3 .go]
    (fun s => decide (s.mem.returned = [.value (.list [some 5, some 6]), .value (.list [some 5, some 6])])) (by decide)
  have hret := of_decide_eq_true hp
  exact ⟨s, hs, hret, spawn_handle_not_early true 2 s hs (Or.inr (by simp [hret]))⟩

/-- One coroutine; an await of the handle is cancelled while it waits, and the next await returns with nothing although the coroutine has
not finished. -/
theorem spawn_handle_early :
    ∃ s : State (Mem Nat Nat) (Op Nat Nat), (machine true 1).Reach (fun _ _ _ => True) (initial 1) s ∧
      s.mem.returned = [.value (.bare none)] ∧ s.mem.outcome 0 = none := by
  obtain ⟨s, hs, hp⟩ := Machine.exists_reach_of_run (machine true 1) (fun _ _ _ => True) (fun _ _ _ => true)
    (fun _ _ _ _ => trivial) (initial (α := Nat) (ε := Nat) 1)
    [.call .await, .act 1 .go, .act 1 .cancel, .call .await, .act 2 .go, .act 2 .go, .act 2 .go, .act 2 .go, .act 2 .go]
    (fun s => decide (s.mem.returned = [.value (.bare none)]) && decide (s.mem.outcome 0 = none)) (by decide)
  simp only [Bool.and_eq_true, decide_eq_true_eq] at hp
  exact ⟨s, hs, hp.1, hp.2⟩

/-! ## Collecting the results -/

/-- When all wrappers have counted, the result holder has what the coroutines returned. -/
theorem data_eq {n : Nat} {m : Mem α ε} {ops : List (Op α ε)} (hD : Collected true n m ops) (h0 : total wrapping ops = 0)
    {vs : List α} (hlen : vs.length = n) (hvs : ∀ i < n, m.outcome i = vs[i]?.map .ret) : m.data = vs.map some := by
  refine List.ext_getElem? (fun i => ?_)
  by_cases hi : i < n
  · have hget : vs[i]? = some (vs.get ⟨i, hlen ▸ hi⟩) := by simp
    have hout := hvs i hi
    rw [hget] at hout
    rcases hD.stored rfl i hi _ hout with hd | hs
    · rw [hd, List.getElem?_map, hget]
      rfl
    · have := total_eq_zero_iff.mp h0 _ hs
      cases this
  · rw [List.getElem?_eq_none (by rw [hD.length]; omega), List.getElem?_eq_none (by rw [List.length_map, hlen]; omega)]

/-- What is fetched when every slot is filled, and what `map` makes of it. -/
theorem fetch_map_some {n : Nat} {vs : List α} (hlen : vs.length = n) :
    Spawn.fetch n (vs.map some) = (if n = 1 then .bare vs.head? else .list (vs.map some)) ∧
      mapReturn n (Spawn.fetch n (vs.map some)) = some (vs.map some) := by
  subst hlen
  match vs with
  | [] => exact ⟨rfl, rfl⟩
  | [v] => exact ⟨rfl, rfl⟩
  | v :: w :: vs => simp [Spawn.fetch, mapReturn]

/-- The results of `n` coroutines do not depend on the order in which they finish, in every state of every run in which the join is
awaited once and every coroutine returns or raises an `Exception`: the await is let through only when all have finished; if all
returned, it gives what they returned, in the order of the coroutines (the value itself if there is one coroutine, and nothing
without results), so that `map` gives the list of the results; otherwise it raises an `ExceptionGroup` of exactly the exceptions
that were raised, each once. When the wrappers are through, the event the await waits for is set. -/
theorem spawn_collects_results (collect : Bool) (n : Nat) (s : State (Mem α ε) (Op α ε))
    (h : (machine collect n).Reach (fun m _ a => Plain m a) (initial n) s) :
    ((∃ op ∈ s.ops, op.resumed = true) ∨ s.mem.returned ≠ [] → ∀ i < n, (s.mem.outcome i).isSome = true) ∧
    (∀ vs : List α, vs.length = n → (∀ i < n, s.mem.outcome i = vs[i]?.map .ret) → ∀ r ∈ s.mem.returned,
      if collect then
        ∃ f, r = .value f ∧ f = (if n = 1 then .bare vs.head? else .list (vs.map some)) ∧ mapReturn n f = some (vs.map some)
      else r = .none) ∧
    ((∃ i < n, ∃ e, s.mem.outcome i = some (.exc e)) → ∀ r ∈ s.mem.returned,
      ∃ errs, r = .group errs ∧ errs.Perm (raised n s.mem.outcome)) ∧
    (Op.wait ∈ s.ops → (∀ op ∈ s.ops, wrapping op = 0) → Op.set ∉ s.ops → Op.joinSet ∉ s.ops → s.mem.event = true) := by
  have hC := counted_of_reach h
  have hD := collected_of_reach h
  have hR := returned_of_reach h
  have hjoins := joins_le_one_of_reach h
  have hbal := hC.joins
  have hdone : (∃ op ∈ s.ops, op.resumed = true) ∨ s.mem.returned ≠ [] → total wrapping s.ops = 0 := by
    intro hr
    have := hC.resumed hr
    omega
  -- when all wrappers have counted, nothing is left to append
  have herrs : total wrapping s.ops = 0 → s.mem.errs.Perm (raised n s.mem.outcome) := by
    intro h0
    have hnil : s.ops.filterMap Op.appends = [] := by
      refine List.filterMap_eq_nil_iff.mpr (fun x hx => ?_)
      have := total_eq_zero_iff.mp h0 x hx
      cases x <;> first | rfl | cases this
    simpa [hnil] using hD.errs
  refine ⟨fun hr i hi => ?_, fun vs hlen hvs r hr => ?_, ?_, fun hwait hidle hset hjset => ?_⟩
  · by_contra hnone
    have hrun : Op.coro i ∈ s.ops := hC.left i hi (by simpa using hnone)
    have := total_eq_zero_iff.mp (hdone hr) _ hrun
    cases this
  · have h0 := hdone (Or.inr (List.ne_nil_of_mem hr))
    have hraised : raised n s.mem.outcome = [] := by
      refine List.filterMap_eq_nil_iff.mpr (fun i hi => ?_)
      rw [hvs i (List.mem_range.mp hi)]
      cases vs[i]? <;> rfl
    have hnil : s.mem.errs = [] := List.perm_nil.mp (hraised ▸ herrs h0)
    rw [hR.returned r hr]
    cases collect with
    | false => simp [result, hnil]
    | true =>
      have hdata := data_eq hD h0 hlen hvs
      refine ⟨Spawn.fetch n s.mem.data, by simp [result, hnil], ?_⟩
      rw [hdata]
      exact fetch_map_some hlen
  · rintro ⟨i, hi, e, he⟩ r hr
    have h0 := hdone (Or.inr (List.ne_nil_of_mem hr))
    have hperm := herrs h0
    have hmem : e ∈ raised n s.mem.outcome := List.mem_filterMap.mpr ⟨i, List.mem_range.mpr hi, by rw [he]; rfl⟩
    refine ⟨s.mem.errs, ?_, hperm⟩
    rw [hR.returned r hr]
    have hne : s.mem.errs ≠ [] := by
      intro hnil
      rw [hnil] at hperm
      rw [List.nil_perm.mp hperm] at hmem
      cases hmem
    simp [result, hne]
  · have hcount := hC.count
    have hpos := hC.waits (Or.inl hwait)
    have h0 : total wrapping s.ops = 0 := total_eq_zero_iff.mpr hidle
    rcases hC.fires (by omega) with he | hs | hs
    · exact he
    · exact absurd hs hset
    · exact absurd hs hjset

/-- Two coroutines that finish in the other order, and two that raise. -/
theorem spawn_collects_results_two :
    (∃ s : State (Mem Nat Nat) (Op Nat Nat), (machine true 2).Reach (fun m _ a => Plain m a) (initial 2) s ∧
      s.mem.returned = [.value (.list [some 5, some 6])] ∧ ∀ i < 2, (s.mem.outcome i).isSome = true) ∧
    ∃ s : State (Mem Nat Nat) (Op Nat Nat), (machine true 2).Reach (fun m _ a => Plain m a) (initial 2) s ∧
      s.mem.returned = [.group [8, 7]] ∧ ∃ errs, Joined.group (α := Nat) [8, 7] = .group errs ∧ errs.Perm (raised 2 s.mem.outcome) := by
  constructor
  · obtain ⟨s, hs, hp⟩ := Machine.exists_reach_of_run (machine true 2) (fun m _ a => Plain m a)
      (fun m _ a => decide (Plain m a)) (fun _ _ _ h => of_decide_eq_true h) (initial (α := Nat) (ε := Nat) 2)
      [.call .await, .act 2 .go, .act 1 (.finish (.ret 6)), .act 0 (.finish (.ret 5)), .act 1 .go, .act 1 .go, .act 0 .go, .act 0 .go,
        .act 0 .go, .act 2 .go, .act 2 .go, .act 2 .go]
      (fun s => decide (s.mem.returned = [.value (.list [some 5, some 6])])) (by decide)
    have hret := of_decide_eq_true hp
    exact ⟨s, hs, hret, (spawn_collects_results true 2 s hs).1 (Or.inr (by simp [hret]))⟩
  · obtain ⟨s, hs, hp⟩ := Machine.exists_reach_of_run (machine true 2) (fun m _ a => Plain m a)
      (fun m _ a => decide (Plain m a)) (fun _ _ _ h => of_decide_eq_true h) (initial (α := Nat) (ε := Nat) 2)
      [.call .await, .act 2 .go, .act 1 (.finish (.exc 8)), .act 0 (.finish (.exc 7)), .act 1 .go, .act 1 .go, .act 0 .go, .act 0 .go,
        .act 0 .go, .act 2 .go, .act 2 .go, .act 2 .go]
      (fun s => decide (s.mem.returned = [.group [8, 7]]) && decide (s.mem.outcome 0 = some (.exc 7))) (by decide)
    simp only [Bool.and_eq_true, decide_eq_true_eq] at hp
    exact ⟨s, hs, hp.1, (spawn_collects_results true 2 s hs).2.2.1 ⟨0, by decide, 7, hp.2⟩ _ (by simp [hp.1])⟩

end Tonio.Spawn
