import Tonio.Lemmas.Receivers

/-!
# No signal is lost

Every `set` of the event of a signal is followed by a message, and those that raise its flag have a message each, though they may have two. So the
receiver of a signal that comes while another one is handled misses nothing, however the workers and the coroutine interleave.
-/

namespace Tonio.Receivers

open Interleaving

variable {n : Nat} {s : State (Fin n → Cell × Log) (Fin n × Op)}

/-- What is kept of a cell is kept of every signal of a receiver. -/
theorem kept_of_reach (h : (receiver n).Reach (fun _ _ _ => True) (initial n) s) (k : Fin n) :
    Numbered (s.mem k).1 (s.part k) ∧ Kept (s.mem k).1 (s.mem k).2 (s.part k) := by
  have hpart := h.part k
  exact kept_of_soup (State.part_start _ Op.waiter (List.nodup_finRange n) (List.mem_finRange k) ▸ hpart)

/-- A receiver, in any run: of each signal it has sent at most two messages for each `set` that raised the flag of its event. When nothing is
pending for a signal, it has sent one for each of those at least, and one after the last `set` there was, whether this raised the flag or not. -/
theorem receivers_send_for_every_set (h : (receiver n).Reach (fun _ _ _ => True) (initial n) s) (k : Fin n) :
    (s.mem k).2.sent ≤ 2 * (s.mem k).2.sets ∧
      (AtRest (s.mem k).1 (s.part k) → (s.mem k).2.sets ≤ (s.mem k).2.sent ∧ (s.mem k).2.owed = false) := by
  obtain ⟨hn, hk⟩ := kept_of_reach h k
  refine ⟨?_, fun hrest => ?_⟩
  · have := hk.upper
    omega
  · have := hk.at_rest hn hrest
    exact ⟨this.1, this.2.1⟩

/-- One `set` may have two messages: the coroutine finds the flag up before the `set` has come to notify, and waits again by the time it does. -/
theorem receivers_send_for_every_set_twice :
    ∃ s, (receiver 1).Reach (fun _ _ _ => True) (initial 1) s ∧ (s.mem 0).2.sets = 1 ∧ (s.mem 0).2.sent = 2 ∧
      (s.mem 0).2.sent ≤ 2 * (s.mem 0).2.sets ∧ (s.mem 0).2.owed = false := by
  obtain ⟨s, hs, hp⟩ := Machine.exists_reach_of_run (receiver 1) (fun _ _ _ => True) (fun _ _ _ => true) (fun _ _ _ _ => trivial) (initial 1)
    (List.flatten [[.call (0, .set), .act 1 ()], List.replicate 4 (.act 0 ()), [.call (0, .work)], List.replicate 8 (.act 2 ()),
      List.replicate 3 (.act 1 ()), [.call (0, .work)], List.replicate 7 (.act 3 ())])
    (fun s => decide ((s.mem 0).2.sets = 1) && decide ((s.mem 0).2.sent = 2) && decide (s.part 0 = []) && decide ((s.mem 0).1.handles = 0))
    (by decide)
  simp only [Bool.and_eq_true, decide_eq_true_eq] at hp
  have hsend := receivers_send_for_every_set hs 0
  exact ⟨s, hs, hp.1.1.1, hp.1.1.2, hsend.1, (hsend.2 ⟨hp.1.2, hp.2⟩).2⟩

/-- Threads have one operation each. -/
theorem short_of_reach (h : (receiver n).Reach (fun _ _ _ => True) (initial n) s) : ∀ t ∈ s.pool, t.length ≤ 1 := by
  refine h.short ?_ ?_ ?_
  · intro t ht
    obtain ⟨k, -, rfl⟩ := List.mem_map.mp ht
    exact Nat.le_refl 1
  · intro m op c m' new he
    obtain ⟨x, added, hx, -, rfl⟩ := Machine.family_exec he
    rw [List.length_map]
    exact (exec_move hx).length_le
  · intro m l m' new hc
    obtain ⟨x, added, hx, -, rfl⟩ := Machine.family_call hc
    rw [List.length_map]
    exact call_length_le hx

/-- Every step but a `set` makes the measures of the signals smaller, together. -/
theorem measure_lt {s' : State (Fin n → Cell × Log) (Fin n × Op)} {a : Act (Fin n × Op) Unit (Fin n × Call)}
    (h : (receiver n).Reach (fun _ _ _ => True) (initial n) s) (hset : ¬IsSet a) (hs : (receiver n).Step s a s') :
    ∑ k, measure (s'.mem k) (s'.part k) < ∑ k, measure (s.mem k) (s.part k) := by
  refine hs.sum_lt measure (fun k hk => ?_)
  obtain ⟨hnum, hkept⟩ := kept_of_reach h k
  generalize s.mem k = m at hnum hkept hk
  generalize s.part k = ops at hnum hkept hk
  generalize s'.mem k = m' at hk
  generalize s'.part k = ops' at hk
  cases hk with
  | exec he => exact measure_move hnum hkept (exec_move he)
  | @call m m' ops new l hc =>
    cases l with
    | set => exact absurd trivial hset
    | work => exact measure_work hc

/-- What is pending for a signal can be done, by a step that is no `set`. -/
theorem exists_step (h : (receiver n).Reach (fun _ _ _ => True) (initial n) s) {k : Fin n} (hrest : ¬AtRest (s.mem k).1 (s.part k)) :
    ∃ a s', (receiver n).Step s a s' ∧ ¬IsSet a := by
  by_cases hhandles : (s.mem k).1.handles = 0
  · obtain ⟨op, hop⟩ := List.exists_mem_of_ne_nil _ (fun hnil => hrest ⟨hnil, hhandles⟩)
    obtain ⟨x, hx, r, hr⟩ := exists_exec (kept_of_reach h k).2 hop
    have hmem : (k, x) ∈ s.ops := by
      obtain ⟨⟨j, y⟩, hy, hjy⟩ := List.mem_filterMap.mp hx
      unfold ofKey at hjy
      split at hjy
      · rename_i hj
        obtain rfl : j = k := hj
        obtain rfl : y = x := Option.some.inj hjy
        exact hy
      · cases hjy
    have hexec : (receiver n).exec s.mem (k, x) () = some (Function.update s.mem k r.1, r.2.map (fun o => (k, o))) :=
      Option.map_eq_some_iff.mpr ⟨r, hr, rfl⟩
    obtain ⟨s', hs, -, -⟩ := Machine.exists_step (short_of_reach h) hmem hexec
    exact ⟨_, s', hs, id⟩
  · obtain ⟨r, hr⟩ := exists_work (g := (s.mem k).2) hhandles
    have hcall : (receiver n).call s.mem (k, .work) = some (Function.update s.mem k r.1, r.2.map (fun o => (k, o))) :=
      Option.map_eq_some_iff.mpr ⟨r, hr, rfl⟩
    exact ⟨_, _, .call hcall, id⟩

/-- A receiver, from any state of any run: while no further signal comes, it does not go on forever, and it stops with nothing pending for any of its
signals: no `set` waits for the mutex, no message is still to be sent, and every coroutine waits. -/
theorem receivers_come_to_rest (h : (receiver n).Reach (fun _ _ _ => True) (initial n) s) :
    (∀ run : Nat → State (Fin n → Cell × Log) (Fin n × Op), run 0 = s →
      ¬∀ i, ∃ a, ¬IsSet a ∧ (receiver n).Step (run i) a (run (i + 1))) ∧
    ((∀ a s', (receiver n).Step s a s' → IsSet a) → ∀ k, AtRest (s.mem k).1 (s.part k)) := by
  refine ⟨fun run hrun => ?_, fun hstop k => ?_⟩
  · subst hrun
    refine Machine.not_forever (fun m ops => ∑ k, measure (m k) (ops.filterMap (ofKey k))) ?_ run
      (.init : (receiver n).Reach (fun _ _ a => ¬IsSet a) (run 0) (run 0))
    intro s a s' hr hset hs
    exact measure_lt (h.trans (hr.mono (fun _ _ _ _ => trivial))) hset hs
  · by_contra hrest
    obtain ⟨a, s', hs, hset⟩ := exists_step h hrest
    exact hset (hstop a s' hs)

/-- Two coroutines that begin to wait come to an end. -/
theorem receivers_come_to_rest_two :
    ¬∃ run : Nat → State (Fin 2 → Cell × Log) (Fin 2 × Op), run 0 = initial 2 ∧
      ∀ i, ∃ a, ¬IsSet a ∧ (receiver 2).Step (run i) a (run (i + 1)) := by
  rintro ⟨run, hrun, hforever⟩
  exact (receivers_come_to_rest .init).1 run hrun hforever

end Tonio.Receivers
