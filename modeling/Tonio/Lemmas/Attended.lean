import Tonio.Lemmas.Senders

/-!
# Senders that stay with their messages

Where no `send` is cancelled before its message was pulled, every queued message that has an event has its sender parked beside it
(`Attended`). The messages without an event are at most `size`, so the queue is no longer than `size` and the parked senders.
-/

namespace Tonio.Channel

open Interleaving

variable {α : Type} {size : Nat}

/-- Every queued message that has an event has its sender parked, and what was cancelled was pulled before. -/
structure Attended (m : Mem α) (ops : List (Op α)) : Prop where
  parked : ∀ x n, (x, some n) ∈ m.queue → Op.waitSend x n ∈ ops
  pulled : ∀ x, Outcome.sendCancelled x ∈ m.history → x ∈ m.dequeued

/-- A message that was pulled is not queued. -/
theorem not_queued {ok : Mem α → List (Op α) → Act (Op α) Choice (List (Cmd α)) → Prop} {P : Chan} {s : State (Mem α) (Op α)}
    (h : P.machine.Reach ok initial s) {x : Msg α} (hx : x ∈ s.mem.dequeued) : x ∉ s.mem.queue.map Prod.fst := by
  have hnd : (s.mem.dequeued ++ s.mem.queue.map Prod.fst).Nodup := (Delivery.reach h).order ▸ nodup_accepted h
  intro hq
  exact (List.nodup_append.mp hnd).2.2 x hx x hq rfl

/-- A parked `send` whose message was not pulled has it in the queue. -/
theorem queued_of_parked {ok : Mem α → List (Op α) → Act (Op α) Choice (List (Cmd α)) → Prop} {s : State (Mem α) (Op α)}
    (h : (channel size).machine.Reach ok initial s) {x : Msg α} {n : Nat} (hw : Op.waitSend x n ∈ s.ops) (hx : x ∉ s.mem.dequeued) :
    (x, some n) ∈ s.mem.queue := by
  have hS := Senders.reach h
  rcases hS.parked n x hw with hq | hl | hr
  · exact hq
  · have hflight : x ∈ s.ops.flatMap Op.inFlight := List.mem_flatMap.mpr ⟨_, hl, List.mem_singleton_self x⟩
    exact absurd ((Delivery.reach h).returned.subset (List.mem_append_right _ hflight)) hx
  · exact absurd (hS.pulled n x hr (Or.inr ⟨_, hw, rfl⟩)) hx

/-- The end of the wait of a `send` whose message is queued. -/
theorem exec_waitSend {P : Chan} {m m' : Mem α} {x : Msg α} {n : Nat} {c : Choice} {new : List (Op α)}
    (he : P.exec m (.waitSend x n) c = some (m', new)) : m.flag (.tx n) = true ∨ c = .cancel := by
  cases exec_move he with
  | sendCancelled => exact Or.inr rfl
  | resume _ _ hf => exact Or.inl hf
  | pull hop _ => rcases hop with hop | hop <;> cases hop
  | receiveRaised hop _ _ => rcases hop with hop | hop <;> cases hop

theorem Attended.exec {m m' : Mem α} {A B new : List (Op α)} {op : Op α} {c : Choice} (h : Attended m (A ++ op :: B))
    (hS : Senders m (A ++ op :: B)) (hq : ∀ x ∈ m.dequeued, x ∉ m.queue.map Prod.fst)
    (hok : ¬Abandons m (.exec op c)) (he : (channel size).exec m op c = some (m', new)) : Attended m' (A ++ (new ++ B)) := by
  have hs := exec_sends he
  refine ⟨fun x n hx => ?_, fun x hx => ?_⟩
  · rcases hs.queue_cases hx with hold | rfl | hnone
    · have hw := h.parked x n hold
      by_cases hop : Op.waitSend x n = op
      · -- the wait of a queued message does not end
        subst hop
        have hpulled : x ∈ m.dequeued := by
          rcases exec_waitSend he with hf | rfl
          · exact hS.pulled n x (Or.inl hf) (Senders.owns_self rfl)
          · by_contra hne
            exact hok hne
        exact absurd (List.mem_map_of_mem (f := Prod.fst) hold) (hq x hpulled)
      · exact Machine.mem_keep hw hop
    · obtain ⟨rfl, rfl⟩ := Prod.mk.inj (Option.some.inj (by cases c <;> first | exact he | cases he))
      exact Machine.mem_new (List.mem_append_right _ (List.mem_singleton_self _))
    · cases hnone
  · rcases exec_history he with hh | ⟨o, ho, rfl, rfl⟩
    · exact (Senders.grows hs).2 x (h.pulled x (hh ▸ hx))
    · rcases List.mem_append.mp hx with hx | hx
      · exact (Senders.grows hs).2 x (h.pulled x hx)
      · obtain rfl := List.mem_singleton.mp hx
        obtain ⟨⟨n, rfl⟩, rfl⟩ := ho
        by_contra hne
        exact hok hne

theorem Attended.reach {s : State (Mem α) (Op α)} (h : (channel size).machine.Reach (fun m _ a => ¬Abandons m a) initial s) :
    Attended s.mem s.ops := by
  refine h.invariant_with (J := fun m ops => Senders m ops ∧ ∀ x ∈ m.dequeued, x ∉ m.queue.map Prod.fst)
    (fun hr => ⟨Senders.reach hr, fun x hx => not_queued hr hx⟩)
    ⟨fun x n hx => absurd hx List.not_mem_nil, fun x hx => absurd hx List.not_mem_nil⟩ ?_ ?_
  · intro m A op B c m' new hJ hI hok he
    exact hI.exec hJ.1 hJ.2 hok he
  · intro m ops cmds m' new _ hI _ hc
    obtain ⟨rfl, rfl⟩ := Prod.mk.inj (Option.some.inj hc)
    exact ⟨fun x n hx => List.mem_append_left _ (hI.parked x n hx), hI.pulled⟩

/-- The queued messages that have an event are no more than the parked senders. -/
theorem Attended.countP_le {m : Mem α} {ops : List (Op α)} (h : Attended m ops) (hn : (m.queue.map Prod.fst).Nodup) :
    m.queue.countP (·.2.isSome) ≤ ops.countP Op.parked := by
  have hnd : (m.queue.filterMap (fun e => e.2.map (Op.waitSend e.1))).Nodup := by
    refine List.Nodup.filterMap ?_ hn.of_map
    rintro ⟨x, w⟩ ⟨y, v⟩ op hx hy
    obtain ⟨n, rfl, rfl⟩ := Option.map_eq_some_iff.mp hx
    obtain ⟨k, rfl, hop⟩ := Option.map_eq_some_iff.mp hy
    cases hop
    rfl
  have hsub : (m.queue.filterMap (fun e => e.2.map (Op.waitSend e.1))).Subperm ops := by
    refine List.subperm_of_subset hnd (fun op hop => ?_)
    obtain ⟨⟨x, w⟩, he, hw⟩ := List.mem_filterMap.mp hop
    obtain ⟨n, rfl, rfl⟩ := Option.map_eq_some_iff.mp hw
    exact h.parked x n he
  have hall : ∀ q : List (Msg α × Option Nat),
      (q.filterMap (fun e => e.2.map (Op.waitSend e.1))).countP Op.parked = q.countP (·.2.isSome) := by
    intro q
    induction q with
    | nil => rfl
    | cons e q ih =>
      obtain ⟨x, w⟩ := e
      cases w with
      | none => simpa using ih
      | some n =>
        have hpark : (Op.waitSend x n).parked = true := rfl
        simpa [List.countP_cons, hpark] using ih
  rw [← hall m.queue]
  exact hsub.countP_le _

end Tonio.Channel
