import Tonio.Await
import Tonio.Lemmas.Outcome

/-!
# What a caller of `spawn_blocking` reads

The pool does under the callers of `spawn_blocking` what it does alone: the invariants of its runs hold of the operations of the pool among
those pending (`Pooled`). So what a caller reads is what one party has stored so far.
-/

namespace Tonio.Blocking

open Interleaving

variable {α : Type} {tmax : Nat} {m m' : Mem α} {new ops ops' : List (Op α)} {op : Op α} {c : Choice α} {k : Nat}

/-- The invariant speaks of the operations that act on a task, wherever they stand. -/
theorem Reported.of_same (h : Reported m ops) (hmem : ∀ x ∈ ops', x.acts ≠ none → x ∈ ops)
    (ht : ∀ k, total (acting k) ops' = total (acting k) ops) : Reported m ops' :=
  ⟨fun x hx k hk => h.place x (hmem x hx (by simp [hk])) k hk, fun k => (ht k).symm ▸ h.solo k, fun k hz => h.settled k ((ht k) ▸ hz)⟩

/-- An event stays set. -/
theorem Move.event_mono (h : Move tmax m op c m' new) (he : (m.ctl k).event = true) : (m'.ctl k).event = true := by
  cases h with
  | beginTid t j | begun t j | beginUndo t j | finishTid t j | finishState t j | notify p j | cancelled n j =>
    by_cases hjk : k = j
    · subst hjk
      simp [he]
    · simp [onCtl_ctl_of_ne _ _ hjk, he]
  | store0 p j o | store1 p j o =>
    by_cases hjk : k = j
    · subst hjk
      simp [Mem.store, he]
    · simp [Mem.store, onCtl_ctl_of_ne _ _ hjk, he]
  | _ => simpa [Mem.setAlive] using he

end Tonio.Blocking

namespace Tonio.Await

open Interleaving
open Tonio.Blocking (Obj Outcome Party Reported Replays)

variable {α : Type} {tmax : Nat} {m m' : Mem α} {A B new ops : List (Op α)} {op : Op α} {c : Choice α} {k : Nat}

/-- The operation of the pool that an operation is. -/
def Op.pooled : Op α → Option (Blocking.Op α)
  | .pool op => some op
  | _ => none

/-- The operations of the pool among those pending. -/
def pooled (ops : List (Op α)) : List (Blocking.Op α) := ops.filterMap Op.pooled

@[simp] theorem pooled_append (A B : List (Op α)) : pooled (A ++ B) = pooled A ++ pooled B := List.filterMap_append

@[simp] theorem pooled_cons_pool (op : Blocking.Op α) (ops : List (Op α)) : pooled (.pool op :: ops) = op :: pooled ops := rfl

@[simp] theorem pooled_map (ops : List (Blocking.Op α)) : pooled (ops.map .pool) = ops := by
  induction ops with
  | nil => rfl
  | cons x ops ih => rw [List.map_cons, pooled_cons_pool, ih]

/-- What an operation does: the pool moves; a thread of it is born; a caller looks at the event, reads, aborts, or is through. -/
inductive Move (tmax : Nat) (m : Mem α) : Op α → Choice α → Mem α → List (Op α) → Prop
  | pool {x : Blocking.Op α} {c : Blocking.Choice α} {p : Blocking.Mem α} {new : List (Blocking.Op α)}
      (h : Blocking.Move tmax m.pool x c p new) : Move tmax m (.pool x) (.pool c) { m with pool := p } (new.map .pool)
  | birth {t : Nat} {p : Blocking.Mem α} (h : Blocking.Move tmax m.pool .incThreads (.ident t) p [.giveBudget t]) :
      Move tmax m (.pool .incThreads) (.pool (.ident t)) { m with pool := p, born := m.born ++ [t] } []
  | wait (k : Nat) (c : Choice α) : Move tmax m (.wait k) c m [.fetch k false]
  | fetch (k : Nat) (again : Bool) : Move tmax m (.fetch k again) .go (m.fetch k again).1 (m.fetch k again).2
  | abort {k : Nat} {p : Blocking.Mem α} {new : List (Blocking.Op α)} (h : Blocking.call m.pool (.abort k) = some (p, new)) :
      Move tmax m (.abort k) .go { m with pool := p } (new.map .pool ++ [.waitAgain k])
  | waitAgain (k : Nat) (he : (m.pool.ctl k).event = true) : Move tmax m (.waitAgain k) .go m [.fetch k true]
  | cancelled (k : Nat) : Move tmax m (.waitAgain k) .cancel (m.ended k .cancelled) []

theorem exec_move (he : exec tmax m op c = some (m', new)) : Move tmax m op c m' new := by
  cases op with
  | pool x =>
    cases c with
    | pool c =>
      by_cases hb : ∃ t, x = .incThreads ∧ c = .ident t
      · obtain ⟨t, rfl, rfl⟩ := hb
        obtain ⟨⟨p, new'⟩, hp, heq⟩ := Option.map_eq_some_iff.mp he
        obtain ⟨rfl, rfl⟩ := Prod.mk.inj heq
        have hm := Blocking.exec_move hp
        cases hm with
        | start _ ht ha => exact .birth (.start t ht ha)
      · have heq : exec tmax m (.pool x) (.pool c) =
            (Blocking.exec tmax m.pool x c).map (fun r => ({ m with pool := r.1 }, r.2.map .pool)) := by
          unfold exec
          split <;> simp_all
        rw [heq] at he
        obtain ⟨⟨p, new'⟩, hp, heq⟩ := Option.map_eq_some_iff.mp he
        obtain ⟨rfl, rfl⟩ := Prod.mk.inj heq
        exact .pool (Blocking.exec_move hp)
    | go => cases x <;> cases he
    | cancel => cases x <;> cases he
  | wait k =>
    cases c with
    | pool c => cases he
    | go =>
      simp only [exec] at he
      split at he
      · obtain ⟨rfl, rfl⟩ := Prod.mk.inj (Option.some.inj he)
        exact .wait k .go
      · cases he
    | cancel =>
      obtain ⟨rfl, rfl⟩ := Prod.mk.inj (Option.some.inj he)
      exact .wait k .cancel
  | fetch k again =>
    cases c with
    | go =>
      obtain ⟨rfl, rfl⟩ : (m.fetch k again).1 = m' ∧ (m.fetch k again).2 = new := by simp [Option.some.inj he]
      exact .fetch k again
    | pool c => cases he
    | cancel => cases he
  | abort k =>
    cases c with
    | go =>
      obtain ⟨⟨p, new'⟩, hp, heq⟩ := Option.map_eq_some_iff.mp he
      obtain ⟨rfl, rfl⟩ := Prod.mk.inj heq
      exact .abort hp
    | pool c => cases he
    | cancel => cases he
  | waitAgain k =>
    cases c with
    | pool c => cases he
    | go =>
      simp only [exec] at he
      split at he
      · rename_i hev
        obtain ⟨rfl, rfl⟩ := Prod.mk.inj (Option.some.inj he)
        exact .waitAgain k hev
      · cases he
    | cancel =>
      obtain ⟨rfl, rfl⟩ := Prod.mk.inj (Option.some.inj he)
      exact .cancelled k

/-- The invariants of the pool, and that a second look is taken when the event is set. -/
structure Pooled (m : Mem α) (ops : List (Op α)) : Prop where
  reported : Reported m.pool (pooled ops)
  replays : Replays m.pool
  again : ∀ k, Op.fetch k true ∈ ops → (m.pool.ctl k).event = true

/-- A caller reads, and the pool is as it was. -/
theorem fetch_keeps (m : Mem α) (k : Nat) (again : Bool) :
    (m.fetch k again).1.pool = m.pool ∧ pooled (m.fetch k again).2 = [] ∧ ∀ j, Op.fetch j true ∉ (m.fetch k again).2 := by
  unfold Mem.fetch
  split <;> exact ⟨rfl, rfl, by simp⟩

/-- A step of a caller that leaves the pool alone. -/
theorem Pooled.caller (h : Pooled m (A ++ op :: B)) (hop : op.pooled = none) (hp : m'.pool = m.pool) (hnew : pooled new = [])
    (hagain : ∀ k, Op.fetch k true ∈ new → (m.pool.ctl k).event = true) : Pooled m' (A ++ (new ++ B)) := by
  have hpooled : pooled (A ++ (new ++ B)) = pooled (A ++ op :: B) := by
    simp only [pooled_append, hnew, List.nil_append]
    rw [pooled, pooled, pooled, List.filterMap_cons, hop]
  refine ⟨?_, hp ▸ h.replays, fun k hk => ?_⟩
  · rw [hp, hpooled]
    exact h.reported
  · rw [hp]
    rcases Machine.mem_cases op hk with hk | hk
    · exact hagain k hk
    · exact h.again k hk

theorem Pooled.exec (h : Pooled m (A ++ op :: B)) (hm : Move tmax m op c m' new) : Pooled m' (A ++ (new ++ B)) := by
  cases hm with
  | @pool x c p new hm =>
    have hr := h.reported
    rw [pooled_append, pooled_cons_pool] at hr
    refine ⟨?_, h.replays.move hm, fun k hk => ?_⟩
    · rw [pooled_append, pooled_append, pooled_map]
      exact hr.move hm
    · rcases Machine.mem_beside hk with hk | hk
      · simp at hk
      · exact hm.event_mono (h.again k (Machine.mem_before _ hk))
  | @birth t p hm =>
    have hr := h.reported
    rw [pooled_append, pooled_cons_pool] at hr
    refine ⟨?_, h.replays.move hm, fun k hk => ?_⟩
    · -- a thread that is not under way acts on no task
      have hr' := hr.move hm
      rw [List.nil_append, pooled_append]
      refine hr'.of_same (fun x hx _ => Machine.mem_after _ hx) (fun k => ?_)
      simp [Blocking.acting, Blocking.Op.acts]
    · exact hm.event_mono (h.again k (Machine.mem_before _ (by simpa using hk)))
  | wait k => exact h.caller rfl rfl rfl (by simp)
  | fetch k again =>
    obtain ⟨hp, hnew, hnot⟩ := fetch_keeps m k again
    exact h.caller rfl hp hnew (fun j hj => absurd hj (hnot j))
  | @abort k p new hc =>
    have hr := h.reported
    have hcons : pooled (.abort k :: B) = pooled B := rfl
    rw [pooled_append, hcons] at hr
    obtain ⟨hctl, hhist, -⟩ := Blocking.call_ctl hc
    refine ⟨?_, fun j => ?_, fun j hj => ?_⟩
    · have hsnoc : pooled [(Op.waitAgain k : Op α)] = [] := rfl
      rw [pooled_append, pooled_append, pooled_append, pooled_map, hsnoc, List.append_nil]
      refine (hr.call hc).of_same (fun x hx _ => ?_) (fun j => ?_)
      · simp only [List.mem_append] at hx ⊢
        tauto
      · simp only [total_append]
        omega
    · show (p.ctl j).data = _ ∧ ((p.ctl j).event = true ↔ _)
      rw [hctl, hhist]
      exact h.replays j
    · show (p.ctl j).event = true
      rw [hctl]
      rcases Machine.mem_beside hj with hj | hj
      · simp at hj
      · exact h.again j (Machine.mem_before _ hj)
  | waitAgain k he =>
    refine h.caller rfl rfl rfl (fun j hj => ?_)
    obtain rfl : j = k := by simpa using hj
    exact he
  | cancelled k => exact h.caller rfl rfl rfl (by simp)

theorem Pooled.call {l : Call} (h : Pooled m ops) (hc : Await.call m l = some (m', new)) : Pooled m' (ops ++ new) := by
  cases l with
  | spawnBlocking =>
    simp only [Await.call] at hc
    obtain ⟨⟨p, new'⟩, hp, heq⟩ := Option.map_eq_some_iff.mp hc
    obtain ⟨rfl, rfl⟩ := Prod.mk.inj heq
    obtain ⟨hctl, hhist, -⟩ := Blocking.call_ctl hp
    have hsnoc : pooled [(Op.wait m.pool.next : Op α)] = [] := rfl
    refine ⟨?_, fun j => ?_, fun j hj => ?_⟩
    · rw [pooled_append, pooled_append, pooled_map, hsnoc, List.append_nil]
      exact h.reported.call hp
    · show (p.ctl j).data = _ ∧ ((p.ctl j).event = true ↔ _)
      rw [hctl, hhist]
      exact h.replays j
    · show (p.ctl j).event = true
      rw [hctl]
      exact h.again j (by simpa using hj)
  | thread t =>
    simp only [Await.call] at hc
    split at hc
    · obtain ⟨rfl, rfl⟩ := Prod.mk.inj (Option.some.inj hc)
      refine ⟨?_, h.replays, fun j hj => h.again j (by simpa using hj)⟩
      rw [pooled_append]
      refine h.reported.of_same (fun x hx hacts => ?_) (fun j => ?_)
      · rcases List.mem_append.mp hx with hx | hx
        · exact hx
        · rw [List.mem_singleton.mp hx] at hacts
          exact absurd rfl hacts
      · simp [pooled, Op.pooled, Blocking.acting, Blocking.Op.acts]
    · cases hc

/-- In every state of every run. -/
theorem Pooled.reach {ok : Mem α → List (Op α) → Act (Op α) (Choice α) Call → Prop} {s : State (Mem α) (Op α)}
    (h : (machine tmax).Reach ok initial s) : Pooled s.mem s.ops := by
  refine h.invariant ?_ (fun m A op B c m' new ih _ he => ih.exec (exec_move he)) (fun m ops l m' new ih _ hc => ih.call hc)
  have hinit : (Blocking.machine tmax).Reach (fun _ _ _ => True) (Blocking.initial (α := α)) Blocking.initial := .init
  exact ⟨Blocking.reported_of_reach hinit, Blocking.replays_of_reach hinit, fun k hk => absurd hk List.not_mem_nil⟩

end Tonio.Await
