import Tonio.Interleaving.Progress
import Tonio.Interleaving.Soup

/-!
# Families of machines

A system of many parts of one kind that share nothing is a family of machines: its memory has that of a part for every key, and its
operations and calls name the part they are of. A step is a step of one part, and the others stay (`Step.part`). So what is known of a
part by itself is known of every part of the system (`Reach.part`), and a measure of the parts adds up to one of the system
(`Step.sum_lt`).
-/

namespace Interleaving

variable {K M O C L : Type*} [DecidableEq K]

/-- The operation, if it is of a part. -/
def ofKey (k : K) (op : K × O) : Option O := if op.1 = k then some op.2 else none

@[simp] theorem ofKey_self (k : K) (o : O) : ofKey k (k, o) = some o := if_pos rfl

theorem ofKey_of_ne {j k : K} (h : j ≠ k) (o : O) : ofKey k (j, o) = none := if_neg h

@[simp] theorem filterMap_ofKey_self (k : K) (ops : List O) : (ops.map (fun o => (k, o))).filterMap (ofKey k) = ops := by
  simp [List.filterMap_map]

theorem filterMap_ofKey_of_ne {j k : K} (h : j ≠ k) (ops : List O) : (ops.map (fun o => (j, o))).filterMap (ofKey k) = [] := by
  simp [List.filterMap_map, ofKey_of_ne h]

/-- The pending operations of a part. -/
def State.part (s : State (K → M) (K × O)) (k : K) : List O := s.ops.filterMap (ofKey k)

/-- A key that stands once in a list. -/
theorem filterMap_ofKey_nodup (o : O) {keys : List K} (hn : keys.Nodup) {k : K} (hk : k ∈ keys) :
    (keys.map (fun j => (j, o))).filterMap (ofKey k) = [o] := by
  obtain ⟨A, B, rfl⟩ := List.append_of_mem hk
  have hnil : ∀ xs : List K, k ∉ xs → (xs.map (fun j => (j, o))).filterMap (ofKey k) = [] := by
    intro xs hxs
    rw [List.filterMap_map, List.filterMap_eq_nil_iff]
    intro j hj
    refine ofKey_of_ne (fun h => hxs ?_) o
    exact h ▸ hj
  have hnot := List.nodup_middle.mp hn |> List.nodup_cons.mp |>.1
  rw [List.mem_append, not_or] at hnot
  rw [List.map_append, List.map_cons, List.filterMap_append, List.filterMap_cons_some (ofKey_self k o), hnil A hnot.1, hnil B hnot.2,
    List.nil_append]

/-- A family whose parts begin with one operation each. -/
theorem State.part_start (m : K → M) (o : O) {keys : List K} (hn : keys.Nodup) {k : K} (hk : k ∈ keys) :
    State.part ⟨m, keys.map (fun j => [(j, o)])⟩ k = [o] := by
  have hflat : (keys.map (fun j => [(j, o)])).flatten = keys.map (fun j => (j, o)) := by
    rw [← List.flatMap_def, ← List.map_eq_flatMap]
  rw [State.part, State.ops, hflat]
  exact filterMap_ofKey_nodup o hn hk

namespace Machine

/-- One machine for each key. -/
def family (P : Machine M O C L) (K : Type*) [DecidableEq K] : Machine (K → M) (K × O) C (K × L) where
  exec m op c := (P.exec (m op.1) op.2 c).map (fun r => (Function.update m op.1 r.1, r.2.map (fun o => (op.1, o))))
  call m l := (P.call (m l.1) l.2).map (fun r => (Function.update m l.1 r.1, r.2.map (fun o => (l.1, o))))

variable {P : Machine M O C L} {m m' : K → M} {new : List (K × O)}

theorem family_exec {op : K × O} {c : C} (h : (P.family K).exec m op c = some (m', new)) :
    ∃ x added, P.exec (m op.1) op.2 c = some (x, added) ∧ m' = Function.update m op.1 x ∧ new = added.map (fun o => (op.1, o)) := by
  obtain ⟨r, he, hr⟩ := Option.map_eq_some_iff.mp h
  obtain ⟨rfl, rfl⟩ := Prod.mk.inj hr
  exact ⟨r.1, r.2, he, rfl, rfl⟩

theorem family_call {l : K × L} (h : (P.family K).call m l = some (m', new)) :
    ∃ x added, P.call (m l.1) l.2 = some (x, added) ∧ m' = Function.update m l.1 x ∧ new = added.map (fun o => (l.1, o)) := by
  obtain ⟨r, hc, hr⟩ := Option.map_eq_some_iff.mp h
  obtain ⟨rfl, rfl⟩ := Prod.mk.inj hr
  exact ⟨r.1, r.2, hc, rfl, rfl⟩

variable {ok : (K → M) → List (K × O) → Act (K × O) C (K × L) → Prop} {s₀ s s' : State (K → M) (K × O)} {a : Act (K × O) C (K × L)}

/-- What a step does to the part it is of: its act there, its memory, and what is pending. -/
inductive PartStep (P : Machine M O C L) (k : K) : Act (K × O) C (K × L) → M → List O → M → List O → Prop
  | exec {m m' : M} {A B new : List O} {o : O} {c : C} (he : P.exec m o c = some (m', new)) :
    PartStep P k (.exec (k, o) c) m (A ++ o :: B) m' (A ++ (new ++ B))
  | call {m m' : M} {ops new : List O} {l : L} (hc : P.call m l = some (m', new)) : PartStep P k (.call (k, l)) m ops m' (ops ++ new)

/-- A step is a step of one part, and the others stay. -/
theorem Step.part (h : (P.family K).Step s a s') :
    ∃ k, PartStep P k a (s.mem k) (s.part k) (s'.mem k) (s'.part k) ∧ ∀ j, j ≠ k → s'.mem j = s.mem j ∧ s'.part j = s.part j := by
  rcases h.ops_eq with ⟨A, ⟨k, o⟩, B, c, new, rfl, ho, he, ho'⟩ | ⟨⟨k, l⟩, new, rfl, hc, ho'⟩
  · obtain ⟨x, added, hx, hm, rfl⟩ := family_exec he
    refine ⟨k, ?_, fun j hj => ⟨?_, ?_⟩⟩
    · have hs : s.part k = A.filterMap (ofKey k) ++ o :: B.filterMap (ofKey k) := by
        rw [State.part, ho, List.filterMap_append, List.filterMap_cons_some (ofKey_self k o)]
      have hs' : s'.part k = A.filterMap (ofKey k) ++ (added ++ B.filterMap (ofKey k)) := by
        rw [State.part, ho', List.filterMap_append, List.filterMap_append, filterMap_ofKey_self]
      rw [hs, hs', hm, Function.update_self]
      exact .exec hx
    · rw [hm, Function.update_of_ne hj]
    · rw [State.part, State.part, ho, ho', List.filterMap_append, List.filterMap_append, List.filterMap_append,
        List.filterMap_cons_none (ofKey_of_ne (Ne.symm hj) o), filterMap_ofKey_of_ne (Ne.symm hj), List.nil_append]
  · obtain ⟨x, added, hx, hm, rfl⟩ := family_call hc
    refine ⟨k, ?_, fun j hj => ⟨?_, ?_⟩⟩
    · have hs' : s'.part k = s.part k ++ added := by
        rw [State.part, ho', List.filterMap_append, filterMap_ofKey_self]
        rfl
      rw [hs', hm, Function.update_self]
      exact .call hx
    · rw [hm, Function.update_of_ne hj]
    · rw [State.part, State.part, ho', List.filterMap_append, filterMap_ofKey_of_ne (Ne.symm hj), List.append_nil]

/-- A run is one of every part. -/
theorem Reach.part (h : (P.family K).Reach ok s₀ s) (k : K) :
    P.Soup (fun _ _ _ => True) (s₀.mem k) (s₀.part k) (s.mem k) (s.part k) := by
  induction h with
  | init => exact .init
  | @step s s' a _ _ hs ih =>
    obtain ⟨j, hj, hstays⟩ := hs.part
    by_cases hkj : k = j
    · subst hkj
      generalize s.mem k = m at ih hj
      generalize s.part k = ops at ih hj
      generalize s'.mem k = m' at hj
      generalize s'.part k = ops' at hj
      cases hj with
      | exec he => exact .exec ih trivial he
      | call hc => exact .call ih trivial hc
    · rw [(hstays k hkj).1, (hstays k hkj).2]
      exact ih

/-- A measure that a step makes smaller in its part is smaller in all. -/
theorem Step.sum_lt [Fintype K] (μ : M → List O → Nat) (h : (P.family K).Step s a s')
    (hμ : ∀ k, PartStep P k a (s.mem k) (s.part k) (s'.mem k) (s'.part k) → μ (s'.mem k) (s'.part k) < μ (s.mem k) (s.part k)) :
    ∑ k, μ (s'.mem k) (s'.part k) < ∑ k, μ (s.mem k) (s.part k) := by
  obtain ⟨k, hk, hstays⟩ := h.part
  refine Finset.sum_lt_sum (fun j _ => ?_) ⟨k, Finset.mem_univ k, hμ k hk⟩
  by_cases hjk : j = k
  · subst hjk
    exact Nat.le_of_lt (hμ j hk)
  · rw [(hstays j hjk).1, (hstays j hjk).2]

end Machine

end Interleaving
