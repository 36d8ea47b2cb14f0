import Tonio.Interleaving.Weight

/-!
# Pending operations without their threads

Where a statement only counts the pending operations, or says that one is among them, the threads they belong to do not matter. `Soup`
has the memories and the pending operations that come about when any of them may be performed next. Every state of a run is in it
(`Reach.soup`); and when a larger machine performs operations of a smaller one among its own, what it has of them is in the soup of the
smaller one, in whatever threads they are. So what is kept by every operation of the smaller machine holds inside the larger one
(`Soup.invariant`).
-/

namespace Interleaving

variable {M O C L : Type*}

namespace Machine

/-- What comes about from `m₀` and `ops₀` when any pending operation may be performed next, by steps that meet the condition `ok`. -/
inductive Soup (P : Machine M O C L) (ok : M → List O → Act O C L → Prop) (m₀ : M) (ops₀ : List O) : M → List O → Prop where
  | init : Soup P ok m₀ ops₀ m₀ ops₀
  | exec {m m' : M} {A B new : List O} {op : O} {c : C} (h : Soup P ok m₀ ops₀ m (A ++ op :: B)) (hok : ok m (A ++ op :: B) (.exec op c))
      (he : P.exec m op c = some (m', new)) : Soup P ok m₀ ops₀ m' (A ++ (new ++ B))
  | call {m m' : M} {ops new : List O} {l : L} (h : Soup P ok m₀ ops₀ m ops) (hok : ok m ops (.call l))
      (hc : P.call m l = some (m', new)) : Soup P ok m₀ ops₀ m' (ops ++ new)
  | perm {m : M} {ops ops' : List O} (h : Soup P ok m₀ ops₀ m ops) (hp : ops.Perm ops') : Soup P ok m₀ ops₀ m ops'

variable {P : Machine M O C L} {ok : M → List O → Act O C L → Prop} {m₀ m : M} {ops₀ ops : List O}

/-- The threads of a machine are one way to pick the next operation. -/
theorem Reach.soup {s₀ s : State M O} (h : P.Reach ok s₀ s) : P.Soup ok s₀.mem s₀.ops s.mem s.ops := by
  induction h with
  | init => exact .init
  | step _ hok hs ih =>
    rcases hs.ops_eq with ⟨A, op, B, c, new, rfl, ho, he, ho'⟩ | ⟨l, new, rfl, hc, ho'⟩
    · rw [ho] at ih hok
      rw [ho']
      exact .exec ih hok he
    · rw [ho']
      exact .call ih hok hc

/-- The invariant rule: what does not depend on the order of the pending operations, holds at the start and is kept by every operation and
every call, holds of the soup. -/
theorem Soup.invariant {I : M → List O → Prop} (h : P.Soup ok m₀ ops₀ m ops) (hperm : ∀ {m xs ys}, xs.Perm ys → I m xs → I m ys)
    (h₀ : I m₀ ops₀)
    (hexec : ∀ m A op B c m' new, I m (A ++ op :: B) → ok m (A ++ op :: B) (.exec op c) → P.exec m op c = some (m', new) →
      I m' (A ++ (new ++ B)))
    (hcall : ∀ m ops l m' new, I m ops → ok m ops (.call l) → P.call m l = some (m', new) → I m' (ops ++ new)) : I m ops := by
  induction h with
  | init => exact h₀
  | exec _ hok he ih => exact hexec _ _ _ _ _ _ _ ih hok he
  | call _ hok hc ih => exact hcall _ _ _ _ _ ih hok hc
  | perm _ hp ih => exact hperm hp ih

/-- The same on top of what is already known. -/
theorem Soup.and {I J : M → List O → Prop} (h : P.Soup ok m₀ ops₀ m ops) (hJ : ∀ {m ops}, P.Soup ok m₀ ops₀ m ops → J m ops)
    (hperm : ∀ {m xs ys}, xs.Perm ys → I m xs → I m ys) (h₀ : I m₀ ops₀)
    (hexec : ∀ m A op B c m' new, J m (A ++ op :: B) → I m (A ++ op :: B) → P.exec m op c = some (m', new) → I m' (A ++ (new ++ B)))
    (hcall : ∀ m ops l m' new, J m ops → I m ops → P.call m l = some (m', new) → I m' (ops ++ new)) : I m ops := by
  induction h with
  | init => exact h₀
  | exec hs _ he ih => exact hexec _ _ _ _ _ _ _ (hJ hs) ih he
  | call hs _ hc ih => exact hcall _ _ _ _ _ (hJ hs) ih hc
  | perm _ hp ih => exact hperm hp ih

/-! ## The part of a larger machine -/

variable {U : Type*} {f : U → Option O} {A B new : List U} {u : U} {added : List O}

/-- A larger machine performs an operation of its part and goes on with others of it: the operations that follow in the part, and
what it calls there. -/
theorem Soup.part_exec {o : O} {c : C} {m' : M} {fresh : List O} (h : P.Soup ok m₀ ops₀ m ((A ++ u :: B).filterMap f)) (hu : f u = some o)
    (hok : ok m ((A ++ u :: B).filterMap f) (.exec o c)) (he : P.exec m o c = some (m', fresh)) :
    P.Soup ok m₀ ops₀ m' (fresh ++ (A ++ B).filterMap f) := by
  have hsplit : (A ++ u :: B).filterMap f = A.filterMap f ++ o :: B.filterMap f := by
    rw [List.filterMap_append, List.filterMap_cons_some hu]
  rw [hsplit] at h hok
  refine (Soup.exec h hok he).perm ?_
  rw [List.filterMap_append, ← List.append_assoc, ← List.append_assoc]
  exact (List.perm_append_comm).append_right _

/-- What a larger machine has of its part after a step. -/
theorem part_perm (hnew : new.filterMap f = added) : (added ++ (A ++ B).filterMap f).Perm ((A ++ (new ++ B)).filterMap f) := by
  rw [List.filterMap_append, List.filterMap_append, List.filterMap_append, hnew, ← List.append_assoc, ← List.append_assoc]
  exact (List.perm_append_comm).append_right _

/-- A step of a larger machine that is none of its part. -/
theorem Soup.part_stays (h : P.Soup ok m₀ ops₀ m ((A ++ u :: B).filterMap f)) (hnew : new.filterMap f = (f u).toList) :
    P.Soup ok m₀ ops₀ m ((A ++ (new ++ B)).filterMap f) := by
  refine h.perm ?_
  refine List.Perm.trans ?_ (part_perm hnew)
  rw [List.filterMap_append, List.filterMap_append, List.filterMap_cons]
  cases f u with
  | none => exact List.Perm.refl _
  | some o => exact List.perm_middle

end Machine

end Interleaving
