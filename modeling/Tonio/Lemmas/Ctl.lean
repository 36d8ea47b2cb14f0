import Tonio.Ctl
import Tonio.Interleaving.Progress
import Tonio.Interleaving.Sequential

/-!
# Calls that wait for coroutines

One operation of the caller is pending until the call has a result (`Called`), and each child that was spawned still has to begin, is
under way, or has set both events. So some thread can always go on, and the call comes to an end (`exists_result`). What the call ends
with was read from the slot, which holds what was stored last (`Reads`).
-/

namespace Tonio.Ctl

open Interleaving

variable {α : Type} {f : Fn} {n i : Nat} {m m' : Mem α} {A B new ops : List (Op α)} {op : Op α} {c : Choice α}

/-! ## The steps -/

/-- What an operation does. -/
inductive Move (f : Fn) (n : Nat) (m : Mem α) : Op α → Choice α → Mem α → List (Op α) → Prop
  | passes {i : Nat} {o : Outcome α} (h : o.passes = true) : Move f n m (.run i) (.finish o) m [.store i o none]
  | lost {i : Nat} {o : Outcome α} (leaves : Option Exc) (h : o.passes = false) :
      Move f n m (.run i) (.finish o) m [.setEvent i leaves]
  | store (i : Nat) (o : Outcome α) (leaves : Option Exc) :
      Move f n m (.store i o leaves) .go { m with slot := some o, stored := m.stored ++ [(i, o)] } [.setEvent i leaves]
  | setEvent (i : Nat) (leaves : Option Exc) :
      Move f n m (.setEvent i leaves) .go { m with event := true, unhandled := m.unhandled ++ leaves.toList } [.childEnd i]
  | childEnd (i : Nat) : Move f n m (.childEnd i) .go { m with childEvent := Function.update m.childEvent i true } []
  | spawn (i : Nat) : Move f n m (.spawn i) .go { m with spawned := m.spawned + 1, pending := m.pending ++ [i] } [spawnNext n (i + 1)]
  | waited (h : m.event = true) : Move f n m .wait .go m [f.afterWait]
  | deadline (fl : Flavour) (h : f = .timeout fl) : Move f n m .wait .deadline m [.isSet]
  | waitCancelled {x : Op α} (h : f.waitCancelled = some x) : Move f n m .wait .cancel m [x]
  | isSet : Move f n m .isSet .go m [if m.event then .fetch else .unwind]
  | unwind : Move f n m .unwind .go m [.ends .timedOut]
  | fetch : Move f n m .fetch .go { m with seen := m.stored.map Prod.snd } [f.afterFetch m.slot]
  | cancelScope (r : Option (Result α)) : Move f n m (.cancelScope r) .go { m with cancelled := true } [r.elim .fetch .yieldNow]
  | yieldNow (r : Result α) : Move f n m (.yieldNow r) .go m [.exit r]
  | yieldCancelled (r : Result α) : Move f n m (.yieldNow r) .cancel m [.ends .cancelled]
  | exit (r : Result α) : Move f n m (.exit r) .go
      { m with childEvent := fun i => m.childEvent i || (m.cancelled && decide (i < m.spawned)) } [.join r]
  | join (r : Result α) (h : (List.range m.spawned).all m.childEvent = true) : Move f n m (.join r) .go m [.ends r]
  | joinCancelled (r : Result α) : Move f n m (.join r) .cancel m [.ends .cancelled]
  | ends (r : Result α) : Move f n m (.ends r) .go { m with result := some r } []

/-- A wrapper stores what passes, and nothing leaves it then. -/
theorem Fn.wrapper_of_passes (f : Fn) {o : Outcome α} (h : o.passes = true) : f.wrapper o = (true, none) := by
  cases o with
  | ret v => cases f <;> rfl
  | exc e => cases e with
    | exception k => cases f <;> rfl
    | cancelledError | base k => cases h

theorem Fn.wrapper_of_not_passes (f : Fn) {o : Outcome α} (h : o.passes = false) : (f.wrapper o).1 = false := by
  cases o with
  | ret v => cases h
  | exc e => cases e with
    | exception k => cases h
    | cancelledError | base k => cases f <;> rfl

/-- Every step is one of these. -/
theorem exec_move (he : exec f n m op c = some (m', new)) : Move f n m op c m' new := by
  cases op
  all_goals
    cases c <;> simp only [exec, reduceCtorEq, Option.some.injEq, Prod.mk.injEq] at he
  case run.finish i o =>
    obtain ⟨rfl, rfl⟩ := he
    cases h : o.passes with
    | true =>
      rw [f.wrapper_of_passes h]
      exact .passes h
    | false =>
      rw [f.wrapper_of_not_passes h]
      exact .lost _ h
  case wait.go =>
    split at he
    · rename_i hev
      obtain ⟨rfl, rfl⟩ := Prod.mk.inj (Option.some.inj he)
      exact .waited hev
    · cases he
  case wait.deadline =>
    split at he
    · obtain ⟨rfl, rfl⟩ := Prod.mk.inj (Option.some.inj he)
      exact .deadline _ rfl
    · cases he
  case wait.cancel =>
    obtain ⟨x, hx, heq⟩ := Option.map_eq_some_iff.mp he
    obtain ⟨rfl, rfl⟩ := Prod.mk.inj heq
    exact .waitCancelled hx
  case join.go r =>
    split at he
    · rename_i hall
      obtain ⟨rfl, rfl⟩ := Prod.mk.inj (Option.some.inj he)
      exact .join r hall
    · cases he
  all_goals
    obtain ⟨rfl, rfl⟩ := he
    constructor

/-- A worker gets to one of the children that have not begun. -/
theorem call_eq (hc : call m i = some (m', new)) : i ∈ m.pending ∧ m' = { m with pending := m.pending.erase i } ∧ new = [.run i] := by
  unfold call at hc
  split at hc
  · rename_i hi
    obtain ⟨rfl, rfl⟩ := Prod.mk.inj (Option.some.inj hc)
    exact ⟨hi, rfl, rfl⟩
  · cases hc

/-- One operation follows at most. -/
theorem Move.short (h : Move f n m op c m' new) : new.length ≤ 1 := by
  cases h <;> simp

/-! ## The caller and the children -/

/-- The coroutine whose wrappers an operation belongs to. -/
def Op.child : Op α → Option Nat
  | .run i | .store i _ _ | .setEvent i _ | .childEnd i => some i
  | _ => none

/-- Operations of the caller, once it has spawned the coroutines. -/
def Op.later : Op α → Bool
  | .wait | .isSet | .unwind | .fetch | .cancelScope _ | .yieldNow _ | .exit _ | .join _ | .ends _ => true
  | _ => false

/-- Operations of the caller. -/
def Op.caller (x : Op α) : Bool := x.child.isNone

theorem Op.child_of_later {x : Op α} (hx : x.later = true) : x.child = none := by
  cases x <;> first | rfl | cases hx

theorem afterWait_later (f : Fn) : (f.afterWait : Op α).later = true := by
  cases f with
  | select fl => cases fl <;> rfl
  | blockOn fl | timeout fl => rfl

theorem waitCancelled_later {x : Op α} (h : f.waitCancelled = some x) : x.later = true := by
  cases f with
  | select fl => cases fl <;> exact Option.some.inj h ▸ rfl
  | blockOn fl => cases h
  | timeout fl => exact Option.some.inj h ▸ rfl

theorem afterFetch_later (f : Fn) (o : Option (Outcome α)) : (f.afterFetch o).later = true := by
  cases o <;> cases f with
  | select fl => cases fl <;> rfl
  | blockOn fl | timeout fl => rfl

/-- The caller has one operation to perform, or the call has a result; how far it has got with the coroutines; and where the children are.
-/
structure Called (n : Nat) (m : Mem α) (ops : List (Op α)) : Prop where
  caller : Sequential Op.caller m.result.isSome ops
  spawning : ∀ i, Op.spawn i ∈ ops → m.spawned = i ∧ i < n
  later : ∀ x ∈ ops, x.later = true → m.spawned = n
  children : ∀ i < m.spawned, i ∈ m.pending ∨ (∃ x ∈ ops, x.child = some i) ∨ (m.event = true ∧ m.childEvent i = true)
  ending : ∀ i, Op.childEnd i ∈ ops → m.event = true

/-- While an operation of the caller is performed, no other one is pending and the call has no result. -/
theorem Called.alone (h : Called n m (A ++ op :: B)) (hop : op.child = none) : m.result = none ∧ ∀ x ∈ A ++ B, x.child ≠ none := by
  obtain ⟨hres, halone⟩ := h.caller.alone (Option.isNone_iff_eq_none.mpr hop)
  refine ⟨Option.isNone_iff_eq_none.mp (Option.isSome_eq_false_iff.mp hres), fun x hx hxc => ?_⟩
  have hx := halone x hx
  rw [Op.caller, hxc] at hx
  cases hx

/-- A child that is under way stays so while another operation is performed. -/
theorem child_keep {i : Nat} (hop : op.child = none) (h : ∃ x ∈ A ++ op :: B, x.child = some i) :
    ∃ x ∈ A ++ (new ++ B), x.child = some i := by
  obtain ⟨y, hy, hyi⟩ := h
  refine ⟨y, Machine.mem_keep hy ?_, hyi⟩
  rintro rfl
  rw [hop] at hyi
  cases hyi

/-- A step of the caller after it has spawned the coroutines. -/
theorem Called.stays (h : Called n m (A ++ op :: B)) (hop : op.later = true) {x : Op α} (hx : x.later = true)
    (hs : m'.spawned = m.spawned) (hp : m'.pending = m.pending) (hr : m'.result = m.result) (he : m'.event = m.event)
    (hc : ∀ i, m.childEvent i = true → m'.childEvent i = true) : Called n m' (A ++ ([x] ++ B)) := by
  have hn : m.spawned = n := h.later op (by simp) hop
  have hxc := Op.child_of_later hx
  refine ⟨?_, fun i hi => ?_, fun y _ _ => hs.trans hn, fun i hi => ?_, fun i hi => ?_⟩
  · rw [hr]
    exact h.caller.goes (Option.isNone_iff_eq_none.mpr (Op.child_of_later hop)) (Option.isNone_iff_eq_none.mpr hxc)
  · rw [hs]
    rcases Machine.mem_cases op hi with hi | hi
    · rw [← List.mem_singleton.mp hi] at hx
      cases hx
    · exact h.spawning i hi
  · rw [hp, he]
    rcases h.children i (hs ▸ hi) with hi | hi | ⟨hev, hi⟩
    · exact Or.inl hi
    · exact Or.inr (Or.inl (child_keep (Op.child_of_later hop) hi))
    · exact Or.inr (Or.inr ⟨hev, hc i hi⟩)
  · rw [he]
    rcases Machine.mem_cases op hi with hi | hi
    · rw [← List.mem_singleton.mp hi] at hxc
      cases hxc
    · exact h.ending i hi

/-- A step of a child. -/
theorem Called.goes (h : Called n m (A ++ op :: B)) (hop : op.child = some i) (hnew : ∀ x ∈ new, x.child = some i)
    (hs : m'.spawned = m.spawned) (hp : m'.pending = m.pending) (hr : m'.result = m.result) (he : m.event = true → m'.event = true)
    (hc : ∀ j, m.childEvent j = true → m'.childEvent j = true) (hi : new ≠ [] ∨ (m'.event = true ∧ m'.childEvent i = true))
    (hend : ∀ j, Op.childEnd j ∈ new → m'.event = true) : Called n m' (A ++ (new ++ B)) := by
  have hcaller : ∀ x : Op α, x.child = some i → x.caller = false := fun x hx => by rw [Op.caller, hx, Option.isNone_some]
  refine ⟨?_, fun j hj => ?_, fun y hy hyl => ?_, fun j hj => ?_, fun j hj => ?_⟩
  · rw [hr]
    exact h.caller.beside (hcaller op hop) (fun x hx => hcaller x (hnew x hx))
  · rw [hs]
    rcases Machine.mem_cases op hj with hj | hj
    · cases hnew _ hj
    · exact h.spawning j hj
  · rw [hs]
    rcases Machine.mem_cases op hy with hy | hy
    · have hyi := hnew y hy
      rw [Op.child_of_later hyl] at hyi
      cases hyi
    · exact h.later y hy hyl
  · rw [hp]
    rcases h.children j (hs ▸ hj) with hj | ⟨y, hy, hyj⟩ | ⟨hev, hj⟩
    · exact Or.inl hj
    · by_cases hyo : y = op
      · obtain rfl : j = i := Option.some.inj (hyj.symm.trans (hyo ▸ hop))
        rcases hi with hne | hi
        · obtain ⟨x, hx⟩ := List.exists_mem_of_ne_nil new hne
          exact Or.inr (Or.inl ⟨x, Machine.mem_new hx, hnew x hx⟩)
        · exact Or.inr (Or.inr hi)
      · exact Or.inr (Or.inl ⟨y, Machine.mem_keep hy hyo, hyj⟩)
    · exact Or.inr (Or.inr ⟨he hev, hc j hj⟩)
  · rcases Machine.mem_cases op hj with hj | hj
    · exact hend j hj
    · exact he (h.ending j hj)

/-- The caller spawns the next coroutine. -/
theorem Called.spawn (h : Called n m (A ++ .spawn i :: B)) :
    Called n { m with spawned := m.spawned + 1, pending := m.pending ++ [i] } (A ++ ([spawnNext n (i + 1)] ++ B)) := by
  obtain ⟨rfl, hin⟩ := h.spawning i (by simp)
  have halone := (h.alone rfl).2
  have hx : ∀ y ∈ [spawnNext n (m.spawned + 1)], (y : Op α).child = none := by
    intro y hy
    rw [List.mem_singleton.mp hy, spawnNext]
    split <;> rfl
  refine ⟨h.caller.goes rfl (Option.isNone_iff_eq_none.mpr (hx _ (by simp))), fun j hj => ?_, fun y hy hyl => ?_, fun j hj => ?_,
    fun j hj => ?_⟩
  · show m.spawned + 1 = j ∧ j < n
    rcases Machine.mem_beside hj with hj | hj
    · rw [List.mem_singleton, spawnNext] at hj
      split at hj
      · cases hj
        exact ⟨rfl, by assumption⟩
      · cases hj
    · exact absurd rfl (halone _ hj)
  · show m.spawned + 1 = n
    rcases Machine.mem_beside hy with hy | hy
    · rw [List.mem_singleton.mp hy, spawnNext] at hyl
      split at hyl
      · cases hyl
      · omega
    · exact absurd (Op.child_of_later hyl) (halone _ hy)
  · show j ∈ m.pending ++ [m.spawned] ∨ _
    have hj' : j < m.spawned + 1 := hj
    by_cases hji : j = m.spawned
    · exact Or.inl (by simp [hji])
    · rcases h.children j (by omega) with hj | hj | hj
      · exact Or.inl (List.mem_append_left _ hj)
      · exact Or.inr (Or.inl (child_keep rfl hj))
      · exact Or.inr (Or.inr hj)
  · rcases Machine.mem_cases (.spawn m.spawned) hj with hj | hj
    · cases hx _ hj
    · exact h.ending j hj

/-- The call is through. -/
theorem Called.ends {r : Result α} (h : Called n m (A ++ .ends r :: B)) : Called n { m with result := some r } (A ++ ([] ++ B)) := by
  refine ⟨h.caller.ends rfl, fun j hj => h.spawning j (Machine.mem_before _ hj), fun y hy hyl => h.later y (Machine.mem_before _ hy) hyl,
    fun j hj => ?_,
    fun j hj => h.ending j (Machine.mem_before _ hj)⟩
  rcases h.children j hj with hj | hj | hj
  · exact Or.inl hj
  · exact Or.inr (Or.inl (child_keep rfl hj))
  · exact Or.inr (Or.inr hj)

theorem Called.exec (h : Called n m (A ++ op :: B)) (hm : Move f n m op c m' new) : Called n m' (A ++ (new ++ B)) := by
  cases hm with
  | passes hp => exact h.goes rfl (by simp [Op.child]) rfl rfl rfl id (fun _ => id) (Or.inl (by simp)) (by simp)
  | lost leaves hp => exact h.goes rfl (by simp [Op.child]) rfl rfl rfl id (fun _ => id) (Or.inl (by simp)) (by simp)
  | store i o leaves => exact h.goes rfl (by simp [Op.child]) rfl rfl rfl id (fun _ => id) (Or.inl (by simp)) (by simp)
  | setEvent i leaves =>
    exact h.goes rfl (by simp [Op.child]) rfl rfl rfl (fun _ => rfl) (fun _ => id) (Or.inl (by simp)) (fun _ _ => rfl)
  | childEnd i =>
    refine h.goes (i := i) rfl (by simp) rfl rfl rfl id (fun j hj => ?_) (Or.inr ⟨h.ending i (by simp), ?_⟩) (by simp)
    · by_cases hji : j = i
      · subst hji
        exact Function.update_self ..
      · exact (Function.update_of_ne hji ..).trans hj
    · exact Function.update_self ..
  | spawn i => exact h.spawn
  | waited hev => exact h.stays rfl (afterWait_later f) rfl rfl rfl rfl (fun _ => id)
  | deadline fl hf => exact h.stays rfl rfl rfl rfl rfl rfl (fun _ => id)
  | waitCancelled hx => exact h.stays rfl (waitCancelled_later hx) rfl rfl rfl rfl (fun _ => id)
  | isSet => exact h.stays rfl (by split <;> rfl) rfl rfl rfl rfl (fun _ => id)
  | fetch => exact h.stays rfl (afterFetch_later f _) rfl rfl rfl rfl (fun _ => id)
  | cancelScope r => exact h.stays rfl (by cases r <;> rfl) rfl rfl rfl rfl (fun _ => id)
  | unwind | yieldNow r | yieldCancelled r | join r hall | joinCancelled r => exact h.stays rfl rfl rfl rfl rfl rfl (fun _ => id)
  | exit r => exact h.stays rfl rfl rfl rfl rfl rfl (fun j hj => by simp [hj])
  | ends r => exact h.ends

theorem Called.call (h : Called n m ops) (hc : Ctl.call m i = some (m', new)) : Called n m' (ops ++ new) := by
  obtain ⟨hi, rfl, rfl⟩ := call_eq hc
  refine ⟨h.caller.call (by simp [Op.caller, Op.child]), fun j hj => h.spawning j (by simpa using hj), fun x hx hxl => ?_,
    fun j hj => ?_, fun j hj => h.ending j (by simpa using hj)⟩
  · rcases List.mem_append.mp hx with hx | hx
    · exact h.later x hx hxl
    · rw [List.mem_singleton.mp hx] at hxl
      cases hxl
  · rcases h.children j hj with hj | ⟨x, hx, hxj⟩ | hj
    · by_cases hji : j = i
      · exact Or.inr (Or.inl ⟨.run i, by simp, by rw [hji]; rfl⟩)
      · exact Or.inl ((List.mem_erase_of_ne hji).mpr hj)
    · exact Or.inr (Or.inl ⟨x, List.mem_append_left _ hx, hxj⟩)
    · exact Or.inr (Or.inr hj)

variable {ok : Mem α → List (Op α) → Act (Op α) (Choice α) Nat → Prop} {s : State (Mem α) (Op α)}

/-- In every state of every run. -/
theorem Called.reach (h : (machine f n).Reach ok (initial n) s) : Called n s.mem s.ops := by
  refine h.invariant ?_ (fun m A op B c m' new ih _ he => ih.exec (exec_move he)) (fun m ops l m' new ih _ hc => ih.call hc)
  have hops : (initial n : State (Mem α) (Op α)).ops = [spawnNext n 0] := rfl
  rw [hops, spawnNext]
  split
  · rename_i hn
    exact ⟨rfl, by simpa using ⟨rfl, hn⟩, by simp [Op.later], fun i hi => absurd hi (Nat.not_lt_zero i), by simp⟩
  · rename_i hn
    refine ⟨rfl, by simp, fun _ _ _ => ?_, fun i hi => absurd hi (Nat.not_lt_zero i), by simp⟩
    show 0 = n
    omega

/-! ## The call comes to an end -/

/-- An operation of a child can be performed, and its coroutine ends with a given outcome. -/
theorem exists_child_exec (f : Fn) (n : Nat) (m : Mem α) (o : Outcome α) {x : Op α} (hx : x.child ≠ none) :
    ∃ c m' new, exec f n m x c = some (m', new) ∧ (∀ o', c = .finish o' → o' = o) ∧ c ≠ .cancel := by
  cases x with
  | run i => exact ⟨.finish o, _, _, rfl, by simp, by simp⟩
  | store i o' leaves | setEvent i leaves | childEnd i => exact ⟨.go, _, _, rfl, by simp, by simp⟩
  | _ => exact absurd rfl hx

/-- What an operation and those that follow from it still count for. -/
def Op.left (n : Nat) : Op α → Nat
  | .spawn i => 8 * (n - i) + 20
  | .wait => 15
  | .isSet => 14
  | .cancelScope none => 13
  | .fetch => 12
  | .cancelScope (some _) => 11
  | .yieldNow _ => 10
  | .unwind | .exit _ => 9
  | .join _ => 8
  | .run _ => 5
  | .store _ _ _ => 4
  | .setEvent _ _ => 3
  | .childEnd _ => 2
  | .ends _ => 1

/-- What is left to be done: by what is pending, and by the children that have not begun. -/
def left (n : Nat) (s : State (Mem α) (Op α)) : Nat := total (Op.left n) s.ops + 6 * s.mem.pending.length

theorem Fn.afterWait_left (f : Fn) (n : Nat) : (f.afterWait : Op α).left n < 15 := by
  cases f with
  | select fl => cases fl <;> simp [Fn.afterWait, Op.left]
  | blockOn fl | timeout fl => simp [Fn.afterWait, Op.left]

theorem Fn.waitCancelled_left {x : Op α} (h : f.waitCancelled = some x) : x.left n < 15 := by
  cases f with
  | select fl => cases fl <;> obtain rfl := Option.some.inj h <;> simp [Op.left]
  | blockOn fl => cases h
  | timeout fl =>
    obtain rfl := Option.some.inj h
    simp [Op.left]

theorem Fn.afterFetch_left (f : Fn) (o : Option (Outcome α)) (n : Nat) : (f.afterFetch o).left n < 12 := by
  cases o <;> cases f with
  | select fl => cases fl <;> simp [Fn.afterFetch, Op.left]
  | blockOn fl | timeout fl => simp [Fn.afterFetch, Op.left]

/-- Every step leaves less to be done. -/
theorem Move.left (h : Move f n m op c m' new) (hop : ∀ i, op = .spawn i → i < n) :
    total (Op.left n) new + 6 * m'.pending.length < op.left n + 6 * m.pending.length := by
  cases h with
  | spawn i =>
    have hi := hop i rfl
    have hnext : (spawnNext n (i + 1) : Op α).left n ≤ 8 * (n - (i + 1)) + 20 := by
      unfold spawnNext
      split <;> simp [Op.left]
    have hspawn : (Op.spawn i : Op α).left n = 8 * (n - i) + 20 := rfl
    simp only [total_cons, total_nil, List.length_append, List.length_singleton]
    omega
  | waited hev =>
    have := f.afterWait_left (α := α) n
    have hop' : (Op.wait : Op α).left n = 15 := rfl
    simp only [total_cons, total_nil]
    omega
  | waitCancelled hx =>
    have := Fn.waitCancelled_left (n := n) hx
    have hop' : (Op.wait : Op α).left n = 15 := rfl
    simp only [total_cons, total_nil]
    omega
  | fetch =>
    have := f.afterFetch_left m.slot n
    have hop' : (Op.fetch : Op α).left n = 12 := rfl
    simp only [total_cons, total_nil]
    omega
  | isSet => split <;> simp [Op.left]
  | cancelScope r => cases r <;> simp [Op.left]
  | _ => simp [Op.left]

/-- Short of a result, something can be done that leaves less to be done, though no wait is cancelled. -/
theorem exists_less (hn : 0 < n) (o : Outcome α) (h : (machine f n).Reach ok (initial n) s) (hr : s.mem.result = none) :
    ∃ a s', Finishes o s.mem a ∧ (machine f n).Step s a s' ∧ left n s' < left n s := by
  have hC : Called n s.mem s.ops := Called.reach h
  have hshort : ∀ t ∈ s.pool, t.length ≤ 1 := by
    refine h.short ?_ (fun m op c m' new he => (exec_move he).short) (fun m l m' new hc => ?_)
    · simp [initial]
    · rw [(call_eq hc).2.2]
      exact Nat.le_refl 1
  have hgo : ∀ x ∈ s.ops, ∀ c m' new, exec f n s.mem x c = some (m', new) → Finishes o s.mem (.exec x c) →
      ∃ a s', Finishes o s.mem a ∧ (machine f n).Step s a s' ∧ left n s' < left n s := by
    intro x hx c m' new he hok
    obtain ⟨s', hs, rfl, hw⟩ := Machine.exists_step (P := machine f n) hshort hx he
    refine ⟨_, s', hok, hs, ?_⟩
    have hlt := (exec_move he).left (fun i hi => (hC.spawning i (hi ▸ hx)).2)
    have hsum := hw (Op.left n)
    unfold left
    omega
  -- a child that is not through goes on
  have hchild : ∀ i < s.mem.spawned, (s.mem.event = true ∧ s.mem.childEvent i = true) ∨
      ∃ a s', Finishes o s.mem a ∧ (machine f n).Step s a s' ∧ left n s' < left n s := by
    intro i hi
    rcases hC.children i hi with hi | ⟨x, hx, hxi⟩ | hi
    · refine Or.inr ⟨.call i, _, trivial, .call (if_pos hi), ?_⟩
      have hlen := List.length_erase_of_mem hi
      have hpos := List.length_pos_of_mem hi
      simp only [left, State.ops, List.flatten_append, total_append, List.flatten_singleton, total_cons, total_nil, Op.left]
      omega
    · obtain ⟨c, m', new, he, ho, hc⟩ := exists_child_exec f n s.mem o (x := x) (by simp [hxi])
      refine Or.inr (hgo x hx c m' new he ?_)
      cases x <;> cases hxi <;> cases c <;> first | exact absurd rfl hc | exact ho _ rfl | trivial
    · exact Or.inl hi
  -- where the caller is
  have hcaller := hC.caller
  rw [hr] at hcaller
  obtain ⟨x, hx, hxc⟩ := hcaller.exists_mem
  cases x with
  | run i | store i o' leaves | setEvent i leaves | childEnd i => simp [Op.caller, Op.child] at hxc
  | wait =>
    rcases hchild 0 (hC.later _ hx rfl ▸ hn) with ⟨hev, -⟩ | hgoes
    · exact hgo _ hx .go _ _ (if_pos hev) trivial
    · exact hgoes
  | isSet =>
    rcases hchild 0 (hC.later _ hx rfl ▸ hn) with ⟨hev, -⟩ | hgoes
    · exact hgo _ hx .go _ _ rfl hev
    · exact hgoes
  | join r =>
    by_cases hall : ∀ i < s.mem.spawned, s.mem.childEvent i = true
    · exact hgo _ hx .go _ _ (if_pos (List.all_eq_true.mpr (fun i hi => hall i (List.mem_range.mp hi)))) trivial
    · push Not at hall
      obtain ⟨i, hi, hne⟩ := hall
      exact (hchild i hi).resolve_left (fun hset => hne hset.2)
  | _ => exact hgo _ hx .go _ _ rfl trivial

/-- A call for at least one coroutine comes to an end, however far it has got and whatever outcome the coroutines still have. -/
theorem exists_result (hn : 0 < n) (o : Outcome α) (hok : ∀ m ops a, Finishes o m a → ok m ops a)
    (h : (machine f n).Reach ok (initial n) s) : ∃ s' r, (machine f n).Reach ok s s' ∧ s'.mem.result = some r := by
  have hless : ∀ s, (machine f n).Reach ok (initial n) s → ¬s.mem.result ≠ none →
      ∃ a s', ok s.mem s.ops a ∧ (machine f n).Step s a s' ∧ left n s' < left n s := by
    intro s hs hg
    obtain ⟨a, s', ha, hstep, hlt⟩ := exists_less hn o hs (not_not.mp hg)
    exact ⟨a, s', hok _ _ _ ha, hstep, hlt⟩
  obtain ⟨s', hr, hres⟩ := Machine.exists_reach_of_measure (left n) hless h
  obtain ⟨r, hr'⟩ := Option.ne_none_iff_exists'.mp hres
  exact ⟨s', r, hr, hr'⟩

/-! ## What the call ends with -/

/-- The result an operation of the caller takes along. -/
def Op.carries : Op α → Option (Result α)
  | .cancelScope r => r
  | .yieldNow r | .exit r | .join r | .ends r => some r
  | _ => none

/-- What the caller makes of a slot in which these outcomes have been stored. -/
def Fn.read (f : Fn) (seen : List (Outcome α)) : Result α := seen.getLast?.elim .typeError f.settle

/-- A call ends with what it has read, unless it is cancelled or its deadline passes. -/
def Fn.Ends (f : Fn) (seen : List (Outcome α)) (r : Result α) : Prop :=
  r = .cancelled ∨ (r = .timedOut ∧ ∃ fl, f = .timeout fl) ∨ r = f.read seen

/-- The slot holds what was stored last, and what the call ends with comes from there. -/
structure Reads (f : Fn) (m : Mem α) (ops : List (Op α)) : Prop where
  slot : m.slot = m.stored.getLast?.map Prod.snd
  seen : m.seen <+: m.stored.map Prod.snd
  carried : ∀ x ∈ ops, ∀ r, x.carries = some r → f.Ends m.seen r
  timed : ∀ x ∈ ops, x = .isSet ∨ x = .unwind → ∃ fl, f = .timeout fl
  result : ∀ r, m.result = some r → f.Ends m.seen r

theorem afterWait_plain (f : Fn) : (∀ r, (f.afterWait : Op α).carries ≠ some r) ∧
    ((f.afterWait : Op α) = .isSet ∨ (f.afterWait : Op α) = .unwind → ∃ fl, f = .timeout fl) := by
  cases f with
  | select fl => cases fl <;> simp [Fn.afterWait, Op.carries]
  | blockOn fl | timeout fl => simp [Fn.afterWait, Op.carries]

theorem waitCancelled_plain {x : Op α} (h : f.waitCancelled = some x) :
    (∀ r, x.carries = some r → r = .cancelled) ∧ ¬(x = .isSet ∨ x = .unwind) := by
  cases f with
  | select fl => cases fl <;> obtain rfl := Option.some.inj h <;> simp [Op.carries, eq_comm]
  | blockOn fl => cases h
  | timeout fl =>
    obtain rfl := Option.some.inj h
    simp [Op.carries, eq_comm]

theorem afterFetch_plain (f : Fn) (stored : List (Outcome α)) :
    (∀ r, (f.afterFetch stored.getLast?).carries = some r → r = f.read stored) ∧
    ¬(f.afterFetch stored.getLast? = .isSet ∨ f.afterFetch stored.getLast? = .unwind) := by
  unfold Fn.read
  cases stored.getLast? <;> cases f with
  | select fl => cases fl <;> simp [Fn.afterFetch, Op.carries, eq_comm]
  | blockOn fl | timeout fl => simp [Fn.afterFetch, Op.carries, eq_comm]

/-- A step that stores nothing and reads nothing. -/
theorem Reads.stays (h : Reads f m (A ++ op :: B)) (hslot : m'.slot = m.slot) (hstored : m'.stored = m.stored) (hseen : m'.seen = m.seen)
    (hres : m'.result = m.result) (hnew : ∀ x ∈ new, ∀ r, x.carries = some r → f.Ends m.seen r)
    (htimed : ∀ x ∈ new, x = .isSet ∨ x = .unwind → ∃ fl, f = .timeout fl) : Reads f m' (A ++ (new ++ B)) := by
  refine ⟨by rw [hslot, hstored, h.slot], by rw [hseen, hstored]; exact h.seen, fun x hx r hr => ?_, fun x hx hxt => ?_, ?_⟩
  · rw [hseen]
    rcases Machine.mem_cases op hx with hx | hx
    · exact hnew x hx r hr
    · exact h.carried x hx r hr
  · rcases Machine.mem_cases op hx with hx | hx
    · exact htimed x hx hxt
    · exact h.timed x hx hxt
  · rw [hres, hseen]
    exact h.result

/-- An operation that carries a result is the caller's. -/
theorem Op.child_of_carries {x : Op α} {r : Result α} (h : x.carries = some r) : x.child = none := by
  cases x <;> first | rfl | cases h

theorem Reads.exec (h : Reads f m (A ++ op :: B)) (hC : Called n m (A ++ op :: B)) (hm : Move f n m op c m' new) :
    Reads f m' (A ++ (new ++ B)) := by
  have hcar : ∀ r, op.carries = some r → f.Ends m.seen r := h.carried op (by simp)
  cases hm with
  | store i o leaves =>
    refine ⟨by simp, ?_, fun x hx r hr => ?_, fun x hx hxt => ?_, h.result⟩
    · show m.seen <+: (m.stored ++ [(i, o)]).map Prod.snd
      rw [List.map_append]
      exact h.seen.trans (List.prefix_append _ _)
    · rcases Machine.mem_cases (.store i o leaves) hx with hx | hx
      · rw [List.mem_singleton.mp hx] at hr
        cases hr
      · exact h.carried x hx r hr
    · rcases Machine.mem_cases (.store i o leaves) hx with hx | hx
      · rw [List.mem_singleton.mp hx] at hxt
        simp at hxt
      · exact h.timed x hx hxt
  | fetch =>
    obtain ⟨hres, halone⟩ := hC.alone rfl
    have hslot : m.slot = (m.stored.map Prod.snd).getLast? := by rw [h.slot, List.getLast?_map]
    obtain ⟨hread, hplain⟩ := afterFetch_plain f (m.stored.map Prod.snd)
    rw [← hslot] at hread hplain
    refine ⟨h.slot, List.prefix_rfl, fun x hx r hr => ?_, fun x hx hxt => ?_, fun r hr => ?_⟩
    · rcases Machine.mem_beside hx with hx | hx
      · rw [List.mem_singleton.mp hx] at hr
        exact Or.inr (Or.inr (hread r hr))
      · exact absurd (Op.child_of_carries hr) (halone x hx)
    · rcases Machine.mem_cases .fetch hx with hx | hx
      · rw [List.mem_singleton.mp hx] at hxt
        exact absurd hxt hplain
      · exact h.timed x hx hxt
    · exact absurd (hres.symm.trans hr) (by simp)
  | ends r =>
    refine ⟨h.slot, h.seen, fun x hx => h.carried x (Machine.mem_before _ hx), fun x hx => h.timed x (Machine.mem_before _ hx), ?_⟩
    intro r' hr'
    exact hcar r' hr'
  | waited hev =>
    obtain ⟨hread, htimed⟩ := afterWait_plain (α := α) f
    refine h.stays rfl rfl rfl rfl (fun x hx r hr => ?_) (fun x hx => ?_) <;> obtain rfl := List.mem_singleton.mp hx
    · exact absurd hr (hread r)
    · exact htimed
  | deadline fl hf =>
    refine h.stays rfl rfl rfl rfl (fun x hx r hr => ?_) (fun _ _ _ => ⟨fl, hf⟩)
    rw [List.mem_singleton.mp hx] at hr
    cases hr
  | waitCancelled hx' =>
    obtain ⟨hread, htimed⟩ := waitCancelled_plain hx'
    refine h.stays rfl rfl rfl rfl (fun x hx r hr => ?_) (fun x hx hxt => ?_) <;> obtain rfl := List.mem_singleton.mp hx
    · exact Or.inl (hread r hr)
    · exact absurd hxt htimed
  | isSet =>
    have hf := h.timed .isSet (by simp) (Or.inl rfl)
    refine h.stays rfl rfl rfl rfl (fun x hx r hr => ?_) (fun _ _ _ => hf)
    rw [List.mem_singleton.mp hx] at hr
    split at hr <;> cases hr
  | unwind =>
    have hf := h.timed .unwind (by simp) (Or.inr rfl)
    refine h.stays rfl rfl rfl rfl (fun x hx r hr => ?_) (fun _ _ _ => hf)
    rw [List.mem_singleton.mp hx] at hr
    exact Or.inr (Or.inl ⟨(Option.some.inj hr).symm, hf⟩)
  | cancelScope r =>
    refine h.stays rfl rfl rfl rfl (fun x hx r' hr => ?_) (fun x hx hxt => ?_) <;> obtain rfl := List.mem_singleton.mp hx
    · cases r with
      | none => cases hr
      | some r => exact hcar r' hr
    · cases r <;> simp at hxt
  | spawn i =>
    refine h.stays rfl rfl rfl rfl (fun x hx r' hr => ?_) (fun x hx hxt => ?_) <;> obtain rfl := List.mem_singleton.mp hx <;>
      rw [spawnNext] at *
    · split at hr <;> cases hr
    · split at hxt <;> simp at hxt
  | yieldNow r | exit r | join r hall =>
    refine h.stays rfl rfl rfl rfl (fun x hx r' hr => ?_) (fun x hx hxt => ?_) <;> obtain rfl := List.mem_singleton.mp hx
    · exact hcar r' hr
    · simp at hxt
  | yieldCancelled r | joinCancelled r =>
    refine h.stays rfl rfl rfl rfl (fun x hx r' hr => ?_) (fun x hx hxt => ?_) <;> obtain rfl := List.mem_singleton.mp hx
    · exact Or.inl (Option.some.inj hr).symm
    · simp at hxt
  | passes hp | lost leaves hp | setEvent i leaves | childEnd i => exact h.stays rfl rfl rfl rfl (by simp [Op.carries]) (by simp)

/-- In every state of every run. -/
theorem Reads.reach (h : (machine f n).Reach ok (initial n) s) : Reads f s.mem s.ops := by
  refine h.invariant_with (J := Called n) (fun hs => Called.reach hs) ?_ (fun m A op B c m' new hC ih _ he => ih.exec hC (exec_move he)) ?_
  · have hops : (initial n : State (Mem α) (Op α)).ops = [spawnNext n 0] := rfl
    rw [hops, spawnNext]
    refine ⟨rfl, List.prefix_rfl, ?_, ?_, fun r hr => by cases hr⟩ <;> split <;> simp [Op.carries]
  · intro m ops l m' new _ ih _ hc
    obtain ⟨-, rfl, rfl⟩ := call_eq hc
    refine ⟨ih.slot, ih.seen, fun x hx r hr => ?_, fun x hx hxt => ?_, ih.result⟩
    · rcases List.mem_append.mp hx with hx | hx
      · exact ih.carried x hx r hr
      · rw [List.mem_singleton.mp hx] at hr
        cases hr
    · rcases List.mem_append.mp hx with hx | hx
      · exact ih.timed x hx hxt
      · rw [List.mem_singleton.mp hx] at hxt
        simp at hxt

/-! ## One outcome -/

/-- What an operation shows of the outcome that every coroutine has, and that passes. -/
def Op.Passed (f : Fn) (o : Outcome α) (m : Mem α) : Op α → Prop
  | .store _ o' _ => o' = o
  | .setEvent _ _ => m.stored ≠ []
  | .fetch | .cancelScope none => m.event = true
  | .unwind => False
  | .cancelScope (some r) | .yieldNow r | .exit r | .join r | .ends r => r = f.settle o
  | _ => True

/-- The outcome that every coroutine has is stored before the event is set, and no other one is. -/
structure Passed (f : Fn) (o : Outcome α) (m : Mem α) (ops : List (Op α)) : Prop where
  stored : ∀ p ∈ m.stored, p.2 = o
  event : m.event = true → m.stored ≠ []
  passed : ∀ x ∈ ops, x.Passed f o m
  result : ∀ r, m.result = some r → r = f.settle o

theorem Op.Passed.mono {o : Outcome α} {x : Op α} (h : x.Passed f o m) (hs : m.stored ≠ [] → m'.stored ≠ [])
    (he : m.event = true → m'.event = true) : x.Passed f o m' := by
  cases x with
  | setEvent i leaves => exact hs h
  | fetch => exact he h
  | cancelScope r => cases r with
    | none => exact he h
    | some r => exact h
  | _ => exact h

theorem afterWait_passed {o : Outcome α} (he : m.event = true) : (f.afterWait : Op α).Passed f o m := by
  cases f with
  | select fl => cases fl <;> exact he
  | blockOn fl => exact he
  | timeout fl => trivial

theorem afterFetch_passed (f : Fn) (o : Outcome α) (m : Mem α) : (f.afterFetch (some o)).Passed f o m := by
  cases f with
  | select fl => cases fl <;> rfl
  | blockOn fl | timeout fl => rfl

/-- A step that stores nothing, sets no event and has no result. -/
theorem Passed.stays {o : Outcome α} (h : Passed f o m (A ++ op :: B)) (hs : m'.stored = m.stored) (he : m'.event = m.event)
    (hr : m'.result = m.result) (hnew : ∀ x ∈ new, x.Passed f o m) : Passed f o m' (A ++ (new ++ B)) := by
  refine ⟨by rw [hs]; exact h.stored, by rw [hs, he]; exact h.event, fun x hx => ?_, by rw [hr]; exact h.result⟩
  refine Op.Passed.mono ?_ (fun hne => hs ▸ hne) (fun hev => he ▸ hev)
  rcases Machine.mem_cases op hx with hx | hx
  · exact hnew x hx
  · exact h.passed x hx

theorem Passed.exec {o : Outcome α} (ho : o.passes = true) (h : Passed f o m (A ++ op :: B)) (hR : Reads f m (A ++ op :: B))
    (hok : Finishes o m (.exec op c)) (hm : Move f n m op c m' new) : Passed f o m' (A ++ (new ++ B)) := by
  have hop : op.Passed f o m := h.passed op (by simp)
  cases hm with
  | passes hp =>
    refine h.stays rfl rfl rfl (fun x hx => ?_)
    rw [List.mem_singleton.mp hx]
    exact hok
  | lost leaves hp =>
    obtain rfl : _ = o := hok
    rw [ho] at hp
    cases hp
  | store i o' leaves =>
    obtain rfl : o' = o := hop
    refine ⟨fun p hp => ?_, fun _ => by simp, fun x hx => ?_, h.result⟩
    · rcases List.mem_append.mp hp with hp | hp
      · exact h.stored p hp
      · rw [List.mem_singleton.mp hp]
    · rcases Machine.mem_cases (.store i o' leaves) hx with hx | hx
      · rw [List.mem_singleton.mp hx]
        simp [Op.Passed]
      · exact (h.passed x hx).mono (fun _ => by simp) id
  | setEvent i leaves =>
    refine ⟨h.stored, fun _ => hop, fun x hx => ?_, h.result⟩
    rcases Machine.mem_cases (.setEvent i leaves) hx with hx | hx
    · rw [List.mem_singleton.mp hx]
      trivial
    · exact (h.passed x hx).mono id (fun _ => rfl)
  | fetch =>
    -- what was stored last is the outcome
    have hne := h.event hop
    have hslot : m.slot = some o := by
      rw [hR.slot, List.getLast?_eq_some_getLast hne, Option.map_some, h.stored _ (List.getLast_mem hne)]
    refine h.stays rfl rfl rfl (fun x hx => ?_)
    rw [List.mem_singleton.mp hx, hslot]
    exact afterFetch_passed f o m
  | ends r =>
    refine ⟨h.stored, h.event, fun x hx => (h.passed x (Machine.mem_before _ hx)).mono id id, fun r' hr' => ?_⟩
    exact (Option.some.inj hr').symm.trans hop
  | waited hev => exact h.stays rfl rfl rfl (fun x hx => List.mem_singleton.mp hx ▸ afterWait_passed hev)
  | isSet =>
    have hev : m.event = true := hok
    refine h.stays rfl rfl rfl (fun x hx => ?_)
    rw [List.mem_singleton.mp hx, if_pos hev]
    exact hev
  | unwind => exact absurd hop id
  | waitCancelled hx => exact absurd hok id
  | yieldCancelled r => exact absurd hok id
  | joinCancelled r => exact absurd hok id
  | cancelScope r =>
    refine h.stays rfl rfl rfl (fun x hx => ?_)
    rw [List.mem_singleton.mp hx]
    cases r <;> exact hop
  | spawn i =>
    refine h.stays rfl rfl rfl (fun x hx => ?_)
    rw [List.mem_singleton.mp hx, spawnNext]
    split <;> trivial
  | yieldNow r | exit r | join r hall => exact h.stays rfl rfl rfl (fun x hx => List.mem_singleton.mp hx ▸ hop)
  | deadline fl hf | childEnd i => exact h.stays rfl rfl rfl (by simp [Op.Passed])

theorem Passed.reach {o : Outcome α} (ho : o.passes = true)
    (h : (machine f n).Reach (fun m _ a => Finishes o m a) (initial n) s) : Passed f o s.mem s.ops := by
  refine h.invariant_with (J := Reads f) (fun hs => Reads.reach hs) ?_
    (fun m A op B c m' new hR ih hok he => ih.exec ho hR hok (exec_move he)) ?_
  · have hops : (initial n : State (Mem α) (Op α)).ops = [spawnNext n 0] := rfl
    rw [hops, spawnNext]
    refine ⟨List.forall_mem_nil _, (fun he => by cases he), ?_, (fun r hr => by cases hr)⟩
    split <;> simp [Op.Passed]
  · intro m ops l m' new _ ih _ hc
    obtain ⟨-, rfl, rfl⟩ := call_eq hc
    refine ⟨ih.stored, ih.event, fun x hx => ?_, ih.result⟩
    rcases List.mem_append.mp hx with hx | hx
    · exact (ih.passed x hx).mono id id
    · rw [List.mem_singleton.mp hx]
      trivial

/-- Only a coroutine whose outcome passes leads to an operation that stores. -/
theorem Move.stores (h : Move f n m op c m' new) :
    (∃ i o leaves, op = .store i o leaves) ∨
    (m'.stored = m.stored ∧ ∀ i o leaves, Op.store i o leaves ∈ new → c = .finish o ∧ o.passes = true) := by
  have hlater : ∀ x : Op α, x.later = true → ∀ i o leaves, Op.store i o leaves ∈ [x] → c = .finish o ∧ o.passes = true := by
    intro x hx i o leaves hmem
    rw [← List.mem_singleton.mp hmem] at hx
    cases hx
  cases h with
  | passes hp =>
    refine Or.inr ⟨rfl, fun i o leaves hmem => ?_⟩
    cases List.mem_singleton.mp hmem
    exact ⟨rfl, hp⟩
  | store i o leaves => exact Or.inl ⟨i, o, leaves, rfl⟩
  | spawn i =>
    refine Or.inr ⟨rfl, fun i o leaves hmem => ?_⟩
    rw [List.mem_singleton, spawnNext] at hmem
    split at hmem <;> cases hmem
  | waited hev => exact Or.inr ⟨rfl, hlater _ (afterWait_later f)⟩
  | waitCancelled hx => exact Or.inr ⟨rfl, hlater _ (waitCancelled_later hx)⟩
  | fetch => exact Or.inr ⟨rfl, hlater _ (afterFetch_later f _)⟩
  | isSet => exact Or.inr ⟨rfl, hlater _ (by split <;> rfl)⟩
  | cancelScope r => exact Or.inr ⟨rfl, hlater _ (by cases r <;> rfl)⟩
  | _ => exact Or.inr ⟨rfl, by simp⟩

/-- Where no coroutine has an outcome that passes, nothing is stored. -/
theorem stored_of_not_passes {o : Outcome α} (ho : o.passes = false)
    (h : (machine f n).Reach (fun m _ a => Finishes o m a) (initial n) s) : s.mem.stored = [] := by
  have hboth : s.mem.stored = [] ∧ ∀ i o' leaves, Op.store i o' leaves ∉ s.ops := by
    refine h.invariant (I := fun m ops => m.stored = [] ∧ ∀ i o' leaves, Op.store i o' leaves ∉ ops) ⟨rfl, ?_⟩ ?_ ?_
    · have hops : (initial n : State (Mem α) (Op α)).ops = [spawnNext n 0] := rfl
      rw [hops, spawnNext]
      split <;> simp
    · intro m A op B c m' new ih hok he
      rcases (exec_move he).stores with ⟨i, o', leaves, rfl⟩ | ⟨hstored, hnew⟩
      · exact absurd (by simp) (ih.2 i o' leaves)
      · refine ⟨hstored.trans ih.1, fun i o' leaves hx => ?_⟩
        rcases Machine.mem_cases op hx with hx | hx
        · obtain ⟨rfl, hp⟩ := hnew i o' leaves hx
          have hm := exec_move he
          cases hm with
          | passes hp' =>
            obtain rfl : _ = o := hok
            rw [ho] at hp'
            cases hp'
          | lost leaves' hp' =>
            rw [hp] at hp'
            cases hp'
        · exact ih.2 i o' leaves hx
    · intro m ops l m' new ih _ hc
      obtain ⟨-, rfl, rfl⟩ := call_eq hc
      exact ⟨ih.1, by simpa using ih.2⟩
  exact hboth.1

end Tonio.Ctl
