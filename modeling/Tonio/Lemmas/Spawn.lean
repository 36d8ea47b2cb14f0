import Tonio.Spawn

/-!
# The barrier of a join

Every wrapper counts once at the barrier and every await counts once (`Counted`): what the barrier has counted, and the wrappers that have
still to count, are the coroutines and the awaits. The event is set when more than the coroutines have counted, so as long as one await
has counted, all wrappers have.
-/

namespace Tonio.Spawn

open Interleaving

variable {α ε : Type} {collect : Bool} {n : Nat} {m m' : Mem α ε} {A B new ops : List (Op α ε)} {op : Op α ε} {c : Choice α ε}

/-! ## The steps -/

/-- What an operation does. -/
inductive Move (collect : Bool) (n : Nat) (m : Mem α ε) : Op α ε → Choice α ε → Mem α ε → List (Op α ε) → Prop where
  | finish (i : Nat) (o : Outcome α ε) :
      Move collect n m (.coro i) (.finish o) { m with outcome := Function.update m.outcome i (some o) } [after collect i o]
  | store (i : Nat) (v : α) : Move collect n m (.store i v) .go { m with data := m.data.set i (some v) } [.ack]
  | append (e : ε) : Move collect n m (.append e) .go { m with errs := m.errs ++ [e] } [.ack]
  | ack : Move collect n m .ack .go { m with count := m.count + 1 } (if n + 1 ≤ m.count + 1 then [.set] else [])
  | set : Move collect n m .set .go { m with event := true } []
  | joinAck :
      Move collect n m .joinAck .go { m with count := m.count + 1, awaits := m.awaits + 1 }
        (if n + 1 ≤ m.count + 1 then [.joinSet] else [.wait])
  | joinSet : Move collect n m .joinSet .go { m with event := true } [.wait]
  | wait (he : m.event = true) : Move collect n m .wait .go m [.check]
  | cancel : Move collect n m .wait .cancel m []
  | check : Move collect n m .check .go m [if m.errs ≠ [] then .group else .fetch]
  | group : Move collect n m .group .go { m with returned := m.returned ++ [.group m.errs] } []
  | fetch :
      Move collect n m .fetch .go
        { m with returned := m.returned ++ [if collect then .value (Spawn.fetch n m.data) else .none] } []

/-- Every step is one of these. -/
theorem exec_move (he : exec collect n m op c = some (m', new)) : Move collect n m op c m' new := by
  cases op
  all_goals
    cases c <;> simp only [exec, reduceCtorEq, Option.some.injEq, Prod.mk.injEq] at he
  case wait.go =>
    split at he
    · rename_i hev
      obtain ⟨rfl, rfl⟩ : _ ∧ _ := by simpa using he
      exact .wait hev
    · cases he
  all_goals
    obtain ⟨rfl, rfl⟩ := he
    constructor

/-! ## The count -/

/-- A wrapper that has not counted at the barrier. -/
def wrapping : Op α ε → Nat
  | .coro _ | .store _ _ | .append _ | .ack => 1
  | _ => 0

/-- A coroutine that has not finished. -/
def running : Op α ε → Nat
  | .coro _ => 1
  | _ => 0

/-- An await that has not counted at the barrier. -/
def joining : Op α ε → Nat
  | .joinAck => 1
  | _ => 0

/-- The event has been, or is about to be, set, or an await was let through. -/
def Op.fires : Op α ε → Bool
  | .set | .joinSet => true
  | op => op.resumed

/-- The counts of the barrier. -/
structure Counted (n : Nat) (m : Mem α ε) (ops : List (Op α ε)) : Prop where
  count : m.count + total wrapping ops = n + m.awaits
  joins : m.awaits + total joining ops = m.joins
  fired : m.event = true ∨ (∃ x ∈ ops, x.fires = true) ∨ m.returned ≠ [] → n + 1 ≤ m.count
  fires : n + 1 ≤ m.count → m.event = true ∨ Op.set ∈ ops ∨ Op.joinSet ∈ ops
  waits : Op.wait ∈ ops ∨ Op.joinSet ∈ ops → 0 < m.awaits
  left : ∀ i < n, m.outcome i = none → Op.coro i ∈ ops

theorem Move.count (h : Move collect n m op c m' new) :
    m'.count + total wrapping new + m.awaits = m.count + wrapping op + m'.awaits ∧
      m'.awaits + total joining new + m.joins = m.awaits + joining op + m'.joins ∧ m.count ≤ m'.count := by
  cases h with
  | finish i o => cases o <;> cases collect <;> simp [wrapping, joining, after]
  | ack => split <;> simp [wrapping, joining]
  | joinAck => split <;> simp [wrapping, joining] <;> omega
  | check => split <;> simp [wrapping, joining]
  | _ => simp [wrapping, joining]

/-- What fires after a step has fired before, or the barrier is full. -/
theorem Move.fired (h : Move collect n m op c m' new)
    (hf : m'.event = true ∨ (∃ x ∈ new, x.fires = true) ∨ m'.returned ≠ []) :
    (m.event = true ∨ op.fires = true ∨ m.returned ≠ []) ∨ n + 1 ≤ m'.count := by
  -- a step that neither sets the event nor returns, and after which nothing fires
  have hsame : m'.event = m.event → m'.returned = m.returned → (∀ x ∈ new, x.fires = false) →
      m.event = true ∨ op.fires = true ∨ m.returned ≠ [] := by
    intro h1 h2 h3
    rcases hf with hf | ⟨x, hx, hxf⟩ | hf
    · exact Or.inl (h1 ▸ hf)
    · rw [h3 x hx] at hxf
      cases hxf
    · exact Or.inr (Or.inr (h2 ▸ hf))
  cases h with
  | finish i o => exact Or.inl (hsame rfl rfl (by cases o <;> cases collect <;> simp [after, Op.fires, Op.resumed]))
  | ack =>
    by_cases hle : n + 1 ≤ m.count + 1
    · exact Or.inr hle
    · exact Or.inl (hsame rfl rfl (by rw [if_neg hle]; simp))
  | joinAck =>
    by_cases hle : n + 1 ≤ m.count + 1
    · exact Or.inr hle
    · exact Or.inl (hsame rfl rfl (by rw [if_neg hle]; simp [Op.fires, Op.resumed]))
  | set | joinSet | check | group | fetch => exact Or.inl (Or.inr (Or.inl rfl))
  | wait he => exact Or.inl (Or.inl he)
  | store | append | cancel => exact Or.inl (hsame rfl rfl (by simp [Op.fires, Op.resumed]))

/-- A step that fills the barrier sets the event next; one that sets the event has it set. -/
theorem Move.fires (h : Move collect n m op c m' new) (hle : n + 1 ≤ m'.count) :
    (n + 1 ≤ m.count ∧ (m.event = true → m'.event = true) ∧ (op = .set ∨ op = .joinSet → m'.event = true)) ∨
      Op.set ∈ new ∨ Op.joinSet ∈ new := by
  cases h with
  | ack => exact Or.inr (Or.inl (by rw [if_pos hle]; simp))
  | joinAck => exact Or.inr (Or.inr (by rw [if_pos hle]; simp))
  | set | joinSet => exact Or.inl ⟨hle, fun _ => rfl, fun _ => rfl⟩
  | _ => exact Or.inl ⟨hle, id, by simp⟩

/-- An await waits only after it has counted. -/
theorem Move.waits (h : Move collect n m op c m' new) (hx : Op.wait ∈ new ∨ Op.joinSet ∈ new) : 0 < m'.awaits ∨ op = .joinSet := by
  cases h with
  | finish i o => cases o <;> cases collect <;> simp [after] at hx
  | joinAck => exact Or.inl (Nat.succ_pos _)
  | joinSet => exact Or.inr rfl
  | ack => split at hx <;> simp at hx
  | check => split at hx <;> simp at hx
  | _ => simp at hx

theorem Move.awaits_le (h : Move collect n m op c m' new) : m.awaits ≤ m'.awaits := by
  cases h with
  | joinAck => exact Nat.le_succ _
  | _ => exact Nat.le_refl _

/-- A coroutine that has no outcome has not finished. -/
theorem Move.left (h : Move collect n m op c m' new) {i : Nat} (ho : m'.outcome i = none) : m.outcome i = none ∧ op ≠ .coro i := by
  cases h with
  | finish j o =>
    by_cases hij : i = j
    · subst hij
      simp at ho
    · exact ⟨by simpa [hij] using ho, by simpa using Ne.symm hij⟩
  | _ => exact ⟨ho, by simp⟩

theorem Counted.move (h : Counted n m (A ++ op :: B)) (hm : Move collect n m op c m' new) : Counted n m' (A ++ (new ++ B)) := by
  obtain ⟨h1, h2, hmono⟩ := hm.count
  have hw := total_step wrapping A B new op
  have hj := total_step joining A B new op
  have hc := h.count
  have hjoins := h.joins
  have hopin : op ∈ A ++ op :: B := by simp
  refine ⟨by omega, by omega, fun hf => ?_, fun hle => ?_, fun hx => ?_, fun i hi ho => ?_⟩
  · have hcases : (m'.event = true ∨ (∃ x ∈ new, x.fires = true) ∨ m'.returned ≠ []) ∨ ∃ x ∈ A ++ op :: B, x.fires = true := by
      rcases hf with hf | ⟨x, hx, hxf⟩ | hf
      · exact Or.inl (Or.inl hf)
      · rcases Machine.mem_cases op hx with hx | hx
        · exact Or.inl (Or.inr (Or.inl ⟨x, hx, hxf⟩))
        · exact Or.inr ⟨x, hx, hxf⟩
      · exact Or.inl (Or.inr (Or.inr hf))
    rcases hcases with hf | hx
    · rcases hm.fired hf with (hf | hf | hf) | hle
      · exact Nat.le_trans (h.fired (Or.inl hf)) hmono
      · exact Nat.le_trans (h.fired (Or.inr (Or.inl ⟨op, hopin, hf⟩))) hmono
      · exact Nat.le_trans (h.fired (Or.inr (Or.inr hf))) hmono
      · exact hle
    · exact Nat.le_trans (h.fired (Or.inr (Or.inl hx))) hmono
  · rcases hm.fires hle with ⟨hold, hev, hset⟩ | hnew
    · rcases h.fires hold with he | hs | hs
      · exact Or.inl (hev he)
      · by_cases hop : Op.set = op
        · exact Or.inl (hset (Or.inl hop.symm))
        · exact Or.inr (Or.inl (Machine.mem_keep hs hop))
      · by_cases hop : Op.joinSet = op
        · exact Or.inl (hset (Or.inr hop.symm))
        · exact Or.inr (Or.inr (Machine.mem_keep hs hop))
    · rcases hnew with hs | hs
      · exact Or.inr (Or.inl (Machine.mem_new hs))
      · exact Or.inr (Or.inr (Machine.mem_new hs))
  · have hcases : (Op.wait ∈ new ∨ Op.joinSet ∈ new) ∨ (Op.wait ∈ A ++ op :: B ∨ Op.joinSet ∈ A ++ op :: B) := by
      rcases hx with hx | hx <;> rcases Machine.mem_cases op hx with hx | hx <;> simp only [hx, true_or, or_true]
    rcases hcases with hx | hx
    · rcases hm.waits hx with hpos | rfl
      · exact hpos
      · exact Nat.lt_of_lt_of_le (h.waits (Or.inr hopin)) hm.awaits_le
    · exact Nat.lt_of_lt_of_le (h.waits hx) hm.awaits_le
  · obtain ⟨hold, hop⟩ := hm.left ho
    exact Machine.mem_keep (h.left i hi hold) (Ne.symm hop)

theorem Counted.call {l : Call} (h : Counted n m ops) (hc : call m l = some (m', new)) : Counted n m' (ops ++ new) := by
  cases l
  obtain ⟨rfl, rfl⟩ : _ ∧ _ := by simpa [Spawn.call] using hc
  have hj := h.joins
  refine ⟨by simpa [wrapping] using h.count, by simp [joining]; omega, fun hf => h.fired ?_, fun hle => ?_, fun hx => h.waits ?_,
    fun i hi ho => List.mem_append_left _ (h.left i hi ho)⟩
  · rcases hf with hf | ⟨x, hx, hxf⟩ | hf
    · exact Or.inl hf
    · rcases List.mem_append.mp hx with hx | hx
      · exact Or.inr (Or.inl ⟨x, hx, hxf⟩)
      · rw [List.mem_singleton.mp hx] at hxf
        cases hxf
    · exact Or.inr (Or.inr hf)
  · rcases h.fires hle with he | hs | hs
    · exact Or.inl he
    · exact Or.inr (Or.inl (List.mem_append_left _ hs))
    · exact Or.inr (Or.inr (List.mem_append_left _ hs))
  · simpa using hx

theorem initial_ops (n : Nat) : (initial n : State (Mem α ε) (Op α ε)).ops = (List.range n).map .coro := by
  rw [List.map_eq_flatMap]
  simp [initial, State.ops, ← List.flatMap_def]

theorem counted_of_reach {ok : Mem α ε → List (Op α ε) → Act (Op α ε) (Choice α ε) Call → Prop} {s : State (Mem α ε) (Op α ε)}
    (h : (machine collect n).Reach ok (initial n) s) : Counted n s.mem s.ops := by
  refine h.invariant (I := Counted n) ?_ ?_ ?_
  · rw [initial_ops]
    refine ⟨?_, ?_, ?_, ?_, ?_, ?_⟩
    · simp [initial, total, Function.comp_def, wrapping]
    · simp [initial, total, Function.comp_def, joining]
    · simp [initial, Op.fires, Op.resumed]
    · simp [initial]
    · simp
    · exact fun i hi _ => List.mem_map_of_mem (List.mem_range.mpr hi)
  · exact fun m A op B c m' new hI _ he => hI.move (exec_move he)
  · exact fun m ops l m' new hI _ hc => hI.call (l := l) hc

/-! ## One await at a time -/

/-- While some coroutine has not finished, at most one await has counted. -/
theorem awaits_le_one_of_reach {s : State (Mem α ε) (Op α ε)}
    (h : (machine collect n).Reach (fun m ops a => ¬Reawaits m ops a) (initial n) s) :
    (∃ op ∈ s.ops, op.runs.isSome = true) → s.mem.awaits ≤ 1 := by
  refine h.invariant (I := fun m ops => (∃ op ∈ ops, op.runs.isSome = true) → m.awaits ≤ 1) ?_ ?_ ?_
  · exact fun _ => Nat.zero_le 1
  · rintro m A op B c m' new hI hok he ⟨x, hx, hxr⟩
    have hm := exec_move he
    have hold : ∃ x ∈ A ++ op :: B, x.runs.isSome = true := by
      rcases Machine.mem_cases op hx with hn | ho
      · exfalso
        cases hm with
        | finish i o => cases o <;> cases collect <;> simp [after] at hn <;> subst hn <;> cases hxr
        | ack | joinAck | check => split at hn <;> simp at hn <;> subst hn <;> cases hxr
        | _ => simp at hn <;> subst hn <;> cases hxr
      · exact ⟨x, ho, hxr⟩
    have hle := hI hold
    cases hm with
    | joinAck =>
      have : m.awaits = 0 := by
        by_contra hne
        exact hok ⟨Nat.pos_of_ne_zero hne, hold⟩
      show m.awaits + 1 ≤ 1
      omega
    | _ => exact hle
  · rintro m ops ⟨⟩ m' new hI _ hc ⟨x, hx, hxr⟩
    obtain ⟨rfl, rfl⟩ : _ ∧ _ := by simpa [machine, call] using hc
    rcases List.mem_append.mp hx with hx | hx
    · exact hI ⟨x, hx, hxr⟩
    · rw [List.mem_singleton.mp hx] at hxr
      cases hxr

/-- An await that was let through: the wrappers that have not counted are fewer than the awaits that have. -/
theorem Counted.resumed (h : Counted n m ops) (hr : (∃ op ∈ ops, op.resumed = true) ∨ m.returned ≠ []) :
    total wrapping ops < m.awaits := by
  have h1 := h.count
  have h2 : n + 1 ≤ m.count := by
    refine h.fired ?_
    rcases hr with ⟨x, hx, hxr⟩ | hr
    · refine Or.inr (Or.inl ⟨x, hx, ?_⟩)
      cases x <;> first | exact hxr | rfl
    · exact Or.inr (Or.inr hr)
  omega

/-! ## What is collected -/

/-- The exception a wrapper is about to append. -/
def Op.appends : Op α ε → Option ε
  | .append e => some e
  | _ => none

/-- A result that is about to be stored, or an exception that is about to be appended, is the one of a coroutine; what was stored and
appended is what the coroutines returned and raised. -/
structure Collected (collect : Bool) (n : Nat) (m : Mem α ε) (ops : List (Op α ε)) : Prop where
  solo : ∀ i, total (fun op => isAt op.runs i) ops ≤ 1
  runs : ∀ i, Op.coro i ∈ ops → i < n ∧ m.outcome i = none
  length : m.data.length = n
  stored : collect = true → ∀ i < n, ∀ v, m.outcome i = some (.ret v) → m.data[i]? = some (some v) ∨ Op.store i v ∈ ops
  store : ∀ i v, Op.store i v ∈ ops → m.outcome i = some (.ret v)
  errs : (m.errs ++ ops.filterMap Op.appends).Perm (raised n m.outcome)

/-- A coroutine that raises adds its exception to those raised. -/
theorem raised_perm {outcome : Nat → Option (Outcome α ε)} {i : Nat} {o : Outcome α ε} (hi : i < n) (ho : outcome i = none) :
    (o.exception.toList ++ raised n outcome).Perm (raised n (Function.update outcome i (some o))) := by
  have hgen : ∀ l : List Nat, l.Nodup → i ∈ l →
      (o.exception.toList ++ l.filterMap (fun j => (outcome j).bind Outcome.exception)).Perm
        (l.filterMap (fun j => (Function.update outcome i (some o) j).bind Outcome.exception)) := by
    intro l
    induction l with
    | nil => exact fun _ h => absurd h List.not_mem_nil
    | cons j l ih =>
      intro hn hmem
      obtain ⟨hj, hn⟩ := List.nodup_cons.mp hn
      by_cases hij : i = j
      · subst hij
        have hrest : l.filterMap (fun j => (Function.update outcome i (some o) j).bind Outcome.exception) =
            l.filterMap (fun j => (outcome j).bind Outcome.exception) := by
          refine List.filterMap_congr (fun k hk => ?_)
          rw [Function.update_of_ne (fun h : k = i => hj (h ▸ hk))]
        rw [List.filterMap_cons, List.filterMap_cons, hrest, ho]
        simp only [Option.bind_none, Function.update_self, Option.bind_some]
        cases o.exception <;> simp
      · have hperm := ih hn ((List.mem_cons.mp hmem).resolve_left hij)
        rw [List.filterMap_cons, List.filterMap_cons, Function.update_of_ne (Ne.symm hij)]
        cases (outcome j).bind Outcome.exception with
        | none => exact hperm
        | some e => exact List.perm_middle.trans (hperm.cons e)
  exact hgen (List.range n) List.nodup_range (List.mem_range.mpr hi)

@[simp] theorem appends_after (collect : Bool) (i : Nat) (o : Outcome α ε) : (after collect i o).appends = o.exception := by
  cases o <;> cases collect <;> rfl

@[simp] theorem runs_after (collect : Bool) (i : Nat) (o : Outcome α ε) : (after collect i o).runs = none := by
  cases o <;> cases collect <;> rfl

/-- What follows a step is no coroutine, and appends nothing, but for what a wrapper does with the end of its coroutine. -/
theorem Move.new_runs (h : Move collect n m op c m' new) : ∀ x ∈ new, x.runs = none := by
  cases h with
  | finish i o => simp
  | ack | joinAck | check => split <;> simp [Op.runs]
  | _ => simp [Op.runs]

theorem Move.new_appends (h : Move collect n m op c m' new) (hop : op.runs = none) :
    (∀ x ∈ new, x.appends = none) ∧ m'.outcome = m.outcome ∧ ∀ i v, Op.store i v ∉ new := by
  cases h with
  | finish i o => cases hop
  | ack | joinAck | check => refine ⟨?_, rfl, ?_⟩ <;> split <;> simp [Op.appends]
  | _ => exact ⟨by simp [Op.appends], rfl, by simp⟩

/-- What is added in the middle may as well be added in front. -/
theorem perm_front (X a t b : List ε) : (X ++ (a ++ (t ++ b))).Perm (t ++ (X ++ (a ++ b))) := by
  classical
  refine List.perm_iff_count.mpr (fun e => ?_)
  simp only [List.count_append]
  omega

/-- No step starts a coroutine. -/
theorem Collected.solo_after (h : Collected collect n m (A ++ op :: B)) (hnew : ∀ x ∈ new, x.runs = none) (i : Nat) :
    total (fun op => isAt op.runs i) (A ++ (new ++ B)) ≤ 1 := by
  have h1 := h.solo i
  have h2 : total (fun op : Op α ε => isAt op.runs i) new = 0 := total_eq_zero_iff.mpr (fun x hx => by rw [hnew x hx]; rfl)
  have h3 := total_step (fun op => isAt op.runs i) A B new op
  omega

theorem coro_beside {i : Nat} (hnew : ∀ x ∈ new, x.runs = none) (hx : Op.coro i ∈ A ++ (new ++ B)) : Op.coro i ∈ A ++ B := by
  rcases Machine.mem_beside hx with hx | hx
  · have := hnew _ hx
    cases this
  · exact hx

/-- A coroutine is over: its result is about to be stored, or its exception about to be appended. -/
theorem Collected.finish {i : Nat} (h : Collected collect n m (A ++ .coro i :: B)) (o : Outcome α ε) :
    Collected collect n { m with outcome := Function.update m.outcome i (some o) } (A ++ ([after collect i o] ++ B)) := by
  obtain ⟨hi, hnone⟩ := h.runs i (by simp)
  have hne : ∀ j, Op.coro j ∈ A ++ B → j ≠ i := by
    rintro j hj rfl
    exact key_ne_of_total_le (h.solo j) rfl hj rfl
  refine ⟨h.solo_after (by simp), fun j hj => ?_, h.length, fun hcol j hj v hv => ?_, fun j v hv => ?_, ?_⟩
  · have hj' := coro_beside (by simp) hj
    obtain ⟨h1, h2⟩ := h.runs j (Machine.mem_before _ hj')
    exact ⟨h1, by simpa only [Function.update_of_ne (hne j hj')] using h2⟩
  · by_cases hji : j = i
    · subst hji
      simp only [Function.update_self] at hv
      obtain rfl := Option.some.inj hv
      exact Or.inr (Machine.mem_new (by simp [after, hcol]))
    · simp only [Function.update_of_ne hji] at hv
      rcases h.stored hcol j hj v hv with hd | hs
      · exact Or.inl hd
      · exact Or.inr (Machine.mem_keep hs (by simp))
  · rcases Machine.mem_beside hv with hv | hv
    · have hafter := List.mem_singleton.mp hv
      cases o with
      | ret w =>
        cases collect with
        | true =>
          obtain ⟨rfl, rfl⟩ : j = i ∧ v = w := by simpa [after] using hafter
          simp
        | false => cases hafter
      | exc e => cases hafter
      | base => cases hafter
    · have hold := h.store j v (Machine.mem_before _ hv)
      by_cases hji : j = i
      · subst hji
        rw [hnone] at hold
        cases hold
      · simpa only [Function.update_of_ne hji] using hold
  · have hperm := h.errs
    simp only [List.filterMap_append, List.filterMap_cons, Op.appends] at hperm
    refine List.Perm.trans ?_ (raised_perm (o := o) hi hnone)
    refine List.Perm.trans ?_ (hperm.append_left o.exception.toList)
    have hnew : ([after collect i o].filterMap Op.appends : List ε) = o.exception.toList := by
      simp only [List.filterMap_cons, appends_after, List.filterMap_nil]
      cases o.exception <;> rfl
    rw [List.filterMap_append, List.filterMap_append, hnew]
    exact perm_front _ _ _ _

/-- A step in which no coroutine ends: a result is stored, an exception appended, or nothing of the kind. -/
theorem Collected.rest (h : Collected collect n m (A ++ op :: B)) (hm : Move collect n m op c m' new) (hop : op.runs = none) :
    Collected collect n m' (A ++ (new ++ B)) := by
  have hruns := hm.new_runs
  obtain ⟨happ, hout, hstore⟩ := hm.new_appends hop
  have hnil : new.filterMap Op.appends = [] := List.filterMap_eq_nil_iff.mpr happ
  have hstore' : ∀ i v, Op.store i v ∈ A ++ (new ++ B) → m'.outcome i = some (.ret v) := by
    intro i v hx
    rw [hout]
    rcases Machine.mem_beside hx with hx | hx
    · exact absurd hx (hstore i v)
    · exact h.store i v (Machine.mem_before _ hx)
  have hruns' : ∀ i, Op.coro i ∈ A ++ (new ++ B) → i < n ∧ m'.outcome i = none := by
    intro i hx
    rw [hout]
    exact h.runs i (Machine.mem_before _ (coro_beside hruns hx))
  have hdata : (∀ i v, op ≠ .store i v) → m'.data = m.data := by
    intro hne
    cases hm with
    | store i v => exact absurd rfl (hne i v)
    | _ => rfl
  have herrs : (∀ e, op ≠ .append e) → m'.errs = m.errs ∧ op.appends = none := by
    intro hne
    cases hm with
    | append e => exact absurd rfl (hne e)
    | _ => exact ⟨rfl, rfl⟩
  have hperm := h.errs
  simp only [List.filterMap_append, List.filterMap_cons] at hperm
  cases op with
  | store i v =>
    cases hm with
    | store _ _ =>
      have hi := h.store i v (by simp)
      refine ⟨h.solo_after hruns, hruns', by simpa using h.length, fun hcol j hj w hw => ?_, hstore', ?_⟩
      · by_cases hij : i = j
        · subst hij
          obtain rfl : v = w := by simpa using hi.symm.trans hw
          left
          simp [h.length, hj]
        · rcases h.stored hcol j hj w hw with hd | hs
          · left
            simpa [List.getElem?_set_ne hij] using hd
          · exact Or.inr (Machine.mem_keep hs (by simpa using fun hji _ => hij hji.symm))
      · simpa [List.filterMap_append, List.filterMap_cons, Op.appends] using hperm
  | append e =>
    cases hm with
    | append _ =>
      refine ⟨h.solo_after hruns, hruns', h.length, fun hcol j hj w hw => ?_, hstore', ?_⟩
      · rcases h.stored hcol j hj w hw with hd | hs
        · exact Or.inl hd
        · exact Or.inr (Machine.mem_keep hs (by simp))
      · simp only [Op.appends] at hperm
        simp only [List.filterMap_append, List.filterMap_cons, Op.appends, List.filterMap_nil, List.nil_append]
        refine List.Perm.trans ?_ hperm
        rw [List.append_assoc, List.singleton_append]
        exact (List.perm_middle.symm).append_left m.errs
  | _ =>
    obtain ⟨he, hnone⟩ := herrs (by simp)
    refine ⟨h.solo_after hruns, hruns', ?_, fun hcol j hj w hw => ?_, hstore', ?_⟩
    · rw [hdata (by simp)]
      exact h.length
    · rw [hdata (by simp)]
      rw [hout] at hw
      rcases h.stored hcol j hj w hw with hd | hs
      · exact Or.inl hd
      · exact Or.inr (Machine.mem_keep hs (by simp))
    · rw [he, hout, List.filterMap_append, List.filterMap_append, hnil]
      simpa [hnone] using hperm

theorem Collected.move (h : Collected collect n m (A ++ op :: B)) (hm : Move collect n m op c m' new) :
    Collected collect n m' (A ++ (new ++ B)) := by
  cases hop : op.runs with
  | some i =>
    obtain rfl : op = .coro i := by cases op <;> cases hop; rfl
    cases hm with
    | finish _ o => exact h.finish o
  | none => exact h.rest hm hop

theorem collected_of_reach {ok : Mem α ε → List (Op α ε) → Act (Op α ε) (Choice α ε) Call → Prop} {s : State (Mem α ε) (Op α ε)}
    (h : (machine collect n).Reach ok (initial n) s) : Collected collect n s.mem s.ops := by
  refine h.invariant (I := Collected collect n) ?_ ?_ ?_
  · rw [initial_ops]
    refine ⟨fun i => ?_, fun i hi => ?_, by simp [initial], fun _ i _ v hv => (by cases hv), fun i v hv => (by simp at hv), ?_⟩
    · have hkeys : ((List.range n).map (Op.coro (α := α) (ε := ε))).filterMap Op.runs = List.range n := by
        simp [List.filterMap_map, Function.comp_def, Op.runs]
      rw [total_isAt, hkeys]
      exact List.nodup_iff_count_le_one.mp List.nodup_range i
    · obtain ⟨j, hj, hij⟩ := List.mem_map.mp hi
      obtain rfl : j = i := by simpa using hij
      exact ⟨List.mem_range.mp hj, rfl⟩
    · have h1 : ((List.range n).map (Op.coro (α := α))).filterMap Op.appends = ([] : List ε) := by
        simp [List.filterMap_map, Function.comp_def, Op.appends]
      have h2 : raised n (fun _ => (none : Option (Outcome α ε))) = [] := by simp [raised]
      rw [h1]
      simp [initial, h2]
  · exact fun m A op B c m' new hI _ he => hI.move (exec_move he)
  · intro m ops l m' new hI _ hc
    cases l
    obtain ⟨rfl, rfl⟩ : _ ∧ _ := by simpa [machine, call] using hc
    refine ⟨fun i => by simpa [Op.runs] using hI.solo i, fun i hi => hI.runs i (by simpa using hi), hI.length, fun hcol i hi v hv => ?_,
      fun i v hv => hI.store i v (by simpa using hv), ?_⟩
    · rcases hI.stored hcol i hi v hv with hd | hs
      · exact Or.inl hd
      · exact Or.inr (List.mem_append_left _ hs)
    · simpa [List.filterMap_append, List.filterMap_cons, Op.appends] using hI.errs

/-- What an await gives back, of what was collected. -/
def result (collect : Bool) (n : Nat) (m : Mem α ε) : Joined α ε :=
  if m.errs ≠ [] then .group m.errs else if collect then .value (Spawn.fetch n m.data) else .none

/-- What the awaits gave back, or are about to, is what was collected. -/
structure Returned (collect : Bool) (n : Nat) (m : Mem α ε) (ops : List (Op α ε)) : Prop where
  group : Op.group ∈ ops → m.errs ≠ []
  fetch : Op.fetch ∈ ops → m.errs = []
  returned : ∀ r ∈ m.returned, r = result collect n m

theorem joins_le_one_of_reach {s : State (Mem α ε) (Op α ε)}
    (h : (machine collect n).Reach (fun m _ a => Plain m a) (initial n) s) : s.mem.joins ≤ 1 := by
  refine h.invariant (I := fun m _ => m.joins ≤ 1) (Nat.zero_le 1) ?_ ?_
  · intro m A op B c m' new hI _ he
    cases exec_move he <;> exact hI
  · intro m ops l m' new _ hok hc
    cases l
    obtain ⟨rfl, rfl⟩ : _ ∧ _ := by simpa [machine, call] using hc
    have : m.joins = 0 := hok
    show m.joins + 1 ≤ 1
    omega

theorem returned_of_reach {s : State (Mem α ε) (Op α ε)}
    (h : (machine collect n).Reach (fun m _ a => Plain m a) (initial n) s) : Returned collect n s.mem s.ops := by
  refine h.invariant_with (I := Returned collect n) (J := fun m ops => Counted n m ops ∧ m.joins ≤ 1)
    (fun hr => ⟨counted_of_reach hr, joins_le_one_of_reach hr⟩) ?_ ?_ ?_
  · rw [initial_ops]
    exact ⟨fun hx => (by simp at hx), fun hx => (by simp at hx), fun r hr => absurd hr List.not_mem_nil⟩
  · intro m A op B c m' new hJ hI _ he
    have hm := exec_move he
    have hjoins := hJ.1.joins
    -- while a wrapper has not counted, no await has been let through
    have hquiet : 0 < wrapping op → (∀ x ∈ A ++ op :: B, x.resumed = false) ∧ m.returned = [] := by
      intro hpos
      have hle : wrapping op ≤ total wrapping (A ++ op :: B) := le_total_of_mem (by simp)
      have hno : ¬((∃ x ∈ A ++ op :: B, x.resumed = true) ∨ m.returned ≠ []) := by
        intro hr
        have := hJ.1.resumed hr
        omega
      push Not at hno
      exact ⟨fun x hx => Bool.eq_false_iff.mpr (hno.1 x hx), hno.2⟩
    have hkeep : ∀ x : Op α ε, x.resumed = true → x ∉ new → x ∈ A ++ (new ++ B) → x ∈ A ++ op :: B := by
      intro x _ hn hx
      rcases Machine.mem_cases op hx with hx | hx
      · exact absurd hx hn
      · exact hx
    cases hm with
    | store i v | append e =>
      obtain ⟨h1, h2⟩ := hquiet Nat.one_pos
      refine ⟨fun hx => ?_, fun hx => ?_, fun r hr => ?_⟩
      · have := h1 _ (hkeep .group rfl (by simp) hx)
        cases this
      · have := h1 _ (hkeep .fetch rfl (by simp) hx)
        cases this
      · simp only [h2] at hr
        cases hr
    | check =>
      refine ⟨fun hx => ?_, fun hx => ?_, hI.returned⟩
      · rcases Machine.mem_cases .check hx with hx | hx
        · by_contra hne
          rw [if_neg (by simpa using hne)] at hx
          simp at hx
        · exact hI.group hx
      · rcases Machine.mem_cases .check hx with hx | hx
        · by_contra hne
          rw [if_pos hne] at hx
          simp at hx
        · exact hI.fetch hx
    | group =>
      have hne := hI.group (by simp)
      refine ⟨fun hx => hI.group (hkeep _ rfl (by simp) hx), fun hx => hI.fetch (hkeep _ rfl (by simp) hx), fun r hr => ?_⟩
      rcases List.mem_append.mp hr with hr | hr
      · exact hI.returned r hr
      · rw [List.mem_singleton.mp hr]
        simp [result, hne]
    | fetch =>
      have hnil := hI.fetch (by simp)
      refine ⟨fun hx => hI.group (hkeep _ rfl (by simp) hx), fun hx => hI.fetch (hkeep _ rfl (by simp) hx), fun r hr => ?_⟩
      rcases List.mem_append.mp hr with hr | hr
      · exact hI.returned r hr
      · rw [List.mem_singleton.mp hr]
        simp [result, hnil]
    | finish i o =>
      refine ⟨fun hx => hI.group (hkeep _ rfl ?_ hx), fun hx => hI.fetch (hkeep _ rfl ?_ hx), hI.returned⟩ <;>
        cases o <;> cases collect <;> simp [after]
    | ack | joinAck =>
      refine ⟨fun hx => hI.group (hkeep _ rfl ?_ hx), fun hx => hI.fetch (hkeep _ rfl ?_ hx), hI.returned⟩ <;>
        split <;> simp
    | _ => exact ⟨fun hx => hI.group (hkeep _ rfl (by simp) hx), fun hx => hI.fetch (hkeep _ rfl (by simp) hx), hI.returned⟩
  · intro m ops l m' new _ hI _ hc
    cases l
    obtain ⟨rfl, rfl⟩ : _ ∧ _ := by simpa [machine, call] using hc
    exact ⟨fun hx => hI.group (by simpa using hx), fun hx => hI.fetch (by simpa using hx), hI.returned⟩

end Tonio.Spawn
