import Tonio.Context
import Tonio.Lemmas.Cells

/-!
# The context a handle carries

Every handle and every suspension of a coroutine carries the context of its task (`Carried`): the coroutine a spawn starts gets the new context, a
child that of the generator that yields it, and a suspension that of the coroutine it suspends. A resumption acts on the context it
enters and makes new ones, and on no other (`Used`).
-/

namespace Tonio.Runtime

open Interleaving

/-! ## What the runtime carries -/

/-- The coroutine a handle resumes, with its context. -/
def Handle.carries : Handle → Option (Nat × Option Nat)
  | .gen _ coro ctx _ | .async _ coro ctx _ | .asyncThrow coro ctx _ => some (coro, ctx)
  | .timer _ | .event _ => none

/-- The coroutine an operation goes on with, with its context. -/
def Op.carries : Op → Option (Nat × Option Nat)
  | .run h | .addHandle h | .enter _ _ h => h.carries
  | .registerPygen _ coro ctx _ | .registerPyasyncgen _ coro ctx _ | .suspend _ coro ctx _ _ _ _ => some (coro, ctx)
  | _ => none

section

variable {ws : Nat → Waiter} {m m' : Mem} {A B new : List Op} {op x : Op} {c : Choice} {S : Susp}

theorem Susp.handle_carries (S : Susp) (input : Input) : (S.handle input).carries = some (S.coro, S.ctx) := by
  cases input <;> cases hfl : S.flavour <;> simp [Susp.handle, hfl, Handle.carries]

theorem registration_carries {events : List Nat} {timed : Bool} (hx : x ∈ registration S events timed) : x.carries = none := by
  unfold registration at hx
  split at hx
  · rw [List.mem_singleton.mp hx]
    rfl
  · rcases List.mem_append.mp hx with hx | hx
    · obtain ⟨ei, -, rfl⟩ := List.mem_map.mp hx
      rfl
    · cases timed with
      | false => cases hx
      | true =>
        rw [List.mem_singleton.mp hx]
        rfl

/-- What a step goes on with: the coroutine of its operation, or one that was suspended, or the generator that was yielded, with the context
of the one that yields it. -/
theorem Move.carries (hm : Move ws m op c m' new) (hk : Known m (A ++ op :: B)) (hx : x ∈ new) {k : Nat} {ctx : Option Nat}
    (hc : x.carries = some (k, ctx)) :
    op.carries = some (k, ctx) ∨ (∃ S, m.Knows S ∧ k = S.coro ∧ ctx = S.ctx) ∨
      (c = .out .yieldGen ∧ m'.nextCoro = m.nextCoro + 1 ∧ k = m.nextCoro ∧ ∃ coro, op.carries = some (coro, ctx)) := by
  have hop : op.WF m := hk.ops op (by simp)
  cases hm with
  | toHandle T input | toHandleClear T input =>
    rw [List.mem_singleton.mp hx, Op.carries, Susp.handle_carries] at hc
    obtain ⟨rfl, rfl⟩ := Prod.mk.inj (Option.some.inj hc)
    exact Or.inr (Or.inl ⟨T, hop, rfl, rfl⟩)
  | suspend fl coro ctx' checkpoint parents events timed T hT =>
    rw [registration_carries hx] at hc
    cases hc
  | callChild parents coro ctx' input new hnew =>
    have hx : x.carries = some (m.nextCoro, ctx') := by
      rcases hnew with rfl | ⟨_, _, _, -, -, -, rfl⟩ <;> rw [List.mem_singleton.mp hx] <;> rfl
    obtain ⟨rfl, rfl⟩ := Prod.mk.inj (Option.some.inj (hx.symm.trans hc))
    exact Or.inr (Or.inr ⟨rfl, rfl, rfl, coro, rfl⟩)
  | again | yieldWaiter | asyncAgain | asyncWaiter | register | registerAsync | enter =>
    rw [List.mem_singleton.mp hx] at hc
    exact Or.inl hc
  | lock e hl hlock => cases hlock <;> rw [List.mem_singleton.mp hx] at hc <;> cases hc
  | storeRes T i v last =>
    cases last with
    | false => cases hx
    | true =>
      rw [List.mem_singleton.mp hx] at hc
      cases hc
  | checkAborted w T =>
    rw [List.mem_singleton.mp hx] at hc
    split at hc <;> cases hc
  | abortLoad fl w =>
    obtain ⟨T, -, rfl⟩ := Option.map_eq_some_iff.mp (Option.mem_toList.mp hx)
    cases hc
  | ret parents | raise parents =>
    cases parents with
    | nil => cases hx
    | cons p rest =>
      rw [List.mem_singleton.mp hx] at hc
      cases hc
  | asyncOver checkpoint =>
    obtain ⟨w, -, rfl⟩ := Option.map_eq_some_iff.mp (Option.mem_toList.mp hx)
    cases hc
  | wakeNow e y | notifyPop e y =>
    simp only [List.mem_cons, List.not_mem_nil, or_false] at hx
    rcases hx with rfl | rfl <;> cases hc
  | _ =>
    simp only [List.mem_singleton, List.not_mem_nil] at hx
    try subst hx
    try cases hc

/-- A suspension is of the coroutine of the operation that makes it, or of one that was suspended. -/
theorem Made.carries (h : Made ws m m' new op S) (hop : op.WF m) :
    op.carries = some (S.coro, S.ctx) ∨ ∃ T, m.Knows T ∧ S.coro = T.coro ∧ S.ctx = T.ctx := by
  cases h with
  | copied w coro ctx p rest hd => exact Or.inr ⟨⟨p, rest⟩, (hop p rest rfl).1, rfl, rfl⟩
  | parked fl coro ctx checkpoint parents events timed _ hS => exact Or.inl (by rw [hS]; rfl)
  | _ => exact Or.inl rfl

theorem Move.handles (hm : Move ws m op c m' new) {y : Handle} (hy : y ∈ m'.handles) : y ∈ m.handles ∨ op = .addHandle y := by
  cases hm with
  | addHandle z =>
    rcases List.mem_append.mp hy with hy | hy
    · exact Or.inl hy
    · exact Or.inr (by rw [List.mem_singleton.mp hy])
  | _ => exact Or.inl hy

/-- A coroutine is called when a generator yields it. -/
theorem Move.nextCoro_eq (hm : Move ws m op c m' new) :
    m'.nextCoro = m.nextCoro ∨ (m'.nextCoro = m.nextCoro + 1 ∧ c = .out .yieldGen ∧ ∃ p, op.carries = some p) := by
  cases hm with
  | callChild parents coro ctx => exact Or.inr ⟨rfl, rfl, (coro, ctx), rfl⟩
  | _ => exact Or.inl rfl

end

end Tonio.Runtime

namespace Tonio.Context

open Interleaving
open Tonio.Runtime (Op Handle Flavour Input Out Waiter Known)

variable {ws : Nat → Waiter} {m m' : Mem} {A B new ops : List Op} {op : Op}

/-! ## What the handles carry -/

/-- A coroutine has been called, and the context is that of its task. -/
def Mem.Belongs (m : Mem) (coro : Nat) (ctx : Option Nat) : Prop := coro < m.runtime.nextCoro ∧ ctx = some (m.task coro)

/-- Every coroutine goes on with the context of its task. -/
structure Carried (m : Mem) (ops : List Op) : Prop where
  known : Known m.runtime ops
  ops : ∀ x ∈ ops, ∀ k ctx, x.carries = some (k, ctx) → m.Belongs k ctx
  handles : ∀ h ∈ m.runtime.handles, ∀ k ctx, h.carries = some (k, ctx) → m.Belongs k ctx
  made : ∀ S, m.runtime.Knows S → m.Belongs S.coro S.ctx
  started : ∀ k < m.runtime.nextCoro, (m.start (m.task k)).isSome = true
  fresh : ∀ t, m.next ≤ t → m.start t = none

/-- A task keeps its coroutines and its start. -/
structure Mem.Keeps (m m' : Mem) : Prop where
  nextCoro : m.runtime.nextCoro ≤ m'.runtime.nextCoro
  task : ∀ k < m.runtime.nextCoro, m'.task k = m.task k
  start : ∀ t v, m.start t = some v → m'.start t = some v

theorem Mem.Belongs.keep {k : Nat} {ctx : Option Nat} (h : m.Belongs k ctx) (hk : m.Keeps m') : m'.Belongs k ctx :=
  ⟨Nat.lt_of_lt_of_le h.1 hk.nextCoro, by rw [hk.task k h.1]; exact h.2⟩

/-- The same operations in another order. -/
theorem Carried.congr {ops' : List Op} (h : Carried m ops) (ho : ∀ x ∈ ops', x ∈ ops) : Carried m ops' :=
  ⟨{ h.known with ops := fun x hx => h.known.ops x (ho x hx) }, fun x hx => h.ops x (ho x hx), h.handles, h.made, h.started, h.fresh⟩

/-- What happens around the runtime, but for a spawn. -/
theorem Carried.around {l : Runtime.Call} {r : Runtime.Mem} (h : Carried m ops) (hc : Runtime.Started m.runtime l r new)
    (hl : ∀ fl ctx, l ≠ .spawn fl ctx) : Carried { m with runtime := r } (ops ++ new) := by
  have hknown := h.known.call hc
  cases hc with
  | spawn fl ctx y hy => exact absurd rfl (hl fl ctx)
  | work k y hy =>
    refine ⟨hknown, fun x hx => ?_, fun z hz => h.handles z (List.mem_of_mem_eraseIdx hz), h.made, h.started, h.fresh⟩
    rcases List.mem_append.mp hx with hx | hx
    · exact h.ops x hx
    · rw [List.mem_singleton.mp hx]
      exact h.handles y (List.mem_of_getElem? hy)
  | _ =>
    refine ⟨hknown, fun x hx => ?_, h.handles, h.made, h.started, h.fresh⟩
    rcases List.mem_append.mp hx with hx | hx
    · exact h.ops x hx
    · rw [List.mem_singleton.mp hx]
      intro k ctx hc
      cases hc

/-- What a spawn does. -/
theorem spawn_eq {fl : Flavour} {v : Vars} (hs : m.spawn fl v = some (m', new)) :
    ∃ h : Handle, h.carries = some (m.runtime.nextCoro, some m.next) ∧ new = [.addHandle h] ∧
      Runtime.Started m.runtime (.spawn fl (some m.next)) m'.runtime new ∧
      m' = { m.newContext v with
        runtime := { m.runtime with nextCoro := m.runtime.nextCoro + 1 }
        task := Function.update m.task m.runtime.nextCoro m.next
        start := Function.update m.start m.next (some v) } := by
  obtain ⟨⟨r, new'⟩, hc, heq⟩ := Option.map_eq_some_iff.mp hs
  obtain ⟨rfl, rfl⟩ := Prod.mk.inj heq
  have hstarted := Runtime.call_started hc
  cases hstarted with
  | spawn _ _ h hh =>
    refine ⟨h, ?_, rfl, .spawn fl (some m.next) h hh, rfl⟩
    rcases hh with ⟨-, rfl⟩ | ⟨-, rfl⟩ <;> rfl

/-- A spawn starts a coroutine with the new context. -/
theorem Carried.spawn {fl : Flavour} {v : Vars} (h : Carried m ops) (hs : m.spawn fl v = some (m', new)) : Carried m' (ops ++ new) := by
  obtain ⟨y, hy, rfl, hstarted, rfl⟩ := spawn_eq hs
  have hkeeps : m.Keeps { m.newContext v with
      runtime := { m.runtime with nextCoro := m.runtime.nextCoro + 1 }
      task := Function.update m.task m.runtime.nextCoro m.next
      start := Function.update m.start m.next (some v) } := by
    refine ⟨Nat.le_succ _, fun k hk => Function.update_of_ne (Nat.ne_of_lt hk) _ _, fun t v' ht => ?_⟩
    have hne : t ≠ m.next := by
      rintro rfl
      rw [h.fresh _ (Nat.le_refl _)] at ht
      cases ht
    exact (Function.update_of_ne hne _ _).trans ht
  refine ⟨h.known.call hstarted, fun x hx k ctx hc => ?_, fun z hz k ctx hc => (h.handles z hz k ctx hc).keep hkeeps,
    fun S hS => (h.made S hS).keep hkeeps, fun k hk => ?_, fun t ht => ?_⟩
  · rcases List.mem_append.mp hx with hx | hx
    · exact (h.ops x hx k ctx hc).keep hkeeps
    · rw [List.mem_singleton.mp hx] at hc
      obtain ⟨rfl, rfl⟩ := Prod.mk.inj (Option.some.inj (hy.symm.trans hc))
      exact ⟨Nat.lt_succ_self _, by simp⟩
  · rcases Nat.lt_succ_iff_lt_or_eq.mp hk with hk | rfl
    · obtain ⟨v', hv⟩ := Option.isSome_iff_exists.mp (h.started k hk)
      rw [hkeeps.task k hk, hkeeps.start _ _ hv]
      rfl
    · simp
  · have hne : t ≠ m.next := by
      rintro rfl
      exact Nat.not_succ_le_self _ ht
    exact (Function.update_of_ne hne _ _).trans (h.fresh t (Nat.le_of_succ_le ht))

/-- What a coroutine does with contexts leaves what is carried alone, but for its spawns. -/
theorem Carried.use {task cur : Nat} {throws : Bool} {u : Use} (h : Carried m ops) (hu : m.use task throws cur u = some (m', new)) :
    Carried m' (ops ++ new) := by
  cases u with
  | set var value =>
    obtain ⟨rfl, rfl⟩ := Prod.mk.inj (Option.some.inj hu)
    rw [List.append_nil]
    exact ⟨h.known, h.ops, h.handles, h.made, h.started, h.fresh⟩
  | reset t =>
    obtain ⟨token, -, heq⟩ := Option.map_eq_some_iff.mp hu
    obtain ⟨rfl, rfl⟩ := Prod.mk.inj heq
    rw [List.append_nil]
    unfold Mem.reset
    split
    · exact h
    · split <;> exact ⟨h.known, h.ops, h.handles, h.made, h.started, h.fresh⟩
  | spawn fl => exact h.spawn hu

theorem Carried.uses {task cur : Nat} {throws : Bool} {us : List Use} (h : Carried m ops)
    (hu : m.uses task throws cur us = some (m', new)) : Carried m' (ops ++ new) := by
  induction us generalizing m ops new with
  | nil =>
    obtain ⟨rfl, rfl⟩ := Prod.mk.inj (Option.some.inj hu)
    rwa [List.append_nil]
  | cons u us ih =>
    simp only [Mem.uses] at hu
    split at hu
    · rename_i m₁ new₁ hu₁
      obtain ⟨⟨m₂, new₂⟩, hu₂, heq⟩ := Option.map_eq_some_iff.mp hu
      obtain ⟨rfl, rfl⟩ := Prod.mk.inj heq
      rw [← List.append_assoc]
      exact ih (h.use hu₁) hu₂
    · cases hu

/-- A step of the runtime. `task` may be recorded for the coroutine that is called. -/
theorem Carried.move {c : Runtime.Choice} {r : Runtime.Mem} {task : Nat → Nat} (h : Carried m (A ++ op :: B))
    (hm : Runtime.Move ws m.runtime op c r new) (htask : ∀ k < m.runtime.nextCoro, task k = m.task k)
    (hchild : c = .out .yieldGen → ∀ k ctx, op.carries = some (k, ctx) → task m.runtime.nextCoro = m.task k) :
    Carried { m with runtime := r, task := task } (A ++ (new ++ B)) := by
  have hle : m.runtime.nextCoro ≤ r.nextCoro := by
    rcases hm.nextCoro_eq with hn | ⟨hn, -⟩ <;> omega
  have hkeeps : m.Keeps { m with runtime := r, task := task } := ⟨hle, htask, fun _ _ => id⟩
  have hop := h.ops op (by simp)
  refine ⟨h.known.move hm, fun x hx k ctx hc => ?_, fun y hy k ctx hc => ?_, fun S hS => ?_, fun k hk => ?_, h.fresh⟩
  · rcases Machine.mem_cases op hx with hn | ho
    · rcases hm.carries h.known hn hc with hc | ⟨S, hS, rfl, rfl⟩ | ⟨hg, hn, rfl, coro, hc⟩
      · exact (hop k ctx hc).keep hkeeps
      · exact (h.made S hS).keep hkeeps
      · -- the generator that is yielded
        have hlt : m.runtime.nextCoro < r.nextCoro := by omega
        have htask : task m.runtime.nextCoro = m.task coro := hchild hg coro ctx hc
        exact ⟨hlt, (hop coro ctx hc).2.trans (congrArg some htask.symm)⟩
    · exact (h.ops x ho k ctx hc).keep hkeeps
  · rcases hm.handles hy with hy | rfl
    · exact (h.handles y hy k ctx hc).keep hkeeps
    · exact (hop k ctx hc).keep hkeeps
  · rcases hm.extends.old hS with hS | hfresh
    · exact (h.made S hS).keep hkeeps
    · rcases (hm.made h.known hS hfresh).carries (h.known.ops op (by simp)) with hc | ⟨T, hT, h1, h2⟩
      · exact (hop _ _ hc).keep hkeeps
      · rw [h1, h2]
        exact (h.made T hT).keep hkeeps
  · by_cases hlt : k < m.runtime.nextCoro
    · rw [hkeeps.task k hlt]
      exact h.started k hlt
    · rcases hm.nextCoro_eq with hn | ⟨hn, hg, ⟨coro, ctx⟩, hc⟩
      · exact absurd (hn ▸ hk) hlt
      · have hk : k < r.nextCoro := hk
        obtain rfl : k = m.runtime.nextCoro := by omega
        have htask : task m.runtime.nextCoro = m.task coro := hchild hg coro ctx hc
        show (m.start (task m.runtime.nextCoro)).isSome = true
        rw [htask]
        exact h.started coro (hop coro ctx hc).1

/-! ## The steps -/

/-- A step is one of the runtime, or a resumption of a coroutine, between the entry of a context and its exit, with what the runtime does then. -/
theorem exec_cases {c : Choice} (he : exec ws m op c = some (m', new)) :
    (∃ r, c = .go ∧ Runtime.exec ws m.runtime op .go = some (r, new) ∧ m' = { m with runtime := r }) ∨
    ∃ h o us coro ctx throws m₁ spawned r new', op = .run h ∧ c = .out o us ∧ resumes h = some (coro, some ctx, throws) ∧
      m.resume coro ctx throws us = some (m₁, spawned) ∧ Runtime.exec ws m₁.runtime (.run h) (.out o) = some (r, new') ∧
      m' = { m₁.adopt coro o with runtime := r } ∧ new = spawned ++ new' := by
  have hgo : ∀ r : Option (Runtime.Mem × List Op), m.lift r = some (m', new) → ∃ r', r = some (r', new) ∧ m' = { m with runtime := r' } := by
    intro r hr
    obtain ⟨⟨r', new'⟩, hr', heq⟩ := Option.map_eq_some_iff.mp hr
    obtain ⟨rfl, rfl⟩ := Prod.mk.inj heq
    exact ⟨r', hr', rfl⟩
  cases c with
  | go =>
    have he : m.lift (Runtime.exec ws m.runtime op .go) = some (m', new) := by
      cases op <;> exact he
    obtain ⟨r, hr, hm⟩ := hgo _ he
    exact Or.inl ⟨r, rfl, hr, hm⟩
  | out o us =>
    right
    cases op with
    | run h =>
      simp only [exec] at he
      split at he
      · rename_i coro ctx throws hres
        split at he
        · rename_i m₁ spawned hm₁
          obtain ⟨⟨m₂, new₂⟩, hl, heq⟩ := Option.map_eq_some_iff.mp he
          obtain ⟨rfl, rfl⟩ := Prod.mk.inj heq
          obtain ⟨⟨r, new'⟩, hr, heq⟩ := Option.map_eq_some_iff.mp hl
          obtain ⟨rfl, rfl⟩ := Prod.mk.inj heq
          exact ⟨h, o, us, coro, ctx, throws, m₁, spawned, r, new', rfl, rfl, hres, hm₁, hr, rfl, rfl⟩
        · cases he
      · cases he
    | _ => cases he

/-- The context a resumption enters carries over what is carried. -/
theorem Carried.resume {coro ctx : Nat} {throws : Bool} {us : List Use} (h : Carried m ops)
    (hr : m.resume coro ctx throws us = some (m', new)) : Carried m' (ops ++ new) := by
  obtain ⟨⟨m₁, new₁⟩, hu, heq⟩ := Option.map_eq_some_iff.mp hr
  obtain ⟨rfl, rfl⟩ := Prod.mk.inj heq
  have hentered : Carried (if throws = true then m.newContext (m.vars ctx) else m) ops := by
    cases throws with
    | false => exact h
    | true => exact ⟨h.known, h.ops, h.handles, h.made, h.started, fun t ht => h.fresh t (Nat.le_of_succ_le ht)⟩
  have hused := hentered.uses hu
  exact ⟨hused.known, hused.ops, hused.handles, hused.made, hused.started, hused.fresh⟩

theorem carries_of_resumes {h : Handle} {coro : Nat} {ctx : Option Nat} {throws : Bool} (hr : resumes h = some (coro, ctx, throws)) :
    h.carries = some (coro, ctx) := by
  cases h with
  | timer | event => cases hr
  | _ =>
    simp only [resumes, Option.some.injEq, Prod.mk.injEq] at hr
    obtain ⟨rfl, rfl, -⟩ := hr
    rfl

theorem Carried.exec {c : Choice} (h : Carried m (A ++ op :: B)) (he : exec ws m op c = some (m', new)) : Carried m' (A ++ (new ++ B)) := by
  rcases exec_cases he with ⟨r, rfl, hr, rfl⟩ | ⟨y, o, us, coro, ctx, throws, m₁, spawned, r, new', rfl, rfl, hres, hm₁, hr, rfl, rfl⟩
  · exact h.move (Runtime.exec_move hr) (fun _ _ => rfl) (fun hg => by cases hg)
  · have h₁ : Carried m₁ (A ++ .run y :: (B ++ spawned)) := (h.resume hm₁).congr (fun x hx => by simpa using hx)
    have h₂ : Carried { m₁.adopt coro o with runtime := r } (A ++ (new' ++ (B ++ spawned))) := by
      have hy := carries_of_resumes hres
      cases o with
      | yieldGen =>
        refine h₁.move (Runtime.exec_move hr) (fun k hk => Function.update_of_ne (Nat.ne_of_lt hk) _ _) (fun _ k ctx' hc => ?_)
        obtain ⟨rfl, -⟩ := Prod.mk.inj (Option.some.inj (hy.symm.trans hc))
        exact Function.update_self _ _ _
      | _ => exact h₁.move (Runtime.exec_move hr) (fun _ _ => rfl) (fun hg => by cases hg)
    refine h₂.congr (fun x hx => ?_)
    simp only [List.mem_append] at hx ⊢
    tauto

/-- What happens around is a spawn, or something else around the runtime. -/
theorem call_cases {l : Call} (hc : call m l = some (m', new)) :
    (∃ fl v, m.spawn fl v = some (m', new)) ∨
    ∃ l' r, (∀ fl ctx, l' ≠ .spawn fl ctx) ∧ Runtime.call m.runtime l' = some (r, new) ∧ m' = { m with runtime := r } := by
  cases l with
  | spawn fl vars => exact Or.inl ⟨fl, vars, hc⟩
  | runtime l =>
    have hl : ∀ fl ctx, l ≠ .spawn fl ctx := by
      rintro fl ctx rfl
      cases hc
    have hc : m.lift (Runtime.call m.runtime l) = some (m', new) := by
      cases l with
      | spawn fl ctx => exact absurd rfl (hl fl ctx)
      | _ => exact hc
    obtain ⟨⟨r, new'⟩, hr, heq⟩ := Option.map_eq_some_iff.mp hc
    obtain ⟨rfl, rfl⟩ := Prod.mk.inj heq
    exact Or.inr ⟨l, r, hl, hr, rfl⟩

theorem Carried.call {l : Call} (h : Carried m ops) (hc : call m l = some (m', new)) : Carried m' (ops ++ new) := by
  rcases call_cases hc with ⟨fl, v, hs⟩ | ⟨l', r, hl, hr, rfl⟩
  · exact h.spawn hs
  · exact h.around (Runtime.call_started hr) hl

theorem carried_initial : Carried initial.mem initial.ops :=
  ⟨Runtime.known_initial, fun _ hx => absurd hx List.not_mem_nil, fun _ hx => absurd hx List.not_mem_nil,
    fun _ hS => (by cases hS), fun _ hk => absurd hk (Nat.not_lt_zero _), fun _ _ => rfl⟩

/-! ## What a resumption does to the contexts -/

/-- A token as it was, but that it may have been used. -/
def Token.Later (token token' : Token) : Prop :=
  token'.ctx = token.ctx ∧ token'.task = token.task ∧ token'.thrown = token.thrown ∧ (token'.used = false → token.used = false)

theorem Token.Later.refl (token : Token) : token.Later token := ⟨rfl, rfl, rfl, id⟩

/-- What a coroutine of a task may have done in the context `cur`: it changed that one and made others, for tasks it spawned; it made tokens in
it and used others; a token it was refused is none of those it made, and had not been used. -/
structure Used (task : Nat) (throws : Bool) (cur : Nat) (us : List Use) (m m' : Mem) : Prop where
  steps : m'.steps = m.steps
  next : m.next ≤ m'.next
  vars : ∀ c < m.next, c ≠ cur → m'.vars c = m.vars c
  start : ∀ t < m.next, m'.start t = m.start t
  started : ∀ t v, m'.start t = some v → m.start t = some v ∨ (m.next ≤ t ∧ t < m'.next ∧ m'.vars t = v)
  tokens : ∀ (i : Nat) (token' : Token), m'.tokens[i]? = some token' → (∃ token, m.tokens[i]? = some token ∧ token.Later token') ∨
    (token'.ctx = cur ∧ token'.task = task ∧ token'.thrown = throws)
  later : ∀ (i : Nat) (token : Token), m.tokens[i]? = some token → ∃ token', m'.tokens[i]? = some token' ∧ token.Later token'
  refusals : ∀ r ∈ m'.refusals, r ∈ m.refusals ∨
    (r.1 = task ∧ .reset r.2 ∈ us ∧ ∃ token, m.tokens[r.2]? = some token ∧ token.used = false ∧ token.ctx ≠ cur)

variable {task cur : Nat} {throws : Bool} {us : List Use}

theorem Used.refl (m : Mem) : Used task throws cur us m m :=
  ⟨rfl, Nat.le_refl _, fun _ _ _ => rfl, fun _ _ => rfl, fun _ _ => Or.inl, fun _ token h => Or.inl ⟨token, h, .refl token⟩,
    fun _ token h => ⟨token, h, .refl token⟩, fun _ => Or.inl⟩

theorem Used.trans {u : Use} {m₁ m₂ : Mem} (h : Used task throws cur [u] m m₁) (h' : Used task throws cur us m₁ m₂) (hcur : cur < m.next) :
    Used task throws cur (u :: us) m m₂ where
  steps := h'.steps.trans h.steps
  next := Nat.le_trans h.next h'.next
  vars c hc hne := (h'.vars c (Nat.lt_of_lt_of_le hc h.next) hne).trans (h.vars c hc hne)
  start t ht := (h'.start t (Nat.lt_of_lt_of_le ht h.next)).trans (h.start t ht)
  started t v hv := by
    rcases h'.started t v hv with hv | ⟨hle, hlt, hvars⟩
    · rcases h.started t v hv with hv | ⟨hle, hlt, hvars⟩
      · exact Or.inl hv
      · refine Or.inr ⟨hle, Nat.lt_of_lt_of_le hlt h'.next, ?_⟩
        rw [h'.vars t hlt (by omega), hvars]
    · exact Or.inr ⟨Nat.le_trans h.next hle, hlt, hvars⟩
  tokens i token'' hi := by
    rcases h'.tokens i token'' hi with ⟨token', hi, hl'⟩ | hnew
    · rcases h.tokens i token' hi with ⟨token, hi, hl⟩ | ⟨h1, h2, h3⟩
      · exact Or.inl ⟨token, hi, hl'.1.trans hl.1, hl'.2.1.trans hl.2.1, hl'.2.2.1.trans hl.2.2.1, fun hu => hl.2.2.2 (hl'.2.2.2 hu)⟩
      · exact Or.inr ⟨hl'.1.trans h1, hl'.2.1.trans h2, hl'.2.2.1.trans h3⟩
    · exact Or.inr hnew
  later i token hi := by
    obtain ⟨token', hi, hl⟩ := h.later i token hi
    obtain ⟨token'', hi, hl'⟩ := h'.later i token' hi
    exact ⟨token'', hi, hl'.1.trans hl.1, hl'.2.1.trans hl.2.1, hl'.2.2.1.trans hl.2.2.1, fun hu => hl.2.2.2 (hl'.2.2.2 hu)⟩
  refusals r hr := by
    rcases h'.refusals r hr with hr | ⟨h1, h2, token', hi, hu, hc⟩
    · rcases h.refusals r hr with hr | ⟨h1, h2, h3⟩
      · exact Or.inl hr
      · exact Or.inr ⟨h1, by simpa using Or.inl (List.mem_singleton.mp h2), h3⟩
    · -- a token of the resumption is of the current context
      rcases h.tokens _ token' hi with ⟨token, hi, hl⟩ | ⟨hcur', -⟩
      · exact Or.inr ⟨h1, List.mem_cons_of_mem _ h2, token, hi, hl.2.2.2 hu, fun heq => hc (hl.1.trans heq)⟩
      · exact absurd hcur' hc

theorem used_set (var value : Nat) : Used task throws cur [.set var value] m (m.set task throws cur var value) where
  steps := rfl
  next := Nat.le_refl _
  vars c _ hne := Function.update_of_ne hne _ _
  start _ _ := rfl
  started _ _ := Or.inl
  tokens i token' hi := by
    simp only [Mem.set, List.getElem?_append] at hi
    split at hi
    · exact Or.inl ⟨token', hi, .refl token'⟩
    · rw [List.getElem?_singleton] at hi
      split at hi
      · obtain rfl := Option.some.inj hi
        exact Or.inr ⟨rfl, rfl, rfl⟩
      · cases hi
  later i token hi := by
    refine ⟨token, ?_, .refl token⟩
    simp only [Mem.set]
    rw [List.getElem?_append_left (List.getElem?_eq_some_iff.mp hi).1, hi]
  refusals _ := Or.inl

theorem used_reset {t : Nat} {token : Token} (ht : m.tokens[t]? = some token) :
    Used task throws cur [.reset t] m (m.reset task cur t token) := by
  unfold Mem.reset
  split
  · exact .refl m
  · rename_i hu
    split
    · rename_i hc
      refine ⟨rfl, Nat.le_refl _, fun _ _ _ => rfl, fun _ _ => rfl, fun _ _ => Or.inl, fun _ token' h => Or.inl ⟨token', h, .refl token'⟩,
        fun _ token' h => ⟨token', h, .refl token'⟩, fun r hr => ?_⟩
      rcases List.mem_append.mp hr with hr | hr
      · exact Or.inl hr
      · obtain rfl := List.mem_singleton.mp hr
        exact Or.inr ⟨rfl, List.mem_singleton_self _, token, ht, Bool.eq_false_iff.mpr hu, hc⟩
    · -- the token that is used
      refine ⟨rfl, Nat.le_refl _, fun c _ hne => Function.update_of_ne hne _ _, fun _ _ => rfl, fun _ _ => Or.inl, fun i token' hi => ?_,
        fun i token' hi => ?_, fun _ => Or.inl⟩
      · simp only [List.getElem?_set] at hi
        split at hi
        · rename_i hti
          subst hti
          split at hi
          · obtain rfl := Option.some.inj hi
            exact Or.inl ⟨token, ht, rfl, rfl, rfl, fun h => by cases h⟩
          · cases hi
        · exact Or.inl ⟨token', hi, .refl token'⟩
      · by_cases hti : t = i
        · subst hti
          obtain rfl := Option.some.inj (ht.symm.trans hi)
          refine ⟨{ token with used := true }, ?_, rfl, rfl, rfl, fun h => by cases h⟩
          exact List.getElem?_set_self (List.getElem?_eq_some_iff.mp ht).1
        · exact ⟨token', (List.getElem?_set_ne hti).trans hi, .refl token'⟩

theorem used_spawn {fl : Flavour} {v : Vars} (hs : m.spawn fl v = some (m', new)) : Used task throws cur [.spawn fl] m m' := by
  obtain ⟨y, -, -, -, rfl⟩ := spawn_eq hs
  refine ⟨rfl, Nat.le_succ _, fun c hc _ => Function.update_of_ne (Nat.ne_of_lt hc) _ _,
    fun t ht => Function.update_of_ne (Nat.ne_of_lt ht) _ _, fun t v' ht => ?_,
    fun _ token' h => Or.inl ⟨token', h, .refl token'⟩, fun _ token' h => ⟨token', h, .refl token'⟩, fun _ => Or.inl⟩
  by_cases hne : t = m.next
  · subst hne
    simp only [Function.update_self, Option.some.injEq] at ht
    exact Or.inr ⟨Nat.le_refl _, Nat.lt_succ_self _, by rw [← ht]; exact Function.update_self _ _ _⟩
  · exact Or.inl ((Function.update_of_ne hne _ _).symm.trans ht)

theorem used_of_uses (hu : m.uses task throws cur us = some (m', new)) (hcur : cur < m.next) : Used task throws cur us m m' := by
  induction us generalizing m new with
  | nil =>
    obtain ⟨rfl, -⟩ := Prod.mk.inj (Option.some.inj hu)
    exact .refl m
  | cons u us ih =>
    simp only [Mem.uses] at hu
    split at hu
    · rename_i m₁ new₁ hu₁
      obtain ⟨⟨m₂, new₂⟩, hu₂, heq⟩ := Option.map_eq_some_iff.mp hu
      obtain ⟨rfl, -⟩ := Prod.mk.inj heq
      have h₁ : Used task throws cur [u] m m₁ := by
        cases u with
        | set var value =>
          obtain ⟨rfl, -⟩ := Prod.mk.inj (Option.some.inj hu₁)
          exact used_set var value
        | reset t =>
          obtain ⟨token, ht, heq⟩ := Option.map_eq_some_iff.mp hu₁
          obtain ⟨rfl, -⟩ := Prod.mk.inj heq
          exact used_reset ht
        | spawn fl => exact used_spawn hu₁
      exact h₁.trans (ih hu₂ (Nat.lt_of_lt_of_le hcur h₁.next)) hcur
    · cases hu

/-- A thrower enters a copy that nobody knows. -/
theorem Used.of_newContext {v : Vars} (h : Used task throws m.next us (m.newContext v) m') : Used task throws m.next us m m' where
  steps := h.steps
  next := Nat.le_of_succ_le h.next
  vars c hc hne := (h.vars c (Nat.lt_succ_of_lt hc) hne).trans (Function.update_of_ne hne _ _)
  start t ht := h.start t (Nat.lt_succ_of_lt ht)
  started t v hv := by
    rcases h.started t v hv with hv | ⟨hle, hlt⟩
    · exact Or.inl hv
    · exact Or.inr ⟨Nat.le_of_succ_le hle, hlt⟩
  tokens := h.tokens
  later := h.later
  refusals := h.refusals

/-! ## One context a task -/

theorem left_concat (v : Vars) (steps : List Step) (step : Step) : left v (steps ++ [step]) = step.after := by
  induction steps generalizing v with
  | nil => rfl
  | cons _ steps ih => exact ih _

theorem oneContext_concat {v : Vars} {steps : List Step} {step : Step} :
    OneContext v (steps ++ [step]) ↔ OneContext v steps ∧ step.before = left v steps := by
  induction steps generalizing v with
  | nil => simp [OneContext, left]
  | cons s steps ih =>
    simp only [List.cons_append, OneContext, left, ih]
    tauto

/-- The context of a task has the values its last step left; a token that a task made is of its context, unless an exception was thrown into
it; no task was refused a token of its own. -/
structure Kept (m : Mem) : Prop where
  start : ∀ t v, m.start t = some v → t < m.next ∧ OneContext v (m.stepsOf t) ∧ m.vars t = left v (m.stepsOf t)
  steps : ∀ step ∈ m.steps, ∃ v, m.start step.task = some v
  tokens : ∀ (i : Nat) (token : Token), m.tokens[i]? = some token → token.ctx < m.next ∧ (token.ctx = token.task ↔ token.thrown = false)
  refusals : ∀ r ∈ m.refusals, ∃ token, m.tokens[r.2]? = some token ∧ token.task ≠ r.1

theorem Kept.stepsOf_fresh (h : Kept m) {t : Nat} (ht : m.next ≤ t) : m.stepsOf t = [] := by
  refine List.filter_eq_nil_iff.mpr (fun step hstep => ?_)
  obtain ⟨v, hv⟩ := h.steps step hstep
  have := (h.start _ v hv).1
  simp only [decide_eq_true_eq]
  omega

/-- The steps of a task after one more step, its own or another's. -/
theorem stepsOf_concat (hs : m'.steps = m.steps) (step : Step) (t : Nat) :
    Mem.stepsOf { m' with steps := m'.steps ++ [step] } t = if step.task = t then m.stepsOf t ++ [step] else m.stepsOf t := by
  simp only [Mem.stepsOf, hs, List.filter_append, List.filter_singleton]
  by_cases h : step.task = t <;> simp [h]

/-- A resumption of the task `t` in the context `cur`, its own or a copy: the values it leaves are those of the context of the task. -/
theorem Kept.step {t : Nat} {v : Vars} (h : Kept m) (hu : Used t throws cur us m m') (ht : m.start t = some v) (hcur : cur = t ∨ cur = m.next)
    (hsend : cur = t ↔ throws = false) (hlt : cur < m'.next) (hleft : m'.vars t = m'.vars cur)
    (hown : ∀ (i : Nat) (token : Token), .reset i ∈ us → m.tokens[i]? = some token → token.task = t → token.used = false →
      throws = false ∧ token.thrown = false) :
    Kept { m' with steps := m'.steps ++ [⟨t, throws, m.vars t, m'.vars cur⟩] } where
  start := by
    intro t' v' ht'
    rcases hu.started t' v' ht' with ht' | ⟨hle, hlt, hvars⟩
    · obtain ⟨hlt, hone, hval⟩ := h.start t' v' ht'
      refine ⟨Nat.lt_of_lt_of_le hlt hu.next, ?_⟩
      rw [stepsOf_concat hu.steps]
      by_cases heq : t = t'
      · subst heq
        rw [if_pos rfl, oneContext_concat, left_concat]
        exact ⟨⟨hone, hval⟩, hleft⟩
      · have hsame : m'.vars t' = m.vars t' := hu.vars t' hlt (by rcases hcur with rfl | rfl <;> omega)
        rw [if_neg heq]
        exact ⟨hone, hsame.trans hval⟩
    · -- a task that was spawned meanwhile
      have htlt := (h.start t v ht).1
      have hne : t ≠ t' := by omega
      rw [stepsOf_concat hu.steps, if_neg hne, h.stepsOf_fresh hle]
      exact ⟨hlt, trivial, hvars⟩
  steps := by
    intro step hstep
    have hkeep : ∀ t v, m.start t = some v → m'.start t = some v := fun t v ht => (hu.start t (h.start t v ht).1).trans ht
    rcases List.mem_append.mp hstep with hstep | hstep
    · rw [hu.steps] at hstep
      obtain ⟨v', hv'⟩ := h.steps step hstep
      exact ⟨v', hkeep _ v' hv'⟩
    · rw [List.mem_singleton.mp hstep]
      exact ⟨v, hkeep t v ht⟩
  tokens := by
    intro i token' hi
    rcases hu.tokens i token' hi with ⟨token, hi, hl⟩ | ⟨h1, h2, h3⟩
    · obtain ⟨hctx, hiff⟩ := h.tokens i token hi
      rw [hl.1, hl.2.1, hl.2.2.1]
      exact ⟨Nat.lt_of_lt_of_le hctx hu.next, hiff⟩
    · rw [h1, h2, h3]
      exact ⟨hlt, hsend⟩
  refusals := by
    intro r hr
    have hkeep : ∀ token, m.tokens[r.2]? = some token → token.task ≠ r.1 → ∃ token', m'.tokens[r.2]? = some token' ∧ token'.task ≠ r.1 := by
      intro token hi hne
      obtain ⟨token', hi', hl⟩ := hu.later r.2 token hi
      exact ⟨token', hi', by rw [hl.2.1]; exact hne⟩
    rcases hu.refusals r hr with hr | ⟨h1, h2, token, hi, hunused, hctx⟩
    · obtain ⟨token, hi, hne⟩ := h.refusals r hr
      exact hkeep token hi hne
    · refine hkeep token hi (fun heq => ?_)
      -- a token of its own, made in the context of the task, as the current one is
      obtain ⟨hthrows, hthrown⟩ := hown r.2 token h2 hi (heq.trans h1) hunused
      apply hctx
      rw [(h.tokens r.2 token hi).2.mpr hthrown, heq, h1, hsend.mpr hthrows]

/-- A spawn from outside of the tasks. -/
theorem Kept.spawn {fl : Flavour} {v : Vars} (h : Kept m) (hs : m.spawn fl v = some (m', new)) : Kept m' := by
  have hu : Used 0 false m.next [.spawn fl] m m' := used_spawn hs
  obtain ⟨y, -, -, -, heq⟩ := spawn_eq hs
  have htokens : m'.tokens = m.tokens := by rw [heq]; rfl
  have hrefusals : m'.refusals = m.refusals := by rw [heq]; rfl
  refine ⟨fun t v' ht => ?_, fun step hstep => ?_, fun i token hi => ?_, fun r hr => ?_⟩
  · have hsteps : m'.stepsOf t = m.stepsOf t := by rw [Mem.stepsOf, hu.steps]; rfl
    rw [hsteps]
    rcases hu.started t v' ht with ht | ⟨hle, hlt, hvars⟩
    · obtain ⟨hlt, hone, hval⟩ := h.start t v' ht
      exact ⟨Nat.lt_of_lt_of_le hlt hu.next, hone, (hu.vars t hlt (Nat.ne_of_lt hlt)).trans hval⟩
    · rw [h.stepsOf_fresh hle]
      exact ⟨hlt, trivial, hvars⟩
  · rw [hu.steps] at hstep
    obtain ⟨v', hv'⟩ := h.steps step hstep
    exact ⟨v', (hu.start _ (h.start _ v' hv').1).trans hv'⟩
  · rw [htokens] at hi
    obtain ⟨hctx, hiff⟩ := h.tokens i token hi
    exact ⟨Nat.lt_of_lt_of_le hctx hu.next, hiff⟩
  · rw [hrefusals] at hr
    rw [htokens]
    exact h.refusals r hr

/-- The resumptions that keep to one context. -/
theorem Kept.resume {coro : Nat} {v : Vars} (h : Kept m) (ht : m.start (m.task coro) = some v)
    (hr : m.resume coro (m.task coro) throws us = some (m', new))
    (hleft : throws = true → ∀ r ∈ (m.newContext (m.vars (m.task coro))).uses (m.task coro) true m.next us, ∀ x,
      r.1.vars m.next x = m.vars (m.task coro) x)
    (hown : ∀ (i : Nat) (token : Token), .reset i ∈ us → m.tokens[i]? = some token → token.task = m.task coro → token.used = false →
      throws = false ∧ token.thrown = false) : Kept m' := by
  obtain ⟨⟨m₁, new₁⟩, hu, heq⟩ := Option.map_eq_some_iff.mp hr
  obtain ⟨rfl, -⟩ := Prod.mk.inj heq
  have hlt := (h.start _ v ht).1
  cases throws with
  | false =>
    have hused : Used (m.task coro) false (m.task coro) us m m₁ := used_of_uses hu hlt
    exact h.step hused ht (Or.inl rfl) ⟨fun _ => rfl, fun _ => rfl⟩ (Nat.lt_of_lt_of_le hlt hused.next) rfl hown
  | true =>
    have hu : (m.newContext (m.vars (m.task coro))).uses (m.task coro) true m.next us = some (m₁, new₁) := hu
    have hcopy : Used (m.task coro) true m.next us (m.newContext (m.vars (m.task coro))) m₁ := used_of_uses hu (Nat.lt_succ_self _)
    have hused := hcopy.of_newContext
    have hbefore : (m.newContext (m.vars (m.task coro))).vars m.next = m.vars (m.task coro) := Function.update_self _ _ _
    have hsame : m₁.vars m.next = m.vars (m.task coro) := funext (hleft rfl _ hu)
    have hstep := h.step hused ht (Or.inr rfl) ⟨fun h => by omega, fun h => by cases h⟩ (Nat.lt_of_succ_le hcopy.next)
      ((hused.vars _ hlt (Nat.ne_of_lt hlt)).trans hsame.symm) hown
    rw [← hbefore] at hstep
    exact hstep

/-- The coroutine of a handle that runs, its context, and the start of its task. -/
theorem Carried.start_of_run {h : Handle} {coro ctx : Nat} (hc : Carried m (A ++ .run h :: B))
    (hres : resumes h = some (coro, some ctx, throws)) : ctx = m.task coro ∧ ∃ v, m.start (m.task coro) = some v := by
  obtain ⟨hlt, hctx⟩ := hc.ops (.run h) (by simp) coro (some ctx) (carries_of_resumes hres)
  exact ⟨Option.some.inj hctx, Option.isSome_iff_exists.mp (hc.started coro hlt)⟩

theorem Kept.exec {c : Choice} (h : Kept m) (hc : Carried m (A ++ op :: B)) (hok : ¬Loses m (.exec op c))
    (he : exec ws m op c = some (m', new)) : Kept m' := by
  rcases exec_cases he with ⟨r, rfl, hr, rfl⟩ | ⟨y, o, us, coro, ctx, throws, m₁, spawned, r, new', rfl, rfl, hres, hm₁, hr, rfl, rfl⟩
  · exact ⟨h.start, h.steps, h.tokens, h.refusals⟩
  · obtain ⟨rfl, v, hv⟩ := hc.start_of_run hres
    simp only [Loses, hres, not_or, not_and, not_exists] at hok
    have hkept : Kept m₁ := by
      refine h.resume hv hm₁ (fun hthrows r hr x => Classical.not_not.mp (hok.1 hthrows r hr x)) (fun i token hi htoken htask hused => ?_)
      have hno := hok.2 (.reset i) hi i token rfl htoken htask hused
      exact ⟨Bool.eq_false_iff.mpr hno.1, Bool.eq_false_iff.mpr hno.2⟩
    cases o <;> exact ⟨hkept.start, hkept.steps, hkept.tokens, hkept.refusals⟩

theorem Kept.call {l : Call} (h : Kept m) (hc : call m l = some (m', new)) : Kept m' := by
  rcases call_cases hc with ⟨fl, v, hs⟩ | ⟨l', r, -, -, rfl⟩
  · exact h.spawn hs
  · exact ⟨h.start, h.steps, h.tokens, h.refusals⟩

theorem kept_initial : Kept initial.mem :=
  ⟨fun _ _ ht => (by cases ht), fun _ hx => absurd hx List.not_mem_nil, fun _ _ hi => (by cases hi), fun _ hx => absurd hx List.not_mem_nil⟩

theorem carried_of_reach {ok : Mem → List Op → Act Op Choice Call → Prop} {s : State Mem Op} (h : (machine ws).Reach ok initial s) :
    Carried s.mem s.ops :=
  h.invariant carried_initial (fun _ _ _ _ _ _ _ hI _ he => hI.exec he) (fun _ _ _ _ _ hI _ hc => hI.call hc)

theorem kept_of_reach {s : State Mem Op} (h : (machine ws).Reach (fun m _ a => ¬Loses m a) initial s) : Kept s.mem :=
  h.invariant_with (I := fun m _ => Kept m) (J := Carried) carried_of_reach kept_initial
    (fun _ _ _ _ _ _ _ hJ hI hok he => hI.exec hJ hok he) (fun _ _ _ _ _ _ hI _ hc => hI.call hc)

/-! ## What is lost -/

/-- A token of another context stays as it is, and the resumption that resets it is refused. -/
theorem refused_of_uses {i : Nat} {token : Token} (hu : m.uses task throws cur us = some (m', new)) (hi : m.tokens[i]? = some token)
    (hunused : token.used = false) (hctx : token.ctx ≠ cur) :
    m'.tokens[i]? = some token ∧ (∀ r ∈ m.refusals, r ∈ m'.refusals) ∧ (.reset i ∈ us → (task, i) ∈ m'.refusals) := by
  induction us generalizing m new with
  | nil =>
    obtain ⟨rfl, -⟩ := Prod.mk.inj (Option.some.inj hu)
    exact ⟨hi, fun _ => id, fun h => absurd h List.not_mem_nil⟩
  | cons u us ih =>
    simp only [Mem.uses] at hu
    split at hu
    · rename_i m₁ new₁ hu₁
      obtain ⟨⟨m₂, new₂⟩, hu₂, heq⟩ := Option.map_eq_some_iff.mp hu
      obtain ⟨rfl, -⟩ := Prod.mk.inj heq
      have h₁ : m₁.tokens[i]? = some token ∧ (∀ r ∈ m.refusals, r ∈ m₁.refusals) ∧ (.reset i = u → (task, i) ∈ m₁.refusals) := by
        cases u with
        | set var value =>
          obtain ⟨rfl, -⟩ := Prod.mk.inj (Option.some.inj hu₁)
          refine ⟨?_, fun _ => id, fun h => by cases h⟩
          simp only [Mem.set]
          rw [List.getElem?_append_left (List.getElem?_eq_some_iff.mp hi).1, hi]
        | reset t =>
          obtain ⟨token', ht, heq⟩ := Option.map_eq_some_iff.mp hu₁
          obtain ⟨rfl, -⟩ := Prod.mk.inj heq
          by_cases hti : t = i
          · subst hti
            obtain rfl := Option.some.inj (ht.symm.trans hi)
            have hreset : m.reset task cur t token' = { m with refusals := m.refusals ++ [(task, t)] } := by
              simp [Mem.reset, hunused, hctx]
            rw [hreset]
            exact ⟨hi, fun r hr => List.mem_append_left _ hr, fun _ => List.mem_append_right _ (List.mem_singleton_self _)⟩
          · refine ⟨?_, ?_, fun h => absurd (by simpa using h.symm) hti⟩
            · unfold Mem.reset
              split
              · exact hi
              · split
                · exact hi
                · exact (List.getElem?_set_ne hti).trans hi
            · unfold Mem.reset
              intro r hr
              split
              · exact hr
              · split
                · exact List.mem_append_left _ hr
                · exact hr
        | spawn fl =>
          obtain ⟨y, -, -, -, rfl⟩ := spawn_eq hu₁
          exact ⟨hi, fun _ => id, fun h => by cases h⟩
      obtain ⟨h2, h3, h4⟩ := ih hu₂ h₁.1
      refine ⟨h2, fun r hr => h3 r (h₁.2.1 r hr), fun hmem => ?_⟩
      rcases List.mem_cons.mp hmem with hmem | hmem
      · exact h3 _ (h₁.2.2 hmem)
      · exact h4 hmem
    · cases hu

/-- The context of a task does not have the values that its last step left, or it was refused a token of its own. -/
def Mem.Lost (m : Mem) : Prop :=
  (∃ t v, m.start t = some v ∧ m.vars t ≠ left v (m.stepsOf t)) ∨
  ∃ r ∈ m.refusals, ∃ token, m.tokens[r.2]? = some token ∧ token.task = r.1

/-- A resumption that does not keep to one context loses something. -/
theorem lost_of_loses {c : Choice} (h : Kept m) (hc : Carried m (A ++ op :: B)) (hl : Loses m (.exec op c))
    (he : exec ws m op c = some (m', new)) : m'.Lost := by
  rcases exec_cases he with ⟨r, rfl, hr, rfl⟩ | ⟨y, o, us, coro, ctx, throws, m₁, spawned, r, new', rfl, rfl, hres, hm₁, hr, rfl, rfl⟩
  · cases op <;> cases hl
  · obtain ⟨rfl, v, hv⟩ := hc.start_of_run hres
    have hlt := (h.start _ v hv).1
    simp only [Loses, hres] at hl
    have hlost : m₁.Lost := by
      obtain ⟨⟨m₂, new₂⟩, hu, heq⟩ := Option.map_eq_some_iff.mp hm₁
      obtain ⟨rfl, -⟩ := Prod.mk.inj heq
      rcases hl with ⟨rfl, r', hr', x, hx⟩ | ⟨u, hmem, i, token, rfl, hi, htask, hunused, hthrown⟩
      · -- the exception changes the copy, and the context of the task stays as it was
        obtain rfl : r' = (m₂, new₂) := Option.some.inj (hr'.symm.trans hu)
        have hcopy : Used (m.task coro) true m.next us (m.newContext (m.vars (m.task coro))) m₂ := used_of_uses hu (Nat.lt_succ_self _)
        have hused := hcopy.of_newContext
        have hleft : ∀ before, left v (Mem.stepsOf { m₂ with steps := m₂.steps ++ [⟨m.task coro, true, before, m₂.vars m.next⟩] }
            (m.task coro)) = m₂.vars m.next := by
          intro before
          rw [stepsOf_concat hused.steps, if_pos rfl, left_concat]
        refine Or.inl ⟨m.task coro, v, (hused.start _ hlt).trans hv, fun heq => hx ?_⟩
        rw [← hused.vars _ hlt (Nat.ne_of_lt hlt)]
        exact congrFun (heq.trans (hleft _)).symm x
      · obtain ⟨hctx, hiff⟩ := h.tokens i token hi
        have hmem : (m.task coro, i) ∈ m₂.refusals ∧ m₂.tokens[i]? = some token := by
          cases throws with
          | false =>
            have hne : token.ctx ≠ m.task coro := fun heq => by
              rw [hiff.mp (heq.trans htask.symm)] at hthrown
              simp at hthrown
            obtain ⟨h1, -, h2⟩ := refused_of_uses hu hi hunused hne
            exact ⟨h2 hmem, h1⟩
          | true =>
            obtain ⟨h1, -, h2⟩ := refused_of_uses hu hi hunused (Nat.ne_of_lt hctx)
            exact ⟨h2 hmem, h1⟩
        exact Or.inr ⟨(m.task coro, i), hmem.1, token, hmem.2, htask⟩
    cases o <;> exact hlost

/-! ## Two checks on the steps of a run -/

/-- Each step sees the value of a variable that the previous one left, and the first one the value `o`. -/
def seesLeft (x : Nat) (o : Option Nat) : List Step → Bool
  | [] => true
  | step :: steps => decide (step.before x = o) && seesLeft x (step.after x) steps

theorem OneContext.seesLeft {v : Vars} {steps : List Step} (h : OneContext v steps) (x : Nat) : seesLeft x (v x) steps = true := by
  induction steps generalizing v with
  | nil => rfl
  | cons step steps ih =>
    obtain ⟨hbefore, hrest⟩ := h
    simp only [Context.seesLeft, hbefore, decide_true, Bool.true_and]
    exact ih hrest

/-- A coroutine does nothing when an exception is thrown into it, and resets no token it made when one was. -/
def quiet (m : Mem) : Act Op Choice Call → Bool
  | .exec (.run h) (.out _ us) =>
    match resumes h with
    | some (_, _, true) => us.isEmpty
    | _ => us.all (fun u => m.tokens.zipIdx.all (fun ti => !ti.1.thrown || decide (u ≠ .reset ti.2)))
  | _ => true

theorem not_loses_of_quiet {a : Act Op Choice Call} (hq : quiet m a = true) : ¬Loses m a := by
  unfold Loses
  split
  · rename_i h o us
    split
    · rename_i coro ctx throws hres
      simp only [quiet, hres] at hq
      cases throws with
      | true =>
        obtain rfl : us = [] := by simpa using hq
        rintro (⟨-, r, hr, x, hx⟩ | ⟨u, hu, -⟩)
        · obtain rfl := Option.some.inj hr
          apply hx
          show Function.update m.vars m.next (m.vars ctx) m.next x = m.vars ctx x
          rw [Function.update_self]
        · cases hu
      | false =>
        rintro (⟨hfalse, -⟩ | ⟨u, hu, t, token, rfl, ht, -, -, hthrown⟩)
        · cases hfalse
        · have hmem : (token, t) ∈ m.tokens.zipIdx := List.mem_zipIdx_iff_getElem?.mpr ht
          have hall := List.all_eq_true.mp (List.all_eq_true.mp hq _ hu) _ hmem
          rcases hthrown with hfalse | hthrown
          · cases hfalse
          · simp [hthrown] at hall
    · exact id
  · exact id

end Tonio.Context
