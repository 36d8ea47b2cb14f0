import Tonio.Lemmas.Sentinel

/-!
# Continuations

A coroutine that has not finished is somewhere: a worker runs it or registers what it yielded, a handle that resumes it is queued, a
suspension of it has not been resolved, or has been and its handle is about to be queued. `Tok` is such a place. A token names the
coroutine and what it goes on with: the suspensions of its callers, or its checkpoint. The result of a child on its way to the caller,
and the end of a task on its way to its checkpoint, are tokens too.

`Turn` says what a step does to the tokens: which ones it takes and which ones it puts in their place. What holds of the tokens of every
state is then shown for these few replacements.
-/

namespace Tonio.Runtime

open Interleaving

/-! ## Tokens -/

/-- Where a coroutine goes on. -/
inductive Tok where
  /-- A generator that runs, or whose handle is queued or about to be. -/
  | gen (coro : Nat) (parents : List Frame)
  /-- A task that runs, or whose handle is queued or about to be. -/
  | async (coro : Nat) (checkpoint : Option Nat)
  /-- The suspension of a waiter, not resolved. -/
  | parked (S : Susp)
  /-- The suspension of a call, not resolved. -/
  | called (F : Susp)
  /-- A suspension that has been resolved and is about to be turned into a handle. -/
  | resolved (S : Susp)
  /-- What a child returned or raised, on its way to the suspension of the call. -/
  | result (F : Susp)
  /-- The end of a task, on its way to the checkpoint. -/
  | closing (w : Nat)

/-- The token of a suspension that has not been resolved. -/
def Susp.tok (S : Susp) : Tok := if S.waits then .parked S else .called S

/-- The token of a result for the nearest parent. -/
def resultToks : List Frame → List Tok
  | p :: rest => [.result ⟨p, rest⟩]
  | [] => []

def Handle.toks : Handle → List Tok
  | .gen parents coro _ _ => [.gen coro parents]
  | .async checkpoint coro _ _ => [.async coro checkpoint]
  | .asyncThrow coro _ _ => [.async coro none]
  | .timer _ | .event _ => []

def Op.toks : Op → List Tok
  | .run h | .addHandle h | .enter _ _ h => h.toks
  | .registerPygen _ coro _ parents => [.gen coro parents]
  | .registerPyasyncgen _ coro _ checkpoint => [.async coro checkpoint]
  | .suspend .gen coro _ _ parents _ _ => [.gen coro parents]
  | .suspend .async coro _ checkpoint _ _ _ => [.async coro checkpoint]
  | .storeRes S _ _ true | .fetchRes S | .toHandle S _ => [.resolved S]
  | .resume S _ _ | .resumeBody S _ _ | .error false S _ => if S.waits then [] else [.result S]
  | .clearPtr w => [.closing w]
  | _ => []

/-- The weight of the tokens in the memory. -/
def Mem.weigh (g : Tok → Nat) (m : Mem) : Nat := total (fun h => total g h.toks) m.handles + total (fun S => g S.tok) m.live

/-- The weight of all the tokens of a state. -/
def weigh (g : Tok → Nat) (m : Mem) (ops : List Op) : Nat := total (fun op => total g op.toks) ops + m.weigh g

/-- What a token refers to. -/
def Tok.WF (m : Mem) : Tok → Prop
  | .gen _ parents => m.Calls parents
  | .async _ checkpoint => m.Checks checkpoint
  | .parked S | .called S | .resolved S => m.Knows S
  | .result F => m.Knows F ∧ F.waits = false ∧ F.flavour = .gen
  | .closing w => m.registered w = true

section

variable {m : Mem} {ops : List Op}

theorem Handle.WF.toks {y : Handle} (hy : y.WF m) : ∀ t ∈ y.toks, t.WF m := by
  cases y with
  | gen parents coro ctx input => simpa [Handle.toks, Tok.WF, Handle.WF] using hy
  | async checkpoint coro ctx v => simpa [Handle.toks, Tok.WF, Handle.WF] using hy
  | asyncThrow coro ctx e => simp [Handle.toks, Tok.WF, Mem.Checks]
  | timer S | event e => simp [Handle.toks]

theorem Op.WF.toks {op : Op} (hk : Known m ops) (ho : op.WF m) : ∀ t ∈ op.toks, t.WF m := by
  have hresult : ∀ S, m.Knows S → ∀ t ∈ (if S.waits then [] else [Tok.result S]), t.WF m := by
    intro S hS
    cases hw : S.waits with
    | true => simp
    | false => simpa [Tok.WF, hw] using ⟨hS, ((hk.made _ _ hS).2.call hw).2⟩
  cases op with
  | run y | addHandle y => exact Handle.WF.toks ho
  | enter w P y => exact ho.2.2.2.2.2.1.toks
  | registerPygen w coro ctx parents => simpa [Op.toks, Tok.WF, Op.WF] using ho
  | registerPyasyncgen w coro ctx checkpoint => simpa [Op.toks, Tok.WF, Op.WF] using ho
  | suspend fl coro ctx checkpoint parents events timed =>
    cases fl
    · simpa [Op.toks, Tok.WF] using ho.1
    · simpa [Op.toks, Tok.WF] using ho.2.1
  | storeRes S i v last =>
    cases last
    · simp [Op.toks]
    · simpa [Op.toks, Tok.WF] using ho.1
  | fetchRes S => simpa [Op.toks, Tok.WF] using ho.1
  | toHandle S input => simpa [Op.toks, Tok.WF, Op.WF] using ho
  | resume S v i | resumeBody S v i => exact hresult S ho.1
  | error b S e =>
    cases b
    · exact hresult S ho.1
    · simp [Op.toks]
  | clearPtr w => simpa [Op.toks, Tok.WF, Op.WF] using ho
  | _ => simp [Op.toks]

theorem Mem.Knows.tok {S : Susp} (hS : m.Knows S) : S.tok.WF m := by
  cases hw : S.waits <;> simpa [Susp.tok, hw, Tok.WF] using hS

/-- A weight that no token of what has been made has. -/
theorem Known.weigh_eq_zero (hk : Known m ops) {g : Tok → Nat} (hg : ∀ t, t.WF m → g t = 0) : weigh g m ops = 0 := by
  have h1 : total (fun op => total g op.toks) ops = 0 :=
    total_eq_zero_iff.mpr (fun op hop => total_eq_zero_iff.mpr (fun t ht => hg t ((hk.ops op hop).toks hk t ht)))
  have h2 : total (fun h => total g h.toks) m.handles = 0 :=
    total_eq_zero_iff.mpr (fun y hy => total_eq_zero_iff.mpr (fun t ht => hg t ((hk.handles y hy).toks t ht)))
  have h3 : total (fun S => g S.tok) m.live = 0 := total_eq_zero_iff.mpr (fun S hS => hg _ (hk.live S hS).tok)
  rw [weigh, Mem.weigh, h1, h2, h3]

/-- A weight that is not zero is that of a token. -/
theorem exists_of_weigh {g : Tok → Nat} (h : 0 < weigh g m ops) :
    (∃ op ∈ ops, ∃ t ∈ op.toks, 0 < g t) ∨ (∃ y ∈ m.handles, ∃ t ∈ y.toks, 0 < g t) ∨ ∃ S ∈ m.live, 0 < g S.tok := by
  unfold weigh Mem.weigh at h
  by_cases h1 : 0 < total (fun op => total g op.toks) ops
  · obtain ⟨op, hop, hpos⟩ := total_pos_iff.mp h1
    exact Or.inl ⟨op, hop, total_pos_iff.mp hpos⟩
  · by_cases h2 : 0 < total (fun h => total g h.toks) m.handles
    · obtain ⟨y, hy, hpos⟩ := total_pos_iff.mp h2
      exact Or.inr (Or.inl ⟨y, hy, total_pos_iff.mp hpos⟩)
    · exact Or.inr (Or.inr (total_pos_iff.mp (by omega)))

/-- The token of an operation and that of a suspension that has not been resolved are two. -/
theorem weigh_ge_of_mem {g : Tok → Nat} {op : Op} {S : Susp} (hop : op ∈ ops) (hS : S ∈ m.live) :
    total g op.toks + g S.tok ≤ weigh g m ops := by
  have h1 := le_total_of_mem (f := fun op => total g op.toks) hop
  have h2 := le_total_of_mem (f := fun S : Susp => g S.tok) hS
  unfold weigh Mem.weigh
  omega

end

/-! ## What a step does to them -/

/-- The tasks are the same. -/
def Mem.SameTasks (m m' : Mem) : Prop := m'.finished = m.finished ∧ m'.nextCoro = m.nextCoro

/-- The tokens a step takes, and those it puts in their place. -/
inductive Turn (m : Mem) (op : Op) (c : Choice) (m' : Mem) : List Tok → List Tok → Prop where
  | keep (hl : m'.live = m.live) (ht : m.SameTasks m') : Turn m op c m' [] []
  | call (coro : Nat) (ctx : Option Nat) (parents : List Frame) (F : Susp) (hF : F = callSusp m coro ctx parents)
      (hl : m'.live = m.live ++ [F]) (hf : m'.finished = m.finished) (hn : m'.nextCoro = m.nextCoro + 1) :
      Turn m op c m' [.gen coro parents] [.called F, .gen m.nextCoro (F.toFrame :: parents)]
  | ended (coro : Nat) (parents : List Frame) (hl : m'.live = m.live) (hf : m'.finished = Function.update m.finished coro true)
      (hn : m'.nextCoro = m.nextCoro) : Turn m op c m' [.gen coro parents] (resultToks parents)
  | asyncOver (coro : Nat) (checkpoint : Option Nat) (hl : m'.live = m.live)
      (hf : m'.finished = Function.update m.finished coro true) (hn : m'.nextCoro = m.nextCoro) :
      Turn m op c m' [.async coro checkpoint] (checkpoint.map Tok.closing).toList
  | drop (coro : Nat) (ctx : Option Nat) (e : Exc) (o : Out) (hop : op = .run (.asyncThrow coro ctx e)) (hc : c = .out o)
      (ho : (∀ r, o ≠ .ret r) ∧ ∀ e, o ≠ .raise e) (hl : m'.live = m.live) (ht : m.SameTasks m') :
      Turn m op c m' [.async coro none] []
  | fire (S : Susp) (hS : S ∈ m.live) (hw : S.waits = true ∨ (S.checkpoint.isSome = true ∧ ∃ e, op = .error true S e))
      (hl : m'.live = m.live.filter (·.cell ≠ S.cell)) (ht : m.SameTasks m') : Turn m op c m' [S.tok] [.resolved S]
  | misfire (S : Susp) (hk : m.Knows S) (hS : S ∉ m.live) (hs : S.sentinel = true)
      (hc : m.counter S.cell = 1 ∨ (m.counter S.cell ≠ 0 ∧ ∃ e, op = .error true S e))
      (hl : m'.live = m.live.filter (·.cell ≠ S.cell)) (ht : m.SameTasks m') : Turn m op c m' [] [.resolved S]
  | deliver (F : Susp) (hF : F ∈ m.live) (hw : F.waits = false) (hl : m'.live = m.live.filter (·.cell ≠ F.cell))
      (ht : m.SameTasks m') : Turn m op c m' [.result F, .called F] [.resolved F]
  | misdeliver (F : Susp) (hk : m.Knows F) (hF : F ∉ m.live) (hw : F.waits = false) (hp : F.checkpoint = none)
      (hl : m'.live = m.live.filter (·.cell ≠ F.cell)) (ht : m.SameTasks m') : Turn m op c m' [.result F] [.resolved F]
  | ignore (F : Susp) (hk : m.Knows F) (hw : F.waits = false) (hc : m.consumed F.cell = true) (hl : m'.live = m.live)
      (ht : m.SameTasks m') : Turn m op c m' [.result F] []
  | copy (w coro : Nat) (ctx : Option Nat) (p : Frame) (rest : List Frame) (P S : Susp) (hk : m.Knows ⟨p, rest⟩)
      (hw : p.waits = false) (hp : p.checkpoint = none) (hr : m.registered w = false) (hP : P = ⟨checkpointFrame m p w, rest⟩)
      (hS : S = checkpointSusp (m.nextCell + 1) coro ctx none (P.toFrame :: rest))
      (hl : m'.live = m.live.filter (·.cell ≠ p.cell) ++ [P] ++ [S]) (ht : m.SameTasks m') :
      Turn m op c m' (.gen coro (p :: rest) :: if ⟨p, rest⟩ ∈ m.live then [.called ⟨p, rest⟩] else []) [.called P, .parked S]
  | park (coro : Nat) (parents : List Frame) (S : Susp) (hS : S.cell = m.nextCell ∧ S.waits = true ∧ S.isCheckpoint = false)
      (hfl : S.flavour = .gen ∧ S.coro = coro ∧ S.parents = parents) (hl : m'.live = m.live ++ [S]) (ht : m.SameTasks m') :
      Turn m op c m' [.gen coro parents] [.parked S]
  | parkAsync (coro : Nat) (checkpoint : Option Nat) (S : Susp)
      (hS : S.cell = m.nextCell ∧ S.waits = true ∧ S.isCheckpoint = false)
      (hfl : S.flavour = .async ∧ S.coro = coro ∧ S.parents = [] ∧ S.checkpoint = checkpoint) (hl : m'.live = m.live ++ [S])
      (ht : m.SameTasks m') : Turn m op c m' [.async coro checkpoint] [.parked S]
  | schedule (S : Susp) (input : Input) (hk : m.Knows S) (hl : m'.live = m.live) (ht : m.SameTasks m') :
      Turn m op c m' [.resolved S] (S.handle input).toks
  | replace (w coro : Nat) (checkpoint : Option Nat) (hr : m.registered w = false) (hl : m'.live = m.live) (ht : m.SameTasks m') :
      Turn m op c m' [.async coro checkpoint] [.async coro (some w)]
  | close (w : Nat) (hl : m'.live = m.live) (ht : m.SameTasks m') : Turn m op c m' [.closing w] []

section

variable {ws : Nat → Waiter} {m m' : Mem} {A B new ops : List Op} {op : Op} {c : Choice} {S : Susp}

/-- The weight of the tokens after a step, from what the step does with its own. -/
theorem weigh_step {g : Tok → Nat} {old fresh : List Tok}
    (h : total (fun op => total g op.toks) new + m'.weigh g + total g old = total g op.toks + m.weigh g + total g fresh) :
    weigh g m' (A ++ (new ++ B)) + total g old = weigh g m (A ++ op :: B) + total g fresh := by
  have hs := total_step (fun op => total g op.toks) A B new op
  unfold weigh
  omega

theorem Mem.weigh_same {g : Tok → Nat} (hh : m'.handles = m.handles) (hl : m'.live = m.live) : m'.weigh g = m.weigh g := by
  unfold Mem.weigh
  rw [hh, hl]

theorem Mem.weigh_add {g : Tok → Nat} (hh : m'.handles = m.handles) (hl : m'.live = m.live ++ [S]) :
    m'.weigh g = m.weigh g + g S.tok := by
  unfold Mem.weigh
  rw [hh, hl, total_append, total_cons, total_nil]
  omega

/-- Resolving a suspension takes its token. -/
theorem Mem.weigh_filter {g : Tok → Nat} (hn : (m.live.map (·.cell)).Nodup) (hS : S ∈ m.live) (hh : m'.handles = m.handles)
    (hl : m'.live = m.live.filter (·.cell ≠ S.cell)) : m'.weigh g + g S.tok = m.weigh g := by
  have h := total_filter_ne (fun T : Susp => T.cell) (fun T => g T.tok) hn hS
  unfold Mem.weigh
  rw [hh, hl]
  omega

theorem filter_cell_of_notMem (hk : Known m ops) (hS : m.Knows S) (hn : S ∉ m.live) : m.live.filter (·.cell ≠ S.cell) = m.live := by
  refine List.filter_eq_self.mpr (fun T hT => decide_eq_true ?_)
  intro heq
  exact hn ((hk.live T hT).unique hS heq ▸ hT)

theorem Wakes.toks {v : Val} {i : Nat} (hw : Wakes S v i op) : op.toks = if S.waits then [] else [.result S] := by
  rcases hw with rfl | ⟨rfl, -⟩ <;> rfl

theorem tok_of_waits (h : S.waits = true) : S.tok = .parked S := by simp [Susp.tok, h]

theorem tok_of_call (h : S.waits = false) : S.tok = .called S := by simp [Susp.tok, h]

/-- What `toks` gives of the operations of `register`. -/
theorem total_toks_registration (g : Tok → Nat) (S : Susp) (events : List Nat) (timed : Bool) :
    total (fun op => total g op.toks) (registration S events timed) = 0 :=
  total_registration (fun _ _ => rfl) rfl (fun _ => rfl)

/-- What a step takes and puts. -/
def Balanced (m : Mem) (op : Op) (m' : Mem) (new : List Op) (old fresh : List Tok) : Prop :=
  ∀ g : Tok → Nat, total (fun op => total g op.toks) new + m'.weigh g + total g old = total g op.toks + m.weigh g + total g fresh

/-- The tokens of a step that leaves them alone. -/
theorem Balanced.keep (hh : m'.handles = m.handles) (hl : m'.live = m.live)
    (ht : new.flatMap Op.toks = op.toks) : Balanced m op m' new [] [] := by
  intro g
  rw [Mem.weigh_same hh hl, ← ht, total_flatMap]

/-- The tokens of a step that touches none in the memory. -/
theorem Balanced.move {old fresh : List Tok} (hh : m'.handles = m.handles) (hl : m'.live = m.live) (hold : op.toks = old)
    (hfresh : new.flatMap Op.toks = fresh) : Balanced m op m' new old fresh := by
  intro g
  rw [Mem.weigh_same hh hl, hold, ← hfresh, total_flatMap]
  omega

/-- The tokens of a step that makes a suspension. -/
theorem Balanced.park {old : List Tok} (hh : m'.handles = m.handles) (hl : m'.live = m.live ++ [S]) (hold : op.toks = old)
    (hnew : ∀ g : Tok → Nat, total (fun op => total g op.toks) new = 0) : Balanced m op m' new old [S.tok] := by
  intro g
  rw [Mem.weigh_add hh hl, hold, hnew, total_cons, total_nil]
  omega

/-- The tokens of a step that resolves a suspension. -/
theorem Balanced.fire (op : Op) (hr : Resolved m) (hS : S ∈ m.live) (hh : m'.handles = m.handles)
    (hl : m'.live = m.live.filter (·.cell ≠ S.cell)) (hnew : new.flatMap Op.toks = [.resolved S]) :
    Balanced m op m' new (op.toks ++ [S.tok]) [.resolved S] := by
  intro g
  have := Mem.weigh_filter (g := g) hr.nodup hS hh hl
  rw [← total_flatMap, hnew, total_append, total_cons g S.tok, total_nil]
  omega

/-- A suspension without a sentinel is resolved once. -/
theorem turn_of_consume (hk : Known m ops) (hr : Resolved m) (hS : m.Knows S) (hs : S.sentinel = false)
    (hc : m.consumed S.cell = false) (hh : m'.handles = m.handles) (hl : m'.live = m.live.filter (·.cell ≠ S.cell))
    (ht : m.SameTasks m') (hop : op.toks = if S.waits then [] else [.result S]) (hnew : new.flatMap Op.toks = [.resolved S]) :
    ∃ old fresh, Turn m op c m' old fresh ∧ Balanced m op m' new old fresh := by
  have hfired : m.fired S.cell = 0 := by rw [hr.fired_eq _ S hS hs, hc]; rfl
  cases hw : S.waits with
  | true =>
    have hlive := hr.live _ S hS (Or.inl hw) hfired
    have hb := Balanced.fire op hr hlive hh hl hnew
    rw [hop, hw] at hb
    exact ⟨_, _, .fire S hlive (Or.inl hw) hl ht, hb⟩
  | false =>
    rw [hw] at hop
    by_cases hlive : S ∈ m.live
    · have hb := Balanced.fire op hr hlive hh hl hnew
      rw [hop, tok_of_call hw] at hb
      exact ⟨_, _, .deliver S hlive hw hl ht, hb⟩
    · have hp : S.checkpoint = none := by
        by_contra hp
        exact hlive (hr.live _ S hS (Or.inr (Option.isSome_iff_ne_none.mpr hp)) hfired)
      exact ⟨_, _, .misdeliver S hS hlive hw hp hl ht, .move hh (hl.trans (filter_cell_of_notMem hk hS hlive)) hop hnew⟩

theorem waits_of_sentinel (hk : Known m ops) (hS : m.Knows S) (hs : S.sentinel = true) : S.waits = true := by
  by_contra hw
  rw [hk.sentinel_of_call hS (Bool.eq_false_iff.mpr hw)] at hs
  cases hs

/-- A sentinel may resolve its suspension again. -/
theorem turn_of_sentinel (hk : Known m ops) (hr : Resolved m) (hS : m.Knows S) (hs : S.sentinel = true)
    (hc : m.counter S.cell = 1 ∨ (m.counter S.cell ≠ 0 ∧ ∃ e, op = .error true S e)) (hh : m'.handles = m.handles)
    (hl : m'.live = m.live.filter (·.cell ≠ S.cell)) (ht : m.SameTasks m') (hop : op.toks = [])
    (hnew : new.flatMap Op.toks = [.resolved S]) : ∃ old fresh, Turn m op c m' old fresh ∧ Balanced m op m' new old fresh := by
  have hw := waits_of_sentinel hk hS hs
  by_cases hlive : S ∈ m.live
  · have hb := Balanced.fire op hr hlive hh hl hnew
    rw [hop] at hb
    exact ⟨_, _, .fire S hlive (Or.inl hw) hl ht, hb⟩
  · exact ⟨_, _, .misfire S hS hlive hs hc hl ht, .move hh (hl.trans (filter_cell_of_notMem hk hS hlive)) hop hnew⟩

/-- Every step is one of these turns. -/
theorem Move.turn (hm : Move ws m op c m' new) (hk : Known m (A ++ op :: B)) (hr : Resolved m) :
    ∃ old fresh, Turn m op c m' old fresh ∧ Balanced m op m' new old fresh := by
  have hop : op.WF m := hk.ops op (by simp)
  cases hm with
  | lock e hl hlock => exact ⟨_, _, .keep rfl ⟨rfl, rfl⟩, .keep rfl rfl (by cases hlock <;> rfl)⟩
  | notifyPop e x q hq =>
    have hx := (hk.watchers e x (by simp [hq])).2.1
    exact ⟨_, _, .keep rfl ⟨rfl, rfl⟩, .keep rfl rfl (by simp [Op.toks, hx])⟩
  | wakeNow e x hf => exact ⟨_, _, .keep rfl ⟨rfl, rfl⟩, .keep rfl rfl (by simp [Op.toks, hop.2.1])⟩
  | resumeDrop T v i hfl ha =>
    have hw : T.waits = true := by
      by_contra hw
      rw [((hk.made _ _ hop.1).2.call (Bool.eq_false_iff.mpr hw)).2] at hfl
      cases hfl
    exact ⟨_, _, .keep rfl ⟨rfl, rfl⟩, .keep rfl rfl (by simp [Op.toks, hw])⟩
  | resumePass T v i hfl ha => exact ⟨_, _, .keep rfl ⟨rfl, rfl⟩, .keep rfl rfl (by simp [Op.toks])⟩
  | decrementZero T v i hw hs h0 | decrement T v i hw hs h0 h1 =>
    have hwt := waits_of_sentinel hk (hw.wf hk).1 hs
    exact ⟨_, _, .keep rfl ⟨rfl, rfl⟩, .keep rfl rfl (by rw [hw.toks, hwt]; rfl)⟩
  | decrementLast T v i hw hs h1 =>
    have hwt := waits_of_sentinel hk (hw.wf hk).1 hs
    exact turn_of_sentinel hk hr (hw.wf hk).1 hs (Or.inl h1) rfl rfl ⟨rfl, rfl⟩ (by rw [hw.toks, hwt]; rfl) rfl
  | consumeNoop T v i hw hs hc =>
    cases hwt : T.waits with
    | true => exact ⟨_, _, .keep rfl ⟨rfl, rfl⟩, .keep rfl rfl (by rw [hw.toks, hwt]; rfl)⟩
    | false => exact ⟨_, _, .ignore T (hw.wf hk).1 hwt hc rfl ⟨rfl, rfl⟩, .move rfl rfl (by rw [hw.toks, hwt]; rfl) rfl⟩
  | consume T v i hw hs hc => exact turn_of_consume hk hr (hw.wf hk).1 hs hc rfl rfl ⟨rfl, rfl⟩ hw.toks rfl
  | storeRes T i v last =>
    cases last
    · exact ⟨_, _, .keep rfl ⟨rfl, rfl⟩, .keep rfl rfl rfl⟩
    · exact ⟨_, _, .keep rfl ⟨rfl, rfl⟩, .keep rfl rfl rfl⟩
  | errorNoop b T e t ht h =>
    cases b with
    | true => exact ⟨_, _, .keep rfl ⟨rfl, rfl⟩, .keep rfl rfl rfl⟩
    | false =>
      cases hwt : T.waits with
      | true => exact ⟨_, _, .keep rfl ⟨rfl, rfl⟩, .keep rfl rfl (by simp [Op.toks, hwt])⟩
      | false =>
        have hs := hk.sentinel_of_call hop.1 hwt
        have hc : m.consumed T.cell = true := by
          rcases h with h | h
          · rw [hs] at h
            exact absurd h.1 (by simp)
          · exact h.2
        exact ⟨_, _, .ignore T hop.1 hwt hc rfl ⟨rfl, rfl⟩, .move rfl rfl (by simp [Op.toks, hwt]) rfl⟩
  | errorSentinel b T e t ht hs h0 =>
    obtain rfl := hop.byAbort hs
    exact turn_of_sentinel hk hr hop.1 hs (Or.inr ⟨h0, e, rfl⟩) rfl rfl ⟨rfl, rfl⟩ rfl rfl
  | errorConsume b T e t ht hs hc =>
    cases b with
    | false => exact turn_of_consume hk hr hop.1 hs hc rfl rfl ⟨rfl, rfl⟩ rfl rfl
    | true =>
      have hfired : m.fired T.cell = 0 := by rw [hr.fired_eq _ T hop.1 hs, hc]; rfl
      have hlive := hr.live _ T hop.1 (Or.inr (hop.2.1 rfl)) hfired
      exact ⟨_, _, .fire T hlive (Or.inr ⟨hop.2.1 rfl, e, rfl⟩) rfl ⟨rfl, rfl⟩, .fire _ hr hlive rfl rfl rfl⟩
  | toHandleClear T input w hw =>
    exact ⟨_, _, .schedule T input hop rfl ⟨rfl, rfl⟩, .move rfl rfl rfl (by simp [Op.toks])⟩
  | toHandle T input hw => exact ⟨_, _, .schedule T input hop rfl ⟨rfl, rfl⟩, .move rfl rfl rfl (by simp [Op.toks])⟩
  | addHandle y =>
    refine ⟨_, _, .keep rfl ⟨rfl, rfl⟩, fun g => ?_⟩
    simp only [Mem.weigh, Op.toks, total_append, total_cons, total_nil]
    omega
  | fromCheckpoint w coro ctx p rest hr' he hp =>
    obtain ⟨hkp, hpw, -⟩ := hop p rest rfl
    refine ⟨_, _, .copy w coro ctx p rest _ _ hkp hpw hp hr' rfl rfl rfl ⟨rfl, rfl⟩, fun g => ?_⟩
    have hP : Susp.tok ⟨checkpointFrame m p w, rest⟩ = .called ⟨checkpointFrame m p w, rest⟩ := tok_of_call hpw
    have hS : (checkpointSusp (m.nextCell + 1) coro ctx none (checkpointFrame m p w :: rest)).tok =
        .parked (checkpointSusp (m.nextCell + 1) coro ctx none (checkpointFrame m p w :: rest)) := tok_of_waits rfl
    have hfilter : total (fun S => g S.tok) (m.live.filter (·.cell ≠ p.cell)) +
        total g (if ⟨p, rest⟩ ∈ m.live then [Tok.called ⟨p, rest⟩] else []) = total (fun S => g S.tok) m.live := by
      split
      · rename_i hlive
        have := total_filter_ne (fun T : Susp => T.cell) (fun T => g T.tok) hr.nodup hlive
        rw [tok_of_call hpw] at this
        simpa using this
      · rename_i hlive
        rw [filter_cell_of_notMem hk hkp hlive]
        rfl
    simp only [Mem.weigh, Mem.new, Mem.register, Op.toks, total_append, total_cons, total_nil, hP, hS]
    omega
  | underCheckpoint w coro ctx p rest c' hr' he hp =>
    refine ⟨_, _, .park coro (p :: rest) _ ⟨rfl, rfl, rfl⟩ ⟨rfl, rfl, rfl⟩ rfl ⟨rfl, rfl⟩, ?_⟩
    exact Balanced.park (S := checkpointSusp m.nextCell coro ctx (some c') (p :: rest)) rfl rfl rfl (fun _ => rfl)
  | registerAsync w coro ctx checkpoint checkpoint' left timed hr' he =>
    rcases he with ⟨-, rfl, -, -⟩ | ⟨-, rfl, -, -⟩
    · exact ⟨_, _, .replace w coro checkpoint hr' rfl ⟨rfl, rfl⟩, .move rfl rfl rfl rfl⟩
    · exact ⟨_, _, .keep rfl ⟨rfl, rfl⟩, .keep rfl rfl rfl⟩
  | suspend fl coro ctx checkpoint parents events timed T hT =>
    have hTt : T.tok = .parked T := tok_of_waits (by rw [hT]; rfl)
    have hb : Balanced m (.suspend fl coro ctx checkpoint parents events timed) (m.suspend T events)
        (registration T events timed) (Op.suspend fl coro ctx checkpoint parents events timed).toks [.parked T] :=
      hTt ▸ Balanced.park rfl rfl rfl (fun g => total_toks_registration g T events timed)
    have hT' : T.cell = m.nextCell ∧ T.waits = true ∧ T.isCheckpoint = false := by rw [hT]; exact ⟨rfl, rfl, rfl⟩
    cases fl with
    | gen => exact ⟨_, _, .park coro parents T hT' (by rw [hT]; exact ⟨rfl, rfl, rfl⟩) rfl ⟨rfl, rfl⟩, hb⟩
    | async =>
      have hpar := hop.2.2.2.2.1 rfl
      exact ⟨_, _, .parkAsync coro checkpoint T hT' (by rw [hT]; exact ⟨rfl, rfl, hpar, rfl⟩) rfl ⟨rfl, rfl⟩, hb⟩
  | checkAborted w T => exact ⟨_, _, .keep rfl ⟨rfl, rfl⟩, .keep rfl rfl (by split <;> simp [Op.toks, hop.1.2.2])⟩
  | abortLoad fl w => exact ⟨_, _, .keep rfl ⟨rfl, rfl⟩, .keep rfl rfl (by cases m.ptr fl w <;> rfl)⟩
  | callChild parents coro ctx input new hnew =>
    refine ⟨_, _, .call coro ctx parents _ rfl rfl rfl rfl, fun g => ?_⟩
    have hF : (callSusp m coro ctx parents).tok = .called (callSusp m coro ctx parents) := tok_of_call rfl
    rcases hnew with rfl | ⟨_, _, _, -, -, -, rfl⟩ <;>
      simp only [Mem.weigh, Mem.new, Mem.resumed, Op.toks, Handle.toks, total_append, total_cons, total_nil, hF] <;> omega
  | ret parents coro ctx input v =>
    refine ⟨_, _, .ended coro parents rfl rfl rfl, .move rfl rfl rfl ?_⟩
    cases parents with
    | nil => rfl
    | cons p rest => simp [Op.toks, (hop p rest rfl).2.1, resultToks]
  | raise parents coro ctx input e =>
    refine ⟨_, _, .ended coro parents rfl rfl rfl, .move rfl rfl rfl ?_⟩
    cases parents with
    | nil => rfl
    | cons p rest => simp [Op.toks, (hop p rest rfl).2.1, resultToks]
  | asyncOver checkpoint coro ctx v o ho =>
    refine ⟨_, _, .asyncOver coro checkpoint rfl rfl rfl, .move rfl rfl rfl ?_⟩
    cases checkpoint <;> rfl
  | throwOver coro ctx e o ho => exact ⟨_, _, .asyncOver coro none rfl rfl rfl, .move rfl rfl rfl rfl⟩
  | throwDrop coro ctx e o ho => exact ⟨_, _, .drop coro ctx e o rfl rfl ho rfl ⟨rfl, rfl⟩, .move rfl rfl rfl rfl⟩
  | timer T => exact ⟨_, _, .keep rfl ⟨rfl, rfl⟩, .keep rfl rfl (by simp [Op.toks, Handle.toks, hop.2.2])⟩
  | clearPtr w => exact ⟨_, _, .close w rfl ⟨rfl, rfl⟩, .move rfl rfl rfl rfl⟩
  | enter w P y => exact ⟨_, _, .keep rfl ⟨rfl, rfl⟩, .keep rfl rfl (by simp [Op.toks])⟩
  | _ => exact ⟨_, _, .keep rfl ⟨rfl, rfl⟩, .keep rfl rfl rfl⟩

/-- A call starts a task, or leaves the tokens alone. -/
theorem Started.turn {l : Call} (hc : Started m l m' new) (ops : List Op) :
    ((∀ g, weigh g m' (ops ++ new) = weigh g m ops) ∧ m.SameTasks m') ∨
    ∃ t, (t = .gen m.nextCoro [] ∨ t = .async m.nextCoro none) ∧ (∀ g, weigh g m' (ops ++ new) = weigh g m ops + g t) ∧
      m'.finished = m.finished ∧ m'.nextCoro = m.nextCoro + 1 := by
  cases hc with
  | set e | clear e | waiter e | abort fl w | io e => exact Or.inl ⟨fun g => by simp [weigh, Op.toks, Handle.toks], rfl, rfl⟩
  | spawn fl ctx y hy =>
    rcases hy with ⟨-, rfl⟩ | ⟨-, rfl⟩
    · refine Or.inr ⟨_, Or.inl rfl, fun g => ?_, rfl, rfl⟩
      simp only [weigh, Mem.weigh, total_append, total_cons, total_nil, Op.toks, Handle.toks]
      omega
    · refine Or.inr ⟨_, Or.inr rfl, fun g => ?_, rfl, rfl⟩
      simp only [weigh, Mem.weigh, total_append, total_cons, total_nil, Op.toks, Handle.toks]
      omega
  | work k y hy =>
    refine Or.inl ⟨fun g => ?_, rfl, rfl⟩
    have := total_eraseIdx (fun h => total g h.toks) hy
    simp only [weigh, Mem.weigh, total_append, total_cons, total_nil, Op.toks]
    omega
  | fire k T hT => exact Or.inl ⟨fun g => by simp [weigh, Mem.weigh, Op.toks, Handle.toks], rfl, rfl⟩

end

end Tonio.Runtime
