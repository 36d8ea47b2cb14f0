import Tonio.Lemmas.RuntimeMove

/-!
# Cells

Suspensions are numbered by their cells in the order they are made, and are never changed. Whatever refers to a suspension refers to
one that has been made (`Known`), with the properties it was made with: so two that have the same cell are the same.
-/

namespace Tonio.Runtime

open Interleaving

/-! ## What is referred to has been made -/

/-- The suspension has been made. -/
def Mem.Knows (m : Mem) (S : Susp) : Prop := m.made S.cell = some S

/-- The nearest parent, if there is one, is a suspension that called a child. -/
def Mem.Calls (m : Mem) (parents : List Frame) : Prop :=
  ∀ p rest, parents = p :: rest → m.Knows ⟨p, rest⟩ ∧ p.waits = false ∧ p.flavour = .gen

/-- A suspension that only one wake resumes. -/
def Mem.KnowsSingle (m : Mem) (S : Susp) : Prop := m.Knows S ∧ S.sentinel = false ∧ S.waits = true

/-- A waker stands for one of the events its suspension was registered with. -/
def Waker.WF (m : Mem) (e : Nat) (x : Waker) : Prop :=
  m.Knows x.target ∧ x.target.waits = true ∧ (m.awaits x.target.cell)[x.idx]? = some e

/-- The suspension of a checkpoint. -/
def Mem.KnowsBehind (m : Mem) (fl : Flavour) (S : Susp) : Prop := m.Knows S ∧ S.checkpoint.isSome = true ∧ S.flavour = fl

/-- The checkpoint, if there is one, has been registered. -/
def Mem.Checks (m : Mem) (checkpoint : Option Nat) : Prop := ∀ w, checkpoint = some w → m.registered w = true

/-- What a handle refers to. -/
def Handle.WF (m : Mem) : Handle → Prop
  | .gen parents _ _ _ => m.Calls parents
  | .async checkpoint _ _ _ => m.Checks checkpoint
  | .timer S => m.KnowsSingle S
  | _ => True

/-- What an operation refers to. -/
def Op.WF (m : Mem) : Op → Prop
  | .unnotify e q => ∀ x ∈ q, x.WF m e
  | .addWaker e x | .addCheck e x | .push e x => x.WF m e
  | .resume S v _ | .resumeBody S v _ => m.Knows S ∧ (S.sentinel = true → v = .none)
  | .storeRes S _ v _ => m.Knows S ∧ S.sentinel = true ∧ v = .none
  | .restore S | .fetchRes S => m.Knows S ∧ S.sentinel = true
  | .error byAbort S _ => m.Knows S ∧ (byAbort = true → S.checkpoint.isSome = true) ∧ (byAbort = false → S.sentinel = false)
  | .toHandle S _ => m.Knows S
  | .addHandle h | .run h => h.WF m
  | .addTimer S => m.KnowsSingle S
  | .registerPygen _ _ _ parents => m.Calls parents
  | .registerPyasyncgen _ _ _ checkpoint => m.Checks checkpoint
  | .clearPtr w => m.registered w = true
  | .adoptLoad _ _ S => m.KnowsSingle S ∧ m.awaits S.cell = []
  | .adoptSwap _ p S => (∀ P, p = some P → m.KnowsBehind .gen P) ∧ m.KnowsSingle S ∧ m.awaits S.cell = []
  | .suspend fl _ _ checkpoint parents events timed =>
    m.Calls parents ∧ m.Checks checkpoint ∧ events.length < 2 ^ 63 ∧ (timed = true → events.length = 1) ∧ (fl = .async → parents = []) ∧
      (fl = .gen → checkpoint = parents.head?.bind (·.checkpoint) ∧ events ≠ []) ∧ (events = [] → checkpoint.isSome = true)
  | .checkAborted _ S => m.KnowsSingle S ∧ m.awaits S.cell = []
  | .enter w P h => m.Knows P ∧ P.waits = false ∧ P.flavour = .gen ∧ P.isCheckpoint = true ∧ P.checkpoint = some w ∧ h.WF m ∧
      ∃ F coro ctx input, h = .gen (F :: P.toFrame :: P.parents) coro ctx input ∧ F.checkpoint = some w
  | _ => True

/-- An error that meets a suspension with a sentinel comes from an abort. -/
theorem Op.WF.byAbort {m : Mem} {byAbort : Bool} {S : Susp} {e : Exc} (h : (Op.error byAbort S e).WF m) (hs : S.sentinel = true) :
    byAbort = true := by
  by_contra hb
  exact Bool.false_ne_true ((h.2.2 (Bool.eq_false_iff.mpr hb)).symm.trans hs)

/-- How a suspension is made: by a waiter or by the call of a child, in either flavour, or as the copy of one that becomes a
checkpoint. -/
structure Susp.WF (m : Mem) (S : Susp) : Prop where
  lt : S.cell < m.nextCell
  fits : (m.awaits S.cell).length < 2 ^ 63
  sentinel : S.sentinel = decide (2 ≤ (m.awaits S.cell).length)
  parents : m.Calls S.parents
  above : ∀ p rest, S.parents = p :: rest → p.cell < S.cell
  call : S.waits = false → m.awaits S.cell = [] ∧ S.flavour = .gen
  async : S.flavour = .async → S.parents = []
  checkpointFrame : S.isCheckpoint = true →
    S.waits = false ∧ S.checkpoint.isSome = true ∧ S.parents.head?.bind (·.checkpoint) = none
  checks : m.Checks S.checkpoint
  inherits : S.flavour = .gen → S.isCheckpoint = false → S.waits = false ∨ m.awaits S.cell ≠ [] →
    S.checkpoint = S.parents.head?.bind (·.checkpoint)

/-- Whatever is referred to has been made, and what has not been made is as at the start. -/
structure Known (m : Mem) (ops : List Op) : Prop where
  ops : ∀ op ∈ ops, op.WF m
  watchers : ∀ e, ∀ x ∈ m.watchers e, x.WF m e
  timers : ∀ S ∈ m.timers, m.KnowsSingle S
  handles : ∀ h ∈ m.handles, h.WF m
  ptr : ∀ fl w S, m.ptr fl w = some S → m.KnowsBehind fl S
  live : ∀ S ∈ m.live, m.Knows S
  made : ∀ c S, m.made c = some S → S.cell = c ∧ S.WF m
  fresh : ∀ c, m.nextCell ≤ c →
    m.made c = none ∧ m.consumed c = false ∧ m.awaits c = [] ∧ m.fired c = 0 ∧ m.thrown c = false

/-! ## Suspensions are not changed -/

/-- What has been made stays as it is. -/
structure Mem.Extends (m m' : Mem) : Prop where
  le : m.nextCell ≤ m'.nextCell
  made : ∀ c, c < m.nextCell → m'.made c = m.made c
  awaits : ∀ c, c < m.nextCell → m'.awaits c = m.awaits c
  registered : ∀ w, m.registered w = true → m'.registered w = true

theorem Mem.Extends.of_eq {m m' : Mem} (h1 : m'.nextCell = m.nextCell) (h2 : m'.made = m.made) (h3 : m'.awaits = m.awaits)
    (h4 : ∀ w, m.registered w = true → m'.registered w = true) : m.Extends m' :=
  ⟨h1 ▸ Nat.le_refl _, fun c _ => by rw [h2], fun c _ => by rw [h3], h4⟩

/-- A suspension that is known now was known before, or has been made since. -/
theorem Mem.Extends.old {m m' : Mem} {S : Susp} (hx : m.Extends m') (hS : m'.Knows S) : m.Knows S ∨ m.nextCell ≤ S.cell := by
  by_cases hlt : S.cell < m.nextCell
  · exact Or.inl ((hx.made _ hlt).symm.trans hS)
  · exact Or.inr (Nat.le_of_not_lt hlt)

theorem Mem.Checks.extend {m m' : Mem} {checkpoint : Option Nat} (hx : m.Extends m') (hc : m.Checks checkpoint) :
    m'.Checks checkpoint :=
  fun w hw => hx.registered w (hc w hw)

section

variable {m m' : Mem} {ops : List Op} {S : Susp}

theorem Known.lt (h : Known m ops) (hS : m.Knows S) : S.cell < m.nextCell := (h.made _ _ hS).2.lt

/-- Two suspensions with the same cell are the same. -/
theorem Mem.Knows.unique {S T : Susp} (hS : m.Knows S) (hT : m.Knows T) (hc : S.cell = T.cell) : S = T := by
  unfold Mem.Knows at hS hT
  rw [hc, hT] at hS
  exact (Option.some.inj hS).symm

theorem Mem.Knows.calls (hS : m.Knows S) (hw : S.waits = false) (hfl : S.flavour = .gen) : m.Calls (S.toFrame :: S.parents) := by
  intro p rest he
  obtain ⟨rfl, rfl⟩ := List.cons.inj he
  exact ⟨hS, hw, hfl⟩

/-- Only a waiter of several events has a sentinel. -/
theorem Known.sentinel_of_call (h : Known m ops) (hS : m.Knows S) (hw : S.waits = false) : S.sentinel = false := by
  obtain ⟨-, hwf⟩ := h.made _ _ hS
  rw [hwf.sentinel, (hwf.call hw).1]
  rfl

/-- The suspensions a new one is put below have smaller cells. -/
theorem Known.above (h : Known m ops) {parents : List Frame} {c : Nat} (hp : m.Calls parents) (hc : m.nextCell ≤ c) :
    ∀ p rest, parents = p :: rest → p.cell < c :=
  fun p rest he => Nat.lt_of_lt_of_le (h.lt (hp p rest he).1) hc

theorem Known.checks_head (h : Known m ops) {parents : List Frame} (hp : m.Calls parents) :
    m.Checks (parents.head?.bind (·.checkpoint)) := by
  cases parents with
  | nil => exact nofun
  | cons p rest => exact (h.made _ _ (hp p rest rfl).1).2.checks

variable (h : Known m ops) (hx : m.Extends m')

include h hx

theorem Mem.Knows.extend (hS : m.Knows S) : m'.Knows S := by
  unfold Mem.Knows
  rw [hx.made _ (h.lt hS)]
  exact hS

theorem Mem.KnowsSingle.extend (hS : m.KnowsSingle S) : m'.KnowsSingle S := ⟨hS.1.extend h hx, hS.2⟩

theorem Mem.KnowsBehind.extend {fl : Flavour} (hS : m.KnowsBehind fl S) : m'.KnowsBehind fl S := ⟨hS.1.extend h hx, hS.2⟩

theorem Mem.Calls.extend {parents : List Frame} (hp : m.Calls parents) : m'.Calls parents :=
  fun p rest he => ⟨(hp p rest he).1.extend h hx, (hp p rest he).2⟩

/-- The events a suspension was registered with stay the same. -/
theorem Mem.Knows.awaits_eq (hS : m.Knows S) : m'.awaits S.cell = m.awaits S.cell := hx.awaits _ (h.lt hS)

theorem Waker.WF.extend {e : Nat} {x : Waker} (hw : x.WF m e) : x.WF m' e :=
  ⟨hw.1.extend h hx, hw.2.1, by rw [hw.1.awaits_eq h hx]; exact hw.2.2⟩

theorem Handle.WF.extend {y : Handle} (hy : y.WF m) : y.WF m' := by
  cases y with
  | gen parents coro ctx input => exact Mem.Calls.extend h hx hy
  | timer S => exact Mem.KnowsSingle.extend h hx hy
  | async checkpoint coro ctx v => exact Mem.Checks.extend hx hy
  | asyncThrow | event => trivial

theorem Op.WF.extend {op : Op} (ho : op.WF m) : op.WF m' := by
  cases op with
  | unnotify e q => exact fun x hx' => Waker.WF.extend h hx (ho x hx')
  | addWaker e x | addCheck e x | push e x => exact Waker.WF.extend h hx ho
  | resume S v i | resumeBody S v i | storeRes S i v last | restore S | fetchRes S | error b S e =>
    exact ⟨ho.1.extend h hx, ho.2⟩
  | toHandle S input => exact Mem.Knows.extend h hx ho
  | addHandle y | run y => exact Handle.WF.extend h hx ho
  | addTimer S => exact Mem.KnowsSingle.extend h hx ho
  | registerPygen w coro ctx parents => exact Mem.Calls.extend h hx ho
  | registerPyasyncgen w coro ctx checkpoint => exact Mem.Checks.extend hx ho
  | clearPtr w => exact hx.registered w ho
  | adoptSwap w p S =>
    exact ⟨fun P hP => (ho.1 P hP).extend h hx, ho.2.1.extend h hx, by rw [ho.2.1.1.awaits_eq h hx]; exact ho.2.2⟩
  | suspend fl coro ctx checkpoint parents events timed => exact ⟨ho.1.extend h hx, Mem.Checks.extend hx ho.2.1, ho.2.2⟩
  | adoptLoad w c S | checkAborted w S => exact ⟨ho.1.extend h hx, by rw [ho.1.1.awaits_eq h hx]; exact ho.2⟩
  | enter w P y => exact ⟨ho.1.extend h hx, ho.2.1, ho.2.2.1, ho.2.2.2.1, ho.2.2.2.2.1, ho.2.2.2.2.2.1.extend h hx,
    ho.2.2.2.2.2.2⟩
  | set | notifyLock | notify | clear | unnotifyLock | waiter | sweepLock | sweep | unlock | abort | abortLoad => trivial

theorem Susp.WF.extend (hS : S.WF m) : S.WF m' := by
  have ha := hx.awaits _ hS.lt
  refine ⟨Nat.lt_of_lt_of_le hS.lt hx.le, ?_, ?_, hS.parents.extend h hx, hS.above, ?_, hS.async, hS.checkpointFrame,
    Mem.Checks.extend hx hS.checks, ?_⟩
  · rw [ha]
    exact hS.fits
  · rw [ha]
    exact hS.sentinel
  · rw [ha]
    exact hS.call
  · rw [ha]
    exact hS.inherits

end

/-! ## Runs -/

section

variable {ws : Nat → Waiter} {m m' : Mem} {A B new : List Op} {op : Op} {c : Choice}

/-- What a step has to make sure of. -/
theorem Known.of (h : Known m (A ++ op :: B)) (hx : m.Extends m') (hnew : ∀ x ∈ new, x.WF m')
    (hw : ∀ e, ∀ x ∈ m'.watchers e, x ∈ m.watchers e ∨ x.WF m' e) (ht : ∀ S ∈ m'.timers, S ∈ m.timers ∨ m'.KnowsSingle S)
    (hh : ∀ y ∈ m'.handles, y ∈ m.handles ∨ y.WF m')
    (hp : ∀ fl w S, m'.ptr fl w = some S → m.ptr fl w = some S ∨ m'.KnowsBehind fl S)
    (hl : ∀ S ∈ m'.live, S ∈ m.live ∨ m'.Knows S)
    (hm : ∀ c S, m'.made c = some S → m.made c = some S ∨ (S.cell = c ∧ S.WF m'))
    (hf : ∀ c, m'.nextCell ≤ c → m'.made c = m.made c ∧ m'.consumed c = m.consumed c ∧ m'.awaits c = m.awaits c ∧
      m'.fired c = m.fired c ∧ m'.thrown c = m.thrown c) : Known m' (A ++ (new ++ B)) := by
  refine ⟨fun x hx' => ?_, fun e x hx' => ?_, fun S hS => ?_, fun y hy => ?_, fun fl w S hS => ?_, fun S hS => ?_,
    fun c S hS => ?_, fun c hc => ?_⟩
  · exact (Machine.mem_cases op hx').elim (hnew x) (fun hx' => (h.ops x hx').extend h hx)
  · exact (hw e x hx').elim (fun hx' => (h.watchers e x hx').extend h hx) id
  · exact (ht S hS).elim (fun hS => (h.timers S hS).extend h hx) id
  · exact (hh y hy).elim (fun hy => (h.handles y hy).extend h hx) id
  · exact (hp fl w S hS).elim (fun hS => (h.ptr fl w S hS).extend h hx) id
  · exact (hl S hS).elim (fun hS => (h.live S hS).extend h hx) id
  · exact (hm c S hS).elim (fun hS => ⟨(h.made c S hS).1, (h.made c S hS).2.extend h hx⟩) id
  · obtain ⟨h1, h2, h3, h4, h5⟩ := hf c hc
    rw [h1, h2, h3, h4, h5]
    exact h.fresh c (Nat.le_trans hx.le hc)

/-- Two memories that refer to the same. -/
structure Mem.SameRefs (m m' : Mem) : Prop where
  nextCell : m'.nextCell = m.nextCell
  made : m'.made = m.made
  awaits : m'.awaits = m.awaits
  watchers : m'.watchers = m.watchers
  timers : m'.timers = m.timers
  handles : m'.handles = m.handles
  ptr : m'.ptr = m.ptr
  live : m'.live = m.live
  consumed : m'.consumed = m.consumed
  fired : m'.fired = m.fired
  thrown : m'.thrown = m.thrown

theorem Known.of_same (h : Known m (A ++ op :: B)) (hx : m.Extends m') (hs : m.SameRefs m') (hnew : ∀ x ∈ new, x.WF m') :
    Known m' (A ++ (new ++ B)) := by
  refine h.of hx hnew ?_ ?_ ?_ ?_ ?_ ?_ ?_
  · exact fun e x hx' => Or.inl (hs.watchers ▸ hx')
  · exact fun S hS => Or.inl (hs.timers ▸ hS)
  · exact fun y hy => Or.inl (hs.handles ▸ hy)
  · exact fun fl w S hS => Or.inl (hs.ptr ▸ hS)
  · exact fun S hS => Or.inl (hs.live ▸ hS)
  · exact fun c S hS => Or.inl (hs.made ▸ hS)
  · exact fun c _ => by rw [hs.made, hs.consumed, hs.awaits, hs.fired, hs.thrown]; simp

/-- A step that makes a suspension. -/
theorem Known.of_new (h : Known m (A ++ op :: B)) (hx : m.Extends m') (S : Susp) (events : List Nat) (hc : S.cell = m.nextCell)
    (hs : (Mem.new { m with nextCell := m.nextCell + 1 } S events).SameRefs { m' with live := m.live ++ [S], ptr := m.ptr })
    (hp : ∀ fl w T, m'.ptr fl w = some T → m.ptr fl w = some T ∨ (T = S ∧ S.checkpoint.isSome = true ∧ S.flavour = fl))
    (hl : ∀ T ∈ m'.live, T ∈ m.live ∨ T = S) (hS : m'.awaits S.cell = events → S.WF m')
    (hnew : m'.Knows S → m'.awaits S.cell = events → ∀ x ∈ new, x.WF m') : Known m' (A ++ (new ++ B)) := by
  have hn : m'.nextCell = m.nextCell + 1 := hs.nextCell
  have hmade : m'.made = Function.update m.made S.cell (some S) := hs.made
  have hawaits : m'.awaits = Function.update m.awaits S.cell events := hs.awaits
  have hk : m'.Knows S := by simp [Mem.Knows, hmade]
  have ha : m'.awaits S.cell = events := by simp [hawaits]
  refine h.of hx (hnew hk ha) ?_ ?_ ?_ ?_ ?_ ?_ ?_
  · exact fun e x hx' => Or.inl (hs.watchers ▸ hx')
  · exact fun S hS => Or.inl (hs.timers ▸ hS)
  · exact fun y hy => Or.inl (hs.handles ▸ hy)
  · intro fl w T hT
    rcases hp fl w T hT with hT | ⟨rfl, hT⟩
    · exact Or.inl hT
    · exact Or.inr ⟨hk, hT⟩
  · intro T hT
    rcases hl T hT with hT | rfl
    · exact Or.inl hT
    · exact Or.inr hk
  · intro c T hT
    by_cases hcell : c = S.cell
    · subst hcell
      rw [hmade, Function.update_self] at hT
      obtain rfl := Option.some.inj hT
      exact Or.inr ⟨rfl, hS ha⟩
    · rw [hmade, Function.update_of_ne hcell] at hT
      exact Or.inl hT
  · intro c hle
    rw [hn] at hle
    rw [hmade, hawaits, Function.update_of_ne (by omega), Function.update_of_ne (by omega)]
    exact ⟨rfl, congrFun hs.consumed c, rfl, congrFun hs.fired c, congrFun hs.thrown c⟩

/-- What `setPtr` leaves in a pointer. -/
theorem ptr_setPtr {m : Mem} {fl fl' : Flavour} {w w' : Nat} {p : Option Susp} {S : Susp}
    (h : (m.setPtr fl w p).ptr fl' w' = some S) : m.ptr fl' w' = some S ∨ (fl' = fl ∧ w' = w ∧ p = some S) := by
  unfold Mem.setPtr at h
  simp only at h
  by_cases hfl : fl' = fl
  · subst hfl
    rw [Function.update_self] at h
    by_cases hw : w' = w
    · subst hw
      rw [Function.update_self] at h
      exact Or.inr ⟨rfl, rfl, h⟩
    · rw [Function.update_of_ne hw] at h
      exact Or.inl h
  · rw [Function.update_of_ne hfl] at h
    exact Or.inl h

/-- A step that exchanges a pointer. -/
theorem Known.of_setPtr (h : Known m (A ++ op :: B)) (fl : Flavour) (w : Nat) (p : Option Susp)
    (hp : ∀ S, p = some S → m.KnowsBehind fl S) (hnew : ∀ x ∈ new, x.WF m) : Known (m.setPtr fl w p) (A ++ (new ++ B)) := by
  have hx : m.Extends (m.setPtr fl w p) := .of_eq rfl rfl rfl (fun _ => id)
  refine h.of hx (fun x hm => (hnew x hm).extend h hx) (fun e x hm => Or.inl hm) (fun S hS => Or.inl hS) (fun y hy => Or.inl hy) ?_
    (fun S hS => Or.inl hS) (fun c S hS => Or.inl hS) (fun c _ => ⟨rfl, rfl, rfl, rfl, rfl⟩)
  intro fl' w' S hS
  rcases ptr_setPtr hS with hold | ⟨rfl, rfl, heq⟩
  · exact Or.inl hold
  · exact Or.inr (hp S heq)

/-- A step that sets the queue of an event. -/
theorem Known.of_setWatchers (h : Known m (A ++ op :: B)) (e : Nat) (q : List Waker) (b : Nat → Bool)
    (hq : ∀ x ∈ q, x.WF m e) (hnew : ∀ x ∈ new, x.WF m) :
    Known { m.setWatchers e q with dirty := b } (A ++ (new ++ B)) := by
  have hx : m.Extends { m.setWatchers e q with dirty := b } := .of_eq rfl rfl rfl (fun _ => id)
  refine h.of hx (fun x hm => (hnew x hm).extend h hx) ?_ (fun S hS => Or.inl hS) (fun y hy => Or.inl hy) (fun fl w S hS => Or.inl hS)
    (fun S hS => Or.inl hS) (fun c S hS => Or.inl hS) (fun c _ => ⟨rfl, rfl, rfl, rfl, rfl⟩)
  intro e' x hm
  by_cases he : e' = e
  · subst he
    simp only [Mem.setWatchers, Function.update_self] at hm
    exact Or.inr ((hq x hm).extend h hx)
  · simp only [Mem.setWatchers, Function.update_of_ne he] at hm
    exact Or.inl hm

/-- A step that resolves a suspension. -/
theorem Known.of_fire (h : Known m (A ++ op :: B)) (hx : m.Extends m') (S : Susp) (hS : m.Knows S) (hl : m'.live = m.live.filter (·.cell ≠ S.cell))
    (hs : m.SameRefs { m' with live := m.live, consumed := m.consumed, fired := m.fired, thrown := m.thrown })
    (hf : ∀ c, c ≠ S.cell → m'.consumed c = m.consumed c ∧ m'.fired c = m.fired c ∧ m'.thrown c = m.thrown c)
    (hnew : ∀ x ∈ new, x.WF m) : Known m' (A ++ (new ++ B)) := by
  refine h.of hx (fun x hm => (hnew x hm).extend h hx) ?_ ?_ ?_ ?_ ?_ ?_ ?_
  · exact fun e x hx' => Or.inl (hs.watchers ▸ hx')
  · exact fun S hS => Or.inl (hs.timers ▸ hS)
  · exact fun y hy => Or.inl (hs.handles ▸ hy)
  · exact fun fl w S hS => Or.inl (hs.ptr ▸ hS)
  · intro T hT
    rw [hl] at hT
    exact Or.inl (List.mem_filter.mp hT).1
  · exact fun c S hS => Or.inl (hs.made ▸ hS)
  · intro c hc
    have hlt := h.lt hS
    have hn : m'.nextCell = m.nextCell := hs.nextCell
    obtain ⟨h1, h2, h3⟩ := hf c (by omega)
    exact ⟨congrFun hs.made c, h1, congrFun hs.awaits c, h2, h3⟩

/-- The wakers of a suspension stand for its events. -/
theorem wf_wakers {S : Susp} {events : List Nat} {timed : Bool} (hS : m.Knows S) (hw : S.waits = true)
    (ha : m.awaits S.cell = events) (hsing : timed = true → S.sentinel = false) :
    ∀ x ∈ wakers S events timed, x.WF m := by
  intro x hx
  unfold wakers at hx
  rcases List.mem_append.mp hx with hx | hx
  · obtain ⟨⟨e, i⟩, hei, rfl⟩ := List.mem_map.mp hx
    rw [List.mk_mem_zipIdx_iff_getElem?] at hei
    exact ⟨hS, hw, by rw [ha]; exact hei⟩
  · cases timed with
    | false => simp at hx
    | true =>
      simp only [if_true, List.mem_singleton] at hx
      subst hx
      exact ⟨hS, hsing rfl, hw⟩

theorem wf_handle {S : Susp} (input : Input) (h : Known m (A ++ op :: B)) (hS : m.Knows S) : (S.handle input).WF m := by
  have hp := (h.made _ _ hS).2.parents
  have hc := (h.made _ _ hS).2.checks
  cases input <;> cases hfl : S.flavour <;> simp only [Susp.handle, hfl, Handle.WF]
  · exact hp
  · exact hc
  · exact hp

theorem Wakes.wf {S : Susp} {v : Val} {i : Nat} (h : Known m (A ++ op :: B)) (hop : Wakes S v i op) :
    m.Knows S ∧ (S.sentinel = true → v = .none) := by
  have hwf := h.ops op (by simp)
  rcases hop with rfl | ⟨rfl, -⟩
  · exact hwf
  · exact hwf

/-- Making a suspension leaves the others as they are. -/
theorem Mem.Extends.add {m m₁ : Mem} {S : Susp} {events : List Nat} (hx : m.Extends m₁) (hc : m.nextCell ≤ S.cell) :
    m.Extends (m₁.new S events) := by
  refine ⟨hx.le, fun c hlt => ?_, fun c hlt => ?_, hx.registered⟩
  · simp only [Mem.new, Function.update_of_ne (show c ≠ S.cell by omega)]
    exact hx.made c hlt
  · simp only [Mem.new, Function.update_of_ne (show c ≠ S.cell by omega)]
    exact hx.awaits c hlt

theorem Mem.registered_register (m : Mem) (w n : Nat) : ∀ w', m.registered w' = true → (m.register w n).registered w' = true := by
  intro w' h
  simp [Mem.register, Function.update_apply, h]

/-- A step leaves the suspensions as they are. -/
theorem Move.extends (hm : Move ws m op c m' new) : m.Extends m' := by
  have hreg := m.registered_register
  cases hm with
  | fromCheckpoint w coro ctx p rest hr he hp =>
    refine Mem.Extends.add (Mem.Extends.add ⟨?_, fun _ _ => rfl, fun _ _ => rfl, hreg w 2⟩ (Nat.le_refl _)) (Nat.le_succ _)
    exact Nat.le_add_right _ _
  | underCheckpoint w coro ctx p rest c hr he hp =>
    exact Mem.Extends.add ⟨Nat.le_succ _, fun _ _ => rfl, fun _ _ => rfl, hreg w 1⟩ (Nat.le_refl _)
  | register w coro ctx parents hr he => exact .of_eq rfl rfl rfl (hreg w 0)
  | registerAsync w coro ctx checkpoint checkpoint' left timed hr he => exact .of_eq rfl rfl rfl (hreg w 0)
  | suspend fl coro ctx checkpoint parents events timed S hS =>
    have hx : m.Extends (Mem.new { m with nextCell := m.nextCell + 1 } S events) :=
      Mem.Extends.add ⟨Nat.le_succ _, fun _ _ => rfl, fun _ _ => rfl, fun _ => id⟩ (by rw [hS]; exact Nat.le_refl _)
    exact ⟨hx.le, hx.made, hx.awaits, hx.registered⟩
  | callChild parents coro ctx input new hnew =>
    exact Mem.Extends.add ⟨Nat.le_succ _, fun _ _ => rfl, fun _ _ => rfl, fun _ => id⟩ (Nat.le_refl _)
  | _ => exact .of_eq rfl rfl rfl (fun _ => id)

/-- An abort is not taken back. -/
theorem Move.aborted_mono (hm : Move ws m op c m' new) {w : Nat} (hw : m.aborted w = true) : m'.aborted w = true := by
  cases hm with
  | abort fl w' ha =>
    have hne : w ≠ w' := by
      rintro rfl
      exact Bool.false_ne_true (ha.symm.trans hw)
    simp [Function.update_of_ne hne, hw]
  | _ => exact hw

theorem Move.abortedOf_mono (hm : Move ws m op c m' new) {S : Susp} (hS : m.abortedOf S = true) : m'.abortedOf S = true := by
  unfold Mem.abortedOf at hS ⊢
  obtain ⟨w, hw, ha⟩ := (Option.any_eq_true _ _).mp hS
  exact (Option.any_eq_true _ _).mpr ⟨w, hw, hm.aborted_mono ha⟩

/-- The memory with the copy of the parent that `from_checkpoint` makes. -/
def Mem.copy (m : Mem) (p : Frame) (rest : List Frame) (w : Nat) : Mem :=
  Mem.new { m.register w 1 with live := m.live.filter (·.cell ≠ p.cell) } ⟨checkpointFrame m p w, rest⟩ []

theorem Mem.Extends.copy (m : Mem) (p : Frame) (rest : List Frame) (w : Nat) : m.Extends (m.copy p rest w) :=
  Mem.Extends.add ⟨Nat.le_succ _, fun _ _ => rfl, fun _ _ => rfl, m.registered_register w 1⟩ (Nat.le_refl _)

theorem Known.copy (w : Nat) {w' coro : Nat} {ctx : Option Nat} {p : Frame} {rest : List Frame} (hp : p.checkpoint = none)
    (h : Known m (A ++ .registerPygen w' coro ctx (p :: rest) :: B)) :
    Known (m.copy p rest w) (A ++ .registerPygen w' coro ctx (checkpointFrame m p w :: rest) :: B) := by
  obtain ⟨hk, hpw, hpf⟩ := h.ops (.registerPygen w' coro ctx (p :: rest)) (by simp) p rest rfl
  have hwf := (h.made _ _ hk).2
  have hx := Mem.Extends.copy m p rest w
  -- the frame itself is no checkpoint, so there is none above it
  have htop : rest.head?.bind (·.checkpoint) = none := by
    have hck : p.isCheckpoint = false := by
      by_contra hck
      have := (hwf.checkpointFrame (by simpa using hck)).2.1
      simp [hp] at this
    rw [← hwf.inherits hpf hck (Or.inl hpw)]
    exact hp
  change Known (m.copy p rest w) (A ++ ([.registerPygen w' coro ctx (checkpointFrame m p w :: rest)] ++ B))
  refine h.of_new hx ⟨checkpointFrame m p w, rest⟩ [] rfl
    ⟨rfl, rfl, rfl, rfl, rfl, rfl, rfl, rfl, rfl, rfl, rfl⟩ (fun _ _ _ h => Or.inl h) ?_ (fun ha => ?_) (fun hkP ha => ?_)
  · intro T hT
    rcases List.mem_append.mp hT with hT | hT
    · exact Or.inl (List.mem_filter.mp hT).1
    · exact Or.inr (List.mem_singleton.mp hT)
  · refine ⟨Nat.lt_succ_self _, by rw [ha]; decide, by rw [ha]; rfl, hwf.parents.extend h hx, h.above hwf.parents (Nat.le_refl _), fun _ => ⟨ha, hpf⟩,
      fun hfl => by simp [checkpointFrame, hpf] at hfl, fun _ => ⟨hpw, rfl, htop⟩, ?_, nofun⟩
    intro w'' hw
    obtain rfl := Option.some.inj hw
    simp [Mem.copy, Mem.new, Mem.register]
  · simp only [List.mem_singleton, forall_eq]
    exact hkP.calls hpw hpf

/-! ### The branches of a step -/

theorem wf_single {x : Op} (h : x.WF m) : ∀ y ∈ [x], y.WF m := List.forall_mem_singleton.mpr h

theorem wf_pair {x y : Op} (hx : x.WF m) (hy : y.WF m) : ∀ z ∈ [x, y], z.WF m := List.forall_mem_cons.mpr ⟨hx, wf_single hy⟩

theorem mem_concat {xs : List Susp} {S T : Susp} (h : T ∈ xs ++ [S]) : T ∈ xs ∨ T = S :=
  (List.mem_append.mp h).imp_right List.mem_singleton.mp

theorem Known.addHandle {y : Handle} (h : Known m (A ++ .addHandle y :: B)) :
    Known { m with handles := m.handles ++ [y] } (A ++ ([] ++ B)) := by
  have hop : y.WF m := h.ops (.addHandle y) (by simp)
  have hx : m.Extends { m with handles := m.handles ++ [y] } := .of_eq rfl rfl rfl (fun _ => id)
  refine h.of hx (by simp) (fun e x hm => Or.inl hm) (fun S hS => Or.inl hS) (fun z hz => ?_) (fun fl w S hS => Or.inl hS)
    (fun S hS => Or.inl hS) (fun c S hS => Or.inl hS) (fun c hc => ⟨rfl, rfl, rfl, rfl, rfl⟩)
  rcases List.mem_append.mp hz with hz | hz
  · exact Or.inl hz
  · obtain rfl := List.mem_singleton.mp hz
    exact Or.inr (Handle.WF.extend h hx hop)

theorem Known.addTimer {S : Susp} (h : Known m (A ++ .addTimer S :: B)) :
    Known { m with timers := m.timers ++ [S] } (A ++ ([] ++ B)) := by
  have hop : m.KnowsSingle S := h.ops (.addTimer S) (by simp)
  have hx : m.Extends { m with timers := m.timers ++ [S] } := .of_eq rfl rfl rfl (fun _ => id)
  refine h.of hx (by simp) (fun e x hm => Or.inl hm) (fun T hT => ?_) (fun y hy => Or.inl hy) (fun fl w S hS => Or.inl hS)
    (fun S hS => Or.inl hS) (fun c S hS => Or.inl hS) (fun c hc => ⟨rfl, rfl, rfl, rfl, rfl⟩)
  rcases mem_concat hT with hT | rfl
  · exact Or.inl hT
  · exact Or.inr (Mem.KnowsSingle.extend h hx hop)

/-- An exception that is thrown into a suspension that has been resolved. -/
theorem Known.errorNoop {b : Bool} {S : Susp} {e : Exc} {t : Nat → Bool} (h : Known m (A ++ .error b S e :: B))
    (ht : t = if b then Function.update m.thrown S.cell true else m.thrown) : Known { m with thrown := t } (A ++ ([] ++ B)) := by
  have hop := (h.ops (.error b S e) (by simp)).1
  have hx : m.Extends { m with thrown := t } := .of_eq rfl rfl rfl (fun _ => id)
  refine h.of hx (by simp) (fun e x hm => Or.inl hm) (fun S hS => Or.inl hS) (fun y hy => Or.inl hy) (fun fl w S hS => Or.inl hS)
    (fun S hS => Or.inl hS) (fun c S hS => Or.inl hS) (fun c hc => ⟨rfl, rfl, rfl, rfl, ?_⟩)
  have hlt := h.lt hop
  have hne : c ≠ S.cell := fun heq => Nat.not_le.mpr hlt (heq ▸ hc)
  subst ht
  cases b <;> simp [hne]

/-- The copy of the parent is made first, then the suspension of the child. -/
theorem Known.fromCheckpoint {w coro : Nat} {ctx : Option Nat} {p : Frame} {rest : List Frame}
    (h : Known m (A ++ .registerPygen w coro ctx (p :: rest) :: B)) (hp : p.checkpoint = none) :
    Known ((Mem.new { m.register w 2 with live := m.live.filter (·.cell ≠ p.cell) } ⟨checkpointFrame m p w, rest⟩ []).new
        (checkpointSusp (m.nextCell + 1) coro ctx none (checkpointFrame m p w :: rest)) [])
      (A ++ ([.checkAborted w (checkpointSusp (m.nextCell + 1) coro ctx none (checkpointFrame m p w :: rest))] ++ B)) := by
  have h₁ := h.copy w hp
  have hop₁ := h₁.ops _ (List.mem_append_right A (List.mem_cons_self ..))
  have hx₁ : (m.copy p rest w).Extends ((Mem.new { m.register w 2 with live := m.live.filter (·.cell ≠ p.cell) }
      ⟨checkpointFrame m p w, rest⟩ []).new (checkpointSusp (m.nextCell + 1) coro ctx none (checkpointFrame m p w :: rest)) []) :=
    Mem.Extends.add ⟨Nat.le_succ _, fun _ _ => rfl, fun _ _ => rfl, fun _ => id⟩ (Nat.le_refl _)
  refine h₁.of_new hx₁ (checkpointSusp (m.nextCell + 1) coro ctx none (checkpointFrame m p w :: rest)) [] rfl
    ⟨rfl, rfl, rfl, rfl, rfl, rfl, rfl, rfl, rfl, rfl, rfl⟩ (fun _ _ _ h => Or.inl h) (fun T hT => mem_concat hT) (fun ha => ?_)
    (fun hkS ha => wf_single ⟨⟨hkS, rfl, rfl⟩, ha⟩)
  exact ⟨Nat.lt_succ_self _, by rw [ha]; decide, by rw [ha]; rfl, Mem.Calls.extend h₁ hx₁ hop₁, h₁.above hop₁ (Nat.le_refl _), nofun,
    nofun, nofun, nofun, by rw [ha]; nofun⟩

theorem Known.underCheckpoint {w coro c : Nat} {ctx : Option Nat} {p : Frame} {rest : List Frame}
    (h : Known m (A ++ .registerPygen w coro ctx (p :: rest) :: B)) (hp : p.checkpoint = some c)
    (hx : m.Extends (((m.register w 1).detach (some w)).new (checkpointSusp m.nextCell coro ctx (some c) (p :: rest)) [])) :
    Known (((m.register w 1).detach (some w)).new (checkpointSusp m.nextCell coro ctx (some c) (p :: rest)) [])
      (A ++ ([.adoptLoad w c (checkpointSusp m.nextCell coro ctx (some c) (p :: rest))] ++ B)) := by
  have hop : m.Calls (p :: rest) := h.ops (.registerPygen w coro ctx (p :: rest)) (by simp)
  refine h.of_new hx _ [] rfl ⟨rfl, rfl, rfl, rfl, rfl, rfl, rfl, rfl, rfl, rfl, rfl⟩ (fun _ _ _ h => Or.inl h) (fun T hT => mem_concat hT)
    (fun ha => ?_) (fun hk ha => wf_single ⟨⟨hk, rfl, rfl⟩, ha⟩)
  have hck := Mem.Checks.extend hx (h.checks_head hop)
  simp only [List.head?_cons, Option.bind_some, hp] at hck
  exact ⟨Nat.lt_succ_self _, by rw [ha]; decide, by rw [ha]; rfl, Mem.Calls.extend h hx hop, h.above hop (Nat.le_refl _), nofun, nofun,
    nofun, hck, by rw [ha]; nofun⟩

theorem Known.registerAsync {w coro : Nat} {ctx checkpoint checkpoint' left : Option Nat} {timed : Bool}
    (h : Known m (A ++ .registerPyasyncgen w coro ctx checkpoint :: B)) (hx : m.Extends ((m.register w 0).detach left))
    (he : ((ws w).events = [] ∧ checkpoint' = some w ∧ timed = false ∧ left = checkpoint) ∨
      ((ws w).events ≠ [] ∧ checkpoint' = checkpoint ∧ timed = (ws w).timeout.isSome ∧ left = none)) :
    Known ((m.register w 0).detach left) (A ++ ([.suspend .async coro ctx checkpoint' [] (ws w).events timed] ++ B)) := by
  have hop : m.Checks checkpoint := h.ops (.registerPyasyncgen w coro ctx checkpoint) (by simp)
  refine h.of_same hx ⟨rfl, rfl, rfl, rfl, rfl, rfl, rfl, rfl, rfl, rfl, rfl⟩ (wf_single ?_)
  refine ⟨fun p rest hp => ?_, ?_, (ws w).fits, ?_, fun _ => rfl, fun hfl => ?_, ?_⟩
  · cases hp
  · rcases he with ⟨-, rfl, -, -⟩ | ⟨-, rfl, -, -⟩
    · intro w' hw'
      obtain rfl := Option.some.inj hw'
      simp [Mem.register, Mem.detach]
    · exact Mem.Checks.extend hx hop
  · rcases he with ⟨-, -, rfl, -⟩ | ⟨-, -, rfl, -⟩
    · exact fun ht => absurd ht Bool.false_ne_true
    · exact (ws w).timed
  · cases hfl
  · rcases he with ⟨-, rfl, -, -⟩ | ⟨he, -, -, -⟩
    · exact fun _ => rfl
    · exact fun h => absurd h he

theorem Known.suspend {fl : Flavour} {coro : Nat} {ctx checkpoint : Option Nat} {parents : List Frame} {events : List Nat} {timed : Bool}
    {S : Susp} (h : Known m (A ++ .suspend fl coro ctx checkpoint parents events timed :: B)) (hx : m.Extends (m.suspend S events))
    (hS : S = m.suspension fl coro ctx checkpoint parents events) :
    Known (m.suspend S events) (A ++ (registration S events timed ++ B)) := by
  obtain ⟨hcalls, hchecks, hfits, htimed, hasync, hgen, hnil⟩ := h.ops (.suspend fl coro ctx checkpoint parents events timed) (by simp)
  have hsent : S.sentinel = decide (2 ≤ events.length) := by rw [hS]; rfl
  have hwaits : S.waits = true := by rw [hS]; rfl
  have hck : S.checkpoint = checkpoint := by rw [hS]; rfl
  have hpar : S.parents = parents := by rw [hS]; rfl
  have hflav : S.flavour = fl := by rw [hS]; rfl
  have hcell : S.cell = m.nextCell := by rw [hS]; rfl
  refine h.of_new hx S events hcell ⟨rfl, rfl, rfl, rfl, rfl, rfl, rfl, rfl, rfl, rfl, rfl⟩ ?_ (fun T hT => mem_concat hT) (fun ha => ?_)
    (fun hk ha => ?_)
  · intro fl' w T hT
    cases hw : S.checkpoint with
    | none =>
      simp only [Mem.suspend, hw] at hT
      exact Or.inl hT
    | some w' =>
      simp only [Mem.suspend, hw] at hT
      rcases ptr_setPtr hT with hold | ⟨rfl, rfl, heq⟩
      · exact Or.inl hold
      · exact Or.inr ⟨(Option.some.inj heq).symm, rfl, rfl⟩
  · refine ⟨by rw [hcell]; exact Nat.lt_succ_self _, by rw [ha]; exact hfits, by rw [ha]; exact hsent, ?_, ?_, by simp [hwaits], ?_, ?_, ?_, ?_⟩
    · rw [hpar]
      exact hcalls.extend h hx
    · rw [hpar]
      exact h.above hcalls (Nat.le_of_eq hcell.symm)
    · rw [hpar, hflav]
      exact hasync
    · rw [show S.isCheckpoint = false by rw [hS]; rfl]
      exact nofun
    · rw [hck]
      exact Mem.Checks.extend hx hchecks
    · rw [hpar, hflav, hck]
      exact fun hfl _ _ => (hgen hfl).1
  · have hw : ∀ x ∈ wakers S events timed, x.WF (m.suspend S events) :=
      wf_wakers hk hwaits ha (fun h => by simp [hsent, htimed h])
    unfold registration
    split
    · exact wf_single ⟨⟨hk, by simp [hsent], hwaits⟩, ha⟩
    · exact hw

theorem Known.callChild {parents : List Frame} {coro : Nat} {ctx : Option Nat} {input : Input}
    (h : Known m (A ++ .run (.gen parents coro ctx input) :: B))
    (hx : m.Extends ({ m.resumed coro input with nextCell := m.nextCell + 1, nextCoro := m.nextCoro + 1 }.new (callSusp m coro ctx parents) []))
    (hnew : new = [.addHandle (.gen ((callSusp m coro ctx parents).toFrame :: parents) m.nextCoro ctx (.send .none))] ∨
      ∃ p rest w, parents = p :: rest ∧ p.isCheckpoint = true ∧ p.checkpoint = some w ∧
        new = [.enter w ⟨p, rest⟩ (.gen ((callSusp m coro ctx parents).toFrame :: parents) m.nextCoro ctx (.send .none))]) :
    Known ({ m.resumed coro input with nextCell := m.nextCell + 1, nextCoro := m.nextCoro + 1 }.new (callSusp m coro ctx parents) [])
      (A ++ (new ++ B)) := by
  have hop : m.Calls parents := h.ops (.run (.gen parents coro ctx input)) (by simp)
  refine h.of_new hx (callSusp m coro ctx parents) [] rfl ⟨rfl, rfl, rfl, rfl, rfl, rfl, rfl, rfl, rfl, rfl, rfl⟩
    (fun _ _ _ h => Or.inl h) (fun T hT => mem_concat hT) (fun ha => ?_) (fun hk ha => ?_)
  · exact ⟨Nat.lt_succ_self _, by rw [ha]; decide, by rw [ha]; rfl, Mem.Calls.extend h hx hop, h.above hop (Nat.le_refl _), fun _ => ⟨ha, rfl⟩,
      nofun, nofun, Mem.Checks.extend hx (h.checks_head hop), fun _ _ _ => rfl⟩
  · have hcalls := hk.calls rfl rfl
    rcases hnew with rfl | ⟨p, rest, w, rfl, hck, hw, rfl⟩
    · exact wf_single hcalls
    · obtain ⟨hp, hpw, hpf⟩ := hop p rest rfl
      exact wf_single ⟨hp.extend h hx, hpw, hpf, hck, hw, hcalls, _, _, _, _, rfl, hw⟩

/-- The result of a generator is for its parent. -/
theorem wf_result {p : Frame} {rest : List Frame} (h : Known m ops) (hx : m.Extends m') (hp : m.Calls (p :: rest)) (v : Val) (i : Nat) (e : Exc) :
    (Op.resume ⟨p, rest⟩ v i).WF m' ∧ (Op.error false ⟨p, rest⟩ e).WF m' := by
  obtain ⟨hk, hw, -⟩ := hp p rest rfl
  have hsent : p.sentinel = false := h.sentinel_of_call hk hw
  exact ⟨⟨hk.extend h hx, fun hs => absurd hs (by simp [hsent])⟩, hk.extend h hx, nofun, fun _ => hsent⟩

theorem Known.move (h : Known m (A ++ op :: B)) (hm : Move ws m op c m' new) : Known m' (A ++ (new ++ B)) := by
  have hop : op.WF m := h.ops op (by simp)
  have hx := hm.extends
  cases hm with
  | lock e hl hlock =>
    refine h.of_same hx ⟨rfl, rfl, rfl, rfl, rfl, rfl, rfl, rfl, rfl, rfl, rfl⟩ ?_
    cases hlock with
    | notify | sweep => exact wf_single trivial
    | unnotify => exact wf_single (fun y hy => (h.watchers e y hy).extend h hx)
    | addWaker x => exact wf_single (Waker.WF.extend h hx hop)
  | notifyPop e x q hq =>
    have hx := h.watchers e x (by simp [hq])
    exact h.of_setWatchers e q m.dirty (fun y hy => h.watchers e y (by simp [hq, hy])) (wf_pair ⟨hx.1, fun _ => rfl⟩ trivial)
  | sweepDrop e q x hq hd =>
    exact h.of_setWatchers e q m.dirty (fun y hy => h.watchers e y (by simp [hq, hy])) (wf_single trivial)
  | wakeNow e x hf =>
    exact h.of_same hx ⟨rfl, rfl, rfl, rfl, rfl, rfl, rfl, rfl, rfl, rfl, rfl⟩ (wf_pair ⟨hop.1, fun _ => rfl⟩ trivial)
  | checked e x hf => exact h.of_same hx ⟨rfl, rfl, rfl, rfl, rfl, rfl, rfl, rfl, rfl, rfl, rfl⟩ (wf_single hop)
  | push e x =>
    refine h.of_setWatchers e (m.watchers e ++ [x]) _ (fun y hy => ?_) (wf_single trivial)
    rcases List.mem_append.mp hy with hy | hy
    · exact h.watchers e y hy
    · exact List.mem_singleton.mp hy ▸ hop
  | resumePass S v i hfl ha => exact h.of_same hx ⟨rfl, rfl, rfl, rfl, rfl, rfl, rfl, rfl, rfl, rfl, rfl⟩ (wf_single hop)
  | decrementZero S v i hw hs h0 =>
    exact h.of_same hx ⟨rfl, rfl, rfl, rfl, rfl, rfl, rfl, rfl, rfl, rfl, rfl⟩ (wf_single ⟨(hw.wf h).1.extend h hx, hs⟩)
  | decrement S v i hw hs h0 h1 =>
    exact h.of_same hx ⟨rfl, rfl, rfl, rfl, rfl, rfl, rfl, rfl, rfl, rfl, rfl⟩ (wf_single ⟨(hw.wf h).1.extend h hx, hs, (hw.wf h).2 hs⟩)
  | decrementLast S v i hw hs h1 =>
    refine h.of_fire hx S (hw.wf h).1 rfl ⟨rfl, rfl, rfl, rfl, rfl, rfl, rfl, rfl, rfl, rfl, rfl⟩ (fun c hc => ?_)
      (wf_single ⟨(hw.wf h).1, hs, (hw.wf h).2 hs⟩)
    simp [Mem.fire, hc]
  | consume S v i hw hs hc =>
    refine h.of_fire hx S (hw.wf h).1 rfl ⟨rfl, rfl, rfl, rfl, rfl, rfl, rfl, rfl, rfl, rfl, rfl⟩ (fun c hc => ?_) (wf_single (hw.wf h).1)
    simp [Mem.fire, hc]
  | storeRes S i v last =>
    refine h.of_same hx ⟨rfl, rfl, rfl, rfl, rfl, rfl, rfl, rfl, rfl, rfl, rfl⟩ ?_
    cases last with
    | false => exact List.forall_mem_nil _
    | true => exact wf_single ⟨hop.1.extend h hx, hop.2.1⟩
  | fetchRes S => exact h.of_same hx ⟨rfl, rfl, rfl, rfl, rfl, rfl, rfl, rfl, rfl, rfl, rfl⟩ (wf_single hop.1)
  | errorNoop b S e t ht hd => exact h.errorNoop ht
  | errorSentinel b S e t ht hs h0 =>
    refine h.of_fire hx S hop.1 rfl ⟨rfl, rfl, rfl, rfl, rfl, rfl, rfl, rfl, rfl, rfl, rfl⟩ (fun c hc => ?_) (wf_single hop.1)
    subst ht
    cases b <;> simp [Mem.fire, hc]
  | errorConsume b S e t ht hs h0 =>
    refine h.of_fire hx S hop.1 rfl ⟨rfl, rfl, rfl, rfl, rfl, rfl, rfl, rfl, rfl, rfl, rfl⟩ (fun c hc => ?_) (wf_single hop.1)
    subst ht
    cases b <;> simp [Mem.fire, hc]
  | toHandleClear S input w hw => exact h.of_setPtr S.flavour w none (by simp) (wf_single (wf_handle input h hop))
  | toHandle S input hw =>
    exact h.of_same hx ⟨rfl, rfl, rfl, rfl, rfl, rfl, rfl, rfl, rfl, rfl, rfl⟩ (wf_single (wf_handle input h hop))
  | addHandle y => exact h.addHandle
  | addTimer S => exact h.addTimer
  | fromCheckpoint w coro ctx p rest hr he hp => exact h.fromCheckpoint hp
  | underCheckpoint w coro ctx p rest c hr he hp => exact h.underCheckpoint hp hx
  | hold e x q =>
    refine h.of_same hx ⟨rfl, rfl, rfl, rfl, rfl, rfl, rfl, rfl, rfl, rfl, rfl⟩ (wf_single ?_)
    exact fun y hy => (hop y (List.mem_cons_of_mem _ hy)).extend h hx
  | register w coro ctx parents hr he =>
    refine h.of_same hx ⟨rfl, rfl, rfl, rfl, rfl, rfl, rfl, rfl, rfl, rfl, rfl⟩ (wf_single ?_)
    exact ⟨Mem.Calls.extend h hx hop, Mem.Checks.extend hx (h.checks_head hop), (ws w).fits, (ws w).timed, nofun,
      fun _ => ⟨rfl, he⟩, fun h => absurd h he⟩
  | registerAsync w coro ctx checkpoint checkpoint' left timed hr he => exact h.registerAsync hx he
  | suspend fl coro ctx checkpoint parents events timed S hS => exact h.suspend hx hS
  | adoptLoad w c S =>
    exact h.of_same hx ⟨rfl, rfl, rfl, rfl, rfl, rfl, rfl, rfl, rfl, rfl, rfl⟩ (wf_single ⟨fun P hP => h.ptr .gen c P hP, hop⟩)
  | adoptSwap w p S => exact h.of_setPtr .gen w p hop.1 (wf_single hop.2)
  | checkAborted w S =>
    refine h.of_same hx ⟨rfl, rfl, rfl, rfl, rfl, rfl, rfl, rfl, rfl, rfl, rfl⟩ (wf_single ?_)
    split
    · exact ⟨hop.1.1, nofun, fun _ => hop.1.2.1⟩
    · exact ⟨hop.1.1, fun _ => rfl⟩
  | abortLoad fl w =>
    refine h.of_same hx ⟨rfl, rfl, rfl, rfl, rfl, rfl, rfl, rfl, rfl, rfl, rfl⟩ (fun x hx' => ?_)
    obtain ⟨S, hS, rfl⟩ := Option.map_eq_some_iff.mp (Option.mem_toList.mp hx')
    obtain ⟨hk, hc, -⟩ := h.ptr fl w S hS
    exact ⟨hk, fun _ => hc, nofun⟩
  | callChild parents coro ctx input new hnew => exact h.callChild hx hnew
  | ret parents coro ctx input v =>
    refine h.of_same hx ⟨rfl, rfl, rfl, rfl, rfl, rfl, rfl, rfl, rfl, rfl, rfl⟩ ?_
    cases parents with
    | nil => exact List.forall_mem_nil _
    | cons p rest => exact wf_single (wf_result h hx hop v p.order .cancelled).1
  | raise parents coro ctx input e =>
    refine h.of_same hx ⟨rfl, rfl, rfl, rfl, rfl, rfl, rfl, rfl, rfl, rfl, rfl⟩ ?_
    cases parents with
    | nil => exact List.forall_mem_nil _
    | cons p rest => exact wf_single (wf_result h hx hop .none p.order e).2
  | timer S => exact h.of_same hx ⟨rfl, rfl, rfl, rfl, rfl, rfl, rfl, rfl, rfl, rfl, rfl⟩ (wf_single ⟨hop.1, fun _ => rfl⟩)
  | enter w P y =>
    refine h.of_setPtr .gen w (some P) ?_ (wf_single hop.2.2.2.2.2.1)
    intro T hT
    obtain rfl := Option.some.inj hT
    exact ⟨hop.1, by simp [hop.2.2.2.2.1], hop.2.2.1⟩
  | clearPtr w => exact h.of_setPtr .async w none (by simp) (List.forall_mem_nil _)
  | again parents coro ctx input | yieldWaiter parents coro ctx input w =>
    exact h.of_same hx ⟨rfl, rfl, rfl, rfl, rfl, rfl, rfl, rfl, rfl, rfl, rfl⟩ (wf_single (Mem.Calls.extend h hx hop))
  | asyncAgain checkpoint coro ctx v | asyncWaiter checkpoint coro ctx v w =>
    exact h.of_same hx ⟨rfl, rfl, rfl, rfl, rfl, rfl, rfl, rfl, rfl, rfl, rfl⟩ (wf_single (Mem.Checks.extend hx hop))
  | asyncOver checkpoint coro ctx v o ho =>
    refine h.of_same hx ⟨rfl, rfl, rfl, rfl, rfl, rfl, rfl, rfl, rfl, rfl, rfl⟩ (fun x hx' => ?_)
    obtain ⟨w, hw, rfl⟩ := Option.map_eq_some_iff.mp (Option.mem_toList.mp hx')
    exact Mem.Checks.extend hx hop w hw
  | _ =>
    refine h.of_same hx ⟨rfl, rfl, rfl, rfl, rfl, rfl, rfl, rfl, rfl, rfl, rfl⟩ ?_
    first | exact List.forall_mem_nil _ | exact wf_single trivial

theorem Known.call {ops : List Op} {l : Call} (h : Known m ops) (hc : Started m l m' new) : Known m' (ops ++ new) := by
  -- a call only takes from the queues and starts operations
  have key : ∀ (hs : List Handle) (ts : List Susp) (n : Nat), (∀ y ∈ hs, y ∈ m.handles) → (∀ S ∈ ts, S ∈ m.timers) →
      (∀ x ∈ new, x.WF m) → Known { m with handles := hs, timers := ts, nextCoro := n } (ops ++ new) := by
    intro hs ts n hhs hts hnew
    have hx : m.Extends { m with handles := hs, timers := ts, nextCoro := n } := .of_eq rfl rfl rfl (fun _ => id)
    refine ⟨fun x hx' => ?_, fun e x hx' => (h.watchers e x hx').extend h hx, fun S hS => (h.timers S (hts S hS)).extend h hx,
      fun y hy => (h.handles y (hhs y hy)).extend h hx, fun fl w S hS => (h.ptr fl w S hS).extend h hx,
      fun S hS => (h.live S hS).extend h hx, fun c S hS => ⟨(h.made c S hS).1, (h.made c S hS).2.extend h hx⟩, h.fresh⟩
    rcases List.mem_append.mp hx' with hx' | hx'
    · exact (h.ops x hx').extend h hx
    · exact (hnew x hx').extend h hx
  cases hc with
  | set e | clear e | waiter e | abort fl w | io e =>
    exact key m.handles m.timers m.nextCoro (fun _ => id) (fun _ => id) (by simp [Op.WF, Handle.WF])
  | spawn fl ctx y hy =>
    refine key m.handles m.timers _ (fun _ => id) (fun _ => id) ?_
    rcases hy with ⟨-, rfl⟩ | ⟨-, rfl⟩ <;> simp [Op.WF, Handle.WF, Mem.Calls, Mem.Checks]
  | work k y hy =>
    refine key (m.handles.eraseIdx k) m.timers m.nextCoro (fun _ => List.mem_of_mem_eraseIdx) (fun _ => id) ?_
    simpa [Op.WF] using h.handles y (List.mem_of_getElem? hy)
  | fire k S hS =>
    refine key m.handles (m.timers.eraseIdx k) m.nextCoro (fun _ => id) (fun _ => List.mem_of_mem_eraseIdx) ?_
    simpa [Op.WF, Handle.WF] using h.timers S (List.mem_of_getElem? hS)

end

theorem known_initial : Known initial.mem initial.ops := by
  refine ⟨?_, ?_, ?_, ?_, ?_, ?_, ?_, ?_⟩ <;> simp [initial, State.ops, Mem.empty]

/-- In every run, what is referred to has been made. -/
theorem known_of_reach {ws : Nat → Waiter} {ok : Mem → List Op → Act Op Choice Call → Prop} {s : State Mem Op}
    (h : (machine ws).Reach ok initial s) : Known s.mem s.ops :=
  h.invariant known_initial (fun _ _ _ _ _ _ _ hk _ he => hk.move (exec_move he)) (fun _ _ _ _ _ hk _ hc => hk.call (call_started hc))

/-! ## How a suspension is made -/

/-- The suspension that an operation makes: the copy of a parent that becomes a checkpoint, the one of a checkpoint waiter, that of a call, or
that of a waiter with events. -/
inductive Made (ws : Nat → Waiter) (m m' : Mem) (new : List Op) : Op → Susp → Prop where
  | copied (w coro : Nat) (ctx : Option Nat) (p : Frame) (rest : List Frame) (hd : m'.detached = m.detached) :
      Made ws m m' new (.registerPygen w coro ctx (p :: rest)) ⟨checkpointFrame m p w, rest⟩
  | checkpoint (w coro : Nat) (ctx : Option Nat) (p : Frame) (rest : List Frame)
      (hnew : new = [.checkAborted w (checkpointSusp (m.nextCell + 1) coro ctx none (checkpointFrame m p w :: rest))]) :
      Made ws m m' new (.registerPygen w coro ctx (p :: rest))
        (checkpointSusp (m.nextCell + 1) coro ctx none (checkpointFrame m p w :: rest))
  | under (w coro : Nat) (ctx : Option Nat) (p : Frame) (rest : List Frame) (c : Nat) (he : (ws w).events = [])
      (hp : p.checkpoint = some c) :
      Made ws m m' new (.registerPygen w coro ctx (p :: rest)) (checkpointSusp m.nextCell coro ctx (some c) (p :: rest))
  | called (parents : List Frame) (coro : Nat) (ctx : Option Nat) (input : Input) :
      Made ws m m' new (.run (.gen parents coro ctx input)) (callSusp m coro ctx parents)
  | parked (fl : Flavour) (coro : Nat) (ctx checkpoint : Option Nat) (parents : List Frame) (events : List Nat) (timed : Bool) (S : Susp)
      (hS : S = m.suspension fl coro ctx checkpoint parents events) (ha : m'.awaits S.cell = events)
      (hnew : new = registration S events timed) : Made ws m m' new (.suspend fl coro ctx checkpoint parents events timed) S

/-- A suspension that is known after a step and was not before is made by it. -/
theorem Move.made {ws : Nat → Waiter} {m m' : Mem} {A B new : List Op} {op : Op} {c : Choice} {S : Susp} (hm : Move ws m op c m' new)
    (hk : Known m (A ++ op :: B)) (hS : m'.Knows S) (hfresh : m.nextCell ≤ S.cell) : Made ws m m' new op S := by
  have hno : ∀ {P : Prop}, m.made S.cell = some S → P := by
    intro P hold
    rw [(hk.fresh S.cell hfresh).1] at hold
    cases hold
  cases hm with
  | fromCheckpoint w coro ctx p rest hr he hp =>
    have hS : Function.update (Function.update m.made m.nextCell _) (m.nextCell + 1) _ S.cell = some S := hS
    by_cases h1 : S.cell = m.nextCell + 1
    · rw [h1, Function.update_self] at hS
      obtain rfl := Option.some.inj hS
      exact .checkpoint w coro ctx p rest rfl
    · rw [Function.update_of_ne h1] at hS
      by_cases h2 : S.cell = m.nextCell
      · rw [h2, Function.update_self] at hS
        obtain rfl := Option.some.inj hS
        exact .copied w coro ctx p rest rfl
      · rw [Function.update_of_ne h2] at hS
        exact hno hS
  | underCheckpoint w coro ctx p rest c' hr he hp =>
    have hS : Function.update m.made m.nextCell _ S.cell = some S := hS
    by_cases h1 : S.cell = m.nextCell
    · rw [h1, Function.update_self] at hS
      obtain rfl := Option.some.inj hS
      exact .under w coro ctx p rest c' he hp
    · rw [Function.update_of_ne h1] at hS
      exact hno hS
  | callChild parents coro ctx input new hnew =>
    have hS : Function.update m.made m.nextCell _ S.cell = some S := hS
    by_cases h1 : S.cell = m.nextCell
    · rw [h1, Function.update_self] at hS
      obtain rfl := Option.some.inj hS
      exact .called parents coro ctx input
    · rw [Function.update_of_ne h1] at hS
      exact hno hS
  | suspend fl coro ctx checkpoint parents events timed T hT =>
    have hS : Function.update m.made T.cell (some T) S.cell = some S := hS
    by_cases h1 : S.cell = T.cell
    · rw [h1, Function.update_self] at hS
      obtain rfl := Option.some.inj hS
      exact .parked fl coro ctx checkpoint parents events timed T hT (by simp [Mem.suspend, Mem.new]) rfl
    · rw [Function.update_of_ne h1] at hS
      exact hno hS
  | _ => exact hno hS

/-! ## Resolution -/

/-- A suspension that has not been resolved has not been scheduled, and without a sentinel it is resolved when it is consumed. -/
structure Resolved (m : Mem) : Prop where
  unfired : ∀ S ∈ m.live, m.fired S.cell = 0
  fired_eq : ∀ c S, m.made c = some S → S.sentinel = false → m.fired c = (m.consumed c).toNat
  live : ∀ c S, m.made c = some S → S.waits = true ∨ S.checkpoint.isSome = true → m.fired c = 0 → S ∈ m.live
  nodup : (m.live.map (·.cell)).Nodup

section

variable {ws : Nat → Waiter} {m m' : Mem} {A B new ops : List Op} {op : Op} {c : Choice}

/-- A suspension without a sentinel that has not been resolved has not been consumed. -/
theorem Resolved.consumed (h : Resolved m) (hk : Known m ops) {S : Susp} (hS : S ∈ m.live) (hs : S.sentinel = false) :
    m.consumed S.cell = false := by
  have h0 := h.fired_eq _ _ (hk.live S hS) hs
  rw [h.unfired S hS] at h0
  exact (Bool.toNat_eq_zero).mp h0.symm

theorem Resolved.of_same (h : Resolved m) (h1 : m'.live = m.live) (h2 : m'.fired = m.fired) (h3 : m'.made = m.made)
    (h4 : m'.consumed = m.consumed) : Resolved m' := by
  refine ⟨?_, ?_, ?_, ?_⟩
  · rw [h1, h2]
    exact h.unfired
  · rw [h2, h3, h4]
    exact h.fired_eq
  · rw [h1, h2, h3]
    exact h.live
  · rw [h1]
    exact h.nodup

/-- A step that resolves a suspension. -/
theorem Resolved.of_fire (h : Resolved m) (hkn : Known m ops) (S : Susp) (hk : m.Knows S)
    (h1 : m'.live = m.live.filter (·.cell ≠ S.cell))
    (h2 : m'.fired = Function.update m.fired S.cell (m.fired S.cell + 1)) (h3 : m'.made = m.made)
    (h4 : S.sentinel = false → m.consumed S.cell = false ∧ m'.consumed S.cell = true)
    (h5 : ∀ c, c ≠ S.cell → m'.consumed c = m.consumed c) : Resolved m' := by
  refine ⟨fun T hT => ?_, fun c T hT hs => ?_, fun c T hT hw h0 => ?_, ?_⟩
  · rw [h1] at hT
    obtain ⟨hT, hne⟩ := List.mem_filter.mp hT
    rw [h2, Function.update_of_ne (by simpa using hne)]
    exact h.unfired T hT
  · rw [h3] at hT
    by_cases hc : c = S.cell
    · subst hc
      obtain rfl : S = T := Option.some.inj (hk.symm.trans hT)
      obtain ⟨h6, h7⟩ := h4 hs
      rw [h2, Function.update_self, h.fired_eq _ _ hT hs, h6, h7]
      rfl
    · rw [h2, Function.update_of_ne hc, h5 c hc]
      exact h.fired_eq c T hT hs
  · rw [h3] at hT
    by_cases hc : c = S.cell
    · subst hc
      rw [h2, Function.update_self] at h0
      omega
    · rw [h2, Function.update_of_ne hc] at h0
      have hcell := (hkn.made c T hT).1
      rw [h1]
      exact List.mem_filter.mpr ⟨h.live c T hT hw h0, by simpa [hcell] using hc⟩
  · rw [h1]
    exact h.nodup.sublist (List.filter_sublist.map _)

/-- A step that makes a suspension, perhaps in place of one that called a child. -/
theorem Resolved.of_new (h : Resolved m) (hkn : Known m ops) (S : Susp) (q : List Susp) (hc : S.cell = m.nextCell)
    (hq : List.Sublist q m.live) (hw : ∀ T ∈ m.live, T.waits = true ∨ T.checkpoint.isSome = true → T ∈ q) (h1 : m'.live = q ++ [S])
    (h2 : m'.fired = m.fired)
    (h3 : m'.made = Function.update m.made S.cell (some S)) (h4 : m'.consumed = m.consumed) : Resolved m' := by
  obtain ⟨hnone, hcons, -, hfired, -⟩ := hkn.fresh S.cell (Nat.le_of_eq hc.symm)
  refine ⟨fun T hT => ?_, fun c T hT hs => ?_, fun c T hT hwT h0 => ?_, ?_⟩
  · rw [h1] at hT
    rw [h2]
    rcases List.mem_append.mp hT with hT | hT
    · exact h.unfired T (hq.subset hT)
    · rw [List.mem_singleton.mp hT]
      exact hfired
  · rw [h2, h4]
    by_cases hcell : c = S.cell
    · rw [hcell, hfired, hcons]
      rfl
    · rw [h3, Function.update_of_ne hcell] at hT
      exact h.fired_eq c T hT hs
  · rw [h2] at h0
    rw [h1, List.mem_append, List.mem_singleton]
    by_cases hcell : c = S.cell
    · rw [h3, hcell, Function.update_self] at hT
      exact Or.inr (Option.some.inj hT).symm
    · rw [h3, Function.update_of_ne hcell] at hT
      exact Or.inl (hw T (h.live c T hT hwT h0) hwT)
  · rw [h1, List.map_append, List.map_singleton, List.nodup_append]
    refine ⟨h.nodup.sublist (hq.map _), List.pairwise_singleton _ _, ?_⟩
    intro c hmem d hd hcd
    obtain ⟨T, hT, rfl⟩ := List.mem_map.mp hmem
    have hlt := hkn.lt (hkn.live T (hq.subset hT))
    rw [List.mem_singleton.mp hd] at hcd
    omega

theorem Resolved.move (h : Resolved m) (hk : Known m (A ++ op :: B)) (hm : Move ws m op c m' new) : Resolved m' := by
  have hop : op.WF m := hk.ops op (by simp)
  cases hm with
  | decrementLast S v i hw hs h1 =>
    exact h.of_fire hk S (hw.wf hk).1 rfl rfl rfl (by simp [hs]) (fun c _ => rfl)
  | consume S v i hw hs hc =>
    exact h.of_fire hk S (hw.wf hk).1 rfl rfl rfl (by simp [hc, Mem.fire]) (fun c hne => by simp [Mem.fire, hne])
  | errorSentinel b S e t ht hs h0 => exact h.of_fire hk S hop.1 rfl rfl rfl (by simp [hs]) (fun c _ => rfl)
  | errorConsume b S e t ht hs hc =>
    exact h.of_fire hk S hop.1 rfl rfl rfl (by simp [hc, Mem.fire]) (fun c hne => by simp [Mem.fire, hne])
  | fromCheckpoint w coro ctx p rest hr he hp =>
    obtain ⟨hkp, hpw, -⟩ := hop p rest rfl
    have h₁ : Resolved (m.copy p rest w) := by
      refine h.of_new hk _ (m.live.filter (·.cell ≠ p.cell)) rfl List.filter_sublist (fun T hT hwT => ?_) rfl rfl rfl rfl
      refine List.mem_filter.mpr ⟨hT, ?_⟩
      have hne : T.cell ≠ p.cell := by
        intro heq
        rw [(hk.live T hT).unique hkp heq] at hwT
        simp [hpw, hp] at hwT
      simpa using hne
    exact h₁.of_new (hk.copy w hp) _ _ rfl (List.Sublist.refl _) (fun _ h _ => h) rfl rfl rfl rfl
  | underCheckpoint w coro ctx p rest c hr he hp =>
    exact h.of_new hk _ m.live rfl (List.Sublist.refl _) (fun _ h _ => h) rfl rfl rfl rfl
  | suspend fl coro ctx checkpoint parents events timed S hS =>
    exact h.of_new hk S m.live (by rw [hS]; rfl) (List.Sublist.refl _) (fun _ h _ => h) rfl rfl rfl rfl
  | callChild parents coro ctx input new hnew =>
    exact h.of_new hk (callSusp m coro ctx parents) m.live rfl (List.Sublist.refl _) (fun _ h _ => h) rfl rfl rfl rfl
  | _ => exact h.of_same rfl rfl rfl rfl

end

/-- In every run, what is resolved has been scheduled. -/
theorem resolved_of_reach {ws : Nat → Waiter} {ok : Mem → List Op → Act Op Choice Call → Prop} {s : State Mem Op}
    (h : (machine ws).Reach ok initial s) : Resolved s.mem := by
  refine h.invariant_with (I := fun m _ => Resolved m) known_of_reach ⟨nofun, nofun, nofun, List.nodup_nil⟩ ?_ ?_
  · exact fun m A op B c m' new hk ih _ he => ih.move hk (exec_move he)
  · intro m ops l m' new hk ih _ hc
    cases call_started hc <;> exact ih.of_same rfl rfl rfl rfl

/-- A suspension with a sentinel is never consumed: its counter decides. -/
def Unconsumed (m : Mem) : Prop := ∀ S, m.Knows S → S.sentinel = true → m.consumed S.cell = false

theorem unconsumed_of_reach {ws : Nat → Waiter} {ok : Mem → List Op → Act Op Choice Call → Prop} {s : State Mem Op}
    (h : (machine ws).Reach ok initial s) : Unconsumed s.mem := by
  refine h.invariant_with (I := fun m _ => Unconsumed m) known_of_reach nofun ?_ ?_
  · intro m A op B c m' new hk ih _ he T hT hs
    have hm := exec_move he
    have hop := hk.ops op (by simp)
    have hold : m.Knows T ∨ m.nextCell ≤ T.cell := hm.extends.old hT
    have hc : m.consumed T.cell = false := hold.elim (fun h => ih T h hs) (fun h => (hk.fresh _ h).2.1)
    have hne : ∀ S, m.Knows S → S.sentinel = false → T.cell ≠ S.cell := by
      intro S hS hs' heq
      rcases hold with h | h
      · rw [h.unique hS heq, hs'] at hs
        cases hs
      · have := hk.lt hS
        omega
    cases hm with
    | consume S v i hw hs' _ => simpa [Mem.fire, hne S (hw.wf hk).1 hs'] using hc
    | errorConsume b S e t ht hs' _ => simpa [Mem.fire, hne S hop.1 hs'] using hc
    | _ => exact hc
  · intro m ops l m' new _ ih _ hc
    cases call_started hc <;> exact ih

end Tonio.Runtime
