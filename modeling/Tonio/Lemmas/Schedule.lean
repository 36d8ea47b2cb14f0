import Tonio.Schedule

/-!
# The handshake of arming and waking

What holds around one `ScheduledIO` (`Handshake`): one thread holds the mutex; when a slot is filled, or about to be filled by a
thread past its second look at the word, and the word has a bit for it, the thread that published the bit has not taken the slots
yet. The wake needs the mutex, so it cannot fall between the second look and the filling of the slot.
-/

namespace Tonio.Schedule

open Interleaving

variable {m m' : Mem} {A B new ops : List Op} {op : Op} {c : Choice} {d : Dir}

/-! ## Bits -/

/-- The bits of the word that keep a direction from arming. -/
def Dir.bits (d : Dir) : Word := d.mask ||| SHUTDOWN

theorem getLsbD_bits (d : Dir) {i : Nat} (hi : 6 ≤ i) : d.bits.getLsbD i = false := by
  have hlt : d.bits.toNat < 2 ^ 6 := by cases d <;> decide
  exact Nat.testBit_lt_two_pow (Nat.lt_of_lt_of_le hlt (Nat.pow_le_pow_right (by decide) hi))

/-- The tick is outside of the bits. -/
theorem tick_and_bits (t : BitVec 8) (d : Dir) : (t.setWidth 64 <<< TICK_SHIFT) &&& d.bits = 0 := by
  refine BitVec.eq_of_getLsbD_eq (fun i _ => ?_)
  by_cases h6 : i < 6
  · simp [TICK_SHIFT, h6]
  · rw [BitVec.getLsbD_and, getLsbD_bits d (Nat.le_of_not_lt h6)]
    simp

/-- `set_readiness` sets the bits of the readiness and keeps the others. -/
theorem setReadiness_and_bits (ready curr : Word) (d : Dir) :
    setReadiness ready curr &&& d.bits = (curr &&& d.bits) ||| (ready &&& d.bits) := by
  have hmask : ~~~TICK_MASK &&& d.bits = d.bits := by cases d <;> decide
  unfold setReadiness
  rw [BitVec.and_or_distrib_right, BitVec.and_or_distrib_right, tick_and_bits, BitVec.and_assoc, hmask]
  simp

/-- Clearing bits sets none. -/
theorem and_not_and_eq_zero {w x y : Word} (h : w &&& y = 0) : (w &&& ~~~x) &&& y = 0 := by
  rw [BitVec.and_assoc, BitVec.and_comm (~~~x), ← BitVec.and_assoc, h]
  simp

/-- Clearing the bits of a direction keeps the shutdown bit. -/
theorem and_not_mask_and_shutdown (w : Word) (d : Dir) : (w &&& ~~~d.mask) &&& SHUTDOWN = w &&& SHUTDOWN := by
  have hmask : ~~~d.mask &&& SHUTDOWN = SHUTDOWN := by cases d <;> decide
  rw [BitVec.and_assoc, hmask]

theorem setReadiness_and_shutdown (ready curr : Word) :
    setReadiness ready curr &&& SHUTDOWN = (curr &&& SHUTDOWN) ||| (ready &&& SHUTDOWN) := by
  have hbits : Dir.r.bits &&& SHUTDOWN = SHUTDOWN := by decide
  have h := congrArg (· &&& SHUTDOWN) (setReadiness_and_bits ready curr .r)
  simp only [BitVec.and_or_distrib_right, BitVec.and_assoc, hbits] at h
  exact h

/-- The readiness of an event meets the bits of a direction only in its mask. -/
theorem readinessFromEvent_and_bits (event : IoEvent) (d : Dir) :
    readinessFromEvent event &&& d.bits = readinessFromEvent event &&& d.mask := by
  obtain ⟨a, b, c, e, f⟩ := event
  cases a <;> cases b <;> cases c <;> cases e <;> cases f <;> cases d <;> decide

theorem slotOf_mask (d : Dir) : slotOf d.mask = d := by
  cases d <;> decide

/-- A shutdown wakes both directions. -/
theorem all_and_mask (d : Dir) : (READ_ALL ||| WRITE_ALL) &&& d.mask ≠ 0 := by
  cases d <;> decide

/-- A word with the shutdown bit keeps every direction from arming. -/
theorem and_bits_ne_zero {w : Word} (h : w &&& SHUTDOWN ≠ 0) (d : Dir) : w &&& d.bits ≠ 0 := by
  intro h0
  rw [Dir.bits, BitVec.and_or_distrib_left] at h0
  exact h (BitVec.or_eq_zero_iff.mp h0).2

/-! ## The steps -/

/-- What an operation does. -/
inductive Move (m : Mem) : Op → Mem → List Op → Prop where
  | refused (d : Dir) : Move m (.armLoad d) m [.loadTick d]
  | armLoad (d : Dir) : Move m (.armLoad d) { m with next := m.next + 1 } [.armLock d m.next]
  | armLock (d : Dir) (e : Nat) (hx : m.mutex = false) : Move m (.armLock d e) { m with mutex := true } [.armCheck d e]
  | checked (d : Dir) (e : Nat) : Move m (.armCheck d e) m [.unlock, .loadTick d]
  | armCheck (d : Dir) (e : Nat) (hb : m.readiness &&& d.bits = 0) : Move m (.armCheck d e) m [.armFill d e]
  | armFill (d : Dir) (e : Nat) :
      Move m (.armFill d e) { m with slot := Function.update m.slot d (some e), due := Function.update m.due d false }
        [.unlock, .parked d e]
  | loadTick (d : Dir) : Move m (.loadTick d) m [.storeTick d (tickOf m.readiness)]
  | storeTick (d : Dir) (tick : BitVec 8) : Move m (.storeTick d tick) { m with tick := Function.update m.tick d tick } []
  | woken (d : Dir) (e : Nat) : Move m (.parked d e) m []
  | clearTick (d : Dir) : Move m (.clearTick d) m [.clearWord d (m.tick d)]
  | lower {x : Op} (d : Dir) (w : Word) (hx : (∃ tick, x = .clearWord d tick) ∨ x = .consumeWord d)
      (hw : w = m.readiness ∨ w = m.readiness &&& ~~~d.mask) : Move m x { m with readiness := w } []
  | setReadiness (event : IoEvent) :
      Move m (.setReadiness event) (m.publish (setReadiness (readinessFromEvent event) m.readiness) (readinessFromEvent event))
        [.wakeLock .poller (readinessFromEvent event)]
  | setShutdown :
      Move m .setShutdown (m.publish (m.readiness ||| SHUTDOWN) (READ_ALL ||| WRITE_ALL))
        [.wakeLock .shutdown (READ_ALL ||| WRITE_ALL)]
  | wakeLock (who : Waker) (ready : Word) (hx : m.mutex = false) :
      Move m (.wakeLock who ready) { m with mutex := true } [.wakeTake who ready]
  | wakeTake (who : Waker) (ready : Word) :
      Move m (.wakeTake who ready) { m.take ready with shut := m.shut || decide (who = .shutdown) }
        (.unlock :: (m.taken ready .r ++ m.taken ready .w))
  | addIoHandle (e : Nat) : Move m (.addIoHandle e) { m with woken := Function.update m.woken e true } []
  | unlock : Move m .unlock { m with mutex := false } []

/-- Every step is one of these. -/
theorem exec_move (he : exec m op c = some (m', new)) : Move m op m' new := by
  cases op
  all_goals
    cases c <;> simp only [exec, reduceCtorEq, Option.some.injEq, Prod.mk.injEq] at he
  case armLoad.go d =>
    split at he
    · obtain ⟨rfl, rfl⟩ : _ ∧ _ := by simpa using he
      exact .refused d
    · obtain ⟨rfl, rfl⟩ : _ ∧ _ := by simpa using he
      exact .armLoad d
  case armLock.go d e =>
    split at he
    · cases he
    · rename_i hx
      obtain ⟨rfl, rfl⟩ : _ ∧ _ := by simpa using he
      exact .armLock d e (by simpa using hx)
  case armCheck.go d e =>
    split at he
    · obtain ⟨rfl, rfl⟩ : _ ∧ _ := by simpa using he
      exact .checked d e
    · rename_i hb
      obtain ⟨rfl, rfl⟩ : _ ∧ _ := by simpa using he
      exact .armCheck d e (Classical.not_not.mp hb)
  case armFill.go d e =>
    obtain ⟨rfl, rfl⟩ := he
    rw [slotOf_mask]
    exact .armFill d e
  case parked.go d e =>
    split at he
    · obtain ⟨rfl, rfl⟩ : _ ∧ _ := by simpa using he
      exact .woken d e
    · cases he
  case clearWord.go d tick =>
    obtain ⟨rfl, rfl⟩ := he
    refine .lower d _ (Or.inl ⟨tick, rfl⟩) ?_
    unfold clear
    split <;> simp
  case consumeWord.go d =>
    obtain ⟨rfl, rfl⟩ := he
    refine .lower d _ (Or.inr rfl) ?_
    unfold consume
    split <;> simp
  case wakeLock.go who ready =>
    split at he
    · cases he
    · rename_i hx
      obtain ⟨rfl, rfl⟩ : _ ∧ _ := by simpa using he
      exact .wakeLock who ready (by simpa using hx)
  all_goals
    obtain ⟨rfl, rfl⟩ := he
    constructor

/-! ## The mutex -/

/-- The operations of a thread that holds the mutex. -/
def holding : Op → Nat
  | .armCheck _ _ | .armFill _ _ | .wakeTake _ _ | .unlock => 1
  | _ => 0

theorem holding_taken (ready : Word) (d : Dir) : total holding (m.taken ready d) = 0 := by
  unfold Mem.taken
  split
  · cases m.slot d <;> rfl
  · rfl

/-- One thread holds the mutex while it is locked. -/
theorem mutex_of_reach {ok : Mem → List Op → Act Op Choice Call → Prop} {s : State Mem Op} (h : machine.Reach ok initial s) :
    total holding s.ops = s.mem.mutex.toNat := by
  refine h.invariant (I := fun m ops => total holding ops = m.mutex.toNat) rfl ?_ ?_
  · intro m A op B c m' new ih _ he
    have hstep : total holding new + m.mutex.toNat = holding op + m'.mutex.toNat ∨ (op = .unlock ∧ new = [] ∧ m'.mutex = false) := by
      cases exec_move he with
      | armLock d e hx | wakeLock who ready hx => exact Or.inl (by simp [holding, hx])
      | wakeTake who ready =>
        exact Or.inl (by simp [holding, holding_taken, Mem.take, Nat.add_comm])
      | lower d w hop => rcases hop with ⟨tick, rfl⟩ | rfl <;> exact Or.inl (by simp [holding])
      | unlock => exact Or.inr ⟨rfl, rfl, rfl⟩
      | _ => exact Or.inl (by simp [holding, Mem.publish, Nat.add_comm])
    rcases hstep with hstep | ⟨rfl, rfl, h0⟩
    · simp only [total_append, total_cons] at ih ⊢
      omega
    · have := Bool.toNat_le m.mutex
      simp only [total_append, total_cons, holding, total_nil, h0, Bool.toNat_false] at ih ⊢
      omega
  · intro m ops l m' new ih _ hc
    cases l <;> simp only [machine, call, Option.some.injEq, Prod.mk.injEq] at hc <;> obtain ⟨rfl, rfl⟩ := hc <;>
      simpa [holding] using ih

/-! ## The handshake -/

/-- A slot is filled, or a thread is about to fill it that has seen no bit for it under the mutex. -/
def Wants (m : Mem) (ops : List Op) (d : Dir) : Prop := m.slot d ≠ none ∨ ∃ e, Op.armFill d e ∈ ops

/-- The threads that published readiness for a filled slot have their wake still to do; a shutdown takes both slots, and nothing is put
into them after it. -/
structure Handshake (m : Mem) (ops : List Op) : Prop where
  ready : ∀ d, m.readiness &&& d.bits ≠ 0 → Wants m ops d → ∃ x ∈ ops, x.wakes d = true
  due : ∀ d, m.due d = true → m.slot d ≠ none → ∃ x ∈ ops, x.wakes d = true
  down : ∀ ready, Op.wakeLock .shutdown ready ∈ ops ∨ Op.wakeTake .shutdown ready ∈ ops →
    ready = READ_ALL ||| WRITE_ALL ∧ m.readiness &&& SHUTDOWN ≠ 0
  shut : m.shut = true → m.readiness &&& SHUTDOWN ≠ 0 ∧ ∀ d, ¬Wants m ops d

/-- No step clears the shutdown bit. -/
theorem Move.shutdown (h : Move m op m' new) (hs : m.readiness &&& SHUTDOWN ≠ 0) : m'.readiness &&& SHUTDOWN ≠ 0 := by
  cases h with
  | lower d w hx hw =>
    rcases hw with rfl | rfl
    · exact hs
    · rwa [and_not_mask_and_shutdown]
  | setReadiness event =>
    show Schedule.setReadiness _ _ &&& SHUTDOWN ≠ 0
    rw [setReadiness_and_shutdown]
    exact fun h0 => hs (BitVec.or_eq_zero_iff.mp h0).1
  | setShutdown =>
    show (m.readiness ||| SHUTDOWN) &&& SHUTDOWN ≠ 0
    rw [BitVec.and_or_distrib_right]
    exact fun h0 => hs (BitVec.or_eq_zero_iff.mp h0).1
  | _ => exact hs

/-- A bit for a direction was there before a step, or its wake follows from the step. -/
theorem Move.bits (h : Move m op m' new) (hb : m'.readiness &&& d.bits ≠ 0) :
    m.readiness &&& d.bits ≠ 0 ∨ ∃ x ∈ new, x.wakes d = true := by
  cases h with
  | lower e w hx hw =>
    left
    rcases hw with rfl | rfl
    · exact hb
    · exact fun h0 => hb (and_not_and_eq_zero h0)
  | setReadiness event =>
    by_cases h0 : readinessFromEvent event &&& d.mask = 0
    · left
      intro hm
      apply hb
      show Schedule.setReadiness _ _ &&& d.bits = 0
      rw [setReadiness_and_bits, hm, readinessFromEvent_and_bits, h0]
      rfl
    · exact Or.inr ⟨_, List.mem_singleton_self _, by simpa [Op.wakes] using h0⟩
  | setShutdown => exact Or.inr ⟨_, List.mem_singleton_self _, by simpa [Op.wakes] using all_and_mask d⟩
  | _ => exact Or.inl hb

/-- A slot that is due after a step was due before, or its wake follows from the step. -/
theorem Move.due (h : Move m op m' new) (hd : m'.due d = true) (hs : m'.slot d ≠ none) :
    (m.due d = true ∧ m.slot d ≠ none) ∨ ∃ x ∈ new, x.wakes d = true := by
  cases h with
  | armFill e n =>
    by_cases hde : d = e
    · subst hde
      simp at hd
    · simp only [Function.update_of_ne hde] at hd hs
      exact Or.inl ⟨hd, hs⟩
  | setReadiness event =>
    simp only [Mem.publish, Bool.or_eq_true] at hd
    rcases hd with hd | hd
    · exact Or.inl ⟨hd, hs⟩
    · exact Or.inr ⟨_, List.mem_singleton_self _, hd⟩
  | setShutdown => exact Or.inr ⟨_, List.mem_singleton_self _, by simpa [Op.wakes] using all_and_mask d⟩
  | wakeTake who ready =>
    simp only [Mem.take] at hs
    split at hs
    · exact absurd rfl hs
    · exact Or.inl ⟨hd, hs⟩
  | _ => exact Or.inl ⟨hd, hs⟩

/-- A filling of a slot follows from a second look at a word without a bit for it. -/
theorem Move.armFill_mem (h : Move m op m' new) {e : Nat} (hx : Op.armFill d e ∈ new) :
    m.readiness &&& d.bits = 0 ∧ m'.readiness = m.readiness := by
  cases h with
  | armCheck d' e' hb =>
    obtain ⟨rfl, rfl⟩ : _ ∧ _ := by simpa using hx
    exact ⟨hb, rfl⟩
  | wakeTake who ready =>
    simp only [List.mem_cons, List.mem_append, reduceCtorEq, false_or] at hx
    unfold Mem.taken at hx
    rcases hx with hx | hx <;> split at hx <;> simp at hx
  | _ => simp at hx

/-- A slot that is filled or about to be was so before a step, or the step is a second look at a word without a bit for it. -/
theorem Move.wants (h : Move m op m' new) (hw : Wants m' (A ++ (new ++ B)) d) :
    Wants m (A ++ op :: B) d ∨ (m.readiness &&& d.bits = 0 ∧ m'.readiness = m.readiness) := by
  rcases hw with hs | ⟨e, he⟩
  · left
    cases h with
    | armFill d' e =>
      by_cases hd : d = d'
      · subst hd
        exact Or.inr ⟨e, by simp⟩
      · simp only [Function.update_of_ne hd] at hs
        exact Or.inl hs
    | wakeTake who ready =>
      simp only [Mem.take] at hs
      split at hs
      · exact absurd rfl hs
      · exact Or.inl hs
    | _ => exact Or.inl hs
  · rcases Machine.mem_cases op he with hn | ho
    · exact Or.inr (h.armFill_mem hn)
    · exact Or.inl (Or.inr ⟨e, ho⟩)

/-- The wake takes the slot, and nobody is about to fill it: the thread that fills a slot would hold the mutex as well. -/
theorem not_wants_of_wakeTake {who : Waker} {ready : Word} {b : Bool} (hmeet : ready &&& d.mask ≠ 0)
    (hx : total holding (A ++ .wakeTake who ready :: B) ≤ 1) :
    ¬Wants { m.take ready with shut := b } (A ++ (.unlock :: (m.taken ready .r ++ m.taken ready .w) ++ B)) d := by
  rintro (hs | ⟨e, he⟩)
  · simp only [Mem.take] at hs
    rw [if_pos hmeet] at hs
    exact hs rfl
  · rcases Machine.mem_beside he with hn | ho
    · simp only [List.mem_cons, List.mem_append, reduceCtorEq, false_or] at hn
      unfold Mem.taken at hn
      rcases hn with hn | hn <;> split at hn <;> simp at hn
    · have := eq_zero_of_total_le hx rfl _ ho
      cases this

/-- A wake that is pending is so after a step, or it has taken the slot and nobody is about to fill it. -/
theorem Move.wakes (h : Move m op m' new) (hm : total holding (A ++ op :: B) ≤ 1) (hw : ∃ x ∈ A ++ op :: B, x.wakes d = true) :
    (∃ x ∈ A ++ (new ++ B), x.wakes d = true) ∨ ¬Wants m' (A ++ (new ++ B)) d := by
  obtain ⟨x, hx, hxw⟩ := hw
  by_cases hxo : x = op
  · subst hxo
    cases h with
    | wakeLock who ready => exact Or.inl ⟨.wakeTake who ready, Machine.mem_new (by simp), hxw⟩
    | wakeTake who ready => exact Or.inr (not_wants_of_wakeTake (by simpa [Op.wakes] using hxw) hm)
    | lower e w hop => rcases hop with ⟨tick, rfl⟩ | rfl <;> cases hxw
    | _ => cases hxw
  · exact Or.inl ⟨x, Machine.mem_keep hx hxo, hxw⟩

/-- The wake of a shutdown follows from the shutdown. -/
theorem Move.down (h : Move m op m' new) {ready : Word}
    (hx : Op.wakeLock .shutdown ready ∈ new ∨ Op.wakeTake .shutdown ready ∈ new) :
    (ready = READ_ALL ||| WRITE_ALL ∧ m'.readiness &&& SHUTDOWN ≠ 0) ∨ op = .wakeLock .shutdown ready := by
  cases h with
  | setShutdown =>
    left
    refine ⟨by simpa using hx, ?_⟩
    show (m.readiness ||| SHUTDOWN) &&& SHUTDOWN ≠ 0
    rw [BitVec.and_or_distrib_right]
    exact fun h0 => absurd (BitVec.or_eq_zero_iff.mp h0).2 (by decide)
  | wakeLock who r hmx =>
    obtain ⟨rfl, rfl⟩ : _ ∧ _ := by simpa using hx
    exact Or.inr rfl
  | wakeTake who r =>
    simp only [Mem.taken, List.mem_cons, List.mem_append, reduceCtorEq, false_or] at hx
    rcases hx with (hx | hx) | hx | hx <;> split at hx <;> simp at hx
  | _ => simp at hx

theorem Handshake.move (h : Handshake m (A ++ op :: B)) (hx : total holding (A ++ op :: B) ≤ 1) (hm : Move m op m' new) :
    Handshake m' (A ++ (new ++ B)) where
  ready := by
    intro d hb hw
    rcases hm.bits hb with hb' | ⟨x, hn, hxw⟩
    · rcases hm.wants hw with hw' | ⟨h0, -⟩
      · rcases hm.wakes hx (h.ready d hb' hw') with hex | hno
        · exact hex
        · exact absurd hw hno
      · exact absurd h0 hb'
    · exact ⟨x, Machine.mem_new hn, hxw⟩
  due := by
    intro d hd hs
    rcases hm.due hd hs with ⟨hd', hs'⟩ | ⟨x, hn, hxw⟩
    · rcases hm.wakes hx (h.due d hd' hs') with hex | hno
      · exact hex
      · exact absurd (Or.inl hs) hno
    · exact ⟨x, Machine.mem_new hn, hxw⟩
  down := by
    intro ready hr
    have hcases : (Op.wakeLock .shutdown ready ∈ new ∨ Op.wakeTake .shutdown ready ∈ new) ∨
        (Op.wakeLock .shutdown ready ∈ A ++ op :: B ∨ Op.wakeTake .shutdown ready ∈ A ++ op :: B) := by
      rcases hr with hr | hr <;> rcases Machine.mem_cases op hr with hr | hr <;> simp only [hr, true_or, or_true]
    rcases hcases with hn | ho
    · rcases hm.down hn with hdone | rfl
      · exact hdone
      · obtain ⟨h1, h2⟩ := h.down ready (by simp)
        exact ⟨h1, hm.shutdown h2⟩
    · obtain ⟨h1, h2⟩ := h.down ready ho
      exact ⟨h1, hm.shutdown h2⟩
  shut := by
    intro hs
    by_cases hold : m.shut = true
    · obtain ⟨h1, h2⟩ := h.shut hold
      refine ⟨hm.shutdown h1, fun d hw => ?_⟩
      rcases hm.wants hw with hw | ⟨h0, -⟩
      · exact h2 d hw
      · exact and_bits_ne_zero h1 d h0
    · cases hm with
      | wakeTake who ready =>
        obtain rfl : who = .shutdown := by simpa [hold] using hs
        obtain ⟨rfl, h2⟩ := h.down ready (by simp)
        exact ⟨h2, fun d => not_wants_of_wakeTake (all_and_mask d) hx⟩
      | _ => exact absurd hs hold

theorem handshake_of_reach {ok : Mem → List Op → Act Op Choice Call → Prop} {s : State Mem Op} (h : machine.Reach ok initial s) :
    Handshake s.mem s.ops := by
  refine h.invariant_with (I := Handshake) (J := fun m ops => total holding ops = m.mutex.toNat) mutex_of_reach ?_ ?_ ?_
  · exact ⟨fun d hb => absurd (by cases d <;> decide) hb, fun d hd => absurd hd Bool.false_ne_true,
      fun ready hr => absurd hr (by simp [initial, State.ops]), fun hs => absurd hs Bool.false_ne_true⟩
  · intro m A op B c m' new hx hI _ he
    have := Bool.toNat_le m.mutex
    exact hI.move (by omega) (exec_move he)
  · intro m ops l m' new _ hI _ hc
    have hnew : m' = m ∧ (∀ d e, Op.armFill d e ∉ new) ∧ ∀ who ready, Op.wakeLock who ready ∉ new ∧ Op.wakeTake who ready ∉ new := by
      cases l <;> simp only [machine, call, Option.some.injEq, Prod.mk.injEq] at hc <;> obtain ⟨rfl, rfl⟩ := hc <;> simp
    obtain ⟨rfl, hfill, hwake⟩ := hnew
    have hwants : ∀ d, Wants m' (ops ++ new) d → Wants m' ops d := by
      rintro d (hs | ⟨e, he⟩)
      · exact Or.inl hs
      · rcases List.mem_append.mp he with he | he
        · exact Or.inr ⟨e, he⟩
        · exact absurd he (hfill d e)
    have hkeep : ∀ d, (∃ x ∈ ops, x.wakes d = true) → ∃ x ∈ ops ++ new, x.wakes d = true := by
      rintro d ⟨x, hx, hxw⟩
      exact ⟨x, List.mem_append_left _ hx, hxw⟩
    refine ⟨fun d hb hw => hkeep d (hI.ready d hb (hwants d hw)), fun d hd hs => hkeep d (hI.due d hd hs), fun ready hr => ?_,
      fun hs => ⟨(hI.shut hs).1, fun d hw => (hI.shut hs).2 d (hwants d hw)⟩⟩
    refine hI.down ready ?_
    rcases hr with hr | hr <;> rcases List.mem_append.mp hr with hr | hr
    · exact Or.inl hr
    · exact absurd hr (hwake _ _).1
    · exact Or.inr hr
    · exact absurd hr (hwake _ _).2

/-! ## The tasks that are parked -/

/-- Whether an operation is of a live task of a direction. -/
def liveIn (d : Dir) (op : Op) : Nat := isAt op.live d

/-- A direction has one live task, and the event of a task that is parked is in the slot, or has been scheduled, or is about to be. -/
structure Attended (m : Mem) (ops : List Op) : Prop where
  live : ∀ d, total (liveIn d) ops ≤ 1
  parked : ∀ d e, Op.parked d e ∈ ops → m.woken e = true ∨ Op.addIoHandle e ∈ ops ∨ m.slot d = some e

theorem liveIn_taken (ready : Word) (d d' : Dir) : total (liveIn d) (m.taken ready d') = 0 := by
  unfold Mem.taken
  split
  · cases m.slot d' <;> rfl
  · rfl

theorem Move.live (h : Move m op m' new) (d : Dir) : total (liveIn d) new ≤ liveIn d op := by
  cases h with
  | wakeTake who ready => simp [liveIn_taken, liveIn, Op.live]
  | lower e w hx => simp
  | _ => simp [liveIn, Op.live]

/-- The event of a task that is parked stays in the slot, or is taken from it by a wake that schedules it. -/
theorem Move.slot (h : Move m op m' new) {e : Nat} (hs : m.slot d = some e) (hl : ∀ e', op ≠ .armFill d e') :
    m'.slot d = some e ∨ Op.addIoHandle e ∈ new := by
  cases h with
  | armFill d' e' =>
    by_cases hd : d = d'
    · subst hd
      exact absurd rfl (hl e')
    · exact Or.inl (by simpa [Function.update_of_ne hd] using hs)
  | wakeTake who ready =>
    by_cases hmeet : ready &&& d.mask = 0
    · left
      simpa [Mem.take, hmeet] using hs
    · right
      have htaken : Op.addIoHandle e ∈ m.taken ready d := by
        unfold Mem.taken
        rw [if_pos hmeet, hs]
        simp
      cases d
      · exact List.mem_cons_of_mem _ (List.mem_append_left _ htaken)
      · exact List.mem_cons_of_mem _ (List.mem_append_right _ htaken)
  | _ => exact Or.inl hs

/-- A parked task follows from the filling of its slot. -/
theorem Move.parked_mem (h : Move m op m' new) {e : Nat} (hx : Op.parked d e ∈ new) : m'.slot d = some e := by
  cases h with
  | armFill d' e' =>
    obtain ⟨rfl, rfl⟩ : _ ∧ _ := by simpa using hx
    simp
  | wakeTake who ready =>
    simp only [List.mem_cons, List.mem_append, reduceCtorEq, false_or] at hx
    unfold Mem.taken at hx
    rcases hx with hx | hx <;> split at hx <;> simp at hx
  | _ => simp at hx

theorem Move.keeps_woken (h : Move m op m' new) {e : Nat} (hw : m.woken e = true ∨ op = .addIoHandle e) : m'.woken e = true := by
  cases h with
  | addIoHandle e' =>
    by_cases he : e = e'
    · subst he
      simp
    · rcases hw with hw | hw
      · simpa [Function.update_of_ne he] using hw
      · exact absurd (by simpa using hw.symm) he
  | lower d w hx =>
    rcases hw with hw | rfl
    · exact hw
    · rcases hx with ⟨tick, hx⟩ | hx <;> cases hx
  | _ =>
    rcases hw with hw | hw
    · exact hw
    · cases hw

/-- The event of a task that is parked has been scheduled, or is about to be, or is in the slot of its direction. -/
def Kept (m : Mem) (ops : List Op) : Prop :=
  ∀ d e, Op.parked d e ∈ ops → m.woken e = true ∨ Op.addIoHandle e ∈ ops ∨ m.slot d = some e

/-- An event that is kept stays so, unless a task fills the slot it is in while its own task is parked. -/
theorem Kept.move (h : Kept m (A ++ op :: B)) (hm : Move m op m' new)
    (hfill : ∀ d e e', op = .armFill d e' → m.slot d = some e → Op.parked d e ∉ A ++ B) : Kept m' (A ++ (new ++ B)) := by
  intro d e hx
  rcases Machine.mem_beside hx with hn | ho
  · exact Or.inr (Or.inr (hm.parked_mem hn))
  · have hin : Op.parked d e ∈ A ++ op :: B := Machine.mem_before op ho
    rcases h d e hin with hw | ha | hs
    · exact Or.inl (hm.keeps_woken (Or.inl hw))
    · by_cases hop : Op.addIoHandle e = op
      · exact Or.inl (hm.keeps_woken (Or.inr hop.symm))
      · exact Or.inr (Or.inl (Machine.mem_keep ha hop))
    · rcases hm.slot hs (fun e' hop => hfill d e e' hop hs ho) with hs | ha
      · exact Or.inr (Or.inr hs)
      · exact Or.inr (Or.inl (Machine.mem_new ha))

/-- A call parks no task. -/
theorem Kept.call {l : Call} (h : Kept m ops) (hc : machine.call m l = some (m', new)) : Kept m' (ops ++ new) := by
  have hnew : m' = m ∧ ∀ d e, Op.parked d e ∉ new := by
    cases l <;> simp only [machine, Schedule.call, Option.some.injEq, Prod.mk.injEq] at hc <;> obtain ⟨rfl, rfl⟩ := hc <;> simp
  obtain ⟨rfl, hp⟩ := hnew
  intro d e hx
  rcases List.mem_append.mp hx with hx | hx
  · rcases h d e hx with hw | ha | hs
    · exact Or.inl hw
    · exact Or.inr (Or.inl (List.mem_append_left _ ha))
    · exact Or.inr (Or.inr hs)
  · exact absurd hx (hp d e)

theorem Attended.move (h : Attended m (A ++ op :: B)) (hm : Move m op m' new) : Attended m' (A ++ (new ++ B)) where
  live := by
    intro d
    have h1 := h.live d
    have h2 := hm.live d
    have h3 := total_step (liveIn d) A B new op
    omega
  parked := by
    -- a task about to fill the slot would be another live task of the direction
    refine Kept.move h.parked hm (fun d e e' hop _ hp => ?_)
    subst hop
    exact key_ne_of_total_le (h.live d) rfl hp rfl

theorem attended_of_reach {s : State Mem Op} (h : machine.Reach (fun _ ops a => Single ops a) initial s) :
    Attended s.mem s.ops := by
  refine h.invariant (I := Attended) ?_ ?_ ?_
  · exact ⟨fun d => Nat.zero_le 1, fun d e hx => absurd hx List.not_mem_nil⟩
  · exact fun m A op B c m' new hI _ he => hI.move (exec_move he)
  · intro m ops l m' new hI hok hc
    refine ⟨fun d => ?_, Kept.call hI.parked hc⟩
    rw [total_append]
    cases l with
    | arm d' =>
      obtain ⟨rfl, rfl⟩ : _ ∧ _ := by simpa [machine, call] using hc
      by_cases hd : d' = d
      · subst hd
        have : total (liveIn d') ops = 0 := total_eq_zero_iff.mpr (fun x hx => isAt_of_ne (hok x hx))
        simp [this, liveIn, Op.live]
      · have := hI.live d
        simpa [liveIn, Op.live, isAt_some_of_ne hd] using this
    | _ =>
      obtain ⟨rfl, rfl⟩ : _ ∧ _ := by simpa [machine, call] using hc
      simpa [liveIn, Op.live] using hI.live d

end Tonio.Schedule
