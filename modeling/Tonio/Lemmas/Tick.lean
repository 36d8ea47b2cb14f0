import Tonio.Lemmas.Schedule

/-!
# The tick of the readiness word

The poller adds one to the tick with each update of the word, and nobody else touches it (`tickOf_path`); it has eight bits. A reader
samples the tick when its look at the word has shown a bit, stores it, and hands it to `clear` when its system call would block. While it is
the only one of its direction, the tick it hands over is the one it sampled (`Stage`).
-/

namespace Tonio.Schedule

open Interleaving

variable {m m' : Mem} {A B new ops : List Op} {op : Op} {c : Choice} {d : Dir}

/-! ## The bits of the tick -/

theorem getLsbD_TICK_MASK {i : Nat} (hi : i < 8) : TICK_MASK.getLsbD (6 + i) = true := by
  have hall : ∀ j < 8, TICK_MASK.getLsbD (6 + j) = true := by decide
  exact hall i hi

/-- The tick stands above the six lowest bits. -/
theorem getLsbD_tickOf (w : Word) {i : Nat} (hi : i < 8) : (tickOf w).getLsbD i = w.getLsbD (6 + i) := by
  have hmask := getLsbD_TICK_MASK hi
  simp [tickOf, TICK_SHIFT, BitVec.getLsbD_ushiftRight, hmask, hi]

/-- Two words that agree above the six lowest bits have the same tick. -/
theorem tickOf_congr {w w' : Word} (h : ∀ i < 8, w.getLsbD (6 + i) = w'.getLsbD (6 + i)) : tickOf w = tickOf w' := by
  refine BitVec.eq_of_getLsbD_eq (fun i hi => ?_)
  rw [getLsbD_tickOf w hi, getLsbD_tickOf w' hi]
  exact h i hi

/-- A word of the six lowest bits. -/
def Low (w : Word) : Prop := ∀ i < 8, w.getLsbD (6 + i) = false

instance (w : Word) : Decidable (Low w) := inferInstanceAs (Decidable (∀ i < 8, w.getLsbD (6 + i) = false))

theorem low_readinessFromEvent (event : IoEvent) : Low (readinessFromEvent event) := by
  obtain ⟨a, b, c, e, f⟩ := event
  cases a <;> cases b <;> cases c <;> cases e <;> cases f <;> decide

theorem low_mask (d : Dir) : Low d.mask := by
  cases d <;> decide

/-- Clearing bits of readiness keeps the tick. -/
theorem tickOf_and_not {w x : Word} (hx : Low x) : tickOf (w &&& ~~~x) = tickOf w := by
  refine tickOf_congr (fun i hi => ?_)
  have hlt : 6 + i < 64 := by omega
  rw [BitVec.getLsbD_and, BitVec.getLsbD_not, hx i hi]
  simp [hlt]

/-- Setting the shutdown bit keeps the tick. -/
theorem tickOf_or {w x : Word} (hx : Low x) : tickOf (w ||| x) = tickOf w := by
  refine tickOf_congr (fun i hi => ?_)
  rw [BitVec.getLsbD_or, hx i hi, Bool.or_false]

/-- `set_readiness` moves the tick on. -/
theorem tickOf_setReadiness {ready : Word} (curr : Word) (hr : Low ready) : tickOf (setReadiness ready curr) = tickOf curr + 1 := by
  refine BitVec.eq_of_getLsbD_eq (fun i hi => ?_)
  rw [getLsbD_tickOf _ hi]
  have hmask := getLsbD_TICK_MASK hi
  have hlt : 6 + i < 64 := by omega
  unfold setReadiness
  rw [BitVec.getLsbD_or, BitVec.getLsbD_or, BitVec.getLsbD_and, BitVec.getLsbD_not, hmask, hr i hi]
  simp [TICK_SHIFT, hlt]

/-! ## The edges of a run -/

/-- The readiness an act of the poller sets. -/
def edge : Act Op Choice Call → Option Word
  | .exec (.setReadiness event) _ => some (readinessFromEvent event)
  | _ => none

/-- The number of `set_readiness` calls of a run. -/
def edges (acts : List (Act Op Choice Call)) : Nat := (acts.filterMap edge).length

/-- The bits they set. -/
def published (acts : List (Act Op Choice Call)) : Word := (acts.filterMap edge).foldr (· ||| ·) 0

/-- The tick changes by an edge only. -/
theorem Move.tickOf (h : Move m op m' new) (c : Choice) :
    Schedule.tickOf m'.readiness = Schedule.tickOf m.readiness + BitVec.ofNat 8 (edges [.exec op c]) := by
  cases h with
  | setReadiness event => exact tickOf_setReadiness _ (low_readinessFromEvent event)
  | setShutdown => exact (tickOf_or (by decide)).trans (BitVec.add_zero _).symm
  | lower d w hx hw =>
    have hedge : edges [.exec op c] = 0 := by
      rcases hx with ⟨tick, rfl⟩ | rfl <;> rfl
    rw [hedge]
    rcases hw with rfl | rfl
    · exact (BitVec.add_zero _).symm
    · exact (tickOf_and_not (low_mask d)).trans (BitVec.add_zero _).symm
  | _ => exact (BitVec.add_zero _).symm

/-- The tick counts the edges, modulo 256. -/
theorem tickOf_path {s s' : State Mem Op} {acts : List (Act Op Choice Call)} (h : machine.Path s acts s') :
    tickOf s'.mem.readiness = tickOf s.mem.readiness + BitVec.ofNat 8 (edges acts) := by
  induction h with
  | nil => exact (BitVec.add_zero _).symm
  | @snoc acts s₁ s' a _ hs ih =>
    have hsplit : edges (acts ++ [a]) = edges acts + edges [a] := by simp [edges, List.filterMap_append]
    have hstep : tickOf s'.mem.readiness = tickOf s₁.mem.readiness + BitVec.ofNat 8 (edges [a]) := by
      rcases hs.ops_eq with ⟨A, op, B, c, new, rfl, -, he, -⟩ | ⟨l, new, rfl, hc, -⟩
      · exact (exec_move he).tickOf c
      · have hm : s'.mem = s₁.mem := by
          cases l <;> simp only [machine, call, Option.some.injEq, Prod.mk.injEq] at hc <;> exact hc.1.symm
        rw [hm]
        exact (BitVec.add_zero _).symm
    rw [hstep, ih, hsplit, BitVec.add_assoc, BitVec.ofNat_add]

/-! ## One reader -/

/-- The direction an operation of a task is about. -/
def Op.dir : Op → Option Dir
  | .armLoad d | .armLock d _ | .armCheck d _ | .armFill d _ | .loadTick d | .storeTick d _ | .parked d _ | .clearTick d
  | .clearWord d _ | .consumeWord d => some d
  | _ => none

/-- The acts of the tasks of a direction. -/
def ofDir (d : Dir) : Act Op Choice Call → Bool
  | .exec op _ => op.dir = some d
  | .call (.arm d') | .call (.clear d') | .call (.consume d') => d' = d
  | _ => false

/-- What the tasks of a direction have still to do. -/
def own (d : Dir) (ops : List Op) : List Op := ops.filter (fun op => op.dir = some d)

theorem own_append (d : Dir) (A B : List Op) : own d (A ++ B) = own d A ++ own d B := List.filter_append ..

/-- A step of somebody else gives the tasks of a direction nothing to do and leaves their tick alone. -/
theorem Move.other (h : Move m op m' new) (hd : op.dir ≠ some d) : own d new = [] ∧ m'.tick d = m.tick d := by
  cases h with
  | wakeTake who ready =>
    refine ⟨List.filter_eq_nil_iff.mpr (fun x hx => ?_), rfl⟩
    simp only [Mem.taken, List.mem_cons, List.mem_append] at hx
    rcases hx with rfl | hx | hx
    · simp [Op.dir]
    · split at hx
      · simp only [Option.mem_toList, Option.map_eq_some_iff] at hx
        obtain ⟨e, -, rfl⟩ := hx
        simp [Op.dir]
      · cases hx
    · split at hx
      · simp only [Option.mem_toList, Option.map_eq_some_iff] at hx
        obtain ⟨e, -, rfl⟩ := hx
        simp [Op.dir]
      · cases hx
  | storeTick d' tick =>
    have hdd : d ≠ d' := fun h => hd (h ▸ rfl)
    exact ⟨rfl, Function.update_of_ne hdd _ _⟩
  | lower d' w hx => exact ⟨rfl, rfl⟩
  | setReadiness event | setShutdown | wakeLock | addIoHandle | unlock | woken => exact ⟨by simp [own, Op.dir], rfl⟩
  | _ => exact ⟨by simpa [own, Op.dir] using hd, rfl⟩

/-- Where a reader is that has sampled the tick `t` and performed the first `n` of its acts: it stores the tick, returns, finds that its
system call would block, and calls `clear`, which loads the tick. -/
def Stage (d : Dir) (t : BitVec 8) (s : State Mem Op) : Nat → Prop
  | 0 => own d s.ops = [.storeTick d t]
  | 1 => own d s.ops = [] ∧ s.mem.tick d = t
  | 2 => own d s.ops = [.clearTick d] ∧ s.mem.tick d = t
  | _ => own d s.ops = [.clearWord d t]

/-- The acts of a reader between its sample of the tick and its update of the word. -/
def reads (d : Dir) (tick : BitVec 8) : List (Act Op Choice Call) :=
  [.exec (.storeTick d tick) .go, .call (.clear d), .exec (.clearTick d) .go]

/-- An act of somebody else. -/
theorem own_of_other {s s' : State Mem Op} {a : Act Op Choice Call} (hs : machine.Step s a s') (ha : ofDir d a = false) :
    own d s'.ops = own d s.ops ∧ s'.mem.tick d = s.mem.tick d := by
  rcases hs.ops_eq with ⟨A, op, B, c, new, rfl, ho, he, ho'⟩ | ⟨l, new, rfl, hc, ho'⟩
  · have hd : op.dir ≠ some d := by simpa [ofDir] using ha
    obtain ⟨hnew, htick⟩ := (exec_move he).other hd
    refine ⟨?_, htick⟩
    have hop : own d [op] = [] := by simpa [own] using hd
    rw [ho', ho, ← List.singleton_append (l := B)]
    simp only [own_append, hnew, hop]
  · have hnew : own d new = [] ∧ s'.mem = s.mem := by
      cases l with
      | arm d' | clear d' | consume d' =>
        obtain ⟨hm, rfl⟩ := Prod.mk.inj (Option.some.inj hc)
        exact ⟨by simpa [own, Op.dir, ofDir] using ha, hm.symm⟩
      | dispatch event | shutdown =>
        obtain ⟨hm, rfl⟩ := Prod.mk.inj (Option.some.inj hc)
        exact ⟨by simp [own, Op.dir], hm.symm⟩
    rw [ho', own_append, hnew.1, hnew.2]
    exact ⟨List.append_nil _, rfl⟩

/-- An act of the only task of a direction performs what that has to do. -/
theorem own_of_self {s s' : State Mem Op} {x : Op} (hs : machine.Step s (.exec op c) s') (hd : op.dir = some d)
    (hx : own d s.ops = [x]) : op = x ∧ ∃ new, exec s.mem op c = some (s'.mem, new) ∧ own d s'.ops = own d new := by
  rcases hs.ops_eq with ⟨A, op', B, c', new, ha, ho, he, ho'⟩ | ⟨l, new, ha, -, -⟩
  · obtain ⟨rfl, rfl⟩ : op = op' ∧ c = c' := by simpa using ha
    have hop : own d [op] = [op] := by simp [own, hd]
    rw [ho, ← List.singleton_append (l := B)] at hx
    simp only [own_append, hop] at hx
    have hlen := congrArg List.length hx
    simp only [List.length_append, List.length_singleton] at hlen
    have hA : own d A = [] := List.eq_nil_of_length_eq_zero (by omega)
    have hB : own d B = [] := List.eq_nil_of_length_eq_zero (by omega)
    rw [hA, hB] at hx
    refine ⟨by simpa using hx, new, he, ?_⟩
    rw [ho', own_append, own_append, hA, hB]
    simp
  · cases ha

/-- A reader that is the only one of its direction goes through its stages, whatever the others do. -/
theorem stage_of_path {s s' : State Mem Op} {acts : List (Act Op Choice Call)} {t tick : BitVec 8} (h : machine.Path s acts s')
    (h0 : Stage d t s 0) (n : Nat) (hn : n ≤ 3) (hacts : acts.filter (ofDir d) = (reads d tick).take n) : Stage d t s' n := by
  induction h generalizing n with
  | nil =>
    cases n with
    | zero => exact h0
    | succ n => simp [reads] at hacts
  | @snoc acts s₁ s' a _ hs ih =>
    rw [List.filter_append] at hacts
    by_cases ha : ofDir d a = true
    · -- the act of the reader that comes next
      rw [List.filter_singleton, ha] at hacts
      cases n with
      | zero => simp at hacts
      | succ n =>
        have hlt : n < (reads d tick).length := by
          simp only [reads, List.length_cons, List.length_nil]
          omega
        rw [List.take_succ_eq_append_getElem hlt] at hacts
        obtain ⟨hprev, hlast⟩ := List.append_inj' hacts rfl
        have hst := ih n (by omega) hprev
        obtain rfl : a = (reads d tick)[n] := by simpa using hlast
        rcases n with - | - | - | n
        · obtain ⟨hop, new, he, hown⟩ := own_of_self hs rfl hst
          obtain ⟨-, rfl⟩ : d = d ∧ tick = t := by simpa using hop
          simp only [exec, Option.some.injEq, Prod.mk.injEq] at he
          refine ⟨by rw [hown, ← he.2]; rfl, ?_⟩
          rw [← he.1]
          simp
        · obtain ⟨hown, htick⟩ := hst
          rcases hs.ops_eq with ⟨A, op, B, c, new, hop, -, -, -⟩ | ⟨l, new, hl, hc, ho'⟩
          · cases hop
          · obtain rfl : Call.clear d = l := by simpa [reads] using hl
            simp only [machine, call, Option.some.injEq, Prod.mk.injEq] at hc
            rw [← hc.2] at ho'
            refine ⟨?_, by rw [← hc.1]; exact htick⟩
            rw [ho', own_append, hown]
            simp [own, Op.dir]
        · obtain ⟨hown, htick⟩ := hst
          obtain ⟨-, new, he, hown'⟩ := own_of_self hs rfl hown
          simp only [exec, Option.some.injEq, Prod.mk.injEq] at he
          show own d s'.ops = [.clearWord d t]
          rw [hown', ← he.2, htick]
          simp [own, Op.dir]
        · omega
    · have hst := ih n hn (by simpa [List.filter_singleton, ha] using hacts)
      obtain ⟨hown, htick⟩ := own_of_other hs (Bool.eq_false_iff.mpr ha)
      rcases n with - | - | - | n
      · exact hown.trans hst
      · exact ⟨hown.trans hst.1, htick.trans hst.2⟩
      · exact ⟨hown.trans hst.1, htick.trans hst.2⟩
      · exact hown.trans hst

/-! ## What `clear` erases -/

/-- Clearing a mask keeps given bits exactly when none of them is in the mask. -/
theorem and_not_and_eq_iff (r k p : Word) : (r &&& ~~~k) &&& p = r &&& p ↔ r &&& p &&& k = 0 := by
  constructor
  · intro h
    refine BitVec.eq_of_getLsbD_eq (fun i hi => ?_)
    have hbit := congrArg (fun w : Word => w.getLsbD i) h
    simp only [BitVec.getLsbD_and, BitVec.getLsbD_not, hi, decide_true, Bool.true_and] at hbit ⊢
    cases hr : r.getLsbD i <;> cases hk : k.getLsbD i <;> cases hp : p.getLsbD i <;> simp_all
  · intro h
    refine BitVec.eq_of_getLsbD_eq (fun i hi => ?_)
    have hbit := congrArg (fun w : Word => w.getLsbD i) h
    simp only [BitVec.getLsbD_and, BitVec.getLsbD_not, hi, decide_true, Bool.true_and] at hbit ⊢
    cases hr : r.getLsbD i <;> cases hk : k.getLsbD i <;> cases hp : p.getLsbD i <;> simp_all

/-- A tick that was moved on comes back after a multiple of 256. -/
theorem tick_add_eq_iff (t : BitVec 8) (k : Nat) : t + BitVec.ofNat 8 k = t ↔ k % 256 = 0 := by
  have hlt := t.isLt
  rw [← BitVec.toNat_inj, BitVec.toNat_add, BitVec.toNat_ofNat]
  omega

/-! ## A reader and the edges it does not see -/

/-- Data has arrived. -/
def arrival : IoEvent := ⟨true, false, false, false, false⟩

/-- The poller publishes `n` arrivals of data. -/
def burst : Nat → List (Act Op Choice Call)
  | 0 => []
  | n + 1 => burst n ++ [.call (.dispatch arrival)] ++ [.exec (.setReadiness arrival) .go]

theorem burst_filter (d : Dir) (n : Nat) : (burst n).filter (ofDir d) = [] := by
  induction n with
  | zero => rfl
  | succ n ih =>
    rw [burst, List.filter_append, List.filter_append, ih]
    rfl

theorem burst_filterMap (n : Nat) : (burst n).filterMap edge = List.replicate n READABLE := by
  induction n with
  | zero => rfl
  | succ n ih =>
    have hready : readinessFromEvent arrival = READABLE := by decide
    rw [burst, List.filterMap_append, List.filterMap_append, ih, List.replicate_succ']
    simp [edge, hready]

/-- Each arrival updates the word; the ticks the tasks have stored stay. -/
theorem burst_path (s : State Mem Op) (n : Nat) :
    ∃ s', machine.Path s (burst n) s' ∧ s'.mem.readiness = (setReadiness READABLE)^[n] s.mem.readiness ∧ s'.mem.tick = s.mem.tick := by
  induction n with
  | zero => exact ⟨s, .nil, rfl, rfl⟩
  | succ n ih =>
    obtain ⟨s', hs, hw, ht⟩ := ih
    have hready : readinessFromEvent arrival = READABLE := by decide
    have he : machine.exec s'.mem (.setReadiness arrival) .go = some (_, _) := rfl
    have hc : machine.call s'.mem (.dispatch arrival) = some (s'.mem, [.setReadiness arrival]) := rfl
    refine ⟨_, hs.spawn hc he, ?_, ht⟩
    show setReadiness (readinessFromEvent arrival) s'.mem.readiness = _
    rw [Function.iterate_succ_apply', hready, hw]

/-- A reader that has found the word readable samples the tick, and `n` arrivals are published before its `clear` updates the word. -/
theorem reader_run (m : Mem) (t : List Op) (n : Nat) :
    ∃ s₁ s₂ s₃ acts, machine.Step ⟨m, [t, [.loadTick .r]]⟩ (.exec (.loadTick .r) .go) s₁ ∧ machine.Path s₁ acts s₂ ∧
      acts.filter (ofDir .r) = reads .r (tickOf m.readiness) ∧ machine.Step s₂ (.exec (.clearWord .r (tickOf m.readiness)) .go) s₃ ∧
      acts.filterMap edge = List.replicate n READABLE ∧ s₂.mem.readiness = (setReadiness READABLE)^[n] m.readiness ∧
      s₃.mem.readiness = (clear READ_ALL (tickOf m.readiness) s₂.mem.readiness).getD s₂.mem.readiness := by
  have hsample : machine.exec m (.loadTick .r) .go = some (m, [.storeTick .r (tickOf m.readiness)]) := rfl
  have hstore : machine.exec m (.storeTick .r (tickOf m.readiness)) .go =
      some ({ m with tick := Function.update m.tick .r (tickOf m.readiness) }, []) := rfl
  have hload : machine.Step ⟨m, [t, [.loadTick .r]]⟩ (.exec (.loadTick .r) .go) ⟨m, [t, [.storeTick .r (tickOf m.readiness)]]⟩ :=
    (Machine.Step.exec (s := ⟨m, [t, [.loadTick .r]]⟩) (i := 1) rfl hsample :)
  have hstored : machine.Step ⟨m, [t, [.storeTick .r (tickOf m.readiness)]]⟩ (.exec (.storeTick .r (tickOf m.readiness)) .go)
      ⟨{ m with tick := Function.update m.tick .r (tickOf m.readiness) }, [t, []]⟩ :=
    (Machine.Step.exec (s := ⟨m, [t, [.storeTick .r (tickOf m.readiness)]]⟩) (i := 1) rfl hstore :)
  obtain ⟨s', hs, hw, ht⟩ := burst_path ⟨{ m with tick := Function.update m.tick .r (tickOf m.readiness) }, [t, []]⟩ n
  have htick : s'.mem.tick .r = tickOf m.readiness := by
    simp [ht]
  have hc : machine.call s'.mem (.clear .r) = some (s'.mem, [.clearTick .r]) := rfl
  have he : machine.exec s'.mem (.clearTick .r) .go = some (s'.mem, [.clearWord .r (tickOf m.readiness)]) := by
    rw [← htick]
    rfl
  have hpath := ((Machine.Path.nil.snoc hstored).append hs).spawn hc he
  have hword : machine.exec s'.mem (.clearWord .r (tickOf m.readiness)) .go =
      some ({ s'.mem with readiness := (clear READ_ALL (tickOf m.readiness) s'.mem.readiness).getD s'.mem.readiness }, []) := rfl
  have hi : (s'.pool ++ [[Op.clearWord .r (tickOf m.readiness)]])[s'.pool.length]? = some (.clearWord .r (tickOf m.readiness) :: []) := by
    simp
  refine ⟨_, _, _, _, hload, hpath, ?_, .exec hi hword, ?_, hw, rfl⟩
  · simp only [List.filter_append, burst_filter]
    rfl
  · simp only [List.filterMap_append, burst_filterMap, List.append_assoc]
    exact List.append_nil _

/-- So it goes from a new `ScheduledIO`, whose first arrival the reader has found. -/
theorem reader_run_of_initial (n : Nat) :
    ∃ s s₁ s₂ s₃ acts, machine.Reach (fun _ _ _ => True) initial s ∧ own .r s.ops = [.loadTick .r] ∧
      machine.Step s (.exec (.loadTick .r) .go) s₁ ∧ machine.Path s₁ acts s₂ ∧ acts.filter (ofDir .r) = reads .r 1 ∧
      machine.Step s₂ (.exec (.clearWord .r 1) .go) s₃ ∧ edges acts = n ∧
      published acts = (List.replicate n READABLE).foldr (· ||| ·) 0 ∧
      s₂.mem.readiness = (setReadiness READABLE)^[n] (setReadiness READABLE 0) ∧
      s₃.mem.readiness = (clear READ_ALL 1 s₂.mem.readiness).getD s₂.mem.readiness := by
  obtain ⟨⟨m, pool⟩, hs, hp⟩ := Machine.exists_reach_of_run machine (fun _ _ _ => True) (fun _ _ _ => true) (fun _ _ _ _ => trivial)
    initial [.call (.dispatch arrival), .act 0 .go, .call (.arm .r), .act 1 .go]
    (fun s => decide (s.mem.readiness = setReadiness READABLE 0) && decide (s.pool = [[.wakeLock .poller READABLE], [.loadTick .r]]))
    (by decide)
  simp only [Bool.and_eq_true, decide_eq_true_eq] at hp
  obtain ⟨hw, rfl⟩ := hp
  obtain ⟨s₁, s₂, s₃, acts, hload, hpath, hacts, hclear, hedge, hw₂, hw₃⟩ := reader_run m [.wakeLock .poller READABLE] n
  have htick : tickOf m.readiness = 1 := by
    rw [hw]
    decide
  rw [htick] at hacts hclear hw₃
  rw [hw] at hw₂
  refine ⟨_, s₁, s₂, s₃, acts, hs, ?_, hload, hpath, hacts, hclear, ?_, ?_, hw₂, hw₃⟩
  · simp [State.ops, own, Op.dir]
  · simp [edges, hedge]
  · rw [published, hedge]

end Tonio.Schedule
