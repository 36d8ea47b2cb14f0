import Tonio.Work

/-!
# The parking protocol

What holds around the workers before they are stopped (`Sited`): each worker is at one place of its loop; its flag is up only between
raising and clearing it; a worker whose flag was claimed on its way to `park` has a permit, or an `unpark` on its way; its
deque stays empty from the first scan on; and `idle_count` is the number of raised flags, corrected by what is in flight. A handle in
the injector is then attended to (`Attended`, in `Inv`): some worker has still to look at the injector, or was claimed, or a producer has
still to decide, or to go past a raised flag — as long as no wake-up is elided for nothing.
-/

namespace Tonio.Work

open Interleaving

variable {η : Type}

/-- The places of the loop of worker `i`. -/
def ctl (i : Nat) (op : Op η) : Nat := if op.worker = some i then 1 else 0

/-- The places where the flag of the worker may be up. -/
def Op.idle : Op η → Bool
  | .own .rescan _ _ | .inject .rescan _ _ | .steal .rescan _ _ _ | .incCount _ _ | .found _ _ _ | .stop2 _ _ | .clearStop _ _
  | .release _ | .final _ | .finalFound _ _ | .park _ | .clearWake _ => true
  | _ => false

/-- The places on the way to `park` with the flag raised. -/
def Op.parking : Op η → Bool
  | .own .rescan _ _ | .inject .rescan _ _ | .steal .rescan _ _ _ | .incCount _ _ | .stop2 _ _ | .release _ | .final _ | .park _ => true
  | _ => false

/-- The places from the first scan of the own deque on, while no handle has been found. -/
def Op.dry : Op η → Bool
  | .own .rescan _ _ | .inject _ _ _ | .steal _ _ _ _ | .stop1 _ _ | .setFlag _ _ | .incCount _ _ | .stop2 _ _ | .release _ | .final _
  | .park _ => true
  | _ => false

/-- The place of a worker that found the workers stopped after raising its flag. -/
def Op.leaving : Op η → Bool
  | .clearStop _ _ => true
  | _ => false

/-- Pending corrections of `idle_count`. -/
def raising : Op η → Nat
  | .incCount _ _ => 1
  | _ => 0

/-- Pending corrections of `idle_count`. -/
def lowering : Op η → Nat
  | .decCount => 1
  | _ => 0

/-- The number of raised flags. -/
def raised (n : Nat) (flag : Nat → Bool) : Nat := total (fun i => (flag i).toNat) (List.range n)

/-- What holds at a place of the loop of worker `i`. -/
structure Local (m : Mem η) (ops : List (Op η)) (op : Op η) (i : Nat) : Prop where
  stays : op.leaving = false
  idle : op.idle = false → m.flag i = false
  parking : op.parking = true → m.flag i = false → m.permit i = true ∨ Op.unpark i ∈ ops
  dry : op.dry = true → m.deque i = []

/-- The handles of the injector are attended to. -/
def Attended (n : Nat) (m : Mem η) (ops : List (Op η)) : Prop :=
  (∃ op ∈ ops, op.worker.isSome ∧ op.committed = false) ∨ (∃ i < n, m.flag i = false) ∨
  (∃ force, Op.loadCount none force ∈ ops) ∨ Op.casSpec none ∈ ops ∨ Op.incSpec none ∈ ops ∨
  ∃ k j, Op.wake none k ∈ ops ∧ k ≤ j ∧ j < n ∧ m.flag j = true

/-- What holds around the workers. -/
structure Inv (n : Nat) (m : Mem η) (ops : List (Op η)) : Prop where
  one : ∀ i < n, total (ctl i) ops = 1
  beyond : ∀ i, n ≤ i → total (ctl i) ops = 0
  place : ∀ op ∈ ops, ∀ i, op.worker = some i → Local m ops op i
  count : m.idleCount + total raising ops = raised n m.flag + total lowering ops
  attended : m.injector ≠ [] → Attended n m ops

/-- What holds around the workers whatever becomes of the wake-ups. -/
structure Sited (n : Nat) (m : Mem η) (ops : List (Op η)) : Prop where
  one : ∀ i < n, total (ctl i) ops = 1
  beyond : ∀ i, n ≤ i → total (ctl i) ops = 0
  place : ∀ op ∈ ops, ∀ i, op.worker = some i → Local m ops op i
  count : m.idleCount + total raising ops = raised n m.flag + total lowering ops

theorem Inv.sited {n : Nat} {m : Mem η} {ops : List (Op η)} (h : Inv n m ops) : Sited n m ops := ⟨h.one, h.beyond, h.place, h.count⟩

/-! ## The number of raised flags -/

theorem raised_update (n i : Nat) (flag : Nat → Bool) (b : Bool) (hi : i < n) :
    raised n (Function.update flag i b) + (flag i).toNat = raised n flag + b.toNat := by
  have h := total_update (f := fun j => (flag j).toNat) (g := fun j => (Function.update flag i b j).toNat) List.nodup_range
    (List.mem_range.mpr hi) (fun j hj => by rw [Function.update_of_ne hj])
  simpa only [Function.update_self, raised] using h

/-! ## The cases of a step -/

/-- Worker `i` goes from one place of its loop to the next, and touches neither flags nor permits nor `idle_count`. It may take a
handle, or push one. -/
structure Walk (m : Mem η) (op : Op η) (m' : Mem η) (x : Op η) (i : Nat) : Prop where
  worker : op.worker = some i
  worker' : x.worker = some i
  stays : x.leaving = false
  flag : m'.flag = m.flag
  permit : m'.permit = m.permit
  count : m'.idleCount = m.idleCount
  raising : raising op = 0 ∧ raising x = 0
  lowering : lowering op = 0 ∧ lowering x = 0
  idle : x.idle = op.idle
  parking : x.parking = true → op.parking = true
  dry : x.dry = true → (op.dry = true → m.deque i = []) → m'.deque i = []
  other : ∀ j, j ≠ i → m.deque j = [] → m'.deque j = []
  committed : x.committed = true → m'.injector = [] ∨ (op.committed = true ∧ m'.injector = m.injector)

/-- Worker `i` clears its flag, or finds it claimed, and goes on to look for work or to run. -/
structure Clears (m : Mem η) (op : Op η) (m' : Mem η) (new : List (Op η)) (x : Op η) (i : Nat) : Prop where
  worker : op.worker = some i
  worker' : x.worker = some i
  stays : x.leaving = false
  idle : x.idle = false
  parking : x.parking = false
  dry : x.dry = false
  committed : x.committed = false
  raising : raising op = 0 ∧ Work.raising x = 0
  lowering : lowering op = 0 ∧ Work.lowering x = 0
  cases : (m.flag i = true ∧ m' = m.setFlag i false ∧ new = [.decCount, x]) ∨
    (m.flag i = false ∧ m' = m ∧ (new = [x] ∨ new = [.subSpec, x]))

theorem worker_settle (i : Nat) (sp : Bool) (h : η) :
    (settle i sp h).worker = some i ∧ (settle i sp h).leaving = false ∧ (settle i sp h).idle = false ∧
      (settle i sp h).parking = false ∧ (settle i sp h).dry = false ∧ (settle i sp h).committed = false ∧
      raising (settle i sp h) = 0 ∧ lowering (settle i sp h) = 0 := by
  cases sp <;> exact ⟨rfl, rfl, rfl, rfl, rfl, rfl, rfl, rfl⟩

/-- A worker that took a handle. -/
theorem walk_got {m m' : Mem η} {ph : Phase} {op : Op η} {i : Nat} (sp : Bool) (h : η) (hop : op.worker = some i)
    (hidle : op.idle = decide (ph = .rescan)) (hr : raising op = 0) (hl : lowering op = 0) (hf : m'.flag = m.flag)
    (hp : m'.permit = m.permit) (hc : m'.idleCount = m.idleCount) (hd : ∀ j, j ≠ i → m.deque j = [] → m'.deque j = []) :
    Walk m op m' (got ph i sp h) i := by
  obtain ⟨h1, h0, h2, h3, h4, h5, h6, h7⟩ := worker_settle i sp h
  cases ph with
  | scan =>
    exact ⟨hop, h1, h0, hf, hp, hc, ⟨hr, h6⟩, ⟨hl, h7⟩, by simp [got, h2, hidle], by simp [got, h3], by simp [got, h4], hd,
      by simp [got, h5]⟩
  | rescan =>
    exact ⟨hop, rfl, rfl, hf, hp, hc, ⟨hr, rfl⟩, ⟨hl, rfl⟩, by rw [hidle]; rfl, by simp [got, Op.parking],
      by simp [got, Op.dry], hd, by simp [got, Op.committed]⟩

/-- A worker that goes on without touching what is shared. -/
theorem walk_self {m m' : Mem η} {op x : Op η} {i : Nat} (hop : op.worker = some i) (hx : x.worker = some i) (hstay : x.leaving = false)
    (hf : m'.flag = m.flag) (hp : m'.permit = m.permit) (hc : m'.idleCount = m.idleCount) (hd : m'.deque = m.deque)
    (hr : raising op = 0 ∧ raising x = 0) (hl : lowering op = 0 ∧ lowering x = 0) (hidle : x.idle = op.idle)
    (hpark : x.parking = true → op.parking = true) (hdry : x.dry = true → op.dry = true ∨ m.deque i = [])
    (hcom : x.committed = true → m'.injector = [] ∨ (op.committed = true ∧ m'.injector = m.injector)) :
    Walk m op m' x i := by
  refine ⟨hop, hx, hstay, hf, hp, hc, hr, hl, hidle, hpark, fun h1 h2 => ?_, fun j _ hj => by rw [hd]; exact hj, hcom⟩
  rw [hd]
  exact (hdry h1).elim h2 id

/-- What a step can do before the workers are stopped. -/
inductive Move (n : Nat) (m : Mem η) : Op η → Choice η → Mem η → List (Op η) → Prop where
  | walk {op x m' c} (i : Nat) (h : Walk m op m' x i) : Move n m op c m' [x]
  | raise (i : Nat) (sp : Bool) : Move n m (.setFlag i sp) .go (m.setFlag i true) [.incCount i sp]
  | count (i : Nat) (sp : Bool) : Move n m (.incCount i sp) .go { m with idleCount := m.idleCount + 1 } [.own .rescan i sp]
  | clear {op x m' new} (i : Nat) (h : Clears m op m' new x i) : Move n m op .go m' new
  | park (i : Nat) (h : m.permit i = true) : Move n m (.park i) .go (m.setPermit i false) [.clearWake i]
  | claim (who : Option (Nat × η)) (k : Nat) (hk : k < n) (hf : m.flag k = true) :
      Move n m (.wake who k) .go (m.setFlag k false) (.decCount :: .unpark k :: resume who)
  | unneeded (force : Bool) (h : m.idleCount = 0) : Move n m (.loadCount none force) .go m []
  | needed (force : Bool) : Move n m (.loadCount none force) .go m [if force then .incSpec none else .casSpec none]
  | elide (h : m.speculation ≠ 0) : Move n m (.casSpec none) .go m []
  | token {op} (sp : Int) (hop : op = .casSpec none ∨ op = .incSpec none) :
      Move n m op .go { m with speculation := sp } [.wake none 0]
  | pass (k : Nat) (hf : m.flag k = false) : Move n m (.wake none k) .go m [.wake none (k + 1)]
  | giveBack (k : Nat) (hk : n ≤ k) : Move n m (.wake none k) .go { m with speculation := m.speculation - 1 } []
  | lower : Move n m .decCount .go { m with idleCount := m.idleCount - 1 } []
  | absorb : Move n m .subSpec .go { m with speculation := m.speculation - 1 } []
  | unpark (k : Nat) : Move n m (.unpark k) .go (m.setPermit k true) []

theorem exec_move {n : Nat} {m m' : Mem η} {op : Op η} {c : Choice η} {new : List (Op η)} (hs : m.stopping = false)
    (hstay : op.leaving = false) (h : exec n m op c = some (m', new)) : Move n m op c m' new := by
  cases op with
  | run i x =>
    cases c <;> simp only [exec, Option.some.injEq, Prod.mk.injEq] at h <;> obtain ⟨rfl, rfl⟩ := h
    case go => exact .walk i (walk_self rfl rfl rfl rfl rfl rfl rfl ⟨rfl, rfl⟩ ⟨rfl, rfl⟩ rfl (by simp [Op.parking]) (by simp [Op.dry])
      (by simp [Op.committed]))
    case add y =>
      refine .walk i ⟨rfl, rfl, rfl, rfl, rfl, rfl, ⟨rfl, rfl⟩, ⟨rfl, rfl⟩, rfl, by simp [Op.parking], by simp [Op.dry], ?_,
        by simp [Op.committed]⟩
      intro j hj hd
      simpa [Mem.setDeque, hj] using hd
    all_goals exact .walk i (walk_self rfl rfl rfl rfl rfl rfl rfl ⟨rfl, rfl⟩ ⟨rfl, rfl⟩ rfl (by simp [Op.parking]) (by simp [Op.dry])
      (by simp [Op.committed]))
  | own ph i sp =>
    cases c <;> simp only [exec, reduceCtorEq] at h
    have hidle : (Op.own ph i sp : Op η).idle = decide (ph = .rescan) := by cases ph <;> rfl
    split at h <;> simp only [Option.some.injEq, Prod.mk.injEq] at h <;> obtain ⟨rfl, rfl⟩ := h
    · refine .walk i (walk_got sp _ rfl hidle rfl rfl rfl rfl rfl (fun j hj hd => ?_))
      simpa [Mem.setDeque, hj] using hd
    · rename_i hd
      refine .walk i (walk_self rfl rfl rfl rfl rfl rfl rfl ⟨rfl, rfl⟩ ⟨rfl, rfl⟩ ?_ ?_ (fun _ => Or.inr (by simpa using hd))
        (by simp [Op.committed]))
      · cases ph <;> rfl
      · cases ph <;> simp [Op.parking]
  | inject ph i sp =>
    cases c <;> simp only [exec, reduceCtorEq] at h
    have hidle : (Op.inject ph i sp : Op η).idle = decide (ph = .rescan) := by cases ph <;> rfl
    split at h <;> simp only [Option.some.injEq, Prod.mk.injEq] at h <;> obtain ⟨rfl, rfl⟩ := h
    · exact .walk i (walk_got sp _ rfl hidle rfl rfl rfl rfl rfl (fun _ _ hd => hd))
    · rename_i hd
      refine .walk i (walk_self rfl rfl rfl rfl rfl rfl rfl ⟨rfl, rfl⟩ ⟨rfl, rfl⟩ ?_ ?_ (fun _ => Or.inl rfl) (fun _ => Or.inl hd))
      · cases ph <;> rfl
      · cases ph <;> simp [Op.parking]
  | steal ph i sp j =>
    cases c <;> simp only [exec, reduceCtorEq] at h
    have hidle : (Op.steal ph i sp j : Op η).idle = decide (ph = .rescan) := by cases ph <;> rfl
    have hnext : Move n m (.steal ph i sp j) .go m [.steal ph i sp (j + 1)] := by
      refine .walk i (walk_self rfl rfl rfl rfl rfl rfl rfl ⟨rfl, rfl⟩ ⟨rfl, rfl⟩ ?_ ?_ (fun _ => Or.inl rfl) ?_)
      · cases ph <;> rfl
      · cases ph <;> simp [Op.parking]
      · cases ph <;> cases sp <;> simp [Op.committed]
    split at h
    · split at h
      · simp only [Option.some.injEq, Prod.mk.injEq] at h
        obtain ⟨rfl, rfl⟩ := h
        exact hnext
      · split at h <;> simp only [Option.some.injEq, Prod.mk.injEq] at h <;> obtain ⟨rfl, rfl⟩ := h
        · rename_i hj
          refine .walk i (walk_got sp _ rfl hidle rfl rfl rfl rfl rfl (fun j' _ hd => ?_))
          by_cases hx : j' = j
          · subst hx
            simp [hd] at hj
          · simpa [Mem.setDeque, hx] using hd
        · exact hnext
    · simp only [Option.some.injEq, Prod.mk.injEq] at h
      obtain ⟨rfl, rfl⟩ := h
      refine .walk i (walk_self rfl ?_ ?_ rfl rfl rfl rfl ⟨rfl, ?_⟩ ⟨rfl, ?_⟩ ?_ ?_ (fun _ => Or.inl rfl) ?_)
      · cases ph <;> rfl
      · cases ph <;> rfl
      · cases ph <;> rfl
      · cases ph <;> rfl
      · cases ph <;> rfl
      · cases ph <;> simp [missed, Op.parking]
      · cases ph <;> cases sp <;> simp [missed, Op.committed]
  | unspec i x =>
    cases c <;> simp only [exec, Option.some.injEq, Prod.mk.injEq, reduceCtorEq] at h
    obtain ⟨rfl, rfl⟩ := h
    split <;> exact .walk i (walk_self rfl rfl rfl rfl rfl rfl rfl ⟨rfl, rfl⟩ ⟨rfl, rfl⟩ rfl (by simp [Op.parking]) (by simp [Op.dry])
      (by simp [Op.committed]))
  | stop1 i sp =>
    cases c <;> simp only [exec, hs, Option.some.injEq, Prod.mk.injEq, reduceCtorEq, Bool.false_eq_true, if_false] at h
    obtain ⟨rfl, rfl⟩ := h
    exact .walk i (walk_self rfl rfl rfl rfl rfl rfl rfl ⟨rfl, rfl⟩ ⟨rfl, rfl⟩ rfl (by simp [Op.parking]) (fun _ => Or.inl rfl)
      (by simp [Op.committed]))
  | setFlag i sp =>
    cases c <;> simp only [exec, Option.some.injEq, Prod.mk.injEq, reduceCtorEq] at h
    obtain ⟨rfl, rfl⟩ := h
    exact .raise i sp
  | incCount i sp =>
    cases c <;> simp only [exec, Option.some.injEq, Prod.mk.injEq, reduceCtorEq] at h
    obtain ⟨rfl, rfl⟩ := h
    exact .count i sp
  | found i sp x =>
    cases c <;> simp only [exec, Mem.clearIdle, Option.some.injEq, reduceCtorEq] at h
    obtain ⟨h1, h0, h2, h3, h4, h5, h6, h7⟩ := worker_settle i sp x
    refine .clear i ⟨rfl, h1, h0, h2, h3, h4, h5, ⟨rfl, h6⟩, ⟨rfl, h7⟩, ?_⟩
    split at h <;> simp only [Prod.mk.injEq] at h
    · exact Or.inl ⟨by assumption, h.1.symm, h.2.symm⟩
    · exact Or.inr ⟨Bool.eq_false_iff.mpr (by assumption), h.1.symm, Or.inr h.2.symm⟩
  | stop2 i sp =>
    cases c <;> simp only [exec, hs, Option.some.injEq, Prod.mk.injEq, reduceCtorEq, Bool.false_eq_true, if_false] at h
    obtain ⟨rfl, rfl⟩ := h
    cases sp
    · exact .walk i (walk_self rfl rfl rfl rfl rfl rfl rfl ⟨rfl, rfl⟩ ⟨rfl, rfl⟩ rfl (fun _ => rfl) (fun _ => Or.inl rfl)
        (fun _ => Or.inr ⟨rfl, rfl⟩))
    · exact .walk i (walk_self rfl rfl rfl rfl rfl rfl rfl ⟨rfl, rfl⟩ ⟨rfl, rfl⟩ rfl (fun _ => rfl) (fun _ => Or.inl rfl)
        (by simp [Op.committed]))
  | clearStop i sp => cases hstay
  | release i =>
    cases c <;> simp only [exec, Option.some.injEq, Prod.mk.injEq, reduceCtorEq] at h
    obtain ⟨rfl, rfl⟩ := h
    exact .walk i (walk_self rfl rfl rfl rfl rfl rfl rfl ⟨rfl, rfl⟩ ⟨rfl, rfl⟩ rfl (fun _ => rfl) (fun _ => Or.inl rfl)
      (by simp [Op.committed]))
  | final i =>
    cases c <;> simp only [exec, reduceCtorEq] at h
    split at h <;> simp only [Option.some.injEq, Prod.mk.injEq] at h <;> obtain ⟨rfl, rfl⟩ := h
    · exact .walk i (walk_self rfl rfl rfl rfl rfl rfl rfl ⟨rfl, rfl⟩ ⟨rfl, rfl⟩ rfl (by simp [Op.parking]) (by simp [Op.dry])
        (by simp [Op.committed]))
    · exact .walk i (walk_self rfl rfl rfl rfl rfl rfl rfl ⟨rfl, rfl⟩ ⟨rfl, rfl⟩ rfl (fun _ => rfl) (fun _ => Or.inl rfl)
        (fun _ => Or.inl (by assumption)))
  | finalFound i x =>
    cases c <;> simp only [exec, Mem.clearIdle, Option.some.injEq, reduceCtorEq] at h
    refine .clear (x := .run i x) i ⟨rfl, rfl, rfl, rfl, rfl, rfl, rfl, ⟨rfl, rfl⟩, ⟨rfl, rfl⟩, ?_⟩
    split at h <;> simp only [Prod.mk.injEq] at h
    · exact Or.inl ⟨by assumption, h.1.symm, h.2.symm⟩
    · exact Or.inr ⟨Bool.eq_false_iff.mpr (by assumption), h.1.symm, Or.inr h.2.symm⟩
  | park i =>
    cases c <;> simp only [exec, reduceCtorEq] at h
    split at h <;> simp only [Option.some.injEq, Prod.mk.injEq, reduceCtorEq] at h
    obtain ⟨rfl, rfl⟩ := h
    exact .park i (by assumption)
  | clearWake i =>
    cases c <;> simp only [exec, Mem.clearIdle, Option.some.injEq, reduceCtorEq] at h
    split at h <;> simp only [Prod.mk.injEq] at h
    · exact .clear (x := .stop3 i false) i ⟨rfl, rfl, rfl, rfl, rfl, rfl, rfl, ⟨rfl, rfl⟩, ⟨rfl, rfl⟩,
        Or.inl ⟨by assumption, h.1.symm, h.2.symm⟩⟩
    · exact .clear (x := .stop3 i true) i ⟨rfl, rfl, rfl, rfl, rfl, rfl, rfl, ⟨rfl, rfl⟩, ⟨rfl, rfl⟩,
        Or.inr ⟨Bool.eq_false_iff.mpr (by assumption), h.1.symm, Or.inl h.2.symm⟩⟩
  | stop3 i claimed =>
    cases c <;> simp only [exec, hs, Option.some.injEq, Prod.mk.injEq, reduceCtorEq, Bool.false_eq_true, if_false] at h
    obtain ⟨rfl, rfl⟩ := h
    exact .walk i (walk_self rfl rfl rfl rfl rfl rfl rfl ⟨rfl, rfl⟩ ⟨rfl, rfl⟩ rfl (by simp [Op.parking]) (by simp [Op.dry])
      (by simp [Op.committed]))
  | loadCount who force =>
    cases c <;> simp only [exec, Option.some.injEq, Prod.mk.injEq, reduceCtorEq] at h
    obtain ⟨rfl, rfl⟩ := h
    cases who with
    | none =>
      split
      · exact .unneeded force (by assumption)
      · exact .needed force
    | some w =>
      split
      · exact .walk w.1 (walk_self rfl rfl rfl rfl rfl rfl rfl ⟨rfl, rfl⟩ ⟨rfl, rfl⟩ rfl (by simp [Op.parking]) (by simp [Op.dry])
          (by simp [Op.committed]))
      · cases force <;>
          exact .walk w.1 (walk_self rfl rfl rfl rfl rfl rfl rfl ⟨rfl, rfl⟩ ⟨rfl, rfl⟩ rfl (by simp [Op.parking]) (by simp [Op.dry])
            (by simp [Op.committed]))
  | casSpec who =>
    cases c <;> simp only [exec, Option.some.injEq, reduceCtorEq] at h
    split at h <;> simp only [Prod.mk.injEq] at h <;> obtain ⟨rfl, rfl⟩ := h <;> cases who with
    | none => first | exact .token 1 (Or.inl rfl) | exact .elide (by assumption)
    | some w => exact .walk w.1 (walk_self rfl rfl rfl rfl rfl rfl rfl ⟨rfl, rfl⟩ ⟨rfl, rfl⟩ rfl (by simp [Op.parking]) (by simp [Op.dry])
        (by simp [Op.committed]))
  | incSpec who =>
    cases c <;> simp only [exec, Option.some.injEq, Prod.mk.injEq, reduceCtorEq] at h
    obtain ⟨rfl, rfl⟩ := h
    cases who with
    | none => exact .token _ (Or.inr rfl)
    | some w => exact .walk w.1 (walk_self rfl rfl rfl rfl rfl rfl rfl ⟨rfl, rfl⟩ ⟨rfl, rfl⟩ rfl (by simp [Op.parking]) (by simp [Op.dry])
        (by simp [Op.committed]))
  | wake who k =>
    cases c <;> simp only [exec, reduceCtorEq] at h
    split at h
    · rename_i hk
      split at h <;> simp only [Option.some.injEq, Prod.mk.injEq] at h <;> obtain ⟨rfl, rfl⟩ := h
      · exact .claim who k hk (by assumption)
      · cases who with
        | none => exact .pass k (Bool.eq_false_iff.mpr (by assumption))
        | some w => exact .walk w.1 (walk_self rfl rfl rfl rfl rfl rfl rfl ⟨rfl, rfl⟩ ⟨rfl, rfl⟩ rfl (by simp [Op.parking])
            (by simp [Op.dry]) (by simp [Op.committed]))
    · simp only [Option.some.injEq, Prod.mk.injEq] at h
      obtain ⟨rfl, rfl⟩ := h
      cases who with
      | none => exact .giveBack k (by omega)
      | some w => exact .walk w.1 (walk_self rfl rfl rfl rfl rfl rfl rfl ⟨rfl, rfl⟩ ⟨rfl, rfl⟩ rfl (by simp [Op.parking])
          (by simp [Op.dry]) (by simp [Op.committed]))
  | decCount =>
    cases c <;> simp only [exec, Option.some.injEq, Prod.mk.injEq, reduceCtorEq] at h
    obtain ⟨rfl, rfl⟩ := h
    exact .lower
  | subSpec =>
    cases c <;> simp only [exec, Option.some.injEq, Prod.mk.injEq, reduceCtorEq] at h
    obtain ⟨rfl, rfl⟩ := h
    exact .absorb
  | unpark k =>
    cases c <;> simp only [exec, Option.some.injEq, Prod.mk.injEq, reduceCtorEq] at h
    obtain ⟨rfl, rfl⟩ := h
    exact .unpark k

/-! ## What a step keeps -/

section

variable {n : Nat} {m m' : Mem η} {op : Op η} {c : Choice η} {A B new : List (Op η)}

@[simp] theorem worker_decCount : (Op.decCount : Op η).worker = none := rfl

@[simp] theorem worker_subSpec : (Op.subSpec : Op η).worker = none := rfl

@[simp] theorem worker_unpark (k : Nat) : (Op.unpark k : Op η).worker = none := rfl

@[simp] theorem raising_decCount : raising (Op.decCount : Op η) = 0 := rfl

@[simp] theorem lowering_decCount : lowering (Op.decCount : Op η) = 1 := rfl

@[simp] theorem raising_subSpec : raising (Op.subSpec : Op η) = 0 := rfl

@[simp] theorem lowering_subSpec : lowering (Op.subSpec : Op η) = 0 := rfl

/-- A worker that ends a producer's call is the one that made it. -/
theorem total_ctl_resume (i k : Nat) (who : Option (Nat × η)) : total (ctl i) (resume who) = ctl i (.wake who k) := by
  cases who <;> simp [resume, ctl, Op.worker]

/-- A step leads from one place of a worker's loop to one place of it. -/
theorem Move.ctl (h : Move n m op c m' new) (i : Nat) : total (ctl i) new = Work.ctl i op := by
  cases h with
  | walk j hw => simp [Work.ctl, hw.worker, hw.worker']
  | clear j hc =>
    rcases hc.cases with ⟨-, -, rfl⟩ | ⟨-, -, rfl | rfl⟩ <;> simp [Work.ctl, hc.worker, hc.worker']
  | claim who k hk hf =>
    rw [total_cons, total_cons, total_ctl_resume i k]
    simp [Work.ctl]
  | needed force => cases force <;> simp [Work.ctl, Op.worker]
  | token sp hop => rcases hop with rfl | rfl <;> simp [Work.ctl, Op.worker]
  | _ => simp [Work.ctl, Op.worker]

/-- What a step does to the flag, the permit and the deque of a worker that is not at the operation performed. -/
theorem Move.other (h : Move n m op c m' new) (j : Nat) (hj : op.worker ≠ some j) :
    (m'.flag j = m.flag j ∨ (m'.flag j = false ∧ m.flag j = true ∧ Op.unpark j ∈ new)) ∧
    (m.permit j = true ∨ op = .unpark j → m'.permit j = true) ∧ (m.deque j = [] → m'.deque j = []) := by
  cases h with
  | walk i hw =>
    have hij : j ≠ i := by
      rintro rfl
      exact hj hw.worker
    refine ⟨Or.inl (by rw [hw.flag]), ?_, hw.other j hij⟩
    rintro (hp | rfl)
    · rw [hw.permit]
      exact hp
    · have := hw.worker
      cases this
  | raise i sp =>
    have hij : j ≠ i := fun hx => hj (by simp [Op.worker, hx])
    exact ⟨Or.inl (by simp [Mem.setFlag, hij]), fun hp => by simpa [Mem.setFlag] using hp, id⟩
  | clear i hc =>
    have hij : j ≠ i := by
      rintro rfl
      exact hj hc.worker
    have hop : op ≠ .unpark j := by
      rintro rfl
      have := hc.worker
      cases this
    rcases hc.cases with ⟨-, rfl, -⟩ | ⟨-, rfl, -⟩
    · exact ⟨Or.inl (by simp [Mem.setFlag, hij]), fun hp => by simpa [Mem.setFlag, hop] using hp, id⟩
    · exact ⟨Or.inl rfl, fun hp => by simpa [hop] using hp, id⟩
  | park i hp =>
    have hij : j ≠ i := fun hx => hj (by simp [Op.worker, hx])
    exact ⟨Or.inl rfl, fun hp => by simpa [Mem.setPermit, hij] using hp, id⟩
  | claim who k hk hf =>
    refine ⟨?_, fun hp => by simpa [Mem.setFlag] using hp, id⟩
    by_cases hjk : j = k
    · subst hjk
      exact Or.inr ⟨by simp [Mem.setFlag], hf, by simp⟩
    · exact Or.inl (by simp [Mem.setFlag, hjk])
  | unpark k =>
    refine ⟨Or.inl rfl, fun hp => ?_, id⟩
    by_cases hjk : j = k
    · simp [Mem.setPermit, hjk]
    · simpa [Mem.setPermit, hjk, Ne.symm hjk] using hp
  | token sp hop => rcases hop with rfl | rfl <;> exact ⟨Or.inl rfl, fun hp => by simpa using hp, id⟩
  | _ => exact ⟨Or.inl rfl, fun hp => by simpa using hp, id⟩

/-- What a step establishes at the place it leads to. -/
theorem Move.place (h : Move n m op c m' new) (hl : ∀ i, op.worker = some i → Local m (A ++ op :: B) op i) :
    ∀ x ∈ new, ∀ i, x.worker = some i → Local m' (A ++ (new ++ B)) x i := by
  intro x hx i hi
  cases h with
  | walk j hw =>
    obtain rfl := List.mem_singleton.mp hx
    obtain rfl : j = i := Option.some.inj (hw.worker'.symm.trans hi)
    have hL := hl j hw.worker
    refine ⟨hw.stays, fun hd => ?_, fun hp hf => ?_, fun hd => hw.dry hd hL.dry⟩
    · rw [hw.flag]
      exact hL.idle (hw.idle ▸ hd)
    · rw [hw.flag] at hf
      rw [hw.permit]
      refine (hL.parking (hw.parking hp) hf).imp_right (fun hmem => ?_)
      have hne : Op.unpark j ≠ op := by
        rintro rfl
        have := hw.worker
        cases this
      simpa [hne, List.mem_append] using Or.imp_right Or.inr (by simpa [hne] using hmem)
  | raise j sp =>
    obtain rfl := List.mem_singleton.mp hx
    obtain rfl : j = i := Option.some.inj hi
    have hL := hl j rfl
    exact ⟨rfl, by simp [Op.idle], by simp [Mem.setFlag], fun _ => hL.dry rfl⟩
  | count j sp =>
    obtain rfl := List.mem_singleton.mp hx
    obtain rfl : j = i := Option.some.inj hi
    have hL := hl j rfl
    refine ⟨rfl, by simp [Op.idle], fun _ hf => ?_, fun _ => hL.dry rfl⟩
    simpa using hL.parking rfl hf
  | @clear _ y _ _ j hc =>
    have hxy : x = y ∧ m'.flag j = false := by
      rcases hc.cases with ⟨-, rfl, rfl⟩ | ⟨hf, rfl, rfl | rfl⟩
      · simp only [List.mem_cons, List.not_mem_nil, or_false] at hx
        rcases hx with rfl | rfl
        · cases hi
        · exact ⟨rfl, by simp [Mem.setFlag]⟩
      · exact ⟨List.mem_singleton.mp hx, hf⟩
      · simp only [List.mem_cons, List.not_mem_nil, or_false] at hx
        rcases hx with rfl | rfl
        · cases hi
        · exact ⟨rfl, hf⟩
    obtain ⟨rfl, hf⟩ := hxy
    obtain rfl : j = i := Option.some.inj (hc.worker'.symm.trans hi)
    exact ⟨hc.stays, fun _ => hf, by simp [hc.parking], by simp [hc.dry]⟩
  | park j hp =>
    obtain rfl := List.mem_singleton.mp hx
    exact ⟨rfl, by simp [Op.idle], by simp [Op.parking], by simp [Op.dry]⟩
  | claim who k hk hf =>
    simp only [List.mem_cons] at hx
    rcases hx with rfl | rfl | hx
    · cases hi
    · cases hi
    · cases who with
      | none => simp [resume] at hx
      | some w =>
        obtain rfl : x = .run w.1 w.2 := by simpa [resume] using hx
        obtain rfl : w.1 = i := Option.some.inj hi
        refine ⟨rfl, fun _ => ?_, by simp [Op.parking], by simp [Op.dry]⟩
        -- a worker that runs a handle has its own flag down
        by_cases hwk : w.1 = k
        · simp [Mem.setFlag, hwk]
        · simpa [Mem.setFlag, hwk] using (hl w.1 rfl).idle rfl
  | needed force => cases force <;> simp at hx <;> subst hx <;> cases hi
  | token sp hop => simp at hx; subst hx; cases hi
  | pass k hf => simp at hx; subst hx; cases hi
  | _ => simp at hx

/-- What a step does to `idle_count` and to the number of raised flags. -/
theorem Move.idleCount (h : Move n m op c m' new) (hl : ∀ i, op.worker = some i → i < n ∧ (op.idle = false → m.flag i = false)) :
    m'.idleCount + total raising new + raised n m.flag + lowering op =
      m.idleCount + raising op + raised n m'.flag + total lowering new := by
  cases h with
  | walk i hw => simp [hw.count, hw.flag, hw.raising.1, hw.raising.2, hw.lowering.1, hw.lowering.2]
  | raise i sp =>
    obtain ⟨hi, hf⟩ := hl i rfl
    have := raised_update n i m.flag true hi
    simp only [hf rfl, Bool.toNat_false, Bool.toNat_true] at this
    simp only [Mem.setFlag, total_cons, total_nil, raising, lowering]
    omega
  | count i sp =>
    simp only [total_cons, total_nil, raising, lowering]
    omega
  | @clear _ y _ _ i hc =>
    obtain ⟨hi, -⟩ := hl i hc.worker
    rcases hc.cases with ⟨hf, rfl, rfl⟩ | ⟨-, rfl, rfl | rfl⟩
    · have := raised_update n i m.flag false hi
      simp only [hf, Bool.toNat_false, Bool.toNat_true] at this
      simp only [Mem.setFlag, total_cons, total_nil, raising_decCount, lowering_decCount, hc.raising.1, hc.raising.2,
        hc.lowering.1, hc.lowering.2]
      omega
    · simp [hc.raising.1, hc.raising.2, hc.lowering.1, hc.lowering.2]
    · simp [hc.raising.1, hc.raising.2, hc.lowering.1, hc.lowering.2]
  | claim who k hk hf =>
    have := raised_update n k m.flag false hk
    simp only [hf, Bool.toNat_false, Bool.toNat_true] at this
    have hr : total raising (resume who) = 0 ∧ total lowering (resume who) = 0 := by
      cases who <;> exact ⟨rfl, rfl⟩
    simp only [Mem.setFlag, total_cons, raising, lowering, hr.1, hr.2]
    omega
  | needed force => cases force <;> simp [raising, lowering]
  | token sp hop => rcases hop with rfl | rfl <;> simp [raising, lowering]
  | lower =>
    simp only [total_nil, raising, lowering]
    omega
  | _ => simp [raising, lowering, Mem.setPermit]

/-- An operation that does not attend to the injector can go. -/
theorem Attended.keep (h : Attended n m (A ++ op :: B)) (hflag : m'.flag = m.flag)
    (hop : op.worker.isSome = true → op.committed = true) (h1 : ∀ force, op ≠ .loadCount none force) (h2 : op ≠ .casSpec none)
    (h3 : op ≠ .incSpec none) (h4 : ∀ k < n, op ≠ .wake none k) : Attended n m' (A ++ (new ++ B)) := by
  have hkeep : ∀ y, y ≠ op → y ∈ A ++ op :: B → y ∈ A ++ (new ++ B) := by
    intro y hy hmem
    simp only [List.mem_append, List.mem_cons, hy, false_or] at hmem ⊢
    exact hmem.imp_right Or.inr
  unfold Attended
  rw [hflag]
  rcases h with ⟨y, hy, hw, hc⟩ | h | ⟨force, h⟩ | h | h | ⟨k, j, h, hk, hj, hf⟩
  · refine Or.inl ⟨y, hkeep y ?_ hy, hw, hc⟩
    rintro rfl
    rw [hop hw] at hc
    cases hc
  · exact Or.inr (Or.inl h)
  · exact Or.inr (Or.inr (Or.inl ⟨force, hkeep _ (h1 force).symm h⟩))
  · exact Or.inr (Or.inr (Or.inr (Or.inl (hkeep _ h2.symm h))))
  · exact Or.inr (Or.inr (Or.inr (Or.inr (Or.inl (hkeep _ h3.symm h)))))
  · exact Or.inr (Or.inr (Or.inr (Or.inr (Or.inr ⟨k, j, hkeep _ (h4 k (by omega)).symm h, hk, hj, hf⟩))))

/-- With `idle_count` at zero, some worker has still to look at the injector, or was claimed. -/
theorem Inv.attended_of_idleCount {ops : List (Op η)} (hI : Inv n m ops) (hn : 0 < n) (h0 : m.idleCount = 0) :
    (∃ y ∈ ops, y.worker.isSome ∧ y.committed = false) ∨ ∃ i < n, m.flag i = false := by
  by_contra hcon
  simp only [not_or, not_exists, not_and, Bool.not_eq_false] at hcon
  obtain ⟨hcom, hflag⟩ := hcon
  have hraising : total raising ops = 0 := by
    refine total_eq_zero_iff.mpr (fun y hy => ?_)
    have := hcom y hy
    cases y <;> first | rfl | simp [Op.worker, Op.committed] at this
  have hraised : 0 < raised n m.flag :=
    total_pos_iff.mpr ⟨0, List.mem_range.mpr hn, by simp [hflag 0 hn]⟩
  have := hI.count
  omega

/-- A step that elides no wake-up for nothing keeps the injector attended to. -/
theorem Move.attended (h : Move n m op c m' new) (hn : 0 < n) (hI : Inv n m (A ++ op :: B))
    (hok : ¬Elided n m (A ++ op :: B) (.exec op c)) (hinj : m'.injector ≠ []) : Attended n m' (A ++ (new ++ B)) := by
  cases h with
  | @walk _ x _ _ i hw =>
    cases hx : x.committed with
    | false => exact Or.inl ⟨x, by simp, by simp [hw.worker'], hx⟩
    | true =>
      rcases hw.committed hx with he | ⟨hop, hsame⟩
      · exact absurd he hinj
      · refine (hI.attended (hsame ▸ hinj)).keep hw.flag (fun _ => hop) ?_ ?_ ?_ ?_
        all_goals
          intros
          rintro rfl
          cases hw.worker
  | raise i sp => exact Or.inl ⟨.incCount i sp, by simp, rfl, rfl⟩
  | count i sp => exact Or.inl ⟨.own .rescan i sp, by simp, rfl, rfl⟩
  | @clear _ x _ _ i hc =>
    refine Or.inl ⟨x, ?_, by simp [hc.worker'], hc.committed⟩
    rcases hc.cases with ⟨-, -, rfl⟩ | ⟨-, -, rfl | rfl⟩ <;> simp
  | park i hp => exact Or.inl ⟨.clearWake i, by simp, rfl, rfl⟩
  | claim who k hk hf => exact Or.inr (Or.inl ⟨k, hk, by simp [Mem.setFlag]⟩)
  | unneeded force h0 =>
    rcases hI.attended_of_idleCount hn h0 with ⟨y, hy, hw, hc⟩ | hf
    · refine Or.inl ⟨y, ?_, hw, hc⟩
      have hne : y ≠ .loadCount none force := by
        rintro rfl
        cases hw
      simpa [hne] using hy
    · exact Or.inr (Or.inl hf)
  | needed force =>
    cases force
    · exact Or.inr (Or.inr (Or.inr (Or.inl (by simp))))
    · exact Or.inr (Or.inr (Or.inr (Or.inr (Or.inl (by simp)))))
  | elide hsp =>
    by_cases h1 : ∀ y ∈ A ++ .casSpec none :: B, y.worker.isSome → y.committed
    · by_cases h2 : ∀ i < n, m.flag i = true
      · by_cases h3 : ∀ k < n, Op.wake none k ∉ A ++ .casSpec none :: B
        · exact absurd ⟨hsp, h1, h2, h3⟩ hok
        · push Not at h3
          obtain ⟨k, hk, hmem⟩ := h3
          exact Or.inr (Or.inr (Or.inr (Or.inr (Or.inr ⟨k, k, by simpa using hmem, Nat.le_refl k, hk, h2 k hk⟩))))
      · push Not at h2
        obtain ⟨i, hi, hf⟩ := h2
        exact Or.inr (Or.inl ⟨i, hi, by simpa using hf⟩)
    · push Not at h1
      obtain ⟨y, hy, hw, hc⟩ := h1
      have hne : y ≠ .casSpec none := by
        rintro rfl
        cases hw
      exact Or.inl ⟨y, by simpa [hne] using hy, hw, by simpa using hc⟩
  | token sp hop =>
    cases hf : m.flag 0 with
    | false => exact Or.inr (Or.inl ⟨0, hn, hf⟩)
    | true => exact Or.inr (Or.inr (Or.inr (Or.inr (Or.inr ⟨0, 0, by simp, Nat.le_refl 0, hn, hf⟩))))
  | pass k hf =>
    rcases hI.attended hinj with ⟨y, hy, hw, hc⟩ | h | ⟨force, h⟩ | h | h | ⟨k', j, h, hk, hj, hf'⟩
    · have hne : y ≠ .wake none k := by
        rintro rfl
        cases hw
      exact Or.inl ⟨y, by simpa [hne] using Or.imp_right Or.inr (by simpa [hne] using hy), hw, hc⟩
    · exact Or.inr (Or.inl h)
    · exact Or.inr (Or.inr (Or.inl ⟨force, by simpa using h⟩))
    · exact Or.inr (Or.inr (Or.inr (Or.inl (by simpa using h))))
    · exact Or.inr (Or.inr (Or.inr (Or.inr (Or.inl (by simpa using h)))))
    · -- the scan that has a raised flag ahead is another one, or it has just passed a lowered one
      by_cases hkk : k' = k
      · subst hkk
        refine Or.inr (Or.inr (Or.inr (Or.inr (Or.inr ⟨k' + 1, j, by simp, ?_, hj, hf'⟩))))
        rcases Nat.lt_or_eq_of_le hk with hlt | rfl
        · exact hlt
        · rw [hf] at hf'
          cases hf'
      · have hmem : Op.wake none k' ∈ A ++ ([.wake none (k + 1)] ++ B) := by
          have hne : (Op.wake none k' : Op η) ≠ .wake none k := fun he => hkk (by injection he)
          simp only [List.mem_append, List.mem_cons, hne, false_or] at h ⊢
          exact h.imp_right Or.inr
        exact Or.inr (Or.inr (Or.inr (Or.inr (Or.inr ⟨k', j, hmem, hk, hj, hf'⟩))))
  | giveBack k hk =>
    refine (hI.attended hinj).keep rfl (by simp [Op.worker]) (by simp) (by simp) (by simp) (fun k' hk' he => ?_)
    obtain rfl : k = k' := by injection he
    omega
  | lower => exact (hI.attended hinj).keep rfl (by simp) (by simp) (by simp) (by simp) (by simp)
  | absorb => exact (hI.attended hinj).keep rfl (by simp) (by simp) (by simp) (by simp) (by simp)
  | unpark k => exact (hI.attended hinj).keep rfl (by simp) (by simp) (by simp) (by simp) (by simp)

/-- A worker at the operation performed is at no other place. -/
theorem Sited.alone (hI : Sited n m (A ++ op :: B)) {y : Op η} {i : Nat} (hy : y ∈ A ++ B) (hi : y.worker = some i) :
    op.worker ≠ some i := by
  intro hop
  have hle : total (Work.ctl i) (A ++ op :: B) ≤ 1 := by
    rcases Nat.lt_or_ge i n with hlt | hge
    · exact Nat.le_of_eq (hI.one i hlt)
    · rw [hI.beyond i hge]
      omega
  have := eq_zero_of_total_le hle (by simp [Work.ctl, hop]) y hy
  simp [Work.ctl, hi] at this

/-- The workers are numbered below `n`. -/
theorem Sited.lt {ops : List (Op η)} (hI : Sited n m ops) {y : Op η} {i : Nat} (hy : y ∈ ops) (hi : y.worker = some i) : i < n := by
  by_contra hge
  have := total_eq_zero_iff.mp (hI.beyond i (by omega)) y hy
  simp [Work.ctl, hi] at this

/-- A step before the workers are stopped keeps what holds around them. -/
theorem Sited.move (hI : Sited n m (A ++ op :: B)) (h : Move n m op c m' new) : Sited n m' (A ++ (new ++ B)) := by
  have hctl : ∀ i, total (Work.ctl i) (A ++ (new ++ B)) = total (Work.ctl i) (A ++ op :: B) := by
    intro i
    simp only [total_append, total_cons, h.ctl i]
  have hplace : ∀ i, op.worker = some i → Local m (A ++ op :: B) op i := hI.place op (by simp)
  refine ⟨fun i hi => (hctl i).trans (hI.one i hi), fun i hi => (hctl i).trans (hI.beyond i hi), fun y hy j hj => ?_, ?_⟩
  · rcases (Machine.mem_beside hy).symm with hy | hy
    · have hne := hI.alone hy hj
      have hL := hI.place y (Machine.mem_before op hy) j hj
      obtain ⟨hflag, hpermit, hdeque⟩ := h.other j hne
      refine ⟨hL.stays, fun hd => ?_, fun hp hf => ?_, fun hd => hdeque (hL.dry hd)⟩
      · rcases hflag with hflag | hflag
        · rw [hflag]
          exact hL.idle hd
        · exact hflag.1
      · rcases hflag with hflag | ⟨-, -, hmem⟩
        · rw [hflag] at hf
          rcases hL.parking hp hf with hx | hx
          · exact Or.inl (hpermit (Or.inl hx))
          · by_cases hop : op = .unpark j
            · exact Or.inl (hpermit (Or.inr hop))
            · have hx : Op.unpark j ∈ A ∨ Op.unpark j ∈ B := by simpa [Ne.symm hop] using hx
              exact Or.inr (by rcases hx with hx | hx <;> simp [hx])
        · exact Or.inr (by simp [hmem])
    · exact h.place hplace y hy j hj
  · have h1 := hI.count
    have h2 := h.idleCount (fun i hi => ⟨hI.lt (by simp) hi, (hplace i hi).idle⟩)
    simp only [total_append, total_cons, Int.natCast_add] at h1 ⊢
    omega

/-- A step before the workers are stopped keeps the invariant. -/
theorem Inv.move (hI : Inv n m (A ++ op :: B)) (hn : 0 < n) (hok : ¬Elided n m (A ++ op :: B) (.exec op c))
    (h : Move n m op c m' new) : Inv n m' (A ++ (new ++ B)) := by
  obtain ⟨hone, hbeyond, hplace, hcount⟩ := hI.sited.move h
  exact ⟨hone, hbeyond, hplace, hcount, h.attended hn hI hok⟩

/-- The call of a thread that is not a worker pushes to the injector. -/
theorem call_eq {l : Call η} (h : call n m l = some (m', new)) (hs : m'.stopping = false) :
    ∃ force q, m' = { m with injector := q } ∧ new = [.loadCount none force] := by
  cases l <;> simp only [Work.call, Option.some.injEq, Prod.mk.injEq] at h
  case stop =>
    rw [← h.1] at hs
    cases hs
  all_goals exact ⟨_, _, h.1.symm, h.2.symm⟩

/-- Such a call keeps what holds around the workers. -/
theorem Sited.call {ops : List (Op η)} {l : Call η} (hI : Sited n m ops) (h : call n m l = some (m', new))
    (hs : m'.stopping = false) : Sited n m' (ops ++ new) := by
  obtain ⟨force, q, rfl, rfl⟩ := call_eq h hs
  refine ⟨fun i hi => ?_, fun i hi => ?_, fun y hy i hi => ?_, ?_⟩
  · simpa [Work.ctl, Op.worker] using hI.one i hi
  · simpa [Work.ctl, Op.worker] using hI.beyond i hi
  · rcases List.mem_append.mp hy with hy | hy
    · have hL := hI.place y hy i hi
      exact ⟨hL.stays, hL.idle, fun hp hf => (hL.parking hp hf).imp_right (List.mem_append_left _), hL.dry⟩
    · obtain rfl := List.mem_singleton.mp hy
      cases hi
  · simpa [raising, lowering] using hI.count

/-- The call of a thread that is not a worker keeps the invariant. -/
theorem Inv.call {ops : List (Op η)} {l : Call η} (hI : Inv n m ops) (h : call n m l = some (m', new))
    (hs : m'.stopping = false) : Inv n m' (ops ++ new) := by
  obtain ⟨hone, hbeyond, hplace, hcount⟩ := hI.sited.call h hs
  obtain ⟨force, q, rfl, rfl⟩ := call_eq h hs
  exact ⟨hone, hbeyond, hplace, hcount, fun _ => Or.inr (Or.inr (Or.inl ⟨force, by simp⟩))⟩

end

/-- Only `stop_threads` stops the workers. -/
theorem exec_stopping {n : Nat} {m m' : Mem η} {op : Op η} {c : Choice η} {new : List (Op η)}
    (h : exec n m op c = some (m', new)) : m'.stopping = m.stopping := by
  have hclear : ∀ i up down, (m.clearIdle i up down).1.stopping = m.stopping := by
    intro i up down
    unfold Mem.clearIdle
    split <;> rfl
  unfold exec at h
  grind [Mem.setDeque, Mem.setFlag, Mem.setPermit]

/-- The workers start at the first scan. -/
theorem ops_initial (n : Nat) : (initial (η := η) n).ops = (List.range n).map (fun i => .own .scan i false) := by
  unfold initial State.ops
  induction n with
  | zero => rfl
  | succ n ih => simp only [List.range_succ, List.map_append, List.flatten_append, ih, List.map_cons, List.map_nil,
      List.flatten_cons, List.flatten_nil, List.append_nil]

theorem total_ctl_initial (n i : Nat) : total (ctl i) (initial (η := η) n).ops = if i < n then 1 else 0 := by
  rw [ops_initial]
  induction n with
  | zero => rfl
  | succ n ih =>
    simp only [List.range_succ, List.map_append, total_append, ih, List.map_cons, List.map_nil, total_cons, total_nil, ctl,
      Op.worker, Option.some.injEq, Nat.add_zero]
    split <;> split <;> split <;> omega

theorem Sited.initial (n : Nat) : Sited (η := η) n (initial n).mem (initial n).ops := by
  have hall : ∀ y ∈ (Work.initial (η := η) n).ops, ∃ i, y = .own .scan i false := by
    intro y hy
    rw [ops_initial] at hy
    obtain ⟨i, -, rfl⟩ := List.mem_map.mp hy
    exact ⟨i, rfl⟩
  refine ⟨fun i hi => by simp [total_ctl_initial, hi], fun i hi => by simp [total_ctl_initial, Nat.not_lt.mpr hi], fun y hy i hi => ?_,
    ?_⟩
  · obtain ⟨j, rfl⟩ := hall y hy
    exact ⟨rfl, fun _ => rfl, by simp [Op.parking], by simp [Op.dry]⟩
  · have h1 : total raising (Work.initial (η := η) n).ops = 0 := by
      refine total_eq_zero_iff.mpr (fun y hy => ?_)
      obtain ⟨j, rfl⟩ := hall y hy
      rfl
    have h2 : total lowering (Work.initial (η := η) n).ops = 0 := by
      refine total_eq_zero_iff.mpr (fun y hy => ?_)
      obtain ⟨j, rfl⟩ := hall y hy
      rfl
    have h3 : raised n (Work.initial (η := η) n).mem.flag = 0 := total_eq_zero_iff.mpr (fun _ _ => rfl)
    rw [h1, h2, h3]
    rfl

/-- Before the workers are stopped none is at the place of one that leaves. -/
theorem Sited.leaving {n : Nat} {m : Mem η} {ops : List (Op η)} (hI : Sited n m ops) {op : Op η} (hop : op ∈ ops) : op.leaving = false := by
  cases hw : op.worker with
  | none => cases op <;> first | rfl | cases hw
  | some i => exact (hI.place op hop i hw).stays

/-- Before the workers are stopped a call does not find them stopped. -/
theorem call_stopping {n : Nat} {m m' : Mem η} {l : Call η} {new : List (Op η)} (hc : call n m l = some (m', new))
    (hs : m'.stopping = false) : m.stopping = false := by
  obtain ⟨force, q, rfl, -⟩ := call_eq hc hs
  exact hs

/-- In every state before the workers are stopped, of every run. -/
theorem Sited.reach {n : Nat} {ok : Mem η → List (Op η) → Act (Op η) (Choice η) (Call η) → Prop} {s : State (Mem η) (Op η)}
    (h : (machine n).Reach ok (Work.initial n) s) (hs : s.mem.stopping = false) : Sited n s.mem s.ops := by
  refine h.invariant (I := fun m ops => m.stopping = false → Sited n m ops) (fun _ => Sited.initial n) ?_ ?_ hs
  · intro m A op B c m' new hI _ he hs
    rw [exec_stopping he] at hs
    exact (hI hs).move (exec_move hs ((hI hs).leaving (by simp)) he)
  · intro m ops l m' new hI _ hc hs
    exact (hI (call_stopping hc hs)).call hc hs

/-- In every state before the workers are stopped, of every run that elides no wake-up for nothing. -/
theorem Inv.reach {n : Nat} (hn : 0 < n) {s : State (Mem η) (Op η)}
    (h : (machine n).Reach (fun m ops a => ¬Elided n m ops a) (Work.initial n) s) (hs : s.mem.stopping = false) :
    Inv n s.mem s.ops := by
  have hinit : Inv (η := η) n (Work.initial n).mem (Work.initial n).ops := by
    obtain ⟨hone, hbeyond, hplace, hcount⟩ := Sited.initial (η := η) n
    exact ⟨hone, hbeyond, hplace, hcount, fun h => absurd rfl h⟩
  refine h.invariant (I := fun m ops => m.stopping = false → Inv n m ops) (fun _ => hinit) ?_ ?_ hs
  · intro m A op B c m' new hI hok he hs
    rw [exec_stopping he] at hs
    exact (hI hs).move hn hok (exec_move hs ((hI hs).sited.leaving (by simp)) he)
  · intro m ops l m' new hI _ hc hs
    exact (hI (call_stopping hc hs)).call hc hs

end Tonio.Work
