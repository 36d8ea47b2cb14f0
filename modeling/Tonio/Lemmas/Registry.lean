import Tonio.Registry

/-!
# Entries and their references

The references of an entry are counted where they are: in the map, among the parked entries, with the objects that were handed the
entry, and with the threads in `io_register` and `io_deregister` (`Counted`). So an address is not given to a new entry while the old
one is anywhere, and what is said of an address in `Sound` is said of one entry: a token the system knows is registered or
about to be deregistered, and a token of the batch that is dispatched has not been released.
-/

namespace Tonio.Registry

open Interleaving

variable {m m' : Mem} {A B new ops : List Op} {op : Op} {c : Choice} {t : Nat}

/-! ## The steps -/

/-- What an operation does. -/
inductive Move (m : Mem) : Op → Mem → List Op → Prop where
  | insert (t : Nat) : Move m (.insert t) { m.clone t 1 with regs := t :: m.regs } [.register t]
  | register (t : Nat) :
      Move m (.register t) { m with kernel := Function.update m.kernel t true, held := Function.update m.held t (m.held t + 1) } []
  | fail (t : Nat) : Move m (.register t) m [.undo t]
  | undo (t : Nat) : Move m (.undo t) { m.release t (1 + m.regs.count t) with regs := removeKey m.regs t } []
  | remove (t : Nat) (ht : t ∈ m.regs) : Move m (.remove t) { m with regs := removeKey m.regs t } [.deregister t]
  | gone (t : Nat) (ht : t ∉ m.regs) : Move m (.remove t) (m.release t 1) []
  | deregister (t : Nat) :
      Move m (.deregister t) { m with kernel := if m.registry then Function.update m.kernel t false else m.kernel } [.shutdown t]
  | shutdown (t : Nat) : Move m (.shutdown t) m [.park t]
  | park (t : Nat) : Move m (.park t) { m.clone t 1 with pending := m.pending ++ [t] } [.setNeedsRelease t]
  | setNeedsRelease (t : Nat) : Move m (.setNeedsRelease t) { m.release t 2 with needsRelease := true } []
  | release : Move m .release { m with needsRelease := false } [if m.needsRelease then .clearPending else .collect]
  | clearPending : Move m .clearPending { m with pending := [], strong := fun t => m.strong t - m.pending.count t } [.collect]
  | collect (ts : List Nat) (hts : ∀ t ∈ ts, m.kernel t = true) : Move m .collect m [.dispatch ts]
  | dispatch (t : Nat) (ts : List Nat) : Move m (.dispatch (t :: ts)) m [.dispatch ts]
  | again : Move m (.dispatch []) m [.release]
  | stop : Move m (.dispatch []) { m with stopped := true } [.cleanup]
  | entry (t : Nat) : Move m .cleanup { m with kernel := Function.update m.kernel t false } [.cleanup]
  | cleanup : Move m .cleanup m [.clearRegs]
  | clearRegs : Move m .clearRegs { m with regs := [], strong := fun t => m.strong t - m.regs.count t } [.resetNeedsRelease]
  | resetNeedsRelease : Move m .resetNeedsRelease { m with needsRelease := false } [.clearParked]
  | clearParked :
      Move m .clearParked { m with pending := [], strong := fun t => m.strong t - m.pending.count t } [.dropRegistry]
  | dropRegistry : Move m .dropRegistry { m with registry := false } []

/-- Every step is one of these. -/
theorem exec_move (he : exec m op c = some (m', new)) : Move m op m' new := by
  cases op
  case dispatch ts =>
    cases ts with
    | nil =>
      cases c <;> simp only [exec, reduceCtorEq, Option.some.injEq, Prod.mk.injEq] at he <;> obtain ⟨rfl, rfl⟩ := he
      · exact .again
      · exact .stop
    | cons t ts =>
      cases c <;> simp only [exec, reduceCtorEq, Option.some.injEq, Prod.mk.injEq] at he
      obtain ⟨rfl, rfl⟩ := he
      exact .dispatch t ts
  all_goals
    cases c <;> simp only [exec, reduceCtorEq, Option.some.injEq, Prod.mk.injEq] at he
  case remove.go t =>
    split at he
    · rename_i ht
      obtain ⟨rfl, rfl⟩ : _ ∧ _ := by simpa using he
      exact .remove t ht
    · rename_i ht
      obtain ⟨rfl, rfl⟩ : _ ∧ _ := by simpa using he
      exact .gone t ht
  case collect.batch ts =>
    split at he
    · rename_i hts
      obtain ⟨rfl, rfl⟩ : _ ∧ _ := by simpa using he
      exact .collect ts (List.all_eq_true.mp hts)
    · cases he
  case cleanup.entry t =>
    split at he
    · obtain ⟨rfl, rfl⟩ : _ ∧ _ := by simpa using he
      exact .entry t
    · cases he
  all_goals
    obtain ⟨rfl, rfl⟩ := he
    constructor

/-! ## Where the references are -/

/-- The entry a thread in `io_register` has made. -/
def Op.registers : Op → Option Nat
  | .insert t | .register t | .undo t => some t
  | _ => none

/-- The entry a thread in `io_deregister` lives on. -/
def Op.lends : Op → Option Nat
  | .remove t | .deregister t | .shutdown t | .park t | .setNeedsRelease t => some t
  | _ => none

/-- The entry a thread in `io_deregister` has taken out of the map. -/
def Op.took : Op → Option Nat
  | .deregister t | .shutdown t | .park t | .setNeedsRelease t => some t
  | _ => none

/-- The entry that is about to be put into the map. -/
def Op.inserts : Op → Option Nat
  | .insert t => some t
  | _ => none

/-- The operations of the thread that polls. -/
def polls : Op → Nat
  | .release | .clearPending | .collect | .dispatch _ | .cleanup | .clearRegs | .resetNeedsRelease | .clearParked | .dropRegistry => 1
  | _ => 0

/-- The references of an entry that go with an operation. -/
def owns (t : Nat) (op : Op) : Nat := isAt op.registers t + isAt op.lends t + isAt op.took t

/-- Whether an operation is about to put an entry into the map. -/
def inserting (t : Nat) (op : Op) : Nat := isAt op.inserts t

/-- Whether an operation is of the `io_register` of an entry. -/
def registering (t : Nat) (op : Op) : Nat := isAt op.registers t

/-- Whether an operation is of an `io_deregister` of an entry. -/
def lending (t : Nat) (op : Op) : Nat := isAt op.lends t

theorem inserting_le (t : Nat) (op : Op) : inserting t op ≤ registering t op := by
  cases op <;> simp [inserting, registering, Op.inserts, Op.registers]

theorem registering_le (t : Nat) (op : Op) : registering t op ≤ owns t op := by
  unfold registering owns
  omega

theorem lending_le (t : Nat) (op : Op) : lending t op ≤ owns t op := by
  unfold lending owns
  omega

/-- The references of every entry are counted, an entry is once in the map, and one thread polls. -/
structure Counted (m : Mem) (ops : List Op) : Prop where
  strong : ∀ t, m.strong t = m.regs.count t + m.pending.count t + m.held t + total (owns t) ops
  once : ∀ t, m.regs.count t + total (inserting t) ops ≤ 1
  poller : total polls ops ≤ 1

theorem mem_removeKey {regs : List Nat} {t u : Nat} : t ∈ removeKey regs u ↔ t ∈ regs ∧ t ≠ u := by
  simp [removeKey]

theorem count_removeKey_self (regs : List Nat) (t : Nat) : (removeKey regs t).count t = 0 :=
  List.count_eq_zero.mpr (fun h => (mem_removeKey.mp h).2 rfl)

theorem count_removeKey_of_ne (regs : List Nat) {t u : Nat} (h : t ≠ u) : (removeKey regs u).count t = regs.count t :=
  List.count_filter (by simpa using h)

theorem Move.strong (h : Move m op m' new) (t X : Nat) (honce : ∀ u, m.regs.count u ≤ 1)
    (hs : m.strong t = m.regs.count t + m.pending.count t + m.held t + (X + owns t op)) :
    m'.strong t = m'.regs.count t + m'.pending.count t + m'.held t + (X + total (owns t) new) := by
  cases h with
  | insert u | register u | undo u | gone u hu | park u | setNeedsRelease u =>
    by_cases htu : t = u
    · subst htu
      simp [owns, Op.registers, Op.lends, Op.took, Mem.clone, Mem.release, count_removeKey_self] at hs ⊢
      omega
    · simp [owns, Op.registers, Op.lends, Op.took, Mem.clone, Mem.release, htu, count_removeKey_of_ne,
        isAt_some_of_ne (Ne.symm htu), Ne.symm htu] at hs ⊢
      omega
  | remove u hu =>
    by_cases htu : t = u
    · subst htu
      have h1 := honce t
      have h2 : 0 < m.regs.count t := List.count_pos_iff.mpr hu
      simp [owns, Op.registers, Op.lends, Op.took, count_removeKey_self] at hs ⊢
      omega
    · simp [owns, Op.registers, Op.lends, Op.took, htu, count_removeKey_of_ne, isAt_some_of_ne (Ne.symm htu)] at hs ⊢
      omega
  | release => split <;> simpa [owns, Op.registers, Op.lends, Op.took] using hs
  | _ =>
    simp [owns, Op.registers, Op.lends, Op.took] at hs ⊢
    omega

theorem Move.once (h : Move m op m' new) (t : Nat) :
    m'.regs.count t + total (inserting t) new ≤ m.regs.count t + inserting t op := by
  cases h with
  | insert u =>
    by_cases htu : t = u
    · subst htu
      simp [inserting, Op.inserts]
    · simp [inserting, Op.inserts, Ne.symm htu]
  | undo u | remove u hu =>
    by_cases htu : t = u
    · subst htu
      simp [inserting, Op.inserts, count_removeKey_self]
    · simp [inserting, Op.inserts, count_removeKey_of_ne _ htu]
  | release => split <;> simp [inserting, Op.inserts]
  | _ => simp [inserting, Op.inserts, Mem.clone, Mem.release]

theorem Move.polls_eq (h : Move m op m' new) : total polls new ≤ polls op := by
  cases h with
  | release => split <;> simp [polls]
  | _ => simp [polls]

theorem Counted.move (h : Counted m (A ++ op :: B)) (hm : Move m op m' new) : Counted m' (A ++ (new ++ B)) where
  strong := by
    intro t
    have h1 := h.strong t
    have h2 := hm.strong t (total (owns t) A + total (owns t) B)
      (fun u => by have := h.once u; omega) (by simp only [total_append, total_cons] at h1; omega)
    simp only [total_append] at h2 ⊢
    omega
  once := by
    intro t
    have h1 := h.once t
    have h2 := hm.once t
    have h3 := total_step (inserting t) A B new op
    omega
  poller := by
    have h1 := h.poller
    have h2 := hm.polls_eq
    have h3 := total_step polls A B new op
    omega

/-- An entry without references is nowhere. -/
theorem Counted.free (h : Counted m ops) (ht : m.strong t = 0) :
    m.regs.count t = 0 ∧ m.held t = 0 ∧ total (registering t) ops = 0 ∧ total (lending t) ops = 0 ∧ m.pending.count t = 0 := by
  have h1 := h.strong t
  have h2 := total_mono (registering_le t) ops
  have h3 := total_mono (lending_le t) ops
  omega

theorem Counted.call {l : Call} (h : Counted m ops) (hc : call m l = some (m', new)) : Counted m' (ops ++ new) := by
  cases l with
  | register u =>
    simp only [Registry.call] at hc
    split at hc
    · rename_i hu
      obtain ⟨rfl, rfl⟩ : _ ∧ _ := by simpa using hc
      refine ⟨fun t => ?_, fun t => ?_, by simpa [polls] using h.poller⟩
      · have h1 := h.strong t
        by_cases htu : t = u
        · subst htu
          simp [owns, Op.registers, Op.lends, Op.took, Mem.clone] at h1 ⊢
          omega
        · simp [owns, Op.registers, Op.lends, Op.took, Mem.clone, htu, isAt_some_of_ne (Ne.symm htu)] at h1 ⊢
          omega
      · by_cases htu : t = u
        · subst htu
          have h2 := h.free hu.2
          have h3 := total_mono (inserting_le t) ops
          rw [total_append, show total (inserting t) [.insert t] = 1 by simp [inserting, Op.inserts],
            show (m.clone t 1).regs = m.regs from rfl]
          omega
        · simpa [inserting, Op.inserts, Mem.clone, isAt_some_of_ne (Ne.symm htu)] using h.once t
    · cases hc
  | deregister u =>
    simp only [Registry.call] at hc
    split at hc
    · obtain ⟨rfl, rfl⟩ : _ ∧ _ := by simpa using hc
      refine ⟨fun t => ?_, fun t => by simpa [inserting, Op.inserts, Mem.clone] using h.once t, by simpa [polls] using h.poller⟩
      have h1 := h.strong t
      by_cases htu : t = u
      · subst htu
        simp [owns, Op.registers, Op.lends, Op.took, Mem.clone] at h1 ⊢
        omega
      · simp [owns, Op.registers, Op.lends, Op.took, Mem.clone, htu, isAt_some_of_ne (Ne.symm htu)] at h1 ⊢
        omega
    · cases hc
  | drop u =>
    simp only [Registry.call] at hc
    split at hc
    · rename_i hu
      obtain ⟨rfl, rfl⟩ : _ ∧ _ := by simpa using hc
      refine ⟨fun t => ?_, fun t => by simpa [Mem.release] using h.once t, by simpa using h.poller⟩
      have h1 := h.strong t
      by_cases htu : t = u
      · subst htu
        simp [Mem.release] at h1 ⊢
        omega
      · simp [Mem.release, htu] at h1 ⊢
        omega
    · cases hc

theorem counted_of_reach {ok : Mem → List Op → Act Op Choice Call → Prop} {s : State Mem Op} (h : machine.Reach ok initial s) :
    Counted s.mem s.ops := by
  refine h.invariant (I := Counted) ?_ ?_ ?_
  · exact ⟨fun t => rfl, fun t => by simp [initial, State.ops, inserting, Op.inserts], by decide⟩
  · exact fun m A op B c m' new hI _ he => hI.move (exec_move he)
  · exact fun m ops l m' new hI _ hc => hI.call hc

/-! ## The tokens the system knows -/

/-- The operations of the end of the loop. -/
def Op.tearsDown : Op → Bool
  | .cleanup | .clearRegs | .resetNeedsRelease | .clearParked | .dropRegistry => true
  | _ => false

/-- What holds of every entry before the loop ends. `kernel`: a token the system knows is registered, or about to be deregistered.
`batch`: a token that is to be dispatched has not been released. `fresh`: an entry whose registration is in progress is known to
nobody else. `mapped`: it is in the map when the system is asked. -/
structure Sound (m : Mem) (ops : List Op) : Prop where
  registry : m.registry = true
  quiet : ∀ x ∈ ops, x.tearsDown = false
  kernel : ∀ t, m.kernel t = true → t ∈ m.regs ∨ Op.deregister t ∈ ops
  batch : ∀ ts, Op.dispatch ts ∈ ops → ∀ t ∈ ts, Unreleased m ops t
  fresh : ∀ t, 0 < total (registering t) ops → total (registering t) ops ≤ 1 ∧ m.held t = 0 ∧ m.kernel t = false ∧
    total (lending t) ops = 0 ∧ ∀ ts, Op.dispatch ts ∈ ops → t ∉ ts
  mapped : ∀ t, Op.register t ∈ ops → t ∈ m.regs

/-- A step keeps an entry in the map, unless it takes it out. -/
theorem Move.mem_regs (h : Move m op m' new) (hq : op.tearsDown = false) (ht : t ∈ m.regs) :
    t ∈ m'.regs ∨ op = .undo t ∨ (op = .remove t ∧ Op.deregister t ∈ new) := by
  cases h with
  | insert u => exact Or.inl (List.mem_cons_of_mem _ ht)
  | undo u =>
    by_cases htu : t = u
    · exact Or.inr (Or.inl (by rw [htu]))
    · exact Or.inl (mem_removeKey.mpr ⟨ht, htu⟩)
  | remove u hu =>
    by_cases htu : t = u
    · exact Or.inr (Or.inr ⟨by rw [htu], by simp [htu]⟩)
    · exact Or.inl (mem_removeKey.mpr ⟨ht, htu⟩)
  | clearRegs => cases hq
  | _ => exact Or.inl ht

/-- A deregistration goes on until the entry is parked. -/
theorem Move.closes (h : Move m op m' new) (ht : op.closes = some t) : (∃ x ∈ new, x.closes = some t) ∨ t ∈ m'.pending := by
  cases h with
  | deregister u | shutdown u => exact Or.inl ⟨_, List.mem_singleton_self _, ht⟩
  | park u =>
    obtain rfl : u = t := by simpa [Op.closes] using ht
    exact Or.inr (by simp)
  | _ => cases ht

/-- What is parked stays so until a release point. -/
theorem Move.mem_pending (h : Move m op m' new) (hq : op.tearsDown = false) (hop : op ≠ .clearPending) (ht : t ∈ m.pending) :
    t ∈ m'.pending := by
  cases h with
  | park u => exact List.mem_append_left _ ht
  | clearPending => exact absurd rfl hop
  | clearParked => cases hq
  | _ => exact ht

/-- An entry is released by a failed registration and at a release point only. -/
theorem Move.unreleased (h : Move m op m' new) (hq : op.tearsDown = false) (hop : op ≠ .clearPending) (hu : op ≠ .undo t)
    (ht : Unreleased m (A ++ op :: B) t) : Unreleased m' (A ++ (new ++ B)) t := by
  rcases ht with ht | ⟨x, hx, hxt⟩ | ht
  · rcases h.mem_regs hq ht with ht | ht | ⟨-, hd⟩
    · exact Or.inl ht
    · exact absurd ht hu
    · exact Or.inr (Or.inl ⟨_, Machine.mem_new hd, rfl⟩)
  · by_cases hxo : x = op
    · subst hxo
      rcases h.closes hxt with ⟨y, hy, hyt⟩ | ht
      · exact Or.inr (Or.inl ⟨y, Machine.mem_new hy, hyt⟩)
      · exact Or.inr (Or.inr ht)
    · exact Or.inr (Or.inl ⟨x, Machine.mem_keep hx hxo, hxt⟩)
  · exact Or.inr (Or.inr (h.mem_pending hq hop ht))

theorem Move.registering_le (h : Move m op m' new) (t : Nat) : total (registering t) new ≤ registering t op := by
  cases h with
  | release => split <;> simp [registering, Op.registers]
  | _ => simp [registering, Op.registers]

theorem Move.lending_le (h : Move m op m' new) (t : Nat) : total (lending t) new ≤ lending t op := by
  cases h with
  | release => split <;> simp [lending, Op.lends]
  | _ => simp [lending, Op.lends]

/-- A batch that is to be dispatched was collected by the step, or is the rest of one. -/
theorem Move.dispatch_mem (h : Move m op m' new) {ts : List Nat} (hx : Op.dispatch ts ∈ new) :
    (op = .collect ∧ m' = m ∧ ∀ t ∈ ts, m.kernel t = true) ∨ ∃ u, op = .dispatch (u :: ts) := by
  cases h with
  | collect us hus =>
    obtain rfl : ts = us := by simpa using hx
    exact Or.inl ⟨rfl, rfl, hus⟩
  | dispatch u us =>
    obtain rfl : ts = us := by simpa using hx
    exact Or.inr ⟨u, rfl⟩
  | release => split at hx <;> simp at hx
  | _ => simp at hx

/-- A token becomes known to the system by its registration, which hands the entry over. -/
theorem Move.kernel_held (h : Move m op m' new) (hr : m.registry = true) (t : Nat) :
    (op = .register t ∧ new = []) ∨
      (m'.held t = m.held t ∧ (m'.kernel t = true → m.kernel t = true ∧ op ≠ .deregister t)) := by
  cases h with
  | register u =>
    by_cases htu : t = u
    · exact Or.inl ⟨by rw [htu], rfl⟩
    · exact Or.inr ⟨by simp [htu], by simp [htu]⟩
  | deregister u =>
    right
    simp only [hr, if_true]
    by_cases htu : t = u
    · subst htu
      simp
    · simp [htu, Ne.symm htu]
  | entry u =>
    right
    by_cases htu : t = u
    · subst htu
      simp
    · simp [htu]
  | _ => exact Or.inr ⟨rfl, fun hk => ⟨hk, by simp⟩⟩

theorem Move.quiet (h : Move m op m' new) (hq : op.tearsDown = false) (hs : m'.stopped = false) :
    (∀ x ∈ new, x.tearsDown = false) ∧ m'.registry = m.registry := by
  cases h with
  | stop => cases hs
  | entry | cleanup | clearRegs | resetNeedsRelease | clearParked | dropRegistry => cases hq
  | release => exact ⟨by split <;> simp [Op.tearsDown], rfl⟩
  | _ => exact ⟨by simp [Op.tearsDown], rfl⟩

theorem Move.register_mem (h : Move m op m' new) (hx : Op.register t ∈ new) : t ∈ m'.regs := by
  cases h with
  | insert u =>
    obtain rfl : t = u := by simpa using hx
    simp
  | release => split at hx <;> simp at hx
  | _ => simp at hx

/-- Nothing else is of the `io_register` of the entry of the operation performed. -/
theorem Sound.beside (h : Sound m (A ++ op :: B)) (hop : op.registers = some t) : ∀ x ∈ A ++ B, x.registers ≠ some t := by
  have hpos : 0 < total (registering t) (A ++ op :: B) := total_pos_iff.mpr ⟨op, by simp, by simp [registering, hop]⟩
  exact fun x hx => key_ne_of_total_le (h.fresh t hpos).1 hop hx

theorem Sound.move (h : Sound m (A ++ op :: B)) (hC : Counted m (A ++ op :: B)) (hm : Move m op m' new)
    (hs : m'.stopped = false) : Sound m' (A ++ (new ++ B)) := by
  have hq : op.tearsDown = false := h.quiet op (by simp)
  obtain ⟨hnewq, hreg⟩ := hm.quiet hq hs
  -- an entry whose registration is in progress is not touched by any other thread
  have hfresh : ∀ t, op.registers = some t → m.held t = 0 ∧ m.kernel t = false ∧ total (lending t) (A ++ op :: B) = 0 ∧
      ∀ ts, Op.dispatch ts ∈ A ++ op :: B → t ∉ ts := fun t hop =>
    (h.fresh t (total_pos_iff.mpr ⟨op, by simp, by simp [registering, hop]⟩)).2
  refine ⟨hreg.trans h.registry, fun x hx => ?_, fun t hk => ?_, fun ts hts t ht => ?_, fun t hpos => ?_, fun t hx => ?_⟩
  · rcases Machine.mem_beside hx with hx | hx
    · exact hnewq x hx
    · exact h.quiet x (Machine.mem_before _ hx)
  · rcases hm.kernel_held h.registry t with ⟨rfl, rfl⟩ | ⟨-, hold⟩
    · left
      have := h.mapped t (by simp)
      rcases hm.mem_regs hq this with h1 | h1 | ⟨h1, -⟩
      · exact h1
      · cases h1
      · cases h1
    · obtain ⟨hk', hne⟩ := hold hk
      rcases h.kernel t hk' with hin | hin
      · rcases hm.mem_regs hq hin with h1 | rfl | ⟨-, h1⟩
        · exact Or.inl h1
        · rw [(hfresh t rfl).2.1] at hk'
          cases hk'
        · exact Or.inr (Machine.mem_new h1)
      · exact Or.inr (Machine.mem_keep hin (Ne.symm hne))
  · rcases Machine.mem_beside hts with hn | ho
    · rcases hm.dispatch_mem hn with ⟨rfl, rfl, hkern⟩ | ⟨u, rfl⟩
      · refine hm.unreleased hq (by simp) (by simp) ?_
        rcases h.kernel t (hkern t ht) with hin | hin
        · exact Or.inl hin
        · exact Or.inr (Or.inl ⟨_, hin, rfl⟩)
      · exact hm.unreleased hq (by simp) (by simp) (h.batch (u :: ts) (by simp) t (List.mem_cons_of_mem _ ht))
    · refine hm.unreleased hq ?_ ?_ (h.batch ts (Machine.mem_before _ ho) t ht)
      · rintro rfl
        -- the thread that polls would be at its release point
        have := eq_zero_of_total_le hC.poller rfl _ ho
        cases this
      · rintro rfl
        exact (hfresh t rfl).2.2.2 ts (Machine.mem_before _ ho) ht
  · have h1 := hm.registering_le t
    have h2 := total_step (registering t) A B new op
    obtain ⟨h3, hheld, hkern, hlend, hbatch⟩ := h.fresh t (by omega)
    have hnot : ¬(op = .register t ∧ new = []) := by
      rintro ⟨rfl, rfl⟩
      simp only [show registering t (.register t) = 1 by simp [registering, Op.registers], total_nil] at h2
      omega
    rcases hm.kernel_held h.registry t with hbad | ⟨hh, hk⟩
    · exact absurd hbad hnot
    · refine ⟨by omega, hh.trans hheld, ?_, ?_, fun ts hts => ?_⟩
      · cases hk' : m'.kernel t with
        | false => rfl
        | true =>
          rw [(hk hk').1] at hkern
          cases hkern
      · have h4 := hm.lending_le t
        have h5 := total_step (lending t) A B new op
        omega
      · rcases Machine.mem_beside hts with hn | ho
        · rcases hm.dispatch_mem hn with ⟨-, -, hall⟩ | ⟨u, rfl⟩
          · intro ht
            rw [hall t ht] at hkern
            cases hkern
          · exact fun ht => hbatch (u :: ts) (by simp) (List.mem_cons_of_mem _ ht)
        · exact hbatch ts (Machine.mem_before _ ho)
  · rcases Machine.mem_beside hx with hn | ho
    · exact hm.register_mem hn
    · rcases hm.mem_regs hq (h.mapped t (Machine.mem_before _ ho)) with h1 | rfl | ⟨rfl, -⟩
      · exact h1
      · exact absurd rfl (h.beside rfl _ ho)
      · have hpos : 0 < total (registering t) (A ++ .remove t :: B) :=
          total_pos_iff.mpr ⟨_, Machine.mem_before _ ho, by simp [registering, Op.registers]⟩
        have := key_ne_of_total_eq_zero (h.fresh t hpos).2.2.2.1 (x := .remove t) (by simp)
        exact absurd rfl this

/-- What an entry is known by is kept by further operations. -/
theorem Unreleased.append (h : Unreleased m ops t) (hr : m'.regs = m.regs) (hp : m'.pending = m.pending) :
    Unreleased m' (ops ++ new) t := by
  rcases h with h | ⟨x, hx, hxt⟩ | h
  · exact Or.inl (hr ▸ h)
  · exact Or.inr (Or.inl ⟨x, List.mem_append_left _ hx, hxt⟩)
  · exact Or.inr (Or.inr (hp ▸ h))

/-- An entry that has not been released has references. -/
theorem Counted.strong_pos (h : Counted m ops) (ht : Unreleased m ops t) : 0 < m.strong t := by
  rw [Nat.pos_iff_ne_zero]
  intro h0
  obtain ⟨h1, -, -, h4, h5⟩ := h.free h0
  rcases ht with ht | ⟨x, hx, hxt⟩ | ht
  · exact List.count_eq_zero.mp h1 ht
  · refine key_ne_of_total_eq_zero h4 hx ?_
    cases x <;> first | exact hxt | cases hxt
  · exact List.count_eq_zero.mp h5 ht

/-- A call adds the registration of an entry nobody holds, or the deregistration of one that was handed over, or nothing; it takes at
most something that was handed over. -/
theorem call_cases {l : Call} (hc : call m l = some (m', new)) :
    m'.regs = m.regs ∧ m'.pending = m.pending ∧ m'.registry = m.registry ∧ m'.kernel = m.kernel ∧ (∀ t, m'.held t ≤ m.held t) ∧
      ((∃ u, m.strong u = 0 ∧ new = [.insert u]) ∨ (∃ u, 0 < m.held u ∧ new = [.remove u]) ∨ new = []) := by
  cases l with
  | register u =>
    simp only [Registry.call] at hc
    split at hc
    · rename_i hu
      obtain ⟨rfl, rfl⟩ : _ ∧ _ := by simpa using hc
      exact ⟨rfl, rfl, rfl, rfl, fun t => Nat.le_refl _, Or.inl ⟨u, hu.2, rfl⟩⟩
    · cases hc
  | deregister u =>
    simp only [Registry.call] at hc
    split at hc
    · rename_i hu
      obtain ⟨rfl, rfl⟩ : _ ∧ _ := by simpa using hc
      exact ⟨rfl, rfl, rfl, rfl, fun t => Nat.le_refl _, Or.inr (Or.inl ⟨u, hu, rfl⟩)⟩
    · cases hc
  | drop u =>
    simp only [Registry.call] at hc
    split at hc
    · obtain ⟨rfl, rfl⟩ : _ ∧ _ := by simpa using hc
      refine ⟨rfl, rfl, rfl, rfl, fun t => ?_, Or.inr (Or.inr rfl)⟩
      by_cases htu : t = u
      · subst htu
        simp
      · simp [htu]
    · cases hc

/-- An entry nobody holds is not in the kernel, and in no batch. -/
theorem Sound.free {u : Nat} (h : Sound m ops) (hC : Counted m ops) (hu : m.strong u = 0) :
    m.kernel u = false ∧ ∀ ts, Op.dispatch ts ∈ ops → u ∉ ts := by
  have hno : ¬Unreleased m ops u := fun hun => by
    have := hC.strong_pos hun
    omega
  refine ⟨?_, fun ts hts ht => hno (h.batch ts hts u ht)⟩
  cases hk : m.kernel u with
  | false => rfl
  | true =>
    rcases h.kernel u hk with hin | hin
    · exact absurd (Or.inl hin) hno
    · exact absurd (Or.inr (Or.inl ⟨_, hin, rfl⟩)) hno

/-- A call keeps what holds of every entry, when what it adds is a registration of an entry nobody knows, or a deregistration of one
that was handed over. -/
theorem Sound.call {l : Call} (h : Sound m ops) (hC : Counted m ops) (hc : call m l = some (m', new)) : Sound m' (ops ++ new) := by
  obtain ⟨hr, hp, hreg, hkern, hheld, hnew⟩ := call_cases hc
  have hmem : ∀ x ∈ ops ++ new, x ∈ ops ∨ (∃ u, x = .insert u) ∨ ∃ u, x = .remove u := by
    intro x hx
    rcases List.mem_append.mp hx with hx | hx
    · exact Or.inl hx
    · rcases hnew with ⟨u, -, rfl⟩ | ⟨u, -, rfl⟩ | rfl
      · exact Or.inr (Or.inl ⟨u, List.mem_singleton.mp hx⟩)
      · exact Or.inr (Or.inr ⟨u, List.mem_singleton.mp hx⟩)
      · cases hx
  have hdispatch : ∀ ts, Op.dispatch ts ∈ ops ++ new → Op.dispatch ts ∈ ops := by
    intro ts hts
    rcases hmem _ hts with hts | ⟨u, hu⟩ | ⟨u, hu⟩
    · exact hts
    · cases hu
    · cases hu
  refine ⟨hreg.trans h.registry, fun x hx => ?_, fun t hk => ?_, fun ts hts t ht => (h.batch ts (hdispatch ts hts) t ht).append hr hp,
    fun t hpos => ?_, fun t hx => ?_⟩
  · rcases hmem x hx with hx | ⟨u, rfl⟩ | ⟨u, rfl⟩
    · exact h.quiet x hx
    · rfl
    · rfl
  · rw [hkern] at hk
    rcases h.kernel t hk with hin | hin
    · exact Or.inl (hr ▸ hin)
    · exact Or.inr (List.mem_append_left _ hin)
  · rw [total_append] at hpos
    rw [hkern, total_append, total_append]
    by_cases hold : 0 < total (registering t) ops
    · obtain ⟨h1, h2, h3, h4, h5⟩ := h.fresh t hold
      have hh := hheld t
      have hzero : total (registering t) new = 0 ∧ total (lending t) new = 0 := by
        rcases hnew with ⟨u, hu, rfl⟩ | ⟨u, hu, rfl⟩ | rfl
        · have hut : u ≠ t := by
            rintro rfl
            have := (hC.free hu).2.2.1
            omega
          simp [registering, lending, Op.registers, Op.lends, isAt_some_of_ne hut]
        · have hut : u ≠ t := by
            rintro rfl
            omega
          simp [registering, lending, Op.registers, Op.lends, isAt_some_of_ne hut]
        · exact ⟨rfl, rfl⟩
      exact ⟨by omega, by omega, h3, by omega, fun ts hts => h5 ts (hdispatch ts hts)⟩
    · -- the entry is the new one
      rcases hnew with ⟨u, hu, rfl⟩ | ⟨u, -, rfl⟩ | rfl
      · have hut : u = t := by
          by_contra hut
          simp [registering, Op.registers, isAt_some_of_ne hut] at hpos
          omega
        subst hut
        obtain ⟨-, h2, h3, h4, -⟩ := hC.free hu
        have hh := hheld u
        obtain ⟨hk, hts⟩ := h.free hC hu
        exact ⟨by simp [registering, Op.registers]; omega, by omega, hk, by simp [lending, Op.lends]; omega,
          fun ts hd => hts ts (hdispatch ts hd)⟩
      · simp [registering, Op.registers] at hpos
        omega
      · simp at hpos
        omega
  · rcases hmem _ hx with hx | ⟨u, hu⟩ | ⟨u, hu⟩
    · exact hr ▸ h.mapped t hx
    · cases hu
    · cases hu

/-- Before the loop ends everything is sound; after it the thread that polls is in its end. -/
structure Inv (m : Mem) (ops : List Op) : Prop where
  sound : m.stopped = false → Sound m ops
  ended : m.stopped = true → ∀ x ∈ ops, 0 < polls x → x.tearsDown = true

theorem Move.ended (h : Move m op m' new) (hs : m'.stopped = true) (hop : m.stopped = true → 0 < polls op → op.tearsDown = true) :
    (∀ x ∈ new, 0 < polls x → x.tearsDown = true) ∧ (m.stopped = true ∨ 0 < polls op) := by
  cases h with
  | stop => exact ⟨by simp [Op.tearsDown], Or.inr Nat.one_pos⟩
  | release =>
    have := hop hs Nat.one_pos
    cases this
  | clearPending | collect | dispatch | again =>
    have := hop hs Nat.one_pos
    cases this
  | _ => exact ⟨by simp [Op.tearsDown, polls], Or.inl hs⟩

theorem Move.stopped (h : Move m op m' new) (hs : m'.stopped = false) : m.stopped = false := by
  cases h with
  | stop => cases hs
  | _ => exact hs

theorem inv_of_reach {ok : Mem → List Op → Act Op Choice Call → Prop} {s : State Mem Op} (h : machine.Reach ok initial s) :
    Inv s.mem s.ops := by
  refine h.invariant_with (I := Inv) counted_of_reach ?_ ?_ ?_
  · refine ⟨fun _ => ⟨rfl, ?_, ?_, ?_, ?_, ?_⟩, fun hs => absurd hs Bool.false_ne_true⟩ <;>
      simp [initial, State.ops, Op.tearsDown, registering, Op.registers]
  · intro m A op B c m' new hC hI _ he
    have hm := exec_move he
    refine ⟨fun hs => (hI.sound (hm.stopped hs)).move hC hm hs, fun hs x hx hpos => ?_⟩
    obtain ⟨hnew, hor⟩ := hm.ended hs (fun hst => hI.ended hst op (by simp))
    rcases Machine.mem_beside hx with hx | hx
    · exact hnew x hx hpos
    · rcases hor with hst | hop
      · exact hI.ended hst x (Machine.mem_before op hx) hpos
      -- the loop ends with this step: its thread is the only one that polls
      · have hop1 : polls op = 1 := by
          have := le_total_of_mem (f := polls) (show op ∈ A ++ op :: B by simp)
          have := hC.poller
          omega
        have := eq_zero_of_total_le hC.poller hop1 x hx
        omega
  · intro m ops l m' new hC hI _ hc
    have hst : m'.stopped = m.stopped ∧ ∀ x ∈ new, polls x = 0 := by
      cases l <;> simp only [machine, call] at hc <;> split at hc <;>
        first
        | cases hc
          exact ⟨rfl, by simp [polls]⟩
        | cases hc
    refine ⟨fun hs => (hI.sound (hst.1 ▸ hs)).call hC hc, fun hs x hx hpos => ?_⟩
    rcases List.mem_append.mp hx with hx | hx
    · exact hI.ended (hst.1 ▸ hs) x hx hpos
    · have := hst.2 x hx
      omega

end Tonio.Registry
