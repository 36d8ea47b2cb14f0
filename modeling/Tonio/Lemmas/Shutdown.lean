import Tonio.Lemmas.Work
import Tonio.Interleaving.Record

/-!
# Where the handles are

The record of a run of the workers keeps what was pushed, what was taken from the injector and what was run (`Log`). Every step carries at
most one handle from one place to the next (`Carries`), so no handle is lost or doubled between the injector, the deques, the hands of the
workers and the record (`Accounted`). A worker that holds no handle and has not just run one has an empty deque (`Proceeds`, `Stocked`);
that is where it leaves its loop. And a worker that has never found the injector empty neither parks nor leaves (`Fresh`).
-/

namespace Tonio.Work

open Interleaving

variable {η : Type}

/-- What happened to the handles: those pushed to the injector, those a worker pushed to its own deque, those taken from the injector,
and those run. -/
structure Log (η : Type) where
  queued : List η
  kept : List η
  taken : List η
  ran : List η

/-- What an act adds to the record. -/
def note (m : Mem η) : Act (Op η) (Choice η) (Call η) → Log η → Log η
  | .exec (.run _ _) (.add x), g => { g with kept := g.kept ++ [x] }
  | .exec (.run _ _) (.defer x), g | .exec (.run _ _) (.io x), g => { g with queued := g.queued ++ [x] }
  | .exec (.run _ h) .go, g => { g with ran := g.ran ++ [h] }
  | .exec (.inject _ _ _) _, g | .exec (.final _) _, g => { g with taken := g.taken ++ m.injector.head?.toList }
  | .call (.add x), g | .call (.defer x), g | .call (.io x), g => { g with queued := g.queued ++ [x] }
  | _, g => g

/-- The workers with the record of the handles. -/
def recorded (n : Nat) : Machine (Mem η × Log η) (Op η) (Choice η) (Call η) := (machine n).recording note

/-- `n` workers that start on a runtime whose injector has the handles `inj`. -/
def start (n : Nat) (inj : List η) : State (Mem η × Log η) (Op η) :=
  ⟨({ (initial n).mem with injector := inj }, ⟨[], [], [], []⟩), (initial n).pool⟩

/-- The handle a worker has in its hands. -/
def Op.hand : Op η → Option η
  | .unspec _ h | .run _ h | .found _ _ h | .finalFound _ h => some h
  | .loadCount who _ | .casSpec who | .incSpec who | .wake who _ => who.map Prod.snd
  | _ => none

/-- The places of the loop from where the own deque was found empty to the next scan of it. -/
def Op.spent : Op η → Bool
  | .own .rescan _ _ | .inject _ _ _ | .steal _ _ _ _ | .stop1 _ _ | .setFlag _ _ | .incCount _ _ | .stop2 _ _ | .clearStop _ _
  | .release _ | .final _ | .park _ | .clearWake _ | .stop3 _ _ => true
  | _ => false

/-- The places where a worker may leave its loop. -/
def Op.exits : Op η → Bool
  | .stop1 _ _ | .clearStop _ _ | .stop3 _ _ => true
  | _ => false

section

variable {n : Nat} {m m' : Mem η} {g g' : Log η} {op : Op η} {c : Choice η} {A B new : List (Op η)}

theorem Op.spent_of_exits (h : op.exits = true) : op.spent = true := by
  cases op <;> first | rfl | cases h

/-! ## Where a worker goes -/

/-- A step of a worker leads to one place of its loop, or out of it; a step of another thread leads to no place of a loop. -/
inductive Proceeds (m : Mem η) (op : Op η) (m' : Mem η) (new : List (Op η)) : Prop where
  | aside (hw : op.worker = none) (hnew : ∀ x ∈ new, x.worker = none)
  | goes (i : Nat) (side : List (Op η)) (x : Op η) (hw : op.worker = some i) (hx : x.worker = some i) (hside : ∀ y ∈ side, y.worker = none)
      (hnew : new = side ++ [x])
      (hspent : x.spent = true → m'.deque i = [] ∨ op.spent = true ∧ m'.deque i = m.deque i)
  | leaves (i : Nat) (hw : op.worker = some i) (hop : op.exits = true) (hd : m'.deque = m.deque) (hnew : ∀ x ∈ new, x.worker = none)

theorem spent_settle (i : Nat) (sp : Bool) (h : η) : (settle i sp h).spent = false := by
  cases sp <;> rfl

theorem worker_got (ph : Phase) (i : Nat) (sp : Bool) (h : η) : (got ph i sp h).worker = some i ∧ (got ph i sp h).spent = false := by
  cases ph with
  | scan => exact ⟨(worker_settle i sp h).1, spent_settle i sp h⟩
  | rescan => exact ⟨rfl, rfl⟩

theorem worker_missed (ph : Phase) (i : Nat) (sp : Bool) : (missed ph i sp : Op η).worker = some i := by
  cases ph <;> rfl

/-- A worker goes to one place, and does nothing else. -/
theorem Proceeds.one (i : Nat) (x : Op η) (hw : op.worker = some i) (hx : x.worker = some i)
    (hspent : x.spent = true → m'.deque i = [] ∨ op.spent = true ∧ m'.deque i = m.deque i) : Proceeds m op m' [x] :=
  .goes i [] x hw hx (fun _ hy => absurd hy List.not_mem_nil) rfl hspent

/-- A worker goes back to the handle it runs, and another thread that has produced is done. -/
theorem Proceeds.resume (who : Option (Nat × η)) (side : List (Op η)) (hop : op.worker = who.map Prod.fst)
    (hside : ∀ y ∈ side, y.worker = none) : Proceeds m op m' (side ++ resume who) := by
  cases who with
  | none => exact .aside hop (by simpa [Work.resume] using hside)
  | some w => exact .goes w.1 side (.run w.1 w.2) hop rfl hside rfl (fun h => by cases h)

/-- A producer's call goes on. -/
theorem Proceeds.produce (who : Option (Nat × η)) (x : Op η) (hop : op.worker = who.map Prod.fst) (hx : x.worker = who.map Prod.fst)
    (hs : x.spent = false) : Proceeds m op m' [x] := by
  cases who with
  | none => exact .aside hop (by simpa using hx)
  | some w => exact .one w.1 x hop hx (fun h => by rw [hs] at h; cases h)

/-- Where every step leads. -/
theorem exec_proceeds (h : exec n m op c = some (m', new)) : Proceeds m op m' new := by
  cases op with
  | run i x =>
    cases c <;> simp only [exec, Option.some.injEq, Prod.mk.injEq] at h <;> obtain ⟨rfl, rfl⟩ := h <;>
      exact .one i _ rfl rfl (fun hs => by cases hs)
  | own ph i sp =>
    cases c <;> simp only [exec, reduceCtorEq] at h
    split at h <;> simp only [Option.some.injEq, Prod.mk.injEq] at h <;> obtain ⟨rfl, rfl⟩ := h
    · exact .one i _ rfl (worker_got ph i sp _).1 (fun hs => by rw [(worker_got ph i sp _).2] at hs; cases hs)
    · rename_i hd
      exact .one i _ rfl rfl (fun _ => Or.inl (by simpa using hd))
  | inject ph i sp =>
    cases c <;> simp only [exec, reduceCtorEq] at h
    split at h <;> simp only [Option.some.injEq, Prod.mk.injEq] at h <;> obtain ⟨rfl, rfl⟩ := h
    · exact .one i _ rfl (worker_got ph i sp _).1 (fun hs => by rw [(worker_got ph i sp _).2] at hs; cases hs)
    · exact .one i _ rfl rfl (fun _ => Or.inr ⟨rfl, rfl⟩)
  | steal ph i sp j =>
    cases c <;> simp only [exec, reduceCtorEq] at h
    split at h
    · split at h
      · simp only [Option.some.injEq, Prod.mk.injEq] at h
        obtain ⟨rfl, rfl⟩ := h
        exact .one i _ rfl rfl (fun _ => Or.inr ⟨rfl, rfl⟩)
      · split at h <;> simp only [Option.some.injEq, Prod.mk.injEq] at h <;> obtain ⟨rfl, rfl⟩ := h
        · exact .one i _ rfl (worker_got ph i sp _).1 (fun hs => by rw [(worker_got ph i sp _).2] at hs; cases hs)
        · exact .one i _ rfl rfl (fun _ => Or.inr ⟨rfl, rfl⟩)
    · simp only [Option.some.injEq, Prod.mk.injEq] at h
      obtain ⟨rfl, rfl⟩ := h
      exact .one i _ rfl (worker_missed ph i sp) (fun _ => Or.inr ⟨rfl, rfl⟩)
  | unspec i x =>
    cases c <;> simp only [exec, Option.some.injEq, Prod.mk.injEq, reduceCtorEq] at h
    obtain ⟨rfl, rfl⟩ := h
    split <;> exact .one i _ rfl rfl (fun hs => by cases hs)
  | stop1 i sp =>
    cases c <;> simp only [exec, Option.some.injEq, Prod.mk.injEq, reduceCtorEq] at h
    obtain ⟨rfl, rfl⟩ := h
    split
    · exact .leaves i rfl rfl rfl (by split <;> simp)
    · exact .one i _ rfl rfl (fun _ => Or.inr ⟨rfl, rfl⟩)
  | setFlag i sp | incCount i sp | release i =>
    cases c <;> simp only [exec, Option.some.injEq, Prod.mk.injEq, reduceCtorEq] at h
    obtain ⟨rfl, rfl⟩ := h
    exact .one i _ rfl rfl (fun _ => Or.inr ⟨rfl, rfl⟩)
  | found i sp x =>
    cases c <;> simp only [exec, Mem.clearIdle, Option.some.injEq, reduceCtorEq] at h
    split at h <;> obtain ⟨rfl, rfl⟩ := Prod.mk.inj h
    · exact .goes i [.decCount] _ rfl (worker_settle i sp x).1 (by simp) rfl (fun hs => by rw [spent_settle] at hs; cases hs)
    · exact .goes i [.subSpec] _ rfl (worker_settle i sp x).1 (by simp) rfl (fun hs => by rw [spent_settle] at hs; cases hs)
  | stop2 i sp =>
    cases c <;> simp only [exec, Option.some.injEq, Prod.mk.injEq, reduceCtorEq] at h
    obtain ⟨rfl, rfl⟩ := h
    split
    · exact .one i _ rfl rfl (fun _ => Or.inr ⟨rfl, rfl⟩)
    · split <;> exact .one i _ rfl rfl (fun _ => Or.inr ⟨rfl, rfl⟩)
  | clearStop i sp =>
    cases c <;> simp only [exec, Mem.clearIdle, Option.some.injEq, reduceCtorEq] at h
    split at h <;> obtain ⟨rfl, rfl⟩ := Prod.mk.inj h <;> exact .leaves i rfl rfl rfl (by split <;> simp)
  | final i =>
    cases c <;> simp only [exec, reduceCtorEq] at h
    split at h <;> simp only [Option.some.injEq, Prod.mk.injEq] at h <;> obtain ⟨rfl, rfl⟩ := h
    · exact .one i _ rfl rfl (fun hs => by cases hs)
    · exact .one i _ rfl rfl (fun _ => Or.inr ⟨rfl, rfl⟩)
  | finalFound i x =>
    cases c <;> simp only [exec, Mem.clearIdle, Option.some.injEq, reduceCtorEq] at h
    split at h <;> obtain ⟨rfl, rfl⟩ := Prod.mk.inj h
    · exact .goes i [.decCount] _ rfl rfl (by simp) rfl (fun hs => by cases hs)
    · exact .goes i [.subSpec] _ rfl rfl (by simp) rfl (fun hs => by cases hs)
  | park i =>
    cases c <;> simp only [exec, reduceCtorEq] at h
    split at h <;> simp only [Option.some.injEq, Prod.mk.injEq, reduceCtorEq] at h
    obtain ⟨rfl, rfl⟩ := h
    exact .one i _ rfl rfl (fun _ => Or.inr ⟨rfl, rfl⟩)
  | clearWake i =>
    cases c <;> simp only [exec, Mem.clearIdle, Option.some.injEq, reduceCtorEq] at h
    split at h <;> obtain ⟨rfl, rfl⟩ := Prod.mk.inj h
    · exact .goes i [.decCount] _ rfl rfl (by simp) rfl (fun _ => Or.inr ⟨rfl, rfl⟩)
    · exact .one i _ rfl rfl (fun _ => Or.inr ⟨rfl, rfl⟩)
  | stop3 i claimed =>
    cases c <;> simp only [exec, Option.some.injEq, Prod.mk.injEq, reduceCtorEq] at h
    obtain ⟨rfl, rfl⟩ := h
    split
    · exact .leaves i rfl rfl rfl (by simp)
    · exact .one i _ rfl rfl (fun hs => by cases hs)
  | loadCount who force =>
    cases c <;> simp only [exec, Option.some.injEq, Prod.mk.injEq, reduceCtorEq] at h
    obtain ⟨rfl, rfl⟩ := h
    split
    · exact .resume who [] rfl (by simp)
    · split <;> exact .produce who _ rfl rfl rfl
  | casSpec who =>
    cases c <;> simp only [exec, Option.some.injEq, reduceCtorEq] at h
    split at h <;> obtain ⟨rfl, rfl⟩ := Prod.mk.inj h
    · exact .produce who _ rfl rfl rfl
    · exact .resume who [] rfl (by simp)
  | incSpec who =>
    cases c <;> simp only [exec, Option.some.injEq, Prod.mk.injEq, reduceCtorEq] at h
    obtain ⟨rfl, rfl⟩ := h
    exact .produce who _ rfl rfl rfl
  | wake who k =>
    cases c <;> simp only [exec, reduceCtorEq] at h
    split at h
    · split at h <;> simp only [Option.some.injEq, Prod.mk.injEq] at h <;> obtain ⟨rfl, rfl⟩ := h
      · exact .resume who [.decCount, .unpark k] rfl (by simp)
      · exact .produce who _ rfl rfl rfl
    · simp only [Option.some.injEq, Prod.mk.injEq] at h
      obtain ⟨rfl, rfl⟩ := h
      exact .resume who [] rfl (by simp)
  | decCount | subSpec | unpark k =>
    cases c <;> simp only [exec, Option.some.injEq, Prod.mk.injEq, reduceCtorEq] at h
    obtain ⟨rfl, rfl⟩ := h
    exact .aside rfl (by simp)

/-! ## Where a handle goes -/

/-- A step carries at most one handle: it leaves the handles where they are; a worker pushes a handle to its deque, or anybody pushes one to
the injector; a worker has run the handle in its hands; a worker takes one from its deque, from the injector, or from another deque. -/
inductive Carries (n : Nat) (m : Mem η) (g : Log η) (op : Op η) (m' : Mem η) (g' : Log η) (new : List (Op η)) : Prop where
  | still (hq : m'.injector = m.injector) (hd : m'.deque = m.deque) (hg : g' = g) (hh : new.filterMap Op.hand = op.hand.toList)
  | keep (i : Nat) (x : η) (hi : op.worker = some i) (hq : m'.injector = m.injector)
      (hd : m'.deque = Function.update m.deque i (m.deque i ++ [x])) (hg : g' = { g with kept := g.kept ++ [x] })
      (hh : new.filterMap Op.hand = op.hand.toList)
  | queue (x : η) (hq : m'.injector = m.injector ++ [x]) (hd : m'.deque = m.deque) (hg : g' = { g with queued := g.queued ++ [x] })
      (hh : new.filterMap Op.hand = op.hand.toList)
  | finish (x : η) (hq : m'.injector = m.injector) (hd : m'.deque = m.deque) (hg : g' = { g with ran := g.ran ++ [x] })
      (hh : op.hand = some x ∧ new.filterMap Op.hand = [])
  | pop (i : Nat) (x : η) (q : List η) (hi : op.worker = some i) (hq : m'.injector = m.injector) (hdi : m.deque i = q ++ [x])
      (hd : m'.deque = Function.update m.deque i q) (hg : g' = g) (hh : op.hand = none ∧ new.filterMap Op.hand = [x])
  | take (x : η) (hq : m.injector = x :: m'.injector) (hd : m'.deque = m.deque) (hg : g' = { g with taken := g.taken ++ [x] })
      (hh : op.hand = none ∧ new.filterMap Op.hand = [x])
  | steal (j : Nat) (x : η) (q : List η) (hj : j < n) (hq : m'.injector = m.injector) (hdj : m.deque j = x :: q)
      (hd : m'.deque = Function.update m.deque j q) (hg : g' = g) (hh : op.hand = none ∧ new.filterMap Op.hand = [x])

theorem hand_settle (i : Nat) (sp : Bool) (h : η) : (settle i sp h).hand = some h := by
  cases sp <;> rfl

theorem hand_got (ph : Phase) (i : Nat) (sp : Bool) (h : η) : (got ph i sp h).hand = some h := by
  cases ph with
  | scan => exact hand_settle i sp h
  | rescan => rfl

theorem hand_resume (who : Option (Nat × η)) : (resume who).filterMap Op.hand = (who.map Prod.snd).toList := by
  cases who <;> rfl

/-- What every step carries. -/
theorem exec_carries (h : exec n m op c = some (m', new)) (g : Log η) : Carries n m g op m' (note m (.exec op c) g) new := by
  cases op with
  | run i x =>
    cases c <;> simp only [exec, Option.some.injEq, Prod.mk.injEq] at h <;> obtain ⟨rfl, rfl⟩ := h
    case go => exact .finish x rfl rfl rfl ⟨rfl, rfl⟩
    case add y => exact .keep i y rfl rfl rfl rfl rfl
    case defer y => exact .queue y rfl rfl rfl rfl
    case io y => exact .queue y rfl rfl rfl rfl
  | own ph i sp =>
    cases c <;> simp only [exec, reduceCtorEq] at h
    split at h <;> simp only [Option.some.injEq, Prod.mk.injEq] at h <;> obtain ⟨rfl, rfl⟩ := h
    · rename_i y hy
      exact .pop i y _ rfl rfl (List.dropLast_append_getLast? y hy).symm rfl rfl ⟨rfl, by simp [hand_got]⟩
    · exact .still rfl rfl rfl rfl
  | inject ph i sp =>
    cases c <;> simp only [exec, reduceCtorEq] at h
    split at h <;> simp only [Option.some.injEq, Prod.mk.injEq] at h <;> obtain ⟨rfl, rfl⟩ := h
    · rename_i y q hq
      exact .take y hq rfl (by simp [note, hq]) ⟨rfl, by simp [hand_got]⟩
    · rename_i hq
      exact .still rfl rfl (by simp [note, hq]) rfl
  | steal ph i sp j =>
    cases c <;> simp only [exec, reduceCtorEq] at h
    split at h
    · rename_i hj
      split at h
      · simp only [Option.some.injEq, Prod.mk.injEq] at h
        obtain ⟨rfl, rfl⟩ := h
        exact .still rfl rfl rfl rfl
      · split at h <;> simp only [Option.some.injEq, Prod.mk.injEq] at h <;> obtain ⟨rfl, rfl⟩ := h
        · rename_i y q hq
          exact .steal j y q hj rfl hq rfl rfl ⟨rfl, by simp [hand_got]⟩
        · exact .still rfl rfl rfl rfl
    · simp only [Option.some.injEq, Prod.mk.injEq] at h
      obtain ⟨rfl, rfl⟩ := h
      exact .still rfl rfl rfl (by cases ph <;> rfl)
  | final i =>
    cases c <;> simp only [exec, reduceCtorEq] at h
    split at h <;> simp only [Option.some.injEq, Prod.mk.injEq] at h <;> obtain ⟨rfl, rfl⟩ := h
    · rename_i y q hq
      exact .take y hq rfl (by simp [note, hq]) ⟨rfl, rfl⟩
    · rename_i hq
      exact .still rfl rfl (by simp [note, hq]) rfl
  | found i sp x =>
    cases c <;> simp only [exec, Mem.clearIdle, Option.some.injEq, reduceCtorEq] at h
    split at h <;> obtain ⟨rfl, rfl⟩ := Prod.mk.inj h <;> exact .still rfl rfl rfl (by cases sp <;> rfl)
  | clearStop i sp =>
    cases c <;> simp only [exec, Mem.clearIdle, Option.some.injEq, reduceCtorEq] at h
    split at h <;> obtain ⟨rfl, rfl⟩ := Prod.mk.inj h <;> exact .still rfl rfl rfl (by split <;> rfl)
  | finalFound i x | clearWake i =>
    cases c <;> simp only [exec, Mem.clearIdle, Option.some.injEq, reduceCtorEq] at h
    split at h <;> obtain ⟨rfl, rfl⟩ := Prod.mk.inj h <;> exact .still rfl rfl rfl rfl
  | loadCount who force =>
    cases c <;> simp only [exec, Option.some.injEq, Prod.mk.injEq, reduceCtorEq] at h
    obtain ⟨rfl, rfl⟩ := h
    refine .still rfl rfl rfl ?_
    split
    · exact hand_resume who
    · split <;> cases who <;> rfl
  | casSpec who =>
    cases c <;> simp only [exec, Option.some.injEq, reduceCtorEq] at h
    split at h <;> obtain ⟨rfl, rfl⟩ := Prod.mk.inj h
    · exact .still rfl rfl rfl (by cases who <;> rfl)
    · exact .still rfl rfl rfl (hand_resume who)
  | incSpec who =>
    cases c <;> simp only [exec, Option.some.injEq, Prod.mk.injEq, reduceCtorEq] at h
    obtain ⟨rfl, rfl⟩ := h
    exact .still rfl rfl rfl (by cases who <;> rfl)
  | wake who k =>
    cases c <;> simp only [exec, reduceCtorEq] at h
    split at h
    · split at h <;> simp only [Option.some.injEq, Prod.mk.injEq] at h <;> obtain ⟨rfl, rfl⟩ := h
      · exact .still rfl rfl rfl (hand_resume who)
      · exact .still rfl rfl rfl (by cases who <;> rfl)
    · simp only [Option.some.injEq, Prod.mk.injEq] at h
      obtain ⟨rfl, rfl⟩ := h
      exact .still rfl rfl rfl (hand_resume who)
  | park i =>
    cases c <;> simp only [exec, reduceCtorEq] at h
    split at h <;> simp only [Option.some.injEq, Prod.mk.injEq, reduceCtorEq] at h
    obtain ⟨rfl, rfl⟩ := h
    exact .still rfl rfl rfl rfl
  | _ =>
    cases c <;> simp only [exec, Option.some.injEq, Prod.mk.injEq, reduceCtorEq] at h
    obtain ⟨rfl, rfl⟩ := h
    refine .still rfl rfl rfl ?_
    first | rfl | (split <;> first | rfl | (split <;> rfl))

/-! ## The accounts -/

/-- The weight of the handles in the deques. -/
def stock (n : Nat) (w : η → Nat) (deque : Nat → List η) : Nat := total (fun i => total w (deque i)) (List.range n)

theorem stock_update (w : η → Nat) (deque : Nat → List η) {i : Nat} (hi : i < n) (q : List η) :
    stock n w (Function.update deque i q) + total w (deque i) = stock n w deque + total w q := by
  have h := total_update (f := fun j => total w (deque j)) (g := fun j => total w (Function.update deque i q j)) List.nodup_range
    (List.mem_range.mpr hi) (fun j hj => by rw [Function.update_of_ne hj])
  simpa only [Function.update_self, stock] using h

/-- What holds of the workers and the handles in every state, for a run that starts with the handles `inj` in the injector. -/
structure Accounted (n : Nat) (inj : List η) (m : Mem η × Log η) (ops : List (Op η)) : Prop where
  one : ∀ i, total (ctl i) ops ≤ 1
  below : ∀ op ∈ ops, ∀ i, op.worker = some i → i < n
  stocked : ∀ i, m.1.deque i ≠ [] → ∃ op ∈ ops, op.worker = some i ∧ op.spent = false
  fifo : inj ++ m.2.queued = m.2.taken ++ m.1.injector
  balance : ∀ w : η → Nat, total w m.2.taken + total w m.2.kept =
    total w m.2.ran + stock n w m.1.deque + total w (ops.filterMap Op.hand)

/-- A step leads to at most one place of the loop of the worker that performs it. -/
theorem Proceeds.ctl_le (h : Proceeds m op m' new) (i : Nat) : total (ctl i) new ≤ ctl i op := by
  have hnone : ∀ side : List (Op η), (∀ y ∈ side, y.worker = none) → total (ctl i) side = 0 :=
    fun side hside => total_eq_zero_iff.mpr (fun y hy => by simp [ctl, hside y hy])
  cases h with
  | aside hw hnew =>
    rw [hnone new hnew]
    exact Nat.zero_le _
  | goes j side x hw hx hside hnew hspent =>
    rw [hnew, total_append, hnone side hside]
    simp [ctl, hw, hx]
  | leaves j hw hop hd hnew =>
    rw [hnone new hnew]
    exact Nat.zero_le _

/-- The place of a worker after its step is the worker's. -/
theorem Proceeds.worker (h : Proceeds m op m' new) {x : Op η} (hx : x ∈ new) {i : Nat} (hi : x.worker = some i) :
    op.worker = some i := by
  cases h with
  | aside hw hnew =>
    rw [hnew x hx] at hi
    cases hi
  | goes j side y hw hy hside hnew hspent =>
    rw [hnew, List.mem_append, List.mem_singleton] at hx
    rcases hx with hx | rfl
    · rw [hside x hx] at hi
      cases hi
    · rw [hw, ← hy, hi]
  | leaves j hw hop hd hnew =>
    rw [hnew x hx] at hi
    cases hi

/-- Only its own worker fills a deque. -/
theorem Carries.deque_of_ne (h : Carries n m g op m' g' new) {i : Nat} (hi : op.worker ≠ some i) (hd' : m'.deque i ≠ []) :
    m.deque i ≠ [] := by
  cases h with
  | keep j x hj hq hd hg hh | pop j x q hj hq hdj hd hg hh =>
    have hne : i ≠ j := fun hij => hi (hij ▸ hj)
    rwa [hd, Function.update_of_ne hne] at hd'
  | steal j x q hj hq hdj hd hg hh =>
    by_cases hij : i = j
    · rw [hij, hdj]
      exact List.cons_ne_nil x q
    · rwa [hd, Function.update_of_ne hij] at hd'
  | still hq hd hg hh | queue x hq hd hg hh | finish x hq hd hg hh | take x hq hd hg hh => rwa [hd] at hd'

/-- A worker that leaves has an empty deque, and so has one that found it empty and goes on. -/
theorem Accounted.stocked_exec {inj : List η} (h : Accounted n inj (m, g) (A ++ op :: B)) (hp : Proceeds m op m' new)
    (hc : Carries n m g op m' g' new) (i : Nat) (hd : m'.deque i ≠ []) :
    ∃ y ∈ A ++ (new ++ B), y.worker = some i ∧ y.spent = false := by
  by_cases hi : op.worker = some i
  · -- the worker is at no other place
    have hself : m.deque i ≠ [] → op.spent = false := by
      intro hne
      obtain ⟨y, hy, hyi, hys⟩ := h.stocked i hne
      by_cases hyo : y = op
      · exact hyo ▸ hys
      · have hmem : y ∈ A ++ B := by simpa [hyo] using hy
        have := eq_zero_of_total_le (h.one i) (by simp [ctl, hi]) y hmem
        simp [ctl, hyi] at this
    cases hp with
    | aside hw hnew =>
      rw [hw] at hi
      cases hi
    | goes j side x hw hx hside hnew hspent =>
      obtain rfl : j = i := Option.some.inj (hw.symm.trans hi)
      refine ⟨x, by simp [hnew], hx, ?_⟩
      by_contra hs
      rcases hspent (by simpa using hs) with hnil | ⟨hop, hsame⟩
      · exact hd hnil
      · rw [hself (hsame ▸ hd)] at hop
        cases hop
    | leaves j hw hop hsame hnew =>
      have hs := Op.spent_of_exits hop
      rw [hself (hsame ▸ hd)] at hs
      cases hs
  · obtain ⟨y, hy, hyi, hys⟩ := h.stocked i (hc.deque_of_ne hi hd)
    exact ⟨y, Machine.mem_keep hy (fun hyo => hi (hyo ▸ hyi)), hyi, hys⟩

/-- The injector is a queue. -/
theorem Carries.fifo (h : Carries n m g op m' g' new) {inj : List η} (hf : inj ++ g.queued = g.taken ++ m.injector) :
    inj ++ g'.queued = g'.taken ++ m'.injector := by
  cases h with
  | queue x hq hd hg hh =>
    rw [hq, hg, ← List.append_assoc, hf, List.append_assoc]
  | take x hq hd hg hh =>
    rw [hg, hf, hq, List.append_assoc]
    rfl
  | still hq hd hg hh | keep j x hj hq hd hg hh | finish x hq hd hg hh | pop j x q hj hq hdj hd hg hh | steal j x q hj hq hdj hd hg hh =>
    rw [hq, hg]
    exact hf

/-- No handle is lost or doubled by a step. -/
theorem Carries.balance (h : Carries n m g op m' g' new) (hlt : ∀ i, op.worker = some i → i < n) (w : η → Nat) :
    total w g'.taken + total w g'.kept + total w g.ran + stock n w m.deque + total w op.hand.toList =
      total w g.taken + total w g.kept + total w g'.ran + stock n w m'.deque + total w (new.filterMap Op.hand) := by
  cases h with
  | still hq hd hg hh | queue x hq hd hg hh => rw [hd, hg, hh]
  | keep i x hi hq hd hg hh =>
    have hstock := stock_update w m.deque (hlt i hi) (m.deque i ++ [x])
    rw [hd, hg, hh]
    simp only [total_append] at hstock ⊢
    omega
  | finish x hq hd hg hh =>
    rw [hd, hg, hh.1, hh.2]
    simp only [total_append, Option.toList_some, total_nil]
    omega
  | pop i x q hi hq hdi hd hg hh =>
    have hstock := stock_update w m.deque (hlt i hi) q
    rw [hdi] at hstock
    rw [hd, hg, hh.1, hh.2]
    simp only [total_append, Option.toList_none, total_nil] at hstock ⊢
    omega
  | take x hq hd hg hh =>
    rw [hd, hg, hh.1, hh.2]
    simp only [total_append, Option.toList_none, total_nil]
    omega
  | steal j x q hj hq hdj hd hg hh =>
    have hstock := stock_update w m.deque hj q
    rw [hdj] at hstock
    rw [hd, hg, hh.1, hh.2]
    simp only [total_cons, Option.toList_none, total_nil] at hstock ⊢
    omega

/-- Every operation keeps the accounts. -/
theorem Accounted.exec {inj : List η} (h : Accounted n inj (m, g) (A ++ op :: B)) (he : exec n m op c = some (m', new)) :
    Accounted n inj (m', note m (.exec op c) g) (A ++ (new ++ B)) := by
  have hp := exec_proceeds he
  have hc := exec_carries he g
  have hlt := h.below op (by simp)
  refine ⟨fun i => ?_, fun y hy i hi => ?_, h.stocked_exec hp hc, hc.fifo h.fifo, fun w => ?_⟩
  · have h1 := h.one i
    have h2 := hp.ctl_le i
    simp only [total_append, total_cons] at h1 ⊢
    omega
  · rcases Machine.mem_cases op hy with hy | hy
    · exact hlt i (hp.worker hy hi)
    · exact h.below y hy i hi
  · have h1 := h.balance w
    have h2 := hc.balance hlt w
    have h3 := total_filterMap_step w Op.hand A B new op
    simp only at h1 ⊢
    omega

/-- A call adds a handle to the injector, or none. -/
theorem Accounted.call {inj : List η} {ops : List (Op η)} {l : Call η} (h : Accounted n inj (m, g) ops)
    (hc : call n m l = some (m', new)) : Accounted n inj (m', note m (.call l) g) (ops ++ new) := by
  have hnew : (∀ x ∈ new, x.worker = none) ∧ new.filterMap Op.hand = [] ∧ m'.deque = m.deque ∧
      inj ++ (note m (.call l) g).queued = g.taken ++ m'.injector ∧ (note m (.call l) g).taken = g.taken ∧
      (note m (.call l) g).kept = g.kept ∧ (note m (.call l) g).ran = g.ran := by
    cases l with
    | stop =>
      obtain ⟨rfl, rfl⟩ := Prod.mk.inj (Option.some.inj hc)
      refine ⟨by simp, ?_, rfl, h.fifo, rfl, rfl, rfl⟩
      simp [Op.hand]
    | add x | defer x | io x =>
      obtain ⟨rfl, rfl⟩ := Prod.mk.inj (Option.some.inj hc)
      refine ⟨by simp [Op.worker], rfl, rfl, ?_, rfl, rfl, rfl⟩
      rw [← List.append_assoc, ← h.fifo, note, List.append_assoc]
  obtain ⟨hw, hh, hd, hf, ht, hk, hr⟩ := hnew
  refine ⟨fun i => ?_, fun y hy i hi => ?_, fun i hne => ?_, ht ▸ hf, fun w => ?_⟩
  · have hzero : total (ctl i) new = 0 := total_eq_zero_iff.mpr (fun y hy => by simp [ctl, hw y hy])
    rw [total_append, hzero]
    exact h.one i
  · rcases List.mem_append.mp hy with hy | hy
    · exact h.below y hy i hi
    · rw [hw y hy] at hi
      cases hi
  · obtain ⟨y, hy, hyi⟩ := h.stocked i (hd ▸ hne)
    exact ⟨y, List.mem_append_left new hy, hyi⟩
  · simp only [ht, hk, hr, hd, List.filterMap_append, hh, List.append_nil]
    exact h.balance w

theorem ops_start (n : Nat) (inj : List η) : (start n inj).ops = (List.range n).map (fun i => .own .scan i false) := ops_initial n

theorem Accounted.start (n : Nat) (inj : List η) : Accounted n inj (start n inj).mem (start n inj).ops := by
  have hall : ∀ y ∈ (Work.start n inj).ops, ∃ i < n, y = .own .scan i false := by
    intro y hy
    rw [ops_start] at hy
    obtain ⟨i, hi, rfl⟩ := List.mem_map.mp hy
    exact ⟨i, List.mem_range.mp hi, rfl⟩
  have hctl : ∀ i, total (ctl i) (Work.start n inj).ops = if i < n then 1 else 0 := total_ctl_initial n
  refine ⟨fun i => ?_, fun y hy i hi => ?_, fun i hd => absurd rfl hd, ?_, fun w => ?_⟩
  · rw [hctl]
    split <;> omega
  · obtain ⟨j, hj, rfl⟩ := hall y hy
    exact Option.some.inj hi ▸ hj
  · exact List.append_nil inj
  · have hhands : (Work.start n inj).ops.filterMap Op.hand = [] := by
      refine List.filterMap_eq_nil_iff.mpr (fun y hy => ?_)
      obtain ⟨i, -, rfl⟩ := hall y hy
      rfl
    have hstock : stock n w (Work.start n inj).mem.1.deque = 0 := total_eq_zero_iff.mpr (fun _ _ => rfl)
    rw [hhands, hstock]
    rfl

/-- In every state of every run. -/
theorem Accounted.reach {inj : List η} {ok : Mem η × Log η → List (Op η) → Act (Op η) (Choice η) (Call η) → Prop}
    {s : State (Mem η × Log η) (Op η)} (h : (recorded n).Reach ok (Work.start n inj) s) : Accounted n inj s.mem s.ops := by
  refine h.invariant (I := Accounted n inj) (Accounted.start n inj) ?_ ?_
  · rintro ⟨m, g⟩ A op B c ⟨m', g'⟩ new hI - he
    obtain ⟨he, rfl⟩ := Machine.recording_exec.mp he
    exact hI.exec he
  · rintro ⟨m, g⟩ ops l ⟨m', g'⟩ new hI - hc
    obtain ⟨hc, rfl⟩ := Machine.recording_call.mp hc
    exact hI.call hc

/-! ## Workers that have not found the injector empty -/

/-- The operations that are pending while nobody has found the injector empty. -/
def Op.fresh : Op η → Bool
  | .own .scan _ false | .inject .scan _ false | .run _ _ | .loadCount _ _ | .unpark _ => true
  | _ => false

/-- Nobody has found the injector empty: every worker looks for a handle or runs one, and none is idle. -/
structure Fresh (n : Nat) (m : Mem η) (ops : List (Op η)) : Prop where
  idleCount : m.idleCount = 0
  fresh : ∀ op ∈ ops, op.fresh = true
  here : ∀ i < n, ∃ op ∈ ops, op.worker = some i

/-- What a step leads to while nobody has found the injector empty. -/
theorem fresh_exec (he : exec n m op c = some (m', new)) (hop : op.fresh = true) (h0 : m.idleCount = 0) (hinj : m.injector ≠ []) :
    m'.idleCount = 0 ∧ (∀ x ∈ new, x.fresh = true) ∧ ∀ i, op.worker = some i → ∃ x ∈ new, x.worker = some i := by
  cases op with
  | own ph i sp =>
    obtain ⟨rfl, rfl⟩ : ph = .scan ∧ sp = false := by cases ph <;> cases sp <;> first | exact ⟨rfl, rfl⟩ | cases hop
    cases c <;> simp only [exec, reduceCtorEq] at he
    split at he <;> simp only [Option.some.injEq, Prod.mk.injEq] at he <;> obtain ⟨rfl, rfl⟩ := he <;>
      exact ⟨h0, by simp [got, settle, Op.fresh], fun j hj => ⟨_, List.mem_singleton_self _, hj⟩⟩
  | inject ph i sp =>
    obtain ⟨rfl, rfl⟩ : ph = .scan ∧ sp = false := by cases ph <;> cases sp <;> first | exact ⟨rfl, rfl⟩ | cases hop
    cases c <;> simp only [exec, reduceCtorEq] at he
    split at he
    · simp only [Option.some.injEq, Prod.mk.injEq] at he
      obtain ⟨rfl, rfl⟩ := he
      exact ⟨h0, by simp [got, settle, Op.fresh], fun j hj => ⟨_, List.mem_singleton_self _, hj⟩⟩
    · rename_i hnil
      exact absurd hnil hinj
  | run i x =>
    cases c <;> simp only [exec, Option.some.injEq, Prod.mk.injEq] at he <;> obtain ⟨rfl, rfl⟩ := he <;>
      exact ⟨h0, by simp [Op.fresh], fun j hj => ⟨_, List.mem_singleton_self _, hj⟩⟩
  | loadCount who force =>
    cases c <;> simp only [exec, h0, if_true, Option.some.injEq, Prod.mk.injEq, reduceCtorEq] at he
    obtain ⟨rfl, rfl⟩ := he
    cases who with
    | none => exact ⟨h0, by simp [resume], fun j hj => by cases hj⟩
    | some w => exact ⟨h0, by simp [resume, Op.fresh], fun j hj => ⟨.run w.1 w.2, by simp [resume], hj⟩⟩
  | unpark k =>
    cases c <;> simp only [exec, Option.some.injEq, Prod.mk.injEq, reduceCtorEq] at he
    obtain ⟨rfl, rfl⟩ := he
    exact ⟨h0, by simp, fun j hj => by cases hj⟩
  | steal ph i sp j => cases ph <;> cases hop
  | _ => cases hop

/-- Every operation keeps this while the injector is not empty. -/
theorem Fresh.exec (h : Fresh n m (A ++ op :: B)) (hinj : m.injector ≠ []) (he : exec n m op c = some (m', new)) :
    Fresh n m' (A ++ (new ++ B)) := by
  obtain ⟨h0, hnew, hhere⟩ := fresh_exec he (h.fresh op (by simp)) h.idleCount hinj
  refine ⟨h0, fun y hy => ?_, fun i hi => ?_⟩
  · rcases Machine.mem_cases op hy with hy | hy
    · exact hnew y hy
    · exact h.fresh y hy
  · obtain ⟨y, hy, hyi⟩ := h.here i hi
    by_cases hyo : y = op
    · obtain ⟨x, hx, hxi⟩ := hhere i (hyo ▸ hyi)
      exact ⟨x, Machine.mem_new hx, hxi⟩
    · exact ⟨y, Machine.mem_keep hy hyo, hyi⟩

/-- A call keeps it. -/
theorem Fresh.call {ops : List (Op η)} {l : Call η} (h : Fresh n m ops) (hc : call n m l = some (m', new)) : Fresh n m' (ops ++ new) := by
  have hnew : m'.idleCount = m.idleCount ∧ ∀ x ∈ new, x.fresh = true := by
    cases l <;> obtain ⟨rfl, rfl⟩ := Prod.mk.inj (Option.some.inj hc) <;> simp [Op.fresh]
  refine ⟨hnew.1.trans h.idleCount, fun y hy => ?_, fun i hi => ?_⟩
  · exact (List.mem_append.mp hy).elim (h.fresh y) (hnew.2 y)
  · obtain ⟨y, hy, hyi⟩ := h.here i hi
    exact ⟨y, List.mem_append_left new hy, hyi⟩

/-- What has been taken stays taken. -/
theorem Carries.taken_le (h : Carries n m g op m' g' new) : g.taken.length ≤ g'.taken.length := by
  cases h with
  | take x hq hd hg hh => simp [hg]
  | still hq hd hg hh | keep i x hi hq hd hg hh | queue x hq hd hg hh | finish x hq hd hg hh | pop i x q hi hq hdi hd hg hh
  | steal j x q hj hq hdj hd hg hh => simp [hg]

/-- With fewer handles taken than there were at the start, the injector is not empty. -/
theorem Accounted.injector_ne_nil {inj : List η} {ops : List (Op η)} (h : Accounted n inj (m, g) ops) (hlt : g.taken.length < inj.length) :
    m.injector ≠ [] := by
  intro hnil
  have hlen := congrArg List.length h.fifo
  simp only [hnil, List.length_append, List.length_nil] at hlen
  omega

/-- In every state of every run, until the handles the run starts with have been taken. -/
theorem Fresh.reach {inj : List η} {ok : Mem η × Log η → List (Op η) → Act (Op η) (Choice η) (Call η) → Prop}
    {s : State (Mem η × Log η) (Op η)} (h : (recorded n).Reach ok (Work.start n inj) s) (hlt : s.mem.2.taken.length < inj.length) :
    Fresh n s.mem.1 s.ops := by
  refine h.invariant_with (J := Accounted n inj) (I := fun m ops => m.2.taken.length < inj.length → Fresh n m.1 ops) Accounted.reach
    ?_ ?_ ?_ hlt
  · intro _
    refine ⟨rfl, fun y hy => ?_, fun i hi => ?_⟩
    · rw [ops_start] at hy
      obtain ⟨i, -, rfl⟩ := List.mem_map.mp hy
      rfl
    · exact ⟨.own .scan i false, by rw [ops_start]; exact List.mem_map.mpr ⟨i, List.mem_range.mpr hi, rfl⟩, rfl⟩
  · rintro ⟨m, g⟩ A op B c ⟨m', g'⟩ new hA hI - he hlt'
    obtain ⟨he, rfl⟩ := Machine.recording_exec.mp he
    have hlt : g.taken.length < inj.length := Nat.lt_of_le_of_lt (exec_carries he g).taken_le hlt'
    exact (hI hlt).exec (hA.injector_ne_nil hlt) he
  · rintro ⟨m, g⟩ ops l ⟨m', g'⟩ new hA hI - hc hlt'
    obtain ⟨hc, rfl⟩ := Machine.recording_call.mp hc
    have hsame : (note m (.call l) g).taken = g.taken := by cases l <;> rfl
    exact (hI (hsame ▸ hlt')).call hc

end

end Tonio.Work
