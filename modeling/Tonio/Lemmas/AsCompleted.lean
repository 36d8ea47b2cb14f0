import Tonio.AsCompleted
import Tonio.Interleaving.Progress

/-!
# What fills the items of `as_completed`

Every item is awaited once, and every coroutine has not been spawned, has not begun, has not ended, or has (`Asked`). While wrappers pop
in the order in which their coroutines ended, the slots are filled in that order (`Filled`), and the events of all of them come to be set.
-/

namespace Tonio.AsCompleted

open Interleaving
open Ctl (Flavour Exc Outcome)

variable {α : Type} {fl : Flavour} {n : Nat} {m m' : Mem α} {A B new ops : List (Op α)} {op : Op α} {c : Choice α}

/-! ## The steps -/

/-- What an operation does. -/
inductive Move (fl : Flavour) (n : Nat) (m : Mem α) : Op α → Choice α → Mem α → List (Op α) → Prop
  | returns (i : Nat) (v : α) :
      Move fl n m (.run i) (.finish (.ret v)) { m with finished := m.finished ++ [(i, .ret v)] } [.pop i v]
  | raises (i : Nat) (e : Exc) : Move fl n m (.run i) (.finish (.exc e)) { m with finished := m.finished ++ [(i, .exc e)] } []
  | pop (i : Nat) (v : α) {k : Nat} (hk : m.glues.getLast? = some k) :
      Move fl n m (.pop i v) .go { m with glues := m.glues.dropLast, popped := m.popped ++ [(i, v)] } [.store k v]
  | popEmpty (i : Nat) (v : α) (hk : m.glues.getLast? = none) : Move fl n m (.pop i v) .go m []
  | store (k : Nat) (v : α) : Move fl n m (.store k v) .go { m with slot := Function.update m.slot k (some v) } [.setEvent k]
  | setEvent (k : Nat) : Move fl n m (.setEvent k) .go { m with event := Function.update m.event k true } []
  | spawn (i : Nat) :
      Move fl n m (.spawn i) .go { m with pending := m.pending ++ [i] } [if i + 1 < n then .spawn (i + 1) else .hand]
  | hand (hfl : fl = .gen) : Move fl n m .hand .go { m with asked := m.asked + 1, running := false } []
  | handOver (hfl : fl = .colored) :
      Move fl n m .hand .go { m with asked := m.asked + 1, awaited := m.awaited ++ [m.asked] } [.wait m.asked]
  | wait (k : Nat) (hk : m.event k = true) : Move fl n m (.wait k) .go m [.fetch k]
  | cancelled (k : Nat) : Move fl n m (.wait k) .cancel { m with cancelled := m.cancelled ++ [k] } []
  | fetch (k : Nat) {b : Bool} (hb : b = m.running ∨ (fl = .colored ∧ b = false)) :
      Move fl n m (.fetch k) .go { m with delivered := m.delivered ++ [(k, m.slot k)], running := b } []

/-- Every step is one of these. -/
theorem exec_move (he : exec fl n m op c = some (m', new)) : Move fl n m op c m' new := by
  cases op
  all_goals
    cases c <;> simp only [exec, reduceCtorEq, Option.some.injEq, Prod.mk.injEq] at he
  case run.finish i o =>
    cases o with
    | ret v =>
      obtain ⟨rfl, rfl⟩ := Prod.mk.inj (Option.some.inj he)
      exact .returns i v
    | exc e =>
      obtain ⟨rfl, rfl⟩ := Prod.mk.inj (Option.some.inj he)
      exact .raises i e
  case pop.go i v =>
    split at he <;> obtain ⟨rfl, rfl⟩ := Prod.mk.inj (Option.some.inj he)
    · exact .pop i v (by assumption)
    · exact .popEmpty i v (by assumption)
  case hand.go =>
    cases fl <;> obtain ⟨rfl, rfl⟩ := Prod.mk.inj (Option.some.inj he)
    · exact .hand rfl
    · exact .handOver rfl
  case wait.go k =>
    split at he
    · rename_i hk
      obtain ⟨rfl, rfl⟩ := Prod.mk.inj (Option.some.inj he)
      exact .wait k hk
    · cases he
  case fetch.go k =>
    cases fl <;> obtain ⟨rfl, rfl⟩ := Prod.mk.inj (Option.some.inj he)
    · exact .fetch k (Or.inl rfl)
    · exact .fetch k (Or.inr ⟨rfl, rfl⟩)
  all_goals
    obtain ⟨rfl, rfl⟩ := he
    constructor

/-- What a call does. -/
inductive Called (fl : Flavour) (n : Nat) (m : Mem α) : Call → Mem α → List (Op α) → Prop
  | next (hr : m.running = false) (ha : m.asked < n) :
      Called fl n m .next { m with running := true } [if m.asked = 0 then .spawn 0 else .hand]
  | load {k : Nat} (hfl : fl = .gen) (ha : k < m.asked) (hk : k ∉ m.awaited) :
      Called fl n m (.load k) { m with awaited := m.awaited ++ [k] } [.wait k]
  | begin {i : Nat} (hi : i ∈ m.pending) : Called fl n m (.begin i) { m with pending := m.pending.erase i } [.run i]

theorem call_called {l : Call} (hc : call fl n m l = some (m', new)) : Called fl n m l m' new := by
  cases l <;> simp only [call] at hc <;> split at hc
  case next.isTrue h =>
    obtain ⟨rfl, rfl⟩ := Prod.mk.inj (Option.some.inj hc)
    exact .next h.1 h.2
  case load.isTrue h =>
    obtain ⟨rfl, rfl⟩ := Prod.mk.inj (Option.some.inj hc)
    exact .load h.1 h.2.1 h.2.2
  case begin.isTrue h =>
    obtain ⟨rfl, rfl⟩ := Prod.mk.inj (Option.some.inj hc)
    exact .begin h
  all_goals cases hc

/-- One operation follows at most. -/
theorem Move.short (h : Move fl n m op c m' new) : new.length ≤ 1 := by
  cases h <;> simp

theorem Called.short {l : Call} (h : Called fl n m l m' new) : new.length ≤ 1 := by
  cases h <;> simp

/-! ## Items and coroutines -/

/-- Operations of the generator; the `async` one awaits its items itself. -/
def Op.body (fl : Flavour) : Op α → Nat
  | .spawn _ | .hand => 1
  | .wait _ | .fetch _ => if fl = .colored then 1 else 0
  | _ => 0

/-- Coroutines that have not ended: one that has begun, and those still to be spawned. -/
def Op.unfinished (n : Nat) : Op α → Nat
  | .run _ => 1
  | .spawn i => n - i
  | _ => 0

/-- The generator runs in one place; every item that is awaited is so once; and where the coroutines are. -/
structure Asked (fl : Flavour) (n : Nat) (m : Mem α) (ops : List (Op α)) : Prop where
  body : total (Op.body fl) ops ≤ if m.running then 1 else 0
  start : ∀ i, Op.spawn i ∈ ops → m.asked = 0 ∧ i < n
  awaited : ∀ k ∈ m.awaited, k < m.asked
  loads : ∀ k, (m.delivered.map Prod.fst).count k + m.cancelled.count k + total (Op.loads k) ops = if k ∈ m.awaited then 1 else 0
  count : m.finished.length + total (Op.unfinished n) ops + m.pending.length + (if m.asked = 0 ∧ m.running = false then n else 0) = n

/-- While an operation of the generator is performed it runs, and no other one is pending. -/
theorem Asked.alone (h : Asked fl n m (A ++ op :: B)) (hop : op.body fl = 1) :
    m.running = true ∧ total (Op.body fl) (A ++ ([] ++ B)) = 0 ∧ ∀ i, Op.spawn i ∉ A ++ B := by
  have hb := h.body
  have hle : op.body fl ≤ total (Op.body fl) (A ++ op :: B) := le_total_of_mem (by simp)
  have hr : m.running = true := by
    by_contra hr
    rw [if_neg hr] at hb
    omega
  rw [if_pos hr] at hb
  have hzero := eq_zero_of_total_le hb hop
  refine ⟨hr, total_eq_zero_iff.mpr (by simpa using hzero), fun i hi => ?_⟩
  have := hzero _ hi
  cases this

/-- A step of a wrapper: the generator and the items are as they were. -/
theorem Asked.wrapper (h : Asked fl n m (A ++ op :: B)) (hop : op.body fl = 0 ∧ ∀ k, op.loads k = 0)
    (hnew : ∀ x ∈ new, x.body fl = 0 ∧ (∀ k, x.loads k = 0) ∧ ∀ i, x ≠ .spawn i) (hr : m'.running = m.running) (ha : m'.asked = m.asked)
    (hw : m'.awaited = m.awaited) (hd : m'.delivered = m.delivered) (hc : m'.cancelled = m.cancelled) (hp : m'.pending = m.pending)
    (hf : m'.finished.length + total (Op.unfinished n) new = m.finished.length + op.unfinished n) : Asked fl n m' (A ++ (new ++ B)) := by
  refine ⟨?_, fun i hi => ?_, ?_, fun k => ?_, ?_⟩
  · have ht := total_step (Op.body fl) A B new op
    have hn : total (Op.body fl) new = 0 := total_eq_zero_iff.mpr (fun x hx => (hnew x hx).1)
    have hb := h.body
    have hop' := hop.1
    rw [hr]
    omega
  · rw [ha]
    rcases Machine.mem_cases op hi with hi | hi
    · exact absurd rfl ((hnew _ hi).2.2 i)
    · exact h.start i hi
  · rw [hw, ha]
    exact h.awaited
  · have ht := total_step (Op.loads k) A B new op
    have hn : total (Op.loads k) new = 0 := total_eq_zero_iff.mpr (fun x hx => (hnew x hx).2.1 k)
    have hl := h.loads k
    have hop' := hop.2 k
    rw [hw, hd, hc]
    omega
  · have ht := total_step (Op.unfinished n) A B new op
    have hcount := h.count
    rw [hp, ha, hr]
    omega

/-- The generator spawns the next wrapper. -/
theorem Asked.spawn {i : Nat} (h : Asked fl n m (A ++ .spawn i :: B)) :
    Asked fl n { m with pending := m.pending ++ [i] } (A ++ ([if i + 1 < n then .spawn (i + 1) else .hand] ++ B)) := by
  obtain ⟨hr, -, hno⟩ := h.alone rfl
  obtain ⟨ha, hi⟩ := h.start i (by simp)
  have hidle : ¬(m.asked = 0 ∧ m.running = false) := by simp [hr]
  have hcount := h.count
  rw [if_neg hidle] at hcount
  refine ⟨?_, fun j hj => ⟨ha, ?_⟩, h.awaited, fun k => ?_, ?_⟩
  · rw [total_step_eq A B (.spawn i) (by split <;> rfl)]
    exact h.body
  · rcases Machine.mem_beside hj with hj | hj
    · rw [List.mem_singleton] at hj
      split at hj
      · cases hj
        assumption
      · cases hj
    · exact absurd hj (hno j)
  · rw [total_step_eq A B (.spawn i) (by split <;> rfl)]
    exact h.loads k
  · have ht := total_step (Op.unfinished n) A B [if i + 1 < n then (.spawn (i + 1) : Op α) else .hand] (.spawn i)
    have hop : (Op.spawn i : Op α).unfinished n = n - i := rfl
    have hn : total (Op.unfinished n) [if i + 1 < n then (.spawn (i + 1) : Op α) else .hand] = n - (i + 1) := by
      split
      · rfl
      · show 0 = n - (i + 1)
        omega
    show m.finished.length + total (Op.unfinished n) _ + (m.pending ++ [i]).length + (if m.asked = 0 ∧ m.running = false then n else 0) = n
    rw [if_neg hidle, List.length_append, List.length_singleton]
    omega

/-- The generator hands out an item. -/
theorem Asked.hand (h : Asked fl n m (A ++ .hand :: B)) :
    Asked fl n { m with asked := m.asked + 1, running := false } (A ++ ([] ++ B)) := by
  obtain ⟨hr, hzero, hno⟩ := h.alone rfl
  have hcount := h.count
  rw [if_neg (by simp [hr])] at hcount
  refine ⟨Nat.le_of_eq hzero, fun j hj => absurd (by simpa using hj) (hno j), fun k hk => Nat.lt_succ_of_lt (h.awaited k hk),
    fun k => ?_, ?_⟩
  · rw [total_step_eq A B .hand rfl]
    exact h.loads k
  · rw [total_step_eq A B .hand rfl, if_neg (by simp)]
    exact hcount

/-- One more item is awaited. -/
theorem awaited_snoc {awaited : List Nat} {k j c t : Nat} (hk : k ∉ awaited) (h : c + t = if j ∈ awaited then 1 else 0) :
    c + (t + if k = j then 1 else 0) = if j ∈ awaited ++ [k] then 1 else 0 := by
  by_cases hj : k = j
  · subst hj
    rw [if_neg hk] at h
    rw [if_pos rfl, if_pos (by simp)]
    omega
  · have hiff : j ∈ awaited ++ [k] ↔ j ∈ awaited := by simp [Ne.symm hj]
    simp only [hiff, if_neg hj]
    exact h

/-- The `async` generator awaits the next item. -/
theorem Asked.handOver (h : Asked .colored n m (A ++ .hand :: B)) :
    Asked .colored n { m with asked := m.asked + 1, awaited := m.awaited ++ [m.asked] } (A ++ ([.wait m.asked] ++ B)) := by
  obtain ⟨hr, -, hno⟩ := h.alone rfl
  have hcount := h.count
  rw [if_neg (by simp [hr])] at hcount
  refine ⟨?_, fun j hj => ?_, fun k hk => ?_, fun k => ?_, ?_⟩
  · rw [total_step_eq A B .hand rfl]
    exact h.body
  · rcases Machine.mem_beside hj with hj | hj
    · cases List.mem_singleton.mp hj
    · exact absurd hj (hno j)
  · show k < m.asked + 1
    rcases List.mem_append.mp hk with hk | hk
    · exact Nat.lt_succ_of_lt (h.awaited k hk)
    · rw [List.mem_singleton.mp hk]
      exact Nat.lt_succ_self m.asked
  · have ht := total_step (Op.loads k) A B [.wait m.asked] .hand
    have hwait : total (Op.loads k) [(.wait m.asked : Op α)] = if m.asked = k then 1 else 0 := rfl
    have hop : (Op.hand : Op α).loads k = 0 := rfl
    rw [hwait, hop, Nat.add_zero] at ht
    rw [ht]
    exact awaited_snoc (fun hmem => Nat.lt_irrefl _ (h.awaited _ hmem)) (h.loads k)
  · rw [total_step_eq A B .hand rfl, if_neg (by simp)]
    exact hcount

/-- The wait of an item is over: it is delivered, or given up. -/
theorem Asked.leaves {k : Nat} (h : Asked fl n m (A ++ op :: B)) (hop : op = .wait k ∨ op = .fetch k)
    (hr : m'.running = m.running ∨ (fl = .colored ∧ m'.running = false)) (ha : m'.asked = m.asked) (hw : m'.awaited = m.awaited)
    (hp : m'.pending = m.pending) (hf : m'.finished = m.finished)
    (hd : ∀ j, (m'.delivered.map Prod.fst).count j + m'.cancelled.count j =
      (m.delivered.map Prod.fst).count j + m.cancelled.count j + if k = j then 1 else 0) : Asked fl n m' (A ++ ([] ++ B)) := by
  have hloads : ∀ j, (op.loads j : Nat) = if k = j then 1 else 0 := by
    intro j
    rcases hop with rfl | rfl <;> rfl
  have hunf : op.unfinished n = 0 := by
    rcases hop with rfl | rfl <;> rfl
  -- the item has been handed out
  have hpos : m.asked ≠ 0 := by
    have hk := h.loads k
    have hle : op.loads k ≤ total (Op.loads k) (A ++ op :: B) := le_total_of_mem (by simp)
    rw [hloads, if_pos rfl] at hle
    have hmem : k ∈ m.awaited := by
      by_contra hmem
      rw [if_neg hmem] at hk
      omega
    exact Nat.ne_of_gt (Nat.lt_of_le_of_lt (Nat.zero_le k) (h.awaited k hmem))
  refine ⟨?_, fun j hj => ?_, ?_, fun j => ?_, ?_⟩
  · rcases hr with hr | ⟨hfl, hr⟩
    · have ht := total_step (Op.body fl) A B [] op
      have hb := h.body
      rw [total_nil] at ht
      rw [hr]
      omega
    · have hbody : op.body fl = 1 := by
        rcases hop with rfl | rfl <;> exact if_pos hfl
      rw [(h.alone hbody).2.1]
      exact Nat.zero_le _
  · rw [ha]
    exact h.start j (Machine.mem_before _ (by simpa using hj))
  · rw [hw, ha]
    exact h.awaited
  · have ht := total_step (Op.loads j) A B [] op
    have hl := h.loads j
    have hdj := hd j
    have hj := hloads j
    rw [total_nil] at ht
    rw [hw]
    omega
  · have ht : total (Op.unfinished n) (A ++ ([] ++ B)) = total (Op.unfinished n) (A ++ op :: B) := total_step_eq A B op hunf.symm
    rw [ht, ha, hp, hf, if_neg (fun hz => hpos hz.1)]
    have hcount := h.count
    rw [if_neg (fun hz => hpos hz.1)] at hcount
    exact hcount

theorem Asked.exec (h : Asked fl n m (A ++ op :: B)) (hm : Move fl n m op c m' new) : Asked fl n m' (A ++ (new ++ B)) := by
  cases hm with
  | returns i v => exact h.wrapper ⟨rfl, fun _ => rfl⟩ (by simp [Op.body, Op.loads]) rfl rfl rfl rfl rfl rfl (by simp [Op.unfinished])
  | raises i e => exact h.wrapper ⟨rfl, fun _ => rfl⟩ (by simp) rfl rfl rfl rfl rfl rfl (by simp [Op.unfinished])
  | pop i v hk => exact h.wrapper ⟨rfl, fun _ => rfl⟩ (by simp [Op.body, Op.loads]) rfl rfl rfl rfl rfl rfl (by simp [Op.unfinished])
  | popEmpty i v hk => exact h.wrapper ⟨rfl, fun _ => rfl⟩ (by simp) rfl rfl rfl rfl rfl rfl (by simp [Op.unfinished])
  | store k v => exact h.wrapper ⟨rfl, fun _ => rfl⟩ (by simp [Op.body, Op.loads]) rfl rfl rfl rfl rfl rfl (by simp [Op.unfinished])
  | setEvent k => exact h.wrapper ⟨rfl, fun _ => rfl⟩ (by simp) rfl rfl rfl rfl rfl rfl (by simp [Op.unfinished])
  | spawn i => exact h.spawn
  | hand hfl => exact h.hand
  | handOver hfl =>
    subst hfl
    exact h.handOver
  | wait k hk =>
    refine ⟨?_, fun j hj => ?_, h.awaited, fun j => ?_, ?_⟩
    · rw [total_step_eq A B (.wait k) rfl]
      exact h.body
    · rcases Machine.mem_cases (.wait k) hj with hj | hj
      · cases List.mem_singleton.mp hj
      · exact h.start j hj
    · rw [total_step_eq A B (.wait k) rfl]
      exact h.loads j
    · rw [total_step_eq A B (.wait k) rfl]
      exact h.count
  | cancelled k =>
    refine h.leaves (Or.inl rfl) (Or.inl rfl) rfl rfl rfl rfl (fun j => ?_)
    simp only [List.count_append, List.count_singleton, beq_iff_eq]
    omega
  | fetch k hb =>
    refine h.leaves (Or.inr rfl) hb rfl rfl rfl rfl (fun j => ?_)
    simp only [List.map_append, List.map_cons, List.map_nil, List.count_append, List.count_singleton, beq_iff_eq]
    omega

/-- The consumer asks for the next item, and the generator goes on. -/
theorem Asked.next (h : Asked fl n m ops) (hr : m.running = false) (ha : m.asked < n) :
    Asked fl n { m with running := true } (ops ++ [if m.asked = 0 then .spawn 0 else .hand]) := by
  have hzero : total (Op.body fl) ops = 0 := by
    have hb := h.body
    rw [hr] at hb
    exact Nat.le_zero.mp hb
  have hno : ∀ i, Op.spawn i ∉ ops := fun i hi => by cases total_eq_zero_iff.mp hzero _ hi
  have hbusy : ¬(m.asked = 0 ∧ true = false) := by simp
  have hcount := h.count
  refine ⟨?_, fun j hj => ?_, h.awaited, fun k => ?_, ?_⟩
  · rw [total_append, hzero, Nat.zero_add]
    show total (Op.body fl) [if m.asked = 0 then (.spawn 0 : Op α) else .hand] ≤ 1
    split <;> exact Nat.le_refl 1
  · rcases List.mem_append.mp hj with hj | hj
    · exact absurd hj (hno j)
    · rw [List.mem_singleton] at hj
      split at hj
      · cases hj
        exact ⟨by assumption, by omega⟩
      · cases hj
  · have hn : total (Op.loads k) [if m.asked = 0 then (.spawn 0 : Op α) else .hand] = 0 := by split <;> rfl
    rw [total_append, hn]
    exact h.loads k
  · rw [total_append]
    show m.finished.length + (total (Op.unfinished n) ops + _) + m.pending.length + (if m.asked = 0 ∧ true = false then n else 0) = n
    rw [if_neg hbusy]
    by_cases ha0 : m.asked = 0
    · -- all coroutines are still to be spawned
      have hall : total (Op.unfinished n) [(.spawn 0 : Op α)] = n := rfl
      rw [if_pos ⟨ha0, hr⟩] at hcount
      rw [if_pos ha0, hall]
      omega
    · rw [if_neg (fun hz => ha0 hz.1)] at hcount
      rw [if_neg ha0]
      exact hcount

/-- The consumer awaits an item. -/
theorem Asked.load {k : Nat} (h : Asked .gen n m ops) (ha : k < m.asked) (hk : k ∉ m.awaited) :
    Asked .gen n { m with awaited := m.awaited ++ [k] } (ops ++ [.wait k]) := by
  refine ⟨?_, fun j hj => h.start j (by simpa using hj), fun j hj => ?_, fun j => ?_, ?_⟩
  · rw [total_append]
    exact h.body
  · rcases List.mem_append.mp hj with hj | hj
    · exact h.awaited j hj
    · exact List.mem_singleton.mp hj ▸ ha
  · rw [total_append]
    exact awaited_snoc hk (h.loads j)
  · rw [total_append]
    exact h.count

/-- A worker gets to a wrapper. -/
theorem Asked.begin {i : Nat} (h : Asked fl n m ops) (hi : i ∈ m.pending) :
    Asked fl n { m with pending := m.pending.erase i } (ops ++ [.run i]) := by
  refine ⟨?_, fun j hj => h.start j (by simpa using hj), h.awaited, fun j => ?_, ?_⟩
  · rw [total_append]
    exact h.body
  · rw [total_append]
    exact h.loads j
  · have hn : total (Op.unfinished n) [(.run i : Op α)] = 1 := rfl
    have hlen := List.length_erase_of_mem hi
    have hpos := List.length_pos_of_mem hi
    have hcount := h.count
    rw [total_append, hn]
    show m.finished.length + (total (Op.unfinished n) ops + 1) + (m.pending.erase i).length +
      (if m.asked = 0 ∧ m.running = false then n else 0) = n
    omega

theorem Asked.call {l : Call} (h : Asked fl n m ops) (hc : Called fl n m l m' new) : Asked fl n m' (ops ++ new) := by
  cases hc with
  | next hr ha => exact h.next hr ha
  | load hfl ha hk =>
    subst hfl
    exact h.load ha hk
  | begin hi => exact h.begin hi

variable {ok : Mem α → List (Op α) → Act (Op α) (Choice α) Call → Prop} {s : State (Mem α) (Op α)}

/-- In every state of every run. -/
theorem Asked.reach (h : (machine fl n).Reach ok (initial n) s) : Asked fl n s.mem s.ops := by
  refine h.invariant ?_ (fun m A op B c m' new ih _ he => ih.exec (exec_move he)) (fun m ops l m' new ih _ hc => ih.call (call_called hc))
  exact ⟨Nat.le_refl 0, fun i hi => absurd hi List.not_mem_nil, List.forall_mem_nil _, fun k => rfl, by simp [initial]; rfl⟩

/-! ## Slots -/

/-- A coroutine that returned, as it ended. -/
def ended (p : Nat × α) : Nat × Outcome α := (p.1, .ret p.2)

/-- The coroutine whose wrapper is about to pop, as it ended. -/
def Op.pops : Op α → Option (Nat × Outcome α)
  | .pop i v => some (i, .ret v)
  | _ => none

/-- The slots are popped in order, by the wrappers in the order in which their coroutines ended; what is stored in a slot is what the
wrapper that popped it has; a slot whose event is set has a value, and one that is popped has it soon. -/
structure Filled (n : Nat) (m : Mem α) (ops : List (Op α)) : Prop where
  glues : m.glues = ((List.range n).drop m.popped.length).reverse
  popped : m.popped.map ended = m.finished.take m.popped.length
  pops : (ops.filterMap Op.pops).Perm (m.finished.drop m.popped.length)
  storing : ∀ k v, Op.store k v ∈ ops → ∃ i, m.popped[k]? = some (i, v)
  slots : ∀ k v, m.slot k = some v → ∃ i, m.popped[k]? = some (i, v)
  setting : ∀ k, Op.setEvent k ∈ ops → (m.slot k).isSome
  events : ∀ k, m.event k = true → (m.slot k).isSome
  soon : ∀ k < m.popped.length, (∃ v, Op.store k v ∈ ops) ∨ Op.setEvent k ∈ ops ∨ m.event k = true
  fetching : ∀ k, Op.fetch k ∈ ops → m.event k = true
  delivered : ∀ p ∈ m.delivered, ∃ i v, m.popped[p.1]? = some (i, v) ∧ p.2 = some v

/-- A step that leaves the slots alone. -/
theorem Filled.stays (h : Filled n m (A ++ op :: B)) (hop : op.fills = false) (hnew : ∀ x ∈ new, x.fills = false)
    (hfetch : ∀ k, Op.fetch k ∈ new → m.event k = true) (hg : m'.glues = m.glues) (hp : m'.popped = m.popped)
    (hf : m'.finished = m.finished) (hs : m'.slot = m.slot) (he : m'.event = m.event)
    (hd : ∀ p ∈ m'.delivered, p ∈ m.delivered ∨ (m.event p.1 = true ∧ p.2 = m.slot p.1)) : Filled n m' (A ++ (new ++ B)) := by
  have hpops : ∀ x : Op α, x.fills = false → x.pops = none := by
    intro x hx
    cases x <;> first | rfl | cases hx
  have hold : ∀ x ∈ A ++ (new ++ B), x.fills = true → x ∈ A ++ op :: B := by
    intro x hx hxf
    rcases Machine.mem_cases op hx with hx | hx
    · rw [hnew x hx] at hxf
      cases hxf
    · exact hx
  refine ⟨by rw [hg, hp, h.glues], by rw [hp, hf, h.popped], ?_, fun k v hk => ?_, ?_, fun k hk => ?_, ?_, fun k hk => ?_, fun k hk => ?_,
    fun p hpd => ?_⟩
  · have hmap : (A ++ (new ++ B)).filterMap Op.pops = (A ++ op :: B).filterMap Op.pops := by
      have hn : new.filterMap Op.pops = [] := List.filterMap_eq_nil_iff.mpr (fun x hx => hpops x (hnew x hx))
      simp [List.filterMap_append, hn, hpops op hop]
    rw [hmap, hp, hf]
    exact h.pops
  · rw [hp]
    exact h.storing k v (hold _ hk rfl)
  · rw [hs, hp]
    exact h.slots
  · rw [hs]
    exact h.setting k (hold _ hk rfl)
  · rw [he, hs]
    exact h.events
  · rw [he]
    rcases h.soon k (hp ▸ hk) with ⟨v, hk⟩ | hk | hk
    · exact Or.inl ⟨v, Machine.mem_keep hk (by rintro rfl; cases hop)⟩
    · exact Or.inr (Or.inl (Machine.mem_keep hk (by rintro rfl; cases hop)))
    · exact Or.inr (Or.inr hk)
  · rw [he]
    rcases Machine.mem_cases op hk with hk | hk
    · exact hfetch k hk
    · exact h.fetching k hk
  · rw [hp]
    rcases hd p hpd with hpd | ⟨hev, hps⟩
    · exact h.delivered p hpd
    · obtain ⟨v, hv⟩ := Option.isSome_iff_exists.mp (h.events _ hev)
      obtain ⟨i, hi⟩ := h.slots _ v hv
      exact ⟨i, v, hi, hps.trans hv⟩

/-- A coroutine returns. -/
theorem Filled.returns {i : Nat} {v : α} (h : Filled n m (A ++ .run i :: B)) :
    Filled n { m with finished := m.finished ++ [(i, .ret v)] } (A ++ ([.pop i v] ++ B)) := by
  have hlen : m.popped.length ≤ m.finished.length := by
    have := congrArg List.length h.popped
    rw [List.length_map, List.length_take] at this
    omega
  have hold : ∀ x ∈ A ++ ([.pop i v] ++ B), x ≠ .pop i v → x ∈ A ++ .run i :: B := by
    intro x hx hne
    rcases Machine.mem_cases (.run i) hx with hx | hx
    · exact absurd (List.mem_singleton.mp hx) hne
    · exact hx
  refine ⟨h.glues, ?_, ?_, fun k w hk => h.storing k w (hold _ hk (by simp)), h.slots, fun k hk => h.setting k (hold _ hk (by simp)),
    h.events, fun k hk => ?_, fun k hk => h.fetching k (hold _ hk (by simp)), h.delivered⟩
  · show m.popped.map ended = (m.finished ++ [(i, Outcome.ret v)]).take m.popped.length
    rw [List.take_append_of_le_length hlen]
    exact h.popped
  · show (_ : List (Nat × Outcome α)).Perm ((m.finished ++ [(i, Outcome.ret v)]).drop m.popped.length)
    rw [List.drop_append_of_le_length hlen]
    have hperm := h.pops
    simp only [List.filterMap_append, List.filterMap_cons, Op.pops, List.singleton_append] at hperm ⊢
    exact List.perm_middle.trans ((hperm.cons _).trans (List.perm_append_singleton _ _).symm)
  · rcases h.soon k hk with ⟨w, hk⟩ | hk | hk
    · exact Or.inl ⟨w, Machine.mem_keep hk (by simp)⟩
    · exact Or.inr (Or.inl (Machine.mem_keep hk (by simp)))
    · exact Or.inr (Or.inr hk)

/-- A wrapper pops a slot: the first one that is left, and its coroutine ended before the others whose wrappers have not popped. -/
theorem Filled.pop {i k : Nat} {v : α} (h : Filled n m (A ++ .pop i v :: B)) (hok : m.finished[m.popped.length]? = some (i, .ret v))
    (hk : m.glues.getLast? = some k) :
    Filled n { m with glues := m.glues.dropLast, popped := m.popped ++ [(i, v)] } (A ++ ([.store k v] ++ B)) := by
  obtain rfl : m.popped.length = k := by
    rw [h.glues, List.getLast?_reverse, List.head?_drop] at hk
    obtain ⟨hlt, heq⟩ := List.getElem?_eq_some_iff.mp hk
    rw [List.getElem_range] at heq
    exact heq
  have hmono : ∀ {j : Nat} {p : Nat × α}, m.popped[j]? = some p → (m.popped ++ [(i, v)])[j]? = some p :=
    fun hj => List.getElem?_append_left (List.getElem?_eq_some_iff.mp hj).1 ▸ hj
  have hold : ∀ x ∈ A ++ ([.store m.popped.length v] ++ B), x ≠ .store m.popped.length v → x ∈ A ++ .pop i v :: B := by
    intro x hx hne
    rcases Machine.mem_cases (.pop i v) hx with hx | hx
    · exact absurd (List.mem_singleton.mp hx) hne
    · exact hx
  refine ⟨?_, ?_, ?_, fun j w hj => ?_, fun j w hj => ?_, fun j hj => h.setting j (hold _ hj (by simp)), h.events, fun j hj => ?_,
    fun j hj => h.fetching j (hold _ hj (by simp)), fun p hp => ?_⟩
  · show m.glues.dropLast = ((List.range n).drop (m.popped ++ [(i, v)]).length).reverse
    rw [h.glues, List.dropLast_reverse, List.tail_drop, List.length_append, List.length_singleton]
  · show (m.popped ++ [(i, v)]).map ended = m.finished.take (m.popped ++ [(i, v)]).length
    rw [List.map_append, List.length_append, List.length_singleton, List.take_add_one, hok, h.popped]
    rfl
  · show (_ : List (Nat × Outcome α)).Perm (m.finished.drop (m.popped ++ [(i, v)]).length)
    have hperm := h.pops
    obtain ⟨hlt, heq⟩ := List.getElem?_eq_some_iff.mp hok
    rw [List.drop_eq_getElem_cons hlt, heq] at hperm
    simp only [List.filterMap_append, List.filterMap_cons, Op.pops, List.filterMap_nil, List.nil_append] at hperm ⊢
    rw [List.length_append, List.length_singleton]
    exact (List.perm_middle.symm.trans hperm).cons_inv
  · by_cases hs : Op.store j w = .store m.popped.length v
    · cases hs
      exact ⟨i, by simp⟩
    · obtain ⟨i', hi'⟩ := h.storing j w (hold _ hj hs)
      exact ⟨i', hmono hi'⟩
  · obtain ⟨i', hi'⟩ := h.slots j w hj
    exact ⟨i', hmono hi'⟩
  · have hj' : j < m.popped.length + 1 := by simpa using hj
    by_cases hjl : j = m.popped.length
    · subst hjl
      exact Or.inl ⟨v, by simp⟩
    · rcases h.soon j (by omega) with ⟨w, hj⟩ | hj | hj
      · exact Or.inl ⟨w, Machine.mem_keep hj (by simp)⟩
      · exact Or.inr (Or.inl (Machine.mem_keep hj (by simp)))
      · exact Or.inr (Or.inr hj)
  · obtain ⟨i', w, hi', hw⟩ := h.delivered p hp
    exact ⟨i', w, hmono hi', hw⟩

/-- A value is stored in the slot its wrapper has popped. -/
theorem Filled.store {k : Nat} {v : α} (h : Filled n m (A ++ .store k v :: B)) :
    Filled n { m with slot := Function.update m.slot k (some v) } (A ++ ([.setEvent k] ++ B)) := by
  have hsome : ∀ j, (m.slot j).isSome → (Function.update m.slot k (some v) j).isSome := by
    intro j hj
    by_cases hjk : j = k
    · subst hjk
      simp
    · rw [Function.update_of_ne hjk]
      exact hj
  have hold : ∀ x ∈ A ++ ([.setEvent k] ++ B), x ≠ .setEvent k → x ∈ A ++ .store k v :: B := by
    intro x hx hne
    rcases Machine.mem_cases (.store k v) hx with hx | hx
    · exact absurd (List.mem_singleton.mp hx) hne
    · exact hx
  refine ⟨h.glues, h.popped, ?_, fun j w hj => h.storing j w (hold _ hj (by simp)), fun j w hj => ?_, fun j hj => ?_,
    fun j hj => hsome j (h.events j hj), fun j hj => ?_, fun j hj => h.fetching j (hold _ hj (by simp)), h.delivered⟩
  · have hperm := h.pops
    simp only [List.filterMap_append, List.filterMap_cons, List.filterMap_nil, Op.pops, List.nil_append] at hperm ⊢
    exact hperm
  · by_cases hjk : j = k
    · subst hjk
      obtain rfl : v = w := by simpa using hj
      exact h.storing j v (by simp)
    · exact h.slots j w ((Function.update_of_ne hjk ..).symm.trans hj)
  · by_cases hjk : j = k
    · subst hjk
      simp
    · exact hsome j (h.setting j (hold _ hj (by simp [hjk])))
  · rcases h.soon j hj with ⟨w, hj⟩ | hj | hj
    · by_cases hs : Op.store j w = .store k v
      · cases hs
        exact Or.inr (Or.inl (by simp))
      · exact Or.inl ⟨w, Machine.mem_keep hj hs⟩
    · exact Or.inr (Or.inl (Machine.mem_keep hj (by simp)))
    · exact Or.inr (Or.inr hj)

/-- The event of a slot is set. -/
theorem Filled.setEvent {k : Nat} (h : Filled n m (A ++ .setEvent k :: B)) :
    Filled n { m with event := Function.update m.event k true } (A ++ ([] ++ B)) := by
  have hset : ∀ j, m.event j = true → Function.update m.event k true j = true := by
    intro j hj
    by_cases hjk : j = k
    · subst hjk
      simp
    · rw [Function.update_of_ne hjk]
      exact hj
  have hold : ∀ x ∈ A ++ ([] ++ B), x ∈ A ++ .setEvent k :: B := fun x hx => Machine.mem_before _ (by simpa using hx)
  refine ⟨h.glues, h.popped, ?_, fun j w hj => h.storing j w (hold _ hj), h.slots, fun j hj => h.setting j (hold _ hj), fun j hj => ?_,
    fun j hj => ?_, fun j hj => hset j (h.fetching j (hold _ hj)), h.delivered⟩
  · have hperm := h.pops
    simp only [List.filterMap_append, List.filterMap_cons, Op.pops, List.nil_append] at hperm ⊢
    exact hperm
  · by_cases hjk : j = k
    · subst hjk
      exact h.setting j (by simp)
    · exact h.events j ((Function.update_of_ne hjk ..).symm.trans hj)
  · rcases h.soon j hj with ⟨w, hj⟩ | hj | hj
    · exact Or.inl ⟨w, Machine.mem_keep hj (by simp)⟩
    · by_cases hjk : j = k
      · subst hjk
        exact Or.inr (Or.inr (by simp))
      · exact Or.inr (Or.inl (Machine.mem_keep hj (by simp [hjk])))
    · exact Or.inr (Or.inr (hset j hj))

theorem Filled.exec (h : Filled n m (A ++ op :: B)) (hA : Asked fl n m (A ++ op :: B)) (hok : Orderly m (.exec op c))
    (hm : Move fl n m op c m' new) : Filled n m' (A ++ (new ++ B)) := by
  cases hm with
  | returns i v => exact h.returns
  | raises i e => exact absurd hok id
  | pop i v hk => exact h.pop hok hk
  | popEmpty i v hk =>
    -- there is a slot for every coroutine
    have hlt : m.popped.length < m.finished.length := (List.getElem?_eq_some_iff.mp hok).1
    have hcount := hA.count
    rw [h.glues, List.getLast?_eq_none_iff, List.reverse_eq_nil_iff, List.drop_eq_nil_iff, List.length_range] at hk
    omega
  | store k v => exact h.store
  | setEvent k => exact h.setEvent
  | spawn i =>
    refine h.stays rfl (fun x hx => ?_) (fun k hk => ?_) rfl rfl rfl rfl rfl (fun p hp => Or.inl hp)
    · rw [List.mem_singleton.mp hx]
      split <;> rfl
    · rw [List.mem_singleton] at hk
      split at hk <;> cases hk
  | hand hfl => exact h.stays rfl (by simp) (by simp) rfl rfl rfl rfl rfl (fun p hp => Or.inl hp)
  | handOver hfl => exact h.stays rfl (by simp [Op.fills]) (by simp) rfl rfl rfl rfl rfl (fun p hp => Or.inl hp)
  | wait k hk =>
    refine h.stays rfl (by simp [Op.fills]) (fun j hj => ?_) rfl rfl rfl rfl rfl (fun p hp => Or.inl hp)
    cases List.mem_singleton.mp hj
    exact hk
  | cancelled k => exact h.stays rfl (by simp) (by simp) rfl rfl rfl rfl rfl (fun p hp => Or.inl hp)
  | fetch k hb =>
    refine h.stays rfl (by simp) (by simp) rfl rfl rfl rfl rfl (fun p hp => ?_)
    rcases List.mem_append.mp hp with hp | hp
    · exact Or.inl hp
    · rw [List.mem_singleton.mp hp]
      exact Or.inr ⟨h.fetching k (by simp), rfl⟩

theorem Filled.call {l : Call} (h : Filled n m ops) (hc : Called fl n m l m' new) : Filled n m' (ops ++ new) := by
  have hplain : new.filterMap Op.pops = [] ∧ (∀ x ∈ new, x.fills = false ∧ ∀ k, x ≠ .fetch k) ∧ m'.glues = m.glues ∧ m'.popped = m.popped ∧
      m'.finished = m.finished ∧ m'.slot = m.slot ∧ m'.event = m.event ∧ m'.delivered = m.delivered := by
    cases hc with
    | next hr ha =>
      refine ⟨?_, fun x hx => ?_, rfl, rfl, rfl, rfl, rfl, rfl⟩
      · split <;> rfl
      · rw [List.mem_singleton.mp hx]
        split <;> exact ⟨rfl, by simp⟩
    | load hfl ha hk => exact ⟨rfl, by simp [Op.fills], rfl, rfl, rfl, rfl, rfl, rfl⟩
    | begin hi => exact ⟨rfl, by simp [Op.fills], rfl, rfl, rfl, rfl, rfl, rfl⟩
  obtain ⟨hmap, hnew, hg, hp, hf, hs, he, hd⟩ := hplain
  have hold : ∀ x ∈ ops ++ new, x.fills = true → x ∈ ops := by
    intro x hx hxf
    rcases List.mem_append.mp hx with hx | hx
    · exact hx
    · rw [(hnew x hx).1] at hxf
      cases hxf
  refine ⟨by rw [hg, hp, h.glues], by rw [hp, hf, h.popped], ?_, fun k v hk => ?_, by rw [hs, hp]; exact h.slots, fun k hk => ?_,
    by rw [he, hs]; exact h.events, fun k hk => ?_, fun k hk => ?_, by rw [hd, hp]; exact h.delivered⟩
  · rw [List.filterMap_append, hmap, List.append_nil, hf, hp]
    exact h.pops
  · rw [hp]
    exact h.storing k v (hold _ hk rfl)
  · rw [hs]
    exact h.setting k (hold _ hk rfl)
  · rw [he]
    rcases h.soon k (hp ▸ hk) with ⟨v, hk⟩ | hk | hk
    · exact Or.inl ⟨v, List.mem_append_left _ hk⟩
    · exact Or.inr (Or.inl (List.mem_append_left _ hk))
    · exact Or.inr (Or.inr hk)
  · rw [he]
    rcases List.mem_append.mp hk with hk | hk
    · exact h.fetching k hk
    · exact absurd rfl ((hnew _ hk).2 k)

/-- In every state of a run without exceptions in which wrappers pop in order. -/
theorem Filled.reach (h : (machine fl n).Reach (fun m _ a => Orderly m a) (initial n) s) : Filled n s.mem s.ops := by
  refine h.invariant_with (J := Asked fl n) (fun hs => Asked.reach hs) ?_
    (fun m A op B c m' new hA ih hok he => ih.exec hA hok (exec_move he)) (fun m ops l m' new _ ih _ hc => ih.call (call_called hc))
  exact ⟨rfl, rfl, .nil, fun k v hk => absurd hk List.not_mem_nil, (fun k v hk => by cases hk), fun k hk => absurd hk List.not_mem_nil,
    (fun k hk => by cases hk), fun k hk => absurd hk (Nat.not_lt_zero k), fun k hk => absurd hk List.not_mem_nil, List.forall_mem_nil _⟩

/-- A coroutine has ended whose wrapper has not popped: one that did so before the others is about to pop. -/
theorem Filled.exists_pop (h : Filled n m ops) (hlt : m.popped.length < m.finished.length) (hn : m.finished.length ≤ n) :
    ∃ i v, Op.pop i v ∈ ops ∧ m.finished[m.popped.length]? = some (i, .ret v) ∧ m.glues.getLast? = some m.popped.length := by
  have hmem : m.finished[m.popped.length] ∈ ops.filterMap Op.pops := by
    rw [h.pops.mem_iff, List.drop_eq_getElem_cons hlt]
    exact List.mem_cons_self
  have hlast : m.glues.getLast? = some m.popped.length := by
    rw [h.glues, List.getLast?_reverse, List.head?_drop, List.getElem?_range (by omega)]
  obtain ⟨x, hx, hxp⟩ := List.mem_filterMap.mp hmem
  cases x with
  | pop i v => exact ⟨i, v, hx, by rw [List.getElem?_eq_getElem hlt, ← Option.some.inj hxp], hlast⟩
  | _ => cases hxp

/-- All slots are popped, and nobody is about to store or to set an event: all events are set. -/
theorem Filled.all_set (h : Filled n m ops) (hn : n ≤ m.popped.length) (hstore : ∀ k v, Op.store k v ∉ ops)
    (hset : ∀ k, Op.setEvent k ∉ ops) : ∀ k < n, m.event k = true := by
  intro k hk
  rcases h.soon k (by omega) with ⟨v, hk⟩ | hk | hk
  · exact absurd hk (hstore k v)
  · exact absurd hk (hset k)
  · exact hk

/-! ## All slots come to be filled -/

/-- What an operation and those that follow from it still count for. -/
def Op.left (n : Nat) : Op α → Nat
  | .spawn i => 6 * (n - i) + 1
  | .run _ => 4
  | .pop _ _ => 3
  | .store _ _ => 2
  | .setEvent _ => 1
  | _ => 0

/-- What is left to be done for the coroutines: all, as long as the generator has not begun. -/
def left (n : Nat) (m : Mem α) (ops : List (Op α)) : Nat :=
  total (Op.left n) ops + 5 * m.pending.length + if m.asked = 0 ∧ m.running = false then 6 * n + 2 else 0

/-- Short of a state in which all events are set, something can be done that leaves less to be done. -/
theorem exists_less [Inhabited α] (h : (machine fl n).Reach (fun m _ a => Orderly m a) (initial n) s)
    (hne : ¬∀ k < n, s.mem.event k = true) :
    ∃ a s', Orderly s.mem a ∧ (machine fl n).Step s a s' ∧ left n s'.mem s'.ops < left n s.mem s.ops := by
  have hA : Asked fl n s.mem s.ops := Asked.reach h
  have hF : Filled n s.mem s.ops := Filled.reach h
  have hshort : ∀ t ∈ s.pool, t.length ≤ 1 := by
    refine h.short ?_ (fun m op c m' new he => (exec_move he).short) (fun m l m' new hc => (call_called hc).short)
    simp [initial]
  have hgo : ∀ x ∈ s.ops, ∀ c m' new, exec fl n s.mem x c = some (m', new) → Orderly s.mem (.exec x c) →
      (left n m' new < left n s.mem [x]) →
      ∃ a s', Orderly s.mem a ∧ (machine fl n).Step s a s' ∧ left n s'.mem s'.ops < left n s.mem s.ops := by
    intro x hx c m' new he hok hlt
    obtain ⟨s', hs, rfl, hw⟩ := Machine.exists_step (P := machine fl n) hshort hx he
    refine ⟨_, s', hok, hs, ?_⟩
    have hsum := hw (Op.left n)
    simp only [left, total_cons, total_nil] at hlt ⊢
    omega
  by_cases hstore : ∃ k v, Op.store k v ∈ s.ops
  · obtain ⟨k, v, hx⟩ := hstore
    exact hgo _ hx .go _ _ rfl trivial (by simp [left, Op.left])
  by_cases hset : ∃ k, Op.setEvent k ∈ s.ops
  · obtain ⟨k, hx⟩ := hset
    exact hgo _ hx .go _ _ rfl trivial (by simp [left, Op.left])
  by_cases hpop : s.mem.popped.length < s.mem.finished.length
  · obtain ⟨i, v, hx, hfirst, hlast⟩ := hF.exists_pop hpop (by have := hA.count; omega)
    refine hgo _ hx .go { s.mem with glues := s.mem.glues.dropLast, popped := s.mem.popped ++ [(i, v)] } [.store s.mem.popped.length v]
      ?_ hfirst (by simp [left, Op.left])
    simp only [exec, hlast]
  by_cases hrun : ∃ i, Op.run i ∈ s.ops
  · obtain ⟨i, hx⟩ := hrun
    exact hgo _ hx (.finish (.ret default)) _ _ rfl trivial (by simp [left, Op.left])
  by_cases hpending : ∃ i, i ∈ s.mem.pending
  · obtain ⟨i, hi⟩ := hpending
    refine ⟨.call (.begin i), _, trivial, .call (if_pos hi), ?_⟩
    have hlen := List.length_erase_of_mem hi
    have hpos := List.length_pos_of_mem hi
    simp only [left, State.ops, List.flatten_append, total_append, List.flatten_singleton, total_cons, total_nil, Op.left]
    omega
  by_cases hspawn : ∃ i, Op.spawn i ∈ s.ops
  · obtain ⟨i, hx⟩ := hspawn
    obtain ⟨-, hi⟩ := hA.start i hx
    refine hgo _ hx .go _ _ rfl trivial ?_
    have hnext : total (Op.left n) [if i + 1 < n then (.spawn (i + 1) : Op α) else .hand] ≤ 6 * (n - (i + 1)) + 1 := by
      split <;> simp [Op.left]
    have hop : total (Op.left n) [(.spawn i : Op α)] = 6 * (n - i) + 1 := rfl
    simp only [left, List.length_append, List.length_singleton]
    omega
  by_cases hidle : s.mem.asked = 0 ∧ s.mem.running = false
  · have hn : 0 < n := by
      by_contra hn
      exact hne (fun k hk => absurd hk (by omega))
    refine ⟨.call .next, ⟨{ s.mem with running := true }, s.pool ++ [[.spawn 0]]⟩, trivial, .call ?_, ?_⟩
    · show (if s.mem.running = false ∧ s.mem.asked < n then _ else _) = _
      rw [if_pos ⟨hidle.2, by omega⟩, if_pos hidle.1]
    · have hop : (Op.spawn 0 : Op α).left n = 6 * n + 1 := rfl
      simp only [left, State.ops, List.flatten_append, total_append, List.flatten_singleton, total_cons, total_nil, hop, if_pos hidle]
      simp
      omega
  -- all coroutines have ended, and all wrappers are through
  have hcount := hA.count
  have hunf : total (Op.unfinished n) s.ops = 0 := by
    refine total_eq_zero_iff.mpr (fun x hx => ?_)
    cases x with
    | run i => exact absurd ⟨i, hx⟩ hrun
    | spawn i => exact absurd ⟨i, hx⟩ hspawn
    | _ => rfl
  have hlen : s.mem.pending.length = 0 := List.length_eq_zero_iff.mpr (List.eq_nil_iff_forall_not_mem.mpr (fun i hi => hpending ⟨i, hi⟩))
  rw [if_neg hidle, hunf, hlen] at hcount
  exact absurd (hF.all_set (by omega) (fun k v hx => hstore ⟨k, v, hx⟩) (fun k hx => hset ⟨k, hx⟩)) hne

end Tonio.AsCompleted
