import Tonio.TcpStream
import Tonio.Interleaving.Sequential
import Tonio.Interleaving.Weight

/-!
# Who closes the sockets of `open_tcp_stream`

The parent performs one operation at a time (`Parent`), and so does each attempt, which creates one socket, adds it, and connects it
(`Attempts`). So where no socket is created or added behind the parent's back, each is in the set, or among those still to be closed, or
closed, or the one that is returned (`Owned`).
-/

namespace Tonio.TcpStream

open Interleaving
open Ctl (Flavour)

variable {fl : Flavour} {n : Nat} {m m' : Mem} {A B new ops : List Op} {op : Op} {c : Choice}

/-! ## The steps -/

/-- The attempt an operation belongs to; the others are the parent's. -/
def Op.attempt : Op → Option Nat
  | .socket i | .add i | .connect i | .win i | .cancelScope i | .appendErr i | .setFailed i | .childEnd i => some i
  | _ => none

/-- Operations of an attempt after which its socket is of no concern to it. -/
def Op.passed : Op → Bool
  | .cancelScope _ | .appendErr _ | .setFailed _ | .childEnd _ => true
  | _ => false

/-- Operations of the parent before it has a stream, and before it closes the sockets. -/
def Op.early : Op → Bool
  | .spawn | .wait _ | .yieldNow _ | .exit _ | .join _ | .check | .makeStream | .iter (.raised _) => true
  | _ => false

/-- The sockets are as they were. -/
structure Same (m m' : Mem) : Prop where
  winning : m'.winning = m.winning
  openSockets : m'.openSockets = m.openSockets
  spawned : m'.spawned = m.spawned
  pending : m'.pending = m.pending
  created : m'.created = m.created
  connected : m'.connected = m.connected
  closed : m'.closed = m.closed
  draining : m'.draining = m.draining
  result : m'.result = m.result

theorem Same.refl (m : Mem) : Same m m := ⟨rfl, rfl, rfl, rfl, rfl, rfl, rfl, rfl, rfl⟩

/-- What an operation does to the sockets. -/
inductive Move (m : Mem) : Op → Choice → Mem → List Op → Prop
  | task {x : Op} {c : Choice} {m' : Mem} {new : List Op} {i : Nat} (hx : x.attempt = some i) (ha : x.adding = none) (hm : Same m m')
      (hl : new.length ≤ 1) (hnew : ∀ y ∈ new, y.attempt = some i ∧ y.passed = true) : Move m x c m' new
  | parent {x y : Op} {c : Choice} {m' : Mem} (hx : x.early = true) (hm : Same m m') (hy : y.early = true) :
      Move m x c m' [y]
  | socket (i : Nat) : Move m (.socket i) .go { m with created := m.created ++ [i] } [.add i]
  | add (i : Nat) : Move m (.add i) .go { m with openSockets := m.openSockets.insert i } [.connect i]
  | connect (i : Nat) : Move m (.connect i) .go { m with connected := m.connected ++ [i] } [.win i]
  | win (i : Nat) : Move m (.win i) .go { m with winning := some i } [.cancelScope i]
  | spawn : Move m .spawn .go { m with spawned := m.spawned + 1, pending := m.pending ++ [m.spawned] } [.wait m.spawned]
  | makeStream {i : Nat} (hi : m.winning = some i) : Move m .makeStream .go m [.remove i]
  | remove (sock : Nat) {i : Nat} (hi : m.winning = some i) (ho : i ∈ m.openSockets) :
      Move m (.remove sock) .go { m with openSockets := m.openSockets.erase i } [.iter (.returned sock)]
  | lost (sock : Nat) (ho : ∀ i ∈ m.winning, i ∉ m.openSockets) : Move m (.remove sock) .go m [.iter (.raised .keyError)]
  | iter (r : Result) : Move m (.iter r) .go { m with draining := true } [.next m.openSockets.length m.openSockets [] r]
  | changed {used : Nat} {todo errs : List Nat} {r : Result} (hu : m.openSockets.length ≠ used) :
      Move m (.next used todo errs r) .go m [.ends (.raised .changedSize)]
  | through {used : Nat} (errs : List Nat) (r : Result) (hu : m.openSockets.length = used) :
      Move m (.next used [] errs r) .go m [.ends (if errs = [] then r else .raised (.closing errs))]
  | pick {used sock : Nat} {todo : List Nat} (errs : List Nat) (r : Result) (hu : m.openSockets.length = used) (hs : sock ∈ todo) :
      Move m (.next used todo errs r) (.pick sock) m [.close sock used (todo.erase sock) errs r]
  | close (sock used : Nat) (todo errs : List Nat) (r : Result) :
      Move m (.close sock used todo errs r) .go { m with closed := m.closed ++ [sock] } [.next used todo errs r]
  | closeFails (sock used : Nat) (todo errs : List Nat) (r : Result) :
      Move m (.close sock used todo errs r) .fails { m with closed := m.closed ++ [sock] } [.next used todo (errs ++ [sock]) r]
  | ends (r : Result) : Move m (.ends r) .go { m with result := some r } []

theorem leave_early (fl : Flavour) (e : Option Error) : (leave fl e).early = true := by
  cases fl <;> cases e <;> rfl

theorem nextTarget_early (fl : Flavour) (n : Nat) (m : Mem) : (nextTarget fl n m).early = true := by
  unfold nextTarget
  split
  · rfl
  · exact leave_early fl none

/-- Every step is one of these. -/
theorem exec_move (he : exec fl n m op c = some (m', new)) : Move m op c m' new := by
  cases op
  all_goals
    cases c <;> simp only [exec, reduceCtorEq, Option.some.injEq, Prod.mk.injEq] at he
  case socket.go i =>
    obtain ⟨rfl, rfl⟩ := he
    exact .socket i
  case add.go i =>
    obtain ⟨rfl, rfl⟩ := he
    exact .add i
  case connect.go i =>
    split at he
    · cases he
    · obtain ⟨rfl, rfl⟩ := Prod.mk.inj (Option.some.inj he)
      exact .connect i
  case win.go i =>
    obtain ⟨rfl, rfl⟩ := he
    exact .win i
  case socket.osError i | socket.raises i | connect.osError i | connect.raises i =>
    obtain ⟨rfl, rfl⟩ := he
    exact .task (i := i) rfl rfl (.refl m) (Nat.le_refl 1) (by simp [Op.attempt, Op.passed])
  case cancelScope.go i | appendErr.go i | setFailed.go i =>
    obtain ⟨rfl, rfl⟩ := he
    exact .task (i := i) rfl rfl ⟨rfl, rfl, rfl, rfl, rfl, rfl, rfl, rfl, rfl⟩ (Nat.le_refl 1) (by simp [Op.attempt, Op.passed])
  case childEnd.go i =>
    obtain ⟨rfl, rfl⟩ := he
    exact .task (i := i) rfl rfl ⟨rfl, rfl, rfl, rfl, rfl, rfl, rfl, rfl, rfl⟩ (Nat.zero_le 1) (by simp)
  case spawn.go =>
    obtain ⟨rfl, rfl⟩ := he
    exact .spawn
  case wait.go i =>
    split at he
    · obtain ⟨rfl, rfl⟩ := Prod.mk.inj (Option.some.inj he)
      exact .parent rfl (.refl m) (nextTarget_early fl n m)
    · cases he
  case wait.deadline i =>
    obtain ⟨rfl, rfl⟩ := he
    exact .parent rfl (.refl m) (nextTarget_early fl n m)
  case wait.cancel i =>
    obtain ⟨rfl, rfl⟩ := he
    exact .parent rfl (.refl m) (leave_early fl _)
  case yieldNow.go e | yieldNow.cancel e | join.cancel e =>
    obtain ⟨rfl, rfl⟩ := he
    exact .parent rfl (.refl m) rfl
  case exit.go e =>
    obtain ⟨rfl, rfl⟩ := he
    exact .parent rfl ⟨rfl, rfl, rfl, rfl, rfl, rfl, rfl, rfl, rfl⟩ rfl
  case join.go e =>
    split at he
    · obtain ⟨rfl, rfl⟩ := Prod.mk.inj (Option.some.inj he)
      exact .parent rfl (.refl m) (by cases e <;> rfl)
    · cases he
  case check.go =>
    split at he <;> obtain ⟨rfl, rfl⟩ := Prod.mk.inj (Option.some.inj he) <;> exact .parent rfl (.refl m) rfl
  case makeStream.go =>
    split at he <;> obtain ⟨rfl, rfl⟩ := Prod.mk.inj (Option.some.inj he)
    · exact .parent rfl (.refl m) rfl
    · exact .makeStream (by assumption)
  case remove.go sock =>
    split at he
    · rename_i hw
      obtain ⟨rfl, rfl⟩ := Prod.mk.inj (Option.some.inj he)
      exact .lost sock (by simp [hw])
    · rename_i i hw
      split at he <;> obtain ⟨rfl, rfl⟩ := Prod.mk.inj (Option.some.inj he)
      · exact .remove sock hw (by assumption)
      · exact .lost sock (by simpa [hw])
  case iter.go r =>
    obtain ⟨rfl, rfl⟩ := he
    exact .iter r
  case next.go used todo errs r =>
    split at he
    · obtain ⟨rfl, rfl⟩ := Prod.mk.inj (Option.some.inj he)
      exact .changed (by assumption)
    · rename_i hu
      split at he
      · rename_i ht
        subst ht
        obtain ⟨rfl, rfl⟩ := Prod.mk.inj (Option.some.inj he)
        exact .through errs r (not_not.mp hu)
      · cases he
  case next.pick used todo errs r sock =>
    split at he
    · rename_i hu
      obtain ⟨rfl, rfl⟩ := Prod.mk.inj (Option.some.inj he)
      exact .pick errs r hu.1 hu.2
    · cases he
  case close.go sock used todo errs r =>
    obtain ⟨rfl, rfl⟩ := he
    exact .close sock used todo errs r
  case close.fails sock used todo errs r =>
    obtain ⟨rfl, rfl⟩ := he
    exact .closeFails sock used todo errs r
  case ends.go r =>
    obtain ⟨rfl, rfl⟩ := he
    exact .ends r

/-- A worker gets to one of the attempts that have not begun. -/
theorem call_eq {i : Nat} (hc : call m i = some (m', new)) :
    i ∈ m.pending ∧ m' = { m with pending := m.pending.erase i } ∧ (new = [.childEnd i] ∨ new = [.socket i]) := by
  unfold call at hc
  split at hc
  · rename_i hi
    obtain ⟨rfl, rfl⟩ := Prod.mk.inj (Option.some.inj hc)
    refine ⟨hi, rfl, ?_⟩
    split
    · exact Or.inl rfl
    · exact Or.inr rfl
  · cases hc

/-! ## The parent -/

/-- Operations of the parent. -/
def Op.parent (x : Op) : Bool := x.attempt.isNone

/-- Operations of the parent once it has begun to close the sockets. -/
def Op.late : Op → Bool
  | .next _ _ _ _ | .close _ _ _ _ _ | .ends _ => true
  | _ => false

theorem Op.early_parent {x : Op} (h : x.early = true) : x.attempt = none ∧ x.late = false := by
  cases x <;> first | exact ⟨rfl, rfl⟩ | cases h

/-- The parent has one operation to perform, or the call has ended; and whether it has begun to close the sockets. -/
structure Parent (m : Mem) (ops : List Op) : Prop where
  one : Sequential Op.parent m.result.isSome ops
  stage : ∀ x ∈ ops, x.attempt = none → x.late = m.draining
  ended : m.result ≠ none → m.draining = true

/-- While an operation of the parent is performed, no other one is pending and the call has not ended. -/
theorem Parent.alone (h : Parent m (A ++ op :: B)) (hop : op.attempt = none) : m.result = none ∧ ∀ x ∈ A ++ B, x.attempt ≠ none := by
  obtain ⟨hres, halone⟩ := h.one.alone (Option.isNone_iff_eq_none.mpr hop)
  refine ⟨Option.isNone_iff_eq_none.mp (Option.isSome_eq_false_iff.mp hres), fun x hx hxp => ?_⟩
  have hx := halone x hx
  rw [Op.parent, hxp] at hx
  cases hx

/-- The parent goes on to its next operation. -/
theorem Parent.goes (h : Parent m (A ++ op :: B)) (hop : op.attempt = none) {y : Op} (hy : y.attempt = none) (hl : y.late = m'.draining)
    (hr : m'.result = m.result) : Parent m' (A ++ ([y] ++ B)) := by
  obtain ⟨hres, halone⟩ := h.alone hop
  refine ⟨?_, fun x hx hxp => ?_, fun hne => absurd (hr.trans hres) hne⟩
  · rw [hr]
    exact h.one.goes (Option.isNone_iff_eq_none.mpr hop) (Option.isNone_iff_eq_none.mpr hy)
  · rcases Machine.mem_beside hx with hx | hx
    · exact List.mem_singleton.mp hx ▸ hl
    · exact absurd hxp (halone x hx)

/-- A step of an attempt. -/
theorem Parent.beside {i : Nat} (h : Parent m (A ++ op :: B)) (hop : op.attempt = some i) (hnew : ∀ y ∈ new, y.attempt = some i)
    (hd : m'.draining = m.draining) (hr : m'.result = m.result) : Parent m' (A ++ (new ++ B)) := by
  have hp : ∀ x : Op, x.attempt = some i → x.parent = false := fun x hx => by rw [Op.parent, hx, Option.isNone_some]
  refine ⟨?_, fun x hx hxp => ?_, by rw [hr, hd]; exact h.ended⟩
  · rw [hr]
    exact h.one.beside (hp op hop) (fun x hx => hp x (hnew x hx))
  · rw [hd]
    rcases Machine.mem_cases op hx with hx | hx
    · rw [hnew x hx] at hxp
      cases hxp
    · exact h.stage x hx hxp

theorem Parent.exec (h : Parent m (A ++ op :: B)) (hm : Move m op c m' new) : Parent m' (A ++ (new ++ B)) := by
  have hstage : op.attempt = none → op.late = m.draining := h.stage op (by simp)
  cases hm with
  | task hx ha hs hl hnew => exact h.beside hx (fun y hy => (hnew y hy).1) hs.draining hs.result
  | parent hx hs hy =>
    obtain ⟨hxp, hxl⟩ := Op.early_parent hx
    obtain ⟨hyp, hyl⟩ := Op.early_parent hy
    exact h.goes hxp hyp (by rw [hyl, ← hxl, hstage hxp, hs.draining]) hs.result
  | socket i | add i | connect i | win i => exact h.beside (i := i) rfl (by simp [Op.attempt]) rfl rfl
  | spawn | makeStream hi | remove sock hi ho | lost sock ho | changed hu | pick errs r hu hs | close sock used todo errs r
  | closeFails sock used todo errs r => exact h.goes rfl rfl (hstage rfl) rfl
  | iter r => exact h.goes rfl rfl rfl rfl
  | through errs r hu => exact h.goes rfl rfl (hstage rfl) rfl
  | ends r =>
    obtain ⟨-, halone⟩ := h.alone rfl
    exact ⟨h.one.ends rfl, fun x hx hxp => absurd hxp (halone x (by simpa using hx)), fun _ => (hstage rfl).symm⟩

theorem Parent.call {i : Nat} (h : Parent m ops) (hc : TcpStream.call m i = some (m', new)) : Parent m' (ops ++ new) := by
  obtain ⟨-, rfl, hnew⟩ := call_eq hc
  have hatt : ∀ x ∈ new, x.attempt = some i := by
    rcases hnew with rfl | rfl <;> simp [Op.attempt]
  refine ⟨h.one.call (fun x hx => by rw [Op.parent, hatt x hx, Option.isNone_some]), fun x hx hxp => ?_, h.ended⟩
  rcases List.mem_append.mp hx with hx | hx
  · exact h.stage x hx hxp
  · rw [hatt x hx] at hxp
    cases hxp

variable {ok : Mem → List Op → Act Op Choice Nat → Prop} {s : State Mem Op}

theorem initial_ops (fl : Flavour) (n : Nat) : (initial fl n).ops = [nextTarget fl n .initial] := rfl

/-- In every state of every run. -/
theorem Parent.reach (h : (machine fl n).Reach ok (initial fl n) s) : Parent s.mem s.ops := by
  refine h.invariant ?_ (fun m A op B c m' new ih _ he => ih.exec (exec_move he)) (fun m ops l m' new ih _ hc => ih.call hc)
  obtain ⟨hp, hl⟩ := Op.early_parent (nextTarget_early fl n .initial)
  rw [initial_ops]
  exact ⟨Sequential.start (Option.isNone_iff_eq_none.mpr hp), fun x hx _ => List.mem_singleton.mp hx ▸ hl, fun hne => absurd rfl hne⟩

/-! ## The attempts -/

/-- One if an operation belongs to attempt `j`. -/
def Op.acts (j : Nat) (x : Op) : Nat := isAt x.attempt j

/-- What holds of the socket of an attempt where the attempt is. -/
def Op.At (m : Mem) : Op → Prop
  | .socket j => j ∉ m.created
  | .add j => j ∈ m.created ∧ j ∉ m.openSockets ∧ j ∉ m.connected
  | .connect j => j ∈ m.created
  | .win j => j ∈ m.connected
  | _ => True

/-- Each attempt is in one place, and creates one socket, which it adds before it connects it. -/
structure Attempts (m : Mem) (ops : List Op) : Prop where
  solo : ∀ j, m.pending.count j + total (Op.acts j) ops ≤ if j < m.spawned then 1 else 0
  born : ∀ j ∈ m.created, j < m.spawned
  place : ∀ x ∈ ops, x.At m
  unborn : ∀ j ∈ m.pending, j ∉ m.created
  nodup : m.openSockets.Nodup
  added : ∀ j ∈ m.openSockets, j ∈ m.created
  connected : ∀ j ∈ m.connected, j ∈ m.created
  winning : ∀ j ∈ m.winning, j ∈ m.connected

/-- Another attempt moves, or the parent does. -/
theorem Op.At.keep {x : Op} (h : x.At m) (hc : ∀ j, x.attempt = some j → (j ∈ m'.created ↔ j ∈ m.created))
    (ho : ∀ j, x.attempt = some j → j ∈ m'.openSockets → j ∈ m.openSockets)
    (hn : ∀ j, x.attempt = some j → (j ∈ m'.connected ↔ j ∈ m.connected)) : x.At m' := by
  cases x with
  | socket j => exact fun hj => h ((hc j rfl).mp hj)
  | add j => exact ⟨(hc j rfl).mpr h.1, fun hj => h.2.1 (ho j rfl hj), fun hj => h.2.2 ((hn j rfl).mp hj)⟩
  | connect j => exact (hc j rfl).mpr h
  | win j => exact (hn j rfl).mpr h
  | _ => trivial

/-- An attempt that has an operation pending has begun, and has no other one. -/
theorem Attempts.single {j : Nat} (h : Attempts m (A ++ op :: B)) (hop : op.attempt = some j) :
    j < m.spawned ∧ j ∉ m.pending ∧ ∀ x ∈ A ++ B, x.attempt ≠ some j := by
  have hs := h.solo j
  have hw : op.acts j = 1 := by rw [Op.acts, hop, isAt_self]
  have hle : op.acts j ≤ total (Op.acts j) (A ++ op :: B) := le_total_of_mem (by simp)
  have hj : j < m.spawned := by
    by_contra hj
    rw [if_neg hj] at hs
    omega
  rw [if_pos hj] at hs
  refine ⟨hj, fun hp => ?_, fun x hx hxj => ?_⟩
  · have := List.count_pos_iff.mpr hp
    omega
  · have hzero := eq_zero_of_total_le (by omega) hw x hx
    rw [Op.acts, hxj, isAt_self] at hzero
    cases hzero

/-- The attempts are where they were, or one has moved on. -/
theorem Attempts.solo_step (h : Attempts m (A ++ op :: B)) (hnew : ∀ j, total (Op.acts j) new ≤ op.acts j) (j : Nat) :
    m.pending.count j + total (Op.acts j) (A ++ (new ++ B)) ≤ if j < m.spawned then 1 else 0 := by
  have ht := total_step (Op.acts j) A B new op
  have hs := h.solo j
  have hn := hnew j
  omega

/-- A step that leaves the sockets alone. -/
theorem Attempts.stays (h : Attempts m (A ++ op :: B)) (hacts : ∀ j, total (Op.acts j) new ≤ op.acts j) (hnew : ∀ x ∈ new, x.At m)
    (hw : m'.winning = m.winning) (ho : m'.openSockets = m.openSockets) (hs : m'.spawned = m.spawned) (hp : m'.pending = m.pending)
    (hc : m'.created = m.created) (hn : m'.connected = m.connected) : Attempts m' (A ++ (new ++ B)) := by
  refine ⟨fun j => ?_, by rw [hc, hs]; exact h.born, fun x hx => ?_, by rw [hp, hc]; exact h.unborn, by rw [ho]; exact h.nodup,
    by rw [ho, hc]; exact h.added, by rw [hn, hc]; exact h.connected, by rw [hw, hn]; exact h.winning⟩
  · rw [hp, hs]
    exact h.solo_step hacts j
  · have hat : x.At m := by
      rcases Machine.mem_cases op hx with hx | hx
      · exact hnew x hx
      · exact h.place x hx
    exact hat.keep (fun j _ => by rw [hc]) (fun j _ hj => ho ▸ hj) (fun j _ => by rw [hn])

/-- An attempt creates its socket. -/
theorem Attempts.socket {i : Nat} (h : Attempts m (A ++ .socket i :: B)) :
    Attempts { m with created := m.created ++ [i] } (A ++ ([.add i] ++ B)) := by
  obtain ⟨hi, hpend, hothers⟩ := h.single (j := i) rfl
  have hnot : i ∉ m.created := h.place (.socket i) (by simp)
  refine ⟨h.solo_step (fun j => Nat.le_refl _), fun j hj => ?_, fun x hx => ?_, fun j hj hjc => ?_, h.nodup,
    fun j hj => List.mem_append_left _ (h.added j hj), fun j hj => List.mem_append_left _ (h.connected j hj), h.winning⟩
  · rcases List.mem_append.mp hj with hj | hj
    · exact h.born j hj
    · exact List.mem_singleton.mp hj ▸ hi
  · rcases Machine.mem_beside hx with hx | hx
    · rw [List.mem_singleton.mp hx]
      exact ⟨by simp, fun hj => hnot (h.added i hj), fun hj => hnot (h.connected i hj)⟩
    · refine (h.place x (Machine.mem_before _ hx)).keep (fun j hj => ?_) (fun j _ hj => hj) (fun j _ => Iff.rfl)
      have hne : j ≠ i := fun hji => hothers x hx (hji ▸ hj)
      simp [hne]
  · rcases List.mem_append.mp hjc with hjc | hjc
    · exact h.unborn j hj hjc
    · exact hpend (List.mem_singleton.mp hjc ▸ hj)

/-- An attempt adds its socket. -/
theorem Attempts.add {i : Nat} (h : Attempts m (A ++ .add i :: B)) :
    Attempts { m with openSockets := m.openSockets.insert i } (A ++ ([.connect i] ++ B)) := by
  obtain ⟨-, -, hothers⟩ := h.single (j := i) rfl
  obtain ⟨hcreated, -, -⟩ : i ∈ m.created ∧ _ := h.place (.add i) (by simp)
  refine ⟨h.solo_step (fun j => Nat.le_refl _), h.born, fun x hx => ?_, h.unborn, List.Nodup.insert h.nodup, fun j hj => ?_, h.connected,
    h.winning⟩
  · rcases Machine.mem_beside hx with hx | hx
    · rw [List.mem_singleton.mp hx]
      exact hcreated
    · refine (h.place x (Machine.mem_before _ hx)).keep (fun j _ => Iff.rfl) (fun j hj hjo => ?_) (fun j _ => Iff.rfl)
      have hne : j ≠ i := fun hji => hothers x hx (hji ▸ hj)
      exact (List.mem_insert_iff.mp hjo).resolve_left hne
  · rcases List.mem_insert_iff.mp hj with rfl | hj
    · exact hcreated
    · exact h.added j hj

/-- An attempt connects its socket. -/
theorem Attempts.connect {i : Nat} (h : Attempts m (A ++ .connect i :: B)) :
    Attempts { m with connected := m.connected ++ [i] } (A ++ ([.win i] ++ B)) := by
  obtain ⟨-, -, hothers⟩ := h.single (j := i) rfl
  have hcreated : i ∈ m.created := h.place (.connect i) (by simp)
  refine ⟨h.solo_step (fun j => Nat.le_refl _), h.born, fun x hx => ?_, h.unborn, h.nodup, h.added, fun j hj => ?_,
    fun j hj => List.mem_append_left _ (h.winning j hj)⟩
  · rcases Machine.mem_beside hx with hx | hx
    · rw [List.mem_singleton.mp hx]
      simp [Op.At]
    · refine (h.place x (Machine.mem_before _ hx)).keep (fun j _ => Iff.rfl) (fun j _ hj => hj) (fun j hj => ?_)
      have hne : j ≠ i := fun hji => hothers x hx (hji ▸ hj)
      simp [hne]
  · rcases List.mem_append.mp hj with hj | hj
    · exact h.connected j hj
    · exact List.mem_singleton.mp hj ▸ hcreated

/-- An attempt stores its socket in `winning_socket`. -/
theorem Attempts.win {i : Nat} (h : Attempts m (A ++ .win i :: B)) :
    Attempts { m with winning := some i } (A ++ ([.cancelScope i] ++ B)) := by
  have hconn : i ∈ m.connected := h.place (.win i) (by simp)
  refine ⟨h.solo_step (fun j => Nat.le_refl _), h.born, fun x hx => ?_, h.unborn, h.nodup, h.added, h.connected, fun j hj => ?_⟩
  · rcases Machine.mem_beside hx with hx | hx
    · rw [List.mem_singleton.mp hx]
      trivial
    · exact (h.place x (Machine.mem_before _ hx)).keep (fun j _ => Iff.rfl) (fun j _ hj => hj) (fun j _ => Iff.rfl)
  · exact Option.some.inj hj ▸ hconn

/-- The parent spawns an attempt. -/
theorem Attempts.spawn (h : Attempts m (A ++ .spawn :: B)) :
    Attempts { m with spawned := m.spawned + 1, pending := m.pending ++ [m.spawned] } (A ++ ([.wait m.spawned] ++ B)) := by
  refine ⟨fun j => ?_, fun j hj => Nat.lt_succ_of_lt (h.born j hj), fun x hx => ?_, fun j hj hjc => ?_, h.nodup, h.added, h.connected,
    h.winning⟩
  · have hacts : ∀ j, total (Op.acts j) [.wait m.spawned] ≤ Op.acts j .spawn := fun j => Nat.le_refl _
    have hs := h.solo_step hacts j
    show (m.pending ++ [m.spawned]).count j + _ ≤ if j < m.spawned + 1 then 1 else 0
    rw [List.count_append, List.count_singleton]
    by_cases hj : j = m.spawned
    · subst hj
      rw [if_neg (Nat.lt_irrefl _)] at hs
      rw [if_pos (Nat.lt_succ_self _)]
      simp only [beq_self_eq_true, if_true]
      omega
    · have hb : (m.spawned == j) = false := beq_eq_false_iff_ne.mpr (Ne.symm hj)
      have hlt : j < m.spawned + 1 ↔ j < m.spawned := by omega
      simp only [hb, hlt, Bool.false_eq_true, if_false]
      exact hs
  · rcases Machine.mem_cases .spawn hx with hx | hx
    · rw [List.mem_singleton.mp hx]
      trivial
    · exact (h.place x hx).keep (fun j _ => Iff.rfl) (fun j _ hj => hj) (fun j _ => Iff.rfl)
  · rcases List.mem_append.mp hj with hj | hj
    · exact h.unborn j hj hjc
    · exact Nat.lt_irrefl _ (List.mem_singleton.mp hj ▸ h.born j hjc)

/-- The parent takes the socket of its stream out of the set. -/
theorem Attempts.remove {i sock : Nat} (h : Attempts m (A ++ .remove sock :: B)) :
    Attempts { m with openSockets := m.openSockets.erase i } (A ++ ([.iter (.returned sock)] ++ B)) := by
  refine ⟨h.solo_step (fun j => Nat.le_refl _), h.born, fun x hx => ?_, h.unborn, h.nodup.erase i,
    fun j hj => h.added j (List.mem_of_mem_erase hj), h.connected, h.winning⟩
  rcases Machine.mem_cases (.remove sock) hx with hx | hx
  · rw [List.mem_singleton.mp hx]
    trivial
  · exact (h.place x hx).keep (fun j _ => Iff.rfl) (fun j _ hj => List.mem_of_mem_erase hj) (fun j _ => Iff.rfl)

theorem Op.at_of_passed {x : Op} (h : x.passed = true) : x.At m := by
  cases x <;> trivial

theorem Op.at_of_parent {x : Op} (h : x.attempt = none) : x.At m := by
  cases x <;> trivial

theorem Op.acts_of_parent {x : Op} (h : x.attempt = none) (j : Nat) : x.acts j = 0 := by
  rw [Op.acts, h, isAt_none]

theorem Attempts.exec (h : Attempts m (A ++ op :: B)) (hm : Move m op c m' new) : Attempts m' (A ++ (new ++ B)) := by
  cases hm with
  | @task x c m' new i hx ha hs hl hnew =>
    refine h.stays (fun j => ?_) (fun y hy => Op.at_of_passed (hnew y hy).2) hs.winning hs.openSockets hs.spawned hs.pending hs.created
      hs.connected
    match new, hl with
    | [], _ => exact Nat.zero_le _
    | [y], _ =>
      have hy : y.acts j = op.acts j := by rw [Op.acts, Op.acts, hx, (hnew y (by simp)).1]
      rw [total_cons, total_nil, hy]
      exact Nat.le_refl _
  | @parent x y c m' hx hs hy =>
    have hyp := (Op.early_parent hy).1
    refine h.stays (fun j => ?_) (fun z hz => Op.at_of_parent (List.mem_singleton.mp hz ▸ hyp)) hs.winning hs.openSockets hs.spawned
      hs.pending hs.created hs.connected
    rw [total_cons, total_nil, Op.acts_of_parent hyp]
    exact Nat.zero_le _
  | socket i => exact h.socket
  | add i => exact h.add
  | connect i => exact h.connect
  | win i => exact h.win
  | spawn => exact h.spawn
  | remove sock hi ho => exact h.remove
  | makeStream hi | lost sock ho | changed hu | pick errs r hu hs | iter r | close sock used todo errs r
  | closeFails sock used todo errs r | through errs r hu =>
    exact h.stays (fun j => Nat.le_refl _) (fun z hz => Op.at_of_parent (by rw [List.mem_singleton.mp hz]; rfl)) rfl rfl rfl rfl rfl rfl
  | ends r => exact h.stays (fun j => Nat.le_refl _) (List.forall_mem_nil _) rfl rfl rfl rfl rfl rfl

theorem Attempts.call {i : Nat} (h : Attempts m ops) (hc : TcpStream.call m i = some (m', new)) : Attempts m' (ops ++ new) := by
  obtain ⟨hi, rfl, hnew⟩ := call_eq hc
  have hacts : ∀ j, total (Op.acts j) new = isAt (some i) j := by
    intro j
    rcases hnew with rfl | rfl <;> rfl
  refine ⟨fun j => ?_, h.born, fun x hx => ?_, fun j hj => h.unborn j (List.mem_of_mem_erase hj), h.nodup, h.added, h.connected, h.winning⟩
  · have hs := h.solo j
    show (m.pending.erase i).count j + _ ≤ if j < m.spawned then 1 else 0
    rw [total_append, hacts, List.count_erase]
    by_cases hij : i = j
    · subst hij
      have hpos := List.count_pos_iff.mpr hi
      rw [isAt_self]
      simp only [beq_self_eq_true, if_true]
      omega
    · have hb : (i == j) = false := beq_eq_false_iff_ne.mpr hij
      rw [isAt_some_of_ne hij]
      simp only [hb, Bool.false_eq_true, if_false]
      omega
  · rcases List.mem_append.mp hx with hx | hx
    · exact (h.place x hx).keep (fun j _ => Iff.rfl) (fun j _ hj => hj) (fun j _ => Iff.rfl)
    · rcases hnew with rfl | rfl
      · rw [List.mem_singleton.mp hx]
        trivial
      · rw [List.mem_singleton.mp hx]
        exact h.unborn i hi

/-- In every state of every run. -/
theorem Attempts.reach (h : (machine fl n).Reach ok (initial fl n) s) : Attempts s.mem s.ops := by
  refine h.invariant ?_ (fun m A op B c m' new ih _ he => ih.exec (exec_move he)) (fun m ops l m' new ih _ hc => ih.call hc)
  have hp := (Op.early_parent (nextTarget_early fl n .initial)).1
  rw [initial_ops]
  refine ⟨fun j => ?_, List.forall_mem_nil _, fun x hx => Op.at_of_parent (List.mem_singleton.mp hx ▸ hp), List.forall_mem_nil _,
    List.nodup_nil, List.forall_mem_nil _, List.forall_mem_nil _, fun j hj => by cases hj⟩
  rw [total_cons, total_nil, Op.acts_of_parent hp]
  exact Nat.zero_le _

/-! ## The sockets -/

/-- The sockets when the parent closes those in `todo` before it ends with `r`. -/
structure Drains (m : Mem) (used : Nat) (todo errs : List Nat) (r : Result) : Prop where
  used : m.openSockets.length = used
  others : ∀ j ∈ m.created, j ∈ todo ∨ j ∈ m.closed ∨ r = .returned j
  stream : ∀ i, r = .returned i → i ∈ m.connected ∧ i ∉ todo ∧ i ∉ m.closed ∧ errs = []

/-- The sockets when the parent ends with `r`. -/
structure Settled (m : Mem) (r : Result) : Prop where
  others : ∀ j ∈ m.created, j ∈ m.closed ∨ r = .returned j
  stream : ∀ i, r = .returned i → i ∈ m.connected ∧ i ∉ m.closed

/-- What holds of the sockets where the parent is. -/
def Op.Owes (m : Mem) : Op → Prop
  | .remove i => m.winning = some i
  | .iter (.returned i) => i ∈ m.connected ∧ i ∉ m.openSockets
  | .next used todo errs r => Drains m used todo errs r
  | .close sock used todo errs r => Drains m used (sock :: todo) errs r
  | .ends r => Settled m r
  | _ => True

/-- Who has the sockets: before the parent closes them, each that was created is in the set, about to be added, or the one to be returned;
afterwards none is added. -/
structure Owned (m : Mem) (ops : List Op) : Prop where
  before : m.draining = false → m.closed = [] ∧ ∀ j ∈ m.created, j ∈ m.openSockets ∨ Op.add j ∈ ops ∨ Op.iter (.returned j) ∈ ops
  quiet : m.draining = true → ∀ j, Op.add j ∉ ops
  owes : ∀ x ∈ ops, x.Owes m
  result : ∀ r, m.result = some r → Settled m r

theorem Settled.mono {r : Result} (h : Settled m r) (hc : m'.created = m.created) (hn : ∀ j ∈ m.connected, j ∈ m'.connected)
    (hcl : m'.closed = m.closed) : Settled m' r := by
  refine ⟨by rw [hc, hcl]; exact h.others, fun i hi => ?_⟩
  rw [hcl]
  exact ⟨hn i (h.stream i hi).1, (h.stream i hi).2⟩

theorem Drains.mono {used : Nat} {todo errs : List Nat} {r : Result} (h : Drains m used todo errs r)
    (hc : m'.created = m.created) (hn : ∀ j ∈ m.connected, j ∈ m'.connected) (ho : m'.openSockets = m.openSockets)
    (hcl : m'.closed = m.closed) : Drains m' used todo errs r := by
  refine ⟨by rw [ho]; exact h.used, by rw [hc, hcl]; exact h.others, fun i hi => ?_⟩
  rw [hcl]
  exact ⟨hn i (h.stream i hi).1, (h.stream i hi).2⟩

/-- An attempt moves: what the parent knows stays true, if the attempt does not store in `winning_socket` while the parent reads it, adds no
socket that has been connected, and creates and adds none while the parent closes them. -/
theorem Op.Owes.mono {x : Op} (h : x.Owes m) (hw : x.removing = true → m'.winning = m.winning) (hn : ∀ j ∈ m.connected, j ∈ m'.connected)
    (ho : ∀ j ∈ m.connected, j ∉ m.openSockets → j ∉ m'.openSockets)
    (hl : x.late = true → m'.openSockets = m.openSockets ∧ m'.created = m.created ∧ m'.closed = m.closed) : x.Owes m' := by
  cases x with
  | remove i => exact (hw rfl).trans h
  | iter r => cases r with
    | returned i => exact ⟨hn i h.1, ho i h.1 h.2⟩
    | raised e => trivial
  | next used todo errs r =>
    obtain ⟨h1, h2, h3⟩ := hl rfl
    exact Drains.mono h h2 hn h1 h3
  | close sock used todo errs r =>
    obtain ⟨h1, h2, h3⟩ := hl rfl
    exact Drains.mono h h2 hn h1 h3
  | ends r =>
    obtain ⟨-, h2, h3⟩ := hl rfl
    exact Settled.mono h h2 hn h3
  | _ => trivial

theorem Op.owes_of_attempt {x : Op} {i : Nat} (h : x.attempt = some i) : x.Owes m := by
  cases x <;> trivial

/-- A step of an attempt that leaves the sockets alone, but for connecting its own or storing it in `winning_socket`. -/
theorem Owned.beside {i : Nat} (h : Owned m (A ++ op :: B)) (hop : op.attempt = some i) (hadd : op ≠ .add i)
    (hnew : ∀ y ∈ new, y.attempt = some i ∧ y ≠ .add i) (hw : ∀ x ∈ A ++ op :: B, x.removing = true → m'.winning = m.winning)
    (ho : m'.openSockets = m.openSockets) (hc : m'.created = m.created) (hn : ∀ j ∈ m.connected, j ∈ m'.connected)
    (hcl : m'.closed = m.closed) (hd : m'.draining = m.draining) (hr : m'.result = m.result) : Owned m' (A ++ (new ++ B)) := by
  have hne : ∀ j, Op.add j ≠ op := by
    intro j hj
    rw [← hj] at hop
    cases hop
    exact hadd hj.symm
  refine ⟨fun hdr => ?_, fun hdr j hj => ?_, fun x hx => ?_, fun r hres => ?_⟩
  · obtain ⟨h1, h2⟩ := h.before (hd ▸ hdr)
    refine ⟨hcl.trans h1, fun j hj => ?_⟩
    rw [ho]
    rcases h2 j (hc ▸ hj) with hj | hj | hj
    · exact Or.inl hj
    · exact Or.inr (Or.inl (Machine.mem_keep hj (hne j)))
    · exact Or.inr (Or.inr (Machine.mem_keep hj (by rintro rfl; cases hop)))
  · rcases Machine.mem_cases op hj with hj | hj
    · obtain ⟨hji, hjn⟩ := hnew _ hj
      cases hji
      exact hjn rfl
    · exact h.quiet (hd ▸ hdr) j hj
  · rcases Machine.mem_cases op hx with hx | hx
    · exact Op.owes_of_attempt (hnew x hx).1
    · exact (h.owes x hx).mono (hw x hx) hn (fun j _ hj => ho ▸ hj) (fun _ => ⟨ho, hc, hcl⟩)
  · exact (h.result r (hr ▸ hres)).mono hc hn hcl

/-- A step of the parent before the call has ended: of the others, none owes anything. -/
theorem Owned.goes (hP : Parent m (A ++ op :: B)) (hop : op.attempt = none) (hr : m'.result = m.result)
    (hbefore : m'.draining = false → m'.closed = [] ∧
      ∀ j ∈ m'.created, j ∈ m'.openSockets ∨ Op.add j ∈ A ++ (new ++ B) ∨ Op.iter (.returned j) ∈ A ++ (new ++ B))
    (hquiet : m'.draining = true → ∀ j, Op.add j ∉ A ++ (new ++ B)) (hnew : ∀ x ∈ new, x.Owes m') : Owned m' (A ++ (new ++ B)) := by
  obtain ⟨hres, halone⟩ := hP.alone hop
  refine ⟨hbefore, hquiet, fun x hx => ?_, fun r hr' => ?_⟩
  · rcases Machine.mem_beside hx with hx | hx
    · exact hnew x hx
    · obtain ⟨i, hi⟩ := Option.ne_none_iff_exists'.mp (halone x hx)
      exact Op.owes_of_attempt hi
  · exact absurd (hres.symm.trans (hr.symm.trans hr')) (by simp)

/-- A step of the parent that leaves the sockets alone. -/
theorem Owned.parent {y : Op} (h : Owned m (A ++ op :: B)) (hP : Parent m (A ++ op :: B)) (hop : op.attempt = none) (hy : y.attempt = none)
    (hiter : ∀ j, op ≠ .iter (.returned j)) (hd : m'.draining = m.draining) (ho : m'.openSockets = m.openSockets)
    (hc : m'.created = m.created) (hcl : m'.closed = m.closed) (hr : m'.result = m.result) (hnew : y.Owes m') :
    Owned m' (A ++ ([y] ++ B)) := by
  refine Owned.goes hP hop hr (fun hdr => ?_) (fun hdr j hj => ?_) (fun x hx => List.mem_singleton.mp hx ▸ hnew)
  · obtain ⟨h1, h2⟩ := h.before (hd ▸ hdr)
    refine ⟨hcl.trans h1, fun j hj => ?_⟩
    rw [ho]
    rcases h2 j (hc ▸ hj) with hj | hj | hj
    · exact Or.inl hj
    · exact Or.inr (Or.inl (Machine.mem_keep hj (by rintro rfl; cases hop)))
    · exact Or.inr (Or.inr (Machine.mem_keep hj (fun heq => hiter j heq.symm)))
  · rcases Machine.mem_cases op hj with hj | hj
    · rw [← List.mem_singleton.mp hj] at hy
      cases hy
    · exact h.quiet (hd ▸ hdr) j hj

/-- An attempt creates its socket. -/
theorem Owned.socket {i : Nat} (h : Owned m (A ++ .socket i :: B)) (hP : Parent m (A ++ .socket i :: B)) (hd : m.draining = false) :
    Owned { m with created := m.created ++ [i] } (A ++ ([.add i] ++ B)) := by
  obtain ⟨h1, h2⟩ := h.before hd
  refine ⟨fun _ => ⟨h1, fun j hj => ?_⟩, fun hdr => ?_, fun x hx => ?_, fun r hr => ?_⟩
  · rcases List.mem_append.mp hj with hj | hj
    · rcases h2 j hj with hj | hj | hj
      · exact Or.inl hj
      · exact Or.inr (Or.inl (Machine.mem_keep hj (by simp)))
      · exact Or.inr (Or.inr (Machine.mem_keep hj (by simp)))
    · rw [List.mem_singleton.mp hj]
      exact Or.inr (Or.inl (Machine.mem_new (by simp)))
  · exact absurd (hd.symm.trans hdr) (by simp)
  · rcases Machine.mem_cases (.socket i) hx with hx | hx
    · rw [List.mem_singleton.mp hx]
      trivial
    · refine (h.owes x hx).mono (fun _ => rfl) (fun j hj => hj) (fun j _ hj => hj) (fun hl => ?_)
      -- the parent has not begun to close
      have hxp : x.attempt = none := by cases x <;> first | rfl | cases hl
      have hst := hP.stage x hx hxp
      rw [hl, hd] at hst
      cases hst
  · have hdr := hP.ended (fun hne => by cases hne.symm.trans hr)
    exact absurd (hd.symm.trans hdr) (by simp)

/-- An attempt adds its socket. -/
theorem Owned.add {i : Nat} (h : Owned m (A ++ .add i :: B)) (hP : Parent m (A ++ .add i :: B)) (hT : Attempts m (A ++ .add i :: B)) :
    Owned { m with openSockets := m.openSockets.insert i } (A ++ ([.connect i] ++ B)) := by
  have hd : m.draining = false := by
    cases hd : m.draining with
    | false => rfl
    | true => exact absurd (by simp) (h.quiet hd i)
  obtain ⟨h1, h2⟩ := h.before hd
  obtain ⟨-, -, hnot⟩ : _ ∧ _ ∧ i ∉ m.connected := hT.place (.add i) (by simp)
  refine ⟨fun _ => ⟨h1, fun j hj => ?_⟩, fun hdr => absurd (hd.symm.trans hdr) (by simp), fun x hx => ?_,
    fun r hr => (h.result r hr).mono rfl (fun j hj => hj) rfl⟩
  · by_cases hji : j = i
    · exact Or.inl (List.mem_insert_iff.mpr (Or.inl hji))
    · rcases h2 j hj with hj | hj | hj
      · exact Or.inl (List.mem_insert_iff.mpr (Or.inr hj))
      · exact Or.inr (Or.inl (Machine.mem_keep hj (by simp [hji])))
      · exact Or.inr (Or.inr (Machine.mem_keep hj (by simp)))
  · rcases Machine.mem_cases (.add i) hx with hx | hx
    · rw [List.mem_singleton.mp hx]
      trivial
    · refine (h.owes x hx).mono (fun _ => rfl) (fun j hj => hj) (fun j hjc hj hji => ?_) (fun hl => ?_)
      · rcases List.mem_insert_iff.mp hji with rfl | hji
        · exact hnot hjc
        · exact hj hji
      · have hxp : x.attempt = none := by cases x <;> first | rfl | cases hl
        have hst := hP.stage x hx hxp
        rw [hl, hd] at hst
        cases hst

/-- The parent takes the socket of its stream out of the set: it is there. -/
theorem Owned.remove {i sock : Nat} (h : Owned m (A ++ .remove sock :: B)) (hP : Parent m (A ++ .remove sock :: B))
    (hT : Attempts m (A ++ .remove sock :: B)) (hi : m.winning = some i) :
    Owned { m with openSockets := m.openSockets.erase i } (A ++ ([.iter (.returned sock)] ++ B)) := by
  obtain rfl : sock = i := Option.some.inj ((h.owes (.remove sock) (by simp)).symm.trans hi)
  have hd : m.draining = false := (hP.stage (.remove sock) (by simp) rfl).symm
  obtain ⟨h1, h2⟩ := h.before hd
  have hconn := hT.winning sock hi
  refine Owned.goes hP rfl rfl (fun _ => ⟨h1, fun j hj => ?_⟩) (fun hdr => absurd (hd.symm.trans hdr) (by simp)) (fun x hx => ?_)
  · by_cases hji : j = sock
    · subst hji
      exact Or.inr (Or.inr (Machine.mem_new (by simp)))
    · rcases h2 j hj with hj | hj | hj
      · exact Or.inl ((List.mem_erase_of_ne hji).mpr hj)
      · exact Or.inr (Or.inl (Machine.mem_keep hj (by simp)))
      · exact Or.inr (Or.inr (Machine.mem_keep hj (by simp)))
  · rw [List.mem_singleton.mp hx]
    exact ⟨hconn, hT.nodup.not_mem_erase⟩

/-- The socket of the stream is in the set when the parent takes it out. -/
theorem Owned.not_lost {sock : Nat} (h : Owned m (A ++ .remove sock :: B)) (hP : Parent m (A ++ .remove sock :: B))
    (hT : Attempts m (A ++ .remove sock :: B)) : ¬∀ i ∈ m.winning, i ∉ m.openSockets := by
  intro ho
  have hw : m.winning = some sock := h.owes (.remove sock) (by simp)
  have hconn := hT.winning sock hw
  have hd : m.draining = false := (hP.stage (.remove sock) (by simp) rfl).symm
  rcases (h.before hd).2 sock (hT.connected sock hconn) with hs | hs | hs
  · exact ho sock hw hs
  · exact (hT.place _ hs).2.2 hconn
  · have hone := (hP.alone rfl).2
    rcases List.mem_append.mp hs with hs | hs
    · exact hone _ (List.mem_append_left B hs) rfl
    · rcases List.mem_cons.mp hs with hs | hs
      · cases hs
      · exact hone _ (List.mem_append_right A hs) rfl

/-- The parent begins to close the sockets. -/
theorem Owned.iter {r : Result} (h : Owned m (A ++ .iter r :: B)) (hP : Parent m (A ++ .iter r :: B))
    (hadd : ∀ x ∈ A ++ .iter r :: B, x.adding = none) :
    Owned { m with draining := true } (A ++ ([.next m.openSockets.length m.openSockets [] r] ++ B)) := by
  have hd : m.draining = false := (hP.stage (.iter r) (by simp) rfl).symm
  obtain ⟨h1, h2⟩ := h.before hd
  have hnone : ∀ j, Op.add j ∉ A ++ .iter r :: B := fun j hj => by cases hadd _ hj
  refine Owned.goes hP rfl rfl (fun hdr => by cases hdr) (fun _ j hj => ?_) (fun x hx => ?_)
  · rcases Machine.mem_cases (.iter r) hj with hj | hj
    · cases List.mem_singleton.mp hj
    · exact hnone j hj
  · rw [List.mem_singleton.mp hx]
    refine ⟨rfl, fun j hj => ?_, fun i hi => ?_⟩
    · rcases h2 j hj with hj | hj | hj
      · exact Or.inl hj
      · exact absurd hj (hnone j)
      · right; right
        have hone := (hP.alone rfl).2
        rcases List.mem_append.mp hj with hj | hj
        · exact absurd rfl (hone _ (List.mem_append_left B hj))
        · rcases List.mem_cons.mp hj with hj | hj
          · cases hj
            rfl
          · exact absurd rfl (hone _ (List.mem_append_right A hj))
    · subst hi
      obtain ⟨hc, ho⟩ : i ∈ m.connected ∧ i ∉ m.openSockets := h.owes (.iter (.returned i)) (by simp)
      exact ⟨hc, ho, by rw [h1]; exact List.not_mem_nil, rfl⟩

/-- The parent closes a socket. -/
theorem Owned.close {sock used : Nat} {todo errs errs' : List Nat} {r : Result} (h : Owned m (A ++ .close sock used todo errs r :: B))
    (hP : Parent m (A ++ .close sock used todo errs r :: B)) (he : ∀ i, r = .returned i → errs' = errs) :
    Owned { m with closed := m.closed ++ [sock] } (A ++ ([.next used todo errs' r] ++ B)) := by
  have hd : m.draining = true := (hP.stage (.close sock used todo errs r) (by simp) rfl).symm
  have hD : Drains m used (sock :: todo) errs r := h.owes (.close sock used todo errs r) (by simp)
  refine Owned.goes hP rfl rfl (fun hdr => absurd (hd.symm.trans hdr) (by simp)) (fun _ j hj => ?_) (fun x hx => ?_)
  · rcases Machine.mem_cases (.close sock used todo errs r) hj with hj | hj
    · cases List.mem_singleton.mp hj
    · exact h.quiet hd j hj
  · rw [List.mem_singleton.mp hx]
    refine ⟨hD.used, fun j hj => ?_, fun i hi => ?_⟩
    · rcases hD.others j hj with hj | hj | hj
      · rcases List.mem_cons.mp hj with rfl | hj
        · exact Or.inr (Or.inl (by simp))
        · exact Or.inl hj
      · exact Or.inr (Or.inl (List.mem_append_left _ hj))
      · exact Or.inr (Or.inr hj)
    · obtain ⟨hc, ht, hcl, hne⟩ := hD.stream i hi
      have his : i ≠ sock := fun heq => ht (heq ▸ List.mem_cons_self)
      refine ⟨hc, fun hit => ht (List.mem_cons_of_mem _ hit), ?_, (he i hi).trans hne⟩
      show i ∉ m.closed ++ [sock]
      simp [hcl, his]

theorem Owned.exec (h : Owned m (A ++ op :: B)) (hP : Parent m (A ++ op :: B)) (hT : Attempts m (A ++ op :: B))
    (hok : Clean m (A ++ op :: B) (.exec op c)) (hm : Move m op c m' new) : Owned m' (A ++ (new ++ B)) := by
  cases hm with
  | @task x c m' new i hx ha hs hl hnew =>
    refine h.beside hx (by rintro rfl; cases ha) (fun y hy => ⟨(hnew y hy).1, ?_⟩) (fun _ _ _ => hs.winning) hs.openSockets hs.created
      (fun j hj => hs.connected ▸ hj) hs.closed hs.draining hs.result
    rintro rfl
    cases (hnew _ hy).2
  | @parent x y c m' hx hs hy =>
    obtain ⟨hxp, -⟩ := Op.early_parent hx
    obtain ⟨hyp, -⟩ := Op.early_parent hy
    refine h.parent hP hxp hyp ?_ hs.draining hs.openSockets hs.created hs.closed hs.result ?_
    · rintro j rfl
      cases hx
    · cases y with
      | iter r => cases r with
        | returned i => cases hy
        | raised e => trivial
      | _ => trivial
  | socket i => exact h.socket hP hok
  | add i => exact h.add hP hT
  | connect i =>
    exact h.beside (i := i) rfl (by simp) (by simp [Op.attempt]) (fun _ _ _ => rfl) rfl rfl (fun j hj => List.mem_append_left _ hj)
      rfl rfl rfl
  | win i =>
    refine h.beside (i := i) rfl (by simp) (by simp [Op.attempt]) (fun x hx hxr => ?_) rfl rfl (fun j hj => hj) rfl rfl rfl
    rw [hok x hx] at hxr
    cases hxr
  | spawn => exact h.parent hP rfl rfl (by simp) rfl rfl rfl rfl rfl trivial
  | makeStream hi => exact h.parent hP rfl rfl (by simp) rfl rfl rfl rfl rfl hi
  | remove sock hi ho => exact h.remove hP hT hi
  | lost sock ho => exact absurd ho (h.not_lost hP hT)
  | iter r => exact h.iter hP hok
  | @changed used todo errs r hu =>
    have hD : Drains m used todo errs r := h.owes (.next used todo errs r) (by simp)
    exact absurd hD.used hu
  | @through used errs r hu =>
    have hD : Drains m used [] errs r := h.owes (.next used [] errs r) (by simp)
    refine h.parent hP rfl rfl (by simp) rfl rfl rfl rfl rfl ?_
    show Settled m (if errs = [] then r else .raised (.closing errs))
    split
    · refine ⟨fun j hj => (hD.others j hj).resolve_left List.not_mem_nil, fun i hi => ?_⟩
      obtain ⟨hc, -, hcl, -⟩ := hD.stream i hi
      exact ⟨hc, hcl⟩
    · rename_i hne
      refine ⟨fun j hj => ?_, fun i hi => by cases hi⟩
      rcases hD.others j hj with hj | hj | hj
      · cases hj
      · exact Or.inl hj
      · exact absurd (hD.stream j hj).2.2.2 hne
  | @pick used sock todo errs r hu hs =>
    have hD : Drains m used todo errs r := h.owes (.next used todo errs r) (by simp)
    refine h.parent hP rfl rfl (by simp) rfl rfl rfl rfl rfl ⟨hu, fun j hj => ?_, fun i hi => ?_⟩
    · rcases hD.others j hj with hj | hj
      · by_cases hjs : j = sock
        · exact Or.inl (by simp [hjs])
        · exact Or.inl (List.mem_cons_of_mem _ ((List.mem_erase_of_ne hjs).mpr hj))
      · exact Or.inr hj
    · obtain ⟨hc, ht, hcl, hne⟩ := hD.stream i hi
      refine ⟨hc, fun hmem => ?_, hcl, hne⟩
      rcases List.mem_cons.mp hmem with rfl | hmem
      · exact ht hs
      · exact ht (List.mem_of_mem_erase hmem)
  | close sock used todo errs r => exact h.close hP (fun _ _ => rfl)
  | closeFails sock used todo errs r =>
    refine h.close hP (fun i hi => ?_)
    subst hi
    exact absurd hok id
  | ends r =>
    have hd : m.draining = true := (hP.stage (.ends r) (by simp) rfl).symm
    have hS : Settled m r := h.owes (.ends r) (by simp)
    refine ⟨fun hdr => absurd (hd.symm.trans hdr) (by simp), fun _ j hj => h.quiet hd j (Machine.mem_before _ (by simpa using hj)),
      fun x hx => ?_, fun r' hr' => ?_⟩
    · obtain ⟨i, hi⟩ := Option.ne_none_iff_exists'.mp ((hP.alone rfl).2 x (by simpa using hx))
      exact Op.owes_of_attempt hi
    · cases Option.some.inj hr'
      exact hS.mono rfl (fun j hj => hj) rfl

theorem Owned.call {i : Nat} (h : Owned m ops) (hc : TcpStream.call m i = some (m', new)) : Owned m' (ops ++ new) := by
  obtain ⟨-, rfl, hnew⟩ := call_eq hc
  have hold : ∀ x ∈ new, x.attempt = some i ∧ ∀ j, x ≠ .add j := by
    rcases hnew with rfl | rfl <;> simp [Op.attempt]
  refine ⟨fun hd => ⟨(h.before hd).1, fun j hj => ?_⟩, fun hd j hj => ?_, fun x hx => ?_, fun r hr => ?_⟩
  · rcases (h.before hd).2 j hj with hj | hj | hj
    · exact Or.inl hj
    · exact Or.inr (Or.inl (List.mem_append_left _ hj))
    · exact Or.inr (Or.inr (List.mem_append_left _ hj))
  · rcases List.mem_append.mp hj with hj | hj
    · exact h.quiet hd j hj
    · exact (hold _ hj).2 j rfl
  · rcases List.mem_append.mp hx with hx | hx
    · exact (h.owes x hx).mono (fun _ => rfl) (fun j hj => hj) (fun j _ hj => hj) (fun _ => ⟨rfl, rfl, rfl⟩)
    · exact Op.owes_of_attempt (hold x hx).1
  · exact (h.result r hr).mono rfl (fun j hj => hj) rfl

/-- In every state of a run whose steps are clean. -/
theorem Owned.reach (h : (machine fl n).Reach Clean (initial fl n) s) : Owned s.mem s.ops := by
  refine h.invariant_with (J := fun m ops => Parent m ops ∧ Attempts m ops) (fun hs => ⟨Parent.reach hs, Attempts.reach hs⟩) ?_
    (fun m A op B c m' new hJ ih hok he => ih.exec hJ.1 hJ.2 hok (exec_move he)) (fun m ops l m' new _ ih _ hc => ih.call hc)
  have hp := nextTarget_early fl n .initial
  rw [initial_ops]
  refine ⟨fun _ => ⟨rfl, List.forall_mem_nil _⟩, (fun hd => by cases hd), fun x hx => ?_, (fun r hr => by cases hr)⟩
  rw [List.mem_singleton.mp hx]
  cases hx' : nextTarget fl n .initial with
  | iter r => cases r with
    | returned i =>
      rw [hx'] at hp
      cases hp
    | raised e => trivial
  | _ => first | trivial | (rw [hx'] at hp; cases hp)

end Tonio.TcpStream
