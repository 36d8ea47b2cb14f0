import Tonio.Fd

/-!
# Who has read the descriptor

A closer reads the number, makes the object give it up, and passes the number to `os.close`. Where no two closers are between the first two
of these at once (`Owned`), one closer at most carries the number, the object has given it up before it is closed, and the number is the
object's until then.
-/

namespace Tonio.Fd

open Interleaving

variable {m m' : Mem} {A B new ops : List Op} {op : Op} {c : Choice} {n : Nat}

/-! ## The steps -/

/-- The number a closer carries, if it has read one. -/
def Op.carries : Op → Option (Option Nat)
  | .ioClose _ fd | .drop _ fd | .osClose _ fd => some fd
  | _ => none

/-- Closers that have the number and have not made the object give it up. -/
def Op.holds (x : Op) : Nat := x.holding.toNat

/-- Closers that have made the object give up the number they have. -/
def Op.closes : Op → Nat
  | .osClose _ (some _) => 1
  | _ => 0

/-- What an operation does to the descriptor. -/
inductive Move (m : Mem) : Op → Mem → List Op → Prop
  | idle {x : Op} {m' : Mem} {new : List Op} (hx : x.carries = none) (hnew : ∀ y ∈ new, y.carries = none) (hi : m'.inner = m.inner)
      (ht : m'.table = m.table) (hc : m'.closes = m.closes) (hs : m'.stolen = m.stolen) : Move m x m' new
  | readFd (k : Caller) : Move m (.readFd k) m [.ioClose k m.inner]
  | ioClose (k : Caller) (fd : Option Nat) : Move m (.ioClose k fd) m [.drop k fd]
  | drop (k : Caller) (fd : Option Nat) : Move m (.drop k fd) { m with inner := none } [.osClose k fd]
  | osClose (k : Caller) (fd : Option Nat) : Move m (.osClose k fd) (m.osClose k fd).1 (m.osClose k fd).2

theorem leave_carries (b : Bool) : ∀ y ∈ leave b, y.carries = none := by
  cases b <;> simp [leave, Op.carries]

theorem returned_carries (k : Caller) : ∀ y ∈ k.returned, y.carries = none := by
  cases k <;> simp [Caller.returned, Op.carries]

theorem raised_carries (k : Caller) : ∀ y ∈ k.raised, y.carries = none := by
  cases k with
  | user => exact List.forall_mem_nil _
  | process b => exact leave_carries b

/-- Every step is one of these. -/
theorem exec_move (he : exec m op c = some (m', new)) : Move m op m' new := by
  cases op
  all_goals
    cases c <;> simp only [exec, reduceCtorEq, Option.some.injEq, Prod.mk.injEq] at he
  case readFd.go k =>
    obtain ⟨rfl, rfl⟩ := he
    exact .readFd k
  case ioClose.go k fd =>
    obtain ⟨rfl, rfl⟩ := he
    exact .ioClose k fd
  case drop.go k fd =>
    obtain ⟨rfl, rfl⟩ := he
    exact .drop k fd
  case osClose.go k fd =>
    obtain ⟨rfl, rfl⟩ : (m.osClose k fd).1 = m' ∧ (m.osClose k fd).2 = new := by simp [he]
    exact .osClose k fd
  case closed.go k =>
    obtain ⟨rfl, rfl⟩ := he
    refine .idle rfl ?_ rfl rfl rfl rfl
    split
    · exact returned_carries k
    · simp [Op.carries]
  case poll.go b =>
    split at he
    · obtain ⟨rfl, rfl⟩ : _ ∧ _ := by simpa using he
      exact .idle rfl (by simp [Op.carries]) rfl rfl rfl rfl
    · cases he
  case waitLock.go ticket =>
    split at he
    · obtain ⟨rfl, rfl⟩ : _ ∧ _ := by simpa using he
      exact .idle rfl (by simp [Op.carries]) rfl rfl rfl rfl
    · cases he
  case procWait.go =>
    split at he
    · obtain ⟨rfl, rfl⟩ : _ ∧ _ := by simpa using he
      exact .idle rfl (by simp [Op.carries]) rfl rfl rfl rfl
    · cases he
  case pidfdCheck.go b =>
    obtain ⟨rfl, rfl⟩ := he
    refine .idle rfl ?_ rfl rfl rfl rfl
    split
    · simp [Op.carries]
    · exact leave_carries b
  case pidfdLoad.go b =>
    obtain ⟨rfl, rfl⟩ := he
    refine .idle rfl ?_ rfl rfl rfl rfl
    split
    · simp [Op.carries]
    · exact leave_carries b
  case pidfdClear.go b =>
    obtain ⟨rfl, rfl⟩ := he
    exact .idle rfl (leave_carries b) rfl rfl rfl rfl
  all_goals
    obtain ⟨rfl, rfl⟩ := he
    refine .idle rfl ?_ rfl rfl rfl rfl
    first
    | (split <;> simp [Op.carries])
    | simp [Op.carries]

/-! ## One closer -/

/-- Who has the number: as long as the object owns it, one closer at most has read it, nobody has seen the object without it, and nothing
was closed; after that one closer has it, or has closed it. Until it is closed it is the object's. -/
structure Owned (n : Nat) (m : Mem) (ops : List Op) : Prop where
  number : ∀ x ∈ ops, ∀ k, x.carries = some (some k) → k = n
  inner : m.inner = none ∨ m.inner = some n
  owns : m.inner = some n → total Op.holds ops ≤ 1 ∧ total Op.closes ops = 0 ∧ m.closes = [] ∧ ∀ x ∈ ops, x.carries ≠ some none
  gone : m.inner = none → total Op.holds ops = 0 ∧ total Op.closes ops + m.closes.length = 1
  table : m.closes = [] → m.table n = some .this
  closed : ∀ k ∈ m.closes, k = n
  stolen : m.stolen = 0

theorem weights_of_carries {x : Op} (h : x.carries = none) : x.holds = 0 ∧ x.closes = 0 := by
  cases x <;> first | exact ⟨rfl, rfl⟩ | cases h

theorem holds_pos {x : Op} : 0 < x.holds ↔ x.holding = true := by
  cases h : x.holding <;> simp [Op.holds, h]

/-- A step that leaves the descriptor alone. -/
theorem Owned.idle (h : Owned n m (A ++ op :: B)) (hx : op.holds = 0 ∧ op.closes = 0) (hnew : ∀ y ∈ new, y.carries = none)
    (hi : m'.inner = m.inner) (ht : m'.table = m.table) (hc : m'.closes = m.closes) (hs : m'.stolen = m.stolen) :
    Owned n m' (A ++ (new ++ B)) := by
  have hholds : total Op.holds (A ++ (new ++ B)) = total Op.holds (A ++ op :: B) := by
    have hn : total Op.holds new = 0 := total_eq_zero_iff.mpr (fun y hy => (weights_of_carries (hnew y hy)).1)
    have := total_step Op.holds A B new op
    rw [hn, hx.1] at this
    exact this
  have hcloses : total Op.closes (A ++ (new ++ B)) = total Op.closes (A ++ op :: B) := by
    have hn : total Op.closes new = 0 := total_eq_zero_iff.mpr (fun y hy => (weights_of_carries (hnew y hy)).2)
    have := total_step Op.closes A B new op
    rw [hn, hx.2] at this
    exact this
  have hold : ∀ x ∈ A ++ (new ++ B), ∀ fd, x.carries = some fd → x ∈ A ++ op :: B := by
    intro x hmem fd hfd
    rcases Machine.mem_cases op hmem with hmem | hmem
    · rw [hnew x hmem] at hfd
      cases hfd
    · exact hmem
  refine ⟨fun x hmem k hk => h.number x (hold x hmem _ hk) k hk, hi ▸ h.inner, ?_, ?_, hc ▸ ht ▸ h.table, hc ▸ h.closed, hs ▸ h.stolen⟩
  · rw [hi, hholds, hcloses, hc]
    intro hin
    obtain ⟨h1, h2, h3, h4⟩ := h.owns hin
    exact ⟨h1, h2, h3, fun x hmem hx => h4 x (hold x hmem _ hx) hx⟩
  · rw [hi, hholds, hcloses, hc]
    exact h.gone

/-- A closer reads the number. -/
theorem Owned.readFd {k : Caller} (h : Owned n m (A ++ .readFd k :: B)) (hok : ¬Overlaps m (A ++ .readFd k :: B) (.exec (.readFd k) c)) :
    Owned n m (A ++ ([.ioClose k m.inner] ++ B)) := by
  have hholds := total_step Op.holds A B [.ioClose k m.inner] (.readFd k)
  have hcloses := total_step Op.closes A B [.ioClose k m.inner] (.readFd k)
  refine ⟨?_, h.inner, ?_, ?_, h.table, h.closed, h.stolen⟩
  · intro x hmem j hj
    rcases Machine.mem_cases (.readFd k) hmem with hmem | hmem
    · obtain rfl := List.mem_singleton.mp hmem
      have hinner : m.inner = some j := Option.some.inj hj
      rcases h.inner with hnone | hsome
      · rw [hnone] at hinner
        cases hinner
      · exact Option.some.inj (hinner.symm.trans hsome)
    · exact h.number x hmem j hj
  · intro hin
    obtain ⟨h1, h2, h3, h4⟩ := h.owns hin
    have hnone : total Op.holds (A ++ .readFd k :: B) = 0 := by
      refine total_eq_zero_iff.mpr (fun x hmem => ?_)
      by_contra hne
      exact hok ⟨by simp [hin], x, hmem, holds_pos.mp (Nat.pos_of_ne_zero hne)⟩
    rw [hin] at hholds hcloses ⊢
    refine ⟨?_, ?_, h3, fun x hmem hx => ?_⟩
    · rw [hnone] at hholds
      exact Nat.le_of_eq hholds
    · rw [h2] at hcloses
      exact hcloses
    · rcases Machine.mem_cases (.readFd k) hmem with hmem | hmem
      · obtain rfl := List.mem_singleton.mp hmem
        cases hx
      · exact h4 x hmem hx
  · intro hin
    obtain ⟨h1, h2⟩ := h.gone hin
    rw [hin] at hholds hcloses ⊢
    have hh : total Op.holds (A ++ ([.ioClose k none] ++ B)) = total Op.holds (A ++ .readFd k :: B) := hholds
    have hcl : total Op.closes (A ++ ([.ioClose k none] ++ B)) = total Op.closes (A ++ .readFd k :: B) := hcloses
    rw [hh, hcl]
    exact ⟨h1, h2⟩

/-- A closer goes on with what it has read. -/
theorem Owned.ioClose {k : Caller} {fd : Option Nat} (h : Owned n m (A ++ .ioClose k fd :: B)) : Owned n m (A ++ ([.drop k fd] ++ B)) := by
  have hholds : total Op.holds (A ++ ([.drop k fd] ++ B)) = total Op.holds (A ++ .ioClose k fd :: B) := by
    have := total_step Op.holds A B [.drop k fd] (.ioClose k fd)
    cases fd with
    | none => exact this
    | some j => exact Nat.succ.inj this
  have hcloses : total Op.closes (A ++ ([.drop k fd] ++ B)) = total Op.closes (A ++ .ioClose k fd :: B) :=
    total_step Op.closes A B [.drop k fd] (.ioClose k fd)
  have hold : ∀ x ∈ A ++ ([.drop k fd] ++ B), ∃ y ∈ A ++ .ioClose k fd :: B, y.carries = x.carries := by
    intro x hmem
    rcases Machine.mem_cases (.ioClose k fd) hmem with hmem | hmem
    · obtain rfl := List.mem_singleton.mp hmem
      exact ⟨.ioClose k fd, by simp, rfl⟩
    · exact ⟨x, hmem, rfl⟩
  refine ⟨fun x hmem j hj => ?_, h.inner, fun hin => ?_, fun hin => ?_, h.table, h.closed, h.stolen⟩
  · obtain ⟨y, hy, hc⟩ := hold x hmem
    exact h.number y hy j (hc.trans hj)
  · obtain ⟨h1, h2, h3, h4⟩ := h.owns hin
    refine ⟨hholds ▸ h1, hcloses ▸ h2, h3, fun x hmem hx => ?_⟩
    obtain ⟨y, hy, hc⟩ := hold x hmem
    exact h4 y hy (hc.trans hx)
  · rw [hholds, hcloses]
    exact h.gone hin

/-- A closer makes the object give up its descriptor. -/
theorem Owned.drop {k : Caller} {fd : Option Nat} (h : Owned n m (A ++ .drop k fd :: B)) :
    Owned n { m with inner := none } (A ++ ([.osClose k fd] ++ B)) := by
  have hholds := total_step Op.holds A B [.osClose k fd] (.drop k fd)
  have hcloses := total_step Op.closes A B [.osClose k fd] (.drop k fd)
  refine ⟨fun x hmem j hj => ?_, Or.inl rfl, (fun hin => by cases hin), fun _ => ?_, h.table, h.closed, h.stolen⟩
  · rcases Machine.mem_cases (.drop k fd) hmem with hmem | hmem
    · obtain rfl := List.mem_singleton.mp hmem
      exact h.number (.drop k fd) (by simp) j hj
    · exact h.number x hmem j hj
  · cases fd with
    | none =>
      -- the object has given it up already
      rcases h.inner with hin | hin
      · obtain ⟨h1, h2⟩ := h.gone hin
        rw [h1] at hholds
        exact ⟨hholds, (congrArg (· + m.closes.length) (show _ = _ from hcloses)).trans h2⟩
      · exact absurd rfl ((h.owns hin).2.2.2 (.drop k none) (by simp))
    | some j =>
      have hone : (Op.drop k (some j)).holds = 1 := rfl
      have hle := le_total_of_mem (f := Op.holds) (show Op.drop k (some j) ∈ A ++ .drop k (some j) :: B by simp)
      rcases h.inner with hin | hin
      · have := (h.gone hin).1
        omega
      · obtain ⟨h1, h2, h3, -⟩ := h.owns hin
        have hn : total Op.holds [Op.osClose k (some j)] = 0 := rfl
        have hn' : total Op.closes [Op.osClose k (some j)] = 1 := rfl
        have hd : (Op.drop k (some j)).closes = 0 := rfl
        have hlen : m.closes.length = 0 := by simp [h3]
        exact ⟨by omega, by show _ + m.closes.length = 1; omega⟩

/-- A closer closes the number it has. -/
theorem Owned.osClose {k : Caller} {fd : Option Nat} (h : Owned n m (A ++ .osClose k fd :: B)) :
    Owned n (m.osClose k fd).1 (A ++ ((m.osClose k fd).2 ++ B)) := by
  cases fd with
  | none => exact h.idle ⟨rfl, rfl⟩ (raised_carries k) rfl rfl rfl rfl
  | some j =>
    obtain rfl : j = n := h.number (.osClose k (some j)) (by simp) j rfl
    have hle := le_total_of_mem (f := Op.closes) (show Op.osClose k (some j) ∈ A ++ .osClose k (some j) :: B by simp)
    have hone : (Op.osClose k (some j)).closes = 1 := rfl
    have hin : m.inner = none := by
      rcases h.inner with hin | hin
      · exact hin
      · have := (h.owns hin).2.1
        omega
    obtain ⟨h1, h2⟩ := h.gone hin
    have hnil : m.closes = [] := List.eq_nil_of_length_eq_zero (by omega)
    have hclose : m.osClose k (some j) =
        ({ m with table := Function.update m.table j none, closes := [j], stolen := m.stolen }, k.returned) := by
      simp [Mem.osClose, h.table hnil, hnil]
    rw [hclose]
    show Owned j { m with table := Function.update m.table j none, closes := [j], stolen := m.stolen } (A ++ (k.returned ++ B))
    have hret := returned_carries k
    have hn : total Op.holds k.returned = 0 := total_eq_zero_iff.mpr (fun y hy => (weights_of_carries (hret y hy)).1)
    have hn' : total Op.closes k.returned = 0 := total_eq_zero_iff.mpr (fun y hy => (weights_of_carries (hret y hy)).2)
    have hholds := total_step Op.holds A B k.returned (.osClose k (some j))
    have hcloses := total_step Op.closes A B k.returned (.osClose k (some j))
    refine ⟨fun x hmem i hi => ?_, Or.inl hin, fun hin' => ?_, fun _ => ?_, fun hc => ?_, fun i hi => ?_, h.stolen⟩
    · rcases Machine.mem_cases (.osClose k (some j)) hmem with hmem | hmem
      · rw [hret x hmem] at hi
        cases hi
      · exact h.number x hmem i hi
    · rw [hin] at hin'
      cases hin'
    · have hlen : m.closes.length = 0 := by simp [hnil]
      exact ⟨by omega, by show _ + 1 = 1; omega⟩
    · cases hc
    · exact List.mem_singleton.mp hi

theorem Owned.exec (h : Owned n m (A ++ op :: B)) (hok : ¬Overlaps m (A ++ op :: B) (.exec op c)) (hm : Move m op m' new) :
    Owned n m' (A ++ (new ++ B)) := by
  cases hm with
  | idle hx hnew hi ht hc hs => exact h.idle (weights_of_carries hx) hnew hi ht hc hs
  | readFd k => exact h.readFd hok
  | ioClose k fd => exact h.ioClose
  | drop k fd => exact h.drop
  | osClose k fd => exact h.osClose

/-- What happens around the object does not touch its descriptor. -/
theorem call_keeps {l : Call} (h : Owned n m ops) (hc : call m l = some (m', new)) :
    (∀ y ∈ new, y.carries = none) ∧ m'.inner = m.inner ∧ (m.closes = [] → m'.table n = some .this) ∧ m'.closes = m.closes ∧
      m'.stolen = m.stolen := by
  cases l with
  | close | returncode | wait =>
    obtain ⟨rfl, rfl⟩ := Prod.mk.inj (Option.some.inj hc)
    exact ⟨by simp [Op.carries], rfl, h.table, rfl, rfl⟩
  | exit =>
    obtain ⟨rfl, rfl⟩ := Prod.mk.inj (Option.some.inj hc)
    exact ⟨List.forall_mem_nil _, rfl, h.table, rfl, rfl⟩
  | opened k | shut k =>
    simp only [call] at hc
    split at hc
    · rename_i hk
      obtain ⟨rfl, rfl⟩ := Prod.mk.inj (Option.some.inj hc)
      refine ⟨List.forall_mem_nil _, rfl, fun hnil => ?_, rfl, rfl⟩
      have hne : n ≠ k := by
        rintro rfl
        rw [h.table hnil] at hk
        cases hk
      exact (Function.update_of_ne hne _ _).trans (h.table hnil)
    · cases hc

theorem Owned.call {l : Call} (h : Owned n m ops) (hc : Fd.call m l = some (m', new)) : Owned n m' (ops ++ new) := by
  obtain ⟨hnew, hi, ht, hcl, hs⟩ := call_keeps h hc
  have hold : ∀ x ∈ ops ++ new, ∀ fd, x.carries = some fd → x ∈ ops := by
    intro x hmem fd hfd
    rcases List.mem_append.mp hmem with hmem | hmem
    · exact hmem
    · rw [hnew x hmem] at hfd
      cases hfd
  have hn : total Op.holds new = 0 := total_eq_zero_iff.mpr (fun y hy => (weights_of_carries (hnew y hy)).1)
  have hn' : total Op.closes new = 0 := total_eq_zero_iff.mpr (fun y hy => (weights_of_carries (hnew y hy)).2)
  refine ⟨fun x hmem k hk => h.number x (hold x hmem _ hk) k hk, hi ▸ h.inner, ?_, ?_, fun hnil => ht (hcl ▸ hnil),
    hcl ▸ h.closed, hs ▸ h.stolen⟩
  · rw [hi, total_append, total_append, hn, hn', hcl]
    intro hin
    obtain ⟨h1, h2, h3, h4⟩ := h.owns hin
    exact ⟨h1, h2, h3, fun x hmem hx => h4 x (hold x hmem _ hx) hx⟩
  · rw [hi, total_append, total_append, hn, hn', hcl]
    exact h.gone

/-- In every run in which no two closers overlap. -/
theorem Owned.reach {s : State Mem Op} (h : machine.Reach (fun m ops a => ¬Overlaps m ops a) (initial n) s) : Owned n s.mem s.ops := by
  refine h.invariant ?_ (fun m A op B c m' new ih hok he => ih.exec hok (exec_move he)) (fun m ops l m' new ih _ hc => ih.call hc)
  exact ⟨fun x hx => absurd hx List.not_mem_nil, Or.inr rfl, fun _ => ⟨Nat.zero_le 1, rfl, rfl, fun x hx => absurd hx List.not_mem_nil⟩,
    (fun hin => by cases hin), fun _ => by simp [initial],
    fun k hk => absurd hk List.not_mem_nil, rfl⟩

end Tonio.Fd
