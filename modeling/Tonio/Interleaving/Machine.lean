import Mathlib

/-!
# Threads of atomic operations over a shared memory

A machine has a shared memory `M` and atomic operations `O`. A thread is the stack of operations it still has to perform, the
next one first; performing an operation changes the memory and puts further operations on top of the rest of the thread.
What the environment decides (which thread moves, how a wait ends, what a callback returns) is the label of the step, so a
run is a list of labels and every interleaving is one.

A step may carry a condition on the memory, the operations pending in all threads, and the act about to be performed: `Reach`
is indexed by it, and `fun _ _ _ => True` gives the states of every run.
-/

namespace Interleaving

variable {M O C L : Type*}

/-- A machine: what an operation does under a choice of the environment (`none` when it is blocked), and what a call does that
starts a new thread. -/
structure Machine (M O C L : Type*) where
  exec : M → O → C → Option (M × List O)
  call : M → L → Option (M × List O)

/-- A state: the memory, and the threads. -/
structure State (M O : Type*) where
  mem : M
  pool : List (List O)

/-- The operations pending in all threads. -/
def State.ops (s : State M O) : List O := s.pool.flatten

/-- What a step performs: the next operation of some thread, or a call. -/
inductive Act (O C L : Type*) where
  | exec (op : O) (c : C)
  | call (l : L)

/-- What the environment picks: a thread and a choice for its next operation, or a call. -/
inductive Label (C L : Type*) where
  | act (i : Nat) (c : C)
  | call (l : L)

namespace Machine

/-- One step of a machine. -/
inductive Step (P : Machine M O C L) : State M O → Act O C L → State M O → Prop where
  | exec {s : State M O} {i : Nat} {op : O} {rest : List O} {c : C} {m' : M} {new : List O}
      (hi : s.pool[i]? = some (op :: rest)) (he : P.exec s.mem op c = some (m', new)) :
      Step P s (.exec op c) ⟨m', s.pool.set i (new ++ rest)⟩
  | call {s : State M O} {l : L} {m' : M} {new : List O} (hc : P.call s.mem l = some (m', new)) :
      Step P s (.call l) ⟨m', s.pool ++ [new]⟩

/-- The states reached from `s₀` by steps that all meet the condition `ok`. -/
inductive Reach (P : Machine M O C L) (ok : M → List O → Act O C L → Prop) (s₀ : State M O) : State M O → Prop where
  | init : Reach P ok s₀ s₀
  | step {s s' : State M O} {a : Act O C L} (h : Reach P ok s₀ s) (hok : ok s.mem s.ops a) (hs : P.Step s a s') :
      Reach P ok s₀ s'

variable {P : Machine M O C L} {ok ok' : M → List O → Act O C L → Prop} {s₀ s s' : State M O} {a : Act O C L}

/-! ## What a step does to the pending operations -/

/-- Replacing one thread of a pool replaces its operations in place. -/
theorem flatten_set (pool : List (List O)) (i : Nat) (old : List O) (hi : pool[i]? = some old) :
    ∃ A B, pool.flatten = A ++ old ++ B ∧ ∀ new, (pool.set i new).flatten = A ++ new ++ B := by
  induction pool generalizing i with
  | nil => simp at hi
  | cons t pool ih =>
    cases i with
    | zero =>
      simp only [List.getElem?_cons_zero, Option.some.injEq] at hi
      subst hi
      exact ⟨[], pool.flatten, by simp, fun new => by simp⟩
    | succ i =>
      simp only [List.getElem?_cons_succ] at hi
      obtain ⟨A, B, h1, h2⟩ := ih i hi
      exact ⟨t ++ A, B, by simp [h1], fun new => by simp [h2]⟩

/-- A step of a thread replaces the operation it performs by the operations that follow from it; a call adds operations. -/
theorem Step.ops_eq (h : P.Step s a s') :
    (∃ A op B c new, a = .exec op c ∧ s.ops = A ++ op :: B ∧ P.exec s.mem op c = some (s'.mem, new) ∧
      s'.ops = A ++ (new ++ B)) ∨
    (∃ l new, a = .call l ∧ P.call s.mem l = some (s'.mem, new) ∧ s'.ops = s.ops ++ new) := by
  cases h with
  | @exec i op rest c m' new hi he =>
    obtain ⟨A, B, h1, h2⟩ := flatten_set s.pool i (op :: rest) hi
    exact Or.inl ⟨A, op, rest ++ B, c, new, rfl, by simp [State.ops, h1], he, by simp [State.ops, h2]⟩
  | @call l m' new hc =>
    exact Or.inr ⟨l, new, rfl, hc, by simp [State.ops]⟩

/-- What is pending after a step was pending before or follows from the operation performed. -/
theorem mem_cases (op : O) {A B new : List O} {x : O} (h : x ∈ A ++ (new ++ B)) : x ∈ new ∨ x ∈ A ++ op :: B := by
  simp only [List.mem_append, List.mem_cons] at h ⊢
  tauto

/-- What is pending before a step stays pending, but for the operation performed. -/
theorem mem_keep {A B new : List O} {op x : O} (h : x ∈ A ++ op :: B) (hne : x ≠ op) : x ∈ A ++ (new ++ B) := by
  simp only [List.mem_append, List.mem_cons] at h ⊢
  tauto

/-- What is pending after a step follows from the operation performed, or was pending next to it. -/
theorem mem_beside {A B new : List O} {x : O} (h : x ∈ A ++ (new ++ B)) : x ∈ new ∨ x ∈ A ++ B := by
  simp only [List.mem_append] at h ⊢
  tauto

/-- What is pending next to the operation performed is pending before the step. -/
theorem mem_before (op : O) {A B : List O} {x : O} (h : x ∈ A ++ B) : x ∈ A ++ op :: B := by
  simp only [List.mem_append, List.mem_cons] at h ⊢
  tauto

/-- What is pending next to the operation performed is pending after the step. -/
theorem mem_after (new : List O) {A B : List O} {x : O} (h : x ∈ A ++ B) : x ∈ A ++ (new ++ B) := by
  simp only [List.mem_append] at h ⊢
  tauto

/-- What is said of some pending operation before a step is said of the operation performed or of one next to it. -/
theorem exists_mem_before {A B : List O} {op : O} {q : O → Prop} :
    (∃ x ∈ A ++ op :: B, q x) ↔ q op ∨ ∃ x ∈ A ++ B, q x := by
  constructor
  · rintro ⟨x, hx, hq⟩
    simp only [List.mem_append, List.mem_cons] at hx
    rcases hx with hx | rfl | hx
    · exact Or.inr ⟨x, by simp [hx], hq⟩
    · exact Or.inl hq
    · exact Or.inr ⟨x, by simp [hx], hq⟩
  · rintro (hq | ⟨x, hx, hq⟩)
    · exact ⟨op, by simp, hq⟩
    · exact ⟨x, mem_before op hx, hq⟩

/-- What is said of some pending operation after a step is said of one that follows from the operation performed, or of one next to it. -/
theorem exists_mem_after {A B new : List O} {q : O → Prop} :
    (∃ x ∈ A ++ (new ++ B), q x) ↔ (∃ x ∈ new, q x) ∨ ∃ x ∈ A ++ B, q x := by
  constructor
  · rintro ⟨x, hx, hq⟩
    rcases mem_beside hx with hx | hx
    · exact Or.inl ⟨x, hx, hq⟩
    · exact Or.inr ⟨x, hx, hq⟩
  · rintro (⟨x, hx, hq⟩ | ⟨x, hx, hq⟩)
    · exact ⟨x, List.mem_append_right A (List.mem_append_left B hx), hq⟩
    · exact ⟨x, mem_after new hx, hq⟩

theorem mem_new {A B new : List O} {x : O} (h : x ∈ new) : x ∈ A ++ (new ++ B) :=
  List.mem_append_right A (List.mem_append_left B h)

/-- A thread of a pool after a step is the one that moved, or is as it was. -/
theorem getElem?_set_cases {pool : List (List O)} {i j : Nat} {new t : List O} (h : (pool.set i new)[j]? = some t) :
    (j = i ∧ t = new) ∨ (j ≠ i ∧ pool[j]? = some t) := by
  rw [List.getElem?_set] at h
  split at h
  · rename_i hij
    split at h
    · exact Or.inl ⟨hij.symm, (Option.some.inj h).symm⟩
    · cases h
  · rename_i hij
    exact Or.inr ⟨fun hji => hij hji.symm, h⟩

/-- A thread of a pool after a call is the one the call started, or one that was there. -/
theorem getElem?_append_cases {pool : List (List O)} {j : Nat} {new t : List O} (h : (pool ++ [new])[j]? = some t) :
    pool[j]? = some t ∨ (j = pool.length ∧ t = new) := by
  rw [List.getElem?_append] at h
  split at h
  · exact Or.inl h
  · rw [List.getElem?_singleton] at h
    split at h
    · exact Or.inr ⟨by omega, (Option.some.inj h).symm⟩
    · cases h

/-! ## Invariants of runs -/

/-- A stronger condition on the steps reaches fewer states. -/
theorem Reach.mono (h : P.Reach ok s₀ s) (hok : ∀ m ops a, ok m ops a → ok' m ops a) : P.Reach ok' s₀ s := by
  induction h with
  | init => exact .init
  | step _ hk hs ih => exact .step ih (hok _ _ _ hk) hs

/-- What is known of every state of a run may be used to show that its steps meet another condition. -/
theorem Reach.mono_with {J : M → List O → Prop} (h : P.Reach ok s₀ s) (hJ : ∀ {s}, P.Reach ok s₀ s → J s.mem s.ops)
    (hexec : ∀ m ops op c, J m ops → op ∈ ops → ok m ops (.exec op c) → ok' m ops (.exec op c))
    (hcall : ∀ m ops l, J m ops → ok m ops (.call l) → ok' m ops (.call l)) : P.Reach ok' s₀ s := by
  induction h with
  | init => exact .init
  | @step s s' a hr hk hs ih =>
    refine .step ih ?_ hs
    rcases hs.ops_eq with ⟨A, op, B, c, new, rfl, ho, -, -⟩ | ⟨l, new, rfl, -, -⟩
    · exact hexec _ _ _ _ (hJ hr) (by simp [ho]) hk
    · exact hcall _ _ _ (hJ hr) hk

/-- A run goes on from where another one ended. -/
theorem Reach.trans {s₁ : State M O} (h : P.Reach ok s₀ s₁) (h' : P.Reach ok s₁ s) : P.Reach ok s₀ s := by
  induction h' with
  | init => exact h
  | step _ hk hs ih => exact .step ih hk hs

/-- The invariant rule on top of what is already known of every state of a run. -/
theorem Reach.invariant_with {I J : M → List O → Prop} (h : P.Reach ok s₀ s) (hJ : ∀ {s}, P.Reach ok s₀ s → J s.mem s.ops)
    (h₀ : I s₀.mem s₀.ops)
    (hexec : ∀ m A op B c m' new, J m (A ++ op :: B) → I m (A ++ op :: B) → ok m (A ++ op :: B) (.exec op c) →
      P.exec m op c = some (m', new) → I m' (A ++ (new ++ B)))
    (hcall : ∀ m ops l m' new, J m ops → I m ops → ok m ops (.call l) → P.call m l = some (m', new) → I m' (ops ++ new)) :
    I s.mem s.ops := by
  induction h with
  | init => exact h₀
  | @step s s' a hr hok hs ih =>
    have hj := hJ hr
    rcases hs.ops_eq with ⟨A, op, B, c, new, rfl, ho, he, ho'⟩ | ⟨l, new, rfl, hc, ho'⟩
    · rw [ho] at ih hok hj
      rw [ho']
      exact hexec _ _ _ _ _ _ _ hj ih hok he
    · rw [ho']
      exact hcall _ _ _ _ _ hj ih hok hc

/-- The invariant rule: what holds at the start and is kept by every operation and every call holds in every state of a run.
The invariant speaks of the memory and of the pending operations; the operation performed stands at some place among them. -/
theorem Reach.invariant {I : M → List O → Prop} (h : P.Reach ok s₀ s) (h₀ : I s₀.mem s₀.ops)
    (hexec : ∀ m A op B c m' new, I m (A ++ op :: B) → ok m (A ++ op :: B) (.exec op c) →
      P.exec m op c = some (m', new) → I m' (A ++ (new ++ B)))
    (hcall : ∀ m ops l m' new, I m ops → ok m ops (.call l) → P.call m l = some (m', new) → I m' (ops ++ new)) :
    I s.mem s.ops := by
  refine h.invariant_with (J := fun _ _ => True) (fun _ => trivial) h₀ ?_ ?_
  · exact fun m A op B c m' new _ => hexec m A op B c m' new
  · exact fun m ops l m' new _ => hcall m ops l m' new

/-- The invariant rule for what is said about the threads themselves. -/
theorem Reach.invariant_pool {I : M → List (List O) → Prop} (h : P.Reach ok s₀ s) (h₀ : I s₀.mem s₀.pool)
    (hexec : ∀ m pool i op rest c m' new, I m pool → pool[i]? = some (op :: rest) → P.exec m op c = some (m', new) →
      I m' (pool.set i (new ++ rest)))
    (hcall : ∀ m pool l m' new, I m pool → P.call m l = some (m', new) → I m' (pool ++ [new])) : I s.mem s.pool := by
  induction h with
  | init => exact h₀
  | step _ _ hs ih =>
    cases hs with
    | exec hi he => exact hexec _ _ _ _ _ _ _ _ ih hi he
    | call hc => exact hcall _ _ _ _ _ ih hc

/-! ## Runs as seen by one thread -/

/-- The runs from `s₀` in which what thread `i` still has to do meets `Q` in every state. -/
inductive Within (P : Machine M O C L) (i : Nat) (Q : List O → Prop) (s₀ : State M O) : State M O → Prop where
  | init {t : List O} (hi : s₀.pool[i]? = some t) (hQ : Q t) : Within P i Q s₀ s₀
  | step {s s' : State M O} {a : Act O C L} {t : List O} (h : Within P i Q s₀ s) (hs : P.Step s a s') (hi : s'.pool[i]? = some t)
      (hQ : Q t) : Within P i Q s₀ s'

/-- Such a run is a run. -/
theorem Within.reach {i : Nat} {Q : List O → Prop} (h : P.Within i Q s₀ s) : P.Reach (fun _ _ _ => True) s₀ s := by
  induction h with
  | init => exact .init
  | step _ hs _ _ ih => exact .step ih trivial hs

/-- What the thread still has to do at the end of such a run. -/
theorem Within.thread {i : Nat} {Q : List O → Prop} (h : P.Within i Q s₀ s) : ∃ t, s.pool[i]? = some t ∧ Q t := by
  cases h with
  | init hi hQ => exact ⟨_, hi, hQ⟩
  | step _ _ hi hQ => exact ⟨_, hi, hQ⟩

/-- The operations of a thread are pending. -/
theorem mem_ops {i : Nat} {t : List O} {op : O} (hi : s.pool[i]? = some t) (hx : op ∈ t) : op ∈ s.ops :=
  List.mem_flatten.mpr ⟨t, List.mem_of_getElem? hi, hx⟩

/-- What a step leaves to a thread: the thread itself has moved, or it was there already, or it is the one the step starts. -/
theorem Step.thread_cases {i : Nat} {t : List O} (h : P.Step s a s') (hi : s'.pool[i]? = some t) :
    (∃ op rest c new, a = .exec op c ∧ s.pool[i]? = some (op :: rest) ∧ P.exec s.mem op c = some (s'.mem, new) ∧ t = new ++ rest) ∨
    s.pool[i]? = some t ∨ ∃ l new, a = .call l ∧ P.call s.mem l = some (s'.mem, new) ∧ i = s.pool.length ∧ t = new := by
  cases h with
  | @exec j op rest c m' new hj he =>
    rcases getElem?_set_cases hi with ⟨rfl, rfl⟩ | ⟨-, hi⟩
    · exact Or.inl ⟨op, rest, c, new, rfl, hj, he, rfl⟩
    · exact Or.inr (Or.inl hi)
  | @call l m' new hc =>
    rcases getElem?_append_cases hi with hj | ⟨hj, rfl⟩
    · exact Or.inr (Or.inl hj)
    · exact Or.inr (Or.inr ⟨l, t, rfl, hc, hj, rfl⟩)

/-! ## Runs with their acts -/

/-- A run from `s₀` with the acts it performs, in order. -/
inductive Path (P : Machine M O C L) (s₀ : State M O) : List (Act O C L) → State M O → Prop where
  | nil : Path P s₀ [] s₀
  | snoc {acts : List (Act O C L)} {s s' : State M O} {a : Act O C L} (h : Path P s₀ acts s) (hs : P.Step s a s') :
      Path P s₀ (acts ++ [a]) s'

/-- A run goes on from where another one ended. -/
theorem Path.append {s₁ : State M O} {acts acts' : List (Act O C L)} (h : P.Path s₀ acts s₁) (h' : P.Path s₁ acts' s) :
    P.Path s₀ (acts ++ acts') s := by
  induction h' with
  | nil => simpa using h
  | snoc _ hs ih =>
    rw [← List.append_assoc]
    exact .snoc ih hs

/-- A call whose thread performs its first operation at once. -/
theorem Path.spawn {acts : List (Act O C L)} {l : L} {op : O} {c : C} {m m' : M} {new : List O} (h : P.Path s₀ acts s)
    (hc : P.call s.mem l = some (m, [op])) (he : P.exec m op c = some (m', new)) :
    P.Path s₀ (acts ++ [.call l] ++ [.exec op c]) ⟨m', s.pool ++ [new]⟩ := by
  have hi : (s.pool ++ [[op]])[s.pool.length]? = some (op :: []) := by simp
  have hs : P.Step ⟨m, s.pool ++ [[op]]⟩ (.exec op c) ⟨m', (s.pool ++ [[op]]).set s.pool.length (new ++ [])⟩ := .exec hi he
  have hset : (s.pool ++ [[op]]).set s.pool.length (new ++ []) = s.pool ++ [new] := by simp
  exact .snoc (.snoc h (.call hc)) (hset ▸ hs)

/-! ## Runs given by their labels -/

/-- The step a label picks, if the act is enabled and passes the check `okb`. -/
def stepAt (P : Machine M O C L) (okb : M → List O → Act O C L → Bool) (s : State M O) : Label C L → Option (State M O)
  | .act i c =>
    match s.pool[i]? with
    | some (op :: rest) =>
      if okb s.mem s.ops (.exec op c) then
        (P.exec s.mem op c).map (fun r => ⟨r.1, s.pool.set i (r.2 ++ rest)⟩)
      else none
    | _ => none
  | .call l => if okb s.mem s.ops (.call l) then (P.call s.mem l).map (fun r => ⟨r.1, s.pool ++ [r.2]⟩) else none

/-- The run a list of labels describes. -/
def run (P : Machine M O C L) (okb : M → List O → Act O C L → Bool) : State M O → List (Label C L) → Option (State M O)
  | s, [] => some s
  | s, l :: ls => (P.stepAt okb s l).bind (fun s' => P.run okb s' ls)

theorem step_of_stepAt {okb : M → List O → Act O C L → Bool} {l : Label C L} (h : P.stepAt okb s l = some s') :
    ∃ a, okb s.mem s.ops a = true ∧ P.Step s a s' := by
  cases l with
  | act i c =>
    simp only [stepAt] at h
    split at h
    · rename_i op rest hi
      split at h
      · rename_i hok
        obtain ⟨⟨m', new⟩, he, rfl⟩ := Option.map_eq_some_iff.mp h
        exact ⟨_, hok, .exec hi he⟩
      · cases h
    · cases h
  | call l =>
    simp only [stepAt] at h
    split at h
    · rename_i hok
      obtain ⟨⟨m', new⟩, hc, rfl⟩ := Option.map_eq_some_iff.mp h
      exact ⟨_, hok, .call hc⟩
    · cases h

/-- The step of a thread, with the operation it performs. -/
theorem step_of_stepAt_act {okb : M → List O → Act O C L → Bool} {i : Nat} {c : C} {op : O} {rest : List O}
    (hi : s.pool[i]? = some (op :: rest)) (h : P.stepAt okb s (.act i c) = some s') : P.Step s (.exec op c) s' := by
  simp only [stepAt, hi] at h
  split at h
  · obtain ⟨⟨m', new⟩, he, rfl⟩ := Option.map_eq_some_iff.mp h
    exact .exec hi he
  · cases h

/-- The run a list of labels describes, as long as what thread `i` still has to do meets `q`. -/
def runWithin (P : Machine M O C L) (i : Nat) (q : List O → Bool) : State M O → List (Label C L) → Option (State M O)
  | s, [] => some s
  | s, l :: ls => (P.stepAt (fun _ _ _ => true) s l).bind (fun s' => if (s'.pool[i]?).any q then P.runWithin i q s' ls else none)

theorem Within.run {i : Nat} {q : List O → Bool} {Q : List O → Prop} (hq : ∀ t, q t = true → Q t) :
    ∀ (ls : List (Label C L)) {s s' : State M O}, P.Within i Q s₀ s → P.runWithin i q s ls = some s' → P.Within i Q s₀ s'
  | [], s, s', hw, h => by
    simp only [runWithin, Option.some.injEq] at h
    exact h ▸ hw
  | l :: ls, s, s', hw, h => by
    simp only [runWithin] at h
    obtain ⟨s₁, h1, h2⟩ := Option.bind_eq_some_iff.mp h
    obtain ⟨a, -, hs⟩ := step_of_stepAt h1
    split at h2
    · rename_i hany
      obtain ⟨t, ht, hqt⟩ := (Option.any_eq_true _ _).mp hany
      exact Within.run hq ls (.step hw hs ht (hq t hqt)) h2
    · cases h2

/-- The state a run of labels ends in is reached, whatever was reached before it. -/
theorem Reach.run {okb : M → List O → Act O C L → Bool} (hb : ∀ m ops a, okb m ops a = true → ok m ops a) :
    ∀ (ls : List (Label C L)) {s s' : State M O}, P.Reach ok s₀ s → P.run okb s ls = some s' → P.Reach ok s₀ s'
  | [], s, s', hr, h => by
    simp only [Machine.run, Option.some.injEq] at h
    exact h ▸ hr
  | l :: ls, s, s', hr, h => by
    simp only [Machine.run] at h
    obtain ⟨s₁, h1, h2⟩ := Option.bind_eq_some_iff.mp h
    obtain ⟨a, hok, hs⟩ := step_of_stepAt h1
    exact Reach.run hb ls (.step hr (hb _ _ _ hok) hs) h2

/-- A run of labels that ends in a state where `p` holds gives a reached state where `p` holds. -/
theorem exists_reach_of_run (P : Machine M O C L) (ok : M → List O → Act O C L → Prop) (okb : M → List O → Act O C L → Bool)
    (hb : ∀ m ops a, okb m ops a = true → ok m ops a) (s₀ : State M O) (ls : List (Label C L)) (p : State M O → Bool)
    (h : (P.run okb s₀ ls).any p = true) : ∃ s, P.Reach ok s₀ s ∧ p s = true := by
  obtain ⟨s, hs, hp⟩ := (Option.any_eq_true _ _).mp h
  exact ⟨s, Reach.run hb ls .init hs, hp⟩

/-- A run of labels, and another one from where it ends. -/
theorem exists_reach_of_runs (P : Machine M O C L) (ok ok' : M → List O → Act O C L → Prop)
    (okb okb' : M → List O → Act O C L → Bool) (hb : ∀ m ops a, okb m ops a = true → ok m ops a)
    (hb' : ∀ m ops a, okb' m ops a = true → ok' m ops a) (s₀ : State M O) (ls ls' : List (Label C L))
    (p : State M O → State M O → Bool) (h : (P.run okb s₀ ls).any (fun s => (P.run okb' s ls').any (p s)) = true) :
    ∃ s s', P.Reach ok s₀ s ∧ P.Reach ok' s s' ∧ p s s' = true := by
  obtain ⟨s, hs, hp⟩ := exists_reach_of_run P ok okb hb s₀ ls _ h
  obtain ⟨s', hs', hp'⟩ := exists_reach_of_run P ok' okb' hb' s ls' (p s) hp
  exact ⟨s, s', hs, hs', hp'⟩

end Machine

end Interleaving
