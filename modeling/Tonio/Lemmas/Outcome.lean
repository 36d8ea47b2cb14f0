import Tonio.Lemmas.Blocking

/-!
# The outcome of a blocking task

From the exchange of its state away from `Queued` on, a task is in the hands of one party, and each of the party's operations says
which state the control block has and what has happened so far (`Op.At`). The invariant `Reported`: at most one operation acts on
a task; what has happened is what that operation says, and when none is pending the task is still queued or its outcome has been
reported in full.
-/

namespace Tonio.Blocking

open Interleaving

variable {α : Type} {tmax : Nat} {m m' : Mem α} {A B new ops : List (Op α)} {op : Op α} {c : Choice α} {k : Nat}

/-! ## The party that has a task -/

/-- The state of a task in the hands of a party. -/
def Party.taken : Party → TaskState
  | .runner _ => .running
  | .abort _ => .cancelled

/-- The state of a task whose outcome a party has reported. -/
def Party.final : Party → TaskState
  | .runner _ => .done
  | .abort _ => .cancelled

/-- What has happened to a task when both slots have been stored. -/
def Party.stored (p : Party) (o : Outcome α) : List (Entry α) :=
  p.lead ++ [.stored p 0 (.bool o.failed), .stored p 1 o.value]

/-- The state of a task and what has happened to it, as an operation of the party that took it has it. -/
def Op.At : Op α → TaskState → List (Entry α) → Prop
  | .invoke t _, st, h => st = .running ∧ h = [.took (.runner t)]
  | .callable t _, st, h => st = .running ∧ h = (Party.runner t).lead
  | .store0 p _ o, st, h => st = p.taken ∧ p.Reports o ∧ h = p.lead
  | .store1 p _ o, st, h => st = p.taken ∧ p.Reports o ∧ h = p.lead ++ [.stored p 0 (.bool o.failed)]
  | .finishTid t _, st, h | .finishState t _, st, h => st = .running ∧ ∃ o, h = (Party.runner t).stored o
  | .notify p _, st, h => st = p.final ∧ ∃ o, p.Reports o ∧ h = p.stored o
  | _, _, _ => True

/-- A task nobody acts on: it is queued and nothing has happened to it, or its outcome has been reported. -/
def Settled (st : TaskState) (h : List (Entry α)) : Prop :=
  (st = .queued ∧ h = []) ∨ ∃ (p : Party) (o : Outcome α), st = p.final ∧ p.Reports o ∧ h = p.report o

/-- Whether an operation acts on a task. -/
def acting (k : Nat) (op : Op α) : Nat := isAt op.acts k

/-- One party acts on a task, and what has happened is what its operation says. -/
structure Reported (m : Mem α) (ops : List (Op α)) : Prop where
  place : ∀ x ∈ ops, ∀ k, x.acts = some k → x.At (m.ctl k).state (m.history k)
  solo : ∀ k, total (acting k) ops ≤ 1
  settled : ∀ k, total (acting k) ops = 0 → Settled (m.ctl k).state (m.history k)

/-- What a step does to a task: nothing; or it leads from one operation of the party to the next, or is the last one; or a party
takes the task. -/
inductive Acts (m : Mem α) (op : Op α) (m' : Mem α) (new : List (Op α)) (k : Nat) : Prop where
  | other (hop : op.acts ≠ some k) (hnew : ∀ x ∈ new, x.acts ≠ some k) (hs : (m'.ctl k).state = (m.ctl k).state)
      (hh : m'.history k = m.history k)
  | next (x : Op α) (hop : op.acts = some k) (hnew : new = [x]) (hx : x.acts = some k)
      (hat : op.At (m.ctl k).state (m.history k) → x.At (m'.ctl k).state (m'.history k))
  | last (hop : op.acts = some k) (hnew : ∀ x ∈ new, x.acts ≠ some k)
      (hat : op.At (m.ctl k).state (m.history k) → Settled (m'.ctl k).state (m'.history k))
  | take (x : Op α) (hop : op.acts ≠ some k) (hnew : new = [x]) (hx : x.acts = some k) (hq : (m.ctl k).state = .queued)
      (hat : m.history k = [] → x.At (m'.ctl k).state (m'.history k))

/-- A step that acts on one task leaves the others alone. -/
theorem Acts.of_ne {j : Nat} (hjk : k ≠ j) (hop : op.acts = some j ∨ op.acts = none)
    (hnew : ∀ x ∈ new, x.acts = some j ∨ x.acts = none) (hc : m'.ctl k = m.ctl k) (hh : m'.history k = m.history k) :
    Acts m op m' new k := by
  refine .other ?_ (fun x hx => ?_) (by rw [hc]) hh
  · rcases hop with h | h <;> simp [h, Ne.symm hjk]
  · rcases hnew x hx with h | h <;> simp [h, Ne.symm hjk]

theorem Move.acts (h : Move tmax m op c m' new) (k : Nat) : Acts m op m' new k := by
  cases h with
  | begun t j hs =>
    by_cases hjk : k = j
    · subst hjk
      exact .take _ (by simp [Op.acts]) rfl rfl hs (fun hh => by simp [Op.At, hh])
    · exact .of_ne hjk (Or.inr rfl) (by simp [Op.acts]) (by simp [onCtl_ctl_of_ne _ _ hjk]) (by simp [note_history_of_ne _ _ hjk])
  | cancelled n j hs =>
    by_cases hjk : k = j
    · subst hjk
      exact .take _ (by simp [Op.acts]) rfl rfl hs (fun hh => by simp [Op.At, Party.taken, Party.Reports, Party.lead, hh])
    · exact .of_ne hjk (Or.inr rfl) (by simp [Op.acts]) (by simp [onCtl_ctl_of_ne _ _ hjk]) (by simp [note_history_of_ne _ _ hjk])
  | invoke t j =>
    by_cases hjk : k = j
    · subst hjk
      exact .next _ rfl rfl rfl (fun hat => by simp [Op.At, hat.1, hat.2, Party.lead])
    · exact .of_ne hjk (Or.inl rfl) (by simp [Op.acts]) rfl (by simp [note_history_of_ne _ _ hjk])
  | interrupt t j =>
    by_cases hjk : k = j
    · subst hjk
      exact .next _ rfl rfl rfl (fun hat => by simpa using hat)
    · exact .of_ne hjk (Or.inl rfl) (by simp [Op.acts]) (by simp) (by simp)
  | finish t j o =>
    by_cases hjk : k = j
    · subst hjk
      exact .next _ rfl rfl rfl (fun hat => ⟨hat.1, trivial, hat.2⟩)
    · exact .of_ne hjk (Or.inl rfl) (by simp [Op.acts]) rfl rfl
  | store0 p j o =>
    by_cases hjk : k = j
    · subst hjk
      exact .next _ rfl rfl rfl (fun hat => ⟨by simpa [Mem.store] using hat.1, hat.2.1, by simp [Mem.store, hat.2.2]⟩)
    · exact .of_ne hjk (Or.inl rfl) (by simp [Op.acts]) (by simp [Mem.store, onCtl_ctl_of_ne _ _ hjk])
        (by simp [Mem.store, note_history_of_ne _ _ hjk])
  | store1 p j o =>
    by_cases hjk : k = j
    · subst hjk
      cases p with
      | runner t =>
        exact .next _ rfl rfl rfl (fun hat => ⟨by simpa [Mem.store, Party.taken] using hat.1, o, by simp [Mem.store, Party.stored, hat.2.2]⟩)
      | abort n =>
        exact .next _ rfl rfl rfl (fun hat =>
          ⟨by simpa [Mem.store, Party.taken, Party.final] using hat.1, o, hat.2.1, by simp [Mem.store, Party.stored, hat.2.2]⟩)
    · exact .of_ne hjk (Or.inl rfl) (by cases p <;> simp [afterStore, Op.acts]) (by simp [Mem.store, onCtl_ctl_of_ne _ _ hjk])
        (by simp [Mem.store, note_history_of_ne _ _ hjk])
  | finishTid t j =>
    by_cases hjk : k = j
    · subst hjk
      exact .next _ rfl rfl rfl (fun hat => ⟨by simpa using hat.1, hat.2⟩)
    · exact .of_ne hjk (Or.inl rfl) (by simp [Op.acts]) (by simp [onCtl_ctl_of_ne _ _ hjk]) rfl
  | finishState t j =>
    by_cases hjk : k = j
    · subst hjk
      refine .next _ rfl rfl rfl (fun hat => ⟨by simp [Party.final], ?_⟩)
      obtain ⟨-, o, ho⟩ := hat
      exact ⟨o, trivial, ho⟩
    · exact .of_ne hjk (Or.inl rfl) (by simp [Op.acts]) (by simp [onCtl_ctl_of_ne _ _ hjk]) rfl
  | notify p j =>
    by_cases hjk : k = j
    · subst hjk
      refine .last rfl (by cases p <;> simp [afterNotify, Op.acts]) (fun hat => ?_)
      obtain ⟨hst, o, ho, hh⟩ := hat
      exact Or.inr ⟨p, o, by simpa using hst, ho, by simp [hh, Party.stored, Party.report]⟩
    · exact .of_ne hjk (Or.inl rfl) (by cases p <;> simp [afterNotify, Op.acts]) (by simp [onCtl_ctl_of_ne _ _ hjk])
        (by simp [note_history_of_ne _ _ hjk])
  | beginTid t j | beginUndo t j =>
    refine .other (by simp [Op.acts]) (by simp [Op.acts]) ?_ rfl
    by_cases hjk : k = j
    · subst hjk
      simp
    · simp [onCtl_ctl_of_ne _ _ hjk]
  | takeBudget | loadThreads | isRunning n j | loadTid n j =>
    exact .other (by simp [Op.acts]) (by split <;> simp [Op.acts]) rfl rfl
  | _ => exact .other (by simp [Op.acts]) (by simp [Op.acts]) (by simp [Mem.setAlive]) (by simp [Mem.setAlive])

/-- A task that somebody acts on is not queued. -/
theorem Op.At.ne_queued {x : Op α} {st : TaskState} {h : List (Entry α)} (hat : x.At st h) (hx : x.acts = some k) : st ≠ .queued := by
  rintro rfl
  cases x with
  | store0 p j o | store1 p j o | notify p j => cases p <;> simp [Op.At, Party.taken, Party.final] at hat
  | _ => simp_all [Op.At, Op.acts]

/-- A step adds and removes operations that act on a task one for one. -/
theorem total_acting_eq_zero {l : List (Op α)} (h : ∀ x ∈ l, x.acts ≠ some k) : total (acting k) l = 0 :=
  total_eq_zero_iff.mpr (fun x hx => isAt_of_ne (h x hx))

theorem Reported.move (h : Reported m (A ++ op :: B)) (hm : Move tmax m op c m' new) : Reported m' (A ++ (new ++ B)) := by
  have hpoint : ∀ k, (∀ x ∈ A ++ (new ++ B), x.acts = some k → x.At (m'.ctl k).state (m'.history k)) ∧
      total (acting k) (A ++ (new ++ B)) ≤ 1 ∧
      (total (acting k) (A ++ (new ++ B)) = 0 → Settled (m'.ctl k).state (m'.history k)) := by
    intro k
    have hT := total_step (acting k) A B new op
    have hsolo := h.solo k
    have hle : acting k op ≤ total (acting k) (A ++ op :: B) := le_total_of_mem (by simp)
    cases hm.acts k with
    | other hop hnew hs hh =>
      have h0 : acting k op = 0 := isAt_of_ne hop
      have h1 := total_acting_eq_zero hnew
      rw [hs, hh]
      refine ⟨fun x hx hxk => ?_, by omega, fun hz => h.settled k (by omega)⟩
      rcases Machine.mem_beside hx with hx | hx
      · exact absurd hxk (hnew x hx)
      · exact h.place x (Machine.mem_before _ hx) k hxk
    | next x hop hnew hxk hat =>
      have h0 : acting k op = 1 := by rw [acting, hop, isAt_self]
      have h1 : total (acting k) new = 1 := by simp [hnew, acting, hxk]
      refine ⟨fun y hy hyk => ?_, by omega, fun hz => ?_⟩
      · rcases Machine.mem_beside hy with hy | hy
        · rw [hnew] at hy
          rw [List.mem_singleton.mp hy]
          exact hat (h.place op (by simp) k hop)
        · exact absurd hyk (key_ne_of_total_le hsolo hop hy)
      · omega
    | last hop hnew hat =>
      have h0 : acting k op = 1 := by rw [acting, hop, isAt_self]
      have h1 := total_acting_eq_zero hnew
      refine ⟨fun y hy hyk => ?_, by omega, fun _ => hat (h.place op (by simp) k hop)⟩
      rcases Machine.mem_beside hy with hy | hy
      · exact absurd hyk (hnew y hy)
      · exact absurd hyk (key_ne_of_total_le hsolo hop hy)
    | take x hop hnew hxk hq hat =>
      have hidle : total (acting k) (A ++ op :: B) = 0 := by
        refine total_acting_eq_zero (fun y hy hyk => ?_)
        exact (h.place y hy k hyk).ne_queued hyk hq
      have hempty : m.history k = [] := by
        rcases h.settled k hidle with ⟨-, hh⟩ | ⟨p, o, hst, -⟩
        · exact hh
        · rw [hq] at hst
          cases p <;> cases hst
      have h0 : acting k op = 0 := isAt_of_ne hop
      have h1 : total (acting k) new = 1 := by simp [hnew, acting, hxk]
      refine ⟨fun y hy hyk => ?_, by omega, fun hz => ?_⟩
      · rcases Machine.mem_beside hy with hy | hy
        · rw [hnew] at hy
          rw [List.mem_singleton.mp hy]
          exact hat hempty
        · exact absurd hyk (key_ne_of_total_eq_zero hidle (Machine.mem_before _ hy))
      · omega
  exact ⟨fun x hx k => (hpoint k).1 x hx, fun k => (hpoint k).2.1, fun k => (hpoint k).2.2⟩

/-- A call touches no task that was submitted, and acts on none. -/
theorem call_ctl {l : Call} (hc : call m l = some (m', new)) :
    m'.ctl = m.ctl ∧ m'.history = m.history ∧ m'.queue = m.queue ∧ (∀ x ∈ new, x.acts = none) ∧
      ∀ k < m'.next, k < m.next ∨ Op.send k ∈ new := by
  cases l with
  | submit =>
    obtain ⟨rfl, rfl⟩ : _ ∧ _ := by simpa [call] using hc
    refine ⟨rfl, rfl, rfl, by simp [Op.acts], fun k hk => ?_⟩
    rcases Nat.lt_succ_iff_lt_or_eq.mp hk with hk | rfl
    · exact Or.inl hk
    · exact Or.inr (by simp)
  | abort j =>
    simp only [call] at hc
    split at hc
    · obtain ⟨rfl, rfl⟩ : _ ∧ _ := by simpa using hc
      exact ⟨rfl, rfl, rfl, by simp [Op.acts], fun k hk => Or.inl hk⟩
    · cases hc

theorem Reported.call {l : Call} (h : Reported m ops) (hc : call m l = some (m', new)) : Reported m' (ops ++ new) := by
  obtain ⟨h1, h2, -, hnew, -⟩ := call_ctl hc
  have h0 : ∀ k, total (acting k) new = 0 := fun k => total_acting_eq_zero (fun x hx => by rw [hnew x hx]; simp)
  refine ⟨fun x hx k hxk => ?_, fun k => ?_, fun k hz => ?_⟩
  · rw [h1, h2]
    rcases List.mem_append.mp hx with hx | hx
    · exact h.place x hx k hxk
    · rw [hnew x hx] at hxk
      cases hxk
  · rw [total_append, h0]
    exact h.solo k
  · rw [total_append, h0] at hz
    rw [h1, h2]
    exact h.settled k hz

theorem reported_of_reach {ok : Mem α → List (Op α) → Act (Op α) (Choice α) Call → Prop} {s : State (Mem α) (Op α)}
    (h : (machine tmax).Reach ok initial s) : Reported s.mem s.ops := by
  refine h.invariant (I := Reported) ?_ ?_ ?_
  · exact ⟨fun x hx => absurd hx List.not_mem_nil, fun k => Nat.zero_le 1, fun k _ => Or.inl ⟨rfl, rfl⟩⟩
  · exact fun m A op B c m' new hI _ he => hI.move (exec_move he)
  · exact fun m ops l m' new hI _ hc => hI.call hc

/-- What has happened to a task is what one party does to it, up to the operation that acts on it now. -/
theorem Reported.cases (h : Reported m ops) (k : Nat) :
    (∃ x ∈ ops, x.acts = some k ∧ x.At (m.ctl k).state (m.history k)) ∨
      ((∀ x ∈ ops, x.acts ≠ some k) ∧ Settled (m.ctl k).state (m.history k)) := by
  by_cases hz : total (acting k) ops = 0
  · exact Or.inr ⟨fun x hx => key_ne_of_total_eq_zero hz hx, h.settled k hz⟩
  · obtain ⟨x, hx, hpos⟩ := total_pos_iff.mp (Nat.pos_of_ne_zero hz)
    have hxk := isAt_pos.mp hpos
    exact Or.inl ⟨x, hx, hxk, h.place x hx k hxk⟩

/-- What an operation of the party that took a task has behind it is the beginning of the party's report. -/
theorem Op.At.report {x : Op α} {st : TaskState} {h : List (Entry α)} (hat : x.At st h) (hx : x.acts = some k) :
    ∃ (p : Party) (o : Outcome α), p.Reports o ∧ h <+: p.report o ∧ Entry.took p ∈ h ∧
      ((∃ t, p = .runner t) → x.holds = some k ∧ ∀ t, x ≠ .cleanup t k) := by
  cases x with
  | invoke t j =>
    obtain ⟨-, rfl⟩ := hat
    exact ⟨.runner t, ⟨true, .none⟩, trivial, by simp [Party.report, Party.lead], by simp, fun _ => ⟨hx, by simp⟩⟩
  | callable t j =>
    obtain ⟨-, rfl⟩ := hat
    exact ⟨.runner t, ⟨true, .none⟩, trivial, List.prefix_append _ _, by simp [Party.lead], fun _ => ⟨hx, by simp⟩⟩
  | store0 p j o =>
    obtain ⟨-, ho, rfl⟩ := hat
    refine ⟨p, o, ho, List.prefix_append _ _, by cases p <;> simp [Party.lead], ?_⟩
    rintro ⟨t, rfl⟩
    exact ⟨hx, by simp⟩
  | store1 p j o =>
    obtain ⟨-, ho, rfl⟩ := hat
    refine ⟨p, o, ho, by simp [Party.report], by cases p <;> simp [Party.lead], ?_⟩
    rintro ⟨t, rfl⟩
    exact ⟨hx, by simp⟩
  | finishTid t j | finishState t j =>
    obtain ⟨-, o, rfl⟩ := hat
    exact ⟨.runner t, o, trivial, by simp [Party.report, Party.stored], by simp [Party.stored, Party.lead], fun _ => ⟨hx, by simp⟩⟩
  | notify p j =>
    obtain ⟨-, o, ho, rfl⟩ := hat
    refine ⟨p, o, ho, by simp [Party.report, Party.stored], by cases p <;> simp [Party.stored, Party.lead], ?_⟩
    rintro ⟨t, rfl⟩
    exact ⟨hx, by simp⟩
  | _ => cases hx

/-! ## The result holder and the event -/

/-- The result holder and the event of a task are what its history made them. -/
def Replays (m : Mem α) : Prop :=
  ∀ k, (m.ctl k).data = slots (m.history k) ∧ ((m.ctl k).event = true ↔ ∃ p, Entry.notified p ∈ m.history k)

theorem slots_append (h : List (Entry α)) (e : Entry α) : slots (h ++ [e]) = e.apply (slots h) := by
  simp [slots, List.foldl_append]

theorem Replays.move (h : Replays m) (hm : Move tmax m op c m' new) : Replays m' := by
  intro k
  obtain ⟨hd, he⟩ := h k
  cases hm with
  | begun t j | cancelled n j | invoke t j | notify p j =>
    by_cases hjk : k = j
    · subst hjk
      simp [slots_append, Entry.apply, hd, he]
    · simp [onCtl_ctl_of_ne _ _ hjk, note_history_of_ne _ _ hjk, hd, he]
  | store0 p j o | store1 p j o =>
    by_cases hjk : k = j
    · subst hjk
      simp [Mem.store, slots_append, Entry.apply, hd, he]
    · simp [Mem.store, onCtl_ctl_of_ne _ _ hjk, note_history_of_ne _ _ hjk, hd, he]
  | beginTid t j | beginUndo t j | finishTid t j | finishState t j =>
    by_cases hjk : k = j
    · subst hjk
      simp [hd, he]
    · simp [onCtl_ctl_of_ne _ _ hjk, hd, he]
  | _ => simpa [Mem.setAlive] using ⟨hd, he⟩

theorem replays_of_reach {ok : Mem α → List (Op α) → Act (Op α) (Choice α) Call → Prop} {s : State (Mem α) (Op α)}
    (h : (machine tmax).Reach ok initial s) : Replays s.mem := by
  refine h.invariant (I := fun m _ => Replays m) ?_ ?_ ?_
  · exact fun k => ⟨rfl, by simp [initial]⟩
  · exact fun m A op B c m' new hI _ he => hI.move (exec_move he)
  · intro m ops l m' new hI _ hc k
    obtain ⟨h1, h2, -⟩ := call_ctl hc
    rw [h1, h2]
    exact hI k

/-! ## The run of a task -/

/-- The places of a task before a party has taken it, other than the queue. -/
def Op.early : Op α → Option Nat
  | .send k | .backThreads _ k | .backBudget _ k | .beginTid _ k | .beginState _ k => some k
  | _ => none

/-- A task whose state is `Queued` is on its way to `begin`. -/
def Waits (m : Mem α) (ops : List (Op α)) : Prop :=
  ∀ k < m.next, (m.ctl k).state = .queued → k ∈ m.queue ∨ ∃ x ∈ ops, x.early = some k

/-- What a step does to a task that is on its way. -/
theorem Move.waits (h : Move tmax m op c m' new) (k : Nat) :
    (k ∈ m.queue → k ∈ m'.queue ∨ ∃ x ∈ new, x.early = some k) ∧
      (op.early = some k → (m'.ctl k).state = .queued → k ∈ m'.queue ∨ ∃ x ∈ new, x.early = some k) := by
  cases h with
  | send j =>
    refine ⟨fun hk => Or.inl (List.mem_append_left _ hk), fun hk _ => Or.inl ?_⟩
    obtain rfl : j = k := by simpa [Op.early] using hk
    simp
  | recv t hq | tryRecv t hq =>
    refine ⟨fun hk => ?_, by simp [Op.early]⟩
    rw [hq] at hk
    rcases List.mem_cons.mp hk with rfl | hk
    · exact Or.inr ⟨_, List.mem_singleton_self _, rfl⟩
    · exact Or.inl hk
  | backThreads t j | backBudget t j | beginTid t j =>
    exact ⟨fun hk => Or.inl hk, fun hk _ => Or.inr ⟨_, List.mem_singleton_self _, hk⟩⟩
  | begun t j hs | refused t j hs =>
    refine ⟨fun hk => Or.inl hk, fun hk hst => ?_⟩
    obtain rfl : j = k := by simpa [Op.early] using hk
    simp_all
  | _ => exact ⟨fun hk => Or.inl (by simpa [Mem.setAlive, Mem.store, Mem.note, Mem.onCtl] using hk), by simp [Op.early]⟩

/-- No step puts a task back to `Queued`. -/
theorem Move.queued (h : Move tmax m op c m' new) (hq : (m'.ctl k).state = .queued) : (m.ctl k).state = .queued := by
  cases h with
  | begun t j | cancelled n j | notify p j | beginTid t j | beginUndo t j | finishTid t j | finishState t j =>
    by_cases hjk : k = j
    · subst hjk
      simp_all
    · simpa [onCtl_ctl_of_ne _ _ hjk] using hq
  | store0 p j o | store1 p j o =>
    by_cases hjk : k = j
    · subst hjk
      simpa [Mem.store] using hq
    · simpa [Mem.store, onCtl_ctl_of_ne _ _ hjk] using hq
  | _ => simpa [Mem.setAlive] using hq

/-- The state of a task whose run is over is not `Queued`. -/
theorem Waits.ne_queued (h : Waits m ops) (hover : RunOver m ops k) : (m.ctl k).state ≠ .queued := by
  intro hq
  obtain ⟨hlt, hnq, hops⟩ := hover
  rcases h k hlt hq with hk | ⟨x, hx, hxk⟩
  · exact hnq hk
  · have hholds : x.holds = some k := by
      cases x <;> first | exact hxk | cases hxk
    obtain ⟨t, rfl⟩ := hops x hx hholds
    cases hxk

/-- What has happened to a task whose run is over: the beginning of the report of the party that took it, which is an abort if the
report is not complete. -/
theorem Reported.over (h : Reported m ops) (hw : Waits m ops) (hover : RunOver m ops k) :
    ∃ (p : Party) (o : Outcome α), p.Reports o ∧ m.history k <+: p.report o ∧ Entry.took p ∈ m.history k ∧
      ((∃ n, p = .abort n) ∨ m.history k = p.report o) ∧ ((∀ x ∈ ops, x.acts ≠ some k) → m.history k = p.report o) := by
  rcases h.cases k with ⟨x, hx, hxk, hat⟩ | ⟨-, ⟨hq, -⟩ | ⟨p, o, -, ho, hh⟩⟩
  · obtain ⟨p, o, ho, hpre, htook, hrun⟩ := hat.report hxk
    refine ⟨p, o, ho, hpre, htook, Or.inl ?_, fun hidle => absurd hxk (hidle x hx)⟩
    cases p with
    | abort n => exact ⟨n, rfl⟩
    | runner t =>
      obtain ⟨hholds, hne⟩ := hrun ⟨t, rfl⟩
      obtain ⟨t', ht'⟩ := hover.2.2 x hx hholds
      exact absurd ht' (hne t')
  · exact absurd hq (hw.ne_queued hover)
  · refine ⟨p, o, ho, hh ▸ List.prefix_rfl, ?_, Or.inr hh, fun _ => hh⟩
    rw [hh]
    cases p <;> simp [Party.report, Party.lead]

end Tonio.Blocking
