import Tonio.Lemmas.TlsState

/-!
# Broken and closed TLS streams, and reads that stall

`_send` does not look at the state when it has got the send lock, and `close` stores `Closed` before it asks whether the stream is broken
(`__exit__` asks first): who gets the send lock writes to a broken stream. `_set_broken` and `_set_closed` store what they are told,
whatever the state is. And a task reads `_recv_count` in a step of its own, after the step of the SSL object that wanted to read.
-/

namespace Tonio.Tls

open Interleaving

instance (m : Mem) (ops : List Op) (a : Act Op Choice Call) : Decidable (Slips m ops a) := by
  unfold Slips
  induction a using Act.casesOn with
  | exec op c => induction op using Op.casesOn <;> induction c using Choice.casesOn <;> infer_instance
  | call l => infer_instance

instance (a : Act Op Choice Call) : Decidable (Grants a) := by
  unfold Grants
  induction a using Act.casesOn with
  | exec op c => induction op using Op.casesOn <;> induction c using Choice.casesOn <;> infer_instance
  | call l => infer_instance

instance (a : Act Op Choice Call) : Decidable (Closes a) := by
  unfold Closes
  induction a using Act.casesOn <;> infer_instance

instance (cfg : Config) (m : Mem) (ops : List Op) (a : Act Op Choice Call) : Decidable (Reopens cfg m ops a) := by
  unfold Reopens
  induction a using Act.casesOn with
  | exec op c => induction op using Op.casesOn <;> infer_instance
  | call l => infer_instance

/-! ## Broken -/

/-- A broken stream never writes again, for any number of tasks in any of its methods: in every run in which the stream does not become
broken while a sender that has the send lock has not passed its payload to the transport, and after which no task is given the send
lock, the bytes passed to the transport stay what they are. -/
theorem broken_writes_nothing (cfg : Config) (s s' : State Mem Op)
    (h : (machine cfg).Reach (fun m ops a => ¬Slips m ops a) initial s) (hb : s.mem.state = .broken)
    (h' : (machine cfg).Reach (fun _ _ a => ¬Grants a) s s') : s'.mem.sent = s.mem.sent := by
  have hnone : ∀ x ∈ s.ops, x.granted = false := granted_of_broken h hb
  have hrun : s'.mem.sent = s.mem.sent ∧ ∀ x ∈ s'.ops, x.granted = false := by
    refine h'.invariant (I := fun m ops => m.sent = s.mem.sent ∧ ∀ x ∈ ops, x.granted = false) ⟨rfl, hnone⟩ ?_ ?_
    · intro m A op B c m' new ih hok he
      have hop : op.granted = false := ih.2 op (by simp)
      have ht := exec_turn he
      refine ⟨(ht.sent hop).trans ih.1, fun x hx => ?_⟩
      rcases Machine.mem_cases op hx with hx | hx
      · refine ht.granted hop ?_ x hx
        rintro p rfl rfl
        exact hok trivial
      · exact ih.2 x hx
    · intro m ops l m' new ih _ hc
      obtain ⟨rfl, hnew⟩ := call_plain hc
      refine ⟨ih.1, fun x hx => ?_⟩
      rcases List.mem_append.mp hx with hx | hx
      · exact ih.2 x hx
      · exact (hnew x hx).granted
  exact hrun.1

/-- A send fails on the transport, and the stream is closed afterwards: nothing follows the bytes of the send. -/
theorem broken_writes_nothing_send :
    ∃ s s', (machine ⟨false, true⟩).Reach (fun m ops a => ¬Slips m ops a) initial s ∧
      (machine ⟨false, true⟩).Reach (fun _ _ a => ¬Grants a) s s' ∧ s.mem.state = .broken ∧ s'.mem.transportOpen = false ∧
      s.mem.sent = [1] ∧ s'.mem.sent = s.mem.sent := by
  obtain ⟨s, s', hs, hs', hp⟩ := Machine.exists_reach_of_runs (machine ⟨false, true⟩) (fun m ops a => ¬Slips m ops a)
    (fun _ _ a => ¬Grants a) (fun m ops a => decide (¬Slips m ops a)) (fun _ _ a => decide (¬Grants a))
    (fun _ _ _ h => of_decide_eq_true h) (fun _ _ _ h => of_decide_eq_true h) initial
    (List.flatten [[.call .handshake, .act 0 .go, .act 0 (.step [] false), .act 0 .go, .call .sendAll, .act 1 .go],
      [.act 1 (.step [1] false)], List.replicate 6 (.act 1 .go), [.act 1 .fail, .act 1 .go]])
    (List.flatten [[.call .close], List.replicate 4 (.act 2 .go), [.act 1 .go]])
    (fun s s' => decide (s.mem.state = .broken) && decide (s'.mem.transportOpen = false) && decide (s.mem.sent = [1])) (by decide)
  simp only [Bool.and_eq_true, decide_eq_true_eq] at hp
  exact ⟨s, s', hs, hs', hp.1.1, hp.1.2, hp.2, broken_writes_nothing ⟨false, true⟩ s s' hs hp.1.1 hs'⟩

/-- A send fails after `[1]`. The task that waits for the send lock gets it and writes `[2]` to the broken stream; `close` writes `[3]`. -/
theorem broken_writes_more :
    ∃ s s', (machine ⟨false, false⟩).Reach (fun _ _ _ => True) initial s ∧ (machine ⟨false, false⟩).Reach (fun _ _ _ => True) s s' ∧
      s.mem.state = .broken ∧ s.mem.sent = [1] ∧ s'.mem.sent = [1, 2, 3] := by
  obtain ⟨s, s', hs, hs', hp⟩ := Machine.exists_reach_of_runs (machine ⟨false, false⟩) (fun _ _ _ => True) (fun _ _ _ => True)
    (fun _ _ _ => true) (fun _ _ _ => true) (fun _ _ _ _ => trivial) (fun _ _ _ _ => trivial) initial
    (List.flatten [[.call .handshake, .act 0 .go, .act 0 (.step [] false), .act 0 .go, .call .sendAll, .call .sendAll, .act 1 .go,
      .act 1 (.step [1] false), .act 2 .go, .act 2 (.step [2] false)], List.replicate 6 (.act 1 .go), [.act 1 .fail, .act 1 .go]])
    (List.flatten [[.act 1 .go], List.replicate 8 (.act 2 .go), [.call .close], List.replicate 3 (.act 3 .go), [.act 3 (.step [3] false)],
      List.replicate 6 (.act 3 .go)])
    (fun s s' => decide (s.mem.state = .broken) && decide (s.mem.sent = [1]) && decide (s'.mem.sent = [1, 2, 3])) (by decide)
  simp only [Bool.and_eq_true, decide_eq_true_eq] at hp
  exact ⟨s, s', hs, hs', hp.1.1, hp.1.2, hp.2⟩

/-! ## Closed -/

/-- `Closed` is a terminal state, for any number of tasks in any of the methods: in every run in which no operation in flight fails on a
closed stream and no task decides to close it while another one has decided so or has closed it, the stream stays closed once `Closed` has
been stored, it is not closed a second time, and `close` finds nothing to do. -/
theorem closed_stays_closed (cfg : Config) (s₀ s₁ s : State Mem Op) (a : Act Op Choice Call)
    (h : (machine cfg).Reach (fun m ops a => ¬Reopens cfg m ops a) initial s₀) (hs : (machine cfg).Step s₀ a s₁) (ha : Closes a)
    (h' : (machine cfg).Reach (fun m ops a => ¬Reopens cfg m ops a) s₁ s) :
    s.mem.state = .closed ∧ (∀ b s', (machine cfg).Step s b s' → ¬Closes b) ∧
      ∀ c m' new, (machine cfg).exec s.mem .closeCheck c = some (m', new) → m' = s.mem ∧ new = [] := by
  have hclosed : Closed s.mem s.ops := by
    refine h'.invariant ((Closing.reach h).of_closes hs ha) ?_ ?_
    · exact fun m A op B c m' new ih hok he => ih.exec hok (exec_turn he)
    · intro m ops l m' new ih _ hc
      obtain ⟨rfl, hnew⟩ := call_plain hc
      exact ⟨ih.state, by rw [total_append, ih.none, closers_plain hnew]⟩
  refine ⟨hclosed.state, fun b s' hb => hclosed.not_closes hb, ?_⟩
  intro c m' new he
  cases c <;> simp only [machine, exec, reduceCtorEq, Option.some.injEq, Prod.mk.injEq] at he
  obtain ⟨rfl, rfl⟩ := he
  exact ⟨rfl, if_pos hclosed.state⟩

/-- A task closes the stream, and a second one finds it closed. -/
theorem closed_stays_closed_two :
    ∃ s₀ s₁ s, (machine ⟨false, true⟩).Reach (fun m ops a => ¬Reopens ⟨false, true⟩ m ops a) initial s₀ ∧
      (machine ⟨false, true⟩).Step s₀ (.exec .setClosed .go) s₁ ∧
      (machine ⟨false, true⟩).Reach (fun m ops a => ¬Reopens ⟨false, true⟩ m ops a) s₁ s ∧ s.mem.transportOpen = false ∧
      s.ops = [.closeCheck] ∧ s.mem.state = .closed := by
  obtain ⟨s₀, hs₀, hp⟩ := Machine.exists_reach_of_run (machine ⟨false, true⟩) (fun m ops a => ¬Reopens ⟨false, true⟩ m ops a)
    (fun m ops a => decide (¬Reopens ⟨false, true⟩ m ops a)) (fun _ _ _ h => of_decide_eq_true h) initial [.call .close, .act 0 .go]
    (fun (s₀ : State Mem Op) => decide (s₀.pool[0]? = some [Op.setClosed]) &&
      ((machine ⟨false, true⟩).stepAt (fun _ _ _ => true) s₀ (.act 0 .go)).any (fun s₁ =>
        ((machine ⟨false, true⟩).run (fun m ops a => decide (¬Reopens ⟨false, true⟩ m ops a)) s₁
          [.act 0 .go, .act 0 .go, .call .close]).any
          (fun (s : State Mem Op) => decide (s.mem.transportOpen = false) && decide (s.ops = [Op.closeCheck])))) (by decide)
  simp only [Bool.and_eq_true, decide_eq_true_eq] at hp
  obtain ⟨hi, hany⟩ := hp
  obtain ⟨s₁, hs₁, hany⟩ := (Option.any_eq_true _ _).mp hany
  obtain ⟨s₂, hs₂, hp⟩ := (Option.any_eq_true _ _).mp hany
  simp only [Bool.and_eq_true, decide_eq_true_eq] at hp
  have hstep := Machine.step_of_stepAt_act hi hs₁
  have hrun : (machine ⟨false, true⟩).Reach (fun m ops a => ¬Reopens ⟨false, true⟩ m ops a) s₁ s₂ :=
    Machine.Reach.run (fun _ _ _ h => of_decide_eq_true h) _ .init hs₂
  exact ⟨s₀, s₁, s₂, hs₀, hstep, hrun, hp.1, hp.2, (closed_stays_closed ⟨false, true⟩ s₀ s₁ s₂ _ hs₀ hstep rfl hrun).1⟩

/-- A send is in flight while the stream is closed. It fails, the stream is broken, and a second `close` starts the shutdown again. -/
theorem closed_reopens :
    ∃ s s', (machine ⟨false, false⟩).Reach (fun _ _ _ => True) initial s ∧ (machine ⟨false, false⟩).Reach (fun _ _ _ => True) s s' ∧
      s.mem.state = .closed ∧ s'.mem.state = .broken ∧ Op.setClosed ∈ s'.ops := by
  obtain ⟨s, s', hs, hs', hp⟩ := Machine.exists_reach_of_runs (machine ⟨false, false⟩) (fun _ _ _ => True) (fun _ _ _ => True)
    (fun _ _ _ => true) (fun _ _ _ => true) (fun _ _ _ _ => trivial) (fun _ _ _ _ => trivial) initial
    (List.flatten [[.call .handshake, .act 0 .go, .act 0 (.step [] false), .act 0 .go, .call .sendAll, .act 1 .go],
      [.act 1 (.step [1] false)], List.replicate 6 (.act 1 .go), [.call .close, .act 2 .go, .act 2 .go]])
    [.act 1 .fail, .act 1 .go, .call .close, .act 3 .go]
    (fun s s' => decide (s.mem.state = .closed) && decide (s'.mem.state = .broken) && decide (Op.setClosed ∈ s'.ops)) (by decide)
  simp only [Bool.and_eq_true, decide_eq_true_eq] at hp
  exact ⟨s, s', hs, hs', hp.1.1, hp.1.2, hp.2⟩

/-! ## Reads -/

instance (op : Op) (job : Job) (count : Nat) : Decidable (op.looked job count) := by
  unfold Op.looked
  split <;> infer_instance

/-- A task that receives from the transport has missed no write to the ingress BIO since its step of the SSL object, for any number of
tasks in any of the methods: a visit of a task to `_recv` that ends in a receive is such that nothing was written in between if and only if
what was written after its step had not been counted when it read `_recv_count`. -/
theorem receive_misses_nothing_iff (cfg : Config) (i : Nat) (job : Job) (rest : List Op) (s₀ s₁ s₂ s₃ s₄ : State Mem Op)
    (h : (machine cfg).Reach (fun _ _ _ => True) initial s₀) (hv : Visit cfg i job rest s₀ s₁ s₂ s₃ s₄) :
    s₄.mem.writes = s₁.mem.writes ↔ s₂.mem.recvCount ≤ s₁.mem.writes := by
  have h₁ : (machine cfg).Reach (fun _ _ _ => True) initial s₁ := .step h trivial hv.step
  have h₂ := h₁.trans hv.toLoad.reach
  have h₃ : (machine cfg).Reach (fun _ _ _ => True) initial s₃ := .step h₂ trivial hv.load
  have h₄ := h₃.trans hv.toReceive.reach
  have hle : s₁.mem.writes ≤ s₄.mem.writes := writes_mono (hv.toLoad.reach.trans (.trans (.step .init trivial hv.load) hv.toReceive.reach))
  have hmem : Op.receive job ∈ s₄.ops := Machine.mem_ops hv.receives List.mem_cons_self
  have hcounted : s₄.mem.writes = s₄.mem.recvCount := ((Counting.reach h₄).receiving hmem).1
  have hread : s₄.mem.recvCount = s₂.mem.recvCount := recvCount_of_within h₃ hv.not_receiving hv.toReceive hv.receives
  omega

/-- A visit given by labels: a run to the step of task `i`, what the others do before it reads `_recv_count`, and what all do until it
receives. -/
theorem exists_visit (cfg : Config) (i : Nat) (job : Job) (count : Nat) (ls ls₁ ls₂ : List (Label Choice Call))
    (p : State Mem Op → State Mem Op → Bool)
    (h : (((machine cfg).run (fun _ _ _ => true) initial ls).any (fun s₀ => decide (s₀.pool[i]? = some [.step job]) &&
      ((machine cfg).stepAt (fun _ _ _ => true) s₀ (.act i (.step [] true))).any (fun s₁ => decide (s₁.pool[i]? = some [.loadCount job]) &&
        ((machine cfg).runWithin i (fun t => decide (t = [.loadCount job])) s₁ ls₁).any (fun s₂ => decide (s₂.mem.recvCount = count) &&
          ((machine cfg).stepAt (fun _ _ _ => true) s₂ (.act i .go)).any (fun s₃ => decide (s₃.pool[i]? = some [.acquireRecv job count]) &&
            ((machine cfg).runWithin i (fun t => t.head?.any (fun op => decide (t = [op]) && decide (op.looked job count))) s₃ ls₂).any
              (fun s₄ => decide (s₄.pool[i]? = some [.receive job]) && p s₁ s₄)))))) = true) :
    ∃ s₀ s₁ s₂ s₃ s₄, (machine cfg).Reach (fun _ _ _ => True) initial s₀ ∧ Visit cfg i job [] s₀ s₁ s₂ s₃ s₄ ∧
      s₂.mem.recvCount = count ∧ p s₁ s₄ = true := by
  obtain ⟨s₀, hs₀, h⟩ := (Option.any_eq_true _ _).mp h
  simp only [Bool.and_eq_true, decide_eq_true_eq] at h
  obtain ⟨hi₀, h⟩ := h
  obtain ⟨s₁, hs₁, h⟩ := (Option.any_eq_true _ _).mp h
  simp only [Bool.and_eq_true, decide_eq_true_eq] at h
  obtain ⟨hi₁, h⟩ := h
  obtain ⟨s₂, hs₂, h⟩ := (Option.any_eq_true _ _).mp h
  simp only [Bool.and_eq_true, decide_eq_true_eq] at h
  obtain ⟨rfl, h⟩ := h
  obtain ⟨s₃, hs₃, h⟩ := (Option.any_eq_true _ _).mp h
  simp only [Bool.and_eq_true, decide_eq_true_eq] at h
  obtain ⟨hi₃, h⟩ := h
  obtain ⟨s₄, hs₄, h⟩ := (Option.any_eq_true _ _).mp h
  simp only [Bool.and_eq_true, decide_eq_true_eq] at h
  have hload : (machine cfg).Within i (· = [.loadCount job]) s₁ s₂ :=
    Machine.Within.run (fun t ht => of_decide_eq_true ht) ls₁ (.init hi₁ rfl) hs₂
  obtain ⟨t, hi₂, rfl⟩ := hload.thread
  refine ⟨s₀, s₁, s₂, s₃, s₄, Machine.Reach.run (fun _ _ _ _ => trivial) ls .init hs₀,
    ⟨hi₀, Machine.step_of_stepAt_act hi₀ hs₁, hload, Machine.step_of_stepAt_act hi₂ hs₃, ?_, h.1⟩, rfl, h.2⟩
  refine Machine.Within.run (q := fun t => t.head?.any (fun op => decide (t = [op]) && decide (op.looked job s₂.mem.recvCount)))
    (fun t ht => ?_) ls₂ (.init hi₃ ⟨_, rfl, rfl, rfl⟩) hs₄
  obtain ⟨op, -, hop⟩ := (Option.any_eq_true _ _).mp ht
  simp only [Bool.and_eq_true, decide_eq_true_eq] at hop
  exact ⟨op, hop.1, hop.2⟩

/-- Two readers: the second one reads `_recv_count` before anything arrives, and gets the receive lock after the first was cancelled. -/
theorem receive_misses_nothing_two :
    ∃ s₀ s₁ s₂ s₃ s₄, (machine ⟨false, false⟩).Reach (fun _ _ _ => True) initial s₀ ∧ Visit ⟨false, false⟩ 2 .dance [] s₀ s₁ s₂ s₃ s₄ ∧
      s₁.mem.writes = 0 ∧ s₄.mem.writes = s₁.mem.writes := by
  obtain ⟨s₀, s₁, s₂, s₃, s₄, h, hv, hc, hp⟩ := exists_visit ⟨false, false⟩ 2 .dance 0
    (List.flatten [[.call .handshake, .act 0 .go, .act 0 (.step [] false), .act 0 .go, .call .receiveSome, .call .receiveSome, .act 1 .go,
      .act 2 .go, .act 1 (.step [] true)], List.replicate 4 (.act 1 .go)])
    [.act 1 .cancel] [.act 2 .go, .act 1 .go, .act 2 .go, .act 2 .go]
    (fun s₁ _ => decide (s₁.mem.writes = 0)) (by decide)
  refine ⟨s₀, s₁, s₂, s₃, s₄, h, hv, of_decide_eq_true hp, ?_⟩
  exact (receive_misses_nothing_iff ⟨false, false⟩ 2 .dance [] s₀ s₁ s₂ s₃ s₄ h hv).mpr (hc ▸ Nat.zero_le _)

/-- The first of two readers receives between the step of the second one and its look at `_recv_count`: the second one receives from the
transport though what it waits for is in the ingress BIO. -/
theorem receive_misses_write :
    ∃ s₀ s₁ s₂ s₃ s₄, (machine ⟨false, false⟩).Reach (fun _ _ _ => True) initial s₀ ∧ Visit ⟨false, false⟩ 2 .dance [] s₀ s₁ s₂ s₃ s₄ ∧
      s₁.mem.writes = 0 ∧ s₄.mem.writes = 1 := by
  obtain ⟨s₀, s₁, s₂, s₃, s₄, h, hv, hc, hp⟩ := exists_visit ⟨false, false⟩ 2 .dance 1
    (List.flatten [[.call .handshake, .act 0 .go, .act 0 (.step [] false), .act 0 .go, .call .receiveSome, .call .receiveSome, .act 1 .go,
      .act 2 .go, .act 1 (.step [] true)], List.replicate 4 (.act 1 .go)])
    [.act 1 .go, .act 1 .go, .act 1 .go, .act 1 .go] [.act 2 .go, .act 2 .go, .act 2 .go]
    (fun s₁ s₄ => decide (s₁.mem.writes = 0) && decide (s₄.mem.writes = 1)) (by decide)
  simp only [Bool.and_eq_true, decide_eq_true_eq] at hp
  exact ⟨s₀, s₁, s₂, s₃, s₄, h, hv, hp.1, hp.2⟩

end Tonio.Tls
