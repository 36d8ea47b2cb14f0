import Tonio.Subprocess
import Tonio.Interleaving.Progress

/-!
# The caller, its tasks and the pipes

`run_process` opens its pipes, spawns its tasks, and waits; a task handles one stream, once (`Roles`). An end made for the child is closed
before the tasks are spawned (`Ends`). What has been written into an output is what its task has collected and what is in the pipe (`Flow`), and
a task that is over has seen the end of its stream (`Over`).
-/

namespace Tonio.Subprocess

open Interleaving

variable {K : Kernel} {cfg : Config} {m m' : Mem} {A B new ops : List Op} {op : Op} {c : Choice} {l : Call} {s : State Mem Op} {e : Stdio}

/-! ## The steps -/

/-- What an operation does. -/
inductive Move (K : Kernel) (cfg : Config) (m : Mem) : Op → Choice → Mem → List Op → Prop
  | popen : Move K cfg m .popen .go { m with child := .running, held := fun e => if cfg.piped e then 1 else 0 } [.unwind [] (pipes cfg) false]
  | popenRaises : Move K cfg m .popen .raises m [.unwind (pipes cfg) (pipes cfg) true]
  | closeStream (e : Stdio) (streams ends : List Stdio) (failed : Bool) :
      Move K cfg m (.unwind (e :: streams) ends failed) .go { m with stream := Function.update m.stream e false } [.unwind streams ends failed]
  | closeEnd (e : Stdio) (ends : List Stdio) (failed : Bool) :
      Move K cfg m (.unwind [] (e :: ends) failed) .go { m with childEnd := Function.update m.childEnd e false } [.unwind [] ends failed]
  | unwound (failed : Bool) : Move K cfg m (.unwind [] [] failed) .go m [if failed then .raises .popenError else .spawn]
  | spawn : Move K cfg m .spawn .go { m with spawned := tasks cfg } [.wait]
  | wait {status : Int} (hchild : m.child = .exited status) : Move K cfg m .wait .go m [.join]
  | waitLeave : Move K cfg m .wait .leave m [.raises .cancelled]
  | join {status : Int} (hchild : m.child = .exited status) (hacks : m.acks = (tasks cfg).length) :
      Move K cfg m .join .go { m with outcome := some (m.conclude cfg status) } []
  | joinLeave : Move K cfg m .join .leave m [.raises .cancelled]
  | raises (o : Outcome) : Move K cfg m (.raises o) .go { m with outcome := some o } []
  | send (sent n : Nat) (hatt : m.attached .stdin)
      (hadmits : K.admits (K.capacity - (m.data .stdin).length) n ((cfg.input.getD []).length - sent) = true) :
      Move K cfg m (.sendAll sent) (.moved n)
        { m with data := Function.update m.data .stdin (m.data .stdin ++ ((cfg.input.getD []).drop sent).take n) } (feeding cfg (sent + n))
  | broken (sent : Nat) (hatt : ¬m.attached .stdin) : Move K cfg m (.sendAll sent) .broken m [.close .stdin]
  | sendRaises (sent : Nat) : Move K cfg m (.sendAll sent) .raises { m with errs := m.errs + 1 } [.close .stdin]
  | receive (e : Stdio) (n : Nat) (hn : 0 < n) (hle : n ≤ (m.data e).length) :
      Move K cfg m (.receiveSome e) (.moved n)
        { m with
          data := Function.update m.data e ((m.data e).drop n)
          chunks := Function.update m.chunks e (m.chunks e ++ [(m.data e).take n]) } [.receiveSome e]
  | eof (e : Stdio) (hdata : m.data e = []) (hatt : ¬m.attached e) : Move K cfg m (.receiveSome e) .eof m [.close e]
  | receiveRaises (e : Stdio) : Move K cfg m (.receiveSome e) .raises { m with errs := m.errs + 1 } [.close e]
  | close (e : Stdio) : Move K cfg m (.close e) .go { m with stream := Function.update m.stream e false } [.ack e]
  | ack (e : Stdio) : Move K cfg m (.ack e) .go { m with acks := m.acks + 1 } []

/-- Every step is one of these. -/
theorem exec_move (he : exec K cfg m op c = some (m', new)) : Move K cfg m op c m' new := by
  unfold exec at he
  split at he
  case h_1 | h_2 | h_3 | h_4 | h_5 | h_6 | h_8 | h_10 | h_11 | h_14 | h_17 | h_18 | h_19 =>
    obtain ⟨rfl, rfl⟩ := Prod.mk.inj (Option.some.inj he)
    constructor
  case h_7 =>
    split at he
    · rename_i hchild
      obtain ⟨rfl, rfl⟩ := Prod.mk.inj (Option.some.inj he)
      exact .wait hchild
    · cases he
  case h_9 =>
    split at he
    · rename_i status hchild
      split at he
      · rename_i hacks
        obtain ⟨rfl, rfl⟩ := Prod.mk.inj (Option.some.inj he)
        exact .join hchild hacks
      · cases he
    · cases he
  case h_12 sent n =>
    split at he
    · rename_i h
      obtain ⟨rfl, rfl⟩ := Prod.mk.inj (Option.some.inj he)
      exact .send sent n h.1 h.2
    · cases he
  case h_13 sent =>
    split at he
    · cases he
    · rename_i hatt
      obtain ⟨rfl, rfl⟩ := Prod.mk.inj (Option.some.inj he)
      exact .broken sent hatt
  case h_15 e n =>
    split at he
    · rename_i h
      obtain ⟨rfl, rfl⟩ := Prod.mk.inj (Option.some.inj he)
      exact .receive e n h.1 h.2.1
    · cases he
  case h_16 e =>
    split at he
    · rename_i h
      obtain ⟨rfl, rfl⟩ := Prod.mk.inj (Option.some.inj he)
      exact .eof e h.1 h.2
    · cases he
  case h_20 => cases he

/-- What the runtime and the processes do. -/
inductive Given (K : Kernel) (cfg : Config) (m : Mem) : Call → Mem → List Op → Prop
  | start (e : Stdio) (hs : e ∈ m.spawned) : Given K cfg m (.start e) { m with spawned := m.spawned.erase e } (task cfg e)
  | write (e : Stdio) (bytes : List UInt8) (hout : e ≠ .stdin) (hheld : 0 < m.held e) :
      Given K cfg m (.write e bytes)
        { m with
          data := Function.update m.data e (m.data e ++ bytes)
          wrote := Function.update m.wrote e (m.wrote e ++ bytes) } []
  | read (n : Nat) (hheld : 0 < m.held .stdin) :
      Given K cfg m (.read n)
        { m with
          data := Function.update m.data .stdin ((m.data .stdin).drop n)
          fed := m.fed ++ (m.data .stdin).take n } []
  | dup (e : Stdio) (hheld : 0 < m.held e) : Given K cfg m (.dup e) { m with held := Function.update m.held e (m.held e + 1) } []
  | drop (e : Stdio) (hheld : 0 < m.held e) : Given K cfg m (.drop e) { m with held := Function.update m.held e (m.held e - 1) } []
  | exit (status : Int) (hchild : m.child = .running) : Given K cfg m (.exit status) { m with child := .exited status } []

/-- Every call is one of these. -/
theorem call_given (hc : call K cfg m l = some (m', new)) : Given K cfg m l m' new := by
  unfold call at hc
  split at hc
  all_goals
    split at hc
    case isFalse => cases hc
    rename_i h
    obtain ⟨rfl, rfl⟩ := Prod.mk.inj (Option.some.inj hc)
  case h_1.isTrue e => exact .start e h
  case h_2.isTrue e bytes => exact .write e bytes h.1 h.2.1
  case h_3.isTrue n => exact .read n h.1
  case h_4.isTrue e => exact .dup e h
  case h_5.isTrue e => exact .drop e h
  case h_6.isTrue status => exact .exit status h

/-! ## The caller and its tasks -/

/-- Operations of the caller. -/
def Op.caller : Op → Nat
  | .popen | .unwind _ _ _ | .spawn | .wait | .join | .raises _ => 1
  | _ => 0

/-- Operations of the caller after which it has yet to spawn its tasks, or does not. -/
def Op.opens : Op → Nat
  | .popen | .unwind _ _ _ | .spawn => 1
  | .raises o => if o = .popenError then 1 else 0
  | _ => 0

/-- The task an operation belongs to. -/
def Op.task : Op → Option Stdio
  | .sendAll _ => some .stdin
  | .receiveSome e | .close e | .ack e => some e
  | _ => none

/-- The tasks have not been spawned. -/
def early (m : Mem) (ops : List Op) : Nat := total Op.opens ops + if m.outcome = some .popenError then 1 else 0

theorem Op.opens_le (op : Op) : op.opens ≤ op.caller := by
  cases op with
  | raises o =>
    simp only [Op.opens, Op.caller]
    split <;> omega
  | _ => simp [Op.opens, Op.caller]

theorem Op.task_of_caller (h : op.caller = 1) : op.task = none := by
  cases op <;> first | rfl | cases h

theorem Op.caller_of_task (h : op.task = some e) : op.caller = 0 := by
  cases op <;> first | rfl | cases h

/-- Nothing has happened to the tasks as a whole. -/
structure Same (m m' : Mem) : Prop where
  spawned : m'.spawned = m.spawned
  acks : m'.acks = m.acks
  outcome : m'.outcome = m.outcome

/-- What an operation does as a part of the whole. -/
inductive Part (cfg : Config) (m : Mem) : Op → Mem → List Op → Prop
  | caller {op y : Op} {m' : Mem} (hop : op.caller = 1) (hy : y.caller = 1) (hopens : y.opens = op.opens) (hsame : Same m m') :
      Part cfg m op m' [y]
  | spawn : Part cfg m .spawn { m with spawned := tasks cfg } [.wait]
  | ends {op : Op} {o : Outcome} (hop : op.caller = 1) (hopens : op.opens = if o = .popenError then 1 else 0) :
      Part cfg m op { m with outcome := some o } []
  | task {op y : Op} {m' : Mem} {e : Stdio} (hop : op.task = some e) (hy : y.task = some e)
      (hout : ∀ e, y = .receiveSome e → op = .receiveSome e) (hsame : Same m m') : Part cfg m op m' [y]
  | ack (e : Stdio) : Part cfg m (.ack e) { m with acks := m.acks + 1 } []

theorem feeding_task (cfg : Config) (sent : Nat) :
    ∃ y, feeding cfg sent = [y] ∧ y.task = some .stdin ∧ ∀ e, y ≠ .receiveSome e := by
  unfold feeding
  split
  · exact ⟨_, rfl, rfl, by simp⟩
  · exact ⟨_, rfl, rfl, by simp⟩

theorem task_task (cfg : Config) (e : Stdio) :
    ∃ y, task cfg e = [y] ∧ y.task = some e ∧ ∀ e, y = .receiveSome e → e ≠ .stdin := by
  cases e with
  | stdin =>
    obtain ⟨y, hy, ht, hr⟩ := feeding_task cfg 0
    exact ⟨y, hy, ht, fun e h => absurd h (hr e)⟩
  | stdout => exact ⟨_, rfl, rfl, by rintro _ ⟨⟩; decide⟩
  | stderr => exact ⟨_, rfl, rfl, by rintro _ ⟨⟩; decide⟩

theorem conclude_ne (cfg : Config) (m : Mem) (status : Int) : m.conclude cfg status ≠ .popenError := by
  unfold Mem.conclude
  split
  · simp
  · split <;> simp

/-- Every step has its part. -/
theorem Move.part (h : Move K cfg m op c m' new) : Part cfg m op m' new := by
  cases h with
  | popen | popenRaises | closeStream | closeEnd | wait | waitLeave | joinLeave => exact .caller rfl rfl rfl ⟨rfl, rfl, rfl⟩
  | unwound failed => exact .caller rfl (by cases failed <;> rfl) (by cases failed <;> rfl) ⟨rfl, rfl, rfl⟩
  | spawn => exact .spawn
  | join => exact .ends rfl (if_neg (conclude_ne cfg m _)).symm
  | raises o => exact .ends rfl rfl
  | send sent n =>
    obtain ⟨y, hy, ht, hr⟩ := feeding_task cfg (sent + n)
    rw [hy]
    exact .task rfl ht (fun e h => absurd h (hr e)) ⟨rfl, rfl, rfl⟩
  | broken | sendRaises | eof | receiveRaises | close => exact .task rfl rfl (by simp) ⟨rfl, rfl, rfl⟩
  | receive => exact .task rfl rfl (fun _ h => h) ⟨rfl, rfl, rfl⟩
  | ack e => exact .ack e

/-- The caller is in one place, and so is each of its tasks; the tasks are spawned together. -/
structure Roles (cfg : Config) (m : Mem) (ops : List Op) : Prop where
  one : total Op.caller ops + m.outcome.isSome.toNat = 1
  opening : 0 < early m ops → (∀ x ∈ ops, x.task = none) ∧ m.spawned = [] ∧ m.acks = 0
  opened : early m ops = 0 → total (fun x => x.task.isSome.toNat) ops + m.spawned.length + m.acks = (tasks cfg).length
  single : ∀ e, total (fun x => isAt x.task e) ops + m.spawned.count e ≤ 1
  member : (∀ x ∈ ops, ∀ e, x.task = some e → e ∈ tasks cfg) ∧ ∀ e ∈ m.spawned, e ∈ tasks cfg
  output : ∀ e, .receiveSome e ∈ ops → e ≠ .stdin

theorem mem_tasks : e ∈ tasks cfg ↔ (e = .stdin ∧ cfg.input.isSome = true) ∨ cfg.captures e = true := by
  have hstdin := cfg.captures_output
  unfold tasks
  cases e <;> by_cases hin : cfg.input.isSome <;> simp [hin, hstdin]

theorem tasks_nodup (cfg : Config) : (tasks cfg).Nodup := by
  unfold tasks
  refine List.nodup_append.mpr ⟨by split <;> simp, List.Nodup.filter _ (by decide), ?_⟩
  intro a ha b hb
  split at ha
  · rw [List.mem_singleton.mp ha]
    rintro rfl
    exact absurd (List.mem_filter.mp hb).1 (by decide)
  · cases ha

/-- Nothing has happened as long as an operation of the caller, or none, takes the place of one. -/
theorem early_step (hm : m'.outcome = m.outcome) (h : total Op.opens new = op.opens) :
    early m' (A ++ (new ++ B)) = early m (A ++ op :: B) := by
  unfold early
  rw [hm, total_step_eq A B op h]

/-- What the caller does when it is the last one to know how the run ends. -/
theorem Roles.open_of_caller (h : Roles cfg m (A ++ op :: B)) (hop : op.caller = 1) : m.outcome = none ∧ ∀ x ∈ A ++ B, x.caller = 0 := by
  have hone := h.one
  have htotal := total_step Op.caller A B [] op
  rw [total_nil, hop] at htotal
  have hsome : m.outcome.isSome.toNat = 0 := by omega
  refine ⟨?_, eq_zero_of_total_le (by omega) hop⟩
  cases ho : m.outcome with
  | none => rfl
  | some o => rw [ho] at hsome; cases hsome

theorem early_ends {o : Outcome} (h : Roles cfg m (A ++ op :: B)) (hop : op.caller = 1)
    (hopens : op.opens = if o = .popenError then 1 else 0) : early { m with outcome := some o } (A ++ ([] ++ B)) = early m (A ++ op :: B) := by
  have hout := (h.open_of_caller hop).1
  have := total_step Op.opens A B [] op
  simp only [early, hout, Option.some.injEq, reduceCtorEq, if_false, total_nil] at this ⊢
  omega

theorem early_task {y : Op} (hop : op.task = some e) (hy : y.task = some e) (hout : m'.outcome = m.outcome) :
    early m' (A ++ ([y] ++ B)) = early m (A ++ op :: B) := by
  have hopens := op.opens_le
  have hyopens := y.opens_le
  rw [Op.caller_of_task hop] at hopens
  rw [Op.caller_of_task hy] at hyopens
  refine early_step hout ?_
  simp only [total_cons, total_nil]
  omega

theorem Roles.exec (h : Roles cfg m (A ++ op :: B)) (hp : Part cfg m op m' new) : Roles cfg m' (A ++ (new ++ B)) := by
  have hone := h.one
  have hcaller := total_step Op.caller A B new op
  have htask := total_step (fun x => x.task.isSome.toNat) A B new op
  have hsingle := fun e => total_step (fun x => isAt x.task e) A B new op
  cases hp with
  | @caller op y m' hop hy hopens hsame =>
    have hnone := Op.task_of_caller hop
    have hynone := Op.task_of_caller hy
    have hearly : early m' (A ++ ([y] ++ B)) = early m (A ++ op :: B) := early_step hsame.outcome (by simpa using hopens)
    simp only [total_cons, total_nil, hop, hy, hnone, hynone, isAt_none, Option.isSome_none, Bool.toNat_false] at hcaller htask hsingle
    refine ⟨?_, ?_, ?_, ?_, ⟨?_, hsame.spawned ▸ h.member.2⟩, ?_⟩
    · rw [hsame.outcome]
      omega
    · intro hlt
      rw [hearly] at hlt
      obtain ⟨hall, hspawned, hacks⟩ := h.opening hlt
      refine ⟨?_, hsame.spawned ▸ hspawned, hsame.acks ▸ hacks⟩
      intro x hx
      rcases Machine.mem_cases op hx with hx | hx
      · rw [List.mem_singleton.mp hx, hynone]
      · exact hall x hx
    · intro hzero
      rw [hearly] at hzero
      have := h.opened hzero
      rw [hsame.spawned, hsame.acks]
      omega
    · intro e
      have h1 := h.single e
      have h2 := hsingle e
      rw [hsame.spawned]
      omega
    · intro x hx e hxe
      rcases Machine.mem_cases op hx with hx | hx
      · rw [List.mem_singleton.mp hx, hynone] at hxe
        cases hxe
      · exact h.member.1 x hx e hxe
    · intro e hx
      rcases Machine.mem_cases op hx with hx | hx
      · rw [← List.mem_singleton.mp hx] at hy
        cases hy
      · exact h.output e hx
  | spawn =>
    have hlt : 0 < early m (A ++ .spawn :: B) := by
      simp only [early, total_append, total_cons, Op.opens]
      omega
    obtain ⟨hall, hspawned, hacks⟩ := h.opening hlt
    obtain ⟨hout, hbeside⟩ := h.open_of_caller rfl
    have hnone : ∀ x ∈ A ++ ([Op.wait] ++ B), x.task = none := by
      intro x hx
      rcases Machine.mem_cases .spawn hx with hx | hx
      · rw [List.mem_singleton.mp hx]
        rfl
      · exact hall x hx
    have hopens : total Op.opens (A ++ ([Op.wait] ++ B)) = 0 := by
      refine total_eq_zero_iff.mpr ?_
      intro x hx
      rcases Machine.mem_beside hx with hx | hx
      · rw [List.mem_singleton.mp hx]
        rfl
      · have := x.opens_le
        have := hbeside x hx
        omega
    have hearly : early { m with spawned := tasks cfg } (A ++ ([Op.wait] ++ B)) = 0 := by
      simp only [early, hopens, hout, reduceCtorEq, if_false]
    refine ⟨?_, ?_, ?_, ?_, ⟨?_, fun e he => he⟩, ?_⟩
    · simp only [total_cons, total_nil, Op.caller] at hcaller
      simp only
      omega
    · intro h
      omega
    · intro _
      have hzero : total (fun x => x.task.isSome.toNat) (A ++ ([Op.wait] ++ B)) = 0 :=
        total_eq_zero_iff.mpr (fun x hx => by rw [hnone x hx]; rfl)
      simp only [hzero, hacks]
      omega
    · intro e
      have hzero : total (fun x => isAt x.task e) (A ++ ([Op.wait] ++ B)) = 0 :=
        total_eq_zero_iff.mpr (fun x hx => by rw [hnone x hx, isAt_none])
      have := List.nodup_iff_count_le_one.mp (tasks_nodup cfg) e
      simp only [hzero]
      omega
    · intro x hx e hxe
      rw [hnone x hx] at hxe
      cases hxe
    · intro e hx
      cases hnone _ hx
  | @ends op o hop hopens =>
    obtain ⟨hout, hbeside⟩ := h.open_of_caller hop
    have hnone := Op.task_of_caller hop
    have hearly := early_ends h hop hopens
    simp only [total_nil, hop, hnone, isAt_none, Option.isSome_none, Bool.toNat_false] at hcaller htask hsingle
    refine ⟨?_, ?_, ?_, ?_, ⟨?_, h.member.2⟩, ?_⟩
    · simp only [hout, Option.isSome_none, Bool.toNat_false] at hone
      simp only [Option.isSome_some, Bool.toNat_true]
      omega
    · intro hlt
      rw [hearly] at hlt
      obtain ⟨hall, hrest⟩ := h.opening hlt
      exact ⟨fun x hx => hall x (Machine.mem_before op (by simpa using hx)), hrest⟩
    · intro hzero
      rw [hearly] at hzero
      have := h.opened hzero
      simp only
      omega
    · intro e
      have h1 := h.single e
      have h2 := hsingle e
      simp only
      omega
    · intro x hx
      exact h.member.1 x (Machine.mem_before op (by simpa using hx))
    · intro e hx
      exact h.output e (Machine.mem_before op (by simpa using hx))
  | @task op y m' e hop hy hout hsame =>
    have hzero := Op.caller_of_task hop
    have hyzero := Op.caller_of_task hy
    have hearly : early m' (A ++ ([y] ++ B)) = early m (A ++ op :: B) := early_task hop hy hsame.outcome
    simp only [total_cons, total_nil, hzero, hyzero, hop, hy, Option.isSome_some, Bool.toNat_true] at hcaller htask hsingle
    refine ⟨?_, ?_, ?_, ?_, ⟨?_, hsame.spawned ▸ h.member.2⟩, ?_⟩
    · rw [hsame.outcome]
      omega
    · intro hlt
      rw [hearly] at hlt
      have := (h.opening hlt).1 op (by simp)
      rw [hop] at this
      cases this
    · intro hz
      rw [hearly] at hz
      have := h.opened hz
      rw [hsame.spawned, hsame.acks]
      omega
    · intro f
      have h1 := h.single f
      have h2 := hsingle f
      rw [hsame.spawned]
      omega
    · intro x hx f hxf
      rcases Machine.mem_cases op hx with hx | hx
      · rw [List.mem_singleton.mp hx, hy] at hxf
        exact h.member.1 op (by simp) f (hop.trans hxf)
      · exact h.member.1 x hx f hxf
    · intro f hx
      rcases Machine.mem_cases op hx with hx | hx
      · exact h.output f (by simp [hout f (List.mem_singleton.mp hx).symm])
      · exact h.output f hx
  | ack e =>
    have hearly : early { m with acks := m.acks + 1 } (A ++ ([] ++ B)) = early m (A ++ .ack e :: B) := early_step rfl rfl
    have hop : (Op.ack e).task = some e := rfl
    simp only [total_nil, Op.caller_of_task hop, hop, Option.isSome_some, Bool.toNat_true] at hcaller htask hsingle
    refine ⟨?_, ?_, ?_, ?_, ⟨?_, h.member.2⟩, ?_⟩
    · simp only
      omega
    · intro hlt
      rw [hearly] at hlt
      cases (h.opening hlt).1 (.ack e) (by simp)
    · intro hz
      rw [hearly] at hz
      have := h.opened hz
      simp only
      omega
    · intro f
      have h1 := h.single f
      have h2 := hsingle f
      simp only
      omega
    · intro x hx
      exact h.member.1 x (Machine.mem_before _ (by simpa using hx))
    · intro f hx
      exact h.output f (Machine.mem_before _ (by simpa using hx))

/-- The tasks are spawned by one operation. -/
theorem Roles.spawns (h : Roles cfg m (A ++ op :: B)) (hp : Part cfg m op m' new) :
    (early m' (A ++ (new ++ B)) = early m (A ++ op :: B) ∧ m'.spawned = m.spawned) ∨ (0 < early m (A ++ op :: B) ∧ m'.spawned = tasks cfg) := by
  cases hp with
  | @caller op y m' hop hy hopens hsame => exact Or.inl ⟨early_step hsame.outcome (by simpa using hopens), hsame.spawned⟩
  | spawn =>
    refine Or.inr ⟨?_, rfl⟩
    simp only [early, total_append, total_cons, Op.opens]
    omega
  | ends hop hopens => exact Or.inl ⟨early_ends h hop hopens, rfl⟩
  | task hop hy _ hsame => exact Or.inl ⟨early_task hop hy hsame.outcome, hsame.spawned⟩
  | ack e => exact Or.inl ⟨early_step rfl rfl, rfl⟩

/-- A worker gets to a task, or nothing has happened to the tasks as a whole. -/
theorem Given.part (h : Given K cfg m l m' new) :
    (∃ e ∈ m.spawned, new = task cfg e ∧ m' = { m with spawned := m.spawned.erase e }) ∨ (new = [] ∧ Same m m') := by
  cases h with
  | start e hs => exact Or.inl ⟨e, hs, rfl, rfl⟩
  | _ => exact Or.inr ⟨rfl, rfl, rfl, rfl⟩

theorem Roles.same (h : Roles cfg m ops) (hs : Same m m') : Roles cfg m' ops := by
  have hearly : early m' ops = early m ops := by rw [early, early, hs.outcome]
  refine ⟨hs.outcome ▸ h.one, ?_, ?_, ?_, hs.spawned ▸ h.member, h.output⟩
  · intro hlt
    rw [hearly] at hlt
    rw [hs.spawned, hs.acks]
    exact h.opening hlt
  · intro hzero
    rw [hearly] at hzero
    rw [hs.spawned, hs.acks]
    exact h.opened hzero
  · intro e
    rw [hs.spawned]
    exact h.single e

theorem Roles.start (h : Roles cfg m ops) (he : e ∈ m.spawned) : Roles cfg { m with spawned := m.spawned.erase e } (ops ++ task cfg e) := by
  obtain ⟨y, hnew, hy, hr⟩ := task_task cfg e
  have hzero := Op.caller_of_task hy
  have hopens := y.opens_le
  have hearly : early { m with spawned := m.spawned.erase e } (ops ++ [y]) = early m ops := by
    simp only [early, total_append, total_cons, total_nil]
    omega
  have hlen := List.length_erase_of_mem he
  have hpos := List.length_pos_of_mem he
  rw [hnew]
  refine ⟨?_, ?_, ?_, ?_, ⟨?_, fun f hf => h.member.2 f (List.mem_of_mem_erase hf)⟩, ?_⟩
  · simpa [hzero] using h.one
  · intro hlt
    rw [hearly] at hlt
    rw [(h.opening hlt).2.1] at he
    cases he
  · intro hz
    rw [hearly] at hz
    have := h.opened hz
    simp only [total_append, total_cons, total_nil, hy, Option.isSome_some, Bool.toNat_true]
    omega
  · intro f
    have hf := h.single f
    simp only [total_append, total_cons, total_nil, hy]
    by_cases hef : f = e
    · subst hef
      rw [List.count_erase_self, isAt_self]
      have := List.count_pos_iff.mpr he
      omega
    · rw [List.count_erase_of_ne hef, isAt_some_of_ne (Ne.symm hef)]
      omega
  · intro x hx f hxf
    rcases List.mem_append.mp hx with hx | hx
    · exact h.member.1 x hx f hxf
    · rw [List.mem_singleton.mp hx, hy] at hxf
      exact Option.some.inj hxf ▸ h.member.2 e he
  · intro f hx
    rcases List.mem_append.mp hx with hx | hx
    · exact h.output f hx
    · exact hr f (List.mem_singleton.mp hx).symm

theorem Roles.reach {ok : Mem → List Op → Act Op Choice Call → Prop} (h : (machine K cfg).Reach ok (initial cfg) s) :
    Roles cfg s.mem s.ops := by
  refine h.invariant (I := Roles cfg) ?_ ?_ ?_
  · refine ⟨rfl, fun _ => ⟨?_, rfl, rfl⟩, ?_, fun e => ?_, ⟨?_, by simp [initial]⟩, ?_⟩
    all_goals simp [initial, State.ops, Op.task, early, Op.opens]
  · intro m A op B c m' new ih _ he
    exact ih.exec (exec_move he).part
  · intro m ops l m' new ih _ hc
    rcases (call_given hc).part with ⟨e, he, rfl, rfl⟩ | ⟨rfl, hs⟩
    · exact ih.start he
    · simpa using ih.same hs

/-! ## The ends of the pipes -/

/-- How far the caller is with what it has made: whether there is no child, the streams it has yet to close if so, and the ends it has yet to
close. -/
structure Stage where
  failed : Bool
  streams : List Stdio
  ends : List Stdio

/-- How far the caller is at an operation of its own. -/
def Op.stage (cfg : Config) : Op → Option Stage
  | .popen => some ⟨true, pipes cfg, pipes cfg⟩
  | .unwind streams ends failed => some ⟨failed, streams, ends⟩
  | .spawn | .wait | .join => some ⟨false, [], []⟩
  | .raises o => some ⟨decide (o = .popenError), [], []⟩
  | _ => none

/-- What is open then. -/
structure Stage.At (t : Stage) (m : Mem) : Prop where
  unborn : m.child = .unborn ↔ t.failed = true
  ends : ∀ e, m.childEnd e = true → e ∈ t.ends
  streams : t.failed = true → ∀ e, m.stream e = true → e ∈ t.streams

/-- The caller is as far as the operation says, or as the end of the run does. Only pipes have ends. -/
structure Ends (cfg : Config) (m : Mem) (ops : List Op) : Prop where
  op : ∀ x ∈ ops, ∀ t, x.stage cfg = some t → t.At m
  outcome : ∀ o, m.outcome = some o → Stage.At ⟨decide (o = .popenError), [], []⟩ m
  piped : ∀ e, m.stream e = true ∨ m.childEnd e = true ∨ 0 < m.held e → cfg.piped e = true

theorem mem_pipes : e ∈ pipes cfg ↔ cfg.piped e = true := by
  unfold pipes
  cases e <;> simp

theorem Op.stage_of_task (h : op.task = some e) : op.stage cfg = none := by
  cases op <;> first | rfl | cases h

theorem Op.stage_of_caller (h : op.caller = 0) : op.stage cfg = none := by
  cases op <;> first | rfl | cases h

/-- The ends are as they were, or fewer of them are open. -/
structure Fewer (m m' : Mem) : Prop where
  unborn : m'.child = .unborn ↔ m.child = .unborn
  ends : ∀ e, m'.childEnd e = true → m.childEnd e = true
  streams : ∀ e, m'.stream e = true → m.stream e = true
  held : ∀ e, 0 < m'.held e → 0 < m.held e

theorem Fewer.refl (m : Mem) : Fewer m m := ⟨Iff.rfl, fun _ h => h, fun _ h => h, fun _ h => h⟩

theorem Stage.At.fewer {t : Stage} (h : t.At m) (hf : Fewer m m') : t.At m' where
  unborn := hf.unborn.trans h.unborn
  ends e he := h.ends e (hf.ends e he)
  streams ht e he := h.streams ht e (hf.streams e he)

theorem Ends.piped_fewer (h : Ends cfg m ops) (hf : Fewer m m') (e : Stdio)
    (he : m'.stream e = true ∨ m'.childEnd e = true ∨ 0 < m'.held e) : cfg.piped e = true := by
  rcases he with he | he | he
  · exact h.piped e (Or.inl (hf.streams e he))
  · exact h.piped e (Or.inr (Or.inl (hf.ends e he)))
  · exact h.piped e (Or.inr (Or.inr (hf.held e he)))

/-- What the caller does takes it from one stage to the next. -/
theorem Ends.caller {y : Op} {t : Stage} (hr : Roles cfg m (A ++ op :: B)) (hop : op.caller = 1)
    (hout : m'.outcome = m.outcome) (hy : y.stage cfg = some t) (ht : t.At m')
    (hpiped : ∀ e, m'.stream e = true ∨ m'.childEnd e = true ∨ 0 < m'.held e → cfg.piped e = true) : Ends cfg m' (A ++ ([y] ++ B)) := by
  obtain ⟨hnone, hbeside⟩ := hr.open_of_caller hop
  refine ⟨?_, fun o ho => ?_, hpiped⟩
  · intro x hx t' hxt
    rcases Machine.mem_beside hx with hx | hx
    · rw [List.mem_singleton.mp hx, hy] at hxt
      exact Option.some.inj hxt ▸ ht
    · rw [Op.stage_of_caller (hbeside x hx)] at hxt
      cases hxt
  · rw [hout, hnone] at ho
    cases ho

/-- A task takes the caller nowhere. -/
theorem Ends.task (h : Ends cfg m (A ++ op :: B)) (hf : Fewer m m') (hout : m'.outcome = m.outcome) (hnew : ∀ y ∈ new, y.stage cfg = none) :
    Ends cfg m' (A ++ (new ++ B)) := by
  refine ⟨?_, fun o ho => (h.outcome o (hout ▸ ho)).fewer hf, h.piped_fewer hf⟩
  intro x hx t hxt
  rcases Machine.mem_cases op hx with hx | hx
  · rw [hnew x hx] at hxt
    cases hxt
  · exact (h.op x hx t hxt).fewer hf

/-- The end of a run. -/
theorem Ends.ends {o : Outcome} (h : Ends cfg m (A ++ op :: B)) (hr : Roles cfg m (A ++ op :: B)) (hop : op.caller = 1)
    (hstage : op.stage cfg = some ⟨decide (o = .popenError), [], []⟩) : Ends cfg { m with outcome := some o } (A ++ ([] ++ B)) := by
  obtain ⟨hnone, hbeside⟩ := hr.open_of_caller hop
  have hf : Fewer m { m with outcome := some o } := ⟨Iff.rfl, fun _ h => h, fun _ h => h, fun _ h => h⟩
  refine ⟨?_, ?_, h.piped_fewer hf⟩
  · intro x hx t hxt
    rw [Op.stage_of_caller (hbeside x (by simpa using hx))] at hxt
    cases hxt
  · intro o' ho
    obtain rfl := Option.some.inj ho
    exact (h.op op (by simp) _ hstage).fewer hf

/-- Closing one of the streams, or of the ends. -/
theorem update_true {f : Stdio → Bool} {e x : Stdio} (h : Function.update f e false x = true) : x ≠ e ∧ f x = true := by
  by_cases hx : x = e
  · subst hx
    rw [Function.update_self] at h
    cases h
  · exact ⟨hx, by rwa [Function.update_of_ne hx] at h⟩

theorem Ends.exec (h : Ends cfg m (A ++ op :: B)) (hr : Roles cfg m (A ++ op :: B)) (hmove : Move K cfg m op c m' new) :
    Ends cfg m' (A ++ (new ++ B)) := by
  have hop : ∀ t, op.stage cfg = some t → t.At m := h.op op (by simp)
  cases hmove with
  | popen =>
    have hat := hop _ rfl
    refine Ends.caller hr rfl rfl rfl ⟨by simp, hat.ends, by simp⟩ ?_
    intro e he
    rcases he with he | he | he
    · exact h.piped e (Or.inl he)
    · exact h.piped e (Or.inr (Or.inl he))
    · by_contra hne
      simp [hne] at he
  | popenRaises => exact Ends.caller hr rfl rfl rfl (hop _ rfl) h.piped
  | closeStream e streams ends failed =>
    have hat := hop _ rfl
    have hf : Fewer m { m with stream := Function.update m.stream e false } :=
      ⟨Iff.rfl, fun _ h => h, fun x hx => (update_true hx).2, fun _ h => h⟩
    refine Ends.caller hr rfl rfl rfl ⟨hat.unborn, hat.ends, ?_⟩ (h.piped_fewer hf)
    intro hfailed x hx
    obtain ⟨hne, hx⟩ := update_true hx
    exact List.mem_of_ne_of_mem hne (hat.streams hfailed x hx)
  | closeEnd e ends failed =>
    have hat := hop _ rfl
    have hf : Fewer m { m with childEnd := Function.update m.childEnd e false } :=
      ⟨Iff.rfl, fun x hx => (update_true hx).2, fun _ h => h, fun _ h => h⟩
    refine Ends.caller hr rfl rfl rfl ⟨hat.unborn, ?_, hat.streams⟩ (h.piped_fewer hf)
    intro x hx
    obtain ⟨hne, hx⟩ := update_true hx
    exact List.mem_of_ne_of_mem hne (hat.ends x hx)
  | unwound failed =>
    refine Ends.caller hr rfl rfl (t := ⟨failed, [], []⟩) ?_ (hop _ rfl) h.piped
    cases failed <;> rfl
  | spawn =>
    have hat := hop _ rfl
    exact Ends.caller hr rfl rfl rfl ⟨hat.unborn, hat.ends, hat.streams⟩ h.piped
  | wait | waitLeave | joinLeave => exact Ends.caller hr rfl rfl rfl (hop _ rfl) h.piped
  | @join status =>
    refine h.ends hr rfl ?_
    rw [decide_eq_false (conclude_ne cfg m status)]
    rfl
  | raises o => exact h.ends hr rfl rfl
  | send sent n =>
    refine h.task ⟨Iff.rfl, fun _ h => h, fun _ h => h, fun _ h => h⟩ rfl ?_
    obtain ⟨y, hy, ht, -⟩ := feeding_task cfg (sent + n)
    rw [hy]
    simpa using Op.stage_of_task ht
  | broken | eof => exact h.task (.refl m) rfl (by simp [Op.stage])
  | sendRaises | receive | receiveRaises | ack =>
    exact h.task ⟨Iff.rfl, fun _ h => h, fun _ h => h, fun _ h => h⟩ rfl (by simp [Op.stage])
  | close e => exact h.task ⟨Iff.rfl, fun _ h => h, fun x hx => (update_true hx).2, fun _ h => h⟩ rfl (by simp [Op.stage])

theorem held_of_update {f : Stdio → Nat} {e x : Stdio} {n : Nat} (he : 0 < f e) (hx : 0 < Function.update f e n x) : 0 < f x := by
  by_cases hxe : x = e
  · exact hxe ▸ he
  · rwa [Function.update_of_ne hxe] at hx

/-- The ends that the processes have come from those they had; the child exits after it was born. -/
theorem Ends.call (h : Ends cfg m ops) (hg : Given K cfg m l m' new) : Ends cfg m' (ops ++ new) := by
  have hf : Fewer m m' := by
    cases hg with
    | start | write | read => exact ⟨Iff.rfl, fun _ h => h, fun _ h => h, fun _ h => h⟩
    | dup e hheld => exact ⟨Iff.rfl, fun _ h => h, fun _ h => h, fun x hx => held_of_update hheld hx⟩
    | drop e hheld => exact ⟨Iff.rfl, fun _ h => h, fun _ h => h, fun x hx => held_of_update hheld hx⟩
    | exit status hchild => exact ⟨by simp [hchild], fun _ h => h, fun _ h => h, fun _ h => h⟩
  have hout : m'.outcome = m.outcome := by
    rcases hg.part with ⟨e, -, -, rfl⟩ | ⟨-, hs⟩
    · rfl
    · exact hs.outcome
  have hnew : ∀ y ∈ new, y.stage cfg = none := by
    intro y hy
    rcases hg.part with ⟨e, -, rfl, -⟩ | ⟨rfl, -⟩
    · obtain ⟨x, hx, ht, -⟩ := task_task cfg e
      rw [hx, List.mem_singleton] at hy
      exact hy ▸ Op.stage_of_task ht
    · cases hy
  refine ⟨?_, fun o ho => (h.outcome o (hout ▸ ho)).fewer hf, h.piped_fewer hf⟩
  intro x hx t hxt
  rcases List.mem_append.mp hx with hx | hx
  · exact (h.op x hx t hxt).fewer hf
  · rw [hnew x hx] at hxt
    cases hxt

theorem Ends.reach {ok : Mem → List Op → Act Op Choice Call → Prop} (h : (machine K cfg).Reach ok (initial cfg) s) :
    Ends cfg s.mem s.ops := by
  refine h.invariant_with (J := Roles cfg) Roles.reach ?_ ?_ ?_
  · refine ⟨?_, by simp [initial], by simp [initial]⟩
    intro x hx t hxt
    rw [List.mem_singleton.mp hx] at hxt
    obtain rfl := Option.some.inj hxt
    exact ⟨by simp [initial], fun e he => mem_pipes.mpr he, fun _ e he => mem_pipes.mpr he⟩
  · intro m A op B c m' new hr ih _ he
    exact ih.exec hr (exec_move he)
  · intro m ops l m' new _ ih _ hc
    exact ih.call (call_given hc)

/-! ## The bytes -/

/-- Before the input is fed. -/
def Unfed (m : Mem) (ops : List Op) : Prop := 0 < early m ops ∨ .stdin ∈ m.spawned

/-- What was written into an output is what its task has collected and what is in the pipe. What was written into stdin is what the processes
have read and what is in the pipe: nothing yet, or as much of the input as the task has sent. -/
structure Flow (cfg : Config) (m : Mem) (ops : List Op) : Prop where
  output : ∀ e, e ≠ .stdin → m.wrote e = (m.chunks e).flatten ++ m.data e
  unfed : Unfed m ops → m.fed ++ m.data .stdin = []
  sent : ∀ sent, .sendAll sent ∈ ops → m.fed ++ m.data .stdin = (cfg.input.getD []).take sent ∧ sent < (cfg.input.getD []).length
  input : m.fed ++ m.data .stdin <+: cfg.input.getD []

/-- The input is not being fed before it is. -/
theorem Roles.unfed (h : Roles cfg m (A ++ op :: B)) (hp : Part cfg m op m' new) (hu : Unfed m' (A ++ (new ++ B))) :
    Unfed m (A ++ op :: B) := by
  unfold Unfed at hu ⊢
  rcases h.spawns hp with ⟨hearly, hspawned⟩ | ⟨hlt, -⟩
  · rwa [hearly, hspawned] at hu
  · exact Or.inl hlt

/-- The task that feeds the input is there once it is being fed. -/
theorem Roles.not_unfed (h : Roles cfg m ops) (hx : op ∈ ops) (hop : op.task = some .stdin) : ¬Unfed m ops := by
  rintro (hu | hu)
  · rw [(h.opening hu).1 op hx] at hop
    cases hop
  · have hone := h.single .stdin
    have hle : isAt op.task .stdin ≤ total (fun x => isAt x.task .stdin) ops := le_total_of_mem (f := fun x => isAt x.task .stdin) hx
    have := List.count_pos_iff.mpr hu
    rw [hop, isAt_self] at hle
    omega

/-- A task has one operation at a time. -/
theorem Roles.beside (h : Roles cfg m (A ++ op :: B)) (hop : op.task = some e) : ∀ x ∈ A ++ B, x.task ≠ some e := by
  have hone := h.single e
  exact fun x hx => key_ne_of_total_le (by omega) hop hx

/-- What moves no bytes of stdin. -/
theorem Flow.keep (h : Flow cfg m (A ++ op :: B)) (hu : Unfed m' (A ++ (new ++ B)) → Unfed m (A ++ op :: B))
    (hnew : ∀ sent, .sendAll sent ∉ new) (hout : ∀ e, e ≠ .stdin → m'.wrote e = (m'.chunks e).flatten ++ m'.data e)
    (hin : m'.fed ++ m'.data .stdin = m.fed ++ m.data .stdin) : Flow cfg m' (A ++ (new ++ B)) := by
  refine ⟨hout, fun h' => hin ▸ h.unfed (hu h'), ?_, hin ▸ h.input⟩
  intro sent hx
  rw [hin]
  rcases Machine.mem_cases op hx with hx | hx
  · exact absurd hx (hnew sent)
  · exact h.sent sent hx

theorem Flow.exec (h : Flow cfg m (A ++ op :: B)) (hr : Roles cfg m (A ++ op :: B)) (hmove : Move K cfg m op c m' new) :
    Flow cfg m' (A ++ (new ++ B)) := by
  have hu : Unfed m' (A ++ (new ++ B)) → Unfed m (A ++ op :: B) := hr.unfed hmove.part
  cases hmove with
  | unwound failed => exact h.keep hu (by cases failed <;> simp) h.output rfl
  | send sent n hatt hadmits =>
    have hmem : Op.sendAll sent ∈ A ++ .sendAll sent :: B := by simp
    obtain ⟨hsent, hlt⟩ := h.sent sent hmem
    have htake : m.fed ++ (m.data .stdin ++ ((cfg.input.getD []).drop sent).take n) = (cfg.input.getD []).take (sent + n) := by
      rw [← List.append_assoc, hsent, List.take_add]
    refine ⟨?_, ?_, ?_, ?_⟩
    · intro e he
      simp only [Function.update_of_ne he]
      exact h.output e he
    · intro h'
      exact absurd (hu h') (hr.not_unfed hmem rfl)
    · intro sent' hx
      simp only [Function.update_self, htake]
      rcases Machine.mem_beside hx with hx | hx
      · unfold feeding at hx
        split at hx
        · obtain rfl : sent' = sent + n := by simpa using hx
          exact ⟨rfl, by assumption⟩
        · simp at hx
      · exact absurd rfl (hr.beside rfl (.sendAll sent') hx)
    · simp only [Function.update_self, htake]
      exact List.take_prefix _ _
  | receive e n hn hle =>
    have hne : e ≠ .stdin := hr.output e (by simp)
    refine h.keep hu (by simp) ?_ ?_
    · intro x hx
      by_cases hxe : x = e
      · subst hxe
        simp only [Function.update_self, List.flatten_append, List.flatten_singleton, List.append_assoc, List.take_append_drop]
        exact h.output x hx
      · simp only [Function.update_of_ne hxe]
        exact h.output x hx
    · simp only [Function.update_of_ne hne.symm]
  | _ => exact h.keep hu (by simp) h.output rfl

theorem Flow.call (h : Flow cfg m ops) (hg : Given K cfg m l m' new) : Flow cfg m' (ops ++ new) := by
  cases hg with
  | start e hs =>
    obtain ⟨y, hnew, hy, hout⟩ := task_task cfg e
    have hopens := y.opens_le
    rw [Op.caller_of_task hy] at hopens
    refine ⟨h.output, ?_, ?_, h.input⟩
    · rintro (hu | hu)
      · refine h.unfed (Or.inl ?_)
        simp only [hnew, early, total_append, total_cons, total_nil] at hu ⊢
        omega
      · exact h.unfed (Or.inr (List.mem_of_mem_erase hu))
    · intro sent hx
      rcases List.mem_append.mp hx with hx | hx
      · exact h.sent sent hx
      · have hyx : y = .sendAll sent := by
          rw [hnew] at hx
          exact (List.mem_singleton.mp hx).symm
        obtain rfl : e = .stdin := by
          rw [hyx] at hy
          exact (Option.some.inj hy).symm
        simp only [task, feeding] at hx
        split at hx
        · obtain rfl : sent = 0 := by simpa using hx
          rw [List.take_zero]
          exact ⟨h.unfed (Or.inr hs), by assumption⟩
        · simp at hx
  | write e bytes hout hheld =>
    simp only [List.append_nil]
    refine ⟨?_, ?_, ?_, ?_⟩
    · intro x hx
      by_cases hxe : x = e
      · subst hxe
        simp only [Function.update_self, h.output x hx, List.append_assoc]
      · simp only [Function.update_of_ne hxe]
        exact h.output x hx
    all_goals simp only [Function.update_of_ne hout.symm]
    · exact h.unfed
    · exact h.sent
    · exact h.input
  | read n hheld =>
    simp only [List.append_nil]
    have hmoved : (m.fed ++ (m.data .stdin).take n) ++ (m.data .stdin).drop n = m.fed ++ m.data .stdin := by
      rw [List.append_assoc, List.take_append_drop]
    refine ⟨?_, ?_, ?_, ?_⟩
    · intro x hx
      simp only [Function.update_of_ne hx]
      exact h.output x hx
    all_goals simp only [Function.update_self, hmoved]
    · exact h.unfed
    · exact h.sent
    · exact h.input
  | _ => simpa using ⟨h.output, h.unfed, h.sent, h.input⟩

theorem Flow.reach {ok : Mem → List Op → Act Op Choice Call → Prop} (h : (machine K cfg).Reach ok (initial cfg) s) :
    Flow cfg s.mem s.ops := by
  refine h.invariant_with (J := Roles cfg) Roles.reach ?_ ?_ ?_
  · refine ⟨fun _ _ => rfl, fun _ => rfl, ?_, List.nil_prefix⟩
    intro sent hx
    cases List.mem_singleton.mp hx
  · intro m A op B c m' new hr ih _ he
    exact ih.exec hr (exec_move he)
  · intro m ops l m' new _ ih _ hc
    exact ih.call (call_given hc)

/-! ## The ends of the tasks -/

/-- The stream an operation moves bytes of. -/
def Op.works : Op → Option Stdio
  | .sendAll _ => some .stdin
  | .receiveSome e => some e
  | _ => none

/-- A task that is over has failed, or it has sent its input or found nobody to read it, or it has seen the end of its output. -/
inductive Mem.Over (cfg : Config) (m : Mem) : Stdio → Prop
  | failed {e : Stdio} (h : m.errs ≠ 0) : Mem.Over cfg m e
  | sent (h : m.fed ++ m.data .stdin = cfg.input.getD []) : Mem.Over cfg m .stdin
  | broken (h : ¬m.attached .stdin) : Mem.Over cfg m .stdin
  | eof {e : Stdio} (hne : e ≠ .stdin) (hdata : m.data e = []) (hatt : ¬m.attached e) : Mem.Over cfg m e

/-- Once the tasks are spawned, each has yet to begin, or it moves bytes, or it is over, and then its stream is closed or about to be. -/
def Attended (cfg : Config) (m : Mem) (ops : List Op) : Prop :=
  ∀ e ∈ tasks cfg, 0 < early m ops ∨ e ∈ m.spawned ∨ (∃ x ∈ ops, x.works = some e) ∨ (m.Over cfg e ∧ (.close e ∈ ops ∨ m.stream e = false))

/-- What is over stays so if no bytes are added to what it has seen the end of. -/
theorem Mem.Over.keep (h : m.Over cfg e) (herrs : m.errs ≤ m'.errs) (hdata : e ≠ .stdin → m.data e = [] → ¬m.attached e → m'.data e = [])
    (hin : m'.fed ++ m'.data .stdin = m.fed ++ m.data .stdin) (hatt : ∀ e, m'.attached e → m.attached e) : m'.Over cfg e := by
  cases h with
  | failed h => exact .failed (by omega)
  | sent h => exact .sent (hin.trans h)
  | broken h => exact .broken (fun h' => h (hatt _ h'))
  | eof hne hd ha => exact .eof hne (hdata hne hd ha) (fun h' => ha (hatt _ h'))

/-- What is over stays so whatever the caller and its tasks do. -/
theorem Mem.Over.exec (h : m.Over cfg e) (hr : Roles cfg m (A ++ op :: B)) (hF : Flow cfg m (A ++ op :: B)) (hmove : Move K cfg m op c m' new)
    (hpopen : op ≠ .popen) : m'.Over cfg e := by
  cases hmove with
  | popen => exact absurd rfl hpopen
  | closeEnd x => exact h.keep (Nat.le_refl _) (fun _ h _ => h) rfl (fun y hy => hy.imp_left (fun hy => (update_true hy).2))
  | send sent n hatt hadmits =>
    obtain ⟨hsent, hlt⟩ := hF.sent sent (by simp)
    cases h with
    | failed h => exact .failed h
    | sent h =>
      have hlen := congrArg List.length (hsent.symm.trans h)
      rw [List.length_take] at hlen
      omega
    | broken h => exact absurd hatt h
    | eof hne hd ha => exact .eof hne (by simpa only [Function.update_of_ne hne] using hd) ha
  | receive x n hn hle =>
    have hne : x ≠ .stdin := hr.output x (by simp)
    refine h.keep (Nat.le_refl _) ?_ (by simp only [Function.update_of_ne hne.symm]) (fun _ h => h)
    intro _ hd _
    by_cases hex : e = x
    · subst hex
      simp only [Function.update_self, hd, List.drop_nil]
    · simpa only [Function.update_of_ne hex] using hd
  | sendRaises | receiveRaises => exact h.keep (Nat.le_succ _) (fun _ h _ => h) rfl (fun _ h => h)
  | _ => exact h.keep (Nat.le_refl _) (fun _ h _ => h) rfl (fun _ h => h)

/-- What is over stays so whatever the processes do. -/
theorem Mem.Over.call (h : m.Over cfg e) (hg : Given K cfg m l m' new) : m'.Over cfg e := by
  cases hg with
  | write x bytes hout hheld =>
    refine h.keep (Nat.le_refl _) ?_ (by simp only [Function.update_of_ne hout.symm]) (fun _ h => h)
    intro _ hd ha
    by_cases hex : e = x
    · subst hex
      exact absurd (Or.inr hheld) ha
    · simpa only [Function.update_of_ne hex] using hd
  | read n hheld =>
    refine h.keep (Nat.le_refl _) ?_ ?_ (fun _ h => h)
    · intro hne hd _
      simpa only [Function.update_of_ne hne] using hd
    · simp only [Function.update_self, List.append_assoc, List.take_append_drop]
  | dup x hheld | drop x hheld =>
    exact h.keep (Nat.le_refl _) (fun _ h _ => h) rfl (fun y hy => hy.imp_right (fun hy => held_of_update hheld hy))
  | _ => exact h.keep (Nat.le_refl _) (fun _ h _ => h) rfl (fun _ h => h)

/-- A closed stream stays closed, and one that is to be closed is until it is. -/
theorem Move.closed (hmove : Move K cfg m op c m' new) (h : .close e ∈ A ++ op :: B ∨ m.stream e = false) :
    .close e ∈ A ++ (new ++ B) ∨ m'.stream e = false := by
  have hstream : m.stream e = false → m'.stream e = false := by
    intro hfalse
    cases hmove with
    | closeStream x | close x =>
      refine Bool.eq_false_iff.mpr (fun hx => ?_)
      rw [(update_true hx).2] at hfalse
      cases hfalse
    | _ => exact hfalse
  rcases h with h | h
  · by_cases hop : .close e = op
    · subst hop
      cases hmove
      exact Or.inr (Function.update_self _ _ _)
    · exact Or.inl (Machine.mem_keep h hop)
  · exact Or.inr (hstream h)

/-- What a task that moves bytes does next: it moves more, or it is over and closes its stream. -/
theorem Move.works (hmove : Move K cfg m op c m' new) (hF : Flow cfg m (A ++ op :: B)) (hop : op.works = some e) (hout : ∀ e, op = .receiveSome e → e ≠ .stdin) :
    (∃ x ∈ new, x.works = some e) ∨ (m'.Over cfg e ∧ .close e ∈ new) := by
  cases hmove <;> simp only [Op.works, Option.some.injEq, reduceCtorEq] at hop
  case send sent n hatt hadmits =>
    subst hop
    obtain ⟨hsent, hlt⟩ := hF.sent sent (by simp)
    unfold feeding
    split
    · exact Or.inl ⟨_, List.mem_singleton_self _, rfl⟩
    · refine Or.inr ⟨.sent ?_, List.mem_singleton_self _⟩
      simp only [Function.update_self]
      rw [← List.append_assoc, hsent, ← List.take_add, List.take_of_length_le (by omega)]
  case broken sent hatt =>
    subst hop
    exact Or.inr ⟨.broken hatt, List.mem_singleton_self _⟩
  case sendRaises =>
    subst hop
    exact Or.inr ⟨.failed (Nat.succ_ne_zero _), List.mem_singleton_self _⟩
  case receive =>
    subst hop
    exact Or.inl ⟨_, List.mem_singleton_self _, rfl⟩
  case eof hdata hatt =>
    subst hop
    exact Or.inr ⟨.eof (hout _ rfl) hdata hatt, List.mem_singleton_self _⟩
  case receiveRaises =>
    subst hop
    exact Or.inr ⟨.failed (Nat.succ_ne_zero _), List.mem_singleton_self _⟩

theorem Attended.exec (h : Attended cfg m (A ++ op :: B)) (hr : Roles cfg m (A ++ op :: B)) (hF : Flow cfg m (A ++ op :: B))
    (hmove : Move K cfg m op c m' new) : Attended cfg m' (A ++ (new ++ B)) := by
  intro e he
  by_cases hlt : 0 < early m' (A ++ (new ++ B))
  · exact Or.inl hlt
  refine Or.inr ?_
  rcases hr.spawns hmove.part with ⟨hearly, hspawned⟩ | ⟨-, hspawned⟩
  · have hzero : early m (A ++ op :: B) = 0 := by omega
    rcases h e he with h | h | ⟨x, hx, hw⟩ | ⟨hover, hclosed⟩
    · omega
    · exact Or.inl (hspawned ▸ h)
    · by_cases hxo : x = op
      · subst hxo
        have hout : ∀ f, x = .receiveSome f → f ≠ .stdin := fun f hf => hr.output f (by simp [hf])
        rcases hmove.works hF hw hout with ⟨y, hy, hyw⟩ | ⟨hover, hclose⟩
        · exact Or.inr (Or.inl ⟨y, Machine.mem_new hy, hyw⟩)
        · exact Or.inr (Or.inr ⟨hover, Or.inl (Machine.mem_new hclose)⟩)
      · exact Or.inr (Or.inl ⟨x, Machine.mem_keep hx hxo, hw⟩)
    · refine Or.inr (Or.inr ⟨hover.exec hr hF hmove ?_, hmove.closed hclosed⟩)
      rintro rfl
      simp only [early, total_append, total_cons, Op.opens] at hzero
      omega
  · exact Or.inl (hspawned ▸ he)

/-- A task begins: it moves bytes, or it has no input to send. -/
theorem Flow.start (h : Flow cfg m ops) (he : e ∈ m.spawned) :
    (∃ x ∈ task cfg e, x.works = some e) ∨ (m.Over cfg e ∧ .close e ∈ task cfg e) := by
  cases e with
  | stdin =>
    simp only [task, feeding]
    split
    · exact Or.inl ⟨_, List.mem_singleton_self _, rfl⟩
    · rename_i hlen
      have hnil : cfg.input.getD [] = [] := List.eq_nil_of_length_eq_zero (by omega)
      exact Or.inr ⟨.sent (by rw [h.unfed (Or.inr he), hnil]), List.mem_singleton_self _⟩
  | stdout => exact Or.inl ⟨_, List.mem_singleton_self _, rfl⟩
  | stderr => exact Or.inl ⟨_, List.mem_singleton_self _, rfl⟩

theorem Attended.call (h : Attended cfg m ops) (hF : Flow cfg m ops) (hg : Given K cfg m l m' new) : Attended cfg m' (ops ++ new) := by
  have hstream : m'.stream = m.stream := by cases hg <;> rfl
  intro e he
  rcases h e he with hlt | h | ⟨x, hx, hw⟩ | ⟨hover, hclosed⟩
  · refine Or.inl ?_
    have hout : m'.outcome = m.outcome := by cases hg <;> rfl
    simp only [early, total_append, hout] at hlt ⊢
    omega
  · rcases hg.part with ⟨x, hx, rfl, rfl⟩ | ⟨rfl, hs⟩
    · by_cases hex : e = x
      · subst hex
        rcases hF.start h with ⟨y, hy, hw⟩ | ⟨hover, hclose⟩
        · exact Or.inr (Or.inr (Or.inl ⟨y, List.mem_append_right _ hy, hw⟩))
        · exact Or.inr (Or.inr (Or.inr ⟨hover.call hg, Or.inl (List.mem_append_right _ hclose)⟩))
      · exact Or.inr (Or.inl ((List.mem_erase_of_ne hex).mpr h))
    · exact Or.inr (Or.inl (hs.spawned ▸ h))
  · exact Or.inr (Or.inr (Or.inl ⟨x, List.mem_append_left _ hx, hw⟩))
  · exact Or.inr (Or.inr (Or.inr ⟨hover.call hg, hclosed.imp (List.mem_append_left _) (fun h => hstream ▸ h)⟩))

/-- The invariants of a run. -/
structure Kept (cfg : Config) (m : Mem) (ops : List Op) : Prop where
  roles : Roles cfg m ops
  ends : Ends cfg m ops
  flow : Flow cfg m ops
  attended : Attended cfg m ops

theorem Kept.reach {ok : Mem → List Op → Act Op Choice Call → Prop} (h : (machine K cfg).Reach ok (initial cfg) s) :
    Kept cfg s.mem s.ops := by
  refine ⟨Roles.reach h, Ends.reach h, Flow.reach h, ?_⟩
  refine h.invariant_with (J := fun m ops => Roles cfg m ops ∧ Flow cfg m ops) (fun h => ⟨Roles.reach h, Flow.reach h⟩) ?_ ?_ ?_
  · intro e _
    refine Or.inl ?_
    simp [initial, State.ops, early, Op.opens]
  · intro m A op B c m' new hJ ih _ he
    exact ih.exec hJ.1 hJ.2 (exec_move he)
  · intro m ops l m' new hJ ih _ hc
    exact ih.call hJ.2 (call_given hc)

/-! ## What the end of a run says -/

/-- What a task does changes neither the child nor what the processes have written. -/
theorem Move.task (hmove : Move K cfg m op c m' new) (hop : op.caller = 0) : m'.child = m.child ∧ m'.wrote = m.wrote ∧ m.errs ≤ m'.errs := by
  cases hmove with
  | sendRaises | receiveRaises => exact ⟨rfl, rfl, Nat.le_succ _⟩
  | send | broken | receive | eof | close | ack => exact ⟨rfl, rfl, Nat.le_refl _⟩
  | _ => cases hop

theorem update_false {f : Stdio → Bool} (e : Stdio) {x : Stdio} (h : f x = false) : Function.update f e false x = false := by
  by_cases hx : x = e
  · rw [hx, Function.update_self]
  · rwa [Function.update_of_ne hx]

/-- What is finished stays so, whatever the tasks do. -/
theorem Finished.exec (h : Finished cfg m) (hk : Kept cfg m (A ++ op :: B)) (hmove : Move K cfg m op c m' new)
    (hend : ∀ e, m.childEnd e = false) (hop : op.caller = 0) : Finished cfg m' := by
  cases hmove with
  | send sent n hatt hadmits =>
    obtain ⟨hsent, hlt⟩ := hk.flow.sent sent (by simp)
    rcases h.input with hin | hin
    · have hlen := congrArg List.length (hsent.symm.trans hin)
      rw [List.length_take] at hlen
      omega
    · rcases hatt with hatt | hatt
      · rw [hend] at hatt
        cases hatt
      · omega
  | receive e n hn hle =>
    rcases mem_tasks.mp (hk.roles.member.1 (.receiveSome e) (by simp) e rfl) with ⟨rfl, -⟩ | hcap
    · exact absurd rfl (hk.roles.output .stdin (by simp))
    · rw [(h.captured e hcap).2, List.length_nil] at hle
      omega
  | close e => exact ⟨fun x hx => ⟨update_false e (h.closed x hx).1, (h.closed x hx).2⟩, h.captured, h.input⟩
  | broken | eof | sendRaises | receiveRaises | ack => exact ⟨h.closed, h.captured, h.input⟩
  | _ => cases hop

/-- What is finished stays so, whatever the processes do, and what they have written is what they had. -/
theorem Finished.call (h : Finished cfg m) (hg : Given K cfg m l m' new) : Finished cfg m' ∧ ∀ e, m'.written cfg e = m.written cfg e := by
  have hne : ∀ x, 0 < m.held x → ∀ e, cfg.captures e = true → e ≠ x := by
    rintro x hx e hcap rfl
    have := (h.captured e hcap).1
    omega
  cases hg with
  | start => exact ⟨⟨h.closed, h.captured, h.input⟩, fun _ => rfl⟩
  | exit => exact ⟨⟨h.closed, h.captured, h.input⟩, fun _ => rfl⟩
  | write x bytes hout hheld =>
    refine ⟨⟨h.closed, fun e hcap => ?_, ?_⟩, fun e => ?_⟩
    · simpa only [Function.update_of_ne (hne x hheld e hcap)] using h.captured e hcap
    · simpa only [Function.update_of_ne hout.symm] using h.input
    · unfold Mem.written
      split
      · rename_i hcap
        simp only [Function.update_of_ne (hne x hheld e hcap)]
      · rfl
  | read n hheld =>
    refine ⟨⟨h.closed, fun e hcap => ?_, ?_⟩, fun _ => rfl⟩
    · simpa only [Function.update_of_ne (hne .stdin hheld e hcap)] using h.captured e hcap
    · simpa only [Function.update_self, List.append_assoc, List.take_append_drop] using h.input
  | dup x hheld | drop x hheld =>
    refine ⟨⟨h.closed, fun e hcap => ?_, ?_⟩, fun _ => rfl⟩
    · simpa only [Function.update_of_ne (hne x hheld e hcap)] using h.captured e hcap
    · refine h.input.imp_right (fun hin => ?_)
      have hx : Stdio.stdin ≠ x := by rintro rfl; omega
      simpa only [Function.update_of_ne hx] using hin

/-- When the caller has joined its tasks and none has failed, they are finished, and have collected what the processes have written. -/
theorem Kept.finished (hk : Kept cfg m (A ++ .join :: B)) (hacks : m.acks = (tasks cfg).length) (herrs : m.errs = 0) :
    Finished cfg m ∧ ∀ e, m.captured cfg e = m.written cfg e := by
  obtain ⟨hnone, hbeside⟩ := hk.roles.open_of_caller rfl
  have hopens : total Op.opens (A ++ .join :: B) = 0 := by
    refine total_eq_zero_iff.mpr ?_
    intro x hx
    by_cases hxj : x = .join
    · rw [hxj]
      rfl
    · have := x.opens_le
      have := hbeside x (by simpa [hxj] using hx)
      omega
  have hearly : early m (A ++ .join :: B) = 0 := by simp [early, hopens, hnone]
  have hopened := hk.roles.opened hearly
  have hspawned : m.spawned = [] := List.eq_nil_of_length_eq_zero (by omega)
  have htask : ∀ x ∈ A ++ .join :: B, x.task = none := by
    intro x hx
    have := total_eq_zero_iff.mp (show total (fun x : Op => x.task.isSome.toNat) (A ++ .join :: B) = 0 by omega) x hx
    cases hxt : x.task with
    | none => rfl
    | some e => simp [hxt] at this
  have hover : ∀ e ∈ tasks cfg, m.Over cfg e ∧ m.stream e = false := by
    intro e he
    rcases hk.attended e he with h | h | ⟨x, hx, hw⟩ | ⟨hover, hclose | hclosed⟩
    · omega
    · rw [hspawned] at h
      cases h
    · have := htask x hx
      cases x <;> simp [Op.task, Op.works] at this hw
    · cases htask _ hclose
    · exact ⟨hover, hclosed⟩
  have hend : ∀ e, m.childEnd e = false := by
    intro e
    refine Bool.eq_false_iff.mpr (fun he => ?_)
    cases (hk.ends.op .join (by simp) _ rfl).ends e he
  have hcap : ∀ e, cfg.captures e = true → m.held e = 0 ∧ m.data e = [] := by
    intro e hcap
    have hne : e ≠ .stdin := by
      rintro rfl
      rw [cfg.captures_output] at hcap
      cases hcap
    cases (hover e (mem_tasks.mpr (Or.inr hcap))).1 with
    | failed h => exact absurd herrs h
    | sent => exact absurd rfl hne
    | broken => exact absurd rfl hne
    | eof _ hdata hatt => exact ⟨Nat.eq_zero_of_not_pos (fun h => hatt (Or.inr h)), hdata⟩
  refine ⟨⟨fun e he => ⟨(hover e he).2, hend e⟩, hcap, ?_⟩, ?_⟩
  · by_cases hin : cfg.input.isSome = true
    · cases (hover .stdin (mem_tasks.mpr (Or.inl ⟨rfl, hin⟩))).1 with
      | failed h => exact absurd herrs h
      | sent h => exact Or.inl h
      | broken h => exact Or.inr (Nat.eq_zero_of_not_pos (fun h' => h (Or.inr h')))
      | eof h => exact absurd rfl h
    · have hnil : cfg.input.getD [] = [] := by simp [Option.not_isSome_iff_eq_none.mp hin]
      exact Or.inl (List.prefix_nil.mp (hnil ▸ hk.flow.input) ▸ hnil.symm)
  · intro e
    unfold Mem.captured Mem.written
    split
    · rename_i h
      have hne : e ≠ .stdin := by
        rintro rfl
        rw [cfg.captures_output] at h
        cases h
      rw [hk.flow.output e hne, (hcap e h).2, List.append_nil]
    · rfl

/-- The end of the run tells what has happened, and goes on telling it. -/
structure Told (cfg : Config) (m : Mem) (ops : List Op) : Prop where
  join : .join ∈ ops → ∃ status, m.child = .exited status
  raises : ∀ o, .raises o ∈ ops → o = .popenError ∨ o = .cancelled
  tells : ∀ o, m.outcome = some o → m.Tells cfg o

/-- What has been told stays so if the child stays as it is, no output that is captured is written into, and what is finished stays so. -/
theorem Mem.Tells.keep {o : Outcome} (h : m.Tells cfg o) (hchild : ∀ status, m.child = .exited status → m'.child = .exited status)
    (hpopen : o = .popenError → m'.Tells cfg .popenError) (herrs : m.errs ≤ m'.errs)
    (hfin : Finished cfg m → Finished cfg m' ∧ ∀ e, m'.written cfg e = m.written cfg e) : m'.Tells cfg o := by
  cases o with
  | completed status stdout stderr =>
    obtain ⟨hc, hcheck, hout, herr, hf⟩ := h
    obtain ⟨hf', hw⟩ := hfin hf
    exact ⟨hchild _ hc, hcheck, (hw _).symm ▸ hout, (hw _).symm ▸ herr, hf'⟩
  | calledProcessError status output stderr =>
    obtain ⟨hc, hcheck, hstatus, hout, herr, hf⟩ := h
    obtain ⟨hf', hw⟩ := hfin hf
    exact ⟨hchild _ hc, hcheck, hstatus, (hw _).symm ▸ hout, (hw _).symm ▸ herr, hf'⟩
  | spawnExceptionGroup =>
    obtain ⟨⟨status, hc⟩, he⟩ := h
    exact ⟨⟨status, hchild _ hc⟩, by omega⟩
  | popenError => exact hpopen rfl
  | cancelled => trivial

/-- What `popenError` tells is a stage of the caller. -/
theorem Ends.popenError (h : Ends cfg m ops) (ho : m.outcome = some .popenError) : m.Tells cfg .popenError := by
  have hat := h.outcome _ ho
  have hfailed : decide (Outcome.popenError = Outcome.popenError) = true := decide_eq_true rfl
  refine ⟨hat.unborn.mpr hfailed, fun e => ⟨?_, ?_⟩⟩
  · exact Bool.eq_false_iff.mpr (fun he => List.not_mem_nil (hat.streams hfailed e he))
  · exact Bool.eq_false_iff.mpr (fun he => List.not_mem_nil (hat.ends e he))

/-- What the caller returns or raises when its tasks are over tells what has happened. -/
theorem Kept.conclude {status : Int} (hk : Kept cfg m (A ++ .join :: B)) (hchild : m.child = .exited status)
    (hacks : m.acks = (tasks cfg).length) : m.Tells cfg (m.conclude cfg status) := by
  unfold Mem.conclude
  split
  · rename_i herrs
    exact ⟨⟨status, hchild⟩, herrs⟩
  · rename_i herrs
    obtain ⟨hf, hcap⟩ := hk.finished hacks (by omega)
    split
    · rename_i h
      exact ⟨hchild, h.2, h.1, hcap _, hcap _, hf⟩
    · rename_i h
      refine ⟨hchild, fun hcheck => ?_, hcap _, hcap _, hf⟩
      by_contra hne
      exact h ⟨hne, hcheck⟩

/-- The end of a run is told by the operation that ends it. -/
theorem Told.outcome {o : Outcome} (h : Told cfg m (A ++ op :: B)) (hk : Kept cfg m (A ++ op :: B)) (hk' : Kept cfg m' (A ++ (new ++ B)))
    (hmove : Move K cfg m op c m' new) (hop : op.caller = 1) (ho : m'.outcome = some o) : m'.Tells cfg o := by
  have hnone := (hk.roles.open_of_caller hop).1
  cases hmove with
  | @join status hchild hacks =>
    obtain rfl := Option.some.inj ho
    exact (hk.conclude hchild hacks).keep (fun _ h => h) (fun h => absurd h (conclude_ne cfg m status)) (Nat.le_refl _)
      (fun h => ⟨⟨h.closed, h.captured, h.input⟩, fun _ => rfl⟩)
  | raises o' =>
    obtain rfl := Option.some.inj ho
    rcases h.raises o' (by simp) with rfl | rfl
    · exact hk'.ends.popenError rfl
    · trivial
  | send | broken | sendRaises | receive | eof | receiveRaises | close | ack => cases hop
  | _ => cases hnone.symm.trans ho

theorem Told.exec (h : Told cfg m (A ++ op :: B)) (hk : Kept cfg m (A ++ op :: B)) (hk' : Kept cfg m' (A ++ (new ++ B)))
    (hmove : Move K cfg m op c m' new) : Told cfg m' (A ++ (new ++ B)) := by
  refine ⟨?_, ?_, ?_⟩
  · intro hjoin
    rcases Machine.mem_beside hjoin with hx | hx
    · cases hmove with
      | wait hchild => exact ⟨_, hchild⟩
      | unwound failed => cases failed <;> simp at hx
      | send sent n =>
        obtain ⟨y, hy, ht, -⟩ := feeding_task cfg (sent + n)
        rw [hy] at hx
        rw [← List.mem_singleton.mp hx] at ht
        cases ht
      | _ => simp at hx
    · obtain ⟨status, hchild⟩ := h.join (Machine.mem_before op hx)
      have hzero : op.caller = 0 := by
        by_contra hne
        have hop : op.caller = 1 := by cases op <;> first | rfl | exact absurd rfl hne
        cases (hk.roles.open_of_caller hop).2 .join hx
      exact ⟨status, (hmove.task hzero).1.trans hchild⟩
  · intro o ho
    rcases Machine.mem_cases op ho with ho | ho
    · cases hmove with
      | unwound failed => cases failed <;> simp at ho; exact Or.inl ho
      | waitLeave | joinLeave => exact Or.inr (by simpa using ho)
      | send sent n =>
        obtain ⟨y, hy, ht, -⟩ := feeding_task cfg (sent + n)
        rw [hy] at ho
        rw [← List.mem_singleton.mp ho] at ht
        cases ht
      | _ => simp at ho
    · exact h.raises o ho
  · intro o ho
    by_cases hop : op.caller = 1
    · exact h.outcome hk hk' hmove hop ho
    · have hzero : op.caller = 0 := by cases op <;> first | rfl | exact absurd rfl hop
      obtain ⟨hchild, hwrote, herrs⟩ := hmove.task hzero
      have hout : m'.outcome = m.outcome := by
        cases hmove with
        | send | broken | sendRaises | receive | eof | receiveRaises | close | ack => rfl
        | _ => exact absurd rfl hop
      rw [hout] at ho
      refine (h.tells o ho).keep (fun st h => hchild.trans h) ?_ herrs ?_
      · rintro rfl
        exact hk'.ends.popenError (hout.trans ho)
      · intro hf
        refine ⟨hf.exec hk hmove ?_ hzero, fun e => by simp only [Mem.written, hwrote]⟩
        intro e
        exact Bool.eq_false_iff.mpr (fun he => List.not_mem_nil ((hk.ends.outcome o ho).ends e he))

theorem Told.call (h : Told cfg m ops) (hk' : Kept cfg m' (ops ++ new)) (hg : Given K cfg m l m' new) : Told cfg m' (ops ++ new) := by
  have hout : m'.outcome = m.outcome := by cases hg <;> rfl
  have herrs : m'.errs = m.errs := by cases hg <;> rfl
  have hchild : ∀ status, m.child = .exited status → m'.child = .exited status := by
    intro status hs
    cases hg with
    | exit status' hrun =>
      rw [hs] at hrun
      cases hrun
    | _ => exact hs
  have hnew : ∀ x ∈ new, x.caller = 0 := by
    intro x hx
    rcases hg.part with ⟨e, -, rfl, -⟩ | ⟨rfl, -⟩
    · obtain ⟨y, hy, ht, -⟩ := task_task cfg e
      rw [hy, List.mem_singleton] at hx
      exact hx ▸ Op.caller_of_task ht
    · cases hx
  refine ⟨?_, ?_, ?_⟩
  · intro hjoin
    rcases List.mem_append.mp hjoin with hx | hx
    · obtain ⟨status, hs⟩ := h.join hx
      exact ⟨status, hchild status hs⟩
    · cases hnew _ hx
  · intro o ho
    rcases List.mem_append.mp ho with hx | hx
    · exact h.raises o hx
    · cases hnew _ hx
  · intro o ho
    rw [hout] at ho
    refine (h.tells o ho).keep hchild ?_ (le_of_eq herrs.symm) (fun hf => hf.call hg)
    rintro rfl
    exact hk'.ends.popenError (hout.trans ho)

theorem Told.reach {ok : Mem → List Op → Act Op Choice Call → Prop} (h : (machine K cfg).Reach ok (initial cfg) s) :
    Told cfg s.mem s.ops := by
  induction h with
  | init =>
    refine ⟨?_, ?_, by simp [initial]⟩
    · intro hx
      cases List.mem_singleton.mp hx
    · intro o hx
      cases List.mem_singleton.mp hx
  | @step s s' a hr hok hs ih =>
    have hk := Kept.reach hr
    have hk' := Kept.reach (.step hr hok hs)
    rcases hs.ops_eq with ⟨A, op, B, c, new, rfl, ho, he, ho'⟩ | ⟨l, new, rfl, hc, ho'⟩
    · rw [ho] at ih hk
      rw [ho'] at hk' ⊢
      exact ih.exec hk hk' (exec_move he)
    · rw [ho'] at hk' ⊢
      exact ih.call hk' (call_given hc)

/-! ## Who waits for whom -/

/-- An operation does not go on. -/
def Blocked (K : Kernel) (cfg : Config) (m : Mem) (op : Op) : Prop := ∀ c, c ≠ .leave → c ≠ .raises → exec K cfg m op c = none

/-- The system lets something through into an empty pipe. -/
theorem Kernel.exists_admits {remaining : Nat} (h : 0 < remaining) : ∃ n, K.admits K.capacity n remaining = true := by
  have hpos := K.atomic_pos
  have hle := K.atomic_le
  unfold Kernel.admits
  by_cases hlt : K.atomic < remaining
  · exact ⟨1, decide_eq_true ⟨Nat.one_pos, by omega, by omega, Or.inr hlt⟩⟩
  · exact ⟨remaining, decide_eq_true ⟨h, by omega, Nat.le_refl _, Or.inl rfl⟩⟩

/-- What an operation waits for: the child, the other tasks, a process that reads the input, or one that writes an output. -/
inductive Awaits (cfg : Config) (m : Mem) : Op → Prop
  | child (h : ∀ status, m.child ≠ .exited status) : Awaits cfg m .wait
  | tasks (h : ∀ status, m.child = .exited status → m.acks ≠ (tasks cfg).length) : Awaits cfg m .join
  | reader (sent : Nat) (hatt : m.attached .stdin) (hdata : m.data .stdin ≠ []) : Awaits cfg m (.sendAll sent)
  | writer (e : Stdio) (hatt : m.attached e) (hdata : m.data e = []) : Awaits cfg m (.receiveSome e)

theorem Blocked.awaits (h : Blocked K cfg m op) (hsent : ∀ sent, op = .sendAll sent → sent < (cfg.input.getD []).length) : Awaits cfg m op := by
  have hgo := h .go (by decide) (by decide)
  cases op with
  | wait =>
    refine .child (fun status hchild => ?_)
    simp only [exec, hchild, reduceCtorEq] at hgo
  | join =>
    refine .tasks (fun status hchild hacks => ?_)
    simp only [exec, hchild, hacks, if_true, reduceCtorEq] at hgo
  | sendAll sent =>
    have hatt : m.attached .stdin := by
      by_contra hatt
      have hbroken := h .broken (by decide) (by decide)
      simp only [exec, if_neg hatt, reduceCtorEq] at hbroken
    refine .reader sent hatt (fun hdata => ?_)
    have hpos : 0 < (cfg.input.getD []).length - sent := by
      have := hsent sent rfl
      omega
    obtain ⟨n, hn⟩ := K.exists_admits hpos
    have hmoved := h (.moved n) (by simp) (by simp)
    simp only [exec, hdata, List.length_nil, Nat.sub_zero, hn, and_true, if_pos hatt, reduceCtorEq] at hmoved
  | receiveSome e =>
    have hdata : m.data e = [] := by
      by_contra hne
      have hmoved := h (.moved 1) (by simp) (by simp)
      have hlen : 0 < 1 ∧ 1 ≤ (m.data e).length ∧ 1 ≤ 65536 := ⟨Nat.one_pos, List.length_pos_iff.mpr hne, by decide⟩
      simp only [exec, if_pos hlen, reduceCtorEq] at hmoved
    refine .writer e ?_ hdata
    by_contra hatt
    have heof := h .eof (by decide) (by decide)
    simp only [exec, if_pos (And.intro hdata hatt), reduceCtorEq] at heof
  | unwind streams ends failed =>
    cases streams with
    | cons e streams => cases hgo
    | nil => cases ends <;> cases hgo
  | popen | spawn | raises | close | ack => cases hgo

theorem Awaits.opens (h : Awaits cfg m op) : op.opens = 0 := by
  cases h <;> rfl

/-- Every thread has one operation at most. -/
theorem short_of_reach {ok : Mem → List Op → Act Op Choice Call → Prop} (h : (machine K cfg).Reach ok (initial cfg) s) :
    ∀ t ∈ s.pool, t.length ≤ 1 := by
  refine h.short (by simp [initial]) ?_ ?_
  · intro m op c m' new he
    cases (exec_move he).part <;> simp
  · intro m l m' new hc
    rcases (call_given hc).part with ⟨e, -, rfl, -⟩ | ⟨rfl, -⟩
    · obtain ⟨y, hy, -⟩ := task_task cfg e
      simp [hy]
    · simp

/-- Where the caller and its tasks do not go on by themselves, no task has yet to begin, and every operation waits for something. -/
theorem awaits_of_stuck {ok : Mem → List Op → Act Op Choice Call → Prop} (h : (machine K cfg).Reach ok (initial cfg) s)
    (hstuck : ¬∃ a s', Act.own a ∧ (machine K cfg).Step s a s') : s.mem.spawned = [] ∧ ∀ op ∈ s.ops, Awaits cfg s.mem op := by
  refine ⟨List.eq_nil_iff_forall_not_mem.mpr (fun e he => ?_), fun op hop => Blocked.awaits (K := K) ?_ ?_⟩
  · have hc : (machine K cfg).call s.mem (.start e) = some ({ s.mem with spawned := s.mem.spawned.erase e }, task cfg e) := if_pos he
    exact hstuck ⟨.call (.start e), _, trivial, .call hc⟩
  · intro c hleave hraises
    by_contra hne
    obtain ⟨⟨m', new⟩, he⟩ := Option.ne_none_iff_exists'.mp hne
    obtain ⟨s', hs, -⟩ := Machine.exists_step (P := machine K cfg) (short_of_reach h) hop he
    exact hstuck ⟨.exec op c, s', ⟨hleave, hraises⟩, hs⟩
  · rintro sent rfl
    exact ((Kept.reach h).flow.sent sent hop).2

/-- What the task of a stream waits for, where nothing goes on: a process has an end, and the pipe is full or empty; or the stream is closed. -/
theorem Kept.task_awaits (hk : Kept cfg m ops) (hearly : early m ops = 0) (hspawned : m.spawned = []) (hops : ∀ op ∈ ops, Awaits cfg m op)
    (he : e ∈ tasks cfg) : (if e = .stdin then m.data e ≠ [] else m.data e = []) ∨ m.stream e = false := by
  rcases hk.attended e he with h | h | ⟨x, hx, hw⟩ | ⟨-, h | h⟩
  · omega
  · rw [hspawned] at h
    cases h
  · refine Or.inl ?_
    cases hops x hx with
    | child | tasks => cases hw
    | reader sent hatt hdata =>
      obtain rfl := Option.some.inj hw
      exact hdata
    | writer f hatt hdata =>
      obtain rfl := Option.some.inj hw
      rwa [if_neg (hk.roles.output f hx)]
  · cases hops _ h
  · exact Or.inr h

/-- Where the caller and its tasks do not go on by themselves, they wait for the processes, and no process waits for them. -/
theorem waits_of_stuck {ok : Mem → List Op → Act Op Choice Call → Prop} (hserved : cfg.Served)
    (h : (machine K cfg).Reach ok (initial cfg) s) (ho : s.mem.outcome = none)
    (hstuck : ¬∃ a s', Act.own a ∧ (machine K cfg).Step s a s') : s.mem.Waits cfg ∧ s.mem.Yields K cfg := by
  have hk := Kept.reach h
  obtain ⟨hspawned, hops⟩ := awaits_of_stuck h hstuck
  have hearly : early s.mem s.ops = 0 := by
    have hopens : total Op.opens s.ops = 0 := total_eq_zero_iff.mpr (fun x hx => (hops x hx).opens)
    simp [early, hopens, ho]
  refine ⟨?_, ⟨?_, ?_⟩⟩
  · have hone := hk.roles.one
    rw [ho] at hone
    obtain ⟨x, hx, hpos⟩ := total_pos_iff.mp (show 0 < total Op.caller s.ops by simp only [Option.isSome_none, Bool.toNat_false] at hone; omega)
    have hat : ∀ t, x.stage cfg = some t → t.At s.mem := hk.ends.op x hx
    cases hops x hx with
    | child hne =>
      refine Or.inl ?_
      have hunborn := (hat _ rfl).unborn
      cases hc : s.mem.child with
      | unborn => cases hunborn.mp hc
      | running => rfl
      | exited status => exact absurd hc (hne status)
    | tasks hne =>
      obtain ⟨status, hchild⟩ := (Told.reach h).join hx
      have hopened := hk.roles.opened hearly
      have hacks := hne status hchild
      rw [hspawned, List.length_nil] at hopened
      have hend : ∀ e, s.mem.childEnd e ≠ true := fun e he => List.not_mem_nil ((hat _ rfl).ends e he)
      obtain ⟨y, hy, hypos⟩ := total_pos_iff.mp (show 0 < total (fun x : Op => x.task.isSome.toNat) s.ops by omega)
      cases hops y hy with
      | child | tasks => cases hypos
      | reader sent hatt => exact Or.inr ⟨.stdin, hk.roles.member.1 _ hy _ rfl, hatt.resolve_left (hend _)⟩
      | writer e hatt => exact Or.inr ⟨e, hk.roles.member.1 _ hy _ rfl, hatt.resolve_left (hend _)⟩
    | reader => cases hpos
    | writer => cases hpos
  · intro e bytes hcap hheld hstream hne hlen
    have hstdin : e ≠ .stdin := by
      rintro rfl
      rw [cfg.captures_output] at hcap
      cases hcap
    have hdata : s.mem.data e = [] := by
      have := hk.task_awaits hearly hspawned hops (mem_tasks.mpr (Or.inr hcap))
      rw [if_neg hstdin, hstream] at this
      simpa using this
    simp only [call]
    rw [if_pos ⟨hstdin, hheld, hstream, hne, by simpa [hdata] using hlen⟩]
    rfl
  · intro hpiped _
    have := hk.task_awaits hearly hspawned hops (hserved .stdin hpiped)
    rwa [if_pos rfl] at this

/-! ## How long the caller goes on -/

/-- What a task that has not begun is worth. -/
def dues (cfg : Config) : Nat := 4 + 2 * (cfg.input.getD []).length

/-- How many steps are left of an operation, but for the bytes in the pipes. -/
def Op.weight (cfg : Config) : Op → Nat
  | .popen => 8 + (tasks cfg).length * dues cfg
  | .unwind streams ends _ => streams.length + ends.length + 4 + (tasks cfg).length * dues cfg
  | .spawn => 3 + (tasks cfg).length * dues cfg
  | .wait | .close _ => 2
  | .join | .raises _ | .ack _ => 1
  | .receiveSome _ => 3
  | .sendAll sent => 3 + 2 * ((cfg.input.getD []).length - sent)

/-- How long the caller and its tasks go on by themselves. -/
def measure (cfg : Config) (m : Mem) (ops : List Op) : Nat :=
  total (Op.weight cfg) ops + m.spawned.length * dues cfg + ((m.data .stdin).length + (m.data .stdout).length + (m.data .stderr).length)

theorem feeding_weight (cfg : Config) {sent n : Nat} (hn : 0 < n) (hsent : sent + n ≤ (cfg.input.getD []).length) :
    total (Op.weight cfg) (feeding cfg (sent + n)) + n < Op.weight cfg (.sendAll sent) := by
  unfold feeding
  split <;> simp only [total_cons, total_nil, Op.weight] <;> omega

theorem task_weight (cfg : Config) (e : Stdio) : total (Op.weight cfg) (task cfg e) < dues cfg := by
  cases e <;> simp only [task, feeding, dues]
  · split <;> simp only [total_cons, total_nil, Op.weight] <;> omega
  all_goals
    simp only [total_cons, total_nil, Op.weight]
    omega

theorem pipes_length (cfg : Config) : (pipes cfg).length ≤ 3 := List.length_filter_le _ _

/-- What the caller and its tasks do by themselves brings them closer to where they stop. -/
theorem Move.lighter (hmove : Move K cfg m op c m' new) (hleave : c ≠ .leave) (hraises : c ≠ .raises) :
    measure cfg m' (A ++ (new ++ B)) < measure cfg m (A ++ op :: B) := by
  have htotal := total_step (Op.weight cfg) A B new op
  have hpipes := pipes_length cfg
  unfold measure
  cases hmove with
  | popen | closeStream | closeEnd | wait | join | raises | broken | eof | close | ack =>
    simp only [total_cons, total_nil, Op.weight, List.length_cons, List.length_nil] at htotal ⊢
    omega
  | unwound failed =>
    cases failed <;> simp only [total_cons, total_nil, Op.weight, List.length_nil, if_true, if_false, Bool.false_eq_true] at htotal ⊢ <;> omega
  | spawn =>
    simp only [total_cons, total_nil, Op.weight] at htotal ⊢
    omega
  | send sent n hatt hadmits =>
    have hn : 0 < n ∧ sent + n ≤ (cfg.input.getD []).length := by
      have := of_decide_eq_true hadmits
      omega
    have hlt := feeding_weight cfg hn.1 hn.2
    have hlen : (((cfg.input.getD []).drop sent).take n).length ≤ n := List.length_take_le _ _
    simp only [Function.update_self, Function.update_of_ne, List.length_append, ne_eq, reduceCtorEq, not_false_eq_true]
    omega
  | receive e n hn hle =>
    simp only [total_cons, total_nil, Op.weight] at htotal
    cases e <;> simp only [Function.update_self, Function.update_of_ne, List.length_drop, ne_eq, reduceCtorEq, not_false_eq_true] <;> omega
  | popenRaises | sendRaises | receiveRaises => exact absurd rfl hraises
  | waitLeave | joinLeave => exact absurd rfl hleave

theorem Given.lighter (hg : Given K cfg m l m' new) (hown : Act.own (.call l)) : measure cfg m' (ops ++ new) < measure cfg m ops := by
  cases hg with
  | start e hmem =>
    have hlt := task_weight cfg e
    have hlen := List.length_erase_of_mem hmem
    obtain ⟨n, hn⟩ := Nat.exists_eq_succ_of_ne_zero (List.length_pos_of_mem hmem).ne'
    simp only [measure, total_append, hlen, hn, Nat.succ_sub_one, Nat.succ_mul]
    omega
  | _ => cases hown

/-- The caller and its tasks go on by themselves for a bounded number of steps. -/
theorem measure_step {s' : State Mem Op} {a : Act Op Choice Call} (hown : Act.own a) (hs : (machine K cfg).Step s a s') :
    measure cfg s'.mem s'.ops < measure cfg s.mem s.ops := by
  rcases hs.ops_eq with ⟨A, op, B, c, new, rfl, ho, he, ho'⟩ | ⟨l, new, rfl, hc, ho'⟩
  · rw [ho, ho']
    exact (exec_move he).lighter hown.1 hown.2
  · rw [ho']
    exact (call_given hc).lighter hown

/-- Once the child has exited and no process has an end of a pipe, the caller comes to its end. -/
theorem exists_outcome (hserved : cfg.Served) (h : (machine K cfg).Reach (fun _ _ _ => True) (initial cfg) s) {status : Int} (hchild : s.mem.child = .exited status) (hheld : ∀ e, s.mem.held e = 0) :
    ∃ s', (machine K cfg).Reach (fun _ _ a => Act.own a) s s' ∧ s'.mem.outcome ≠ none := by
  have hstays : ∀ {s'}, (machine K cfg).Reach (fun _ _ a => Act.own a) s s' → s'.mem.child = .exited status ∧ ∀ e, s'.mem.held e = 0 := by
    intro s' hr
    refine hr.invariant_with (I := fun m _ => m.child = .exited status ∧ ∀ e, m.held e = 0) (J := Ends cfg)
      (fun hr => Ends.reach (h.trans (hr.mono fun _ _ _ _ => trivial))) ⟨hchild, hheld⟩ ?_ ?_
    · intro m A op B c m' new hJ ih _ he
      cases exec_move he with
      | popen => cases ih.1.symm.trans ((hJ.op .popen (by simp) _ rfl).unborn.mpr rfl)
      | _ => exact ih
    · intro m ops l m' new _ ih hown hc
      cases call_given hc with
      | start => exact ih
      | _ => cases hown
  refine Machine.exists_reach_of_measure (P := machine K cfg) (fun s => measure cfg s.mem s.ops) ?_ .init
  intro s' hr hgoal
  by_cases hstuck : ∃ a s'', Act.own a ∧ (machine K cfg).Step s' a s''
  · obtain ⟨a, s'', hown, hs⟩ := hstuck
    exact ⟨a, s'', hown, hs, measure_step hown hs⟩
  · obtain ⟨hwaits, -⟩ := waits_of_stuck hserved (h.trans (hr.mono fun _ _ _ _ => trivial)) (not_ne_iff.mp hgoal) hstuck
    obtain ⟨hc, hh⟩ := hstays hr
    rcases hwaits with hwaits | ⟨e, -, he⟩
    · rw [hc] at hwaits
      cases hwaits
    · have := hh e
      omega

/-- What the arguments say: where no other pipe is asked for, those there are have their tasks. -/
theorem served_of_prepare {a : Arguments} (ha : prepare a = .ok cfg) (hp : a.Unpiped) : cfg.Served := by
  unfold prepare at ha
  split at ha
  · cases ha
  split at ha
  · cases ha
  split at ha
  · cases ha
  obtain rfl := Except.ok.inj ha
  intro e he
  refine mem_tasks.mpr ?_
  cases e with
  | stdin => exact Or.inl ⟨rfl, by simpa [Arguments.config, hp.1] using he⟩
  | stdout => exact Or.inr (by simpa [Arguments.config, isPipe, hp.2.1] using he)
  | stderr => exact Or.inr (by simpa [Arguments.config, isPipe, hp.2.2] using he)

end Tonio.Subprocess
