import Tonio.Lemmas.Work
import Tonio.Interleaving.Record

/-!
# The tokens of the speculation counter

Every token of the speculation counter is somewhere: with a producer that has counted it and looks for a raised flag, with a worker whose
flag was claimed and which has not acted on it, or with a worker that speculates and has still to give it up (`due`). Each step before the
workers are stopped moves, makes or retires tokens together with the counter (`exec_due`, `total_due_claim`). The record of a run keeps
which workers have been claimed since they raised their flag.
-/

namespace Tonio.Work

open Interleaving

variable {η : Type}

/-- The producers that have counted a token and have neither claimed a flag nor given the token back. -/
def offering : Op η → Nat
  | .wake _ _ => 1
  | _ => 0

/-- The workers whose flag was claimed and which have not looked at it yet. -/
def unaware (flag : Nat → Bool) (op : Op η) : Nat := (op.idle && op.worker.any (fun i => !flag i)).toNat

/-- The workers that have found their flag claimed, and are about to absorb the token or to start speculating. -/
def aware : Op η → Nat
  | .subSpec | .stop3 _ true => 1
  | _ => 0

/-- The workers that speculate: their decrement is due. -/
def speculating : Op η → Nat
  | .own _ _ sp | .inject _ _ sp | .steal _ _ sp _ | .stop1 _ sp | .setFlag _ sp | .incCount _ sp | .found _ sp _ | .stop2 _ sp
  | .clearStop _ sp => sp.toNat
  | .unspec _ _ | .release _ => 1
  | _ => 0

/-- The tokens an operation stands for. -/
def due (flag : Nat → Bool) (op : Op η) : Nat := offering op + (unaware flag op + aware op) + speculating op

/-- The flag of a worker is claimed by a producer, and not claimed any more when the worker raises it again. -/
def noteClaim (n : Nat) (m : Mem η) : Act (Op η) (Choice η) (Call η) → (Nat → Bool) → Nat → Bool
  | .exec (.setFlag i _) _, g => Function.update g i false
  | .exec (.wake _ k) _, g => if k < n ∧ m.flag k = true then Function.update g k true else g
  | _, g => g

/-- The workers with the record of the claims. -/
def watched (n : Nat) : Machine (Mem η × (Nat → Bool)) (Op η) (Choice η) (Call η) := (machine n).recording (noteClaim n)

/-- The workers start, and none is claimed. -/
def watchedStart (n : Nat) : State (Mem η × (Nat → Bool)) (Op η) := ⟨((initial n).mem, fun _ => false), (initial n).pool⟩

/-- A producer is about to claim the flag of worker `k`. -/
def Claims (n : Nat) (m : Mem η) (k : Nat) (op : Op η) : Prop := k < n ∧ m.flag k = true ∧ ∃ who, op = .wake who k

section

variable {n : Nat} {m m' : Mem η} {g : Nat → Bool} {op : Op η} {c : Choice η} {A B new : List (Op η)}

/-! ## What a step does to the tokens -/

theorem due_settle (flag : Nat → Bool) (i : Nat) (sp : Bool) (h : η) : due flag (settle i sp h) = sp.toNat := by
  cases sp <;> rfl

/-- A worker that looks for work keeps its tokens, whether it finds a handle or not. -/
theorem due_got (flag : Nat → Bool) (ph : Phase) (i : Nat) (sp : Bool) (h : η) : due flag (got ph i sp h) = due flag (.own ph i sp : Op η) := by
  cases ph with
  | scan => exact (due_settle flag i sp h).trans (by simp [due, offering, unaware, aware, speculating, Op.idle])
  | rescan => rfl

theorem due_missed (flag : Nat → Bool) (ph : Phase) (i : Nat) (sp : Bool) :
    due flag (missed ph i sp : Op η) = due flag (.own ph i sp : Op η) := by
  cases ph <;> rfl

theorem due_resume (flag : Nat → Bool) (who : Option (Nat × η)) : total (due flag) (resume who) = 0 := by
  cases who <;> rfl

/-- What a step does to the tokens that are somewhere, and to the counter, unless it claims a flag. -/
theorem exec_due (hs : m.stopping = false) (hstay : op.leaving = false) (hc : ∀ k, ¬Claims n m k op)
    (h : exec n m op c = some (m', new)) : m'.speculation + due m.flag op = m.speculation + total (due m'.flag) new := by
  have hkeep : ∀ x : Op η, due m.flag x = due m.flag op → m.speculation + due m.flag op = m.speculation + total (due m.flag) [x] := by
    intro x hx
    rw [total_cons, total_nil, hx]
    omega
  cases op with
  | run i x =>
    cases c <;> simp only [exec, Option.some.injEq, Prod.mk.injEq] at h <;> obtain ⟨rfl, rfl⟩ := h <;> exact hkeep _ rfl
  | own ph i sp =>
    cases c <;> simp only [exec, reduceCtorEq] at h
    split at h <;> simp only [Option.some.injEq, Prod.mk.injEq] at h <;> obtain ⟨rfl, rfl⟩ := h
    · exact hkeep _ (due_got m.flag ph i sp _)
    · exact hkeep _ (by cases ph <;> rfl)
  | inject ph i sp =>
    have hsame : due m.flag (.inject ph i sp : Op η) = due m.flag (.own ph i sp : Op η) := by cases ph <;> rfl
    cases c <;> simp only [exec, reduceCtorEq] at h
    split at h <;> simp only [Option.some.injEq, Prod.mk.injEq] at h <;> obtain ⟨rfl, rfl⟩ := h
    · exact hkeep _ ((due_got m.flag ph i sp _).trans hsame.symm)
    · exact hkeep _ (by cases ph <;> rfl)
  | steal ph i sp j =>
    have hsame : due m.flag (.steal ph i sp j : Op η) = due m.flag (.own ph i sp : Op η) := by cases ph <;> rfl
    have hnext : due m.flag (.steal ph i sp (j + 1) : Op η) = due m.flag (.steal ph i sp j : Op η) := by cases ph <;> rfl
    cases c <;> simp only [exec, reduceCtorEq] at h
    split at h
    · split at h
      · simp only [Option.some.injEq, Prod.mk.injEq] at h
        obtain ⟨rfl, rfl⟩ := h
        exact hkeep _ hnext
      · split at h <;> simp only [Option.some.injEq, Prod.mk.injEq] at h <;> obtain ⟨rfl, rfl⟩ := h
        · exact hkeep _ ((due_got m.flag ph i sp _).trans hsame.symm)
        · exact hkeep _ hnext
    · simp only [Option.some.injEq, Prod.mk.injEq] at h
      obtain ⟨rfl, rfl⟩ := h
      exact hkeep _ ((due_missed m.flag ph i sp).trans hsame.symm)
  | unspec i x =>
    cases c <;> simp only [exec, Option.some.injEq, Prod.mk.injEq, reduceCtorEq] at h
    obtain ⟨rfl, rfl⟩ := h
    split <;> simp [due, offering, unaware, aware, speculating, Op.idle]
  | stop1 i sp =>
    cases c <;> simp only [exec, hs, Option.some.injEq, Prod.mk.injEq, reduceCtorEq, Bool.false_eq_true, if_false] at h
    obtain ⟨rfl, rfl⟩ := h
    exact hkeep _ rfl
  | setFlag i sp =>
    cases c <;> simp only [exec, Option.some.injEq, Prod.mk.injEq, reduceCtorEq] at h
    obtain ⟨rfl, rfl⟩ := h
    simp [due, offering, unaware, aware, speculating, Op.idle, Op.worker, Mem.setFlag]
  | incCount i sp =>
    cases c <;> simp only [exec, Option.some.injEq, Prod.mk.injEq, reduceCtorEq] at h
    obtain ⟨rfl, rfl⟩ := h
    exact hkeep _ rfl
  | found i sp x =>
    cases c <;> simp only [exec, Mem.clearIdle, Option.some.injEq, reduceCtorEq] at h
    split at h <;> obtain ⟨rfl, rfl⟩ := Prod.mk.inj h
    all_goals
      rename_i hf
      rw [total_cons, total_cons, total_nil, due_settle]
      simp [due, offering, unaware, aware, speculating, Op.idle, Op.worker, Mem.setFlag, hf]
  | stop2 i sp =>
    cases c <;> simp only [exec, hs, Option.some.injEq, Prod.mk.injEq, reduceCtorEq, Bool.false_eq_true, if_false] at h
    obtain ⟨rfl, rfl⟩ := h
    cases sp <;> exact hkeep _ rfl
  | clearStop i sp => cases hstay
  | release i =>
    cases c <;> simp only [exec, Option.some.injEq, Prod.mk.injEq, reduceCtorEq] at h
    obtain ⟨rfl, rfl⟩ := h
    simp [due, offering, unaware, aware, speculating, Op.idle, Op.worker]
  | final i =>
    cases c <;> simp only [exec, reduceCtorEq] at h
    split at h <;> simp only [Option.some.injEq, Prod.mk.injEq] at h <;> obtain ⟨rfl, rfl⟩ := h <;> exact hkeep _ rfl
  | finalFound i x =>
    cases c <;> simp only [exec, Mem.clearIdle, Option.some.injEq, reduceCtorEq] at h
    split at h <;> obtain ⟨rfl, rfl⟩ := Prod.mk.inj h <;> rename_i hf <;>
      simp [due, offering, unaware, aware, speculating, Op.idle, Op.worker, Mem.setFlag, hf]
  | park i =>
    cases c <;> simp only [exec, reduceCtorEq] at h
    split at h <;> simp only [Option.some.injEq, Prod.mk.injEq, reduceCtorEq] at h
    obtain ⟨rfl, rfl⟩ := h
    exact hkeep _ rfl
  | clearWake i =>
    cases c <;> simp only [exec, Mem.clearIdle, Option.some.injEq, reduceCtorEq] at h
    split at h <;> obtain ⟨rfl, rfl⟩ := Prod.mk.inj h <;> rename_i hf <;>
      simp [due, offering, unaware, aware, speculating, Op.idle, Op.worker, Mem.setFlag, hf]
  | stop3 i claimed =>
    cases c <;> simp only [exec, hs, Option.some.injEq, Prod.mk.injEq, reduceCtorEq, Bool.false_eq_true, if_false] at h
    obtain ⟨rfl, rfl⟩ := h
    cases claimed <;> exact hkeep _ rfl
  | loadCount who force =>
    cases c <;> simp only [exec, Option.some.injEq, Prod.mk.injEq, reduceCtorEq] at h
    obtain ⟨rfl, rfl⟩ := h
    split
    · rw [due_resume]
      rfl
    · split <;> exact hkeep _ rfl
  | casSpec who =>
    cases c <;> simp only [exec, Option.some.injEq, reduceCtorEq] at h
    split at h <;> obtain ⟨rfl, rfl⟩ := Prod.mk.inj h
    · rename_i h0
      simp [due, offering, unaware, aware, speculating, Op.idle, h0]
    · rw [due_resume]
      rfl
  | incSpec who =>
    cases c <;> simp only [exec, Option.some.injEq, Prod.mk.injEq, reduceCtorEq] at h
    obtain ⟨rfl, rfl⟩ := h
    simp [due, offering, unaware, aware, speculating, Op.idle]
  | wake who k =>
    cases c <;> simp only [exec, reduceCtorEq] at h
    split at h
    · split at h <;> simp only [Option.some.injEq, Prod.mk.injEq] at h <;> obtain ⟨rfl, rfl⟩ := h
      · rename_i hk hf
        exact absurd ⟨hk, hf, who, rfl⟩ (hc k)
      · exact hkeep _ rfl
    · simp only [Option.some.injEq, Prod.mk.injEq] at h
      obtain ⟨rfl, rfl⟩ := h
      rw [due_resume]
      simp [due, offering, unaware, aware, speculating, Op.idle]
  | decCount | unpark k =>
    cases c <;> simp only [exec, Option.some.injEq, Prod.mk.injEq, reduceCtorEq] at h
    obtain ⟨rfl, rfl⟩ := h
    rfl
  | subSpec =>
    cases c <;> simp only [exec, Option.some.injEq, Prod.mk.injEq, reduceCtorEq] at h
    obtain ⟨rfl, rfl⟩ := h
    simp [due, offering, unaware, aware, speculating, Op.idle]

/-- The flags of the other workers stay as they are, unless one is claimed. -/
theorem flag_of_ne (hm : Move n m op c m' new) (hc : ∀ k, ¬Claims n m k op) {j : Nat} (hj : op.worker ≠ some j) : m'.flag j = m.flag j := by
  cases hm with
  | walk i hw => rw [hw.flag]
  | raise i sp =>
    have hij : j ≠ i := fun hx => hj (by simp [Op.worker, hx])
    simp [Mem.setFlag, hij]
  | clear i hcl =>
    have hij : j ≠ i := by
      rintro rfl
      exact hj hcl.worker
    rcases hcl.cases with ⟨-, rfl, -⟩ | ⟨-, rfl, -⟩
    · simp [Mem.setFlag, hij]
    · rfl
  | claim who k hk hf => exact absurd ⟨hk, hf, who, rfl⟩ (hc k)
  | token sp hop => rfl
  | _ => rfl

/-- A worker comes to a place where its flag may be up by raising it, or from such a place. -/
theorem Move.idle_cases (hm : Move n m op c m' new) {x : Op η} (hx : x ∈ new) {i : Nat} (hi : x.worker = some i) (hidle : x.idle = true) :
    (∃ sp, op = .setFlag i sp ∧ m'.flag i = true) ∨ (op.worker = some i ∧ op.idle = true ∧ m'.flag = m.flag) := by
  cases hm with
  | walk j hw =>
    obtain rfl := List.mem_singleton.mp hx
    exact Or.inr ⟨hw.worker.trans (hw.worker'.symm.trans hi), hw.idle ▸ hidle, hw.flag⟩
  | raise j sp =>
    obtain rfl := List.mem_singleton.mp hx
    obtain rfl : j = i := Option.some.inj hi
    exact Or.inl ⟨sp, rfl, by simp [Mem.setFlag]⟩
  | count j sp =>
    obtain rfl := List.mem_singleton.mp hx
    exact Or.inr ⟨hi, rfl, rfl⟩
  | @clear _ y _ _ j hcl =>
    have hxy : x = y := by
      rcases hcl.cases with ⟨-, -, rfl⟩ | ⟨-, -, rfl | rfl⟩ <;> simp only [List.mem_cons, List.not_mem_nil, or_false] at hx
      · exact hx.resolve_left (by rintro rfl; cases hi)
      · exact hx
      · exact hx.resolve_left (by rintro rfl; cases hi)
    rw [hxy, hcl.idle] at hidle
    cases hidle
  | park j hp =>
    obtain rfl := List.mem_singleton.mp hx
    exact Or.inr ⟨hi, rfl, rfl⟩
  | claim who k hk hf =>
    simp only [List.mem_cons] at hx
    rcases hx with rfl | rfl | hx
    · cases hi
    · cases hi
    · cases who with
      | none => cases hx
      | some w =>
        obtain rfl : x = .run w.1 w.2 := by simpa [resume] using hx
        cases hidle
  | needed force => cases force <;> simp at hx <;> subst hx <;> cases hi
  | token sp hop => simp at hx; subst hx; cases hi
  | pass k hf => simp at hx; subst hx; cases hi
  | _ => simp at hx

/-- A claim makes the worker of the flag one that has a token and does not know it. -/
theorem total_due_claim {k : Nat} {flag : Nat → Bool} {ops : List (Op η)} (hf : flag k = true)
    (hidle : ∀ y ∈ ops, y.worker = some k → y.idle = true) :
    total (due (Function.update flag k false)) ops = total (due flag) ops + total (ctl k) ops := by
  induction ops with
  | nil => rfl
  | cons y ops ih =>
    have hy : due (Function.update flag k false) y = due flag y + ctl k y := by
      have hun : unaware (Function.update flag k false) y = unaware flag y + ctl k y := by
        cases hw : y.worker with
        | none => simp [unaware, ctl, hw]
        | some j =>
          by_cases hjk : j = k
          · subst hjk
            simp [unaware, ctl, hw, hf, hidle y List.mem_cons_self hw]
          · simp [unaware, ctl, hw, hjk]
      simp only [due, hun]
      omega
    have := ih (fun z hz => hidle z (List.mem_cons_of_mem y hz))
    simp only [total_cons, hy, this]
    omega

/-! ## The balance -/

/-- What holds of the tokens and of the claims before the workers are stopped: every token of the counter is due somewhere, and the flag of
a worker that has raised it is down exactly when it was claimed. -/
structure Tokens (m : Mem η × (Nat → Bool)) (ops : List (Op η)) : Prop where
  counter : m.1.speculation = total (due m.1.flag) ops
  cycle : ∀ op ∈ ops, ∀ i, op.worker = some i → op.idle = true → m.1.flag i = !m.2 i

/-- A claim hands the producer's token to the worker of the flag. -/
theorem Tokens.claim {who : Option (Nat × η)} {k : Nat} (h : Tokens (m, g) (A ++ .wake who k :: B)) (hS : Sited n m (A ++ .wake who k :: B))
    (hk : k < n) (hf : m.flag k = true) :
    Tokens (m.setFlag k false, Function.update g k true) (A ++ ((.decCount :: .unpark k :: resume who) ++ B)) := by
  have hidle : ∀ y ∈ A ++ Op.wake who k :: B, y.worker = some k → y.idle = true := by
    intro y hy hw
    by_contra hi
    have := (hS.place y hy k hw).idle (by simpa using hi)
    rw [hf] at this
    cases this
  have hcount := total_due_claim hf hidle
  refine ⟨?_, fun y hy i hi hyi => ?_⟩
  · have hstep := total_step (due (Function.update m.flag k false)) A B (.decCount :: .unpark k :: resume who) (Op.wake who k)
    have hself : due (Function.update m.flag k false) (Op.wake who k : Op η) = 1 := rfl
    have hnew : total (due (Function.update m.flag k false)) (.decCount :: .unpark k :: resume who) = 0 := by
      rw [total_cons, total_cons, due_resume]
      rfl
    have hone := hS.one k hk
    have hc : m.speculation = total (due m.flag) (A ++ .wake who k :: B) := h.counter
    have hflag : (m.setFlag k false).flag = Function.update m.flag k false := rfl
    have hspec : (m.setFlag k false).speculation = m.speculation := rfl
    simp only [hflag, hspec, hc]
    omega
  · rcases Machine.mem_cases (.wake who k) hy with hy | hy
    · simp only [List.mem_cons] at hy
      rcases hy with rfl | rfl | hy
      · cases hi
      · cases hi
      · cases who with
        | none => cases hy
        | some w =>
          obtain rfl : y = .run w.1 w.2 := by simpa [resume] using hy
          cases hyi
    · have := h.cycle y hy i hi hyi
      by_cases hik : i = k
      · simp [Mem.setFlag, hik]
      · simpa [Mem.setFlag, hik] using this

/-- Any other step before the workers are stopped. -/
theorem Tokens.step (h : Tokens (m, g) (A ++ op :: B)) (hS : Sited n m (A ++ op :: B)) (hs : m.stopping = false)
    (he : exec n m op c = some (m', new)) (hc : ∀ k, ¬Claims n m k op) : Tokens (m', noteClaim n m (.exec op c) g) (A ++ (new ++ B)) := by
  have hstay := hS.leaving (List.mem_append_right A List.mem_cons_self)
  have hm := exec_move hs hstay he
  have hflag : ∀ y ∈ A ++ B, ∀ j, y.worker = some j → m'.flag j = m.flag j := fun y hy j hj => flag_of_ne hm hc (hS.alone hy hj)
  have hnote : noteClaim n m (.exec op c) g = g ∨ ∃ i sp, op = .setFlag i sp ∧ noteClaim n m (.exec op c) g = Function.update g i false := by
    cases op with
    | setFlag i sp => exact Or.inr ⟨i, sp, rfl, rfl⟩
    | wake who k => exact Or.inl (if_neg (fun hk => hc k ⟨hk.1, hk.2, who, rfl⟩))
    | _ => exact Or.inl rfl
  refine ⟨?_, fun y hy i hi hyi => ?_⟩
  · have hbeside : ∀ y ∈ A ++ B, due m'.flag y = due m.flag y := by
      intro y hy
      cases hw : y.worker with
      | none => simp [due, unaware, hw]
      | some j => simp [due, unaware, hw, hflag y hy j hw]
    have hstep := exec_due hs hstay hc he
    have hAB := total_congr hbeside
    have hcount : m.speculation = total (due m.flag) (A ++ op :: B) := h.counter
    simp only [total_append, total_cons] at hAB hcount ⊢
    omega
  · rcases Machine.mem_beside hy with hy | hy
    · rcases hm.idle_cases hy hi hyi with ⟨sp, rfl, hup⟩ | ⟨hw, hop, hsame⟩
      · simp [noteClaim, hup]
      · have hg : noteClaim n m (.exec op c) g = g := by
          refine hnote.resolve_right ?_
          rintro ⟨j, sp, rfl, -⟩
          cases hop
        rw [hg]
        simpa only [hsame] using h.cycle op (by simp) i hw hop
    · have hold : m.flag i = !g i := h.cycle y (Machine.mem_before op hy) i hi hyi
      have hne := hS.alone hy hi
      have hg : noteClaim n m (.exec op c) g i = g i := by
        rcases hnote with hg | ⟨j, sp, rfl, hg⟩
        · rw [hg]
        · rw [hg, Function.update_of_ne (fun hij => hne (by simp [Op.worker, hij]))]
      simp only [hflag y hy i hi, hold, hg]

/-- A call that does not stop the workers makes no token. -/
theorem Tokens.call {ops : List (Op η)} {l : Call η} (h : Tokens (m, g) ops) (hc : call n m l = some (m', new))
    (hs : m'.stopping = false) : Tokens (m', g) (ops ++ new) := by
  obtain ⟨force, q, rfl, rfl⟩ := call_eq hc hs
  refine ⟨?_, fun y hy i hi hyi => ?_⟩
  · rw [total_append]
    exact h.counter
  · rcases List.mem_append.mp hy with hy | hy
    · exact h.cycle y hy i hi hyi
    · obtain rfl := List.mem_singleton.mp hy
      cases hyi

/-- In every state before the workers are stopped, of every run. -/
theorem Tokens.reach {s : State (Mem η × (Nat → Bool)) (Op η)} (h : (watched n).Reach (fun _ _ _ => True) (watchedStart n) s)
    (hs : s.mem.1.stopping = false) : Tokens s.mem s.ops := by
  refine h.invariant_with (J := fun m ops => m.1.stopping = false → Sited n m.1 ops) (I := fun m ops => m.1.stopping = false → Tokens m ops)
    (fun hr => Sited.reach hr.unrecorded) ?_ ?_ ?_ hs
  · intro _
    have hall : ∀ y ∈ (watchedStart (η := η) n).ops, ∃ i, y = .own .scan i false := by
      intro y hy
      have hy' : y ∈ (initial (η := η) n).ops := hy
      rw [ops_initial] at hy'
      obtain ⟨i, -, rfl⟩ := List.mem_map.mp hy'
      exact ⟨i, rfl⟩
    refine ⟨?_, fun y hy i hi hyi => ?_⟩
    · have hzero : total (due (watchedStart (η := η) n).mem.1.flag) (watchedStart (η := η) n).ops = 0 := by
        refine total_eq_zero_iff.mpr (fun y hy => ?_)
        obtain ⟨i, rfl⟩ := hall y hy
        rfl
      rw [hzero]
      rfl
    · obtain ⟨j, rfl⟩ := hall y hy
      cases hyi
  · rintro ⟨m, g⟩ A op B c ⟨m', g'⟩ new hS hI - he hs'
    obtain ⟨he, rfl⟩ := Machine.recording_exec.mp he
    have hs : m.stopping = false := (exec_stopping he).symm.trans hs'
    by_cases hc : ∀ k, ¬Claims n m k op
    · exact (hI hs).step (hS hs) hs he hc
    · push Not at hc
      obtain ⟨k, hk, hf, who, rfl⟩ := hc
      have he : exec n m (.wake who k) c = some (m', new) := he
      cases c <;> simp only [exec, hk, hf, if_true, Option.some.injEq, Prod.mk.injEq, reduceCtorEq] at he
      obtain ⟨rfl, rfl⟩ := he
      have hnote : noteClaim n m (.exec (.wake who k) .go) g = Function.update g k true := if_pos ⟨hk, hf⟩
      rw [hnote]
      exact (hI hs).claim (hS hs) hk hf
  · rintro ⟨m, g⟩ ops l ⟨m', g'⟩ new - hI - hc hs'
    obtain ⟨hc, hg⟩ := Machine.recording_call.mp hc
    obtain rfl : g' = g := hg
    exact (hI (call_stopping hc hs')).call hc hs'

end

end Tonio.Work
