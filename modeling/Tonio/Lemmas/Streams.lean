import Tonio.Streams

/-!
# Loops that write a buffer

Both loops keep the same thing: what the system has accepted is what comes before the running offset, and the slice they hold is what comes
after it (`Progress`). What is said once for both is stated over the operations of either, given the places where its offset and its slice
are those of the attempts so far. The other way round every sequence of attempts is performed by a loop that is always led on to its next
write (`Writer`).
-/

namespace Tonio.Streams

open Interleaving

variable {β O : Type} {data : List β}

/-! ## Attempts -/

/-- The bytes a write takes. -/
def Outcome.size : Outcome → Nat
  | .accepted n => n
  | _ => 0

/-- The outcomes tell how much is written. -/
theorem Attempts.sent_eq {len sent : Nat} {os : List Outcome} {failed : Option Err} (h : Attempts len os sent failed) :
    sent = (os.map Outcome.size).sum := by
  induction h with
  | nil => rfl
  | accepted h hn hle ih => simp [ih, Outcome.size]
  | wouldBlock h hlt ih | interrupted h hlt ih | error e h hlt ih => simp [ih, Outcome.size]

/-- What is written is at most all there is. -/
theorem Attempts.sent_le {len sent : Nat} {os : List Outcome} {failed : Option Err} (h : Attempts len os sent failed) : sent ≤ len := by
  induction h with
  | nil => exact Nat.zero_le len
  | accepted h hn hle ih => exact hle
  | wouldBlock h hlt ih | interrupted h hlt ih | error e h hlt ih => exact ih

/-- The writes so far, and what they have written. -/
structure Sound (data : List β) (m : Mem β × List Outcome) (sent : Nat) (failed : Option Err) : Prop where
  attempts : Attempts data.length m.2 sent failed
  accepted : m.1.accepted = data.take sent

namespace Sound

variable {m m' : Mem β} {os : List Outcome} {sent n : Nat} {failed : Option Err}

/-- What the coroutine does beside its writes. -/
theorem frame (h : Sound data (m, os) sent failed) (hm : m'.accepted = m.accepted) : Sound data (m', os) sent failed :=
  ⟨h.attempts, hm.trans h.accepted⟩

/-- A write of the slice after the offset. -/
theorem take (h : Sound data (m, os) sent none) (hn : 1 ≤ n ∧ n ≤ (data.drop sent).length) :
    Sound data (m.take (data.drop sent) n, os ++ [.accepted n]) (sent + n) none := by
  obtain ⟨hn, hle⟩ := hn
  rw [List.length_drop] at hle
  refine ⟨.accepted h.attempts hn (by omega), ?_⟩
  have hacc : m.accepted = data.take sent := h.accepted
  simp only [Mem.take, hacc, List.take_add]

/-- A write that takes nothing. -/
theorem block {o : Outcome} (h : Sound data (m, os) sent none) (hlt : sent < data.length) (ho : o = .wouldBlock ∨ o = .interrupted) :
    Sound data (m, os ++ [o]) sent none := by
  rcases ho with rfl | rfl
  · exact ⟨.wouldBlock h.attempts hlt, h.accepted⟩
  · exact ⟨.interrupted h.attempts hlt, h.accepted⟩

/-- A write that fails. -/
theorem error (e : Err) (h : Sound data (m, os) sent none) (hlt : sent < data.length) (hm : m'.accepted = m.accepted) :
    Sound data (m', os ++ [.error e]) sent (some e) :=
  ⟨.error e h.attempts hlt, hm.trans h.accepted⟩

/-- What was written comes before the offset. -/
theorem isPrefix {m : Mem β × List Outcome} (h : Sound data m sent failed) : m.1.accepted <+: data := by
  rw [h.accepted]
  exact List.take_prefix sent data

end Sound

/-! ## What a loop keeps -/

/-- The call is at one operation, at the place of the writes so far; or it has returned with all written; or it has raised. -/
inductive Progress (data : List β) (place : O → Nat → Prop) (m : Mem β × List Outcome) : List O → Prop where
  | runs {op : O} {sent : Nat} (hs : Sound data m sent none) (hp : place op sent) (hr : m.1.result = none) : Progress data place m [op]
  | returned (hs : Sound data m data.length none) (hr : m.1.result = some .returned) : Progress data place m []
  | raised {sent : Nat} {failed : Option Err} {r : Raised} (hs : Sound data m sent failed) (hr : m.1.result = some (.raised r)) :
      Progress data place m []

/-- The writes of a call are sound; those of one that returned have written all there is, and none has failed. -/
theorem Progress.sound {place : O → Nat → Prop} {m : Mem β × List Outcome} {ops : List O} (h : Progress data place m ops) :
    ∃ sent failed, Sound data m sent failed ∧ (m.1.result = some .returned → sent = data.length ∧ failed = none) := by
  have hne : ∀ {r : Option Result}, m.1.result = r → r ≠ some .returned → m.1.result ≠ some .returned := fun hr hne h => hne (hr ▸ h)
  cases h with
  | runs hs hp hr => exact ⟨_, _, hs, fun h => absurd h (hne hr (by simp))⟩
  | returned hs hr => exact ⟨_, _, hs, fun _ => ⟨rfl, rfl⟩⟩
  | raised hs hr => exact ⟨_, _, hs, fun h => absurd h (hne hr (by simp))⟩

/-- What the system has accepted is the beginning of the data, and all of it when the call has returned. -/
theorem Progress.exact {place : O → Nat → Prop} {m : Mem β × List Outcome} {ops : List O} (h : Progress data place m ops) :
    m.1.accepted <+: data ∧ (m.1.result = some .returned → m.1.accepted = data) ∧
      m.1.accepted = data.take (m.2.map Outcome.size).sum := by
  obtain ⟨sent, failed, hs, hret⟩ := h.sound
  refine ⟨hs.isPrefix, fun hr => ?_, hs.attempts.sent_eq ▸ hs.accepted⟩
  rw [hs.accepted, (hret hr).1, List.take_length]

/-- The attempts of a call are attempts at its data; one that returned has none that failed. -/
theorem Progress.attempts {place : O → Nat → Prop} {m : Mem β × List Outcome} {ops : List O} (h : Progress data place m ops) :
    (∃ sent failed, Attempts data.length m.2 sent failed) ∧
      (m.1.result = some .returned → Attempts data.length m.2 data.length none) := by
  obtain ⟨sent, failed, hs, hret⟩ := h.sound
  refine ⟨⟨sent, failed, hs.attempts⟩, fun hr => ?_⟩
  obtain ⟨rfl, rfl⟩ := hret hr
  exact hs.attempts

/-- In every state of every run of a call whose operations keep it. -/
theorem Progress.reach {ex : Mem β → O → Choice → Option (Mem β × List O)} {cl : Mem β → Empty → Option (Mem β × List O)}
    {place : O → Nat → Prop} {eof closed lockW : Bool} {op : O} {s : State (Mem β × List Outcome) O}
    (h : (Machine.recording ⟨ex, cl⟩ note).Reach (fun _ _ _ => True) (start eof closed lockW op) s) (h₀ : place op 0)
    (hexec : ∀ m os op c m' new, Progress data place (m, os) [op] → ex m op c = some (m', new) →
      Progress data place (m', note m (.exec op c) os) new) : Progress data place s.mem s.ops := by
  refine h.invariant (I := Progress data place) (.runs ⟨.nil, rfl⟩ h₀ rfl) ?_ (fun _ _ l => l.elim)
  rintro ⟨m, os⟩ A op B c ⟨m', os'⟩ new hI - he
  obtain ⟨he, rfl⟩ := Machine.recording_exec.mp he
  -- the coroutine is the only thread
  obtain ⟨rfl, rfl⟩ : A = [] ∧ B = [] := by
    generalize hops : A ++ op :: B = ops at hI
    have hlen := congrArg List.length hops
    rw [List.length_append, List.length_cons] at hlen
    cases hI <;> simp only [List.length_cons, List.length_nil] at hlen
    · exact ⟨List.eq_nil_of_length_eq_zero (by omega), List.eq_nil_of_length_eq_zero (by omega)⟩
    · omega
    · omega
  simpa using hexec m os op c m' new hI he

/-- What a write does in either loop: `next n` comes after one that takes `n` bytes, `again` after one that takes none, and an error is
raised. -/
inductive Wrote (m : Mem β) (buf : List β) (next : Nat → O) (again : O) : Outcome → Mem β → List O → Prop where
  | accepted (n : Nat) (hn : 1 ≤ n ∧ n ≤ buf.length) : Wrote m buf next again (.accepted n) (m.take buf n) [next n]
  | blocked (o : Outcome) (ho : o = .wouldBlock ∨ o = .interrupted) : Wrote m buf next again o m [again]
  | failed (e : Err) (m' : Mem β) (r : Raised) (hm : m'.accepted = m.accepted) (hr : m'.result = some (.raised r)) :
      Wrote m buf next again (.error e) m' []

/-- A write of the slice after the offset. -/
theorem Wrote.progress {place : O → Nat → Prop} {m m' : Mem β} {os : List Outcome} {sent : Nat} {next : Nat → O} {again : O} {o : Outcome}
    {new : List O} (hw : Wrote m (data.drop sent) next again o m' new) (hs : Sound data (m, os) sent none) (hlt : sent < data.length)
    (hr : m.result = none) (hnext : ∀ n, place (next n) (sent + n)) (hagain : place again sent) :
    Progress data place (m', os ++ [o]) new := by
  cases hw with
  | accepted n hn => exact .runs (hs.take hn) (hnext n) hr
  | blocked o ho => exact .runs (hs.block hlt ho) hagain hr
  | failed e m' r hm hr => exact .raised (hs.error e hlt hm) hr

/-! ## `SocketStream.send_all` -/

/-- The place of an operation: its offset is where the writes are, and its slice comes after it. -/
def SocketOp.place (data : List β) : SocketOp β → Nat → Prop
  | .sendAll, k => k = 0
  | .loop total, k => total = k
  | .sent total n, k => total + n = k
  | .send total buf, k | .trySend total buf, k | .armW total buf, k | .wait total buf, k | .retry total buf, k =>
    total = k ∧ buf = data.drop k ∧ k < data.length

/-- The first write of `_Socket.send` does the same as a later one. -/
theorem SocketOp.exec_retry {op : SocketOp β} {total : Nat} {buf : List β} (hop : op = .trySend total buf ∨ op = .retry total buf)
    (m : Mem β) (o : Outcome) : SocketOp.exec data m op (.wrote o) = SocketOp.exec data m (.retry total buf) (.wrote o) := by
  rcases hop with rfl | rfl <;> cases o <;> rfl

/-- A write of `_Socket.send`. -/
theorem SocketOp.exec_wrote {m m' : Mem β} {op : SocketOp β} {total : Nat} {buf : List β} {o : Outcome} {new : List (SocketOp β)}
    (hop : op = .trySend total buf ∨ op = .retry total buf) (he : SocketOp.exec data m op (.wrote o) = some (m', new)) :
    Wrote m buf (.sent total) (.armW total buf) o m' new := by
  rw [SocketOp.exec_retry hop] at he
  cases o with
  | accepted n =>
    simp only [SocketOp.exec] at he
    split at he
    · rename_i hn
      obtain ⟨rfl, rfl⟩ := Prod.mk.inj (Option.some.inj he)
      exact .accepted n hn
    · cases he
  | wouldBlock =>
    obtain ⟨rfl, rfl⟩ := Prod.mk.inj (Option.some.inj he)
    exact .blocked _ (Or.inl rfl)
  | interrupted =>
    obtain ⟨rfl, rfl⟩ := Prod.mk.inj (Option.some.inj he)
    exact .blocked _ (Or.inr rfl)
  | error e =>
    obtain ⟨rfl, rfl⟩ := Prod.mk.inj (Option.some.inj he)
    exact .failed e _ _ rfl rfl

/-- Every operation of `SocketStream.send_all`. -/
theorem SocketOp.exec_progress {m m' : Mem β} {os : List Outcome} {op : SocketOp β} {c : Choice} {new : List (SocketOp β)}
    (h : Progress data (SocketOp.place data) (m, os) [op]) (he : SocketOp.exec data m op c = some (m', new)) :
    Progress data (SocketOp.place data) (m', note m (.exec op c) os) new := by
  cases h with
  | @runs _ sent hs hp hr =>
    cases op with
    | sendAll =>
      obtain rfl : sent = 0 := hp
      cases c <;> simp only [SocketOp.exec, Option.some.injEq, reduceCtorEq] at he
      split at he
      · obtain ⟨rfl, rfl⟩ := Prod.mk.inj he
        exact .raised (hs.frame rfl) rfl
      · split at he <;> obtain ⟨rfl, rfl⟩ := Prod.mk.inj he
        · rename_i hnil
          exact .returned (hnil.symm ▸ hs.frame rfl) rfl
        · exact .runs hs rfl hr
    | loop total =>
      obtain rfl : total = sent := hp
      cases c <;> simp only [SocketOp.exec, Option.some.injEq, reduceCtorEq] at he
      split at he <;> rename_i hlt <;> obtain ⟨rfl, rfl⟩ := Prod.mk.inj he
      · exact .runs hs ⟨rfl, rfl, hlt⟩ hr
      · have hall : total = data.length := Nat.le_antisymm hs.attempts.sent_le (Nat.le_of_not_lt hlt)
        exact .returned (hall ▸ hs.frame rfl) rfl
    | sent total n =>
      cases c <;> simp only [SocketOp.exec, Option.some.injEq, Prod.mk.injEq, reduceCtorEq] at he
      obtain ⟨rfl, rfl⟩ := he
      exact .runs hs hp hr
    | send total buf =>
      cases c <;> simp only [SocketOp.exec, Option.some.injEq, Prod.mk.injEq, reduceCtorEq] at he
      obtain ⟨rfl, rfl⟩ := he
      obtain ⟨rfl, rfl, hlt⟩ := hp
      rw [if_neg (by rw [List.length_drop]; omega)]
      exact .runs hs ⟨rfl, rfl, hlt⟩ hr
    | trySend total buf | retry total buf =>
      obtain ⟨rfl, rfl, hlt⟩ := hp
      cases c with
      | wrote o => exact (SocketOp.exec_wrote (by simp) he).progress hs hlt hr (fun _ => rfl) ⟨rfl, rfl, hlt⟩
      | _ => cases he
    | armW total buf | wait total buf =>
      cases c <;> simp only [SocketOp.exec, Option.some.injEq, Prod.mk.injEq, Mem.finish, reduceCtorEq] at he <;>
        obtain ⟨rfl, rfl⟩ := he <;> first | exact .runs hs hp hr | exact .raised (hs.frame rfl) rfl

/-! ## `FdStream.send_all` -/

/-- The place of an operation: its offset is where the writes are, and its slice comes after it. -/
def FdOp.place (data : List β) : FdOp β → Nat → Prop
  | .sendAll, k | .orRaise, k => k = 0
  | .loop off, k => off = k
  | .armW off buf, k | .wait off buf, k | .write off buf, k => off = k ∧ buf = data.drop k ∧ k < data.length

/-- A write of the inner loop. -/
theorem FdOp.exec_wrote {m m' : Mem β} {off : Nat} {buf : List β} {o : Outcome} {new : List (FdOp β)}
    (he : FdOp.exec data m (.write off buf) (.wrote o) = some (m', new)) :
    Wrote m buf (fun n => .loop (off + n)) (.armW off buf) o m' new := by
  cases o with
  | accepted n =>
    simp only [FdOp.exec] at he
    split at he
    · rename_i hn
      obtain ⟨rfl, rfl⟩ := Prod.mk.inj (Option.some.inj he)
      exact .accepted n hn
    · cases he
  | wouldBlock =>
    obtain ⟨rfl, rfl⟩ := Prod.mk.inj (Option.some.inj he)
    exact .blocked _ (Or.inl rfl)
  | interrupted =>
    obtain ⟨rfl, rfl⟩ := Prod.mk.inj (Option.some.inj he)
    exact .blocked _ (Or.inr rfl)
  | error e =>
    cases e <;> obtain ⟨rfl, rfl⟩ := Prod.mk.inj (Option.some.inj he) <;> exact .failed _ _ _ rfl rfl

/-- Every operation of `FdStream.send_all`. -/
theorem FdOp.exec_progress {m m' : Mem β} {os : List Outcome} {op : FdOp β} {c : Choice} {new : List (FdOp β)}
    (h : Progress data (FdOp.place data) (m, os) [op]) (he : FdOp.exec data m op c = some (m', new)) :
    Progress data (FdOp.place data) (m', note m (.exec op c) os) new := by
  cases h with
  | @runs _ sent hs hp hr =>
    cases op with
    | sendAll =>
      obtain rfl : sent = 0 := hp
      cases c <;> simp only [FdOp.exec, Option.some.injEq, reduceCtorEq] at he
      split at he <;> obtain ⟨rfl, rfl⟩ := Prod.mk.inj he
      · exact .raised (hs.frame rfl) rfl
      · exact .runs hs rfl hr
    | orRaise =>
      obtain rfl : sent = 0 := hp
      cases c <;> simp only [FdOp.exec, Option.some.injEq, reduceCtorEq] at he
      split at he
      · obtain ⟨rfl, rfl⟩ := Prod.mk.inj he
        exact .raised (hs.frame rfl) rfl
      · split at he <;> obtain ⟨rfl, rfl⟩ := Prod.mk.inj he
        · rename_i hnil
          exact .returned (hnil.symm ▸ hs.frame rfl) rfl
        · exact .runs (hs.frame rfl) rfl hr
    | loop off =>
      obtain rfl : off = sent := hp
      cases c <;> simp only [FdOp.exec, Option.some.injEq, reduceCtorEq] at he
      split at he <;> rename_i hlt <;> obtain ⟨rfl, rfl⟩ := Prod.mk.inj he
      · exact .runs hs ⟨rfl, rfl, hlt⟩ hr
      · have hall : off = data.length := Nat.le_antisymm hs.attempts.sent_le (Nat.le_of_not_lt hlt)
        exact .returned (hall ▸ hs.frame rfl) rfl
    | armW off buf | wait off buf =>
      cases c <;> simp only [FdOp.exec, Option.some.injEq, Prod.mk.injEq, Mem.unlock, reduceCtorEq] at he <;>
        obtain ⟨rfl, rfl⟩ := he <;> first | exact .runs hs hp hr | exact .raised (hs.frame rfl) rfl
    | write off buf =>
      obtain ⟨rfl, rfl, hlt⟩ := hp
      cases c with
      | wrote o => exact (FdOp.exec_wrote he).progress hs hlt hr (fun _ => rfl) ⟨rfl, rfl, hlt⟩
      | _ => cases he

/-! ## Every sequence of attempts -/

/-- A call that is led on from write to write: it comes to its first write, and from each write to the next one or, when all is written, to its
end. `writes op sent` says that `op` is a write of what comes after the first `sent` bytes. -/
structure Writer (P : Machine (Mem β × List Outcome) O Choice Empty) (s₀ : State (Mem β × List Outcome) O) (len : Nat)
    (writes : O → Nat → Prop) : Prop where
  begins : 0 < len → ∃ m op, P.Reach (fun _ _ _ => True) s₀ ⟨(m, []), [[op]]⟩ ∧ writes op 0
  empty : len = 0 → ∃ m pool, P.Reach (fun _ _ _ => True) s₀ ⟨(m, []), pool⟩ ∧ m.result = some .returned
  accepts : ∀ m os op sent n, writes op sent → P.Reach (fun _ _ _ => True) s₀ ⟨(m, os), [[op]]⟩ → 1 ≤ n → sent + n < len →
    ∃ m' op', P.Reach (fun _ _ _ => True) s₀ ⟨(m', os ++ [.accepted n]), [[op']]⟩ ∧ writes op' (sent + n)
  completes : ∀ m os op sent n, writes op sent → P.Reach (fun _ _ _ => True) s₀ ⟨(m, os), [[op]]⟩ → 1 ≤ n → sent + n = len →
    ∃ m' pool, P.Reach (fun _ _ _ => True) s₀ ⟨(m', os ++ [.accepted n]), pool⟩ ∧ m'.result = some .returned
  blocks : ∀ m os op sent o, writes op sent → P.Reach (fun _ _ _ => True) s₀ ⟨(m, os), [[op]]⟩ → o = .wouldBlock ∨ o = .interrupted →
    ∃ m' op', P.Reach (fun _ _ _ => True) s₀ ⟨(m', os ++ [o]), [[op']]⟩ ∧ writes op' sent
  fails : ∀ m os op sent e, writes op sent → P.Reach (fun _ _ _ => True) s₀ ⟨(m, os), [[op]]⟩ →
    ∃ m' pool r, P.Reach (fun _ _ _ => True) s₀ ⟨(m', os ++ [.error e]), pool⟩ ∧ m'.result = some (.raised r)

section

variable {P : Machine (Mem β × List Outcome) O Choice Empty} {s₀ : State (Mem β × List Outcome) O} {len : Nat} {writes : O → Nat → Prop}

/-- Such a call performs every sequence of attempts: while something is left it comes to the next write, and otherwise it returns. -/
theorem Writer.performs (h : Writer P s₀ len writes) {os : List Outcome} {sent : Nat} {failed : Option Err}
    (ha : Attempts len os sent failed) :
    (failed = none → sent < len → ∃ m op, P.Reach (fun _ _ _ => True) s₀ ⟨(m, os), [[op]]⟩ ∧ writes op sent) ∧
    (failed = none → sent = len → ∃ m pool, P.Reach (fun _ _ _ => True) s₀ ⟨(m, os), pool⟩ ∧ m.result = some .returned) ∧
    (failed ≠ none → ∃ m pool r, P.Reach (fun _ _ _ => True) s₀ ⟨(m, os), pool⟩ ∧ m.result = some (.raised r)) := by
  induction ha with
  | nil => exact ⟨fun _ hlt => h.begins hlt, fun _ hlen => h.empty hlen.symm, fun hne => absurd rfl hne⟩
  | @accepted os sent n _ hn hle ih =>
    obtain ⟨m, op, hr, hw⟩ := ih.1 rfl (by omega)
    exact ⟨fun _ hlt => h.accepts m os op sent n hw hr hn hlt, fun _ hlen => h.completes m os op sent n hw hr hn hlen,
      fun hne => absurd rfl hne⟩
  | @wouldBlock os sent _ hlt ih =>
    obtain ⟨m, op, hr, hw⟩ := ih.1 rfl hlt
    exact ⟨fun _ _ => h.blocks m os op sent _ hw hr (Or.inl rfl), fun _ hlen => absurd hlen (Nat.ne_of_lt hlt), fun hne => absurd rfl hne⟩
  | @interrupted os sent _ hlt ih =>
    obtain ⟨m, op, hr, hw⟩ := ih.1 rfl hlt
    exact ⟨fun _ _ => h.blocks m os op sent _ hw hr (Or.inr rfl), fun _ hlen => absurd hlen (Nat.ne_of_lt hlt), fun hne => absurd rfl hne⟩
  | @error os sent e _ hlt ih =>
    obtain ⟨m, op, hr, hw⟩ := ih.1 rfl hlt
    exact ⟨fun hno _ => (nomatch hno), fun hno _ => (nomatch hno), fun _ => h.fails m os op sent e hw hr⟩

/-- The states of a call that performs a sequence of attempts. -/
theorem Writer.exists_reach (h : Writer P s₀ len writes) {os : List Outcome} {sent : Nat} {failed : Option Err}
    (ha : Attempts len os sent failed) : ∃ s, P.Reach (fun _ _ _ => True) s₀ s ∧ s.mem.2 = os := by
  obtain ⟨hwrites, hreturns, hraises⟩ := h.performs ha
  by_cases hf : failed = none
  · rcases Nat.lt_or_eq_of_le ha.sent_le with hlt | heq
    · obtain ⟨m, op, hr, -⟩ := hwrites hf hlt
      exact ⟨_, hr, rfl⟩
    · obtain ⟨m, pool, hr, -⟩ := hreturns hf heq
      exact ⟨_, hr, rfl⟩
  · obtain ⟨m, pool, r, hr, -⟩ := hraises hf
    exact ⟨_, hr, rfl⟩

/-- One operation of the coroutine. -/
theorem reach_exec {ex : Mem β → O → Choice → Option (Mem β × List O)} {cl : Mem β → Empty → Option (Mem β × List O)} {m : Mem β}
    {os : List Outcome} {op : O} (c : Choice) (m' : Mem β) (new : List O)
    (h : (Machine.recording ⟨ex, cl⟩ note).Reach (fun _ _ _ => True) s₀ ⟨(m, os), [[op]]⟩) (he : ex m op c = some (m', new)) :
    (Machine.recording ⟨ex, cl⟩ note).Reach (fun _ _ _ => True) s₀ ⟨(m', note m (.exec op c) os), [new]⟩ := by
  have hs : (Machine.recording ⟨ex, cl⟩ note).Step ⟨(m, os), [[op]]⟩ (.exec op c) ⟨(m', note m (.exec op c) os), [new ++ []]⟩ :=
    .exec (i := 0) rfl (Machine.recording_exec.mpr ⟨he, rfl⟩)
  rw [List.append_nil] at hs
  exact .step h trivial hs

end

/-- The writes of `_Socket.send`: the first one of each call, and the later ones. -/
def SocketOp.writes (data : List β) (op : SocketOp β) (k : Nat) : Prop :=
  k < data.length ∧ (op = .trySend k (data.drop k) ∨ op = .retry k (data.drop k))

/-- From the loop to the first write of the next `_Socket.send`. -/
theorem SocketOp.next {s₀ : State (Mem β × List Outcome) (SocketOp β)} {m : Mem β} {os : List Outcome} {k : Nat} (hk : k < data.length)
    (h : (socketStream data).Reach (fun _ _ _ => True) s₀ ⟨(m, os), [[.loop k]]⟩) :
    (socketStream data).Reach (fun _ _ _ => True) s₀ ⟨(m, os), [[.trySend k (data.drop k)]]⟩ := by
  have h1 := reach_exec .go m [.send k (data.drop k)] h (by simp only [SocketOp.exec, if_pos hk])
  have hne : (data.drop k).length ≠ 0 := by rw [List.length_drop]; omega
  exact reach_exec .go m _ h1 (by simp only [SocketOp.exec, if_neg hne])

/-- After a write that was accepted, the loop. -/
theorem SocketOp.accept {s₀ : State (Mem β × List Outcome) (SocketOp β)} {m : Mem β} {os : List Outcome} {op : SocketOp β} {k n : Nat}
    (hw : SocketOp.writes data op k) (h : (socketStream data).Reach (fun _ _ _ => True) s₀ ⟨(m, os), [[op]]⟩) (hn : 1 ≤ n)
    (hle : k + n ≤ data.length) :
    (socketStream data).Reach (fun _ _ _ => True) s₀ ⟨(m.take (data.drop k) n, os ++ [.accepted n]), [[.loop (k + n)]]⟩ := by
  have hfit : 1 ≤ n ∧ n ≤ (data.drop k).length := ⟨hn, by rw [List.length_drop]; omega⟩
  have he : SocketOp.exec data m op (.wrote (.accepted n)) = some (m.take (data.drop k) n, [.sent k n]) := by
    rw [SocketOp.exec_retry hw.2]
    exact if_pos hfit
  exact reach_exec .go _ _ (reach_exec (.wrote (.accepted n)) _ _ h he) rfl

/-- The coroutine of `SocketStream.send_all` on a stream that has not sent EOF. -/
theorem socketWriter (data : List β) (closed lockW : Bool) :
    Writer (socketStream data) (start false closed lockW .sendAll) data.length (SocketOp.writes data) where
  begins hlen := by
    have hloop : (socketStream data).Reach (fun _ _ _ => True) (start false closed lockW .sendAll)
        ⟨(⟨[], false, closed, lockW, none⟩, []), [[.loop 0]]⟩ :=
      reach_exec .go _ _ .init (by simp only [SocketOp.exec, Bool.false_eq_true, if_false, if_neg (Nat.ne_of_gt hlen)])
    exact ⟨_, _, SocketOp.next hlen hloop, hlen, Or.inl rfl⟩
  empty hlen := by
    have hend : (socketStream data).Reach (fun _ _ _ => True) (start false closed lockW .sendAll)
        ⟨(⟨[], false, closed, lockW, some .returned⟩, []), [[]]⟩ :=
      reach_exec .go _ _ .init (by simp only [SocketOp.exec, Bool.false_eq_true, if_false, if_pos hlen, Mem.finish])
    exact ⟨_, _, hend, rfl⟩
  accepts m os op sent n hw hr hn hlt :=
    ⟨_, _, SocketOp.next hlt (SocketOp.accept hw hr hn (Nat.le_of_lt hlt)), hlt, Or.inl rfl⟩
  completes m os op sent n hw hr hn heq := by
    have hloop := SocketOp.accept hw hr hn (Nat.le_of_eq heq)
    exact ⟨_, _, reach_exec .go _ _ hloop (by simp only [SocketOp.exec, heq, Nat.lt_irrefl, if_false]; rfl), rfl⟩
  blocks m os op sent o hw hr ho := by
    have he : SocketOp.exec data m op (.wrote o) = some (m, [.armW sent (data.drop sent)]) := by
      rw [SocketOp.exec_retry hw.2]
      rcases ho with rfl | rfl <;> rfl
    exact ⟨_, _, reach_exec .ready _ _ (reach_exec (.wrote o) _ _ hr he) rfl, hw.1, Or.inr rfl⟩
  fails m os op sent e hw hr :=
    ⟨_, _, _, reach_exec (.wrote (.error e)) _ _ hr (SocketOp.exec_retry hw.2 m _), rfl⟩

/-- The writes of the inner loop. -/
def FdOp.writes (data : List β) (op : FdOp β) (k : Nat) : Prop :=
  k < data.length ∧ op = .write k (data.drop k)

/-- From the loop to the next write, when it need not wait. -/
theorem FdOp.next {s₀ : State (Mem β × List Outcome) (FdOp β)} {m : Mem β} {os : List Outcome} {k : Nat} (hk : k < data.length)
    (h : (fdStream data).Reach (fun _ _ _ => True) s₀ ⟨(m, os), [[.loop k]]⟩) :
    (fdStream data).Reach (fun _ _ _ => True) s₀ ⟨(m, os), [[.write k (data.drop k)]]⟩ := by
  have harm := reach_exec .go m [.armW k (data.drop k)] h (by simp only [FdOp.exec, if_pos hk])
  exact reach_exec .ready m _ harm rfl

/-- After a write that was accepted, the loop. -/
theorem FdOp.accept {s₀ : State (Mem β × List Outcome) (FdOp β)} {m : Mem β} {os : List Outcome} {op : FdOp β} {k n : Nat}
    (hw : FdOp.writes data op k) (h : (fdStream data).Reach (fun _ _ _ => True) s₀ ⟨(m, os), [[op]]⟩) (hn : 1 ≤ n)
    (hle : k + n ≤ data.length) :
    (fdStream data).Reach (fun _ _ _ => True) s₀ ⟨(m.take (data.drop k) n, os ++ [.accepted n]), [[.loop (k + n)]]⟩ := by
  obtain ⟨-, rfl⟩ := hw
  have hfit : 1 ≤ n ∧ n ≤ (data.drop k).length := ⟨hn, by rw [List.length_drop]; omega⟩
  exact reach_exec (.wrote (.accepted n)) _ _ h (if_pos hfit)

/-- The coroutine of `FdStream.send_all` on an open file whose write lock is free. -/
theorem fdWriter (data : List β) (eof : Bool) : Writer (fdStream data) (start eof false false .sendAll) data.length (FdOp.writes data) where
  begins hlen := by
    have hlock : (fdStream data).Reach (fun _ _ _ => True) (start eof false false .sendAll)
        ⟨(⟨[], eof, false, false, none⟩, []), [[.orRaise]]⟩ := reach_exec .go _ _ .init rfl
    have hloop := reach_exec .go ⟨[], eof, false, true, none⟩ [.loop 0] hlock
      (by simp only [FdOp.exec, Bool.false_eq_true, if_false, if_neg (Nat.ne_of_gt hlen)])
    exact ⟨_, _, FdOp.next hlen hloop, hlen, rfl⟩
  empty hlen := by
    have hlock : (fdStream data).Reach (fun _ _ _ => True) (start eof false false .sendAll)
        ⟨(⟨[], eof, false, false, none⟩, []), [[.orRaise]]⟩ := reach_exec .go _ _ .init rfl
    have hend := reach_exec .go ⟨[], eof, false, false, some .returned⟩ [] hlock
      (by simp only [FdOp.exec, Bool.false_eq_true, if_false, if_pos hlen, Mem.unlock])
    exact ⟨_, _, hend, rfl⟩
  accepts m os op sent n hw hr hn hlt := ⟨_, _, FdOp.next hlt (FdOp.accept hw hr hn (Nat.le_of_lt hlt)), hlt, rfl⟩
  completes m os op sent n hw hr hn heq := by
    have hloop := FdOp.accept hw hr hn (Nat.le_of_eq heq)
    exact ⟨_, _, reach_exec .go _ _ hloop (by simp only [FdOp.exec, heq, Nat.lt_irrefl, if_false]; rfl), rfl⟩
  blocks m os op sent o hw hr ho := by
    obtain ⟨hlt, rfl⟩ := hw
    have harm := reach_exec (.wrote o) m [.armW sent (data.drop sent)] hr (by rcases ho with rfl | rfl <;> rfl)
    exact ⟨_, _, reach_exec .ready _ _ harm rfl, hlt, rfl⟩
  fails m os op sent e hw hr := by
    obtain ⟨hlt, rfl⟩ := hw
    cases e with
    | brokenPipe => exact ⟨_, _, _, reach_exec (.wrote (.error .brokenPipe)) _ _ hr rfl, rfl⟩
    | other => exact ⟨_, _, _, reach_exec (.wrote (.error .other)) _ _ hr rfl, rfl⟩

end Tonio.Streams
