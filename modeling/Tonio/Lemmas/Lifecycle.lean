import Tonio.Lifecycle

/-!
# Where a loop is

With one `run_forever` at a time there is one operation pending at most, and for each of them it is known what has been done to the self-socket
and to the signals (`At`). What other threads do to descriptors of their own changes nothing of that (`View`).
-/

namespace Tonio

namespace Lifecycle

open Interleaving

variable {sigset : List Nat} {m m' : Mem}

/-! ## Steps -/

/-- What an operation does. -/
inductive Move (sigset : List Nat) (m : Mem) : Op → Mem → List Op → Prop
  | refused (main : Bool) (h : m.ssockW.isSome) : Move sigset m (.start main) m [.sigDereg main (some alreadySetup)]
  | start (main : Bool) (h : m.ssockW = none) : Move sigset m (.start main) m [.socketpair main]
  | socketpair (main : Bool) (r w : Nat) (hne : r ≠ w) (hr : m.fds r = none) (hw : m.fds w = none) :
    Move sigset m (.socketpair main)
      (({ m with fds := Function.update (Function.update m.fds r (some .ours)) w (some .ours) }.setR (some r)).setW (some w)) [.setBlocking main]
  | noPair (main : Bool) (e : Error) : Move sigset m (.socketpair main) m [.sigDereg main (some e)]
  | setBlocking (main : Bool) : Move sigset m (.setBlocking main) m [.setWakeupFd main]
  | blocking (main : Bool) (e : Error) : Move sigset m (.setBlocking main) ((m.setW none).setR none) [.sigDereg main (some e)]
  | setWakeupFd (w : Nat) (h : m.ssockW = some w) :
    Move sigset m (.setWakeupFd true) { m with wakeup := some w, sigWfd := m.wakeup } [.sigAdd true sigset]
  | deaf (main : Bool) (h : sigset = []) : Move sigset m (.setWakeupFd main) m [.poll main]
  | noWakeupFd (main : Bool) (e : Error) (h : sigset ≠ []) : Move sigset m (.setWakeupFd main) m [.sigDereg main (some e)]
  | sigAdd (main : Bool) (sig : Nat) (sigs : List Nat) :
    Move sigset m (.sigAdd main (sig :: sigs)) { m with handlers := Function.update m.handlers sig .noop } [.siginterrupt main sigs]
  | noSignal (main : Bool) (sig : Nat) (sigs : List Nat) (e : Error) : Move sigset m (.sigAdd main (sig :: sigs)) m [.sigDereg main (some e)]
  | listen (main : Bool) : Move sigset m (.sigAdd main []) { m with sigListening := true } [.poll main]
  | siginterrupt (main : Bool) (sigs : List Nat) : Move sigset m (.siginterrupt main sigs) m [.sigAdd main sigs]
  | interrupting (main : Bool) (sigs : List Nat) (e : Error) : Move sigset m (.siginterrupt main sigs) m [.sigDereg main (some e)]
  | poll (main : Bool) : Move sigset m (.poll main) m [.fromRawFd main]
  | noPoll (main : Bool) (e : Error) : Move sigset m (.poll main) m [.sigDereg main (some e)]
  | fromRawFd (main : Bool) (r w : Nat) (hr : m.ssockR = some r) (hw : m.ssockW = some w) :
    Move sigset m (.fromRawFd main) { m with owned := r :: w :: m.owned } [.serve main r w]
  | noFd (main : Bool) (e : Error) (h : m.ssockR = none ∨ m.ssockW = none) : Move sigset m (.fromRawFd main) m [.sigDereg main (some e)]
  | serve (main : Bool) (r w : Nat) (e : Option Error) : Move sigset m (.serve main r w) m [.dropState main e [r, w]]
  | dropOne (main : Bool) (e : Option Error) (n : Nat) (ns : List Nat) :
    Move sigset m (.dropState main e (n :: ns)) { m.close n with owned := m.owned.erase n } [.dropState main e ns]
  | dropped (main : Bool) (e : Option Error) : Move sigset m (.dropState main e []) m [.sigDereg main e]
  | sigDereg (main : Bool) (e : Option Error) (h : m.sigListening = true) :
    Move sigset m (.sigDereg main e) { m with sigListening := false } [.sigRem main e sigset]
  | notListening (main : Bool) (e : Option Error) (h : m.sigListening = false) : Move sigset m (.sigDereg main e) m [.ssockStop e]
  | sigRem (e : Option Error) (sig : Nat) (sigs : List Nat) :
    Move sigset m (.sigRem true e (sig :: sigs)) { m with handlers := Function.update m.handlers sig (defaultHandler sig) } [.sigRem true e sigs]
  | notRemoved (main : Bool) (e : Option Error) (sig : Nat) (sigs : List Nat) :
    Move sigset m (.sigRem main e (sig :: sigs)) m [.sigRem main e sigs]
  | removed (main : Bool) (e : Option Error) : Move sigset m (.sigRem main e []) m [.restore main e]
  | restore (e : Option Error) : Move sigset m (.restore true e) { m with wakeup := m.sigWfd } [.ssockStop e]
  | notRestored (main : Bool) (e : Option Error) (e' : Error) : Move sigset m (.restore main e) (m.ends (some e')) []
  | ssockStop (e : Option Error) (h : m.ssockW.isSome) : Move sigset m (.ssockStop e) (m.setW none) [.dropR e]
  | notStopped (e : Option Error) (h : m.ssockW = none) : Move sigset m (.ssockStop e) (m.ends (some notSetup)) []
  | dropR (e : Option Error) : Move sigset m (.dropR e) (m.setR none) [.resetStopping e]
  | resetStopping (e : Option Error) : Move sigset m (.resetStopping e) ({ m with stopping := false }.ends e) []

theorem exec_move {op : Op} {c : Choice} {new : List Op} (h : exec sigset m op c = some (m', new)) : Move sigset m op m' new := by
  cases op with
  | start main =>
    cases c with
    | go =>
      simp only [exec, Option.some.injEq, Prod.mk.injEq] at h
      obtain ⟨rfl, rfl⟩ := h
      split
      · exact .refused main ‹_›
      · exact .start main (Option.not_isSome_iff_eq_none.mp ‹_›)
    | pair | fail => cases h
  | socketpair main =>
    cases c with
    | pair r w =>
      simp only [exec] at h
      split at h <;> simp only [Option.some.injEq, Prod.mk.injEq, reduceCtorEq] at h
      obtain ⟨rfl, rfl⟩ := h
      rename_i hfree
      exact .socketpair main r w hfree.1 hfree.2.1 hfree.2.2
    | fail e =>
      simp only [exec, Option.some.injEq, Prod.mk.injEq] at h
      obtain ⟨rfl, rfl⟩ := h
      exact .noPair main e
    | go => cases h
  | setWakeupFd main =>
    cases c with
    | go =>
      simp only [exec] at h
      split at h
      · split at h <;> simp only [Option.some.injEq, Prod.mk.injEq, reduceCtorEq] at h
        obtain ⟨rfl, rfl⟩ := h
        rename_i w hw hmain
        obtain ⟨rfl, -⟩ := hmain
        exact .setWakeupFd w hw
      · cases h
    | fail e =>
      simp only [exec, Option.some.injEq, Prod.mk.injEq] at h
      obtain ⟨rfl, rfl⟩ := h
      split
      · exact .deaf main ‹_›
      · exact .noWakeupFd main e ‹_›
    | pair => cases h
  | fromRawFd main =>
    cases c with
    | go =>
      simp only [exec] at h
      split at h <;> simp only [Option.some.injEq, Prod.mk.injEq, reduceCtorEq] at h
      obtain ⟨rfl, rfl⟩ := h
      exact .fromRawFd main _ _ ‹_› ‹_›
    | fail e =>
      simp only [exec] at h
      split at h <;> simp only [Option.some.injEq, Prod.mk.injEq, reduceCtorEq] at h
      obtain ⟨rfl, rfl⟩ := h
      exact .noFd main e ‹_›
    | pair => cases h
  | sigDereg main e =>
    cases c with
    | go =>
      simp only [exec] at h
      split at h <;> simp only [Option.some.injEq, Prod.mk.injEq] at h <;> obtain ⟨rfl, rfl⟩ := h
      · exact .sigDereg main e ‹_›
      · exact .notListening main e (Bool.eq_false_of_not_eq_true ‹_›)
    | pair | fail => cases h
  | sigRem main e sigs =>
    cases sigs with
    | nil =>
      cases c with
      | go =>
        simp only [exec, Option.some.injEq, Prod.mk.injEq] at h
        obtain ⟨rfl, rfl⟩ := h
        exact .removed main e
      | pair | fail => cases h
    | cons sig sigs =>
      cases c with
      | go =>
        simp only [exec] at h
        split at h <;> simp only [Option.some.injEq, Prod.mk.injEq, reduceCtorEq] at h
        obtain ⟨rfl, rfl⟩ := h
        rename_i hmain
        obtain rfl := hmain
        exact .sigRem e sig sigs
      | fail =>
        simp only [exec, Option.some.injEq, Prod.mk.injEq] at h
        obtain ⟨rfl, rfl⟩ := h
        exact .notRemoved main e sig sigs
      | pair => cases h
  | restore main e =>
    cases c with
    | go =>
      simp only [exec] at h
      split at h <;> simp only [Option.some.injEq, Prod.mk.injEq, reduceCtorEq] at h
      obtain ⟨rfl, rfl⟩ := h
      rename_i hmain
      obtain ⟨rfl, -⟩ := hmain
      exact .restore e
    | fail e' =>
      simp only [exec, Option.some.injEq, Prod.mk.injEq] at h
      obtain ⟨rfl, rfl⟩ := h
      exact .notRestored main e e'
    | pair => cases h
  | ssockStop e =>
    cases c with
    | go =>
      simp only [exec, Option.some.injEq] at h
      split at h <;> obtain ⟨rfl, rfl⟩ := Prod.mk.inj h
      · exact .ssockStop e ‹_›
      · exact .notStopped e (Option.not_isSome_iff_eq_none.mp ‹_›)
    | pair | fail => cases h
  | sigAdd main sigs =>
    cases sigs <;> cases c <;> simp only [exec, Option.some.injEq, Prod.mk.injEq, reduceCtorEq] at h <;> obtain ⟨rfl, rfl⟩ := h
    · exact .listen main
    · exact .sigAdd main _ _
    · exact .noSignal main _ _ _
  | dropState main e ns =>
    cases ns <;> cases c <;> simp only [exec, Option.some.injEq, Prod.mk.injEq, reduceCtorEq] at h <;> obtain ⟨rfl, rfl⟩ := h
    · exact .dropped main e
    · exact .dropOne main e _ _
  | setBlocking main =>
    cases c <;> simp only [exec, Option.some.injEq, Prod.mk.injEq, reduceCtorEq] at h <;> obtain ⟨rfl, rfl⟩ := h
    · exact .setBlocking main
    · exact .blocking main _
  | siginterrupt main sigs =>
    cases c <;> simp only [exec, Option.some.injEq, Prod.mk.injEq, reduceCtorEq] at h <;> obtain ⟨rfl, rfl⟩ := h
    · exact .siginterrupt main sigs
    · exact .interrupting main sigs _
  | poll main =>
    cases c <;> simp only [exec, Option.some.injEq, Prod.mk.injEq, reduceCtorEq] at h <;> obtain ⟨rfl, rfl⟩ := h
    · exact .poll main
    · exact .noPoll main _
  | serve main r w =>
    cases c <;> simp only [exec, Option.some.injEq, Prod.mk.injEq, reduceCtorEq] at h <;> obtain ⟨rfl, rfl⟩ := h
    · exact .serve main r w none
    · exact .serve main r w (some _)
  | dropR e =>
    cases c <;> simp only [exec, Option.some.injEq, Prod.mk.injEq, reduceCtorEq] at h
    obtain ⟨rfl, rfl⟩ := h
    exact .dropR e
  | resetStopping e =>
    cases c <;> simp only [exec, Option.some.injEq, Prod.mk.injEq, reduceCtorEq] at h
    obtain ⟨rfl, rfl⟩ := h
    exact .resetStopping e

/-! ## What other threads do not change -/

/-- A state without the descriptors of other threads and the records. -/
structure View where
  ours : Nat → Prop
  handlers : Nat → Handler
  wakeup : Option Nat
  ssockR : Option Nat
  ssockW : Option Nat
  sigWfd : Option Nat
  sigListening : Bool
  owned : List Nat

def Mem.view (m : Mem) : View :=
  ⟨fun n => m.fds n = some .ours, m.handlers, m.wakeup, m.ssockR, m.ssockW, m.sigWfd, m.sigListening, m.owned⟩

/-- A descriptor is closed. -/
def View.close (v : View) (n : Nat) : View := { v with ours := fun k => k ≠ n ∧ v.ours k }

@[simp] theorem view_ends (e : Option Error) : (m.ends e).view = m.view := rfl

@[simp] theorem view_close (n : Nat) : (m.close n).view = m.view.close n := by
  have hours : (fun k => Function.update m.fds n none k = some .ours) = fun k => k ≠ n ∧ m.fds k = some .ours := by
    funext k
    rw [Function.update_apply]
    split <;> simp [*]
  unfold Mem.view View.close Mem.close
  rw [hours]

theorem view_setW {w : Nat} (h : m.ssockW = some w) (v : Option Nat) : (m.setW v).view = { m.view.close w with ssockW := v } := by
  unfold Mem.setW
  rw [h]
  change { (m.close w).view with ssockW := v } = _
  rw [view_close]

theorem view_setR {r : Nat} (h : m.ssockR = some r) (v : Option Nat) : (m.setR v).view = { m.view.close r with ssockR := v } := by
  unfold Mem.setR
  rw [h]
  change { (m.close r).view with ssockR := v } = _
  rw [view_close]

theorem setW_ssockR (v : Option Nat) : (m.setW v).ssockR = m.ssockR := by
  unfold Mem.setW
  split <;> rfl

theorem setR_last (v : Option Nat) : (m.setR v).last = m.last := by
  unfold Mem.setR
  split <;> rfl

theorem setW_last (v : Option Nat) : (m.setW v).last = m.last := by
  unfold Mem.setW
  split <;> rfl

/-- What other threads do, and the signals. -/
theorem view_call {l : Call} {new : List Op} (hl : ∀ main, l ≠ .runForever main) (h : call m l = some (m', new)) :
    m'.view = m.view ∧ m'.last = m.last ∧ new = [] := by
  cases l with
  | runForever main => exact absurd rfl (hl main)
  | openFd n =>
    simp only [call] at h
    split at h <;> simp only [Option.some.injEq, Prod.mk.injEq, reduceCtorEq] at h
    obtain ⟨rfl, rfl⟩ := h
    rename_i hn
    have hours : ∀ b, (fun k => Function.update m.fds n (some (.other b)) k = some .ours) = fun k => m.fds k = some .ours := by
      intro b
      funext k
      rw [Function.update_apply]
      split <;> simp [*]
    refine ⟨?_, rfl, rfl⟩
    unfold Mem.view
    rw [hours]
  | closeFd n =>
    simp only [call] at h
    split at h <;> simp only [Option.some.injEq, Prod.mk.injEq, reduceCtorEq] at h
    obtain ⟨rfl, rfl⟩ := h
    have hours : (fun k => Function.update m.fds n none k = some .ours) = fun k => m.fds k = some .ours := by
      funext k
      rw [Function.update_apply]
      split <;> simp [*]
    refine ⟨?_, rfl, rfl⟩
    unfold Mem.view
    rw [hours]
  | signal sig =>
    simp only [call] at h
    split at h
    · split at h <;> simp only [Option.some.injEq, Prod.mk.injEq] at h <;> obtain ⟨rfl, rfl⟩ := h <;> exact ⟨rfl, rfl, rfl⟩
    · simp only [Option.some.injEq, Prod.mk.injEq] at h
      obtain ⟨rfl, rfl⟩ := h
      exact ⟨rfl, rfl, rfl⟩
  | stop =>
    simp only [call, Option.some.injEq, Prod.mk.injEq] at h
    obtain ⟨rfl, rfl⟩ := h
    exact ⟨rfl, rfl, rfl⟩

/-! ## The self-socket -/

/-- There is no self-socket. -/
structure View.Bare (v : View) : Prop where
  ssockR : v.ssockR = none
  ssockW : v.ssockW = none
  owned : v.owned = []

/-- There is a self-socket. `ns` is what `_run` has of it, and `opened` what is open of it. -/
structure View.Has (v : View) (r w : Nat) (ns opened : List Nat) : Prop where
  ne : r ≠ w
  ssockR : v.ssockR = some r
  ssockW : v.ssockW = some w
  owned : v.owned = ns
  opened : ∀ n, n = r ∨ n = w → (v.ours n ↔ n ∈ opened)

/-- There is a self-socket, and `_run` has nothing of it. -/
def View.Sock (v : View) : Prop := ∃ r w opened, v.Has r w [] opened

/-! ## The signals -/

variable (sigset) in
/-- The handlers of the signals that are not the runtime's are as they were. -/
def View.Outside (v : View) (r : Run) : Prop := ∀ sig, sig ∉ sigset → v.handlers sig = r.handlers sig

/-- Nothing has been done about signals. -/
structure View.Untouched (v : View) (r : Run) : Prop where
  handlers : v.handlers = r.handlers
  wakeup : v.wakeup = r.wakeup
  deaf : v.sigListening = false

variable (sigset) in
/-- The self-socket is the wakeup descriptor, and all signals but `sigs` have been added. -/
structure View.Registering (v : View) (r : Run) (sigs : List Nat) : Prop where
  outside : v.Outside sigset r
  wakeup : v.wakeup = v.ssockW
  saved : v.sigWfd = r.wakeup
  rest : sigs ⊆ sigset
  noop : ∀ sig ∈ sigset, sig ∉ sigs → v.handlers sig = .noop

variable (sigset) in
/-- The runtime listens to its signals, or has none and could not be woken by any. -/
def View.Ready (v : View) (r : Run) : Prop :=
  (v.Registering sigset r [] ∧ v.sigListening = true) ∨ (sigset = [] ∧ v.Untouched r)

variable (sigset) in
/-- The runtime does not listen any more, and some signals have been removed. -/
structure View.Removing (v : View) (r : Run) : Prop where
  outside : v.Outside sigset r
  wakeup : v.wakeup = v.ssockW
  saved : v.sigWfd = r.wakeup
  deaf : v.sigListening = false
  handled : ∀ sig ∈ sigset, v.handlers sig = .noop ∨ v.handlers sig = defaultHandler sig

variable (sigset) in
/-- What `_sig_dereg` leaves. -/
structure View.Left (v : View) (r : Run) (e : Option Error) : Prop where
  deaf : v.sigListening = false
  outside : v.Outside sigset r
  wakeup : v.wakeup = r.wakeup ∨ e ≠ none ∧ ∃ w, v.wakeup = some w ∧ (v.ssockW = some w ∨ ¬v.ours w)
  handled : e = none → ∀ sig ∈ sigset, v.handlers sig = .noop ∨ v.handlers sig = defaultHandler sig

/-! ## Where the thread is -/

variable (sigset) in
/-- What is known when an operation is next. -/
def At (v : View) (r : Run) : Op → Prop
  | .start _ => v.Untouched r ∧ (v.Bare ∨ v.Sock)
  | .socketpair _ => v.Untouched r ∧ v.Bare
  | .setBlocking _ | .setWakeupFd _ => v.Untouched r ∧ ∃ x w, v.Has x w [] [x, w]
  | .sigAdd _ sigs | .siginterrupt _ sigs => (v.Registering sigset r sigs ∧ v.sigListening = false) ∧ ∃ x w, v.Has x w [] [x, w]
  | .poll _ | .fromRawFd _ => v.Ready sigset r ∧ ∃ x w, v.Has x w [] [x, w]
  | .serve _ x w => v.Ready sigset r ∧ v.Has x w [x, w] [x, w]
  | .dropState _ _ ns => v.Ready sigset r ∧ ∃ x w, v.Has x w ns ns ∧ ns <:+ [x, w]
  | .sigDereg _ e => (v.Ready sigset r ∧ v.Sock) ∨ (v.Left sigset r e ∧ e ≠ none ∧ (v.Bare ∨ v.Sock))
  | .sigRem _ _ sigs => (v.Removing sigset r ∧ v.Sock) ∧ sigs ⊆ sigset
  | .restore _ _ => v.Removing sigset r ∧ v.Sock
  | .ssockStop e => v.Left sigset r e ∧ (v.Bare ∨ v.Sock)
  | .dropR e => v.Left sigset r e ∧ (∃ x, v.ssockR = some x) ∧ v.ssockW = none ∧ v.owned = []
  | .resetStopping e => v.Left sigset r e ∧ v.Bare

variable (sigset) in
/-- What is known when `run_forever` is over. -/
structure Over (v : View) (r : Run) (e : Option Error) : Prop where
  left : v.Left sigset r e
  sock : v.Bare ∨ v.Sock
  bare : e = none → v.Bare

/-! ## What a step does -/

section

variable {v : View} {r : Run} {e : Option Error}

theorem View.Has.sock {x w : Nat} {opened : List Nat} (h : v.Has x w [] opened) : v.Sock := ⟨x, w, opened, h⟩

/-- A self-socket is there, or is not. -/
theorem ssockW_isSome (h : v.Bare ∨ v.Sock) (hw : v.ssockW = none) : v.Bare := by
  rcases h with h | ⟨_, w, _, h⟩
  · exact h
  · rw [h.ssockW] at hw
    cases hw

theorem View.Untouched.left (h : v.Untouched r) (e : Error) : v.Left sigset r (some e) where
  deaf := h.deaf
  outside sig _ := by rw [h.handlers]
  wakeup := Or.inl h.wakeup
  handled he := by cases he

/-- A registration that did not come to its end. -/
theorem View.Registering.left {sigs : List Nat} (h : v.Registering sigset r sigs) (hdeaf : v.sigListening = false) {x w : Nat} {opened : List Nat}
    (hs : v.Has x w [] opened) (e : Error) : v.Left sigset r (some e) where
  deaf := hdeaf
  outside := h.outside
  wakeup := Or.inr ⟨by simp, w, h.wakeup.trans hs.ssockW, Or.inl hs.ssockW⟩
  handled he := by cases he

/-- The loop was deaf. -/
theorem View.Ready.left (h : v.Ready sigset r) (hdeaf : v.sigListening = false) : v.Left sigset r e := by
  rcases h with ⟨-, hl⟩ | ⟨rfl, h⟩
  · rw [hl] at hdeaf
    cases hdeaf
  · exact ⟨hdeaf, fun sig _ => by rw [h.handlers], Or.inl h.wakeup, fun _ sig hsig => absurd hsig List.not_mem_nil⟩

/-- The loop was listening. -/
theorem View.Ready.removing (h : v.Ready sigset r) (hl : v.sigListening = true) : { v with sigListening := false }.Removing sigset r := by
  rcases h with ⟨h, -⟩ | ⟨-, h⟩
  · exact ⟨h.outside, h.wakeup, h.saved, rfl, fun sig hsig => Or.inl (h.noop sig hsig List.not_mem_nil)⟩
  · rw [h.deaf] at hl
    cases hl

/-- A removal whose wakeup descriptor could not be restored. -/
theorem View.Removing.left (h : v.Removing sigset r) (hs : v.Sock) (e : Error) : v.Left sigset r (some e) := by
  obtain ⟨x, w, opened, hs⟩ := hs
  exact ⟨h.deaf, h.outside, Or.inr ⟨by simp, w, h.wakeup.trans hs.ssockW, Or.inl hs.ssockW⟩, fun he => by cases he⟩

/-- Another error takes the place of the one in flight. -/
theorem View.Left.raise (h : v.Left sigset r e) (e' : Error) : v.Left sigset r (some e') where
  deaf := h.deaf
  outside := h.outside
  wakeup := h.wakeup.imp id (fun hw => ⟨by simp, hw.2⟩)
  handled he := by cases he

/-- The write end is closed. -/
theorem View.Left.setW {w : Nat} (h : v.Left sigset r e) (hw : v.ssockW = some w) : { v.close w with ssockW := none }.Left sigset r e where
  deaf := h.deaf
  outside := h.outside
  handled := h.handled
  wakeup := by
    refine h.wakeup.imp id ?_
    rintro ⟨he, n, hn, hsock | hours⟩
    · refine ⟨he, n, hn, Or.inr (fun hclosed => hclosed.1 ?_)⟩
      rw [hw] at hsock
      exact (Option.some.inj hsock).symm
    · exact ⟨he, n, hn, Or.inr (fun hclosed => hours hclosed.2)⟩

/-- The read end is closed. -/
theorem View.Left.setR (h : v.Left sigset r e) (x : Nat) : { v.close x with ssockR := none }.Left sigset r e where
  deaf := h.deaf
  outside := h.outside
  handled := h.handled
  wakeup := h.wakeup.imp id (fun hw => ⟨hw.1, hw.2.imp (fun _ hn => ⟨hn.1, hn.2.imp id (fun hours hclosed => hours hclosed.2)⟩)⟩)

/-- A number of the self-socket is closed by `_run`. -/
theorem View.Has.dropOne {x w n : Nat} {ns : List Nat} (h : v.Has x w (n :: ns) (n :: ns)) (hns : n :: ns <:+ [x, w]) :
    { v.close n with owned := v.owned.erase n }.Has x w ns ns ∧ ns <:+ [x, w] := by
  have hnodup : (n :: ns).Nodup := hns.sublist.nodup (by simpa using h.ne)
  refine ⟨⟨h.ne, h.ssockR, h.ssockW, ?_, fun k hk => ?_⟩, (List.suffix_cons n ns).trans hns⟩
  · change v.owned.erase n = ns
    rw [h.owned, List.erase_cons_head]
  · change k ≠ n ∧ v.ours k ↔ k ∈ ns
    rw [h.opened k hk, List.mem_cons]
    refine ⟨fun hkn => hkn.2.resolve_left hkn.1, fun hkn => ⟨?_, Or.inr hkn⟩⟩
    rintro rfl
    exact (List.nodup_cons.mp hnodup).1 hkn

end

/-- A pair of sockets is made. -/
theorem has_socketpair {x w : Nat} (hne : x ≠ w) (h : m.view.Bare) :
    (({ m with fds := Function.update (Function.update m.fds x (some .ours)) w (some .ours) }.setR (some x)).setW (some w)).view.Has x w [] [x, w] ∧
      ∀ r, m.view.Untouched r →
        (({ m with fds := Function.update (Function.update m.fds x (some .ours)) w (some .ours) }.setR (some x)).setW (some w)).view.Untouched r := by
  have hR : m.ssockR = none := h.ssockR
  have hW : m.ssockW = none := h.ssockW
  unfold Mem.setR Mem.setW
  simp only [hR, hW]
  refine ⟨⟨hne, rfl, rfl, h.owned, fun n hn => ?_⟩, fun r hr => ⟨hr.handlers, hr.wakeup, hr.deaf⟩⟩
  simp only [Mem.view, Function.update_apply]
  rcases hn with rfl | rfl <;> simp

theorem at_move {r : Run} {op : Op} {new : List Op} (hat : At sigset m.view r op) (h : Move sigset m op m' new) :
    (∃ op', new = [op'] ∧ At sigset m'.view r op' ∧ m'.last = m.last) ∨
      (new = [] ∧ ∃ e, m'.last = m.last.map (fun r => { r with ended := some e }) ∧ Over sigset m'.view r e) := by
  cases h with
  | refused main hw =>
    obtain ⟨hu, hs⟩ := hat
    exact Or.inl ⟨_, rfl, Or.inr ⟨hu.left _, by simp, hs⟩, rfl⟩
  | start main hw =>
    obtain ⟨hu, hs⟩ := hat
    exact Or.inl ⟨_, rfl, ⟨hu, ssockW_isSome hs hw⟩, rfl⟩
  | socketpair main x w hne =>
    obtain ⟨hu, hs⟩ := hat
    obtain ⟨hhas, hsame⟩ := has_socketpair hne hs
    exact Or.inl ⟨_, rfl, ⟨hsame r hu, x, w, hhas⟩, (setW_last _).trans (setR_last _)⟩
  | noPair main e =>
    obtain ⟨hu, hs⟩ := hat
    exact Or.inl ⟨_, rfl, Or.inr ⟨hu.left e, by simp, Or.inl hs⟩, rfl⟩
  | setBlocking main => exact Or.inl ⟨_, rfl, hat, rfl⟩
  | blocking main e =>
    obtain ⟨hu, x, w, hs⟩ := hat
    have hview : ((m.setW none).setR none).view = { { m.view.close w with ssockW := none }.close x with ssockR := none } := by
      rw [view_setR ((setW_ssockR none).trans hs.ssockR), view_setW hs.ssockW]
    refine Or.inl ⟨_, rfl, Or.inr ?_, (setR_last _).trans (setW_last _)⟩
    rw [hview]
    exact ⟨((hu.left e).setW hs.ssockW).setR x, by simp, Or.inl ⟨rfl, rfl, hs.owned⟩⟩
  | setWakeupFd w hw =>
    obtain ⟨hu, x, w', hs⟩ := hat
    refine Or.inl ⟨_, rfl, ⟨⟨⟨fun sig _ => congrFun hu.handlers sig, hw.symm, hu.wakeup, fun _ h => h, fun _ hin hout => absurd hin hout⟩, hu.deaf⟩, x, w', ?_⟩, rfl⟩
    exact ⟨hs.ne, hs.ssockR, hs.ssockW, hs.owned, hs.opened⟩
  | deaf main hempty =>
    obtain ⟨hu, hs⟩ := hat
    exact Or.inl ⟨_, rfl, ⟨Or.inr ⟨hempty, hu⟩, hs⟩, rfl⟩
  | noWakeupFd main e =>
    obtain ⟨hu, x, w, hs⟩ := hat
    exact Or.inl ⟨_, rfl, Or.inr ⟨hu.left e, by simp, Or.inr hs.sock⟩, rfl⟩
  | sigAdd main sig sigs =>
    obtain ⟨⟨hreg, hdeaf⟩, x, w, hs⟩ := hat
    have hsig : sig ∈ sigset := hreg.rest List.mem_cons_self
    refine Or.inl ⟨_, rfl, ⟨⟨⟨fun k hk => ?_, hreg.wakeup, hreg.saved, fun k hk => hreg.rest (List.mem_cons_of_mem sig hk), fun k hk hrest => ?_⟩, hdeaf⟩,
      x, w, ⟨hs.ne, hs.ssockR, hs.ssockW, hs.owned, hs.opened⟩⟩, rfl⟩
    · refine (Function.update_of_ne ?_ _ _).trans (hreg.outside k hk)
      rintro rfl
      exact hk hsig
    · change Function.update m.handlers sig .noop k = .noop
      rw [Function.update_apply]
      split
      · rfl
      · exact hreg.noop k hk (by simp [*])
  | noSignal main sig sigs e =>
    obtain ⟨⟨hreg, hdeaf⟩, x, w, hs⟩ := hat
    exact Or.inl ⟨_, rfl, Or.inr ⟨hreg.left hdeaf hs e, by simp, Or.inr hs.sock⟩, rfl⟩
  | listen main =>
    obtain ⟨⟨hreg, -⟩, x, w, hs⟩ := hat
    exact Or.inl ⟨_, rfl, ⟨Or.inl ⟨⟨hreg.outside, hreg.wakeup, hreg.saved, hreg.rest, hreg.noop⟩, rfl⟩, x, w,
      ⟨hs.ne, hs.ssockR, hs.ssockW, hs.owned, hs.opened⟩⟩, rfl⟩
  | siginterrupt main sigs => exact Or.inl ⟨_, rfl, hat, rfl⟩
  | interrupting main sigs e =>
    obtain ⟨⟨hreg, hdeaf⟩, x, w, hs⟩ := hat
    exact Or.inl ⟨_, rfl, Or.inr ⟨hreg.left hdeaf hs e, by simp, Or.inr hs.sock⟩, rfl⟩
  | poll main => exact Or.inl ⟨_, rfl, hat, rfl⟩
  | noPoll main e =>
    obtain ⟨hready, x, w, hs⟩ := hat
    exact Or.inl ⟨_, rfl, Or.inl ⟨hready, hs.sock⟩, rfl⟩
  | fromRawFd main x w hx hw =>
    obtain ⟨hready, x', w', hs⟩ := hat
    obtain rfl : x' = x := Option.some.inj (hs.ssockR.symm.trans hx)
    obtain rfl : w' = w := Option.some.inj (hs.ssockW.symm.trans hw)
    have howned : m.owned = [] := hs.owned
    refine Or.inl ⟨_, rfl, ⟨?_, ⟨hs.ne, hs.ssockR, hs.ssockW, congrArg (fun l => x' :: w' :: l) howned, hs.opened⟩⟩, rfl⟩
    refine hready.imp (fun hl => ⟨⟨hl.1.outside, hl.1.wakeup, hl.1.saved, hl.1.rest, hl.1.noop⟩, hl.2⟩) (fun hd => ⟨hd.1, hd.2.handlers, hd.2.wakeup, hd.2.deaf⟩)
  | noFd main e hnone =>
    obtain ⟨-, x, w, hs⟩ := hat
    have hR : m.ssockR = some x := hs.ssockR
    have hW : m.ssockW = some w := hs.ssockW
    simp [hR, hW] at hnone
  | serve main x w e =>
    obtain ⟨hready, hs⟩ := hat
    exact Or.inl ⟨_, rfl, ⟨hready, x, w, hs, List.suffix_refl _⟩, rfl⟩
  | dropOne main e n ns =>
    obtain ⟨hready, x, w, hs, hns⟩ := hat
    obtain ⟨hs', hns'⟩ := hs.dropOne hns
    have hview : Mem.view { m.close n with owned := m.owned.erase n } = { m.view.close n with owned := m.view.owned.erase n } := by
      rw [← view_close]
      rfl
    refine Or.inl ⟨_, rfl, ?_, rfl⟩
    rw [hview]
    refine ⟨?_, x, w, hs', hns'⟩
    exact hready.imp (fun hl => ⟨⟨hl.1.outside, hl.1.wakeup, hl.1.saved, hl.1.rest, hl.1.noop⟩, hl.2⟩) (fun hd => ⟨hd.1, hd.2.handlers, hd.2.wakeup, hd.2.deaf⟩)
  | dropped main e =>
    obtain ⟨hready, x, w, hs, -⟩ := hat
    exact Or.inl ⟨_, rfl, Or.inl ⟨hready, hs.sock⟩, rfl⟩
  | sigDereg main e hl =>
    rcases hat with ⟨hready, x, w, opened, hs⟩ | ⟨hleft, -⟩
    · exact Or.inl ⟨_, rfl, ⟨⟨hready.removing hl, x, w, opened, hs.ne, hs.ssockR, hs.ssockW, hs.owned, hs.opened⟩, fun _ h => h⟩, rfl⟩
    · have hdeaf : m.sigListening = false := hleft.deaf
      rw [hl] at hdeaf
      cases hdeaf
  | notListening main e hdeaf =>
    rcases hat with ⟨hready, hs⟩ | ⟨hleft, -, hs⟩
    · exact Or.inl ⟨_, rfl, ⟨hready.left hdeaf, Or.inr hs⟩, rfl⟩
    · exact Or.inl ⟨_, rfl, ⟨hleft, hs⟩, rfl⟩
  | sigRem e sig sigs =>
    obtain ⟨⟨hrem, x, w, opened, hs⟩, hsub⟩ := hat
    refine Or.inl ⟨_, rfl, ⟨⟨⟨fun k hk => ?_, hrem.wakeup, hrem.saved, hrem.deaf, fun k hk => ?_⟩, x, w, opened, ?_⟩,
      fun k hk => hsub (List.mem_cons_of_mem sig hk)⟩, rfl⟩
    · refine (Function.update_of_ne ?_ _ _).trans (hrem.outside k hk)
      rintro rfl
      exact hk (hsub List.mem_cons_self)
    · change Function.update m.handlers sig (defaultHandler sig) k = .noop ∨ Function.update m.handlers sig (defaultHandler sig) k = defaultHandler k
      rw [Function.update_apply]
      split
      · rename_i hk
        exact Or.inr (congrArg defaultHandler hk.symm)
      · exact hrem.handled k hk
    · exact ⟨hs.ne, hs.ssockR, hs.ssockW, hs.owned, hs.opened⟩
  | notRemoved main e sig sigs =>
    obtain ⟨hrem, hsub⟩ := hat
    exact Or.inl ⟨_, rfl, ⟨hrem, fun k hk => hsub (List.mem_cons_of_mem sig hk)⟩, rfl⟩
  | removed main e => exact Or.inl ⟨_, rfl, hat.1, rfl⟩
  | restore e =>
    obtain ⟨hrem, x, w, opened, hs⟩ := hat
    refine Or.inl ⟨_, rfl, ⟨⟨hrem.deaf, hrem.outside, Or.inl hrem.saved, fun _ => hrem.handled⟩, Or.inr ⟨x, w, opened, ?_⟩⟩, rfl⟩
    exact ⟨hs.ne, hs.ssockR, hs.ssockW, hs.owned, hs.opened⟩
  | notRestored main e e' =>
    obtain ⟨hrem, hs⟩ := hat
    exact Or.inr ⟨rfl, some e', rfl, hrem.left hs e', Or.inr hs, fun he => by cases he⟩
  | ssockStop e hw =>
    obtain ⟨hleft, hbare | ⟨x, w, opened, hs⟩⟩ := hat
    · have hnone : m.ssockW = none := hbare.ssockW
      rw [hnone] at hw
      cases hw
    · refine Or.inl ⟨_, rfl, ?_, setW_last _⟩
      rw [view_setW hs.ssockW]
      exact ⟨hleft.setW hs.ssockW, ⟨x, hs.ssockR⟩, rfl, hs.owned⟩
  | notStopped e hw =>
    obtain ⟨hleft, hs⟩ := hat
    exact Or.inr ⟨rfl, some notSetup, rfl, hleft.raise _, hs, fun he => by cases he⟩
  | dropR e =>
    obtain ⟨hleft, ⟨x, hx⟩, hw, howned⟩ := hat
    refine Or.inl ⟨_, rfl, ?_, setR_last _⟩
    rw [view_setR hx]
    exact ⟨hleft.setR x, rfl, hw, howned⟩
  | resetStopping e =>
    obtain ⟨hleft, hs⟩ := hat
    exact Or.inr ⟨rfl, e, rfl, hleft, Or.inl hs, fun _ => hs⟩

/-! ## Runs -/

/-- How `run_forever` has ended is no part of what it found. -/
theorem Over.ended {v : View} {r : Run} {e : Option Error} (h : Over sigset v r e) (x : Option (Option Error)) :
    Over sigset v { r with ended := x } e :=
  ⟨⟨h.left.deaf, h.left.outside, h.left.wakeup, h.left.handled⟩, h.sock, h.bare⟩

variable (sigset) in
/-- No `run_forever` is in progress, or one is, and it is known where. -/
def Known (m : Mem) (ops : List Op) : Prop :=
  (ops = [] ∧ (m.last = none → m.view.Bare ∧ m.sigListening = false) ∧
      ∀ r, m.last = some r → ∃ e, r.ended = some e ∧ Over sigset m.view r e) ∨
    ∃ op r, ops = [op] ∧ m.last = some r ∧ At sigset m.view r op

variable {s : State Mem Op} {handlers : Nat → Handler} {wakeup : Option Nat} {opened : Nat → Bool}

theorem known_of_reach (h : (machine sigset).Reach OneAtATime (initial handlers wakeup opened) s) : Known sigset s.mem s.ops := by
  refine h.invariant (I := Known sigset) ?_ ?_ ?_
  · exact Or.inl ⟨rfl, fun _ => ⟨⟨rfl, rfl, rfl⟩, rfl⟩, fun r hr => by cases hr⟩
  · intro m A op B c m' new hk _ he
    rcases hk with ⟨hops, -, -⟩ | ⟨op', r, hops, hlast, hat⟩
    · simp at hops
    · obtain ⟨rfl, rfl, rfl⟩ : A = [] ∧ op = op' ∧ B = [] := by
        cases A <;> simp_all
      rcases at_move hat (exec_move he) with ⟨op', rfl, hat', hsame⟩ | ⟨rfl, e, hends, hover⟩
      · exact Or.inr ⟨op', r, rfl, hsame.trans hlast, hat'⟩
      · rw [hlast] at hends
        refine Or.inl ⟨rfl, fun hnone => ?_, fun r' hr' => ⟨e, ?_⟩⟩
        · rw [hends] at hnone
          cases hnone
        · obtain rfl := Option.some.inj (hends.symm.trans hr')
          exact ⟨rfl, hover.ended _⟩
  · intro m ops l m' new hk hok hc
    by_cases hl : ∃ main, l = .runForever main
    · obtain ⟨main, rfl⟩ := hl
      obtain rfl : ops = [] := hok
      obtain ⟨rfl, rfl⟩ := Prod.mk.inj (Option.some.inj hc)
      refine Or.inr ⟨_, _, rfl, rfl, ?_⟩
      rcases hk with ⟨-, hnone, hsome⟩ | ⟨op, r, hops, -, -⟩
      · cases hlast : m.last with
        | none => exact ⟨⟨rfl, rfl, (hnone hlast).2⟩, Or.inl (hnone hlast).1⟩
        | some r =>
          obtain ⟨e, -, hover⟩ := hsome r hlast
          exact ⟨⟨rfl, rfl, hover.left.deaf⟩, hover.sock⟩
      · cases hops
    · obtain ⟨hview, hlast, rfl⟩ := view_call (fun main hm => hl ⟨main, hm⟩) hc
      rw [List.append_nil]
      have hdeaf : m'.sigListening = m.sigListening := congrArg View.sigListening hview
      unfold Known
      rw [hview, hlast, hdeaf]
      exact hk

/-! ## Descriptors of other threads -/

/-- The runtime refers to no descriptor that another thread opened at a number it did not refer to, and has done nothing to any. -/
structure Spared (m : Mem) : Prop where
  refers : ∀ n, m.Closes n ∨ m.Wakes n → m.fds n ≠ some (.other false)
  touched : ∀ t ∈ m.touched, t.owner ≠ .other false

/-- A step that refers to no more numbers than before, but for those of a self-socket, and touches only what the runtime refers to. -/
theorem Spared.step (h : Spared m) (hfds : ∀ n, m'.fds n = some (.other false) → m.fds n = some (.other false))
    (hrefers : ∀ n, m'.Closes n ∨ m'.Wakes n → (m.Closes n ∨ m.Wakes n) ∨ m'.fds n ≠ some (.other false))
    (htouched : ∀ t ∈ m'.touched, t ∈ m.touched ∨ t.owner ≠ .other false) : Spared m' where
  refers n hn hother := by
    rcases hrefers n hn with hold | hnew
    · exact h.refers n hold (hfds n hother)
    · exact hnew hother
  touched t ht := (htouched t ht).elim (h.touched t) id

/-- What is touched at a number the runtime refers to. -/
theorem Spared.touches (h : Spared m) {n : Nat} (hn : m.Closes n ∨ m.Wakes n) {f : Owner → Touch} (hf : ∀ o, (f o).owner = o) :
    ∀ t ∈ m.touched ++ (m.fds n).toList.map f, t.owner ≠ .other false := by
  intro t ht
  rcases List.mem_append.mp ht with ht | ht
  · exact h.touched t ht
  · obtain ⟨o, ho, rfl⟩ := List.mem_map.mp ht
    rw [hf]
    rintro rfl
    exact h.refers n hn (Option.mem_toList.mp ho)

theorem fds_close {n k : Nat} (h : (m.close n).fds k = some (.other false)) : m.fds k = some (.other false) := by
  have hk : Function.update m.fds n none k = some (.other false) := h
  rw [Function.update_apply] at hk
  split at hk
  · cases hk
  · exact hk

theorem Spared.close (h : Spared m) {n : Nat} (hn : m.Closes n) : Spared (m.close n) :=
  ⟨fun k hk hother => h.refers k hk (fds_close hother), h.touches (Or.inl hn) (fun _ => rfl)⟩

/-- A socket takes the place of the one that is collected. -/
theorem Spared.setW (h : Spared m) {v : Option Nat} (hv : ∀ n, v = some n → m.fds n ≠ some (.other false)) : Spared (m.setW v) := by
  unfold Mem.setW
  split
  · rename_i w hw
    refine (h.close (n := w) (Or.inr (Or.inr hw))).step (fun _ hn => hn) (fun n hn => ?_) (fun t ht => Or.inl ht)
    rcases hn with (hn | hn | hn) | hn
    · exact Or.inl (Or.inl (Or.inl hn))
    · exact Or.inl (Or.inl (Or.inr (Or.inl hn)))
    · exact Or.inr (fun hother => hv n hn (fds_close hother))
    · exact Or.inl (Or.inr hn)
  · refine h.step (fun _ hn => hn) (fun n hn => ?_) (fun t ht => Or.inl ht)
    rcases hn with (hn | hn | hn) | hn
    · exact Or.inl (Or.inl (Or.inl hn))
    · exact Or.inl (Or.inl (Or.inr (Or.inl hn)))
    · exact Or.inr (hv n hn)
    · exact Or.inl (Or.inr hn)

theorem Spared.setR (h : Spared m) {v : Option Nat} (hv : ∀ n, v = some n → m.fds n ≠ some (.other false)) : Spared (m.setR v) := by
  unfold Mem.setR
  split
  · rename_i x hx
    refine (h.close (n := x) (Or.inr (Or.inl hx))).step (fun _ hn => hn) (fun n hn => ?_) (fun t ht => Or.inl ht)
    rcases hn with (hn | hn | hn) | hn
    · exact Or.inl (Or.inl (Or.inl hn))
    · exact Or.inr (fun hother => hv n hn (fds_close hother))
    · exact Or.inl (Or.inl (Or.inr (Or.inr hn)))
    · exact Or.inl (Or.inr hn)
  · refine h.step (fun _ hn => hn) (fun n hn => ?_) (fun t ht => Or.inl ht)
    rcases hn with (hn | hn | hn) | hn
    · exact Or.inl (Or.inl (Or.inl hn))
    · exact Or.inr (hv n hn)
    · exact Or.inl (Or.inl (Or.inr (Or.inr hn)))
    · exact Or.inl (Or.inr hn)

/-- A step that touches no descriptor, opens none, and refers to no further number. -/
theorem Spared.same (h : Spared m) (hfds : m'.fds = m.fds) (htouched : m'.touched = m.touched)
    (hrefers : ∀ n, m'.Closes n ∨ m'.Wakes n → m.Closes n ∨ m.Wakes n) : Spared m' :=
  h.step (fun _ hn => hfds ▸ hn) (fun n hn => Or.inl (hrefers n hn)) (fun _ ht => Or.inl (htouched ▸ ht))

/-- What `run_forever` does to descriptors of other threads. -/
theorem spared_move {r : Run} {op : Op} {new : List Op} (h : Spared m) (hat : At sigset m.view r op) (hm : Move sigset m op m' new) :
    Spared m' := by
  cases hm with
  | socketpair main x w hne hx hw =>
    have hpair : Spared { m with fds := Function.update (Function.update m.fds x (some .ours)) w (some .ours) } := by
      refine h.step (fun n hn => ?_) (fun n hn => Or.inl hn) (fun t ht => Or.inl ht)
      simp only [Function.update_apply] at hn
      split at hn
      · cases hn
      · split at hn
        · cases hn
        · exact hn
    refine (hpair.setR ?_).setW ?_
    · rintro n ⟨⟩
      simp [Function.update_apply]
    · rintro n ⟨⟩
      unfold Mem.setR
      split
      · intro hother
        have := fds_close hother
        simp at this
      · simp
  | blocking main e => exact (h.setW (fun n hn => by cases hn)).setR (fun n hn => by cases hn)
  | ssockStop e => exact h.setW (fun n hn => by cases hn)
  | dropR e => exact h.setR (fun n hn => by cases hn)
  | dropOne main e n ns =>
    obtain ⟨-, x, w, hs, -⟩ := hat
    have howned : m.owned = n :: ns := hs.owned
    have hmem : n ∈ m.owned := by simp [howned]
    refine (h.close (Or.inl hmem)).same rfl rfl (fun k hk => ?_)
    rcases hk with (hk | hk) | hk
    · exact Or.inl (Or.inl (List.mem_of_mem_erase hk))
    · exact Or.inl (Or.inr hk)
    · exact Or.inr hk
  | setWakeupFd w hw =>
    refine h.same rfl rfl (fun k hk => ?_)
    rcases hk with hk | hk | hk
    · exact Or.inl hk
    · exact Or.inl (Or.inr (Or.inr (hw.trans hk)))
    · exact Or.inr (Or.inl hk)
  | restore e =>
    refine h.same rfl rfl (fun k hk => ?_)
    rcases hk with hk | hk | hk
    · exact Or.inl hk
    · exact Or.inr (Or.inr hk)
    · exact Or.inr (Or.inr hk)
  | fromRawFd main x w hx hw =>
    refine h.same rfl rfl (fun k hk => ?_)
    rcases hk with (hk | hk) | hk
    · rcases List.mem_cons.mp hk with rfl | hk
      · exact Or.inl (Or.inr (Or.inl hx))
      · rcases List.mem_cons.mp hk with rfl | hk
        · exact Or.inl (Or.inr (Or.inr hw))
        · exact Or.inl (Or.inl hk)
    · exact Or.inl (Or.inr hk)
    · exact Or.inr hk
  | _ => exact h.same rfl rfl (fun _ hk => hk)

theorem spared_call {l : Call} {new : List Op} (h : Spared m) (hc : call m l = some (m', new)) : Spared m' := by
  cases l with
  | runForever main =>
    obtain ⟨rfl, rfl⟩ := Prod.mk.inj (Option.some.inj hc)
    exact h.same rfl rfl (fun _ hk => hk)
  | openFd n =>
    simp only [call] at hc
    split at hc <;> simp only [Option.some.injEq, Prod.mk.injEq, reduceCtorEq] at hc
    obtain ⟨rfl, rfl⟩ := hc
    refine ⟨fun k hk hother => ?_, h.touched⟩
    simp only [Function.update_apply] at hother
    split at hother
    · rename_i hkn
      obtain rfl := hkn
      simp only [Option.some.injEq, Owner.other.injEq, decide_eq_false_iff_not] at hother
      exact hother hk
    · exact h.refers k hk hother
  | closeFd n =>
    simp only [call] at hc
    split at hc <;> simp only [Option.some.injEq, Prod.mk.injEq, reduceCtorEq] at hc
    obtain ⟨rfl, rfl⟩ := hc
    exact h.step (fun k hk => fds_close (m := m) (n := n) hk) (fun k hk => Or.inl hk) (fun t ht => Or.inl ht)
  | signal sig =>
    simp only [call] at hc
    split at hc
    · rename_i n hn
      split at hc <;> simp only [Option.some.injEq, Prod.mk.injEq] at hc <;> obtain ⟨rfl, rfl⟩ := hc
      · exact ⟨h.refers, h.touches (Or.inr (Or.inl hn)) (fun _ => rfl)⟩
      · exact h
    · simp only [Option.some.injEq, Prod.mk.injEq] at hc
      obtain ⟨rfl, rfl⟩ := hc
      exact h
  | stop =>
    simp only [call, Option.some.injEq, Prod.mk.injEq] at hc
    obtain ⟨rfl, rfl⟩ := hc
    exact h.same rfl rfl (fun _ hk => hk)

theorem spared_of_reach (h : (machine sigset).Reach OneAtATime (initial handlers wakeup opened) s) : Spared s.mem := by
  refine h.invariant_with (I := fun m _ => Spared m) (J := Known sigset) known_of_reach ?_ ?_ ?_
  · refine ⟨fun n hn => ?_, fun t ht => by cases ht⟩
    have hwakes : wakeup = some n := by simpa [initial, Mem.Closes, Mem.Wakes] using hn
    simp [initial, hwakes]
  · intro m A op B c m' new hk hs _ he
    rcases hk with ⟨hops, -, -⟩ | ⟨op', r, hops, -, hat⟩
    · simp at hops
    · obtain rfl : op = op' := by
        cases A <;> simp_all
      exact spared_move hs hat (exec_move he)
  · intro m ops l m' new _ hs _ hc
    exact spared_call hs hc

end Lifecycle

end Tonio
