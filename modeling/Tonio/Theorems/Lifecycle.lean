import Tonio.Lemmas.Lifecycle

/-!
# What a loop leaves behind

A `run_forever` that returns leaves the process as it found it, but for the handlers of its signals. One that raises may leave the wakeup descriptor
at a number it has closed. And the self-socket is closed twice: what another thread opens at one of its numbers, between the two, is closed too.
-/

namespace Tonio.Lifecycle

open Interleaving

variable {sigset : List Nat} {s : State Mem Op} {handlers : Nat → Handler} {wakeup : Option Nat} {opened : Nat → Bool}

/-- The steps of a `run_forever` to the end of `_run`, with a self-socket at 3 and 4: each signal is added, and the last one as `last` says. -/
def startAt (n : Nat) (last : List Choice) : List (Label Choice Call) :=
  List.flatten [[.call (.runForever true), .act 0 .go, .act 0 (.pair 3 4), .act 0 .go, .act 0 .go], List.replicate n (.act 0 .go), last.map (.act 0)]

/-- What a self-socket of which everything is open would close. -/
theorem ours_of_closes {m : Mem} {x w : Nat} {ns : List Nat} (h : m.view.Has x w ns [x, w]) (hns : ∀ n ∈ ns, n = x ∨ n = w) {n : Nat}
    (hn : m.Closes n) : m.fds n = some .ours := by
  have hR : m.ssockR = some x := h.ssockR
  have hW : m.ssockW = some w := h.ssockW
  have howned : m.owned = ns := h.owned
  have hmem : n = x ∨ n = w := by
    rcases hn with hn | hn | hn
    · exact hns n (howned ▸ hn)
    · exact Or.inl (Option.some.inj (hn.symm.trans hR))
    · exact Or.inr (Option.some.inj (hn.symm.trans hW))
  exact (h.opened n hmem).mpr (by simpa using hmem)

theorem not_closes_of_bare {m : Mem} (h : m.view.Bare) (n : Nat) : ¬m.Closes n := by
  have hR : m.ssockR = none := h.ssockR
  have hW : m.ssockW = none := h.ssockW
  have howned : m.owned = [] := h.owned
  simp [Mem.Closes, hR, hW, howned]

/-- The descriptors of other threads, as long as there is one `run_forever` at a time. None is closed by the runtime or gets the number of a signal,
unless it was opened at a number the runtime then referred to. Until `_run` has ended, what the runtime would close is open and its own; and when
`run_forever` has returned there is nothing it would close. -/
theorem descriptors_of_others (h : (machine sigset).Reach OneAtATime (initial handlers wakeup opened) s) :
    (∀ t ∈ s.mem.touched, t.owner ≠ .other false) ∧
      (∀ op ∈ s.ops, op.serves → ∀ n, s.mem.Closes n → s.mem.fds n = some .ours) ∧
      (s.ops = [] → (∀ r, s.mem.last = some r → r.ended = some none) → ∀ n, ¬s.mem.Closes n) := by
  refine ⟨(spared_of_reach h).touched, fun op hop hserves n hn => ?_, fun hidle hreturned => ?_⟩
  · rcases known_of_reach h with ⟨hops, -, -⟩ | ⟨op', r, hops, -, hat⟩
    · rw [hops] at hop
      cases hop
    · obtain rfl : op = op' := by simpa [hops] using hop
      cases op with
      | socketpair main => exact absurd hn (not_closes_of_bare hat.2 n)
      | setBlocking | setWakeupFd | sigAdd | siginterrupt | poll | fromRawFd =>
        obtain ⟨-, x, w, hs⟩ := hat
        exact ours_of_closes hs (fun k hk => by cases hk) hn
      | serve main x w => exact ours_of_closes hat.2 (fun k hk => by simpa using hk) hn
      | _ => cases hserves
  · rcases known_of_reach h with ⟨-, hnone, hover⟩ | ⟨op', r, hops, -, -⟩
    · cases hlast : s.mem.last with
      | none => exact not_closes_of_bare (hnone hlast).1
      | some r =>
        obtain ⟨e, hended, hover⟩ := hover r hlast
        obtain rfl : e = none := Option.some.inj (hended.symm.trans (hreturned r hlast))
        exact not_closes_of_bare (hover.bare rfl)
    · rw [hidle] at hops
      cases hops

/-- A descriptor that another thread opens when `_run` has closed the write end, and that gets its number, gets the signals and is closed in its
turn. -/
theorem descriptors_of_others_closed :
    ∃ s, (machine [2]).Reach OneAtATime (initial (fun _ => .defaultInt) none (fun _ => false)) s ∧
      s.mem.touched = [.close 3 .ours, .close 4 .ours, .write 4 (.other true), .close 4 (.other true)] ∧
      (∀ t ∈ s.mem.touched, t.owner ≠ .other false) ∧ ∀ n, ¬s.mem.Closes n := by
  obtain ⟨s, hs, hp⟩ := Machine.exists_reach_of_run (machine [2]) OneAtATime (fun m ops a => decide (OneAtATime m ops a))
    (fun _ _ _ hok => of_decide_eq_true hok) (initial (fun _ => .defaultInt) none (fun _ => false))
    (List.flatten [startAt 8 [], [.call (.openFd 4), .call (.signal 2)], List.replicate 8 (.act 0 .go)])
    (fun s => decide (s.ops = []) && decide (s.mem.touched = [.close 3 .ours, .close 4 .ours, .write 4 (.other true), .close 4 (.other true)]) &&
      decide (s.mem.last.map (·.ended) = some (some none)))
    (by decide)
  simp only [Bool.and_eq_true, decide_eq_true_eq, Option.map_eq_some_iff] at hp
  obtain ⟨⟨hidle, htouched⟩, r, hlast, hended⟩ := hp
  obtain ⟨hspared, -, hnothing⟩ := descriptors_of_others hs
  refine ⟨s, hs, htouched, hspared, hnothing hidle (fun r' hr' => ?_)⟩
  rw [hlast] at hr'
  cases hr'
  exact hended

end Tonio.Lifecycle
