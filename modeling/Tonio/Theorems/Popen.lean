import Tonio.Popen

/-!
# No end of a pipe is lost

`open_process` returns the streams of its pipes, or closes them, and closes the ends it has made for the child either way.
-/

namespace Tonio.Popen

open Resources

variable {S : System Error} {R : Runtime} {P : Vars → Multiset Nat → Prop}

/-! ## The ends of a pipe -/

/-- What is left of a pipe of which no stream could be made: both ends, if a blocking mode could not be set, or the end for the child, if the other
one could not be registered. -/
inductive Left (R : Runtime) : Multiset Nat → Prop
  | nothing : Left R 0
  | pipe (fd other : Nat) (h : (R.blocking fd).isSome = true) : Left R {fd, other}
  | child (fd other : Nat) (h : (R.register fd).isSome = true) : Left R {other}

/-- What is left of a pipe is held next to the rest. -/
def Lost (R : Runtime) (P : Vars → Multiset Nat → Prop) (v : Vars) (H : Multiset Nat) : Prop :=
  ∃ left H', H = left + H' ∧ Left R left ∧ P v H'

theorem Lost.nothing {v : Vars} {H : Multiset Nat} (h : P v H) : Lost R P v H := ⟨0, H, (zero_add H).symm, .nothing, h⟩

theorem Lost.imp {P' : Vars → Multiset Nat → Prop} {v : Vars} {H : Multiset Nat} (h : Lost R P v H) (hP : ∀ H, P v H → P' v H) :
    Lost R P' v H := by
  obtain ⟨left, H', hH, hleft, hv⟩ := h
  exact ⟨left, H', hH, hleft, hP H' hv⟩

/-- There is a stream where a pipe is asked for. -/
def Asked (target : Target) (stream : Option Nat) : Prop := stream.isSome = true ↔ target = .pipe

/-- The pipes that have been made: the streams, which are closed on failure, and the ends for the child, which are closed always. -/
structure Piped (I : Vars → Prop) (v : Vars) (H : Multiset Nat) : Prop where
  held : H = v.streams + ↑v.alwaysCleanup
  cleanup : (↑v.cleanupOnFail : Multiset Nat) = v.streams
  popen : v.popen = none
  vars : I v

theorem Piped.mono {I J : Vars → Prop} {v : Vars} {H : Multiset Nat} (h : Piped I v H) (hJ : I v → J v) : Piped J v H :=
  ⟨h.held, h.cleanup, h.popen, hJ h.vars⟩

theorem Asked.none {target : Target} (h : target ≠ .pipe) : Asked target none := by
  unfold Asked
  simp [h]

theorem Asked.some {target : Target} (h : target = .pipe) (stream : Nat) : Asked target (some stream) := by
  unfold Asked
  simp [h]

/-- The child is there, with its streams, and the ends that were made for it are to be closed. -/
structure Opened (I : Vars → Prop) (v : Vars) (H : Multiset Nat) : Prop where
  held : ∃ child, v.popen = some child ∧ H = child ::ₘ (v.streams + ↑v.alwaysCleanup)
  cleanup : v.cleanupOnFail = []
  vars : I v

/-- What is held when `open_process` raises: what is left of a pipe, or the child with its streams, if there is one. -/
def Failed (R : Runtime) (v : Vars) (H : Multiset Nat) : Prop :=
  match v.popen with
  | some child => H = child ::ₘ v.streams
  | none => Left R H

/-- What is held when `open_process` is about to return. -/
structure Started (I : Vars → Prop) (v : Vars) (H : Multiset Nat) : Prop where
  held : ∃ child, v.popen = some child ∧ H = child ::ₘ v.streams
  vars : I v

theorem Started.failed {I : Vars → Prop} {v : Vars} {H : Multiset Nat} (h : Started I v H) : Failed R v H := by
  obtain ⟨child, hpopen, hheld⟩ := h.held
  unfold Failed
  rw [hpopen]
  exact hheld

/-- What a process that is returned holds, and its streams. -/
def Returned (a : Arguments) (proc : Process) (H : Multiset Nat) : Prop :=
  H = proc.held ∧ Asked a.stdin proc.stdin ∧ Asked a.stdout proc.stdout ∧ Asked a.stderr proc.stderr

end Tonio.Popen
