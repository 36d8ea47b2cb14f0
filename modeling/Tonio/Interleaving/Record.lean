import Tonio.Interleaving.Machine

/-!
# Machines with a record

A property of a run often speaks of what happened in it and not only of the state it has come to: what was pushed, what was taken, what was
done first. A machine with a record keeps that beside its memory (`Machine.recording`): every act is noted, and no act looks at the
notes, so its runs are runs of the machine itself (`Reach.forget`).
-/

namespace Interleaving

variable {M O C L G : Type*}

namespace Machine

/-- The machine `P` with a record beside its memory. `note` says what an act adds to it, given the memory the act finds. -/
def recording (P : Machine M O C L) (note : M → Act O C L → G → G) : Machine (M × G) O C L where
  exec m op c := (P.exec m.1 op c).map (fun r => ((r.1, note m.1 (.exec op c) m.2), r.2))
  call m l := (P.call m.1 l).map (fun r => ((r.1, note m.1 (.call l) m.2), r.2))

variable {P : Machine M O C L} {note : M → Act O C L → G → G} {m m' : M × G} {new : List O}

/-- What an operation does, and what is noted of it. -/
theorem recording_exec {op : O} {c : C} :
    (P.recording note).exec m op c = some (m', new) ↔ P.exec m.1 op c = some (m'.1, new) ∧ m'.2 = note m.1 (.exec op c) m.2 := by
  constructor
  · intro h
    obtain ⟨⟨m₁, new₁⟩, he, hr⟩ := Option.map_eq_some_iff.mp h
    obtain ⟨rfl, rfl⟩ := Prod.mk.inj hr
    exact ⟨he, rfl⟩
  · rintro ⟨he, hr⟩
    exact Option.map_eq_some_iff.mpr ⟨_, he, by rw [← hr]⟩

/-- What a call does, and what is noted of it. -/
theorem recording_call {l : L} :
    (P.recording note).call m l = some (m', new) ↔ P.call m.1 l = some (m'.1, new) ∧ m'.2 = note m.1 (.call l) m.2 := by
  constructor
  · intro h
    obtain ⟨⟨m₁, new₁⟩, he, hr⟩ := Option.map_eq_some_iff.mp h
    obtain ⟨rfl, rfl⟩ := Prod.mk.inj hr
    exact ⟨he, rfl⟩
  · rintro ⟨he, hr⟩
    exact Option.map_eq_some_iff.mpr ⟨_, he, by rw [← hr]⟩

end Machine

/-- A state without its record. -/
def State.forget (s : State (M × G) O) : State M O := ⟨s.mem.1, s.pool⟩

namespace Machine

variable {P : Machine M O C L} {note : M → Act O C L → G → G} {ok : M × G → List O → Act O C L → Prop}
  {ok' : M → List O → Act O C L → Prop} {s₀ s s' : State (M × G) O} {a : Act O C L}

/-- A step with a record is a step. -/
theorem Step.forget (h : (P.recording note).Step s a s') : P.Step s.forget a s'.forget := by
  cases h with
  | exec hi he => exact .exec hi (recording_exec.mp he).1
  | call hc => exact .call (recording_call.mp hc).1

/-- A run with a record is a run. -/
theorem Reach.forget (h : (P.recording note).Reach ok s₀ s) (hok : ∀ m ops a, ok m ops a → ok' m.1 ops a) :
    P.Reach ok' s₀.forget s.forget := by
  induction h with
  | init => exact .init
  | step _ hk hs ih => exact .step ih (hok _ _ _ hk) hs.forget

/-- The same of any run. -/
theorem Reach.unrecorded (h : (P.recording note).Reach ok s₀ s) : P.Reach (fun _ _ _ => True) s₀.forget s.forget :=
  h.forget (fun _ _ _ _ => trivial)

end Machine

end Interleaving
