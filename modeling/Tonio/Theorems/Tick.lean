import Tonio.Lemmas.Tick

/-!
# Clearing readiness

A reader whose system call would block clears the bits of its direction, unless the poller has published an edge since the reader took the
tick. The tick has eight bits.
-/

namespace Tonio.Schedule

open Interleaving

/-- The only reader or writer of a direction samples the tick in `s`, while `arm` is about to answer that it need not wait, and updates the
word in `s₃` with the tick it finds stored; in between it has stored the tick, returned, and called `clear`, and anybody else has done
anything, the poller's `set_readiness` calls among it. The update keeps the bits those calls have set if and only if their number is no
multiple of 256, or none of the bits that are still there is of the direction. When it keeps them, and one of them is of the direction, the
next `arm` answers that it need not wait. -/
theorem clear_keeps_newer_iff (d : Dir) (s s₁ s₂ s₃ : State Mem Op) (acts : List (Act Op Choice Call)) (tick tick' : BitVec 8)
    (hown : own d s.ops = [.loadTick d]) (hload : machine.Step s (.exec (.loadTick d) .go) s₁) (hpath : machine.Path s₁ acts s₂)
    (hacts : acts.filter (ofDir d) = reads d tick) (hclear : machine.Step s₂ (.exec (.clearWord d tick') .go) s₃) :
    (s₃.mem.readiness &&& published acts = s₂.mem.readiness &&& published acts ↔
      edges acts % 256 ≠ 0 ∨ s₂.mem.readiness &&& published acts &&& d.mask = 0) ∧
    (edges acts % 256 ≠ 0 → s₂.mem.readiness &&& published acts &&& d.mask ≠ 0 →
      exec s₃.mem (.armLoad d) .go = some (s₃.mem, [.loadTick d])) := by
  obtain ⟨-, new, he, hnew⟩ := own_of_self hload rfl hown
  obtain ⟨hm, rfl⟩ := Prod.mk.inj (Option.some.inj he)
  have h0 : Stage d (tickOf s.mem.readiness) s₁ 0 := hnew.trans (by simp [own, Op.dir])
  have h3 : Stage d (tickOf s.mem.readiness) s₂ 3 := stage_of_path hpath h0 3 (Nat.le_refl 3) hacts
  obtain ⟨hop, new', he', -⟩ := own_of_self hclear rfl h3
  obtain ⟨-, rfl⟩ : d = d ∧ tick' = tickOf s.mem.readiness := by simpa using hop
  obtain ⟨hm', rfl⟩ := Prod.mk.inj (Option.some.inj he')
  have htick : tickOf s₂.mem.readiness = tickOf s.mem.readiness + BitVec.ofNat 8 (edges acts) := by
    rw [tickOf_path hpath, ← hm]
  -- the tick has come round exactly when the number of edges is a multiple of 256
  have hround : tickOf s₂.mem.readiness = tickOf s.mem.readiness ↔ edges acts % 256 = 0 := by
    rw [htick]
    exact tick_add_eq_iff _ _
  have hword : s₃.mem.readiness = if edges acts % 256 = 0 then s₂.mem.readiness &&& ~~~d.mask else s₂.mem.readiness := by
    rw [← hm']
    by_cases hk : edges acts % 256 = 0
    · simp [clear, hround.mpr hk, hk]
    · simp [clear, mt hround.mp hk, hk]
  refine ⟨?_, fun hk hbits => ?_⟩
  · by_cases hk : edges acts % 256 = 0
    · rw [hword, if_pos hk, and_not_and_eq_iff]
      simp [hk]
    · rw [hword, if_neg hk]
      simp [hk]
  · have hw : s₃.mem.readiness = s₂.mem.readiness := by rw [hword, if_neg hk]
    have hmeet : s₃.mem.readiness &&& (d.mask ||| SHUTDOWN) ≠ 0 := by
      rw [hw, BitVec.and_or_distrib_left]
      intro hz
      apply hbits
      rw [BitVec.and_assoc, BitVec.and_comm (published acts), ← BitVec.and_assoc, (BitVec.or_eq_zero_iff.mp hz).1]
      exact BitVec.zero_and
    simp only [exec]
    rw [if_pos hmeet]

/-- One arrival between the sample of the tick and `clear`: the bit stays, and the reader need not wait. -/
theorem clear_keeps_newer_one :
    ∃ s s₁ s₂ s₃ acts, machine.Reach (fun _ _ _ => True) initial s ∧ machine.Step s (.exec (.loadTick .r) .go) s₁ ∧
      machine.Path s₁ acts s₂ ∧ machine.Step s₂ (.exec (.clearWord .r 1) .go) s₃ ∧ edges acts = 1 ∧ published acts = READABLE ∧
      s₃.mem.readiness &&& READABLE = READABLE ∧ exec s₃.mem (.armLoad .r) .go = some (s₃.mem, [.loadTick .r]) := by
  obtain ⟨s, s₁, s₂, s₃, acts, hs, hown, hload, hpath, hacts, hclear, hk, hpub, hw₂, -⟩ := reader_run_of_initial 1
  have hpub' : published acts = READABLE := hpub.trans (by decide)
  have hword : s₂.mem.readiness &&& READABLE = READABLE := by
    rw [hw₂]
    decide
  obtain ⟨hkeep, hnext⟩ := clear_keeps_newer_iff .r s s₁ s₂ s₃ acts 1 1 hown hload hpath hacts hclear
  rw [hk, hpub'] at hkeep hnext
  refine ⟨s, s₁, s₂, s₃, acts, hs, hload, hpath, hclear, hk, hpub', ?_, hnext (by decide) (by rw [hword]; decide)⟩
  rw [hkeep.mpr (Or.inl (by decide)), hword]

/-- 256 arrivals between the sample of the tick and `clear`: the bit they set is erased, and the reader goes on to park. -/
theorem clear_erases_newer :
    ∃ s s₁ s₂ s₃ acts, machine.Reach (fun _ _ _ => True) initial s ∧ own .r s.ops = [.loadTick .r] ∧
      machine.Step s (.exec (.loadTick .r) .go) s₁ ∧ machine.Path s₁ acts s₂ ∧ acts.filter (ofDir .r) = reads .r 1 ∧
      machine.Step s₂ (.exec (.clearWord .r 1) .go) s₃ ∧ edges acts = 256 ∧ published acts = READABLE ∧
      s₂.mem.readiness &&& READABLE = READABLE ∧ s₃.mem.readiness &&& READABLE = 0 ∧
      exec s₃.mem (.armLoad .r) .go = some ({ s₃.mem with next := s₃.mem.next + 1 }, [.armLock .r s₃.mem.next]) := by
  obtain ⟨s, s₁, s₂, s₃, acts, hs, hown, hload, hpath, hacts, hclear, hk, hpub, hw₂, hw₃⟩ := reader_run_of_initial 256
  have hround : (setReadiness READABLE)^[256] (setReadiness READABLE 0) = setReadiness READABLE 0 := by decide +kernel
  rw [hround] at hw₂
  rw [hw₂] at hw₃
  have hgone : s₃.mem.readiness &&& (Dir.r.mask ||| SHUTDOWN) = 0 := by
    rw [hw₃]
    decide
  refine ⟨s, s₁, s₂, s₃, acts, hs, hown, hload, hpath, hacts, hclear, hk, hpub.trans (by decide +kernel), ?_, ?_, ?_⟩
  · rw [hw₂]
    decide
  · rw [hw₃]
    decide
  · simp only [exec]
    rw [if_neg (not_not_intro hgone)]

end Tonio.Schedule
