import Tonio.Lemmas.Trampoline

/-!
# The trampoline evaluates the program

What the place where a program goes on says about the rest of the run is what the evaluation with a stack says (`Simulates`): what has been
sent and thrown, and what is still to come from this place, are together what the direct evaluation gives.
-/

namespace Tonio.Runtime

open Interleaving

/-- What is still to be sent and thrown, and which waiters are still to be yielded, from a place on. -/
def Place.Means (ws : Nat → Waiter) (P : Program) (log : List (Nat × Input)) (n : Nat) :
    Place → List (Nat × Input) → List Nat → Prop
  | .resume k parents input, L, U =>
    ∃ L', L = (k, input) :: L' ∧ Goes ws P (log ++ [(k, input)]) k n (parents.map (·.coro)) L' U
  | .yields w k parents, L, U =>
    ∃ L' U', L = (k, .send (waitValue (ws w).events)) :: L' ∧ U = w :: U' ∧ ((ws w).events = [] → parents ≠ []) ∧
      Goes ws P (log ++ [(k, .send (waitValue (ws w).events))]) k n (parents.map (·.coro)) L' U'
  | .result F input, L, U =>
    ∃ L', L = (F.coro, input) :: L' ∧ Goes ws P (log ++ [(F.coro, input)]) F.coro n (F.parents.map (·.coro)) L' U

/-- The suspensions of the callers have not been resolved. -/
def Stacked (live : List Susp) : List Frame → Prop
  | [] => True
  | p :: rest => ⟨p, rest⟩ ∈ live ∧ p.waits = false ∧ Stacked live rest

/-- A run of a program, of which the direct evaluation sends and throws `full` and yields `us`: it has not started, it goes on in one place,
or it is over. -/
inductive Simulates (ws : Nat → Waiter) (P : Program) (full : List (Nat × Input)) (us : List Nat) (m : Mem) (ops : List Op) : Prop where
  | before (hn : m.nextCoro = 0) (hp : places m ops = []) (hlog : m.log = []) (hr : ∀ w, m.registered w = false)
  | during (d : Place) (used : List Nat) (L : List (Nat × Input)) (U : List Nat) (hn : 0 < m.nextCoro) (hp : places m ops = [d])
      (hlog : full = m.log ++ L) (hr : ∀ w, m.registered w = true → w ∈ used) (hus : us = used ++ U) (hstack : Stacked m.live d.stack)
      (hd : d.Means ws P m.log m.nextCoro L U)
  | after (hn : 0 < m.nextCoro) (hp : places m ops = []) (hlog : m.log = full)

section

variable {ws : Nat → Waiter} {P : Program} {full : List (Nat × Input)} {us : List Nat} {m m' : Mem} {A B new ops ops' : List Op} {op : Op}
  {c : Choice} {old fresh : List Place} {ps : List Frame} {live live' : List Susp}

/-! ## The stack -/

theorem Stacked.mono (h : Stacked live ps) (hl : ∀ F ∈ live, F.waits = false → F ∈ live') : Stacked live' ps := by
  induction ps with
  | nil => trivial
  | cons p rest ih => exact ⟨hl _ h.1 h.2.1, h.2.1, ih h.2.2⟩

/-- A suspension above the stack does not matter. -/
theorem Stacked.below {k : Nat} (hk : Known m ops) (h : Stacked m.live ps) (hlt : ∀ p rest, ps = p :: rest → p.cell < k)
    (hl : ∀ F ∈ m.live, F.cell ≠ k → F ∈ live') : Stacked live' ps := by
  induction ps with
  | nil => trivial
  | cons p rest ih =>
    have hp := hlt p rest rfl
    refine ⟨hl _ h.1 (Nat.ne_of_lt hp), h.2.1, ih h.2.2 (fun q rest' hq => ?_)⟩
    exact Nat.lt_trans ((hk.made _ _ (hk.live _ h.1)).2.above q rest' hq) hp

/-! ## A step -/

/-- What a step puts in the place of the only one. -/
theorem places_perm_of_only {d : Place} (hperm : (places m' ops' ++ [d]).Perm (places m ops ++ fresh)) (hp : places m ops = [d]) :
    (places m' ops').Perm fresh := by
  rw [hp] at hperm
  exact (List.perm_append_right_iff [d]).mp (hperm.trans List.perm_append_comm)

/-- A step of a run that has not started or is over leaves it so. -/
theorem Shift.keep_of_nil (hs : Shift ws m op c m' old fresh) (hperm : (places m' ops' ++ old).Perm (places m ops ++ fresh))
    (hold : ∀ d ∈ old, d ∈ places m ops) (hp : places m ops = []) :
    m.SameLog m' ∧ m'.registered = m.registered ∧ places m' ops' = [] := by
  rw [hp] at hold hperm
  cases hs with
  | keep hl hr hlive => exact ⟨hl, hr, by simpa using hperm⟩
  | _ => exact absurd (hold _ (List.mem_singleton.mpr rfl)) List.not_mem_nil

/-- What the program says about a generator that is resumed. -/
theorem Place.Means.run {coro : Nat} {parents : List Frame} {input : Input} {o : Out} {n : Nat} {L : List (Nat × Input)} {U : List Nat}
    (hd : (Place.resume coro parents input).Means ws P m.log n L U) (ho : o = P coro (inputsOf coro m.log ++ [input])) :
    ∃ L', L = (coro, input) :: L' ∧ Goes ws P (m.log ++ [(coro, input)]) coro n (parents.map (·.coro)) L' U ∧
      P coro (inputsOf coro (m.log ++ [(coro, input)])) = o := by
  obtain ⟨L', hL, hG⟩ := hd
  refine ⟨L', hL, hG, ?_⟩
  rw [inputsOf_append, inputsOf_self, ho]

theorem Simulates.shift (h : Simulates ws P full us m ops) (hk : Known m ops) (hr : Resolved m) (hs : Shift ws m op c m' old fresh)
    (hperm : (places m' ops' ++ old).Perm (places m ops ++ fresh)) (hold : ∀ d ∈ old, d ∈ places m ops)
    (hok : Runs P m (.exec op c)) : Simulates ws P full us m' ops' := by
  cases h with
  | before hn hp hlog hreg =>
    obtain ⟨hl, hr', hp'⟩ := hs.keep_of_nil hperm hold hp
    exact .before (hl.nextCoro.trans hn) hp' (hl.log.trans hlog) (fun w => by rw [hr']; exact hreg w)
  | after hn hp hlog =>
    obtain ⟨hl, -, hp'⟩ := hs.keep_of_nil hperm hold hp
    exact .after (hl.nextCoro.symm ▸ hn) hp' (hl.log.trans hlog)
  | during d used L U hn hp hlog hreg hus hstack hd =>
    have hone : ∀ x, old = [x] → x = d := by
      rintro x rfl
      simpa [hp] using hold x (List.mem_singleton.mpr rfl)
    cases hs with
    | keep hl hr' hlive =>
      have hp' : places m' ops' = [d] := by
        rw [hp, List.append_nil, List.append_nil] at hperm
        exact List.perm_singleton.mp hperm
      refine .during d used L U ?_ hp' ?_ ?_ hus (hstack.mono hlive) ?_
      · rwa [hl.nextCoro]
      · rwa [hl.log]
      · rwa [hr']
      · rwa [hl.log, hl.nextCoro]
    | deliver F input hl hr' hlive =>
      obtain rfl := hone _ rfl
      have hp' := List.perm_singleton.mp (places_perm_of_only hperm hp)
      have hF := hk.live _ hstack.1
      refine .during _ used L U (by rwa [hl.nextCoro]) hp' (by rwa [hl.log]) (by rwa [hr']) hus ?_ (by rw [hl.log, hl.nextCoro]; exact hd)
      rw [hlive]
      exact hstack.2.2.below hk (hk.made _ _ hF).2.above (fun G hG hne => List.mem_filter.mpr ⟨hG, decide_eq_true hne⟩)
    | lost F input hc =>
      obtain rfl := hone _ rfl
      have hF : F ∈ m.live := hstack.1
      rw [hr.consumed hk hF (hk.sentinel_of_call (hk.live F hF) hstack.2.1)] at hc
      cases hc
    | again parents coro ctx input hop hc =>
      obtain rfl := hone _ rfl
      subst hop hc
      obtain ⟨L', -, hG, hP⟩ := hd.run hok
      exact absurd hP hG.not_bare
    | call parents coro ctx input hop hc hlog' hn' hr' hlive =>
      obtain rfl := hone _ rfl
      subst hop hc
      have hp' := List.perm_singleton.mp (places_perm_of_only hperm hp)
      obtain ⟨L', rfl, hG, hP⟩ := hd.run hok
      obtain ⟨L'', rfl, hG'⟩ := hG.of_call hP
      refine .during _ used ((m.nextCoro, .send .none) :: L'') U (by omega) hp' (by rw [hlog, hlog', List.append_cons]) (by rwa [hr']) hus ?_ ?_
      · rw [hlive]
        exact ⟨List.mem_append_right _ (List.mem_singleton.mpr rfl), rfl, hstack.mono (fun G hG _ => List.mem_append_left _ hG)⟩
      · rw [hlog', hn']
        exact ⟨L'', rfl, hG'⟩
    | yields parents coro ctx input w hop hc hlog' hn' hr' hlive =>
      obtain rfl := hone _ rfl
      subst hop hc
      have hp' := List.perm_singleton.mp (places_perm_of_only hperm hp)
      obtain ⟨L', rfl, hG, hP⟩ := hd.run hok
      obtain ⟨L'', U', rfl, rfl, hne, hG'⟩ := hG.of_wait hP
      refine .during _ used _ (w :: U') (by omega) hp' (by rw [hlog, hlog', List.append_cons]) (by rwa [hr']) hus (hlive ▸ hstack) ?_
      rw [hlog', hn']
      exact ⟨L'', U', rfl, rfl, fun he hnil => hne he (by rw [hnil]; rfl), hG'⟩
    | ended parents coro ctx input r hop hc hlog' hn' hr' hlive =>
      obtain rfl := hone _ rfl
      subst hop hc
      have hp' := places_perm_of_only hperm hp
      obtain ⟨L', rfl, hG, hP⟩ := hd.run hok
      have hB := hG.backs hP
      cases parents with
      | nil =>
        obtain ⟨rfl, rfl⟩ := hB
        exact .after (by omega) (List.perm_nil.mp hp') (by rw [hlog', hlog])
      | cons p rest =>
        obtain ⟨L'', rfl, hG'⟩ := hB
        refine .during _ used _ U (by omega) (List.perm_singleton.mp hp') (by rw [hlog, hlog', List.append_cons]) (by rwa [hr']) hus
          (hlive ▸ hstack) ?_
        rw [hlog', hn']
        exact ⟨L'', rfl, hG'⟩
    | register w coro parents parents' hl hr' hpar =>
      obtain rfl := hone _ rfl
      have hp' := List.perm_singleton.mp (places_perm_of_only hperm hp)
      obtain ⟨L', U', rfl, rfl, -, hG⟩ := hd
      refine .during _ (used ++ [w]) _ U' (by rwa [hl.nextCoro]) hp' (by rwa [hl.log]) (fun v hv => ?_) (by rw [hus, List.append_cons]) ?_ ?_
      · rw [hr'] at hv
        by_cases hvw : v = w
        · simp [hvw]
        · rw [Function.update_of_ne hvw] at hv
          exact List.mem_append_left _ (hreg v hv)
      · rcases hpar with ⟨rfl, hlive⟩ | ⟨p, rest, rfl, rfl, hmem, hlive⟩
        · exact hstack.mono (fun F hF _ => hlive F hF)
        · exact ⟨hmem, hstack.2.1, hstack.2.2.below hk (hk.made _ _ (hk.live _ hstack.1)).2.above hlive⟩
      · have hps : parents'.map (·.coro) = parents.map (·.coro) := by
          rcases hpar with ⟨rfl, -⟩ | ⟨p, rest, rfl, rfl, -, -⟩ <;> rfl
        rw [hl.log, hl.nextCoro]
        exact ⟨L', rfl, hps ▸ hG⟩

/-! ## A call -/

/-- A call starts the program, or leaves the place alone. -/
theorem Started.shift {l : Call} (hc : Started m l m' new) (hok : Runs P m (.call l)) (ops : List Op) :
    (m.SameLog m' ∧ (places m' (ops ++ new)).Perm (places m ops)) ∨
    (m.nextCoro = 0 ∧ m'.nextCoro = 1 ∧ m'.log = m.log ∧
      (places m' (ops ++ new)).Perm (places m ops ++ [.resume 0 [] (.send .none)])) := by
  cases hc with
  | set e | waiter e | io e => exact Or.inl ⟨⟨rfl, rfl⟩, perm_of_total (fun g => by simp [places, Op.places, Handle.places])⟩
  | clear e | abort fl w => exact hok.elim
  | spawn fl ctx y hy =>
    rcases hy with ⟨-, rfl⟩ | ⟨hfl, -⟩
    · obtain ⟨-, h0⟩ := hok
      refine Or.inr ⟨h0, by simp [h0], rfl, perm_of_total (fun g => ?_)⟩
      simp only [places, Mem.places, h0, List.flatMap_append, List.flatMap_cons, List.flatMap_nil, Op.places, Handle.places, total_append,
        total_cons, total_nil]
      omega
    · rw [hok.1] at hfl
      cases hfl
  | work k y hy =>
    refine Or.inl ⟨⟨rfl, rfl⟩, perm_of_total (fun g => ?_)⟩
    have := total_eraseIdx (fun h => total g h.places) hy
    simp only [places, Mem.places, List.flatMap_append, List.flatMap_cons, List.flatMap_nil, Op.places, total_append, total_nil, total_flatMap]
    omega
  | fire k S hS => exact Or.inl ⟨⟨rfl, rfl⟩, perm_of_total (fun g => by simp [places, Mem.places, Op.places, Handle.places])⟩

theorem Simulates.call {l : Call} (h : Simulates ws P full us m ops)
    (hroot : (Place.resume 0 [] (.send .none)).Means ws P [] 1 full us) (hok : Runs P m (.call l)) (hc : Started m l m' new) :
    Simulates ws P full us m' (ops ++ new) := by
  have hsame : m'.live = m.live ∧ m'.registered = m.registered := by
    obtain ⟨hs, ts, n, rfl⟩ := hc.exists_eq
    exact ⟨rfl, rfl⟩
  rcases hc.shift hok ops with ⟨hl, hperm⟩ | ⟨h0, h1, hlog', hperm⟩
  · cases h with
    | before hn hp hlog hreg =>
      rw [hp, List.perm_nil] at hperm
      exact .before (hl.nextCoro.trans hn) hperm (hl.log.trans hlog) (hsame.2 ▸ hreg)
    | after hn hp hlog =>
      rw [hp, List.perm_nil] at hperm
      exact .after (hl.nextCoro.symm ▸ hn) hperm (hl.log.trans hlog)
    | during d used L U hn hp hlog hreg hus hstack hd =>
      rw [hp, List.perm_singleton] at hperm
      exact .during d used L U (by rwa [hl.nextCoro]) hperm (by rwa [hl.log]) (hsame.2 ▸ hreg) hus (hsame.1 ▸ hstack)
        (by rwa [hl.log, hl.nextCoro])
  · cases h with
    | before hn hp hlog hreg =>
      rw [hp, List.nil_append, List.perm_singleton] at hperm
      refine .during _ [] full us (by omega) hperm (by rw [hlog', hlog]; rfl) (fun w hw => ?_) rfl trivial (by rwa [hlog', hlog, h1])
      rw [hsame.2, hreg w] at hw
      cases hw
    | after hn hp hlog => omega
    | during d used L U hn hp hlog hreg hus hstack hd => omega

end

/-- A run of a program is where the evaluation with a stack is, in every state. -/
theorem simulates_of_reach {ws : Nat → Waiter} {P : Program} {full : List (Nat × Input)} {us : List Nat} {s : State Mem Op}
    (hroot : (Place.resume 0 [] (.send .none)).Means ws P [] 1 full us)
    (hsound : ∀ {s : State Mem Op}, (machine ws).Reach (fun m _ a => Runs P m a) initial s → ∀ op ∈ s.ops, Sound s.mem op)
    (h : (machine ws).Reach (fun m _ a => Runs P m a) initial s) : Simulates ws P full us s.mem s.ops := by
  refine h.invariant_with (J := fun m ops => Known m ops ∧ Resolved m ∧ Blank m ∧ Plain m ops ∧ ∀ op ∈ ops, Sound m op)
    (fun h => ⟨known_of_reach h, resolved_of_reach h, blank_of_reach h, plain_of_reach h, hsound h⟩)
    (.before rfl rfl rfl (fun _ => rfl)) ?_ ?_
  · rintro m A op B c m' new ⟨hk, hr, hb, hp, hs⟩ ih hok he
    have hm := exec_move he
    obtain ⟨old, fresh, hshift, hshifts, hold⟩ := hm.shift hk hr hb hp (hs op (by simp))
    refine ih.shift hk hr hshift (hshifts.perm hk hm.extends) (fun d hd => ?_) hok
    exact List.mem_append_left _ (List.mem_flatMap.mpr ⟨op, by simp, hold d hd⟩)
  · exact fun m ops l m' new _ ih hok hc => ih.call hroot hok (call_started hc)

end Tonio.Runtime
