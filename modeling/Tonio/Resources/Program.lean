import Mathlib

/-!
# Programs that hold resources

A program makes calls of a system, any of which may raise an error, acquires resources and releases them, and has variables, which are as
they were left where an error is caught. A triple says what a program does to the resources it is about, whatever else is held: what it holds
when it returns, and what it holds when it raises. The frame is built into it, so a program is proved once, for any place it is called from.
-/

namespace Resources

variable {ε σ α β : Type}

/-- What a system answers: the error of the call of a number, if it raises one, and the error of the release of a resource, which is released
all the same. -/
structure System (ε : Type) where
  call : Nat → Option ε
  release : Nat → Option ε

/-- The calls that have been made, the resource that comes next, and those that are held, each once. -/
structure Ledger where
  calls : Nat
  next : Nat
  held : Multiset Nat
  lt_next : ∀ r ∈ held, r < next
  nodup : held.Nodup

/-- A call has been made. -/
def Ledger.count (L : Ledger) : Ledger := { L with calls := L.calls + 1 }

/-- The next resource is held. -/
def Ledger.take (L : Ledger) : Ledger where
  calls := L.calls
  next := L.next + 1
  held := L.next ::ₘ L.held
  lt_next r hr := by
    rcases Multiset.mem_cons.mp hr with rfl | hr
    · exact Nat.lt_succ_self _
    · exact Nat.lt_succ_of_lt (L.lt_next r hr)
  nodup := Multiset.nodup_cons.mpr ⟨fun h => Nat.lt_irrefl _ (L.lt_next _ h), L.nodup⟩

/-- A resource is no longer held. -/
def Ledger.drop (L : Ledger) (r : Nat) : Ledger where
  calls := L.calls
  next := L.next
  held := L.held.erase r
  lt_next x hx := L.lt_next x (Multiset.mem_of_mem_erase hx)
  nodup := L.nodup.erase r

/-- A program with variables `σ`, which raises errors `ε` and returns a value `α`. -/
abbrev Program (ε σ α : Type) := EStateM ε (Ledger × σ) α

variable (S : System ε)

/-- A call. -/
def call : Program ε σ Unit := fun s =>
  match S.call s.1.calls with
  | some e => .error e (s.1.count, s.2)
  | none => .ok () (s.1.count, s.2)

/-- A resource is acquired. -/
def take : Program ε σ Nat := fun s => .ok s.1.next (s.1.take, s.2)

/-- A resource is gone. -/
def drop (r : Nat) : Program ε σ Unit := fun s => .ok () (s.1.drop r, s.2)

/-- A call that acquires a resource. -/
def acquire : Program ε σ Nat := do
  call S
  take

/-- The release of a resource. -/
def release (r : Nat) : Program ε σ Unit := do
  drop r
  match S.release r with
  | some e => throw e
  | none => pure ()

/-- The variables. -/
def vars : Program ε σ σ := fun s => .ok s.2 s

/-- An assignment. -/
def assign (f : σ → σ) : Program ε σ Unit := fun s => .ok () (s.1, f s.2)

/-- What an error leads to, before it goes on. -/
def onError (p : Program ε σ α) (h : Program ε σ Unit) : Program ε σ α :=
  tryCatch p (fun e => do h; throw e)

/-- The resources of a list are released, in order. -/
def releaseAll (rs : List Nat) : Program ε σ Unit := rs.forM (release S)

/-- The resources of a list are released, in order, whatever errors there are; the last error is raised. -/
def unwind : List Nat → Program ε σ Unit
  | [] => pure ()
  | r :: rs => do
    onError (release S r) (unwind rs)
    unwind rs

/-! ## Triples -/

variable {S} {p : Program ε σ α} {P P' : σ → Multiset Nat → Prop} {Q Q' : α → σ → Multiset Nat → Prop} {E E' : ε → σ → Multiset Nat → Prop}

/-- A resource is held next to the rest. -/
def With (r : Nat) (P : σ → Multiset Nat → Prop) (v : σ) (H : Multiset Nat) : Prop := ∃ H', H = r ::ₘ H' ∧ P v H'

theorem With.swap {r x : Nat} {v : σ} {H : Multiset Nat} (h : With r (With x P) v H) : With x (With r P) v H := by
  obtain ⟨_, rfl, H', rfl, hP⟩ := h
  exact ⟨r ::ₘ H', Multiset.cons_swap _ _ _, H', rfl, hP⟩

theorem With.imp {r : Nat} {v : σ} {H : Multiset Nat} (h : With r P v H) (hP : ∀ H, P v H → P' v H) : With r P' v H := by
  obtain ⟨H', rfl, hv⟩ := h
  exact ⟨H', rfl, hP H' hv⟩

/-- Of what is held, `P` is said of what the program is about; then `Q` is when it returns, and `E` when it raises, and the rest is as it was. -/
def Triple (P : σ → Multiset Nat → Prop) (p : Program ε σ α) (Q : α → σ → Multiset Nat → Prop) (E : ε → σ → Multiset Nat → Prop) : Prop :=
  ∀ (F H : Multiset Nat) (L : Ledger) (v : σ), L.held = F + H → P v H →
    match p (L, v) with
    | .ok a (L', v') => ∃ H', L'.held = F + H' ∧ Q a v' H'
    | .error e (L', v') => ∃ H', L'.held = F + H' ∧ E e v' H'

/-- The rule of consequence. -/
theorem Triple.weaken (h : Triple P p Q E) (hP : ∀ v H, P' v H → P v H) (hQ : ∀ a v H, Q a v H → Q' a v H)
    (hE : ∀ e v H, E e v H → E' e v H) : Triple P' p Q' E' := by
  intro F H L v hL hv
  have hrun := h F H L v hL (hP v H hv)
  revert hrun
  cases p (L, v) with
  | ok a s' =>
    rintro ⟨H', hL', hQ'⟩
    exact ⟨H', hL', hQ a _ _ hQ'⟩
  | error e s' =>
    rintro ⟨H', hL', hE'⟩
    exact ⟨H', hL', hE e _ _ hE'⟩

theorem Triple.pure (a : α) : Triple (Q a) (pure a : Program ε σ α) Q E := fun _ H _ _ hL hv => ⟨H, hL, hv⟩

theorem Triple.throw (e : ε) : Triple (E e) (throw e : Program ε σ α) Q E := fun _ H _ _ hL hv => ⟨H, hL, hv⟩

/-- One program after the other. -/
theorem Triple.bind {R : β → σ → Multiset Nat → Prop} {q : Program ε σ β} {f : β → Program ε σ α} (h : Triple P q R E)
    (hf : ∀ b, Triple (R b) (f b) Q E) : Triple P (q >>= f) Q E := by
  intro F H L v hL hv
  have hrun := h F H L v hL hv
  have hbind : (q >>= f) (L, v) = match q (L, v) with
      | .ok b s' => f b s'
      | .error e s' => .error e s' := by
    simp only [Bind.bind, EStateM.bind]
    cases q (L, v) <;> rfl
  rw [hbind]
  cases hq : q (L, v) with
  | ok b s' =>
    rw [hq] at hrun
    obtain ⟨H', hL', hR⟩ := hrun
    exact hf b F H' s'.1 s'.2 hL' hR
  | error e s' =>
    rw [hq] at hrun
    exact hrun

/-- A program whose value is taken further. -/
theorem Triple.map {R : β → σ → Multiset Nat → Prop} {f : α → β} (h : Triple P p (fun a => R (f a)) E) : Triple P (f <$> p) R E := by
  have hmap : f <$> p = p >>= fun a => Pure.pure (f a) := by
    funext s
    simp only [Functor.map, EStateM.map, Bind.bind, EStateM.bind, Pure.pure, EStateM.pure]
  rw [hmap]
  exact h.bind (fun a => .pure (f a))

/-- A handler goes on from where the error was raised. -/
theorem Triple.tryCatch {h : ε → Program ε σ α} {R : ε → σ → Multiset Nat → Prop} (hp : Triple P p Q R)
    (hh : ∀ e, Triple (R e) (h e) Q E) : Triple P (tryCatch p h) Q E := by
  intro F H L v hL hv
  have hrun := hp F H L v hL hv
  have hcatch : (MonadExcept.tryCatch p h : Program ε σ α) (L, v) = match p (L, v) with
      | .ok a s' => .ok a s'
      | .error e s' => h e s' := by
    simp only [MonadExcept.tryCatch, tryCatchThe, MonadExceptOf.tryCatch, EStateM.tryCatch]
    cases p (L, v) <;> rfl
  rw [hcatch]
  cases hpr : p (L, v) with
  | ok a s' =>
    rw [hpr] at hrun
    exact hrun
  | error e s' =>
    rw [hpr] at hrun
    obtain ⟨H', hL', hR⟩ := hrun
    exact hh e F H' s'.1 s'.2 hL' hR

/-- An error goes on after what it leads to. -/
theorem Triple.onError {h : Program ε σ Unit} {R : ε → σ → Multiset Nat → Prop} (hp : Triple P p Q R)
    (hh : ∀ e, Triple (R e) h (fun _ => E e) E) : Triple P (onError p h) Q E :=
  hp.tryCatch (fun e => (hh e).bind (fun _ => .throw e))

theorem Triple.call : Triple P (call S) (fun _ => P) (fun _ => P) := by
  intro F H L v hL hv
  unfold Resources.call
  cases S.call L.calls <;> exact ⟨H, hL, hv⟩

theorem Triple.take : Triple P (take : Program ε σ Nat) (fun r => With r P) E := by
  intro F H L v hL hv
  refine ⟨L.next ::ₘ H, ?_, H, rfl, hv⟩
  simp only [Ledger.take, hL, Multiset.add_cons]

theorem Triple.drop (r : Nat) : Triple (With r P) (drop r : Program ε σ Unit) (fun _ => P) E := by
  rintro F _ L v hL ⟨H, rfl, hv⟩
  refine ⟨H, ?_, hv⟩
  change L.held.erase r = F + H
  rw [hL, Multiset.add_cons, Multiset.erase_cons_head]

theorem Triple.acquire : Triple P (acquire S) (fun r => With r P) (fun _ => P) :=
  Triple.call.bind (fun _ => .take)

theorem Triple.release (r : Nat) : Triple (With r P) (release S r) (fun _ => P) (fun e v H => P v H ∧ S.release r = some e) := by
  refine (Triple.drop r).bind (fun _ => ?_)
  cases hr : S.release r with
  | none => exact Triple.pure (Q := fun _ => P) ()
  | some e => exact (Triple.throw e).weaken (fun _ _ h => ⟨h, rfl⟩) (fun _ _ _ h => h) (fun _ _ _ h => h)

theorem Triple.vars : Triple P (vars : Program ε σ σ) (fun a v H => a = v ∧ P v H) E := fun _ H _ _ hL hv => ⟨H, hL, rfl, hv⟩

theorem Triple.assign (f : σ → σ) : Triple (fun v H => P (f v) H) (assign f : Program ε σ Unit) (fun _ => P) E :=
  fun _ H _ _ hL hv => ⟨H, hL, hv⟩

/-- The rule of a loop over a list: the invariant may speak of the elements that are done. -/
theorem Triple.forM {I : List β → σ → Multiset Nat → Prop} {body : β → Program ε σ PUnit}
    (h : ∀ done x, Triple (I done) (body x) (fun _ => I (done ++ [x])) E) (xs : List β) :
    ∀ done, Triple (I done) (xs.forM body) (fun _ => I (done ++ xs)) E := by
  induction xs with
  | nil =>
    intro done
    rw [List.append_nil]
    exact Triple.pure (Q := fun _ => I done) PUnit.unit
  | cons x xs ih =>
    intro done
    rw [List.append_cons]
    exact (h done x).bind (fun _ => ih (done ++ [x]))

/-- The resources of a list are released, unless the release of one of them raises: then some of the others are not. -/
theorem Triple.releaseAll (rs : List Nat) :
    Triple (fun v H => ∃ H', H = ↑rs + H' ∧ P v H') (releaseAll S rs) (fun _ => P)
      (fun e v H => ∃ left H', H = left + H' ∧ left ≤ (↑rs : Multiset Nat) ∧ P v H' ∧ ∃ r ∈ rs, S.release r = some e) := by
  induction rs with
  | nil => exact (Triple.pure (Q := fun _ => P) PUnit.unit).weaken (by simp) (fun _ _ _ h => h) (fun _ _ _ h => h)
  | cons r rs ih =>
    have hle : (↑rs : Multiset Nat) ≤ ↑(r :: rs) := Multiset.le_cons_self _ _
    have hstep := Triple.release (S := S) (P := fun v H => ∃ H', H = ↑rs + H' ∧ P v H') r
    refine Triple.bind (hstep.weaken ?_ (fun _ _ _ h => h) ?_) (fun _ => ih.weaken (fun _ _ h => h) (fun _ _ _ h => h) ?_)
    · rintro v _ ⟨H, rfl, hv⟩
      exact ⟨↑rs + H, by rw [← Multiset.cons_coe, Multiset.cons_add], H, rfl, hv⟩
    · rintro e v _ ⟨⟨H, rfl, hv⟩, hr⟩
      exact ⟨↑rs, H, rfl, hle, hv, r, List.mem_cons_self, hr⟩
    · rintro e v _ ⟨left, H, rfl, hleft, hv, x, hx, hr⟩
      exact ⟨left, H, rfl, hleft.trans hle, hv, x, List.mem_cons_of_mem r hx, hr⟩

/-- The resources of a list are released, whatever errors there are. -/
theorem Triple.unwind (rs : List Nat) :
    Triple (fun v H => ∃ H', H = ↑rs + H' ∧ P v H') (unwind S rs) (fun _ => P) (fun _ v H => P v H) := by
  induction rs with
  | nil => exact (Triple.pure (Q := fun _ => P) PUnit.unit).weaken (by simp) (fun _ _ _ h => h) (fun _ _ _ h => h)
  | cons r rs ih =>
    have hstep := Triple.release (S := S) (P := fun v H => ∃ H', H = ↑rs + H' ∧ P v H') r
    have hall := (hstep.weaken (fun _ _ h => h) (fun _ _ _ h => h) (fun _ _ _ h => h.1)).onError (fun _ => ih)
    refine (Triple.bind hall (fun _ => ih)).weaken ?_ (fun _ _ _ h => h) (fun _ _ _ h => h)
    rintro v _ ⟨H, rfl, hv⟩
    exact ⟨↑rs + H, by rw [← Multiset.cons_coe, Multiset.cons_add], H, rfl, hv⟩

/-- What a triple says of a run that begins with nothing of its own. -/
theorem Triple.run (h : Triple P p Q E) (L : Ledger) (v : σ) (hv : P v 0) :
    match p (L, v) with
    | .ok a (L', v') => ∃ H, L'.held = L.held + H ∧ Q a v' H
    | .error e (L', v') => ∃ H, L'.held = L.held + H ∧ E e v' H :=
  h L.held 0 L v (add_zero _).symm hv

end Resources
