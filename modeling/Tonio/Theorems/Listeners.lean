import Tonio.Listeners

/-!
# No socket is lost

What is opened is returned, or closed again, wherever an exception comes from. A program is proved with the triples of `Tonio.Resources`, whatever
else is held, and each theorem reads the triple of one function at a run.
-/

namespace Tonio.Listeners

open Resources

variable {S : System Error} {n : Nat} {σ : Type} {P : σ → Multiset Nat → Prop}

/-- Calls leave what is held. -/
theorem setOptions_spec (family : Family) : Triple P (setOptions S family) (fun _ => P) (fun _ => P) := by
  refine Triple.call.bind (fun _ => ?_)
  split
  · exact .call
  · exact Triple.pure (Q := fun _ => P) ()

theorem bind_spec : Triple P (bind S) (fun _ => P) (fun _ => P) := Triple.call.bind (fun _ => .call)

/-- An error closes the socket, whether its `close` raises or not. -/
theorem closeOnError_spec {α : Type} {R : σ → Multiset Nat → Prop} {Q : α → σ → Multiset Nat → Prop} {sock : Nat} {body : Program Error σ α}
    (h : Triple R body Q (fun _ => With sock P)) : Triple R (closeOnError S sock body) Q (fun _ => P) :=
  h.onError (fun _ => (Triple.release sock).weaken (fun _ _ h => h) (fun _ _ _ h => h) (fun _ _ _ h => h.1))

/-! ## `open_tcp_listeners` -/

/-- What is held while the listeners are opened: a socket for each. Of each address there is one, or its family is not supported. -/
structure Opened (n : Nat) (v : Vars) (H : Multiset Nat) : Prop where
  held : H = ↑v.listeners
  each : v.listeners.length + v.unsupported.length = n
  unsupported : ∀ e ∈ v.unsupported, e.errno = some eafnosupport

/-- What is held once a socket has been asked for: it as well, or its family is not supported. -/
def Asked (n : Nat) : Option Nat → Vars → Multiset Nat → Prop
  | none => Opened (n + 1)
  | some sock => With sock (Opened n)

/-- With an address, a socket is added, or the address is not supported; an error leaves the listeners as they were. -/
theorem addListener_spec (family : Family) : Triple (Opened n) (addListener S family) (fun _ => Opened (n + 1)) (fun _ => Opened n) := by
  refine Triple.bind (R := Asked n) (Triple.tryCatch (R := fun _ => Opened n) (.map .acquire) (fun e => ?_)) (fun sock => ?_)
  · split
    · rename_i he
      have hassign := Triple.assign (ε := Error) (P := Opened (n + 1)) (E := fun _ => Opened n)
        (fun v : Vars => { v with unsupported := v.unsupported ++ [e] })
      refine (hassign.weaken ?_ (fun _ _ _ h => h) (fun _ _ _ h => h)).bind (fun _ => Triple.pure (Q := Asked n) none)
      intro v H h
      refine ⟨h.held, ?_, ?_⟩
      · have := h.each
        simp only [List.length_append, List.length_singleton]
        omega
      · simpa [or_imp, forall_and] using ⟨h.unsupported, he⟩
    · exact Triple.throw (E := fun _ => Opened n) e
  · cases sock with
    | none => exact Triple.pure (Q := fun _ => Opened (n + 1)) PUnit.unit
    | some r =>
      refine closeOnError_spec ?_
      refine (setOptions_spec family).bind (fun _ => bind_spec.bind (fun _ => Triple.call.bind (fun _ => ?_)))
      refine (Triple.assign (P := Opened (n + 1)) _).weaken ?_ (fun _ _ _ h => h) (fun _ _ _ h => h)
      rintro v _ ⟨H, rfl, h⟩
      refine ⟨?_, ?_, h.unsupported⟩
      · rw [h.held, ← Multiset.coe_add, ← Multiset.singleton_add, add_comm]
        rfl
      · have := h.each
        simp only [List.length_append, List.length_singleton]
        omega

/-- What is held when `open_tcp_listeners` raises: nothing, if no `close` of a listener has raised, and otherwise some of the listeners. -/
structure Closed (S : System Error) (v : Vars) (H : Multiset Nat) : Prop where
  held : H ≤ ↑v.listeners
  none_left : (∀ r ∈ v.listeners, S.release r = none) → H = 0

theorem Closed.zero (v : Vars) : Closed S v 0 := ⟨Multiset.zero_le _, fun _ => rfl⟩

/-- The handler closes the listeners there are. -/
theorem closeListeners_spec :
    Triple (Opened n) (do let v ← vars; releaseAll S v.listeners) (fun _ => Closed S) (fun _ => Closed S) := by
  refine Triple.vars.bind (fun w => ?_)
  refine (Triple.releaseAll (P := fun v H => v = w ∧ H = 0) w.listeners).weaken ?_ ?_ ?_
  · rintro v H ⟨rfl, h⟩
    exact ⟨0, by rw [h.held, add_zero], rfl, rfl⟩
  · rintro _ v _ ⟨rfl, rfl⟩
    exact .zero _
  · rintro e v _ ⟨left, _, rfl, hle, ⟨rfl, rfl⟩, r, hr, hraises⟩
    rw [add_zero]
    refine ⟨hle, fun hnone => ?_⟩
    rw [hnone r hr] at hraises
    cases hraises

theorem openTcpListeners_spec (addresses : List Family) :
    Triple (Opened 0) (openTcpListeners S addresses)
      (fun listeners v H => Opened addresses.length v H ∧ listeners = v.listeners ∧ (addresses ≠ [] → listeners ≠ []))
      (fun _ => Closed S) := by
  have hloop : Triple (Opened 0) (addresses.forM (addListener S)) (fun _ => Opened addresses.length) (fun _ v H => ∃ n, Opened n v H) := by
    refine Triple.forM (I := fun done => Opened done.length) (fun done family => ?_) addresses []
    rw [List.length_append]
    exact (addListener_spec family).weaken (fun _ _ h => h) (fun _ _ _ h => h) (fun _ _ _ h => ⟨_, h⟩)
  have hclose : ∀ e : Error, Triple (fun v H => ∃ n, Opened n v H) (do let v ← vars; releaseAll S v.listeners) (fun _ => Closed S)
      (fun _ => Closed S) := by
    intro e F H L v hL ⟨n, h⟩
    exact closeListeners_spec F H L v hL h
  refine (Triple.call.weaken (fun _ _ h => h) (fun _ _ _ h => h) ?_).bind (fun _ => (hloop.onError hclose).bind (fun _ => ?_))
  · intro _ v H h
    have hnil : v.listeners = [] := List.eq_nil_of_length_eq_zero (by have := h.each; omega)
    rw [h.held, hnil]
    exact .zero v
  refine Triple.vars.bind (fun w => ?_)
  split
  · rename_i h
    refine (Triple.throw (E := fun _ => Closed S) _).weaken ?_ (fun _ _ _ h => h) (fun _ _ _ h => h)
    rintro v H ⟨rfl, hv⟩
    rw [hv.held, h.2]
    exact .zero w
  · rename_i h
    refine (Triple.pure (Q := fun listeners v H =>
      Opened addresses.length v H ∧ listeners = v.listeners ∧ (addresses ≠ [] → listeners ≠ [])) w.listeners).weaken ?_ (fun _ _ _ h => h)
      (fun _ _ _ h => h)
    rintro v H ⟨rfl, hv⟩
    refine ⟨hv, rfl, fun hne hnil => h ⟨fun hun => hne ?_, hnil⟩⟩
    refine List.eq_nil_of_length_eq_zero ?_
    have := hv.each
    rw [hnil, hun] at this
    simpa using this.symm

/-- `open_tcp_listeners`, whatever the system answers, for any list of addresses, and whatever else is held: what it returns are listeners that
are open and were not before, each once, and each of the addresses has one, or its family is not supported; there is a listener if there is an
address. When it raises, all that it opened is closed, unless the `close` of a listener raises, and then only listeners are left. -/
theorem open_tcp_listeners_leaks_nothing (S : System Error) (addresses : List Family) (L : Ledger) :
    match openTcpListeners S addresses (L, ⟨[], []⟩) with
    | .ok listeners (L', v) =>
      L'.held = L.held + ↑listeners ∧ listeners.Nodup ∧ (∀ r ∈ listeners, r ∉ L.held) ∧
        listeners.length + v.unsupported.length = addresses.length ∧ (∀ e ∈ v.unsupported, e.errno = some eafnosupport) ∧
        (addresses ≠ [] → listeners ≠ [])
    | .error _ (L', v) =>
      ∃ left : Multiset Nat, L'.held = L.held + left ∧ left ≤ ↑v.listeners ∧ ((∀ r ∈ v.listeners, S.release r = none) → left = 0) := by
  have hrun := (openTcpListeners_spec (S := S) addresses).run L ⟨[], []⟩ ⟨rfl, rfl, by simp⟩
  revert hrun
  cases openTcpListeners S addresses (L, ⟨[], []⟩) with
  | ok listeners s' =>
    obtain ⟨L', v⟩ := s'
    rintro ⟨_, hheld, ⟨rfl, hlen, hun⟩, rfl, hne⟩
    have hnodup := L'.nodup
    rw [hheld, Multiset.nodup_add] at hnodup
    exact ⟨hheld, Multiset.coe_nodup.mp hnodup.2.1, fun r hr hL => Multiset.disjoint_left.mp hnodup.2.2 hL hr, hlen, hun, hne⟩
  | error e s' =>
    obtain ⟨L', v⟩ := s'
    rintro ⟨left, hheld, h⟩
    exact ⟨left, hheld, h.held, h.none_left⟩

/-! ## The sockets of a path -/

/-- `open_unix_socket` returns a socket that is open, or closes it. -/
theorem openUnixSocket_spec :
    Triple (fun _ H => H = 0) (openUnixSocket S) (fun sock _ H => H = {sock}) (fun _ _ H => H = 0) := by
  refine Triple.acquire.bind (fun sock => ?_)
  refine (closeOnError_spec (Triple.call.bind (fun _ => Triple.call.bind (fun _ => Triple.call)))).bind (fun _ => ?_)
  refine (Triple.pure (Q := fun sock _ H => H = {sock}) sock).weaken ?_ (fun _ _ _ h => h) (fun _ _ _ h => h)
  rintro _ _ ⟨_, rfl, rfl⟩
  rfl

/-- The entry of a path may be held. -/
def MaybeBound (P : σ → Multiset Nat → Prop) (v : σ) (H : Multiset Nat) : Prop := P v H ∨ ∃ entry, With entry P v H

/-- Removing the entry of a path removes it, or raises. -/
theorem unlink_spec (entry : Nat) : Triple (With entry P) (unlink S entry) (fun _ => P) (fun _ => With entry P) :=
  Triple.call.bind (fun _ => .drop entry)

theorem suppress_spec {p : Program Error σ Unit} {R : σ → Multiset Nat → Prop} (h : Triple P p (fun _ => R) (fun _ => R)) :
    Triple P (suppress p) (fun _ => R) (fun _ => R) := by
  refine h.tryCatch (fun e => ?_)
  split
  · exact Triple.pure (Q := fun _ => R) ()
  · exact Triple.throw (E := fun _ => R) e

/-- What `_unix_bind` has bound is the entry of the path, which it removes, if it can, when the mode cannot be set. -/
theorem unixBind_spec (inUse : String) (mode : Option Nat) :
    Triple P (unixBind S inUse mode) (fun entry => With entry P) (fun _ => MaybeBound P) := by
  have hbound : Triple P (tryCatch (acquire S) (fun e => throw (if e.errno = some eaddrinuse then .osError eaddrinuse inUse else e)))
      (fun entry => With entry P) (fun _ => MaybeBound P) := by
    refine Triple.tryCatch (R := fun _ => P) .acquire (fun e => ?_)
    exact (Triple.throw (E := fun _ => P) _).weaken (fun _ _ h => h) (fun _ _ _ h => h) (fun _ _ _ h => Or.inl h)
  refine hbound.bind (fun entry => ?_)
  split
  · have hunlink : Triple (With entry P) (suppress (unlink S entry)) (fun _ => MaybeBound P) (fun _ => MaybeBound P) :=
      suppress_spec ((unlink_spec entry).weaken (fun _ _ h => h) (fun _ _ _ h => Or.inl h) (fun _ _ _ h => Or.inr ⟨entry, h⟩))
    exact (Triple.call.onError (fun _ => hunlink)).bind (fun _ => Triple.pure (Q := fun entry => With entry P) entry)
  · exact Triple.pure (Q := fun entry => With entry P) entry

theorem MaybeBound.with {sock : Nat} {v : σ} {H : Multiset Nat} (h : MaybeBound (With sock P) v H) : With sock (MaybeBound P) v H := by
  rcases h with ⟨H', hH, hP⟩ | ⟨entry, h⟩
  · exact ⟨H', hH, Or.inl hP⟩
  · obtain ⟨H', hH, hP⟩ := h.swap
    exact ⟨H', hH, Or.inr ⟨entry, hP⟩⟩

/-- `open_unix_listener` returns a socket that is open, with the entry of its path, or closes it; it may leave the entry. -/
theorem openUnixListener_spec (path : Path) (inUse : String) (mode : Option Nat) :
    Triple (fun _ H => H = 0) (openUnixListener S path inUse mode) (fun r _ H => H = {r.1, r.2})
      (fun _ => MaybeBound (fun _ H => H = 0)) := by
  unfold openUnixListener
  split
  · exact (Triple.throw (E := fun _ _ H => H = 0) _).weaken (fun _ _ h => h) (fun _ _ _ h => h) (fun _ _ _ h => Or.inl h)
  · have hacquire := (Triple.acquire (S := S) (σ := Unit) (P := fun _ H => H = 0))
    refine (hacquire.weaken (fun _ _ h => h) (fun _ _ _ h => h) (fun _ _ _ h => Or.inl h)).bind (fun sock => ?_)
    have hlisten : ∀ entry, Triple (With entry (With sock (fun (_ : Unit) H => H = 0))) (do call S; pure entry)
        (fun entry => With entry (With sock (fun _ H => H = 0))) (fun _ => With sock (MaybeBound (fun _ H => H = 0))) := by
      intro entry
      refine (Triple.call.weaken (fun _ _ h => h) (fun _ _ _ h => h) ?_).bind
        (fun _ => Triple.pure (Q := fun entry => With entry (With sock (fun _ H => H = 0))) entry)
      exact fun _ _ _ h => MaybeBound.with (Or.inr ⟨entry, h⟩)
    have hbody := (unixBind_spec (S := S) (P := With sock (fun (_ : Unit) H => H = 0)) inUse mode).weaken (fun _ _ h => h) (fun _ _ _ h => h)
      (fun _ _ _ h => h.with)
    refine (closeOnError_spec (hbody.bind hlisten)).bind (fun entry => ?_)
    refine (Triple.pure (Q := fun r _ H => H = {r.1, r.2}) (sock, entry)).weaken ?_ (fun _ _ _ h => h) (fun _ _ _ h => h)
    rintro _ _ ⟨_, rfl, _, rfl, rfl⟩
    exact Multiset.cons_swap _ _ _

/-- `open_unix_socket` and `open_unix_listener`, whatever the system answers, and whatever else is held: the socket is returned, and is open, or it
is closed, though its `close` may raise. When the listener is not returned, the entry of its path may be left, and nothing else. -/
theorem unix_sockets_are_closed (S : System Error) (path : Path) (inUse : String) (mode : Option Nat) (L : Ledger) :
    (match openUnixSocket S (L, ()) with
      | .ok sock (L', _) => L'.held = L.held + {sock}
      | .error _ (L', _) => L'.held = L.held) ∧
    (match openUnixListener S path inUse mode (L, ()) with
      | .ok (sock, entry) (L', _) => L'.held = L.held + {sock, entry}
      | .error _ (L', _) => L'.held = L.held ∨ ∃ entry, L'.held = L.held + {entry}) := by
  refine ⟨?_, ?_⟩
  · have hrun := (openUnixSocket_spec (S := S)).run L () rfl
    revert hrun
    cases openUnixSocket S (L, ()) with
    | ok sock s' =>
      rintro ⟨_, hheld, rfl⟩
      exact hheld
    | error e s' =>
      rintro ⟨_, hheld, rfl⟩
      exact hheld.trans (add_zero _)
  · have hrun := (openUnixListener_spec (S := S) path inUse mode).run L () rfl
    revert hrun
    cases openUnixListener S path inUse mode (L, ()) with
    | ok r s' =>
      rintro ⟨_, hheld, rfl⟩
      exact hheld
    | error e s' =>
      rintro ⟨_, hheld, rfl | ⟨entry, _, rfl, rfl⟩⟩
      · exact Or.inl (hheld.trans (add_zero _))
      · exact Or.inr ⟨entry, hheld⟩

end Tonio.Listeners
