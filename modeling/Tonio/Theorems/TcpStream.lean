import Tonio.Lemmas.TcpStream

/-!
# The socket of `open_tcp_stream`

A scope that is cancelled does not wait for what it aborts: when the parent goes on, attempts may still be under way on other workers. The
parent reads `winning_socket` once for the stream and once for the socket it takes out of the set, and an attempt that succeeds in between
is the one whose socket is kept open. An attempt that creates its socket when the parent has begun to close them adds it to a set that
nobody reads again.
-/

namespace Tonio.TcpStream

open Interleaving
open Ctl (Flavour)

instance (m : Mem) (ops : List Op) (a : Act Op Choice Nat) : Decidable (Clean m ops a) := by
  unfold Clean
  split <;> infer_instance

/-- `open_tcp_stream` owns exactly the winning socket, for both flavours, any number of targets, and every order in which attempts start,
fail, succeed and are cancelled, and the parent with them: in every run in which no attempt creates a socket once the parent has begun to
close them, none has a socket then that it has not added, none stores its socket between the two readings of `winning_socket`, and no
error of `close` comes instead of the stream, once the call has returned a stream its socket is connected and open and every other one
that was created is closed; and once it has raised, every socket that was created is closed. -/
theorem open_tcp_stream_owns_winner (fl : Flavour) (n : Nat) (s : State Mem Op) (h : (machine fl n).Reach Clean (initial fl n) s) :
    (∀ i, s.mem.result = some (.returned i) →
      i ∈ s.mem.created ∧ i ∈ s.mem.connected ∧ i ∉ s.mem.closed ∧ ∀ j ∈ s.mem.created, j ≠ i → j ∈ s.mem.closed) ∧
    ∀ e, s.mem.result = some (.raised e) → ∀ j ∈ s.mem.created, j ∈ s.mem.closed := by
  have hO : Owned s.mem s.ops := Owned.reach h
  refine ⟨fun i hi => ?_, fun e he j hj => ?_⟩
  · have hS := hO.result _ hi
    obtain ⟨hc, hcl⟩ := hS.stream i rfl
    refine ⟨(Attempts.reach h).connected i hc, hc, hcl, fun j hj hji => ?_⟩
    rcases hS.others j hj with hj | hj
    · exact hj
    · cases hj
      exact absurd rfl hji
  · rcases (hO.result _ he).others j hj with hj | hj
    · exact hj
    · cases hj

/-- Two targets. The first attempt succeeds while the second is connecting, and is aborted. -/
theorem open_tcp_stream_owns_winner_two :
    ∃ s, (machine .gen 2).Reach Clean (initial .gen 2) s ∧ s.mem.created = [0, 1] ∧ s.mem.result = some (.returned 0) ∧ s.ops = [] ∧
      0 ∈ s.mem.connected ∧ 0 ∉ s.mem.closed ∧ 1 ∈ s.mem.closed := by
  obtain ⟨s, hs, hp⟩ := Machine.exists_reach_of_run (machine .gen 2) Clean (fun m ops a => decide (Clean m ops a))
    (fun _ _ _ h => of_decide_eq_true h) (initial .gen 2)
    (List.flatten [[.act 0 .go, .call 0, .act 1 .go, .act 1 .go, .act 0 .deadline, .act 0 .go, .call 1, .act 2 .go, .act 2 .go],
      List.replicate 4 (.act 1 .go), [.act 0 .deadline], List.replicate 6 (.act 0 .go), [.act 0 (.pick 1)], List.replicate 3 (.act 0 .go),
      [.act 2 .raises, .act 2 .go]])
    (fun (s : State Mem Op) => decide (s.mem.created = [0, 1]) && decide (s.mem.result = some (.returned 0)) && decide (s.ops = []))
    (by decide)
  simp only [Bool.and_eq_true, decide_eq_true_eq] at hp
  obtain ⟨⟨hc, hr⟩, hops⟩ := hp
  obtain ⟨-, hconn, hopen, hothers⟩ := (open_tcp_stream_owns_winner .gen 2 s hs).1 0 hr
  exact ⟨s, hs, hc, hr, hops, hconn, hopen, hothers 1 (by simp [hc]) (by decide)⟩

/-- Two targets, in both flavours. Both attempts succeed, and the second one stores its socket between the two readings: the socket of the
stream is closed, and the other one stays open. And the second attempt begins before the first one succeeds, and creates its socket when
the call has returned: nobody closes it. -/
theorem open_tcp_stream_leaks :
    (∃ s : Flavour → State Mem Op, ∀ fl, (machine fl 2).Reach (fun _ _ _ => True) (initial fl 2) (s fl) ∧
      (s fl).mem.result = some (.returned 0) ∧ (s fl).mem.created = [0, 1] ∧ (s fl).mem.closed = [0] ∧ (s fl).ops = []) ∧
    ∃ s : Flavour → State Mem Op, ∀ fl, (machine fl 2).Reach (fun _ _ _ => True) (initial fl 2) (s fl) ∧
      (s fl).mem.result = some (.returned 0) ∧ (s fl).mem.created = [0, 1] ∧ (s fl).mem.closed = [] ∧ (s fl).ops = [] := by
  have hrun : ∀ (fl : Flavour) (ls : List (Label Choice Nat)) (closed : List Nat),
      ((machine fl 2).run (fun _ _ _ => true) (initial fl 2) ls).any (fun s => decide (s.mem.result = some (.returned 0)) &&
        decide (s.mem.created = [0, 1]) && decide (s.mem.closed = closed) && decide (s.ops = [])) = true →
      ∃ s, (machine fl 2).Reach (fun _ _ _ => True) (initial fl 2) s ∧ s.mem.result = some (.returned 0) ∧ s.mem.created = [0, 1] ∧
        s.mem.closed = closed ∧ s.ops = [] := by
    intro fl ls closed h
    obtain ⟨s, hs, hp⟩ := Machine.exists_reach_of_run (machine fl 2) (fun _ _ _ => True) (fun _ _ _ => true)
      (fun _ _ _ _ => trivial) _ ls _ h
    simp only [Bool.and_eq_true, decide_eq_true_eq] at hp
    exact ⟨s, hs, hp.1.1.1, hp.1.1.2, hp.1.2, hp.2⟩
  -- an `async` scope yields before it is left
  constructor
  · choose s hs using fun fl => hrun fl (List.flatten [[.act 0 .go, .call 0, .act 1 .go, .act 1 .go, .act 0 .deadline, .act 0 .go, .call 1],
      List.replicate 3 (.act 2 .go), List.replicate 4 (.act 1 .go), [.act 0 .deadline],
      List.replicate (if fl = .gen then 4 else 5) (.act 0 .go), [.act 2 .go], List.replicate 2 (.act 0 .go), [.act 0 (.pick 0)],
      List.replicate 3 (.act 0 .go), List.replicate 2 (.act 2 .go)]) [0] (by cases fl <;> decide)
    exact ⟨s, hs⟩
  · choose s hs using fun fl => hrun fl (List.flatten [[.act 0 .go, .call 0, .act 1 .go, .act 1 .go, .act 0 .deadline, .act 0 .go, .call 1],
      List.replicate 4 (.act 1 .go), [.act 0 .deadline], List.replicate (if fl = .gen then 8 else 9) (.act 0 .go),
      List.replicate 2 (.act 2 .go), [.act 2 .raises, .act 2 .go]]) [] (by cases fl <;> decide)
    exact ⟨s, hs⟩

end Tonio.TcpStream
