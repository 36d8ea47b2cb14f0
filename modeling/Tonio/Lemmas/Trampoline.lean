import Tonio.Lemmas.Continuity
import Tonio.Lemmas.Evaluation

/-!
# The trampoline

A run of one program of generators without aborts. Only the operations of generators are performed (`Plain`), and there is one place
where the program goes on (`places`): a handle, what a generator yielded, the suspension it is parked on, or a result on its way up.
`Shift` says what a step does to that place: most steps leave it alone or pass it on, and the others are those of an evaluation with a
stack, where the suspensions of the callers are the stack.
-/

namespace Tonio.Runtime

open Interleaving

/-! ## Runs without tasks and aborts -/

/-- The handles of a program of generators. -/
def Handle.plain : Handle → Bool
  | .async _ _ _ _ | .asyncThrow _ _ _ => false
  | _ => true

/-- The operations of a program of generators. -/
def Op.plain : Op → Bool
  | .clear _ | .unnotifyLock _ | .unnotify _ _ | .abort _ _ | .abortLoad _ _ | .registerPyasyncgen _ _ _ _ | .clearPtr _
  | .resumeBody _ _ _ => false
  | .suspend fl _ _ _ _ _ _ => decide (fl = .gen)
  | .addHandle h | .run h | .enter _ _ h => h.plain
  | .error byAbort S _ => !byAbort && !S.waits
  | .resume S v _ => !S.waits || decide (v = .none)
  | _ => true

/-- Only generators run, and nothing is aborted. -/
structure Plain (m : Mem) (ops : List Op) : Prop where
  ops : ∀ op ∈ ops, op.plain = true
  handles : ∀ h ∈ m.handles, h.plain = true
  gen : ∀ c S, m.made c = some S → S.flavour = .gen
  aborted : ∀ w, m.aborted w = false

section

variable {ws : Nat → Waiter} {m m' : Mem} {A B new ops ops' : List Op} {op : Op} {c : Choice} {S : Susp} {old fresh : List Tok}

theorem Susp.handle_of_gen (hS : S.flavour = .gen) (input : Input) : S.handle input = .gen S.parents S.coro S.ctx input := by
  cases input <;> simp [Susp.handle, hS]

theorem plain_registration {T : Susp} {events : List Nat} {timed : Bool} {x : Op} (hx : x ∈ registration T events timed) :
    x.plain = true := by
  unfold registration at hx
  split at hx
  · rw [List.mem_singleton.mp hx]
    rfl
  · rcases List.mem_append.mp hx with hx | hx
    · obtain ⟨ei, -, rfl⟩ := List.mem_map.mp hx
      rfl
    · cases timed with
      | false => cases hx
      | true =>
        rw [List.mem_singleton.mp hx]
        rfl

/-- What follows from an operation of a program of generators is one. -/
theorem Plain.follows (h : Plain m (A ++ op :: B)) (hk : Known m (A ++ op :: B)) (hm : Move ws m op c m' new) : ∀ x ∈ new, x.plain = true := by
  have hopin : op ∈ A ++ op :: B := by simp
  have hop := h.ops op hopin
  have hwf : op.WF m := hk.ops op hopin
  intro x hx
  cases hm with
  | lock e hl hlock =>
    cases hlock with
    | unnotify => cases hop
    | notify | sweep | addWaker y => rw [List.mem_singleton.mp hx]; rfl
  | notifyPop e y q hq | wakeNow e y hf =>
    simp only [List.mem_cons, List.not_mem_nil, or_false] at hx
    rcases hx with rfl | rfl <;> simp [Op.plain]
  | consume T v i hw hs hc | decrementLast T v i hw hs hc | decrement T v i hw | decrementZero T v i hw =>
    rw [List.mem_singleton.mp hx]
    rfl
  | storeRes T i v last =>
    cases last with
    | false => cases hx
    | true =>
      rw [List.mem_singleton.mp hx]
      rfl
  | resumePass T v i hfl ha =>
    rw [h.gen _ _ hwf.1] at hfl
    cases hfl
  | toHandle T input | toHandleClear T input =>
    rw [List.mem_singleton.mp hx, Op.plain, Susp.handle_of_gen (h.gen _ _ hwf)]
    rfl
  | suspend fl coro ctx checkpoint parents events timed T hT => exact plain_registration hx
  | checkAborted w T =>
    rw [List.mem_singleton.mp hx, h.aborted w]
    simp [Op.plain]
  | abortLoad fl w | abort fl w => cases hop
  | registerAsync => cases hop
  | clearTrue => cases hop
  | hold => cases hop
  | enter w P y =>
    rw [List.mem_singleton.mp hx]
    exact hop
  | callChild parents coro ctx input new hnew =>
    rcases hnew with rfl | ⟨_, _, _, -, -, -, rfl⟩ <;> rw [List.mem_singleton.mp hx] <;> rfl
  | ret parents coro ctx input v | raise parents coro ctx input e =>
    cases parents with
    | nil => cases hx
    | cons p rest =>
      rw [List.mem_singleton.mp hx]
      have hpw : p.waits = false := (hwf p rest rfl).2.1
      simp [Op.plain, hpw]
  | asyncAgain | asyncWaiter | asyncOver => cases hop
  | timer T =>
    rw [List.mem_singleton.mp hx]
    simp [Op.plain]
  | _ =>
    simp only [List.mem_singleton, List.not_mem_nil] at hx
    try subst hx
    try rfl

theorem Plain.move (h : Plain m (A ++ op :: B)) (hk : Known m (A ++ op :: B)) (hm : Move ws m op c m' new) :
    Plain m' (A ++ (new ++ B)) := by
  have hopin : op ∈ A ++ op :: B := by simp
  have hop := h.ops op hopin
  have hwf : op.WF m := hk.ops op hopin
  refine ⟨fun x hx => ?_, ?_, ?_, ?_⟩
  · rcases Machine.mem_cases op hx with hx | hx
    · exact h.follows hk hm x hx
    · exact h.ops x hx
  · cases hm with
    | addHandle y =>
      intro z hz
      rcases List.mem_append.mp hz with hz | hz
      · exact h.handles z hz
      · rw [List.mem_singleton.mp hz]
        exact hop
    | _ => exact h.handles
  · -- what is made is made by a generator
    have hnew : ∀ T : Susp, T.flavour = .gen → ∀ (f : Nat → Option Susp) (k : Nat), (∀ c S, f c = some S → S.flavour = .gen) →
        ∀ c S, Function.update f k (some T) c = some S → S.flavour = .gen := by
      intro T hT f k hf c S hS
      by_cases hc : c = k
      · rw [hc, Function.update_self] at hS
        exact Option.some.inj hS ▸ hT
      · rw [Function.update_of_ne hc] at hS
        exact hf c S hS
    cases hm with
    | fromCheckpoint w coro ctx p rest hr he hp =>
      exact hnew _ rfl _ _ (hnew _ (hwf p rest rfl).2.2 _ _ h.gen)
    | underCheckpoint => exact hnew _ rfl _ _ h.gen
    | callChild => exact hnew _ rfl _ _ h.gen
    | suspend fl coro ctx checkpoint parents events timed T hT =>
      refine hnew T ?_ _ _ h.gen
      rw [hT]
      exact of_decide_eq_true hop
    | _ => exact h.gen
  · cases hm with
    | abort => cases hop
    | _ => exact h.aborted

end

theorem plain_of_reach {ws : Nat → Waiter} {P : Program} {s : State Mem Op}
    (h : (machine ws).Reach (fun m _ a => Runs P m a) initial s) : Plain s.mem s.ops := by
  refine h.invariant_with known_of_reach ?_ ?_ ?_
  · exact ⟨fun _ h => (nomatch h), fun _ h => (nomatch h), fun _ _ h => (nomatch h), fun _ => rfl⟩
  · exact fun m A op B c m' new hk ih _ he => ih.move hk (exec_move he)
  · intro m ops l m' new _ ih hok hc
    have hnew : ∀ x ∈ new, x.plain = true := by
      intro x hx
      cases call_started hc with
      | clear | abort => exact hok.elim
      | spawn fl ctx y hy =>
        rcases hy with ⟨-, rfl⟩ | ⟨hfl, -⟩
        · rw [List.mem_singleton.mp hx]
          rfl
        · rw [hok.1] at hfl
          cases hfl
      | work k y hy =>
        rw [List.mem_singleton.mp hx]
        exact ih.handles y (List.mem_of_getElem? hy)
      | set | waiter | io | fire =>
        rw [List.mem_singleton.mp hx]
        rfl
    have hhandles : ∀ y ∈ m'.handles, y ∈ m.handles := by
      intro y hy
      cases call_started hc with
      | work k z hz => exact List.mem_of_mem_eraseIdx hy
      | _ => exact hy
    obtain ⟨hs, ts, n, rfl⟩ := (call_started hc).exists_eq
    refine ⟨fun x hx => ?_, fun y hy => ih.handles y (hhandles y hy), ih.gen, ih.aborted⟩
    rcases List.mem_append.mp hx with hx | hx
    · exact ih.ops x hx
    · exact hnew x hx

/-! ## What several events give -/

/-- The slots of a sentinel hold nothing but `None`. -/
def Blank (m : Mem) : Prop := ∀ S, m.Knows S → S.sentinel = true → m.res S.cell = List.replicate (m.awaits S.cell).length .none

section

variable {ws : Nat → Waiter} {m m' : Mem} {A B new ops : List Op} {op : Op} {c : Choice}

theorem Blank.of_res (h : Blank m) (hm : m'.made = m.made) (ha : m'.awaits = m.awaits) (hr : m'.res = m.res) : Blank m' := by
  intro S hS hs
  rw [ha, hr]
  exact h S (by rwa [Mem.Knows, hm] at hS) hs

/-- A suspension is made with empty slots. -/
theorem Blank.add (h : Blank m) (T : Susp) (events : List Nat) : Blank (m.new T events) := by
  intro S hS hs
  simp only [Mem.Knows, Mem.new] at hS ⊢
  by_cases hc : S.cell = T.cell
  · rw [hc, Function.update_self, Function.update_self]
  · rw [Function.update_of_ne hc] at hS
    rw [Function.update_of_ne hc, Function.update_of_ne hc]
    exact h S hS hs

theorem Blank.move (h : Blank m) (hk : Known m (A ++ op :: B)) (hm : Move ws m op c m' new) : Blank m' := by
  have hop : op.WF m := hk.ops op (by simp)
  cases hm with
  | storeRes T i v last =>
    intro S hS hs
    change Function.update m.res T.cell ((m.res T.cell).set i v) S.cell = List.replicate (m.awaits S.cell).length .none
    by_cases hc : S.cell = T.cell
    · obtain rfl := Mem.Knows.unique (S := S) hS hop.1 hc
      rw [Function.update_self, h S hop.1 hs, hop.2.2, List.set_replicate_self]
    · rw [Function.update_of_ne hc]
      exact h S hS hs
  | fromCheckpoint w coro ctx p rest hr he hp => exact Blank.add (Blank.add (h.of_res rfl rfl rfl) _ _) _ _
  | underCheckpoint w coro ctx p rest c' hr he hp => exact Blank.add (h.of_res rfl rfl rfl) _ _
  | callChild parents coro ctx input new hnew => exact Blank.add (h.of_res rfl rfl rfl) _ _
  | suspend fl coro ctx checkpoint parents events timed T hT =>
    have hnext : Blank { m with nextCell := m.nextCell + 1 } := h.of_res rfl rfl rfl
    exact (hnext.add T events).of_res rfl rfl rfl
  | _ => exact h.of_res rfl rfl rfl

end

theorem blank_of_reach {ws : Nat → Waiter} {ok : Mem → List Op → Act Op Choice Call → Prop} {s : State Mem Op}
    (h : (machine ws).Reach ok initial s) : Blank s.mem := by
  refine h.invariant_with (I := fun m _ => Blank m) known_of_reach (fun _ h => (nomatch h)) ?_ ?_
  · exact fun m A op B c m' new hk ih _ he => ih.move hk (exec_move he)
  · intro m ops l m' new _ ih _ hc
    obtain ⟨hs, ts, n, rfl⟩ := (call_started hc).exists_eq
    exact ih.of_res rfl rfl rfl

/-! ## Where the program goes on -/

/-- What a program of generators does next: a generator is resumed, what it yielded is registered, or a result reaches the caller. -/
inductive Place where
  | resume (coro : Nat) (parents : List Frame) (input : Input)
  | yields (w coro : Nat) (parents : List Frame)
  | result (F : Susp) (input : Input)

/-- The suspensions of the callers. -/
def Place.stack : Place → List Frame
  | .resume _ parents _ | .yields _ _ parents => parents
  | .result F _ => F.toFrame :: F.parents

/-- A suspension that all its events have resumed. -/
def Susp.woken (S : Susp) (events : List Nat) : Place := .resume S.coro S.parents (.send (waitValue events))

def Handle.places : Handle → List Place
  | .gen parents coro _ input => [.resume coro parents input]
  | _ => []

def Op.places (awaits : Nat → List Nat) : Op → List Place
  | .run h | .addHandle h | .enter _ _ h => h.places
  | .registerPygen w coro _ parents => [.yields w coro parents]
  | .suspend _ coro _ _ parents events _ => [.resume coro parents (.send (waitValue events))]
  | .storeRes S _ _ true | .fetchRes S => [S.woken (awaits S.cell)]
  | .toHandle S input => [.resume S.coro S.parents input]
  | .resume S v _ => if S.waits then [] else [.result S (.send v)]
  | .error _ S e => if S.waits then [] else [.result S (.throw e)]
  | _ => []

def Susp.places (awaits : Nat → List Nat) (S : Susp) : List Place := if S.waits then [S.woken (awaits S.cell)] else []

/-- The places in the memory. -/
def Mem.places (m : Mem) : List Place := m.handles.flatMap Handle.places ++ m.live.flatMap (Susp.places m.awaits)

/-- Where the program goes on. -/
def places (m : Mem) (ops : List Op) : List Place := ops.flatMap (Op.places m.awaits) ++ m.places

/-- A result for the nearest parent. -/
def resultPlaces : List Frame → Input → List Place
  | p :: rest, input => [.result ⟨p, rest⟩ input]
  | [], _ => []

/-- The same has been resumed and called. -/
structure Mem.SameLog (m m' : Mem) : Prop where
  log : m'.log = m.log
  nextCoro : m'.nextCoro = m.nextCoro

/-- What a step does to the place where the program goes on. -/
inductive Shift (ws : Nat → Waiter) (m : Mem) (op : Op) (c : Choice) (m' : Mem) : List Place → List Place → Prop where
  | keep (hl : m.SameLog m') (hr : m'.registered = m.registered) (hlive : ∀ F ∈ m.live, F.waits = false → F ∈ m'.live) :
      Shift ws m op c m' [] []
  | deliver (F : Susp) (input : Input) (hl : m.SameLog m') (hr : m'.registered = m.registered)
      (hlive : m'.live = m.live.filter (·.cell ≠ F.cell)) :
      Shift ws m op c m' [.result F input] [.resume F.coro F.parents input]
  | lost (F : Susp) (input : Input) (hc : m.consumed F.cell = true) : Shift ws m op c m' [.result F input] []
  | again (parents : List Frame) (coro : Nat) (ctx : Option Nat) (input : Input) (hop : op = .run (.gen parents coro ctx input))
      (hc : c = .out .yieldNone) : Shift ws m op c m' [.resume coro parents input] [.resume coro parents input.again]
  | call (parents : List Frame) (coro : Nat) (ctx : Option Nat) (input : Input) (hop : op = .run (.gen parents coro ctx input))
      (hc : c = .out .yieldGen) (hlog : m'.log = m.log ++ [(coro, input)]) (hn : m'.nextCoro = m.nextCoro + 1)
      (hr : m'.registered = m.registered) (hlive : m'.live = m.live ++ [callSusp m coro ctx parents]) :
      Shift ws m op c m' [.resume coro parents input]
        [.resume m.nextCoro ((callSusp m coro ctx parents).toFrame :: parents) (.send .none)]
  | yields (parents : List Frame) (coro : Nat) (ctx : Option Nat) (input : Input) (w : Nat)
      (hop : op = .run (.gen parents coro ctx input)) (hc : c = .out (.yieldWaiter w)) (hlog : m'.log = m.log ++ [(coro, input)])
      (hn : m'.nextCoro = m.nextCoro) (hr : m'.registered = m.registered) (hlive : m'.live = m.live) :
      Shift ws m op c m' [.resume coro parents input] [.yields w coro parents]
  | ended (parents : List Frame) (coro : Nat) (ctx : Option Nat) (input : Input) (r : Result)
      (hop : op = .run (.gen parents coro ctx input)) (hc : c = .out r.out) (hlog : m'.log = m.log ++ [(coro, input)])
      (hn : m'.nextCoro = m.nextCoro) (hr : m'.registered = m.registered) (hlive : m'.live = m.live) :
      Shift ws m op c m' [.resume coro parents input] (resultPlaces parents r.input)
  | register (w coro : Nat) (parents parents' : List Frame) (hl : m.SameLog m')
      (hr : m'.registered = Function.update m.registered w true)
      (hp : parents' = parents ∧ (∀ F ∈ m.live, F ∈ m'.live) ∨
        ∃ p rest, parents = p :: rest ∧ parents' = checkpointFrame m p w :: rest ∧ ⟨checkpointFrame m p w, rest⟩ ∈ m'.live ∧
          ∀ F ∈ m.live, F.cell ≠ p.cell → F ∈ m'.live) :
      Shift ws m op c m' [.yields w coro parents] [.resume coro parents' (.send (waitValue (ws w).events))]

section

variable {ws : Nat → Waiter} {m m' : Mem} {A B new ops : List Op} {op : Op} {c : Choice} {S : Susp} {old fresh : List Place}

/-- What a step takes and puts. -/
def Shifts (m : Mem) (op : Op) (m' : Mem) (new : List Op) (old fresh : List Place) : Prop :=
  ∀ g : Place → Nat, total g (new.flatMap (Op.places m'.awaits)) + total g m'.places + total g old =
    total g (op.places m.awaits) + total g m.places + total g fresh

theorem Op.WF.places_eq (hk : Known m ops) (hx : m.Extends m') (hop : op.WF m) : op.places m'.awaits = op.places m.awaits := by
  cases op with
  | storeRes T i v last =>
    cases last with
    | true => simp only [Op.places, hx.awaits _ (hk.lt hop.1)]
    | false => rfl
  | fetchRes T => simp only [Op.places, hx.awaits _ (hk.lt hop.1)]
  | _ => rfl

theorem Known.flatMap_places_eq (hk : Known m ops) (hx : m.Extends m') (xs : List Op) (hxs : ∀ x ∈ xs, x ∈ ops) :
    xs.flatMap (Op.places m'.awaits) = xs.flatMap (Op.places m.awaits) := by
  rw [List.flatMap_def, List.flatMap_def, List.map_congr_left (fun x hx' => (hk.ops x (hxs x hx')).places_eq hk hx)]

theorem Known.live_places_eq (hk : Known m ops) (hx : m.Extends m') (xs : List Susp) (hxs : ∀ T ∈ xs, T ∈ m.live) :
    xs.flatMap (Susp.places m'.awaits) = xs.flatMap (Susp.places m.awaits) := by
  rw [List.flatMap_def, List.flatMap_def]
  refine congrArg List.flatten (List.map_congr_left (fun T hT => ?_))
  rw [Susp.places, hx.awaits _ (hk.lt (hk.live T (hxs T hT))), Susp.places]

/-- The places after a step, from what the step does with its own. -/
theorem Shifts.perm (h : Shifts m op m' new old fresh) (hk : Known m (A ++ op :: B)) (hx : m.Extends m') :
    (places m' (A ++ (new ++ B)) ++ old).Perm (places m (A ++ op :: B) ++ fresh) := by
  refine perm_of_total (fun g => ?_)
  have hg := h g
  have hA := hk.flatMap_places_eq hx A (fun x hx => by simp [hx])
  have hB := hk.flatMap_places_eq hx B (fun x hx => by simp [hx])
  simp only [places, List.flatMap_append, List.flatMap_cons, total_append, hA, hB]
  omega

/-- A step that moves the place along without touching the memory's. -/
theorem Shifts.move (hh : m'.handles = m.handles) (hl : m'.live = m.live) (ha : m'.awaits = m.awaits) (hold : op.places m.awaits = old)
    (hfresh : new.flatMap (Op.places m.awaits) = fresh) : Shifts m op m' new old fresh := by
  intro g
  have hm : m'.places = m.places := by rw [Mem.places, hh, hl, ha, Mem.places]
  rw [hm, ha, hold, hfresh]
  omega

/-- A step that leaves the place alone. -/
theorem Shifts.keep (hh : m'.handles = m.handles) (hl : m'.live = m.live) (ha : m'.awaits = m.awaits)
    (hnew : new.flatMap (Op.places m.awaits) = op.places m.awaits) : Shifts m op m' new [] [] := by
  intro g
  have hm : m'.places = m.places := by rw [Mem.places, hh, hl, ha, Mem.places]
  rw [hm, ha, hnew]

/-- The weight of the suspensions without one of them. -/
theorem total_places_filter (hk : Known m ops) (hr : Resolved m) (hS : m.Knows S) (hlive : S.waits = true → S ∈ m.live)
    (g : Place → Nat) :
    total g ((m.live.filter (·.cell ≠ S.cell)).flatMap (Susp.places m.awaits)) + total g (S.places m.awaits) =
      total g (m.live.flatMap (Susp.places m.awaits)) := by
  rw [total_flatMap, total_flatMap]
  by_cases hmem : S ∈ m.live
  · exact total_filter_ne (fun T : Susp => T.cell) (fun T => total g (T.places m.awaits)) hr.nodup hmem
  · have hw : S.waits = false := Bool.eq_false_iff.mpr (fun hw => hmem (hlive hw))
    rw [filter_cell_of_notMem hk hS hmem, Susp.places, hw]
    rfl

/-- Resolving a suspension. -/
theorem Shifts.fire (hk : Known m ops) (hr : Resolved m) (hS : m.Knows S) (hlive : S.waits = true → S ∈ m.live)
    (hh : m'.handles = m.handles) (hl : m'.live = m.live.filter (·.cell ≠ S.cell)) (ha : m'.awaits = m.awaits)
    (hold : op.places m.awaits = old) (hfresh : new.flatMap (Op.places m.awaits) = S.places m.awaits ++ fresh) :
    Shifts m op m' new old fresh := by
  intro g
  have hfilter := total_places_filter hk hr hS hlive g
  simp only [Mem.places, hh, hl, ha, hold, hfresh, total_append]
  omega

/-- Suspensions are made, in the place of others that no waiter made. -/
theorem Shifts.make (kept made : List Susp) (hk : Known m ops) (hx : m.Extends m') (hh : m'.handles = m.handles)
    (hl : m'.live = kept ++ made) (hkept : ∀ T ∈ kept, T ∈ m.live)
    (hsame : ∀ g, total g (kept.flatMap (Susp.places m.awaits)) = total g (m.live.flatMap (Susp.places m.awaits)))
    (hold : op.places m.awaits = old)
    (hfresh : ∀ g, total g (new.flatMap (Op.places m'.awaits)) + total g (made.flatMap (Susp.places m'.awaits)) = total g fresh) :
    Shifts m op m' new old fresh := by
  intro g
  have hlive := hk.live_places_eq hx kept hkept
  have hk := hsame g
  have hf := hfresh g
  simp only [Mem.places, hh, hl, List.flatMap_append, hlive, hold, total_append]
  omega

/-- A new suspension of a waiter is a place, and that of a call is none. -/
theorem Susp.places_new (m : Mem) (hw : S.waits = true) (events : List Nat) :
    S.places (m.new S events).awaits = [S.woken events] := by
  have ha : (m.new S events).awaits S.cell = events := Function.update_self _ _ _
  rw [Susp.places, hw, if_pos rfl, ha]

theorem Susp.places_of_call (hw : S.waits = false) (awaits : Nat → List Nat) : S.places awaits = [] := by
  rw [Susp.places, hw, if_neg Bool.false_ne_true]

theorem Wakes.of_plain {v : Val} {i : Nat} (hw : Wakes S v i op) (hp : op.plain = true) : op = .resume S v i := by
  rcases hw with rfl | ⟨rfl, -⟩
  · cases hp
  · rfl

/-- Without a sentinel there is at most one event, which gives `None`. -/
theorem waitValue_of_single (hk : Known m ops) (hS : m.Knows S) (hs : S.sentinel = false) : waitValue (m.awaits S.cell) = .none := by
  have hlen := (hk.made _ _ hS).2.sentinel
  rw [hs, eq_comm, decide_eq_false_iff_not] at hlen
  exact if_pos (by omega)

/-- With a sentinel there are several, which give a list of as many. -/
theorem waitValue_of_sentinel (hk : Known m ops) (hS : m.Knows S) (hs : S.sentinel = true) :
    waitValue (m.awaits S.cell) = .list (List.replicate (m.awaits S.cell).length .none) := by
  have hlen := (hk.made _ _ hS).2.sentinel
  rw [hs, eq_comm, decide_eq_true_eq] at hlen
  exact if_neg (by omega)

theorem flatMap_places_registration (awaits : Nat → List Nat) (S : Susp) (events : List Nat) (timed : Bool) (g : Place → Nat) :
    total g ((registration S events timed).flatMap (Op.places awaits)) = 0 := by
  rw [total_flatMap]
  exact total_registration (fun _ _ => rfl) rfl (fun _ => rfl)

/-- A step that leaves the place alone, or passes it on as it is. -/
theorem shift_keep (hl : m.SameLog m') (hr : m'.registered = m.registered) (hlive : ∀ F ∈ m.live, F.waits = false → F ∈ m'.live)
    (hs : Shifts m op m' new [] []) :
    ∃ old fresh, Shift ws m op c m' old fresh ∧ Shifts m op m' new old fresh ∧ ∀ d ∈ old, d ∈ op.places m.awaits :=
  ⟨[], [], .keep hl hr hlive, hs, List.forall_mem_nil _⟩

/-- Every step is one of these shifts. -/
theorem Move.shift (hm : Move ws m op c m' new) (hk : Known m (A ++ op :: B)) (hr : Resolved m) (hb : Blank m)
    (hp : Plain m (A ++ op :: B)) (hsound : Sound m op) :
    ∃ old fresh, Shift ws m op c m' old fresh ∧ Shifts m op m' new old fresh ∧ ∀ d ∈ old, d ∈ op.places m.awaits := by
  have hopin : op ∈ A ++ op :: B := by simp
  have hop : op.WF m := hk.ops op hopin
  have hplain := hp.ops op hopin
  have hx := hm.extends
  -- resolving the suspension of a waiter resolves no call
  have hkeep : ∀ T, m.Knows T → T.waits = true → ∀ F ∈ m.live, F.waits = false → F ∈ m.live.filter (·.cell ≠ T.cell) := by
    intro T hT hw F hF hwF
    refine List.mem_filter.mpr ⟨hF, decide_eq_true (fun heq => ?_)⟩
    rw [(hk.live F hF).unique hT heq, hw] at hwF
    cases hwF
  cases hm with
  | lock e hl hlock =>
    exact shift_keep ⟨rfl, rfl⟩ rfl (fun F hF _ => hF) (.keep rfl rfl rfl (by cases hlock <;> rfl))
  | notifyPop e x q hq =>
    have hx := (hk.watchers e x (by simp [hq])).2.1
    exact shift_keep ⟨rfl, rfl⟩ rfl (fun F hF _ => hF) (.keep rfl rfl rfl (by simp [Op.places, hx]))
  | wakeNow e x hf =>
    exact shift_keep ⟨rfl, rfl⟩ rfl (fun F hF _ => hF) (.keep rfl rfl rfl (by simp [Op.places, hop.2.1]))
  | resumeDrop T v i hfl ha | resumePass T v i hfl ha =>
    rw [hp.gen _ _ hop.1] at hfl
    cases hfl
  | decrementZero T v i hw hs h0 | decrement T v i hw hs h0 h1 =>
    obtain rfl := hw.of_plain hplain
    have hwt := waits_of_sentinel hk hop.1 hs
    exact shift_keep ⟨rfl, rfl⟩ rfl (fun F hF _ => hF) (.keep rfl rfl rfl (by simp [Op.places, hwt]))
  | decrementLast T v i hw hs h1 =>
    obtain rfl := hw.of_plain hplain
    have hwt := waits_of_sentinel hk hop.1 hs
    have hlive := hsound T hop.1 hs (Or.inl h1)
    refine shift_keep ⟨rfl, rfl⟩ rfl (hkeep T hop.1 hwt) ?_
    exact .fire hk hr hop.1 (fun _ => hlive) rfl rfl rfl (by simp [Op.places, hwt]) (by simp [Op.places, Susp.places, hwt])
  | consumeNoop T v i hw hs hc =>
    obtain rfl := hw.of_plain hplain
    cases hwt : T.waits with
    | true => exact shift_keep ⟨rfl, rfl⟩ rfl (fun F hF _ => hF) (.keep rfl rfl rfl (by simp [Op.places, hwt]))
    | false =>
      refine ⟨_, _, .lost T (.send v) hc, .move rfl rfl rfl (by simp [Op.places, hwt]) rfl, fun d hd => ?_⟩
      simpa [Op.places, hwt] using hd
  | consume T v i hw hs hc =>
    obtain rfl := hw.of_plain hplain
    have hfired : m.fired T.cell = 0 := by rw [hr.fired_eq _ T hop.1 hs, hc]; rfl
    cases hwt : T.waits with
    | true =>
      have hlive := hr.live _ T hop.1 (Or.inl hwt) hfired
      have hv : v = .none := by simpa [Op.plain, hwt] using hplain
      refine shift_keep ⟨rfl, rfl⟩ rfl (hkeep T hop.1 hwt) ?_
      refine .fire hk hr hop.1 (fun _ => hlive) rfl rfl rfl (by simp [Op.places, hwt]) ?_
      simp [Op.places, Susp.places, hwt, Susp.woken, waitValue_of_single hk hop.1 hs, hv]
    | false =>
      refine ⟨_, _, .deliver T (.send v) ⟨rfl, rfl⟩ rfl rfl, ?_, fun d hd => by simpa [Op.places, hwt] using hd⟩
      exact .fire hk hr hop.1 (fun h => by simp [hwt] at h) rfl rfl rfl (by simp [Op.places, hwt])
        (by simp [Op.places, Susp.places, hwt])
  | storeRes T i v last =>
    refine shift_keep ⟨rfl, rfl⟩ rfl (fun F hF _ => hF) (.keep rfl rfl rfl ?_)
    cases last <;> rfl
  | fetchRes T =>
    refine shift_keep ⟨rfl, rfl⟩ rfl (fun F hF _ => hF) (.keep rfl rfl rfl ?_)
    simp [Op.places, Susp.woken, waitValue_of_sentinel hk hop.1 hop.2, hb T hop.1 hop.2]
  | errorNoop b T e t ht h =>
    have hwt : T.waits = false := by simp [Op.plain] at hplain; exact hplain.2
    have hc : m.consumed T.cell = true := by
      rcases h with h | h
      · rw [hk.sentinel_of_call hop.1 hwt] at h
        cases h.1
      · exact h.2
    refine ⟨_, _, .lost T (.throw e) hc, .move rfl rfl rfl (by simp [Op.places, hwt]) rfl, fun d hd => ?_⟩
    simpa [Op.places, hwt] using hd
  | errorSentinel b T e t ht hs h0 =>
    have hwt : T.waits = false := by simp [Op.plain] at hplain; exact hplain.2
    rw [hk.sentinel_of_call hop.1 hwt] at hs
    cases hs
  | errorConsume b T e t ht hs hc =>
    have hwt : T.waits = false := by simp [Op.plain] at hplain; exact hplain.2
    refine ⟨_, _, .deliver T (.throw e) ⟨rfl, rfl⟩ rfl rfl, ?_, fun d hd => by simpa [Op.places, hwt] using hd⟩
    exact .fire hk hr hop.1 (fun h => by simp [hwt] at h) rfl rfl rfl (by simp [Op.places, hwt]) (by simp [Op.places, Susp.places, hwt])
  | toHandleClear T input w hw | toHandle T input hw =>
    refine shift_keep ⟨rfl, rfl⟩ rfl (fun F hF _ => hF) (.keep rfl rfl rfl ?_)
    simp [Op.places, Susp.handle_of_gen (hp.gen _ _ hop), Handle.places]
  | addHandle y =>
    refine shift_keep ⟨rfl, rfl⟩ rfl (fun F hF _ => hF) (fun g => ?_)
    simp only [Mem.places, Op.places, List.flatMap_append, List.flatMap_cons, List.flatMap_nil, List.append_nil, total_append, total_nil]
    omega
  | fromCheckpoint w coro ctx p rest hr' he hpc =>
    obtain ⟨hkp, hpw, -⟩ := hop p rest rfl
    refine ⟨_, _, .register w coro (p :: rest) (checkpointFrame m p w :: rest) ⟨rfl, rfl⟩ rfl
      (Or.inr ⟨p, rest, rfl, rfl, by simp [Mem.new], fun F hF hne => by simp [Mem.new, hF, hne]⟩), ?_, fun d hd => hd⟩
    rw [he]
    refine .make (m.live.filter (·.cell ≠ p.cell)) [⟨checkpointFrame m p w, rest⟩,
      checkpointSusp (m.nextCell + 1) coro ctx none (checkpointFrame m p w :: rest)] hk hx rfl (by simp [Mem.new])
      (fun T hT => (List.mem_filter.mp hT).1) (fun g => ?_) rfl (fun g => ?_)
    · have hfilter := total_places_filter hk hr hkp (fun h => absurd h (by simp [hpw])) g
      rw [Susp.places_of_call hpw] at hfilter
      exact hfilter
    · simp only [List.flatMap_cons, List.flatMap_nil, Susp.places_of_call (show (Susp.mk (checkpointFrame m p w) rest).waits = false from hpw),
        Susp.places_new _ (show (checkpointSusp (m.nextCell + 1) coro ctx none (checkpointFrame m p w :: rest)).waits = true from rfl)]
      exact Nat.zero_add _
  | underCheckpoint w coro ctx p rest c' hr' he hpc =>
    refine ⟨_, _, .register w coro (p :: rest) (p :: rest) ⟨rfl, rfl⟩ rfl (Or.inl ⟨rfl, fun F hF => ?_⟩), ?_, fun d hd => hd⟩
    · exact List.mem_append_left _ hF
    · rw [he]
      refine .make m.live [checkpointSusp m.nextCell coro ctx (some c') (p :: rest)] hk hx rfl rfl (fun T hT => hT)
        (fun g => rfl) rfl (fun g => ?_)
      simp only [List.flatMap_cons, List.flatMap_nil,
        Susp.places_new _ (show (checkpointSusp m.nextCell coro ctx (some c') (p :: rest)).waits = true from rfl)]
      exact Nat.zero_add _
  | register w coro ctx parents hr' he =>
    exact ⟨_, _, .register w coro parents parents ⟨rfl, rfl⟩ rfl (Or.inl ⟨rfl, fun F hF => hF⟩), .move rfl rfl rfl rfl rfl,
      fun d hd => hd⟩
  | registerAsync => cases hplain
  | suspend fl coro ctx checkpoint parents events timed T hT =>
    have hTw : T.waits = true := by rw [hT]; rfl
    have hplace : T.woken events = .resume coro parents (.send (waitValue events)) := by rw [hT]; rfl
    have hshift : Shifts m (.suspend fl coro ctx checkpoint parents events timed) (m.suspend T events) (registration T events timed)
        [.resume coro parents (.send (waitValue events))] [T.woken events] := by
      refine .make m.live [T] hk hx rfl rfl (fun S hS => hS) (fun g => rfl) rfl (fun g => ?_)
      have hT' : T.places (m.suspend T events).awaits = [T.woken events] := Susp.places_new _ hTw events
      rw [flatMap_places_registration, List.flatMap_cons, List.flatMap_nil, hT']
      exact Nat.zero_add _
    rw [hplace] at hshift
    refine shift_keep ⟨rfl, rfl⟩ rfl (fun F hF _ => ?_) (fun g => Nat.add_right_cancel (hshift g))
    exact List.mem_append_left _ hF
  | checkAborted w T =>
    refine shift_keep ⟨rfl, rfl⟩ rfl (fun F hF _ => hF) (.keep rfl rfl rfl ?_)
    rw [hp.aborted w]
    simp [Op.places, hop.1.2.2]
  | abortLoad fl w => cases hplain
  | abort fl w ha => cases hplain
  | abortNoop fl w ha => cases hplain
  | again parents coro ctx input =>
    exact ⟨_, _, .again parents coro ctx input rfl rfl, .move rfl rfl rfl rfl rfl, fun d hd => hd⟩
  | callChild parents coro ctx input new hnew =>
    refine ⟨_, _, .call parents coro ctx input rfl rfl rfl rfl rfl rfl, ?_, fun d hd => hd⟩
    refine .make m.live [callSusp m coro ctx parents] hk hx rfl rfl (fun T hT => hT) (fun g => rfl) rfl (fun g => ?_)
    rw [List.flatMap_cons (f := Susp.places _), List.flatMap_nil, Susp.places_of_call (S := callSusp m coro ctx parents) rfl]
    rcases hnew with rfl | ⟨_, _, _, -, -, -, rfl⟩ <;> rfl
  | yieldWaiter parents coro ctx input w =>
    exact ⟨_, _, .yields parents coro ctx input w rfl rfl rfl rfl rfl rfl, .move rfl rfl rfl rfl rfl, fun d hd => hd⟩
  | ret parents coro ctx input v =>
    refine ⟨_, _, .ended parents coro ctx input (.ret v) rfl rfl rfl rfl rfl rfl, .move rfl rfl rfl rfl ?_, fun d hd => hd⟩
    cases parents with
    | nil => rfl
    | cons p rest => simp [Op.places, (hop p rest rfl).2.1, resultPlaces, Result.input]
  | raise parents coro ctx input e =>
    refine ⟨_, _, .ended parents coro ctx input (.raise e) rfl rfl rfl rfl rfl rfl, .move rfl rfl rfl rfl ?_, fun d hd => hd⟩
    cases parents with
    | nil => rfl
    | cons p rest => simp [Op.places, (hop p rest rfl).2.1, resultPlaces, Result.input]
  | asyncAgain | asyncWaiter | asyncOver | throwOver | throwDrop | clearPtr => cases hplain
  | timer T =>
    exact shift_keep ⟨rfl, rfl⟩ rfl (fun F hF _ => hF) (.keep rfl rfl rfl (by simp [Op.places, Handle.places, hop.2.2]))
  | enter w P y => exact shift_keep ⟨rfl, rfl⟩ rfl (fun F hF _ => hF) (.keep rfl rfl rfl (by simp [Op.places]))
  | _ => exact shift_keep ⟨rfl, rfl⟩ rfl (fun F hF _ => hF) (.keep rfl rfl rfl rfl)

end

end Tonio.Runtime
