import Tonio.Lemmas.Continuity

/-!
# Behind a checkpoint

An abort finds the suspension it throws into through the pointer of the checkpoint. Behind a checkpoint there is one token, as long as
no abort has loaded the pointer (`Behind`): so the pointer is exchanged and cleared only by what goes on behind the checkpoint, and it is
at the suspension that is parked there (`Pointed`).
-/

namespace Tonio.Runtime

open Interleaving

/-! ## The tokens behind a checkpoint -/

/-- The checkpoint that the nearest parent is behind, or is. -/
def headCheckpoint (parents : List Frame) : Option Nat := parents.head?.bind (·.checkpoint)

/-- The checkpoint a suspended coroutine is behind. -/
def Susp.behind (S : Susp) : Option (Flavour × Nat) :=
  match S.flavour with
  | .gen => (headCheckpoint S.parents).map (fun w => (.gen, w))
  | .async => S.checkpoint.map (fun w => (.async, w))

/-- The checkpoint a resolved suspension is behind: the frame that is the checkpoint is still about to clear the pointer. -/
def Susp.after (S : Susp) : Option (Flavour × Nat) := if S.isCheckpoint then S.checkpoint.map (fun w => (.gen, w)) else S.behind

/-- The checkpoint a token is behind. -/
def Tok.checkpoint : Tok → Option (Flavour × Nat)
  | .gen _ parents => (headCheckpoint parents).map (fun w => (.gen, w))
  | .async _ checkpoint => checkpoint.map (fun w => (.async, w))
  | .parked S => S.behind
  | .called _ => none
  | .resolved S => S.after
  | .result F => F.checkpoint.map (fun w => (.gen, w))
  | .closing w => some (.async, w)

/-- The tokens behind a checkpoint. -/
def behind (m : Mem) (ops : List Op) (fl : Flavour) (w : Nat) : Nat := weigh (fun t => isAt t.checkpoint (fl, w)) m ops

section

variable {ws : Nat → Waiter} {m m' : Mem} {A B new ops ops' : List Op} {op : Op} {c : Choice} {S : Susp} {old fresh : List Tok}

theorem isAt_pair_of_ne {checkpoint : Option Nat} {fl fl' : Flavour} {w : Nat} (h : checkpoint ≠ some w) :
    isAt (checkpoint.map (fun w => (fl', w))) (fl, w) = 0 := by
  refine isAt_of_ne (fun heq => h ?_)
  obtain ⟨w', hw', hp⟩ := Option.map_eq_some_iff.mp heq
  rw [hw', (Prod.mk.inj hp).2]

theorem Mem.Checks.ne {checkpoint : Option Nat} {w : Nat} (h : m.Checks checkpoint) (hr : m.registered w = false) :
    checkpoint ≠ some w := by
  intro heq
  rw [h w heq] at hr
  cases hr

/-- A suspension that called a child, or waits for events, and the next one up are behind the same checkpoint. -/
theorem Known.headCheckpoint_eq (hk : Known m ops) (hS : m.Knows S) (hfl : S.flavour = .gen) (hc : S.isCheckpoint = false)
    (h : S.waits = false ∨ m.awaits S.cell ≠ []) : headCheckpoint S.parents = S.checkpoint :=
  ((hk.made _ _ hS).2.inherits hfl hc h).symm

/-- A suspension that waits for events goes on behind its checkpoint. -/
theorem Known.behind_eq (hk : Known m ops) (hS : m.Knows S) (hc : S.isCheckpoint = false) (h : S.waits = false ∨ m.awaits S.cell ≠ []) :
    S.behind = S.checkpoint.map (fun w => (S.flavour, w)) := by
  unfold Susp.behind
  cases hfl : S.flavour with
  | gen => rw [← hk.headCheckpoint_eq hS hfl hc h]
  | async => rfl

theorem Known.isCheckpoint_of_waits (hk : Known m ops) (hS : m.Knows S) (hw : S.waits = true) : S.isCheckpoint = false := by
  by_contra hc
  rw [((hk.made _ _ hS).2.checkpointFrame (by simpa using hc)).1] at hw
  cases hw

/-- A waiter, once it is resolved, goes on behind what it was behind. -/
theorem Known.after_of_waits (hk : Known m ops) (hS : m.Knows S) (hw : S.waits = true) : S.after = S.behind := by
  rw [Susp.after, hk.isCheckpoint_of_waits hS hw]
  rfl

/-- A call, once it is resolved, goes on behind its checkpoint. -/
theorem Known.after_of_call (hk : Known m ops) (hS : m.Knows S) (hw : S.waits = false) :
    S.after = S.checkpoint.map (fun w => (.gen, w)) := by
  have hfl := ((hk.made _ _ hS).2.call hw).2
  unfold Susp.after
  cases hc : S.isCheckpoint with
  | true => rfl
  | false =>
    rw [if_neg (by simp), hk.behind_eq hS hc (Or.inl hw), hfl]

/-- Nothing is behind a checkpoint that has not been registered. -/
theorem Known.behind_fresh (hk : Known m ops) {fl : Flavour} {w : Nat} (hr : m.registered w = false) : behind m ops fl w = 0 := by
  have hcalls : ∀ parents, m.Calls parents → headCheckpoint parents ≠ some w := fun parents hp => (hk.checks_head hp).ne hr
  have hchecks : ∀ S, m.Knows S → S.checkpoint ≠ some w := fun S hS => (hk.made _ _ hS).2.checks.ne hr
  have hbehind : ∀ S, m.Knows S → isAt S.behind (fl, w) = 0 := by
    intro S hS
    unfold Susp.behind
    cases S.flavour with
    | gen => exact isAt_pair_of_ne (hcalls _ (hk.made _ _ hS).2.parents)
    | async => exact isAt_pair_of_ne (hchecks S hS)
  refine hk.weigh_eq_zero (fun t ht => ?_)
  cases t with
  | gen coro parents => exact isAt_pair_of_ne (hcalls _ ht)
  | async coro checkpoint => exact isAt_pair_of_ne (Mem.Checks.ne ht hr)
  | parked S => exact hbehind S ht
  | called S => rfl
  | resolved S =>
    change isAt S.after (fl, w) = 0
    unfold Susp.after
    split
    · exact isAt_pair_of_ne (hchecks S ht)
    · exact hbehind S ht
  | result F => exact isAt_pair_of_ne (hchecks F ht.1)
  | closing w' =>
    refine isAt_some_of_ne (fun heq => ?_)
    rw [← (Prod.mk.inj heq).2] at hr
    exact Bool.false_ne_true (hr.symm.trans ht)

/-- A handle is behind no other checkpoint than its suspension. -/
theorem total_behind_handle (hk : Known m ops) (hS : m.Knows S) (input : Input) (q : Flavour × Nat) :
    total (fun t => isAt t.checkpoint q) (S.handle input).toks ≤ isAt S.after q := by
  have hframe := (hk.made _ _ hS).2.checkpointFrame
  have hcall := (hk.made _ _ hS).2.call
  unfold Susp.after
  cases hc : S.isCheckpoint with
  | true =>
    obtain ⟨hw, -, htop⟩ := hframe hc
    have hfl := (hcall hw).2
    have htop : headCheckpoint S.parents = none := htop
    cases input <;> simp [Susp.handle, hfl, Handle.toks, Tok.checkpoint, htop]
  | false =>
    cases input <;> cases hfl : S.flavour <;> simp [Susp.handle, hfl, Handle.toks, Tok.checkpoint, Susp.behind]

/-- How a step puts a token behind a checkpoint: it registers the checkpoint, an abort throws into a suspension of it, or a sentinel
resolves one of its suspensions a second time. -/
inductive Joins (m : Mem) (op : Op) (fl : Flavour) (w : Nat) : Prop where
  | register (h : m.registered w = false)
  | throw (S : Susp) (e : Exc) (hop : op = .error true S e) (hfl : S.flavour = fl) (h : S.checkpoint = some w)
  | misfire (S : Susp) (hS : m.Knows S) (hl : S ∉ m.live) (hs : S.sentinel = true) (hc : m.counter S.cell ≠ 0)
      (hfl : S.flavour = fl) (h : S.checkpoint = some w)

/-- Every other step leaves no more tokens behind a checkpoint than there were. -/
theorem Turn.behind_le (ht : Turn m op c m' old fresh) (hk : Known m ops) (fl : Flavour) (w : Nat)
    (hg : ∀ g, weigh g m' ops' + total g old = weigh g m ops + total g fresh) :
    behind m' ops' fl w ≤ behind m ops fl w ∨ (behind m' ops' fl w ≤ behind m ops fl w + 1 ∧ Joins m op fl w) := by
  have hT := hg (fun t => isAt t.checkpoint (fl, w))
  -- a turn that takes as much as it puts
  have keep : total (fun t => isAt t.checkpoint (fl, w)) fresh ≤ total (fun t => isAt t.checkpoint (fl, w)) old →
      behind m' ops' fl w ≤ behind m ops fl w := by
    intro h
    unfold behind
    omega
  -- a turn that puts one token behind one checkpoint
  have join : ∀ checkpoint fl', (∀ w', checkpoint = some w' → Joins m op fl' w') →
      total (fun t => isAt t.checkpoint (fl, w)) fresh ≤ total (fun t => isAt t.checkpoint (fl, w)) old +
        isAt (checkpoint.map (fun w => (fl', w))) (fl, w) →
      behind m' ops' fl w ≤ behind m ops fl w ∨ (behind m' ops' fl w ≤ behind m ops fl w + 1 ∧ Joins m op fl w) := by
    intro checkpoint fl' hjoin h
    by_cases hw : fl' = fl ∧ checkpoint = some w
    · have := isAt_le (checkpoint.map (fun w => (fl', w))) (fl, w)
      obtain ⟨rfl, hw⟩ := hw
      refine Or.inr ⟨?_, hjoin w hw⟩
      unfold behind
      omega
    · refine Or.inl (keep ?_)
      rwa [isAt_of_ne (fun heq => hw ?_), Nat.add_zero] at h
      obtain ⟨w', hw', hp⟩ := Option.map_eq_some_iff.mp heq
      obtain ⟨h1, h2⟩ := Prod.mk.inj hp
      exact ⟨h1, by rw [hw', h2]⟩
  cases ht with
  | keep _ _ => exact Or.inl (keep (Nat.le_refl _))
  | call coro ctx parents F hF _ _ _ =>
    have hck : headCheckpoint (F.toFrame :: parents) = headCheckpoint parents := by rw [hF]; rfl
    exact Or.inl (keep (by simp [Tok.checkpoint, hck]))
  | ended coro parents _ _ _ =>
    refine Or.inl (keep ?_)
    cases parents with
    | nil => simp [resultToks]
    | cons p rest => simp [resultToks, Tok.checkpoint, headCheckpoint]
  | asyncOver coro checkpoint _ _ _ =>
    refine Or.inl (keep ?_)
    cases checkpoint <;> simp [Tok.checkpoint]
  | drop coro ctx e o _ _ _ _ _ => exact Or.inl (keep (by simp))
  | fire S hS hw _ _ =>
    have hkS := hk.live S hS
    cases hwS : S.waits with
    | true => exact Or.inl (keep (by simp [Susp.tok, hwS, Tok.checkpoint, hk.after_of_waits hkS hwS]))
    | false =>
      obtain ⟨-, e, hop⟩ := hw.resolve_left (by simp [hwS])
      refine join S.checkpoint .gen (fun w' hw' => .throw S e hop ((hk.made _ _ hkS).2.call hwS).2 hw') ?_
      simp [Susp.tok, hwS, Tok.checkpoint, hk.after_of_call hkS hwS]
  | misfire S hS hlive hs hc _ _ =>
    have hw := waits_of_sentinel hk hS hs
    have hne : m.awaits S.cell ≠ [] := by
      intro hnil
      have := (hk.made _ _ hS).2.sentinel
      rw [hnil, hs] at this
      cases this
    refine join S.checkpoint S.flavour (fun w' hw' => .misfire S hS hlive hs ?_ rfl hw') ?_
    · rcases hc with hc | hc
      · omega
      · exact hc.1
    · simp [Tok.checkpoint, hk.after_of_waits hS hw, hk.behind_eq hS (hk.isCheckpoint_of_waits hS hw) (Or.inr hne)]
  | deliver F hF hw _ _ => exact Or.inl (keep (by simp [Tok.checkpoint, hk.after_of_call (hk.live F hF) hw]))
  | misdeliver F hF _ hw _ _ _ => exact Or.inl (keep (by simp [Tok.checkpoint, hk.after_of_call hF hw]))
  | ignore F _ _ _ _ _ => exact Or.inl (keep (by simp))
  | copy w' coro ctx p rest P S hp hw hpc hr hP hS _ _ =>
    have hbehind : S.behind = some (.gen, w') := by rw [hS, hP]; rfl
    refine join (some w') .gen (fun w'' hw'' => ?_) ?_
    · obtain rfl := Option.some.inj hw''
      exact .register hr
    · simp [Tok.checkpoint, hbehind]
  | park coro parents S _ hfl _ _ => exact Or.inl (keep (by simp [Tok.checkpoint, Susp.behind, hfl.1, hfl.2.2]))
  | parkAsync coro checkpoint S _ hfl _ _ => exact Or.inl (keep (by simp [Tok.checkpoint, Susp.behind, hfl.1, hfl.2.2.2]))
  | schedule S input hS _ _ => exact Or.inl (keep (by simpa [Tok.checkpoint] using total_behind_handle hk hS input (fl, w)))
  | replace w' coro checkpoint hr _ _ =>
    refine join (some w') .async (fun w'' hw'' => ?_) (by simp [Tok.checkpoint])
    obtain rfl := Option.some.inj hw''
    exact .register hr
  | close w' _ _ => exact Or.inl (keep (by simp))

end

/-! ## What an abort aims at -/

/-- The loads of the pointer of a checkpoint that an operation stands for. -/
def Op.loads (w : Nat) : Op → Nat
  | .abortLoad _ w' => isAt (some w') w
  | _ => 0

/-- Whether an operation is about to put the pointer of another checkpoint into this one. -/
def Op.adopts (w : Nat) : Op → Nat
  | .adoptLoad w' _ _ | .adoptSwap w' _ _ => isAt (some w') w
  | _ => 0

/-- No abort of the checkpoint has loaded the pointer yet. -/
def Early (m : Mem) (ops : List Op) (w : Nat) : Prop := m.aborted w = false ∨ 0 < total (Op.loads w) ops

/-- The abort of a checkpoint loads the pointer once, and what it throws into, of the given flavour, is behind this checkpoint. -/
structure Aimed (fl : Flavour) (m : Mem) (ops : List Op) : Prop where
  loads : ∀ w, total (Op.loads w) ops ≤ (m.aborted w).toNat
  adopts : ∀ w, 0 < total (Op.adopts w) ops → m.detached w = true
  owner : ∀ fl w S, m.ptr fl w = some S → (fl = .gen → m.detached w = false) → S.checkpoint = some w
  error : ∀ S e, .error true S e ∈ ops → S.flavour = fl → ∀ w, S.checkpoint = some w → ¬Early m ops w
  thrown : ∀ S, m.Knows S → S.flavour = fl → m.thrown S.cell = true → ∀ w, S.checkpoint = some w → ¬Early m ops w

/-- An abort loads a pointer that was adopted. -/
def LoadsAdopted (m : Mem) : Act Op Choice Call → Prop
  | .exec (.abortLoad .gen w) _ => m.detached w = true
  | _ => False

section

variable {ws : Nat → Waiter} {m m' : Mem} {A B new ops : List Op} {op : Op} {c : Choice} {S : Susp}

/-- An abort that flips the flag, and nothing else, is about to load the pointer. -/
theorem Move.loads (hm : Move ws m op c m' new) (w : Nat) : total (Op.loads w) new + (m.aborted w).toNat = (m'.aborted w).toNat := by
  cases hm with
  | abort fl w' ha =>
    by_cases hw : w' = w
    · subst hw
      simp [Op.loads, ha]
    · simp [Op.loads, isAt_some_of_ne hw, Function.update_of_ne (Ne.symm hw)]
  | lock e hl hlock => cases hlock <;> simp [Op.loads]
  | storeRes T i v last => cases last <;> simp [Op.loads]
  | suspend fl coro ctx checkpoint parents events timed T hT =>
    rw [total_registration (fun _ _ => rfl) rfl (fun _ => rfl), Nat.zero_add]
    rfl
  | checkAborted w' T => split <;> simp [Op.loads]
  | abortLoad fl w' => cases m.ptr fl w' <;> simp [Op.loads]
  | callChild parents coro ctx input new hnew =>
    rcases hnew with rfl | ⟨_, _, _, -, -, -, rfl⟩ <;> simp [Op.loads, Mem.new, Mem.resumed]
  | ret parents coro ctx input v | raise parents coro ctx input e => cases parents <;> simp [Op.loads, Mem.resumed, Mem.finish]
  | asyncOver checkpoint coro ctx v o ho => cases checkpoint <;> simp [Op.loads, Mem.resumed, Mem.finish]
  | _ =>
    simp [Op.loads, Mem.setWatchers, Mem.setDirty, Mem.fire, Mem.setPtr, Mem.new, Mem.register, Mem.detach, Mem.resumed, Mem.finish,
      Mem.hold]

/-- What is early after a step was early before it. -/
theorem Early.of_move {w : Nat} (hm : Move ws m op c m' new) (h : Early m' (A ++ (new ++ B)) w) : Early m (A ++ op :: B) w := by
  have hl := hm.loads w
  have hs := total_step (Op.loads w) A B new op
  cases ha : m.aborted w with
  | false => exact Or.inl ha
  | true =>
    rw [ha, Bool.toNat_true] at hl
    have := Bool.toNat_le (m'.aborted w)
    rcases h with h | h
    · rw [h] at hl
      simp at hl
    · exact Or.inr (by omega)

/-- A checkpoint stays detached. -/
theorem Move.detached_mono (hm : Move ws m op c m' new) {w : Nat} (h : m.detached w = true) : m'.detached w = true := by
  cases hm with
  | underCheckpoint w' coro ctx p rest c' hr he hp => simp [Mem.new, Mem.detach, Mem.register, h]
  | registerAsync w' coro ctx checkpoint checkpoint' left timed hr he => simp [Mem.detach, Mem.register, h]
  | _ => exact h

/-- Where the pointer of a checkpoint comes from. -/
theorem Move.ptr_eq (hm : Move ws m op c m' new) (fl : Flavour) (w : Nat) :
    m'.ptr fl w = m.ptr fl w ∨
    (∃ coro ctx parents events timed S, op = .suspend fl coro ctx (some w) parents events timed ∧ m'.ptr fl w = some S ∧
      S = m.suspension fl coro ctx (some w) parents events) ∨
    (∃ P y, fl = .gen ∧ op = .enter w P y ∧ m'.ptr fl w = some P) ∨
    (∃ S input, op = .toHandle S input ∧ S.flavour = fl ∧ S.clears input = some w ∧ m'.ptr fl w = none) ∨
    (fl = .async ∧ op = .clearPtr w ∧ m'.ptr fl w = none) ∨
    (∃ p S, fl = .gen ∧ op = .adoptSwap w p S ∧ m'.ptr fl w = p) := by
  have key : ∀ (m₁ : Mem) (fl' : Flavour) (w' : Nat) (p : Option Susp),
      (fl' = fl ∧ w' = w) ∨ (m₁.setPtr fl' w' p).ptr fl w = m₁.ptr fl w := by
    intro m₁ fl' w' p
    by_cases hfl : fl = fl'
    · by_cases hw : w = w'
      · exact Or.inl ⟨hfl.symm, hw.symm⟩
      · exact Or.inr (by simp [Mem.setPtr, hfl, Function.update_of_ne hw])
    · exact Or.inr (by simp [Mem.setPtr, Function.update_of_ne hfl])
  cases hm with
  | suspend fl' coro ctx checkpoint parents events timed S hS =>
    have hck : S.checkpoint = checkpoint := by rw [hS]; rfl
    have hfl : S.flavour = fl' := by rw [hS]; rfl
    cases checkpoint with
    | none => exact Or.inl (by simp [Mem.suspend, hck])
    | some w' =>
      rcases key m fl' w' (some S) with ⟨rfl, rfl⟩ | h
      · refine Or.inr (Or.inl ⟨coro, ctx, parents, events, timed, S, rfl, ?_, hS⟩)
        simp [Mem.suspend, hck, hfl, Mem.setPtr]
      · exact Or.inl (by simpa [Mem.suspend, hck, hfl] using h)
  | toHandleClear S input w' hw =>
    rcases key m S.flavour w' none with ⟨hfl, rfl⟩ | h
    · exact Or.inr (Or.inr (Or.inr (Or.inl ⟨S, input, rfl, hfl, hw, by simp [Mem.setPtr, hfl]⟩)))
    · exact Or.inl h
  | enter w' P y =>
    rcases key m .gen w' (some P) with ⟨rfl, rfl⟩ | h
    · exact Or.inr (Or.inr (Or.inl ⟨P, y, rfl, rfl, by simp [Mem.setPtr]⟩))
    · exact Or.inl h
  | clearPtr w' =>
    rcases key m .async w' none with ⟨rfl, rfl⟩ | h
    · exact Or.inr (Or.inr (Or.inr (Or.inr (Or.inl ⟨rfl, rfl, by simp [Mem.setPtr]⟩))))
    · exact Or.inl h
  | adoptSwap w' p S =>
    rcases key m .gen w' p with ⟨rfl, rfl⟩ | h
    · exact Or.inr (Or.inr (Or.inr (Or.inr (Or.inr ⟨p, S, rfl, rfl, by simp [Mem.setPtr]⟩))))
    · exact Or.inl h
  | _ => exact Or.inl rfl

/-- An abort throws into what the pointer of the checkpoint is at. -/
theorem error_mem_of_move (hm : Move ws m op c m' new) {e : Exc} (h : .error true S e ∈ new) :
    ∃ fl w, op = .abortLoad fl w ∧ m.ptr fl w = some S := by
  cases hm with
  | abortLoad fl w =>
    obtain ⟨T, hT, heq⟩ := Option.map_eq_some_iff.mp (Option.mem_toList.mp h)
    simp only [Op.error.injEq, true_and] at heq
    exact ⟨fl, w, rfl, heq.1 ▸ hT⟩
  | lock e hl hlock => cases hlock <;> simp at h
  | storeRes T i v last => cases last <;> simp at h
  | suspend fl coro ctx checkpoint parents events timed T hT =>
    unfold registration at h
    split at h
    · simp at h
    · cases timed <;> simp [wakers] at h
  | checkAborted w' T => split at h <;> simp at h
  | callChild parents coro ctx input new hnew => rcases hnew with rfl | ⟨_, _, _, -, -, -, rfl⟩ <;> simp at h
  | ret parents coro ctx input v | raise parents coro ctx input e => cases parents <;> simp at h
  | asyncOver checkpoint coro ctx v o ho => cases checkpoint <;> simp at h
  | _ => simp at h

/-- A step that records an abort of a suspension. -/
theorem Move.thrown_eq (hm : Move ws m op c m' new) (k : Nat) :
    m'.thrown k = m.thrown k ∨ ∃ S e, op = .error true S e ∧ S.cell = k := by
  have key : ∀ (b : Bool) (T : Susp) (e : Exc) (t : Nat → Bool), t = (if b then Function.update m.thrown T.cell true else m.thrown) →
      op = .error b T e → t k = m.thrown k ∨ ∃ S e, op = .error true S e ∧ S.cell = k := by
    intro b T e t ht hop
    subst ht
    cases b with
    | false => exact Or.inl rfl
    | true =>
      by_cases hc : T.cell = k
      · exact Or.inr ⟨T, e, hop, hc⟩
      · exact Or.inl (by simp [Function.update_of_ne (Ne.symm hc)])
  cases hm with
  | errorNoop b T e t ht h => exact key b T e t ht rfl
  | errorSentinel b T e t ht hs h0 => exact key b T e t ht rfl
  | errorConsume b T e t ht hs hc => exact key b T e t ht rfl
  | _ => exact Or.inl rfl

/-- A pointer is adopted for a checkpoint that is detached. -/
theorem Move.adopts (hm : Move ws m op c m' new) (w : Nat) : total (Op.adopts w) new ≤ op.adopts w ∨ m'.detached w = true := by
  cases hm with
  | underCheckpoint w' coro ctx p rest c' hr he hp =>
    by_cases hw : w' = w
    · exact Or.inr (by simp [Mem.new, Mem.detach, hw])
    · exact Or.inl (by simp [Op.adopts, isAt_some_of_ne hw])
  | lock e hl hlock => exact Or.inl (by cases hlock <;> simp [Op.adopts])
  | storeRes T i v last => exact Or.inl (by cases last <;> simp [Op.adopts])
  | suspend fl coro ctx checkpoint parents events timed T hT =>
    rw [total_registration (fun _ _ => rfl) rfl (fun _ => rfl)]
    exact Or.inl (Nat.zero_le _)
  | checkAborted w' T => exact Or.inl (by split <;> simp [Op.adopts])
  | abortLoad fl w' => exact Or.inl (by cases m.ptr fl w' <;> simp [Op.adopts])
  | callChild parents coro ctx input new hnew =>
    exact Or.inl (by rcases hnew with rfl | ⟨_, _, _, -, -, -, rfl⟩ <;> simp [Op.adopts])
  | ret parents coro ctx input v | raise parents coro ctx input e => exact Or.inl (by cases parents <;> simp [Op.adopts])
  | asyncOver checkpoint coro ctx v o ho => exact Or.inl (by cases checkpoint <;> simp [Op.adopts])
  | _ => exact Or.inl (by simp [Op.adopts])

theorem Aimed.move {fl : Flavour} (h : Aimed fl m (A ++ op :: B)) (hk : Known m (A ++ op :: B)) (hm : Move ws m op c m' new)
    (hload : fl = .gen → ¬LoadsAdopted m (.exec op c)) : Aimed fl m' (A ++ (new ++ B)) := by
  have hop : op.WF m := hk.ops op (by simp)
  have hdet : ∀ w, m'.detached w = false → m.detached w = false := by
    intro w hw
    by_contra hd
    rw [hm.detached_mono (by simpa using hd)] at hw
    cases hw
  refine ⟨fun w => ?_, fun w hw => ?_, fun fl w S hS hd => ?_, fun S e he hfl w hw => ?_, fun S hS hfl ht w hw => ?_⟩
  · have h1 := h.loads w
    have h2 := hm.loads w
    have h3 := total_step (Op.loads w) A B new op
    omega
  · rcases hm.adopts w with h1 | h1
    · have h2 := total_step (Op.adopts w) A B new op
      exact hm.detached_mono (h.adopts w (by omega))
    · exact h1
  · rcases hm.ptr_eq fl w with heq | ⟨coro, ctx, parents, events, timed, T, -, heq, hT⟩ | ⟨P, y, -, rfl, heq⟩ |
      ⟨T, input, -, -, -, heq⟩ | ⟨-, -, heq⟩ | ⟨p, T, hfl, rfl, heq⟩ <;> rw [heq] at hS
    · exact h.owner fl w S hS (fun hfl => hdet w (hd hfl))
    · obtain rfl := Option.some.inj hS
      rw [hT]
      rfl
    · obtain rfl := Option.some.inj hS
      exact hop.2.2.2.2.1
    · cases hS
    · cases hS
    · have hin : Op.adoptSwap w p T ∈ A ++ .adoptSwap w p T :: B := by simp
      have hadopt : 0 < total (Op.adopts w) (A ++ .adoptSwap w p T :: B) :=
        Nat.lt_of_lt_of_le (by simp [Op.adopts]) (le_total_of_mem hin)
      exact absurd (h.adopts w hadopt) (by simp [hdet w (hd hfl)])
  · intro hearly
    rcases Machine.mem_cases op he with he | he
    · obtain ⟨fl', w', rfl, hptr⟩ := error_mem_of_move hm he
      obtain rfl : fl = fl' := hfl.symm.trans (hk.ptr fl' w' S hptr).2.2
      have hown : S.checkpoint = some w' := by
        refine h.owner fl w' S hptr (fun hgen => ?_)
        have hload := hload hgen
        subst hgen
        exact Bool.eq_false_iff.mpr hload
      obtain rfl := Option.some.inj (hw.symm.trans hown)
      -- the one load of this pointer has just been done
      have h1 := h.loads w
      have h2 := hm.loads w
      have h3 := total_step (Op.loads w) A B new (.abortLoad fl w)
      have h4 : Op.loads w (.abortLoad fl w) = 1 := isAt_self w
      have h5 := Bool.toNat_le (m'.aborted w)
      have h6 : 1 ≤ total (Op.loads w) (A ++ .abortLoad fl w :: B) := h4 ▸ le_total_of_mem (by simp)
      rcases hearly with ha | ha
      · rw [ha] at h2
        simp only [Bool.toNat_false] at h2
        omega
      · omega
    · exact h.error S e he hfl w hw (hearly.of_move hm)
  · intro hearly
    rcases hm.extends.old hS with hold | hfresh
    · rcases hm.thrown_eq S.cell with heq | ⟨T, e, rfl, hT⟩
      · rw [heq] at ht
        exact h.thrown S hold hfl ht w hw (hearly.of_move hm)
      · obtain rfl := hop.1.unique hold hT
        exact h.error T e (by simp) hfl w hw (hearly.of_move hm)
    · rw [hm.thrown_fresh hk hfresh] at ht
      cases ht

end

theorem aimed_of_reach {ws : Nat → Waiter} {ok : Mem → List Op → Act Op Choice Call → Prop} {s : State Mem Op} {fl : Flavour}
    (hload : fl = .gen → ∀ m ops a, ok m ops a → ¬LoadsAdopted m a) (h : (machine ws).Reach ok initial s) : Aimed fl s.mem s.ops := by
  refine h.invariant_with known_of_reach ⟨fun _ => Nat.le_refl _, nofun, nofun, nofun, nofun⟩ ?_ ?_
  · exact fun m A op B c m' new hk ih hok he => ih.move hk (exec_move he) (fun hfl => hload hfl _ _ _ hok)
  · intro m ops l m' new _ ih _ hc
    have hnew : ∀ w, total (Op.loads w) new = 0 ∧ total (Op.adopts w) new = 0 ∧ ∀ S e, .error true S e ∉ new := by
      intro w
      cases call_started hc <;> simp [Op.loads, Op.adopts]
    obtain ⟨hs, ts, n, rfl⟩ := (call_started hc).exists_eq
    have hearly : ∀ w, Early m (ops ++ new) w → Early m ops w := by
      intro w h
      unfold Early at h
      rw [total_append, (hnew w).1] at h
      exact h
    refine ⟨fun w => ?_, fun w hw => ?_, ih.owner, fun S e he hfl w hw h => ?_, fun S hS hfl ht w hw h => ?_⟩
    · rw [total_append, (hnew w).1]
      exact ih.loads w
    · rw [total_append, (hnew w).2.1] at hw
      exact ih.adopts w hw
    · exact ih.error S e ((List.mem_append.mp he).resolve_right ((hnew w).2.2 S e)) hfl w hw (hearly w h)
    · exact ih.thrown S hS hfl ht w hw (hearly w h)

/-! ## One token behind a checkpoint -/

/-- A sentinel that no abort has reached has resolved its suspension if it is at zero, and only then. -/
def Tallied (m : Mem) : Prop :=
  ∀ S, m.Knows S → S.sentinel = true → m.thrown S.cell = false → m.fired S.cell = (decide (m.counter S.cell = 0)).toNat

/-- There is at most one token behind a checkpoint until its abort has loaded the pointer. -/
def Behind (fl : Flavour) (m : Mem) (ops : List Op) : Prop := ∀ w, Early m ops w → behind m ops fl w ≤ 1

section

variable {ws : Nat → Waiter} {m m' : Mem} {A B new ops : List Op} {op : Op} {c : Choice} {S : Susp}

theorem Behind.move {fl : Flavour} (h : Behind fl m (A ++ op :: B)) (ha : Aimed fl m (A ++ op :: B)) (hk : Known m (A ++ op :: B)) (hr : Resolved m)
    (ht : Tallied m) (hm : Move ws m op c m' new) : Behind fl m' (A ++ (new ++ B)) := by
  intro w hearly
  have hearly := hearly.of_move hm
  obtain ⟨old, fresh, hturn, hb⟩ := hm.turn hk hr
  rcases hturn.behind_le hk fl w (fun g => weigh_step (hb g)) with hle | ⟨hle, hjoin⟩
  · exact Nat.le_trans hle (h w hearly)
  · cases hjoin with
    | register hreg =>
      rw [hk.behind_fresh hreg] at hle
      exact hle
    | throw S e hop hfl hw =>
      subst hop
      exact absurd hearly (ha.error S e (by simp) hfl w hw)
    | misfire S hS hlive hs hc hfl hw =>
      have hthrown : m.thrown S.cell = false := by
        by_contra hthrown
        exact ha.thrown S hS hfl (by simpa using hthrown) w hw hearly
      have hfired := ht S hS hs hthrown
      rw [decide_eq_false hc] at hfired
      exact absurd (hr.live _ S hS (Or.inl (waits_of_sentinel hk hS hs)) hfired) hlive

end

theorem behind_of_reach {ws : Nat → Waiter} {ok : Mem → List Op → Act Op Choice Call → Prop} {s : State Mem Op} {fl : Flavour}
    (htally : ∀ {s : State Mem Op}, (machine ws).Reach ok initial s → Tallied s.mem)
    (hload : fl = .gen → ∀ m ops a, ok m ops a → ¬LoadsAdopted m a) (h : (machine ws).Reach ok initial s) :
    Behind fl s.mem s.ops := by
  refine h.invariant_with (J := fun m ops => Aimed fl m ops ∧ Known m ops ∧ Resolved m ∧ Tallied m)
    (fun h => ⟨aimed_of_reach hload h, known_of_reach h, resolved_of_reach h, htally h⟩) (fun _ _ => Nat.zero_le _) ?_ ?_
  · exact fun m A op B c m' new ⟨ha, hk, hr, ht⟩ ih _ he => ih.move ha hk hr ht (exec_move he)
  · intro m ops l m' new _ ih _ hc w hearly
    have hloads : total (Op.loads w) new = 0 := by cases call_started hc <;> simp [Op.loads]
    have hle : behind m' (ops ++ new) fl w = behind m ops fl w := by
      rcases (call_started hc).turn ops with ⟨hg, -⟩ | ⟨t, ht, hg, -⟩
      · exact hg _
      · rcases ht with rfl | rfl
        · exact hg _
        · exact hg _
    obtain ⟨hs, ts, n, rfl⟩ := (call_started hc).exists_eq
    rw [hle]
    refine ih w ?_
    unfold Early at hearly ⊢
    rw [total_append, hloads] at hearly
    exact hearly

/-- A suspension that an abort has reached has been resolved. -/
def ThrownFired (m : Mem) : Prop := ∀ S, m.Knows S → S.sentinel = true → m.thrown S.cell = true → m.fired S.cell ≠ 0

theorem thrownFired_of_reach {ws : Nat → Waiter} {ok : Mem → List Op → Act Op Choice Call → Prop} {s : State Mem Op}
    (htally : ∀ {s : State Mem Op}, (machine ws).Reach ok initial s → Tallied s.mem) (h : (machine ws).Reach ok initial s) :
    ThrownFired s.mem := by
  refine h.invariant_with (J := fun m ops => Known m ops ∧ Unconsumed m ∧ Tallied m) (I := fun m _ => ThrownFired m)
    (fun h => ⟨known_of_reach h, unconsumed_of_reach h, htally h⟩) nofun ?_ ?_
  · rintro m A op B c m' new ⟨hk, hu, ht⟩ ih _ he S hS hs hthrown
    have hm := exec_move he
    rcases hm.extends.old hS with hold | hfresh
    · cases hm.sentinelStep hk hu hold hs with
      | keep _ _ _ hf hth | lose _ _ _ hf hth _ _ | wakeZero _ _ _ _ hf hth | wake _ _ _ _ _ hf hth | wakeLast _ _ _ _ hf hth
      | restore _ _ _ hf hth | hold _ _ _ _ _ _ _ _ hf hth =>
        rw [hth] at hthrown
        have := ih S hold hs hthrown
        omega
      | error e hop _ _ _ hf _ =>
        cases hth : m.thrown S.cell with
        | true =>
          have := ih S hold hs hth
          omega
        | false =>
          rw [hf, ht S hold hs hth]
          by_cases h0 : m.counter S.cell = 0
          · simp [h0]
          · simp [h0]
    · rw [hm.thrown_fresh hk hfresh] at hthrown
      cases hthrown
  · intro m ops l m' new _ ih _ hc
    obtain ⟨hs, ts, n, rfl⟩ := (call_started hc).exists_eq
    exact ih

/-! ## The pointer of a checkpoint -/

/-- A waiter of events is registered behind an aborted checkpoint, after the abort has loaded the pointer. -/
def ParksAborted (fl : Flavour) (m : Mem) (ops : List Op) : Act Op Choice Call → Prop
  | .exec (.suspend fl' _ _ (some w) _ events _) _ => fl' = fl ∧ events ≠ [] ∧ m.aborted w = true ∧ .abortLoad fl w ∉ ops
  | _ => False

/-- An abort of the other flavour flips the flag of a checkpoint that a suspension is behind. -/
def AbortsOther (fl : Flavour) (m : Mem) : Act Op Choice Call → Prop
  | .exec (.abort fl' w) _ =>
    fl' ≠ fl ∧ m.aborted w = false ∧ ∃ S ∈ m.live, S.waits = true ∧ S.flavour = fl ∧ S.checkpoint = some w
  | _ => False

instance (fl : Flavour) (m : Mem) (ops : List Op) (a : Act Op Choice Call) : Decidable (ParksAborted fl m ops a) := by
  unfold ParksAborted
  induction a using Act.casesOn with
  | exec op c =>
    induction op using Op.casesOn with
    | suspend fl coro ctx checkpoint parents events timed => induction checkpoint using Option.casesOn <;> infer_instance
    | _ => infer_instance
  | call l => infer_instance

instance (fl : Flavour) (m : Mem) (a : Act Op Choice Call) : Decidable (AbortsOther fl m a) := by
  unfold AbortsOther
  induction a using Act.casesOn with
  | exec op c => induction op using Op.casesOn <;> infer_instance
  | call l => infer_instance

/-- An abort of the checkpoint, or the check of a checkpoint waiter, is about to throw into the suspension. -/
def Caught (m : Mem) (ops : List Op) (S : Susp) (w : Nat) : Prop :=
  (.abortLoad S.flavour w ∈ ops ∧ m.ptr S.flavour w = some S) ∨ (∃ b e, .error b S e ∈ ops) ∨ .checkAborted w S ∈ ops

/-- A suspension that is parked behind a checkpoint: of a waiter of events or, of a task, of the checkpoint waiter itself. -/
structure Mem.Parked (m : Mem) (S : Susp) (w : Nat) : Prop where
  live : S ∈ m.live
  waits : S.waits = true
  checkpoint : S.checkpoint = some w
  gen : S.flavour = .gen → m.awaits S.cell ≠ [] ∧ m.detached w = false

/-- The pointer of a checkpoint is at the suspension parked behind it; once the checkpoint is aborted, the suspension is caught. -/
def Pointed (fl : Flavour) (m : Mem) (ops : List Op) : Prop :=
  ∀ S w, S.flavour = fl → m.Parked S w → (m.aborted w = false → m.ptr fl w = some S) ∧ (m.aborted w = true → Caught m ops S w)

section

variable {ws : Nat → Waiter} {m m' : Mem} {A B new ops : List Op} {op : Op} {c : Choice} {S : Susp} {w : Nat}

theorem Mem.Parked.isAt_tok (h : m.Parked S w) (hk : Known m ops) : isAt S.tok.checkpoint (S.flavour, w) = 1 := by
  have hkS := hk.live S h.live
  have hbehind : S.behind = some (S.flavour, w) := by
    cases hfl : S.flavour with
    | gen => rw [hk.behind_eq hkS (hk.isCheckpoint_of_waits hkS h.waits) (Or.inr (h.gen hfl).1), h.checkpoint, hfl]; rfl
    | async => simp [Susp.behind, hfl, h.checkpoint]
  rw [tok_of_waits h.waits, Tok.checkpoint, hbehind, isAt_self]

/-- What a resolved suspension clears is its own checkpoint. -/
theorem Susp.clears_eq {input : Input} (h : S.clears input = some w) :
    S.checkpoint = some w ∧ (S.flavour = .gen → S.isCheckpoint = true) := by
  unfold Susp.clears at h
  cases input <;> cases hfl : S.flavour <;> simp only [hfl, reduceCtorEq] at h
  case throw.async => exact ⟨h, nofun⟩
  all_goals
    cases hc : S.isCheckpoint with
    | false => simp [hc] at h
    | true => exact ⟨by simpa [hc] using h, fun _ => rfl⟩

/-- While a suspension is parked behind a checkpoint, nothing else moves its pointer. -/
theorem Mem.Parked.ptr_eq (h : m.Parked S w) (hb : Behind S.flavour m (A ++ op :: B)) (ha : Aimed S.flavour m (A ++ op :: B))
    (hk : Known m (A ++ op :: B)) (hm : Move ws m op c m' new) (hearly : Early m (A ++ op :: B) w) :
    m'.ptr S.flavour w = m.ptr S.flavour w := by
  have hopin : op ∈ A ++ op :: B := by simp
  have hop : op.WF m := hk.ops op hopin
  have hone := hb w hearly
  have hsum := weigh_ge_of_mem (g := fun t => isAt t.checkpoint (S.flavour, w)) hopin h.live
  rw [h.isAt_tok hk] at hsum
  have hzero : total (fun t => isAt t.checkpoint (S.flavour, w)) op.toks = 0 := by
    unfold behind at hone
    omega
  -- what moves the pointer is itself behind the checkpoint
  have hne : ∀ t, op.toks = [t] → t.checkpoint ≠ some (S.flavour, w) := by
    intro t ht heq
    rw [ht, total_cons, heq, isAt_self] at hzero
    omega
  rcases hm.ptr_eq S.flavour w with heq | ⟨coro, ctx, parents, events, timed, T, hop', -, -⟩ | ⟨P, y, hfl, rfl, -⟩ |
    ⟨T, input, rfl, hfl, hcl, -⟩ | ⟨hfl, rfl, -⟩ | ⟨p, T, hfl, rfl, -⟩
  · exact heq
  · exfalso
    cases hfl : S.flavour with
    | gen =>
      rw [hfl] at hop' hne
      subst hop'
      have hck : headCheckpoint parents = some w := (hop.2.2.2.2.2.1 rfl).1.symm
      exact hne (.gen coro parents) rfl (by simp [Tok.checkpoint, hck])
    | async =>
      rw [hfl] at hop' hne
      subst hop'
      exact hne (.async coro (some w)) rfl rfl
  · exfalso
    obtain ⟨F, coro, ctx, input, rfl, hF⟩ := hop.2.2.2.2.2.2
    refine hne (.gen coro (F :: P.toFrame :: P.parents)) rfl ?_
    simp [Tok.checkpoint, headCheckpoint, hF, hfl]
  · exfalso
    refine hne (.resolved T) rfl ?_
    have hwf := (hk.made _ _ hop).2
    obtain ⟨hck, hframe⟩ := Susp.clears_eq hcl
    cases hflT : T.flavour with
    | gen =>
      rw [Tok.checkpoint, Susp.after, if_pos (hframe hflT), hck, ← hfl, hflT]
      rfl
    | async =>
      have hnot : T.isCheckpoint = false := by
        by_contra hc
        have := (hwf.call (hwf.checkpointFrame (by simpa using hc)).1).2
        rw [hflT] at this
        cases this
      rw [Tok.checkpoint, Susp.after, hnot, if_neg (by simp), Susp.behind, hflT, hck, ← hfl, hflT]
      rfl
  · exfalso
    exact hne (.closing w) rfl (by rw [hfl]; rfl)
  · exfalso
    have hin : Op.adoptSwap w p T ∈ A ++ .adoptSwap w p T :: B := by simp
    have hadopt : 0 < total (Op.adopts w) (A ++ .adoptSwap w p T :: B) :=
      Nat.lt_of_lt_of_le (by simp [Op.adopts]) (le_total_of_mem hin)
    exact absurd (ha.adopts w hadopt) (by simp [(h.gen hfl).2])

/-- A suspension that has not been resolved is resolved by the throw that is about to come. -/
theorem error_live (hk : Known m (A ++ op :: B)) (hr : Resolved m) (ht : Tallied m) (htf : ThrownFired m)
    (hm : Move ws m op c m' new) (hS : S ∈ m.live) {b : Bool} {e : Exc} (hop : op = .error b S e) :
    S ∉ m'.live ∧ new = [.toHandle S (.throw e)] := by
  have hkS := hk.live S hS
  subst hop
  cases hm with
  | errorNoop _ _ _ t ht' h =>
    exfalso
    rcases h with ⟨hs, h0⟩ | ⟨hs, hc⟩
    · have hfired := hr.unfired S hS
      cases hth : m.thrown S.cell with
      | true => exact htf S hkS hs hth hfired
      | false =>
        rw [ht S hkS hs hth, h0] at hfired
        cases hfired
    · rw [hr.consumed hk hS hs] at hc
      cases hc
  | errorSentinel _ _ _ t ht' hs h0 | errorConsume _ _ _ t ht' hs h0 => exact ⟨by simp [Mem.fire], rfl⟩
  | decrementZero _ _ _ hw | decrement _ _ _ hw | decrementLast _ _ _ hw | consumeNoop _ _ _ hw | consume _ _ _ hw =>
    rcases hw with h | ⟨h, -⟩ <;> cases h
  | lock e hl hlock => cases hlock

/-- A waiter that a step parks. -/
theorem Move.parked (hm : Move ws m op c m' new) (hk : Known m (A ++ op :: B)) (hS : S ∈ m'.live) (hw : S.waits = true) :
    S ∈ m.live ∨
    (∃ coro ctx checkpoint parents events timed, op = .suspend S.flavour coro ctx checkpoint parents events timed ∧
      S.checkpoint = checkpoint ∧ m' = m.suspend S events ∧ new = registration S events timed) ∨
    (S.flavour = .gen ∧ m'.awaits S.cell = []) := by
  cases hm with
  | decrementLast T v i hw hs h1 | consume T v i hw hs hc => exact Or.inl (List.mem_filter.mp hS).1
  | errorSentinel b T e t ht hs h0 | errorConsume b T e t ht hs hc => exact Or.inl (List.mem_filter.mp hS).1
  | fromCheckpoint w' coro ctx p rest hr he hp =>
    simp only [Mem.new, List.mem_append, List.mem_singleton, List.mem_filter] at hS
    rcases hS with (hS | rfl) | rfl
    · exact Or.inl hS.1
    · rw [show Frame.waits (checkpointFrame m p w') = false from
        (hk.ops (.registerPygen w' coro ctx (p :: rest)) (by simp) p rest rfl).2.1] at hw
      cases hw
    · exact Or.inr (Or.inr ⟨rfl, by simp [Mem.new]⟩)
  | underCheckpoint w' coro ctx p rest c' hr he hp =>
    rcases List.mem_append.mp hS with hS | hS
    · exact Or.inl hS
    · exact Or.inr (Or.inr (by rw [List.mem_singleton.mp hS]; exact ⟨rfl, by simp [Mem.new]⟩))
  | callChild parents coro ctx input new hnew =>
    rcases List.mem_append.mp hS with hS | hS
    · exact Or.inl hS
    · rw [List.mem_singleton.mp hS] at hw
      cases hw
  | suspend fl coro ctx checkpoint parents events timed T hT =>
    rcases List.mem_append.mp hS with hS | hS
    · exact Or.inl hS
    · obtain rfl := List.mem_singleton.mp hS
      have hfl : S.flavour = fl := by rw [hT]; rfl
      subst hfl
      exact Or.inr (Or.inl ⟨coro, ctx, checkpoint, parents, events, timed, rfl, by rw [hT]; rfl, rfl, rfl⟩)
  | _ => exact Or.inl hS

/-- Only an abort flips the flag of a checkpoint. -/
theorem Move.aborted_eq (hm : Move ws m op c m' new) (ha : m.aborted w = false) (ha' : m'.aborted w = true) :
    ∃ fl, op = .abort fl w ∧ new = [.abortLoad fl w] := by
  cases hm with
  | abort fl w' h =>
    by_cases hw : w = w'
    · subst hw
      exact ⟨fl, rfl, rfl⟩
    · simp only [Function.update_of_ne hw] at ha'
      exact absurd (ha.symm.trans ha') Bool.false_ne_true
  | _ => exact absurd (ha.symm.trans ha') Bool.false_ne_true

theorem Early.of_load {fl : Flavour} (h : .abortLoad fl w ∈ ops) : Early m ops w :=
  Or.inr (Nat.lt_of_lt_of_le (by simp [Op.loads]) (le_total_of_mem h))

theorem Pointed.move {fl : Flavour} (h : Pointed fl m (A ++ op :: B)) (hb : Behind fl m (A ++ op :: B)) (ha : Aimed fl m (A ++ op :: B))
    (hk : Known m (A ++ op :: B)) (hr : Resolved m) (ht : Tallied m) (htf : ThrownFired m) (hm : Move ws m op c m' new)
    (hpark : ¬ParksAborted fl m (A ++ op :: B) (.exec op c)) (hother : ¬AbortsOther fl m (.exec op c)) :
    Pointed fl m' (A ++ (new ++ B)) := by
  intro S w hfl hP'
  subst hfl
  rcases hm.parked hk hP'.live hP'.waits with hold | ⟨coro, ctx, checkpoint, parents, events, timed, rfl, hck, rfl, rfl⟩ | ⟨hgen, hnil⟩
  · have hP : m.Parked S w := by
      refine ⟨hold, hP'.waits, hP'.checkpoint, fun hgen => ⟨?_, ?_⟩⟩
      · rw [← (hk.live S hold).awaits_eq hk hm.extends]
        exact (hP'.gen hgen).1
      · by_contra hd
        exact absurd (hP'.gen hgen).2 (by simp [hm.detached_mono (w := w) (by simpa using hd)])
    obtain ⟨h1, h2⟩ := h S w rfl hP
    cases hab : m.aborted w with
    | false =>
      have hptr := (hP.ptr_eq hb ha hk hm (Or.inl hab)).trans (h1 hab)
      refine ⟨fun _ => hptr, fun hab' => ?_⟩
      obtain ⟨fl', rfl, rfl⟩ := hm.aborted_eq hab hab'
      obtain rfl : fl' = S.flavour := by
        by_contra hne
        exact hother ⟨hne, hab, S, hold, hP.waits, rfl, hP.checkpoint⟩
      exact Or.inl ⟨Machine.mem_new (by simp), hptr⟩
    | true =>
      refine ⟨fun hab' => ?_, fun _ => ?_⟩
      · rw [hm.aborted_mono hab] at hab'
        cases hab'
      · rcases h2 hab with ⟨hload, hptr⟩ | ⟨b, e, he⟩ | hcheck
        · by_cases heq : op = .abortLoad S.flavour w
          · subst heq
            refine Or.inr (Or.inl ⟨true, .cancelled, Machine.mem_new ?_⟩)
            cases hm with
            | abortLoad => simp [hptr]
            | lock e hl hlock => cases hlock
            | decrementZero _ _ _ hw | decrement _ _ _ hw | decrementLast _ _ _ hw | consumeNoop _ _ _ hw | consume _ _ _ hw =>
              rcases hw with hw | ⟨hw, -⟩ <;> cases hw
          · exact Or.inl ⟨Machine.mem_keep hload (Ne.symm heq), (hP.ptr_eq hb ha hk hm (.of_load hload)).trans hptr⟩
        · by_cases heq : op = .error b S e
          · exact absurd hP'.live (error_live hk hr ht htf hm hold heq).1
          · exact Or.inr (Or.inl ⟨b, e, Machine.mem_keep he (Ne.symm heq)⟩)
        · by_cases heq : op = .checkAborted w S
          · subst heq
            refine Or.inr (Or.inl ⟨false, .cancelled, Machine.mem_new ?_⟩)
            cases hm with
            | checkAborted => simp [hab]
            | lock e hl hlock => cases hlock
            | decrementZero _ _ _ hw | decrement _ _ _ hw | decrementLast _ _ _ hw | consumeNoop _ _ _ hw | consume _ _ _ hw =>
              rcases hw with hw | ⟨hw, -⟩ <;> cases hw
          · exact Or.inr (Or.inr (Machine.mem_keep hcheck (Ne.symm heq)))
  · have hw : S.checkpoint = some w := hP'.checkpoint
    have hptr : (m.suspend S events).ptr S.flavour w = some S := by simp [Mem.suspend, hw, Mem.setPtr]
    refine ⟨fun _ => hptr, fun hab => ?_⟩
    cases events with
    | nil => exact Or.inr (Or.inr (Machine.mem_new (by simp [registration, hw])))
    | cons e es =>
      refine Or.inl ⟨?_, hptr⟩
      by_contra hload
      refine hpark ?_
      rw [← hck, hw]
      exact ⟨rfl, by simp, hab, fun hmem => hload (Machine.mem_keep hmem (by simp))⟩
  · exact absurd hnil (hP'.gen hgen).1

end

/-- The pointer of a checkpoint is at the suspension parked behind it, in every run in which no abort loads an adopted pointer, no
waiter of events is registered too late for an abort, and no abort is of the other flavour. -/
theorem pointed_of_reach {ws : Nat → Waiter} {ok : Mem → List Op → Act Op Choice Call → Prop} {s : State Mem Op} (fl : Flavour)
    (htally : ∀ {s : State Mem Op}, (machine ws).Reach ok initial s → Tallied s.mem)
    (hload : fl = .gen → ∀ m ops a, ok m ops a → ¬LoadsAdopted m a) (hpark : ∀ m ops a, ok m ops a → ¬ParksAborted fl m ops a)
    (hother : ∀ m ops a, ok m ops a → ¬AbortsOther fl m a) (h : (machine ws).Reach ok initial s) : Pointed fl s.mem s.ops := by
  refine h.invariant_with
    (J := fun m ops => Behind fl m ops ∧ Aimed fl m ops ∧ Known m ops ∧ Resolved m ∧ Tallied m ∧ ThrownFired m)
    (fun h => ⟨behind_of_reach htally hload h, aimed_of_reach hload h, known_of_reach h, resolved_of_reach h, htally h,
      thrownFired_of_reach htally h⟩) (fun S w _ hP => nomatch hP.live) ?_ ?_
  · exact fun m A op B c m' new ⟨hb, ha, hk, hr, ht, htf⟩ ih hok he =>
      ih.move hb ha hk hr ht htf (exec_move he) (hpark _ _ _ hok) (hother _ _ _ hok)
  · intro m ops l m' new _ ih _ hc S w hfl hP
    obtain ⟨hs, ts, n, rfl⟩ := (call_started hc).exists_eq
    obtain ⟨h1, h2⟩ := ih S w hfl ⟨hP.live, hP.waits, hP.checkpoint, hP.gen⟩
    refine ⟨h1, fun hab => ?_⟩
    rcases h2 hab with ⟨hload, hptr⟩ | ⟨b, e, he⟩ | hcheck
    · exact Or.inl ⟨List.mem_append_left _ hload, hptr⟩
    · exact Or.inr (Or.inl ⟨b, e, List.mem_append_left _ he⟩)
    · exact Or.inr (Or.inr (List.mem_append_left _ hcheck))

/-! ## Checkpoint waiters -/

/-- The operation registers a suspension, resumes it, or throws into it. -/
def Op.Concerns (S : Susp) : Op → Prop
  | .addWaker _ x | .addCheck _ x | .push _ x => x.target = S
  | .resume T _ _ | .resumeBody T _ _ | .error _ T _ | .checkAborted _ T | .adoptLoad _ _ T | .adoptSwap _ _ T => T = S
  | _ => False

/-- The suspension of a checkpoint waiter is about to be resumed or thrown into, unless it is an async one whose checkpoint was
aborted. -/
def Attended (m : Mem) (ops : List Op) : Prop :=
  ∀ S ∈ m.live, S.waits = true → m.awaits S.cell = [] → (S.flavour = .async ∧ m.abortedOf S = true) ∨ ∃ op ∈ ops, op.Concerns S

section

variable {ws : Nat → Waiter} {m m' : Mem} {A B new ops : List Op} {op : Op} {c : Choice} {S : Susp} {w : Nat}

/-- The operation that attends to the suspension of a checkpoint waiter, performed. -/
theorem Op.Concerns.step (hd : op.Concerns S) (hk : Known m (A ++ op :: B)) (hr : Resolved m) (hm : Move ws m op c m' new)
    (hS : S ∈ m.live) (ha : m.awaits S.cell = []) (hS' : S ∈ m'.live) :
    (S.flavour = .async ∧ m'.abortedOf S = true) ∨ ∃ op ∈ A ++ (new ++ B), op.Concerns S := by
  have hsent : S.sentinel = false := by rw [(hk.made _ _ (hk.live S hS)).2.sentinel, ha]; rfl
  have hcons := hr.consumed hk hS hsent
  have hop : op.WF m := hk.ops op (by simp)
  -- a waker stands for an event, and there is none
  have hnot : ∀ e (x : Waker), x.WF m e → x.target ≠ S := by
    rintro e x ⟨-, -, hx⟩ rfl
    rw [ha] at hx
    cases hx
  cases hm with
  | lock e' hl hlock =>
    cases hlock with
    | addWaker x => exact absurd hd (hnot e' x hop)
    | notify | unnotify | sweep => exact hd.elim
  | wakeNow e' x hf | checked e' x hf | push e' x => exact absurd hd (hnot e' x hop)
  | resumeDrop T v i hfl hab =>
    obtain rfl : T = S := hd
    exact Or.inl ⟨hfl, hab⟩
  | resumePass T v i hfl hab => exact Or.inr ⟨_, Machine.mem_new (List.mem_cons_self ..), hd⟩
  | decrementZero T v i hw hs h0 | decrement T v i hw hs h0 h1 | decrementLast T v i hw hs h1 =>
    obtain rfl : T = S := by rcases hw with rfl | ⟨rfl, -⟩ <;> exact hd
    rw [hsent] at hs
    cases hs
  | consumeNoop T v i hw hs hc =>
    obtain rfl : T = S := by rcases hw with rfl | ⟨rfl, -⟩ <;> exact hd
    rw [hcons] at hc
    cases hc
  | consume T v i hw hs hc =>
    obtain rfl : T = S := by rcases hw with rfl | ⟨rfl, -⟩ <;> exact hd
    simp [Mem.fire] at hS'
  | errorNoop b T e t ht h =>
    obtain rfl : T = S := hd
    simp [hsent, hcons] at h
  | errorSentinel b T e t ht hs h0 =>
    obtain rfl : T = S := hd
    rw [hsent] at hs
    cases hs
  | errorConsume b T e t ht hs hc =>
    obtain rfl : T = S := hd
    simp [Mem.fire] at hS'
  | adoptLoad w' c' T | adoptSwap w' p T => exact Or.inr ⟨_, Machine.mem_new (List.mem_cons_self ..), hd⟩
  | checkAborted w' T =>
    refine Or.inr ⟨_, Machine.mem_new (List.mem_cons_self ..), ?_⟩
    split
    · exact hd
    · exact hd
  | _ => exact hd.elim

/-- A checkpoint waiter is attended to when it is parked. -/
theorem Move.attends (hm : Move ws m op c m' new) (hk : Known m (A ++ op :: B)) (hS : S ∈ m'.live) (hw : S.waits = true)
    (ha : m'.awaits S.cell = []) : S ∈ m.live ∨ ∃ op ∈ new, op.Concerns S := by
  have hop : op.WF m := hk.ops op (by simp)
  cases hm with
  | decrementLast T v i hw hs h1 | consume T v i hw hs hc => exact Or.inl (List.mem_filter.mp hS).1
  | errorSentinel b T e t ht hs h0 | errorConsume b T e t ht hs hc => exact Or.inl (List.mem_filter.mp hS).1
  | fromCheckpoint w' coro ctx p rest hr he hp =>
    simp only [Mem.new, List.mem_append, List.mem_singleton, List.mem_filter] at hS
    rcases hS with (hS | rfl) | rfl
    · exact Or.inl hS.1
    · rw [show Frame.waits (checkpointFrame m p w') = false from (hop p rest rfl).2.1] at hw
      cases hw
    · exact Or.inr ⟨_, List.mem_cons_self .., rfl⟩
  | underCheckpoint w' coro ctx p rest c' hr he hp =>
    rcases List.mem_append.mp hS with hS | hS
    · exact Or.inl hS
    · exact Or.inr ⟨_, List.mem_cons_self .., (List.mem_singleton.mp hS).symm⟩
  | callChild parents coro ctx input new hnew =>
    rcases List.mem_append.mp hS with hS | hS
    · exact Or.inl hS
    · rw [List.mem_singleton.mp hS] at hw
      cases hw
  | suspend fl coro ctx checkpoint parents events timed T hT =>
    rcases List.mem_append.mp hS with hS | hS
    · exact Or.inl hS
    · obtain rfl := List.mem_singleton.mp hS
      obtain rfl : events = [] := by simpa [Mem.suspend, Mem.new] using ha
      obtain ⟨w', hw'⟩ := Option.isSome_iff_exists.mp (hop.2.2.2.2.2.2 rfl)
      have hck : S.checkpoint = some w' := by rw [hT]; exact hw'
      exact Or.inr ⟨.checkAborted w' S, by simp [registration, hck], rfl⟩
  | _ => exact Or.inl hS

end

theorem attended_of_reach {ws : Nat → Waiter} {ok : Mem → List Op → Act Op Choice Call → Prop} {s : State Mem Op}
    (h : (machine ws).Reach ok initial s) : Attended s.mem s.ops := by
  refine h.invariant_with (J := fun m ops => Known m ops ∧ Resolved m) (fun h => ⟨known_of_reach h, resolved_of_reach h⟩) nofun ?_ ?_
  · rintro m A op B c m' new ⟨hk, hr⟩ ih _ he S hS' hw ha'
    have hm := exec_move he
    rcases hm.attends hk hS' hw ha' with hS | ⟨x, hx, hd⟩
    · have ha : m.awaits S.cell = [] := by rw [← (hk.live S hS).awaits_eq hk hm.extends, ha']
      rcases ih S hS hw ha with ⟨hfl, hab⟩ | ⟨x, hx, hd⟩
      · exact Or.inl ⟨hfl, hm.abortedOf_mono hab⟩
      · by_cases hne : x = op
        · subst hne
          exact hd.step hk hr hm hS ha hS'
        · exact Or.inr ⟨x, Machine.mem_keep hx hne, hd⟩
    · exact Or.inr ⟨x, Machine.mem_new hx, hd⟩
  · intro m ops l m' new _ ih _ hc S hS hw ha
    obtain ⟨hs, ts, n, rfl⟩ := (call_started hc).exists_eq
    rcases ih S hS hw ha with hab | ⟨x, hx, hd⟩
    · exact Or.inl hab
    · exact Or.inr ⟨x, List.mem_append_left _ hx, hd⟩

end Tonio.Runtime
