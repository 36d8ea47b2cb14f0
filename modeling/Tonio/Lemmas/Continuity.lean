import Tonio.Lemmas.Tokens

/-!
# A coroutine goes on in one place

Two counts of the tokens. Below the suspension of a call there is one token, the child or what it calls, as long as the suspension has
not been resolved (`Chained`); so the result of a child meets the suspension it is for, and a checkpoint takes the place of a
suspension that is there. And a coroutine has one token as long as it has not finished, and none after (`Continued`).
-/

namespace Tonio.Runtime

open Interleaving

/-! ## Below a suspension -/

/-- The cell of the nearest parent. -/
def parentCell (parents : List Frame) : Option Nat := parents.head?.map (·.cell)

/-- The suspension a token is below. -/
def Tok.parent : Tok → Option Nat
  | .gen _ parents => parentCell parents
  | .parked S | .called S | .resolved S => parentCell S.parents
  | .result F => some F.cell
  | .async _ _ | .closing _ => none

/-- Whether a token is below the suspension of a cell. -/
def Tok.below (c : Nat) (t : Tok) : Nat := isAt t.parent c

/-- The tokens below the suspension of a cell. -/
def below (m : Mem) (ops : List Op) (c : Nat) : Nat := weigh (Tok.below c) m ops

/-- There is one token below a call that has not been resolved, and never more than one; and a call without a checkpoint, which nothing
but its child resolves, has not been resolved if there is one. -/
structure Chained (m : Mem) (ops : List Op) : Prop where
  le : ∀ c, below m ops c ≤ 1
  called : ∀ F ∈ m.live, F.waits = false → below m ops F.cell = 1
  live : ∀ F, m.Knows F → F.waits = false → F.checkpoint = none → below m ops F.cell ≠ 0 → F ∈ m.live

/-- No sentinel resolves its suspension a second time. -/
def Sound (m : Mem) (op : Op) : Prop :=
  ∀ S, m.Knows S → S.sentinel = true → m.counter S.cell = 1 ∨ (m.counter S.cell ≠ 0 ∧ ∃ e, op = .error true S e) → S ∈ m.live

section

variable {ws : Nat → Waiter} {m m' : Mem} {A B new ops ops' : List Op} {op : Op} {c : Choice} {S : Susp} {old fresh : List Tok}

/-- Nothing is below a suspension that has not been made. -/
theorem parentCell_ne (hk : Known m ops) {parents : List Frame} {k : Nat} (hp : m.Calls parents) (hle : m.nextCell ≤ k) :
    parentCell parents ≠ some k := by
  cases parents with
  | nil => simp [parentCell]
  | cons p rest =>
    have := hk.above hp hle p rest rfl
    simp only [parentCell, List.head?_cons, Option.map_some, ne_eq, Option.some.injEq]
    omega

theorem Mem.Knows.parentCell_ne (hk : Known m ops) {k : Nat} (hS : m.Knows S) (hle : m.nextCell ≤ k) :
    parentCell S.parents ≠ some k := Runtime.parentCell_ne hk (hk.made _ _ hS).2.parents hle

/-- A suspension is not below itself. -/
theorem Mem.Knows.parentCell_self (hk : Known m ops) (hS : m.Knows S) : parentCell S.parents ≠ some S.cell := by
  cases hp : S.parents with
  | nil => simp [parentCell]
  | cons p rest =>
    have := (hk.made _ _ hS).2.above p rest hp
    simp only [parentCell, List.head?_cons, Option.map_some, ne_eq, Option.some.injEq]
    omega

theorem Known.below_fresh {k : Nat} (hk : Known m ops) (hle : m.nextCell ≤ k) : below m ops k = 0 := by
  refine hk.weigh_eq_zero (fun t ht => isAt_of_ne ?_)
  cases t with
  | gen coro parents => exact Runtime.parentCell_ne hk ht hle
  | parked S | called S | resolved S => exact Mem.Knows.parentCell_ne hk ht hle
  | result F =>
    have := hk.lt ht.1
    simp only [Tok.parent, ne_eq, Option.some.injEq]
    omega
  | async coro checkpoint | closing w => exact nofun

theorem Known.lt_of_below {k : Nat} (hk : Known m ops) (h : below m ops k ≠ 0) : k < m.nextCell := by
  by_contra hle
  exact h (hk.below_fresh (Nat.le_of_not_lt hle))

/-- A call that something was below before the step was there before it. -/
theorem Chained.live_of_below {F : Susp} (h : Chained m ops) (hk : Known m ops) (hx : m.Extends m') (hF : m'.Knows F)
    (hw : F.waits = false) (hp : F.checkpoint = none) (hne : below m ops F.cell ≠ 0) : F ∈ m.live := by
  have hold := (hx.old hF).resolve_right (Nat.not_le.mpr (hk.lt_of_below hne))
  exact h.live F hold hw hp hne

/-- A step that leaves the counts alone. -/
theorem Chained.of_eq (h : Chained m ops) (hk : Known m ops) (hx : m.Extends m') (hE : ∀ k, below m' ops' k = below m ops k)
    (hl : ∀ F ∈ m'.live, F.waits = false → F ∈ m.live)
    (hl' : ∀ F ∈ m.live, F.waits = false → F.checkpoint = none → F ∈ m'.live) : Chained m' ops' := by
  refine ⟨fun k => ?_, fun F hF hw => ?_, fun F hF hw hp hne => ?_⟩
  · rw [hE]
    exact h.le k
  · rw [hE]
    exact h.called F (hl F hF hw) hw
  · rw [hE] at hne
    exact hl' F (h.live_of_below hk hx hF hw hp hne) hw hp

/-- A suspension that waits takes the place of its coroutine. -/
theorem Chained.of_park (h : Chained m ops) (hk : Known m ops) (hx : m.Extends m') (hw : S.waits = true)
    (hl : m'.live = m.live ++ [S]) (hE : ∀ k, below m' ops' k = below m ops k) : Chained m' ops' := by
  refine h.of_eq hk hx hE (fun F hF hwF => ?_) (fun F hF _ _ => by simp [hl, hF])
  rw [hl] at hF
  rcases List.mem_append.mp hF with hF | hF
  · exact hF
  · rw [List.mem_singleton.mp hF, hw] at hwF
    cases hwF

/-- A call suspends its coroutine and puts the child below the suspension. -/
theorem Chained.of_call {F : Susp} (h : Chained m ops) (hk : Known m ops) (hk' : Known m' ops') (hx : m.Extends m')
    (hcell : F.cell = m.nextCell) (hl : m'.live = m.live ++ [F])
    (hE : ∀ k, below m' ops' k = below m ops k + isAt (some F.cell) k) : Chained m' ops' := by
  have h0 : below m ops F.cell = 0 := hk.below_fresh (Nat.le_of_eq hcell.symm)
  refine ⟨fun k => ?_, fun G hG hw => ?_, fun G hG hw hp hne => ?_⟩
  · rw [hE]
    by_cases hk : F.cell = k
    · have hself := isAt_self F.cell
      rw [← hk]
      omega
    · rw [isAt_some_of_ne hk]
      exact h.le k
  · rw [hl] at hG
    rcases List.mem_append.mp hG with hG | hG
    · have := hk.lt (hk.live G hG)
      rw [hE, h.called G hG hw, isAt_some_of_ne (by omega)]
    · rw [List.mem_singleton.mp hG, hE, h0, isAt_self]
  · rw [hl]
    by_cases hc : F.cell = G.cell
    · obtain rfl := (hk'.live F (by simp [hl])).unique hG hc
      simp
    · rw [hE, isAt_some_of_ne hc] at hne
      exact List.mem_append_left _ (h.live_of_below hk hx hG hw hp hne)

/-- The result below a suspension is taken, and no call is left there that has not been resolved. -/
theorem Chained.of_result (F : Susp) (h : Chained m ops) (hk : Known m ops) (hx : m.Extends m')
    (hE : ∀ k, below m' ops' k + isAt (some F.cell) k = below m ops k)
    (hl : ∀ G ∈ m'.live, G.waits = false → G ∈ m.live ∧ F.cell ≠ G.cell)
    (hl' : ∀ G ∈ m.live, F.cell ≠ G.cell → G ∈ m'.live) : Chained m' ops' := by
  refine ⟨fun k => ?_, fun G hG hwG => ?_, fun G hG hwG hp hne => ?_⟩
  · have := hE k
    have := h.le k
    omega
  · obtain ⟨hG, hne⟩ := hl G hG hwG
    have := hE G.cell
    rw [h.called G hG hwG, isAt_some_of_ne hne] at this
    exact this
  · have hEG := hE G.cell
    refine hl' G (h.live_of_below hk hx hG hwG hp (by omega)) (fun heq => ?_)
    -- what was below `F` is taken, so nothing is left there
    have := h.le G.cell
    rw [heq, isAt_self] at hEG
    omega

/-- A checkpoint suspends its coroutine below a copy of the call it is under, which takes the place of that call. -/
theorem Chained.of_copy {p : Frame} {rest : List Frame} {P : Susp} (h : Chained m ops) (hk : Known m ops) (hk' : Known m' ops')
    (hx : m.Extends m') (hlive : ⟨p, rest⟩ ∈ m.live) (hw : p.waits = false) (hcell : P.cell = m.nextCell)
    (hP : P.checkpoint.isSome = true) (hS : S.waits = true) (hl : m'.live = m.live.filter (·.cell ≠ p.cell) ++ [P] ++ [S])
    (hE : ∀ k, below m' ops' k + isAt (some p.cell) k = below m ops k + isAt (some P.cell) k) : Chained m' ops' := by
  have hlt : p.cell < m.nextCell := hk.lt (hk.live _ hlive)
  have h0 : below m ops P.cell = 0 := hk.below_fresh (Nat.le_of_eq hcell.symm)
  have h1 : below m ops p.cell = 1 := h.called ⟨p, rest⟩ hlive hw
  have hPE := hE P.cell
  rw [h0, isAt_self, isAt_some_of_ne (show p.cell ≠ P.cell by rw [hcell]; exact Nat.ne_of_lt hlt)] at hPE
  refine ⟨fun k => ?_, fun G hG hwG => ?_, fun G hG hwG hpG hne => ?_⟩
  · have := hE k
    by_cases hk : P.cell = k
    · rw [← hk]
      exact Nat.le_of_eq hPE
    · rw [isAt_some_of_ne hk] at this
      have := h.le k
      omega
  · simp only [hl, List.mem_append, List.mem_singleton, List.mem_filter] at hG
    rcases hG with (⟨hG, hne⟩ | rfl) | rfl
    · have hGE := hE G.cell
      have := hk.lt (hk.live G hG)
      rw [h.called G hG hwG, isAt_some_of_ne (fun heq => of_decide_eq_true hne heq.symm), isAt_some_of_ne (by omega)] at hGE
      exact hGE
    · exact hPE
    · rw [hS] at hwG
      cases hwG
  · have hGE := hE G.cell
    by_cases hc : P.cell = G.cell
    · obtain rfl := (hk'.live P (by simp [hl])).unique hG hc
      rw [hpG] at hP
      cases hP
    · rw [isAt_some_of_ne hc] at hGE
      simp only [hl, List.mem_append, List.mem_filter]
      refine Or.inl (Or.inl ⟨h.live_of_below hk hx hG hwG hpG (by omega), decide_eq_true (fun heq => ?_)⟩)
      rw [heq, h1, isAt_self] at hGE
      rw [heq] at hne
      omega

theorem below_tok (k : Nat) (S : Susp) : S.tok.below k = isAt (parentCell S.parents) k := by
  cases hw : S.waits <;> simp [Susp.tok, hw, Tok.below, Tok.parent]

/-- The handle of a suspension is below what the suspension is below. -/
theorem total_below_handle (hk : Known m ops) (hS : m.Knows S) (input : Input) (k : Nat) :
    total (Tok.below k) (S.handle input).toks = isAt (parentCell S.parents) k := by
  have hasync := (hk.made _ _ hS).2.async
  cases input <;> cases hfl : S.flavour <;> simp [Susp.handle, hfl, Handle.toks, Tok.below, Tok.parent]
  · simp [hasync hfl, parentCell]
  · simp [hasync hfl, parentCell]

/-- The result of a child meets the suspension it is for. -/
theorem Chained.delivered_live {F : Susp} (h : Chained m ops) (hk : Known m ops) (hF : m.Knows F) (hw : F.waits = false)
    (hp : F.checkpoint = none) (hE : below m' ops' F.cell + total (Tok.below F.cell) [.result F] =
      below m ops F.cell + total (Tok.below F.cell) [.resolved F]) : F ∈ m.live := by
  simp only [total_cons, total_nil, Tok.below, Tok.parent, isAt_self, isAt_of_ne (hF.parentCell_self hk)] at hE
  exact h.live F hF hw hp (by omega)

/-- A checkpoint takes the place of a suspension that has not been resolved. -/
theorem Chained.copied_live {coro : Nat} {p : Frame} {rest : List Frame} {P : Susp} (h : Chained m ops) (hk : Known m ops)
    (hp : m.Knows ⟨p, rest⟩) (hw : p.waits = false) (hpc : p.checkpoint = none) (hcell : P.cell = m.nextCell) (hP : P.parents = rest)
    (hS : parentCell S.parents = some P.cell)
    (hE : below m' ops' p.cell +
        total (Tok.below p.cell) (.gen coro (p :: rest) :: if ⟨p, rest⟩ ∈ m.live then [.called ⟨p, rest⟩] else []) =
      below m ops p.cell + total (Tok.below p.cell) [.called P, .parked S]) : ⟨p, rest⟩ ∈ m.live := by
  by_contra hlive
  have hlt : p.cell < m.nextCell := hk.lt hp
  have hself : parentCell rest ≠ some p.cell := hp.parentCell_self hk
  rw [if_neg hlive] at hE
  simp only [total_cons, total_nil, Tok.below, Tok.parent, hP, hS, isAt_of_ne hself,
    isAt_some_of_ne (show P.cell ≠ p.cell by omega)] at hE
  rw [show parentCell (p :: rest) = some p.cell from rfl, isAt_self] at hE
  exact hlive (h.live ⟨p, rest⟩ hp hw hpc (show below m ops p.cell ≠ 0 by omega))

theorem Chained.turn (h : Chained m ops) (hk : Known m ops) (hr : Resolved m) (hsound : Sound m op) (hx : m.Extends m')
    (hk' : Known m' ops') (ht : Turn m op c m' old fresh)
    (hg : ∀ g, weigh g m' ops' + total g old = weigh g m ops + total g fresh) : Chained m' ops' := by
  have hE : ∀ k, below m' ops' k + total (Tok.below k) old = below m ops k + total (Tok.below k) fresh := fun k => hg (Tok.below k)
  cases ht with
  | keep hl _ => exact h.of_eq hk hx hE (fun F hF _ => hl ▸ hF) (fun F hF _ _ => hl ▸ hF)
  | ended coro parents hl _ _ =>
    refine h.of_eq hk hx (fun k => ?_) (fun F hF _ => hl ▸ hF) (fun F hF _ _ => hl ▸ hF)
    have := hE k
    cases parents <;> simp [resultToks, Tok.below, Tok.parent, parentCell] at this
    · omega
    · omega
  | asyncOver coro checkpoint hl _ _ =>
    refine h.of_eq hk hx (fun k => ?_) (fun F hF _ => hl ▸ hF) (fun F hF _ _ => hl ▸ hF)
    have := hE k
    cases checkpoint <;> simpa [Tok.below, Tok.parent] using this
  | drop coro ctx e o _ _ _ hl _ =>
    refine h.of_eq hk hx (fun k => ?_) (fun F hF _ => hl ▸ hF) (fun F hF _ _ => hl ▸ hF)
    simpa [Tok.below, Tok.parent] using hE k
  | fire S hS hw hl _ =>
    refine h.of_eq hk hx (fun k => ?_) (fun F hF _ => ?_) (fun F hF hwF hp => ?_)
    · have := hE k
      simp only [total_cons, total_nil, below_tok] at this
      exact Nat.add_right_cancel this
    · rw [hl] at hF
      exact (List.mem_filter.mp hF).1
    · rw [hl]
      refine List.mem_filter.mpr ⟨hF, decide_eq_true (fun heq => ?_)⟩
      obtain rfl := (hk.live F hF).unique (hk.live S hS) heq
      rcases hw with hw | ⟨hw, -⟩
      · simp [hwF] at hw
      · simp [hp] at hw
  | misfire S hS hlive hs hc _ _ => exact absurd (hsound S hS hs hc) hlive
  | park coro parents S hS hfl hl _ =>
    refine h.of_park hk hx hS.2.1 hl (fun k => ?_)
    have := hE k
    simp only [total_cons, total_nil, Tok.below, Tok.parent, hfl.2.2] at this
    exact Nat.add_right_cancel this
  | parkAsync coro checkpoint S hS hfl hl _ =>
    refine h.of_park hk hx hS.2.1 hl (fun k => ?_)
    have := hE k
    simp only [total_cons, total_nil, Tok.below, Tok.parent, hfl.2.2.1, parentCell, List.head?_nil, Option.map_none] at this
    exact Nat.add_right_cancel this
  | schedule S input hS hl _ =>
    refine h.of_eq hk hx (fun k => ?_) (fun F hF _ => hl ▸ hF) (fun F hF _ _ => hl ▸ hF)
    have := hE k
    rw [total_below_handle hk hS] at this
    simp only [total_cons, total_nil, Tok.below, Tok.parent] at this
    exact Nat.add_right_cancel this
  | replace w coro checkpoint _ hl _ =>
    refine h.of_eq hk hx (fun k => ?_) (fun F hF _ => hl ▸ hF) (fun F hF _ _ => hl ▸ hF)
    simpa [Tok.below, Tok.parent] using hE k
  | close w hl _ =>
    refine h.of_eq hk hx (fun k => ?_) (fun F hF _ => hl ▸ hF) (fun F hF _ _ => hl ▸ hF)
    simpa [Tok.below, Tok.parent] using hE k
  | call coro ctx parents F hF hl _ _ =>
    have hcell : F.cell = m.nextCell := by rw [hF]; rfl
    have hpar : F.parents = parents := by rw [hF]; rfl
    refine h.of_call hk hk' hx hcell hl (fun k => ?_)
    -- the new suspension takes the place of its coroutine, and the child is one more
    have := hE k
    simp only [total_cons, total_nil, Tok.below, Tok.parent, hpar] at this
    rw [show parentCell (F.toFrame :: parents) = some F.cell from rfl] at this
    omega
  | deliver F hF hw hl _ =>
    refine h.of_result F hk hx (fun k => ?_) (fun G hG _ => ?_) (fun G hG hne => ?_)
    · have := hE k
      simp only [total_cons, total_nil, Tok.below, Tok.parent] at this
      omega
    · rw [hl] at hG
      obtain ⟨hG, hne⟩ := List.mem_filter.mp hG
      exact ⟨hG, fun heq => of_decide_eq_true hne heq.symm⟩
    · rw [hl]
      exact List.mem_filter.mpr ⟨hG, decide_eq_true (Ne.symm hne)⟩
  | misdeliver F hF hlive hw hp _ _ => exact absurd (h.delivered_live hk hF hw hp (hE F.cell)) hlive
  | ignore F hF hw hc hl _ =>
    refine h.of_result F hk hx (fun k => ?_) (fun G hG _ => ?_) (fun G hG _ => hl ▸ hG)
    · have := hE k
      simp only [total_cons, total_nil, Tok.below, Tok.parent] at this
      omega
    · rw [hl] at hG
      refine ⟨hG, fun heq => ?_⟩
      -- a suspension that was resolved is not there any more
      obtain rfl := hF.unique (hk.live G hG) heq
      rw [hr.consumed hk hG (hk.sentinel_of_call hF hw)] at hc
      cases hc
  | copy w coro ctx p rest P S hp hw hpc _ hP hS hl _ =>
    have hcell : P.cell = m.nextCell := by rw [hP]; rfl
    have hPpar : P.parents = rest := by rw [hP]
    have hSpar : parentCell S.parents = some P.cell := by rw [hS]; rfl
    have hlive := h.copied_live hk hp hw hpc hcell hPpar hSpar (hE p.cell)
    refine h.of_copy hk hk' hx hlive hw hcell (by rw [hP]; rfl) (by rw [hS]; rfl) hl (fun k => ?_)
    have := hE k
    rw [if_pos hlive] at this
    simp only [total_cons, total_nil, Tok.below, Tok.parent, hPpar, hSpar] at this
    rw [show parentCell (p :: rest) = some p.cell from rfl] at this
    omega

theorem Chained.move (h : Chained m (A ++ op :: B)) (hk : Known m (A ++ op :: B)) (hr : Resolved m) (hsound : Sound m op)
    (hm : Move ws m op c m' new) : Chained m' (A ++ (new ++ B)) := by
  obtain ⟨old, fresh, ht, hb⟩ := hm.turn hk hr
  exact h.turn hk hr hsound hm.extends (hk.move hm) ht (fun g => weigh_step (hb g))

theorem Chained.call (h : Chained m ops) {l : Call} (hc : Started m l m' new) : Chained m' (ops ++ new) := by
  have hE : ∀ k, below m' (ops ++ new) k = below m ops k := by
    intro k
    rcases hc.turn ops with ⟨hg, -⟩ | ⟨t, ht, hg, -⟩
    · exact hg _
    · rcases ht with rfl | rfl
      · exact hg _
      · exact hg _
  obtain ⟨hs, ts, n, rfl⟩ := hc.exists_eq
  refine ⟨fun k => ?_, fun F hF hw => ?_, fun F hF hw hp hne => ?_⟩
  · rw [hE]
    exact h.le k
  · rw [hE]
    exact h.called F hF hw
  · rw [hE] at hne
    exact h.live F hF hw hp hne

end

/-- There is one token below a call, in every run in which no sentinel resolves its suspension a second time. -/
theorem chained_of_reach {ws : Nat → Waiter} {ok : Mem → List Op → Act Op Choice Call → Prop} {s : State Mem Op}
    (hsound : ∀ {s : State Mem Op}, (machine ws).Reach ok initial s → ∀ op c, ok s.mem s.ops (.exec op c) → Sound s.mem op)
    (h : (machine ws).Reach ok initial s) : Chained s.mem s.ops := by
  refine h.invariant_with
    (J := fun m ops => Known m ops ∧ Resolved m ∧ ∀ op c, ok m ops (.exec op c) → Sound m op)
    (fun h => ⟨known_of_reach h, resolved_of_reach h, hsound h⟩) ⟨fun _ => Nat.zero_le _, nofun, nofun⟩ ?_ ?_
  · exact fun m A op B c m' new hj ih hok he => ih.move hj.1 hj.2.1 (hj.2.2 op c hok) (exec_move he)
  · exact fun m ops l m' new _ ih _ hc => ih.call (call_started hc)

/-! ## The tokens of a coroutine -/

/-- The coroutine a token is of. -/
def Tok.coro : Tok → Option Nat
  | .gen coro _ | .async coro _ => some coro
  | .parked S | .called S | .resolved S => some S.coro
  | .result _ | .closing _ => none

/-- Whether a token is of a coroutine. -/
def Tok.isOf (k : Nat) (t : Tok) : Nat := isAt t.coro k

/-- The tokens of a coroutine. -/
def tokensOf (m : Mem) (ops : List Op) (k : Nat) : Nat := weigh (Tok.isOf k) m ops

/-- A coroutine has been started and has not finished. -/
def Mem.unfinished (m : Mem) (k : Nat) : Bool := decide (k < m.nextCoro) && !m.finished k

/-- A coroutine that has been started and has not finished has one token, and another number has none. -/
structure Continued (m : Mem) (ops : List Op) : Prop where
  tokens : ∀ k, tokensOf m ops k = (m.unfinished k).toNat
  started : ∀ k, m.finished k = true → k < m.nextCoro

/-- A throw handle of a task is run and the task yields. -/
def DropsYield : Act Op Choice Call → Prop
  | .exec (.run (.asyncThrow _ _ _)) (.out (.ret _)) | .exec (.run (.asyncThrow _ _ _)) (.out (.raise _)) => False
  | .exec (.run (.asyncThrow _ _ _)) _ => True
  | _ => False

section

variable {ws : Nat → Waiter} {m m' : Mem} {A B new ops ops' : List Op} {op : Op} {c : Choice} {S : Susp} {old fresh : List Tok}

theorem isOf_tok (k : Nat) (S : Susp) : S.tok.isOf k = isAt (some S.coro) k := by
  cases hw : S.waits <;> simp [Susp.tok, hw, Tok.isOf, Tok.coro]

theorem total_isOf_handle (S : Susp) (input : Input) (k : Nat) : total (Tok.isOf k) (S.handle input).toks = isAt (some S.coro) k := by
  cases input <;> cases hfl : S.flavour <;> simp [Susp.handle, hfl, Handle.toks, Tok.isOf, Tok.coro]

theorem Mem.SameTasks.unfinished (h : m.SameTasks m') (k : Nat) : m'.unfinished k = m.unfinished k := by
  rw [Mem.unfinished, h.1, h.2, ← Mem.unfinished]

/-- A coroutine that is over had its token. -/
theorem Continued.over (h : Continued m ops) {coro : Nat} (hf : m'.finished = Function.update m.finished coro true)
    (hn : m'.nextCoro = m.nextCoro) (hN : ∀ k, tokensOf m' ops' k + isAt (some coro) k = tokensOf m ops k) : Continued m' ops' := by
  have hcoro := hN coro
  rw [h.tokens coro, isAt_self] at hcoro
  have hun : m.unfinished coro = true := by
    by_contra hun
    rw [Bool.eq_false_iff.mpr hun] at hcoro
    simp at hcoro
  rw [hun] at hcoro
  have hlt : coro < m.nextCoro := by
    rw [Mem.unfinished, Bool.and_eq_true] at hun
    exact of_decide_eq_true hun.1
  refine ⟨fun k => ?_, fun k hk => ?_⟩ <;> by_cases hc : k = coro
  · subst hc
    rw [Mem.unfinished, hf, Function.update_self]
    simpa using hcoro
  · have := hN k
    rw [isAt_some_of_ne (Ne.symm hc), h.tokens k] at this
    rw [Mem.unfinished, hf, hn, Function.update_of_ne hc]
    exact this
  · rw [hc, hn]
    exact hlt
  · rw [hf, Function.update_of_ne hc] at hk
    rw [hn]
    exact h.started k hk

/-- A coroutine that is started gets its token. -/
theorem Continued.start (h : Continued m ops) (hf : m'.finished = m.finished) (hn : m'.nextCoro = m.nextCoro + 1)
    (hN : ∀ k, tokensOf m' ops' k = tokensOf m ops k + isAt (some m.nextCoro) k) : Continued m' ops' := by
  refine ⟨fun k => ?_, fun k hk => ?_⟩
  · rw [hN, h.tokens, Mem.unfinished, Mem.unfinished, hf, hn]
    by_cases hc : m.nextCoro = k
    · subst hc
      have hfin : m.finished m.nextCoro = false := Bool.eq_false_iff.mpr (fun hfin => Nat.lt_irrefl _ (h.started _ hfin))
      simp [hfin]
    · rw [isAt_some_of_ne hc, Nat.add_zero, decide_eq_decide.mpr (show k < m.nextCoro + 1 ↔ k < m.nextCoro by omega)]
  · rw [hf] at hk
    rw [hn]
    exact Nat.lt_succ_of_lt (h.started k hk)

theorem Continued.turn (h : Continued m ops) (hch : Chained m ops) (hk : Known m ops) (hsound : Sound m op)
    (hdrop : ¬DropsYield (.exec op c)) (ht : Turn m op c m' old fresh)
    (hg : ∀ g, weigh g m' ops' + total g old = weigh g m ops + total g fresh) : Continued m' ops' := by
  have hN : ∀ k, tokensOf m' ops' k + total (Tok.isOf k) old = tokensOf m ops k + total (Tok.isOf k) fresh := fun k => hg (Tok.isOf k)
  have hE : ∀ k, below m' ops' k + total (Tok.below k) old = below m ops k + total (Tok.below k) fresh := fun k => hg (Tok.below k)
  -- most turns move one token of one coroutine
  have same : m.SameTasks m' → (∀ k, total (Tok.isOf k) old = total (Tok.isOf k) fresh) → Continued m' ops' := by
    intro ht heq
    refine ⟨fun k => ?_, fun k hfin => ?_⟩
    · have := hN k
      rw [heq k] at this
      rw [ht.unfinished, ← h.tokens k]
      omega
    · rw [ht.1] at hfin
      rw [ht.2]
      exact h.started k hfin
  cases ht with
  | keep _ ht => exact same ht (fun _ => rfl)
  | call coro ctx parents F hF _ hf hn =>
    refine h.start hf hn (fun k => ?_)
    have := hN k
    have hco : F.coro = coro := by rw [hF]; rfl
    simp only [total_cons, total_nil, Tok.isOf, Tok.coro, hco] at this
    omega
  | ended coro parents _ hf hn =>
    refine h.over hf hn (fun k => ?_)
    have := hN k
    cases parents <;> simpa [resultToks, Tok.isOf, Tok.coro] using this
  | asyncOver coro checkpoint _ hf hn =>
    refine h.over hf hn (fun k => ?_)
    have := hN k
    cases checkpoint <;> simpa [Tok.isOf, Tok.coro] using this
  | drop coro ctx e o hop hc ho _ _ =>
    subst hop hc
    exact absurd (by cases o <;> simp_all [DropsYield]) hdrop
  | fire S _ _ _ ht =>
    refine same ht (fun k => ?_)
    rw [total_cons, total_nil, isOf_tok]
    rfl
  | misfire S hS hlive hs hc _ _ => exact absurd (hsound S hS hs hc) hlive
  | deliver F _ _ _ ht => exact same ht (fun k => by simp [Tok.isOf, Tok.coro])
  | misdeliver F hF hlive hw hp _ _ => exact absurd (hch.delivered_live hk hF hw hp (hE F.cell)) hlive
  | ignore F _ _ _ _ ht => exact same ht (fun k => by simp [Tok.isOf, Tok.coro])
  | copy w coro ctx p rest P S hp hw hpc _ hP hS _ ht =>
    have hlive := hch.copied_live hk hp hw hpc (by rw [hP]; rfl) (by rw [hP]) (by rw [hS]; rfl) (hE p.cell)
    have hPco : P.coro = p.coro := by rw [hP]; rfl
    have hSco : S.coro = coro := by rw [hS]; rfl
    refine same ht (fun k => ?_)
    rw [if_pos hlive]
    simp only [total_cons, total_nil, Tok.isOf, Tok.coro, hPco, hSco]
    omega
  | park coro parents S _ hfl _ ht => exact same ht (fun k => by simp [Tok.isOf, Tok.coro, hfl.2.1])
  | parkAsync coro checkpoint S _ hfl _ ht => exact same ht (fun k => by simp [Tok.isOf, Tok.coro, hfl.2.1])
  | schedule S input _ _ ht => exact same ht (fun k => by simp [total_isOf_handle, Tok.isOf, Tok.coro])
  | replace w coro checkpoint _ _ ht => exact same ht (fun k => by simp [Tok.isOf, Tok.coro])
  | close w _ ht => exact same ht (fun k => by simp [Tok.isOf, Tok.coro])

end

/-- A coroutine that has not finished has one token, in every run in which no sentinel resolves its suspension a second time and no task
yields when it is thrown into. -/
theorem continued_of_reach {ws : Nat → Waiter} {ok : Mem → List Op → Act Op Choice Call → Prop} {s : State Mem Op}
    (hsound : ∀ {s : State Mem Op}, (machine ws).Reach ok initial s → ∀ op c, ok s.mem s.ops (.exec op c) → Sound s.mem op)
    (hdrop : ∀ m ops a, ok m ops a → ¬DropsYield a) (h : (machine ws).Reach ok initial s) : Continued s.mem s.ops := by
  refine h.invariant_with
    (J := fun m ops => Chained m ops ∧ Known m ops ∧ Resolved m ∧ ∀ op c, ok m ops (.exec op c) → Sound m op)
    (fun h => ⟨chained_of_reach hsound h, known_of_reach h, resolved_of_reach h, hsound h⟩) ⟨fun _ => rfl, nofun⟩ ?_ ?_
  · rintro m A op B c m' new ⟨hch, hk, hr, hs⟩ ih hok he
    obtain ⟨old, fresh, ht, hb⟩ := (exec_move he).turn hk hr
    exact ih.turn hch hk (hs op c hok) (hdrop _ _ _ hok) ht (fun g => weigh_step (hb g))
  · intro m ops l m' new _ ih _ hc
    rcases (call_started hc).turn ops with ⟨hg, ht⟩ | ⟨t, ht, hg, hf, hn⟩
    · refine ⟨fun k => ?_, fun k hk => ?_⟩
      · rw [ht.unfinished, ← ih.tokens k]
        exact hg _
      · rw [ht.1] at hk
        rw [ht.2]
        exact ih.started k hk
    · refine ih.start hf hn (fun k => ?_)
      rcases ht with rfl | rfl
      · exact hg _
      · exact hg _

end Tonio.Runtime
