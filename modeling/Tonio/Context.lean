import Tonio.Runtime

/-!
# The contexts of the tasks

`handles.rs` with the context option on: `PyGenCtxHandle`, `PyAsyncGenCtxHandle`, `PyGenCtxThrower` and `PyAsyncGenCtxThrower`, and
`_spawn_pygen` and `_spawn_pyasyncgen` of `runtime.rs`, on top of the machine of `Tonio.Runtime`. A task has a `Context` object, which its
spawn makes as a copy of the current one of the caller; the handles of its coroutines carry it. A send handle enters it around the
coroutine, a thrower enters a copy of it.

A coroutine, while it runs, sets variables, resets tokens and spawns tasks; reading a variable changes nothing. What it does is chosen by
the environment, as is what it yields. `ContextVar.set` and `ContextVar.reset` act on the current context. A token knows the context it
was made in, and is refused in another one.

The fields marked as records are not in the source: which task a coroutine belongs to (a task is numbered as its context), the values its
spawn copied, what the contexts were around each resumption, and which tokens were refused.
-/

namespace Tonio

namespace Context

open Interleaving
open Tonio.Runtime (Op Handle Flavour Input Out Waiter)

/-! ## Contexts -/

/-- The values of a context. -/
abbrev Vars := Nat → Option Nat

/-- `contextvars.Token`: the context and the variable, the value before, and whether it has been used. The last two fields are records: the
task that made it, and whether it did so when an exception was thrown into it. -/
structure Token where
  ctx : Nat
  var : Nat
  old : Option Nat
  used : Bool
  task : Nat
  thrown : Bool
  deriving DecidableEq, Repr

/-- A resumption of a coroutine of a task: by an exception or not, with the values of the current context when it starts and when it ends.
-/
structure Step where
  task : Nat
  throws : Bool
  before : Vars
  after : Vars

/-- The runtime and the `Context` objects. The last four fields are records; a refusal is a task and the token it could not reset because
of its context. -/
structure Mem where
  runtime : Runtime.Mem
  vars : Nat → Vars
  next : Nat
  tokens : List Token
  task : Nat → Nat
  start : Nat → Option Vars
  steps : List Step
  refusals : List (Nat × Nat)

/-- What a coroutine does with contexts while it runs. -/
inductive Use where
  | set (var value : Nat) | reset (token : Nat) | spawn (fl : Flavour)
  deriving DecidableEq, Repr

/-- What the environment decides: what a coroutine does, and what it yields; every other operation goes on. -/
inductive Choice where
  | go | out (o : Out) (uses : List Use)
  deriving DecidableEq, Repr

/-- What happens around: a spawn from outside of the tasks, by a thread whose current context has the values `vars`, and what else happens
around the runtime. -/
inductive Call where
  | spawn (fl : Flavour) (vars : Vars) | runtime (l : Runtime.Call)

/-- A new `Context` object. -/
def Mem.newContext (m : Mem) (vars : Vars) : Mem := { m with vars := Function.update m.vars m.next vars, next := m.next + 1 }

/-- `_spawn_pygen` and `_spawn_pyasyncgen`: `PyContext_CopyCurrent`, where the current context has the values `vars`. -/
def Mem.spawn (m : Mem) (fl : Flavour) (vars : Vars) : Option (Mem × List Op) :=
  (Runtime.call m.runtime (.spawn fl (some m.next))).map (fun r =>
    ({ m.newContext vars with
      runtime := r.1
      task := Function.update m.task m.runtime.nextCoro m.next
      start := Function.update m.start m.next (some vars) }, r.2))

/-- `ContextVar.set`, in the context `cur`. -/
def Mem.set (m : Mem) (task : Nat) (throws : Bool) (cur var value : Nat) : Mem :=
  { m with
    vars := Function.update m.vars cur (Function.update (m.vars cur) var (some value))
    tokens := m.tokens ++ [⟨cur, var, m.vars cur var, false, task, throws⟩] }

/-- `ContextVar.reset`, in the context `cur`: a `RuntimeError` for a used token, a `ValueError` for one of another context. The
`LookupError` for a variable that has no value to remove leaves it without one. -/
def Mem.reset (m : Mem) (task cur t : Nat) (token : Token) : Mem :=
  if token.used then m
  else if token.ctx ≠ cur then { m with refusals := m.refusals ++ [(task, t)] }
  else
    { m with
      vars := Function.update m.vars cur (Function.update (m.vars cur) token.var token.old)
      tokens := m.tokens.set t { token with used := true } }

/-- What a coroutine of a task does in the context `cur`. -/
def Mem.use (m : Mem) (task : Nat) (throws : Bool) (cur : Nat) : Use → Option (Mem × List Op)
  | .set var value => some (m.set task throws cur var value, [])
  | .reset t => (m.tokens[t]?).map (fun token => (m.reset task cur t token, []))
  | .spawn fl => m.spawn fl (m.vars cur)

def Mem.uses (m : Mem) (task : Nat) (throws : Bool) (cur : Nat) : List Use → Option (Mem × List Op)
  | [] => some (m, [])
  | u :: us =>
    match m.use task throws cur u with
    | some (m, new) => (m.uses task throws cur us).map (fun r => (r.1, new ++ r.2))
    | none => none

/-! ## Handles -/

/-- Whether a coroutine is resumed by an exception. -/
def throws : Input → Bool
  | .send _ => false
  | .throw _ => true

/-- The coroutine a handle resumes, its context, and whether it throws into it. -/
def resumes : Handle → Option (Nat × Option Nat × Bool)
  | .gen _ coro ctx input => some (coro, ctx, throws input)
  | .async _ coro ctx _ => some (coro, ctx, false)
  | .asyncThrow coro ctx _ => some (coro, ctx, true)
  | _ => none

/-- The resumption of a coroutine between `PyContext_Enter` and `PyContext_Exit`: a send handle enters the context it carries, a thrower
a copy of it (`PyContext_Copy`). -/
def Mem.resume (m : Mem) (coro ctx : Nat) (throws : Bool) (us : List Use) : Option (Mem × List Op) :=
  let cur := if throws then m.next else ctx
  let m := if throws then m.newContext (m.vars ctx) else m
  (m.uses (m.task coro) throws cur us).map (fun r =>
    ({ r.1 with steps := r.1.steps ++ [⟨m.task coro, throws, m.vars cur, r.1.vars cur⟩] }, r.2))

/-- Record that the generator a coroutine yields, the next coroutine of the runtime, belongs to its task. -/
def Mem.adopt (m : Mem) (coro : Nat) : Out → Mem
  | .yieldGen => { m with task := Function.update m.task m.runtime.nextCoro (m.task coro) }
  | _ => m

/-! ## The machine -/

/-- An operation of the runtime. -/
def Mem.lift (m : Mem) (r : Option (Runtime.Mem × List Op)) : Option (Mem × List Op) :=
  r.map (fun r => ({ m with runtime := r.1 }, r.2))

/-- What an operation does, given the waiters of the program. -/
def exec (ws : Nat → Waiter) (m : Mem) : Op → Choice → Option (Mem × List Op)
  | .run h, .out o us =>
    match resumes h with
    | some (coro, some ctx, throws) =>
      match m.resume coro ctx throws us with
      | some (m, spawned) =>
        ((m.adopt coro o).lift (Runtime.exec ws m.runtime (.run h) (.out o))).map (fun r => (r.1, spawned ++ r.2))
      | none => none
    | _ => none
  | op, .go => m.lift (Runtime.exec ws m.runtime op .go)
  | _, .out _ _ => none

/-- What happens around. -/
def call (m : Mem) : Call → Option (Mem × List Op)
  | .spawn fl vars => m.spawn fl vars
  | .runtime (.spawn _ _) => none
  | .runtime l => m.lift (Runtime.call m.runtime l)

/-- The runtime with contexts. -/
def machine (ws : Nat → Waiter) : Machine Mem Op Choice Call where
  exec := exec ws
  call := call

/-- Nothing has happened. -/
def initial : State Mem Op := ⟨⟨Runtime.Mem.empty, fun _ _ => none, 0, [], fun _ => 0, fun _ => none, [], []⟩, []⟩

/-! ## One context a task -/

/-- The resumptions of a task, in order. -/
def Mem.stepsOf (m : Mem) (t : Nat) : List Step := m.steps.filter (·.task = t)

/-- The values the last of some steps left, which started with the values `v`. -/
def left (v : Vars) : List Step → Vars
  | [] => v
  | step :: steps => left step.after steps

/-- Each step sees what the previous one left, and the first one the values `v`. -/
def OneContext (v : Vars) : List Step → Prop
  | [] => True
  | step :: steps => step.before = v ∧ OneContext step.after steps

/-- An exception is thrown into a task and leaves a variable changed, or a task resets a token that it made in an earlier resumption, and an
exception was thrown into it there or is here. -/
def Loses (m : Mem) : Act Op Choice Call → Prop
  | .exec (.run h) (.out _ us) =>
    match resumes h with
    | some (coro, some ctx, throws) =>
      (throws = true ∧ ∃ r ∈ (m.newContext (m.vars ctx)).uses (m.task coro) true m.next us, ∃ x, r.1.vars m.next x ≠ m.vars ctx x) ∨
      ∃ u ∈ us, ∃ t token, u = .reset t ∧ m.tokens[t]? = some token ∧ token.task = m.task coro ∧ token.used = false ∧
        (throws = true ∨ token.thrown = true)
    | _ => False
  | _ => False

end Context

end Tonio
