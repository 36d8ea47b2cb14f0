import Tonio.Resources.Program

/-!
# Sockets that are opened

`_net/_hilvl.py`, in both flavours: `open_unix_socket`, `open_tcp_listeners`, and `open_unix_listener` with `_unix_check_path` and
`_unix_bind`, as programs that hold their sockets. A call of the system may raise anything, a `CancelledError` where the task waits; a `close`
that raises has closed the socket. A path that is bound is held too, as the entry it leaves in the file system.
-/

namespace Tonio

namespace Listeners

open Resources

/-- An `OSError` with its number, a `ValueError`, and every other exception. -/
inductive Error where
  | osError (errno : Nat) (message : String) | valueError (message : String) | other (n : Nat)
  deriving DecidableEq, Repr

/-- `errno.EAFNOSUPPORT`. -/
def eafnosupport : Nat := 97

/-- `errno.EADDRINUSE`. -/
def eaddrinuse : Nat := 98

/-- The number of an `OSError`. -/
def Error.errno : Error → Option Nat
  | .osError errno _ => some errno
  | _ => none

/-- The family of an address that `getaddrinfo` has returned. -/
inductive Family where
  | inet | inet6 | other (n : Nat)
  deriving DecidableEq, Repr

/-- The variables of `open_tcp_listeners`. -/
structure Vars where
  listeners : List Nat
  unsupported : List Error

variable (S : System Error)

/-- `_close_on_error`. -/
def closeOnError {σ α : Type} (sock : Nat) (body : Program Error σ α) : Program Error σ α := onError body (release S sock)

/-- `_Socket.bind`: the address is resolved, and bound in a thread. -/
def bind {σ : Type} : Program Error σ Unit := do
  call S
  call S

/-- The options of a listening socket: `SO_REUSEADDR`, and `IPV6_V6ONLY`. -/
def setOptions {σ : Type} (family : Family) : Program Error σ Unit := do
  call S
  if family = .inet6 then call S

/-- The loop of `open_tcp_listeners`. -/
def addListener (family : Family) : Program Error Vars PUnit := do
  let sock ← tryCatch (some <$> acquire S) (fun e =>
    if e.errno = some eafnosupport then do
      assign (fun v => { v with unsupported := v.unsupported ++ [e] })
      pure none
    else throw e)
  match sock with
  | none => pure ()
  | some sock =>
    closeOnError S sock (do
      setOptions S family
      bind S
      -- `listen`
      call S
      assign (fun v => { v with listeners := v.listeners ++ [sock] }))

/-- What `open_tcp_listeners` says when the system supports none of the addresses. -/
def unsupportedMessage : String := "This system doesn't support any of the kinds of socket that provided address could use"

/-- `open_tcp_listeners`, for the families of the addresses that `getaddrinfo` returns. -/
def openTcpListeners (addresses : List Family) : Program Error Vars (List Nat) := do
  -- `getaddrinfo`
  call S
  onError (addresses.forM (addListener S)) (do
    let v ← vars
    releaseAll S v.listeners)
  let v ← vars
  if v.unsupported ≠ [] ∧ v.listeners = [] then throw (.osError eafnosupport unsupportedMessage) else pure v.listeners

/-- `open_unix_socket`. -/
def openUnixSocket : Program Error Unit Nat := do
  let sock ← acquire S
  closeOnError S sock (do
    -- `os.fspath`, and `connect`, which resolves the path
    call S
    call S
    call S)
  pure sock

/-- What `os.fspath` returns. -/
inductive Path where
  | str (s : String) | bytes (b : List UInt8)
  deriving DecidableEq, Repr

/-- A path without a character. -/
def Path.isEmpty : Path → Bool
  | .str s => s.isEmpty
  | .bytes b => b.isEmpty

/-- The name of an abstract socket, given as bytes. -/
def Path.isAbstract : Path → Bool
  | .str _ => false
  | .bytes b => b.head? == some 0

/-- `_unix_check_path`. -/
def unixCheckPath (path : Path) (mode : Option Nat) : Except Error Path :=
  if path.isEmpty then .error (.valueError "path must not be empty")
  else if mode.isSome && path.isAbstract then .error (.valueError "mode is not supported for abstract namespace sockets")
  else .ok path

/-- `suppress(OSError)`. -/
def suppress {σ : Type} (p : Program Error σ Unit) : Program Error σ Unit :=
  tryCatch p (fun e => if e.errno.isSome then pure () else throw e)

/-- `os.unlink`: the entry is gone if it does not raise. -/
def unlink {σ : Type} (entry : Nat) : Program Error σ Unit := do
  call S
  drop entry

/-- `_unix_bind`. -/
def unixBind {σ : Type} (inUse : String) (mode : Option Nat) : Program Error σ Nat := do
  let entry ← tryCatch (acquire S) (fun e => throw (if e.errno = some eaddrinuse then .osError eaddrinuse inUse else e))
  if mode.isSome then onError (call S) (suppress (unlink S entry))
  pure entry

/-- `open_unix_listener`: the socket, and the entry of its path. -/
def openUnixListener (path : Path) (inUse : String) (mode : Option Nat) : Program Error Unit (Nat × Nat) := do
  match unixCheckPath path mode with
  | .error e => throw e
  | .ok _ =>
    let sock ← acquire S
    let entry ← closeOnError S sock (do
      let entry ← unixBind S inUse mode
      -- `listen`
      call S
      pure entry)
    pure (sock, entry)

end Listeners

end Tonio
