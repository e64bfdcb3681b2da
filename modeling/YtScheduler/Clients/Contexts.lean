import Mathlib.Data.List.DropRight
import Mathlib.Logic.Function.Basic
import YtScheduler.Quoting.Conditions
import YtScheduler.Threads.Private

/-! Contexts and clients. A thread has context variables of its own: the context that is
current, and for every context the client it was last entered with. Clients are created
by a function whose results are cached, shared by all threads; which client a function
uses is decided by the variables of its thread, at the time it is called. -/

namespace YtScheduler.Clients

open Quoting Threads

/-- The arguments of `_create_client_cached`. Calls by position and by keyword are cached apart. -/
structure ClientKey where
  byKeyword : Bool
  proxy : Option Text
  path : Option Text
  threadId : ℕ
  deriving DecidableEq

/-- `yt.YtClient`: an object, and what it was created for. -/
structure YtClient where
  id : ℕ
  created : ClientKey
  deriving DecidableEq

/-- `Config`, as far as clients are concerned. -/
structure Config where
  proxy : Option Text
  defaultWorkDir : Text
  deriving DecidableEq

structure ClientAgent where
  config : Config
  deriving DecidableEq

/-- `client_var` is the context variable of `jobId`. -/
structure ClientContext where
  jobId : ℕ
  agent : ClientAgent
  deriving DecidableEq

inductive Exn
  | lookupError
  | runtimeError
  | typeError
  | attributeError
  | other (n : ℕ)
  deriving DecidableEq

/-! ### Context variables -/

/-- The identity of a thread and its context variables. -/
structure Vars where
  ident : ℕ
  current : Option ClientContext
  client : ℕ → Option YtClient

/-- A thread starts with no variable set. -/
def Vars.initial (ident : ℕ) : Vars := ⟨ident, none, fun _ => none⟩

/-- What a thread does on its own. A token is the value a variable had before it was set. -/
inductive VarOp
  | getCurrent
  | setCurrent (ctx : ClientContext)
  | resetCurrent (token : Option ClientContext)
  | getClient (jobId : ℕ)
  | setClient (jobId : ℕ) (client : YtClient)
  | resetClient (jobId : ℕ) (token : Option YtClient)
  | getIdent

@[reducible] def VarOp.Ret : VarOp → Type
  | .getCurrent => ClientContext
  | .setCurrent _ => Option ClientContext
  | .resetCurrent _ => Unit
  | .getClient _ => YtClient
  | .setClient _ _ => Option YtClient
  | .resetClient _ _ => Unit
  | .getIdent => ℕ

def Vars.exec (v : Vars) : (o : VarOp) → Except Exn o.Ret × Vars
  | .getCurrent => (v.current.elim (.error .lookupError) .ok, v)
  | .setCurrent ctx => (.ok v.current, { v with current := some ctx })
  | .resetCurrent token => (.ok (), { v with current := token })
  | .getClient jobId => ((v.client jobId).elim (.error .lookupError) .ok, v)
  | .setClient jobId c => (.ok (v.client jobId), { v with client := Function.update v.client jobId (some c) })
  | .resetClient jobId token => (.ok (), { v with client := Function.update v.client jobId token })
  | .getIdent => (.ok v.ident, v)

@[simp] theorem Vars.exec_ident (v : Vars) (o : VarOp) : (v.exec o).2.ident = v.ident := by
  cases o <;> rfl

/-! ### Shared operations -/

/-- What is seen by all threads: the cache of clients, and the statements made through them. -/
inductive ClientOp
  | createCached (key : ClientKey)
  | use (client : YtClient) (request : ℕ)

@[reducible] def ClientOp.Ret : ClientOp → Type
  | .createCached _ => YtClient
  | .use _ _ => ℕ

abbrev Routine (α : Type) := Prog (VarOp ⊕ ClientOp) (Both VarOp.Ret ClientOp.Ret) Exn α

def onVars (o : VarOp) : Routine o.Ret := Prog.op (Sum.inl o)

def onClients (o : ClientOp) : Routine o.Ret := Prog.op (Sum.inr o)

/-- `x if it can be looked up, else None`. -/
def lookup (p : Routine α) : Routine (Option α) :=
  (p.bind fun a => .ret (some a)).catching fun
    | .lookupError => .ret none
    | e => .raise e

def getCurrentContext : Routine (Option ClientContext) := lookup (onVars .getCurrent)

/-- `v or default` for a string: an empty one counts for none. -/
def orElse (v d : Option Text) : Option Text :=
  match v with
  | some (c :: cs) => some (c :: cs)
  | _ => d

/-- The proxy a client is given, if any. -/
def YtClient.proxy (c : YtClient) : Option Text := orElse c.created.proxy none

/-- The directory the paths of a client start from, if any: `prefix.rstrip("/") + "/"`. -/
def YtClient.root (c : YtClient) : Option Text :=
  (orElse c.created.path none).map fun p => p.rdropWhile (· = '/') ++ ['/']

/-- Slashes at the end of the path make no difference. -/
theorem YtClient.root_append_slashes {c d : YtClient} {p : Text} {n : ℕ} (hp : p ≠ [])
    (hc : c.created.path = some (p ++ List.replicate n '/')) (hd : d.created.path = some p) :
    c.root = d.root := by
  obtain ⟨x, p, rfl⟩ := List.exists_cons_of_ne_nil hp
  have hdrop : ∀ n, (x :: p ++ List.replicate n '/').rdropWhile (· = '/') = (x :: p).rdropWhile (· = '/') := by
    intro n
    induction n with
    | zero => simp
    | succ n ih =>
      rw [List.replicate_succ', ← List.append_assoc, List.rdropWhile_concat_pos _ _ _ (by simp)]
      exact ih
  rw [YtClient.root, YtClient.root, hc, hd]
  exact congrArg (fun q => some (q ++ ['/'])) (hdrop n)

namespace ClientAgent

def createClient (agent : ClientAgent) (proxy path : Option Text) : Routine YtClient := do
  let proxy := orElse proxy agent.config.proxy
  let path := orElse path (some agent.config.defaultWorkDir)
  onClients (.createCached ⟨true, proxy, path, ← onVars .getIdent⟩)

end ClientAgent

/-! ### Entering and leaving a context -/

/-- `_ClientContextManager`, with its tokens. -/
structure ClientContextManager where
  ctx : ClientContext
  client : YtClient
  ctxVarToken : Option ClientContext := none
  clientVarToken : Option (Option YtClient) := none

namespace ClientContextManager

def enter (m : ClientContextManager) : Routine ClientContextManager := do
  let token ← onVars (.setCurrent m.ctx)
  let m := { m with ctxVarToken := token }
  if (← lookup (onVars (.getClient m.ctx.jobId))) ≠ some m.client then
    let clientToken ← onVars (.setClient m.ctx.jobId m.client)
    return { m with clientVarToken := some clientToken }
  return m

def exit (m : ClientContextManager) : Routine Unit := do
  match m.clientVarToken with
  | some token => onVars (.resetClient m.ctx.jobId token)
  | none => pure ()
  onVars (.resetCurrent m.ctxVarToken)

/-- `with manager: body`. -/
def within (m : ClientContextManager) (body : Routine α) : Routine α := do
  let m ← m.enter
  let r ← body.attempt
  m.exit
  match r with
  | .ok a => return a
  | .error e => .raise e

end ClientContextManager

def runWithClient (context : ClientContext) (func : Routine α) (proxy path : Option Text) : Routine α := do
  let client ← context.agent.createClient proxy path
  ClientContextManager.within { ctx := context, client } func

/-! ### Wrappers -/

/-- The keyword arguments of a wrapper, a value `None` apart from none at all. -/
structure WrapperArgs where
  context : Option (Option ClientContext) := none
  proxy : Option (Option Text) := none
  path : Option (Option Text) := none

/-- The arguments a wrapper is bound to, with its function. -/
structure BoundArgs (α : Type) extends WrapperArgs where
  func : Option (Option (Routine α)) := none

/-- `wrapper.bind(**kwargs)`: what was bound before stays. -/
def BoundArgs.bind (bound kwargs : BoundArgs α) : BoundArgs α where
  context := bound.context.or kwargs.context
  proxy := bound.proxy.or kwargs.proxy
  path := bound.path.or kwargs.path
  func := bound.func.or kwargs.func

/-- The target function of a wrapper, called with the function given by the caller or bound. -/
def BoundArgs.target (bound : BoundArgs α) (func : Option (Routine α)) (context : ClientContext) : Routine α :=
  match func, bound.func with
  -- the function is given twice
  | some _, some _ => .raise .typeError
  | some func, none => runWithClient context func bound.proxy.join bound.path.join
  | none, some (some func) => runWithClient context func bound.proxy.join bound.path.join
  | none, _ => .raise .typeError

/-- `context_wrapper(**bound)(func)`. -/
def contextWrapper (bound : BoundArgs α) (func : Option (Routine α)) : Routine α := do
  let context ←
    match bound.context.join with
    | some context => pure (some context)
    | none => getCurrentContext
  match context with
  | none => .raise .runtimeError
  | some context => bound.target func context

/-- A wrapper that a function is bound to later, as the pool does, is called as with that function. -/
theorem contextWrapper_bind (args : WrapperArgs) (func : Routine α) :
    contextWrapper (BoundArgs.bind { args with func := none } { func := some (some func) }) none =
      contextWrapper { args with func := none } (some func) := by
  rcases args with ⟨_ | context, _ | proxy, _ | path⟩ <;> rfl

/-- A function to decorate: whether it has a parameter for the client, and its body. -/
structure YtFunc (α : Type) where
  acceptsClientParam : Bool
  body : Option YtClient → Routine α

/-- The call of the function, for the client that was found. -/
def YtFunc.call (func : YtFunc α) (job : Option ClientContext) (arg : Option YtClient)
    (client : YtClient) : Routine α :=
  if func.acceptsClientParam then
    func.body (some (arg.getD client))
  else
    match job with
    | none => func.body arg
    | some job => ClientContextManager.within { ctx := job, client } (func.body arg)

/-- `with_yt_client(func)(yt_client=arg)`. -/
def withYtClient (func : YtFunc α) (arg : Option YtClient) : Routine α := do
  let job ← getCurrentContext
  let client ←
    match job with
    | some job => lookup (onVars (.getClient job.jobId))
    | none => pure none
  let client ←
    match client, job with
    | some client, _ => pure client
    | none, some job => job.agent.createClient none none
    | none, none => onClients (.createCached ⟨false, none, none, ← onVars .getIdent⟩)
  func.call job arg client

/-- `with_context(func)` of an object with the given wrapper, if it has one. -/
def withContext (context : Option (BoundArgs α)) (func : YtFunc α) : Routine α :=
  match context with
  | none => withYtClient func none
  | some bound => contextWrapper bound (some (withYtClient func none))

end YtScheduler.Clients
