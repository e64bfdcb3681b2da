import YtScheduler.Clients.Contexts

/-! Programs built from decorated functions and wrappers, to any depth and with exceptions
raised and caught anywhere. As the code runs them, they set and reset the context variables
of their thread. They act as programs that set nothing, to which the current context and
the clients are handed down. -/

namespace YtScheduler.Clients

open Quoting Threads

/-- Code that gets its clients from decorators and wrappers. All its values are in `α`. -/
inductive Script (α : Type) : Type
  | ret (a : α)
  | raise (e : Exn)
  | bind (s : Script α) (next : α → Script α)
  | catching (s : Script α) (handler : Exn → Script α)
  /-- a statement through the parameter for the client -/
  | statement (request : ℕ) (next : ℕ → Script α)
  /-- a call of a function with a parameter for the client; `passes` if the caller gives its own -/
  | function (passes : Bool) (func : Script α)
  /-- a call of a function without such a parameter -/
  | procedure (func : Script α)
  /-- a call of a wrapper; the function is bound to it, or passed to it -/
  | wrapper (args : WrapperArgs) (bound passed : Bool) (func : Script α)

namespace Script

/-- The script as the code runs it. `param` is the parameter for the client in scope. -/
def prog : Script α → Option YtClient → Routine α
  | ret a, _ => .ret a
  | raise e, _ => .raise e
  | bind s next, param => (s.prog param).bind fun a => (next a).prog param
  | catching s handler, param => (s.prog param).catching fun e => (handler e).prog param
  | statement request next, param =>
    match param with
    | some c => (onClients (.use c request)).bind fun r => (next r).prog param
    | none => .raise .attributeError
  | function passes func, param =>
    withYtClient ⟨true, fun arg => func.prog arg⟩ (if passes then param else none)
  | procedure func, _ => withYtClient ⟨false, fun _ => func.prog none⟩ none
  | wrapper args bound passed func, param =>
    contextWrapper { args with func := if bound then some (some (func.prog param)) else none }
      (if passed then some (func.prog param) else none)

/-- A call of a method that `with_context` decorates; `context` is the wrapper of the object. -/
def method (context : Option WrapperArgs) (accepts : Bool) (func : Script α) : Script α :=
  let call := if accepts then function false func else procedure func
  match context with
  | none => call
  | some args => wrapper args false true call

theorem prog_method (context : Option WrapperArgs) (accepts : Bool) (func : Script α)
    (param : Option YtClient) :
    (method context accepts func).prog param =
      withContext (context.map fun args => { args with func := none })
        ⟨accepts, fun arg => func.prog (if accepts then arg else none)⟩ := by
  cases context <;> cases accepts <;> rfl

end Script

/-! ### Scopes -/

abbrev Scoped (α : Type) := Prog ClientOp ClientOp.Ret Exn α

/-- The arguments an agent asks for a client with. -/
def ClientAgent.key (agent : ClientAgent) (proxy path : Option Text) (ident : ℕ) : ClientKey :=
  ⟨true, orElse proxy agent.config.proxy, orElse path (some agent.config.defaultWorkDir), ident⟩

namespace Vars

/-- The scope of what is run within a context. -/
def within (v : Vars) (ctx : ClientContext) (c : YtClient) : Vars :=
  ⟨v.ident, some ctx, Function.update v.client ctx.jobId (some c)⟩

@[simp] theorem within_ident (v : Vars) (ctx : ClientContext) (c : YtClient) :
    (v.within ctx c).ident = v.ident := rfl

@[simp] theorem within_current (v : Vars) (ctx : ClientContext) (c : YtClient) :
    (v.within ctx c).current = some ctx := rfl

@[simp] theorem within_client (v : Vars) (ctx : ClientContext) (c : YtClient) :
    (v.within ctx c).client = Function.update v.client ctx.jobId (some c) := rfl

/-- The client of a function that is called in the scope. -/
def clientFor (v : Vars) : Scoped YtClient :=
  match v.current with
  | none => .op (ClientOp.createCached ⟨false, none, none, v.ident⟩)
  | some job =>
    match v.client job.jobId with
    | some c => .ret c
    | none => .op (ClientOp.createCached (job.agent.key none none v.ident))

/-- The context a wrapper runs its function in. -/
def contextOf (v : Vars) (args : WrapperArgs) : Option ClientContext := args.context.join.or v.current

end Vars

namespace Script

/-- The script in a scope: no variable is set, clients are handed down. -/
def inScope : Script α → Vars → Option YtClient → Scoped α
  | ret a, _, _ => .ret a
  | raise e, _, _ => .raise e
  | bind s next, v, param => (s.inScope v param).bind fun a => (next a).inScope v param
  | catching s handler, v, param =>
    (s.inScope v param).catching fun e => (handler e).inScope v param
  | statement request next, v, param =>
    match param with
    | some c => (Prog.op (ClientOp.use c request)).bind fun r => (next r).inScope v param
    | none => .raise .attributeError
  | function passes func, v, param =>
    (v.clientFor).bind fun c =>
      func.inScope v (some ((if passes then param else none).getD c))
  | procedure func, v, _ =>
    (v.clientFor).bind fun c =>
      match v.current with
      | none => func.inScope v none
      | some job => func.inScope (v.within job c) none
  | wrapper args bound passed func, v, param =>
    (v.contextOf args).elim (.raise .runtimeError) fun ctx =>
      if bound = passed then .raise .typeError
      else (Prog.op (ClientOp.createCached (ctx.agent.key args.proxy.join args.path.join v.ident))).bind fun c =>
        func.inScope (v.within ctx c) param

end Script

/-! ### Scripts act as in their scope -/

section Acting

variable {v : Vars} {p : Routine α} {q : Scoped α}

/-- With the variables `v`, `p` is `q`, and leaves the variables. -/
abbrev ActsIn (v : Vars) (p : Routine α) (q : Scoped α) : Prop :=
  p.ActsAs Vars.exec v q

theorem actsIn_onClients (o : ClientOp) : ActsIn v (onClients o) (Prog.op o) :=
  Prog.ActsAs.shared o

theorem actsIn_getIdent : ActsIn v (onVars .getIdent) (.ret v.ident) := rfl

/-- Looking a variable up that may not be set. -/
theorem actsIn_lookup {o : VarOp} {x : Option o.Ret}
    (h : v.exec o = (x.elim (.error .lookupError) .ok, v)) :
    ActsIn v (lookup (onVars o)) (.ret x) := by
  rw [ActsIn, Prog.ActsAs, lookup, Prog.catching, Prog.localize_bind, Prog.localize_attempt,
    Prog.localize_bind, onVars, Prog.localize_op, h]
  cases x <;> rfl

theorem actsIn_getCurrentContext : ActsIn v getCurrentContext (.ret v.current) :=
  actsIn_lookup rfl

theorem actsIn_getClient (jobId : ℕ) :
    ActsIn v (lookup (onVars (.getClient jobId))) (.ret (v.client jobId)) :=
  actsIn_lookup rfl

theorem actsIn_createClient (agent : ClientAgent) (proxy path : Option Text) :
    ActsIn v (agent.createClient proxy path)
      (Prog.op (ClientOp.createCached (agent.key proxy path v.ident))) :=
  .after actsIn_getIdent (actsIn_onClients _)

/-! ### Contexts -/

variable {ctx : ClientContext} {client : YtClient}

/-- What was set is reset, token by token. -/
theorem localize_exit (m : ClientContextManager) :
    Prog.localize Vars.exec v m.exit =
      .ret (.ok (), ⟨v.ident, m.ctxVarToken,
        m.clientVarToken.elim v.client (Function.update v.client m.ctx.jobId)⟩) := by
  rcases m with ⟨ctx, client, token, _ | clientToken⟩ <;> rfl

/-- Entering a context sets its client only where it is another one, which is the same. -/
theorem localize_enter (v : Vars) (ctx : ClientContext) (client : YtClient) : ∃ m : ClientContextManager,
    Prog.localize Vars.exec v (ClientContextManager.enter { ctx, client }) =
      .ret (.ok m, v.within ctx client) ∧
    Prog.localize Vars.exec (v.within ctx client) m.exit = .ret (.ok (), v) := by
  have hset : Prog.localize Vars.exec v (onVars (.setCurrent ctx)) =
      .ret (.ok v.current, { v with current := some ctx }) := rfl
  have hget := actsIn_getClient (v := { v with current := some ctx }) ctx.jobId
  by_cases h : v.client ctx.jobId = some client
  · have hv : v.within ctx client = { v with current := some ctx } := by
      rw [Vars.within, ← h, Function.update_eq_self]
    refine ⟨{ ctx, client, ctxVarToken := v.current }, ?_, ?_⟩
    · refine (Prog.localize_bind_ret hset).trans ((Prog.localize_bind_ret hget).trans ?_)
      rw [hv, if_neg (by simpa using h)]
      rfl
    · rw [hv, localize_exit]
      rfl
  · refine ⟨{ ctx, client, ctxVarToken := v.current, clientVarToken := some (v.client ctx.jobId) }, ?_, ?_⟩
    · refine (Prog.localize_bind_ret hset).trans ((Prog.localize_bind_ret hget).trans ?_)
      rw [if_pos h]
      rfl
    · rw [localize_exit]
      simp [Vars.within]

theorem ActsIn.within (h : ActsIn (v.within ctx client) p q) :
    ActsIn v (ClientContextManager.within { ctx, client } p) q := by
  obtain ⟨m, henter, hexit⟩ := localize_enter v ctx client
  rw [ActsIn, Prog.ActsAs] at h ⊢
  refine (Prog.localize_bind_ret henter).trans ?_
  rw [Prog.bind_eq, Prog.localize_bind, Prog.localize_attempt, h]
  simp only [Prog.bind_assoc, Prog.ret_bind]
  congr 1
  funext r
  refine (Prog.localize_bind_ret hexit).trans ?_
  cases r <;> rfl

/-! ### Decorated functions and wrappers -/

/-- The client a decorated function is called with. -/
theorem actsIn_withYtClient {func : YtFunc α} {arg : Option YtClient} {q : YtClient → Scoped α}
    (hq : ∀ c, ActsIn v (func.call v.current arg c) (q c)) :
    ActsIn v (withYtClient func arg) ((v.clientFor).bind q) := by
  refine .after actsIn_getCurrentContext ?_
  unfold Vars.clientFor
  cases hcur : v.current with
  | none =>
    rw [hcur] at hq
    refine .after (Prog.ActsAs.ret none) ?_
    exact .after actsIn_getIdent (.bind (actsIn_onClients _) hq)
  | some job =>
    rw [hcur] at hq
    refine .after (actsIn_getClient job.jobId) ?_
    simp only
    cases hc : v.client job.jobId with
    | none => exact .bind (actsIn_createClient job.agent none none) hq
    | some c => exact .after (Prog.ActsAs.ret c) (hq c)

theorem actsIn_runWithClient {proxy path : Option Text} {q : YtClient → Scoped α}
    (hq : ∀ c, ActsIn (v.within ctx c) p (q c)) :
    ActsIn v (runWithClient ctx p proxy path)
      ((Prog.op (ClientOp.createCached (ctx.agent.key proxy path v.ident))).bind q) :=
  .bind (actsIn_createClient ctx.agent proxy path) fun c => (hq c).within

/-- The context a wrapper calls its target in. -/
theorem actsIn_contextWrapper {bound : BoundArgs α} {func : Option (Routine α)} {q : ClientContext → Scoped α}
    (hq : ∀ ctx, ActsIn v (bound.target func ctx) (q ctx)) :
    ActsIn v (contextWrapper bound func)
      ((v.contextOf bound.toWrapperArgs).elim (.raise .runtimeError) q) := by
  unfold contextWrapper Vars.contextOf
  cases bound.context.join with
  | some ctx => exact .after (Prog.ActsAs.ret (some ctx)) (hq ctx)
  | none =>
    refine .after actsIn_getCurrentContext ?_
    cases v.current with
    | none => exact .raise Exn.runtimeError
    | some ctx => exact hq ctx

end Acting

namespace Script

/-- What a script does in its scope it does as the code runs it, and the variables are restored. -/
theorem prog_actsIn (s : Script α) (v : Vars) (param : Option YtClient) :
    ActsIn v (s.prog param) (s.inScope v param) := by
  induction s generalizing v param with
  | ret a => exact .ret a
  | raise e => exact .raise e
  | bind s next ih ihnext => exact .bind (ih v param) fun a => ihnext a v param
  | catching s handler ih ihhandler => exact .catching (ih v param) fun e => ihhandler e v param
  | statement request next ih =>
    cases param with
    | none => exact .raise Exn.attributeError
    | some c => exact .bind (actsIn_onClients _) fun r => ih r v (some c)
  | function passes func ih => exact actsIn_withYtClient fun c => ih v _
  | procedure func ih =>
    refine actsIn_withYtClient fun c => ?_
    cases hcur : v.current with
    | none => exact ih v none
    | some job => exact (ih (v.within job c) none).within
  | wrapper args bound passed func ih =>
    refine actsIn_contextWrapper fun ctx => ?_
    cases bound <;> cases passed
    · exact .raise Exn.typeError
    · exact actsIn_runWithClient fun c => ih (v.within ctx c) param
    · exact actsIn_runWithClient fun c => ih (v.within ctx c) param
    · exact .raise Exn.typeError

end Script

end YtScheduler.Clients
