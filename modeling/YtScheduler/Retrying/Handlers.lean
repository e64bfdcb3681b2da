import YtScheduler.Retrying.Attempts

/-! The wrapper of `handle_exceptions` with its custom handlers. The default options are one
dict that all wrappers share, and a handler that matches writes its own options into
it; an empty or missing dict is replaced by a new one for each call. -/

namespace YtScheduler.Retrying.Timed

variable {ε τ α ι : Type}

namespace RetryOptions

/-- A dict without a key, which is false to Python. -/
def isEmpty (o : RetryOptions ε τ α) : Bool :=
  o.retries.isNone && o.attempts.isNone && o.initialBackoff.isNone && o.maxBackoff.isNone &&
    o.totalTimeout.isNone && o.exceptions.isNone && o.ignoreExceptions.isNone &&
    o.retryOn.isNone && o.raiseOnExhaust.isNone && o.onExhaust.isNone

/-- `dict.update`. -/
def update (o p : RetryOptions ε τ α) : RetryOptions ε τ α where
  retries := p.retries.or o.retries
  attempts := p.attempts.or o.attempts
  initialBackoff := p.initialBackoff.or o.initialBackoff
  maxBackoff := p.maxBackoff.or o.maxBackoff
  totalTimeout := p.totalTimeout.or o.totalTimeout
  exceptions := p.exceptions.or o.exceptions
  ignoreExceptions := p.ignoreExceptions.or o.ignoreExceptions
  retryOn := p.retryOn.or o.retryOn
  raiseOnExhaust := p.raiseOnExhaust.or o.raiseOnExhaust
  onExhaust := p.onExhaust.or o.onExhaust

@[simp] theorem update_empty (o : RetryOptions ε τ α) : o.update {} = o := by
  simp [update]

theorem update_assoc (o p q : RetryOptions ε τ α) : (o.update p).update q = o.update (p.update q) := by
  simp only [update, Option.or_assoc]

/-- Every key of `p` has the same value in `o`. -/
structure Within (p o : RetryOptions ε τ α) : Prop where
  retries : ∀ v, p.retries = some v → o.retries = some v
  attempts : ∀ v, p.attempts = some v → o.attempts = some v
  initialBackoff : ∀ v, p.initialBackoff = some v → o.initialBackoff = some v
  maxBackoff : ∀ v, p.maxBackoff = some v → o.maxBackoff = some v
  totalTimeout : ∀ v, p.totalTimeout = some v → o.totalTimeout = some v
  exceptions : ∀ v, p.exceptions = some v → o.exceptions = some v
  ignoreExceptions : ∀ v, p.ignoreExceptions = some v → o.ignoreExceptions = some v
  retryOn : ∀ v, p.retryOn = some v → o.retryOn = some v
  raiseOnExhaust : ∀ v, p.raiseOnExhaust = some v → o.raiseOnExhaust = some v
  onExhaust : ∀ v, p.onExhaust = some v → o.onExhaust = some v

theorem or_eq_right_iff {β : Type} {a b : Option β} : a.or b = b ↔ ∀ v, a = some v → b = some v := by
  cases a with
  | none => simp
  | some x => simp [eq_comm]

/-- An update changes nothing exactly when its keys are there already. -/
theorem update_eq_self_iff {o p : RetryOptions ε τ α} : o.update p = o ↔ p.Within o := by
  constructor
  · intro h
    have hkey : ∀ {β : Type} (field : RetryOptions ε τ α → Option β),
        field (o.update p) = (field p).or (field o) → ∀ v, field p = some v → field o = some v := by
      intro β field hfield
      rw [h] at hfield
      exact or_eq_right_iff.mp hfield.symm
    exact
      { retries := hkey retries rfl
        attempts := hkey attempts rfl
        initialBackoff := hkey initialBackoff rfl
        maxBackoff := hkey maxBackoff rfl
        totalTimeout := hkey totalTimeout rfl
        exceptions := hkey exceptions rfl
        ignoreExceptions := hkey ignoreExceptions rfl
        retryOn := hkey retryOn rfl
        raiseOnExhaust := hkey raiseOnExhaust rfl
        onExhaust := hkey onExhaust rfl }
  · intro h
    rw [update, or_eq_right_iff.mpr h.retries, or_eq_right_iff.mpr h.attempts,
      or_eq_right_iff.mpr h.initialBackoff, or_eq_right_iff.mpr h.maxBackoff,
      or_eq_right_iff.mpr h.totalTimeout, or_eq_right_iff.mpr h.exceptions,
      or_eq_right_iff.mpr h.ignoreExceptions, or_eq_right_iff.mpr h.retryOn,
      or_eq_right_iff.mpr h.raiseOnExhaust, or_eq_right_iff.mpr h.onExhaust]

end RetryOptions

/-- `_ExceptionAction`. -/
inductive Action
  | retry
  | rethrow
  | ignore
  deriving DecidableEq

/-- The action whose value a string is. -/
def Action.ofString : String → Option Action
  | "ignore" => some .ignore
  | "rethrow" => some .rethrow
  | "retry" => some .retry
  | _ => none

/-- What `set_handler` appends. -/
structure Handler (ε τ α : Type) where
  exceptionTypes : List τ
  retryOptions : RetryOptions ε τ α := {}
  exceptionAction : Option String := none

/-- An attribute of an object: missing, false, or a logger. -/
inductive Attribute
  | missing
  | none
  | logger
  deriving DecidableEq

/-- `args[0] if len(args) else None`, as far as its loggers go. -/
structure Obj where
  log : Attribute
  logger : Attribute
  deriving DecidableEq

namespace Obj

/-- The logger for `logger.debug` is there: it has a default for a missing attribute. -/
def debugs (obj : Obj) : Bool := obj.log = .logger || obj.logger ≠ .none

/-- The lookups of `_action_retry` raise nothing. The first has no default. -/
def retries (obj : Obj) : Bool :=
  obj.log = .logger || (obj.log = .none && obj.logger ≠ .missing)

/-- The lookups of `_action_ignore` raise nothing. -/
def ignores (obj : Obj) : Bool := obj.log = .logger || obj.logger ≠ .missing

end Obj

variable [Exceptions ε τ]

/-- The loop over the handlers: the action, unless the assertion fails, and the options that
`params["retry_options"]` then holds. -/
def scan (e : ε) : List (Handler ε τ α) → Option Action → RetryOptions ε τ α →
    Except Builtin (Option Action) × RetryOptions ε τ α
  | [], action, options => (.ok action, options)
  | h :: hs, action, options =>
    if isinstance e h.exceptionTypes then
      match h.exceptionAction with
      | none => scan e hs action (options.update h.retryOptions)
      | some name =>
        match Action.ofString name with
        | some action' => scan e hs (some action') (options.update h.retryOptions)
        | none => (.error .assertionError, options)
    else scan e hs action options

/-- The action where no handler has named one. -/
def defaultAction (e : ε) (options : RetryOptions ε τ α) : Action :=
  if options.isEmpty then .rethrow
  else if options.exceptions.all (isinstance e) then .retry
  else .rethrow

/-- What a wrapped call has come to when it no longer depends on the handlers: it has ended, or a
retrier takes over. -/
inductive Decision (ε τ α : Type)
  | ends (result : Result ε α)
  | retries (c : Retrier ε τ α)

def Action.run (obj : Obj) (e : ε) (options : RetryOptions ε τ α) : Action → Decision ε τ α
  | .retry =>
    if obj.retries then
      match Retrier.init options with
      | .ok c => .retries c
      | .error b => .ends (.error (.new b))
    else .ends (.error (.new .attributeError))
  | .rethrow => .ends (.error (.own e))
  | .ignore => .ends (if obj.ignores then .ok none else .error (.new .attributeError))

/-- `except Exception as exception`, with the default options after it. -/
def handle (obj : Obj) (handlers : List (Handler ε τ α)) (defaults : RetryOptions ε τ α) (e : ε) :
    Decision ε τ α × RetryOptions ε τ α :=
  if obj.debugs then
    let (action, options) := scan e handlers none defaults
    let decision := match action with
      | .ok action => (action.getD (defaultAction e options)).run obj e options
      | .error b => .ends (.error (.new b))
    (decision, if defaults.isEmpty then defaults else options)
  else (.ends (.error (.new .attributeError)), defaults)

/-- The wrapper up to the retrier, with the default options after it. -/
def wrapper (obj : Obj) (handlers : List (Handler ε τ α)) (defaults : RetryOptions ε τ α)
    (outcome : Except ε α) : Decision ε τ α × RetryOptions ε τ α :=
  match outcome with
  | .ok v => (.ends (.ok (some v)), defaults)
  | .error e =>
    if isinstance e [Exceptions.exception ε] then handle obj handlers defaults e
    else (.ends (.error (.own e)), defaults)

/-- What a retrier finds that starts after the first call. -/
def Surroundings.later (w : Surroundings ε α) : Surroundings ε α where
  outcome i := w.outcome (i + 1)
  clock i := w.clock (i + 1)
  longest := w.longest

namespace Decision

/-- The call ends with this result after so many calls of its function. -/
def CallEnds (w : Surroundings ε α) (result : Result ε α) (calls : ℕ) : Decision ε τ α → Prop
  | .ends r => r = result ∧ calls = 1
  | .retries c => ∃ f, c.Ends w.later f ∧ f.result = result ∧ calls = f.calls + 1

/-- The call invokes its function at most so often, ended or not. -/
def AtMost (w : Surroundings ε α) (calls : ℕ) : Decision ε τ α → Prop
  | .ends _ => 1 ≤ calls
  | .retries c => ∀ n, c.callsAfter w.later n + 1 ≤ calls

end Decision

end YtScheduler.Retrying.Timed
