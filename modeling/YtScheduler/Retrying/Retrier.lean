import Mathlib.Data.PNat.Defs
import Mathlib.Data.Rat.Defs
import Mathlib.Algebra.Order.Ring.Rat

/-! Calls that are repeated when they raise. A call is an action of a monad with
exceptions, so that one definition serves a call whose outcomes are given and a
call that is itself a program. How long the retrier sleeps between two calls is
left out; the time that passes is whatever `elapsed` reads. -/

namespace YtScheduler.Retrying

/-- The exceptions the retry path names. -/
class ExceptionTypes (ε : Type) where
  /-- Membership in `TRANSIENT_LOCK_ERRORS`. -/
  transientLockErrors : ε → Bool
  attributeError : ε
  assertionError : ε

open ExceptionTypes

variable {ε α : Type}

/-- `RetryOptions`. Fewer than one attempt is excluded by the type. -/
structure RetryOptions (ε α : Type) where
  retries : Option ℕ := none
  attempts : Option ℕ+ := none
  totalTimeout : Option ℚ := none
  exceptions : ε → Bool := fun _ => true
  ignoreExceptions : ε → Bool := fun _ => false
  retryOn : Option (ε → Bool) := none
  raiseOnExhaust : Bool := true
  onExhaust : Option (ε → α) := none

/-- The keyword arguments of `make_transient_lock_errors_retry_options`. -/
structure TransientKeywords (ε α : Type) where
  attempts : Option ℕ+ := none
  retries : Option ℕ := none
  totalTimeout : Option ℚ := none
  exceptionTypes : ε → Bool := fun _ => false
  ignoreExceptions : ε → Bool := fun _ => false
  retryOn : Option (ε → Bool) := none
  raiseOnExhaust : Bool := false
  onExhaust : Option (ε → α) := none

def makeTransientLockErrorsRetryOptions [ExceptionTypes ε] (k : TransientKeywords ε α) :
    RetryOptions ε α where
  retries := k.retries
  attempts := k.attempts
  totalTimeout := k.totalTimeout
  exceptions e := transientLockErrors e || k.exceptionTypes e
  ignoreExceptions := k.ignoreExceptions
  retryOn := k.retryOn
  raiseOnExhaust := k.raiseOnExhaust
  onExhaust := k.onExhaust

/-- A `Retrier` after `__init__`. -/
structure Retrier (ε α : Type) where
  exceptions : ε → Bool
  ignoreExceptions : ε → Bool
  attempts : ℕ+
  retryOn : Option (ε → Bool)
  totalTimeout : Option ℚ
  raiseOnExhaust : Bool
  onExhaust : Option (ε → α)

namespace Retrier

/-- `__init__`: the attempts default to one more than the retries, and its assertion fails
when retries that are not zero disagree with the attempts. -/
def init (o : RetryOptions ε α) : Option (Retrier ε α) :=
  let attempts := o.attempts.getD ⟨o.retries.getD 1 + 1, Nat.succ_pos _⟩
  if o.retries.all fun r => r = 0 || (attempts : ℕ) = r + 1 then
    some
      { exceptions := o.exceptions
        ignoreExceptions := o.ignoreExceptions
        attempts := attempts
        retryOn := o.retryOn
        totalTimeout := o.totalTimeout
        raiseOnExhaust := o.raiseOnExhaust
        onExhaust := o.onExhaust }
  else none

theorem init_of_retries {o : RetryOptions ε α} {r : ℕ} (hr : o.retries = some r)
    (ha : o.attempts = none) :
    init o = some
      { exceptions := o.exceptions
        ignoreExceptions := o.ignoreExceptions
        attempts := ⟨r + 1, Nat.succ_pos r⟩
        retryOn := o.retryOn
        totalTimeout := o.totalTimeout
        raiseOnExhaust := o.raiseOnExhaust
        onExhaust := o.onExhaust } := by
  have hattempts : o.attempts.getD ⟨o.retries.getD 1 + 1, Nat.succ_pos _⟩ =
      ⟨r + 1, Nat.succ_pos r⟩ := by
    rw [ha]
    exact PNat.eq (by rw [hr]; rfl)
  rw [init, hattempts, hr]
  exact if_pos (by simp)

/-- The exceptions `run` lets through. -/
def passes (c : Retrier ε α) (e : ε) : Bool :=
  !c.exceptions e || c.ignoreExceptions e || c.retryOn.any fun p => !p e

variable {m : Type → Type} [Monad m] [MonadExceptOf ε m]

/-- What `run` does with the last exception. The result `none` is Python's `None`. -/
def exhausted (c : Retrier ε α) (e : ε) : m (Option α) :=
  match c.onExhaust with
  | some onExhaust => pure (some (onExhaust e))
  | none => if c.raiseOnExhaust then throw e else pure none

/-- The loop of `run` with `left` further attempts after this one. -/
def loop (c : Retrier ε α) (elapsed : m ℚ) (fn : m α) : ℕ → m (Option α)
  | 0 => tryCatch (some <$> fn) fun e => if c.passes e then throw e else c.exhausted e
  | left + 1 => tryCatch (some <$> fn) fun e =>
      if c.passes e then throw e
      else
        match c.totalTimeout with
        | some limit => do
          if limit < (← elapsed) then c.exhausted e else loop c elapsed fn left
        | none => loop c elapsed fn left

def run (c : Retrier ε α) (elapsed : m ℚ) (fn : m α) : m (Option α) :=
  c.loop elapsed fn (c.attempts - 1)

end Retrier

/-- The retrier of options that give the retries and what happens at the end. -/
def transientRetrier [ExceptionTypes ε] (retries : ℕ) (raiseOnExhaust : Bool)
    (onExhaust : Option (ε → α)) : Retrier ε α where
  exceptions e := transientLockErrors e || false
  ignoreExceptions _ := false
  attempts := ⟨retries + 1, Nat.succ_pos _⟩
  retryOn := none
  totalTimeout := none
  raiseOnExhaust := raiseOnExhaust
  onExhaust := onExhaust

theorem init_transient [ExceptionTypes ε] (retries : ℕ) (raiseOnExhaust : Bool)
    (onExhaust : Option (ε → α)) :
    Retrier.init (makeTransientLockErrorsRetryOptions
      { retries := some retries, raiseOnExhaust := raiseOnExhaust, onExhaust := onExhaust }) =
      some (transientRetrier retries raiseOnExhaust onExhaust) :=
  Retrier.init_of_retries rfl rfl

/-- A positional or keyword argument the clients pass. -/
inductive Arg
  | str (s : String)
  | list (ids : List ℕ)
  | row (runId : ℕ)

/-- `getattr(arg, "log")` finds a logger: rows inherit one. -/
def Arg.hasLog : Arg → Bool
  | .row _ => true
  | _ => false

structure Args where
  positional : List Arg
  keyword : List (String × Arg)

/-- `getattr(obj, "log")` for `obj = args[0] if len(args) else None`. -/
def Args.hasLog (args : Args) : Bool := args.positional.head?.any Arg.hasLog

section Wrapper

variable {m : Type → Type} [Monad m] [MonadExceptOf ε m] [ExceptionTypes ε]

/-- `_action_retry`: the logger is looked up on the first positional argument, without a
default. -/
def actionRetry (options : RetryOptions ε α) (elapsed : m ℚ) (fn : Args → m α) (args : Args) :
    m (Option α) :=
  if args.hasLog then
    match Retrier.init options with
    | some c => c.run elapsed (fn args)
    | none => throw (assertionError : ε)
  else throw (attributeError : ε)

/-- The wrapper of `handle_exceptions` without custom handlers. -/
def handleExceptions (defaultRetryOptions : Option (RetryOptions ε α)) (elapsed : m ℚ)
    (fn : Args → m α) (args : Args) : m (Option α) :=
  tryCatch (some <$> fn args) fun e =>
    match defaultRetryOptions with
    | some options =>
      if options.exceptions e then actionRetry options elapsed fn args else throw e
    | none => throw e

end Wrapper

/-! ### Calls with given outcomes -/

/-- Calls that are counted. -/
abbrev Counted (ε : Type) : Type → Type := ExceptT ε (StateM ℕ)

/-- The call number `n` has the outcome `outcomes n`. -/
def scripted (outcomes : ℕ → Except ε α) : Counted ε α := fun n => (outcomes n, n + 1)

variable {outcomes : ℕ → Except ε α} {n : ℕ}

theorem scripted_ok {f : ε → Counted ε (Option α)} {v : α} (h : outcomes n = .ok v) :
    (tryCatch (some <$> scripted outcomes) f : Counted ε (Option α)) n = (.ok (some v), n + 1) := by
  simp only [tryCatch, tryCatchThe, MonadExceptOf.tryCatch, ExceptT.tryCatch, ExceptT.mk, scripted,
    Functor.map, ExceptT.map, bind, StateT.bind, h]
  rfl

theorem scripted_error {f : ε → Counted ε (Option α)} {e : ε} (h : outcomes n = .error e) :
    (tryCatch (some <$> scripted outcomes) f : Counted ε (Option α)) n = f e (n + 1) := by
  simp only [tryCatch, tryCatchThe, MonadExceptOf.tryCatch, ExceptT.tryCatch, ExceptT.mk, scripted,
    Functor.map, ExceptT.map, bind, StateT.bind, h]
  rfl

/-- A call that raises one of the exceptions of the options is taken over by the retrier, if
there is a logger. -/
theorem handleExceptions_retry [ExceptionTypes ε] {options : RetryOptions ε α} {c : Retrier ε α}
    {elapsed : Counted ε ℚ} {args : Args} {e : ε} (he : outcomes n = .error e)
    (hexc : options.exceptions e = true) (hinit : Retrier.init options = some c) :
    handleExceptions (some options) elapsed (fun _ => scripted outcomes) args n =
      if args.hasLog then c.run elapsed (scripted outcomes) (n + 1)
      else (.error attributeError, n + 1) := by
  rw [handleExceptions, scripted_error he]
  simp only [hexc, if_true, actionRetry, hinit]
  split_ifs <;> rfl

namespace Retrier

variable {c : Retrier ε α} {g : Counted ε ℚ} {k left : ℕ}

/-- An attempt that raises is followed by the next one. -/
theorem loop_next {e : ε} (hlimit : c.totalTimeout = none) (he : outcomes n = .error e)
    (hpass : c.passes e = false) :
    c.loop g (scripted outcomes) (left + 1) n =
      c.loop g (scripted outcomes) left (n + 1) := by
  rw [loop, scripted_error he, hpass, hlimit]
  rfl

/-- The retrier returns the first value that is returned within its attempts, when no exception
before it passes and no time limit is set. -/
theorem loop_ok {v : α} (hlimit : c.totalTimeout = none) (hk : k ≤ left)
    (herr : ∀ i < k, ∃ e, outcomes (n + i) = .error e ∧ c.passes e = false)
    (hv : outcomes (n + k) = .ok v) :
    c.loop g (scripted outcomes) left n = (.ok (some v), n + k + 1) := by
  induction k generalizing n left with
  | zero => cases left <;> exact scripted_ok hv
  | succ k ih =>
    obtain ⟨e, he, hpass⟩ := herr 0 (by omega)
    rw [Nat.add_zero] at he
    obtain ⟨left, rfl⟩ : ∃ l, left = l + 1 := ⟨left - 1, by omega⟩
    have hshift : ∀ i, n + 1 + i = n + (i + 1) := fun i => by omega
    rw [loop_next hlimit he hpass]
    rw [ih (by omega) (fun i hi => by rw [hshift]; exact herr (i + 1) (by omega))
      (by rw [hshift]; exact hv), hshift]

/-- When every call raises, the last exception is the one that exhausts the retrier. -/
theorem loop_exhausted (hlimit : c.totalTimeout = none)
    (herr : ∀ i ≤ left, ∃ e, outcomes (n + i) = .error e ∧ c.passes e = false) :
    ∃ e, outcomes (n + left) = .error e ∧
      c.loop g (scripted outcomes) left n =
        (c.exhausted e : Counted ε (Option α)) (n + left + 1) := by
  induction left generalizing n with
  | zero =>
    obtain ⟨e, he, hpass⟩ := herr 0 le_rfl
    rw [Nat.add_zero] at he
    exact ⟨e, he, by rw [loop, scripted_error he, hpass]; rfl⟩
  | succ left ih =>
    obtain ⟨e₀, he₀, hpass⟩ := herr 0 (by omega)
    rw [Nat.add_zero] at he₀
    have hshift : ∀ i, n + 1 + i = n + (i + 1) := fun i => by omega
    obtain ⟨e, he, hloop⟩ := ih (n := n + 1)
      (fun i hi => by rw [hshift]; exact herr (i + 1) (by omega))
    rw [hshift] at he hloop
    exact ⟨e, he, by rw [loop_next hlimit he₀ hpass, hloop]⟩

end Retrier

end YtScheduler.Retrying
