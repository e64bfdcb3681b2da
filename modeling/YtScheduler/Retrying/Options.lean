import Mathlib.Data.Rat.Floor

/-! The options of a `Retrier` as the dict that they are: every key may be missing, and a
number may be any number. Seconds are rational numbers, and a `timedelta` is a
whole number of microseconds. -/

namespace YtScheduler.Retrying.Timed

/-- Exceptions `ε` and the types `τ` they are instances of. -/
class Exceptions (ε : Type) (τ : outParam Type) where
  isInstance : ε → τ → Bool
  exception : τ

variable {ε τ α : Type}

/-- `isinstance` with a tuple of types. -/
def isinstance [Exceptions ε τ] (e : ε) (types : List τ) : Bool :=
  types.any (Exceptions.isInstance e)

/-- The exceptions that the retry path raises itself. -/
inductive Builtin
  | assertionError
  | attributeError
  | overflowError
  | valueError
  deriving DecidableEq

/-- An exception that leaves a call: one that the function raised, or a new object. -/
inductive Raised (ε : Type)
  | own (e : ε)
  | new (b : Builtin)
  deriving DecidableEq

/-- What a call gives. The value `none` is Python's `None`. -/
abbrev Result (ε α : Type) := Except (Raised ε) (Option α)

inductive Timeout
  | seconds (seconds : ℚ)
  | timedelta (microseconds : ℤ)

/-- Rounding to the nearest integer, and to the even one of two. -/
def roundHalfEven (q : ℚ) : ℤ :=
  if q - ⌊q⌋ < 1 / 2 then ⌊q⌋
  else if 1 / 2 < q - ⌊q⌋ then ⌊q⌋ + 1
  else if ⌊q⌋ % 2 = 0 then ⌊q⌋ else ⌊q⌋ + 1

/-- `timedelta(seconds=seconds)`, of at most 999999999 days. -/
def timedelta (seconds : ℚ) : Except Builtin ℤ :=
  let microseconds := roundHalfEven (seconds * 1000000)
  let day : ℤ := 86400000000
  if -999999999 * day ≤ microseconds ∧ microseconds < 1000000000 * day then .ok microseconds
  else .error .overflowError

/-- `Timeout` as a number of microseconds. -/
def Timeout.microseconds : Timeout → Except Builtin ℤ
  | .seconds s => Timed.timedelta s
  | .timedelta t => .ok t

/-- `RetryOptions`. -/
structure RetryOptions (ε τ α : Type) where
  retries : Option ℤ := none
  attempts : Option ℤ := none
  initialBackoff : Option ℚ := none
  maxBackoff : Option (Option ℚ) := none
  totalTimeout : Option (Option Timeout) := none
  exceptions : Option (List τ) := none
  ignoreExceptions : Option (List τ) := none
  retryOn : Option (Option (ε → Bool)) := none
  raiseOnExhaust : Option Bool := none
  onExhaust : Option (Option (ε → Except ε (Option α))) := none

/-- The keyword arguments of `make_transient_lock_errors_retry_options`. -/
structure TransientKeywords (ε τ α : Type) where
  attempts : Option ℤ := none
  retries : Option ℤ := none
  initialBackoff : Option ℚ := none
  maxBackoff : Option ℚ := none
  totalTimeout : Option Timeout := none
  exceptionTypes : List τ := []
  ignoreExceptions : Option (List τ) := none
  retryOn : Option (ε → Bool) := none
  raiseOnExhaust : Bool := false
  onExhaust : Option (ε → Except ε (Option α)) := none

/-- Some keys are there in any case, the others only if they are given. -/
def makeTransientLockErrorsRetryOptions (transientLockErrors : List τ)
    (k : TransientKeywords ε τ α) : RetryOptions ε τ α where
  exceptions := some (transientLockErrors ++ k.exceptionTypes)
  maxBackoff := some k.maxBackoff
  totalTimeout := some k.totalTimeout
  retryOn := some k.retryOn
  raiseOnExhaust := some k.raiseOnExhaust
  onExhaust := some k.onExhaust
  retries := k.retries
  attempts := k.attempts
  initialBackoff := k.initialBackoff
  ignoreExceptions := k.ignoreExceptions

/-- A `Retrier` after `__init__`. -/
structure Retrier (ε τ α : Type) where
  exceptions : List τ
  ignoreExceptions : List τ
  attempts : ℤ
  initialBackoff : ℚ
  maxBackoff : Option {m : ℚ // m ≠ 0}
  retryOn : Option (ε → Bool)
  totalTimeout : Option ℤ
  raiseOnExhaust : Bool
  onExhaust : Option (ε → Except ε (Option α))

namespace RetryOptions

variable (o : RetryOptions ε τ α)

/-- The attempts default to one more than the retries, and these to one. -/
def totalAttempts : ℤ := o.attempts.getD (o.retries.getD 1 + 1)

/-- The first backoff, half a second by default. -/
def firstBackoff : ℚ := o.initialBackoff.getD (1 / 2)

/-- The value of `max_backoff`, unless it is missing or `None`. -/
def cap : Option ℚ := o.maxBackoff.join

end RetryOptions

namespace Retrier

/-- `__init__`: the assertion compares the attempts with retries that are given and not zero. A
`max_backoff` of zero counts as none. -/
def init [Exceptions ε τ] (o : RetryOptions ε τ α) : Except Builtin (Retrier ε τ α) := do
  if o.retries.any fun r => r ≠ 0 ∧ o.totalAttempts ≠ r + 1 then
    throw .assertionError
  let totalTimeout ← o.totalTimeout.join.mapM Timeout.microseconds
  return {
    exceptions := o.exceptions.getD [Exceptions.exception ε]
    ignoreExceptions := o.ignoreExceptions.getD []
    attempts := o.totalAttempts
    initialBackoff := o.firstBackoff
    maxBackoff := o.cap.bind fun m => if h : m ≠ 0 then some ⟨m, h⟩ else none
    retryOn := o.retryOn.join
    totalTimeout := totalTimeout
    raiseOnExhaust := o.raiseOnExhaust.getD true
    onExhaust := o.onExhaust.join }

variable [Exceptions ε τ] {o : RetryOptions ε τ α} {c : Retrier ε τ α}

/-- The values an accepted dict leaves in the retrier. -/
theorem init_ok (h : init o = .ok c) :
    ∃ t, o.totalTimeout.join.mapM Timeout.microseconds = .ok t ∧ c = {
      exceptions := o.exceptions.getD [Exceptions.exception ε]
      ignoreExceptions := o.ignoreExceptions.getD []
      attempts := o.totalAttempts
      initialBackoff := o.firstBackoff
      maxBackoff := o.cap.bind fun m => if h : m ≠ 0 then some ⟨m, h⟩ else none
      retryOn := o.retryOn.join
      totalTimeout := t
      raiseOnExhaust := o.raiseOnExhaust.getD true
      onExhaust := o.onExhaust.join } := by
  unfold init at h
  split at h
  · cases h
  · cases ht : o.totalTimeout.join.mapM Timeout.microseconds with
    | error b =>
      rw [ht] at h
      cases h
    | ok t =>
      rw [ht] at h
      cases h
      exact ⟨t, rfl, rfl⟩

/-- Retries that are given and not zero are one less than the attempts. -/
theorem attempts_of_retries {r : ℤ} (h : init o = .ok c) (hr : o.retries = some r) (hr0 : r ≠ 0) :
    c.attempts = r + 1 := by
  obtain ⟨t, -, rfl⟩ := init_ok h
  by_contra hne
  rw [init, hr, Option.any_some, if_pos (by simpa using ⟨hr0, hne⟩)] at h
  cases h

end Retrier

end YtScheduler.Retrying.Timed
