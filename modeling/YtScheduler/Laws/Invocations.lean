import YtScheduler.Retrying.Handlers
import YtScheduler.Laws.Backoff

/-! How often a wrapped call invokes its function. The wrapper calls the function once
before the retrier, which counts its own attempts from one, makes its first. -/

namespace YtScheduler.Retrying.Timed

variable {ε τ α : Type} [Exceptions ε τ]

/-- The wrapper gives an exception of its function to this retrier: it is an `Exception`, the
loggers are found, the handlers and the options come to a retry, and the options are accepted. -/
structure HandsOver (obj : Obj) (handlers : List (Handler ε τ α)) (defaults : RetryOptions ε τ α)
    (e : ε) (c : Retrier ε τ α) : Prop where
  exception : isinstance e [Exceptions.exception ε] = true
  debugs : obj.debugs = true
  retries : obj.retries = true
  retry : ∃ action, (scan e handlers none defaults).1 = .ok action ∧
    action.getD (defaultAction e (scan e handlers none defaults).2) = .retry
  accepted : Retrier.init (scan e handlers none defaults).2 = .ok c

variable {obj : Obj} {handlers : List (Handler ε τ α)} {defaults options : RetryOptions ε τ α} {e : ε}
  {c : Retrier ε τ α} {w : Surroundings ε α}

theorem Action.run_eq_retries {action : Action} :
    action.run obj e options = .retries c ↔
      action = .retry ∧ obj.retries = true ∧ Retrier.init options = .ok c := by
  cases action with
  | rethrow => simp [Action.run]
  | ignore => simp [Action.run]
  | retry =>
    by_cases hlog : obj.retries = true
    · cases hinit : Retrier.init options with
      | ok c' => simp [Action.run, hlog, hinit]
      | error b => simp [Action.run, hlog, hinit]
    · simp [Action.run, hlog]

theorem handle_eq_retries :
    (handle obj handlers defaults e).1 = .retries c ↔
      obj.debugs = true ∧ ∃ action, (scan e handlers none defaults).1 = .ok action ∧
        action.getD (defaultAction e (scan e handlers none defaults).2) = .retry ∧
        obj.retries = true ∧ Retrier.init (scan e handlers none defaults).2 = .ok c := by
  by_cases hdebug : obj.debugs = true
  · rw [handle, if_pos hdebug]
    cases haction : (scan e handlers none defaults).1 with
    | error b => simp [haction]
    | ok action => simp [haction, hdebug, Action.run_eq_retries]
  · rw [handle, if_neg hdebug]
    simp [hdebug]

theorem wrapper_eq_retries {outcome : Except ε α} :
    (wrapper obj handlers defaults outcome).1 = .retries c ↔
      ∃ e, outcome = .error e ∧ HandsOver obj handlers defaults e c := by
  cases outcome with
  | ok v => simp [wrapper]
  | error e =>
    simp only [Except.error.injEq, exists_eq_left']
    by_cases hexc : isinstance e [Exceptions.exception ε] = true
    · rw [wrapper, if_pos hexc, handle_eq_retries]
      constructor
      · rintro ⟨hdebug, action, haction, hretry, hlog, hinit⟩
        exact ⟨hexc, hdebug, hlog, ⟨action, haction, hretry⟩, hinit⟩
      · rintro ⟨-, hdebug, hlog, ⟨action, haction, hretry⟩, hinit⟩
        exact ⟨hdebug, action, haction, hretry, hlog, hinit⟩
    · rw [wrapper, if_neg hexc]
      constructor
      · rintro ⟨⟩
      · intro h
        exact absurd h.exception hexc

/-- A call makes one invocation before those of the retrier. -/
theorem atMost_retries {r : ℕ} :
    (Decision.retries c).AtMost w (r + 1) ↔ ¬∀ i < r, c.Goes w.later i := by
  rw [← Retrier.lt_callsAfter, Decision.AtMost, not_exists]
  simp only [Nat.add_le_add_iff_right, not_lt]

/-- A wrapped call makes at most `r + 1` invocations exactly when its function does not raise
exceptions that are retried at the first call and at each of the next `r`. -/
theorem invocations_at_most_iff (obj : Obj) (handlers : List (Handler ε τ α))
    (defaults : RetryOptions ε τ α) (w : Surroundings ε α) (r : ℕ) :
    (wrapper obj handlers defaults (w.outcome 0)).1.AtMost w (r + 1) ↔
      ¬∃ e c, w.outcome 0 = .error e ∧ HandsOver obj handlers defaults e c ∧
        ∀ i < r, c.Goes w.later i := by
  cases hdecision : (wrapper obj handlers defaults (w.outcome 0)).1 with
  | ends result =>
    constructor
    · rintro - ⟨e, c, he, hover, -⟩
      have hretries := wrapper_eq_retries.mpr ⟨e, he, hover⟩
      rw [hdecision] at hretries
      cases hretries
    · intro _
      exact Nat.succ_pos r
  | retries c =>
    obtain ⟨e, he, hover⟩ := wrapper_eq_retries.mp hdecision
    rw [atMost_retries, not_iff_not]
    constructor
    · intro hgo
      exact ⟨e, c, he, hover, hgo⟩
    · rintro ⟨e', c', he', hover', hgo⟩
      have hretries := wrapper_eq_retries.mpr ⟨e', he', hover'⟩
      rw [hdecision] at hretries
      cases hretries
      exact hgo

/-! ### Without handlers -/

theorem handsOver_nil :
    HandsOver obj [] defaults e c ↔ isinstance e [Exceptions.exception ε] = true ∧
      obj.debugs = true ∧ obj.retries = true ∧ defaults.isEmpty = false ∧
      defaults.exceptions.all (isinstance e) = true ∧ Retrier.init defaults = .ok c := by
  have hdefault : defaultAction e defaults = .retry ↔
      defaults.isEmpty = false ∧ defaults.exceptions.all (isinstance e) = true := by
    unfold defaultAction
    split_ifs with hempty hall
    · simp [hempty]
    · simp [hempty, hall]
    · simp [hempty, hall]
  constructor
  · rintro ⟨hexc, hdebug, hlog, ⟨action, haction, hretry⟩, hinit⟩
    cases haction
    obtain ⟨hempty, hall⟩ := hdefault.mp hretry
    exact ⟨hexc, hdebug, hlog, hempty, hall, hinit⟩
  · rintro ⟨hexc, hdebug, hlog, hempty, hall, hinit⟩
    exact ⟨hexc, hdebug, hlog, ⟨none, rfl, hdefault.mpr ⟨hempty, hall⟩⟩, hinit⟩

/-- Where the retries are `r`, none of the first `r` attempts of the retrier is its last. -/
theorem goes_iff_of_retries {r i : ℕ} (hinit : Retrier.init defaults = .ok c)
    (hr : defaults.retries = some (r : ℤ)) (hi : i < r) :
    c.Goes w i ↔ c.Retried w i ∧ sleepError w.longest (c.backoffAt i) = none := by
  have hattempts := Retrier.attempts_of_retries hinit hr (by omega)
  constructor
  · rintro ⟨hretried, -, hsleep⟩
    exact ⟨hretried, hsleep⟩
  · rintro ⟨hretried, hsleep⟩
    exact ⟨hretried, by omega, hsleep⟩

/-! ### Lock conflicts -/

/-- `TRANSIENT_LOCK_ERRORS`. -/
def transientLockErrors : List CallExceptionType :=
  [.lock .cypressTransactionLockConflict, .lock .tabletTransactionLockConflict,
    .lock .concurrentTransactionLockConflict, .lock .rowIsBlocked, .lock .blockedRowWaitTimeout]

/-- `_WRITE_ATOMIC_TRANSIENT_RETRY_OPTIONS`. -/
def writeAtomicTransientRetryOptions : RetryOptions CallException CallExceptionType ℕ :=
  makeTransientLockErrorsRetryOptions transientLockErrors
    { retries := some 2, raiseOnExhaust := true }

/-- A row that stays blocked, at a standing clock. -/
def alwaysBlocked : Surroundings CallException ℕ where
  outcome _ := .error (.lock .rowIsBlocked "")
  clock _ := 0
  longest := 9223372036

theorem one_call_too_many :
    ¬∀ (r : ℕ) (obj : Obj) (d : RetryOptions CallException CallExceptionType ℕ)
      (w : Surroundings CallException ℕ), d.retries = some (r : ℤ) → 1 ≤ r → obj.log ≠ .missing →
      (wrapper obj [] d (w.outcome 0)).1.AtMost w (r + 1) := by
  intro h
  have htwo := h 2 ⟨.logger, .missing⟩ writeAtomicTransientRetryOptions alwaysBlocked rfl
    (by decide) (by decide)
  have hgo := (atMost_retries (r := 2)).mp htwo
  apply hgo
  intro i hi
  refine ⟨⟨_, rfl, rfl, rfl⟩, ?_, ?_⟩
  · change (i + 1 : ℤ) ≠ 3
    omega
  · rw [Retrier.backoffAt_of_uncapped rfl, sleepError_eq_none]
    change 0 ≤ (1 / 2 : ℚ) * 2 ^ i ∧ (1 / 2 : ℚ) * 2 ^ i ≤ 9223372036
    obtain rfl | rfl : i = 0 ∨ i = 1 := by omega
    · norm_num
    · norm_num

end YtScheduler.Retrying.Timed
