import YtScheduler.Retrying.Retrier
import YtScheduler.System.Op

/-! Transient lock errors under `handle_exceptions`. A transient error leads to the
retrier only by way of the logger of the first positional argument, so a call is
retried exactly when that argument is a row. -/

namespace YtScheduler

open Retrying

/-- The classes of `TRANSIENT_LOCK_ERRORS`. -/
inductive LockErrorClass
  | cypressTransactionLockConflict
  | tabletTransactionLockConflict
  | concurrentTransactionLockConflict
  | rowIsBlocked
  | blockedRowWaitTimeout

/-- An exception of a wrapped call or of the wrapper. -/
inductive CallException
  | lock (cls : LockErrorClass) (message : String)
  | attributeError
  | assertionError
  | other (message : String)

def CallException.transient : CallException → Bool
  | .lock _ _ => true
  | _ => false

instance : ExceptionTypes CallException where
  transientLockErrors := CallException.transient
  attributeError := .attributeError
  assertionError := .assertionError

namespace Retrying

variable {α : Type}

/-- The outcome is a transient lock error. -/
def IsTransient (o : Except CallException α) : Prop := ∃ e, o = .error e ∧ e.transient = true

/-- What the wrapped call gives, for a function with the given outcomes. -/
def wrapped (retries : ℕ) (raiseOnExhaust : Bool) (onExhaust : Option (CallException → α))
    (args : Args) (elapsed : Counted CallException ℚ) (outcomes : ℕ → Except CallException α) :
    Except CallException (Option α) :=
  (handleExceptions (some (makeTransientLockErrorsRetryOptions
    { retries := some retries, raiseOnExhaust := raiseOnExhaust, onExhaust := onExhaust }))
    elapsed (fun _ => scripted outcomes) args 0).1

/-- Transient errors of the first calls are retried, and an exhausted call ends the way
`on_exhaust` says. -/
structure RetriesTransient (retries : ℕ) (raiseOnExhaust : Bool)
    (onExhaust : Option (CallException → α)) (args : Args) : Prop where
  returns : ∀ elapsed outcomes k v, 1 ≤ k → k ≤ retries → (∀ i < k, IsTransient (outcomes i)) →
    outcomes k = .ok v →
    wrapped retries raiseOnExhaust onExhaust args elapsed outcomes = .ok (some v)
  exhausts : ∀ elapsed outcomes, (∀ i, IsTransient (outcomes i)) →
    ∃ i e, outcomes i = .error e ∧
      wrapped retries raiseOnExhaust onExhaust args elapsed outcomes =
        match onExhaust with
        | some onExhaust => .ok (some (onExhaust e))
        | none => .error e

variable {retries : ℕ} {raiseOnExhaust : Bool} {onExhaust : Option (CallException → α)} {args : Args}
  {elapsed : Counted CallException ℚ} {outcomes : ℕ → Except CallException α}

theorem passes_transientRetrier {e : CallException} (h : e.transient = true) :
    (transientRetrier retries raiseOnExhaust onExhaust).passes e = false := by
  simp [Retrier.passes, transientRetrier, ExceptionTypes.transientLockErrors, h]

theorem hasLog_iff : args.hasLog = true ↔ ∃ runId, args.positional.head? = some (.row runId) := by
  rw [Args.hasLog]
  cases args.positional.head? with
  | none => simp
  | some arg => cases arg <;> simp [Arg.hasLog]

/-- A first transient error leads into the retrier if the first positional argument has a
logger, and to an `AttributeError` otherwise. -/
theorem wrapped_of_transient (h : IsTransient (outcomes 0)) :
    wrapped retries raiseOnExhaust onExhaust args elapsed outcomes =
      if args.hasLog then
        ((transientRetrier retries raiseOnExhaust onExhaust).loop elapsed
          (scripted outcomes) retries 1).1
      else .error .attributeError := by
  obtain ⟨e, he, htrans⟩ := h
  have hexc : (makeTransientLockErrorsRetryOptions
      { retries := some retries, raiseOnExhaust := raiseOnExhaust,
        onExhaust := onExhaust }).exceptions e = true :=
    Bool.or_eq_true_iff.mpr (Or.inl htrans)
  rw [wrapped, handleExceptions_retry he hexc (init_transient _ _ _)]
  split_ifs <;> rfl

/-- A call without a logger to look up fails with the first transient error. -/
theorem wrapped_of_not_hasLog (hlog : ¬args.hasLog = true) (h : IsTransient (outcomes 0)) :
    wrapped retries raiseOnExhaust onExhaust args elapsed outcomes = .error .attributeError := by
  rw [wrapped_of_transient h, if_neg hlog]

theorem wrapped_returns (hlog : args.hasLog = true) {k : ℕ} {v : α} (h1 : 1 ≤ k) (hk : k ≤ retries)
    (herr : ∀ i < k, IsTransient (outcomes i)) (hv : outcomes k = .ok v) :
    wrapped retries raiseOnExhaust onExhaust args elapsed outcomes = .ok (some v) := by
  have hshift : ∀ i, 1 + i < k → ∃ e, outcomes (1 + i) = .error e ∧
      (transientRetrier retries raiseOnExhaust onExhaust).passes e = false := by
    intro i hi
    obtain ⟨e, he, htrans⟩ := herr (1 + i) hi
    exact ⟨e, he, passes_transientRetrier htrans⟩
  rw [wrapped_of_transient (herr 0 h1), if_pos hlog,
    Retrier.loop_ok (k := k - 1) (v := v) rfl (by omega) (fun i hi => hshift i (by omega))
      (by rwa [show 1 + (k - 1) = k by omega])]

variable (elapsed) in
/-- What a call gives that raises a transient error each time it is made. -/
theorem wrapped_exhausted (hlog : args.hasLog = true) (herr : ∀ i, IsTransient (outcomes i)) :
    ∃ i e, outcomes i = .error e ∧
      wrapped retries raiseOnExhaust onExhaust args elapsed outcomes =
        match onExhaust with
        | some onExhaust => .ok (some (onExhaust e))
        | none => if raiseOnExhaust then .error e else .ok none := by
  have hpass : ∀ i ≤ retries, ∃ e, outcomes (1 + i) = .error e ∧
      (transientRetrier retries raiseOnExhaust onExhaust).passes e = false := by
    intro i _
    obtain ⟨e, he, htrans⟩ := herr (1 + i)
    exact ⟨e, he, passes_transientRetrier htrans⟩
  obtain ⟨e, he, hloop⟩ := Retrier.loop_exhausted (g := elapsed) rfl hpass
  refine ⟨_, e, he, ?_⟩
  rw [wrapped_of_transient (herr 0), if_pos hlog, hloop, Retrier.exhausted]
  cases onExhaust with
  | some onExhaust => rfl
  | none => cases raiseOnExhaust <;> rfl

/-- The outcomes of a function that never gets past a lock. -/
def blocked (_ : ℕ) : Except CallException α := .error (.lock .rowIsBlocked "")

theorem isTransient_blocked (i : ℕ) : IsTransient (blocked i : Except CallException α) :=
  ⟨_, rfl, rfl⟩

theorem RetriesTransient.hasLog (h : RetriesTransient retries raiseOnExhaust onExhaust args) :
    args.hasLog = true := by
  by_contra hlog
  obtain ⟨i, e, he, hout⟩ := h.exhausts (throw .attributeError) blocked isTransient_blocked
  rw [wrapped_of_not_hasLog hlog (isTransient_blocked 0)] at hout
  cases onExhaust with
  | some onExhaust => cases hout
  | none =>
    cases he
    cases hout

theorem RetriesTransient.ends (h : RetriesTransient retries raiseOnExhaust onExhaust args) :
    onExhaust.isSome = true ∨ raiseOnExhaust = true := by
  cases onExhaust with
  | some onExhaust => exact Or.inl rfl
  | none =>
    cases raiseOnExhaust with
    | true => exact Or.inr rfl
    | false =>
      obtain ⟨i, e, _, hout⟩ := h.exhausts (throw .attributeError) blocked isTransient_blocked
      obtain ⟨j, f, _, hnone⟩ := wrapped_exhausted (throw .attributeError) h.hasLog
        isTransient_blocked
      rw [hout] at hnone
      cases hnone

end Retrying

/-- Transient errors are retried whatever the outcomes are exactly for calls whose first
positional argument is a row, under options that say what an exhausted call ends in. -/
theorem transient_errors_retried_iff {α : Type} (retries : ℕ) (raiseOnExhaust : Bool)
    (onExhaust : Option (CallException → α)) (args : Args) :
    RetriesTransient retries raiseOnExhaust onExhaust args ↔
      (∃ runId, args.positional.head? = some (.row runId)) ∧
        (onExhaust.isSome = true ∨ raiseOnExhaust = true) := by
  rw [← hasLog_iff]
  constructor
  · intro h
    exact ⟨h.hasLog, h.ends⟩
  · rintro ⟨hlog, hends⟩
    constructor
    · intro elapsed outcomes k v h1 hk herr hv
      exact wrapped_returns hlog h1 hk herr hv
    · intro elapsed outcomes herr
      obtain ⟨i, e, he, hout⟩ := wrapped_exhausted elapsed hlog herr
      refine ⟨i, e, he, ?_⟩
      rw [hout]
      cases onExhaust with
      | some onExhaust => rfl
      | none => rw [hends.resolve_left (by simp)]; rfl

/-- A read by id as the scheduler makes it, `DagRefClient.get(run.dag_id)`: one row that is
blocked for a moment ends the call in an `AttributeError`. -/
theorem read_by_id_not_retried :
    ¬RetriesTransient 2 false (some fun _ => (none : Option Uuid)) ⟨[.str "dag_id"], []⟩ := by
  intro h
  have hret := h.returns (throw .attributeError)
    (fun i => if i = 0 then .error (.lock .rowIsBlocked "") else .ok (some 7)) 1 (some 7)
    (by decide) (by decide) (fun i hi => ⟨_, if_pos (by omega), rfl⟩) rfl
  cases hret

/-! ### The calls of the services -/

namespace Retrying

open Threads

instance : ExceptionTypes Exn where
  transientLockErrors := Exn.transient
  attributeError := .attributeError
  assertionError := .runtime

instance : MonadExceptOf Exn P where
  throw := Prog.raise
  tryCatch := Prog.catching

variable {α : Type}

/-- A handler may be entered before or after the value is mapped. -/
theorem map_catching (fn : P α) (h : Exn → P α) :
    some <$> fn.catching h = (some <$> fn).catching fun e => some <$> h e := by
  induction fn with
  | ret a => rfl
  | raise e => rfl
  | call o k ih =>
    show Prog.call o _ = Prog.call o _
    congr 1
    funext r
    exact ih r

/-- `P.retrier` is the retrier, with what it does at the end as a program. -/
theorem loop_eq_retrier (c : Retrier Exn α) (elapsed : P ℚ) (fn : P α) (onExhaust : Exn → P α)
    (hpass : ∀ e, c.passes e = !e.transient) (hlimit : c.totalTimeout = none)
    (hend : ∀ e, (c.exhausted e : P (Option α)) = some <$> onExhaust e) (left : ℕ) :
    c.loop elapsed fn left = some <$> P.retrier Exn.transient onExhaust fn left := by
  induction left with
  | zero =>
    rw [Retrier.loop, P.retrier, map_catching]
    congr 1
    funext e
    rw [hpass]
    cases e.transient
    · rfl
    · exact hend e
  | succ left ih =>
    rw [Retrier.loop, P.retrier, map_catching]
    congr 1
    funext e
    rw [hpass, hlimit]
    cases e.transient
    · rfl
    · exact ih

/-- The wrapper the services' programs use is `handle_exceptions` with two retries. -/
theorem handleExceptions_eq (raiseOnExhaust : Bool) (onExhaust : Option (Exn → α))
    (handler : Exn → P α) (elapsed : P ℚ) (fn : P α) (args : Args)
    (hend : ∀ e, some <$> handler e = match onExhaust with
      | some onExhaust => Prog.ret (some (onExhaust e))
      | none => if raiseOnExhaust then Prog.raise e else Prog.ret none) :
    handleExceptions (some (makeTransientLockErrorsRetryOptions
      { retries := some 2, raiseOnExhaust := raiseOnExhaust, onExhaust := onExhaust }))
      elapsed (fun _ => fn) args = some <$> P.handleExceptions args.hasLog handler fn := by
  rw [handleExceptions, P.handleExceptions, map_catching]
  congr 1
  funext e
  have hexc : (makeTransientLockErrorsRetryOptions
      { retries := some 2, raiseOnExhaust := raiseOnExhaust,
        onExhaust := onExhaust }).exceptions e = e.transient := Bool.or_false _
  simp only [hexc, actionRetry, init_transient, Retrier.run]
  cases e.transient
  · rfl
  · cases args.hasLog
    · rfl
    · apply loop_eq_retrier
      · intro e
        simp [Retrier.passes, transientRetrier, ExceptionTypes.transientLockErrors]
      · rfl
      · intro e
        rw [hend, Retrier.exhausted, transientRetrier]
        cases onExhaust <;> rfl

end Retrying

end YtScheduler
