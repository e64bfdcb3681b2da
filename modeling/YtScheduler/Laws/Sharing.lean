import YtScheduler.Laws.Invocations

/-! Wrapped calls that share their default options. Each wrapper has its own handlers, but
the options of a handler that matches are written into the dict of all of them. -/

namespace YtScheduler.Retrying.Timed

variable {ε τ α ι : Type}

/-- The handlers of each wrapper, and the dict that all have been given. -/
structure Wrappers (ε τ α ι : Type) where
  handlers : ι → List (Handler ε τ α)
  defaults : RetryOptions ε τ α

inductive Event (ε τ α ι : Type)
  | setHandler (i : ι) (handler : Handler ε τ α)
  | call (i : ι) (obj : Obj) (w : Surroundings ε α)

variable [DecidableEq ι]

/-- The handlers that a wrapper has been given. -/
def handlersOf (i : ι) : List (Event ε τ α ι) → List (Handler ε τ α)
  | [] => []
  | .setHandler j handler :: es => if j = i then handler :: handlersOf i es else handlersOf i es
  | .call _ _ _ :: es => handlersOf i es

variable [Exceptions ε τ]

namespace Wrappers

/-- What the call of a wrapper comes to, with the default options after it. -/
def call (s : Wrappers ε τ α ι) (i : ι) (obj : Obj) (w : Surroundings ε α) :
    Decision ε τ α × RetryOptions ε τ α :=
  wrapper obj (s.handlers i) s.defaults (w.outcome 0)

def step (s : Wrappers ε τ α ι) : Event ε τ α ι → Wrappers ε τ α ι
  | .setHandler i handler =>
    { s with handlers := Function.update s.handlers i (s.handlers i ++ [handler]) }
  | .call i obj w => { s with defaults := (s.call i obj w).2 }

def run (s : Wrappers ε τ α ι) (es : List (Event ε τ α ι)) : Wrappers ε τ α ι := es.foldl step s

end Wrappers

/-- The wrappers before any handler is set. -/
def wrapped (ι : Type) (d : RetryOptions ε τ α) : Wrappers ε τ α ι := ⟨fun _ => [], d⟩

/-- No call has changed the dict, and each has come to what the wrapper's own handlers and the
options as first given make of the outcomes of its function. -/
structure Isolated (d : RetryOptions ε τ α) (es : List (Event ε τ α ι)) : Prop where
  defaults : ∀ es₁ es₂, es = es₁ ++ es₂ → ((wrapped ι d).run es₁).defaults = d
  results : ∀ es₁ es₂ i obj w, es = es₁ ++ .call i obj w :: es₂ → ∀ result calls,
    (((wrapped ι d).run es₁).call i obj w).1.CallEnds w result calls ↔
      (wrapper obj (handlersOf i es₁) d (w.outcome 0)).1.CallEnds w result calls
  invocations : ∀ es₁ es₂ i obj w, es = es₁ ++ .call i obj w :: es₂ → ∀ calls,
    (((wrapped ι d).run es₁).call i obj w).1.AtMost w calls ↔
      (wrapper obj (handlersOf i es₁) d (w.outcome 0)).1.AtMost w calls

/-- The options of the handlers that match, up to one with an unknown action. -/
def merged (e : ε) : List (Handler ε τ α) → RetryOptions ε τ α
  | [] => {}
  | h :: hs =>
    if isinstance e h.exceptionTypes then
      if h.exceptionAction.all fun name => (Action.ofString name).isSome then
        h.retryOptions.update (merged e hs)
      else {}
    else merged e hs

/-- The call does not change the dict: its function raises nothing that the handlers see, or the
dict is empty, or the options of the handlers that match are in it already. -/
def Unchanging (d : RetryOptions ε τ α) (handlers : List (Handler ε τ α)) (obj : Obj)
    (outcome : Except ε α) : Prop :=
  ∀ e, outcome = .error e → isinstance e [Exceptions.exception ε] = true → obj.debugs = true →
    d.isEmpty = false → (merged e handlers).Within d

variable {d : RetryOptions ε τ α} {e : ε} {handlers : List (Handler ε τ α)}
  {action : Option Action} {options : RetryOptions ε τ α}

omit [DecidableEq ι] in
theorem scan_options : (scan e handlers action options).2 = options.update (merged e handlers) := by
  induction handlers generalizing action options with
  | nil => simp [scan, merged]
  | cons h hs ih =>
    rw [scan, merged]
    split_ifs with hmatch hknown
    · cases hname : h.exceptionAction with
      | none => simp only [ih, RetryOptions.update_assoc]
      | some name =>
        cases haction : Action.ofString name with
        | none => simp [hname, haction] at hknown
        | some action' => simp only [haction, ih, RetryOptions.update_assoc]
    · cases hname : h.exceptionAction with
      | none => simp [hname] at hknown
      | some name =>
        cases haction : Action.ofString name with
        | none => simp [haction]
        | some action' => simp [hname, haction] at hknown
    · exact ih

omit [DecidableEq ι] in
theorem wrapper_defaults_iff {obj : Obj} {outcome : Except ε α} :
    (wrapper obj handlers d outcome).2 = d ↔ Unchanging d handlers obj outcome := by
  cases outcome with
  | ok v => simp [wrapper, Unchanging]
  | error e =>
    simp only [Unchanging, Except.error.injEq, forall_eq']
    by_cases hexc : isinstance e [Exceptions.exception ε] = true
    · by_cases hdebug : obj.debugs = true
      · cases hempty : d.isEmpty with
        | true => simp [wrapper, hexc, handle, hdebug, hempty]
        | false =>
          simp only [wrapper, hexc, if_true, handle, hdebug, hempty, Bool.false_eq_true, if_false,
            scan_options, RetryOptions.update_eq_self_iff, true_imp_iff]
      · simp [wrapper, hexc, handle, hdebug]
    · simp [wrapper, hexc]

/-! ### Histories -/

omit [Exceptions ε τ] in
theorem handlersOf_append {i : ι} {es₁ es₂ : List (Event ε τ α ι)} :
    handlersOf i (es₁ ++ es₂) = handlersOf i es₁ ++ handlersOf i es₂ := by
  induction es₁ with
  | nil => rfl
  | cons x es₁ ih =>
    cases x with
    | setHandler j handler =>
      simp only [List.cons_append, handlersOf, ih]
      split_ifs <;> rfl
    | call j obj w => exact ih

theorem run_append {s : Wrappers ε τ α ι} {es₁ es₂ : List (Event ε τ α ι)} :
    s.run (es₁ ++ es₂) = (s.run es₁).run es₂ := List.foldl_append

/-- A wrapper has the handlers that it was given, whatever the calls. -/
theorem run_handlers {i : ι} (es : List (Event ε τ α ι)) :
    ((wrapped ι d).run es).handlers i = handlersOf i es := by
  induction es using List.reverseRecOn with
  | nil => rfl
  | append_singleton es x ih =>
    rw [run_append, handlersOf_append, ← ih]
    cases x with
    | call j obj w => simp [Wrappers.run, Wrappers.step, handlersOf]
    | setHandler j handler =>
      by_cases hij : j = i
      · subst hij
        simp [Wrappers.run, Wrappers.step, handlersOf]
      · simp [Wrappers.run, Wrappers.step, handlersOf, hij, Function.update_of_ne (Ne.symm hij)]

/-- The dict is unchanged along a history in which no call changes it. -/
theorem run_defaults {es : List (Event ε τ α ι)}
    (h : ∀ es₁ es₂ i obj w, es = es₁ ++ .call i obj w :: es₂ →
      Unchanging d (handlersOf i es₁) obj (w.outcome 0)) :
    ((wrapped ι d).run es).defaults = d := by
  induction es using List.reverseRecOn with
  | nil => rfl
  | append_singleton es x ih =>
    have hes : ((wrapped ι d).run es).defaults = d := by
      apply ih
      rintro es₁ es₂ i obj w rfl
      exact h es₁ (es₂ ++ [x]) i obj w (by simp)
    rw [run_append]
    cases x with
    | setHandler j handler => exact hes
    | call j obj w =>
      have hcall := wrapper_defaults_iff.mpr (h es [] j obj w rfl)
      rw [← run_handlers (d := d)] at hcall
      change (Wrappers.call _ j obj w).2 = d
      rw [Wrappers.call, hes]
      exact hcall

/-- Wrapped calls do not configure each other exactly when none of them meets a handler with
options that differ from the shared ones. -/
theorem isolated_iff (d : RetryOptions ε τ α) (es : List (Event ε τ α ι)) :
    Isolated d es ↔ ∀ es₁ es₂ i obj w, es = es₁ ++ .call i obj w :: es₂ →
      Unchanging d (handlersOf i es₁) obj (w.outcome 0) := by
  constructor
  · rintro h es₁ es₂ i obj w rfl
    have hbefore := h.defaults es₁ _ rfl
    have hafter := h.defaults (es₁ ++ [.call i obj w]) es₂ (by simp)
    rw [run_append] at hafter
    change (Wrappers.call _ i obj w).2 = d at hafter
    rw [Wrappers.call, hbefore, run_handlers] at hafter
    exact wrapper_defaults_iff.mp hafter
  · intro h
    have hdefaults : ∀ es₁ es₂, es = es₁ ++ es₂ → ((wrapped ι d).run es₁).defaults = d := by
      rintro es₁ es₂ rfl
      apply run_defaults
      rintro es₃ es₄ i obj w rfl
      exact h es₃ (es₄ ++ es₂) i obj w (by simp)
    have hcall : ∀ es₁ es₂ i obj w, es = es₁ ++ .call i obj w :: es₂ →
        ((wrapped ι d).run es₁).call i obj w =
          wrapper obj (handlersOf i es₁) d (w.outcome 0) := by
      intro es₁ es₂ i obj w he
      rw [Wrappers.call, hdefaults es₁ _ he, run_handlers]
    refine ⟨hdefaults, ?_, ?_⟩
    · intro es₁ es₂ i obj w he result calls
      rw [hcall es₁ es₂ i obj w he]
    · intro es₁ es₂ i obj w he calls
      rw [hcall es₁ es₂ i obj w he]

/-! ### Two clients -/

/-- A handler that has one client retry Cypress lock conflicts only. -/
def cypressOnly : Handler CallException CallExceptionType ℕ where
  exceptionTypes := [.lock .cypressTransactionLockConflict]
  retryOptions := { exceptions := some [.lock .cypressTransactionLockConflict] }

/-- The other client no longer retries a blocked row. -/
theorem handler_changes_other_client :
    ¬∀ (d : RetryOptions CallException CallExceptionType ℕ)
      (es : List (Event CallException CallExceptionType ℕ Bool)), Isolated d es := by
  intro h
  let row : Obj := ⟨.logger, .missing⟩
  let conflict : Surroundings CallException ℕ :=
    { alwaysBlocked with outcome := fun _ => .error (.lock .cypressTransactionLockConflict "") }
  have hother := (h writeAtomicTransientRetryOptions
    [.setHandler false cypressOnly, .call false row conflict, .call true row alwaysBlocked]).results
    [.setHandler false cypressOnly, .call false row conflict] [] true row alwaysBlocked rfl
    (.error (.own (.lock .rowIsBlocked ""))) 1
  obtain ⟨f, hends, -, hcalls⟩ := hother.mp ⟨rfl, rfl⟩
  obtain ⟨k, -, -, rfl⟩ := Retrier.ends_iff.mp hends
  simp [Retrier.finishAt] at hcalls

end YtScheduler.Retrying.Timed
