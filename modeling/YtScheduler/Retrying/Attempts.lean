import YtScheduler.Retrying.Options
import YtScheduler.Sequences.Loops

/-! The loop of `Retrier.run`. The outcomes of the function and the readings of the clock
are given by the number of the call, so that the state before a call is known from its
number: each earlier call was retried and followed by the sleep that was its turn. -/

namespace YtScheduler.Retrying.Timed

open Loops

variable {ε τ α : Type}

/-- What a run does not decide. -/
structure Surroundings (ε α : Type) where
  /-- The outcome of each call of the function. -/
  outcome : ℕ → Except ε α
  /-- What `datetime.now()` reads in microseconds: at the start, and after each call. -/
  clock : ℕ → ℤ
  /-- The longest sleep of the platform, in seconds. -/
  longest : ℚ

/-- The exception of `time.sleep`, if it raises one. -/
def sleepError (longest seconds : ℚ) : Option Builtin :=
  if longest < |seconds| then some .overflowError
  else if seconds < 0 then some .valueError
  else none

theorem sleepError_eq_none {longest seconds : ℚ} :
    sleepError longest seconds = none ↔ 0 ≤ seconds ∧ seconds ≤ longest := by
  unfold sleepError
  split_ifs with hlong hneg
  · simp only [false_iff, not_and, not_le]
    intro hpos
    rwa [abs_of_nonneg hpos] at hlong
  · simp only [false_iff, not_and, not_le]
    intro hpos
    linarith
  · simp only [true_iff]
    exact ⟨not_lt.mp hneg, (le_abs_self _).trans (not_lt.mp hlong)⟩

/-- The variables of the loop, with the calls made and the sleeps taken. -/
structure Loop where
  attempt : ℤ
  backoff : ℚ
  calls : ℕ
  slept : List ℚ

/-- The end of a run. -/
structure Finish (ε α : Type) where
  result : Result ε α
  calls : ℕ
  slept : List ℚ

namespace Retrier

variable [Exceptions ε τ] (c : Retrier ε τ α) (w : Surroundings ε α)

/-- The exceptions that `run` lets through. -/
def passes (e : ε) : Bool :=
  !isinstance e c.exceptions || isinstance e c.ignoreExceptions || c.retryOn.any fun p => !p e

/-- What `run` does with the last exception. -/
def exhausted (e : ε) : Result ε α :=
  match c.onExhaust with
  | some onExhaust => (onExhaust e).mapError .own
  | none => if c.raiseOnExhaust then .error (.own e) else .ok none

/-- The next backoff. -/
def grow (backoff : ℚ) : ℚ :=
  match c.maxBackoff with
  | some m => min (backoff * 2) m
  | none => backoff * 2

/-- The time since the start exceeds `total_timeout` after the call number `i`. -/
def late (i : ℕ) : Bool := c.totalTimeout.any fun limit => limit < w.clock (i + 1) - w.clock 0

/-- The body of `while True`. -/
def step (s : Loop) : Loop ⊕ Finish ε α :=
  let finish (result : Result ε α) : Loop ⊕ Finish ε α := .inr ⟨result, s.calls + 1, s.slept⟩
  match w.outcome s.calls with
  | .ok v => finish (.ok (some v))
  | .error e =>
    if c.passes e then finish (.error (.own e))
    else if s.attempt = c.attempts then finish (c.exhausted e)
    else if c.late w s.calls then finish (c.exhausted e)
    else
      match sleepError w.longest s.backoff with
      | some b => finish (.error (.new b))
      | none => .inl
        { attempt := s.attempt + 1
          backoff := c.grow s.backoff
          calls := s.calls + 1
          slept := s.slept ++ [s.backoff] }

/-- The variables before the loop. -/
def start : Loop := ⟨1, c.initialBackoff, 0, []⟩

/-- `run` ends so. -/
def Ends (f : Finish ε α) : Prop := Loops.Ends (c.step w) c.start f

/-- The calls made within some iterations. -/
def callsAfter (n : ℕ) : ℕ :=
  match runFor (c.step w) n c.start with
  | .inl s => s.calls
  | .inr f => f.calls

/-- The backoff after some iterations. -/
def backoffAt : ℕ → ℚ
  | 0 => c.initialBackoff
  | i + 1 => c.grow (backoffAt i)

/-- The variables before the call number `i`. -/
def loopAt (i : ℕ) : Loop where
  attempt := i + 1
  backoff := c.backoffAt i
  calls := i
  slept := (List.range i).map c.backoffAt

/-- The call number `i` raises an exception that is retried, and in time. -/
def Retried (i : ℕ) : Prop :=
  ∃ e, w.outcome i = .error e ∧ c.passes e = false ∧ c.late w i = false

/-- The call number `i` is followed by a sleep and another call. -/
def Goes (i : ℕ) : Prop :=
  c.Retried w i ∧ (i + 1 : ℤ) ≠ c.attempts ∧ sleepError w.longest (c.backoffAt i) = none

/-- What the run gives that ends with the call number `i`. A sleep that succeeds is followed by
another call, so it ends no run. -/
def resultAt (i : ℕ) : Result ε α :=
  match w.outcome i with
  | .ok v => .ok (some v)
  | .error e =>
    if c.passes e then .error (.own e)
    else if (i + 1 : ℤ) = c.attempts ∨ c.late w i = true then c.exhausted e
    else
      match sleepError w.longest (c.backoffAt i) with
      | some b => .error (.new b)
      | none => c.exhausted e

def finishAt (i : ℕ) : Finish ε α := ⟨c.resultAt w i, i + 1, (List.range i).map c.backoffAt⟩

variable {c w}

theorem step_goes {i : ℕ} (h : c.Goes w i) : c.step w (c.loopAt i) = .inl (c.loopAt (i + 1)) := by
  obtain ⟨⟨e, he, hpass, hlate⟩, hlast, hsleep⟩ := h
  simp only [step, loopAt, he, hpass, hlate, hlast, hsleep, Bool.false_eq_true, if_false,
    List.range_succ, List.map_append, List.map_cons, List.map_nil]
  rfl

theorem step_stops {i : ℕ} (h : ¬c.Goes w i) : c.step w (c.loopAt i) = .inr (c.finishAt w i) := by
  simp only [step, loopAt, finishAt, resultAt]
  cases he : w.outcome i with
  | ok v => rfl
  | error e =>
    by_cases hpass : c.passes e = true
    · simp only [hpass, if_true]
    · by_cases hlast : (i + 1 : ℤ) = c.attempts
      · simp only [hpass, hlast, if_true, true_or, Bool.false_eq_true, if_false]
      · by_cases hlate : c.late w i = true
        · simp only [hpass, hlast, hlate, if_true, or_true, Bool.false_eq_true, if_false]
        · cases hsleep : sleepError w.longest (c.backoffAt i) with
          | some b => simp only [hpass, hlast, hlate, or_self, Bool.false_eq_true, if_false]
          | none =>
            refine absurd ⟨⟨e, he, ?_, ?_⟩, hlast, hsleep⟩ h
            · simpa using hpass
            · simpa using hlate

variable (c w) in
theorem unrolls : Unrolls (c.step w) c.loopAt (c.Goes w) (c.finishAt w) where
  goes _ := step_goes
  stops _ := step_stops

omit [Exceptions ε τ] in
theorem loopAt_zero : c.loopAt 0 = c.start := rfl

/-- A run ends with the first call that is not followed by another. -/
theorem ends_iff {f : Finish ε α} :
    c.Ends w f ↔ ∃ k, (∀ i < k, c.Goes w i) ∧ ¬c.Goes w k ∧ c.finishAt w k = f :=
  (unrolls c w).ends_iff

/-- A run comes to one more call than it has calls that go on. -/
theorem lt_callsAfter {m : ℕ} :
    (∃ n, m < c.callsAfter w n) ↔ ∀ i < m, c.Goes w i := by
  constructor
  · rintro ⟨n, hn⟩
    rw [callsAfter, ← loopAt_zero] at hn
    rcases Unrolls.goes_or_stops (c.Goes w) n with hgo | ⟨k, hk, hgo, hstop⟩
    · rw [(unrolls c w).runFor_goes hgo] at hn
      intro i hi
      exact hgo i (hi.trans hn)
    · rw [(unrolls c w).runFor_stops hgo hstop hk] at hn
      intro i hi
      exact hgo i (lt_of_lt_of_le hi (Nat.lt_succ_iff.mp hn))
  · intro hgo
    refine ⟨m + 1, ?_⟩
    rw [callsAfter, ← loopAt_zero]
    by_cases hm : c.Goes w m
    · have hall : ∀ i < m + 1, c.Goes w i := by
        intro i hi
        rcases Nat.lt_succ_iff_lt_or_eq.mp hi with hlt | rfl
        · exact hgo i hlt
        · exact hm
      rw [(unrolls c w).runFor_goes hall]
      exact Nat.lt_succ_self m
    · rw [(unrolls c w).runFor_stops hgo hm (Nat.lt_succ_self m)]
      exact Nat.lt_succ_self m

end Retrier

end YtScheduler.Retrying.Timed
