import Mathlib.Data.Int.ConditionallyCompleteOrder
import YtScheduler.Retrying.Attempts
import YtScheduler.Laws.Retries

/-! What the options of a retrier ask of a run, and when the run gives it. The loop compares
the attempt with the attempts by equality only, sleeps the first backoff before
the cap is applied, and passes any number to `time.sleep`. -/

namespace YtScheduler.Retrying.Timed

variable {ε τ α : Type} [Exceptions ε τ]

/-- The sleep before the call number `i + 1`: the backoff doubled `i` times, and capped. -/
def RetryOptions.sleep (o : RetryOptions ε τ α) (i : ℕ) : ℚ :=
  match o.cap with
  | some m => min (o.firstBackoff * 2 ^ i) m
  | none => o.firstBackoff * 2 ^ i

/-- A run does what its options say. -/
structure MeetsOptions (o : RetryOptions ε τ α) (c : Retrier ε τ α) (w : Surroundings ε α)
    (f : Finish ε α) : Prop where
  calls_pos : 1 ≤ f.calls
  calls_le : (f.calls : ℤ) ≤ max 1 c.attempts
  retried : ∀ i, i + 1 < f.calls → c.Retried w i
  returns : ∀ v, w.outcome (f.calls - 1) = .ok v → f.result = .ok (some v)
  reraises : ∀ e, w.outcome (f.calls - 1) = .error e → c.passes e = true →
    f.result = .error (.own e)
  exhausts : ∀ e, w.outcome (f.calls - 1) = .error e → c.passes e = false →
    (c.attempts ≤ f.calls ∨ c.late w (f.calls - 1) = true) ∧ f.result = c.exhausted e
  slept : f.slept = (List.range (f.calls - 1)).map o.sleep

/-- The attempts and the sleeps that the outcomes lead to are ones that the loop can make: there is
an attempt, and if there are more, then the first backoff is not negative and not above the cap,
and no sleep is too long. -/
def Sleepable (o : RetryOptions ε τ α) (c : Retrier ε τ α) (w : Surroundings ε α) : Prop :=
  c.Retried w 0 → 1 ≤ c.attempts ∧ (1 < c.attempts →
    0 ≤ o.firstBackoff ∧ (∀ m, o.cap = some m → o.firstBackoff ≤ m) ∧
      ∀ i : ℕ, (i + 1 : ℤ) < c.attempts → (∀ j ≤ i, c.Retried w j) → o.sleep i ≤ w.longest)

variable {o : RetryOptions ε τ α} {c : Retrier ε τ α} {w : Surroundings ε α} {f : Finish ε α}

namespace Retrier

omit [Exceptions ε τ] in
theorem exhausted_ne_new (e : ε) (b : Builtin) : c.exhausted e ≠ .error (.new b) := by
  unfold exhausted
  cases c.onExhaust with
  | some onExhaust =>
    simp only
    cases onExhaust e <;> simp [Except.mapError]
  | none =>
    simp only
    split_ifs <;> simp

omit [Exceptions ε τ] in
theorem backoffAt_of_uncapped (h : c.maxBackoff = none) (i : ℕ) :
    c.backoffAt i = c.initialBackoff * 2 ^ i := by
  induction i with
  | zero => simp [backoffAt]
  | succ i ih =>
    rw [backoffAt, grow, h, ih]
    ring

omit [Exceptions ε τ] in
theorem backoffAt_of_capped {m : {m : ℚ // m ≠ 0}} (h : c.maxBackoff = some m)
    (hpos : 0 ≤ (m : ℚ)) (hle : c.initialBackoff ≤ m) (i : ℕ) :
    c.backoffAt i = min (c.initialBackoff * 2 ^ i) m := by
  induction i with
  | zero => simp [backoffAt, hle]
  | succ i ih =>
    have hdouble : (m : ℚ) ≤ m * 2 := by linarith
    rw [backoffAt, grow, h, ih]
    simp only
    rw [min_mul_of_nonneg _ _ (by norm_num : (0 : ℚ) ≤ 2), min_assoc, min_eq_right hdouble, pow_succ,
      mul_assoc]

/-- A first backoff between zero and the cap makes every backoff the one asked for. -/
theorem backoffAt_eq_sleep (hinit : init o = .ok c) (hpos : 0 ≤ o.firstBackoff)
    (hcap : ∀ m, o.cap = some m → o.firstBackoff ≤ m) (i : ℕ) : c.backoffAt i = o.sleep i := by
  obtain ⟨t, -, rfl⟩ := init_ok hinit
  cases hm : o.cap with
  | none =>
    rw [backoffAt_of_uncapped (by simp), RetryOptions.sleep, hm]
  | some m =>
    have hle := hcap m hm
    rw [RetryOptions.sleep, hm]
    by_cases h0 : m = 0
    · have hfirst : o.firstBackoff = 0 := le_antisymm (hle.trans h0.le) hpos
      rw [backoffAt_of_uncapped (by simp [h0])]
      simp [hfirst, h0]
    · rw [backoffAt_of_capped (by simp [h0]; rfl) (hpos.trans hle) hle]

theorem Goes.slept {i : ℕ} (h : c.Goes w i) : 0 ≤ c.backoffAt i ∧ c.backoffAt i ≤ w.longest :=
  sleepError_eq_none.mp h.2.2

omit [Exceptions ε τ] in
theorem sleep_nonneg (hpos : 0 ≤ o.firstBackoff)
    (hcap : ∀ m, o.cap = some m → o.firstBackoff ≤ m) (i : ℕ) : 0 ≤ o.sleep i := by
  have hdouble : 0 ≤ o.firstBackoff * 2 ^ i := by positivity
  unfold RetryOptions.sleep
  cases hm : o.cap with
  | none => exact hdouble
  | some m => exact le_min hdouble (hpos.trans (hcap m hm))

/-- A run that neither exhausts its attempts nor its time ends with an exception of the sleep. -/
theorem resultAt_of_sleepError {i : ℕ} (h : c.Retried w i) (hlast : (i + 1 : ℤ) ≠ c.attempts)
    (hstop : ¬c.Goes w i) : ∃ b, c.resultAt w i = .error (.new b) := by
  obtain ⟨e, he, hpass, hlate⟩ := h
  rw [resultAt, he]
  cases hsleep : sleepError w.longest (c.backoffAt i) with
  | none => exact absurd ⟨⟨e, he, hpass, hlate⟩, hlast, hsleep⟩ hstop
  | some b => exact ⟨b, by simp [hpass, hlast, hlate]⟩

end Retrier

open Timed.Retrier

/-- A run that meets its options goes on from a retried call that is not its last attempt. -/
theorem MeetsOptions.goes {k : ℕ} (h : MeetsOptions o c w (c.finishAt w k)) (hstop : ¬c.Goes w k)
    {i : ℕ} (hlast : ∀ j ≤ i, (j + 1 : ℤ) ≠ c.attempts) (hretried : ∀ j ≤ i, c.Retried w j) :
    i < k := by
  by_contra hk
  have hki : k ≤ i := not_lt.mp hk
  obtain ⟨b, hb⟩ := resultAt_of_sleepError (hretried k hki) (hlast k hki) hstop
  obtain ⟨e, he, hpass, -⟩ := hretried k hki
  have hresult := (h.exhausts e he hpass).2
  exact exhausted_ne_new e b (hresult.symm.trans hb)

/-- The sleeps of a run that meets its options are the ones asked for. -/
theorem MeetsOptions.backoffAt {k i : ℕ} (h : MeetsOptions o c w (c.finishAt w k)) (hi : i < k) :
    c.backoffAt i = o.sleep i :=
  List.map_inj_left.mp h.slept i (List.mem_range.mpr hi)

theorem sleepable_of_meets (hinit : init o = .ok c) {k : ℕ} (hgo : ∀ i < k, c.Goes w i)
    (hstop : ¬c.Goes w k) (h : MeetsOptions o c w (c.finishAt w k)) : Sleepable o c w := by
  intro hfirst
  have hfirst' : ∀ j ≤ 0, c.Retried w j := by
    intro j hj
    rwa [Nat.le_zero.mp hj]
  have hone : 1 ≤ c.attempts := by
    by_contra hle
    have hk : 0 < k := h.goes hstop (by intro j hj; omega) hfirst'
    have hcalls := h.calls_le
    simp only [finishAt] at hcalls
    omega
  refine ⟨hone, ?_⟩
  intro hmore
  have hsleep : ∀ i : ℕ, (i + 1 : ℤ) < c.attempts → (∀ j ≤ i, c.Retried w j) →
      0 ≤ o.sleep i ∧ o.sleep i ≤ w.longest ∧ c.backoffAt i = o.sleep i := by
    intro i hi hretried
    have hk : i < k := h.goes hstop (by intro j hj; omega) hretried
    obtain ⟨hpos, hlong⟩ := (hgo i hk).slept
    rw [h.backoffAt hk] at hpos hlong
    exact ⟨hpos, hlong, h.backoffAt hk⟩
  obtain ⟨hpos, -, heq⟩ := hsleep 0 (by omega) hfirst'
  have hbackoff : o.firstBackoff = o.sleep 0 := by
    obtain ⟨t, -, rfl⟩ := init_ok hinit
    exact heq
  refine ⟨hbackoff ▸ hpos, ?_, fun i hi hretried => (hsleep i hi hretried).2.1⟩
  intro m hm
  rw [RetryOptions.sleep, hm] at hbackoff
  rw [hbackoff]
  exact min_le_right _ _

/-- The end of a run that could make its sleeps. -/
theorem meets_finishAt {k : ℕ} (hgo : ∀ i < k, c.Goes w i) (hstop : ¬c.Goes w k)
    (hcalls : (k + 1 : ℤ) ≤ max 1 c.attempts) (hslept : ∀ i < k, c.backoffAt i = o.sleep i)
    (hsleep : c.Retried w k → (k + 1 : ℤ) < c.attempts →
      sleepError w.longest (c.backoffAt k) = none)
    (hone : c.Retried w k → 1 ≤ c.attempts) : MeetsOptions o c w (c.finishAt w k) where
  calls_pos := Nat.succ_pos k
  calls_le := by simpa [finishAt] using hcalls
  retried i hi := (hgo i (Nat.succ_lt_succ_iff.mp hi)).1
  returns v hv := by
    simp only [finishAt, Nat.add_sub_cancel] at hv ⊢
    rw [resultAt, hv]
  reraises e he hpass := by
    simp only [finishAt, Nat.add_sub_cancel] at he ⊢
    rw [resultAt, he]
    simp [hpass]
  exhausts e he hpass := by
    simp only [finishAt, Nat.add_sub_cancel] at he ⊢
    have hend : (k + 1 : ℤ) = c.attempts ∨ c.late w k = true := by
      by_contra hnone
      rw [not_or, Bool.not_eq_true] at hnone
      obtain ⟨hlast, hlate⟩ := hnone
      have hretried : c.Retried w k := ⟨e, he, hpass, hlate⟩
      have hle := hone hretried
      exact hstop ⟨hretried, hlast, hsleep hretried (by omega)⟩
    constructor
    · rcases hend with hlast | hlate
      · left
        push_cast
        exact hlast.ge
      · exact Or.inr hlate
    · rw [resultAt, he]
      simp only [hpass, hend, Bool.false_eq_true, if_false, if_true]
  slept := by
    simp only [finishAt, Nat.add_sub_cancel]
    apply List.map_congr_left
    intro i hi
    exact hslept i (List.mem_range.mp hi)

/-- Where the loop can make its attempts and sleeps, some call within the attempts is not followed
by another, and it ends the run as the options say. -/
theorem meets_of_sleepable (hinit : init o = .ok c) (h : Sleepable o c w) :
    ∃ k, (∀ i < k, c.Goes w i) ∧ ¬c.Goes w k ∧ MeetsOptions o c w (c.finishAt w k) := by
  by_cases hfirst : c.Retried w 0
  · obtain ⟨hone, hmore⟩ := h hfirst
    have hslept : ∀ i : ℕ, (i + 1 : ℤ) < c.attempts → c.backoffAt i = o.sleep i := by
      intro i hi
      obtain ⟨hpos, hcap, -⟩ := hmore (by omega)
      exact backoffAt_eq_sleep hinit hpos hcap i
    obtain ⟨k, hk, hgo, hstop⟩ : ∃ k < c.attempts.toNat, (∀ i < k, c.Goes w i) ∧ ¬c.Goes w k := by
      rcases Loops.Unrolls.goes_or_stops (c.Goes w) c.attempts.toNat with hall | hfound
      · have hlast := (hall (c.attempts.toNat - 1) (by omega)).2.1
        exact absurd (by omega) hlast
      · exact hfound
    refine ⟨k, hgo, hstop, meets_finishAt hgo hstop (by omega) ?_ ?_ fun _ => hone⟩
    · intro i hi
      exact hslept i (by omega)
    · intro hretried hk'
      obtain ⟨hpos, hcap, hlong⟩ := hmore (by omega)
      rw [hslept k hk', sleepError_eq_none]
      refine ⟨?_, hlong k hk' ?_⟩
      · exact sleep_nonneg hpos hcap k
      · intro j hj
        rcases Nat.lt_or_eq_of_le hj with hlt | rfl
        · exact (hgo j hlt).1
        · exact hretried
  · refine ⟨0, by omega, fun hgo => hfirst hgo.1, ?_⟩
    apply meets_finishAt (by omega) (fun hgo => hfirst hgo.1) (by simp) (by omega)
    · intro hretried
      exact absurd hretried hfirst
    · intro hretried
      exact absurd hretried hfirst

/-- A run meets its options exactly when it comes to no attempt and no sleep that the loop gets
wrong. -/
theorem run_meets_options_iff {o : RetryOptions ε τ α} {c : Retrier ε τ α}
    (hinit : init o = .ok c) (w : Surroundings ε α) :
    (∃ f, c.Ends w f ∧ MeetsOptions o c w f) ↔ Sleepable o c w := by
  constructor
  · rintro ⟨f, hends, hmeets⟩
    obtain ⟨k, hgo, hstop, rfl⟩ := ends_iff.mp hends
    exact sleepable_of_meets hinit hgo hstop hmeets
  · intro h
    obtain ⟨k, hgo, hstop, hmeets⟩ := meets_of_sleepable hinit h
    exact ⟨_, ends_iff.mpr ⟨k, hgo, hstop, rfl⟩, hmeets⟩

/-! ### Lock conflicts -/

deriving instance DecidableEq for LockErrorClass

inductive CallExceptionType
  | exception
  | lock (cls : LockErrorClass)

instance : Exceptions CallException CallExceptionType where
  isInstance
    | _, .exception => true
    | .lock cls _, .lock cls' => cls = cls'
    | _, .lock _ => false
  exception := .exception

/-- A row that is blocked at the first call, at a standing clock. -/
def onceBlocked : Surroundings CallException ℕ where
  outcome
    | 0 => .error (.lock .rowIsBlocked "")
    | _ + 1 => .ok 1
  clock _ := 0
  longest := 9223372036

/-- The run without options sleeps half a second and returns the second outcome. -/
theorem run_meets_defaults :
    ∃ c : Retrier CallException CallExceptionType ℕ, init {} = .ok c ∧
      ∃ f, c.Ends onceBlocked f ∧ MeetsOptions {} c onceBlocked f := by
  refine ⟨_, rfl, (run_meets_options_iff rfl onceBlocked).mpr ?_⟩
  intro _
  refine ⟨by decide, fun _ => ⟨by norm_num [RetryOptions.firstBackoff], by rintro m ⟨⟩, ?_⟩⟩
  intro i hi _
  obtain rfl : i = 0 := by
    simp only [RetryOptions.totalAttempts] at hi
    norm_num at hi
    omega
  norm_num [RetryOptions.sleep, RetryOptions.cap, RetryOptions.firstBackoff, onceBlocked]

/-- A cap below the first backoff comes too late. -/
theorem first_sleep_uncapped :
    ¬∀ (o : RetryOptions CallException CallExceptionType ℕ) (c : Retrier CallException _ ℕ)
      (w : Surroundings CallException ℕ), init o = .ok c → Monotone w.clock →
      ∃ f, c.Ends w f ∧ MeetsOptions o c w f := by
  intro h
  obtain ⟨f, hends, hmeets⟩ := h { maxBackoff := some (some (1 / 4)) } _ onceBlocked rfl
    monotone_const
  obtain ⟨k, hgo, hstop, rfl⟩ := ends_iff.mp hends
  have hfirst := sleepable_of_meets rfl hgo hstop hmeets ⟨_, rfl, rfl, rfl⟩
  have hcap := (hfirst.2 (by decide)).2.1 (1 / 4) rfl
  norm_num [RetryOptions.firstBackoff] at hcap

end YtScheduler.Retrying.Timed
