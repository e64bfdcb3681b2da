import Mathlib.Data.Nat.Find

/-! While loops. One iteration takes the state of a loop to the next state or to a
result. A loop whose states are known one by one ends at the first of them whose
iteration does not go on. -/

namespace YtScheduler.Loops

variable {σ ρ : Type}

section Run

variable (step : σ → σ ⊕ ρ)

/-- At most `n` iterations. -/
def runFor : ℕ → σ → σ ⊕ ρ
  | 0, s => .inl s
  | n + 1, s =>
    match step s with
    | .inl s' => runFor n s'
    | .inr r => .inr r

def Ends (s : σ) (r : ρ) : Prop := ∃ n, runFor step n s = .inr r

end Run

variable {step : σ → σ ⊕ ρ} {s s' : σ} {r : ρ}

theorem runFor_next (h : step s = .inl s') (n : ℕ) :
    runFor step (n + 1) s = runFor step n s' := by
  rw [runFor, h]

theorem runFor_last (h : step s = .inr r) (n : ℕ) : runFor step (n + 1) s = .inr r := by
  rw [runFor, h]

/-- The states of a loop, the iterations that go on, and what the others give. -/
structure Unrolls (step : σ → σ ⊕ ρ) (state : ℕ → σ) (Goes : ℕ → Prop) (result : ℕ → ρ) : Prop where
  goes : ∀ i, Goes i → step (state i) = .inl (state (i + 1))
  stops : ∀ i, ¬Goes i → step (state i) = .inr (result i)

namespace Unrolls

variable {state : ℕ → σ} {Goes : ℕ → Prop} {result : ℕ → ρ}

theorem shift (h : Unrolls step state Goes result) :
    Unrolls step (fun i => state (i + 1)) (fun i => Goes (i + 1)) (fun i => result (i + 1)) where
  goes i := h.goes (i + 1)
  stops i := h.stops (i + 1)

/-- After iterations that all go on. -/
theorem runFor_goes (h : Unrolls step state Goes result) {n : ℕ} (hgo : ∀ i < n, Goes i) :
    runFor step n (state 0) = .inl (state n) := by
  induction n generalizing state Goes result with
  | zero => rfl
  | succ n ih =>
    rw [runFor_next (h.goes 0 (hgo 0 (by omega)))]
    exact ih h.shift fun i hi => hgo (i + 1) (by omega)

/-- After an iteration that does not go on. -/
theorem runFor_stops (h : Unrolls step state Goes result) {k n : ℕ} (hgo : ∀ i < k, Goes i)
    (hk : ¬Goes k) (hn : k < n) : runFor step n (state 0) = .inr (result k) := by
  induction k generalizing state Goes result n with
  | zero =>
    obtain ⟨n, rfl⟩ : ∃ m, n = m + 1 := ⟨n - 1, by omega⟩
    exact runFor_last (h.stops 0 hk) n
  | succ k ih =>
    obtain ⟨n, rfl⟩ : ∃ m, n = m + 1 := ⟨n - 1, by omega⟩
    rw [runFor_next (h.goes 0 (hgo 0 (by omega)))]
    exact ih h.shift (fun i hi => hgo (i + 1) (by omega)) hk (by omega)

/-- Either all of the first iterations go on, or there is a first that does not. -/
theorem goes_or_stops (Goes : ℕ → Prop) (n : ℕ) :
    (∀ i < n, Goes i) ∨ ∃ k < n, (∀ i < k, Goes i) ∧ ¬Goes k := by
  induction n with
  | zero => exact Or.inl (by omega)
  | succ n ih =>
    rcases ih with hgo | ⟨k, hk, hfirst⟩
    · by_cases hn : Goes n
      · left
        intro i hi
        rcases Nat.lt_succ_iff_lt_or_eq.mp hi with hlt | rfl
        · exact hgo i hlt
        · exact hn
      · exact Or.inr ⟨n, by omega, hgo, hn⟩
    · exact Or.inr ⟨k, by omega, hfirst⟩

theorem ends_iff (h : Unrolls step state Goes result) :
    Ends step (state 0) r ↔ ∃ k, (∀ i < k, Goes i) ∧ ¬Goes k ∧ result k = r := by
  constructor
  · rintro ⟨n, hn⟩
    rcases goes_or_stops Goes n with hgo | ⟨k, hk, hgo, hstop⟩
    · rw [h.runFor_goes hgo] at hn
      cases hn
    · rw [h.runFor_stops hgo hstop hk] at hn
      exact ⟨k, hgo, hstop, Sum.inr.inj hn⟩
  · rintro ⟨k, hgo, hstop, rfl⟩
    exact ⟨k + 1, h.runFor_stops hgo hstop (by omega)⟩

end Unrolls

end YtScheduler.Loops
