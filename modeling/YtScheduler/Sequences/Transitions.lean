import Mathlib.Data.List.Basic

/-! Runs of a transition function. An action is taken where the function is
defined; a run is a list of actions, and a condition on a run is a condition on
each of its actions at the state it is taken in. -/

namespace YtScheduler.Transitions

variable {S A : Type}

section Run

variable (act : S → A → Option S)

/-- The state after a list of actions. -/
def run (σ : S) : List A → Option S
  | [] => some σ
  | a :: as => (act σ a).bind fun σ' => run σ' as

/-- Every action of the run is taken in a state in which `C` holds of it. -/
def Along (C : S → A → Prop) : S → List A → Prop
  | _, [] => True
  | σ, a :: as => C σ a ∧ ∀ σ', act σ a = some σ' → Along C σ' as

/-- `P` holds of every state of the run. -/
def Always (P : S → Prop) (σ : S) (as : List A) : Prop :=
  ∀ as₁ as₂ σ₁, as = as₁ ++ as₂ → run act σ as₁ = some σ₁ → P σ₁

instance decidableAlong {C : S → A → Prop} [∀ σ a, Decidable (C σ a)] :
    (σ : S) → (as : List A) → Decidable (Along act C σ as)
  | _, [] => .isTrue trivial
  | σ, a :: as =>
    match h : act σ a with
    | none => decidable_of_iff (C σ a) (by simp [Along, h])
    | some σ' =>
      have : Decidable (Along act C σ' as) := decidableAlong σ' as
      decidable_of_iff (C σ a ∧ Along act C σ' as) (by simp [Along, h])

end Run

variable {act : S → A → Option S} {σ σ' : S} {as bs : List A}

theorem run_append (as bs : List A) :
    run act σ (as ++ bs) = (run act σ as).bind fun σ' => run act σ' bs := by
  induction as generalizing σ with
  | nil => rfl
  | cons a as ih =>
    simp only [List.cons_append, run, Option.bind_assoc]
    congr 1
    funext σ'
    exact ih

/-- What holds at first and is kept by every action that meets the condition holds of the last
state of a run along it. -/
theorem along_induction {C : S → A → Prop} {P : S → Prop} (h0 : P σ)
    (hact : ∀ σ a σ', P σ → C σ a → act σ a = some σ' → P σ') (hc : Along act C σ as)
    (h : run act σ as = some σ') : P σ' := by
  induction as generalizing σ with
  | nil => cases h; exact h0
  | cons a as ih =>
    obtain ⟨σ₁, h1, h2⟩ := Option.bind_eq_some_iff.mp h
    exact ih (hact _ _ _ h0 hc.1 h1) (hc.2 _ h1) h2

theorem along_true : Along act (fun _ _ => True) σ as := by
  induction as generalizing σ with
  | nil => trivial
  | cons a as ih => exact ⟨trivial, fun _ _ => ih⟩

/-- What holds at first and is kept by every action holds of every run. -/
theorem run_induction {P : S → Prop} (h0 : P σ) (hact : ∀ σ a σ', P σ → act σ a = some σ' → P σ')
    (h : run act σ as = some σ') : P σ' :=
  along_induction h0 (fun σ a σ' hP _ ha => hact σ a σ' hP ha) along_true h

theorem along_append {C : S → A → Prop} (h : run act σ as = some σ') :
    Along act C σ (as ++ bs) ↔ Along act C σ as ∧ Along act C σ' bs := by
  induction as generalizing σ with
  | nil =>
    cases h
    simp [Along]
  | cons a as ih =>
    obtain ⟨σ₁, h1, h2⟩ := Option.bind_eq_some_iff.mp h
    have hnext : ∀ {D : S → Prop}, (∀ σ', act σ a = some σ' → D σ') ↔ D σ₁ := by
      intro D
      constructor
      · intro hD
        exact hD σ₁ h1
      · intro hD σ₂ h2
        rwa [Option.some.inj (h1.symm.trans h2)] at hD
    rw [List.cons_append, Along, Along, hnext, hnext, ih h2, and_assoc]

/-- The condition at one action of the run. -/
theorem along_at {C : S → A → Prop} {a : A} (hc : Along act C σ (as ++ a :: bs))
    (h : run act σ as = some σ') : C σ' a :=
  ((along_append h).mp hc).2.1

/-- A run that meets the condition at each of its actions is along it. -/
theorem along_of_forall {C : S → A → Prop}
    (h : ∀ as₁ a as₂ σ₁, as = as₁ ++ a :: as₂ → run act σ as₁ = some σ₁ → C σ₁ a) :
    Along act C σ as := by
  induction as generalizing σ with
  | nil => trivial
  | cons a as ih =>
    refine ⟨h [] a as σ rfl rfl, ?_⟩
    intro σ' ha
    apply ih
    intro as₁ b as₂ σ₁ he hrun
    exact h (a :: as₁) b as₂ σ₁ (by rw [he]; rfl) (by rw [run, ha]; exact hrun)

theorem along_left {C : S → A → Prop} (hc : Along act C σ (as ++ bs)) : Along act C σ as := by
  apply along_of_forall
  rintro as₁ a as₂ σ₁ rfl hrun
  rw [List.append_assoc] at hc
  exact along_at hc hrun

/-- An invariant of the runs along a condition holds of every state of such a run. -/
theorem always_of_along {C : S → A → Prop} {P : S → Prop} (h0 : P σ)
    (hact : ∀ σ a σ', P σ → C σ a → act σ a = some σ' → P σ') (hc : Along act C σ as) :
    Always act P σ as := by
  rintro as₁ as₂ σ₁ rfl hrun
  exact along_induction h0 hact (along_left hc) hrun

theorem always_imp {P Q : S → Prop} (h : Always act P σ as) (himp : ∀ σ, P σ → Q σ) :
    Always act Q σ as :=
  fun as₁ as₂ σ₁ he hrun => himp σ₁ (h as₁ as₂ σ₁ he hrun)

theorem not_always {P : S → Prop} [DecidablePred P]
    (h : (run act σ as).map (fun σ₁ => decide (P σ₁)) = some false) : ¬Always act P σ as := by
  intro hP
  obtain ⟨σ₁, h1, hf⟩ := Option.map_eq_some_iff.mp h
  exact of_decide_eq_false hf (hP as [] σ₁ (by simp) h1)

end YtScheduler.Transitions
